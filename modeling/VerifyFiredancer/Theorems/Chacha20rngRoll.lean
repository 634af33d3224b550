import VerifyFiredancer.Theorems.Chacha20rngStream
import VerifyFiredancer.Lib.Rejection
import Mathlib.Data.Nat.Log

/-!
# A roll is unbiased

In both modes the zone of `fd_chacha20rng_ulong_roll` is one less than a multiple `k * n` of the bound, with
`2^63 ≤ k * n ≤ 2^64` (`ChachaRollAux.zone_spec`); no step of its computation wraps, also not for a bound of 1, a power of two, or
one near `2^64`. The rest is counting (`Rejection`): every number below `n` has the same number `k` of draws that are accepted
for it. `k` is the greatest possible with `MODE_MOD`, so that this accepts all that `MODE_SHIFT` does. The roll itself returns what
the first word that is accepted is accepted for (`ChachaRollAux.rollLoop_eq_some_iff`).
-/

namespace VerifyFiredancer

open Rejection ChachaStreamAux

/-- The `k`-th word drawn from a generator is the first one accepted, for `r`. -/
def FirstAccepted (refill : FdChacha20rng → FdChacha20rng) (n zone : Ulong) (rng : FdChacha20rng) (k : Nat) (r : Ulong) : Prop :=
  (∀ j, j < k → fdChacha20rngRollDraw n zone (rng.word (fun _ => refill) j) = none) ∧
    fdChacha20rngRollDraw n zone (rng.word (fun _ => refill) k) = some r

/-- What rolls below `n` give, in either mode. A roll returns as soon as a word is accepted, and what it is accepted for. -/
structure RollUnbiased (refill : FdChacha20rng → FdChacha20rng) (findMsb : Ulong → Int) (n : Ulong) : Prop where
  lt : ∀ fuel rng rng' r, fdChacha20rngUlongRoll refill findMsb fuel rng n = some (rng', r) → r < n
  returns : ∀ fuel rng rng' r, fdChacha20rngUlongRoll refill findMsb fuel rng n = some (rng', r) ↔
    ∃ k, k < fuel ∧ FirstAccepted refill n (fdChacha20rngRollZone findMsb rng.mode n) rng k r ∧
      rng' = rng.after (fun _ => refill) (k + 1)
  dvd : ∀ mode, n.toNat ∣ (fdChacha20rngRollZone findMsb mode n).toNat + 1
  count : ∀ mode r, r < n →
    {v | fdChacha20rngRollDraw n (fdChacha20rngRollZone findMsb mode n) v = some r}.ncard =
      ((fdChacha20rngRollZone findMsb mode n).toNat + 1) / n.toNat
  half : ∀ mode, 2 ^ 63 ≤ {v | (fdChacha20rngRollDraw n (fdChacha20rngRollZone findMsb mode n) v).isSome}.ncard
  shiftInMod : ∀ v r,
    fdChacha20rngRollDraw n (fdChacha20rngRollZone findMsb fdChacha20rngModeShift n) v = some r →
      fdChacha20rngRollDraw n (fdChacha20rngRollZone findMsb fdChacha20rngModeMod n) v = some r

namespace ChachaRollAux

/-! ## One draw -/

/-- The product of a draw does not wrap. -/
theorem product_toNat (v n : Ulong) : ((v.setWidth 128 * n.setWidth 128 : BitVec 128)).toNat = v.toNat * n.toNat := by
  have hv := v.isLt
  have hn := n.isLt
  have hlt : v.toNat * n.toNat < 2 ^ 64 * 2 ^ 64 := Nat.mul_lt_mul'' hv hn
  rw [BitVec.toNat_mul, BitVec.toNat_setWidth, BitVec.toNat_setWidth, Nat.mod_eq_of_lt (a := v.toNat) (by omega),
    Nat.mod_eq_of_lt (a := n.toNat) (by omega), Nat.mod_eq_of_lt (by omega)]

/-- When a draw is accepted for `r`. -/
theorem draw_eq_some_iff (n zone v r : Ulong) :
    fdChacha20rngRollDraw n zone v = some r ↔
      v.toNat * n.toNat % 2 ^ 64 < zone.toNat + 1 ∧ v.toNat * n.toNat / 2 ^ 64 = r.toNat := by
  have hv := v.isLt
  have hn := n.isLt
  have hlt : v.toNat * n.toNat < 2 ^ 64 * 2 ^ 64 := Nat.mul_lt_mul'' hv hn
  have hlo : ((v.setWidth 128 * n.setWidth 128 : BitVec 128).setWidth 64).toNat = v.toNat * n.toNat % 2 ^ 64 := by
    rw [BitVec.toNat_setWidth, product_toNat]
  have hhi : (((v.setWidth 128 * n.setWidth 128 : BitVec 128) >>> 64).setWidth 64).toNat =
      v.toNat * n.toNat / 2 ^ 64 := by
    rw [BitVec.toNat_setWidth, BitVec.toNat_ushiftRight, product_toNat, Nat.shiftRight_eq_div_pow]
    exact Nat.mod_eq_of_lt (Nat.div_lt_of_lt_mul hlt)
  unfold fdChacha20rngRollDraw
  simp only
  rw [← hlo, ← hhi, Nat.lt_succ_iff, ← BitVec.le_def, BitVec.toNat_inj]
  split_ifs with h
  · rw [Option.some.injEq]
    exact ⟨fun e => ⟨h, e⟩, fun e => e.2⟩
  · exact ⟨nofun, fun e => absurd e.1 h⟩

/-- When a draw is accepted. -/
theorem draw_isSome_iff (n zone v : Ulong) :
    (fdChacha20rngRollDraw n zone v).isSome ↔ v.toNat * n.toNat % 2 ^ 64 < zone.toNat + 1 := by
  rw [Option.isSome_iff_exists]
  constructor
  · rintro ⟨r, hr⟩
    exact ((draw_eq_some_iff n zone v r).1 hr).1
  · intro h
    have hlt : v.toNat * n.toNat / 2 ^ 64 < 2 ^ 64 :=
      Nat.div_lt_of_lt_mul (Nat.mul_lt_mul'' v.isLt n.isLt)
    exact ⟨BitVec.ofNat 64 (v.toNat * n.toNat / 2 ^ 64),
      (draw_eq_some_iff n zone v _).2 ⟨h, by rw [BitVec.toNat_ofNat, Nat.mod_eq_of_lt hlt]⟩⟩

/-! ## The zones -/

/-- A zone is one less than a multiple of the bound, of at least half of the range. -/
structure ZoneOf (zone n : Ulong) (k : Nat) : Prop where
  succ_eq : zone.toNat + 1 = k * n.toNat
  half : 2 ^ 63 ≤ k * n.toNat

theorem ZoneOf.le {zone n : Ulong} {k : Nat} (h : ZoneOf zone n k) : k * n.toNat ≤ 2 ^ 64 := by
  rw [← h.succ_eq]
  exact zone.isLt

/-- The greatest multiple of the bound in the range takes at least half of it. -/
theorem half_le_div_mul {n : Nat} (hn : 1 ≤ n) (hlt : n < 2 ^ 64) : 2 ^ 63 ≤ 2 ^ 64 / n * n := by
  have hq : 1 ≤ 2 ^ 64 / n := Nat.div_pos (Nat.le_of_lt hlt) hn
  have hle : n ≤ 2 ^ 64 / n * n := Nat.le_mul_of_pos_left n hq
  have hsplit := Nat.div_add_mod' (2 ^ 64) n
  have hmod := Nat.mod_lt (2 ^ 64) hn
  omega

/-- The zone of `MODE_MOD`. -/
theorem zone_mod (findMsb : Ulong → Int) {n : Ulong} (hn : 1 ≤ n.toNat) :
    ZoneOf (fdChacha20rngRollZone findMsb fdChacha20rngModeMod n) n (2 ^ 64 / n.toNat) := by
  have hlt := n.isLt
  have hmax : ulongMax.toNat = 2 ^ 64 - 1 := rfl
  have hsub : (ulongMax - n + 1).toNat = 2 ^ 64 - n.toNat := by
    have hone : (1 : Ulong).toNat = 1 := rfl
    rw [BitVec.toNat_add, BitVec.toNat_sub_of_le (BitVec.le_def.2 (by omega)), hmax, hone]
    omega
  have hmod : ((ulongMax - n + 1) % n).toNat = 2 ^ 64 % n.toNat := by
    rw [BitVec.toNat_umod, hsub, ← Nat.mod_eq_sub_mod (Nat.le_of_lt hlt)]
  have hsplit := Nat.div_add_mod' (2 ^ 64) n.toNat
  have hpos := half_le_div_mul hn hlt
  refine ⟨?_, hpos⟩
  have hzone : fdChacha20rngRollZone findMsb fdChacha20rngModeMod n = ulongMax - (ulongMax - n + 1) % n := by
    rw [fdChacha20rngRollZone, beq_self_eq_true]
    rfl
  rw [hzone, BitVec.toNat_sub_of_le (BitVec.le_def.2 (by omega)), hmod, hmax]
  omega

/-- The zone of any other mode. -/
theorem zone_shift {findMsb : Ulong → Int} (hmsb : ∀ n : Ulong, n ≠ 0 → findMsb n = n.toNat.log2) {n : Ulong}
    (hn : 1 ≤ n.toNat) {mode : Int} (hmode : mode ≠ fdChacha20rngModeMod) :
    ZoneOf (fdChacha20rngRollZone findMsb mode n) n (2 ^ (63 - n.toNat.log2)) := by
  have hlt := n.isLt
  have hne : n ≠ 0 := by
    rintro rfl
    exact absurd hn (by decide)
  have hlog : n.toNat.log2 < 64 := (Nat.log2_lt (by omega)).2 hlt
  have hlow : 2 ^ n.toNat.log2 ≤ n.toNat := Nat.log2_self_le (by omega)
  have hhigh : n.toNat < 2 ^ (n.toNat.log2 + 1) := Nat.lt_log2_self
  -- the product is in the upper half of the range
  have hlo : 2 ^ 63 ≤ 2 ^ (63 - n.toNat.log2) * n.toNat :=
    calc 2 ^ 63 = 2 ^ (63 - n.toNat.log2) * 2 ^ n.toNat.log2 := by rw [← pow_add]; congr 1; omega
      _ ≤ _ := Nat.mul_le_mul_left _ hlow
  have hhi : 2 ^ (63 - n.toNat.log2) * n.toNat < 2 ^ 64 :=
    calc _ < 2 ^ (63 - n.toNat.log2) * 2 ^ (n.toNat.log2 + 1) := Nat.mul_lt_mul_of_pos_left hhigh (Nat.two_pow_pos _)
      _ = 2 ^ 64 := by rw [← pow_add]; congr 1; omega
  have hshl : (n <<< (63 - findMsb n).toNat).toNat = 2 ^ (63 - n.toNat.log2) * n.toNat := by
    have hcast : (63 - findMsb n).toNat = 63 - n.toNat.log2 := by
      rw [hmsb n hne]
      omega
    rw [hcast, BitVec.toNat_shiftLeft, Nat.shiftLeft_eq, Nat.mul_comm, Nat.mod_eq_of_lt hhi]
  have hone : (1 : Ulong).toNat = 1 := rfl
  have hzone : fdChacha20rngRollZone findMsb mode n = (n <<< (63 - findMsb n).toNat) - 1 := by
    rw [fdChacha20rngRollZone, beq_eq_false_iff_ne.2 hmode]
    rfl
  refine ⟨?_, hlo⟩
  rw [hzone, BitVec.toNat_sub_of_le (BitVec.le_def.2 (by omega)), hshl, hone]
  omega

/-- Every mode has a zone. -/
theorem zone_spec {findMsb : Ulong → Int} (hmsb : ∀ n : Ulong, n ≠ 0 → findMsb n = n.toNat.log2) {n : Ulong}
    (hn : 1 ≤ n.toNat) (mode : Int) : ∃ k, ZoneOf (fdChacha20rngRollZone findMsb mode n) n k := by
  by_cases hmode : mode = fdChacha20rngModeMod
  · rw [hmode]
    exact ⟨_, zone_mod findMsb hn⟩
  · exact ⟨_, zone_shift hmsb hn hmode⟩

/-- The zone of any mode is at most that of `MODE_MOD`. -/
theorem zone_le_mod (findMsb : Ulong → Int) {zone n : Ulong} {k : Nat} (hn : 1 ≤ n.toNat) (h : ZoneOf zone n k) :
    zone.toNat ≤ (fdChacha20rngRollZone findMsb fdChacha20rngModeMod n).toNat := by
  have hmax := (zone_mod findMsb hn).succ_eq
  have hk : k ≤ 2 ^ 64 / n.toNat := (Nat.le_div_iff_mul_le hn).2 h.le
  have hmul := Nat.mul_le_mul_right n.toNat hk
  have hsucc := h.succ_eq
  omega

/-! ## The loop -/

/-- Calls after the first one are calls of the generator it leaves. -/
theorem after_succ (refill : FdChacha20rng → FdChacha20rng) (rng : FdChacha20rng) (k : Nat) :
    rng.after (fun _ => refill) (k + 1) = (fdChacha20rngUlong refill rng).1.after (fun _ => refill) k := by
  induction k with
  | zero => rfl
  | succ k ih => rw [FdChacha20rng.after, ih, FdChacha20rng.after]

theorem word_succ (refill : FdChacha20rng → FdChacha20rng) (rng : FdChacha20rng) (k : Nat) :
    rng.word (fun _ => refill) (k + 1) = (fdChacha20rngUlong refill rng).1.word (fun _ => refill) k := by
  rw [FdChacha20rng.word, after_succ, FdChacha20rng.word]

section Loop

variable {refill : FdChacha20rng → FdChacha20rng} {n zone : Ulong} {rng : FdChacha20rng} {r : Ulong}

/-- When the first word is the first one accepted. -/
theorem firstAccepted_zero : FirstAccepted refill n zone rng 0 r ↔
    fdChacha20rngRollDraw n zone (fdChacha20rngUlong refill rng).2 = some r :=
  ⟨fun h => h.2, fun h => ⟨fun j hj => absurd hj (Nat.not_lt_zero j), h⟩⟩

/-- When a later one is: the first is rejected, and it is the first accepted of the rest. -/
theorem firstAccepted_succ (k : Nat) : FirstAccepted refill n zone rng (k + 1) r ↔
    fdChacha20rngRollDraw n zone (fdChacha20rngUlong refill rng).2 = none ∧
      FirstAccepted refill n zone (fdChacha20rngUlong refill rng).1 k r := by
  constructor
  · rintro ⟨hnone, hsome⟩
    refine ⟨hnone 0 (Nat.succ_pos k), fun j hj => ?_, ?_⟩
    · rw [← word_succ]
      exact hnone (j + 1) (Nat.succ_lt_succ hj)
    · rw [← word_succ]
      exact hsome
  · rintro ⟨hfirst, hnone, hsome⟩
    refine ⟨fun j hj => ?_, ?_⟩
    · cases j with
      | zero => exact hfirst
      | succ j =>
        rw [word_succ]
        exact hnone j (Nat.lt_of_succ_lt_succ hj)
    · rw [word_succ]
      exact hsome

/-- What the loop returns: it is what the first word accepted is accepted for, if that comes within the attempts. -/
theorem rollLoop_eq_some_iff (fuel : Nat) : ∀ (rng rng' : FdChacha20rng),
    fdChacha20rngRollLoop refill n zone fuel rng = some (rng', r) ↔
      ∃ k, k < fuel ∧ FirstAccepted refill n zone rng k r ∧ rng' = rng.after (fun _ => refill) (k + 1) := by
  induction fuel with
  | zero => exact fun rng rng' => ⟨nofun, fun ⟨k, hk, _⟩ => absurd hk (Nat.not_lt_zero k)⟩
  | succ fuel ih =>
    intro rng rng'
    rw [fdChacha20rngRollLoop]
    cases hdraw : fdChacha20rngRollDraw n zone (fdChacha20rngUlong refill rng).2 with
    | some hi =>
      simp only [hdraw, Option.some.injEq, Prod.mk.injEq]
      constructor
      · rintro ⟨rfl, rfl⟩
        exact ⟨0, Nat.succ_pos fuel, firstAccepted_zero.2 hdraw, rfl⟩
      · rintro ⟨k, _, hfirst, rfl⟩
        cases k with
        | zero => exact ⟨rfl, Option.some.inj (hdraw.symm.trans (firstAccepted_zero.1 hfirst))⟩
        | succ k => exact nomatch hdraw.symm.trans ((firstAccepted_succ k).1 hfirst).1
    | none =>
      simp only [hdraw]
      rw [ih]
      constructor
      · rintro ⟨k, hk, hfirst, rfl⟩
        exact ⟨k + 1, Nat.succ_lt_succ hk, (firstAccepted_succ k).2 ⟨hdraw, hfirst⟩, (after_succ refill rng (k + 1)).symm⟩
      · rintro ⟨k, hk, hfirst, rfl⟩
        cases k with
        | zero => exact nomatch hdraw.symm.trans (firstAccepted_zero.1 hfirst)
        | succ k => exact ⟨k, Nat.lt_of_succ_lt_succ hk, ((firstAccepted_succ k).1 hfirst).2, after_succ refill rng (k + 1)⟩

end Loop

/-- A number that a draw is accepted for is below the bound. -/
theorem draw_lt {n zone v r : Ulong} (hn : 1 ≤ n.toNat) (h : fdChacha20rngRollDraw n zone v = some r) : r < n := by
  have hdiv := ((draw_eq_some_iff n zone v r).1 h).2
  rw [BitVec.lt_def, ← hdiv, Nat.div_lt_iff_lt_mul (Nat.two_pow_pos 64), Nat.mul_comm]
  exact Nat.mul_lt_mul_of_pos_left v.isLt hn

end ChachaRollAux

open ChachaRollAux

/-- Rolls below any bound, in either mode, are unbiased. -/
theorem chachaRoll_unbiased (refill : FdChacha20rng → FdChacha20rng) (findMsb : Ulong → Int)
    (hmsb : ∀ n : Ulong, n ≠ 0 → findMsb n = n.toNat.log2) (n : Ulong) (hn : 1 ≤ n.toNat) :
    RollUnbiased refill findMsb n := by
  constructor
  case returns => exact fun fuel rng rng' r => rollLoop_eq_some_iff fuel rng rng'
  case lt =>
    intro fuel rng rng' r h
    obtain ⟨k, _, hfirst, _⟩ := (rollLoop_eq_some_iff fuel rng rng').1 h
    exact draw_lt hn hfirst.2
  case dvd =>
    intro mode
    obtain ⟨k, hk⟩ := zone_spec hmsb hn mode
    rw [hk.succ_eq]
    exact Nat.dvd_mul_left n.toNat k
  case count =>
    intro mode r hr
    obtain ⟨k, hk⟩ := zone_spec hmsb hn mode
    rw [hk.succ_eq, Nat.mul_div_cancel k hn, ← card_fiber hn hk.le (BitVec.lt_def.1 hr)]
    refine ncard_toNat _ (fun x hx => (mem_fiber.1 hx).1) fun v => ?_
    rw [draw_eq_some_iff, hk.succ_eq, mem_fiber]
    exact (and_iff_right v.isLt).symm
  case half =>
    intro mode
    obtain ⟨k, hk⟩ := zone_spec hmsb hn mode
    have hcard : {v | (fdChacha20rngRollDraw n (fdChacha20rngRollZone findMsb mode n) v).isSome}.ncard = n.toNat * k := by
      rw [← card_accepted hn hk.le]
      refine ncard_toNat _ (fun x hx => (mem_accepted.1 hx).1) fun v => ?_
      rw [draw_isSome_iff, hk.succ_eq, mem_accepted]
      exact (and_iff_right v.isLt).symm
    rw [hcard, Nat.mul_comm]
    exact hk.half
  case shiftInMod =>
    intro v r h
    obtain ⟨k, hk⟩ := zone_spec hmsb hn fdChacha20rngModeShift
    have hle := zone_le_mod findMsb hn hk
    rw [draw_eq_some_iff] at h ⊢
    exact ⟨by omega, h.2⟩

/-- A bound above `2^63`, with a block of the counting keystream at a time: the first word is rejected and the second is
accepted. -/
theorem chachaRoll_unbiased_second : RollUnbiased refillBlock (fun n => n.toNat.log2) 0x8000000000000014 ∧
    fdChacha20rngUlongRoll refillBlock (fun n => n.toNat.log2) 2 initRng 0x8000000000000014 =
      some (initRng.after (fun _ => refillBlock) 2, 0x0787068605850485) := by
  have h : RollUnbiased refillBlock (fun n => n.toNat.log2) 0x8000000000000014 :=
    chachaRoll_unbiased refillBlock (fun n => n.toNat.log2) (fun _ _ => rfl) 0x8000000000000014 (by decide)
  refine ⟨h, (h.returns 2 initRng _ _).2 ⟨1, by decide, ⟨fun j hj => ?_, by decide⟩, rfl⟩⟩
  obtain rfl : j = 0 := by omega
  decide

end VerifyFiredancer
