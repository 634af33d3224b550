import VerifyFiredancer.Theorems.Chacha20rngRoll
import VerifyFiredancer.Theorems.Chacha20rngStream
import VerifyFiredancer.Lib.Sampling

/-!
# Calls are samples of the keystream

Words and rolls in any order take the words of the keystream one after the other: what they return are the samples
(`Sampling.samples`) of these words, of which a word accepts every draw and a roll those in its zone (`chacha_calls_sample`).
Every number below the bound of a roll has as many draws, so the results of any calls are independent and uniform: any
two lists of results that they may have come from as many keystreams (`chacha_calls_uniform`).
-/

namespace VerifyFiredancer

open ByteMem RingWindow Sampling ChachaStreamAux ChachaRollAux

/-- The draws a call accepts, and what for. -/
def RngCall.draw (fdUlongFindMsb : Ulong → Int) (mode : Int) : RngCall → Ulong → Option Ulong
  | .ulong, v => some v
  | .roll n, v => fdChacha20rngRollDraw n (fdChacha20rngRollZone fdUlongFindMsb mode n) v

/-- A bound is positive. -/
def RngCall.Ok : RngCall → Prop
  | .ulong => True
  | .roll n => 1 ≤ n.toNat

/-- What a call may return. -/
def RngCall.Results : RngCall → Set Ulong
  | .ulong => Set.univ
  | .roll n => {r | r < n}

/-- The refill does not touch the mode. -/
def KeepsMode (refill : FdChacha20rng → FdChacha20rng) : Prop := ∀ rng, (refill rng).mode = rng.mode

/-- The words of a keystream from the one at `i` on. -/
def keystreamWords (keystream : Mem) : Nat → Nat → List Ulong
  | _, 0 => []
  | i, l + 1 => BitVec.ofNat 64 (loadLE keystream (8 * i) 8) :: keystreamWords keystream (i + 1) l

/-- A keystream that begins with words. -/
def keystreamOf (ws : List Ulong) : Mem := fun p => storeLE (fun _ => 0) (8 * (p / 8)) 8 (ws.getD (p / 8) 0).toNat p

namespace ChachaCallsAux

variable {keystream : Mem} {refill : FdChacha20rng → FdChacha20rng} {findMsb : Ulong → Int} {mode : Int}

/-- The generator when `i` words were taken. -/
structure At (keystream : Mem) (mode : Int) (i : Nat) (rng : FdChacha20rng) : Prop where
  inv : ∃ hi, RngInv keystream i hi rng
  mode_eq : rng.mode = mode

/-- One word. -/
theorem ulong_at (hr : Refills keystream refill) (hm : KeepsMode refill) {i : Nat} {rng : FdChacha20rng}
    (h : At keystream mode i rng) (hi : i + 1 < 2 ^ 61) :
    (fdChacha20rngUlong refill rng).2 = BitVec.ofNat 64 (loadLE keystream (8 * i) 8) ∧
      At keystream mode (i + 1) (fdChacha20rngUlong refill rng).1 := by
  obtain ⟨hi', hinv⟩ := h.inv
  obtain ⟨hword, hnext⟩ := call_inv hinv hr hi
  refine ⟨?_, ⟨_, hnext⟩, ?_⟩
  · rw [← hword, BitVec.ofNat_toNat, BitVec.setWidth_eq]
  · rw [← h.mode_eq, fdChacha20rngUlong]
    show (if fdChacha20rngAvail rng < 8 then refill rng else rng).mode = rng.mode
    split
    · exact hm rng
    · rfl

/-- A roll that returns took the words up to the first that is accepted. -/
theorem rollLoop_takes (hr : Refills keystream refill) (hm : KeepsMode refill) (n zone : Ulong)
    {f : RngCall → Ulong → Option Ulong} (hf : f (.roll n) = fdChacha20rngRollDraw n zone) :
    ∀ (fuel i : Nat) (rng : FdChacha20rng) {rng' r}, At keystream mode i rng → i + fuel < 2 ^ 61 →
      fdChacha20rngRollLoop refill n zone fuel rng = some (rng', r) →
      ∃ k, k < fuel ∧ At keystream mode (i + k + 1) rng' ∧ ∀ cs l,
        samples f (.roll n :: cs) (keystreamWords keystream i (k + 1 + l)) =
          (samples f cs (keystreamWords keystream (i + k + 1) l)).map (r :: ·) := by
  intro fuel
  induction fuel with
  | zero => intro i rng rng' r _ _ h; cases h
  | succ fuel ih =>
    intro i rng rng' r hat hi h
    obtain ⟨hword, hnext⟩ := ulong_at hr hm hat (by omega)
    rw [fdChacha20rngRollLoop] at h
    cases hdraw : fdChacha20rngRollDraw n zone (fdChacha20rngUlong refill rng).2 with
    | some hi =>
      simp only [hdraw, Option.some.injEq, Prod.mk.injEq] at h
      obtain ⟨rfl, rfl⟩ := h
      rw [hword, ← hf] at hdraw
      refine ⟨0, Nat.succ_pos _, hnext, fun cs l => ?_⟩
      rw [Nat.zero_add, Nat.add_comm 1 l]
      exact samples_accepted hdraw
    | none =>
      simp only [hdraw] at h
      rw [hword, ← hf] at hdraw
      obtain ⟨k, hk, hat', hs⟩ := ih (i + 1) _ hnext (by omega) h
      refine ⟨k + 1, by omega, by rw [← Nat.add_assoc, Nat.add_right_comm i k 1]; exact hat', fun cs l => ?_⟩
      have hlen : k + 1 + 1 + l = k + 1 + l + 1 := by omega
      rw [hlen, keystreamWords, samples_rejected hdraw, hs cs l, ← Nat.add_assoc, Nat.add_right_comm i k 1]

/-- A roll over words that are just enough for it and what follows it. -/
theorem rollLoop_returns (hr : Refills keystream refill) (hm : KeepsMode refill) (n zone : Ulong)
    {f : RngCall → Ulong → Option Ulong} (hf : f (.roll n) = fdChacha20rngRollDraw n zone) {cs : List RngCall} :
    ∀ (l i fuel : Nat) (rng : FdChacha20rng) {rs}, At keystream mode i rng → l ≤ fuel → i + l < 2 ^ 61 →
      samples f (.roll n :: cs) (keystreamWords keystream i l) = some rs →
      ∃ k r rs' rng', k < l ∧ rs = r :: rs' ∧ fdChacha20rngRollLoop refill n zone fuel rng = some (rng', r) ∧
        At keystream mode (i + k + 1) rng' ∧ samples f cs (keystreamWords keystream (i + k + 1) (l - k - 1)) = some rs' := by
  intro l
  induction l with
  | zero => intro i fuel rng rs _ _ _ h; cases h
  | succ l ih =>
    intro i fuel rng rs hat hfuel hi h
    obtain ⟨fuel, rfl⟩ : ∃ m, fuel = m + 1 := ⟨fuel - 1, by omega⟩
    obtain ⟨hword, hnext⟩ := ulong_at hr hm hat (by omega)
    rw [keystreamWords] at h
    rw [fdChacha20rngRollLoop]
    cases hdraw : fdChacha20rngRollDraw n zone (fdChacha20rngUlong refill rng).2 with
    | some r =>
      have hacc := hdraw
      rw [hword, ← hf] at hacc
      rw [samples_accepted hacc, Option.map_eq_some_iff] at h
      obtain ⟨rs', hrs, rfl⟩ := h
      exact ⟨0, r, rs', _, Nat.succ_pos l, rfl, by simp only [hdraw], hnext, hrs⟩
    | none =>
      have hrej := hdraw
      rw [hword, ← hf] at hrej
      rw [samples_rejected hrej] at h
      obtain ⟨k, r, rs', rng', hk, hrs, hloop, hat', hs⟩ := ih (i + 1) fuel _ hnext (by omega) (by omega) h
      have hpos : i + 1 + k + 1 = i + (k + 1) + 1 := by omega
      have hleft : l - k - 1 = l + 1 - (k + 1) - 1 := by omega
      rw [hpos] at hat' hs
      rw [hleft] at hs
      exact ⟨k + 1, r, rs', rng', by omega, hrs, by simp only [hdraw]; exact hloop, hat', hs⟩

/-- Calls that return took words that are just enough. -/
theorem calls_take (hr : Refills keystream refill) (hm : KeepsMode refill) (fuel : Nat) :
    ∀ (cs : List RngCall) (i : Nat) (rng : FdChacha20rng) {rng' rs}, At keystream mode i rng →
      i + cs.length * (fuel + 1) < 2 ^ 61 → rng.calls refill findMsb fuel cs = some (rng', rs) →
      ∃ l, l ≤ cs.length * (fuel + 1) ∧ At keystream mode (i + l) rng' ∧
        samples (RngCall.draw findMsb mode) cs (keystreamWords keystream i l) = some rs := by
  intro cs
  induction cs with
  | nil =>
    intro i rng rng' rs hat _ h
    cases h
    exact ⟨0, Nat.zero_le _, hat, rfl⟩
  | cons c cs ih =>
    intro i rng rng' rs hat hi h
    rw [List.length_cons, Nat.succ_mul] at hi ⊢
    obtain ⟨⟨rng1, r⟩, hcall, h⟩ := Option.bind_eq_some_iff.1 h
    obtain ⟨⟨rng2, rs'⟩, hrest, h⟩ := Option.bind_eq_some_iff.1 h
    cases h
    cases c with
    | ulong =>
      cases hcall
      obtain ⟨hword, hnext⟩ := ulong_at hr hm hat (by omega)
      obtain ⟨l, hl, hat', hs⟩ := ih (i + 1) _ hnext (by omega) hrest
      refine ⟨l + 1, by omega, by rw [Nat.add_comm l 1, ← Nat.add_assoc]; exact hat', ?_⟩
      rw [keystreamWords, samples_accepted (b := (fdChacha20rngUlong refill rng).2) (by rw [hword]; rfl), hs]
      rfl
    | roll n =>
      rw [FdChacha20rng.call, fdChacha20rngUlongRoll, hat.mode_eq] at hcall
      obtain ⟨k, hk, hat1, hs1⟩ := rollLoop_takes hr hm n _ (f := RngCall.draw findMsb mode) rfl fuel i rng hat (by omega) hcall
      obtain ⟨l, hl, hat', hs⟩ := ih (i + k + 1) _ hat1 (by omega) hrest
      refine ⟨k + 1 + l, by omega, by rw [← Nat.add_assoc, ← Nat.add_assoc]; exact hat', ?_⟩
      rw [hs1 cs l, hs]
      rfl

/-- Calls over words that are just enough return. -/
theorem calls_return (hr : Refills keystream refill) (hm : KeepsMode refill) (fuel : Nat) :
    ∀ (cs : List RngCall) (l i : Nat) (rng : FdChacha20rng) {rs}, At keystream mode i rng → l ≤ fuel → i + l < 2 ^ 61 →
      samples (RngCall.draw findMsb mode) cs (keystreamWords keystream i l) = some rs →
      ∃ rng', rng.calls refill findMsb fuel cs = some (rng', rs) ∧ At keystream mode (i + l) rng' := by
  intro cs
  induction cs with
  | nil =>
    intro l i rng rs hat _ _ h
    cases l with
    | zero =>
      cases h
      exact ⟨rng, rfl, hat⟩
    | succ l => cases h
  | cons c cs ih =>
    intro l i rng rs hat hfuel hi h
    cases c with
    | ulong =>
      cases l with
      | zero => cases h
      | succ l =>
        obtain ⟨hword, hnext⟩ := ulong_at hr hm hat (by omega)
        rw [keystreamWords, samples_accepted (b := (fdChacha20rngUlong refill rng).2) (by rw [hword]; rfl),
          Option.map_eq_some_iff] at h
        obtain ⟨rs', hs, rfl⟩ := h
        obtain ⟨rng', hcalls, hat'⟩ := ih l (i + 1) _ hnext (by omega) (by omega) hs
        refine ⟨rng', ?_, by rw [Nat.add_comm l 1, ← Nat.add_assoc]; exact hat'⟩
        simp only [FdChacha20rng.calls, FdChacha20rng.call, hcalls, Option.bind_eq_bind, Option.bind_some]
        rfl
    | roll n =>
      obtain ⟨k, r, rs', rng1, hk, rfl, hloop, hat1, hs⟩ :=
        rollLoop_returns hr hm n (fdChacha20rngRollZone findMsb mode n) (f := RngCall.draw findMsb mode) rfl l i fuel rng hat
          hfuel hi h
      obtain ⟨rng', hcalls, hat'⟩ := ih (l - k - 1) (i + k + 1) rng1 hat1 (by omega) (by omega) hs
      have hpos : i + k + 1 + (l - k - 1) = i + l := by omega
      rw [hpos] at hat'
      refine ⟨rng', ?_, hat'⟩
      simp only [FdChacha20rng.calls, FdChacha20rng.call, fdChacha20rngUlongRoll, hat.mode_eq, hloop, hcalls,
        Option.bind_eq_bind, Option.bind_some]
      rfl

/-- The generator before the first call. -/
theorem init_at {rng : FdChacha20rng} (h : rng.IsInit) : At keystream rng.mode 0 rng := by
  refine ⟨⟨0, Window.empty _ 0 keystream rng.buf, ?_, ?_, Nat.dvd_zero 64⟩, rfl⟩
  · rw [h.1]
    rfl
  · rw [h.2]
    rfl

theorem At.off {i : Nat} {rng : FdChacha20rng} (h : At keystream mode i rng) : rng.bufOff.toNat = 8 * i := by
  obtain ⟨hi, hinv⟩ := h.inv
  exact hinv.off

/-- Every number a call may return has as many draws. -/
theorem draw_count (hmsb : ∀ n : Ulong, n ≠ 0 → findMsb n = n.toNat.log2) (mode : Int) {c : RngCall} (hc : c.Ok) {r r' : Ulong}
    (hr : r ∈ c.Results) (hr' : r' ∈ c.Results) :
    {v | c.draw findMsb mode v = some r}.ncard = {v | c.draw findMsb mode v = some r'}.ncard := by
  cases c with
  | ulong =>
    have hone : ∀ x : Ulong, {v | RngCall.draw findMsb mode .ulong v = some x} = {x} := by
      intro x
      ext v
      exact Option.some_inj
    rw [hone, hone, Set.ncard_singleton, Set.ncard_singleton]
  | roll n =>
    obtain ⟨k, hk⟩ := zone_spec hmsb hc mode
    have hcard : ∀ x : Ulong, x < n → {v | RngCall.draw findMsb mode (.roll n) v = some x}.ncard = k := by
      intro x hx
      rw [← Rejection.card_fiber hc hk.le (BitVec.lt_def.1 hx)]
      refine Rejection.ncard_toNat _ (fun y hy => (Rejection.mem_fiber.1 hy).1) fun v => ?_
      rw [RngCall.draw, draw_eq_some_iff, hk.succ_eq, Rejection.mem_fiber]
      exact (and_iff_right v.isLt).symm
    rw [hcard r hr, hcard r' hr']

/-- What is returned for calls with positive bounds is what they may return. -/
theorem results_of_samples {cs : List RngCall} {vs rs : List Ulong} (hcs : ∀ c ∈ cs, c.Ok)
    (h : samples (RngCall.draw findMsb mode) cs vs = some rs) : List.Forall₂ (fun c r => r ∈ c.Results) cs rs := by
  refine ((List.forall₂_and_left ..).2 ⟨hcs, samples_accept vs h⟩).imp ?_
  rintro c r ⟨hc, v, hv⟩
  cases c with
  | ulong => exact Set.mem_univ r
  | roll n => exact draw_lt hc hv

/-- The words a keystream begins with. -/
theorem keystreamWords_of (ws : List Ulong) : ∀ l i, i + l = ws.length → keystreamWords (keystreamOf ws) i l = ws.drop i := by
  intro l
  induction l with
  | zero =>
    intro i hi
    rw [List.drop_of_length_le (by omega)]
    rfl
  | succ l ih =>
    intro i hi
    have hword : loadLE (keystreamOf ws) (8 * i) 8 = (ws.getD i 0).toNat := by
      rw [← loadLE_storeLE_of_lt (fun _ => 0) (8 * i) (n := 8) (ws.getD i 0).isLt]
      apply loadLE_congr
      intro p hp hp'
      have hindex : p / 8 = i := by omega
      rw [keystreamOf, hindex]
    rw [keystreamWords, hword, ih (i + 1) (by omega), List.drop_eq_getElem_cons (by omega : i < ws.length), BitVec.ofNat_toNat,
      BitVec.setWidth_eq, List.getD_eq_getElem?_getD, List.getElem?_eq_getElem (by omega : i < ws.length), Option.getD_some]

/-- A refill that appends one block of a keystream and leaves the rest of the ring. -/
def refillFrom (keystream : Mem) (rng : FdChacha20rng) : FdChacha20rng :=
  { rng with
    buf := fun p =>
      let j := (p + 256 - rng.bufFill.toNat % 256) % 256
      if j < 64 then keystream (rng.bufFill.toNat + j) else rng.buf p
    bufFill := rng.bufFill + 64 }

theorem refillFrom_refills (keystream : Mem) : Refills keystream (refillFrom keystream) := by
  intro rng _
  refine ⟨rfl, 1, Nat.le_refl 1, by decide, rfl, fun j hj => ?_⟩
  have hbuf : fdChacha20rngBufsz.toNat = 256 := rfl
  have hindex : ((rng.bufFill.toNat + j) % 256 + 256 - rng.bufFill.toNat % 256) % 256 = j := by omega
  rw [hbuf]
  simp only [refillFrom, hindex]
  rw [if_pos (by omega)]

end ChachaCallsAux

open ChachaCallsAux

/-- From `fd_chacha20rng_init` on, words and rolls below positive bounds, in any order, return the samples of the words of the
keystream they take: what returns has taken words that are just enough for what it returns, with each number below its bound, and
over words that are just enough it returns. -/
theorem chacha_calls_sample (keystream : Mem) (refill : FdChacha20rng → FdChacha20rng) (findMsb : Ulong → Int)
    (rng : FdChacha20rng) (cs : List RngCall) (fuel : Nat) (hinit : rng.IsInit) (hr : Refills keystream refill)
    (hm : KeepsMode refill) (hfuel : (cs.length + 1) * (fuel + 1) < 2 ^ 61) (hcs : ∀ c ∈ cs, c.Ok) :
    (∀ rng' rs, rng.calls refill findMsb fuel cs = some (rng', rs) → ∃ l, rng'.bufOff.toNat = 8 * l ∧
      samples (RngCall.draw findMsb rng.mode) cs (keystreamWords keystream 0 l) = some rs ∧
      List.Forall₂ (fun c r => r ∈ c.Results) cs rs) ∧
    ∀ l rs, l ≤ fuel → samples (RngCall.draw findMsb rng.mode) cs (keystreamWords keystream 0 l) = some rs →
      ∃ rng', rng.calls refill findMsb fuel cs = some (rng', rs) ∧ rng'.bufOff.toNat = 8 * l := by
  rw [Nat.succ_mul] at hfuel
  constructor
  · intro rng' rs h
    obtain ⟨l, _, hat, hs⟩ := calls_take hr hm fuel cs 0 rng (init_at hinit) (by omega) h
    rw [Nat.zero_add] at hat
    exact ⟨l, hat.off, hs, results_of_samples hcs hs⟩
  · intro l rs hl h
    obtain ⟨rng', hcalls, hat⟩ := calls_return hr hm fuel cs l 0 rng (init_at hinit) hl (by omega) h
    rw [Nat.zero_add] at hat
    exact ⟨rng', hcalls, hat.off⟩

/-- A roll above `2^63`, which rejects the first word, and a word, with a block at a time: they take three words. -/
theorem chacha_calls_sample_two :
    ∃ rng', initRng.calls (refillFrom countingKeystream) (fun n => n.toNat.log2) 5 [.roll 0x8000000000000014, .ulong] =
        some (rng', [0x0787068605850485, 0x1716151413121110]) ∧ rng'.bufOff.toNat = 8 * 3 := by
  have hcs : ∀ c ∈ [RngCall.roll 0x8000000000000014, .ulong], c.Ok := by
    intro c hc
    rcases List.mem_cons.1 hc with rfl | hc
    · exact (by decide : 1 ≤ (0x8000000000000014 : Ulong).toNat)
    · obtain rfl := List.mem_singleton.1 hc
      exact trivial
  exact (chacha_calls_sample countingKeystream (refillFrom countingKeystream) (fun n => n.toNat.log2) initRng
    [.roll 0x8000000000000014, .ulong] 5 ⟨rfl, rfl⟩ (refillFrom_refills countingKeystream) (fun _ => rfl) (by decide) hcs).2
    3 _ (by decide) (by decide)

/-- The results of words and rolls are independent and uniform: of the keystreams on which calls return results after a number of
words, there are as many for any other results that the calls may have. -/
theorem chacha_calls_uniform (refill : Mem → FdChacha20rng → FdChacha20rng) (findMsb : Ulong → Int) (rng : FdChacha20rng)
    (cs : List RngCall) (fuel l : Nat) (rs rs' : List Ulong) (hmsb : ∀ n : Ulong, n ≠ 0 → findMsb n = n.toNat.log2)
    (hinit : rng.IsInit) (hr : ∀ keystream, Refills keystream (refill keystream)) (hm : ∀ keystream, KeepsMode (refill keystream))
    (hfuel : (cs.length + 1) * (fuel + 1) < 2 ^ 61) (hl : l ≤ fuel) (hcs : ∀ c ∈ cs, c.Ok)
    (hrs : List.Forall₂ (fun c r => r ∈ c.Results) cs rs) (hrs' : List.Forall₂ (fun c r => r ∈ c.Results) cs rs') :
    {ws : List Ulong | ws.length = l ∧ ∃ rng', rng.calls (refill (keystreamOf ws)) findMsb fuel cs = some (rng', rs) ∧
        rng'.bufOff.toNat = 8 * l}.ncard =
      {ws : List Ulong | ws.length = l ∧ ∃ rng', rng.calls (refill (keystreamOf ws)) findMsb fuel cs = some (rng', rs') ∧
        rng'.bufOff.toNat = 8 * l}.ncard := by
  rw [Nat.succ_mul] at hfuel
  -- the keystreams are the lists of draws whose samples are the results
  have hdrawn : ∀ rs : List Ulong,
      {ws : List Ulong | ws.length = l ∧ ∃ rng', rng.calls (refill (keystreamOf ws)) findMsb fuel cs = some (rng', rs) ∧
        rng'.bufOff.toNat = 8 * l} = drawn (RngCall.draw findMsb rng.mode) cs l rs := by
    intro rs
    ext ws
    constructor
    · rintro ⟨hlen, rng', hcalls, hoff⟩
      obtain ⟨l', _, hat, hs⟩ := calls_take (hr _) (hm _) fuel cs 0 rng (init_at hinit) (by omega) hcalls
      have hsame : l' = l := by
        have := hat.off
        omega
      rw [hsame, keystreamWords_of ws l 0 (by omega), List.drop_zero] at hs
      exact ⟨hlen, hs⟩
    · rintro ⟨hlen, hs⟩
      have hwords := keystreamWords_of ws l 0 (by omega)
      rw [List.drop_zero] at hwords
      rw [← hwords] at hs
      obtain ⟨rng', hcalls, hat⟩ := calls_return (hr (keystreamOf ws)) (hm _) fuel cs l 0 rng (init_at hinit) hl (by omega) hs
      rw [Nat.zero_add] at hat
      exact ⟨hlen, rng', hcalls, hat.off⟩
  have : Finite Ulong := Finite.of_injective BitVec.toFin fun _ _ => BitVec.eq_of_toFin_eq
  rw [hdrawn rs, hdrawn rs']
  exact ncard_drawn_eq _ (fun c hc r hr r' hr' => draw_count hmsb rng.mode (hcs c hc) hr hr') l rs rs' hrs hrs'

/-- A roll below 10 and a word that take three words of the keystream: as many keystreams give 3 and 7 as 9 and 0. -/
theorem chacha_calls_uniform_two :
    {ws : List Ulong | ws.length = 3 ∧ ∃ rng', initRng.calls (refillFrom (keystreamOf ws)) (fun n => n.toNat.log2) 3
        [.roll 10, .ulong] = some (rng', [3, 7]) ∧ rng'.bufOff.toNat = 8 * 3}.ncard =
      {ws : List Ulong | ws.length = 3 ∧ ∃ rng', initRng.calls (refillFrom (keystreamOf ws)) (fun n => n.toNat.log2) 3
        [.roll 10, .ulong] = some (rng', [9, 0]) ∧ rng'.bufOff.toNat = 8 * 3}.ncard :=
  chacha_calls_uniform refillFrom (fun n => n.toNat.log2) initRng [.roll 10, .ulong] 3 3 [3, 7] [9, 0] (fun _ _ => rfl)
    ⟨rfl, rfl⟩ refillFrom_refills (fun _ _ => rfl) (by decide) (by decide)
    (by
      intro c hc
      simp only [List.mem_cons, List.not_mem_nil, or_false] at hc
      rcases hc with rfl | rfl
      · exact (by decide : 1 ≤ (10 : Ulong).toNat)
      · exact trivial)
    (.cons (by decide : (3 : Ulong) < 10) (.cons trivial .nil)) (.cons (by decide : (9 : Ulong) < 10) (.cons trivial .nil))

end VerifyFiredancer
