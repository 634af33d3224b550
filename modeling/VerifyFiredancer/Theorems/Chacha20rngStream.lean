import VerifyFiredancer.Chacha20rng
import VerifyFiredancer.Lib.RingWindow

/-!
# The words are the keystream

The ring holds the window of the keystream between the bytes consumed and the bytes produced (`RngInv`). Both ends are multiples
of 8, so there is a refill only when the window is empty, and a word does not straddle the end of the ring. Fewer than `2^61`
calls consume fewer than `2^64` bytes, but they can produce more: `buf_fill` wraps before `buf_off` does, which the difference of
the two does not notice and a comparison of them does.
-/

namespace VerifyFiredancer

open ByteMem RingWindow

/-- What the refill does to an empty ring: it appends whole blocks of the keystream, at least one and at most what the ring
holds. -/
structure Refilled (keystream : Mem) (rng rng' : FdChacha20rng) : Prop where
  bufOff : rng'.bufOff = rng.bufOff
  blocks : ∃ k, 1 ≤ k ∧ 64 * k ≤ fdChacha20rngBufsz.toNat ∧ rng'.bufFill = rng.bufFill + BitVec.ofNat 64 (64 * k) ∧
    ∀ j, j < 64 * k →
      rng'.buf ((rng.bufFill.toNat + j) % fdChacha20rngBufsz.toNat) = keystream (rng.bufFill.toNat + j)

/-- A refill appends to every empty ring. -/
def Refills (keystream : Mem) (refill : FdChacha20rng → FdChacha20rng) : Prop :=
  ∀ rng, rng.bufOff = rng.bufFill → Refilled keystream rng (refill rng)

/-- The state that `fd_chacha20rng_init` leaves. -/
def FdChacha20rng.IsInit (rng : FdChacha20rng) : Prop := rng.bufOff = 0 ∧ rng.bufFill = 0

/-- The words are the keystream and `buf_off` does not pass `buf_fill`. -/
def StreamOrdered : Prop :=
  ∀ (keystream : Mem) (refills : Nat → FdChacha20rng → FdChacha20rng) (rng : FdChacha20rng), rng.IsInit →
    (∀ i, Refills keystream (refills i)) → ∀ n, n < 2 ^ 61 →
      (∀ i, i < n → (rng.word refills i).toNat = loadLE keystream (8 * i) 8) ∧
        (rng.after refills n).bufOff ≤ (rng.after refills n).bufFill ∧
        (rng.after refills n).bufFill - (rng.after refills n).bufOff ≤ fdChacha20rngBufsz ∧
        8 ∣ (rng.after refills n).bufOff.toNat

/-- What `n` calls did: the words they returned, and the two counters. -/
structure StreamRun (keystream : Mem) (refills : Nat → FdChacha20rng → FdChacha20rng) (rng : FdChacha20rng) (n : Nat) : Prop where
  words : ∀ i, i < n → (rng.word refills i).toNat = loadLE keystream (8 * i) 8
  avail_le : (rng.after refills n).bufFill - (rng.after refills n).bufOff ≤ fdChacha20rngBufsz
  off_dvd : 8 ∣ (rng.after refills n).bufOff.toNat
  produced_le : rng.produced refills n ≤ 8 * n + fdChacha20rngBufsz.toNat
  off_le_fill : (rng.after refills n).bufOff ≤ (rng.after refills n).bufFill ↔ rng.produced refills n < 2 ^ 64

namespace ChachaStreamAux

/-- After `i` calls that produced `hi` bytes. -/
structure RngInv (keystream : Mem) (i hi : Nat) (rng : FdChacha20rng) : Prop where
  window : Window fdChacha20rngBufsz.toNat keystream rng.buf (8 * i) hi
  off : rng.bufOff.toNat = 8 * i
  fill : rng.bufFill.toNat = hi % 2 ^ 64
  blocks : 64 ∣ hi

section Step

variable {keystream : Mem} {rng : FdChacha20rng} {i hi : Nat}

/-- What is left is the length of the window. -/
theorem avail_toNat (h : RngInv keystream i hi rng) : (fdChacha20rngAvail rng).toNat = hi - 8 * i := by
  have hle := h.window.le
  have hroom := h.window.room
  have hbuf : fdChacha20rngBufsz.toNat = 256 := rfl
  have hoff := h.off
  have hfill := h.fill
  have hlt := rng.bufOff.isLt
  rw [fdChacha20rngAvail, BitVec.toNat_sub, h.off, h.fill]
  omega

/-- A refill is called only for an empty ring, whose window it fills. -/
theorem refilled_inv {refill : FdChacha20rng → FdChacha20rng} (h : RngInv keystream i hi rng) (hr : Refills keystream refill)
    (havail : fdChacha20rngAvail rng < 8) :
    ∃ k, 1 ≤ k ∧ 64 * k ≤ fdChacha20rngBufsz.toNat ∧ RngInv keystream i (hi + 64 * k) (refill rng) ∧
      (refill rng).bufFill = rng.bufFill + BitVec.ofNat 64 (64 * k) := by
  have hlt := rng.bufOff.isLt
  have hoff := h.off
  have hempty : hi = 8 * i := by
    have := avail_toNat h
    have : (fdChacha20rngAvail rng).toNat < 8 := havail
    have := h.window.le
    have := h.blocks
    omega
  subst hempty
  have hfill : rng.bufFill.toNat = 8 * i := by
    rw [h.fill, Nat.mod_eq_of_lt (by omega)]
  have hreq := hr rng (BitVec.eq_of_toNat_eq (h.off.trans hfill.symm))
  obtain ⟨k, hk, hsize, hfill', hnew⟩ := hreq.blocks
  rw [hfill] at hnew
  refine ⟨k, hk, hsize, ⟨?_, ?_, ?_, ?_⟩, hfill'⟩
  · exact (Window.empty _ (8 * i) keystream rng.buf).produce (Nat.add_le_add_left hsize _) hnew
      fun p hp hp' => absurd hp' (Nat.not_lt.2 hp)
  · rw [hreq.bufOff, h.off]
  · rw [hfill', BitVec.toNat_add, hfill, BitVec.toNat_ofNat]
    omega
  · exact Nat.dvd_add h.blocks (Nat.dvd_mul_right 64 k)

/-- With 8 bytes in the ring, a call takes the next 8 of the keystream. -/
theorem take_inv (h : RngInv keystream i hi rng) (hle : 8 * i + 8 ≤ hi) (hi' : i + 1 < 2 ^ 61) :
    (fdUlongLoad8 rng.buf (rng.bufOff % fdChacha20rngBufsz).toNat).toNat = loadLE keystream (8 * i) 8 ∧
      RngInv keystream (i + 1) hi { rng with bufOff := rng.bufOff + 8 } := by
  refine ⟨?_, h.window.consume hle, ?_, h.fill, h.blocks⟩
  · have hbyte : ∀ j, j < 8 → rng.buf (8 * i % fdChacha20rngBufsz.toNat + j) = keystream (8 * i + j) := fun j hj =>
      h.window.block (by decide) (Nat.dvd_mul_right 8 i) (by decide) hle hj
    have hload : loadLE rng.buf (8 * i % fdChacha20rngBufsz.toNat) 8 = loadLE keystream (8 * i) 8 :=
      loadLE_eq_of_bytes hbyte
    have hlt : loadLE keystream (8 * i) 8 < 2 ^ 64 := loadLE_lt keystream (8 * i) 8
    rw [fdUlongLoad8, fdUlongLoad, BitVec.toNat_umod, h.off, BitVec.toNat_ofNat, hload, Nat.mod_eq_of_lt hlt]
  · rw [BitVec.toNat_add, h.off]
    have h8 : (8 : Ulong).toNat = 8 := rfl
    omega

/-- One call: the word it returns, and what it produces. -/
theorem call_inv {refill : FdChacha20rng → FdChacha20rng} (h : RngInv keystream i hi rng) (hr : Refills keystream refill)
    (hi' : i + 1 < 2 ^ 61) :
    (fdChacha20rngUlong refill rng).2.toNat = loadLE keystream (8 * i) 8 ∧
      RngInv keystream (i + 1) (hi + ((fdChacha20rngUlong refill rng).1.bufFill - rng.bufFill).toNat)
        (fdChacha20rngUlong refill rng).1 := by
  by_cases havail : fdChacha20rngAvail rng < 8
  · obtain ⟨k, hk, hsize, hinv, hfill⟩ := refilled_inv h hr havail
    have hbuf : fdChacha20rngBufsz.toNat = 256 := rfl
    have hadded : ((refill rng).bufFill - rng.bufFill).toNat = 64 * k := by
      rw [hfill, BitVec.add_comm, BitVec.add_sub_cancel, BitVec.toNat_ofNat, Nat.mod_eq_of_lt (by omega)]
    have hle := h.window.le
    obtain ⟨hword, hnext⟩ := take_inv hinv (by omega) hi'
    rw [fdChacha20rngUlong, if_pos havail, hadded]
    exact ⟨hword, hnext⟩
  · have hle : 8 ≤ hi - 8 * i := by
      rw [← avail_toNat h]
      exact Nat.not_lt.1 havail
    have hnone : (rng.bufFill - rng.bufFill).toNat = 0 := by
      rw [BitVec.sub_self]
      rfl
    obtain ⟨hword, hnext⟩ := take_inv h (by omega) hi'
    rw [fdChacha20rngUlong, if_neg havail, hnone]
    exact ⟨hword, hnext⟩

end Step

section Run

variable {keystream : Mem} {refills : Nat → FdChacha20rng → FdChacha20rng} {rng : FdChacha20rng} (hinit : rng.IsInit)
  (hr : ∀ i, Refills keystream (refills i))
include hinit hr

/-- The invariant after any number of calls that a run can make. -/
theorem after_inv {n : Nat} (hn : n < 2 ^ 61) : RngInv keystream n (rng.produced refills n) (rng.after refills n) := by
  induction n with
  | zero =>
    refine ⟨Window.empty _ 0 keystream rng.buf, ?_, ?_, Nat.dvd_zero 64⟩
    · rw [FdChacha20rng.after, hinit.1]
      rfl
    · rw [FdChacha20rng.after, hinit.2]
      rfl
  | succ n ih => exact (call_inv (ih (by omega)) (hr n) hn).2

/-- The words and the counters of a run. -/
theorem streamRun {n : Nat} (hn : n < 2 ^ 61) : StreamRun keystream refills rng n := by
  have h := after_inv hinit hr hn
  have havail := avail_toNat h
  have hbuf : fdChacha20rngBufsz.toNat = 256 := rfl
  have hle := h.window.le
  have hroom := h.window.room
  refine ⟨fun i hi => ?_, ?_, ⟨n, h.off⟩, hroom, ?_⟩
  · exact (call_inv (after_inv hinit hr (by omega)) (hr i) (by omega)).1
  · rw [BitVec.le_def, ← fdChacha20rngAvail, havail]
    omega
  · rw [BitVec.le_def, h.off, h.fill]
    omega

/-- In the last block below `2^64`, `buf_fill` has wrapped: it is a multiple of 64. -/
theorem fill_lt_off : (rng.after refills (2 ^ 61 - 7)).bufFill < (rng.after refills (2 ^ 61 - 7)).bufOff := by
  have h := after_inv hinit hr (n := 2 ^ 61 - 7) (by omega)
  have hle := h.window.le
  have hblocks := h.blocks
  have hroom := h.window.room
  have hbuf : fdChacha20rngBufsz.toNat = 256 := rfl
  rw [BitVec.lt_def, h.off, h.fill]
  omega

end Run

/-- A keystream, and a refill that appends one block of it and leaves the rest of the ring. -/
def countingKeystream : Mem := fun p => BitVec.ofNat 8 p

def refillBlock (rng : FdChacha20rng) : FdChacha20rng :=
  { rng with
    buf := fun p =>
      let j := (p + 256 - rng.bufFill.toNat % 256) % 256
      if j < 64 then countingKeystream (rng.bufFill.toNat + j) else rng.buf p
    bufFill := rng.bufFill + 64 }

theorem refillBlock_refills : Refills countingKeystream refillBlock := by
  intro rng _
  refine ⟨rfl, 1, Nat.le_refl 1, by decide, rfl, fun j hj => ?_⟩
  have hbuf : fdChacha20rngBufsz.toNat = 256 := rfl
  have hindex : ((rng.bufFill.toNat + j) % 256 + 256 - rng.bufFill.toNat % 256) % 256 = j := by omega
  rw [hbuf]
  simp only [refillBlock, hindex]
  rw [if_pos (by omega)]

/-- A generator after `fd_chacha20rng_init`. -/
def initRng : FdChacha20rng := ⟨fun _ => 0, 0, 0, fdChacha20rngModeMod⟩

end ChachaStreamAux

open ChachaStreamAux

/-- In a run of fewer than `2^61` calls, whatever the refills append, the words are the keystream, what is left fits in the ring,
`buf_off` is a multiple of 8, and it is at most `buf_fill` exactly as long as fewer than `2^64` bytes were produced. -/
theorem stream_exact (keystream : Mem) (refills : Nat → FdChacha20rng → FdChacha20rng) (rng : FdChacha20rng)
    (hinit : rng.IsInit) (hr : ∀ i, Refills keystream (refills i)) (n : Nat) (hn : n < 2 ^ 61) :
    StreamRun keystream refills rng n :=
  streamRun hinit hr hn

/-- A hundred calls with a block at a time. -/
theorem stream_exact_blocks : StreamRun countingKeystream (fun _ => refillBlock) initRng 100 :=
  stream_exact countingKeystream (fun _ => refillBlock) initRng ⟨rfl, rfl⟩ (fun _ => refillBlock_refills) 100 (by decide)

/-- After `2^61 - 7` calls with a block at a time, `buf_off` is past `buf_fill`. -/
theorem stream_wraps : ¬StreamOrdered := by
  intro h
  obtain ⟨_, hle, _, _⟩ :=
    h countingKeystream (fun _ => refillBlock) initRng ⟨rfl, rfl⟩ (fun _ => refillBlock_refills) (2 ^ 61 - 7) (by decide)
  have hinit : initRng.IsInit := ⟨rfl, rfl⟩
  have hlt := fill_lt_off hinit fun _ : Nat => refillBlock_refills
  exact absurd hle (BitVec.not_le.2 hlt)

end VerifyFiredancer
