import VerifyFiredancer.Lemmas.Svw

/-!
# Reading a stream of svw values forward

A stream of values appended with `fd_ulong_svw_enc` is read back by `fd_ulong_svw_dec` exactly when the head of every value
agrees (`svwHeadAgrees`). `fd_ulong_svw_dec_sz` is documented to find the width in the low bits of the first byte, and indexes
with its high nibble the table of the last byte instead, so the values it reads wrongly are most values from 64 on: a wrong
width gives a wrong value at once (`SvwAux.dec_ne_of_word`), no later element of the stream makes up for it.
-/

namespace VerifyFiredancer

open ByteMem SvwWidth SvwAux

/-- A stream at `b` is read back: as many forward reads as values give the values in order and end where the stream ends; and
each of the values is appended in the number of bytes the source computes for it, which its first byte gives back. -/
structure SvwStreamReadsBack (m : Mem) (b : Nat) (xs : List Ulong) : Prop where
  stream : svwDecStream (svwEncStream m b xs).1 xs.length b = (xs, (svwEncStream m b xs).2)
  advance : ∀ x ∈ xs, ∀ m b, (fdUlongSvwEnc m b x).2 = b + (fdUlongSvwEncSz x).toNat
  size : ∀ x ∈ xs, ∀ m b, fdUlongSvwDecSz (fdUlongSvwEnc m b x).1 b = fdUlongSvwEncSz x

namespace SvwStreamAux

/-- The encoder advances by the number of bytes the source computes. -/
theorem enc_advance (m : Mem) (b : Nat) (x : Ulong) : (fdUlongSvwEnc m b x).2 = b + (fdUlongSvwEncSz x).toNat := by
  rw [enc_eq, encSz_toNat]

/-- The encoder leaves the word of its value at its location. -/
theorem enc_load (m : Mem) (b : Nat) (x : Ulong) :
    loadLE (fdUlongSvwEnc m b x).1 b (narrowest x.toNat).bytes = (narrowest x.toNat).word x.toNat := by
  rw [enc_eq]
  exact loadLE_storeLE_of_lt m b (word_lt (lt_payload_narrowest x.isLt))

/-- The encoder writes its own bytes only. -/
theorem enc_frame (m : Mem) {b p : Nat} (x : Ulong) (h : p < b ∨ b + (narrowest x.toNat).bytes ≤ p) :
    (fdUlongSvwEnc m b x).1 p = m p := by
  rw [enc_eq]
  exact storeLE_frame m _ h

/-- A stream writes nothing before its first byte. -/
theorem encStream_frame (xs : List Ulong) :
    ∀ (m : Mem) (b p : Nat), p < b → (svwEncStream m b xs).1 p = m p := by
  induction xs with
  | nil => intro m b p _; rfl
  | cons x xs ih =>
    intro m b p hp
    simp only [svwEncStream]
    rw [ih _ _ p (by rw [enc_advance]; exact Nat.lt_add_right _ hp), enc_frame m x (Or.inl hp)]

/-- The values appended later leave the word of the first one in place. -/
theorem encStream_load (m : Mem) (b : Nat) (x : Ulong) (xs : List Ulong) :
    loadLE (svwEncStream m b (x :: xs)).1 b (narrowest x.toNat).bytes = (narrowest x.toNat).word x.toNat := by
  rw [← enc_load m b x]
  refine loadLE_congr fun p _ hp => ?_
  simp only [svwEncStream]
  exact encStream_frame xs _ _ p (by rw [enc_advance, encSz_toNat]; exact hp)

/-- The reads of a stream, value by value: the induction carries the memory the whole stream leaves. -/
theorem decStream_iff (xs : List Ulong) :
    ∀ (m : Mem) (b : Nat), svwDecStream (svwEncStream m b xs).1 xs.length b = (xs, (svwEncStream m b xs).2) ↔
      ∀ x ∈ xs, svwHeadAgrees x := by
  induction xs with
  | nil => intro m b; simp [svwDecStream, svwEncStream]
  | cons x xs ih =>
    intro m b
    have hw := encStream_load m b x xs
    have htail := ih (fdUlongSvwEnc m b x).1 (fdUlongSvwEnc m b x).2
    have hstep : svwEncStream m b (x :: xs) = svwEncStream (fdUlongSvwEnc m b x).1 (fdUlongSvwEnc m b x).2 xs := rfl
    have hnext : (fdUlongSvwEnc m b x).2 = b + (narrowest x.toNat).bytes := by rw [enc_eq]
    rw [List.forall_mem_cons, ← htail, ← hstep, hnext]
    simp only [List.length_cons, svwDecStream, Prod.mk.injEq, List.cons.injEq]
    constructor
    · rintro ⟨⟨hx, hxs⟩, hend⟩
      have hagree := (dec_of_word_iff hw).1 hx
      rw [dec_of_word hw hagree] at hxs hend
      exact ⟨hagree, Prod.ext hxs hend⟩
    · rintro ⟨hagree, h⟩
      rw [dec_of_word hw hagree, h]
      exact ⟨⟨rfl, rfl⟩, rfl⟩

end SvwStreamAux

open SvwStreamAux

/-- A stream is read back exactly when the head of each of its values agrees. -/
theorem svwStream_readsBack_iff (m : Mem) (b : Nat) (xs : List Ulong) :
    SvwStreamReadsBack m b xs ↔ ∀ x ∈ xs, svwHeadAgrees x := by
  constructor
  · intro h
    exact (decStream_iff xs m b).1 h.stream
  · intro h
    refine ⟨(decStream_iff xs m b).2 h, fun x _ m b => enc_advance m b x, fun x hx m b => ?_⟩
    exact (decSz_of_word_iff (enc_load m b x)).2 (h x hx)

/-- The stream of the one value 64 is not read back: its first byte is 0x01, whose high nibble stands for one byte. -/
theorem svwStream_64_not_readsBack : ¬SvwStreamReadsBack (fun _ => 0) 0 [64] := by
  intro h
  have hread : svwDecStream (svwEncStream (fun _ => 0) 0 [64]).1 1 0 = ([64], (svwEncStream (fun _ => 0) 0 [64]).2) :=
    h.stream
  revert hread
  decide

end VerifyFiredancer
