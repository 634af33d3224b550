import VerifyFiredancer.Theorems.SvwStream
import Mathlib.Data.List.Induction

/-!
# Reading svw values backward, and rewriting them in place

`fd_ulong_svw_dec_tail_sz` finds the width in the high nibble of the last byte, where the tag of every width is, so every
stream is read backward to its values, whatever is before and after it (`svwStream_readsBackTail`). A value that was decoded
backward can be overwritten, at its width, by any value that is not greater (`svw_update_in_place`); the bytes need not have been
written by the encoder, because whatever a width decodes is a value of the width.
-/

namespace VerifyFiredancer

open ByteMem SvwWidth SvwAux SvwStreamAux

namespace SvwTailAux

/-! ## The last byte -/

/-- The tail size decoder gives the width the high nibble of the last byte stands for. -/
theorem decTailSz_eq (m : Mem) (b : Nat) : fdUlongSvwDecTailSz m b = (ofNibble ((m (b - 1)).toNat / 16)).csz :=
  decSz_eq m (b - 1)

/-- The high nibble of the last byte of a word names its width: the payload ends below the tag. -/
theorem ofNibble_word_last {w : SvwWidth} {x : Nat} (h : x < 2 ^ w.payload) :
    ofNibble (w.word x / 256 ^ (w.bytes - 1) % 256 / 16) = w := by
  rw [ofNibble_eq_iff (by omega)]
  cases w <;> simp only [word, payload, highTag, lowTag, shift, bytes] at h ⊢ <;> omega

/-- The width of a word that ends at `b`. -/
theorem decTailSz_of_word {m : Mem} {b : Nat} {w : SvwWidth} {x : Nat} (hx : x < 2 ^ w.payload)
    (h : loadLE m b w.bytes = w.word x) : fdUlongSvwDecTailSz m (b + w.bytes) = w.csz := by
  have hpos := bytes_pos w
  have hlast : b + w.bytes - 1 = b + (w.bytes - 1) := by omega
  rw [decTailSz_eq, hlast, ← loadLE_byte m b w.bytes (w.bytes - 1) (by omega), h, ofNibble_word_last hx]

/-- A word that ends at `b` is decoded to its value, down to its first byte. -/
theorem decTail_of_word {m : Mem} {b : Nat} {w : SvwWidth} {x : Ulong} (hx : x.toNat < 2 ^ w.payload)
    (h : loadLE m b w.bytes = w.word x.toNat) : fdUlongSvwDecTail m (b + w.bytes) = (x, b) := by
  simp only [fdUlongSvwDecTail, decTailSz_of_word hx h, csz_toNat, Nat.add_sub_cancel, decFixed_of_word hx h]

/-- Whatever is decoded backward is a value of its width. -/
theorem decTail_lt (m : Mem) (b : Nat) :
    (fdUlongSvwDecTail m b).1.toNat < 2 ^ (ofNibble ((m (b - 1)).toNat / 16)).payload := by
  simp only [fdUlongSvwDecTail, decTailSz_eq]
  refine decFixed_lt fun h1 => ?_
  -- one byte is the first and the last one
  rw [h1]
  exact lt_of_ofNibble_w1 h1

/-! ## Streams -/

/-- A stream is appended value by value. -/
theorem encStream_append (xs ys : List Ulong) :
    ∀ (m : Mem) (b : Nat),
      svwEncStream m b (xs ++ ys) = svwEncStream (svwEncStream m b xs).1 (svwEncStream m b xs).2 ys := by
  induction xs with
  | nil => intro m b; rfl
  | cons x xs ih =>
    intro m b
    exact ih _ _

/-- A stream does not end before it starts. -/
theorem le_encStream (xs : List Ulong) : ∀ (m : Mem) (b : Nat), b ≤ (svwEncStream m b xs).2 := by
  induction xs with
  | nil => intro m b; exact Nat.le_refl b
  | cons x xs ih =>
    intro m b
    have hstep : b ≤ (fdUlongSvwEnc m b x).2 := by
      rw [enc_advance]
      exact Nat.le_add_right _ _
    exact Nat.le_trans hstep (ih _ _)

end SvwTailAux

open SvwTailAux

/-- A stream is read backward to its values in reverse, from its end down to its first byte, in every memory that holds its
bytes: what is before and after the stream does not matter. -/
theorem svwStream_readsBackTail (m : Mem) (b : Nat) (xs : List Ulong) (m' : Mem)
    (h : ∀ p, b ≤ p → p < (svwEncStream m b xs).2 → m' p = (svwEncStream m b xs).1 p) :
    svwDecTailStream m' xs.length (svwEncStream m b xs).2 = (xs.reverse, b) := by
  induction xs using List.reverseRecOn with
  | nil => rfl
  | append_singleton xs x ih =>
    have hle := le_encStream xs m b
    obtain ⟨c, hc⟩ : ∃ c, (svwEncStream m b xs).2 = c := ⟨_, rfl⟩
    have happ : svwEncStream m b (xs ++ [x]) = fdUlongSvwEnc (svwEncStream m b xs).1 c x := by
      rw [encStream_append, hc]
      rfl
    have hend : (fdUlongSvwEnc (svwEncStream m b xs).1 c x).2 = c + (narrowest x.toNat).bytes := by rw [enc_eq]
    rw [happ, hend] at h
    -- the last value, in the memory at hand
    have hword : loadLE m' c (narrowest x.toNat).bytes = (narrowest x.toNat).word x.toNat := by
      rw [← enc_load (svwEncStream m b xs).1 c x]
      exact loadLE_congr fun p hp hp' => h p (by omega) hp'
    -- the values before it were not touched by its encoding
    have hbefore : ∀ p, b ≤ p → p < (svwEncStream m b xs).2 → m' p = (svwEncStream m b xs).1 p := by
      intro p hp hp'
      rw [h p hp (by omega), enc_frame _ x (Or.inl (hc ▸ hp'))]
    have hrest := ih hbefore
    rw [hc] at hrest
    rw [happ, hend, List.length_append, List.length_singleton, List.reverse_append]
    simp only [svwDecTailStream, decTail_of_word (lt_payload_narrowest x.isLt) hword, hrest]
    rfl

/-- The stream of 64 and 7 behind one byte and before others. -/
theorem svwStream_readsBackTail_64_7 :
    svwDecTailStream (svwEncStream (fun _ => 0xff) 1 [64, 7]).1 2 (svwEncStream (fun _ => 0xff) 1 [64, 7]).2 = ([7, 64], 1) :=
  svwStream_readsBackTail (fun _ => 0xff) 1 [64, 7] (svwEncStream (fun _ => 0xff) 1 [64, 7]).1 fun _ _ _ => rfl

/-- The value that ends at `b`, of width `csz` and value `x`, can be overwritten: every `y` up to `x` fits the width, is written
to the bytes of the value only, up to `b`, and is what is decoded afterwards, with the same width. -/
structure SvwUpdatesInPlace (m : Mem) (b : Nat) (csz x : Ulong) : Prop where
  encSz_le : fdUlongSvwEncSz x ≤ csz
  returns : ∀ y ≤ x, (fdUlongSvwEncFixed m (b - csz.toNat) csz y).2 = b
  frame : ∀ y ≤ x, ∀ p, p < b - csz.toNat ∨ b ≤ p → (fdUlongSvwEncFixed m (b - csz.toNat) csz y).1 p = m p
  decTailSz : ∀ y ≤ x, fdUlongSvwDecTailSz (fdUlongSvwEncFixed m (b - csz.toNat) csz y).1 b = csz
  decTail : ∀ y ≤ x, fdUlongSvwDecTail (fdUlongSvwEncFixed m (b - csz.toNat) csz y).1 b = (y, b - csz.toNat)

/-- Whatever bytes a value is decoded from, it can be overwritten in place; and the two encoders write the same bytes. -/
theorem svw_update_in_place (m : Mem) (b : Nat) (hb : 9 ≤ b) :
    SvwUpdatesInPlace m b (fdUlongSvwDecTailSz m b) (fdUlongSvwDecTail m b).1 ∧
      ∀ (m : Mem) (b : Nat) (x : Ulong), fdUlongSvwEnc m b x = fdUlongSvwEncFixed m b (fdUlongSvwEncSz x) x := by
  refine ⟨?_, enc_eq_encFixed⟩
  have hx := decTail_lt m b
  rw [decTailSz_eq]
  generalize ofNibble ((m (b - 1)).toNat / 16) = w at hx
  generalize (fdUlongSvwDecTail m b).1 = x at hx
  obtain ⟨c, rfl⟩ : ∃ c, b = c + w.bytes := ⟨b - w.bytes, by have := bytes_le w; omega⟩
  have hfirst : c + w.bytes - w.csz.toNat = c := by rw [csz_toNat, Nat.add_sub_cancel]
  have hfit : ∀ y ≤ x, y.toNat < 2 ^ w.payload := fun y hy => Nat.lt_of_le_of_lt (BitVec.le_def.1 hy) hx
  have hload : ∀ y ≤ x, loadLE (fdUlongSvwEncFixed m c w.csz y).1 c w.bytes = w.word y.toNat := by
    intro y hy
    rw [encFixed_eq m c w (hfit y hy)]
    exact loadLE_storeLE_of_lt m c (word_lt (hfit y hy))
  constructor
  case encSz_le =>
    rw [BitVec.le_def, encSz_toNat, csz_toNat]
    by_contra hlt
    have := payload_le_of_bytes_lt (Nat.lt_of_not_le hlt)
    omega
  case returns =>
    intro y hy
    rw [hfirst, encFixed_eq m c w (hfit y hy)]
  case frame =>
    intro y hy p hp
    rw [hfirst] at hp ⊢
    rw [encFixed_eq m c w (hfit y hy)]
    exact storeLE_frame _ _ hp
  case decTailSz =>
    intro y hy
    rw [hfirst, decTailSz_of_word (hfit y hy) (hload y hy)]
  case decTail =>
    intro y hy
    rw [hfirst, decTail_of_word (hfit y hy) (hload y hy)]

/-- The nine bytes 0xff before address nine hold the greatest value. -/
theorem svw_update_in_place_nine :
    SvwUpdatesInPlace (fun _ => 0xff) 9 (fdUlongSvwDecTailSz (fun _ => 0xff) 9) (fdUlongSvwDecTail (fun _ => 0xff) 9).1 ∧
      ∀ (m : Mem) (b : Nat) (x : Ulong), fdUlongSvwEnc m b x = fdUlongSvwEncFixed m b (fdUlongSvwEncSz x) x :=
  svw_update_in_place (fun _ => 0xff) 9 (Nat.le_refl 9)

end VerifyFiredancer
