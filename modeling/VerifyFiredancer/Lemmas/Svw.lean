import VerifyFiredancer.Bits
import Mathlib.Tactic.IntervalCases

/-!
# The svw code, width by width

`SvwWidth` is the table of the seven widths: how many bytes, where the payload sits and which tags stand around it.
`SvwWidth.word` is the number an encoded value is, read little endian. Everything later files need of the encoders and of the
fixed-width decoder is here, uniform in the width: the encoders store the word (`encFixed_eq`, `enc_eq`), the decoder cuts the
payload out of whatever word it reads (`decFixed_toNat`), and the size table gives one of the seven widths whatever the byte
(`decSz_width`).

The size decoder of the source reads the high nibble of the first byte, where the tag of the first byte is the low one. What
that does to the code is `svwHeadAgrees`: the condition on a value under which the high nibble of the first byte of its
encoding, payload bits for most widths, happens to name its width.
-/

namespace VerifyFiredancer

open ByteMem

/-- The widths of the svw code. -/
inductive SvwWidth where
  | w1 | w2 | w3 | w4 | w5 | w8 | w9
  deriving DecidableEq, Repr

namespace SvwWidth

/-- The number of bytes. -/
def bytes : SvwWidth → Nat
  | w1 => 1 | w2 => 2 | w3 => 3 | w4 => 4 | w5 => 5 | w8 => 8 | w9 => 9

/-- The number of bits below the payload, which hold the tag of the first byte. -/
def shift : SvwWidth → Nat
  | w1 => 1 | w2 => 3 | w3 => 3 | _ => 4

/-- The number of payload bits. -/
def payload : SvwWidth → Nat
  | w1 => 6 | w2 => 10 | w3 => 18 | w4 => 24 | w5 => 32 | w8 => 56 | w9 => 64

/-- The tag of the first byte, below the payload. -/
def lowTag : SvwWidth → Nat
  | w1 => 0b0 | w2 => 0b001 | w3 => 0b101 | w4 => 0b0011 | w5 => 0b1011 | w8 => 0b0111 | w9 => 0b1111

/-- The tag of the last byte, above the payload. -/
def highTag : SvwWidth → Nat
  | w1 => 0b0 | w2 => 0b100 | w3 => 0b101 | w4 => 0b1100 | w5 => 0b1101 | w8 => 0b1110 | w9 => 0b1111

/-- The number of bits the fixed-width decoder keeps: the payload, and for one byte the tag bit above it as well. -/
def field : SvwWidth → Nat
  | w1 => 7 | w => w.payload

/-- The number of bytes, as the source's `csz`. -/
def csz (w : SvwWidth) : Ulong := BitVec.ofNat 64 w.bytes

/-- The word that encodes `x`: the payload between the two tags. -/
def word (w : SvwWidth) (x : Nat) : Nat := w.highTag * 2 ^ (w.shift + w.payload) + x * 2 ^ w.shift + w.lowTag

/-- The narrowest width that holds a value. -/
def narrowest (x : Nat) : SvwWidth :=
  if x < 2 ^ 6 then w1
  else if x < 2 ^ 10 then w2
  else if x < 2 ^ 18 then w3
  else if x < 2 ^ 24 then w4
  else if x < 2 ^ 32 then w5
  else if x < 2 ^ 56 then w8
  else w9

/-- The width a high nibble stands for: the tags of the last byte. -/
def ofNibble : Nat → SvwWidth
  | 8 => w2 | 9 => w2 | 10 => w3 | 11 => w3 | 12 => w4 | 13 => w5 | 14 => w8 | 15 => w9 | _ => w1

@[simp] theorem csz_toNat (w : SvwWidth) : w.csz.toNat = w.bytes := by
  cases w <;> rfl

theorem csz_injective {w w' : SvwWidth} (h : w.csz = w'.csz) : w = w' := by
  revert h
  cases w <;> cases w' <;> decide

theorem bytes_pos (w : SvwWidth) : 0 < w.bytes := by
  cases w <;> decide

theorem bytes_le (w : SvwWidth) : w.bytes ≤ 9 := by
  cases w <;> decide

/-- A value fits its narrowest width. -/
theorem lt_payload_narrowest {x : Nat} (h : x < 2 ^ 64) : x < 2 ^ (narrowest x).payload := by
  unfold narrowest
  split_ifs <;> simpa [payload]

/-- A value does not fit a width narrower than its narrowest. -/
theorem payload_le_of_bytes_lt {x : Nat} {w : SvwWidth} (h : w.bytes < (narrowest x).bytes) : 2 ^ w.payload ≤ x := by
  revert h
  unfold narrowest
  split_ifs <;> cases w <;> simp [bytes, payload] <;> omega

/-- A word fits its bytes. -/
theorem word_lt {w : SvwWidth} {x : Nat} (h : x < 2 ^ w.payload) : w.word x < 256 ^ w.bytes := by
  cases w <;> simp [word, payload, highTag, lowTag, shift, bytes] at h ⊢ <;> omega

/-- The payload of a word. -/
theorem word_payload {w : SvwWidth} {x : Nat} (h : x < 2 ^ w.payload) : w.word x / 2 ^ w.shift % 2 ^ w.field = x := by
  cases w <;> simp [word, payload, highTag, lowTag, shift, field] at h ⊢ <;> omega

end SvwWidth

/-- The values whose width the high nibble of the first byte of their encoding names: in the first byte that nibble holds low
payload bits, and these must read as the tag of the last byte of the width. -/
def svwHeadAgrees (x : Ulong) : Prop :=
  if x.toNat < 2 ^ 6 then True
  else if x.toNat < 2 ^ 10 then 16 ≤ x.toNat % 32 ∧ x.toNat % 32 < 20
  else if x.toNat < 2 ^ 18 then 20 ≤ x.toNat % 32 ∧ x.toNat % 32 < 24
  else if x.toNat < 2 ^ 24 then x.toNat % 16 = 12
  else if x.toNat < 2 ^ 32 then x.toNat % 16 = 13
  else if x.toNat < 2 ^ 56 then x.toNat % 16 = 14
  else x.toNat % 16 = 15

instance (x : Ulong) : Decidable (svwHeadAgrees x) := by
  unfold svwHeadAgrees
  infer_instance

namespace SvwAux

open SvwWidth

/-! ## The encoders -/

/-- The source's test for `k` bits. -/
theorem lt_shift_iff (x : Ulong) {k : Nat} (h : k < 64) : x < 1#64 <<< k ↔ x.toNat < 2 ^ k := by
  have hk : 2 ^ k < 2 ^ 64 := Nat.pow_lt_pow_right (by decide) h
  rw [BitVec.lt_def, BitVec.toNat_shiftLeft, BitVec.toNat_ofNat, Nat.mod_eq_of_lt (by decide : 1 < 2 ^ 64),
    Nat.shiftLeft_eq, Nat.one_mul, Nat.mod_eq_of_lt hk]

/-- The width the source computes is the narrowest one. -/
theorem encSz_eq (x : Ulong) : fdUlongSvwEncSz x = (narrowest x.toNat).csz := by
  unfold fdUlongSvwEncSz narrowest
  simp (disch := decide) only [lt_shift_iff]
  split_ifs <;> rfl

theorem encSz_toNat (x : Ulong) : (fdUlongSvwEncSz x).toNat = (narrowest x.toNat).bytes := by
  rw [encSz_eq, csz_toNat]

/-- A tag around a shifted payload, as the source's or computes it. -/
theorem toNat_tag_or {t x : Ulong} (hi lo s k : Nat) (ht : t.toNat = hi * 2 ^ (s + k) + lo) (hlo : lo < 2 ^ s)
    (hk : s + k ≤ 64) (hx : x.toNat < 2 ^ k) : (t ||| (x <<< s)).toNat = hi * 2 ^ (s + k) + x.toNat * 2 ^ s + lo := by
  have hlt : x.toNat * 2 ^ s < 2 ^ 64 :=
    calc x.toNat * 2 ^ s < 2 ^ k * 2 ^ s := Nat.mul_lt_mul_of_pos_right hx (Nat.two_pow_pos _)
      _ = 2 ^ (s + k) := by rw [← pow_add, Nat.add_comm]
      _ ≤ 2 ^ 64 := Nat.pow_le_pow_right (by decide) hk
  rw [BitVec.toNat_or, BitVec.toNat_shiftLeft, ht, Nat.shiftLeft_eq, Nat.mod_eq_of_lt hlt, tag_or_payload hi lo _ s k hlo hx]

/-- A tag above the payload bits that a right shift leaves. -/
theorem toNat_tag_or_shr {t x : Ulong} (hi s k : Nat) (ht : t.toNat = hi * 2 ^ k) (hx : x.toNat < 2 ^ (s + k)) :
    (t ||| (x >>> s)).toNat = hi * 2 ^ k + x.toNat / 2 ^ s := by
  have hq : x.toNat / 2 ^ s < 2 ^ k := by
    rw [Nat.div_lt_iff_lt_mul (Nat.two_pow_pos _), Nat.mul_comm, ← pow_add]
    exact hx
  have key := tag_or_payload hi 0 (x.toNat / 2 ^ s) 0 k (by decide) hq
  simp only [Nat.zero_add, Nat.add_zero, pow_zero, Nat.mul_one] at key
  rw [BitVec.toNat_or, BitVec.toNat_ushiftRight, ht, Nat.shiftRight_eq_div_pow, key]

/-- The first eight bytes of the nine byte width: the four top bits of the value are shifted out. -/
theorem toNat_tag_or_w9 (x : Ulong) : (0xf#64 ||| (x <<< 4)).toNat = x.toNat % 2 ^ 60 * 2 ^ 4 + 0xf := by
  have key := tag_or_payload 0 0xf (x.toNat % 2 ^ 60) 4 60 (by decide) (Nat.mod_lt _ (by decide))
  have e : x.toNat <<< 4 % 2 ^ 64 = x.toNat % 2 ^ 60 * 2 ^ 4 := by
    rw [Nat.shiftLeft_eq]
    omega
  rw [BitVec.toNat_or, BitVec.toNat_shiftLeft, e, BitVec.toNat_ofNat, Nat.mod_eq_of_lt (by decide : 0xf < 2 ^ 64)]
  simpa using key

/-- The fixed-width encoder stores the word of its value. -/
theorem encFixed_eq (m : Mem) (b : Nat) (w : SvwWidth) {x : Ulong} (h : x.toNat < 2 ^ w.payload) :
    fdUlongSvwEncFixed m b w.csz x = (storeLE m b w.bytes (w.word x.toNat), b + w.bytes) := by
  have hx := x.isLt
  unfold fdUlongSvwEncFixed
  rw [csz_toNat]
  refine Prod.ext ?_ rfl
  cases w <;> simp only [payload] at h
  case w1 =>
    have e : ((x <<< 1).setWidth 8 : Uchar).toNat = word w1 x.toNat := by
      simp only [BitVec.toNat_setWidth, BitVec.toNat_shiftLeft, Nat.shiftLeft_eq, word, highTag, lowTag, shift]
      omega
    simp only [csz, bytes, storeUchar, e]
    rfl
  case w2 =>
    have e : ((0x8001#64 ||| (x <<< 3)).setWidth 16 : Ushort).toNat = word w2 x.toNat := by
      rw [BitVec.toNat_setWidth, toNat_tag_or 0b100 1 3 10 (by decide) (by decide) (by decide) h]
      simp only [word, highTag, lowTag, shift, payload]
      omega
    simp only [csz, bytes, fdStoreUshort, e]
    rfl
  case w3 =>
    have e : ((0x5#64 ||| (x <<< 3)).setWidth 16 : Ushort).toNat +
        256 ^ 2 * ((0xa0#64 ||| (x >>> 13)).setWidth 8 : Uchar).toNat = word w3 x.toNat := by
      rw [BitVec.toNat_setWidth, BitVec.toNat_setWidth, toNat_tag_or 0 5 3 18 (by decide) (by decide) (by decide) h,
        toNat_tag_or_shr 0b101 13 5 (by decide) h]
      simp only [word, highTag, lowTag, shift, payload]
      omega
    simp only [csz, bytes, fdStoreUshort, storeUchar]
    rw [← e, ← storeLE_append m b 2 1 _ (BitVec.isLt _)]
    rfl
  case w4 =>
    have e : ((0xc0000003#64 ||| (x <<< 4)).setWidth 32 : Uint).toNat = word w4 x.toNat := by
      rw [BitVec.toNat_setWidth, toNat_tag_or 0b1100 3 4 24 (by decide) (by decide) (by decide) h]
      simp only [word, highTag, lowTag, shift, payload]
      omega
    simp only [csz, bytes, fdStoreUint, e]
    rfl
  case w5 =>
    have e : ((0xb#64 ||| (x <<< 4)).setWidth 32 : Uint).toNat +
        256 ^ 4 * ((0xd0#64 ||| (x >>> 28)).setWidth 8 : Uchar).toNat = word w5 x.toNat := by
      rw [BitVec.toNat_setWidth, BitVec.toNat_setWidth, toNat_tag_or 0 0xb 4 32 (by decide) (by decide) (by decide) h,
        toNat_tag_or_shr 0b1101 28 4 (by decide) h]
      simp only [word, highTag, lowTag, shift, payload]
      omega
    simp only [csz, bytes, fdStoreUint, storeUchar]
    rw [← e, ← storeLE_append m b 4 1 _ (BitVec.isLt _)]
    rfl
  case w8 =>
    have e : (0xe000000000000007#64 ||| (x <<< 4)).toNat = word w8 x.toNat := by
      rw [toNat_tag_or 0b1110 7 4 56 (by decide) (by decide) (by decide) h]
      rfl
    simp only [csz, bytes, fdStoreUlong, e]
    rfl
  case w9 =>
    have e : (0xf#64 ||| (x <<< 4)).toNat + 256 ^ 8 * ((0xf0#64 ||| (x >>> 60)).setWidth 8 : Uchar).toNat =
        word w9 x.toNat := by
      rw [BitVec.toNat_setWidth, toNat_tag_or_w9, toNat_tag_or_shr 0b1111 60 4 (by decide) h]
      simp only [word, highTag, lowTag, shift, payload]
      omega
    simp only [csz, bytes, fdStoreUlong, storeUchar]
    rw [← e, ← storeLE_append m b 8 1 _ (BitVec.isLt _)]
    rfl

/-- The encoder is the fixed-width encoder at the width the source computes. -/
theorem enc_eq_encFixed (m : Mem) (b : Nat) (x : Ulong) :
    fdUlongSvwEnc m b x = fdUlongSvwEncFixed m b (fdUlongSvwEncSz x) x := by
  unfold fdUlongSvwEnc fdUlongSvwEncSz
  split_ifs <;> rfl

/-- The encoder stores the word of its value at the narrowest width. -/
theorem enc_eq (m : Mem) (b : Nat) (x : Ulong) :
    fdUlongSvwEnc m b x =
      (storeLE m b (narrowest x.toNat).bytes ((narrowest x.toNat).word x.toNat), b + (narrowest x.toNat).bytes) := by
  rw [enc_eq_encFixed, encSz_eq, encFixed_eq m b _ (lt_payload_narrowest x.isLt)]

/-! ## The fixed-width decoder -/

theorem load_toNat (m : Mem) (p : Nat) {n : Nat} (h : n ≤ 8) : (fdUlongLoad n m p).toNat = loadLE m p n := by
  have h1 := loadLE_lt m p n
  have h2 : (256 : Nat) ^ n ≤ 256 ^ 8 := Nat.pow_le_pow_right (by decide) h
  rw [fdUlongLoad, BitVec.toNat_ofNat, Nat.mod_eq_of_lt (by omega)]

/-- Low bits below a field shifted up, as the source's or computes it. -/
theorem toNat_or_shl {y z : Ulong} (s k : Nat) (hy : y.toNat < 2 ^ s) (hz : z.toNat < 2 ^ k) (hk : s + k ≤ 64) :
    (y ||| (z <<< s)).toNat = z.toNat * 2 ^ s + y.toNat := by
  have := toNat_tag_or (t := y) (x := z) 0 y.toNat s k (by omega) hy hk hz
  omega

/-- A mask of low bits, as the source's and computes it. -/
theorem toNat_and_mask {y t : Ulong} (k : Nat) (ht : t.toNat = 2 ^ k - 1) : (y &&& t).toNat = y.toNat % 2 ^ k := by
  rw [BitVec.toNat_and, ht, Nat.and_two_pow_sub_one_eq_mod]

/-- The low payload bits of a load. -/
theorem load_shr_toNat (m : Mem) (p : Nat) {n : Nat} (s : Nat) (h : n ≤ 8) :
    (fdUlongLoad n m p >>> s).toNat = loadLE m p n / 2 ^ s := by
  rw [BitVec.toNat_ushiftRight, load_toNat m p h, Nat.shiftRight_eq_div_pow]

/-- The fixed-width decoder cuts the payload out of the word it reads, whatever the word. -/
theorem decFixed_toNat (m : Mem) (b : Nat) (w : SvwWidth) :
    (fdUlongSvwDecFixed m b w.csz).toNat = loadLE m b w.bytes / 2 ^ w.shift % 2 ^ w.field := by
  unfold fdUlongSvwDecFixed
  cases w <;> simp only [bytes, shift, field, payload]
  case w1 =>
    have hlt := loadLE_lt m b 1
    show (fdUlongLoad 1 m b >>> 1).toNat = _
    rw [load_shr_toNat m b 1 (by decide)]
    omega
  case w2 =>
    show ((fdUlongLoad 2 m b >>> 3) &&& 1023#64).toNat = _
    rw [toNat_and_mask 10 rfl, load_shr_toNat m b 3 (by decide)]
  case w3 =>
    have hlt := loadLE_lt m b 2
    have hb : loadLE m b 3 = _ := loadLE_snoc m b 2
    have hm : (((m (b + 2)).setWidth 64 : Ulong) &&& 0x1f#64).toNat = (m (b + 2)).toNat % 2 ^ 5 := by
      rw [toNat_and_mask 5 rfl, BitVec.toNat_setWidth]
      omega
    show ((fdUlongLoad 2 m b >>> 3) ||| (((m (b + 2)).setWidth 64 &&& 0x1f#64) <<< 13)).toNat = _
    rw [toNat_or_shl 13 5 (by rw [load_shr_toNat m b 3 (by decide)]; omega) (by rw [hm]; omega) (by decide), hm,
      load_shr_toNat m b 3 (by decide), hb]
    omega
  case w4 =>
    show ((fdUlongLoad 4 m b >>> 4) &&& 16777215#64).toNat = _
    rw [toNat_and_mask 24 rfl, load_shr_toNat m b 4 (by decide)]
  case w5 =>
    have hlt := loadLE_lt m b 4
    have hb : loadLE m b 5 = _ := loadLE_snoc m b 4
    have hm : (((m (b + 4)).setWidth 64 : Ulong) &&& 0x0f#64).toNat = (m (b + 4)).toNat % 2 ^ 4 := by
      rw [toNat_and_mask 4 rfl, BitVec.toNat_setWidth]
      omega
    show ((fdUlongLoad 4 m b >>> 4) ||| (((m (b + 4)).setWidth 64 &&& 0x0f#64) <<< 28)).toNat = _
    rw [toNat_or_shl 28 4 (by rw [load_shr_toNat m b 4 (by decide)]; omega) (by rw [hm]; omega) (by decide), hm,
      load_shr_toNat m b 4 (by decide), hb]
    omega
  case w8 =>
    show ((fdUlongLoad 8 m b >>> 4) &&& 72057594037927935#64).toNat = _
    rw [toNat_and_mask 56 rfl, load_shr_toNat m b 4 (by decide)]
  case w9 =>
    have hlt := loadLE_lt m b 8
    have hb : loadLE m b 9 = _ := loadLE_snoc m b 8
    -- the shift drops the four tag bits of the last byte
    have hm : (((m (b + 8)).setWidth 64 : Ulong) <<< 60) = BitVec.ofNat 64 ((m (b + 8)).toNat % 2 ^ 4) <<< 60 := by
      apply BitVec.eq_of_toNat_eq
      simp only [BitVec.toNat_shiftLeft, BitVec.toNat_setWidth, BitVec.toNat_ofNat, Nat.shiftLeft_eq]
      omega
    have hz : (BitVec.ofNat 64 ((m (b + 8)).toNat % 2 ^ 4)).toNat = (m (b + 8)).toNat % 2 ^ 4 := by
      rw [BitVec.toNat_ofNat]
      omega
    show ((fdUlongLoad 8 m b >>> 4) ||| (((m (b + 8)).setWidth 64) <<< 60)).toNat = _
    rw [hm, toNat_or_shl 60 4 (by rw [load_shr_toNat m b 4 (by decide)]; omega) (by rw [hz]; omega) (by decide), hz,
      load_shr_toNat m b 4 (by decide), hb]
    omega

/-- A word is decoded to its value. -/
theorem decFixed_of_word {m : Mem} {b : Nat} {w : SvwWidth} {x : Ulong} (hx : x.toNat < 2 ^ w.payload)
    (h : loadLE m b w.bytes = w.word x.toNat) : fdUlongSvwDecFixed m b w.csz = x := by
  apply BitVec.eq_of_toNat_eq
  rw [decFixed_toNat, h, word_payload hx]

/-! ## The size decoder -/

/-- The size decoder gives the width the high nibble of the byte stands for. -/
theorem decSz_eq (m : Mem) (b : Nat) : fdUlongSvwDecSz m b = (ofNibble ((m b).toNat / 16)).csz := by
  have key : ∀ c : BitVec 8, ((svwSzTable >>> (((c.setWidth 64 : Ulong) >>> 4) <<< 2)) &&& 15) =
      (ofNibble (c.toNat / 16)).csz := by
    decide +kernel
  exact key (m b)

/-- The high nibbles that stand for a width. -/
theorem ofNibble_eq_iff {n : Nat} (h : n < 16) (w : SvwWidth) :
    ofNibble n = w ↔ match w with
      | w1 => n < 8 | w2 => 8 ≤ n ∧ n < 10 | w3 => 10 ≤ n ∧ n < 12 | w4 => n = 12 | w5 => n = 13 | w8 => n = 14
      | w9 => n = 15 := by
  interval_cases n <;> cases w <;> decide

/-- The condition on a value, on the first byte of its word. -/
theorem ofNibble_word_iff (x : Ulong) :
    ofNibble ((narrowest x.toNat).word x.toNat % 256 / 16) = narrowest x.toNat ↔ svwHeadAgrees x := by
  rw [ofNibble_eq_iff (by omega)]
  unfold svwHeadAgrees narrowest
  split_ifs <;> simp only [word, highTag, lowTag, shift, payload, iff_true] <;> omega

/-- The size decoder finds the width of an encoded value exactly when the head of the value agrees. -/
theorem decSz_of_word_iff {m : Mem} {b : Nat} {x : Ulong}
    (h : loadLE m b (narrowest x.toNat).bytes = (narrowest x.toNat).word x.toNat) :
    fdUlongSvwDecSz m b = fdUlongSvwEncSz x ↔ svwHeadAgrees x := by
  rw [decSz_eq, encSz_eq, ← ofNibble_word_iff, ← h, loadLE_head m b _ (bytes_pos _)]
  exact ⟨csz_injective, fun e => by rw [e]⟩

/-- What a width decodes is a value of the width, except that one byte must have a clear top bit for it. -/
theorem decFixed_lt {m : Mem} {b : Nat} {w : SvwWidth} (h : w = w1 → (m b).toNat < 128) :
    (fdUlongSvwDecFixed m b w.csz).toNat < 2 ^ w.payload := by
  have hmod : loadLE m b w.bytes / 2 ^ w.shift % 2 ^ w.field < 2 ^ w.field := Nat.mod_lt _ (Nat.two_pow_pos _)
  rw [decFixed_toNat]
  cases w with
  | w1 =>
    have hb := h rfl
    simp only [bytes, shift, field, payload, loadLE_one]
    omega
  | _ => exact hmod

/-- A byte that stands for one byte has a clear top bit. -/
theorem lt_of_ofNibble_w1 {c : Uchar} (h : ofNibble (c.toNat / 16) = w1) : c.toNat < 128 := by
  have hn : c.toNat / 16 < 8 := (ofNibble_eq_iff (Nat.div_lt_of_lt_mul c.isLt) w1).1 h
  omega

/-- Read at a narrower width than its own, a value is cut below itself. -/
theorem decFixed_narrow_lt {m : Mem} {b : Nat} {x : Ulong} {w : SvwWidth} (hw : ofNibble ((m b).toNat / 16) = w)
    (hlt : w.bytes < (narrowest x.toNat).bytes) : (fdUlongSvwDecFixed m b w.csz).toNat < x.toNat :=
  Nat.lt_of_lt_of_le (decFixed_lt fun h1 => lt_of_ofNibble_w1 (hw.trans h1)) (payload_le_of_bytes_lt hlt)

theorem decFixed_narrow_ne {m : Mem} {b : Nat} {x : Ulong} {w : SvwWidth} (hw : ofNibble ((m b).toNat / 16) = w)
    (hlt : w.bytes < (narrowest x.toNat).bytes) : fdUlongSvwDecFixed m b w.csz ≠ x := by
  intro e
  have hsmall := decFixed_narrow_lt hw hlt
  rw [e] at hsmall
  exact Nat.lt_irrefl _ hsmall

/-! ## Values read at a wrong width -/

/-- What `u` a value `x` is read as at a width that is not its own. At a narrower one it is cut below itself. At a wider one the
tag of its last byte is taken for payload, which is shifted by one bit more when the first byte has a longer tag there. -/
inductive Misread (x u : Nat) : Prop
  | narrow (h : u < x) (hn : ¬(2 ^ 24 ≤ x ∧ x < 2 ^ 32 ∧ 14 ≤ x % 16))
  | w2w3 (hlo : 2 ^ 6 ≤ x) (hx : x < 2 ^ 10) (h : u % 2 ^ 13 = 0b100 * 2 ^ 10 + x)
  | w2 (hlo : 2 ^ 6 ≤ x) (hx : x < 2 ^ 10) (h : u % 2 ^ 12 = 0b10 * 2 ^ 10 + x / 2)
  | w3 (hlo : 2 ^ 10 ≤ x) (hx : x < 2 ^ 18) (h : u % 2 ^ 20 = 0b101 * 2 ^ 17 + x / 2)
  | w4 (hlo : 2 ^ 18 ≤ x) (hx : x < 2 ^ 24) (h : u % 2 ^ 28 = 0b1100 * 2 ^ 24 + x)
  | w5 (hlo : 2 ^ 24 ≤ x) (hx : x < 2 ^ 32) (hn : 14 ≤ x % 16) (h : u % 2 ^ 36 = 0b1101 * 2 ^ 32 + x)
  | w8 (hlo : 2 ^ 32 ≤ x) (hx : x < 2 ^ 56) (h : u % 2 ^ 60 = 0b1110 * 2 ^ 56 + x)

/-- It is never the value. -/
theorem Misread.ne {x u : Nat} (h : Misread x u) : u ≠ x := by
  cases h <;> omega

/-- A value read at a wider width than its own. -/
theorem misread_wide {m : Mem} {b : Nat} {x : Ulong} {w : SvwWidth}
    (h : loadLE m b (narrowest x.toNat).bytes = (narrowest x.toNat).word x.toNat) (h1 : narrowest x.toNat ≠ w1)
    (hw : ofNibble ((m b).toNat / 16) = w) (hlt : (narrowest x.toNat).bytes < w.bytes) :
    Misread x.toNat (fdUlongSvwDecFixed m b w.csz).toNat := by
  have hx := lt_payload_narrowest x.isLt
  have hval := decFixed_toNat m b w
  have hlow : ∀ v : SvwWidth, v.bytes < (narrowest x.toNat).bytes → 2 ^ v.payload ≤ x.toNat := fun v => payload_le_of_bytes_lt
  have hhead := (ofNibble_eq_iff (Nat.div_lt_of_lt_mul (m b).isLt) w).1 hw
  rw [← loadLE_head m b _ (bytes_pos (narrowest x.toNat)), h] at hhead
  obtain ⟨d, hd⟩ := Nat.exists_eq_add_of_lt hlt
  have hsplit := loadLE_add m b (narrowest x.toNat).bytes (d + 1)
  rw [h, ← Nat.add_assoc, ← hd] at hsplit
  generalize loadLE m (b + (narrowest x.toNat).bytes) (d + 1) = r at hsplit
  rw [hsplit] at hval
  clear hsplit hd hw
  generalize (fdUlongSvwDecFixed m b w.csz).toNat = u at *
  generalize narrowest x.toNat = v at *
  cases v with
  | w1 => exact absurd rfl h1
  | w2 =>
    have hlo : 2 ^ 6 ≤ x.toNat := hlow w1 (by decide)
    cases w <;> simp only [bytes, shift, field, payload, word, highTag, lowTag] at hlt hx hval <;>
      first | omega | exact .w2w3 hlo hx (by omega) | exact .w2 hlo hx (by omega)
  | w3 =>
    have hlo : 2 ^ 10 ≤ x.toNat := hlow w2 (by decide)
    cases w <;> simp only [bytes, shift, field, payload, word, highTag, lowTag] at hlt hx hval <;>
      first | omega | exact .w3 hlo hx (by omega)
  | w4 =>
    have hlo : 2 ^ 18 ≤ x.toNat := hlow w3 (by decide)
    cases w <;> simp only [bytes, shift, field, payload, word, highTag, lowTag] at hlt hx hval <;>
      first | omega | exact .w4 hlo hx (by omega)
  | w5 =>
    have hlo : 2 ^ 24 ≤ x.toNat := hlow w4 (by decide)
    cases w <;> simp only [bytes, shift, field, payload, word, highTag, lowTag] at hlt hx hval hhead <;>
      first | omega | exact .w5 hlo hx (by omega) (by omega)
  | w8 =>
    have hlo : 2 ^ 32 ≤ x.toNat := hlow w5 (by decide)
    cases w <;> simp only [bytes, shift, field, payload, word, highTag, lowTag] at hlt hx hval <;>
      first | omega | exact .w8 hlo hx (by omega)
  | w9 => cases w <;> simp only [bytes] at hlt <;> omega

/-- A value whose head does not agree takes more than one byte. -/
theorem ne_w1_of_not_agrees {x : Ulong} (h : ¬svwHeadAgrees x) : narrowest x.toNat ≠ w1 := by
  intro e
  apply h
  unfold svwHeadAgrees
  unfold narrowest at e
  split_ifs at e with h6
  rw [if_pos h6]
  trivial

/-- An encoded value whose head does not agree is misread. -/
theorem misread_of_word {m : Mem} {b : Nat} {x : Ulong}
    (h : loadLE m b (narrowest x.toNat).bytes = (narrowest x.toNat).word x.toNat) (hx : ¬svwHeadAgrees x) :
    Misread x.toNat (fdUlongSvwDec m b).1.toNat := by
  have hhead : (m b).toNat = (narrowest x.toNat).word x.toNat % 256 := by
    rw [← loadLE_head m b _ (bytes_pos (narrowest x.toNat)), h]
  have hne : ofNibble ((m b).toNat / 16) ≠ narrowest x.toNat := by
    rw [hhead, ne_eq, ofNibble_word_iff]
    exact hx
  simp only [fdUlongSvwDec, decSz_eq]
  rcases Nat.lt_trichotomy (ofNibble ((m b).toNat / 16)).bytes (narrowest x.toNat).bytes with hlt | heq | hgt
  · refine .narrow (decFixed_narrow_lt rfl hlt) ?_
    rintro ⟨hlo, hhi, hn⟩
    -- the nibbles 14 and 15 stand for more than five bytes
    have hw5 : narrowest x.toNat = w5 := by
      unfold narrowest
      rw [if_neg (by omega), if_neg (by omega), if_neg (by omega), if_neg (by omega), if_pos hhi]
    rw [hhead, hw5] at hlt
    have hnib : w5.word x.toNat % 256 / 16 = 14 ∨ w5.word x.toNat % 256 / 16 = 15 := by
      simp only [word, highTag, lowTag, shift, payload]
      omega
    rcases hnib with hnib | hnib
    · rw [hnib] at hlt
      exact absurd hlt (by decide)
    · rw [hnib] at hlt
      exact absurd hlt (by decide)
  · exfalso
    apply hne
    apply csz_injective
    rw [csz, csz, heq]
  · exact misread_wide h (ne_w1_of_not_agrees hx) rfl hgt

/-- An encoded value whose head does not agree is decoded to another value. -/
theorem dec_ne_of_word {m : Mem} {b : Nat} {x : Ulong}
    (h : loadLE m b (narrowest x.toNat).bytes = (narrowest x.toNat).word x.toNat) (hx : ¬svwHeadAgrees x) :
    (fdUlongSvwDec m b).1 ≠ x :=
  fun e => (misread_of_word h hx).ne (congrArg BitVec.toNat e)

/-- An encoded value whose head agrees is decoded to itself, up to the end of its bytes. -/
theorem dec_of_word {m : Mem} {b : Nat} {x : Ulong}
    (h : loadLE m b (narrowest x.toNat).bytes = (narrowest x.toNat).word x.toNat) (hx : svwHeadAgrees x) :
    fdUlongSvwDec m b = (x, b + (narrowest x.toNat).bytes) := by
  have hsz := (decSz_of_word_iff h).2 hx
  rw [encSz_eq] at hsz
  simp only [fdUlongSvwDec, hsz, csz_toNat, decFixed_of_word (lt_payload_narrowest x.isLt) h]

/-- One value read back: the decoder returns an encoded value exactly when the head of the value agrees. -/
theorem dec_of_word_iff {m : Mem} {b : Nat} {x : Ulong}
    (h : loadLE m b (narrowest x.toNat).bytes = (narrowest x.toNat).word x.toNat) :
    (fdUlongSvwDec m b).1 = x ↔ svwHeadAgrees x := by
  constructor
  · intro e
    by_contra hx
    exact dec_ne_of_word h hx e
  · intro hx
    rw [dec_of_word h hx]

end SvwAux

end VerifyFiredancer
