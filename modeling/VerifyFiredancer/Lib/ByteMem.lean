import Mathlib.Tactic.Ring
import Mathlib.Tactic.Linarith

/-!
# Byte memories, read and written little endian

A memory is the byte at every address. `loadLE` reads `n` bytes as a number, least significant byte first; `storeLE` writes
the `n` low bytes of a number; `storeBytes` writes a list of bytes. The laws are the ones a codec needs: what was stored is
loaded back, a store changes only its own bytes, two adjacent accesses are one wider access.
-/

namespace ByteMem

/-- A memory: the byte at every address. -/
abbrev Mem : Type := Nat → BitVec 8

/-- The number held little endian by the `n` bytes at `a`. -/
def loadLE (m : Mem) (a : Nat) : Nat → Nat
  | 0 => 0
  | n + 1 => (m a).toNat + 256 * loadLE m (a + 1) n

/-- The memory after writing the `n` low bytes of `v` little endian at `a`. -/
def storeLE (m : Mem) (a n v : Nat) : Mem :=
  fun p => if a ≤ p ∧ p < a + n then BitVec.ofNat 8 (v / 256 ^ (p - a)) else m p

/-- The memory after writing the bytes `bs` at `a`. -/
def storeBytes (m : Mem) (a : Nat) (bs : List (BitVec 8)) : Mem :=
  fun p => if a ≤ p then (bs[p - a]?).getD (m p) else m p

/-! ## Loads -/

@[simp] theorem loadLE_zero (m : Mem) (a : Nat) : loadLE m a 0 = 0 := rfl

theorem loadLE_succ (m : Mem) (a n : Nat) : loadLE m a (n + 1) = (m a).toNat + 256 * loadLE m (a + 1) n := rfl

/-- One byte is loaded as itself. -/
@[simp] theorem loadLE_one (m : Mem) (a : Nat) : loadLE m a 1 = (m a).toNat := by
  simp [loadLE]

/-- A load of `n` bytes is below `256 ^ n`. -/
theorem loadLE_lt (m : Mem) (a n : Nat) : loadLE m a n < 256 ^ n := by
  induction n generalizing a with
  | zero => simp
  | succ n ih =>
    have hb : (m a).toNat < 256 := (m a).isLt
    have := ih (a + 1)
    rw [loadLE_succ, pow_succ]
    omega

/-- Loads of the same bytes, in two memories at two addresses, are the same. -/
theorem loadLE_eq_of_bytes {m m' : Mem} {a b n : Nat} (h : ∀ j, j < n → m (a + j) = m' (b + j)) :
    loadLE m a n = loadLE m' b n := by
  induction n generalizing a b with
  | zero => rfl
  | succ n ih =>
    have hhead : m a = m' b := h 0 (Nat.succ_pos n)
    rw [loadLE_succ, loadLE_succ, hhead, ih]
    intro j hj
    have := h (j + 1) (by omega)
    rwa [Nat.add_comm j 1, ← Nat.add_assoc, ← Nat.add_assoc] at this

/-- A load reads its own bytes only. -/
theorem loadLE_congr {m m' : Mem} {a n : Nat} (h : ∀ p, a ≤ p → p < a + n → m p = m' p) :
    loadLE m a n = loadLE m' a n :=
  loadLE_eq_of_bytes fun j hj => h (a + j) (Nat.le_add_right a j) (Nat.add_lt_add_left hj a)

/-- A wide load is two adjacent loads. -/
theorem loadLE_add (m : Mem) (a i j : Nat) : loadLE m a (i + j) = loadLE m a i + 256 ^ i * loadLE m (a + i) j := by
  induction i generalizing a with
  | zero => simp
  | succ i ih =>
    have e : i + 1 + j = i + j + 1 := by omega
    rw [e, loadLE_succ, ih, loadLE_succ, pow_succ, Nat.add_assoc a 1 i, Nat.add_comm 1 i]
    ring

/-- One more byte of a load goes on top. -/
theorem loadLE_snoc (m : Mem) (a n : Nat) : loadLE m a (n + 1) = loadLE m a n + 256 ^ n * (m (a + n)).toNat := by
  rw [loadLE_add, loadLE_one]

/-- A load of some of the bytes of a longer load is its remainder. -/
theorem loadLE_mod (m : Mem) (a i j : Nat) (h : i ≤ j) : loadLE m a j % 256 ^ i = loadLE m a i := by
  obtain ⟨d, rfl⟩ := Nat.exists_eq_add_of_le h
  rw [loadLE_add, Nat.add_mul_mod_self_left, Nat.mod_eq_of_lt (loadLE_lt m a i)]

/-- A load of the last bytes of a longer load is its quotient. -/
theorem loadLE_div (m : Mem) (a i j : Nat) : loadLE m a (i + j) / 256 ^ i = loadLE m (a + i) j := by
  rw [loadLE_add, Nat.add_mul_div_left _ _ (Nat.pow_pos (by decide)), Nat.div_eq_of_lt (loadLE_lt m a i), Nat.zero_add]

/-- The first byte is the remainder of any load by 256. -/
theorem loadLE_head (m : Mem) (a n : Nat) (h : 0 < n) : loadLE m a n % 256 = (m a).toNat := by
  rw [← loadLE_one m a, ← loadLE_mod m a 1 n h, pow_one]

/-- The byte at offset `i` of a load. -/
theorem loadLE_byte (m : Mem) (a n i : Nat) (h : i < n) : loadLE m a n / 256 ^ i % 256 = (m (a + i)).toNat := by
  obtain ⟨d, rfl⟩ := Nat.exists_eq_add_of_lt h
  rw [Nat.add_assoc, loadLE_div, loadLE_head _ _ _ (Nat.succ_pos d)]

/-! ## Stores -/

/-- A store changes only its own bytes. -/
theorem storeLE_frame (m : Mem) {a n p : Nat} (v : Nat) (h : p < a ∨ a + n ≤ p) : storeLE m a n v p = m p := by
  rw [storeLE, if_neg (by omega)]

/-- The bytes a store writes. -/
theorem storeLE_at (m : Mem) {a n p : Nat} (v : Nat) (h : a ≤ p) (h' : p < a + n) :
    storeLE m a n v p = BitVec.ofNat 8 (v / 256 ^ (p - a)) := by
  rw [storeLE, if_pos ⟨h, h'⟩]

/-- What was stored is loaded back, up to the width. -/
theorem loadLE_storeLE (m : Mem) (a n v : Nat) : loadLE (storeLE m a n v) a n = v % 256 ^ n := by
  have key : ∀ k i, i + k = n → loadLE (storeLE m a n v) (a + i) k = v / 256 ^ i % 256 ^ k := by
    intro k
    induction k with
    | zero => intro i _; simp [Nat.mod_one]
    | succ k ih =>
      intro i hi
      have h1 := ih (i + 1) (by omega)
      rw [loadLE_succ, storeLE_at m v (by omega) (by omega), Nat.add_assoc a i 1, h1,
        Nat.add_sub_cancel_left, BitVec.toNat_ofNat, pow_succ' 256 k, Nat.mod_mul, Nat.div_div_eq_div_mul,
        ← pow_succ]
  simpa using key n 0 (by omega)

/-- What was stored is loaded back when it fits. -/
theorem loadLE_storeLE_of_lt (m : Mem) (a : Nat) {n v : Nat} (h : v < 256 ^ n) : loadLE (storeLE m a n v) a n = v := by
  rw [loadLE_storeLE, Nat.mod_eq_of_lt h]

/-- A load beside a store sees the memory before it. -/
theorem loadLE_storeLE_disjoint (m : Mem) {a n b k : Nat} (v : Nat) (h : b + k ≤ a ∨ a + n ≤ b) :
    loadLE (storeLE m a n v) b k = loadLE m b k :=
  loadLE_congr fun p _ _ => storeLE_frame m v (by omega)

/-- Two adjacent stores are one wide store. -/
theorem storeLE_append (m : Mem) (a i j : Nat) {v : Nat} (w : Nat) (h : v < 256 ^ i) :
    storeLE (storeLE m a i v) (a + i) j w = storeLE m a (i + j) (v + 256 ^ i * w) := by
  funext p
  have hpos : 0 < 256 ^ i := Nat.pow_pos (by decide)
  rcases Nat.lt_or_ge p a with hp | hp
  · rw [storeLE_frame _ _ (by omega), storeLE_frame _ _ (by omega), storeLE_frame _ _ (by omega)]
  rcases Nat.lt_or_ge p (a + i) with hi | hi
  · -- a byte of the low part: the high part only adds a multiple of 256 to it
    obtain ⟨d, hd⟩ : ∃ d, i = (p - a) + 1 + d := ⟨i - (p - a) - 1, by omega⟩
    rw [storeLE_frame _ _ (by omega), storeLE_at _ _ hp hi, storeLE_at _ _ hp (by omega)]
    apply BitVec.eq_of_toNat_eq
    have e : 256 ^ i * w = 256 ^ (p - a) * (256 * (256 ^ d * w)) := by rw [hd, pow_add, pow_succ]; ring
    rw [BitVec.toNat_ofNat, BitVec.toNat_ofNat, e, Nat.add_mul_div_left _ _ (Nat.pow_pos (by decide)),
      Nat.add_mul_mod_self_left]
  · rcases Nat.lt_or_ge p (a + i + j) with hj | hj
    · rw [storeLE_at _ _ hi hj, storeLE_at _ _ hp (by omega)]
      have e : p - a = i + (p - (a + i)) := by omega
      rw [e, pow_add, ← Nat.div_div_eq_div_mul, Nat.add_mul_div_left _ _ hpos, Nat.div_eq_of_lt h, Nat.zero_add]
    · rw [storeLE_frame _ _ (by omega), storeLE_frame _ _ (by omega), storeLE_frame _ _ (by omega)]

/-! ## Lists of bytes -/

/-- A list of bytes is written only where it goes. -/
theorem storeBytes_frame (m : Mem) {a p : Nat} (bs : List (BitVec 8)) (h : p < a ∨ a + bs.length ≤ p) :
    storeBytes m a bs p = m p := by
  rw [storeBytes]
  split
  · rw [List.getElem?_eq_none (by omega)]
    rfl
  · rfl

/-- The bytes a list of bytes writes. -/
theorem storeBytes_at (m : Mem) (a : Nat) (bs : List (BitVec 8)) {i : Nat} (h : i < bs.length) :
    storeBytes m a bs (a + i) = bs[i] := by
  rw [storeBytes, if_pos (Nat.le_add_right a i), Nat.add_sub_cancel_left, List.getElem?_eq_getElem h, Option.getD_some]

/-! ## Tags and payloads in one word -/

/-- A payload set between a low tag and a high tag: the bitwise or of the parts is their sum. -/
theorem tag_or_payload (hi lo x s k : Nat) (hlo : lo < 2 ^ s) (hx : x < 2 ^ k) :
    (hi * 2 ^ (s + k) + lo) ||| (x * 2 ^ s) = hi * 2 ^ (s + k) + x * 2 ^ s + lo := by
  have hs : x * 2 ^ s + lo < 2 ^ (s + k) := by
    have : (x + 1) * 2 ^ s ≤ 2 ^ k * 2 ^ s := Nat.mul_le_mul_right _ hx
    rw [pow_add]
    nlinarith
  have hlo' : lo < 2 ^ (s + k) := lt_of_le_of_lt (Nat.le_add_left _ _) hs
  have e1 : hi * 2 ^ (s + k) + lo = hi <<< (s + k) ||| lo := by
    rw [← Nat.shiftLeft_add_eq_or_of_lt hlo', Nat.shiftLeft_eq]
  have e2 : x * 2 ^ s + lo = x <<< s ||| lo := by
    rw [← Nat.shiftLeft_add_eq_or_of_lt hlo, Nat.shiftLeft_eq]
  rw [e1, Nat.or_assoc, Nat.or_comm lo, ← Nat.shiftLeft_eq x, ← e2, ← Nat.shiftLeft_add_eq_or_of_lt hs, Nat.shiftLeft_eq]
  omega

end ByteMem
