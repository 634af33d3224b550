import VerifyFiredancer.UnalignedAccess
import VerifyFiredancer.Lib.PowerMask

/-!
# Unaligned loads in either style

A load of `n` bytes gives them as a number, with zeros above. By `memcpy` and by direct accesses it reads these bytes and no
other; fast, it reads at most three bytes past them and masks them out.
-/

namespace VerifyFiredancer

open ByteMem ReadScan

/-- The load gives the `n` bytes at the address as a number, and reads the `k` bytes there. -/
structure LoadsBytes {w : Nat} (load : Nat → Rd Uchar (BitVec w)) (n k : Nat) : Prop where
  toNat_result : ∀ m p, ((load p).result m).toNat = loadLE m p n
  mem_reads : ∀ m p a, a ∈ (load p).reads m ↔ p ≤ a ∧ a < p + k

namespace UnalignedAccessAux

/-- The bytes of a load are the number that the memory holds there. -/
theorem result_readLE (m : Mem) (n p : Nat) : (readLE p n).result m = loadLE m p n := by
  induction n generalizing p with
  | zero => rfl
  | succ n ih =>
    rw [readLE, result_bind, result_bind, result_pure, result_read, ih, loadLE_succ]

/-- They are read from the first to the last. -/
theorem reads_readLE (m : Mem) (n p : Nat) : (readLE p n).reads m = List.range' p n := by
  induction n generalizing p with
  | zero => rfl
  | succ n ih =>
    rw [readLE, reads_bind, reads_bind, reads_pure, reads_read, ih, List.append_nil, List.singleton_append, List.range'_succ]

section Pieces

variable {w : Nat}

theorem castUchar_loads (hw : 8 ≤ w) : LoadsBytes (castUchar w) 1 1 where
  toNat_result m p := by
    have hresult : (castUchar w p).result m = (m p).setWidth w := rfl
    rw [hresult, BitVec.toNat_setWidth_of_le hw, loadLE_one]
  mem_reads m p a := by
    have hreads : (castUchar w p).reads m = [p] := rfl
    rw [hreads, List.mem_singleton]
    omega

/-- The bytes fit the local and the type that it is cast to. -/
theorem memcpyTmp_loads {n v : Nat} (hn : 8 * n ≤ w) (hv : w ≤ v) : LoadsBytes (Memcpy.memcpyTmp w n v) n n where
  toNat_result m p := by
    have hlt : loadLE m p n < 2 ^ w := by
      refine Nat.lt_of_lt_of_le (loadLE_lt m p n) ?_
      have hpow : 256 ^ n = 2 ^ (8 * n) := (pow_mul 2 8 n).symm
      rw [hpow]
      exact Nat.pow_le_pow_right (by decide) hn
    rw [Memcpy.memcpyTmp, result_bind, result_pure, result_readLE, BitVec.toNat_setWidth_of_le hv, BitVec.toNat_ofNat,
      Nat.mod_eq_of_lt hlt]
  mem_reads m p a := by
    rw [Memcpy.memcpyTmp, reads_bind, reads_pure, reads_readLE, List.append_nil, List.mem_range'_1]

theorem deref_loads {n v : Nat} (hn : 8 * n = w) (hv : w ≤ v) : LoadsBytes (Direct.deref w v) n n := by
  have heq : Direct.deref w v = Memcpy.memcpyTmp w n v := by
    funext p
    rw [Direct.deref, Memcpy.memcpyTmp, ← hn, Nat.mul_div_cancel_left n (by decide)]
  rw [heq]
  exact memcpyTmp_loads (Nat.le_of_eq hn) hv

variable {lo hi load : Nat → Rd Uchar (BitVec w)} {i j n k : Nat}

/-- Two loads put together are one of all bytes. -/
theorem orLoad_loads (hlo : LoadsBytes lo i i) (hhi : LoadsBytes hi j j) (hw : 8 * (i + j) ≤ w) {s : Nat} (hs : s = 8 * i) :
    LoadsBytes (Direct.orLoad lo hi i s) (i + j) (i + j) where
  toNat_result m p := by
    have hpow : 256 ^ i = 2 ^ s := by rw [hs]; exact (pow_mul 2 8 i).symm
    have hlow : loadLE m p i < 2 ^ s := hpow ▸ loadLE_lt m p i
    have hhigh : loadLE m (p + i) j * 2 ^ s < 2 ^ w := by
      have hmul : loadLE m (p + i) j * 2 ^ s < 256 ^ j * 2 ^ s :=
        Nat.mul_lt_mul_of_pos_right (loadLE_lt m (p + i) j) (Nat.two_pow_pos s)
      have hle : 256 ^ j * 2 ^ s ≤ 2 ^ w := by
        rw [← hpow, ← pow_add, Nat.add_comm j i]
        exact (pow_mul 2 8 (i + j)).symm.trans_le (Nat.pow_le_pow_right (by decide) hw)
      exact Nat.lt_of_lt_of_le hmul hle
    have hor : loadLE m p i ||| loadLE m (p + i) j <<< s = loadLE m (p + i) j <<< s + loadLE m p i := by
      rw [Nat.or_comm, ← Nat.shiftLeft_add_eq_or_of_lt hlow]
    have hresult : (Direct.orLoad lo hi i s p).result m = (lo p).result m ||| (hi (p + i)).result m <<< s := rfl
    rw [hresult, BitVec.toNat_or, BitVec.toNat_shiftLeft, hlo.toNat_result, hhi.toNat_result, Nat.shiftLeft_eq,
      Nat.mod_eq_of_lt hhigh, ← Nat.shiftLeft_eq, hor, Nat.shiftLeft_eq, loadLE_add, hpow, Nat.add_comm, Nat.mul_comm]
  mem_reads m p a := by
    have hreads : (Direct.orLoad lo hi i s p).reads m = (lo p).reads m ++ ((hi (p + i)).reads m ++ []) := rfl
    rw [hreads, List.append_nil, List.mem_append, hlo.mem_reads, hhi.mem_reads]
    omega

/-- A load with a mask is one of the bytes that the mask keeps. -/
theorem maskLoad_loads (h : LoadsBytes load k k) (hn : n ≤ k) {mask : BitVec w} (hmask : mask.toNat = 2 ^ (8 * n) - 1) :
    LoadsBytes (maskLoad load mask) n k where
  toNat_result m p := by
    have hresult : (maskLoad load mask p).result m = (load p).result m &&& mask := rfl
    have hpow : 2 ^ (8 * n) = 256 ^ n := pow_mul 2 8 n
    rw [hresult, BitVec.toNat_and, hmask, h.toNat_result, Nat.and_two_pow_sub_one_eq_mod, hpow, loadLE_mod m p n k hn]
  mem_reads m p a := by
    have hreads : (maskLoad load mask p).reads m = (load p).reads m ++ [] := rfl
    rw [hreads, List.append_nil, h.mem_reads]

end Pieces

/-! ## The loads -/

theorem memcpy_loads (l : FdLoad) : LoadsBytes l.memcpy l.bytes l.bytes := by
  cases l with
  | ucharLoad1 | ushortLoad1 | uintLoad1 | ulongLoad1 => exact castUchar_loads (by decide)
  | _ => exact memcpyTmp_loads (by decide) (by decide)

theorem direct_uint3 : LoadsBytes Direct.fdUintLoad3 3 3 :=
  orLoad_loads (deref_loads (n := 2) (by decide) (by decide)) (castUchar_loads (by decide)) (by decide) (by decide)

theorem direct_ulong6 : LoadsBytes Direct.fdUlongLoad6 6 6 :=
  orLoad_loads (deref_loads (n := 4) (by decide) (by decide)) (deref_loads (n := 2) (by decide) (by decide)) (by decide)
    (by decide)

theorem direct_loads (l : FdLoad) : LoadsBytes l.direct l.bytes l.bytes := by
  cases l with
  | ucharLoad1 | ushortLoad1 | uintLoad1 | ulongLoad1 => exact castUchar_loads (by decide)
  | uintLoad3 => exact direct_uint3
  | ulongLoad3 =>
    exact orLoad_loads (deref_loads (n := 2) (by decide) (by decide)) (castUchar_loads (by decide)) (by decide) (by decide)
  | ulongLoad5 =>
    exact orLoad_loads (deref_loads (n := 4) (by decide) (by decide)) (castUchar_loads (by decide)) (by decide) (by decide)
  | ulongLoad6 => exact direct_ulong6
  | ulongLoad7 => exact orLoad_loads direct_ulong6 (castUchar_loads (by decide)) (by decide) (by decide)
  | _ => exact deref_loads (by decide) (by decide)

theorem memcpyFast_loads (l : FdLoad) : LoadsBytes l.memcpyFast l.bytes (l.bytes + l.tailRead) := by
  cases l with
  | uintLoad3 | ulongLoad3 => exact maskLoad_loads (memcpyTmp_loads (n := 4) (by decide) (by decide)) (by decide) (by decide)
  | ulongLoad5 | ulongLoad6 | ulongLoad7 =>
    exact maskLoad_loads (memcpyTmp_loads (n := 8) (by decide) (by decide)) (by decide) (by decide)
  | ucharLoad1 | ushortLoad1 | uintLoad1 | ulongLoad1 => exact castUchar_loads (by decide)
  | ushortLoad2 | uintLoad2 | uintLoad4 | ulongLoad2 | ulongLoad4 | ulongLoad8 =>
    exact memcpyTmp_loads (by decide) (by decide)

theorem directFast_loads (l : FdLoad) : LoadsBytes l.directFast l.bytes (l.bytes + l.tailRead) := by
  cases l with
  | uintLoad3 | ulongLoad3 => exact maskLoad_loads (deref_loads (n := 4) (by decide) (by decide)) (by decide) (by decide)
  | ulongLoad5 | ulongLoad6 | ulongLoad7 =>
    exact maskLoad_loads (deref_loads (n := 8) (by decide) (by decide)) (by decide) (by decide)
  | ucharLoad1 | ushortLoad1 | uintLoad1 | ulongLoad1 => exact castUchar_loads (by decide)
  | ushortLoad2 | uintLoad2 | uintLoad4 | ulongLoad2 | ulongLoad4 | ulongLoad8 => exact deref_loads (by decide) (by decide)

end UnalignedAccessAux

open UnalignedAccessAux in
/-- Every load gives the bytes at any address as a number, in either style, fast or not. The plain loads read these bytes and no
other; the fast ones read as many more as their comments say. -/
theorem loads_agree (l : FdLoad) :
    LoadsBytes l.memcpy l.bytes l.bytes ∧ LoadsBytes l.direct l.bytes l.bytes ∧
      LoadsBytes l.memcpyFast l.bytes (l.bytes + l.tailRead) ∧ LoadsBytes l.directFast l.bytes (l.bytes + l.tailRead) :=
  ⟨memcpy_loads l, direct_loads l, memcpyFast_loads l, directFast_loads l⟩

end VerifyFiredancer
