import VerifyFiredancer.Lib.PowerMask
import Mathlib.Data.List.Basic

/-!
# Layouts

A layout places regions of given alignments and sizes one after the other, each at the next multiple of its alignment. `starts`
are the places, `stop` is where the last region ends. Regions placed so are aligned, in order and apart (`places_pairwise`), and
a layout that starts at a common multiple of the alignments is the one that starts at zero, shifted (`starts_shift`).

On words of `w` bits the usual formula rounds up modulo `2^w` (`toNat_wordAlignUp`): it is exact, or it gives zero.
-/

namespace Layout

/-- The least multiple of `a` from `x` on. -/
def alignUp (x a : Nat) : Nat := (x + a - 1) / a * a

theorem dvd_alignUp (x a : Nat) : a ∣ alignUp x a := Nat.dvd_mul_left a _

section AlignUp

variable {x y a : Nat} (ha : 0 < a)
include ha

theorem le_alignUp : x ≤ alignUp x a := by
  have hmod := Nat.mod_lt (x + a - 1) ha
  have hdiv := Nat.div_add_mod (x + a - 1) a
  rw [alignUp, Nat.mul_comm]
  omega

/-- A multiple that is not before `x` is not before the one `x` is rounded up to. -/
theorem alignUp_le (hy : a ∣ y) (h : x ≤ y) : alignUp x a ≤ y := by
  obtain ⟨k, rfl⟩ := hy
  have hlt : x + a - 1 < a * (k + 1) := by
    rw [Nat.mul_succ]
    omega
  rw [alignUp, Nat.mul_comm a k]
  exact Nat.mul_le_mul_right a (Nat.le_of_lt_succ ((Nat.div_lt_iff_lt_mul ha).2 (by rw [Nat.mul_comm]; exact hlt)))

/-- A multiple shifts what is rounded up. -/
theorem alignUp_add {b : Nat} (hb : a ∣ b) : alignUp (b + x) a = b + alignUp x a := by
  obtain ⟨k, rfl⟩ := hb
  have hsub : a * k + x + a - 1 = x + a - 1 + a * k := by omega
  rw [alignUp, alignUp, hsub, Nat.add_mul_div_left _ _ ha, Nat.add_mul, Nat.add_comm, Nat.mul_comm k a]

end AlignUp

/-- A region that is to be placed. -/
structure Req where
  align : Nat
  size : Nat

/-- Where the regions are placed in a layout from `l` on. -/
def starts : Nat → List Req → List Nat
  | _, [] => []
  | l, r :: rs => alignUp l r.align :: starts (alignUp l r.align + r.size) rs

/-- Where the last region of a layout from `l` on ends. -/
def stop : Nat → List Req → Nat
  | l, [] => l
  | l, r :: rs => stop (alignUp l r.align + r.size) rs

variable {rs : List Req}

theorem le_stop (hpos : ∀ r ∈ rs, 0 < r.align) : ∀ {l : Nat}, l ≤ stop l rs := by
  induction rs with
  | nil => intro l; exact Nat.le_refl l
  | cons r rs ih =>
    intro l
    rw [List.forall_mem_cons] at hpos
    have hstep := le_alignUp (x := l) hpos.1
    have hrest := ih hpos.2 (l := alignUp l r.align + r.size)
    rw [stop]
    omega

/-- The regions, with where they are placed. -/
def places (l : Nat) (rs : List Req) : List (Nat × Req) := (starts l rs).zip rs

theorem places_cons (l : Nat) (r : Req) (rs : List Req) :
    places l (r :: rs) = (alignUp l r.align, r) :: places (alignUp l r.align + r.size) rs := rfl

theorem places_fst : ∀ {l : Nat}, (places l rs).map Prod.fst = starts l rs := by
  induction rs with
  | nil => intro l; rfl
  | cons r rs ih =>
    intro l
    rw [places_cons, List.map_cons, ih, starts]

/-- A region is placed at a multiple of its alignment. -/
theorem places_aligned : ∀ {l : Nat}, ∀ p ∈ places l rs, p.2.align ∣ p.1 := by
  induction rs with
  | nil => intro l p hp; exact absurd hp List.not_mem_nil
  | cons r rs ih =>
    intro l p hp
    rw [places_cons, List.mem_cons] at hp
    rcases hp with rfl | hp
    · exact dvd_alignUp l r.align
    · exact ih p hp

/-- A region is placed between the start and the end of the layout. -/
theorem places_inside (hpos : ∀ r ∈ rs, 0 < r.align) :
    ∀ {l : Nat}, ∀ p ∈ places l rs, l ≤ p.1 ∧ p.1 + p.2.size ≤ stop l rs := by
  induction rs with
  | nil => intro l p hp; exact absurd hp List.not_mem_nil
  | cons r rs ih =>
    intro l p hp
    rw [List.forall_mem_cons] at hpos
    have hstep := le_alignUp (x := l) hpos.1
    rw [places_cons, List.mem_cons] at hp
    rcases hp with rfl | hp
    · exact ⟨hstep, le_stop hpos.2⟩
    · obtain ⟨hfrom, hto⟩ := ih hpos.2 p hp
      exact ⟨by omega, hto⟩

/-- Every region ends before the ones after it start. -/
theorem places_pairwise (hpos : ∀ r ∈ rs, 0 < r.align) :
    ∀ {l : Nat}, (places l rs).Pairwise fun p q => p.1 + p.2.size ≤ q.1 := by
  induction rs with
  | nil => intro l; exact List.Pairwise.nil
  | cons r rs ih =>
    intro l
    rw [List.forall_mem_cons] at hpos
    rw [places_cons, List.pairwise_cons]
    exact ⟨fun q hq => (places_inside hpos.2 q hq).1, ih hpos.2⟩

section Shift

variable {b : Nat} (hpos : ∀ r ∈ rs, 0 < r.align) (hb : ∀ r ∈ rs, r.align ∣ b)
include hpos hb

theorem starts_add : ∀ {l : Nat}, starts (b + l) rs = (starts l rs).map (b + ·) := by
  induction rs with
  | nil => intro l; rfl
  | cons r rs ih =>
    intro l
    rw [List.forall_mem_cons] at hpos hb
    rw [starts, starts, List.map_cons, alignUp_add hpos.1 hb.1, Nat.add_assoc, ih hpos.2 hb.2]

theorem stop_add : ∀ {l : Nat}, stop (b + l) rs = b + stop l rs := by
  induction rs with
  | nil => intro l; rfl
  | cons r rs ih =>
    intro l
    rw [List.forall_mem_cons] at hpos hb
    rw [stop, stop, alignUp_add hpos.1 hb.1, Nat.add_assoc, ih hpos.2 hb.2]

/-- A layout that starts at a common multiple of the alignments. -/
theorem starts_shift : starts b rs = (starts 0 rs).map (b + ·) := starts_add hpos hb (l := 0)

theorem stop_shift : stop b rs = b + stop 0 rs := stop_add hpos hb (l := 0)

end Shift

/-! ## Words -/

section Word

open PowerMask

variable {w k : Nat}

/-- The formula that rounds a word up to a power of two. -/
def wordAlignUp (x a : BitVec w) : BitVec w := (x + (a - 1)) &&& ~~~(a - 1)

/-- The formula rounds up modulo `2^w`. -/
theorem toNat_wordAlignUp (x : BitVec w) {a : BitVec w} (ha : a.toNat = 2 ^ k) :
    (wordAlignUp x a).toNat = alignUp x.toNat (2 ^ k) % 2 ^ w := by
  have hk := exponent_lt ha
  have hpow : 2 ^ w = 2 ^ k * 2 ^ (w - k) := by rw [← Nat.pow_add, Nat.add_sub_cancel' (Nat.le_of_lt hk)]
  have hpos := Nat.two_pow_pos k
  have hsub : x.toNat + (2 ^ k - 1) = x.toNat + 2 ^ k - 1 := by omega
  rw [wordAlignUp, toNat_and_not_mask ha, BitVec.toNat_add, toNat_mask ha, hsub, alignUp, hpow, Nat.mod_mul_right_div_self,
    Nat.mul_comm _ (2 ^ k), Nat.mul_comm (_ / _) (2 ^ k), Nat.mul_mod_mul_left]

/-- What is rounded up past the range is rounded up to its end. -/
theorem alignUp_word_le (x : BitVec w) {a : BitVec w} (ha : a.toNat = 2 ^ k) : alignUp x.toNat (2 ^ k) ≤ 2 ^ w :=
  alignUp_le (Nat.two_pow_pos k) (Nat.pow_dvd_pow 2 (Nat.le_of_lt (exponent_lt ha))) (Nat.le_of_lt x.isLt)

end Word

end Layout
