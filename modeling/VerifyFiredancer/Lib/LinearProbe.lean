import VerifyFiredancer.Lib.Cyclic
import Mathlib.Logic.Function.Basic
import Mathlib.Data.Finset.Card
import Mathlib.Data.Finset.Image

/-!
# Linear probing

A table of `n` slots of keys, one key of which, `null`, marks an empty slot. A key is looked for from the slot `home key` on,
one slot after the other and around, until it or an empty slot is met. `Probed` is the invariant of such a table: no key twice,
no empty slot between the home of a key and the slot it is in.

The three rules are about one step of a loop each, so that the loops of a program can be any that make these steps. A search
carries `Scanned`: what was passed. An insertion into the slot where a search ended keeps the table (`Probed.insert`). A removal
empties the slot of the key and looks, slot by slot, for a key to move into the hole; it carries `Digging`, the invariant with
its one exception, the hole, until the next empty slot ends it (`Digging.done`).
-/

namespace LinearProbe

open Cyclic

variable {α : Type*} (n : Nat) (null : α) (home : α → Nat)

/-- The invariant of a linearly probed table. -/
structure Probed (t : Nat → α) : Prop where
  distinct : ∀ i j, i < n → j < n → t i = t j → t i ≠ null → i = j
  noGap : ∀ j, j < n → t j ≠ null → ∀ i, i < n → ahead n (home (t j)) i < ahead n (home (t j)) j → t i ≠ null

/-- A key is in the table. -/
def Holds (t : Nat → α) (x : α) : Prop := ∃ i, i < n ∧ t i = x

/-- A search for `x` that has come to the slot `i` passed neither an empty slot nor `x`. -/
def Scanned (t : Nat → α) (x : α) (i : Nat) : Prop :=
  ∀ k, k < n → ahead n (home x) k < ahead n (home x) i → t k ≠ null ∧ t k ≠ x

/-- A removal with its hole at `h` that has come to the slot `s`: the invariant of the table but for the hole, and what was
passed since the hole is neither empty nor found through the hole. -/
structure Digging (t : Nat → α) (h s : Nat) : Prop where
  hole : t h = null
  distinct : ∀ i j, i < n → j < n → t i = t j → t i ≠ null → i = j
  noGap : ∀ j, j < n → t j ≠ null → ∀ i, i < n → ahead n (home (t j)) i < ahead n (home (t j)) j → t i ≠ null ∨ i = h
  passed : ∀ k, k < n → 0 < ahead n h k → ahead n h k ≤ ahead n h s →
    t k ≠ null ∧ ¬ahead n (home (t k)) h < ahead n (home (t k)) k

variable {n null home} {t : Nat → α} {x : α}

/-- A table without keys. -/
theorem Probed.empty (h : ∀ i, i < n → t i = null) : Probed n null home t where
  distinct := fun i _ hi _ _ hne => absurd (h i hi) hne
  noGap := fun j hj hne => absurd (h j hj) hne

/-! ## Searching -/

/-- A search starts at the home of its key. -/
theorem Scanned.start : Scanned n null home t x (home x) := by
  intro k _ hk
  rw [ahead_self] at hk
  exact absurd hk (Nat.not_lt_zero _)

/-- A search goes on from a slot that is neither empty nor the key. -/
theorem Scanned.step {i : Nat} (h : Scanned n null home t x i) (hx : home x < n) (hi : i < n) (hn : t i ≠ null)
    (hne : t i ≠ x) : Scanned n null home t x (next n i) := by
  intro k hk hlt
  rcases lt_ahead_next hx hi hk hlt with hlt | rfl
  · exact h k hk hlt
  · exact ⟨hn, hne⟩

/-- A search that meets an empty slot did not miss its key. -/
theorem Scanned.absent {i : Nat} (h : Scanned n null home t x i) (hp : Probed n null home t) (hlt : home x < n)
    (hi : i < n) (hx : x ≠ null) (he : t i = null) : ¬Holds n t x := by
  rintro ⟨j, hj, rfl⟩
  rcases Nat.lt_trichotomy (ahead n (home (t j)) j) (ahead n (home (t j)) i) with hgt | heq | hgt
  · exact (h j hj hgt).2 rfl
  · have := ahead_inj hlt hj hi heq
    subst this
    exact hx he
  · exact hp.noGap j hj hx i hi hgt he

/-! ## Inserting -/

/-- The key a search did not find is inserted into the empty slot the search met. -/
theorem Probed.insert {i : Nat} (hp : Probed n null home t) (hs : Scanned n null home t x i) (hlt : home x < n)
    (hi : i < n) (hx : x ≠ null) (he : t i = null) : Probed n null home (Function.update t i x) where
  distinct := by
    have habs := hs.absent hp hlt hi hx he
    intro a b ha hb heq hne
    by_cases hai : a = i <;> by_cases hbi : b = i
    · rw [hai, hbi]
    · rw [hai, Function.update_self, Function.update_of_ne hbi] at heq
      exact absurd ⟨b, hb, heq.symm⟩ habs
    · rw [hbi, Function.update_self, Function.update_of_ne hai] at heq
      exact absurd ⟨a, ha, heq⟩ habs
    · rw [Function.update_of_ne hai, Function.update_of_ne hbi] at heq
      rw [Function.update_of_ne hai] at hne
      exact hp.distinct a b ha hb heq hne
  noGap := by
    intro b hb hne a ha hlt
    by_cases hai : a = i
    · rw [hai, Function.update_self]
      exact hx
    · rw [Function.update_of_ne hai]
      by_cases hbi : b = i
      · rw [hbi, Function.update_self] at hlt
        exact (hs a ha hlt).1
      · rw [Function.update_of_ne hbi] at hne hlt
        exact hp.noGap b hb hne a ha hlt

/-- What an insertion adds. -/
theorem holds_insert {i : Nat} (hi : i < n) (he : t i = null) {y : α} (hy : y ≠ null) :
    Holds n (Function.update t i x) y ↔ Holds n t y ∨ y = x := by
  constructor
  · rintro ⟨j, hj, rfl⟩
    by_cases hji : j = i
    · rw [hji, Function.update_self]
      exact Or.inr rfl
    · rw [Function.update_of_ne hji]
      exact Or.inl ⟨j, hj, rfl⟩
  · rintro (⟨j, hj, rfl⟩ | rfl)
    · have hji : j ≠ i := by
        rintro rfl
        exact hy he
      exact ⟨j, hj, Function.update_of_ne hji _ _⟩
    · exact ⟨i, hi, Function.update_self _ _ _⟩

/-! ## Removing -/

/-- A removal starts by emptying the slot of its key. -/
theorem Digging.start {s : Nat} (hp : Probed n null home t) : Digging n null home (Function.update t s null) s s where
  hole := Function.update_self _ _ _
  distinct := by
    intro a b ha hb heq hne
    by_cases has : a = s
    · rw [has, Function.update_self] at hne
      exact absurd rfl hne
    · by_cases hbs : b = s
      · rw [hbs, Function.update_self] at heq
        exact absurd heq hne
      · rw [Function.update_of_ne has, Function.update_of_ne hbs] at heq
        rw [Function.update_of_ne has] at hne
        exact hp.distinct a b ha hb heq hne
  noGap := by
    intro b hb hne a ha hlt
    by_cases has : a = s
    · exact Or.inr has
    · by_cases hbs : b = s
      · rw [hbs, Function.update_self] at hne
        exact absurd rfl hne
      · rw [Function.update_of_ne hbs] at hne hlt
        rw [Function.update_of_ne has]
        exact Or.inl (hp.noGap b hb hne a ha hlt)
  passed := by
    intro k _ hpos hle
    rw [ahead_self] at hle
    omega

/-- What emptying a slot removes. -/
theorem holds_start {s : Nat} (hp : Probed n null home t) (hs : s < n) {y : α} (hy : y ≠ null) :
    Holds n (Function.update t s null) y ↔ Holds n t y ∧ y ≠ t s := by
  constructor
  · rintro ⟨j, hj, rfl⟩
    by_cases hjs : j = s
    · rw [hjs, Function.update_self] at hy
      exact absurd rfl hy
    · rw [Function.update_of_ne hjs] at hy ⊢
      exact ⟨⟨j, hj, rfl⟩, fun heq => hjs (hp.distinct j s hj hs heq hy)⟩
  · rintro ⟨⟨j, hj, rfl⟩, hne⟩
    have hjs : j ≠ s := by
      rintro rfl
      exact hne rfl
    exact ⟨j, hj, Function.update_of_ne hjs _ _⟩

section Dig

variable {h s : Nat}

/-- A removal comes back to its hole only as an empty slot. -/
theorem Digging.next_ne_hole (hd : Digging n null home t h s) (hn : t (next n s) ≠ null) : next n s ≠ h := by
  intro e
  rw [e] at hn
  exact hn hd.hole

/-- A removal passes a key that is not found through the hole. -/
theorem Digging.skip (hd : Digging n null home t h s) (hh : h < n) (hs : s < n) (hn : t (next n s) ≠ null)
    (hk : ¬ahead n (home (t (next n s))) h < ahead n (home (t (next n s))) (next n s)) :
    Digging n null home t h (next n s) where
  hole := hd.hole
  distinct := hd.distinct
  noGap := hd.noGap
  passed := by
    intro k hkn hpos hle
    rw [ahead_next_right hh (hd.next_ne_hole hn)] at hle
    rcases Nat.lt_or_ge (ahead n h s) (ahead n h k) with hlt | hge
    · have heq : ahead n h k = ahead n h (next n s) := by
        rw [ahead_next_right hh (hd.next_ne_hole hn)]
        omega
      have := ahead_inj hh hkn (next_lt hs) heq
      subst this
      exact ⟨hn, hk⟩
    · exact hd.passed k hkn hpos hge

/-- A removal moves a key that is found through the hole into the hole, and has its hole where the key was. -/
theorem Digging.move (hd : Digging n null home t h s) (hs : s < n) (hn : t (next n s) ≠ null)
    (hk : ahead n (home (t (next n s))) h < ahead n (home (t (next n s))) (next n s)) :
    Digging n null home (Function.update (Function.update t h (t (next n s))) (next n s) null) (next n s) (next n s) where
  hole := Function.update_self _ _ _
  distinct := by
    have hne := hd.next_ne_hole hn
    have hs' := next_lt hs
    generalize next n s = s' at *
    intro a b ha hb heq hna
    have has : a ≠ s' := by
      rintro rfl
      exact hna (Function.update_self _ _ _)
    have hbs : b ≠ s' := by
      rintro rfl
      rw [Function.update_self] at heq
      exact hna heq
    rw [Function.update_of_ne has, Function.update_of_ne hbs] at heq
    rw [Function.update_of_ne has] at hna
    by_cases hah : a = h <;> by_cases hbh : b = h
    · rw [hah, hbh]
    · rw [hah, Function.update_self, Function.update_of_ne hbh] at heq
      exact absurd (hd.distinct s' b hs' hb heq hn) (Ne.symm hbs)
    · rw [hbh, Function.update_self, Function.update_of_ne hah] at heq
      exact absurd (hd.distinct s' a hs' ha heq.symm hn) (Ne.symm has)
    · rw [Function.update_of_ne hah, Function.update_of_ne hbh] at heq
      rw [Function.update_of_ne hah] at hna
      exact hd.distinct a b ha hb heq hna
  noGap := by
    have hne := hd.next_ne_hole hn
    have hs' := next_lt hs
    generalize next n s = s' at *
    intro b hb hnb a ha hlt
    by_cases has : a = s'
    · exact Or.inr has
    · refine Or.inl ?_
      have hbs : b ≠ s' := by
        rintro rfl
        exact hnb (Function.update_self _ _ _)
      rw [Function.update_of_ne hbs] at hnb hlt
      rw [Function.update_of_ne has]
      by_cases hah : a = h
      · rw [hah, Function.update_self]
        exact hn
      · rw [Function.update_of_ne hah]
        by_cases hbh : b = h
        · -- the moved key: its way to the hole is the first part of its way to where it was
          rw [hbh, Function.update_self] at hlt
          exact (hd.noGap s' hs' hn a ha (Nat.lt_trans hlt hk)).resolve_right hah
        · rw [Function.update_of_ne hbh] at hnb hlt
          exact (hd.noGap b hb hnb a ha hlt).resolve_right hah
  passed := by
    intro k _ hpos hle
    rw [ahead_self] at hle
    omega

/-- A move keeps the keys. -/
theorem Digging.holds_move (hd : Digging n null home t h s) (hh : h < n) (hs : s < n) (hn : t (next n s) ≠ null) {y : α}
    (hy : y ≠ null) :
    Holds n (Function.update (Function.update t h (t (next n s))) (next n s) null) y ↔ Holds n t y := by
  have hne := hd.next_ne_hole hn
  have hs' := next_lt hs
  have hhole := hd.hole
  generalize next n s = s' at *
  constructor
  · rintro ⟨j, hj, rfl⟩
    by_cases hjs : j = s'
    · rw [hjs, Function.update_self] at hy
      exact absurd rfl hy
    · rw [Function.update_of_ne hjs]
      by_cases hjh : j = h
      · rw [hjh, Function.update_self]
        exact ⟨s', hs', rfl⟩
      · rw [Function.update_of_ne hjh]
        exact ⟨j, hj, rfl⟩
  · rintro ⟨j, hj, rfl⟩
    by_cases hjs : j = s'
    · subst hjs
      exact ⟨h, hh, by rw [Function.update_of_ne (Ne.symm hne), Function.update_self]⟩
    · have hjh : j ≠ h := by
        rintro rfl
        exact hy hhole
      exact ⟨j, hj, by rw [Function.update_of_ne hjs, Function.update_of_ne hjh]⟩

/-- A removal that comes to an empty slot is done: a key found through the hole would be behind that slot, and found through it
as well. -/
theorem Digging.done (hd : Digging n null home t h s) (hlt : ∀ y, home y < n) (hh : h < n) (hs : s < n)
    (hn : t (next n s) = null) : Probed n null home t where
  distinct := hd.distinct
  noGap := by
    intro b hb hnb a ha hab
    rcases hd.noGap b hb hnb a ha hab with hna | rfl
    · exact hna
    · exfalso
      have hs' := next_lt hs
      have hpos : 0 < ahead n a b := by
        refine ahead_pos ha ?_
        rintro rfl
        exact absurd hab (Nat.lt_irrefl _)
      rcases Nat.lt_or_ge (ahead n a s) (ahead n a b) with hgt | hle
      · -- `b` was not passed, so the empty slot lies between the hole and `b`
        have hne : next n s ≠ a := by
          intro he
          have h1 := ahead_of_next_eq hs he
          have h2 := ahead_lt ha hb
          omega
        have hsb : ahead n a (next n s) < ahead n a b := by
          refine lt_of_le_of_ne ?_ fun e => ?_
          · rw [ahead_next_right ha hne]
            exact hgt
          · rw [← ahead_inj ha hs' hb e] at hnb
            exact hnb hn
        rcases hd.noGap b hb hnb _ hs' (ahead_between (hlt _) ha hs' hb hab hsb) with h1 | h1
        · exact h1 hn
        · exact hne h1
      · exact (hd.passed b hb hpos hle).2 hab

end Dig

/-! ## Counting -/

/-- The keys in the slots of a table. -/
def count [DecidableEq α] (n : Nat) (null : α) (t : Nat → α) : Nat := ((Finset.range n).filter (t · ≠ null)).card

/-- A table with fewer keys than slots has an empty slot. -/
theorem exists_null [DecidableEq α] {t : Nat → α} (h : count n null t < n) : ∃ z, z < n ∧ t z = null := by
  by_contra hall
  have hfull : (Finset.range n).filter (t · ≠ null) = Finset.range n := by
    refine Finset.filter_true_of_mem fun i hi => ?_
    intro he
    exact hall ⟨i, Finset.mem_range.1 hi, he⟩
  rw [count, hfull, Finset.card_range] at h
  exact Nat.lt_irrefl _ h

/-- A table whose keys are all among `d` others has at most `d`. -/
theorem Probed.count_le [DecidableEq α] {t r : Nat → α} {d : Nat} (hp : Probed n null home t)
    (h : ∀ i, i < n → t i ≠ null → Holds d r (t i)) : count n null t ≤ d := by
  have hinj : Set.InjOn t ((Finset.range n).filter (t · ≠ null)) := by
    intro a ha b hb heq
    rw [Finset.mem_coe, Finset.mem_filter, Finset.mem_range] at ha hb
    exact hp.distinct a b ha.1 hb.1 heq ha.2
  have hsub : ((Finset.range n).filter (t · ≠ null)).image t ⊆ (Finset.range d).image r := by
    intro y hy
    obtain ⟨i, hi, rfl⟩ := Finset.mem_image.1 hy
    rw [Finset.mem_filter, Finset.mem_range] at hi
    obtain ⟨j, hj, he⟩ := h i hi.1 hi.2
    exact Finset.mem_image.2 ⟨j, Finset.mem_range.2 hj, he⟩
  calc count n null t = (((Finset.range n).filter (t · ≠ null)).image t).card := (Finset.card_image_of_injOn hinj).symm
    _ ≤ ((Finset.range d).image r).card := Finset.card_le_card hsub
    _ ≤ (Finset.range d).card := Finset.card_image_le
    _ = d := Finset.card_range d

end LinearProbe
