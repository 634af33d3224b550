import Mathlib.Data.List.Basic
import Mathlib.Logic.Function.Basic

/-!
# Patterns matched by backtracking

Regular expressions with groups, matched from the start of a text as a backtracking matcher does it: of two alternatives the
first is tried first, and a repetition of a class takes as many characters as it can. `Pattern.run` lists all ways to match in
the order in which they are tried, each with the text left and the groups captured, so that a match is the first of them.
`Matches` says which ways there are, without the order.
-/

namespace Regex

/-- A pattern: a character of a class, as many of a class as possible, a test of the text left, and the ways to combine them.
`ι` names the groups. -/
inductive Pattern (α ι : Type*)
  | one (p : α → Bool)
  | many (p : α → Bool)
  | look (q : List α → Bool)
  | seq (r s : Pattern α ι)
  | alt (r s : Pattern α ι)
  | group (n : ι) (r : Pattern α ι)

/-- What the groups captured. -/
abbrev Captures (α ι : Type*) : Type _ := ι → Option (List α)

variable {α ι : Type*}

/-- The characters of a word, one after the other. -/
def Pattern.lit [DecidableEq α] : List α → Pattern α ι
  | [] => .look fun _ => true
  | a :: w => .seq (.one (· == a)) (lit w)

/-- What can be left after characters of a class, the least first. -/
def spans (p : α → Bool) : List α → List (List α)
  | [] => [[]]
  | a :: s => if p a then spans p s ++ [a :: s] else [a :: s]

/-- All ways to match a pattern from the start of a text, in the order in which they are tried. -/
def Pattern.run [DecidableEq ι] : Pattern α ι → List α → Captures α ι → List (List α × Captures α ι)
  | .one _, [], _ => []
  | .one p, a :: s, c => if p a then [(s, c)] else []
  | .many p, s, c => (spans p s).map fun t => (t, c)
  | .look q, s, c => if q s then [(s, c)] else []
  | .seq r r', s, c => (r.run s c).flatMap fun x => r'.run x.1 x.2
  | .alt r r', s, c => r.run s c ++ r'.run s c
  | .group n r, s, c => (r.run s c).map fun x => (x.1, Function.update x.2 n (some (s.take (s.length - x.1.length))))

/-- The first way to match, and what its groups captured. -/
def Pattern.first [DecidableEq ι] (r : Pattern α ι) (s : List α) : Option (Captures α ι) :=
  ((r.run s fun _ => none).head?).map Prod.snd

/-- The ways to match: the pattern takes a text to what is left of it, and captures to captures. -/
inductive Matches [DecidableEq ι] : Pattern α ι → List α → Captures α ι → List α → Captures α ι → Prop
  | one {p : α → Bool} {a : α} (h : p a) (s : List α) (c : Captures α ι) : Matches (.one p) (a :: s) c s c
  | many {p : α → Bool} {w : List α} (h : ∀ a ∈ w, p a) (s : List α) (c : Captures α ι) : Matches (.many p) (w ++ s) c s c
  | look {q : List α → Bool} {s : List α} (h : q s) (c : Captures α ι) : Matches (.look q) s c s c
  | seq {r r' : Pattern α ι} {s t u : List α} {c d e : Captures α ι} (h : Matches r s c t d) (h' : Matches r' t d u e) :
      Matches (.seq r r') s c u e
  | altLeft {r r' : Pattern α ι} {s t : List α} {c d : Captures α ι} (h : Matches r s c t d) : Matches (.alt r r') s c t d
  | altRight {r r' : Pattern α ι} {s t : List α} {c d : Captures α ι} (h : Matches r' s c t d) : Matches (.alt r r') s c t d
  | group {n : ι} {r : Pattern α ι} {w t : List α} {c d : Captures α ι} (h : Matches r (w ++ t) c t d) :
      Matches (.group n r) (w ++ t) c t (Function.update d n (some w))

/-- What can be left after characters of a class. -/
theorem mem_spans {p : α → Bool} {s t : List α} : t ∈ spans p s ↔ ∃ w, s = w ++ t ∧ ∀ a ∈ w, p a := by
  induction s with
  | nil =>
    rw [spans, List.mem_singleton]
    refine ⟨fun h => ⟨[], h.symm, nofun⟩, ?_⟩
    rintro ⟨w, hw, _⟩
    exact (List.append_eq_nil_iff.1 hw.symm).2
  | cons a s ih =>
    have hall : t = a :: s → ∃ w, a :: s = w ++ t ∧ ∀ b ∈ w, p b := fun h => ⟨[], h.symm, nofun⟩
    -- nothing is taken, or the first character is and then something of the rest
    have hcases : (∃ w, a :: s = w ++ t ∧ ∀ b ∈ w, p b) → t = a :: s ∨ p a ∧ ∃ w, s = w ++ t ∧ ∀ b ∈ w, p b := by
      rintro ⟨w, hw, hp⟩
      cases w with
      | nil => exact Or.inl hw.symm
      | cons b w =>
        obtain ⟨rfl, hs⟩ := List.cons.inj hw
        exact Or.inr ⟨hp a List.mem_cons_self, w, hs, fun b hb => hp b (List.mem_cons_of_mem _ hb)⟩
    by_cases hp : p a
    · rw [spans, if_pos hp, List.mem_append, List.mem_singleton, ih]
      constructor
      · rintro (⟨w, rfl, hw⟩ | h)
        · refine ⟨a :: w, rfl, fun b hb => ?_⟩
          rcases List.mem_cons.1 hb with rfl | hb
          · exact hp
          · exact hw b hb
        · exact hall h
      · intro h
        exact (hcases h).symm.imp_left And.right
    · rw [spans, if_neg hp, List.mem_singleton]
      exact ⟨hall, fun h => (hcases h).resolve_right fun h => hp h.1⟩

section Run

variable [DecidableEq ι]

/-- What is left of a text is an end of it. -/
theorem Matches.suffix {r : Pattern α ι} {s t : List α} {c d : Captures α ι} (h : Matches r s c t d) : ∃ w, s = w ++ t := by
  induction h with
  | @one p a h s c => exact ⟨[a], rfl⟩
  | @many p w h s c => exact ⟨w, rfl⟩
  | look h c => exact ⟨[], rfl⟩
  | seq h h' ih ih' =>
    obtain ⟨w, rfl⟩ := ih
    obtain ⟨w', rfl⟩ := ih'
    exact ⟨w ++ w', (List.append_assoc ..).symm⟩
  | altLeft h ih => exact ih
  | altRight h ih => exact ih
  | @group n r w t c d h ih => exact ⟨w, rfl⟩

/-- The matcher finds the ways to match. -/
theorem mem_run_iff {r : Pattern α ι} {s t : List α} {c d : Captures α ι} : (t, d) ∈ r.run s c ↔ Matches r s c t d := by
  induction r generalizing s t c d with
  | one p =>
    constructor
    · intro h
      cases s with
      | nil => cases h
      | cons a s =>
        rw [Pattern.run] at h
        by_cases hp : p a
        · rw [if_pos hp, List.mem_singleton, Prod.mk.injEq] at h
          obtain ⟨rfl, rfl⟩ := h
          exact .one hp _ _
        · rw [if_neg hp] at h
          cases h
    · intro h
      cases h with
      | one hp =>
        rw [Pattern.run, if_pos hp]
        exact List.mem_singleton_self _
  | many p =>
    rw [Pattern.run, List.mem_map]
    constructor
    · rintro ⟨u, hu, he⟩
      obtain ⟨rfl, rfl⟩ := Prod.mk.inj he
      obtain ⟨w, rfl, hw⟩ := mem_spans.1 hu
      exact .many hw _ _
    · intro h
      cases h with
      | @many _ w hw => exact ⟨t, mem_spans.2 ⟨w, rfl, hw⟩, rfl⟩
  | look q =>
    rw [Pattern.run]
    constructor
    · intro h
      by_cases hq : q s
      · rw [if_pos hq, List.mem_singleton, Prod.mk.injEq] at h
        obtain ⟨rfl, rfl⟩ := h
        exact .look hq _
      · rw [if_neg hq] at h
        cases h
    · intro h
      cases h with
      | look hq =>
        rw [if_pos hq]
        exact List.mem_singleton_self _
  | seq r r' ih ih' =>
    rw [Pattern.run, List.mem_flatMap]
    constructor
    · rintro ⟨⟨u, e⟩, hu, ht⟩
      exact .seq (ih.1 hu) (ih'.1 ht)
    · intro h
      cases h with
      | seq h h' => exact ⟨(_, _), ih.2 h, ih'.2 h'⟩
  | alt r r' ih ih' =>
    rw [Pattern.run, List.mem_append]
    constructor
    · rintro (h | h)
      · exact .altLeft (ih.1 h)
      · exact .altRight (ih'.1 h)
    · intro h
      cases h with
      | altLeft h => exact Or.inl (ih.2 h)
      | altRight h => exact Or.inr (ih'.2 h)
  | group n r ih =>
    rw [Pattern.run, List.mem_map]
    constructor
    · rintro ⟨⟨u, e⟩, hu, he⟩
      obtain ⟨rfl, rfl⟩ := Prod.mk.inj he
      have h := ih.1 hu
      obtain ⟨w, rfl⟩ := h.suffix
      rw [List.length_append, Nat.add_sub_cancel, List.take_left]
      exact .group h
    · intro h
      cases h with
      | @group _ _ w _ _ e h =>
        refine ⟨(t, e), ih.2 h, ?_⟩
        rw [List.length_append, Nat.add_sub_cancel, List.take_left]

/-- What the first way to match captures is one of the ways to match. -/
theorem matches_of_first {r : Pattern α ι} {s : List α} {d : Captures α ι} (h : r.first s = some d) :
    ∃ t, Matches r s (fun _ => none) t d := by
  obtain ⟨⟨t, e⟩, hhead, rfl⟩ := Option.map_eq_some_iff.1 h
  exact ⟨t, mem_run_iff.1 (List.mem_of_head? hhead)⟩

/-- A pattern matches when there is a way to. -/
theorem first_isSome_iff {r : Pattern α ι} {s : List α} :
    (r.first s).isSome ↔ ∃ t d, Matches r s (fun _ => none) t d := by
  rw [Pattern.first, Option.isSome_map, List.isSome_head?]
  constructor
  · intro h
    obtain ⟨⟨t, d⟩, hmem⟩ := List.exists_mem_of_ne_nil _ h
    exact ⟨t, d, mem_run_iff.1 hmem⟩
  · rintro ⟨t, d, h⟩
    exact List.ne_nil_of_mem (mem_run_iff.2 h)

/-- A word matches itself and captures nothing. -/
theorem matches_lit_iff [DecidableEq α] {w s t : List α} {c d : Captures α ι} :
    Matches (.lit w) s c t d ↔ s = w ++ t ∧ d = c := by
  induction w generalizing s with
  | nil =>
    constructor
    · intro h
      cases h
      exact ⟨rfl, rfl⟩
    · rintro ⟨rfl, rfl⟩
      exact .look rfl _
  | cons a w ih =>
    constructor
    · intro h
      cases h with
      | seq h h' =>
        cases h with
        | one ha =>
          obtain ⟨rfl, rfl⟩ := ih.1 h'
          exact ⟨by rw [eq_of_beq ha]; rfl, rfl⟩
    · rintro ⟨rfl, rfl⟩
      exact .seq (.one (p := (· == a)) (beq_self_eq_true a) _ _) (ih.2 ⟨rfl, rfl⟩)

/-- A word matches at its own beginning. -/
theorem first_lit_isSome_iff [DecidableEq α] {w s : List α} : ((Pattern.lit w : Pattern α ι).first s).isSome ↔ w <+: s := by
  rw [first_isSome_iff]
  constructor
  · rintro ⟨t, d, h⟩
    exact ⟨t, (matches_lit_iff.1 h).1.symm⟩
  · rintro ⟨t, rfl⟩
    exact ⟨t, _, matches_lit_iff.2 ⟨rfl, rfl⟩⟩

/-- What a pattern that begins with a word matches begins with the word. -/
theorem prefix_of_first_seq_lit [DecidableEq α] {w s : List α} {r : Pattern α ι}
    (h : ((Pattern.seq (.lit w) r).first s).isSome) : w <+: s := by
  obtain ⟨t, d, hm⟩ := first_isSome_iff.1 h
  cases hm with
  | @seq _ _ _ u _ _ _ _ hw hr => exact ⟨u, (matches_lit_iff.1 hw).1.symm⟩

/-- The groups of a pattern. -/
def Pattern.groups : Pattern α ι → List ι
  | .one _ => []
  | .many _ => []
  | .look _ => []
  | .seq r s => r.groups ++ s.groups
  | .alt r s => r.groups ++ s.groups
  | .group n r => n :: r.groups

/-- A match leaves what the groups of other patterns captured. -/
theorem Matches.other {r : Pattern α ι} {s t : List α} {c d : Captures α ι} (h : Matches r s c t d) {n : ι}
    (hn : n ∉ r.groups) : d n = c n := by
  induction h with
  | one h s c => rfl
  | many h s c => rfl
  | look h c => rfl
  | seq h h' ih ih' =>
    rw [Pattern.groups, List.mem_append, not_or] at hn
    rw [ih' hn.2, ih hn.1]
  | altLeft h ih => exact ih fun hr => hn (List.mem_append_left _ hr)
  | altRight h ih => exact ih fun hr => hn (List.mem_append_right _ hr)
  | group h ih =>
    rw [Pattern.groups, List.mem_cons, not_or] at hn
    rw [Function.update_of_ne hn.1]
    exact ih hn.2

end Run

end Regex
