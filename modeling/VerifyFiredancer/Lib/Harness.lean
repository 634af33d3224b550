import Mathlib.Logic.Basic

/-!
# Code for a model checker: assumptions, assertions and choices

A stub for a model checker draws values, assumes and asserts. The run for one choice of the values is cut when an assumption does
not hold, fails when an assertion does not, and otherwise is done with a result (`Outcome`). What the stub stands for is all of
its runs: the results some choice gives (`Possible`), and that no choice fails (`Safe`). The rules peel a run from the front.
-/

namespace Harness

/-- How a run ends. -/
inductive Outcome (α : Type) where
  | pruned
  | failed
  | done (a : α)
  deriving DecidableEq

variable {α β : Type}

/-- A run that goes on when it is done. -/
def Outcome.bind : Outcome α → (α → Outcome β) → Outcome β
  | .pruned, _ => .pruned
  | .failed, _ => .failed
  | .done a, f => f a

instance : Monad Outcome where
  pure := .done
  bind := Outcome.bind

/-- `assume`: a run in which `p` does not hold is no run. -/
def assume (p : Prop) [Decidable p] : Outcome Unit := if p then .done () else .pruned

/-- `sassert`: a run in which `p` does not hold fails. -/
def sassert (p : Prop) [Decidable p] : Outcome Unit := if p then .done () else .failed

/-- Some choice gives the result. -/
def Possible {ι : Type} (f : ι → Outcome α) (a : α) : Prop := ∃ i, f i = .done a

/-- No choice fails. -/
def Safe {ι : Type} (f : ι → Outcome α) : Prop := ∀ i, f i ≠ .failed

/-! ## Rules for results -/

@[simp] theorem pure_eq_done {a b : α} : (pure a : Outcome α) = .done b ↔ a = b := by
  show Outcome.done a = .done b ↔ a = b
  rw [Outcome.done.injEq]

theorem bind_eq_done {x : Outcome α} {f : α → Outcome β} {b : β} :
    (x >>= f) = .done b ↔ ∃ a, x = .done a ∧ f a = .done b := by
  cases x with
  | pruned => exact ⟨nofun, nofun⟩
  | failed => exact ⟨nofun, nofun⟩
  | done a => exact ⟨fun h => ⟨a, rfl, h⟩, fun ⟨a', h, h'⟩ => Outcome.done.inj h ▸ h'⟩

/-- A run is done past an assumption when that holds and the rest is done. -/
@[simp] theorem assume_bind_eq_done {p : Prop} [Decidable p] {f : Unit → Outcome α} {a : α} :
    (assume p >>= f) = .done a ↔ p ∧ f () = .done a := by
  by_cases h : p
  · have hp : assume p = .done () := if_pos h
    rw [hp]
    exact (and_iff_right h).symm
  · have hp : assume p = .pruned := if_neg h
    rw [hp]
    exact ⟨nofun, fun e => absurd e.1 h⟩

/-- So it is past an assertion. -/
@[simp] theorem sassert_bind_eq_done {p : Prop} [Decidable p] {f : Unit → Outcome α} {a : α} :
    (sassert p >>= f) = .done a ↔ p ∧ f () = .done a := by
  by_cases h : p
  · have hp : sassert p = .done () := if_pos h
    rw [hp]
    exact (and_iff_right h).symm
  · have hp : sassert p = .failed := if_neg h
    rw [hp]
    exact ⟨nofun, fun e => absurd e.1 h⟩

/-! ## Rules for failures -/

@[simp] theorem pure_ne_failed {a : α} : (pure a : Outcome α) ≠ .failed := nofun

theorem bind_ne_failed {x : Outcome α} {f : α → Outcome β} (hx : x ≠ .failed) (hf : ∀ a, x = .done a → f a ≠ .failed) :
    (x >>= f) ≠ .failed := by
  cases x with
  | pruned => exact nofun
  | failed => exact absurd rfl hx
  | done a => exact hf a rfl

/-- An assumption does not fail, and what follows it may rely on it. -/
theorem assume_bind_ne_failed {p : Prop} [Decidable p] {f : Unit → Outcome α} (h : p → f () ≠ .failed) :
    (assume p >>= f) ≠ .failed := by
  by_cases hp : p
  · have hdone : assume p = .done () := if_pos hp
    rw [hdone]
    exact h hp
  · have hcut : assume p = .pruned := if_neg hp
    rw [hcut]
    exact nofun

/-- An assertion that holds does not fail. -/
theorem sassert_bind_ne_failed {p : Prop} [Decidable p] {f : Unit → Outcome α} (hp : p) (h : f () ≠ .failed) :
    (sassert p >>= f) ≠ .failed := by
  have hdone : sassert p = .done () := if_pos hp
  rw [hdone]
  exact h

/-- A run fails in its first part or, when that is done, in the rest. -/
theorem bind_eq_failed {x : Outcome α} {f : α → Outcome β} :
    (x >>= f) = .failed ↔ x = .failed ∨ ∃ a, x = .done a ∧ f a = .failed := by
  cases x with
  | pruned => exact ⟨nofun, fun h => h.elim nofun fun ⟨_, h, _⟩ => nomatch h⟩
  | failed => exact ⟨fun _ => .inl rfl, fun _ => rfl⟩
  | done a => exact ⟨fun h => .inr ⟨a, rfl, h⟩, fun h => h.elim nofun fun ⟨a', h, h'⟩ => Outcome.done.inj h ▸ h'⟩

/-- So it is past an assertion. -/
theorem sassert_bind_eq_failed {p : Prop} [Decidable p] {f : Unit → Outcome α} :
    (sassert p >>= f) = .failed ↔ ¬p ∨ f () = .failed := by
  by_cases h : p
  · have hp : sassert p = .done () := if_pos h
    rw [hp]
    exact ⟨.inr, fun e => e.resolve_left (not_not_intro h)⟩
  · have hp : sassert p = .failed := if_neg h
    rw [hp]
    exact iff_of_true rfl (.inl h)

/-! ## Rules for postconditions -/

/-- The run does not fail, and a result has the property. -/
structure Outcome.Ensures (x : Outcome α) (Q : α → Prop) : Prop where
  safe : x ≠ .failed
  post : ∀ a, x = .done a → Q a

namespace Outcome.Ensures

theorem pruned {Q : α → Prop} : (Outcome.pruned : Outcome α).Ensures Q where
  safe h := by cases h
  post a h := by cases h

theorem pure {Q : α → Prop} {a : α} (h : Q a) : (Pure.pure a : Outcome α).Ensures Q where
  safe := pure_ne_failed
  post := fun _ hb => pure_eq_done.1 hb ▸ h

theorem bind {P : α → Prop} {Q : β → Prop} {x : Outcome α} {f : α → Outcome β} (hx : x.Ensures P)
    (hf : ∀ a, P a → (f a).Ensures Q) : (x >>= f).Ensures Q where
  safe := bind_ne_failed hx.safe fun a ha => (hf a (hx.post a ha)).safe
  post := by
    intro b hb
    obtain ⟨a, ha, hb⟩ := bind_eq_done.1 hb
    exact (hf a (hx.post a ha)).post b hb

/-- What follows an assumption may rely on it. -/
theorem assume {p : Prop} [Decidable p] {Q : α → Prop} {f : Unit → Outcome α} (h : p → (f ()).Ensures Q) :
    (Harness.assume p >>= f).Ensures Q where
  safe := assume_bind_ne_failed fun hp => (h hp).safe
  post := by
    intro a ha
    obtain ⟨hp, ha⟩ := assume_bind_eq_done.1 ha
    exact (h hp).post a ha

end Outcome.Ensures

/-! ## Rules for draws -/

/-- Some draws give the result and leave those after them. -/
def Reaches {δ : Type} (f : List δ → Outcome (α × List δ)) (a : α) : Prop :=
  ∃ ds, ∀ rest, f (ds ++ rest) = .done (a, rest)

namespace Reaches

variable {δ : Type} {f : List δ → Outcome (α × List δ)} {a : α}

/-- A run that draws nothing. -/
theorem pure (h : ∀ nd, f nd = .done (a, nd)) : Reaches f a := ⟨[], h⟩

/-- The draws of a run come before those of what it goes on with. -/
theorem seq {g : List δ → Outcome (β × List δ)} {f' : List δ → Outcome (β × List δ)} {b : β} (hf : Reaches f a)
    (hg : Reaches g b) (h : ∀ nd nd', f nd = .done (a, nd') → f' nd = g nd') : Reaches f' b := by
  obtain ⟨ds, hf⟩ := hf
  obtain ⟨ds', hg⟩ := hg
  refine ⟨ds ++ ds', fun rest => ?_⟩
  rw [List.append_assoc, h _ _ (hf _)]
  exact hg rest

end Reaches

end Harness
