import Mathlib.Data.Set.Card
import Mathlib.Data.Set.Finite.List

/-!
# Samples from a list of draws

`samples f cs vs` takes draws from the list `vs` for each of `cs` in turn: draws until one is accepted, and keeps what it is
accepted for. It has a result when this takes the whole list. `drawn` is the set of the lists of a length with a given result.

When every `c` of `cs` has as many draws for each result it may have, all results of `cs` have as many lists of draws, of every
length (`ncard_drawn_eq`): the samples are independent and uniform, also given how many draws they took.
-/

namespace Sampling

variable {γ α β : Type*} (f : γ → α → Option β)

/-- What the draws of a list are accepted for, when they are just enough. -/
def samples : List γ → List α → Option (List β)
  | [], [] => some []
  | [], _ :: _ => none
  | _ :: _, [] => none
  | c :: cs, v :: vs =>
    match f c v with
    | some b => (samples cs vs).map (b :: ·)
    | none => samples (c :: cs) vs

/-- The lists of `l` draws with a result. -/
def drawn (cs : List γ) (l : Nat) (bs : List β) : Set (List α) := {vs | vs.length = l ∧ samples f cs vs = some bs}

section Cons

variable {f}
variable {c : γ} {cs : List γ} {v : α} {vs : List α} {b : β} {bs : List β}

/-- A draw that is accepted. -/
theorem samples_accepted (h : f c v = some b) : samples f (c :: cs) (v :: vs) = (samples f cs vs).map (b :: ·) := by
  rw [samples, h]

/-- A draw that is not. -/
theorem samples_rejected (h : f c v = none) : samples f (c :: cs) (v :: vs) = samples f (c :: cs) vs := by
  rw [samples, h]

/-- A result has one entry for each of `cs`, which a draw is accepted for. -/
theorem samples_accept (vs : List α) :
    ∀ {cs : List γ} {bs : List β}, samples f cs vs = some bs → List.Forall₂ (fun c b => ∃ v, f c v = some b) cs bs := by
  induction vs with
  | nil =>
    intro cs bs h
    cases cs with
    | nil => cases h; exact .nil
    | cons c cs => cases h
  | cons v vs ih =>
    intro cs bs h
    cases cs with
    | nil => cases h
    | cons c cs =>
      cases hv : f c v with
      | none =>
        rw [samples_rejected hv] at h
        exact ih h
      | some b =>
        rw [samples_accepted hv, Option.map_eq_some_iff] at h
        obtain ⟨bs', hbs, rfl⟩ := h
        exact .cons ⟨v, hv⟩ (ih hbs)

/-- The lists with a result begin with a draw that is accepted for its first entry, or with one that is not accepted. -/
theorem drawn_succ (l : Nat) : drawn f (c :: cs) (l + 1) (b :: bs) =
    (fun p : α × List α => p.1 :: p.2) '' ({v | f c v = some b} ×ˢ drawn f cs l bs) ∪
      (fun p : α × List α => p.1 :: p.2) '' ({v | f c v = none} ×ˢ drawn f (c :: cs) l (b :: bs)) := by
  ext vs
  constructor
  · rintro ⟨hlen, h⟩
    cases vs with
    | nil => cases hlen
    | cons v vs =>
      cases hv : f c v with
      | none =>
        rw [samples_rejected hv] at h
        exact Or.inr ⟨(v, vs), ⟨hv, Nat.succ.inj hlen, h⟩, rfl⟩
      | some b' =>
        rw [samples_accepted hv, Option.map_eq_some_iff] at h
        obtain ⟨bs', hbs, heq⟩ := h
        cases heq
        exact Or.inl ⟨(v, vs), ⟨hv, Nat.succ.inj hlen, hbs⟩, rfl⟩
  · rintro (⟨⟨v, vs⟩, ⟨hv, hlen, h⟩, rfl⟩ | ⟨⟨v, vs⟩, ⟨hv, hlen, h⟩, rfl⟩)
    · refine ⟨congrArg Nat.succ hlen, ?_⟩
      rw [samples_accepted hv, h]
      rfl
    · refine ⟨congrArg Nat.succ hlen, ?_⟩
      rw [samples_rejected hv, h]

end Cons

/-- The lists of a length are finitely many. -/
theorem finite_drawn [Finite α] (cs : List γ) (l : Nat) (bs : List β) : (drawn f cs l bs).Finite :=
  (List.finite_length_eq α l).subset fun _ h => h.1

/-- How many lists of draws there are with a first draw that is accepted for the first entry, and with one that is not. -/
theorem ncard_drawn_succ [Finite α] (c : γ) (cs : List γ) (l : Nat) (b : β) (bs : List β) :
    (drawn f (c :: cs) (l + 1) (b :: bs)).ncard =
      {v | f c v = some b}.ncard * (drawn f cs l bs).ncard +
        {v | f c v = none}.ncard * (drawn f (c :: cs) l (b :: bs)).ncard := by
  have hinj : Function.Injective fun p : α × List α => p.1 :: p.2 := by
    rintro ⟨v, vs⟩ ⟨w, ws⟩ h
    obtain ⟨hv, hvs⟩ := List.cons.inj h
    exact Prod.ext hv hvs
  have hfin : ∀ (s : Set α) (t : Set (List α)), t.Finite → ((fun p : α × List α => p.1 :: p.2) '' (s ×ˢ t)).Finite :=
    fun s t ht => ((Set.toFinite s).prod ht).image _
  rw [drawn_succ, Set.ncard_union_eq ?_ (hfin _ _ (finite_drawn f cs l bs)) (hfin _ _ (finite_drawn f (c :: cs) l (b :: bs))),
    Set.ncard_image_of_injective _ hinj, Set.ncard_image_of_injective _ hinj, Set.ncard_prod, Set.ncard_prod]
  rw [Set.disjoint_left]
  rintro _ ⟨⟨v, vs⟩, ⟨hv, _⟩, rfl⟩ ⟨⟨w, ws⟩, ⟨hw, _⟩, heq⟩
  cases heq
  have hboth : f c v = some b := hv
  rw [show f c v = none from hw] at hboth
  cases hboth

/-- With as many draws for each result that every `c` may have, all results have as many lists of draws. -/
theorem ncard_drawn_eq [Finite α] {T : γ → Set β} {cs : List γ}
    (hT : ∀ c ∈ cs, ∀ b ∈ T c, ∀ b' ∈ T c, {v | f c v = some b}.ncard = {v | f c v = some b'}.ncard) (l : Nat) :
    ∀ bs bs' : List β, List.Forall₂ (fun c b => b ∈ T c) cs bs → List.Forall₂ (fun c b => b ∈ T c) cs bs' →
      (drawn f cs l bs).ncard = (drawn f cs l bs').ncard := by
  induction l generalizing cs with
  | zero =>
    intro bs bs' h h'
    cases h with
    | nil => cases h'; rfl
    | cons hb hbs =>
      cases h' with
      | cons hb' hbs' =>
        have hempty : ∀ {c : γ} {cs : List γ} {bs : List β}, drawn f (c :: cs) 0 bs = ∅ := by
          intro c cs bs
          ext vs
          constructor
          · rintro ⟨hlen, hs⟩
            rw [List.length_eq_zero_iff.1 hlen] at hs
            cases hs
          · intro hvs
            cases hvs
        rw [hempty, hempty]
  | succ l ih =>
    intro bs bs' h h'
    cases h with
    | nil => cases h'; rfl
    | cons hb hbs =>
      cases h' with
      | cons hb' hbs' =>
        rw [ncard_drawn_succ, ncard_drawn_succ, hT _ (List.mem_cons_self ..) _ hb _ hb',
          ih (fun c hc => hT c (List.mem_cons_of_mem _ hc)) _ _ hbs hbs', ih hT _ _ (.cons hb hbs) (.cons hb' hbs')]

end Sampling
