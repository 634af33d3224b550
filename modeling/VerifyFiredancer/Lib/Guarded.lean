import Mathlib.Logic.Relation

/-!
# A memory that sections of code change one at a time

Threads run code on a memory. `next` is the code: at a place, with the memory as it is, it goes on to a place and a memory, or
ends. A thread may start when no other is inside (`Guarded.Step`). Then the memory is at any time as if the code of the threads
that went through had been run from the first memory on, one after the other, and then the part done of who is inside
(`Guarded.Serial.run`).
-/

namespace Guarded

variable {τ κ σ : Type*} (next : κ → σ → Option (κ × σ))

/-! ## The code -/

/-- Some steps of the code. -/
def Executes : κ × σ → κ × σ → Prop := Relation.ReflTransGen fun x y => next x.1 x.2 = some y

/-- The code ends. -/
inductive Halts : κ → σ → Prop
  | done {k : κ} {m : σ} (h : next k m = none) : Halts k m
  | step {k k' : κ} {m m' : σ} (h : next k m = some (k', m')) (hrest : Halts k' m') : Halts k m

variable {next}

/-- Code that ends does so from each of its places. -/
theorem Halts.of_executes {x y : κ × σ} (h : Executes next x y) (hx : Halts next x.1 x.2) : Halts next y.1 y.2 := by
  induction h with
  | refl => exact hx
  | tail _ hstep ih =>
    cases ih with
    | done hdone =>
      rw [hdone] at hstep
      cases hstep
    | step hgo hrest =>
      rw [hgo] at hstep
      cases hstep
      exact hrest

/-! ## The memory -/

/-- A memory, who is inside with its code and where it is in it, and who went through with which code. -/
structure State (τ κ σ : Type*) where
  mem : σ
  inside : Option (τ × κ × κ)
  log : List (τ × κ)

variable (next)

/-- A thread goes in, does a step of its code, or has come to its end and goes out. -/
inductive Step : State τ κ σ → State τ κ σ → Prop
  | enter (g : State τ κ σ) (t : τ) (code : κ) (h : g.inside = none) : Step g { g with inside := some (t, code, code) }
  | act (g : State τ κ σ) (t : τ) (code k k' : κ) (m : σ) (h : g.inside = some (t, code, k))
      (hgo : next k g.mem = some (k', m)) : Step g { g with mem := m, inside := some (t, code, k') }
  | leave (g : State τ κ σ) (t : τ) (code k : κ) (h : g.inside = some (t, code, k)) (hend : next k g.mem = none) :
      Step g { g with inside := none, log := g.log ++ [(t, code)] }

/-- A run. -/
abbrev Run : State τ κ σ → State τ κ σ → Prop := Relation.ReflTransGen (Step next)

/-- Nobody was inside yet. -/
def start (m : σ) : State τ κ σ := ⟨m, none, []⟩

/-- The memory after the code of one thread after the other. -/
inductive Serial (m0 : σ) : List (τ × κ) → σ → Prop
  | nil : Serial m0 [] m0
  | snoc {log : List (τ × κ)} {m m' : σ} (t : τ) (code k : κ) (h : Serial m0 log m) (hrun : Executes next (code, m) (k, m'))
      (hend : next k m' = none) : Serial m0 (log ++ [(t, code)]) m'

variable {next} in
/-- Nobody has changed the memory when the log is empty. -/
theorem Serial.nil_mem {m0 m : σ} (h : Serial (τ := τ) next m0 [] m) : m = m0 := by
  generalize hlog : ([] : List (τ × κ)) = log at h
  cases h with
  | nil => rfl
  | snoc t code k h hrun hend => exact absurd hlog (List.append_ne_nil_of_right_ne_nil _ (List.cons_ne_nil _ _)).symm

variable {next} in
/-- One thread's code has, when the log has one entry. -/
theorem Serial.one_mem {m0 m : σ} {t : τ} {code : κ} (h : Serial next m0 [(t, code)] m) :
    ∃ k, Executes next (code, m0) (k, m) ∧ next k m = none := by
  generalize hlog : [(t, code)] = log at h
  cases h with
  | nil => cases hlog
  | @snoc log m m' t' code' k h hrun hend =>
    obtain ⟨rfl, hlast⟩ := List.append_inj' (show [] ++ [(t, code)] = log ++ [(t', code')] from hlog) rfl
    cases hlast
    obtain rfl := h.nil_mem
    exact ⟨k, hrun, hend⟩

/-- The memory is serial: that after the log, and from there on what is done of the code of who is inside. -/
def State.Serial (m0 : σ) (g : State τ κ σ) : Prop :=
  ∃ m, Guarded.Serial next m0 g.log m ∧ (g.inside = none → g.mem = m) ∧
    ∀ t code k, g.inside = some (t, code, k) → Executes next (code, m) (k, g.mem)

variable {next}

/-- A step keeps the memory serial. -/
theorem State.Serial.step {m0 : σ} {g g' : State τ κ σ} (h : g.Serial next m0) (hs : Step next g g') : g'.Serial next m0 := by
  obtain ⟨m, hlog, hnone, hsome⟩ := h
  cases hs with
  | enter t code hin =>
    refine ⟨m, hlog, ?_, ?_⟩
    · intro h
      cases h
    · rintro u c k ⟨⟩
      rw [hnone hin]
      exact Relation.ReflTransGen.refl
  | act t code k k' m' hin hgo =>
    refine ⟨m, hlog, ?_, ?_⟩
    · intro h
      cases h
    · rintro u c k'' ⟨⟩
      exact (hsome t code k hin).tail hgo
  | leave t code k hin hend =>
    refine ⟨g.mem, .snoc t code k hlog (hsome t code k hin) hend, fun _ => rfl, ?_⟩
    intro u c k' h
    cases h

/-- A run does. -/
theorem State.Serial.run {m0 : σ} {g : State τ κ σ} (h : Run next (start m0) g) : g.Serial next m0 := by
  induction h with
  | refl =>
    refine ⟨m0, .nil, fun _ => rfl, ?_⟩
    intro t code k h
    cases h
  | tail _ hs ih => exact ih.step hs

end Guarded
