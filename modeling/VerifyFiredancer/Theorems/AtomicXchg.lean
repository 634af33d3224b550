import VerifyFiredancer.UtilBase
import Mathlib.Data.List.Perm.Basic

/-!
# A compare and swap loop is an exchange

Whatever threads exchange a word by the loop of `FD_ATOMIC_XCHG`, and whatever else is done to the word in between, what is
returned is what exchanges at once would return, in the order in which the loops ended (`xchg_linear`). So no value put into the word
gets lost or is handed out twice (`xchg_conserves`).
-/

namespace VerifyFiredancer

variable {τ α : Type}

/-- What happens to a word, at once each time: what the word is after it, if every exchange returned what the word was. -/
def replayXchg [DecidableEq α] : α → List (XchgEvent τ α) → Option α
  | word, [] => some word
  | word, .xchg _ v old :: log => if word = old then replayXchg v log else none
  | word, .other f :: log => replayXchg (f word) log

/-- The value an exchange put into the word, and the one it returned. -/
def XchgEvent.stored : XchgEvent τ α → Option α
  | .xchg _ v _ => some v
  | .other _ => none
def XchgEvent.returned : XchgEvent τ α → Option α
  | .xchg _ _ old => some old
  | .other _ => none

/-- It is an exchange. -/
def XchgEvent.IsXchg : XchgEvent τ α → Prop
  | .xchg .. => True
  | .other _ => False

namespace AtomicXchgAux

variable [DecidableEq α]

/-- A log and then more. -/
theorem replay_append (log log' : List (XchgEvent τ α)) :
    ∀ word, replayXchg word (log ++ log') = (replayXchg word log).bind fun w => replayXchg w log' := by
  induction log with
  | nil => intro word; rfl
  | cons e log ih =>
    intro word
    cases e with
    | xchg t v old =>
      simp only [List.cons_append, replayXchg]
      split
      · exact ih v
      · rfl
    | other f => exact ih (f word)

/-- A step leaves the word and the log, or does to the word at once what it puts into the log. -/
theorem step_cases [DecidableEq τ] {s s' : XchgSys τ α} {t : τ} (hs : XchgStep t s s') :
    s'.word = s.word ∧ s'.log = s.log ∨ ∃ e, s'.log = s.log ++ [e] ∧ replayXchg s.word [e] = some s'.word := by
  cases hs with
  | call v hpc => exact .inl ⟨rfl, rfl⟩
  | load v hpc => exact .inl ⟨rfl, rfl⟩
  | swap v old hpc hcas =>
    have hword : s.word = old := hcas
    have hnew : (fdAtomicCas s.word old v).2 = v := if_pos hword
    refine .inr ⟨.xchg t v old, rfl, ?_⟩
    rw [replayXchg, if_pos hword, hnew]
    rfl
  | pause v old hpc hcas =>
    have hword : s.word ≠ old := hcas
    exact .inl ⟨if_neg hword, rfl⟩
  | other f hpc => exact .inr ⟨.other f, rfl, rfl⟩

/-- The log of a run is what happened to the word. -/
theorem replay_run [DecidableEq τ] {word0 : α} {s : XchgSys τ α} (hrun : XchgRun (.start word0) s) :
    replayXchg word0 s.log = some s.word := by
  induction hrun with
  | refl => rfl
  | tail _ hs ih =>
    obtain ⟨t, hs⟩ := hs
    rcases step_cases hs with ⟨hword, hlog⟩ | ⟨e, hlog, he⟩
    · rw [hword, hlog]
      exact ih
    · rw [hlog, replay_append, ih]
      exact he

/-- In a log of exchanges, what was put in and what came out, with the word before and after it. -/
theorem perm_of_replay {word' : α} (log : List (XchgEvent τ α)) (hx : ∀ e ∈ log, e.IsXchg) :
    ∀ word, replayXchg word log = some word' →
      (word' :: log.filterMap XchgEvent.returned).Perm (word :: log.filterMap XchgEvent.stored) := by
  induction log with
  | nil =>
    intro word h
    cases h
    exact .refl _
  | cons e log ih =>
    intro word h
    rw [List.forall_mem_cons] at hx
    cases e with
    | other f => exact absurd hx.1 id
    | xchg t v old =>
      rw [replayXchg] at h
      split at h
      · next hword =>
        subst hword
        have hperm := (ih hx.2 v h).cons word
        exact (List.Perm.swap word word' _).trans hperm
      · cases h

end AtomicXchgAux

open AtomicXchgAux

/-- In every state of every run of any threads, the exchanges that have returned, and whatever else was done to the word, are what
happened to it at once, one after the other, in the order in which they ended. -/
theorem xchg_linear [DecidableEq τ] [DecidableEq α] (word0 : α) (s : XchgSys τ α) (hrun : XchgRun (.start word0) s) :
    replayXchg word0 s.log = some s.word :=
  replay_run hrun

/-- Two exchanges of which one has to try again, and a write between. -/
theorem xchg_linear_two :
    ∃ s : XchgSys Bool Nat, XchgRun (.start 1) s ∧ s.log = [.other fun w => w + 1, .xchg true 7 2, .xchg false 5 7] ∧
      replayXchg 1 s.log = some 5 := by
  have h1 : XchgRun (XchgSys.start 1) _ := .single ⟨false, .call _ 5 rfl⟩
  have h2 := h1.tail ⟨false, .load _ 5 rfl⟩
  have h3 := h2.tail ⟨true, .other _ (fun w => w + 1) rfl⟩
  have h4 := h3.tail ⟨true, .call _ 7 rfl⟩
  have h5 := h4.tail ⟨true, .load _ 7 rfl⟩
  have h6 := h5.tail ⟨true, .swap _ 7 2 rfl rfl⟩
  have h7 := h6.tail ⟨false, .pause _ 5 1 rfl (by decide)⟩
  have h8 := h7.tail ⟨false, .load _ 5 rfl⟩
  have hrun := h8.tail ⟨false, .swap _ 5 7 rfl rfl⟩
  exact ⟨_, hrun, rfl, xchg_linear 1 _ hrun⟩

/-- When the word is only exchanged, what is in the word and what was returned is, value for value, what was in the word in the
beginning and what was put in. -/
theorem xchg_conserves [DecidableEq τ] [DecidableEq α] (word0 : α) (s : XchgSys τ α) (hrun : XchgRun (.start word0) s)
    (hx : ∀ e ∈ s.log, e.IsXchg) :
    (s.word :: s.log.filterMap XchgEvent.returned).Perm (word0 :: s.log.filterMap XchgEvent.stored) :=
  perm_of_replay s.log hx word0 (replay_run hrun)

/-- Two exchanges that have read the same value: one hands it out, the other tries again. -/
theorem xchg_conserves_two :
    ∃ s : XchgSys Bool Nat, XchgRun (.start 1) s ∧ s.log = [.xchg true 7 1, .xchg false 5 7] ∧
      (5 :: s.log.filterMap XchgEvent.returned).Perm (1 :: s.log.filterMap XchgEvent.stored) := by
  have h1 : XchgRun (XchgSys.start 1) _ := .single ⟨false, .call _ 5 rfl⟩
  have h2 := h1.tail ⟨false, .load _ 5 rfl⟩
  have h3 := h2.tail ⟨true, .call _ 7 rfl⟩
  have h4 := h3.tail ⟨true, .load _ 7 rfl⟩
  have h5 := h4.tail ⟨true, .swap _ 7 1 rfl rfl⟩
  have h6 := h5.tail ⟨false, .pause _ 5 1 rfl (by decide)⟩
  have h7 := h6.tail ⟨false, .load _ 5 rfl⟩
  have hrun := h7.tail ⟨false, .swap _ 5 7 rfl rfl⟩
  exact ⟨_, hrun, rfl, xchg_conserves 1 _ hrun (by simp [XchgEvent.IsXchg, XchgSys.start, XchgSys.goto])⟩

end VerifyFiredancer
