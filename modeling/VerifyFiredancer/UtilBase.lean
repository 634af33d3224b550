import VerifyFiredancer.Lib.Guarded
import Mathlib.Logic.Function.Basic

/-!
# UtilBase: blocks that threads go through

`FD_ONCE`, `FD_TURNSTILE` and `FD_ATOMIC_XCHG` of `fd_util_base.h`, for any threads in any places of them. A step is one access of
the shared word by one thread, or a step of the code in the block. What a thread does before the block and after it does not write
the memory the block is there for.

The accesses happen one after the other, as the source takes it from the platform; its compiler fences do nothing here.
-/

namespace VerifyFiredancer

/-- `FD_ATOMIC_CAS`: what it returns, and the word after it. -/
def fdAtomicCas {α : Type} [DecidableEq α] (p c s : α) : α × α := (p, if p = c then s else p)

section Blocks

variable {τ κ σ : Type} [DecidableEq τ]

/-! ## Once -/

/-- Where a thread is: not in the once block; about to read the state; it has read 0 and tries to take the block; in the block. -/
inductive OncePc (κ : Type) where
  | outside
  | look
  | cas
  | block (k : κ)

/-- A once block and its threads: `_fd_once_block_state`, the memory the block writes, how often a thread has got past the block,
and who has entered it. -/
structure OnceSys (τ κ σ : Type) where
  state : Int
  mem : σ
  pc : τ → OncePc κ
  past : τ → Nat
  entered : List τ

/-- A thread goes to another place. -/
def OnceSys.goto (s : OnceSys τ κ σ) (t : τ) (pc : OncePc κ) : OnceSys τ κ σ := { s with pc := Function.update s.pc t pc }

/-- A thread gets past the block. -/
def OnceSys.leave (s : OnceSys τ κ σ) (t : τ) : OnceSys τ κ σ :=
  { s.goto t .outside with past := Function.update s.past t (s.past t + 1) }

/-- The steps of a thread that `FD_ONCE_BEGIN` and `FD_ONCE_END` let through, with `code t` between them. -/
inductive OnceStep (next : κ → σ → Option (κ × σ)) (code : τ → κ) (t : τ) : OnceSys τ κ σ → OnceSys τ κ σ → Prop
  | arrive (s : OnceSys τ κ σ) (hpc : s.pc t = .outside) : OnceStep next code t s (s.goto t .look)
  | skip (s : OnceSys τ κ σ) (hpc : s.pc t = .look) (htmp : 0 < s.state) : OnceStep next code t s (s.leave t)
  | zero (s : OnceSys τ κ σ) (hpc : s.pc t = .look) (htmp : s.state = 0) : OnceStep next code t s (s.goto t .cas)
  | yield (s : OnceSys τ κ σ) (hpc : s.pc t = .look) (htmp : s.state < 0) : OnceStep next code t s s
  | won (s : OnceSys τ κ σ) (hpc : s.pc t = .cas) (hcas : (fdAtomicCas s.state 0 (-1)).1 = 0) :
      OnceStep next code t s { s.goto t (.block (code t)) with
        state := (fdAtomicCas s.state 0 (-1)).2, entered := s.entered ++ [t] }
  | lost (s : OnceSys τ κ σ) (hpc : s.pc t = .cas) (hcas : (fdAtomicCas s.state 0 (-1)).1 ≠ 0) :
      OnceStep next code t s { s.goto t .look with state := (fdAtomicCas s.state 0 (-1)).2 }
  | act (s : OnceSys τ κ σ) (k k' : κ) (m : σ) (hpc : s.pc t = .block k) (hgo : next k s.mem = some (k', m)) :
      OnceStep next code t s { s.goto t (.block k') with mem := m }
  | finish (s : OnceSys τ κ σ) (k : κ) (hpc : s.pc t = .block k) (hend : next k s.mem = none) :
      OnceStep next code t s { s.leave t with state := 1 }

/-- A run of the threads. -/
abbrev OnceRun (next : κ → σ → Option (κ × σ)) (code : τ → κ) : OnceSys τ κ σ → OnceSys τ κ σ → Prop :=
  Relation.ReflTransGen fun s s' => ∃ t, OnceStep next code t s s'

/-- Where a run starts: no thread has come to the block. -/
def OnceSys.start (m : σ) : OnceSys τ κ σ := ⟨0, m, fun _ => .outside, fun _ => 0, []⟩

/-! ## Turnstile -/

/-- Where a thread is, with the `blocking` it came with: not at the turnstile; about to read the state; it has read 0 and tries to
take the turnstile; in it; in the block for when there was another thread in it. -/
inductive TurnstilePc (κ : Type) where
  | outside
  | look (blocking : Bool) (code : κ)
  | cas (blocking : Bool) (code : κ)
  | inside (blocking : Bool) (code k : κ)
  | blocked (blocking : Bool) (code : κ)

/-- How a thread left a turnstile: it went through; it did not; it returned from the block for that. -/
inductive TurnstileExit where
  | through
  | blocked
  | returned
  deriving DecidableEq, Repr

/-- A turnstile and its threads: `_fd_turnstile_state`, the memory that is written in the turnstile, and of each thread the calls
it has made. -/
structure TurnstileSys (τ κ σ : Type) where
  state : Int
  mem : σ
  pc : τ → TurnstilePc κ
  calls : τ → List (Bool × κ × TurnstileExit)

/-- A thread goes to another place. -/
def TurnstileSys.goto (s : TurnstileSys τ κ σ) (t : τ) (pc : TurnstilePc κ) : TurnstileSys τ κ σ :=
  { s with pc := Function.update s.pc t pc }

/-- A thread leaves. -/
def TurnstileSys.leave (s : TurnstileSys τ κ σ) (t : τ) (call : Bool × κ × TurnstileExit) : TurnstileSys τ κ σ :=
  { s.goto t .outside with calls := Function.update s.calls t (s.calls t ++ [call]) }

/-- The steps of a thread that `FD_TURNSTILE_BEGIN`, `FD_TURNSTILE_BLOCKED` and `FD_TURNSTILE_END` let through, each time with any
code between the first two. -/
inductive TurnstileStep (next : κ → σ → Option (κ × σ)) (t : τ) : TurnstileSys τ κ σ → TurnstileSys τ κ σ → Prop
  | arrive (s : TurnstileSys τ κ σ) (blocking : Bool) (code : κ) (hpc : s.pc t = .outside) :
      TurnstileStep next t s (s.goto t (.look blocking code))
  | zero (s : TurnstileSys τ κ σ) (blocking : Bool) (code : κ) (hpc : s.pc t = .look blocking code) (htmp : s.state = 0) :
      TurnstileStep next t s (s.goto t (.cas blocking code))
  | busy (s : TurnstileSys τ κ σ) (blocking : Bool) (code : κ) (hpc : s.pc t = .look blocking code) (htmp : s.state ≠ 0) :
      TurnstileStep next t s (s.goto t (.blocked blocking code))
  | won (s : TurnstileSys τ κ σ) (blocking : Bool) (code : κ) (hpc : s.pc t = .cas blocking code)
      (hcas : (fdAtomicCas s.state 0 1).1 = 0) :
      TurnstileStep next t s { s.goto t (.inside blocking code code) with state := (fdAtomicCas s.state 0 1).2 }
  | lost (s : TurnstileSys τ κ σ) (blocking : Bool) (code : κ) (hpc : s.pc t = .cas blocking code)
      (hcas : (fdAtomicCas s.state 0 1).1 ≠ 0) :
      TurnstileStep next t s { s.goto t (.blocked blocking code) with state := (fdAtomicCas s.state 0 1).2 }
  | act (s : TurnstileSys τ κ σ) (blocking : Bool) (code k k' : κ) (m : σ) (hpc : s.pc t = .inside blocking code k)
      (hgo : next k s.mem = some (k', m)) : TurnstileStep next t s { s.goto t (.inside blocking code k') with mem := m }
  | finish (s : TurnstileSys τ κ σ) (blocking : Bool) (code k : κ) (hpc : s.pc t = .inside blocking code k)
      (hend : next k s.mem = none) : TurnstileStep next t s { s.leave t (blocking, code, .through) with state := 0 }
  | retry (s : TurnstileSys τ κ σ) (blocking : Bool) (code : κ) (hpc : s.pc t = .blocked blocking code)
      (hb : blocking = true) : TurnstileStep next t s (s.goto t (.look blocking code))
  | giveUp (s : TurnstileSys τ κ σ) (blocking : Bool) (code : κ) (hpc : s.pc t = .blocked blocking code)
      (hb : blocking = false) : TurnstileStep next t s (s.leave t (blocking, code, .blocked))
  | returned (s : TurnstileSys τ κ σ) (blocking : Bool) (code : κ) (hpc : s.pc t = .blocked blocking code) :
      TurnstileStep next t s (s.leave t (blocking, code, .returned))

/-- A run of the threads. -/
abbrev TurnstileRun (next : κ → σ → Option (κ × σ)) : TurnstileSys τ κ σ → TurnstileSys τ κ σ → Prop :=
  Relation.ReflTransGen fun s s' => ∃ t, TurnstileStep next t s s'

/-- Where a run starts: no thread has come to the turnstile. -/
def TurnstileSys.start (m : σ) : TurnstileSys τ κ σ := ⟨0, m, fun _ => .outside, fun _ => []⟩

end Blocks

/-! ## Atomic exchange -/

section Xchg

variable {τ α : Type} [DecidableEq τ] [DecidableEq α]

/-- Where a thread is in the loop of `FD_ATOMIC_XCHG`: not in it; about to read the word; about to swap `v` in for the `t` it has
read. -/
inductive XchgPc (α : Type) where
  | outside
  | load (v : α)
  | cas (v t : α)

/-- What happens to the word: an exchange of it for `v` returned `old`; something else wrote it. -/
inductive XchgEvent (τ α : Type) where
  | xchg (t : τ) (v old : α)
  | other (f : α → α)

/-- A word, the threads that exchange it, and what has happened to it. -/
structure XchgSys (τ α : Type) where
  word : α
  pc : τ → XchgPc α
  log : List (XchgEvent τ α)

/-- A thread goes to another place. -/
def XchgSys.goto (s : XchgSys τ α) (t : τ) (pc : XchgPc α) : XchgSys τ α := { s with pc := Function.update s.pc t pc }

/-- The steps of a thread in `FD_ATOMIC_XCHG`, of the style that loops over a compare and swap, and anything else a thread may do
to the word at once. -/
inductive XchgStep (t : τ) : XchgSys τ α → XchgSys τ α → Prop
  | call (s : XchgSys τ α) (v : α) (hpc : s.pc t = .outside) : XchgStep t s (s.goto t (.load v))
  | load (s : XchgSys τ α) (v : α) (hpc : s.pc t = .load v) : XchgStep t s (s.goto t (.cas v s.word))
  | swap (s : XchgSys τ α) (v old : α) (hpc : s.pc t = .cas v old) (hcas : (fdAtomicCas s.word old v).1 = old) :
      XchgStep t s { s.goto t .outside with word := (fdAtomicCas s.word old v).2, log := s.log ++ [.xchg t v old] }
  | pause (s : XchgSys τ α) (v old : α) (hpc : s.pc t = .cas v old) (hcas : (fdAtomicCas s.word old v).1 ≠ old) :
      XchgStep t s { s.goto t (.load v) with word := (fdAtomicCas s.word old v).2 }
  | other (s : XchgSys τ α) (f : α → α) (hpc : s.pc t = .outside) :
      XchgStep t s { s with word := f s.word, log := s.log ++ [.other f] }

/-- A run of the threads. -/
abbrev XchgRun : XchgSys τ α → XchgSys τ α → Prop := Relation.ReflTransGen fun s s' => ∃ t, XchgStep t s s'

/-- Where a run starts: no thread is in an exchange. -/
def XchgSys.start (word : α) : XchgSys τ α := ⟨word, fun _ => .outside, []⟩

end Xchg

end VerifyFiredancer
