import VerifyFiredancer.Pod

/-!
# The two iterators over a pod

The functions by pointer are meant to be those by value. Step by step they are (`PodIterPtrAux.next_agrees`), and so they are over
any run from a pod that is not NULL. `fd_pod_iter_init` by value returns at once for a NULL pod; the one by pointer lacks that
`return`, reads the width of a pod at address zero and leaves a cursor that is not NULL (`podIterPtr_same_iff`).
-/

namespace VerifyFiredancer

open ByteMem

/-- What the iterator by pointer shares with the one by value, from the same pod: the states of every number of steps and whether
it is done there; from a NULL pod it reads nothing and is done at once. -/
structure PodIterSame (m : Mem) (pod : Option Nat) (iter : FdPodIter) : Prop where
  cursor : ∀ n, (fdPodIterPtrSteps m pod iter n).1.cursor = (fdPodIterSteps m pod n).cursor
  stop : ∀ n, (fdPodIterPtrSteps m pod iter n).1.stop = (fdPodIterSteps m pod n).stop
  done : ∀ n, fdPodIterDonePtr (fdPodIterPtrSteps m pod iter n).1 = fdPodIterDone (fdPodIterSteps m pod n)
  readsNothing : pod = none → (fdPodIterInitPtr m pod iter).2 = []
  doneAtOnce : pod = none → fdPodIterDonePtr (fdPodIterInitPtr m pod iter).1 = true

namespace PodIterPtrAux

/-- One step by pointer is one by value. -/
theorem next_agrees (m : Mem) (iter : FdPodIter) : (fdPodIterNextPtr m iter).1 = fdPodIterNext m iter := rfl

/-- Whatever the pod, a start by pointer is a start by value from the address of the pod, which for NULL is zero. -/
theorem init_agrees (m : Mem) (pod : Option Nat) (iter : FdPodIter) :
    (fdPodIterInitPtr m pod iter).1 = fdPodIterInit m (some (pod.getD 0)) := by
  cases pod <;> rfl

/-- So are any number of steps. -/
theorem steps_agree (m : Mem) (pod : Option Nat) (iter : FdPodIter) (n : Nat) :
    (fdPodIterPtrSteps m pod iter n).1 = fdPodIterSteps m (some (pod.getD 0)) n := by
  induction n with
  | zero => exact init_agrees m pod iter
  | succ n ih =>
    rw [fdPodIterSteps, ← ih, ← next_agrees]
    rfl

/-- A start by pointer reads the first byte of the pod, or of the memory. -/
theorem init_reads (m : Mem) (pod : Option Nat) (iter : FdPodIter) : pod.getD 0 ∈ (fdPodIterInitPtr m pod iter).2 :=
  List.mem_append_left _ (List.mem_singleton_self _)

end PodIterPtrAux

open PodIterPtrAux

/-- The iterators are the same exactly from a pod that is not NULL. -/
theorem podIterPtr_same_iff (m : Mem) (pod : Option Nat) (iter : FdPodIter) : PodIterSame m pod iter ↔ pod ≠ none := by
  constructor
  · rintro h rfl
    have hread := init_reads m none iter
    rw [h.readsNothing rfl] at hread
    exact List.not_mem_nil hread
  · intro hpod
    obtain ⟨p, rfl⟩ := Option.ne_none_iff_exists'.1 hpod
    have hsteps := steps_agree m (some p) iter
    constructor
    case cursor => intro n; rw [hsteps]; rfl
    case stop => intro n; rw [hsteps]; rfl
    case done => intro n; rw [hsteps]; rfl
    case readsNothing => exact fun h => absurd h hpod
    case doneAtOnce => exact fun h => absurd h hpod

/-- From a NULL pod, with zeros at address zero, the iterators are not the same: by pointer the cursor is three. -/
theorem podIterPtr_null_not_same : ¬PodIterSame (fun _ => 0) none ⟨0, 0⟩ := by
  intro h
  have hcursor := h.cursor 0
  revert hcursor
  decide

end VerifyFiredancer
