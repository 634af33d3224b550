import Mathlib.Data.List.Basic
import Mathlib.Tactic.Common

/-!
# Heaps of objects

A heap is a list of objects, and an object a list of words. A pointer names an object and the index of a word in it, and may be
NULL; it reaches no other object, and an access outside of its object has no result.
-/

namespace ObjectHeap

/-- A pointer that is not NULL: an object, and an index into it, which may be outside of it. -/
structure Loc where
  obj : Nat
  idx : Int
  deriving DecidableEq, Repr

/-- A pointer, and a heap. -/
abbrev Ptr : Type := Option Loc

abbrev ObjHeap (α : Type) : Type := List (List α)

/-- The pointer `k` words further. -/
def Loc.add (p : Loc) (k : Int) : Loc := ⟨p.obj, p.idx + k⟩

variable {α : Type}

/-- A read. -/
def load (h : ObjHeap α) (p : Ptr) : Option α := do
  let p ← p
  let ws ← h[p.obj]?
  if 0 ≤ p.idx then ws[p.idx.toNat]? else none

/-- A write. -/
def store (h : ObjHeap α) (p : Ptr) (v : α) : Option (ObjHeap α) := do
  let p ← p
  let ws ← h[p.obj]?
  if 0 ≤ p.idx ∧ p.idx.toNat < ws.length then return h.set p.obj (ws.set p.idx.toNat v) else none

/-- A new object. -/
def alloc (h : ObjHeap α) (ws : List α) : ObjHeap α × Loc := (h ++ [ws], ⟨h.length, 0⟩)

variable {h : ObjHeap α} {p : Loc} {ws : List α}

theorem load_of_get (hobj : h[p.obj]? = some ws) (hidx : 0 ≤ p.idx) : load h (some p) = ws[p.idx.toNat]? := by
  simp [load, hobj, hidx]

/-- There is nothing before an object. -/
theorem load_before (h : ObjHeap α) (hidx : p.idx < 0) : load h (some p) = none := by
  unfold load
  cases hobj : h[p.obj]? with
  | none => simp [hobj]
  | some ws => simp [hobj, Int.not_le.2 hidx]

/-- A write in an object replaces the object by one of the same length. -/
theorem store_of_get {v : α} (hobj : h[p.obj]? = some ws) (hidx : 0 ≤ p.idx) (hlt : p.idx.toNat < ws.length) :
    store h (some p) v = some (h.set p.obj (ws.set p.idx.toNat v)) := by
  have hlt' : p.idx < ws.length := by omega
  simp [store, hobj, hidx, hlt']

end ObjectHeap
