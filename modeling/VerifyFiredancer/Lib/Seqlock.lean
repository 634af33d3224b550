import Mathlib.Logic.Function.Basic

/-!
# A stamped cell that is read twice

A writer puts one version after another into a cell of several fields: it stamps the cell as being written, stores the fields
one at a time in any order, and stamps it as written. A reader may look at any time. It notes the stamp, reads the fields one at
a time, and looks at the stamp again: if that is still the stamp of a written version, what it read is that version, whatever
the writer did in between (`Watched.here`). The argument is that phases only go up (`Write.rank_le`), so a phase that is met
again was never left.
-/

namespace Seqlock

/-- Where the writer of a cell is: nothing written yet, a version being written, a version written. -/
inductive Phase
  | blank
  | writing (v : Nat)
  | written (v : Nat)

/-- The version a phase is about. -/
def Phase.version : Phase → Option Nat
  | .blank => none
  | .writing v => some v
  | .written v => some v

/-- The order in which a writer goes through the phases. -/
def Phase.rank : Phase → Nat
  | .blank => 0
  | .writing v => 2 * v + 1
  | .written v => 2 * v + 2

/-- A phase about a version before `v` comes before the writing of `v`. -/
theorem Phase.rank_lt_writing {p : Phase} {v : Nat} (h : ∀ u, p.version = some u → u < v) :
    p.rank < (Phase.writing v).rank := by
  cases p with
  | blank => exact Nat.succ_pos _
  | writing u =>
    have := h u rfl
    simp only [Phase.rank]
    omega
  | written u =>
    have := h u rfl
    simp only [Phase.rank]
    omega

variable {F V : Type*}

/-- A cell: its phase, the fields yet to be stored, and the fields. -/
structure Cell (F V : Type*) where
  phase : Phase
  todo : List F
  body : F → V

/-- What a cell holds: a written version is all there, and of one being written what is not left to store. -/
structure Inv (fields : List F) (content : Nat → F → V) (c : Cell F V) : Prop where
  writing : ∀ v, c.phase = .writing v → ∀ f ∈ fields, f ∉ c.todo → c.body f = content v f
  written : ∀ v, c.phase = .written v → ∀ f ∈ fields, c.body f = content v f

section Write

variable [DecidableEq F]

/-- The steps of a writer. It goes on to any later version. -/
inductive Write (fields : List F) (content : Nat → F → V) : Cell F V → Cell F V → Prop
  | start (c : Cell F V) (v : Nat) (h : c.phase.rank < (Phase.writing v).rank) :
      Write fields content c { c with phase := .writing v, todo := fields }
  | store (c : Cell F V) (v : Nat) (f : F) (hp : c.phase = .writing v) :
      Write fields content c { c with todo := c.todo.erase f, body := Function.update c.body f (content v f) }
  | finish (c : Cell F V) (v : Nat) (hp : c.phase = .writing v) (ht : c.todo = []) :
      Write fields content c { c with phase := .written v }

variable {fields : List F} {content : Nat → F → V} {c d : Cell F V}

/-- The writer keeps to what a cell holds. -/
theorem Inv.write (h : Inv fields content c) (hw : Write fields content c d) : Inv fields content d := by
  cases hw with
  | start v hr =>
    refine ⟨?_, nofun⟩
    intro u hu f hf hnot
    exact absurd hf hnot
  | store v f hp =>
    refine ⟨?_, ?_⟩
    · intro u hu g hg hnot
      obtain rfl : v = u := Phase.writing.inj (hp.symm.trans hu)
      by_cases hgf : g = f
      · subst hgf
        exact Function.update_self ..
      · refine (Function.update_of_ne hgf _ _).trans (h.writing v hp g hg fun hmem => hnot ?_)
        exact (List.mem_erase_of_ne hgf).2 hmem
    · intro u hu
      cases hp.symm.trans hu
  | finish v hp ht =>
    refine ⟨nofun, ?_⟩
    intro u hu f hf
    obtain rfl : v = u := Phase.written.inj hu
    exact h.writing v hp f hf (by rw [ht]; exact List.not_mem_nil)

/-- Phases only go up. -/
theorem Write.rank_le (hw : Write fields content c d) : c.phase.rank ≤ d.phase.rank := by
  cases hw with
  | start v hr => exact Nat.le_of_lt hr
  | store v f hp => exact Nat.le_refl _
  | finish v hp ht =>
    rw [hp]
    exact Nat.le_succ _

end Write

/-- No two phases are of one rank. -/
theorem Phase.rank_injective : Function.Injective Phase.rank := by
  intro p q h
  cases p <;> cases q <;> simp only [Phase.rank] at h <;> first | rfl | omega | (congr 1; omega)

/-- A reader that saw the cell in phase `p` knows `Q` as long as it still is. -/
structure Watched (p : Phase) (Q : Prop) (c : Cell F V) : Prop where
  rank_le : p.rank ≤ c.phase.rank
  here : c.phase = p → Q

/-- A first look at a cell. -/
theorem Watched.start (c : Cell F V) {Q : Prop} (hQ : Q) : Watched c.phase Q c :=
  ⟨Nat.le_refl _, fun _ => hQ⟩

variable {p : Phase} {Q R : Prop} {c d : Cell F V}

/-- What a further look at the cell gives. -/
theorem Watched.look (h : Watched p Q c) (hR : c.phase = p → Q → R) : Watched p R c :=
  ⟨h.rank_le, fun hp => hR hp (h.here hp)⟩

/-- A phase that was left does not come back, so the writer takes nothing away from a reader. -/
theorem Watched.write [DecidableEq F] {fields : List F} {content : Nat → F → V} (h : Watched p Q c)
    (hw : Write fields content c d) : Watched p Q d := by
  refine ⟨Nat.le_trans h.rank_le hw.rank_le, fun hp => h.here (Phase.rank_injective ?_)⟩
  have hle := hw.rank_le
  rw [hp] at hle
  exact Nat.le_antisymm hle h.rank_le

end Seqlock
