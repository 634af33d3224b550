import Mathlib.Data.List.Pairwise
import Mathlib.Logic.Function.Basic
import Mathlib.Tactic.Common

/-!
# Heaps of blocks

A heap is a memory with the list of its live blocks, no two of which overlap or begin at one address, and none of which begins
at NULL. A block is added where it is fresh, freed by the address it begins at, and filled with bytes.

To a program a heap is what its blocks hold: to each address a block begins at, the items of the block (`Heap.contents`). The
operations change it at one address, whatever else the memory has around the blocks.
-/

namespace BlockHeap

/-- A range of `size` addresses from `base` on. -/
structure Block where
  base : Nat
  size : Nat
  deriving DecidableEq, Repr

/-- Two blocks do not overlap, and do not begin at one address. -/
def Block.Apart (b c : Block) : Prop := b.base ≠ c.base ∧ (b.base + b.size ≤ c.base ∨ c.base + c.size ≤ b.base)

/-- A range is part of a block; one of nothing is part of any. -/
def Block.Within (w b : Block) : Prop := w.size = 0 ∨ (b.base ≤ w.base ∧ w.base + w.size ≤ b.base + b.size)

/-- The address is in the block. -/
def Block.Has (b : Block) (a : Nat) : Prop := b.base ≤ a ∧ a < b.base + b.size

instance (w b : Block) : Decidable (w.Within b) := inferInstanceAs (Decidable (_ ∨ _))

instance (b : Block) (a : Nat) : Decidable (b.Has a) := inferInstanceAs (Decidable (_ ∧ _))

/-- A memory with its live blocks. The address 0 is NULL. -/
structure Heap (β : Type*) where
  mem : Nat → β
  live : List Block
  apart : live.Pairwise Block.Apart
  nonNull : ∀ b ∈ live, b.base ≠ 0

variable {β : Type*}

/-- The block can be added: it is within the `limit` of the addresses and apart from the live ones. -/
structure Heap.Fresh (h : Heap β) (limit : Nat) (b : Block) : Prop where
  nonNull : b.base ≠ 0
  fits : b.base + b.size ≤ limit
  apart : ∀ c ∈ h.live, b.Apart c

/-- The heap with a fresh block. -/
def Heap.add {limit : Nat} (h : Heap β) (b : Block) (hb : h.Fresh limit b) : Heap β where
  mem := h.mem
  live := b :: h.live
  apart := List.pairwise_cons.2 ⟨hb.apart, h.apart⟩
  nonNull := List.forall_mem_cons.2 ⟨hb.nonNull, h.nonNull⟩

/-- The heap without the block that begins at `p`. -/
def Heap.free (h : Heap β) (p : Nat) : Heap β where
  mem := h.mem
  live := h.live.filter (·.base ≠ p)
  apart := h.apart.filter _
  nonNull := fun b hb => h.nonNull b (List.mem_filter.1 hb).1

/-- The heap after writing `bytes` to the addresses of a range, live or not. -/
def Heap.fill (h : Heap β) (w : Block) (bytes : Nat → β) : Heap β :=
  { h with mem := fun a => if w.Has a then bytes a else h.mem a }

variable {h : Heap β} {b : Block}

theorem Heap.mem_free {p : Nat} : b ∈ (h.free p).live ↔ b ∈ h.live ∧ b.base ≠ p := by
  simp [Heap.free]

/-- A fill leaves the memory outside of its range. -/
theorem Heap.fill_frame {w : Block} (bytes : Nat → β) {a : Nat} (ha : ¬w.Has a) : (h.fill w bytes).mem a = h.mem a :=
  if_neg ha

/-- A range of nothing has no address. -/
theorem Block.not_has_empty (p a : Nat) : ¬(⟨p, 0⟩ : Block).Has a := fun ⟨h1, h2⟩ => Nat.not_lt.2 h1 h2

/-- To fill a range of nothing changes nothing. -/
theorem Heap.fill_empty (h : Heap β) (p : Nat) (bytes : Nat → β) : h.fill ⟨p, 0⟩ bytes = h := by
  have hmem : (fun a => if (⟨p, 0⟩ : Block).Has a then bytes a else h.mem a) = h.mem :=
    funext fun a => if_neg (Block.not_has_empty p a)
  rw [fill, hmem]

/-- A range that is not empty and begins where a block does is part of no block apart from that one. -/
theorem Block.Apart.not_within {w c : Block} (h : b.Apart c) (hbase : w.base = b.base) (hsize : w.size ≠ 0) :
    ¬w.Within c := by
  obtain ⟨hne, hapart⟩ := h
  rintro (hzero | ⟨h1, h2⟩)
  · exact hsize hzero
  · omega

/-- What is part of a block has addresses of the block only. -/
theorem Block.Within.has {w : Block} (hw : w.Within b) {a : Nat} (ha : w.Has a) : b.Has a := by
  obtain ⟨h1, h2⟩ := ha
  rcases hw with hzero | ⟨h3, h4⟩
  · omega
  · exact ⟨by omega, by omega⟩

/-! ## What the blocks hold -/

/-- The items of a block. -/
def Heap.read (h : Heap β) (b : Block) : List β := (List.range b.size).map fun i => h.mem (b.base + i)

/-- The live block that begins at an address. -/
def Heap.blockAt (h : Heap β) (p : Nat) : Option Block := h.live.find? (·.base = p)

/-- What the live block at an address holds. -/
def Heap.contents (h : Heap β) (p : Nat) : Option (List β) := (h.blockAt p).map h.read

@[simp] theorem Heap.length_read (h : Heap β) (b : Block) : (h.read b).length = b.size := by
  rw [read, List.length_map, List.length_range]

theorem Heap.getElem?_read (h : Heap β) {b : Block} {i : Nat} (hi : i < b.size) : (h.read b)[i]? = some (h.mem (b.base + i)) := by
  rw [read, List.getElem?_map, List.getElem?_range hi, Option.map_some]

/-- Two live blocks are apart. -/
theorem Heap.apart_of_ne {c : Block} (hb : b ∈ h.live) (hc : c ∈ h.live) (hne : b ≠ c) : b.Apart c := by
  have hsymm : Std.Symm Block.Apart := ⟨fun _ _ hxy => ⟨hxy.1.symm, hxy.2.symm⟩⟩
  exact h.apart.forall hb hc hne

/-- No two live blocks begin at one address. -/
theorem Heap.base_inj {c : Block} (hb : b ∈ h.live) (hc : c ∈ h.live) (heq : b.base = c.base) : b = c := by
  by_contra hne
  exact (apart_of_ne hb hc hne).1 heq

theorem Heap.blockAt_eq_some_iff {p : Nat} : h.blockAt p = some b ↔ b ∈ h.live ∧ b.base = p := by
  constructor
  · intro hfind
    exact ⟨List.mem_of_find?_eq_some hfind, by simpa using List.find?_some hfind⟩
  · rintro ⟨hb, hbase⟩
    have hsome : (h.live.find? (·.base = p)).isSome := List.find?_isSome.2 ⟨b, hb, by simpa using hbase⟩
    obtain ⟨c, hc⟩ := Option.isSome_iff_exists.1 hsome
    have hcbase : c.base = p := by simpa using List.find?_some hc
    rw [blockAt, hc, base_inj (List.mem_of_find?_eq_some hc) hb (hcbase.trans hbase.symm)]

theorem Heap.contents_of_live (hb : b ∈ h.live) : h.contents b.base = some (h.read b) := by
  rw [contents, blockAt_eq_some_iff.2 ⟨hb, rfl⟩, Option.map_some]

theorem Heap.contents_eq_none {p : Nat} (hp : ∀ b ∈ h.live, b.base ≠ p) : h.contents p = none := by
  rw [contents, Option.map_eq_none_iff, blockAt, List.find?_eq_none]
  intro b hb
  simpa using hp b hb

theorem Heap.exists_of_contents {p : Nat} {bytes : List β} (hp : h.contents p = some bytes) :
    ∃ b ∈ h.live, b.base = p ∧ bytes = h.read b := by
  obtain ⟨b, hb, hread⟩ := Option.map_eq_some_iff.1 hp
  obtain ⟨hlive, hbase⟩ := blockAt_eq_some_iff.1 hb
  exact ⟨b, hlive, hbase, hread.symm⟩

/-- Heaps hold the same at an address when the live blocks there and what they hold are the same. -/
theorem Heap.contents_congr {h' : Heap β} {p : Nat} (hlive : ∀ b, b.base = p → (b ∈ h.live ↔ b ∈ h'.live))
    (hread : ∀ b ∈ h.live, b.base = p → h.read b = h'.read b) : h.contents p = h'.contents p := by
  by_cases hsome : ∃ b ∈ h.live, b.base = p
  · obtain ⟨b, hb, rfl⟩ := hsome
    rw [contents_of_live hb, contents_of_live ((hlive b rfl).1 hb), hread b hb rfl]
  · push Not at hsome
    rw [contents_eq_none hsome, contents_eq_none fun b hb hbase => hsome b ((hlive b hbase).2 hb) hbase]

/-- Nothing is held at NULL. -/
theorem Heap.contents_null (h : Heap β) : h.contents 0 = none := contents_eq_none h.nonNull

theorem Heap.contents_add {limit : Nat} (hb : h.Fresh limit b) :
    (h.add b hb).contents = Function.update h.contents b.base (some (h.read b)) := by
  funext p
  by_cases hp : p = b.base
  · subst hp
    rw [Function.update_self]
    exact contents_of_live List.mem_cons_self
  · rw [Function.update_of_ne hp]
    refine contents_congr (fun c hc => ?_) fun c _ _ => rfl
    have hne : c ≠ b := fun hcb => hp (hc.symm.trans (congrArg Block.base hcb))
    simp [Heap.add, hne]

/-- A fresh block begins where nothing is held. -/
theorem Heap.Fresh.contents {limit : Nat} (hb : h.Fresh limit b) : h.contents b.base = none :=
  contents_eq_none fun c hc hbase => (hb.apart c hc).1 hbase.symm

theorem Heap.contents_free (h : Heap β) (p : Nat) : (h.free p).contents = Function.update h.contents p none := by
  funext q
  by_cases hq : q = p
  · subst hq
    rw [Function.update_self]
    exact contents_eq_none fun b hb => (mem_free.1 hb).2
  · rw [Function.update_of_ne hq]
    refine contents_congr (fun c hc => ?_) fun c _ _ => rfl
    rw [mem_free, hc]
    exact and_iff_left hq

/-- A range that is filled in one block leaves what the others hold. -/
theorem Heap.contents_fill {w : Block} (bytes : Nat → β) (hb : b ∈ h.live) (hw : w.Within b) :
    (h.fill w bytes).contents = Function.update h.contents b.base (some ((h.fill w bytes).read b)) := by
  funext p
  by_cases hp : p = b.base
  · subst hp
    rw [Function.update_self]
    exact contents_of_live (h := h.fill w bytes) hb
  · rw [Function.update_of_ne hp]
    refine contents_congr (fun c _ => Iff.rfl) fun c hc hbase => ?_
    have hne : b ≠ c := fun hbc => hp (hbase.symm.trans (congrArg Block.base hbc).symm)
    have hapart := (apart_of_ne hb hc hne).2
    refine List.map_congr_left fun i hi => fill_frame bytes fun hhas => ?_
    have hin := hw.has hhas
    rw [List.mem_range] at hi
    obtain ⟨h1, h2⟩ := hin
    omega

/-- What a block holds after one of its items is written. -/
theorem Heap.read_fill_one {i : Nat} (v : β) : (h.fill ⟨b.base + i, 1⟩ fun _ => v).read b = (h.read b).set i v := by
  refine List.ext_getElem? fun j => ?_
  by_cases hj : j < b.size
  · rw [getElem?_read _ hj, List.getElem?_set, length_read, getElem?_read _ hj]
    by_cases hij : i = j
    · subst hij
      have hhas : (⟨b.base + i, 1⟩ : Block).Has (b.base + i) := ⟨Nat.le_refl _, Nat.lt_succ_self _⟩
      rw [if_pos rfl, if_pos hj]
      exact congrArg some (if_pos hhas)
    · rw [if_neg hij]
      refine congrArg some (fill_frame _ ?_)
      rintro ⟨h1, h2⟩
      simp only at h1 h2
      omega
  · have hlen : ∀ l : List β, l.length = b.size → l[j]? = none := fun l hl => List.getElem?_eq_none (by omega)
    rw [hlen _ (length_read _ _), hlen _ (by rw [List.length_set, length_read])]

end BlockHeap
