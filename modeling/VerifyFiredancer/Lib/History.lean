import VerifyFiredancer.Lib.Cyclic
import Mathlib.Logic.Function.Basic
import Mathlib.Data.List.DropRight
import Mathlib.Data.List.Nodup

/-!
# A cyclic buffer of the most recent elements

`Recent d null r pos H` says the `d` cells of `r` hold the last `d` elements of the history `H`, each where it was written, and
`pos` is the cell the next one goes to; cells not yet written hold `null`. Writing an element there is one more element of the
history (`Recent.push`), and what it overwrites is the oldest of the last `d` (`Recent.overwritten`).
-/

namespace History

open Cyclic

variable {α : Type*}

/-- The cells of `r` hold the last `d` elements of the history `H`, and the next one goes to `pos`. -/
structure Recent (d : Nat) (null : α) (r : Nat → α) (pos : Nat) (H : List α) : Prop where
  pos_eq : pos = H.length % d
  recent : ∀ k (h : k < H.length), H.length ≤ k + d → r (k % d) = H[k]
  fresh : ∀ k, H.length ≤ k → k < d → r k = null

/-- Cells that hold null hold an empty history. -/
theorem Recent.empty {d : Nat} {null : α} {r : Nat → α} (h : ∀ i, r i = null) : Recent d null r 0 [] where
  pos_eq := (Nat.zero_mod d).symm
  recent := fun k hk => absurd hk (Nat.not_lt_zero k)
  fresh := fun k _ _ => h k

section Push

variable {d pos : Nat} {null : α} {r : Nat → α} {H : List α}

/-- Writing an element where the next one goes. -/
theorem Recent.push (h : Recent d null r pos H) (hd : 0 < d) (x : α) :
    Recent d null (Function.update r pos x) (next d pos) (H ++ [x]) where
  pos_eq := by rw [h.pos_eq, next_mod d _ hd, List.length_append, List.length_singleton]
  recent := by
    intro k hk hkd
    rw [List.length_append, List.length_singleton] at hk hkd
    rw [h.pos_eq]
    rcases Nat.lt_or_ge k H.length with hlt | hge
    · have hne : k % d ≠ H.length % d := fun e => by
        have := eq_of_mod_eq e (by omega) (by omega)
        omega
      rw [Function.update_of_ne hne, h.recent k hlt (by omega), List.getElem_append_left hlt]
    · have hkl : k = H.length := by omega
      subst hkl
      rw [Function.update_self, List.getElem_concat_length rfl]
  fresh := by
    intro k hk hkd
    rw [List.length_append, List.length_singleton] at hk
    have hne : k ≠ pos := by
      rw [h.pos_eq, Nat.mod_eq_of_lt (by omega)]
      omega
    rw [Function.update_of_ne hne]
    exact h.fresh k (by omega) hkd

/-- What the next element overwrites: nothing until the cells are full, then the oldest element they hold. -/
theorem Recent.overwritten (h : Recent d null r pos H) (hd : 0 < d) :
    H.length < d ∧ r pos = null ∨ ∃ hl : d ≤ H.length, r pos = H[H.length - d] := by
  rcases Nat.lt_or_ge H.length d with hlt | hge
  · refine Or.inl ⟨hlt, h.fresh pos ?_ ?_⟩ <;> rw [h.pos_eq, Nat.mod_eq_of_lt hlt]
    exact hlt
  · refine Or.inr ⟨hge, ?_⟩
    have hmod : pos = (H.length - d) % d := by
      rw [h.pos_eq, ← Nat.add_mod_right (H.length - d) d, Nat.sub_add_cancel hge]
    rw [hmod]
    exact h.recent _ (by omega) (by omega)

end Push

section Window

variable {d : Nat} {H : List α}

/-- The last `d` elements with one more: while there are fewer than `d`, all; then all but the oldest. -/
theorem rtake_concat (hd : 0 < d) (x : α) :
    (H ++ [x]).rtake d = if H.length < d then H.rtake d ++ [x] else (H.rtake d).tail ++ [x] := by
  rw [List.rtake, List.rtake, List.length_append, List.length_singleton]
  split
  · next hlt =>
    rw [Nat.sub_eq_zero_of_le hlt, Nat.sub_eq_zero_of_le (Nat.le_of_lt hlt), List.drop_zero, List.drop_zero]
  · next hge =>
    rw [List.drop_append_of_le_length (by omega), List.tail_drop, Nat.sub_add_comm (Nat.not_lt.1 hge)]

/-- The oldest of the last `d` elements. -/
theorem rtake_eq_cons (hd : 0 < d) (hl : d ≤ H.length) :
    H.rtake d = H[H.length - d] :: (H.rtake d).tail := by
  rw [List.rtake, List.drop_eq_getElem_cons (by omega), List.tail_cons]

/-- The last `d` elements stay without an element twice. -/
theorem nodup_rtake_concat (hd : 0 < d) (hnd : (H.rtake d).Nodup) {x : α} (hx : x ∉ H.rtake d) :
    ((H ++ [x]).rtake d).Nodup := by
  rw [rtake_concat hd]
  split
  · exact List.nodup_append_comm.2 (List.nodup_cons.2 ⟨hx, hnd⟩)
  · exact List.nodup_append_comm.2 (List.nodup_cons.2 ⟨fun hmem => hx (List.mem_of_mem_tail hmem), hnd.tail⟩)

/-- The elements of the last `d` with one more that is not among them: it joins, and what it overwrites leaves. -/
theorem Recent.mem_rtake_concat {pos : Nat} {null : α} {r : Nat → α} (h : Recent d null r pos H) (hd : 0 < d)
    (hnd : (H.rtake d).Nodup) {x y : α} (hx : x ∉ H.rtake d) (hy : y ≠ null) :
    y ∈ (H ++ [x]).rtake d ↔ (y ∈ H.rtake d ∨ y = x) ∧ y ≠ r pos := by
  rw [rtake_concat hd]
  rcases h.overwritten hd with ⟨hlt, hnull⟩ | ⟨hle, hold⟩
  · rw [if_pos hlt, hnull]
    simp [hy]
  · rw [if_neg (by omega), hold]
    have hcons := rtake_eq_cons hd hle
    rw [hcons, List.nodup_cons] at hnd
    rw [hcons, List.mem_cons, not_or] at hx
    conv_rhs => rw [hcons]
    rw [List.mem_append, List.mem_singleton, List.mem_cons]
    constructor
    · rintro (hmem | rfl)
      · refine ⟨Or.inl (Or.inr hmem), ?_⟩
        rintro rfl
        exact hnd.1 hmem
      · exact ⟨Or.inr rfl, hx.1⟩
    · rintro ⟨(rfl | hmem) | rfl, hne⟩
      · exact absurd rfl hne
      · exact Or.inl hmem
      · exact Or.inr rfl

end Window

section Newer

variable {d pos : Nat} {null : α} {r : Nat → α} {H : List α}

/-- An element that fewer than `d - 1` followed is in a cell other than the one that is overwritten next. -/
theorem Recent.newer_cell (h : Recent d null r pos H) (hd : 0 < d) {x : α} {pre post : List α} (hH : H = pre ++ x :: post)
    (hpost : post.length + 1 < d) : ∃ i, i < d ∧ i ≠ pos ∧ r i = x := by
  have hlen : H.length = pre.length + (post.length + 1) := by rw [hH, List.length_append, List.length_cons]
  refine ⟨pre.length % d, Nat.mod_lt _ hd, ?_, ?_⟩
  · rw [h.pos_eq]
    intro e
    have := eq_of_mod_eq e (by omega) (by omega)
    omega
  · rw [h.recent pre.length (by omega) (by omega)]
    simp [hH]

end Newer

section Unique

variable {d pos pos' : Nat} {null : α} {r r' : Nat → α} {H : List α}

/-- A history leaves nothing open about the cells. -/
theorem Recent.unique (h : Recent d null r pos H) (h' : Recent d null r' pos' H) {i : Nat} (hi : i < d) : r i = r' i := by
  rcases Nat.lt_or_ge i H.length with hlt | hge
  · -- the last element of the history that went to cell `i`
    have hle := Nat.mul_div_le (H.length - 1 - i) d
    have hgt := Nat.lt_mul_div_succ (H.length - 1 - i) (show 0 < d by omega)
    have hmod : (i + d * ((H.length - 1 - i) / d)) % d = i := by
      rw [Nat.add_mul_mod_self_left, Nat.mod_eq_of_lt hi]
    rw [Nat.mul_succ] at hgt
    have hr := h.recent (i + d * ((H.length - 1 - i) / d)) (by omega) (by omega)
    have hr' := h'.recent (i + d * ((H.length - 1 - i) / d)) (by omega) (by omega)
    rw [hmod] at hr hr'
    exact hr.trans hr'.symm
  · exact (h.fresh i hge hi).trans (h'.fresh i hge hi).symm

end Unique

end History
