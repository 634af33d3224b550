import Mathlib.Data.List.Infix

/-!
# Texts read line by line

A text is read a line at a time, each with the end of line that closes it (`nextLine`), and a loop takes a state through the
lines until none is left (`readLoop`). In a line, `find` gives the first place of a word and `words` what stands between
separators. A log of blocks, a header and the lines that follow it, fills a table with a row for each block: when a header adds
a row and a line changes the last row alone, what is in a row comes from the lines of its block (`foldlM_blocks`).
-/

namespace TextLines

variable {α σ : Type*}

/-! ## Words in a line -/

section Words

variable [DecidableEq α] {w s t : List α} {i : Nat}

/-- The first place of a word. -/
def find (w s : List α) : Option Nat := s.tails.findIdx? (w.isPrefixOf ·)

/-- A word has one place only. -/
def OccursOnce (w s : List α) : Prop := ∃! i, w <+: s.drop i

theorem find_eq_none_iff : find w s = none ↔ ¬w <:+: s := by
  rw [find, List.findIdx?_eq_none_iff, List.infix_iff_prefix_suffix]
  constructor
  · rintro h ⟨t, hw, ht⟩
    have := h t (by rwa [List.mem_tails])
    rw [List.isPrefixOf_iff_prefix.2 hw] at this
    cases this
  · intro h t ht
    rw [List.mem_tails] at ht
    rw [Bool.eq_false_iff, Ne, List.isPrefixOf_iff_prefix]
    exact fun hw => h ⟨t, hw, ht⟩

/-- The first place of a word is where it has no place before. -/
theorem find_eq_some_iff : find w s = some i ↔ w <+: s.drop i ∧ i ≤ s.length ∧ ∀ j < i, ¬w <+: s.drop j := by
  simp only [find, List.findIdx?_eq_some_iff_getElem, List.length_tails, List.getElem_tails, List.isPrefixOf_iff_prefix,
    Nat.lt_succ_iff]
  constructor
  · rintro ⟨hi, hat, hbefore⟩
    exact ⟨hat, hi, fun j hj => hbefore j hj⟩
  · rintro ⟨hat, hi, hbefore⟩
    exact ⟨hi, hat, fun j hj => hbefore j hj⟩

omit [DecidableEq α] in
/-- A word that is not empty has its places inside of the text. -/
theorem lt_length_of_occurs (hw : w ≠ []) (h : w <+: s.drop i) : i < s.length := by
  by_contra hlt
  rw [List.drop_eq_nil_of_le (Nat.le_of_not_lt hlt), List.prefix_nil] at h
  exact hw h

omit [DecidableEq α] in
/-- A word has no new place in a text with a character more that is not of the word. -/
theorem occurs_concat {a : α} (hw : w ≠ []) (ha : a ∉ w) (s : List α) (i : Nat) :
    w <+: (s ++ [a]).drop i ↔ w <+: s.drop i := by
  rcases Nat.lt_or_ge s.length i with hlt | hle
  · rw [List.drop_eq_nil_of_le (by rw [List.length_append]; exact hlt), List.drop_eq_nil_of_le (Nat.le_of_lt hlt)]
  · rw [List.drop_append_of_le_length hle, List.prefix_concat_iff, or_iff_right]
    rintro rfl
    exact ha (List.mem_append_right _ List.mem_cons_self)

/-- A word is found where it is without the character at the end, when that is not of the word. -/
theorem find_concat {a : α} (hw : w ≠ []) (ha : a ∉ w) (s : List α) : find w (s ++ [a]) = find w s := by
  ext i
  simp only [find_eq_some_iff, occurs_concat hw ha]
  refine and_congr_right fun hat => and_congr_left fun _ => ?_
  have hlt := lt_length_of_occurs hw hat
  rw [List.length_append]
  exact iff_of_true (by omega) (by omega)

/-- The one place of a word is where it is found. -/
theorem find_of_occursOnce (h : OccursOnce w s) (hi : i ≤ s.length) (hat : w <+: s.drop i) : find w s = some i := by
  rw [find_eq_some_iff]
  exact ⟨hat, hi, fun j hj hat' => absurd (h.unique hat' hat) (Nat.ne_of_lt hj)⟩

omit [DecidableEq α] in
/-- One place only, by the places inside of the text. -/
theorem occursOnce_iff (hw : w ≠ []) :
    OccursOnce w s ↔ ∃ i < s.length, w <+: s.drop i ∧ ∀ j < s.length, w <+: s.drop j → j = i := by
  constructor
  · rintro ⟨i, hat, honly⟩
    exact ⟨i, lt_length_of_occurs hw hat, hat, fun j _ => honly j⟩
  · rintro ⟨i, _, hat, honly⟩
    exact ⟨i, hat, fun j hj => honly j (lt_length_of_occurs hw hj) hj⟩

end Words

/-- What stands between separators, without the empty parts. -/
def words (sep : α → Bool) (s : List α) : List (List α) := (s.splitOnP sep).filter (!·.isEmpty)

/-- A separator at the end of a line adds no word. -/
theorem words_concat {sep : α → Bool} {a : α} (ha : sep a) (s : List α) : words sep (s ++ [a]) = words sep s := by
  rw [words, List.splitOnP_append_cons s [] ha, List.splitOnP_nil, List.filter_append, words]
  exact List.append_nil _

/-! ## Reading -/

section Read

variable [DecidableEq α] {nl : α} {l s : List α}

/-- The next line, with its end, and what is left of the text. -/
def nextLine (nl : α) : List α → List α × List α
  | [] => ([], [])
  | a :: s => if a = nl then ([a], s) else (a :: (nextLine nl s).1, (nextLine nl s).2)

theorem length_nextLine (nl : α) (s : List α) : (nextLine nl s).1.length + (nextLine nl s).2.length = s.length := by
  induction s with
  | nil => rfl
  | cons a s ih =>
    rw [nextLine]
    split_ifs with h
    · exact Nat.add_comm ..
    · simp only [List.length_cons, ← ih]
      omega

/-- The next line ends with the first end of line. -/
theorem nextLine_append (h : nl ∉ l) (s : List α) : nextLine nl (l ++ nl :: s) = (l ++ [nl], s) := by
  induction l with
  | nil => exact if_pos rfl
  | cons a l ih =>
    rw [List.mem_cons, not_or] at h
    rw [List.cons_append, nextLine, if_neg (Ne.symm h.1), ih h.2]
    rfl

/-- The loop over the lines of a text, which ends when there is no next line or the body fails. -/
def readLoop (nl : α) (body : σ → List α → Option σ) (d : σ) (s : List α) : Option σ :=
  if (nextLine nl s).1 = [] then some d
  else (body d (nextLine nl s).1).bind fun d' => readLoop nl body d' (nextLine nl s).2
termination_by s.length
decreasing_by
  have hlen := length_nextLine nl s
  have hpos := List.length_pos_of_ne_nil (by assumption)
  omega

/-- A step of the loop: the line goes to the body, and the loop goes on with what is left. -/
theorem readLoop_line (h : nl ∉ l) (body : σ → List α → Option σ) (d : σ) (s : List α) :
    readLoop nl body d (l ++ nl :: s) = (body d (l ++ [nl])).bind fun d' => readLoop nl body d' s := by
  rw [readLoop, nextLine_append h, if_neg (by simp)]

/-- A run of the loop over a text of whole lines is a fold over them. -/
theorem readLoop_lines {lines : List (List α)} (h : ∀ l ∈ lines, nl ∉ l) (body : σ → List α → Option σ) (d : σ) :
    readLoop nl body d (lines.flatMap (· ++ [nl])) = lines.foldlM (fun d l => body d (l ++ [nl])) d := by
  induction lines generalizing d with
  | nil =>
    rw [List.flatMap_nil, readLoop]
    exact if_pos rfl
  | cons l lines ih =>
    rw [List.flatMap_cons, List.append_assoc, List.singleton_append, readLoop_line (h l List.mem_cons_self), List.foldlM_cons]
    exact congrArg _ (funext fun d' => ih (fun l' hl' => h l' (List.mem_cons_of_mem _ hl')) d')

end Read

/-! ## Blocks -/

section Blocks

variable {L R B : Type*} {step : List R → L → Option (List R)} {upd : R → L → R}

/-- Lines that change the last row alone fold into it. -/
theorem foldlM_body {body : List L} (h : ∀ l ∈ body, ∀ rows row, step (rows ++ [row]) l = some (rows ++ [upd row l]))
    (rows : List R) (row : R) : body.foldlM step (rows ++ [row]) = some (rows ++ [body.foldl upd row]) := by
  induction body generalizing row with
  | nil => rfl
  | cons l body ih =>
    rw [List.foldlM_cons, h l List.mem_cons_self]
    exact ih (fun l' hl' => h l' (List.mem_cons_of_mem _ hl')) (upd row l)

/-- A log of blocks gives one row for each block, in order: that of its header with the lines of the block folded into it. -/
theorem foldlM_blocks {header : B → L} {body : B → List L} {new : B → R}
    (hheader : ∀ b rows, step rows (header b) = some (rows ++ [new b]))
    (hbody : ∀ b, ∀ l ∈ body b, ∀ rows row, step (rows ++ [row]) l = some (rows ++ [upd row l]))
    (blocks : List B) (rows : List R) :
    (blocks.flatMap fun b => header b :: body b).foldlM step rows =
      some (rows ++ blocks.map fun b => (body b).foldl upd (new b)) := by
  induction blocks generalizing rows with
  | nil => exact congrArg some (List.append_nil rows).symm
  | cons b blocks ih =>
    have hblock : (header b :: body b).foldlM step rows = some (rows ++ [(body b).foldl upd (new b)]) := by
      rw [List.foldlM_cons, hheader]
      exact foldlM_body (hbody b) rows (new b)
    rw [List.flatMap_cons, List.foldlM_append, hblock, List.map_cons]
    change (blocks.flatMap fun b => header b :: body b).foldlM step (rows ++ [(body b).foldl upd (new b)]) = _
    rw [ih, List.append_assoc, List.singleton_append]

end Blocks

end TextLines
