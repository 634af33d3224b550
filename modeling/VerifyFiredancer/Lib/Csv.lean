import Mathlib.Data.List.Nodup
import Mathlib.Data.List.Flatten

/-!
# Comma-separated values

A table is written as a text: the fields of a row with a separator between them, a carriage return and a line feed after each
row. A field with one of these characters or a quote in it is written in quotes, with its own quotes doubled, and a row of one
empty field as two quotes, because nothing at all is a row without fields. A reader takes the text back a character at a time,
with six modes. What is written is read back (`read_write`), whatever the fields have in them.
-/

namespace Csv

variable {α : Type*} [DecidableEq α]

/-- The four characters that the format gives a meaning. -/
structure Dialect (α : Type*) where
  sep : α
  quote : α
  cr : α
  lf : α
  nodup : [sep, quote, cr, lf].Nodup

namespace Dialect

variable (d : Dialect α)

/-! ## The writer -/

/-- A character that a field has in quotes only. -/
def Special (c : α) : Prop := c = d.sep ∨ c = d.quote ∨ c = d.cr ∨ c = d.lf

instance (c : α) : Decidable (d.Special c) := inferInstanceAs (Decidable (_ ∨ _))

/-- The quotes of a field doubled. -/
def double (s : List α) : List α := s.flatMap fun c => if c = d.quote then [c, c] else [c]

/-- A field in quotes. -/
def quoted (s : List α) : List α := d.quote :: d.double s ++ [d.quote]

/-- A field as it is written. -/
def field (s : List α) : List α := if ∃ c ∈ s, d.Special c then d.quoted s else s

/-- A row as it is written. -/
def row (fields : List (List α)) : List α :=
  if fields = [[]] then d.quoted [] ++ [d.cr, d.lf] else List.intercalate [d.sep] (fields.map d.field) ++ [d.cr, d.lf]

/-- A table as it is written. -/
def write (rows : List (List (List α))) : List α := rows.flatMap d.row

/-! ## The reader -/

/-- What the reader is in the middle of. -/
inductive Mode
  | startRow
  | startField
  | inField
  | inQuotes
  | quoteInQuotes
  | afterCr
  deriving DecidableEq

/-- The reader: the field and the row that it is in, and the rows before. -/
structure Reader (α : Type*) where
  mode : Mode
  field : List α
  fields : List (List α)
  rows : List (List (List α))

namespace Reader

/-- The reader before the first character of a row. -/
def atRow (rows : List (List (List α))) : Reader α := ⟨.startRow, [], [], rows⟩

/-- The field ends, and the next one starts. -/
def saveField (r : Reader α) : Reader α := { r with mode := .startField, field := [], fields := r.fields ++ [r.field] }

/-- The row ends. -/
def saveRow (m : Mode) (r : Reader α) : Reader α := ⟨m, [], [], r.rows ++ [r.fields]⟩

/-- A character of the field. -/
def push (m : Mode) (c : α) (r : Reader α) : Reader α := { r with mode := m, field := r.field ++ [c] }

end Reader

/-- What ends a field out of quotes, and otherwise `r'`. -/
def endField (r : Reader α) (c : α) (r' : Reader α) : Reader α :=
  if c = d.lf then r.saveField.saveRow .startRow
  else if c = d.cr then r.saveField.saveRow .afterCr
  else if c = d.sep then r.saveField
  else r'

/-- The first character of a field. -/
def startField (r : Reader α) (c : α) : Reader α :=
  d.endField r c (if c = d.quote then { r with mode := .inQuotes } else r.push .inField c)

/-- The first character of a row. -/
def startRow (r : Reader α) (c : α) : Reader α :=
  if c = d.lf then r.saveRow .startRow
  else if c = d.cr then r.saveRow .afterCr
  else d.startField r c

/-- The reader takes a character. -/
def step (r : Reader α) (c : α) : Reader α :=
  match r.mode with
  | .startRow => d.startRow r c
  | .startField => d.startField r c
  | .inField => d.endField r c (r.push .inField c)
  | .inQuotes => if c = d.quote then { r with mode := .quoteInQuotes } else r.push .inQuotes c
  -- a second quote is one of the field; with another character after it the field goes on without quotes
  | .quoteInQuotes => if c = d.quote then r.push .inQuotes c else d.endField r c (r.push .inField c)
  | .afterCr => if c = d.lf then { r with mode := .startRow } else d.startRow r c

/-- The reader at the end of the text: a row that has started ends there. -/
def finish (r : Reader α) : List (List (List α)) :=
  if r.mode = .startRow ∨ r.mode = .afterCr then r.rows else (r.saveField.saveRow .startRow).rows

/-- The table that a text is. -/
def read (text : List α) : List (List (List α)) := finish (text.foldl d.step (Reader.atRow []))

/-! ## Round trip -/

section Steps

omit [DecidableEq α] in
theorem quote_ne_sep : d.quote ≠ d.sep := by
  have := d.nodup
  grind

omit [DecidableEq α] in
theorem quote_ne_cr : d.quote ≠ d.cr := by
  have := d.nodup
  grind

omit [DecidableEq α] in
theorem quote_ne_lf : d.quote ≠ d.lf := by
  have := d.nodup
  grind

omit [DecidableEq α] in
theorem sep_ne_cr : d.sep ≠ d.cr := by
  have := d.nodup
  grind

omit [DecidableEq α] in
theorem sep_ne_lf : d.sep ≠ d.lf := by
  have := d.nodup
  grind

omit [DecidableEq α] in
theorem cr_ne_lf : d.cr ≠ d.lf := by
  have := d.nodup
  grind

end Steps

section Fields

variable {d} {r : Reader α} {s : List α}

/-- The characters of a field without quotes are taken as they are. -/
theorem foldl_inField (h : ∀ c ∈ s, ¬d.Special c) (hr : r.mode = .inField) :
    s.foldl d.step r = { r with field := r.field ++ s } := by
  induction s generalizing r with
  | nil => rw [List.append_nil, List.foldl_nil]
  | cons c s ih =>
    obtain ⟨hc, hs⟩ := List.forall_mem_cons.1 h
    simp only [Special, not_or] at hc
    have hstep : d.step r c = r.push .inField c := by
      rw [step, hr]
      simp only [endField, if_neg hc.1, if_neg hc.2.2.1, if_neg hc.2.2.2]
    rw [List.foldl_cons, hstep, ih hs rfl, Reader.push, hr, List.append_assoc, List.singleton_append]

/-- A field in quotes is taken without the quotes that double its own. -/
theorem foldl_inQuotes (hr : r.mode = .inQuotes) : (d.double s).foldl d.step r = { r with field := r.field ++ s } := by
  induction s generalizing r with
  | nil => rw [List.append_nil, double, List.flatMap_nil, List.foldl_nil]
  | cons c s ih =>
    have hstep : (if c = d.quote then [c, c] else [c]).foldl d.step r = r.push .inQuotes c := by
      by_cases hc : c = d.quote
      · simp only [if_pos hc, List.foldl_cons, List.foldl_nil, step, hr, Reader.push]
      · simp only [if_neg hc, List.foldl_cons, List.foldl_nil, step, hr]
    rw [double, List.flatMap_cons, List.foldl_append, hstep, ← double, ih rfl, Reader.push, hr, List.append_assoc,
      List.singleton_append]

/-- The reader is before the first character of a field. -/
def Reader.Ready (r : Reader α) : Prop := (r.mode = .startRow ∨ r.mode = .startField) ∧ r.field = []

theorem step_of_ready {c : α} (hr : r.Ready) (hcr : c ≠ d.cr) (hlf : c ≠ d.lf) : d.step r c = d.startField r c := by
  rcases hr.1 with hm | hm
  · simp only [step, hm, startRow, if_neg hcr, if_neg hlf]
  · simp only [step, hm]

/-- A field in quotes is read up to the quote that closes it. -/
theorem foldl_quoted (hr : r.Ready) : (d.quoted s).foldl d.step r = { r with mode := .quoteInQuotes, field := s } := by
  have hopen : d.step r d.quote = { r with mode := .inQuotes } := by
    rw [step_of_ready hr d.quote_ne_cr d.quote_ne_lf]
    simp only [startField, endField, if_neg d.quote_ne_cr, if_neg d.quote_ne_lf, if_neg d.quote_ne_sep, if_true]
  rw [quoted, List.cons_append, List.foldl_cons, hopen, List.foldl_append, foldl_inQuotes rfl, List.foldl_cons, List.foldl_nil,
    step]
  simp only [if_true, hr.2, List.nil_append]

/-- A field that is not empty is read up to what ends it. -/
theorem foldl_field (hr : r.Ready) (hs : s ≠ []) :
    (d.field s).foldl d.step r = { r with mode := .inField, field := s } ∨
      (d.field s).foldl d.step r = { r with mode := .quoteInQuotes, field := s } := by
  by_cases h : ∃ c ∈ s, d.Special c
  · rw [field, if_pos h]
    exact .inr (foldl_quoted hr)
  · rw [field, if_neg h]
    refine .inl ?_
    obtain ⟨c, s, rfl⟩ := List.exists_cons_of_ne_nil hs
    push Not at h
    obtain ⟨hc, hs⟩ := List.forall_mem_cons.1 h
    simp only [Special, not_or] at hc
    have hstep : d.step r c = r.push .inField c := by
      rw [step_of_ready hr hc.2.2.1 hc.2.2.2]
      simp only [startField, endField, if_neg hc.1, if_neg hc.2.1, if_neg hc.2.2.1, if_neg hc.2.2.2]
    rw [List.foldl_cons, hstep, foldl_inField hs rfl, Reader.push, hr.2, List.nil_append, List.singleton_append]

/-- What ends a field saves it, in and after quotes. -/
theorem step_of_read {c : α} (hc : c = d.sep ∨ c = d.cr)
    (hr : r.mode = .startField ∨ r.mode = .inField ∨ r.mode = .quoteInQuotes) :
    d.step r c = if c = d.sep then r.saveField else r.saveField.saveRow .afterCr := by
  rcases hc with rfl | rfl
  · rcases hr with hm | hm | hm <;>
      simp only [step, hm, startField, endField, if_neg d.sep_ne_cr, if_neg d.sep_ne_lf, if_neg d.quote_ne_sep.symm, if_true]
  · rcases hr with hm | hm | hm <;>
      simp only [step, hm, startField, endField, if_neg d.sep_ne_cr.symm, if_neg d.cr_ne_lf, if_neg d.quote_ne_cr.symm, if_true]

/-- A field with the separator after it. -/
theorem foldl_field_sep (hr : r.Ready) :
    (d.field s ++ [d.sep]).foldl d.step r = ⟨.startField, [], r.fields ++ [s], r.rows⟩ := by
  rw [List.foldl_append, List.foldl_cons, List.foldl_nil]
  by_cases hs : s = []
  · subst hs
    have hfield : d.field [] = [] := rfl
    rw [hfield, List.foldl_nil, step_of_ready hr d.sep_ne_cr d.sep_ne_lf]
    simp only [startField, endField, if_neg d.sep_ne_cr, if_neg d.sep_ne_lf, if_true, Reader.saveField, hr.2]
  · rcases foldl_field hr hs with h | h
    · rw [h, step_of_read (.inl rfl) (.inr (.inl rfl)), if_pos rfl, Reader.saveField]
    · rw [h, step_of_read (.inl rfl) (.inr (.inr rfl)), if_pos rfl, Reader.saveField]

/-- The row ends after the carriage return and the line feed. -/
theorem foldl_end (hr : r.mode = .startField ∨ r.mode = .inField ∨ r.mode = .quoteInQuotes) :
    [d.cr, d.lf].foldl d.step r = Reader.atRow (r.rows ++ [r.fields ++ [r.field]]) := by
  rw [List.foldl_cons, step_of_read (.inr rfl) hr, if_neg d.sep_ne_cr.symm, List.foldl_cons, List.foldl_nil, step]
  simp only [Reader.saveField, Reader.saveRow, Reader.atRow, if_true]

/-- The last field of a row with the end of the row. -/
theorem foldl_field_end (hr : r.Ready) (hs : r.mode = .startRow → s ≠ []) :
    (d.field s ++ [d.cr, d.lf]).foldl d.step r = Reader.atRow (r.rows ++ [r.fields ++ [s]]) := by
  rw [List.foldl_append]
  by_cases hnil : s = []
  · subst hnil
    have hm : r.mode = .startField := hr.1.resolve_left fun hm => hs hm rfl
    have hfield : d.field [] = [] := rfl
    rw [hfield, List.foldl_nil, foldl_end (.inl hm), hr.2]
  · rcases foldl_field hr hnil with h | h
    · rw [h, foldl_end (.inr (.inl rfl))]
    · rw [h, foldl_end (.inr (.inr rfl))]

/-- The fields of a row are read one after the other. -/
theorem foldl_fields (fields : List (List α)) (hr : r.Ready) (hs : r.mode = .startRow → s :: fields ≠ [[]]) :
    (List.intercalate [d.sep] ((s :: fields).map d.field) ++ [d.cr, d.lf]).foldl d.step r =
      Reader.atRow (r.rows ++ [r.fields ++ s :: fields]) := by
  induction fields generalizing r s with
  | nil =>
    rw [List.map_cons, List.map_nil, List.intercalate_singleton]
    exact foldl_field_end hr fun hm hnil => hs hm (by rw [hnil])
  | cons t fields ih =>
    have hsplit : List.intercalate [d.sep] ((s :: t :: fields).map d.field) ++ [d.cr, d.lf] =
        (d.field s ++ [d.sep]) ++ (List.intercalate [d.sep] ((t :: fields).map d.field) ++ [d.cr, d.lf]) := by
      rw [List.map_cons, List.map_cons, List.intercalate_cons_cons, ← List.map_cons]
      simp only [List.append_assoc]
    have hready : (⟨.startField, [], r.fields ++ [s], r.rows⟩ : Reader α).Ready := ⟨.inr rfl, rfl⟩
    rw [hsplit, List.foldl_append, foldl_field_sep hr, ih hready fun hm => by cases hm]
    simp only [List.append_assoc, List.singleton_append]

/-- A row is read back. -/
theorem foldl_row (fields : List (List α)) (rows : List (List (List α))) :
    (d.row fields).foldl d.step (Reader.atRow rows) = Reader.atRow (rows ++ [fields]) := by
  have hready : (Reader.atRow rows).Ready := ⟨.inl rfl, rfl⟩
  rw [row]
  split_ifs with h
  · subst h
    rw [List.foldl_append, foldl_quoted hready, foldl_end (.inr (.inr rfl))]
    rfl
  · cases fields with
    | nil =>
      -- nothing but the end of the row
      have hcr : d.step (Reader.atRow rows) d.cr = (Reader.atRow rows).saveRow .afterCr := by
        simp only [step, Reader.atRow, startRow, if_neg d.cr_ne_lf, if_true]
      rw [List.map_nil, List.intercalate_nil, List.nil_append, List.foldl_cons, hcr, List.foldl_cons, List.foldl_nil, step]
      simp only [Reader.saveRow, Reader.atRow, if_true]
    | cons s fields => exact foldl_fields fields hready fun _ => h

end Fields

/-- A table is read back from what is written of it. -/
theorem read_write (rows : List (List (List α))) : d.read (d.write rows) = rows := by
  have hrun : ∀ before, (d.write rows).foldl d.step (Reader.atRow before) = Reader.atRow (before ++ rows) := by
    induction rows with
    | nil => intro before; rw [write, List.flatMap_nil, List.foldl_nil, List.append_nil]
    | cons row rows ih =>
      intro before
      rw [write, List.flatMap_cons, List.foldl_append, foldl_row, ← write, ih, List.append_assoc, List.singleton_append]
  rw [read, hrun, List.nil_append]
  exact if_pos (.inl rfl)

end Dialect

end Csv
