import Mathlib.Data.List.Basic
import Mathlib.Tactic

/-!
# Comma-separated values

Records of fields, of symbols of any kind. A field in which a comma, a quote or the end of a line
stands is quoted, with the quotes in it doubled (`Dialect.field`); fields are separated by commas,
and a record ends with its line (`Dialect.record`).

Records that are written are read back as they were (`read_records`), whatever stands in their
fields. A field in which nothing has to be quoted may be written as it is (`field_of_plain`).
-/

namespace Csv

/-- The symbols that separate, all different. -/
structure Dialect (α : Type*) where
  comma : α
  quote : α
  newline : α
  comma_ne_quote : comma ≠ quote
  comma_ne_newline : comma ≠ newline
  newline_ne_quote : newline ≠ quote

/-- Where in a field a reader is. -/
inductive Place
  /-- At its start. -/
  | start
  /-- In one that is not quoted. -/
  | bare
  | quoted
  /-- After a quote in one that is. -/
  | closed
  deriving DecidableEq

/-- What has been read: whole records, whole fields of the next one, and a part of a field. -/
structure Reader (α : Type*) where
  place : Place := .start
  field : List α := []
  fields : List (List α) := []
  records : List (List (List α)) := []

namespace Dialect

variable {α : Type*} [DecidableEq α] (d : Dialect α)

/-! ## Writing -/

/-- Nothing in a field has to be quoted. -/
def Plain (s : List α) : Prop := ∀ a ∈ s, a ≠ d.comma ∧ a ≠ d.quote ∧ a ≠ d.newline

instance (s : List α) : Decidable (d.Plain s) := inferInstanceAs (Decidable (∀ a ∈ s, _))

/-- The quotes doubled. -/
def double (s : List α) : List α := s.flatMap fun a => if a = d.quote then [a, a] else [a]

/-- A cell as it is written: quoted unless it is plain. -/
def field (s : List α) : List α :=
  if d.Plain s then s else d.quote :: (d.double s ++ [d.quote])

/-- Cells as they are written, with commas between them, and the end of the line. -/
def record : List (List α) → List α
  | [] => [d.newline]
  | [s] => d.field s ++ [d.newline]
  | s :: rest => d.field s ++ d.comma :: record rest

/-! ## Reading -/

/-- A field ends at a comma, and a record at the end of its line. -/
def separate (r : Reader α) (a : α) : Option (Reader α) :=
  if a = d.comma then some { r with place := .start, field := [], fields := r.fields ++ [r.field] }
  else if a = d.newline then some { records := r.records ++ [r.fields ++ [r.field]] }
  else none

/-- A symbol is read, unless none such may stand where it does. -/
def step (r : Reader α) (a : α) : Option (Reader α) :=
  match r.place with
  | .quoted =>
    if a = d.quote then some { r with place := .closed }
    else some { r with field := r.field ++ [a] }
  | .closed =>
    if a = d.quote then some { r with place := .quoted, field := r.field ++ [a] }
    else d.separate r a
  | .start =>
    if a = d.quote then some { r with place := .quoted }
    else if a = d.comma ∨ a = d.newline then d.separate r a
    else some { r with place := .bare, field := [a] }
  | .bare =>
    if a = d.quote then none
    else if a = d.comma ∨ a = d.newline then d.separate r a
    else some { r with field := r.field ++ [a] }

/-- A reader reads some of its input. -/
def steps : Reader α → List α → Option (Reader α)
  | r, [] => some r
  | r, a :: input => (d.step r a).bind (steps · input)

/-- The records, if the last one has ended. -/
def read (input : List α) : Option (List (List (List α))) :=
  (d.steps {} input).bind fun r =>
    if r.place = .start ∧ r.fields = [] then some r.records else none

variable {d} {s : List α} {r r' : Reader α}

theorem field_of_plain (h : d.Plain s) : d.field s = s := if_pos h

theorem steps_cons {a : α} {input : List α} (h : d.step r a = some r') :
    d.steps r (a :: input) = d.steps r' input := by
  rw [steps, h]
  rfl

theorem steps_append {front back : List α} (h : d.steps r front = some r') :
    d.steps r (front ++ back) = d.steps r' back := by
  induction front generalizing r with
  | nil =>
    obtain rfl : r = r' := Option.some.inj h
    rfl
  | cons a front ih =>
    rw [steps] at h
    obtain ⟨r₁, hstep, hfront⟩ := Option.bind_eq_some_iff.1 h
    rw [List.cons_append, steps_cons hstep]
    exact ih hfront

/-! ## Reading what was written -/

theorem steps_bare (h : d.Plain s) (hplace : r.place = .bare) :
    d.steps r s = some { r with field := r.field ++ s } := by
  induction s generalizing r with
  | nil => rw [List.append_nil, steps]
  | cons a s ih =>
    obtain ⟨⟨hcomma, hquote, hnewline⟩, hs⟩ := List.forall_mem_cons.1 h
    have hstep : d.step r a = some { r with field := r.field ++ [a] } := by
      rw [step, hplace]
      dsimp only
      rw [if_neg hquote, if_neg (not_or.2 ⟨hcomma, hnewline⟩)]
    rw [steps_cons hstep, ih (r := { r with field := r.field ++ [a] }) hs hplace]
    dsimp only
    rw [List.append_assoc, List.singleton_append]

theorem steps_double (hplace : r.place = .quoted) :
    d.steps r (d.double s) = some { r with field := r.field ++ s } := by
  induction s generalizing r with
  | nil => rw [List.append_nil, double, List.flatMap_nil, steps]
  | cons a s ih =>
    have hsymbol : d.steps r (if a = d.quote then [a, a] else [a]) =
        some { r with field := r.field ++ [a] } := by
      split_ifs with hquote
      · simp [steps, step, hplace, hquote]
      · simp [steps, step, hplace, hquote]
    rw [double, List.flatMap_cons, ← double, steps_append hsymbol,
      ih (r := { r with field := r.field ++ [a] }) hplace]
    dsimp only
    rw [List.append_assoc, List.singleton_append]

/-- A field as it is written is read up to a place where it may end. -/
theorem steps_field (s : List α) (hplace : r.place = .start) (hfield : r.field = []) :
    ∃ place, place ≠ .quoted ∧ d.steps r (d.field s) = some { r with place, field := s } := by
  rw [Dialect.field]
  split_ifs with hplain
  · cases s with
    | nil =>
      refine ⟨.start, by decide, ?_⟩
      rw [steps, ← hplace, ← hfield]
    | cons a s =>
      obtain ⟨⟨hcomma, hquote, hnewline⟩, hs⟩ := List.forall_mem_cons.1 hplain
      have hstep : d.step r a = some { r with place := .bare, field := [a] } := by
        rw [step, hplace]
        dsimp only
        rw [if_neg hquote, if_neg (not_or.2 ⟨hcomma, hnewline⟩)]
      refine ⟨.bare, by decide, ?_⟩
      rw [steps_cons hstep, steps_bare hs rfl]
      rfl
  · have hopen : d.step r d.quote = some { r with place := .quoted } := by
      rw [step, hplace]
      exact if_pos rfl
    refine ⟨.closed, by decide, ?_⟩
    rw [steps_cons hopen, steps_append (steps_double rfl), hfield]
    simp [steps, step]

/-- A field that is not amid quotes may end. -/
theorem step_separator {a : α} (hplace : r.place ≠ .quoted) (ha : a = d.comma ∨ a = d.newline) :
    d.step r a = d.separate r a := by
  have hquote : a ≠ d.quote := by
    rcases ha with rfl | rfl
    · exact d.comma_ne_quote
    · exact d.newline_ne_quote
  rw [step]
  cases h : r.place with
  | quoted => exact absurd h hplace
  | closed => exact if_neg hquote
  | start => exact (if_neg hquote).trans (if_pos ha)
  | bare => exact (if_neg hquote).trans (if_pos ha)

/-- A record as it is written is read, the fields that were read before being part of it. -/
theorem steps_record (fields : List (List α)) (hne : fields ≠ []) (hplace : r.place = .start)
    (hfield : r.field = []) :
    d.steps r (d.record fields) = some { records := r.records ++ [r.fields ++ fields] } := by
  induction fields generalizing r with
  | nil => exact absurd rfl hne
  | cons s rest ih =>
    obtain ⟨place, hquoted, hread⟩ := steps_field (d := d) s hplace hfield
    have hseparate {a : α} (ha : a = d.comma ∨ a = d.newline) :=
      step_separator (r := { r with place, field := s }) hquoted ha
    cases rest with
    | nil =>
      have hend := hseparate (.inr rfl)
      rw [separate, if_neg d.comma_ne_newline.symm, if_pos rfl] at hend
      rw [record, steps_append hread, steps_cons hend]
      rfl
    | cons s' rest =>
      have hcomma := hseparate (.inl rfl)
      rw [separate, if_pos rfl] at hcomma
      have hrecord : d.record (s :: s' :: rest) =
        d.field s ++ d.comma :: d.record (s' :: rest) := rfl
      rw [hrecord, steps_append hread, steps_cons hcomma, ih (List.cons_ne_nil _ _) rfl rfl]
      dsimp only
      rw [List.append_assoc, List.singleton_append]

/-- Records that are written are read back. -/
theorem read_records (records : List (List (List α))) (hne : ∀ fields ∈ records, fields ≠ []) :
    d.read (records.flatMap d.record) = some records := by
  have hread (before : List (List (List α))) : d.steps { records := before }
      (records.flatMap d.record) = some { records := before ++ records } := by
    induction records generalizing before with
    | nil => rw [List.append_nil, List.flatMap_nil, steps]
    | cons fields records ih =>
      rw [List.forall_mem_cons] at hne
      rw [List.flatMap_cons, steps_append (steps_record fields hne.1 rfl rfl), ih hne.2]
      dsimp only
      rw [List.append_assoc, List.nil_append, List.singleton_append]
  rw [read, hread []]
  rfl

end Dialect

end Csv
