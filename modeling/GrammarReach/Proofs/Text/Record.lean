import Mathlib.Data.List.DropRight
import GrammarReach.Text.Record

/-!
Records and the lines that they are read from.

A field has no blank at either end, and no tab or line feed in it. A list of such fields, of which the
first one is not empty and does not begin with a number sign, is read back from a line that holds them with
tabs between; lines of this kind, each with a line feed behind it, are read back as records.
-/

namespace GrammarReach.Text

def Trimmed (text : List Char) : Prop :=
  (∀ c ∈ text.head?, ¬ isBlank c) ∧ ∀ c ∈ text.getLast?, ¬ isBlank c

theorem trim_eq (text : List Char) : trim text = (text.dropWhile isBlank).rdropWhile isBlank := rfl

theorem trim_sublist (text : List Char) : (trim text).Sublist text :=
  (List.rdropWhile_prefix _ _).sublist.trans (List.dropWhile_sublist _)

theorem head?_dropWhile_isBlank {text : List Char} {c : Char}
    (first : (text.dropWhile isBlank).head? = some c) : ¬ isBlank c := by
  have visible := List.head?_dropWhile_not isBlank text
  rw [first] at visible
  simpa using visible

/-- Trimming does not change which character comes first, unless nothing is left. -/
theorem head?_trim {text : List Char} {c : Char} (first : (trim text).head? = some c) :
    (text.dropWhile isBlank).head? = some c := by
  obtain ⟨rest, same⟩ := List.rdropWhile_prefix isBlank (text.dropWhile isBlank)
  rw [← same, ← trim_eq, List.head?_append, first]
  rfl

theorem trimmed_trim (text : List Char) : Trimmed (trim text) := by
  refine ⟨fun c first => head?_dropWhile_isBlank (head?_trim first), fun c last => ?_⟩
  obtain ⟨filled, rfl⟩ := List.mem_getLast?_eq_getLast last
  exact List.rdropWhile_last_not _ _ filled

theorem Trimmed.trim_eq {text : List Char} (trimmed : Trimmed text) : trim text = text := by
  have front : text.dropWhile isBlank = text := by
    cases text with
    | nil => rfl
    | cons c rest => exact List.dropWhile_cons_of_neg (trimmed.1 c rfl)
  rw [Text.trim_eq, front, List.rdropWhile_eq_self_iff]
  exact fun filled => trimmed.2 _ (List.getLast?_eq_some_getLast filled)

theorem splitOn_eq (separator : Char) (text : List Char) :
    splitOn separator text = text.splitOn separator := by
  induction text with
  | nil => rfl
  | cons c rest ih =>
    rw [splitOn, List.splitOn_cons_eq_if_modifyHead, ih]
    by_cases same : c = separator
    · simp [same]
    · simp only [same, if_false, beq_iff_eq]
      obtain ⟨piece, pieces, pieces_eq⟩ := List.exists_cons_of_ne_nil (List.splitOn_ne_nil separator rest)
      rw [pieces_eq, List.modifyHead_cons]

/-- The pieces consist of the characters of the text that are no separators. -/
theorem mem_splitOn {separator : Char} {text : List Char} : ∀ {piece : List Char},
    piece ∈ splitOn separator text → ∀ c ∈ piece, c ∈ text ∧ c ≠ separator := by
  induction text with
  | nil => simp [splitOn]
  | cons first rest ih =>
    intro piece inside c character
    have later : ∀ {piece}, piece ∈ splitOn separator rest → c ∈ piece →
        c ∈ first :: rest ∧ c ≠ separator := fun inside character =>
      (ih inside c character).imp_left (List.mem_cons_of_mem _)
    rw [splitOn] at inside
    split at inside
    · rcases List.mem_cons.mp inside with rfl | inside
      · exact absurd character List.not_mem_nil
      · exact later inside character
    · next other =>
      split at inside
      · next front pieces split =>
        rcases List.mem_cons.mp inside with rfl | inside
        · rcases List.mem_cons.mp character with rfl | character
          · exact ⟨List.mem_cons_self, other⟩
          · exact later (split ▸ List.mem_cons_self) character
        · exact later (split ▸ List.mem_cons_of_mem _ inside) character
      · next split => exact absurd split (splitOn_ne_nil separator rest)

/-- The first piece is what the text begins with. -/
theorem append_of_splitOn {separator : Char} {text piece : List Char} {pieces : List (List Char)}
    (split : splitOn separator text = piece :: pieces) : ∃ rest, text = piece ++ rest := by
  rw [splitOn_eq] at split
  have joined : [separator].intercalate (text.splitOn separator) = text := List.intercalate_splitOn separator
  rw [split] at joined
  cases pieces with
  | nil => exact ⟨[], by simpa using joined.symm⟩
  | cons next pieces => exact ⟨_, by rw [← joined, List.intercalate_cons_cons, List.append_assoc]⟩

/-- What a field looks like when it is read. -/
structure IsField (field : List Char) : Prop where
  trimmed : Trimmed field
  tab : '\t' ∉ field
  newline : '\n' ∉ field

/-- A list of fields that a line can hold: the line is neither blank nor a comment. -/
structure IsRow (fields : List String) : Prop where
  field : ∀ field ∈ fields, IsField field.toList
  visible : ∃ first ∈ fields.head?, ∃ c ∈ first.toList.head?, c ≠ '#'

/-- A list of fields that a line can hold, of which none is empty. -/
structure IsLine (fields : List String) : Prop where
  ne_nil : fields ≠ []
  field : ∀ field ∈ fields, field ≠ "" ∧ IsField field.toList
  visible : ∀ first ∈ fields.head?, first.toList.head? ≠ some '#'

theorem IsLine.isRow {fields : List String} (line : IsLine fields) : IsRow fields where
  field field inside := (line.field field inside).2
  visible := by
    obtain ⟨first, rest, rfl⟩ := List.exists_cons_of_ne_nil line.ne_nil
    have filled := (line.field first List.mem_cons_self).1
    obtain ⟨c, letters, begins⟩ := List.exists_cons_of_ne_nil (mt String.toList_eq_nil_iff.mp filled)
    exact ⟨first, rfl, c, by rw [begins]; rfl, fun same => line.visible first rfl (by rw [begins, same]; rfl)⟩

theorem map_fields_numberRecords (lines : List (List Char)) : ∀ number,
    (numberRecords number lines).map (·.fields) = lines.filterMap fields? := by
  induction lines with
  | nil => exact fun _ => rfl
  | cons line lines ih =>
    intro number
    unfold numberRecords
    split
    · next fields found => rw [List.map_cons, ih, List.filterMap_cons_some found]
    · next none => rw [ih, List.filterMap_cons_none none]

theorem map_fields_records (text : String) :
    (records text).map (·.fields) = (splitOn '\n' text.toList).filterMap fields? :=
  map_fields_numberRecords _ 1

/-- A line that is neither blank nor a comment holds its pieces between tabs, trimmed. -/
theorem fields?_eq_some_iff {line : List Char} {fields : List String} : fields? line = some fields ↔
    (∃ c ∈ (line.dropWhile isBlank).head?, c ≠ '#') ∧
      fields = (splitOn '\t' line).map fun field => String.ofList (trim field) := by
  unfold fields?
  split
  · next blank => simp [blank]
  · next comment => simp [comment]
  · next filled visible =>
    obtain ⟨c, rest, same⟩ := List.exists_cons_of_ne_nil filled
    rw [same, Option.some.injEq]
    refine ⟨?_, ?_⟩
    · rintro rfl
      exact ⟨⟨c, rfl, fun number => visible rest (number ▸ same)⟩, rfl⟩
    · rintro ⟨-, rfl⟩
      rfl

theorem isField_of_mem_fields? {line : List Char} (newline : '\n' ∉ line) {fields : List String}
    (found : fields? line = some fields) {field : String} (inside : field ∈ fields) :
    IsField field.toList := by
  obtain ⟨-, rfl⟩ := fields?_eq_some_iff.mp found
  obtain ⟨piece, split, rfl⟩ := List.mem_map.mp inside
  rw [String.toList_ofList]
  have kept := fun c (character : c ∈ trim piece) => mem_splitOn split c ((trim_sublist piece).subset character)
  exact ⟨trimmed_trim piece, fun character => (kept _ character).2 rfl,
    fun character => newline (kept _ character).1⟩

/-- The fields of a line that was read make a line, unless one of them is empty. -/
theorem isLine_of_fields? {line : List Char} (newline : '\n' ∉ line) {fields : List String}
    (found : fields? line = some fields) (filled : "" ∉ fields) : IsLine fields := by
  have isField : ∀ field ∈ fields, IsField field.toList := fun _ => isField_of_mem_fields? newline found
  obtain ⟨⟨c, first, visible⟩, rfl⟩ := fields?_eq_some_iff.mp found
  refine ⟨?_, ?_, ?_⟩
  · simpa using splitOn_ne_nil _ _
  · exact fun field inside => ⟨fun empty => filled (empty ▸ inside), isField field inside⟩
  · intro field head begins
    obtain ⟨piece, pieces, split⟩ := List.exists_cons_of_ne_nil (splitOn_ne_nil '\t' line)
    obtain rfl : String.ofList (trim piece) = field := by simpa [split] using head
    rw [String.toList_ofList] at begins
    obtain ⟨rest, rfl⟩ := append_of_splitOn split
    have front := head?_trim begins
    have filled : piece.dropWhile isBlank ≠ [] := by
      rintro none
      cases none ▸ front
    rw [List.dropWhile_append, if_neg (by simpa using filled), List.head?_append, front] at first
    exact visible (Option.some.inj first).symm

theorem newline_not_mem_of_mem_splitOn {text line : List Char} (split : line ∈ splitOn '\n' text) :
    '\n' ∉ line :=
  fun character => (mem_splitOn split _ character).2 rfl

theorem exists_line_of_mem_records {text : String} {record : Record} (inside : record ∈ records text) :
    ∃ line ∈ splitOn '\n' text.toList, fields? line = some record.fields := by
  have listed : record.fields ∈ (splitOn '\n' text.toList).filterMap fields? :=
    map_fields_records text ▸ List.mem_map_of_mem inside
  exact List.mem_filterMap.mp listed

theorem fields_ne_nil {text : String} {record : Record} (inside : record ∈ records text) :
    record.fields ≠ [] := by
  obtain ⟨line, -, found⟩ := exists_line_of_mem_records inside
  rw [(fields?_eq_some_iff.mp found).2]
  simpa using splitOn_ne_nil _ _

theorem isField_of_mem_records {text : String} {record : Record} (inside : record ∈ records text)
    {field : String} (listed : field ∈ record.fields) : IsField field.toList := by
  obtain ⟨line, split, found⟩ := exists_line_of_mem_records inside
  exact isField_of_mem_fields? (newline_not_mem_of_mem_splitOn split) found listed

/-- What is read as a record is what a line can hold, unless a field is empty. -/
theorem isLine_of_mem_records {text : String} {record : Record} (inside : record ∈ records text)
    (filled : "" ∉ record.fields) : IsLine record.fields := by
  obtain ⟨line, split, found⟩ := exists_line_of_mem_records inside
  exact isLine_of_fields? (newline_not_mem_of_mem_splitOn split) found filled

/-- The lines of a text. A carriage return before a line feed belongs to no line, and the end of the text
after the last line feed is one only if it is not empty. -/
def lines (text : String) : List (List Char) :=
  let pieces := splitOn '\n' text.toList
  (pieces.dropLast.map fun piece => if piece.getLast? = some '\r' then piece.dropLast else piece) ++
    pieces.getLast?.toList.filter (· ≠ [])

private theorem trim_append_blank {c : Char} (blank : isBlank c) (text : List Char) :
    trim (text ++ [c]) = trim text := by
  rw [trim_eq, trim_eq, List.dropWhile_append]
  split
  · next empty =>
    rw [List.isEmpty_iff.mp empty, List.dropWhile_cons_of_pos blank]
    rfl
  · rw [List.rdropWhile_concat_pos _ _ _ blank]

private theorem splitOn_append_other {c separator : Char} (other : c ≠ separator) (text : List Char) :
    ∃ front last, splitOn separator text = front ++ [last] ∧
      splitOn separator (text ++ [c]) = front ++ [last ++ [c]] := by
  induction text with
  | nil => exact ⟨[], [], rfl, by simp [splitOn, other]⟩
  | cons first rest ih =>
    obtain ⟨front, last, before, after⟩ := ih
    rw [List.cons_append, splitOn, splitOn, before, after]
    split
    · exact ⟨[] :: front, last, rfl, rfl⟩
    · cases front with
      | nil => exact ⟨[], first :: last, rfl, rfl⟩
      | cons piece front => exact ⟨(first :: piece) :: front, last, rfl, rfl⟩

/-- A blank at the end of a line, unless it is a tab, changes nothing. -/
theorem fields?_append_blank {c : Char} (blank : isBlank c) (other : c ≠ '\t') (line : List Char) :
    fields? (line ++ [c]) = fields? line := by
  have first : ((line ++ [c]).dropWhile isBlank).head? = (line.dropWhile isBlank).head? := by
    rw [List.dropWhile_append]
    split
    · next empty =>
      rw [List.isEmpty_iff.mp empty, List.dropWhile_cons_of_pos blank]
      rfl
    · next filled =>
      rw [List.isEmpty_iff] at filled
      exact List.head?_append_of_ne_nil _ filled
  have pieces : (splitOn '\t' (line ++ [c])).map (fun field => String.ofList (trim field)) =
      (splitOn '\t' line).map fun field => String.ofList (trim field) := by
    obtain ⟨front, last, before, after⟩ := splitOn_append_other other line
    rw [before, after, List.map_append, List.map_append, List.map_singleton, List.map_singleton,
      trim_append_blank blank]
  refine Option.ext fun fields => ?_
  rw [fields?_eq_some_iff, fields?_eq_some_iff, first, pieces]

/-- The records of a text are what its lines hold. -/
theorem map_fields_records_eq (text : String) :
    (records text).map (·.fields) = (lines text).filterMap fields? := by
  have returned : ∀ piece : List Char,
      fields? (if piece.getLast? = some '\r' then piece.dropLast else piece) = fields? piece := by
    intro piece
    split
    · next last =>
      obtain ⟨front, rfl⟩ := List.getLast?_eq_some_iff.mp last
      rw [List.dropLast_concat, fields?_append_blank (by decide) (by decide)]
    · rfl
  rw [map_fields_records, lines]
  obtain ⟨front, last, split⟩ :=
    (List.eq_nil_or_concat (splitOn '\n' text.toList)).resolve_left (splitOn_ne_nil _ _)
  rw [List.concat_eq_append] at split
  simp only [split, List.dropLast_concat, List.getLast?_concat, List.filterMap_append, List.filterMap_map]
  congr 1
  · exact List.filterMap_congr fun piece _ => (returned piece).symm
  · cases last <;> rfl

private theorem toList_line (fields : List String) :
    ("\t".intercalate fields).toList = ['\t'].intercalate (fields.map String.toList) := by
  rw [String.toList_intercalate]
  rfl

theorem not_mem_intercalate {c separator : Char} (other : c ≠ separator) {pieces : List (List Char)}
    (absent : ∀ piece ∈ pieces, c ∉ piece) : c ∉ [separator].intercalate pieces := by
  induction pieces with
  | nil => exact List.not_mem_nil
  | cons piece pieces ih =>
    obtain ⟨here, rest⟩ := List.forall_mem_cons.mp absent
    cases pieces with
    | nil => rwa [List.intercalate_singleton]
    | cons next pieces =>
      simp only [List.intercalate_cons_cons, List.mem_append, List.mem_singleton, not_or]
      exact ⟨⟨here, other⟩, ih rest⟩

/-- The fields of a line are read back from it. -/
theorem IsRow.fields?_intercalate {fields : List String} (row : IsRow fields) :
    fields? ("\t".intercalate fields).toList = some fields := by
  obtain ⟨first, head, c, begins, visible⟩ := row.visible
  obtain ⟨rest, rfl⟩ : ∃ rest, fields = first :: rest := List.head?_eq_some_iff.mp head
  obtain ⟨letters, spelled⟩ : ∃ letters, first.toList = c :: letters := List.head?_eq_some_iff.mp begins
  have printed : ¬ isBlank c := (row.field first List.mem_cons_self).trimmed.1 c begins
  rw [toList_line, fields?_eq_some_iff]
  constructor
  · rw [List.map_cons, spelled, List.intercalate_cons_cons_left, List.dropWhile_cons_of_neg printed]
    exact ⟨c, rfl, visible⟩
  · have pieces : splitOn '\t' (['\t'].intercalate ((first :: rest).map String.toList)) =
        (first :: rest).map String.toList := by
      rw [splitOn_eq]
      refine List.splitOn_intercalate '\t' ?_ (by simp)
      intro piece inside
      obtain ⟨field, listed, rfl⟩ := List.mem_map.mp inside
      exact (row.field field listed).tab
    rw [pieces, List.map_map]
    refine (List.map_id _).symm.trans (List.map_congr_left fun field listed => ?_)
    simp [(row.field field listed).trimmed.trim_eq]

theorem IsRow.newline {fields : List String} (row : IsRow fields) :
    '\n' ∉ ("\t".intercalate fields).toList := by
  rw [toList_line]
  refine not_mem_intercalate (by decide) fun piece inside => ?_
  obtain ⟨field, listed, rfl⟩ := List.mem_map.mp inside
  exact (row.field field listed).newline

/-- The lines of a text, each with a line feed behind it, and the empty rest. -/
theorem splitOn_join {rows : List (List String)} (printable : ∀ row ∈ rows, IsRow row) :
    splitOn '\n' (String.join (rows.map fun fields => "\t".intercalate fields ++ "\n")).toList =
      (rows.map fun fields => ("\t".intercalate fields).toList) ++ [[]] := by
  induction rows with
  | nil => rfl
  | cons fields rows ih =>
    obtain ⟨row, rest⟩ := List.forall_mem_cons.mp printable
    have ih := ih rest
    rw [splitOn_eq] at ih ⊢
    rw [List.map_cons, String.join_cons, String.toList_append, String.toList_append, List.append_assoc]
    refine (List.splitOn_append_cons_self_of_not_mem row.newline _).trans ?_
    exact congrArg (List.cons _) ih

/-- Lines with a line feed behind each are read back as records. -/
theorem map_fields_records_join {rows : List (List String)} (printable : ∀ row ∈ rows, IsRow row) :
    (records (String.join (rows.map fun fields => "\t".intercalate fields ++ "\n"))).map (·.fields) =
      rows := by
  have fields : (rows.map fun fields => ("\t".intercalate fields).toList).filterMap fields? = rows := by
    rw [List.filterMap_map]
    refine (List.filterMap_congr fun row inside => ?_).trans List.filterMap_some
    exact (printable row inside).fields?_intercalate
  rw [map_fields_records, splitOn_join printable, List.filterMap_append, fields]
  exact List.append_nil rows

end GrammarReach.Text
