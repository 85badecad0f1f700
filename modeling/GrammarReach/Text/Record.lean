import GrammarReach.Text.Blank

/-!
Line records: one record a line, fields separated by tabs.

Blank lines and lines whose first visible character is a number sign are no records. The blanks
around a field do not belong to it, so a carriage return before the line feed is dropped with them.
-/

namespace GrammarReach.Text

/-- The pieces of a text between the occurrences of a separator; there is always one more of them
than there are separators. -/
def splitOn (separator : Char) : List Char → List (List Char)
  | [] => [[]]
  | c :: rest =>
    if c = separator then [] :: splitOn separator rest
    else
      match splitOn separator rest with
      | piece :: pieces => (c :: piece) :: pieces
      | [] => [[c]]

/-- A record: the number of its line, counted from one, and its fields. -/
structure Record where
  line : Nat
  fields : List String

/-- The fields of a line, without the blanks around them; none for a blank line or a comment. -/
def fields? (line : List Char) : Option (List String) :=
  match line.dropWhile isBlank with
  | [] => none
  | '#' :: _ => none
  | _ => some ((splitOn '\t' line).map fun field => String.ofList (trim field))

/-- Numbers lines from the given one on and keeps the records among them. -/
def numberRecords : Nat → List (List Char) → List Record
  | _, [] => []
  | number, line :: rest =>
    match fields? line with
    | some fields => ⟨number, fields⟩ :: numberRecords (number + 1) rest
    | none => numberRecords (number + 1) rest

/-- The records of a text, in order. -/
def records (text : String) : List Record := numberRecords 1 (splitOn '\n' text.toList)

theorem splitOn_ne_nil (separator : Char) (text : List Char) : splitOn separator text ≠ [] := by
  cases text with
  | nil => simp [splitOn]
  | cons c rest =>
    unfold splitOn
    split
    · simp
    · split <;> simp

end GrammarReach.Text
