import GrammarReach.Json.Basic
import GrammarReach.Text.Numeral

/-!
Reading JSON values as records and simple types.

A record is an object without unknown members, or an array of the values of its first fields. A field
that is left out keeps its default.
-/

namespace GrammarReach.Json

/-- The members of a record with the given field names. -/
def record? (names : List String) : Json → Option (List (String × Json))
  | .object members => if members.all (names.contains ·.1) then some members else none
  | .array items => if items.length ≤ names.length then some (names.zip items) else none
  | _ => none

/-- Reads the field of a record, or answers the default where it is left out. -/
def field? {α : Type} (members : List (String × Json)) (name : String) (default : α)
    (read : Json → Option α) : Option α :=
  match members.find? (·.1 == name) with
  | some (_, value) => read value
  | none => some default

def bool? : Json → Option Bool
  | .bool value => some value
  | _ => none

/-- A whole number of at most 64 bits. -/
def long? : Json → Option Nat
  | .int value => if 0 ≤ value ∧ value < Text.longBound then some value.toNat else none
  | _ => none

def string? : Json → Option String
  | .string value => some value
  | _ => none

def list? {α : Type} (read : Json → Option α) : Json → Option (List α)
  | .array items => items.mapM read
  | _ => none

def nullable? {α : Type} (read : Json → Option α) : Json → Option (Option α)
  | .null => some none
  | value => (read value).map some

/-- A name: a string, or an object whose single member has the name for a key and null for a value. -/
def name? : Json → Option String
  | .string name => some name
  | .object [(name, .null)] => some name
  | _ => none

end GrammarReach.Json
