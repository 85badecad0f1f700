import GrammarReach.Text.Numeral
import GrammarReach.Yaml.Node

/-!
Reading the nodes of a YAML document as values of simple types and as records.

Only a plain scalar can be a number, a truth value or null; a literal one can too when its tag says
so. Every scalar can be a text, whatever it looks like.
-/

namespace GrammarReach.Yaml

def nullTag : String := "tag:yaml.org,2002:null"
def boolTag : String := "tag:yaml.org,2002:bool"
def intTag : String := "tag:yaml.org,2002:int"

/-- Whether a word is a spelling of null. -/
def isNullWord (text : String) : Bool := ["null", "Null", "NULL", "~"].contains text

/-- The truth value that a word spells. -/
def boolWord? (text : String) : Option Bool :=
  if ["true", "True", "TRUE"].contains text then some true
  else if ["false", "False", "FALSE"].contains text then some false
  else none

/-- Whether a text is a zero and further digits, behind a sign or without one. Such a text is no
number. -/
def isPaddedDigits (text : List Char) : Bool :=
  let digits := match text with
    | '-' :: rest | '+' :: rest => rest
    | _ => text
  2 ≤ digits.length && digits.head? == some '0' && digits.all Char.isDigit

/-- The text behind the mark of a base other than ten, and that base. -/
def basedDigits? : List Char → Option (Nat × List Char)
  | '0' :: 'x' :: digits => some (16, digits)
  | '0' :: 'o' :: digits => some (8, digits)
  | '0' :: 'b' :: digits => some (2, digits)
  | _ => none

/-- The number below a bound that a word spells: maybe a plus sign, then digits, in base ten or behind
the mark of another base. -/
def naturalWord? (bound : Nat) (text : String) : Option Nat :=
  let unsigned := match text.toList with
    | '+' :: rest => rest
    | chars => chars
  match basedDigits? unsigned with
  | some (base, digits) => Text.numeral? base bound digits
  | none => if isPaddedDigits text.toList then none else Text.numeral? 10 bound unsigned

namespace Node

def text? : Node → Option String
  | .scalar _ _ text => some text
  | _ => none

/-- The text of a scalar that can be something else than a text: a plain one, or a literal one with
the given tag. -/
def word? (expected : String) : Node → Option String
  | .scalar _ .plain text => some text
  | .scalar (some tag) .literal text => if tag = expected then some text else none
  | _ => none

def bool? (node : Node) : Option Bool := (node.word? boolTag).bind boolWord?

/-- Reads a whole number below a bound. -/
def natural? (bound : Nat) (node : Node) : Option Nat :=
  (node.word? intTag).bind (naturalWord? bound)

/-- Reads a value that may be null. A plain scalar that is empty or spells null is null, unless it has
a tag; with the tag of null it can be nothing else. -/
def nullable? {α : Type} (read : Node → Option α) (node : Node) : Option (Option α) :=
  match node with
  | .scalar none .plain text =>
    if text.isEmpty || isNullWord text then some none else (read node).map some
  | .scalar (some tag) .plain text =>
    if tag = nullTag then (if isNullWord text then some none else none) else (read node).map some
  | _ => (read node).map some

/-- Reads a name: the text of a scalar, or its tag behind an exclamation mark where there is nothing
else. -/
def name? : Node → Option String
  | .scalar tag? style text =>
    match tag?.map String.toList with
    | some ('!' :: name) =>
      if style = .plain ∧ (text.isEmpty ∨ isNullWord text) then some (String.ofList name) else none
    | _ => some text
  | _ => none

/-- Whether a node was left out, and stands for an empty collection where one is expected. -/
def isLeftOut : Node → Bool
  | .scalar _ .plain text => text.isEmpty
  | _ => false

def items? : Node → Option (List Node)
  | .sequence items => some items
  | node => if node.isLeftOut then some [] else none

def entries? : Node → Option (List (Node × Node))
  | .mapping entries => some entries
  | node => if node.isLeftOut then some [] else none

def list? {α : Type} (read : Node → Option α) (node : Node) : Option (List α) := do
  (← node.items?).mapM read

/-- Reads a mapping as a record with the given field names, each of which may occur once. -/
def record? (names : List String) (node : Node) : Option (List (String × Node)) := do
  let members ← (← node.entries?).mapM fun (key, value) => key.text?.map fun name => (name, value)
  let keys := members.map (·.1)
  if keys.all names.contains && keys.eraseDups.length == keys.length then some members else none

/-- Reads the field of a record, or answers the default where it is left out. -/
def field? {α : Type} (members : List (String × Node)) (name : String) (default : α)
    (read : Node → Option α) : Option α :=
  match members.find? (·.1 == name) with
  | some (_, value) => read value
  | none => some default

end Node

end GrammarReach.Yaml
