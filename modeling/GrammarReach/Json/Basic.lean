import GrammarReach.Decimal.Shortest

namespace GrammarReach

/-- A JSON value. Whole numbers are kept apart from the others. -/
inductive Json where
  | null
  | bool (value : Bool)
  | int (value : Int)
  | float (value : Decimal.Binary64)
  | string (value : String)
  | array (items : List Json)
  | object (members : List (String × Json))
deriving Inhabited

namespace Json

def nat (value : Nat) : Json := .int value

/-- The escape of a character inside a string: the short ones where JSON has them, four digits for
every other control character, and the character itself otherwise. -/
def escapeChar (c : Char) : List Char :=
  if c = '"' then ['\\', '"']
  else if c = '\\' then ['\\', '\\']
  else if c = '\n' then ['\\', 'n']
  else if c = '\r' then ['\\', 'r']
  else if c = '\t' then ['\\', 't']
  else if c.toNat = 8 then ['\\', 'b']
  else if c.toNat = 12 then ['\\', 'f']
  else if c.toNat < 32 then
    let digits := Nat.toDigits 16 c.toNat
    ['\\', 'u'] ++ List.replicate (4 - digits.length) '0' ++ digits
  else [c]

/-- A string between quotes. -/
def quote (text : String) : String :=
  "\"" ++ String.ofList (text.toList.flatMap escapeChar) ++ "\""

/-- A line break and the blanks that open a line of the given level. -/
def newline (level : Nat) : String := "\n" ++ "".pushn ' ' (2 * level)

/-- A number that is not finite has no JSON form and is written as null. -/
def renderFloat (value : Decimal.Binary64) : String := value.shortest?.getD "null"

mutual

/-- The indented text of a value that stands on a line of the given level. -/
def render (level : Nat) : Json → String
  | .null => "null"
  | .bool value => if value then "true" else "false"
  | .int value => toString value
  | .float value => renderFloat value
  | .string value => quote value
  | .array [] => "[]"
  | .array (item :: items) =>
    "[" ++ newline (level + 1) ++ render (level + 1) item ++ renderItems (level + 1) items ++
      newline level ++ "]"
  | .object [] => "\x7b\x7d"
  | .object ((key, value) :: members) =>
    "\x7b" ++ newline (level + 1) ++ quote key ++ ": " ++ render (level + 1) value ++
      renderMembers (level + 1) members ++ newline level ++ "\x7d"

/-- The items behind the first one, each on a line of its own. -/
def renderItems (level : Nat) : List Json → String
  | [] => ""
  | item :: items => "," ++ newline level ++ render level item ++ renderItems level items

/-- The members behind the first one, each on a line of its own. -/
def renderMembers (level : Nat) : List (String × Json) → String
  | [] => ""
  | (key, value) :: members =>
    "," ++ newline level ++ quote key ++ ": " ++ render level value ++ renderMembers level members

end

def pretty (value : Json) : String := render 0 value

end Json

end GrammarReach
