import GrammarReach.Decimal.Binary64
import GrammarReach.Yaml.Value

/-!
The text of YAML nodes.

Collections are written in blocks of two blanks. A scalar keeps its style where its characters allow
that, and takes quotes where they do not. A text that would read as something else, or did in older
versions of YAML, is quoted.
-/

namespace GrammarReach.Yaml

/-- The spellings of truth values that older versions of YAML know. -/
def oldBoolWords : List String :=
  ["y", "Y", "yes", "Yes", "YES", "n", "N", "no", "No", "NO", "true", "True", "TRUE", "false",
    "False", "FALSE", "on", "On", "ON", "off", "Off", "OFF"]

/-- The number of whole numbers of either sign that readers know. -/
def widestBound : Nat := Nat.pow 2 128

/-- Whether a text spells a whole number below zero, or minus zero. -/
def isNegativeWord (text : String) : Bool :=
  match text.toList with
  | '-' :: rest =>
    let (base, digits) := (basedDigits? rest).getD (10, rest)
    !isPaddedDigits text.toList && (Text.numeral? base (widestBound / 2 + 1) digits).isSome
  | _ => false

/-- Whether a text spells a number with a point or a scale. -/
def isFloatWord (text : String) : Bool :=
  let unsigned := match text.toList with
    | '+' :: rest => if ['+', '-'].contains (rest.headD ' ') then [] else rest
    | chars => chars
  [".inf", ".Inf", ".INF"].contains (String.ofList unsigned) ||
    ["-.inf", "-.Inf", "-.INF", ".nan", ".NaN", ".NAN"].contains text ||
    match Decimal.Binary64.parse? (String.ofList unsigned) with
    | some (.finite ..) => true
    | _ => false

/-- Whether a plain scalar of a text would not surely read as this text. -/
def isAmbiguous (text : String) : Bool :=
  text.isEmpty || isNullWord text || oldBoolWords.contains text ||
    (naturalWord? widestBound text).isSome || isNegativeWord text || isPaddedDigits text.toList ||
    isFloatWord text

/-- The style that suits a text, whatever characters it has. -/
def suitableStyle (text : String) : ScalarStyle :=
  if text.toList.contains '\n' then .literal
  else if isAmbiguous text then .singleQuoted
  else .plain

def Node.ofText (text : String) : Node := .scalar none (suitableStyle text) text

/-- Whether a character shows as itself. The others need an escape. -/
def isPrintable (c : Char) : Bool :=
  let code := c.toNat
  code == 0x0A || (0x20 ≤ code && code ≤ 0x7E) || (0xA0 ≤ code && code ≤ 0xFFFD && code != 0xFEFF)

/-- Whether a character begins something else than a plain scalar, given the one behind it. -/
def beginsOther (c : Char) (next? : Option Char) : Bool :=
  ['#', ',', '[', ']', '\x7b', '\x7d', '&', '*', '!', '|', '>', '\'', '"', '%', '@', '\x60'].contains c ||
    (['?', ':', '-'].contains c && endsWord next?)

/-- Whether a plain scalar would end within a text, at a colon before a blank or at a number sign behind
one. -/
def endsWithin (afterBlank : Bool) : List Char → Bool
  | [] => false
  | c :: rest =>
    (c == ':' && endsWord rest.head?) || (c == '#' && afterBlank) ||
      endsWithin (isBlank c || isBreak c) rest

/-- Whether a text has a mark where it would not read as part of a plain scalar. -/
def hasIndicator (text : List Char) : Bool :=
  ["---", "..."].contains (String.ofList (text.take 3)) ||
    text.head?.any (beginsOther · text.tail.head?) || endsWithin true text

/-- Whether a character with a property is followed by one with another. -/
def hasPair (first second : Char → Bool) (text : List Char) : Bool :=
  (text.zip text.tail).any fun (a, b) => first a && second b

/-- Whether a text can be written as a plain scalar. -/
def allowsPlain (text : List Char) : Bool :=
  text.all (fun c => isPrintable c && !isBreak c) && text.head? != some ' ' &&
    text.getLast? != some ' ' && !hasIndicator text

/-- Whether a text can be written between single quotes. -/
def allowsSingleQuotes (text : List Char) : Bool :=
  text.all isPrintable && !hasPair (· == ' ') isBreak text && !hasPair isBreak (· == ' ') text

/-- Whether a text can be written as a literal scalar. -/
def allowsLiteral (text : List Char) : Bool :=
  text.all isPrintable && !hasPair (· == ' ') isBreak text && text.getLast? != some ' '

/-- The style in which a text is written, where another one is asked for. -/
def allowedStyle (style : ScalarStyle) (text : List Char) : ScalarStyle :=
  let quoted := if allowsSingleQuotes text then .singleQuoted else .doubleQuoted
  match style with
  | .plain => if allowsPlain text then .plain else quoted
  | .singleQuoted => quoted
  | .doubleQuoted => .doubleQuoted
  | .literal | .folded => if allowsLiteral text then .literal else .doubleQuoted

/-- The letter of the escape of a character, for the characters that have one. -/
def escapeLetter? (c : Char) : Option Char :=
  let letters : List (Nat × Char) :=
    [(0, '0'), (7, 'a'), (8, 'b'), (9, 't'), (10, 'n'), (11, 'v'), (12, 'f'), (13, 'r'), (27, 'e'),
     (34, '"'), (92, '\\'), (0x85, 'N'), (0x2028, 'L'), (0x2029, 'P')]
  (letters.find? (·.1 == c.toNat)).map (·.2)

/-- Hexadecimal digits in upper case, as many as asked for. -/
def hexDigits (width value : Nat) : List Char :=
  let digits := (Nat.toDigits 16 value).map Char.toUpper
  List.replicate (width - digits.length) '0' ++ digits

/-- A character between double quotes. -/
def escapeChar (c : Char) : List Char :=
  match escapeLetter? c with
  | some letter => ['\\', letter]
  | none =>
    if isPrintable c then [c]
    else if c.toNat < 0x100 then '\\' :: 'x' :: hexDigits 2 c.toNat
    else if c.toNat < 0x10000 then '\\' :: 'u' :: hexDigits 4 c.toNat
    else '\\' :: 'U' :: hexDigits 8 c.toNat

/-- Puts two blanks before every line that is not empty. The flag tells whether a line begins at the
beginning of the text. -/
def indentLines (lineStart : Bool) : List Char → List Char
  | [] => []
  | c :: rest =>
    if isBreak c then c :: indentLines true rest
    else if lineStart then ' ' :: ' ' :: c :: indentLines false rest
    else c :: indentLines false rest

/-- Two blanks before every line. -/
def indent (text : List Char) : List Char := indentLines true text

/-- Two blanks before every line but the first one. -/
def hang (text : List Char) : List Char := indentLines false text

/-- Ends the last line of a text. -/
def endLine (text : List Char) : List Char :=
  if text.getLast?.any isBreak then text else text ++ ['\n']

/-- The header of a literal scalar: the indentation where the first line does not show it, and what
happens to the breaks at the end. -/
def literalHeader (text : List Char) : List Char :=
  let indentation := if text.head?.any fun c => c == ' ' || isBreak c then ['2'] else []
  let chomping := match text.reverse with
    | last :: before =>
      if !isBreak last then ['-'] else if before.head?.all isBreak then ['+'] else []
    | [] => ['-']
  '|' :: indentation ++ chomping

/-- The text of a scalar, on a line that has begun. Further lines stand as if the parent of the scalar
had no indentation. -/
def scalarText (style : ScalarStyle) (text : List Char) : List Char :=
  match allowedStyle style text with
  | .plain => text
  | .singleQuoted =>
    let doubled := text.flatMap fun c => if c = '\'' then ['\'', '\''] else [c]
    '\'' :: doubled ++ ['\'']
  | .doubleQuoted => '"' :: text.flatMap escapeChar ++ ['"']
  | .literal | .folded => literalHeader text ++ ['\n'] ++ text

/-- The place of a node: behind the mark of an item of a sequence, or behind the key of an entry. -/
inductive Place where
  | root
  | item
  | entry
deriving DecidableEq

mutual

/-- The lines of a node at a place, without the indentation of the collection around it. -/
def Node.lines (place : Place) : Node → List Char
  | .scalar _ style text =>
    let body := endLine (scalarText style text.toList)
    if place = .root then hang body else ' ' :: hang body
  | .sequence [] => if place = .root then ['[', ']', '\n'] else [' ', '[', ']', '\n']
  | .sequence (item :: items) =>
    let body := itemLines (item :: items)
    match place with
    | .root => body
    | .item => ' ' :: hang body
    | .entry => '\n' :: body
  | .mapping [] =>
    if place = .root then ['\x7b', '\x7d', '\n'] else [' ', '\x7b', '\x7d', '\n']
  | .mapping (entry :: entries) =>
    let body := entryLines (entry :: entries)
    match place with
    | .root => body
    | .item => ' ' :: hang body
    | .entry => '\n' :: indent body

def itemLines : List Node → List Char
  | [] => []
  | item :: items => '-' :: item.lines .item ++ itemLines items

/-- The lines of the entries of a mapping. Keys are scalars of one line. -/
def entryLines : List (Node × Node) → List Char
  | [] => []
  | (key, value) :: entries =>
    (match key with
      | .scalar _ _ name => scalarText .plain name.toList
      | _ => []) ++ ':' :: value.lines .entry ++ entryLines entries

end

def Node.toText (node : Node) : String := String.ofList (node.lines .root)

end GrammarReach.Yaml
