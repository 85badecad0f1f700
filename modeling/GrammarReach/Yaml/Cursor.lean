import GrammarReach.Error

/-!
A place in the text of a YAML document, and the classes of its characters.

Line breaks of one or two control characters are written as a line feed before anything else looks at
the text, so a break is a line feed or one of the two separators.
-/

namespace GrammarReach.Yaml

/-- Whether a document may hold a character. -/
def isAllowed (c : Char) : Bool :=
  let code := c.toNat
  code == 0x09 || code == 0x0A || code == 0x0D || (0x20 ≤ code && code ≤ 0x7E) || code == 0x85 ||
    (0xA0 ≤ code && code ≤ 0xFFFD) || 0x10000 ≤ code

def isBlank (c : Char) : Bool := c == ' ' || c == '\t'

def isBreak (c : Char) : Bool := c == '\n' || c.toNat == 0x2028 || c.toNat == 0x2029

/-- A character of an anchor, of a tag handle or of the name of a directive. -/
def isNameChar (c : Char) : Bool := c.isAlphanum || c == '_' || c == '-'

/-- The mark that may begin a text and a line. -/
def byteOrderMark : Char := Char.ofNat 0xFEFF

/-- Writes the breaks that are control characters, and pairs of them, as line feeds. -/
def unifyBreaks : List Char → List Char
  | '\r' :: '\n' :: rest => '\n' :: unifyBreaks rest
  | c :: rest => (if c == '\r' || c.toNat == 0x85 then '\n' else c) :: unifyBreaks rest
  | [] => []

/-- Whether a word ends here: at a blank, at a break or at the end of the text. -/
def endsWord (next? : Option Char) : Bool := next?.all fun c => isBlank c || isBreak c

def endsLine (next? : Option Char) : Bool := next?.all isBreak

/-- What is left of a text, and where it begins. -/
structure Cursor where
  rest : List Char
  index : Nat := 0
  line : Nat := 0
  column : Nat := 0

namespace Cursor

def head? (cursor : Cursor) : Option Char := cursor.rest.head?

/-- The character at a distance from here. -/
def at? (cursor : Cursor) (distance : Nat) : Option Char := cursor.rest[distance]?

/-- Passes over characters of the line. -/
def skip (cursor : Cursor) (count : Nat) : Cursor :=
  { cursor with
    rest := cursor.rest.drop count
    index := cursor.index + count
    column := cursor.column + count }

/-- Passes over a break, if there is one here. -/
def nextLine (cursor : Cursor) : Cursor :=
  if cursor.head?.any isBreak then
    { rest := cursor.rest.tail, index := cursor.index + 1, line := cursor.line + 1, column := 0 }
  else cursor

/-- The characters of the line from here on that pass a test, and the place behind them. -/
def span (cursor : Cursor) (test : Char → Bool) : List Char × Cursor :=
  let text := cursor.rest.takeWhile test
  (text, cursor.skip text.length)

def skipBlanks (cursor : Cursor) : Cursor := (cursor.span isBlank).2

def skipLine (cursor : Cursor) : Cursor := (cursor.span (!isBreak ·)).2

/-- Passes over blanks, a comment and the break; anything else in the line is a fault. -/
def finishLine (cursor : Cursor) : Except DocumentFault Cursor :=
  let cursor := cursor.skipBlanks
  let cursor := if cursor.head? = some '#' then cursor.skipLine else cursor
  if endsLine cursor.head? then .ok cursor.nextLine else .error .malformed

/-- Whether a line begins here with the three given characters as a word. -/
def beginsWith (cursor : Cursor) (mark : String) : Bool :=
  cursor.column == 0 && cursor.rest.take 3 == mark.toList && endsWord (cursor.at? 3)

/-- Whether a line begins here that opens or ends a document. -/
def atDocumentMark (cursor : Cursor) : Bool := cursor.beginsWith "---" || cursor.beginsWith "..."

end Cursor

end GrammarReach.Yaml
