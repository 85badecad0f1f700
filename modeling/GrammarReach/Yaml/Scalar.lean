import GrammarReach.Text.Numeral
import GrammarReach.Yaml.Cursor

/-!
Scanning the scalars of a YAML document.

Within a plain or a quoted scalar a single break reads as a blank, and breaks behind the first one of
a run are kept. A block scalar keeps its lines, or folds them in the same way, and its last break
stays or goes as its header says.
-/

namespace GrammarReach.Yaml

/-- The blanks and breaks between two words of a scalar. -/
structure Gap where
  blanks : List Char := []
  /-- Whether there was a break. Blanks count up to the first one only. -/
  broken : Bool := false
  firstBreak : List Char := []
  furtherBreaks : List Char := []

namespace Gap

/-- What a gap reads as. -/
def text (gap : Gap) : List Char :=
  if gap.broken then
    if gap.firstBreak = ['\n'] then
      if gap.furtherBreaks.isEmpty then [' '] else gap.furtherBreaks
    else gap.firstBreak ++ gap.furtherBreaks
  else gap.blanks

/-- Extends a gap by the blanks and breaks from here on. Behind a break, a tab before the column
`least` is a fault. -/
def extend (least : Nat) : Nat → Cursor → Gap → Except DocumentFault (Gap × Cursor)
  | 0, cursor, gap => .ok (gap, cursor)
  | bound + 1, cursor, gap =>
    match cursor.head? with
    | none => .ok (gap, cursor)
    | some c =>
      if isBlank c then
        if gap.broken && cursor.column < least && c == '\t' then .error .malformed
        else
          extend least bound (cursor.skip 1)
            (if gap.broken then gap else { gap with blanks := gap.blanks ++ [c] })
      else if isBreak c then
        extend least bound cursor.nextLine
          (if gap.broken then { gap with furtherBreaks := gap.furtherBreaks ++ [c] }
            else { broken := true, firstBreak := [c] })
      else .ok (gap, cursor)

end Gap

/-- Whether a plain scalar ends at a character. -/
def endsPlain (inFlow : Bool) (c : Char) (next? : Option Char) : Bool :=
  (c == ':' && endsWord next?) || (inFlow && [',', '[', ']', '{', '}'].contains c)

/-- Whether a colon stands where a flow collection has no place for it. -/
def strayColon (inFlow : Bool) (c : Char) (next? : Option Char) : Bool :=
  inFlow && c == ':' && next?.any ([',', '?', '[', ']', '{', '}'].contains ·)

/-- The word of a plain scalar at the beginning of a text. -/
def plainWord (inFlow : Bool) : List Char → Except DocumentFault (List Char)
  | [] => .ok []
  | c :: rest =>
    if isBlank c || isBreak c then .ok []
    else if strayColon inFlow c rest.head? then .error .malformed
    else if endsPlain inFlow c rest.head? then .ok []
    else do return c :: (← plainWord inFlow rest)

/-- A scanned scalar, the place behind it, and whether a break was passed after its last word. -/
structure Scanned where
  text : List Char
  cursor : Cursor
  broken : Bool := false

/-- Scans a plain scalar on from a place between two words. Lines that begin before the column
`least` do not belong to it, unless it stands in a flow collection. -/
def plainFrom (inFlow : Bool) (least : Nat) :
    Nat → Cursor → Gap → List Char → Except DocumentFault Scanned
  | 0, cursor, gap, text => .ok { text, cursor, broken := gap.broken }
  | bound + 1, cursor, gap, text =>
    if cursor.atDocumentMark || cursor.head? == some '#' then
      .ok { text, cursor, broken := gap.broken }
    else do
      let word ← plainWord inFlow cursor.rest
      let cursor := cursor.skip word.length
      let (text, gap) := if word.isEmpty then (text, gap) else (text ++ gap.text ++ word, {})
      if cursor.head?.all fun c => !isBlank c && !isBreak c then
        return { text, cursor, broken := gap.broken }
      let (gap, cursor) ← gap.extend least cursor.rest.length cursor
      if !inFlow && cursor.column < least then return { text, cursor, broken := gap.broken }
      plainFrom inFlow least bound cursor gap text

def scanPlain (inFlow : Bool) (least : Nat) (cursor : Cursor) : Except DocumentFault Scanned :=
  plainFrom inFlow least (cursor.rest.length + 1) cursor {} []

/-- The character that an escape of one letter stands for. -/
def shortEscape? (letter : Char) : Option Char :=
  let codes : List (Char × Nat) :=
    [('0', 0), ('a', 7), ('b', 8), ('t', 9), ('\t', 9), ('n', 10), ('v', 11), ('f', 12), ('r', 13),
     ('e', 27), (' ', 32), ('"', 34), ('/', 47), ('\\', 92), ('N', 0x85), ('_', 0xA0),
     ('L', 0x2028), ('P', 0x2029)]
  (codes.find? (·.1 == letter)).map fun (_, code) => Char.ofNat code

/-- The number of hexadecimal digits behind the letter of an escape. -/
def escapeDigits (letter : Char) : Nat :=
  if letter = 'x' then 2 else if letter = 'u' then 4 else if letter = 'U' then 8 else 0

/-- The character that an escape stands for, and the number of digits behind its letter. -/
def escape? (letter : Char) (rest : List Char) : Option (Char × Nat) :=
  match shortEscape? letter with
  | some c => some (c, 0)
  | none => do
    let count := escapeDigits letter
    let digits := rest.take count
    guard (count ≠ 0 ∧ digits.length = count)
    let code ← Text.digitsValue? 16 0 digits
    if code.isValidChar then some (Char.ofNat code, count) else none

/-- Scans on to a blank, a break, or the closing quote. The flag tells that an escaped break was
passed. -/
def quotedWord (quote : Char) : Nat → Cursor → List Char → Except DocumentFault Scanned
  | 0, cursor, text => .ok { text, cursor }
  | bound + 1, cursor, text =>
    match cursor.rest with
    | [] => .ok { text, cursor }
    | c :: rest =>
      if isBlank c || isBreak c then .ok { text, cursor }
      else if c = quote then
        if quote = '\'' ∧ rest.head? = some quote then
          quotedWord quote bound (cursor.skip 2) (text ++ [quote])
        else .ok { text, cursor }
      else if c = '\\' ∧ quote = '"' then
        match rest with
        | [] => .error .malformed
        | letter :: digits =>
          if isBreak letter then .ok { text, cursor := (cursor.skip 1).nextLine, broken := true }
          else
            match escape? letter digits with
            | none => .error .malformed
            | some (c, count) => quotedWord quote bound (cursor.skip (2 + count)) (text ++ [c])
      else quotedWord quote bound (cursor.skip 1) (text ++ [c])

/-- Scans a quoted scalar on from a place between two words. -/
def quotedFrom (quote : Char) : Nat → Cursor → List Char → Except DocumentFault Scanned
  | 0, _, _ => .error .malformed
  | bound + 1, cursor, text =>
    if cursor.atDocumentMark || cursor.rest.isEmpty then .error .malformed
    else do
      let word ← quotedWord quote cursor.rest.length cursor text
      if word.cursor.head? = some quote then return { word with cursor := word.cursor.skip 1 }
      let gap : Gap := { broken := word.broken }
      let (gap, cursor) ← gap.extend 0 word.cursor.rest.length word.cursor
      quotedFrom quote bound cursor (word.text ++ gap.text)

/-- Scans a quoted scalar whose opening quote is here. -/
def scanQuoted (quote : Char) (cursor : Cursor) : Except DocumentFault Scanned :=
  quotedFrom quote (cursor.rest.length + 1) (cursor.skip 1) []

/-- What happens to the breaks at the end of a block scalar: all go, one stays, or all stay. -/
inductive Chomping where
  | strip
  | clip
  | keep
deriving DecidableEq

/-- What the header of a block scalar says. -/
structure BlockHeader where
  chomping : Chomping := .clip
  /-- The indentation of the lines, relative to that of the parent; zero if it is left open. -/
  increment : Nat := 0

/-- Reads the marks of a header: a chomping mark and a digit, each at most once, in any order. -/
def blockHeader (cursor : Cursor) : Except DocumentFault (BlockHeader × Cursor) :=
  let chomping? (cursor : Cursor) : Option Chomping :=
    if cursor.head? = some '+' then some .keep
    else if cursor.head? = some '-' then some .strip
    else none
  let digit? (cursor : Cursor) : Option Nat :=
    (cursor.head?.filter Char.isDigit).map fun c => c.toNat - '0'.toNat
  let checked (header : BlockHeader) (cursor : Cursor) (digit : Nat) :
      Except DocumentFault (BlockHeader × Cursor) :=
    if digit = 0 then .error .malformed else .ok ({ header with increment := digit }, cursor.skip 1)
  match chomping? cursor with
  | some chomping =>
    let cursor := cursor.skip 1
    match digit? cursor with
    | some digit => checked { chomping } cursor digit
    | none => .ok ({ chomping }, cursor)
  | none =>
    match digit? cursor with
    | none => .ok ({}, cursor)
    | some digit => do
      let (header, cursor) ← checked {} cursor digit
      match chomping? cursor with
      | some chomping => return ({ header with chomping }, cursor.skip 1)
      | none => return (header, cursor)

/-- The empty lines before a line of a block scalar, and the widest indentation met on the way. -/
structure BlockGap where
  breaks : List Char := []
  widest : Nat := 0
  cursor : Cursor

/-- Passes over empty lines and the indentation behind them. With `indent` zero, the indentation is
still open. -/
def BlockGap.extend (indent : Nat) : Nat → BlockGap → Except DocumentFault BlockGap
  | 0, gap => .ok gap
  | bound + 1, gap =>
    let spaces := (gap.cursor.rest.takeWhile (· == ' ')).length
    let wanted := if indent = 0 then spaces else min spaces (indent - gap.cursor.column)
    let cursor := gap.cursor.skip wanted
    let widest := max gap.widest cursor.column
    if (indent == 0 || cursor.column < indent) && cursor.head? == some '\t' then .error .malformed
    else
      match cursor.head? with
      | some c =>
        if isBreak c then
          extend indent bound { breaks := gap.breaks ++ [c], widest, cursor := cursor.nextLine }
        else .ok { gap with widest, cursor }
      | none => .ok { gap with widest, cursor }

/-- A block scalar that is being put together. -/
structure BlockText where
  text : List Char := []
  /-- The break of the latest line. -/
  lastBreak : List Char := []
  /-- The breaks of the empty lines behind it. -/
  emptyLines : List Char := []
  /-- Whether the latest line began with a blank. -/
  blankLine : Bool := false

/-- Adds a line. Folding drops the break before it, or makes it a blank, unless one of the two lines
begins with a blank. -/
def BlockText.addLine (folded : Bool) (block : BlockText) (line : List Char) : BlockText :=
  let blankLine := line.head?.any isBlank
  let joint :=
    if folded && block.lastBreak == ['\n'] && !block.blankLine && !blankLine then
      if block.emptyLines.isEmpty then [' '] else []
    else block.lastBreak
  { text := block.text ++ joint ++ block.emptyLines ++ line, blankLine }

/-- The text that is left after chomping. -/
def BlockText.chomp (block : BlockText) : Chomping → List Char
  | .strip => block.text
  | .clip => block.text ++ block.lastBreak
  | .keep => block.text ++ block.lastBreak ++ block.emptyLines

/-- Scans the lines of a block scalar that stand at its indentation. -/
def blockFrom (folded : Bool) (indent : Nat) :
    Nat → Cursor → BlockText → Except DocumentFault (BlockText × Cursor)
  | 0, cursor, block => .ok (block, cursor)
  | bound + 1, cursor, block =>
    if cursor.column = indent ∧ !cursor.rest.isEmpty then do
      let (line, cursor) := cursor.span (!isBreak ·)
      let block := block.addLine folded line
      let lastBreak := cursor.head?.toList
      let gap ← BlockGap.extend indent cursor.rest.length { cursor := cursor.nextLine }
      blockFrom folded indent bound gap.cursor { block with lastBreak, emptyLines := gap.breaks }
    else .ok (block, cursor)

/-- Scans a block scalar whose mark is here, inside a collection whose entries stand before the
column `least`. -/
def scanBlock (folded : Bool) (least : Nat) (cursor : Cursor) : Except DocumentFault Scanned := do
  let (header, cursor) ← blockHeader (cursor.skip 1)
  let cursor ← cursor.finishLine
  let given := if header.increment = 0 then 0 else (least - 1) + header.increment
  let gap ← BlockGap.extend given (cursor.rest.length + 1) { cursor }
  let indent := if given = 0 then max gap.widest (max least 1) else given
  let (block, cursor) ← blockFrom folded indent (cursor.rest.length + 1) gap.cursor
    { emptyLines := gap.breaks }
  return { text := block.chomp header.chomping, cursor, broken := true }

end GrammarReach.Yaml
