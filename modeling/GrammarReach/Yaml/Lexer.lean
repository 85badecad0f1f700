import GrammarReach.Yaml.Scalar
import GrammarReach.Yaml.Tag

/-!
From the text of a YAML document to its tokens.

A key is recognised by the colon behind it only, so every place where one could begin is remembered,
and the tokens that announce a key are put in there when the colon comes. A key has to stand on one
line and to be short. Outside flow collections, columns open and close block collections.
-/

namespace GrammarReach.Yaml

/-- A place where a key may have begun. -/
structure KeyStart where
  /-- Whether nothing but a key can stand there. -/
  required : Bool
  /-- The number of tokens before it. -/
  position : Nat
  index : Nat
  line : Nat
  column : Nat

/-- A text that is being cut into tokens. -/
structure Lexer where
  cursor : Cursor
  tokens : Array Token := #[]
  /-- The column below which a new entry ends the innermost block collection; zero outside of all. -/
  least : Nat := 0
  /-- The same columns of the collections around it, the innermost first. -/
  outer : List Nat := []
  /-- The possible key of the current level. -/
  key? : Option KeyStart := none
  /-- The possible keys of the levels around the open flow collections, the innermost first. -/
  outerKeys : List (Option KeyStart) := []
  /-- Whether a key may begin here. -/
  keyAllowed : Bool := true

namespace Lexer

/-- The number of characters that a key may have. -/
def keyLimit : Nat := 1024

def inFlow (lexer : Lexer) : Bool := !lexer.outerKeys.isEmpty

def emit (lexer : Lexer) (token : Token) : Lexer := { lexer with tokens := lexer.tokens.push token }

/-- Adds a token of some characters. -/
def take (lexer : Lexer) (count : Nat) (token : Token) : Lexer :=
  { lexer.emit token with cursor := lexer.cursor.skip count }

/-- Opens a block collection at a column, unless one of that column or further right is open. Its
first token goes to a position among the tokens. -/
def openBlock (lexer : Lexer) (column position : Nat) (token : Token) : Lexer :=
  if lexer.inFlow || column + 1 ≤ lexer.least then lexer
  else
    { lexer with
      tokens := lexer.tokens.insertIdxIfInBounds position token
      least := column + 1
      outer := lexer.least :: lexer.outer }

/-- Closes the block collections whose column is `column + 1` or further right, at most `bound` of
them. -/
def closeBlocks (least : Nat) : Nat → Lexer → Lexer
  | 0, lexer => lexer
  | bound + 1, lexer =>
    if lexer.inFlow || lexer.least ≤ least then lexer
    else
      match lexer.outer with
      | [] => lexer
      | before :: outer =>
        closeBlocks least bound { lexer.emit .blockEnd with least := before, outer }

/-- Closes the block collections that a place does not belong to any more: all entries stand before
the column `least`. -/
def closeTo (lexer : Lexer) (least : Nat) : Lexer := closeBlocks least lexer.outer.length lexer

/-- Whether a key that began at a place could still be going on. -/
def isLive (lexer : Lexer) (key : KeyStart) : Bool :=
  key.line == lexer.cursor.line && lexer.cursor.index ≤ key.index + keyLimit

/-- Gives up a possible key. One that was required is a fault. -/
def dropKey (key? : Option KeyStart) : Except DocumentFault (Option KeyStart) :=
  if key?.any (·.required) then .error .malformed else .ok none

/-- Gives up the possible keys that are too long by now. -/
def dropStaleKeys (lexer : Lexer) : Except DocumentFault Lexer := do
  let check (key? : Option KeyStart) : Except DocumentFault (Option KeyStart) :=
    match key? with
    | none => .ok none
    | some key => if lexer.isLive key then .ok (some key) else dropKey (some key)
  return { lexer with
    key? := ← check lexer.key?
    outerKeys := ← lexer.outerKeys.mapM check }

/-- Remembers that a key may begin here. -/
def noteKey (lexer : Lexer) : Except DocumentFault Lexer := do
  if lexer.keyAllowed then
    let _ ← dropKey lexer.key?
    let cursor := lexer.cursor
    return { lexer with
      key? := some
        { required := !lexer.inFlow && lexer.least == cursor.column + 1
          position := lexer.tokens.size
          index := cursor.index
          line := cursor.line
          column := cursor.column } }
  else return lexer

/-- Gives up the possible key of the current level. -/
def endKey (lexer : Lexer) : Except DocumentFault Lexer := do
  return { lexer with key? := ← dropKey lexer.key? }

/-- Passes over blanks, comments and breaks. A tab counts as a blank only where no key may begin. -/
def skipToToken : Nat → Lexer → Lexer
  | 0, lexer => lexer
  | bound + 1, lexer =>
    let cursor := lexer.cursor
    let cursor :=
      if cursor.column = 0 ∧ cursor.head? = some byteOrderMark then cursor.skip 1 else cursor
    let tabs := lexer.inFlow || !lexer.keyAllowed
    let cursor := (cursor.span fun c => c == ' ' || (tabs && c == '\t')).2
    let cursor := if cursor.head? = some '#' then cursor.skipLine else cursor
    if cursor.head?.any isBreak then
      skipToToken bound
        { lexer with
          cursor := cursor.nextLine
          keyAllowed := lexer.keyAllowed || !lexer.inFlow }
    else { lexer with cursor }

/-- Ends everything that is open, before a directive, a document mark or the end of the text. -/
def endDocument (lexer : Lexer) : Except DocumentFault Lexer := do
  let lexer ← (lexer.closeTo 0).endKey
  return { lexer with keyAllowed := false }

/-- The start of a flow collection. -/
def openFlow (lexer : Lexer) (token : Token) : Except DocumentFault Lexer := do
  let lexer ← lexer.noteKey
  return { lexer.take 1 token with
    key? := none
    outerKeys := lexer.key? :: lexer.outerKeys
    keyAllowed := true }

/-- The end of a flow collection. -/
def closeFlow (lexer : Lexer) (token : Token) : Except DocumentFault Lexer := do
  let lexer ← lexer.endKey
  let lexer := { lexer.take 1 token with keyAllowed := false }
  match lexer.outerKeys with
  | [] => return lexer
  | key? :: outerKeys => return { lexer with key?, outerKeys }

/-- The comma of a flow collection. -/
def flowEntry (lexer : Lexer) : Except DocumentFault Lexer := do
  let lexer ← lexer.endKey
  return { lexer.take 1 .flowEntry with keyAllowed := true }

/-- The dash of a block sequence. -/
def blockEntry (lexer : Lexer) : Except DocumentFault Lexer := do
  if !lexer.inFlow && !lexer.keyAllowed then throw .malformed
  let lexer := lexer.openBlock lexer.cursor.column lexer.tokens.size .blockSequenceStart
  let lexer ← lexer.endKey
  return { lexer.take 1 .blockEntry with keyAllowed := true }

/-- The mark of an explicit key. -/
def explicitKey (lexer : Lexer) : Except DocumentFault Lexer := do
  if !lexer.inFlow && !lexer.keyAllowed then throw .malformed
  let lexer := lexer.openBlock lexer.cursor.column lexer.tokens.size .blockMappingStart
  let lexer ← lexer.endKey
  return { lexer.take 1 .key with keyAllowed := !lexer.inFlow }

/-- The colon before a value. If a key may have begun before it, the key is announced there. -/
def value (lexer : Lexer) : Except DocumentFault Lexer :=
  match lexer.key? with
  | some key =>
    let lexer := { lexer with tokens := lexer.tokens.insertIdxIfInBounds key.position .key }
    let lexer := lexer.openBlock key.column key.position .blockMappingStart
    .ok { lexer.take 1 .value with key? := none, keyAllowed := false }
  | none =>
    if !lexer.inFlow && !lexer.keyAllowed then .error .malformed
    else
      let lexer := lexer.openBlock lexer.cursor.column lexer.tokens.size .blockMappingStart
      .ok { lexer.take 1 .value with keyAllowed := !lexer.inFlow }

/-- A scalar that may be a key. -/
def flowScalar (lexer : Lexer) (style : ScalarStyle) (scan : Cursor → Except DocumentFault Scanned) :
    Except DocumentFault Lexer := do
  let lexer ← lexer.noteKey
  let scanned ← scan lexer.cursor
  return { lexer.emit (.scalar style (String.ofList scanned.text)) with
    cursor := scanned.cursor
    keyAllowed := scanned.broken && style == .plain }

/-- A scalar of whole lines, which is never a key. -/
def blockScalar (lexer : Lexer) (style : ScalarStyle) : Except DocumentFault Lexer := do
  let lexer ← lexer.endKey
  let scanned ← scanBlock (style == .folded) lexer.least lexer.cursor
  return { lexer.emit (.scalar style (String.ofList scanned.text)) with
    cursor := scanned.cursor
    keyAllowed := true }

/-- A token that stands before a node and may begin a key. -/
def property (lexer : Lexer) (scan : Cursor → Except DocumentFault (Token × Cursor)) :
    Except DocumentFault Lexer := do
  let lexer ← lexer.noteKey
  let (token, cursor) ← scan lexer.cursor
  return { lexer.emit token with cursor, keyAllowed := false }

/-- Whether a plain scalar begins with a character, given the one behind it. -/
def beginsPlain (inFlow : Bool) (c : Char) (next? : Option Char) : Bool :=
  if c = '-' then !next?.any isBlank
  else if c = '?' ∨ c = ':' then !inFlow && !endsWord next?
  else
    !(isBlank c ||
      [',', '[', ']', '{', '}', '#', '&', '*', '!', '|', '>', '\'', '"', '%', '@', '\x60'].contains c)

/-- Scans the token that begins with a character. -/
def token (lexer : Lexer) (c : Char) : Except DocumentFault Lexer :=
  let cursor := lexer.cursor
  let inFlow := lexer.inFlow
  let ends := endsWord (cursor.at? 1)
  if cursor.column = 0 ∧ c = '%' then do
    let lexer ← lexer.endDocument
    let (token, cursor) ← scanDirective cursor
    return { lexer.emit token with cursor }
  else if cursor.beginsWith "---" then return (← lexer.endDocument).take 3 .documentStart
  else if cursor.beginsWith "..." then return (← lexer.endDocument).take 3 .documentEnd
  else if c = '[' then lexer.openFlow .flowSequenceStart
  else if c = '{' then lexer.openFlow .flowMappingStart
  else if c = ']' then lexer.closeFlow .flowSequenceEnd
  else if c = '}' then lexer.closeFlow .flowMappingEnd
  else if c = ',' then lexer.flowEntry
  else if c = '-' ∧ ends then lexer.blockEntry
  else if c = '?' ∧ (inFlow ∨ ends) then lexer.explicitKey
  else if c = ':' ∧ (inFlow ∨ ends) then lexer.value
  else if c = '*' then
    lexer.property fun cursor => do
      let (name, cursor) ← scanAnchor cursor
      return (.reference name, cursor)
  else if c = '&' then
    lexer.property fun cursor => do
      let (name, cursor) ← scanAnchor cursor
      return (.anchor name, cursor)
  else if c = '!' then lexer.property (scanTag inFlow)
  else if c = '|' ∧ !inFlow then lexer.blockScalar .literal
  else if c = '>' ∧ !inFlow then lexer.blockScalar .folded
  else if c = '\'' then lexer.flowScalar .singleQuoted (scanQuoted c)
  else if c = '"' then lexer.flowScalar .doubleQuoted (scanQuoted c)
  else if beginsPlain inFlow c (cursor.at? 1) then
    lexer.flowScalar .plain (scanPlain inFlow lexer.least)
  else .error .malformed

/-- Scans tokens to the end of the text. Each of them takes a character at least. -/
def run : Nat → Lexer → Except DocumentFault (List Token)
  | 0, _ => .error .malformed
  | bound + 1, lexer => do
    let lexer := skipToToken (lexer.cursor.rest.length + 1) lexer
    let lexer := (← lexer.dropStaleKeys)
    let lexer := lexer.closeTo (lexer.cursor.column + 1)
    match lexer.cursor.head? with
    | none => return (← lexer.endDocument).tokens.toList
    | some c => run bound (← lexer.token c)

end Lexer

def tokens (text : String) : Except DocumentFault (List Token) :=
  let chars := text.toList
  if chars.all isAllowed then
    let chars := if chars.head? = some byteOrderMark then chars.tail else chars
    let rest := unifyBreaks chars
    Lexer.run (rest.length + 1) { cursor := { rest } }
  else .error .malformed

end GrammarReach.Yaml
