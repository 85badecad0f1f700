import GrammarReach.Text.Numeral
import GrammarReach.Yaml.Cursor
import GrammarReach.Yaml.Token

/-!
Scanning tags, anchors and directives: everything in a YAML document that is made of names.
-/

namespace GrammarReach.Yaml

/-- The octet that a percent sign and two hexadecimal digits stand for. -/
def escapedOctet? : List Char → Option Nat
  | '%' :: high :: low :: _ => Text.digitsValue? 16 0 [high, low]
  | _ => none

/-- The number of octets of a character whose first octet is given, and the bits of that one. -/
def octetCount? (first : Nat) : Option (Nat × Nat) :=
  if first < 0x80 then some (1, first)
  else if 0xC0 ≤ first ∧ first < 0xE0 then some (2, first - 0xC0)
  else if 0xE0 ≤ first ∧ first < 0xF0 then some (3, first - 0xE0)
  else if 0xF0 ≤ first ∧ first < 0xF8 then some (4, first - 0xF0)
  else none

/-- The code that the further octets of a character complete. -/
def furtherOctets? (high : Nat) : Nat → List Char → Option Nat
  | 0, _ => some high
  | count + 1, text => do
    let octet ← escapedOctet? text
    guard (0x80 ≤ octet ∧ octet < 0xC0)
    furtherOctets? (high * 64 + (octet - 0x80)) count (text.drop 3)

/-- The character that escaped octets at the beginning of a text stand for, and their number. -/
def escapedChar? (text : List Char) : Option (Char × Nat) := do
  let first ← escapedOctet? text
  let (count, high) ← octetCount? first
  let code ← furtherOctets? high (count - 1) (text.drop 3)
  guard code.isValidChar
  return (Char.ofNat code, count)

/-- Whether a character may stand in a tag. Brackets and commas may only where the tag has an end
mark or is the expansion of a handle. -/
def isTagChar (open_ : Bool) (c : Char) : Bool :=
  isNameChar c ||
    [';', '/', '?', ':', '@', '&', '=', '+', '$', '.', '%', '!', '~', '*', '\'', '(', ')'].contains c ||
    (open_ && [',', '[', ']'].contains c)

/-- Scans the characters of a tag. -/
def tagTextFrom (open_ : Bool) : Nat → Cursor → List Char → Except DocumentFault (List Char × Cursor)
  | 0, cursor, text => .ok (text, cursor)
  | bound + 1, cursor, text =>
    match cursor.head? with
    | none => .ok (text, cursor)
    | some c =>
      if !isTagChar open_ c then .ok (text, cursor)
      else if c = '%' then
        match escapedChar? cursor.rest with
        | none => .error .malformed
        | some (c, count) => tagTextFrom open_ bound (cursor.skip (3 * count)) (text ++ [c])
      else tagTextFrom open_ bound (cursor.skip 1) (text ++ [c])

/-- Scans the text of a tag that begins with `head`; there has to be some text. -/
def scanTagText (open_ : Bool) (head : List Char) (cursor : Cursor) :
    Except DocumentFault (String × Cursor) := do
  let (text, behind) ← tagTextFrom open_ cursor.rest.length cursor head.tail
  if head.isEmpty && behind.index == cursor.index then throw .malformed
  return (String.ofList text, behind)

/-- Scans a handle: an exclamation mark, and maybe a name and a second mark. -/
def scanHandle (cursor : Cursor) : Except DocumentFault (List Char × Cursor) :=
  if cursor.head? = some '!' then
    let (name, cursor) := (cursor.skip 1).span isNameChar
    if cursor.head? = some '!' then .ok ('!' :: name ++ ['!'], cursor.skip 1)
    else .ok ('!' :: name, cursor)
  else .error .malformed

/-- Whether a handle has a second mark at its end. -/
def isClosedHandle (handle : List Char) : Bool :=
  2 ≤ handle.length && handle.getLast? == some '!'

/-- Scans a tag. Its handle is empty for a tag between angle brackets and for a lone mark. -/
def scanTag (inFlow : Bool) (cursor : Cursor) : Except DocumentFault (Token × Cursor) := do
  let (token, cursor) ←
    if cursor.at? 1 = some '<' then do
      let (suffix, cursor) ← scanTagText true [] (cursor.skip 2)
      if cursor.head? ≠ some '>' then throw .malformed
      pure (Token.tag "" suffix, cursor.skip 1)
    else do
      let (handle, behind) ← scanHandle cursor
      if isClosedHandle handle then
        let (suffix, cursor) ← scanTagText false [] behind
        pure (Token.tag (String.ofList handle) suffix, cursor)
      else
        let (suffix, cursor) ← scanTagText false handle behind
        pure (if suffix.isEmpty then Token.tag "" "!" else Token.tag "!" suffix, cursor)
  if endsWord cursor.head? || (inFlow && cursor.head? == some ',') then return (token, cursor)
  else throw .malformed

/-- The characters, besides blanks and breaks, that may follow the name of an anchor. -/
def anchorEnds : List Char := ['?', ':', ',', ']', '}', '%', '@', '`']

/-- Scans the name behind the mark of an anchor or of a reference to one. -/
def scanAnchor (cursor : Cursor) : Except DocumentFault (String × Cursor) :=
  let (name, cursor) := (cursor.skip 1).span isNameChar
  let ends := endsWord cursor.head? || cursor.head?.any (anchorEnds.contains ·)
  if name.isEmpty || !ends then .error .malformed else .ok (String.ofList name, cursor)

/-- Scans a number of at most nine digits. -/
def scanNumber (cursor : Cursor) : Except DocumentFault (Nat × Cursor) :=
  let (digits, cursor) := cursor.span Char.isDigit
  match Text.numeral? 10 (Nat.pow 10 9) digits with
  | some number => if digits.length ≤ 9 then .ok (number, cursor) else .error .malformed
  | none => .error .malformed

/-- Scans what follows the name of a version directive. -/
def scanVersion (cursor : Cursor) : Except DocumentFault (Token × Cursor) := do
  let (major, cursor) ← scanNumber cursor.skipBlanks
  if cursor.head? ≠ some '.' then throw .malformed
  let (minor, cursor) ← scanNumber (cursor.skip 1)
  return (.version major minor, cursor)

def scanTagHandle (cursor : Cursor) : Except DocumentFault (Token × Cursor) := do
  let (handle, cursor) ← scanHandle cursor.skipBlanks
  if !(isClosedHandle handle || handle == ['!']) || !cursor.head?.any isBlank then throw .malformed
  let (expansion, cursor) ← scanTagText true [] cursor.skipBlanks
  if !endsWord cursor.head? then throw .malformed
  return (.tagHandle (String.ofList handle) expansion, cursor)

/-- Scans a directive, to the end of its line. -/
def scanDirective (cursor : Cursor) : Except DocumentFault (Token × Cursor) := do
  let (name, cursor) := (cursor.skip 1).span isNameChar
  if !endsWord cursor.head? then throw .malformed
  let (token, cursor) ← match String.ofList name with
    | "YAML" => scanVersion cursor
    | "TAG" => scanTagHandle cursor
    | _ => throw .malformed
  return (token, ← cursor.finishLine)

end GrammarReach.Yaml
