import GrammarReach.Yaml.Lexer

/-!
The content of a YAML document as a tree.

A scalar keeps its style and its tag, for these decide what it can be read as; the tags of collections
do not matter. A reference to an anchor stands for a copy of the anchored node, which has to be
complete by then.
-/

namespace GrammarReach.Yaml

/-- A node of a document. -/
inductive Node where
  | scalar (tag? : Option String) (style : ScalarStyle) (text : String)
  | sequence (items : List Node)
  | mapping (entries : List (Node × Node))
deriving Inhabited

namespace Node

/-- What stands where a node is left out. -/
def empty : Node := .scalar none .plain ""

end Node

/-- The tokens still to be read, and what the ones before them have set up. -/
structure TokenReader where
  tokens : List Token
  /-- The nodes that can be referred to. -/
  anchors : List (String × Node) := []
  /-- The expansions of tag handles. -/
  handles : List (String × String)

namespace TokenReader

def head? (reader : TokenReader) : Option Token := reader.tokens.head?

def advance (reader : TokenReader) : TokenReader := { reader with tokens := reader.tokens.tail }

/-- Passes over the given token, which has to come next. -/
def expect (reader : TokenReader) (token : Token) : Except DocumentFault TokenReader :=
  if reader.head? = some token then .ok reader.advance else .error .malformed

/-- Whether one of the given tokens comes next. -/
def stands (reader : TokenReader) (tokens : List Token) : Bool :=
  reader.head?.any (tokens.contains ·)

/-- The tag that a handle and a suffix name. -/
def expandTag (reader : TokenReader) (handle suffix : String) : Except DocumentFault String :=
  if handle.isEmpty then .ok suffix
  else
    match reader.handles.find? (·.1 == handle) with
    | some (_, expansion) => .ok (expansion ++ suffix)
    | none => .error .malformed

/-- What stands before a node: an anchor, a tag, or both in either order. -/
structure Properties where
  anchor? : Option String := none
  tag? : Option String := none

/-- Reads what stands before a node. -/
def properties (reader : TokenReader) : Except DocumentFault (Properties × TokenReader) :=
  match reader.tokens with
  | .anchor name :: .tag handle suffix :: rest | .tag handle suffix :: .anchor name :: rest => do
    let tag ← reader.expandTag handle suffix
    return ({ anchor? := some name, tag? := some tag }, { reader with tokens := rest })
  | .anchor name :: rest => .ok ({ anchor? := some name }, { reader with tokens := rest })
  | .tag handle suffix :: rest => do
    let tag ← reader.expandTag handle suffix
    return ({ tag? := some tag }, { reader with tokens := rest })
  | _ => .ok ({}, reader)

/-- Remembers a complete node under its anchor. -/
def define (reader : TokenReader) (anchor? : Option String) (node : Node) : TokenReader :=
  match anchor? with
  | none => reader
  | some name => { reader with anchors := (name, node) :: reader.anchors }

/-- Forgets the node of an anchor that is about to be set anew. -/
def forget (reader : TokenReader) (anchor? : Option String) : TokenReader :=
  { reader with anchors := reader.anchors.filter fun (name, _) => some name != anchor? }

mutual

/-- Reads a node. Block collections are read where `block` allows them, and a sequence without an
indentation of its own where `bare` does. -/
def node (block bare : Bool) :
    Nat → TokenReader → Except DocumentFault (Node × TokenReader)
  | 0, _ => .error .malformed
  | bound + 1, reader =>
    match reader.head? with
    | some (.reference name) =>
      match reader.anchors.find? (·.1 == name) with
      | some (_, node) => .ok (node, reader.advance)
      | none => .error .malformed
    | _ => do
      let (properties, reader) ← reader.properties
      let reader := reader.forget properties.anchor?
      let (node, reader) ← content block bare properties bound reader
      return (node, reader.define properties.anchor? node)

/-- Reads a node behind its properties. With properties, the node itself may be left out. -/
def content (block bare : Bool) (properties : Properties) :
    Nat → TokenReader → Except DocumentFault (Node × TokenReader)
  | 0, _ => .error .malformed
  | bound + 1, reader =>
    match reader.head? with
    | some (.scalar style text) =>
      .ok (.scalar (properties.tag?.filter (· != "!")) style text, reader.advance)
    | some .flowSequenceStart => flowItems true [] bound reader.advance
    | some .flowMappingStart => flowEntries true [] bound reader.advance
    | some .blockSequenceStart =>
      if block then blockItems [] bound reader.advance else leftOut properties reader
    | some .blockMappingStart =>
      if block then blockEntries [] bound reader.advance else leftOut properties reader
    | some .blockEntry => if bare then bareItems [] bound reader else leftOut properties reader
    | _ => leftOut properties reader

/-- An empty node, which there can be behind properties only. -/
def leftOut (properties : Properties) (reader : TokenReader) :
    Except DocumentFault (Node × TokenReader) :=
  if properties.anchor?.isNone && properties.tag?.isNone then .error .malformed
  else .ok (.scalar properties.tag? .plain "", reader)

/-- Reads a node, or none where one of the given tokens comes next. -/
def nodeUnless (ends : List Token) (block bare : Bool) :
    Nat → TokenReader → Except DocumentFault (Node × TokenReader)
  | 0, _ => .error .malformed
  | bound + 1, reader =>
    if reader.stands ends then .ok (.empty, reader) else node block bare bound reader

def blockItems (items : List Node) :
    Nat → TokenReader → Except DocumentFault (Node × TokenReader)
  | 0, _ => .error .malformed
  | bound + 1, reader =>
    match reader.head? with
    | some .blockEntry => do
      let (item, reader) ← nodeUnless [.blockEntry, .blockEnd] true false bound reader.advance
      blockItems (item :: items) bound reader
    | some .blockEnd => .ok (.sequence items.reverse, reader.advance)
    | _ => .error .malformed

/-- Reads the items of a sequence that stands at the indentation of its key. -/
def bareItems (items : List Node) :
    Nat → TokenReader → Except DocumentFault (Node × TokenReader)
  | 0, _ => .error .malformed
  | bound + 1, reader =>
    match reader.head? with
    | some .blockEntry => do
      let (item, reader) ←
        nodeUnless [.blockEntry, .key, .value, .blockEnd] true false bound reader.advance
      bareItems (item :: items) bound reader
    | _ => .ok (.sequence items.reverse, reader)

def blockEntries (entries : List (Node × Node)) :
    Nat → TokenReader → Except DocumentFault (Node × TokenReader)
  | 0, _ => .error .malformed
  | bound + 1, reader =>
    let ends : List Token := [.key, .value, .blockEnd]
    match reader.head? with
    | some .key => do
      let (key, reader) ← nodeUnless ends true true bound reader.advance
      let (value, reader) ←
        if reader.head? = some .value then nodeUnless ends true true bound reader.advance
        else pure (.empty, reader)
      blockEntries ((key, value) :: entries) bound reader
    | some .blockEnd => .ok (.mapping entries.reverse, reader.advance)
    | _ => .error .malformed

/-- Reads the items of a flow sequence. A key in it begins a mapping of one entry. -/
def flowItems (first : Bool) (items : List Node) :
    Nat → TokenReader → Except DocumentFault (Node × TokenReader)
  | 0, _ => .error .malformed
  | bound + 1, reader => do
    if reader.head? = some .flowSequenceEnd then return (.sequence items.reverse, reader.advance)
    let reader ← if first then pure reader else reader.expect .flowEntry
    match reader.head? with
    | some .flowSequenceEnd => return (.sequence items.reverse, reader.advance)
    | some .key =>
      let (item, reader) ← flowPair bound reader.advance
      flowItems false (item :: items) bound reader
    | _ =>
      let (item, reader) ← node false false bound reader
      flowItems false (item :: items) bound reader

/-- Reads a mapping of one entry inside a flow sequence, behind the mark of its key. -/
def flowPair : Nat → TokenReader → Except DocumentFault (Node × TokenReader)
  | 0, _ => .error .malformed
  | bound + 1, reader => do
    let (key, reader) ←
      if reader.stands [.value, .flowEntry, .flowSequenceEnd] then pure (.empty, reader.advance)
      else node false false bound reader
    let (value, reader) ←
      if reader.head? = some .value then
        nodeUnless [.flowEntry, .flowSequenceEnd] false false bound reader.advance
      else pure (.empty, reader)
    return (.mapping [(key, value)], reader)

def flowEntries (first : Bool) (entries : List (Node × Node)) :
    Nat → TokenReader → Except DocumentFault (Node × TokenReader)
  | 0, _ => .error .malformed
  | bound + 1, reader => do
    if reader.head? = some .flowMappingEnd then return (.mapping entries.reverse, reader.advance)
    let reader ← if first then pure reader else reader.expect .flowEntry
    match reader.head? with
    | some .flowMappingEnd => return (.mapping entries.reverse, reader.advance)
    | some .key =>
      let (key, reader) ←
        nodeUnless [.value, .flowEntry, .flowMappingEnd] false false bound reader.advance
      let (value, reader) ←
        if reader.head? = some .value then
          nodeUnless [.flowEntry, .flowMappingEnd] false false bound reader.advance
        else pure (.empty, reader)
      flowEntries false ((key, value) :: entries) bound reader
    | _ =>
      let (key, reader) ← node false false bound reader
      flowEntries false ((key, .empty) :: entries) bound reader

end

end TokenReader

/-- The expansions of tag handles that hold without a directive. -/
def defaultHandles : List (String × String) := [("!", "!"), ("!!", "tag:yaml.org,2002:")]

/-- Reads the directives before a document. There may be one version, and one expansion of each
handle. -/
def directives (versioned : Bool) (handles : List (String × String)) :
    List Token → Except DocumentFault (List (String × String) × List Token)
  | .version major minor :: rest =>
    if versioned || major != 1 || !(minor == 1 || minor == 2) then .error .malformed
    else directives true handles rest
  | .tagHandle handle expansion :: rest =>
    if handles.any (·.1 == handle) then .error .malformed
    else directives versioned (handles ++ [(handle, expansion)]) rest
  | rest => .ok (handles, rest)

/-- Reads the root of the only document in a list of tokens, if there is a document at all. -/
def Node.ofTokens? (tokens : List Token) : Except DocumentFault (Option Node) := do
  if tokens.isEmpty then return none
  let (handles, rest) ← directives false [] tokens
  let opened := rest.head? = some .documentStart
  if rest.length < tokens.length ∧ !opened then throw .malformed
  let rest := if opened then rest.tail else rest
  let reader : TokenReader := { tokens := rest, handles := handles ++ defaultHandles }
  let bound := 4 * rest.length + 4
  let (root, reader) ←
    if opened && (rest.isEmpty || reader.stands [.documentStart, .documentEnd]) then
      pure (Node.empty, reader)
    else reader.node true false bound
  let behind := reader.tokens.dropWhile (· == .documentEnd)
  if behind.isEmpty then return some root else throw .several

/-- Reads the root of the only document in a text, if there is a document at all. -/
def Node.parse (text : String) : Except DocumentFault (Option Node) := do
  Node.ofTokens? (← tokens text)

end GrammarReach.Yaml
