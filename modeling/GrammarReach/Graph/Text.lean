import GrammarReach.Grammar.Text
import GrammarReach.Graph.Basic
import GrammarReach.Text.Numeral

/-!
The text form of a graph: one edge a line, as source, target, label and, for a variant label, an
index, with tabs between.

A format can name a marker: a line with the marker for a label marks its first node as a source and
is no edge. Lines whose label is unknown, or not accepted, are passed over.
-/

namespace GrammarReach

/-- What the lines of an edge list mean. -/
structure EdgeListFormat where
  /-- The labels of direct edges. -/
  direct : List String := []
  /-- The labels that become edges, if not all labels of the grammar do. -/
  accepted? : Option (List String) := none
  /-- The label of the lines that mark a source. -/
  marker? : Option String := none

namespace EdgeListFormat

/-- Reads a node number in a field of a line. -/
def node (line : Nat) (field : String) : Except Error Node :=
  match Text.natural? Text.wordBound field with
  | some node => .ok node
  | none => .error (.parse line (.badNode field))

/-- Reads the index of an edge from the fields behind its label. Only a variant label has one; it is
zero where it is left out. -/
def index (grammar : Grammar) (line : Nat) (kind : Kind) : List String → Except Error Nat
  | [] => .ok 0
  | field :: _ =>
    if grammar.isVariant kind then
      match Text.natural? Text.wordBound field with
      | some index => .ok index
      | none => .error (.parse line (.badIndex field))
    else .ok 0

/-- The symbol of a label whose lines become edges. -/
def edgeKind? (format : EdgeListFormat) (grammar : Grammar) (label : String) : Option Kind :=
  if format.accepted?.all (·.contains label) then grammar.find? label else none

/-- Adds what a record says to a graph. -/
def addRecord (format : EdgeListFormat) (grammar : Grammar) (graph : Multigraph)
    (record : Text.Record) : Except Error Multigraph :=
  match record.fields with
  | src :: dst :: label :: rest => do
    let src ← node record.line src
    let dst ← node record.line dst
    if format.marker? = some label then return graph.markSource src
    match format.edgeKind? grammar label with
    | none => return graph
    | some kind =>
      let index ← index grammar record.line kind rest
      return (graph.addEdge ⟨src, dst, ⟨kind, index⟩⟩).1
  | _ => .error (.parse record.line .missingFields)

/-- Reads a graph. The direct labels have to be symbols of the grammar. -/
def read (format : EdgeListFormat) (grammar : Grammar) (text : String) : Except Error Multigraph := do
  let direct ← format.direct.mapM grammar.lookup
  (Text.records text).foldlM (format.addRecord grammar) (.withDirectKinds direct)

end EdgeListFormat

namespace Multigraph

/-- Whether the line of edge `a` comes before the line of edge `b`, or may do so, among the lines of
one source: by label symbol, then target, then index. -/
def linesUp (a b : Edge) : Bool :=
  let key (edge : Edge) : List Nat := [edge.label.symbol, edge.dst, edge.label.index]
  @decide _ (List.decidableLE (key a) (key b))

/-- The edges that leave a node, in the order of their lines. -/
def outgoingEdges (graph : Multigraph) (vertex : Vertex) : List Edge :=
  (vertex.outgoing.toList.filterMap fun id => (graph.edge? id).map (·.toEdge)).mergeSort linesUp

def edgeFields (grammar : Grammar) (edge : Edge) : List String :=
  [toString edge.src, toString edge.dst, grammar.nameOrFault edge.label.symbol] ++
    if grammar.isVariant edge.label.symbol then [toString edge.label.index] else []

/-- The lines of a node: its mark, if it is a source and the format has a marker, then the edges that
leave it. -/
def nodeLines (graph : Multigraph) (grammar : Grammar) (marker? : Option String) (node : Node)
    (vertex : Vertex) : List (List String) :=
  let marks := if vertex.isSource then marker?.toList else []
  marks.map (fun marker => [toString node, toString node, marker]) ++
    (graph.outgoingEdges vertex).map (edgeFields grammar)

/-- The text of a graph, node after node. -/
def toText (graph : Multigraph) (grammar : Grammar) (marker? : Option String) : String :=
  let lines := graph.vertices.toList.flatMap fun (node, vertex) =>
    graph.nodeLines grammar marker? node vertex
  String.join (lines.map fun fields => "\t".intercalate fields ++ "\n")

end Multigraph

/-- The text of pairs of nodes, one pair a line with a tab between. -/
def pairsText (pairs : List (Node × Node)) : String :=
  String.join (pairs.map fun (src, dst) => toString src ++ "\t" ++ toString dst ++ "\n")

end GrammarReach
