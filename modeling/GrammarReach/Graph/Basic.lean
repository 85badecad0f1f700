import GrammarReach.Label

/-!
Directed multigraphs with labeled edges, addressed by slot, whose nodes can stand for others.

An edge is known by the slot that it was put into; slots are never used twice. A node that was merged
into another is no longer live: edges and questions that name it go to its representative. Edges of
a direct kind carry no information from a node to itself, so such loops are not kept.
-/

namespace GrammarReach

/-- The family of a graph edge: the symbol of its label. -/
abbrev Kind := Symbol

/-- The slot of an edge. -/
abbrev EdgeId := Nat

/-- An edge in its slot, with the mark that pruning leaves on edges that can be part of a match. -/
structure GraphEdge extends Edge where
  contributing : Bool := false
deriving DecidableEq

/-- The slots of the edges at one end of a node, by kind. No kind is listed without a slot. -/
structure Incidence where
  byKind : Std.TreeMap Kind (Std.TreeSet EdgeId) := ∅

namespace Incidence

/-- The slots of one kind, ascending. -/
def ofKind (incidence : Incidence) (kind : Kind) : List EdgeId :=
  (incidence.byKind.getD kind ∅).toList

/-- All slots, by kind, then ascending. -/
def toList (incidence : Incidence) : List EdgeId :=
  incidence.byKind.toList.flatMap fun (_, slots) => slots.toList

def degree (incidence : Incidence) : Nat :=
  incidence.byKind.foldl (fun total _ slots => total + slots.size) 0

def insert (incidence : Incidence) (kind : Kind) (id : EdgeId) : Incidence :=
  ⟨incidence.byKind.insert kind ((incidence.byKind.getD kind ∅).insert id)⟩

/-- Removes a slot, and its kind with the last slot of it. -/
def erase (incidence : Incidence) (kind : Kind) (id : EdgeId) : Incidence :=
  match incidence.byKind[kind]? with
  | none => incidence
  | some slots =>
    let slots := slots.erase id
    if slots.isEmpty then ⟨incidence.byKind.erase kind⟩ else ⟨incidence.byKind.insert kind slots⟩

end Incidence

/-- What a live node knows: whether the analysis starts from it, and the edges at it. -/
structure Vertex where
  isSource : Bool := false
  incoming : Incidence := {}
  outgoing : Incidence := {}

/-- A multigraph with representatives. -/
structure Multigraph where
  vertices : Std.TreeMap Node Vertex := ∅
  slots : Array (Option GraphEdge) := #[]
  /-- The slot of each live edge. -/
  slotOf : Std.TreeMap Edge EdgeId := ∅
  /-- Where each merged node went. -/
  merged : Std.TreeMap Node Node := ∅
  /-- The nodes merged into a node, in the order in which they came. -/
  members : Std.TreeMap Node (List Node) := ∅
  directKinds : Std.TreeSet Kind := ∅
  edgeCount : Nat := 0

namespace Multigraph

/-- The graph without nodes, whose direct kinds are the given ones. -/
def withDirectKinds (kinds : List Kind) : Multigraph :=
  { directKinds := Std.TreeSet.ofList kinds }

def isDirect (graph : Multigraph) (kind : Kind) : Bool := graph.directKinds.contains kind

/-- Follows the links of merged nodes, at most `bound` of them. -/
def follow (merged : Std.TreeMap Node Node) : Nat → Node → Node
  | 0, node => node
  | bound + 1, node =>
    match merged[node]? with
    | none => node
    | some next => if next = node then node else follow merged bound next

/-- The node that stands for the given one: itself when it was never merged. -/
def repOf (graph : Multigraph) (node : Node) : Node := follow graph.merged graph.merged.size node

/-- The nodes merged into a node. -/
def subsOf (graph : Multigraph) (node : Node) : List Node := graph.members.getD node []

def hasNode (graph : Multigraph) (node : Node) : Bool := graph.vertices.contains node

def vertex? (graph : Multigraph) (node : Node) : Option Vertex := graph.vertices[node]?

/-- The live nodes, ascending. -/
def nodes (graph : Multigraph) : List Node := graph.vertices.keys

def nodeCount (graph : Multigraph) : Nat := graph.vertices.size

/-- Makes sure that the representative of a node is live, and answers it. -/
def addNode (graph : Multigraph) (node : Node) : Multigraph × Node :=
  let rep := graph.repOf node
  ({ graph with vertices := graph.vertices.insertIfNew rep {} }, rep)

/-- Marks the representative of a node as a source of the analysis. -/
def markSource (graph : Multigraph) (node : Node) : Multigraph :=
  let (graph, rep) := graph.addNode node
  { graph with vertices := graph.vertices.modify rep fun vertex => { vertex with isSource := true } }

/-- The sources of the analysis, ascending. -/
def sources (graph : Multigraph) : List Node :=
  graph.vertices.toList.filterMap fun (node, vertex) => if vertex.isSource then some node else none

/-- The edge in a slot, if it is live. -/
def edge? (graph : Multigraph) (id : EdgeId) : Option GraphEdge := graph.slots[id]?.join

/-- Whether an edge is live; its ends are taken as they are. -/
def hasEdge (graph : Multigraph) (edge : Edge) : Bool := graph.slotOf.contains edge

/-- The live edges with their slots, in the order in which they were put in. -/
def edges (graph : Multigraph) : List (EdgeId × GraphEdge) :=
  graph.slots.toList.zipIdx.filterMap fun (slot, id) => slot.map fun edge => (id, edge)

/-- The ends of the direct edges, in order. -/
def directPairs (graph : Multigraph) : List (Node × Node) :=
  graph.edges.filterMap fun (_, edge) =>
    if graph.isDirect edge.label.symbol then some (edge.src, edge.dst) else none

/-- Adds an edge between representatives and answers its slot. A direct loop and an edge that is
there already get none, but their ends become nodes all the same. -/
def addEdge (graph : Multigraph) (edge : Edge) : Multigraph × Option EdgeId :=
  let (graph, src) := graph.addNode edge.src
  let (graph, dst) := graph.addNode edge.dst
  let edge : Edge := ⟨src, dst, edge.label⟩
  let kind := edge.label.symbol
  if (src == dst && graph.isDirect kind) || graph.hasEdge edge then (graph, none)
  else
    let id := graph.slots.size
    let vertices := graph.vertices.modify src fun vertex =>
      { vertex with outgoing := vertex.outgoing.insert kind id }
    let vertices := vertices.modify dst fun vertex =>
      { vertex with incoming := vertex.incoming.insert kind id }
    ({ graph with
        vertices
        slots := graph.slots.push (some { toEdge := edge })
        slotOf := graph.slotOf.insert edge id
        edgeCount := graph.edgeCount + 1 }, some id)

/-- Takes the edge out of a slot. -/
def removeEdge (graph : Multigraph) (id : EdgeId) : Multigraph × Option GraphEdge :=
  match graph.edge? id with
  | none => (graph, none)
  | some edge =>
    let kind := edge.label.symbol
    let vertices := graph.vertices.modify edge.src fun vertex =>
      { vertex with outgoing := vertex.outgoing.erase kind id }
    let vertices := vertices.modify edge.dst fun vertex =>
      { vertex with incoming := vertex.incoming.erase kind id }
    ({ graph with
        vertices
        slots := graph.slots.setIfInBounds id none
        slotOf := graph.slotOf.erase edge.toEdge
        edgeCount := graph.edgeCount - 1 }, some edge)

/-- Sets the mark of the edge in a slot, if it is live. -/
def setContributing (graph : Multigraph) (id : EdgeId) (value : Bool) : Multigraph :=
  { graph with
    slots := graph.slots.modify id (Option.map fun edge => { edge with contributing := value }) }

end Multigraph

end GrammarReach
