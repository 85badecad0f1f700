import GrammarReach.NodeSet

/-!
The set of derived edges, indexed from both ends.

Every edge is stored twice, under its source and under its target. Additions are the only way in and
tell exactly what was new, which is what makes a fixpoint iteration end.
-/

namespace GrammarReach

/-- For each node and label, a set of neighbours. -/
structure LabelIndex where
  rows : Std.TreeMap Node (Std.TreeMap Label NodeSet) := ∅

namespace LabelIndex

/-- The neighbours at a node under a label, if any were ever recorded. -/
def find? (index : LabelIndex) (node : Node) (label : Label) : Option NodeSet :=
  index.rows[node]?.bind fun row => row[label]?

/-- The neighbours at a node under a label. -/
def find (index : LabelIndex) (node : Node) (label : Label) : NodeSet :=
  (index.find? node label).getD .empty

/-- Replaces the neighbours at a node under a label. -/
def put (index : LabelIndex) (node : Node) (label : Label) (set : NodeSet) : LabelIndex :=
  ⟨index.rows.insert node ((index.rows.getD node ∅).insert label set)⟩

/-- The labels at a node in ascending order, each with its neighbours. -/
def row (index : LabelIndex) (node : Node) : List (Label × NodeSet) :=
  (index.rows.getD node ∅).toList

def link (index : LabelIndex) (node : Node) (label : Label) (neighbour : Node) : LabelIndex :=
  index.put node label ((index.find node label).insert neighbour).1

end LabelIndex

/-- A set of edges, indexed by source and by target, and its size. -/
structure Dataset where
  outgoing : LabelIndex := {}
  incoming : LabelIndex := {}
  edgeCount : Nat := 0

namespace Dataset

def empty : Dataset := {}

/-- The targets of a node under a label, if it has any. -/
def successors? (data : Dataset) (node : Node) (label : Label) : Option NodeSet :=
  data.outgoing.find? node label

/-- The sources of a node under a label, if it has any. -/
def predecessors? (data : Dataset) (node : Node) (label : Label) : Option NodeSet :=
  data.incoming.find? node label

def contains (data : Dataset) (edge : Edge) : Bool :=
  (data.outgoing.find edge.src edge.label).contains edge.dst

/-- The labels of the edges that leave a node, each with its targets. -/
def outLabels (data : Dataset) (node : Node) : List (Label × NodeSet) := data.outgoing.row node

/-- The labels of the edges that enter a node, each with its sources. -/
def inLabels (data : Dataset) (node : Node) : List (Label × NodeSet) := data.incoming.row node

/-- Adds an edge; the flag tells whether it was absent. A fault label is refused. -/
def add (data : Dataset) (edge : Edge) : Dataset × Bool :=
  if edge.label.isFault then (data, false)
  else
    let (targets, fresh) := (data.outgoing.find edge.src edge.label).insert edge.dst
    if fresh then
      ({ outgoing := data.outgoing.put edge.src edge.label targets
         incoming := data.incoming.link edge.dst edge.label edge.src
         edgeCount := data.edgeCount + 1 }, true)
    else (data, false)

/-- Adds the edges from a node to every target; the set holds the targets that were new. -/
def addTargets (data : Dataset) (src : Node) (targets : NodeSet) (label : Label) :
    Dataset × NodeSet :=
  if label.isFault || targets.isEmpty then (data, .empty)
  else
    let (united, fresh) := (data.outgoing.find src label).unionNew targets
    ({ outgoing := data.outgoing.put src label united
       incoming := fresh.toList.foldl (fun index dst => index.link dst label src) data.incoming
       edgeCount := data.edgeCount + fresh.size }, fresh)

/-- Adds the edges from every source to a node; the set holds the sources that were new. -/
def addSources (data : Dataset) (sources : NodeSet) (dst : Node) (label : Label) :
    Dataset × NodeSet :=
  if label.isFault || sources.isEmpty then (data, .empty)
  else
    let (united, fresh) := (data.incoming.find dst label).unionNew sources
    ({ outgoing := fresh.toList.foldl (fun index src => index.link src label dst) data.outgoing
       incoming := data.incoming.put dst label united
       edgeCount := data.edgeCount + fresh.size }, fresh)

def isEmpty (data : Dataset) : Bool := data.edgeCount == 0

/-- Every set of targets with its source and label, by source, then label. -/
def targetSets (data : Dataset) : List (Node × Label × NodeSet) :=
  data.outgoing.rows.toList.flatMap fun (src, row) => row.toList.map fun entry => (src, entry)

/-- The number of edges per symbol, over all its indices. -/
def symbolCounts (data : Dataset) : Std.TreeMap Symbol Nat :=
  data.targetSets.foldl
    (fun counts (_, label, targets) =>
      counts.insert label.symbol (counts.getD label.symbol 0 + targets.size)) ∅

/-- The pairs that bear the symbol under any index, in ascending order, each once. -/
def pairs (data : Dataset) (symbol : Symbol) : List (Node × Node) :=
  data.outgoing.rows.toList.flatMap fun (src, row) =>
    let targets := row.toList.foldl
      (fun set (label, targets) => if label.symbol == symbol then set.union targets else set)
      NodeSet.empty
    targets.toList.map fun dst => (src, dst)

/-- The edges in ascending order. -/
def edges (data : Dataset) : List Edge :=
  (data.targetSets.flatMap fun (src, label, targets) =>
    targets.toList.map fun dst => ⟨src, dst, label⟩).mergeSort Edge.le

/-- Adds every edge of `other`; the number tells how many were absent. -/
def absorb (data other : Dataset) : Dataset × Nat :=
  other.targetSets.foldl
    (fun (data, added) (src, label, targets) =>
      let (data, fresh) := data.addTargets src targets label
      (data, added + fresh.size))
    (data, 0)

end Dataset

end GrammarReach
