import GrammarReach.Loop
import GrammarReach.NodeSet
import GrammarReach.Queue

/-!
A transitive closure that grows edge by edge, held as a table of reachable pairs beside a sparse
graph with the same reachability.

An edge whose end reaches its start already closes a cycle and is a back edge; every other one is a
forward edge. Taking in an edge walks backwards from its start over the nodes that do not reach its
end yet, and gives each of them everything that the end reaches. For a forward edge, the walk drops
the edges that the new one makes redundant; for a back edge, the cycle is cut down to a shortest path
before it is closed. That a node reaches itself goes without saying.
-/

namespace GrammarReach

/-- Whether an edge closed a cycle when it was taken in. -/
inductive EdgeTag where
  | forward
  | back
deriving DecidableEq

/-- The edges of the sparse graph at one node. -/
structure CriticalNode where
  successors : Std.TreeMap Node EdgeTag := ∅
  predecessors : Std.TreeSet Node := ∅

/-- The sparse graph, the table of reachable pairs, and the counters. -/
structure CriticalGraph where
  nodes : Std.TreeMap Node CriticalNode := ∅
  reachable : Std.TreeMap Node NodeSet := ∅
  /-- The number of pairs in the table. -/
  pairs : Nat := 0
  /-- The number of questions put to the table. -/
  checks : Nat := 0
  /-- The number of edges dropped. -/
  removed : Nat := 0

namespace CriticalGraph

def empty : CriticalGraph := {}

/-! ## The table -/

/-- Whether the table tells that a node reaches another. -/
def knows (graph : CriticalGraph) (src dst : Node) : Bool :=
  src == dst || (graph.reachable.getD src .empty).contains dst

/-- Asks the table, which counts as a check. -/
def reaches (graph : CriticalGraph) (src dst : Node) : CriticalGraph × Bool :=
  ({ graph with checks := graph.checks + 1 }, graph.knows src dst)

/-- Asks the table which nodes of a list pass, one check for each. -/
def filterReaching (graph : CriticalGraph) (question : Node → Node × Node) (nodes : List Node) :
    CriticalGraph × List Node :=
  ({ graph with checks := graph.checks + nodes.length },
    nodes.filter fun node => graph.knows (question node).1 (question node).2)

/-! ## The sparse graph -/

/-- The nodes that an edge leads to, ascending. -/
def successors (graph : CriticalGraph) (node : Node) : List Node :=
  (graph.nodes.getD node {}).successors.keys

/-- The nodes that an edge comes from, ascending. -/
def predecessors (graph : CriticalGraph) (node : Node) : List Node :=
  (graph.nodes.getD node {}).predecessors.toList

def tag? (graph : CriticalGraph) (src dst : Node) : Option EdgeTag :=
  (graph.nodes.getD src {}).successors[dst]?

def edgeCount (graph : CriticalGraph) : Nat :=
  graph.nodes.foldl (fun total _ node => total + node.successors.size) 0

def backCount (graph : CriticalGraph) : Nat :=
  graph.nodes.foldl (fun total _ node => total + node.successors.values.count .back) 0

def addEdge (graph : CriticalGraph) (src dst : Node) (tag : EdgeTag) : CriticalGraph :=
  let source := graph.nodes.getD src {}
  let nodes := graph.nodes.insert src
    { source with successors := source.successors.insert dst tag }
  let target := nodes.getD dst {}
  { graph with
    nodes := nodes.insert dst { target with predecessors := target.predecessors.insert src } }

/-- Drops an edge, if it is there. -/
def dropEdge (graph : CriticalGraph) (src dst : Node) : CriticalGraph :=
  match graph.tag? src dst with
  | none => graph
  | some _ =>
    let nodes := graph.nodes.modify src fun node =>
      { node with successors := node.successors.erase dst }
    let nodes := nodes.modify dst fun node =>
      { node with predecessors := node.predecessors.erase src }
    { graph with nodes, removed := graph.removed + 1 }

end CriticalGraph

/-! ## Marking pairs -/

/-- A search through the sparse graph that enters pairs into the table: the nodes still to visit, the
next one first, and the pairs entered so far, the latest first. -/
structure CriticalSearch where
  graph : CriticalGraph
  stack : List Node
  found : List (Node × Node) := []

namespace CriticalSearch

/-- Enters a pair into the table and notes it if it was new. -/
def mark (search : CriticalSearch) (src dst : Node) : CriticalSearch :=
  let (targets, fresh) := (search.graph.reachable.getD src .empty).insert dst
  if fresh then
    { search with
      graph :=
        { search.graph with
          reachable := search.graph.reachable.insert src targets
          pairs := search.graph.pairs + 1 }
      found := (src, dst) :: search.found }
  else search

/-- Puts the nodes that do not pass a question to the table onto the stack, the last one on top. -/
def pushUnknown (search : CriticalSearch) (question : Node → Node × Node) (nodes : List Node) :
    CriticalSearch :=
  let (graph, known) := search.graph.filterReaching question nodes
  { search with graph, stack := (nodes.filter fun node => !known.contains node).reverse ++ search.stack }

/-- Visits the next node: unless `origin` is known to reach it, that becomes known, and the successors
that it is not known to reach are visited later. -/
def forwardStep (origin : Node) (search : CriticalSearch) : Option CriticalSearch :=
  match search.stack with
  | [] => none
  | node :: stack =>
    let (graph, known) := search.graph.reaches origin node
    let search := { search with graph, stack }
    some <|
      if known then search
      else
        let search := search.mark origin node
        search.pushUnknown (fun next => (origin, next)) (search.graph.successors node)

/-- Makes everything that `target` reaches known to be reached from `origin`. Each node is expanded
once at most, so there are no more visits than edges and the first one. -/
def forward (origin target : Node) (search : CriticalSearch) : CriticalSearch :=
  let inner := Loop.run (forwardStep origin) (search.graph.edgeCount + 2)
    { search with stack := [target] }
  { inner with stack := search.stack }

/-- Drops the edges that leave a node for a node that `target` reaches, `target` itself apart. -/
def prune (node target : Node) (search : CriticalSearch) : CriticalSearch :=
  let others := (search.graph.successors node).filter (· != target)
  let (graph, redundant) := search.graph.filterReaching (fun next => (target, next)) others
  { search with graph := redundant.foldl (fun graph next => graph.dropEdge node next) graph }

/-- Visits the next node: unless it is known to reach `target`, it is given everything that `target`
reaches, and the predecessors that are not known to reach `target` are visited later. -/
def backwardStep (target : Node) (pruning : Bool) (search : CriticalSearch) :
    Option CriticalSearch :=
  match search.stack with
  | [] => none
  | node :: stack =>
    let (graph, known) := search.graph.reaches node target
    let search := { search with graph, stack }
    some <|
      if known then search
      else
        let search := if pruning then search.prune node target else search
        let search := search.forward node target
        search.pushUnknown (fun next => (next, target)) (search.graph.predecessors node)

/-- Gives `origin`, and every node that reaches it, everything that `target` reaches. -/
def backward (graph : CriticalGraph) (origin target : Node) (pruning : Bool) : CriticalSearch :=
  Loop.run (backwardStep target pruning) (graph.edgeCount + 2) { graph, stack := [origin] }

end CriticalSearch

/-! ## Cycles -/

/-- A search for a shortest path to `goal`: the node before each node found, and the nodes to visit. -/
structure PathSearch where
  graph : CriticalGraph
  previous : Std.TreeMap Node Node := ∅
  queue : Queue Node

namespace PathSearch

/-- Finds a successor for the first time, if it reaches the goal. Only such questions count that are
put to the table. -/
def discover (start goal node : Node) (search : PathSearch) (next : Node) : PathSearch :=
  if next == start || search.previous.contains next then search
  else
    let (graph, reaches) := search.graph.reaches next goal
    if reaches then
      { graph
        previous := search.previous.insert next node
        queue := search.queue.push next }
    else { search with graph }

/-- Visits the next node, unless it is the goal. -/
def step (start goal : Node) (search : PathSearch) : Option PathSearch :=
  match search.queue.pop? with
  | none => none
  | some (node, queue) =>
    if node = goal then none
    else
      some ((search.graph.successors node).foldl (discover start goal node) { search with queue })

/-- Searches from `start` until the goal comes up or nothing is left. Every node is queued once at
most. -/
def run (graph : CriticalGraph) (start goal : Node) : PathSearch :=
  Loop.run (step start goal) (graph.edgeCount + 2) { graph, queue := .ofList [start] }

/-- The way back from a node to `start`, in the direction of the edges: `path` leads on from the node.
Nothing when the way is lost. -/
def trace (previous : Std.TreeMap Node Node) (start : Node) :
    Nat → Node → List Node → Option (List Node)
  | 0, _, _ => none
  | bound + 1, node, path =>
    if node = start then some (node :: path)
    else
      match previous[node]? with
      | none => none
      | some before => trace previous start bound before (node :: path)

/-- The path that was found from `start` to `goal`. -/
def path? (search : PathSearch) (start goal : Node) : Option (List Node) :=
  if search.queue.toList.head? = some goal then
    trace search.previous start (search.previous.size + 1) goal []
  else none

end PathSearch

namespace CriticalGraph

/-- Drops every edge between nodes of a path that is not a step of the path. -/
def dropChords (path : List Node) : List Node → CriticalGraph → CriticalGraph
  | [], graph => graph
  | node :: rest, graph =>
    let chords := (graph.successors node).filter fun next =>
      path.contains next && rest.head? != some next
    dropChords path rest (chords.foldl (fun graph next => graph.dropEdge node next) graph)

/-- Cuts the edges between the nodes of a shortest path from `dst` to `src` down to that path. -/
def compactCycle (graph : CriticalGraph) (src dst : Node) : CriticalGraph :=
  let search := PathSearch.run graph dst src
  match search.path? dst src with
  | none => search.graph
  | some path => dropChords path path search.graph

/-- Takes in an edge and tells the pairs that have become reachable, in the order of discovery. An
edge between nodes that are known to be connected is not stored. -/
def insert (graph : CriticalGraph) (src dst : Node) : CriticalGraph × List (Node × Node) :=
  let (graph, known) := graph.reaches src dst
  if known then (graph, [])
  else
    let (graph, closes) := graph.reaches dst src
    let search := CriticalSearch.backward graph src dst (!closes)
    let graph :=
      if closes then (search.graph.compactCycle src dst).addEdge src dst .back
      else search.graph.addEdge src dst .forward
    (graph, search.found.reverse)

end CriticalGraph

/-! ## Walks -/

/-- A walk through the sparse graph: the nodes seen, the nodes to go on from, and what the visits have
made of their state. -/
structure CriticalWalk (σ : Type) where
  seen : Std.TreeSet Node
  stack : List Node
  state : σ

namespace CriticalWalk

variable {σ : Type}

/-- Meets a neighbour: it is visited when it is new, and gone on from when its visit asks for it. -/
def meet (visit : σ → Node → σ × Bool) (walk : CriticalWalk σ) (node : Node) : CriticalWalk σ :=
  if walk.seen.contains node then walk
  else
    let (state, deeper) := visit walk.state node
    { seen := walk.seen.insert node
      stack := if deeper then node :: walk.stack else walk.stack
      state }

/-- Goes on from the next node. -/
def step (neighbours : Node → List Node) (visit : σ → Node → σ × Bool) (walk : CriticalWalk σ) :
    Option (CriticalWalk σ) :=
  match walk.stack with
  | [] => none
  | node :: stack => some ((neighbours node).foldl (meet visit) { walk with stack })

end CriticalWalk

namespace CriticalGraph

/-- Visits what lies behind a node in the given direction, each node once. -/
def walkAlong {σ : Type} (graph : CriticalGraph) (neighbours : Node → List Node) (start : Node)
    (visit : σ → Node → σ × Bool) (state : σ) : σ :=
  (Loop.run (CriticalWalk.step neighbours visit) (graph.nodes.size + 2)
    { seen := Std.TreeSet.ofList [start], stack := [start], state }).state

/-- Visits the nodes that a node reaches. What lies behind a node is visited from it only where its
visit asks for it. -/
def walkDown {σ : Type} (graph : CriticalGraph) (start : Node) (visit : σ → Node → σ × Bool)
    (state : σ) : σ :=
  graph.walkAlong graph.successors start visit state

/-- Visits the nodes that reach a node, in the same way. -/
def walkUp {σ : Type} (graph : CriticalGraph) (start : Node) (visit : σ → Node → σ × Bool)
    (state : σ) : σ :=
  graph.walkAlong graph.predecessors start visit state

end CriticalGraph

end GrammarReach
