import GrammarReach.Solve.Basic

/-!
What taking one edge from the worklist leads to.

A primary edge of an accelerated symbol goes into the closure of the symbol, and the pairs that the
closure reports come back as secondary edges. Every other edge is joined with what is stored: alone,
with the edges that leave its end, and with the edges that enter its start.
-/

namespace GrammarReach

namespace Solver

/-! ## Queueing -/

def enqueue (solver : Solver) (state : SolveState) (edge : Edge) : SolveState :=
  let item : WorkItem := ⟨edge, true⟩
  if edge.src ≠ edge.dst ∧ solver.defers edge.label.symbol then
    { state with work := state.work.defer item }
  else { state with work := state.work.push item }

/-- Stores an edge and queues it if it was new. -/
def addAndEnqueue (solver : Solver) (state : SolveState) (edge : Edge) : SolveState :=
  let (data, fresh) := state.data.add edge
  if fresh then solver.enqueue { state with data } edge else { state with data }

/-- Queues a pair that a closure holds already. -/
def announce (state : SolveState) (edge : Edge) : SolveState :=
  { state with work := state.work.push ⟨edge, false⟩ }

/-! ## Both datasets -/

/-- The labels at one side of a node, in the given order; under transitive reduction those of both
datasets, ascending. -/
def labelsAt (solver : Solver) (order : LabelOrder) (state : SolveState) (side : Side) (node : Node) :
    List Label :=
  let list (data : Dataset) : List Label :=
    match side with
    | .outgoing => (data.outLabels node).map (·.1)
    | .incoming => (data.inLabels node).map (·.1)
  if solver.reduces then
    (Std.TreeSet.ofList (list state.data ++ list state.secondary)).toList
  else order.arrange state side node (list state.data)

/-- The neighbours at one side of a node in a dataset. -/
def neighboursIn (data : Dataset) (side : Side) (node : Node) (label : Label) : NodeSet :=
  let found? := match side with
    | .outgoing => data.successors? node label
    | .incoming => data.predecessors? node label
  found?.getD .empty

/-- The neighbours to join with. A reduced production takes them from the primary dataset only. -/
def operands (solver : Solver) (state : SolveState) (side : Side) (node : Node) (label : Label)
    (reduced : Bool) : NodeSet :=
  let set := neighboursIn state.data side node label
  if solver.reduces && !reduced then set.union (neighboursIn state.secondary side node label) else set

/-- The edge between a node and a neighbour at one side of it. -/
def edgeAt (side : Side) (node neighbour : Node) (label : Label) : Edge :=
  match side with
  | .outgoing => ⟨node, neighbour, label⟩
  | .incoming => ⟨neighbour, node, label⟩

/-- Adds the edges between a node and its new neighbours to a dataset. -/
def addNeighbours (data : Dataset) (side : Side) (node : Node) (neighbours : NodeSet) (label : Label) :
    Dataset × NodeSet :=
  match side with
  | .outgoing => data.addTargets node neighbours label
  | .incoming => data.addSources neighbours node label

/-- Stores the edges between a node and its neighbours and tells which were new. Under transitive
reduction an edge is new when neither dataset has it, and goes to the secondary one when a reduced
production derived it. -/
def insertAll (solver : Solver) (state : SolveState) (side : Side) (node : Node)
    (neighbours : NodeSet) (label : Label) (reduced : Bool) : SolveState × NodeSet :=
  if solver.reduces then
    let unknown := (neighbours.difference (neighboursIn state.data side node label)).difference
      (neighboursIn state.secondary side node label)
    if reduced then
      let (secondary, fresh) := addNeighbours state.secondary side node unknown label
      ({ state with secondary }, fresh)
    else
      let (data, fresh) := addNeighbours state.data side node unknown label
      ({ state with data }, fresh)
  else
    let (data, fresh) := addNeighbours state.data side node neighbours label
    ({ state with data }, fresh)

/-! ## Joins -/

/-- A walk through a closure that adds edges: the edges stored, the lookups made, and the nodes with
new edges, the latest first. -/
structure Extension where
  data : Dataset
  checks : Nat
  added : List Node := []

/-- Extends an edge by everything that the closure of a symbol holds at one side of a node. Behind a
node whose edge is known already the walk does not go on. -/
def extendByClosure (solver : Solver) (state : SolveState) (side : Side) (fixed node : Node)
    (label : Label) (symbol : Symbol) : SolveState :=
  match state.closures[symbol]? with
  | none => state
  | some closure =>
    let visit (walk : Extension) (neighbour : Node) : Extension × Bool :=
      let (data, fresh) := walk.data.add (edgeAt side fixed neighbour label)
      ({ data
         checks := walk.checks + 1
         added := if fresh then neighbour :: walk.added else walk.added }, fresh)
    let start : Extension := { data := state.data, checks := state.checks }
    let walk := match side with
      | .outgoing => closure.walkDown node visit start
      | .incoming => closure.walkUp node visit start
    walk.added.reverse.foldl
      (fun state neighbour => solver.enqueue state (edgeAt side fixed neighbour label))
      { state with data := walk.data, checks := walk.checks }

/-- The node of an edge at which neighbours are looked for. -/
def near (side : Side) (edge : Edge) : Node :=
  match side with
  | .outgoing => edge.dst
  | .incoming => edge.src

/-- The node of an edge that derived edges keep. -/
def far (side : Side) (edge : Edge) : Node :=
  match side with
  | .outgoing => edge.src
  | .incoming => edge.dst

/-- The two labels of a join, from left to right. -/
def inOrder (side : Side) (own other : Label) : Label × Label :=
  match side with
  | .outgoing => (own, other)
  | .incoming => (other, own)

/-- Derives one label from an edge and its neighbours under another label. Where the neighbours bear
an accelerated symbol that does not change the label of the edge, its closure takes their place. -/
def joinDerived (solver : Solver) (side : Side) (edge : Edge) (other : Label) (state : SolveState)
    (derived : Label) : SolveState :=
  let fixed := far side edge
  if derived = edge.label ∧ solver.accelerates other.symbol then
    solver.extendByClosure state side fixed (near side edge) derived other.symbol
  else
    let (left, right) := inOrder side edge.label other
    let reduced := solver.isReduced left right derived
    let neighbours := solver.operands state side (near side edge) other reduced
    let (state, fresh) := solver.insertAll { state with checks := state.checks + neighbours.size }
      side fixed neighbours derived reduced
    fresh.toList.foldl
      (fun state neighbour => solver.enqueue state (edgeAt side fixed neighbour derived)) state

/-- Joins an edge with its neighbours under one label. -/
def joinLabel (solver : Solver) (side : Side) (edge : Edge) (state : SolveState) (other : Label) :
    SolveState :=
  let (left, right) := inOrder side edge.label other
  (solver.grammar.derivedBinary left right).foldl (solver.joinDerived side edge other) state

/-- Joins an edge with its neighbours at one side. -/
def join (solver : Solver) (order : LabelOrder) (side : Side) (edge : Edge) (state : SolveState) :
    SolveState :=
  (solver.labelsAt order state side (near side edge)).foldl (solver.joinLabel side edge) state

/-- Adds what an edge derives alone. -/
def deriveAlone (solver : Solver) (edge : Edge) (state : SolveState) : SolveState :=
  (solver.grammar.derivedUnary edge.label).foldl
    (fun state label =>
      let derived : Edge := { edge with label }
      if solver.reduces && state.secondary.contains derived then state
      else solver.addAndEnqueue state derived)
    state

/-- Joins an edge with everything stored. -/
def processItem (solver : Solver) (order : LabelOrder) (edge : Edge) (state : SolveState) :
    SolveState :=
  let state := solver.deriveAlone edge state
  let state := solver.join order .outgoing edge state
  solver.join order .incoming edge state

/-! ## Bracket shortcuts -/

/-- Fires a shortcut between the opening and the closing edges around a pair. -/
def fireBracket (solver : Solver) (order : LabelOrder) (rule : BracketRule) (state : SolveState)
    (pair : Node × Node) : SolveState :=
  let (src, dst) := pair
  let labels := order.arrange state .incoming src ((state.data.inLabels src).map (·.1))
  let openings := (labels.filter (·.symbol == rule.opening)).map fun label =>
    (label, neighboursIn state.data .incoming src label)
  openings.foldl
    (fun state (opening, parents) =>
      let closing := solver.grammar.label rule.closing opening.index
      let children := (neighboursIn state.data .outgoing dst closing).toList
      parents.toList.foldl
        (fun state parent => children.foldl
          (fun state child =>
            solver.addAndEnqueue { state with checks := state.checks + 1 }
              ⟨parent, child, .plain rule.result⟩)
          state)
        state)
    state

/-- Fires the shortcuts around new pairs of a symbol. -/
def fireBrackets (solver : Solver) (order : LabelOrder) (symbol : Symbol)
    (pairs : List (Node × Node)) (state : SolveState) : SolveState :=
  (solver.brackets.filter (·.inner == symbol)).foldl
    (fun state rule => pairs.foldl (solver.fireBracket order rule) state) state

/-! ## Primary edges -/

/-- Asks a closure, for each of its new pairs, whether the pair closes a cycle, and collects the nodes
of those that do. -/
def onCycles (closure : Closure) (pairs : List (Node × Node)) : Closure × List Node :=
  pairs.foldl
    (fun (closure, nodes) (src, dst) =>
      let (closure, closes) := closure.reaches dst src
      (closure, if closes then src :: dst :: nodes else nodes))
    (closure, [])

/-- Hands a primary edge to the closure of its symbol and announces the pairs that this brings, and
the loops of the nodes on cycles. -/
def processPrimary (solver : Solver) (order : LabelOrder) (edge : Edge) (state : SolveState) :
    SolveState :=
  match state.closures[edge.label.symbol]? with
  | none => state
  | some closure =>
    let (closure, pairs) := closure.insert edge.src edge.dst
    let (closure, cyclic) := onCycles closure pairs
    let state := { state with closures := state.closures.insert edge.label.symbol closure }
    let state := pairs.foldl
      (fun state (src, dst) =>
        let edge : Edge := { edge with src, dst }
        announce { state with data := (state.data.add edge).1 } edge)
      state
    let state := (ascending cyclic).foldl
      (fun state node =>
        let loop : Edge := ⟨node, node, edge.label⟩
        let (data, fresh) := state.data.add loop
        if fresh then announce { state with data } loop else { state with data })
      state
    solver.fireBrackets order edge.label.symbol pairs state

/-- Does what an item asks for. -/
def process (solver : Solver) (order : LabelOrder) (item : WorkItem) (state : SolveState) :
    SolveState :=
  let edge := item.edge
  let symbol := edge.label.symbol
  if item.primary && edge.src != edge.dst && solver.accelerates symbol then
    solver.processPrimary order edge state
  else
    let state :=
      if solver.firesBrackets symbol then
        solver.fireBrackets order symbol [(edge.src, edge.dst)] state
      else state
    solver.processItem order edge state

end Solver

end GrammarReach
