import GrammarReach.Label
import GrammarReach.Loop

/-!
Strongly connected components of a list of edges, found in one depth-first search.

The search numbers the nodes in the order in which it opens them and keeps the open ones on a stack.
A node that has been opened has a frame while its successors are looked at. It knows the least number
that was seen on the stack from it, or from what was opened below it; a node that saw none below its own
number closes a component, which is the top of the stack down to that node.
-/

namespace GrammarReach

/-- The successors of every node that an edge mentions, ascending and each once. -/
abbrev Successors := Std.TreeMap Node (Std.TreeSet Node)

def Successors.ofEdges (edges : List (Node × Node)) : Successors :=
  edges.foldl
    (fun map (src, dst) =>
      let map := map.insert src ((map.getD src ∅).insert dst)
      map.insert dst (map.getD dst ∅))
    ∅

/-- Where a depth-first search stands. -/
structure Search where
  /-- The number of each node that has been opened. -/
  numbers : Std.TreeMap Node Nat := ∅
  /-- The least number that each opened node knows of. -/
  lows : Std.TreeMap Node Nat := ∅
  /-- The nodes whose component is still open, the latest first. -/
  stack : List Node := []
  /-- The nodes of the stack. -/
  onStack : Std.TreeSet Node := ∅
  /-- The nodes under exploration, the latest first, each with the successors yet to be looked at. -/
  frames : List (Node × List Node) := []
  /-- The components closed so far, the latest first. -/
  closed : List (List Node) := []
  /-- The nodes from which exploration has yet to start, unless they have been opened by then. -/
  roots : List Node := []

namespace Search

/-- The number that the next node to be opened receives. -/
def next (search : Search) : Nat := search.numbers.size

/-- Numbers a node, puts it on the stack and turns to its successors. -/
def openNode (successors : Successors) (search : Search) (node : Node) : Search :=
  { search with
    numbers := search.numbers.insert node search.next
    lows := search.lows.insert node search.next
    stack := node :: search.stack
    onStack := search.onStack.insert node
    frames := (node, (successors.getD node ∅).toList) :: search.frames }

/-- Lets a node know of a number. -/
def lower (search : Search) (node : Node) (number : Nat) : Search :=
  { search with lows := search.lows.modify node (min · number) }

/-- Lets the node under exploration know what a node below it knows. -/
def report (search : Search) (node : Node) : Search :=
  match search.frames, search.lows[node]? with
  | (parent, _) :: _, some low => search.lower parent low
  | _, _ => search

/-- Takes the component of a node off the stack: everything down to the node. -/
def closeNode (search : Search) (node : Node) : Search :=
  let members := node :: search.stack.takeWhile (· != node)
  { search with
    stack := (search.stack.dropWhile (· != node)).tail
    onStack := members.foldl (·.erase ·) search.onStack
    closed := members :: search.closed }

/-- Looks at the next successor of the node under exploration. When none is left, the node reports to
the one that it was opened from and closes its component, if it saw none but its own number; without a
node under exploration, the next root is opened. -/
def step (successors : Successors) (search : Search) : Option Search :=
  match search.frames with
  | (node, target :: targets) :: frames =>
    let search := { search with frames := (node, targets) :: frames }
    match search.numbers[target]? with
    | none => some (search.openNode successors target)
    | some number =>
      some (if search.onStack.contains target then search.lower node number else search)
  | (node, []) :: frames =>
    let search := { search with frames }.report node
    some (if search.lows[node]? = search.numbers[node]? then search.closeNode node else search)
  | [] =>
    match search.roots with
    | [] => none
    | root :: roots =>
      let search := { search with roots }
      some (if search.numbers.contains root then search else search.openNode successors root)

/-- A number of steps that is never reached: each node is tried as a root, opened and left once, and each
of its successors is looked at once. -/
def bound (successors : Successors) : Nat :=
  successors.keys.foldr (fun node total => (successors.getD node ∅).size + 2 + total) 1

/-- Explores from every node in ascending order, skipping those that have been opened already. -/
def run (successors : Successors) : Search :=
  Loop.run (step successors) (bound successors) { roots := successors.keys }

end Search

/-- What the components of a graph are. -/
structure Components where
  /-- The components of two nodes and more, each ascending, by their least node. -/
  cycles : List (List Node) := []
  /-- The nodes that are a component alone and have an edge to themselves, ascending. -/
  loops : List Node := []
  /-- The least node of the component, for each node of a component of two and more. -/
  representatives : Std.TreeMap Node Node := ∅
  nodeCount : Nat := 0
  edgeCount : Nat := 0
  /-- The size of the largest component. -/
  largest : Nat := 0

namespace Components

/-- The number of nodes that would vanish if each component became one node. -/
def collapsed (components : Components) : Nat :=
  components.cycles.foldl (fun total cycle => total + (cycle.length - 1)) 0

def ofEdges (edges : List (Node × Node)) : Components :=
  let successors := Successors.ofEdges edges
  let classes := (Search.run successors).closed.map fun members => (Std.TreeSet.ofList members).toList
  let cycles := (classes.filter fun members => 1 < members.length).mergeSort
    fun a b => @decide _ (List.decidableLE a b)
  let looped := Std.TreeSet.ofList ((edges.filter fun (src, dst) => src == dst).map (·.1))
  let alone := classes.filterMap fun
    | [node] => if looped.contains node then some node else none
    | _ => none
  { cycles
    loops := (Std.TreeSet.ofList alone).toList
    representatives := cycles.foldl
      (fun map members => members.foldl (fun map node => map.insert node (members.headD node)) map) ∅
    nodeCount := successors.size
    edgeCount := edges.length
    largest := (classes.map (·.length)).foldl max 0 }

end Components

end GrammarReach
