import GrammarReach.Dataset
import GrammarReach.Deadline
import GrammarReach.Loop
import GrammarReach.Solve.Extent

/-!
Solving generation by generation.

A generation joins the edges that the generation before it found with everything known so far. What
that derives and was not known is the next generation; solving ends with one that is empty.
-/

namespace GrammarReach

/-- The state between two generations: all edges, the edges of the latest generation, and counters. -/
structure Generations where
  full : Dataset := .empty
  delta : Dataset := .empty
  /-- The number of generations that have been joined. -/
  count : Nat := 0
  /-- The number of edges derived, known ones and repetitions included. -/
  candidates : Nat := 0
  /-- The size of the largest generation. -/
  largestDelta : Nat := 0

namespace Generations

/-- Adds an edge to all edges, and to the latest generation if it was not known. -/
def discover (state : Generations) (edge : Edge) : Generations :=
  let (full, fresh) := state.full.add edge
  if fresh then { state with full, delta := (state.delta.add edge).1 } else { state with full }

/-- Adds what a node starts with: the edges of the empty productions, which belong to the first
generation, and the reflexive labels, which are only stored. -/
def seedNode (nullable reflexive : List Label) (state : Generations) (node : Node) : Generations :=
  let state := nullable.foldl (fun state label => state.discover ⟨node, node, label⟩) state
  reflexive.foldl
    (fun state label => { state with full := (state.full.add ⟨node, node, label⟩).1 }) state

/-- The first generation: the seed edges and the edges of the empty productions. -/
def start (grammar : Grammar) (seeds : SeedGraph) : Generations :=
  let state := seeds.edges.foldl discover {}
  seeds.nodes.toList.foldl (seedNode (grammar.nullable.toList.map .plain) seeds.reflexive) state

/-- What an edge derives, alone, with the edges that leave its end, and with those that enter its
start. -/
def derive (grammar : Grammar) (full : Dataset) (edge : Edge) : List Edge :=
  let alone := (grammar.derivedUnary edge.label).map fun label => ⟨edge.src, edge.dst, label⟩
  let before := (full.outLabels edge.dst).flatMap fun (right, targets) =>
    (grammar.derivedBinary edge.label right).flatMap fun label =>
      targets.toList.map fun dst => ⟨edge.src, dst, label⟩
  let behind := (full.inLabels edge.src).flatMap fun (left, sources) =>
    (grammar.derivedBinary left edge.label).flatMap fun label =>
      sources.toList.map fun src => ⟨src, edge.dst, label⟩
  alone ++ before ++ behind

/-- Joins the latest generation and makes what is new the next one. -/
def advance (grammar : Grammar) (state : Generations) : Generations :=
  let candidates := state.delta.edges.flatMap (derive grammar state.full)
  let next := candidates.foldl
    (fun next edge => if state.full.contains edge then next else (next.add edge).1) Dataset.empty
  { full := (state.full.absorb next).1
    delta := next
    count := state.count + 1
    candidates := state.candidates + candidates.length
    largestDelta := max state.largestDelta state.delta.edgeCount }

/-- Joins the latest generation, unless it is empty or the deadline has expired. -/
def step (grammar : Grammar) (deadline : Deadline) (state : Generations) : Option Generations :=
  if state.delta.isEmpty || deadline.expired state.count then none else some (state.advance grammar)

/-- More than the number of generations that are not empty. Each of them adds an edge. -/
def bound (grammar : Grammar) (seeds : SeedGraph) : Nat := seeds.edgeExtent grammar [] + 2

/-- Joins generations until one is empty. -/
def solve (grammar : Grammar) (seeds : SeedGraph) (deadline : Deadline) : Except Error Generations :=
  let state := Loop.run (step grammar deadline) (bound grammar seeds) (start grammar seeds)
  if state.delta.isEmpty then .ok state else .error (deadline.timeout state.count)

end Generations

end GrammarReach
