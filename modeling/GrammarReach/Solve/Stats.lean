import GrammarReach.Decimal.Binary64
import GrammarReach.Solve.Basic

namespace GrammarReach

structure SolverStats where
  variant : String
  nodes : Nat := 0
  seedEdges : Nat := 0
  /-- The number of items taken from the worklist, or of generations. -/
  iterations : Nat := 0
  /-- The number of lookups made in order to add an edge, or of edges derived in all generations. -/
  checks : Nat := 0
  /-- The number of membership checks inside closures. -/
  acceleratorChecks : Nat := 0
  /-- The number of pairs that closures hold. -/
  reachablePairs : Nat := 0
  totalEdges : Nat := 0
  /-- The number of edges under a symbol that heads a production. -/
  summaryEdges : Nat := 0
  /-- The number of edges per name of a symbol. -/
  symbolCounts : Std.TreeMap String Nat := ∅
  countSymbol : Option String := none
  /-- The number of pairs of two different nodes under the count symbol. -/
  countPairs : Nat := 0
  solveMs : Decimal.Binary64 := .zero

/-- The edges of a finished solve. -/
structure SolveResult where
  data : Dataset
  stats : SolverStats
  countSymbol? : Option Symbol

namespace SolveResult

/-- The pairs under the count symbol, ascending, nodes with themselves included. -/
def allPairs (result : SolveResult) : List (Node × Node) :=
  result.countSymbol?.elim [] result.data.pairs

/-- The pairs of two different nodes under the count symbol, ascending. -/
def countPairs (result : SolveResult) : List (Node × Node) :=
  result.allPairs.filter fun (src, dst) => src != dst

end SolveResult

namespace Solver

/-- A sum over the closures of a state. -/
def closureSum (count : Closure → Nat) (state : SolveState) : Nat :=
  state.closures.foldl (fun total _ closure => total + count closure) 0

/-- The number of edges under a symbol that heads a production. -/
def summaryEdges (grammar : Grammar) (data : Dataset) : Nat :=
  let heads := grammar.nonterminals
  data.symbolCounts.foldl
    (fun total symbol count => if heads.contains symbol then total + count else total) 0

/-- The number of edges per name; symbols without a name share a stand-in, and the last of them
counts. -/
def namedCounts (grammar : Grammar) (data : Dataset) : Std.TreeMap String Nat :=
  data.symbolCounts.foldl
    (fun named symbol count => named.insert (grammar.nameOrFault symbol) count) ∅

def result (solver : Solver) (seeds : SeedGraph) (state : SolveState) : SolveResult :=
  let stats : SolverStats :=
    { variant := solver.variant.shortName
      nodes := seeds.nodeCount
      seedEdges := seeds.edges.length
      iterations := state.iterations
      checks := state.checks
      acceleratorChecks := closureSum (·.checks) state
      reachablePairs := closureSum (·.pairs) state
      totalEdges := state.data.edgeCount
      summaryEdges := summaryEdges solver.grammar state.data
      symbolCounts := namedCounts solver.grammar state.data
      countSymbol := solver.countSymbol?.map solver.grammar.nameOrFault }
  let result : SolveResult := { data := state.data, stats, countSymbol? := solver.countSymbol? }
  { result with stats := { stats with countPairs := result.countPairs.length } }

end Solver

end GrammarReach
