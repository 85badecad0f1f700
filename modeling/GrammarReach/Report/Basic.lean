import GrammarReach.Simplify.Run
import GrammarReach.Solve.Stats

namespace GrammarReach

/-- The report of a run. What did not take place is left out. -/
structure Report where
  analysis : String
  variant : String
  /-- The number of nodes that were solved for. -/
  nodes : Nat := 0
  /-- The number of edges of the graph that was solved for. -/
  edges : Nat := 0
  simplify? : Option SimplifyStats := none
  solver? : Option SolverStats := none

/-- The form in which a report is printed. -/
inductive ReportFormat where
  | text
  | json
deriving DecidableEq, Inhabited

end GrammarReach
