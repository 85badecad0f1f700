import GrammarReach.Analysis.Basic
import GrammarReach.Report.Basic

namespace GrammarReach

/-- An analysis after its run: its graph is the simplified one. -/
structure AnalysisRun where
  analysis : Analysis
  report : Report
  result? : Option SolveResult := none

/-- The pairs of two different nodes that the run found. -/
def AnalysisRun.countPairs (run : AnalysisRun) : List (Node × Node) :=
  run.result?.elim [] (·.countPairs)

namespace Analysis

/-- The analysis with a simplified graph, and what the simplification did, if the configuration asks
for one. -/
def simplify (analysis : Analysis) (config : Config) : Analysis × Option SimplifyStats :=
  if config.passes.any then
    let (graph, stats) := analysis.graph.simplify config.passes analysis.profile
    ({ analysis with graph }, some stats)
  else (analysis, none)

/-- The solver of an analysis. The count symbol of the configuration wins over that of the
analysis. -/
def solver (analysis : Analysis) (config : Config) : Except Error Solver := do
  let solver := (← Solver.prepare analysis.grammar config).withBrackets analysis.brackets
  return if config.countSymbol.isNone then solver.withCountSymbol analysis.countSymbol? else solver

def report (analysis : Analysis) (config : Config) (simplify? : Option SimplifyStats) : Report :=
  { analysis := analysis.name
    variant := config.variant.shortName
    nodes := analysis.graph.nodeCount
    edges := analysis.graph.edgeCount
    simplify? }

/-- The run of a solved analysis. -/
def finished (analysis : Analysis) (report : Report) (result : SolveResult) : AnalysisRun :=
  { analysis, report := { report with solver? := some result.stats }, result? := some result }

/-- Simplifies and solves as configured; the clock is what the deadline goes by. -/
def run (analysis : Analysis) (config : Config) (clock : Nat → Nat) : Except Error AnalysisRun := do
  config.validate.mapError .config
  let (analysis, simplify?) := analysis.simplify config
  let report := analysis.report config simplify?
  if config.solve then
    let solver ← analysis.solver config
    let result ← solver.solve analysis.seeds (.ofSeconds? config.timeout? clock)
    return analysis.finished report result
  else return { analysis, report }

end Analysis

end GrammarReach
