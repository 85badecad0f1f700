import GrammarReach.Decimal.Fixed
import GrammarReach.Report.Basic

namespace GrammarReach

/-- A text with blanks behind it up to a width in characters; a longer one stays as it is. -/
def padRight (width : Nat) (text : String) : String := text.pushn ' ' (width - text.length)

/-- The number of characters before the figure of a line. -/
def figureColumn : Nat := 18

/-- A figure behind its name. -/
def figureLine (name figure : String) : String := padRight figureColumn (name ++ ":") ++ figure

/-- A duration in milliseconds, with two places. -/
def durationText (ms : Decimal.Binary64) : String := ms.twoPlaces ++ " ms"

namespace SimplifyStats

def lines (stats : SimplifyStats) : List String :=
  [figureLine "simplify"
      (toString stats.nodesBefore ++ " -> " ++ toString stats.nodesAfter ++ " nodes, " ++
        toString stats.edgesBefore ++ " -> " ++ toString stats.edgesAfter ++ " edges"),
    figureLine "  scc merged" (toString stats.sccMerged),
    figureLine "  folded" (toString stats.folded),
    figureLine "  anchors" (toString stats.anchors),
    figureLine "  pruned edges" (toString stats.prunedEdges),
    figureLine "  time" (durationText stats.durationMs)]

end SimplifyStats

namespace SolverStats

/-- The lines about closures, where there were any. -/
def closureLines (stats : SolverStats) : List String :=
  if 0 < stats.acceleratorChecks ∨ 0 < stats.reachablePairs then
    [figureLine "closure checks" (toString stats.acceleratorChecks),
      figureLine "closure pairs" (toString stats.reachablePairs)]
  else []

def lines (stats : SolverStats) : List String :=
  [figureLine "iterations" (toString stats.iterations),
    figureLine "checks" (toString stats.checks)] ++
  stats.closureLines ++
  [figureLine "total edges" (toString stats.totalEdges),
    figureLine "summary edges" (toString stats.summaryEdges)] ++
  stats.symbolCounts.toList.map (fun (name, count) =>
    padRight figureColumn ("  " ++ name) ++ toString count) ++
  stats.countSymbol.toList.map (fun name =>
    name ++ " pairs:         " ++ toString stats.countPairs) ++
  [figureLine "solve time" (durationText stats.solveMs)]

end SolverStats

namespace Report

def lines (report : Report) : List String :=
  ["== " ++ report.analysis ++ " (" ++ report.variant ++ ") ==",
    figureLine "nodes" (toString report.nodes),
    figureLine "edges" (toString report.edges)] ++
  report.simplify?.elim [] (·.lines) ++ report.solver?.elim [] (·.lines)

def toText (report : Report) : String := String.join (report.lines.map (· ++ "\n"))

end Report

end GrammarReach
