import GrammarReach.Json.Basic
import GrammarReach.Report.Text

namespace GrammarReach

def SimplifyStats.toJson (stats : SimplifyStats) : Json :=
  .object [
    ("nodes_before", .nat stats.nodesBefore),
    ("edges_before", .nat stats.edgesBefore),
    ("nodes_after", .nat stats.nodesAfter),
    ("edges_after", .nat stats.edgesAfter),
    ("scc_merged", .nat stats.sccMerged),
    ("folded", .nat stats.folded),
    ("anchors", .nat stats.anchors),
    ("pruned_edges", .nat stats.prunedEdges),
    ("duration_ms", .float stats.durationMs)]

def SolverStats.toJson (stats : SolverStats) : Json :=
  .object [
    ("variant", .string stats.variant),
    ("nodes", .nat stats.nodes),
    ("seed_edges", .nat stats.seedEdges),
    ("iterations", .nat stats.iterations),
    ("checks", .nat stats.checks),
    ("accelerator_checks", .nat stats.acceleratorChecks),
    ("reachable_pairs", .nat stats.reachablePairs),
    ("total_edges", .nat stats.totalEdges),
    ("summary_edges", .nat stats.summaryEdges),
    ("symbol_counts",
      .object (stats.symbolCounts.toList.map fun (name, count) => (name, .nat count))),
    ("count_symbol", stats.countSymbol.elim .null .string),
    ("count_pairs", .nat stats.countPairs),
    ("solve_ms", .float stats.solveMs)]

namespace Report

/-- A report as JSON; what did not take place has no member. -/
def toJson (report : Report) : Json :=
  .object <|
    [("analysis", .string report.analysis),
      ("variant", .string report.variant),
      ("nodes", .nat report.nodes),
      ("edges", .nat report.edges)] ++
    report.simplify?.toList.map (fun stats => ("simplify", stats.toJson)) ++
    report.solver?.toList.map (fun stats => ("solver", stats.toJson))

/-- A report in the form asked for. -/
def render (report : Report) : ReportFormat → String
  | .text => report.toText
  | .json => report.toJson.pretty ++ "\n"

end Report

end GrammarReach
