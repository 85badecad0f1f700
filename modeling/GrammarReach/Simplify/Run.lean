import GrammarReach.Config.Basic
import GrammarReach.Decimal.Binary64
import GrammarReach.Simplify.Brackets
import GrammarReach.Simplify.Chains
import GrammarReach.Simplify.Cycles

namespace GrammarReach

structure SimplifyStats where
  nodesBefore : Nat := 0
  edgesBefore : Nat := 0
  nodesAfter : Nat := 0
  edgesAfter : Nat := 0
  sccMerged : Nat := 0
  folded : Nat := 0
  anchors : Nat := 0
  prunedEdges : Nat := 0
  durationMs : Decimal.Binary64 := .zero

namespace Multigraph

/-- Runs the configured passes. Pruning is skipped for a profile without bracket kinds. -/
def simplify (graph : Multigraph) (passes : Passes) (profile : BracketProfile) :
    Multigraph × SimplifyStats :=
  let stats : SimplifyStats := { nodesBefore := graph.nodeCount, edgesBefore := graph.edgeCount }
  let (graph, sccMerged) := if passes.scc then graph.mergeCycles else (graph, 0)
  let (graph, folded) := if passes.fold then graph.foldChains else (graph, 0)
  let pruning : Pruning :=
    if passes.interDyck && !profile.isEmpty then graph.pruneBrackets profile
    else { graph, anchors := 0, pruned := 0 }
  (pruning.graph,
    { stats with
      nodesAfter := pruning.graph.nodeCount
      edgesAfter := pruning.graph.edgeCount
      sccMerged
      folded
      anchors := pruning.anchors
      prunedEdges := pruning.pruned })

end Multigraph

end GrammarReach
