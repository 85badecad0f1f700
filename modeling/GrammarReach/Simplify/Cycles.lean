import GrammarReach.Components
import GrammarReach.Graph.Merge

namespace GrammarReach.Multigraph

/-- Merges the members of a component into its first node; the number tells how many were merged. -/
def mergeComponent (graph : Multigraph) (merged : Nat) : List Node → Multigraph × Nat
  | [] => (graph, merged)
  | rep :: members =>
    members.foldl
      (fun (graph, merged) member =>
        let (graph, done) := graph.merge (graph.repOf member) rep
        (graph, if done then merged + 1 else merged))
      (graph, merged)

/-- Merges every component of direct edges; the number tells how many nodes were merged away. -/
def mergeCycles (graph : Multigraph) : Multigraph × Nat :=
  (Components.ofEdges graph.directPairs).cycles.foldl
    (fun (graph, merged) members => graph.mergeComponent merged members)
    (graph, 0)

end GrammarReach.Multigraph
