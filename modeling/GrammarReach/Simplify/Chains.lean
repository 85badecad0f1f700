import GrammarReach.Graph.Merge

namespace GrammarReach.Multigraph

/-- Whether a node may be folded into the source of the direct edge that enters it. -/
def isFoldable (graph : Multigraph) (node : Node) : Bool :=
  (graph.vertex? node).any fun vertex => vertex.incoming.degree == 1 && !vertex.isSource

/-- The direct edges into foldable nodes, each as its source and the foldable node. -/
def foldableLinks (graph : Multigraph) : List (Node × Node) :=
  graph.directPairs.filter fun (_, dst) => graph.isFoldable dst

/-- Folds the end of one link into its start, unless they have become one node. -/
def foldLink (graph : Multigraph) (folded : Nat) (link : Node × Node) : Multigraph × Nat :=
  let src := graph.repOf link.1
  let dst := graph.repOf link.2
  if src = dst then (graph, folded)
  else
    let (graph, done) := graph.merge dst src
    (graph, if done then folded + 1 else folded)

/-- Folds all links found at the start, the last one first; the number tells how many nodes were
folded away. -/
def foldChains (graph : Multigraph) : Multigraph × Nat :=
  graph.foldableLinks.reverse.foldl (fun (graph, folded) link => graph.foldLink folded link)
    (graph, 0)

end GrammarReach.Multigraph
