import GrammarReach.Graph.Basic

/-!
Merging one node into another.

Every edge at the merged node moves to the representative. Edges that become equal collapse into one,
and direct edges that become loops vanish. The merged node and all that were merged into it before
become members of the representative.
-/

namespace GrammarReach.Multigraph

/-- Takes the edges out of a list of slots and collects those that were live, in order. -/
def detach (graph : Multigraph) : List EdgeId → Multigraph × List GraphEdge
  | [] => (graph, [])
  | id :: ids =>
    let (graph, edge?) := graph.removeEdge id
    let (graph, edges) := graph.detach ids
    (graph, edge?.toList ++ edges)

/-- Makes a node that has no edges left a member of another live node, with its own members. -/
def retire (graph : Multigraph) (node rep : Node) : Multigraph :=
  let inherited := graph.subsOf node
  let wasSource := (graph.vertex? node).any (·.isSource)
  { graph with
    vertices := (graph.vertices.erase node).modify rep fun vertex =>
      { vertex with isSource := vertex.isSource || wasSource }
    merged := inherited.foldl (fun merged sub => merged.insert sub rep) (graph.merged.insert node rep)
    members := (graph.members.erase node).insert rep (graph.subsOf rep ++ inherited ++ [node]) }

/-- Puts an edge back after `node` gave way to `rep`, with its mark if it gets a slot. -/
def reattach (node rep : Node) (graph : Multigraph) (edge : GraphEdge) : Multigraph :=
  let moved (stop : Node) : Node := if stop = node then rep else stop
  let (graph, id?) := graph.addEdge ⟨moved edge.src, moved edge.dst, edge.label⟩
  match id? with
  | some id => graph.setContributing id edge.contributing
  | none => graph

/-- Merges a live node into the representative of `target`. The flag is false, and nothing happens,
when the two are one node already or the first is not live. -/
def merge (graph : Multigraph) (node target : Node) : Multigraph × Bool :=
  let rep := graph.repOf target
  match graph.vertex? node with
  | none => (graph, false)
  | some vertex =>
    if node = rep then (graph, false)
    else
      let touching := Std.TreeSet.ofList (vertex.incoming.toList ++ vertex.outgoing.toList)
      let graph := { graph with vertices := graph.vertices.insertIfNew rep {} }
      let (graph, moved) := graph.detach touching.toList
      (moved.foldl (reattach node rep) (graph.retire node rep), true)

end GrammarReach.Multigraph
