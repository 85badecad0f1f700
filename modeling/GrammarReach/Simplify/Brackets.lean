import GrammarReach.Graph.Merge
import GrammarReach.Loop
import GrammarReach.Queue

/-!
Pruning bracket edges that no match can use.

On a working copy, direct edges are contracted and flipped kinds turned around. A node with two or
more targets under one bracket label is an anchor for that label, and the targets are merged; this is
repeated until no node has two. A bracket edge of the graph itself is kept when it sits on an anchor
for its label, and removed otherwise.
-/

namespace GrammarReach

/-- Which kinds are brackets, and which kinds the working copy turns around. -/
structure BracketProfile where
  /-- The kinds that may be pruned; direct kinds never are. -/
  brackets : Std.TreeSet Kind := ∅
  /-- A kind and the kind that it becomes when its edges are reversed. -/
  flips : Std.TreeMap Kind Kind := ∅

namespace BracketProfile

def isEmpty (profile : BracketProfile) : Bool := profile.brackets.isEmpty

/-- Whether targets under a kind are merged: it is a bracket, or a flipped kind becomes it. -/
def collapses (profile : BracketProfile) (kind : Kind) : Bool :=
  profile.brackets.contains kind || profile.flips.values.contains kind

end BracketProfile

namespace Multigraph

/-- Merges the two ends of every direct edge. -/
def contractDirect (graph : Multigraph) : Multigraph :=
  graph.directPairs.foldl
    (fun graph (src, dst) => (graph.merge (graph.repOf dst) (graph.repOf src)).1) graph

/-- Turns one edge around if its kind is flipped. -/
def flipEdge (profile : BracketProfile) (graph : Multigraph) (slot : EdgeId × GraphEdge) :
    Multigraph :=
  match profile.flips[slot.2.label.symbol]? with
  | none => graph
  | some kind =>
    let (graph, _) := graph.removeEdge slot.1
    (graph.addEdge ⟨slot.2.dst, slot.2.src, ⟨kind, slot.2.label.index⟩⟩).1

/-- Turns the edges of flipped kinds around. -/
def flipEdges (graph : Multigraph) (profile : BracketProfile) : Multigraph :=
  graph.edges.foldl (flipEdge profile) graph

end Multigraph

/-- The labels for which nodes have been found to be anchors. -/
abbrev Anchors := Std.TreeMap Node (Std.TreeSet Label)

/-- Where the merging of targets stands: the working copy, the anchors so far, and the nodes that
still have to be examined. -/
structure FanOut where
  graph : Multigraph
  anchors : Anchors := ∅
  queue : Queue Node

namespace FanOut

/-- The targets of a node under each label that is collapsed. -/
def targetGroups (profile : BracketProfile) (graph : Multigraph) (vertex : Vertex) :
    Std.TreeMap Label (Std.TreeSet Node) :=
  (vertex.outgoing.toList.filterMap graph.edge?).foldl
    (fun groups edge =>
      if profile.collapses edge.label.symbol then
        groups.insert edge.label ((groups.getD edge.label ∅).insert edge.dst)
      else groups)
    ∅

/-- Merges a member of a group into the node that stands for its first one. -/
def mergeMember (first : Node) (state : Multigraph × Bool) (member : Node) : Multigraph × Bool :=
  let (graph, changed) := state
  let rep := graph.repOf first
  let member := graph.repOf member
  if member = rep then (graph, changed) else ((graph.merge member rep).1, true)

/-- Merges the targets that an anchor has under one label, and queues the merged node. The flag tells
whether anything has been merged since the anchor was taken up. -/
def mergeGroup (anchor : Node) (state : FanOut × Bool) (group : Label × Std.TreeSet Node) :
    FanOut × Bool :=
  let (fan, changed) := state
  let (label, targets) := group
  if targets.size < 2 then (fan, changed)
  else
    let anchors := fan.anchors.insert anchor ((fan.anchors.getD anchor ∅).insert label)
    match targets.toList.map fan.graph.repOf with
    | [] => ({ fan with anchors }, changed)
    | first :: rest =>
      let (graph, changed) := rest.foldl (mergeMember first) (fan.graph, changed)
      ({ graph, anchors, queue := fan.queue.push (graph.repOf first) }, changed)

/-- Examines the next node of the queue: merges its groups, and queues it again if that changed
anything. -/
def step (profile : BracketProfile) (fan : FanOut) : Option FanOut :=
  match fan.queue.pop? with
  | none => none
  | some (queued, queue) =>
    let fan := { fan with queue }
    let node := fan.graph.repOf queued
    match fan.graph.vertex? node with
    | none => some fan
    | some vertex =>
      let groups := (targetGroups profile fan.graph vertex).toList
      let (fan, changed) := groups.foldl (mergeGroup node) (fan, false)
      some (if changed then { fan with queue := fan.queue.push (fan.graph.repOf node) } else fan)

/-- A number of examinations that is never reached: each one that queues anything merges two nodes,
and it queues no more than one node per edge and itself. -/
def bound (graph : Multigraph) : Nat := (graph.nodeCount + 1) * (graph.edgeCount + 2)

/-- Merges targets until no node has two under one label. -/
def run (profile : BracketProfile) (graph : Multigraph) : FanOut :=
  Loop.run (step profile) (bound graph) { graph, queue := .ofList graph.nodes }

end FanOut

namespace Multigraph

/-- The edges at a node that sit on an anchor with the given labels: those that leave it under such
a label, and those that enter it and do so once turned around. -/
def anchoredAt (graph : Multigraph) (profile : BracketProfile) (labels : Std.TreeSet Label)
    (node : Node) : List EdgeId :=
  match graph.vertex? node with
  | none => []
  | some vertex =>
    let leaving := vertex.outgoing.toList.filter fun id =>
      (graph.edge? id).any fun edge =>
        !profile.flips.contains edge.label.symbol && labels.contains edge.label
    let entering := vertex.incoming.toList.filter fun id =>
      (graph.edge? id).any fun edge =>
        (profile.flips[edge.label.symbol]?).any fun kind =>
          labels.contains ⟨kind, edge.label.index⟩
    leaving ++ entering

/-- The edges of a graph that sit on an anchor, given the merged working copy. -/
def contributing (graph : Multigraph) (profile : BracketProfile) (fan : FanOut) :
    Std.TreeSet EdgeId :=
  Std.TreeSet.ofList <| fan.anchors.toList.flatMap fun (anchor, labels) =>
    let rep := fan.graph.repOf anchor
    (rep :: fan.graph.subsOf rep).flatMap (graph.anchoredAt profile labels)

/-- The bracket edges that are not among the given ones. -/
def unmatched (graph : Multigraph) (profile : BracketProfile) (kept : Std.TreeSet EdgeId) :
    List EdgeId :=
  graph.edges.filterMap fun (id, edge) =>
    let kind := edge.label.symbol
    if !graph.isDirect kind && profile.brackets.contains kind && !kept.contains id then some id
    else none

structure Pruning where
  graph : Multigraph
  /-- The number of labels for which nodes were found to be anchors. -/
  anchors : Nat
  /-- The number of edges removed. -/
  pruned : Nat

/-- Removes the bracket edges that no match can use, and marks the edges on anchors. -/
def pruneBrackets (graph : Multigraph) (profile : BracketProfile) : Pruning :=
  let fan := FanOut.run profile (graph.contractDirect.flipEdges profile)
  let kept := graph.contributing profile fan
  let doomed := graph.unmatched profile kept
  let marked := kept.toList.foldl (fun graph id => graph.setContributing id true) graph
  { graph := doomed.foldl (fun graph id => (graph.removeEdge id).1) marked
    anchors := fan.anchors.values.foldl (fun total labels => total + labels.size) 0
    pruned := doomed.length }

end Multigraph

end GrammarReach
