import Mathlib.Data.Finset.Card
import GrammarReach.Closure.CriticalGraph
import GrammarReach.Proofs.Closure.Reachability
import GrammarReach.Proofs.NodeSet

namespace GrammarReach.CriticalGraph

/-- An edge of the sparse graph leads from a node to another. -/
def Linked (graph : CriticalGraph) (src dst : Node) : Prop := dst ∈ graph.successors src

/-- Every edge is listed at both of its ends. -/
def Mirrored (graph : CriticalGraph) : Prop :=
  ∀ src dst, src ∈ graph.predecessors dst ↔ graph.Linked src dst

theorem linked_iff (graph : CriticalGraph) (src dst : Node) :
    graph.Linked src dst ↔ dst ∈ (graph.nodes.getD src {}).successors :=
  Std.TreeMap.mem_keys

theorem mem_predecessors (graph : CriticalGraph) (src dst : Node) :
    src ∈ graph.predecessors dst ↔ src ∈ (graph.nodes.getD dst {}).predecessors :=
  Std.TreeSet.mem_toList

/-- The edges are read off the nodes alone. -/
theorem linked_congr {graph other : CriticalGraph} (same : other.nodes = graph.nodes)
    (src dst : Node) : other.Linked src dst ↔ graph.Linked src dst := by
  unfold Linked successors
  rw [same]

theorem Mirrored.congr {graph other : CriticalGraph} (mirrored : graph.Mirrored)
    (same : other.nodes = graph.nodes) : other.Mirrored := by
  intro src dst
  rw [linked_congr same, ← mirrored src dst]
  unfold predecessors
  rw [same]

theorem not_linked_empty (src dst : Node) : ¬ empty.Linked src dst := by
  simp [linked_iff, empty]

theorem mirrored_empty : empty.Mirrored := by
  intro src dst
  simp [mem_predecessors, linked_iff, empty]

theorem linked_addEdge (graph : CriticalGraph) (src dst : Node) (tag : EdgeTag) (u v : Node) :
    (graph.addEdge src dst tag).Linked u v ↔ WithEdge graph.Linked src dst u v := by
  have kept : ((graph.addEdge src dst tag).nodes.getD u {}).successors =
      if src = u then (graph.nodes.getD src {}).successors.insert dst tag
      else (graph.nodes.getD u {}).successors := by
    simp only [addEdge, Std.TreeMap.getD_insert, Std.LawfulEqCmp.compare_eq_iff_eq]
    split <;> split <;> simp_all
  rw [linked_iff, kept, WithEdge, linked_iff]
  by_cases same : src = u
  · subst same
    simp only [if_true, Std.TreeMap.mem_insert, Std.LawfulEqCmp.compare_eq_iff_eq, true_and]
    exact or_comm.trans (or_congr_right eq_comm)
  · simp [same, Ne.symm same]

theorem mirrored_addEdge {graph : CriticalGraph} (mirrored : graph.Mirrored) (src dst : Node)
    (tag : EdgeTag) : (graph.addEdge src dst tag).Mirrored := by
  intro u v
  have kept : ((graph.addEdge src dst tag).nodes.getD v {}).predecessors =
      if dst = v then (graph.nodes.getD dst {}).predecessors.insert src
      else (graph.nodes.getD v {}).predecessors := by
    simp only [addEdge, Std.TreeMap.getD_insert, Std.LawfulEqCmp.compare_eq_iff_eq]
    split <;> split <;> simp_all
  rw [linked_addEdge, WithEdge, ← mirrored u v, mem_predecessors, mem_predecessors, kept]
  by_cases same : dst = v
  · subst same
    simp only [if_true, Std.TreeSet.mem_insert, Std.LawfulEqCmp.compare_eq_iff_eq, and_true]
    exact or_comm.trans (or_congr_right eq_comm)
  · simp [same, Ne.symm same]

/-- What changing a node does to one of its parts. -/
private theorem part_modify {β : Type} (part : CriticalNode → β) (edit : β → β)
    (change : CriticalNode → CriticalNode) (edits : ∀ node, part (change node) = edit (part node))
    (blank : edit (part {}) = part {}) (nodes : Std.TreeMap Node CriticalNode) (key node : Node) :
    part ((nodes.modify key change).getD node {}) =
      if key = node then edit (part (nodes.getD node {})) else part (nodes.getD node {}) := by
  simp only [Std.TreeMap.getD_modify, Std.LawfulEqCmp.compare_eq_iff_eq]
  split
  · next same =>
    subst same
    rw [Std.TreeMap.getD_eq_getD_getElem?]
    cases nodes[key]? with
    | none => exact blank.symm
    | some found => exact edits found
  · rfl

private theorem parts_dropEdge {graph : CriticalGraph} {src dst : Node} {tag : EdgeTag}
    (tagged : graph.tag? src dst = some tag) (node : Node) :
    ((graph.dropEdge src dst).nodes.getD node {}).successors =
        (if src = node then (graph.nodes.getD node {}).successors.erase dst
        else (graph.nodes.getD node {}).successors) ∧
      ((graph.dropEdge src dst).nodes.getD node {}).predecessors =
        if dst = node then (graph.nodes.getD node {}).predecessors.erase src
        else (graph.nodes.getD node {}).predecessors := by
  let cut (node : CriticalNode) : CriticalNode :=
    { node with successors := node.successors.erase dst }
  let uncut (node : CriticalNode) : CriticalNode :=
    { node with predecessors := node.predecessors.erase src }
  have nodes : (graph.dropEdge src dst).nodes = (graph.nodes.modify src cut).modify dst uncut := by
    simp [dropEdge, tagged, cut, uncut]
  rw [nodes]
  constructor
  · rw [part_modify (·.successors) id uncut (fun _ => rfl) rfl,
      part_modify (·.successors) (·.erase dst) cut (fun _ => rfl) Std.TreeMap.erase_emptyc]
    exact ite_self _
  · rw [part_modify (·.predecessors) (·.erase src) uncut (fun _ => rfl) Std.TreeSet.erase_emptyc,
      part_modify (·.predecessors) id cut (fun _ => rfl) rfl]
    simp only [id, ite_self]

/-- An edge without a tag is not there. -/
private theorem not_linked_of_tag?_eq_none {graph : CriticalGraph} {src dst : Node}
    (untagged : graph.tag? src dst = none) : ¬ graph.Linked src dst := by
  rw [linked_iff, Std.TreeMap.mem_iff_isSome_getElem?]
  rw [tag?] at untagged
  simp [untagged]

theorem linked_dropEdge (graph : CriticalGraph) (src dst u v : Node) :
    (graph.dropEdge src dst).Linked u v ↔ graph.Linked u v ∧ ¬ (u = src ∧ v = dst) := by
  cases tagged : graph.tag? src dst with
  | none =>
    simp only [dropEdge, tagged]
    refine (and_iff_left_of_imp ?_).symm
    rintro link ⟨rfl, rfl⟩
    exact not_linked_of_tag?_eq_none tagged link
  | some tag =>
    rw [linked_iff, (parts_dropEdge tagged u).1, linked_iff]
    by_cases same : src = u
    · subst same
      rw [if_pos rfl, Std.TreeMap.mem_erase, ne_eq, Std.LawfulEqCmp.compare_eq_iff_eq]
      simp only [true_and]
      exact and_comm.trans (and_congr_right fun _ => not_congr eq_comm)
    · simp [same, Ne.symm same]

theorem mirrored_dropEdge {graph : CriticalGraph} (mirrored : graph.Mirrored) (src dst : Node) :
    (graph.dropEdge src dst).Mirrored := by
  intro u v
  cases tagged : graph.tag? src dst with
  | none =>
    simp only [dropEdge, tagged]
    exact mirrored u v
  | some tag =>
    rw [linked_dropEdge, ← mirrored u v, mem_predecessors, mem_predecessors,
      (parts_dropEdge tagged v).2]
    by_cases same : dst = v
    · subst same
      rw [if_pos rfl, Std.TreeSet.mem_erase, ne_eq, Std.LawfulEqCmp.compare_eq_iff_eq]
      simp only [and_true]
      exact and_comm.trans (and_congr_right fun _ => not_congr eq_comm)
    · simp [same, Ne.symm same]

theorem reachable_dropEdge (graph : CriticalGraph) (src dst : Node) :
    (graph.dropEdge src dst).reachable = graph.reachable := by
  unfold dropEdge
  split <;> rfl

/-- Dropping the edges from a node to some others. -/
theorem foldl_dropEdge (graph : CriticalGraph) (src : Node) (targets : List Node) :
    let dropped := targets.foldl (fun graph dst => graph.dropEdge src dst) graph
    (∀ u v, dropped.Linked u v ↔ graph.Linked u v ∧ ¬ (u = src ∧ v ∈ targets)) ∧
      (graph.Mirrored → dropped.Mirrored) ∧ dropped.reachable = graph.reachable := by
  induction targets generalizing graph with
  | nil => simp
  | cons dst targets ih =>
    obtain ⟨links, mirrors, table⟩ := ih (graph.dropEdge src dst)
    refine ⟨fun u v => ?_, fun mirrored => mirrors (mirrored_dropEdge mirrored src dst),
      table.trans (reachable_dropEdge graph src dst)⟩
    rw [List.foldl_cons, links, linked_dropEdge, List.mem_cons]
    tauto

def links (graph : CriticalGraph) : Finset (Node × Node) :=
  (graph.nodes.toList.flatMap fun (src, node) => node.successors.keys.map (src, ·)).toFinset

theorem mem_links (graph : CriticalGraph) (src dst : Node) :
    (src, dst) ∈ graph.links ↔ graph.Linked src dst := by
  simp only [links, List.mem_toFinset, List.mem_flatMap, List.mem_map, Prod.exists, Prod.mk.injEq,
    Std.TreeMap.mem_toList_iff_getElem?_eq_some, Linked, successors,
    Std.TreeMap.getD_eq_getD_getElem?]
  constructor
  · rintro ⟨_, node, found, _, listed, rfl, rfl⟩
    simpa [found] using listed
  · intro listed
    cases found : graph.nodes[src]? with
    | none => simp [found] at listed
    | some node => exact ⟨src, node, found, dst, by simpa [found] using listed, rfl, rfl⟩

theorem card_links_le (graph : CriticalGraph) : graph.links.card ≤ graph.edgeCount := by
  refine (List.toFinset_card_le _).trans (Nat.le_of_eq ?_)
  rw [edgeCount, Std.TreeMap.foldl_eq_foldl_toList, List.length_flatMap]
  have total : ∀ (entries : List (Node × CriticalNode)) (start : Nat),
      entries.foldl (fun total entry => total + entry.2.successors.size) start =
        start + (entries.map fun entry =>
          (entry.2.successors.keys.map fun dst => (entry.1, dst)).length).sum := by
    intro entries
    induction entries with
    | nil => simp
    | cons entry entries ih =>
      intro start
      rw [List.foldl_cons, ih, List.map_cons, List.sum_cons, List.length_map,
        Std.TreeMap.length_keys, Nat.add_assoc]
  rw [total, Nat.zero_add]

theorem nodup_successors (graph : CriticalGraph) (node : Node) : (graph.successors node).Nodup :=
  Std.TreeMap.nodup_keys

theorem nodup_predecessors (graph : CriticalGraph) (node : Node) :
    (graph.predecessors node).Nodup :=
  Std.TreeSet.distinct_toList.imp fun apart same =>
    apart (Std.LawfulEqCmp.compare_eq_iff_eq.mpr same)

/-- Every row of the table is laid out well. -/
def Tabled (graph : CriticalGraph) : Prop := ∀ node, (graph.reachable.getD node .empty).Valid

theorem knows_iff (graph : CriticalGraph) (src dst : Node) :
    graph.knows src dst ↔ src = dst ∨ (graph.reachable.getD src .empty).contains dst := by
  simp [knows]

theorem knows_self (graph : CriticalGraph) (node : Node) : graph.knows node node :=
  (knows_iff graph node node).mpr (.inl rfl)

theorem knows_congr {graph other : CriticalGraph} (same : other.reachable = graph.reachable)
    (src dst : Node) : other.knows src dst = graph.knows src dst := by
  unfold knows
  rw [same]

theorem Tabled.congr {graph other : CriticalGraph} (tabled : graph.Tabled)
    (same : other.reachable = graph.reachable) : other.Tabled := by
  intro node
  rw [same]
  exact tabled node

theorem tabled_empty : empty.Tabled := by
  intro node
  simpa [empty] using NodeSet.valid_empty

theorem knows_empty (src dst : Node) : empty.knows src dst ↔ src = dst := by
  simp [knows, empty, NodeSet.not_contains_empty]

/-- The table tells what the sparse graph connects. -/
def Exact (graph : CriticalGraph) : Prop :=
  ∀ u v, graph.knows u v ↔ Relation.ReflTransGen graph.Linked u v

/-- Entering a pair into the table enters nothing else. -/
theorem knows_insertRow {graph : CriticalGraph} (tabled : graph.Tabled) (src dst : Node)
    (other : CriticalGraph) (entered : other.reachable = graph.reachable.insert src
      ((graph.reachable.getD src .empty).insert dst).1) :
    other.Tabled ∧ ∀ u v, other.knows u v ↔ graph.knows u v ∨ (u = src ∧ v = dst) := by
  have row : ∀ node, other.reachable.getD node .empty =
      if src = node then ((graph.reachable.getD src .empty).insert dst).1
      else graph.reachable.getD node .empty := by
    intro node
    simp only [entered, Std.TreeMap.getD_insert, Std.LawfulEqCmp.compare_eq_iff_eq]
  constructor
  · intro node
    rw [row]
    split
    · exact NodeSet.valid_insert (tabled src) dst
    · exact tabled node
  · intro u v
    rw [knows_iff, knows_iff, row]
    split
    · next same =>
      subst same
      rw [NodeSet.contains_insert (tabled src)]
      tauto
    · next differs => simp [Ne.symm differs]

end GrammarReach.CriticalGraph
