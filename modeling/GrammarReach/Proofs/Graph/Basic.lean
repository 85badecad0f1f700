import Mathlib.Data.List.Nodup
import GrammarReach.Graph.Basic

/-!
What a multigraph means: a set of edges, each in a slot of its own, between live nodes, and a
representative for every node. The incidences, the slots and the table of slots all agree on the
edges, and every operation keeps it that way.
-/

namespace GrammarReach

namespace Incidence

variable {incidence : Incidence}

/-- No kind is listed without a slot. -/
def Valid (incidence : Incidence) : Prop :=
  ∀ (kind : Kind) (slots : Std.TreeSet EdgeId), incidence.byKind[kind]? = some slots →
    slots.isEmpty = false

theorem mem_ofKind (incidence : Incidence) (kind : Kind) (id : EdgeId) :
    id ∈ incidence.ofKind kind ↔ ∃ slots, incidence.byKind[kind]? = some slots ∧ id ∈ slots := by
  rw [ofKind, Std.TreeSet.mem_toList, Std.TreeMap.getD_eq_getD_getElem?]
  cases incidence.byKind[kind]? <;> simp

theorem mem_toList (incidence : Incidence) (id : EdgeId) :
    id ∈ incidence.toList ↔ ∃ kind, id ∈ incidence.ofKind kind := by
  simp only [toList, List.mem_flatMap, Prod.exists, Std.TreeMap.mem_toList_iff_getElem?_eq_some,
    Std.TreeSet.mem_toList, mem_ofKind]

/-- The degree counts the slots. -/
theorem degree_eq (incidence : Incidence) : incidence.degree = incidence.toList.length := by
  rw [degree, toList, Std.TreeMap.foldl_eq_foldl_toList, List.length_flatMap]
  have general : ∀ (rows : List (Kind × Std.TreeSet EdgeId)) (total : Nat),
      rows.foldl (fun total row => total + row.2.size) total =
        total + (rows.map fun row => row.2.toList.length).sum := by
    intro rows
    induction rows with
    | nil => simp
    | cons row rows ih =>
      intro total
      rw [List.foldl_cons, ih, List.map_cons, List.sum_cons, Std.TreeSet.length_toList, Nat.add_assoc]
  rw [general, Nat.zero_add]

/-- Where the degree is one, there is only one slot. -/
theorem eq_of_degree (single : incidence.degree = 1) {first second : EdgeId}
    (one : first ∈ incidence.toList) (two : second ∈ incidence.toList) : first = second := by
  rw [degree_eq] at single
  obtain ⟨only, listed⟩ := List.length_eq_one_iff.mp single
  rw [listed, List.mem_singleton] at one two
  rw [one, two]

theorem valid_empty : ({} : Incidence).Valid := by
  intro kind slots found
  simp at found

theorem not_mem_empty (kind : Kind) (id : EdgeId) : id ∉ ({} : Incidence).ofKind kind := by
  simp [mem_ofKind]

theorem mem_insert (incidence : Incidence) (kind other : Kind) (id slot : EdgeId) :
    slot ∈ (incidence.insert kind id).ofKind other ↔
      slot ∈ incidence.ofKind other ∨ (other = kind ∧ slot = id) := by
  rw [ofKind, ofKind, Std.TreeSet.mem_toList, Std.TreeSet.mem_toList, insert]
  simp only [Std.TreeMap.getD_insert, Std.LawfulEqCmp.compare_eq_iff_eq]
  split
  · next same =>
    subst same
    rw [Std.TreeSet.mem_insert, Std.LawfulEqCmp.compare_eq_iff_eq, or_comm]
    simp [eq_comm]
  · next differ =>
    refine (or_iff_left ?_).symm
    rintro ⟨rfl, -⟩
    exact differ rfl

theorem valid_insert (valid : incidence.Valid) (kind : Kind) (id : EdgeId) :
    (incidence.insert kind id).Valid := by
  intro other slots found
  simp only [insert, Std.TreeMap.getElem?_insert, Std.LawfulEqCmp.compare_eq_iff_eq] at found
  split at found
  · rw [← Option.some.inj found, Std.TreeSet.isEmpty_insert]
  · exact valid other slots found

theorem mem_erase (incidence : Incidence) (kind other : Kind) (id slot : EdgeId) :
    slot ∈ (incidence.erase kind id).ofKind other ↔
      slot ∈ incidence.ofKind other ∧ ¬ (other = kind ∧ slot = id) := by
  unfold erase
  cases found : incidence.byKind[kind]? with
  | none =>
    refine (and_iff_left_of_imp ?_).symm
    rintro listed ⟨rfl, -⟩
    obtain ⟨slots, there, -⟩ := (mem_ofKind _ _ _).mp listed
    rw [found] at there
    cases there
  | some slots =>
    dsimp only
    by_cases same : kind = other
    · subst same
      have before : slot ∈ incidence.ofKind kind ↔ slot ∈ slots := by
        rw [mem_ofKind, found]
        simp
      rw [before]
      split
      · next empty =>
        have none : ∀ other, other ∉ slots.erase id := Std.TreeSet.isEmpty_iff_forall_not_mem.mp empty
        have gone := none slot
        rw [Std.TreeSet.mem_erase, Ne, Std.LawfulEqCmp.compare_eq_iff_eq, not_and] at gone
        simp only [mem_ofKind, Std.TreeMap.getElem?_erase, Std.LawfulEqCmp.compare_eq_iff_eq, if_true]
        simp only [reduceCtorEq, false_and, exists_false, false_iff, true_and, not_and, not_not]
        intro there
        by_contra differs
        exact gone (Ne.symm differs) there
      · simp only [mem_ofKind, Std.TreeMap.getElem?_insert, Std.LawfulEqCmp.compare_eq_iff_eq, if_true,
          Option.some.injEq, exists_eq_left', Std.TreeSet.mem_erase, Ne, true_and]
        rw [and_comm]
        exact and_congr_right fun _ => not_congr eq_comm
    · rw [and_iff_left (fun both => same both.1.symm)]
      split
      · simp only [mem_ofKind, Std.TreeMap.getElem?_erase, Std.LawfulEqCmp.compare_eq_iff_eq, if_neg same]
      · simp only [mem_ofKind, Std.TreeMap.getElem?_insert, Std.LawfulEqCmp.compare_eq_iff_eq, if_neg same]

theorem valid_erase (valid : incidence.Valid) (kind : Kind) (id : EdgeId) :
    (incidence.erase kind id).Valid := by
  unfold erase
  cases found : incidence.byKind[kind]? with
  | none => exact valid
  | some slots =>
    dsimp only
    split
    · intro other rest there
      simp only [Std.TreeMap.getElem?_erase] at there
      split at there
      · cases there
      · exact valid other rest there
    · next nonempty =>
      intro other rest there
      simp only [Std.TreeMap.getElem?_insert] at there
      split at there
      · rw [← Option.some.inj there]
        exact Bool.not_eq_true _ |>.mp nonempty
      · exact valid other rest there

end Incidence

namespace Multigraph

variable {graph : Multigraph}

def isSource (graph : Multigraph) (node : Node) : Bool := (graph.vertex? node).any (·.isSource)

/-- An incidence lists the slots of the edges of which a node is the given end. -/
def Lists (graph : Multigraph) (incidence : Incidence) (stop : Edge → Node) (node : Node) : Prop :=
  incidence.Valid ∧ ∀ kind id, id ∈ incidence.ofKind kind ↔
    ∃ kept, graph.edge? id = some kept ∧ stop kept.toEdge = node ∧ kept.label.symbol = kind

/-- No slot is listed twice at an end of a node. -/
theorem Lists.nodup {incidence : Incidence} {stop : Edge → Node} {node : Node}
    (lists : graph.Lists incidence stop node) : incidence.toList.Nodup := by
  have kind_eq : ∀ (kind : Kind) (slots : Std.TreeSet EdgeId compare) (id : EdgeId),
      (kind, slots) ∈ incidence.byKind.toList → id ∈ slots.toList →
        ∃ kept, graph.edge? id = some kept ∧ kept.label.symbol = kind := by
    intro kind slots id listed inside
    have found := Std.TreeMap.mem_toList_iff_getElem?_eq_some.mp listed
    have there := (incidence.mem_ofKind kind id).mpr ⟨slots, found, Std.TreeSet.mem_toList.mp inside⟩
    obtain ⟨kept, found, -, same⟩ := (lists.2 kind id).mp there
    exact ⟨kept, found, same⟩
  refine List.nodup_flatMap.mpr ⟨fun row _ => ?_, ?_⟩
  · exact Std.TreeSet.distinct_toList.imp fun apart same => apart (Std.LawfulEqCmp.compare_eq_iff_eq.mpr same)
  refine Std.TreeMap.distinct_keys_toList.imp_of_mem ?_
  rintro ⟨first, slots⟩ ⟨second, others⟩ atFirst atSecond differ id here there
  obtain ⟨kept, found, rfl⟩ := kind_eq first slots id atFirst here
  obtain ⟨kept', found', rfl⟩ := kind_eq second others id atSecond there
  cases found.symm.trans found'
  exact differ Std.ReflCmp.compare_self

/-- The parts of a graph agree with one another. -/
structure Valid (graph : Multigraph) : Prop where
  slotted : ∀ (edge : Edge) (id : EdgeId), graph.slotOf[edge]? = some id ↔
    ∃ kept, graph.edge? id = some kept ∧ kept.toEdge = edge
  outgoing : ∀ (node : Node) (vertex : Vertex), graph.vertices[node]? = some vertex →
    graph.Lists vertex.outgoing Edge.src node
  incoming : ∀ (node : Node) (vertex : Vertex), graph.vertices[node]? = some vertex →
    graph.Lists vertex.incoming Edge.dst node
  ends : ∀ id kept, graph.edge? id = some kept → graph.hasNode kept.src ∧ graph.hasNode kept.dst
  loopless : ∀ id kept, graph.edge? id = some kept → graph.isDirect kept.label.symbol →
    kept.src ≠ kept.dst
  counted : graph.edgeCount = graph.slots.countP (·.isSome)
  unmerged : ∀ node, graph.hasNode node → graph.merged[node]? = none
  linked : ∀ (node next : Node), graph.merged[node]? = some next → graph.hasNode next
  members : ∀ node rep : Node, node ∈ graph.subsOf rep ↔ graph.merged[node]? = some rep
  distinct : ∀ rep, (graph.subsOf rep).Nodup

theorem valid_withDirectKinds (kinds : List Kind) : (withDirectKinds kinds).Valid where
  slotted edge id := by simp [withDirectKinds, edge?]
  outgoing node vertex found := by simp [withDirectKinds] at found
  incoming node vertex found := by simp [withDirectKinds] at found
  ends id kept found := by simp [withDirectKinds, edge?] at found
  loopless id kept found := by simp [withDirectKinds, edge?] at found
  counted := rfl
  unmerged node _ := by simp [withDirectKinds]
  linked node next found := by simp [withDirectKinds] at found
  members node rep := by simp [withDirectKinds, subsOf]
  distinct rep := by simp [withDirectKinds, subsOf]

theorem hasNode_iff (graph : Multigraph) (node : Node) :
    graph.hasNode node ↔ ∃ vertex, graph.vertices[node]? = some vertex := by
  rw [hasNode, Std.TreeMap.contains_eq_isSome_getElem?, Option.isSome_iff_exists]

theorem Valid.hasEdge_iff (valid : graph.Valid) (edge : Edge) :
    graph.hasEdge edge ↔ ∃ id kept, graph.edge? id = some kept ∧ kept.toEdge = edge := by
  rw [hasEdge, Std.TreeMap.contains_eq_isSome_getElem?, Option.isSome_iff_exists]
  exact exists_congr fun id => valid.slotted edge id

theorem Valid.hasNode_of_hasEdge (valid : graph.Valid) {edge : Edge} (there : graph.hasEdge edge) :
    graph.hasNode edge.src ∧ graph.hasNode edge.dst := by
  obtain ⟨id, kept, found, rfl⟩ := (valid.hasEdge_iff edge).mp there
  exact valid.ends id kept found

/-- No two slots hold the same edge. -/
theorem Valid.slot_unique (valid : graph.Valid) {first second : EdgeId} {one two : GraphEdge}
    (atFirst : graph.edge? first = some one) (atSecond : graph.edge? second = some two)
    (same : one.toEdge = two.toEdge) : first = second := by
  have here := (valid.slotted one.toEdge first).mpr ⟨one, atFirst, rfl⟩
  have there := (valid.slotted one.toEdge second).mpr ⟨two, atSecond, same.symm⟩
  exact Option.some.inj (here.symm.trans there)

theorem mem_edges (graph : Multigraph) (id : EdgeId) (edge : GraphEdge) :
    (id, edge) ∈ graph.edges ↔ graph.edge? id = some edge := by
  simp only [edges, List.mem_filterMap, Prod.exists, List.mem_zipIdx_iff_getElem?, edge?,
    Option.map_eq_some_iff, Prod.mk.injEq, Array.getElem?_toList]
  constructor
  · rintro ⟨slot, position, found, kept, rfl, rfl, rfl⟩
    simp [found]
  · intro found
    exact ⟨some edge, id, Option.join_eq_some_iff.mp found, edge, rfl, rfl, rfl⟩

/-- The representative of a node is one link away at most. -/
theorem Valid.repOf_eq (valid : graph.Valid) (node : Node) :
    graph.repOf node = (graph.merged[node]?).getD node := by
  unfold repOf
  cases found : graph.merged[node]? with
  | none =>
    cases graph.merged.size with
    | zero => rfl
    | succ bound => simp [follow, found]
  | some next =>
    have live := valid.linked node next found
    have root := valid.unmerged next live
    have nonempty : graph.merged.size ≠ 0 := by
      intro none
      have empty : graph.merged.isEmpty := by rwa [Std.TreeMap.isEmpty_eq_size_eq_zero, beq_iff_eq]
      rw [Std.TreeMap.getElem?_of_isEmpty empty] at found
      cases found
    obtain ⟨bound, size⟩ := Nat.exists_eq_succ_of_ne_zero nonempty
    rw [size]
    have atRoot : follow graph.merged bound next = next := by
      cases bound with
      | zero => rfl
      | succ bound => simp [follow, root]
    have apart : next ≠ node := by
      rintro rfl
      rw [root] at found
      cases found
    simp [follow, found, atRoot, apart]

/-- A live node stands for itself. -/
theorem Valid.repOf_live (valid : graph.Valid) {node : Node} (live : graph.hasNode node) :
    graph.repOf node = node := by
  rw [valid.repOf_eq, valid.unmerged node live, Option.getD_none]

/-- What stands for a node was itself never merged. -/
theorem Valid.merged_repOf (valid : graph.Valid) (node : Node) :
    graph.merged[graph.repOf node]? = none := by
  rw [valid.repOf_eq]
  cases found : graph.merged[node]? with
  | none => exact found
  | some next => exact valid.unmerged next (valid.linked node next found)

theorem Valid.repOf_repOf (valid : graph.Valid) (node : Node) :
    graph.repOf (graph.repOf node) = graph.repOf node := by
  rw [valid.repOf_eq (graph.repOf node), valid.merged_repOf, Option.getD_none]

/-- The members of a node are the others that it stands for. -/
theorem Valid.mem_subsOf (valid : graph.Valid) (node rep : Node) :
    node ∈ graph.subsOf rep ↔ graph.repOf node = rep ∧ node ≠ rep := by
  rw [valid.members, valid.repOf_eq]
  cases found : graph.merged[node]? with
  | none =>
    rw [Option.getD_none]
    exact iff_of_false (Option.some_ne_none rep).symm fun both => both.2 both.1
  | some next =>
    rw [Option.some.injEq, Option.getD_some]
    refine (and_iff_left_of_imp ?_).symm
    rintro rfl rfl
    have live := valid.linked node node found
    rw [valid.unmerged node live] at found
    cases found

/-- A node that is not its own representative went to a live one. -/
theorem Valid.hasNode_repOf (valid : graph.Valid) {node : Node} (moved : graph.repOf node ≠ node) :
    graph.hasNode (graph.repOf node) := by
  rw [valid.repOf_eq] at moved ⊢
  cases found : graph.merged[node]? with
  | none => exact absurd (by rw [found, Option.getD_none]) moved
  | some next => exact valid.linked node next found

theorem mem_nodes (graph : Multigraph) (node : Node) : node ∈ graph.nodes ↔ graph.hasNode node := by
  rw [nodes, hasNode, Std.TreeMap.mem_keys, Std.TreeMap.contains_iff_mem]

theorem nodup_nodes (graph : Multigraph) : graph.nodes.Nodup := Std.TreeMap.nodup_keys

theorem length_nodes (graph : Multigraph) : graph.nodes.length = graph.nodeCount := Std.TreeMap.length_keys

theorem hasNode_of_isSource {node : Node} (source : graph.isSource node) : graph.hasNode node := by
  rw [isSource, vertex?, Option.any_eq_true] at source
  obtain ⟨vertex, found, -⟩ := source
  exact (graph.hasNode_iff node).mpr ⟨vertex, found⟩

theorem mem_sources (graph : Multigraph) (node : Node) :
    node ∈ graph.sources ↔ graph.isSource node := by
  simp only [sources, List.mem_filterMap, Prod.exists, Std.TreeMap.mem_toList_iff_getElem?_eq_some,
    Option.ite_none_right_eq_some, Option.some.injEq, isSource, vertex?, Option.any_eq_true]
  constructor
  · rintro ⟨other, vertex, found, marked, rfl⟩
    exact ⟨vertex, found, marked⟩
  · rintro ⟨vertex, found, marked⟩
    exact ⟨node, vertex, found, marked, rfl⟩

/-- The live edges are those in the list of edges. -/
theorem Valid.mem_edges_iff (valid : graph.Valid) (edge : Edge) :
    edge ∈ graph.edges.map (·.2.toEdge) ↔ graph.hasEdge edge := by
  rw [valid.hasEdge_iff, List.mem_map, Prod.exists]
  exact exists_congr fun id => exists_congr fun kept => and_congr_left' (graph.mem_edges id kept)

theorem Valid.mem_directPairs (valid : graph.Valid) (src dst : Node) :
    (src, dst) ∈ graph.directPairs ↔
      ∃ label, graph.hasEdge ⟨src, dst, label⟩ ∧ graph.isDirect label.symbol := by
  simp only [directPairs, List.mem_filterMap, Prod.exists, mem_edges, Option.ite_none_right_eq_some,
    Option.some.injEq, Prod.mk.injEq, valid.hasEdge_iff]
  constructor
  · rintro ⟨id, kept, found, straight, rfl, rfl⟩
    exact ⟨kept.label, ⟨id, kept, found, rfl⟩, straight⟩
  · rintro ⟨label, ⟨id, kept, found, same⟩, straight⟩
    cases kept
    subst same
    exact ⟨id, _, found, straight, rfl, rfl⟩

/-- The number of live edges is that of the slots that hold one. -/
theorem Valid.length_edges (valid : graph.Valid) : graph.edges.length = graph.edgeCount := by
  rw [valid.counted, edges, List.length_filterMap_eq_countP, ← Array.countP_toList]
  nth_rewrite 2 [← List.zipIdx_map_fst 0 graph.slots.toList]
  rw [List.countP_map]
  refine List.countP_congr fun slot _ => ?_
  simp

/-- No slot is listed twice. -/
theorem nodup_edges (graph : Multigraph) : (graph.edges.map Prod.fst).Nodup := by
  have slots : (graph.slots.toList.zipIdx.map Prod.snd).Nodup := by
    rw [List.zipIdx_map_snd]
    exact List.nodup_range'
  rw [List.Nodup, List.pairwise_map] at slots ⊢
  refine slots.filterMap _ ?_
  rintro ⟨first, one⟩ ⟨second, two⟩ differ kept here other there
  simp only [Option.map_eq_some_iff] at here there
  obtain ⟨-, -, rfl⟩ := here
  obtain ⟨-, -, rfl⟩ := there
  exact differ

end Multigraph

end GrammarReach
