import Mathlib.Data.List.Nodup
import GrammarReach.Graph.Text
import GrammarReach.Proofs.Graph.Edit

namespace GrammarReach.Multigraph

variable {graph other : Multigraph} {grammar : Grammar} {marker? : Option String}

def rows (graph : Multigraph) (grammar : Grammar) (marker? : Option String) : List (List String) :=
  graph.vertices.toList.flatMap fun (node, vertex) => graph.nodeLines grammar marker? node vertex

theorem toText_eq (graph : Multigraph) (grammar : Grammar) (marker? : Option String) :
    graph.toText grammar marker? =
      String.join ((graph.rows grammar marker?).map fun fields => "\t".intercalate fields ++ "\n") := rfl

/-- The edges that leave a node, in the order of their lines. -/
def edgesFrom (graph : Multigraph) (node : Node) : List Edge :=
  (graph.vertex? node).elim [] graph.outgoingEdges

theorem Valid.mem_edgesFrom (valid : graph.Valid) (node : Node) (edge : Edge) :
    edge ∈ graph.edgesFrom node ↔ graph.hasEdge edge ∧ edge.src = node := by
  rw [edgesFrom, valid.hasEdge_iff]
  cases found : graph.vertex? node with
  | none =>
    refine iff_of_false List.not_mem_nil ?_
    rintro ⟨⟨id, kept, slot, rfl⟩, rfl⟩
    obtain ⟨vertex, there⟩ := (graph.hasNode_iff kept.src).mp (valid.ends id kept slot).1
    cases found.symm.trans there
  | some vertex =>
    simp only [Option.elim, outgoingEdges, List.mem_mergeSort, List.mem_filterMap, Incidence.mem_toList,
      (valid.outgoing node vertex found).2, Option.map_eq_some_iff]
    constructor
    · rintro ⟨id, ⟨kind, kept, slot, rfl, rfl⟩, kept', slot', rfl⟩
      cases slot.symm.trans slot'
      exact ⟨⟨id, kept, slot, rfl⟩, rfl⟩
    · rintro ⟨⟨id, kept, slot, rfl⟩, rfl⟩
      exact ⟨id, ⟨_, kept, slot, rfl, rfl⟩, kept, slot, rfl⟩

theorem Valid.nodup_edgesFrom (valid : graph.Valid) (node : Node) : (graph.edgesFrom node).Nodup := by
  rw [edgesFrom]
  cases found : graph.vertex? node with
  | none => exact List.nodup_nil
  | some vertex =>
    rw [Option.elim, outgoingEdges, (List.mergeSort_perm ..).nodup_iff]
    refine (valid.outgoing node vertex found).nodup.filterMap fun first second edge one two => ?_
    obtain ⟨kept, slot, same⟩ := Option.map_eq_some_iff.mp one
    obtain ⟨kept', slot', same'⟩ := Option.map_eq_some_iff.mp two
    exact valid.slot_unique slot slot' (same.trans same'.symm)

private theorem linesUp_iff (a b : Edge) : linesUp a b ↔
    @LE.le _ List.instLE [a.label.symbol, a.dst, a.label.index] [b.label.symbol, b.dst, b.label.index] :=
  decide_eq_true_iff

theorem pairwise_edgesFrom (graph : Multigraph) (node : Node) :
    (graph.edgesFrom node).Pairwise (linesUp · ·) := by
  rw [edgesFrom]
  cases graph.vertex? node with
  | none => exact List.Pairwise.nil
  | some vertex =>
    refine List.pairwise_mergeSort ?_ ?_ _
    · simp only [linesUp_iff]
      exact fun _ _ _ => List.le_trans
    · simp only [Bool.or_eq_true, linesUp_iff]
      exact fun _ _ => List.le_total _ _

/-- Two edges of one source line up both ways only when they are the same. -/
private theorem eq_of_linesUp {a b : Edge} (source : a.src = b.src) (one : linesUp a b)
    (two : linesUp b a) : a = b := by
  rw [linesUp_iff] at one two
  have same := List.le_antisymm one two
  obtain ⟨src, dst, symbol, index⟩ := a
  obtain ⟨src', dst', symbol', index'⟩ := b
  simp only [List.cons.injEq, and_true] at same
  obtain ⟨rfl, rfl, rfl⟩ := same
  cases source
  rfl

/-- The edges that leave a node come in one order only. -/
theorem Valid.edgesFrom_eq (valid : graph.Valid) (valid' : other.Valid)
    (edges : ∀ edge, graph.hasEdge edge ↔ other.hasEdge edge) (node : Node) :
    graph.edgesFrom node = other.edgesFrom node := by
  have perm : (graph.edgesFrom node).Perm (other.edgesFrom node) := by
    refine (List.perm_ext_iff_of_nodup (valid.nodup_edgesFrom node) (valid'.nodup_edgesFrom node)).mpr ?_
    intro edge
    rw [valid.mem_edgesFrom, valid'.mem_edgesFrom, edges]
  refine perm.eq_of_pairwise ?_ (pairwise_edgesFrom graph node) (pairwise_edgesFrom other node)
  intro a b here there
  have one := ((valid.mem_edgesFrom node a).mp here).2
  have two := ((valid'.mem_edgesFrom node b).mp there).2
  exact eq_of_linesUp (one.trans two.symm)

/-- The lines of a node, whether it is live or not: a node that is not has none. -/
def rowsAt (graph : Multigraph) (grammar : Grammar) (marker? : Option String) (node : Node) :
    List (List String) :=
  (if graph.isSource node then marker?.toList else []).map
      (fun marker => [toString node, toString node, marker]) ++
    (graph.edgesFrom node).map (edgeFields grammar)

theorem rows_eq (graph : Multigraph) (grammar : Grammar) (marker? : Option String) :
    graph.rows grammar marker? = graph.nodes.flatMap (graph.rowsAt grammar marker?) := by
  rw [rows, nodes, ← Std.TreeMap.map_fst_toList_eq_keys, List.flatMap_map]
  refine List.flatMap_congr ?_
  rintro ⟨node, vertex⟩ listed
  have found : graph.vertex? node = some vertex := Std.TreeMap.mem_toList_iff_getElem?_eq_some.mp listed
  simp only [nodeLines, rowsAt, isSource, edgesFrom, found, Option.any_some, Option.elim]

theorem Valid.mem_rowsAt (valid : graph.Valid) (node : Node) (fields : List String) :
    fields ∈ graph.rowsAt grammar marker? node ↔
      (graph.isSource node ∧ ∃ marker, marker? = some marker ∧
        [toString node, toString node, marker] = fields) ∨
      ∃ edge, (graph.hasEdge edge ∧ edge.src = node) ∧ edgeFields grammar edge = fields := by
  simp only [rowsAt, List.mem_append, List.mem_map, valid.mem_edgesFrom]
  refine or_congr ?_ Iff.rfl
  split
  · next marked => simp [marked]
  · next plain => simp [plain]

/-- The lines of a graph mark its sources and add its edges. -/
theorem Valid.mem_rows (valid : graph.Valid) (fields : List String) :
    fields ∈ graph.rows grammar marker? ↔
      (∃ node marker, graph.isSource node ∧ marker? = some marker ∧
        [toString node, toString node, marker] = fields) ∨
      ∃ edge, graph.hasEdge edge ∧ edgeFields grammar edge = fields := by
  rw [rows_eq, List.mem_flatMap]
  simp only [mem_nodes, valid.mem_rowsAt]
  constructor
  · rintro ⟨node, -, ⟨marked, marker, named, rfl⟩ | ⟨edge, ⟨there, -⟩, rfl⟩⟩
    · exact Or.inl ⟨node, marker, marked, named, rfl⟩
    · exact Or.inr ⟨edge, there, rfl⟩
  · rintro (⟨node, marker, marked, named, rfl⟩ | ⟨edge, there, rfl⟩)
    · exact ⟨node, hasNode_of_isSource marked, Or.inl ⟨marked, marker, named, rfl⟩⟩
    · exact ⟨edge.src, (valid.hasNode_of_hasEdge there).1, Or.inr ⟨edge, ⟨there, rfl⟩, rfl⟩⟩

/-- Over ascending lists, only the nodes that give something matter. -/
private theorem flatMap_eq_of_ascending {α : Type} {rowsAt : Node → List α} {first second : List Node}
    (one : first.Pairwise (· < ·)) (two : second.Pairwise (· < ·))
    (same : ∀ node, rowsAt node ≠ [] → (node ∈ first ↔ node ∈ second)) :
    first.flatMap rowsAt = second.flatMap rowsAt := by
  have filtered : ∀ nodes : List Node,
      (nodes.filter fun node => !(rowsAt node).isEmpty).flatMap rowsAt = nodes.flatMap rowsAt := by
    intro nodes
    induction nodes with
    | nil => rfl
    | cons node nodes ih =>
      rw [List.filter_cons]
      split
      · rw [List.flatMap_cons, List.flatMap_cons, ih]
      · next empty =>
        rw [Bool.not_eq_true', Bool.not_eq_false, List.isEmpty_iff] at empty
        rw [List.flatMap_cons, ih, empty, List.nil_append]
  have kept : first.filter (fun node => !(rowsAt node).isEmpty) =
      second.filter fun node => !(rowsAt node).isEmpty := by
    have one := one.filter fun node => !(rowsAt node).isEmpty
    have two := two.filter fun node => !(rowsAt node).isEmpty
    refine List.Perm.eq_of_pairwise (fun a b _ _ below above => absurd below (Nat.lt_asymm above)) one two ?_
    refine (List.perm_ext_iff_of_nodup (one.imp Nat.ne_of_lt) (two.imp Nat.ne_of_lt)).mpr fun node => ?_
    rw [List.mem_filter, List.mem_filter]
    refine and_congr_left fun filled => same node ?_
    simpa using filled
  rw [← filtered, kept, filtered]

/-- Graphs with the same edges and sources have the same text. -/
theorem Valid.toText_eq_of_same (valid : graph.Valid) (valid' : other.Valid)
    (edges : ∀ edge, graph.hasEdge edge ↔ other.hasEdge edge)
    (sources : ∀ node, graph.isSource node ↔ other.isSource node) (grammar : Grammar)
    (marker? : Option String) : graph.toText grammar marker? = other.toText grammar marker? := by
  have ascending : ∀ graph : Multigraph, graph.nodes.Pairwise (· < ·) := fun graph =>
    Std.TreeMap.ordered_keys.imp Nat.compare_eq_lt.mp
  have same : graph.rowsAt grammar marker? = other.rowsAt grammar marker? := by
    funext node
    rw [rowsAt, rowsAt, valid.edgesFrom_eq valid' edges, Bool.eq_iff_iff.mpr (sources node)]
  rw [toText_eq, toText_eq, rows_eq, rows_eq, same]
  congr 2
  refine flatMap_eq_of_ascending (ascending graph) (ascending other) fun node filled => ?_
  obtain ⟨fields, inside⟩ := List.exists_mem_of_ne_nil _ filled
  rw [mem_nodes, mem_nodes]
  have here := (valid'.mem_rowsAt node fields).mp inside
  refine iff_of_true ?_ ?_
  · obtain ⟨marked, -⟩ | ⟨edge, ⟨there, rfl⟩, -⟩ := here
    · exact hasNode_of_isSource ((sources node).mpr marked)
    · exact (valid.hasNode_of_hasEdge ((edges edge).mpr there)).1
  · obtain ⟨marked, -⟩ | ⟨edge, ⟨there, rfl⟩, -⟩ := here
    · exact hasNode_of_isSource marked
    · exact (valid'.hasNode_of_hasEdge there).1

end GrammarReach.Multigraph
