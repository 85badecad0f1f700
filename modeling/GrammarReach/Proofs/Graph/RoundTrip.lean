import GrammarReach.Proofs.Graph.Reading
import GrammarReach.Proofs.Graph.Writing

/-!
Edge lists that are read and written again.

A graph that was read, and then only merged and cut, is written so that it is read back: with its edges and
its sources, and with no nodes besides. What is written does not depend on the order of the lines that were
read, nor on how often each of them stands there.
-/

namespace GrammarReach

namespace EdgeListFormat

open Multigraph (Edit ofEdits edgeFields)

variable {format : EdgeListFormat} {grammar : Grammar} {graph after : Multigraph}

/-- What merges and removals of edges make of a graph. Nodes are merged into nodes that a line can name. -/
inductive Reduced (graph : Multigraph) : Multigraph → Prop
  | refl : Reduced graph graph
  | merge {after : Multigraph} (node target : Node) : target < Text.wordBound →
      Reduced graph after → Reduced graph (after.merge node target).1
  | removeEdge {after : Multigraph} (id : EdgeId) : Reduced graph after →
      Reduced graph (after.removeEdge id).1

theorem Readable.merge (readable : format.Readable grammar graph) (node : Node) {target : Node}
    (bounded : target < Text.wordBound) : format.Readable grammar (graph.merge node target).1 := by
  by_cases idle : graph.hasNode node = false ∨ node = graph.repOf target
  · rwa [Multigraph.merge_of_same idle]
  · rw [not_or, Bool.not_eq_false] at idle
    obtain ⟨quotient, repOf⟩ := readable.valid.quotient_merge idle.1 idle.2
    have rep : graph.repOf target < Text.wordBound := by
      by_cases own : graph.repOf target = target
      · rwa [own]
      · exact readable.nodes _ (readable.valid.hasNode_repOf own)
    obtain ⟨kinds, known, direct⟩ := readable.direct
    refine ⟨quotient.valid, ⟨kinds, known, quotient.kinds.trans direct⟩, fun other live => ?_,
      fun edge there => ?_, fun other marked => ?_⟩
    · obtain ⟨old, there, rfl⟩ := (quotient.nodes other).mp live
      rw [repOf]
      split
      · exact rep
      · obtain there | rfl := (Multigraph.hasNode_addNode graph target old).mp there
        · rw [readable.valid.repOf_live there]
          exact readable.nodes old there
        · rwa [readable.valid.repOf_repOf]
    · obtain ⟨old, stood, rfl, -⟩ := (quotient.edges edge).mp there
      exact readable.edges old stood
    · obtain ⟨old, stood, -⟩ := (quotient.sources other).mp marked
      rw [Multigraph.isSource_addNode] at stood
      exact readable.sources old stood

theorem Readable.removeEdge (readable : format.Readable grammar graph) (id : EdgeId) :
    format.Readable grammar (graph.removeEdge id).1 where
  valid := readable.valid.removeEdge id
  direct := by
    rw [(graph.kept_removeEdge id).2.2]
    exact readable.direct
  nodes node live := readable.nodes node ((graph.hasNode_removeEdge id node).symm.trans live)
  edges edge there := readable.edges edge ((Multigraph.hasEdge_removeEdge readable.valid id edge).mp there).1
  sources node marked := readable.sources node ((graph.isSource_removeEdge id node).symm.trans marked)

theorem Readable.reduced (readable : format.Readable grammar graph) (reduced : Reduced graph after) :
    format.Readable grammar after := by
  induction reduced with
  | refl => exact readable
  | merge node target bounded _ kept => exact kept.merge node bounded
  | removeEdge id _ kept => exact kept.removeEdge id

theorem Legible.nameOrFault {label : Label} (legible : format.Legible grammar label) :
    Text.IsField (grammar.nameOrFault label.symbol).toList ∧
      format.marker? ≠ some (grammar.nameOrFault label.symbol) ∧
      format.edgeKind? grammar (grammar.nameOrFault label.symbol) = some label.symbol := by
  obtain ⟨name, isField, other, known⟩ := legible.named
  have found : grammar.find? name = some label.symbol := by
    rw [edgeKind?] at known
    exact (Option.ite_none_right_eq_some.mp known).2
  rw [Grammar.nameOrFault, Grammar.name?_of_find? found]
  exact ⟨isField, other, known⟩

theorem editOf?_mark {node : Node} (bounded : node < Text.wordBound) {marker : String}
    (marks : format.marker? = some marker) :
    format.editOf? grammar [toString node, toString node, marker] = some (some (.markSource node)) := by
  rw [editOf?, Text.natural?_toString bounded]
  simp [marks]

theorem editOf?_edgeFields {edge : Edge} (src : edge.src < Text.wordBound) (dst : edge.dst < Text.wordBound)
    (legible : format.Legible grammar edge.label) :
    format.editOf? grammar (edgeFields grammar edge) = some (some (.addEdge edge)) := by
  obtain ⟨-, other, known⟩ := legible.nameOrFault
  have index : index? grammar edge.label.symbol
      (if grammar.isVariant edge.label.symbol then [toString edge.label.index] else []) =
        some edge.label.index := by
    split
    · next variant => rw [index?, if_pos variant, Text.natural?_toString legible.bounded]
    · next plain => rw [index?, legible.plain (Bool.not_eq_true _ |>.mp plain)]
  rw [edgeFields, List.cons_append, List.cons_append, List.cons_append, List.nil_append, editOf?,
    Text.natural?_toString src, Text.natural?_toString dst]
  simp only [Option.bind_eq_bind, Option.bind_some, if_neg other, known, index]
  rfl

private theorem isRow_edgeFields {edge : Edge} (legible : format.Legible grammar edge.label) :
    Text.IsRow (edgeFields grammar edge) := by
  refine Text.isRow_of_number fun field listed => ?_
  rw [List.append_eq, List.cons_append, List.mem_cons, List.cons_append, List.nil_append, List.mem_cons] at listed
  obtain rfl | rfl | listed := listed
  · exact Text.isField_toString edge.dst
  · exact legible.nameOrFault.1
  · split at listed
    · rw [List.mem_singleton.mp listed]
      exact Text.isField_toString edge.label.index
    · cases listed

/-- What a line of a graph that can be written looks like and asks for. -/
theorem Readable.editOf?_of_mem_rows (readable : format.Readable grammar graph) {fields : List String}
    (inside : fields ∈ graph.rows grammar format.marker?) : Text.IsRow fields ∧
      ((∃ node, graph.isSource node ∧ format.editOf? grammar fields = some (some (.markSource node))) ∨
        ∃ edge, graph.hasEdge edge ∧ format.editOf? grammar fields = some (some (.addEdge edge))) := by
  obtain ⟨node, marker, marked, marks, rfl⟩ | ⟨edge, there, rfl⟩ := (readable.valid.mem_rows fields).mp inside
  · have bounded := readable.nodes node (Multigraph.hasNode_of_isSource marked)
    obtain ⟨_, same, isField⟩ := readable.sources node marked
    cases marks.symm.trans same
    refine ⟨Text.isRow_of_number fun field listed => ?_, Or.inl ⟨node, marked, editOf?_mark bounded marks⟩⟩
    rw [List.mem_cons, List.mem_singleton] at listed
    obtain rfl | rfl := listed
    · exact Text.isField_toString node
    · exact isField
  · have legible := readable.edges edge there
    have live := readable.valid.hasNode_of_hasEdge there
    exact ⟨isRow_edgeFields legible, Or.inr ⟨edge, there,
      editOf?_edgeFields (readable.nodes _ live.1) (readable.nodes _ live.2) legible⟩⟩

theorem Readable.markSource_mem_edits (readable : format.Readable grammar graph) (node : Node) :
    .markSource node ∈ format.edits grammar (graph.rows grammar format.marker?) ↔ graph.isSource node := by
  rw [mem_edits]
  constructor
  · rintro ⟨fields, inside, entry⟩
    obtain ⟨-, ⟨other, marked, said⟩ | ⟨edge, -, said⟩⟩ := readable.editOf?_of_mem_rows inside
    · cases entry.symm.trans said
      exact marked
    · cases entry.symm.trans said
  · intro marked
    obtain ⟨marker, marks, -⟩ := readable.sources node marked
    exact ⟨_, (readable.valid.mem_rows _).mpr (Or.inl ⟨node, marker, marked, marks, rfl⟩),
      editOf?_mark (readable.nodes node (Multigraph.hasNode_of_isSource marked)) marks⟩

theorem Readable.addEdge_mem_edits (readable : format.Readable grammar graph) (edge : Edge) :
    .addEdge edge ∈ format.edits grammar (graph.rows grammar format.marker?) ↔ graph.hasEdge edge := by
  rw [mem_edits]
  constructor
  · rintro ⟨fields, inside, entry⟩
    obtain ⟨-, ⟨node, -, said⟩ | ⟨other, there, said⟩⟩ := readable.editOf?_of_mem_rows inside
    · cases entry.symm.trans said
    · cases entry.symm.trans said
      exact there
  · intro there
    have live := readable.valid.hasNode_of_hasEdge there
    exact ⟨_, (readable.valid.mem_rows _).mpr (Or.inr ⟨edge, there, rfl⟩), editOf?_edgeFields
      (readable.nodes _ live.1) (readable.nodes _ live.2) (readable.edges edge there)⟩

/-- A graph with the edges and the sources of another, and with no node that these do not need. -/
structure Copies (graph again : Multigraph) : Prop where
  valid : again.Valid
  edges : ∀ edge, again.hasEdge edge ↔ graph.hasEdge edge
  sources : ∀ node, again.isSource node ↔ graph.isSource node
  nodes : ∀ node, again.hasNode node ↔
    graph.isSource node ∨ ∃ edge, graph.hasEdge edge ∧ (edge.src = node ∨ edge.dst = node)

/-- What was written is read back. -/
theorem Readable.read_toText (readable : format.Readable grammar graph) :
    ∃ again, format.read grammar (graph.toText grammar format.marker?) = .ok again ∧ Copies graph again := by
  obtain ⟨kinds, known, direct⟩ := readable.direct
  have records : (Text.records (graph.toText grammar format.marker?)).map (·.fields) =
      graph.rows grammar format.marker? := by
    rw [Multigraph.toText_eq]
    exact Text.map_fields_records_join fun fields inside => (readable.editOf?_of_mem_rows inside).1
  have shows := Multigraph.shows_ofEdits kinds (format.edits grammar (graph.rows grammar format.marker?))
  have unmerged := merge_not_mem_edits format grammar (graph.rows grammar format.marker?)
  refine ⟨_, read_eq_ok_iff.mpr ⟨kinds, known, ?_, rfl⟩, ?_⟩
  · rw [records]
    intro fields inside
    obtain ⟨-, ⟨node, -, said⟩ | ⟨edge, -, said⟩⟩ := readable.editOf?_of_mem_rows inside <;> rw [said] <;> rfl
  · rw [records]
    refine ⟨shows.valid, fun edge => ?_, fun node => ?_, fun node => ?_⟩
    · rw [Multigraph.hasEdge_ofEdits unmerged, readable.addEdge_mem_edits]
      refine and_iff_left_of_imp fun there loop => readable.valid.not_isDirectLoop there ?_
      rwa [Multigraph.IsDirectLoop, Multigraph.isDirect, direct, ← shows.direct]
    · rw [Multigraph.isSource_ofEdits unmerged, readable.markSource_mem_edits]
    · rw [Multigraph.hasNode_ofEdits unmerged, or_iff_right (addNode_not_mem_edits _ node),
        readable.markSource_mem_edits]
      simp only [readable.addEdge_mem_edits]

/-- Texts whose lines hold the same records give graphs with the same edges and sources. -/
theorem same_of_rows {text text' : String} {other : Multigraph} (read : format.read grammar text = .ok graph)
    (read' : format.read grammar text' = .ok other)
    (same : ∀ fields, fields ∈ (Text.records text).map (·.fields) ↔ fields ∈ (Text.records text').map (·.fields)) :
    (∀ edge, graph.hasEdge edge ↔ other.hasEdge edge) ∧
      ∀ node, graph.isSource node ↔ other.isSource node := by
  obtain ⟨kinds, known, -, rfl⟩ := read_eq_ok_iff.mp read
  obtain ⟨kinds', known', -, rfl⟩ := read_eq_ok_iff.mp read'
  cases known.symm.trans known'
  have listed : ∀ edit, edit ∈ format.edits grammar ((Text.records text).map (·.fields)) ↔
      edit ∈ format.edits grammar ((Text.records text').map (·.fields)) := by
    intro edit
    simp only [mem_edits, same]
  have one := merge_not_mem_edits format grammar ((Text.records text).map (·.fields))
  have two := merge_not_mem_edits format grammar ((Text.records text').map (·.fields))
  refine ⟨fun edge => ?_, fun node => ?_⟩
  · rw [Multigraph.hasEdge_ofEdits one, Multigraph.hasEdge_ofEdits two, listed, Multigraph.IsDirectLoop,
      Multigraph.IsDirectLoop, Multigraph.isDirect, Multigraph.isDirect,
      (Multigraph.shows_ofEdits kinds _).direct, (Multigraph.shows_ofEdits kinds _).direct]
  · rw [Multigraph.isSource_ofEdits one, Multigraph.isSource_ofEdits two, listed]

/-- The text of a graph is canonical. Written after any merges and removals, a graph that was read is read
back with the same edges and sources, on the nodes that these need, and is written the same again. And
texts with the same lines, in whatever order and number, give graphs with one text. -/
theorem toText_canonical {text : String} (read : format.read grammar text = .ok graph) :
    (∀ after, Reduced graph after →
      ∃ again, format.read grammar (after.toText grammar format.marker?) = .ok again ∧
        (again.edges.map (·.2.toEdge)).Perm (after.edges.map (·.2.toEdge)) ∧
        (∀ node, node ∈ again.sources ↔ node ∈ after.sources) ∧
        (∀ node, node ∈ again.nodes ↔ node ∈ after.nodes ∧
          (node ∈ after.sources ∨
            ∃ edge ∈ after.edges.map (·.2.toEdge), edge.src = node ∨ edge.dst = node)) ∧
        again.toText grammar format.marker? = after.toText grammar format.marker?) ∧
    ∀ text' other, format.read grammar text' = .ok other →
      (∀ line, line ∈ Text.lines text ↔ line ∈ Text.lines text') →
        ∀ marker?, graph.toText grammar marker? = other.toText grammar marker? := by
  constructor
  · intro after reduced
    have readable := (readable_of_read read).reduced reduced
    have valid := readable.valid
    obtain ⟨again, reads, copies⟩ := readable.read_toText
    refine ⟨again, reads, ?_, fun node => ?_, fun node => ?_,
      copies.valid.toText_eq_of_same valid copies.edges copies.sources grammar format.marker?⟩
    · refine (List.perm_ext_iff_of_nodup copies.valid.nodup_listed valid.nodup_listed).mpr fun edge => ?_
      rw [copies.valid.mem_edges_iff, valid.mem_edges_iff, copies.edges]
    · rw [Multigraph.mem_sources, Multigraph.mem_sources, copies.sources]
    · simp only [Multigraph.mem_nodes, Multigraph.mem_sources, valid.mem_edges_iff, copies.nodes]
      refine (and_iff_right_of_imp ?_).symm
      rintro (marked | ⟨edge, there, rfl | rfl⟩)
      · exact Multigraph.hasNode_of_isSource marked
      · exact (valid.hasNode_of_hasEdge there).1
      · exact (valid.hasNode_of_hasEdge there).2
  · intro text' other read' lines marker?
    obtain ⟨edges, sources⟩ := same_of_rows read read' fun fields => by
      rw [Text.map_fields_records_eq, Text.map_fields_records_eq, List.mem_filterMap, List.mem_filterMap]
      simp only [lines]
    exact (readable_of_read read).valid.toText_eq_of_same (readable_of_read read').valid edges sources
      grammar marker?

def callText : String := "3\t1\tcall_i\t4\n1\t1\tsrc\n2\t3\ta\n3\t1\ta"

/-- The same lines in another order, one of them twice. -/
def mixedCallText : String := "3\t1\ta\n2\t3\ta\r\n1\t1\tsrc\n2\t3\ta\n3\t1\tcall_i\t4\n"

theorem toText_canonical_calls :
    let format : EdgeListFormat := { direct := ["a"], marker? := some "src" }
    let grammar : Grammar := { names := ["a", "call_i"] }
    ∃ graph other again, format.read grammar callText = .ok graph ∧
      format.read grammar mixedCallText = .ok other ∧
      graph.toText grammar none = other.toText grammar none ∧
      format.read grammar ((graph.merge 3 1).1.toText grammar (some "src")) = .ok again ∧
      again.toText grammar (some "src") = (graph.merge 3 1).1.toText grammar (some "src") := by
  intro format grammar
  have accepted : ∀ text, (∀ fields ∈ (Text.records text).map (·.fields),
      (format.editOf? grammar fields).isSome) → ∃ graph, format.read grammar text = .ok graph :=
    fun text entries => ⟨_, read_eq_ok_iff.mpr ⟨[1], by decide, entries, rfl⟩⟩
  obtain ⟨graph, read⟩ := accepted callText (by decide +kernel)
  obtain ⟨other, read'⟩ := accepted mixedCallText (by decide +kernel)
  obtain ⟨written, ordered⟩ := toText_canonical read
  obtain ⟨again, reads, -, -, -, same⟩ := written _ (.merge 3 1 (by decide) .refl)
  have forth : ∀ line ∈ Text.lines callText, line ∈ Text.lines mixedCallText := by decide +kernel
  have back : ∀ line ∈ Text.lines mixedCallText, line ∈ Text.lines callText := by decide +kernel
  exact ⟨graph, other, again, read, read',
    ordered _ other read' (fun line => ⟨forth line, back line⟩) none, reads, same⟩

end EdgeListFormat

end GrammarReach
