import GrammarReach.Proofs.Graph.History

namespace GrammarReach.Multigraph

/-- A call that changes a graph: an edit, or one that names an edge by its slot. -/
inductive Call
  | edit (edit : Edit)
  | removeEdge (id : EdgeId)
  | setContributing (id : EdgeId) (value : Bool)
deriving DecidableEq

def call (graph : Multigraph) : Call → Multigraph
  | .edit edit => graph.edit edit
  | .removeEdge id => (graph.removeEdge id).1
  | .setContributing id value => graph.setContributing id value

/-- The graph that a sequence of calls makes of nothing. -/
def ofCalls (kinds : List Kind) (calls : List Call) : Multigraph := calls.foldl call (withDirectKinds kinds)

/-- A slot is listed at a node, on the given side of it and under a kind. -/
def ListedAt (graph : Multigraph) (side : Vertex → Incidence) (node : Node) (kind : Kind) (id : EdgeId) : Prop :=
  ∃ vertex, graph.vertex? node = some vertex ∧ id ∈ (side vertex).ofKind kind

/-- All places that tell of an edge agree on the slots that are live. -/
structure Coherent (graph : Multigraph) : Prop where
  /-- The table leads from an edge to the live slot that holds it. -/
  slotted : ∀ (edge : Edge) (id : EdgeId), graph.slotOf[edge]? = some id ↔
    ∃ kept, graph.edge? id = some kept ∧ kept.toEdge = edge
  /-- A node lists the live slots of the edges that leave it, by kind. -/
  outgoing : ∀ node kind id, graph.ListedAt Vertex.outgoing node kind id ↔
    ∃ kept, graph.edge? id = some kept ∧ kept.src = node ∧ kept.label.symbol = kind
  /-- A node lists the live slots of the edges that enter it, by kind. -/
  incoming : ∀ node kind id, graph.ListedAt Vertex.incoming node kind id ↔
    ∃ kept, graph.edge? id = some kept ∧ kept.dst = node ∧ kept.label.symbol = kind
  ends : ∀ id kept, graph.edge? id = some kept → graph.hasNode kept.src ∧ graph.hasNode kept.dst
  loopless : ∀ id kept, graph.edge? id = some kept → graph.isDirect kept.label.symbol →
    kept.src ≠ kept.dst
  unique : ∀ first second one two, graph.edge? first = some one → graph.edge? second = some two →
    one.toEdge = two.toEdge → first = second
  counted : graph.edgeCount = graph.slots.countP (·.isSome)
  /-- No kind is listed without a slot. -/
  inhabited : ∀ node vertex, graph.vertex? node = some vertex → vertex.outgoing.Valid ∧ vertex.incoming.Valid
  gone : ∀ node, graph.merged.contains node → ¬ graph.hasNode node
  represented : ∀ node, ¬ graph.merged.contains (graph.repOf node)

variable {graph : Multigraph}

/-- The live slots that a valid graph lists on one side of its nodes. -/
private theorem listedAt_iff (side : Vertex → Incidence) (stop : Edge → Node)
    (lists : ∀ (node : Node) (vertex : Vertex), graph.vertices[node]? = some vertex →
      graph.Lists (side vertex) stop node)
    (live : ∀ id kept, graph.edge? id = some kept → graph.hasNode (stop kept.toEdge))
    (node : Node) (kind : Kind) (id : EdgeId) : graph.ListedAt side node kind id ↔
      ∃ kept, graph.edge? id = some kept ∧ stop kept.toEdge = node ∧ kept.label.symbol = kind := by
  constructor
  · rintro ⟨vertex, found, listed⟩
    exact ((lists node vertex found).2 kind id).mp listed
  · rintro ⟨kept, found, rfl, same⟩
    obtain ⟨vertex, there⟩ := (graph.hasNode_iff _).mp (live id kept found)
    exact ⟨vertex, there, ((lists _ vertex there).2 kind id).mpr ⟨kept, found, rfl, same⟩⟩

theorem Valid.coherent (valid : graph.Valid) : graph.Coherent where
  slotted := valid.slotted
  outgoing := listedAt_iff _ Edge.src valid.outgoing fun id kept found => (valid.ends id kept found).1
  incoming := listedAt_iff _ Edge.dst valid.incoming fun id kept found => (valid.ends id kept found).2
  ends := valid.ends
  loopless := valid.loopless
  unique first second one two := valid.slot_unique
  counted := valid.counted
  inhabited node vertex found := ⟨(valid.outgoing node vertex found).1, (valid.incoming node vertex found).1⟩
  gone node merged live := by
    rw [Std.TreeMap.contains_eq_isSome_getElem?, valid.unmerged node live] at merged
    exact Bool.false_ne_true merged
  represented node merged := by
    rw [Std.TreeMap.contains_eq_isSome_getElem?, valid.merged_repOf] at merged
    exact Bool.false_ne_true merged

/-- One call keeps a graph valid, also where it breaks and mends it many times, as a merge does. -/
theorem Valid.call (valid : graph.Valid) (call : Call) : (graph.call call).Valid := by
  cases call with
  | edit edit => exact (valid.takes_edit edit).valid
  | removeEdge id => exact valid.removeEdge id
  | setContributing id value => exact valid.setContributing id value

theorem valid_ofCalls (kinds : List Kind) (calls : List Call) : (ofCalls kinds calls).Valid := by
  have general : ∀ graph : Multigraph, graph.Valid → (calls.foldl Multigraph.call graph).Valid := by
    induction calls with
    | nil => exact fun _ valid => valid
    | cons first calls ih => exact fun _ valid => ih _ (valid.call first)
  exact general _ (valid_withDirectKinds kinds)

/-- After any sequence of calls the parts of a graph agree with one another. -/
theorem coherent_ofCalls (kinds : List Kind) (calls : List Call) : (ofCalls kinds calls).Coherent :=
  (valid_ofCalls kinds calls).coherent

end GrammarReach.Multigraph
