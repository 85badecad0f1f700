import GrammarReach.Proofs.Graph.Basic

namespace GrammarReach.Multigraph

variable {graph : Multigraph}

/-- The edge between the representatives of the ends of an edge. -/
def represented (graph : Multigraph) (edge : Edge) : Edge :=
  ⟨graph.repOf edge.src, graph.repOf edge.dst, edge.label⟩

/-- A direct edge from a node to itself, which is never kept. -/
def IsDirectLoop (graph : Multigraph) (edge : Edge) : Prop :=
  graph.isDirect edge.label.symbol ∧ edge.src = edge.dst

theorem Valid.represented_eq (valid : graph.Valid) {edge : Edge} (there : graph.hasEdge edge) :
    graph.represented edge = edge := by
  have live := valid.hasNode_of_hasEdge there
  rw [represented, valid.repOf_live live.1, valid.repOf_live live.2]

theorem Valid.not_isDirectLoop (valid : graph.Valid) {edge : Edge} (there : graph.hasEdge edge) :
    ¬ graph.IsDirectLoop edge := by
  obtain ⟨id, kept, found, rfl⟩ := (valid.hasEdge_iff edge).mp there
  rintro ⟨straight, loop⟩
  exact valid.loopless id kept found straight loop

private theorem lt_of_edge? {id : EdgeId} {edge : GraphEdge} (found : graph.edge? id = some edge) :
    id < graph.slots.size := by
  by_contra beyond
  rw [edge?, Array.getElem?_eq_none (Nat.le_of_not_lt beyond)] at found
  cases found

private theorem lists_empty {stop : Edge → Node} {node : Node}
    (none : ∀ id kept, graph.edge? id = some kept → stop kept.toEdge ≠ node) :
    graph.Lists {} stop node := by
  refine ⟨Incidence.valid_empty, fun kind id => iff_of_false (Incidence.not_mem_empty kind id) ?_⟩
  rintro ⟨kept, there, same, -⟩
  exact none id kept there same

/-- New nodes have no edges, and old ones keep theirs. -/
private theorem Valid.withVertices (valid : graph.Valid) (vertices : Std.TreeMap Node Vertex)
    (kept : ∀ (node : Node) (vertex : Vertex), vertices[node]? = some vertex →
      (∃ old, graph.vertices[node]? = some old ∧ vertex.outgoing = old.outgoing ∧
        vertex.incoming = old.incoming) ∨
      (graph.merged[node]? = none ∧ graph.hasNode node = false ∧
        vertex.outgoing = {} ∧ vertex.incoming = {}))
    (live : ∀ node, graph.hasNode node → vertices.contains node) :
    ({ graph with vertices } : Multigraph).Valid where
  slotted := valid.slotted
  outgoing node vertex found := by
    obtain ⟨old, before, same, -⟩ | ⟨-, absent, empty, -⟩ := kept node vertex found
    · rw [same]
      exact valid.outgoing node old before
    · rw [empty]
      refine lists_empty fun id edge there same => ?_
      rw [← same, (valid.ends id edge there).1] at absent
      cases absent
  incoming node vertex found := by
    obtain ⟨old, before, -, same⟩ | ⟨-, absent, -, empty⟩ := kept node vertex found
    · rw [same]
      exact valid.incoming node old before
    · rw [empty]
      refine lists_empty fun id edge there same => ?_
      rw [← same, (valid.ends id edge there).2] at absent
      cases absent
  ends id edge found := (valid.ends id edge found).imp (live edge.src) (live edge.dst)
  loopless := valid.loopless
  counted := valid.counted
  unmerged node there := by
    obtain ⟨vertex, found⟩ := ({ graph with vertices } : Multigraph).hasNode_iff node |>.mp there
    obtain ⟨old, before, -⟩ | ⟨unmerged, -⟩ := kept node vertex found
    · exact valid.unmerged node ((graph.hasNode_iff node).mpr ⟨old, before⟩)
    · exact unmerged
  linked node next found := live next (valid.linked node next found)
  members := valid.members
  distinct := valid.distinct

theorem getElem?_addNode (graph : Multigraph) (node other : Node) :
    (graph.addNode node).1.vertices[other]? =
      if graph.repOf node = other ∧ ¬ graph.hasNode (graph.repOf node) then some {}
      else graph.vertices[other]? := by
  simp only [addNode, Std.TreeMap.getElem?_insertIfNew, Std.LawfulEqCmp.compare_eq_iff_eq, hasNode,
    Std.TreeMap.contains_iff_mem]

theorem hasNode_addNode (graph : Multigraph) (node other : Node) :
    (graph.addNode node).1.hasNode other ↔ graph.hasNode other ∨ other = graph.repOf node := by
  rw [hasNode_iff, hasNode_iff, getElem?_addNode]
  split
  · next new => simp [new.1]
  · next old =>
    refine (or_iff_left_of_imp ?_).symm
    rintro rfl
    rw [not_and, not_not] at old
    exact (graph.hasNode_iff _).mp (old rfl)

theorem isSource_addNode (graph : Multigraph) (node other : Node) :
    (graph.addNode node).1.isSource other = graph.isSource other := by
  rw [isSource, vertex?, getElem?_addNode]
  split
  · next new =>
    have absent : graph.vertices[other]? = none := by
      rw [← new.1]
      exact Option.eq_none_iff_forall_ne_some.mpr fun vertex found =>
        new.2 ((graph.hasNode_iff _).mpr ⟨vertex, found⟩)
    simp [isSource, vertex?, absent]
  · rfl

theorem Valid.addNode (valid : graph.Valid) (node : Node) : (graph.addNode node).1.Valid := by
  refine valid.withVertices _ (fun other vertex found => ?_) fun other live => ?_
  · change (graph.addNode node).1.vertices[other]? = some vertex at found
    rw [getElem?_addNode] at found
    split at found
    · next new =>
      cases found
      right
      rw [← new.1]
      exact ⟨valid.merged_repOf node, Bool.not_eq_true _ |>.mp new.2, rfl, rfl⟩
    · exact Or.inl ⟨vertex, found, rfl, rfl⟩
  · exact (graph.hasNode_addNode node other).mpr (Or.inl live)

theorem hasNode_markSource (graph : Multigraph) (node other : Node) :
    (graph.markSource node).hasNode other ↔ graph.hasNode other ∨ other = graph.repOf node := by
  rw [← hasNode_addNode]
  simp only [markSource, hasNode, Std.TreeMap.contains_modify]

theorem Valid.markSource (valid : graph.Valid) (node : Node) : (graph.markSource node).Valid := by
  refine (valid.addNode node).withVertices _ (fun other vertex found => Or.inl ?_) fun other live => ?_
  · simp only [Std.TreeMap.getElem?_modify, Std.LawfulEqCmp.compare_eq_iff_eq] at found
    split at found
    · next same =>
      obtain ⟨old, before, rfl⟩ := Option.map_eq_some_iff.mp found
      exact ⟨old, by rwa [← same], rfl, rfl⟩
    · exact ⟨vertex, found, rfl, rfl⟩
  · rw [Std.TreeMap.contains_modify]
    exact live

/-- The vertices after the outgoing slots of one and the incoming slots of another have changed. -/
private def changed (vertices : Std.TreeMap Node Vertex) (src dst : Node)
    (leaving entering : Incidence → Incidence) : Std.TreeMap Node Vertex :=
  (vertices.modify src fun vertex => { vertex with outgoing := leaving vertex.outgoing }).modify dst
    fun vertex => { vertex with incoming := entering vertex.incoming }

private theorem contains_changed (vertices : Std.TreeMap Node Vertex) (src dst node : Node)
    (leaving entering : Incidence → Incidence) :
    (changed vertices src dst leaving entering).contains node = vertices.contains node := by
  simp only [changed, Std.TreeMap.contains_modify]

private theorem getElem?_changed (vertices : Std.TreeMap Node Vertex) (src dst node : Node)
    (leaving entering : Incidence → Incidence) :
    (changed vertices src dst leaving entering)[node]? =
      vertices[node]?.map fun vertex =>
        { isSource := vertex.isSource
          outgoing := if node = src then leaving vertex.outgoing else vertex.outgoing
          incoming := if node = dst then entering vertex.incoming else vertex.incoming } := by
  simp only [changed, Std.TreeMap.getElem?_modify, Std.LawfulEqCmp.compare_eq_iff_eq]
  by_cases atSrc : src = node
  · by_cases atDst : dst = node
    · simp [atSrc, atDst, Function.comp_def]
    · simp [atSrc, atDst, eq_comm]
  · by_cases atDst : dst = node
    · subst atDst
      simp [atSrc, Ne.symm atSrc]
    · simp [atSrc, atDst, Ne.symm atSrc, Ne.symm atDst]

private def attach (graph : Multigraph) (edge : Edge) : Multigraph :=
  { graph with
    vertices := changed graph.vertices edge.src edge.dst
      (·.insert edge.label.symbol graph.slots.size) (·.insert edge.label.symbol graph.slots.size)
    slots := graph.slots.push (some { toEdge := edge })
    slotOf := graph.slotOf.insert edge graph.slots.size
    edgeCount := graph.edgeCount + 1 }

private theorem edge?_attach (graph : Multigraph) (edge : Edge) (id : EdgeId) :
    (graph.attach edge).edge? id =
      if id = graph.slots.size then some { toEdge := edge } else graph.edge? id := by
  rw [edge?, attach, Array.getElem?_push]
  split
  · rfl
  · rfl

private theorem hasEdge_attach (graph : Multigraph) (edge other : Edge) :
    (graph.attach edge).hasEdge other ↔ graph.hasEdge other ∨ other = edge := by
  simp only [hasEdge, attach, Std.TreeMap.contains_insert, Bool.or_eq_true, beq_iff_eq,
    Std.LawfulEqCmp.compare_eq_iff_eq]
  rw [or_comm, @eq_comm _ edge]

private theorem isSource_attach (graph : Multigraph) (edge : Edge) (node : Node) :
    (graph.attach edge).isSource node = graph.isSource node := by
  rw [isSource, vertex?, attach, getElem?_changed, Option.any_map]
  rfl

private theorem exists_attach (graph : Multigraph) (edge : Edge) (id : EdgeId)
    (holds : GraphEdge → Prop) :
    (∃ kept, (graph.attach edge).edge? id = some kept ∧ holds kept) ↔
      (∃ kept, graph.edge? id = some kept ∧ holds kept) ∨
        (id = graph.slots.size ∧ holds { toEdge := edge }) := by
  rw [edge?_attach]
  split
  · next new =>
    subst new
    have fresh : graph.edge? graph.slots.size = none := by simp [edge?]
    simp [fresh]
  · next old => simp [old]

private theorem Lists.attach {incidence : Incidence} {stop : Edge → Node} {node : Node}
    (lists : graph.Lists incidence stop node) (edge : Edge) :
    (graph.attach edge).Lists
      (if node = stop edge then incidence.insert edge.label.symbol graph.slots.size else incidence)
      stop node := by
  obtain ⟨wellFormed, listed⟩ := lists
  simp only [Lists, exists_attach, ← listed]
  split
  · next here =>
    refine ⟨Incidence.valid_insert wellFormed _ _, fun kind id => ?_⟩
    rw [Incidence.mem_insert]
    simp [here, eq_comm, and_comm]
  · next elsewhere => exact ⟨wellFormed, fun kind id => by simp [Ne.symm elsewhere]⟩

private theorem Valid.attach (valid : graph.Valid) {edge : Edge} (src : graph.hasNode edge.src)
    (dst : graph.hasNode edge.dst) (new : ¬ graph.hasEdge edge) (straight : ¬ graph.IsDirectLoop edge) :
    (graph.attach edge).Valid := by
  have vertices : ∀ node, (graph.attach edge).hasNode node = graph.hasNode node :=
    fun node => contains_changed _ _ _ node _ _
  exact
    { slotted := fun other id => by
        show (graph.slotOf.insert edge graph.slots.size)[other]? = some id ↔ _
        rw [exists_attach, ← valid.slotted]
        simp only [Std.TreeMap.getElem?_insert, Std.LawfulEqCmp.compare_eq_iff_eq]
        split
        · next same =>
          subst same
          have absent : graph.slotOf[edge]? ≠ some id := by
            rw [Ne, valid.slotted]
            exact fun there => new ((valid.hasEdge_iff edge).mpr ⟨id, there⟩)
          simp [absent, eq_comm]
        · next other => simp [other]
      outgoing := fun node vertex found => by
        obtain ⟨old, before, rfl⟩ := Option.map_eq_some_iff.mp ((getElem?_changed ..).symm.trans found)
        exact (valid.outgoing node old before).attach edge
      incoming := fun node vertex found => by
        obtain ⟨old, before, rfl⟩ := Option.map_eq_some_iff.mp ((getElem?_changed ..).symm.trans found)
        exact (valid.incoming node old before).attach edge
      ends := fun id kept found => by
        rw [vertices, vertices]
        rw [edge?_attach] at found
        split at found
        · cases found
          exact ⟨src, dst⟩
        · exact valid.ends id kept found
      loopless := fun id kept found => by
        rw [edge?_attach] at found
        split at found
        · cases found
          exact fun direct loop => straight ⟨direct, loop⟩
        · exact valid.loopless id kept found
      counted := by
        show graph.edgeCount + 1 = _
        rw [valid.counted, Multigraph.attach, Array.countP_push]
        rfl
      unmerged := fun node live => valid.unmerged node ((vertices node).symm.trans live)
      linked := fun node next found => (vertices next).trans (valid.linked node next found)
      members := valid.members
      distinct := valid.distinct }

private theorem addEdge_eq (graph : Multigraph) (edge : Edge) :
    (graph.addEdge edge).1 =
      let ends := ((graph.addNode edge.src).1.addNode edge.dst).1
      let moved := graph.represented edge
      if (moved.src = moved.dst ∧ ends.isDirect moved.label.symbol) ∨ ends.hasEdge moved then ends
      else ends.attach moved := by
  have test : ∀ (first second : Bool) (one two : Node),
      (((one == two && first) || second) = true) = ((one = two ∧ first) ∨ second) := by
    simp
  simp only [addEdge, test]
  split
  · next drop => exact (if_pos drop).symm
  · next keep => exact (if_neg keep).symm

private theorem hasNode_ends (graph : Multigraph) (edge : Edge) (node : Node) :
    ((graph.addNode edge.src).1.addNode edge.dst).1.hasNode node ↔
      graph.hasNode node ∨ node = (graph.represented edge).src ∨ node = (graph.represented edge).dst := by
  rw [hasNode_addNode, hasNode_addNode, or_assoc]
  rfl

theorem Valid.addEdge (valid : graph.Valid) (edge : Edge) : (graph.addEdge edge).1.Valid := by
  have ends := (valid.addNode edge.src).addNode edge.dst
  rw [addEdge_eq]
  dsimp only
  split
  · exact ends
  · next keep =>
    rw [not_or, not_and] at keep
    exact ends.attach ((graph.hasNode_ends edge _).mpr (Or.inr (Or.inl rfl)))
      ((graph.hasNode_ends edge _).mpr (Or.inr (Or.inr rfl))) keep.2
      fun loop => keep.1 loop.2 loop.1

/-- An edge is put between the representatives of its ends, unless it is a direct loop there. -/
theorem hasEdge_addEdge (graph : Multigraph) (edge other : Edge) :
    (graph.addEdge edge).1.hasEdge other ↔
      graph.hasEdge other ∨ (other = graph.represented edge ∧ ¬ graph.IsDirectLoop other) := by
  rw [addEdge_eq]
  dsimp only
  split
  · next drop =>
    refine (or_iff_left_of_imp ?_).symm
    rintro ⟨rfl, straight⟩
    exact drop.resolve_left fun loop => straight ⟨loop.2, loop.1⟩
  · next keep =>
    rw [not_or, not_and] at keep
    rw [hasEdge_attach]
    refine or_congr Iff.rfl (and_iff_left_of_imp ?_).symm
    rintro rfl loop
    exact keep.1 loop.2 loop.1

/-- A new edge leaves the others in their slots. -/
theorem edge?_addEdge_of_edge? {id : EdgeId} {kept : GraphEdge} (found : graph.edge? id = some kept)
    (edge : Edge) : (graph.addEdge edge).1.edge? id = some kept := by
  rw [addEdge_eq]
  dsimp only
  split
  · exact found
  · rw [edge?_attach, if_neg]
    · exact found
    · exact Nat.ne_of_lt (lt_of_edge? found)

theorem hasNode_addEdge (graph : Multigraph) (edge : Edge) (node : Node) :
    (graph.addEdge edge).1.hasNode node ↔
      graph.hasNode node ∨ node = (graph.represented edge).src ∨ node = (graph.represented edge).dst := by
  rw [addEdge_eq, ← hasNode_ends]
  dsimp only
  split
  · rfl
  · rw [hasNode, attach, contains_changed, ← hasNode]

theorem isSource_addEdge (graph : Multigraph) (edge : Edge) (node : Node) :
    (graph.addEdge edge).1.isSource node = graph.isSource node := by
  have ends : ((graph.addNode edge.src).1.addNode edge.dst).1.isSource node = graph.isSource node :=
    (isSource_addNode _ _ _).trans (isSource_addNode _ _ _)
  rw [addEdge_eq]
  dsimp only
  split
  · exact ends
  · rw [isSource_attach, ends]

/-- Nothing is merged by a new edge. -/
theorem kept_addEdge (graph : Multigraph) (edge : Edge) :
    (graph.addEdge edge).1.merged = graph.merged ∧
      (graph.addEdge edge).1.directKinds = graph.directKinds := by
  rw [addEdge_eq]
  dsimp only
  split <;> exact ⟨rfl, rfl⟩

private def release (graph : Multigraph) (id : EdgeId) (edge : GraphEdge) : Multigraph :=
  { graph with
    vertices := changed graph.vertices edge.src edge.dst
      (·.erase edge.label.symbol id) (·.erase edge.label.symbol id)
    slots := graph.slots.setIfInBounds id none
    slotOf := graph.slotOf.erase edge.toEdge
    edgeCount := graph.edgeCount - 1 }

private theorem removeEdge_eq (graph : Multigraph) (id : EdgeId) :
    graph.removeEdge id = ((graph.edge? id).elim graph (graph.release id), graph.edge? id) := by
  rw [removeEdge]
  cases graph.edge? id <;> rfl

private theorem edge?_release (graph : Multigraph) (id other : EdgeId) (edge : GraphEdge) :
    (graph.release id edge).edge? other = if other = id then none else graph.edge? other := by
  rw [edge?, release, Array.getElem?_setIfInBounds]
  by_cases same : id = other
  · subst same
    rw [if_pos rfl, if_pos rfl]
    split <;> rfl
  · rw [if_neg same, if_neg (Ne.symm same)]
    rfl

private theorem exists_release (graph : Multigraph) (id other : EdgeId) (edge : GraphEdge)
    (holds : GraphEdge → Prop) :
    (∃ kept, (graph.release id edge).edge? other = some kept ∧ holds kept) ↔
      other ≠ id ∧ ∃ kept, graph.edge? other = some kept ∧ holds kept := by
  rw [edge?_release]
  split <;> simp [*]

private theorem Lists.release {incidence : Incidence} {stop : Edge → Node} {node : Node}
    (lists : graph.Lists incidence stop node) {id : EdgeId} {edge : GraphEdge}
    (found : graph.edge? id = some edge) :
    (graph.release id edge).Lists
      (if node = stop edge.toEdge then incidence.erase edge.label.symbol id else incidence)
      stop node := by
  obtain ⟨wellFormed, listed⟩ := lists
  simp only [Lists, exists_release, ← listed]
  split
  · refine ⟨Incidence.valid_erase wellFormed _ _, fun kind other => ?_⟩
    rw [Incidence.mem_erase, and_comm]
    refine and_congr_left fun there => not_congr (and_iff_right_of_imp ?_)
    rintro rfl
    obtain ⟨kept, same, -, rfl⟩ := (listed kind other).mp there
    rw [Option.some.inj (found.symm.trans same)]
  · next elsewhere =>
    refine ⟨wellFormed, fun kind other => (and_iff_right_of_imp ?_).symm⟩
    rintro there rfl
    obtain ⟨kept, same, rfl, -⟩ := (listed kind other).mp there
    exact elsewhere (by rw [Option.some.inj (found.symm.trans same)])

private theorem Valid.release (valid : graph.Valid) {id : EdgeId} {edge : GraphEdge}
    (found : graph.edge? id = some edge) : (graph.release id edge).Valid := by
  have vertices : ∀ node, (graph.release id edge).hasNode node = graph.hasNode node :=
    fun node => contains_changed _ _ _ node _ _
  exact
    { slotted := fun other slot => by
        show (graph.slotOf.erase edge.toEdge)[other]? = some slot ↔ _
        rw [exists_release, ← valid.slotted]
        simp only [Std.TreeMap.getElem?_erase, Std.LawfulEqCmp.compare_eq_iff_eq]
        have own := (valid.slotted edge.toEdge id).mpr ⟨edge, found, rfl⟩
        split
        · next same => simp [← same, own, eq_comm]
        · next differ =>
          refine (and_iff_right_of_imp ?_).symm
          rintro there rfl
          obtain ⟨kept, found', rfl⟩ := (valid.slotted other slot).mp there
          rw [found] at found'
          exact differ (by cases found'; rfl)
      outgoing := fun node vertex there => by
        obtain ⟨old, before, rfl⟩ := Option.map_eq_some_iff.mp ((getElem?_changed ..).symm.trans there)
        exact (valid.outgoing node old before).release found
      incoming := fun node vertex there => by
        obtain ⟨old, before, rfl⟩ := Option.map_eq_some_iff.mp ((getElem?_changed ..).symm.trans there)
        exact (valid.incoming node old before).release found
      ends := fun other kept there => by
        rw [vertices, vertices]
        rw [edge?_release, Option.ite_none_left_eq_some] at there
        exact valid.ends other kept there.2
      loopless := fun other kept there => by
        rw [edge?_release, Option.ite_none_left_eq_some] at there
        exact valid.loopless other kept there.2
      counted := by
        show graph.edgeCount - 1 = (graph.slots.setIfInBounds id none).countP _
        have bound := lt_of_edge? found
        have present : graph.slots[id] = some edge := by
          rw [edge?, Array.getElem?_eq_getElem bound] at found
          exact found
        rw [valid.counted, Array.setIfInBounds, dif_pos bound, Array.countP_set bound, present]
        rfl
      unmerged := fun node live => valid.unmerged node ((vertices node).symm.trans live)
      linked := fun node next found => (vertices next).trans (valid.linked node next found)
      members := valid.members
      distinct := valid.distinct }

theorem Valid.removeEdge (valid : graph.Valid) (id : EdgeId) : (graph.removeEdge id).1.Valid := by
  rw [removeEdge_eq]
  cases found : graph.edge? id with
  | none => exact valid
  | some edge => exact valid.release found

theorem edge?_removeEdge (graph : Multigraph) (id other : EdgeId) :
    (graph.removeEdge id).1.edge? other = if other = id then none else graph.edge? other := by
  rw [removeEdge_eq]
  cases found : graph.edge? id with
  | none =>
    dsimp only [Option.elim]
    split
    · next same => rw [same, found]
    · rfl
  | some edge => exact graph.edge?_release id other edge

theorem hasEdge_removeEdge (valid : graph.Valid) (id : EdgeId) (edge : Edge) :
    (graph.removeEdge id).1.hasEdge edge ↔
      graph.hasEdge edge ∧ ∀ kept, graph.edge? id = some kept → kept.toEdge ≠ edge := by
  rw [(valid.removeEdge id).hasEdge_iff, valid.hasEdge_iff]
  simp only [edge?_removeEdge, Option.ite_none_left_eq_some]
  constructor
  · rintro ⟨slot, kept, ⟨apart, found⟩, rfl⟩
    refine ⟨⟨slot, kept, found, rfl⟩, fun other taken same => ?_⟩
    exact apart (valid.slot_unique taken found same).symm
  · rintro ⟨⟨slot, kept, found, rfl⟩, apart⟩
    refine ⟨slot, kept, ⟨?_, found⟩, rfl⟩
    rintro rfl
    exact apart kept found rfl

theorem hasNode_removeEdge (graph : Multigraph) (id : EdgeId) (node : Node) :
    (graph.removeEdge id).1.hasNode node = graph.hasNode node := by
  rw [removeEdge_eq]
  cases graph.edge? id with
  | none => rfl
  | some edge => exact contains_changed _ _ _ node _ _

theorem isSource_removeEdge (graph : Multigraph) (id : EdgeId) (node : Node) :
    (graph.removeEdge id).1.isSource node = graph.isSource node := by
  rw [removeEdge_eq]
  cases graph.edge? id with
  | none => rfl
  | some edge =>
    rw [Option.elim, isSource, vertex?, release, getElem?_changed, Option.any_map]
    rfl

/-- Nothing is merged or split by taking an edge out. -/
theorem kept_removeEdge (graph : Multigraph) (id : EdgeId) :
    (graph.removeEdge id).1.merged = graph.merged ∧
      (graph.removeEdge id).1.members = graph.members ∧
      (graph.removeEdge id).1.directKinds = graph.directKinds := by
  rw [removeEdge_eq]
  cases graph.edge? id <;> exact ⟨rfl, rfl, rfl⟩

theorem edge?_setContributing (graph : Multigraph) (id other : EdgeId) (value : Bool) :
    (graph.setContributing id value).edge? other =
      if other = id then (graph.edge? other).map fun edge => { edge with contributing := value }
      else graph.edge? other := by
  rw [edge?, setContributing, Array.getElem?_modify]
  by_cases same : id = other
  · rw [if_pos same, if_pos same.symm, edge?]
    cases graph.slots[other]? <;> rfl
  · rw [if_neg same, if_neg (Ne.symm same), edge?]

/-- Marking an edge neither takes one nor frees a slot. -/
private theorem countP_setContributing (graph : Multigraph) (id : EdgeId) (value : Bool) :
    (graph.setContributing id value).slots.countP (·.isSome) = graph.slots.countP (·.isSome) := by
  have shape : (graph.setContributing id value).slots.map (·.isSome) = graph.slots.map (·.isSome) := by
    refine Array.ext_getElem? fun other => ?_
    rw [setContributing, Array.getElem?_map, Array.getElem?_map, Array.getElem?_modify]
    split
    · rw [Option.map_map]
      congr 1
      funext slot
      exact Option.isSome_map
    · rfl
  have count := congrArg (Array.countP fun some => some) shape
  rwa [Array.countP_map, Array.countP_map] at count

theorem Valid.setContributing (valid : graph.Valid) (id : EdgeId) (value : Bool) :
    (graph.setContributing id value).Valid := by
  have kept : ∀ (other : EdgeId) (holds : Edge → Prop),
      (∃ edge, (graph.setContributing id value).edge? other = some edge ∧ holds edge.toEdge) ↔
        ∃ edge, graph.edge? other = some edge ∧ holds edge.toEdge := by
    intro other holds
    rw [edge?_setContributing]
    split
    · cases graph.edge? other <;> simp
    · rfl
  have back : ∀ (other : EdgeId) (edge : GraphEdge),
      (graph.setContributing id value).edge? other = some edge →
        ∃ old, graph.edge? other = some old ∧ old.toEdge = edge.toEdge :=
    fun other edge found => (kept other (· = edge.toEdge)).mp ⟨edge, found, rfl⟩
  exact
    { slotted := fun edge other => (valid.slotted edge other).trans (kept other (· = edge)).symm
      outgoing := fun node vertex found => by
        obtain ⟨wellFormed, listed⟩ := valid.outgoing node vertex found
        exact ⟨wellFormed, fun kind other =>
          (listed kind other).trans (kept other fun edge => edge.src = node ∧ edge.label.symbol = kind).symm⟩
      incoming := fun node vertex found => by
        obtain ⟨wellFormed, listed⟩ := valid.incoming node vertex found
        exact ⟨wellFormed, fun kind other =>
          (listed kind other).trans (kept other fun edge => edge.dst = node ∧ edge.label.symbol = kind).symm⟩
      ends := fun other edge found => by
        obtain ⟨old, before, same⟩ := back other edge found
        rw [← same]
        exact valid.ends other old before
      loopless := fun other edge found => by
        obtain ⟨old, before, same⟩ := back other edge found
        rw [← same]
        exact valid.loopless other old before
      counted := valid.counted.trans (graph.countP_setContributing id value).symm
      unmerged := valid.unmerged
      linked := valid.linked
      members := valid.members
      distinct := valid.distinct }

end GrammarReach.Multigraph
