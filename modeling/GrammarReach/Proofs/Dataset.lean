import Mathlib.Data.Finset.Card
import GrammarReach.Dataset
import GrammarReach.Proofs.NodeSet

/-!
The dataset as a finite set of edges. Both indexes always tell the same edges, no stored edge bears a
fault label, and the count is the number of edges; each way of adding is described by the edges that
it adds and by those that it reports as new.
-/

namespace GrammarReach

theorem isFault_iff (label : Label) : label.isFault ↔ label.symbol = Symbol.fault := by
  simp [Label.isFault]

namespace LabelIndex

/-- Every set of neighbours is laid out well, and none was recorded without a neighbour. -/
structure Valid (index : LabelIndex) : Prop where
  sets : ∀ node label, (index.find node label).Valid
  inhabited : ∀ node label set, index.find? node label = some set → ∃ neighbour, set.contains neighbour

private theorem valid_empty : ({} : LabelIndex).Valid where
  sets node label := by simpa [find, find?] using NodeSet.valid_empty
  inhabited node label set recorded := by simp [find?] at recorded

/-- A neighbour is held by a set that was recorded. -/
theorem exists_find? (index : LabelIndex) (node : Node) (label : Label) (neighbour : Node) :
    (∃ set, index.find? node label = some set ∧ set.contains neighbour) ↔
      (index.find node label).contains neighbour := by
  cases found : index.find? node label <;> simp [find, found]

/-- What is recorded of a valid index is laid out well and has a neighbour. -/
theorem Valid.of_find? {index : LabelIndex} (valid : index.Valid) {node : Node} {label : Label} {set : NodeSet}
    (recorded : index.find? node label = some set) : set.Valid ∧ ¬ set.isEmpty := by
  have setValid := valid.sets node label
  rw [find, recorded, Option.getD_some] at setValid
  obtain ⟨neighbour, held⟩ := valid.inhabited node label set recorded
  exact ⟨setValid, fun none => (NodeSet.isEmpty_iff set).mp none neighbour held⟩

theorem find?_put (index : LabelIndex) (node : Node) (label : Label) (set : NodeSet) (other : Node)
    (otherLabel : Label) :
    (index.put node label set).find? other otherLabel =
      if other = node ∧ otherLabel = label then some set else index.find? other otherLabel := by
  unfold find? put
  rw [Std.TreeMap.getElem?_insert]
  by_cases here : other = node
  · subst here
    simp only [compare_eq_iff_eq, if_true, Option.bind_some, Std.TreeMap.getElem?_insert, true_and]
    by_cases same : otherLabel = label
    · simp [same]
    · have differs : label ≠ otherLabel := Ne.symm same
      simp only [same, if_false, Std.TreeMap.getD_eq_getD_getElem?]
      cases index.rows[other]? <;> simp [differs]
  · simp [here, Ne.symm here]

theorem find_put (index : LabelIndex) (node : Node) (label : Label) (set : NodeSet) (other : Node)
    (otherLabel : Label) :
    (index.put node label set).find other otherLabel =
      if other = node ∧ otherLabel = label then set else index.find other otherLabel := by
  unfold find
  rw [find?_put]
  split <;> rfl

theorem valid_put {index : LabelIndex} (valid : index.Valid) (node : Node) (label : Label)
    {set : NodeSet} (setValid : set.Valid) (inhabited : ∃ neighbour, set.contains neighbour) :
    (index.put node label set).Valid where
  sets other otherLabel := by
    rw [find_put]
    split
    · exact setValid
    · exact valid.sets other otherLabel
  inhabited other otherLabel found recorded := by
    rw [find?_put] at recorded
    split at recorded
    · obtain rfl := Option.some.inj recorded
      exact inhabited
    · exact valid.inhabited other otherLabel found recorded

theorem valid_link {index : LabelIndex} (valid : index.Valid) (node : Node) (label : Label)
    (neighbour : Node) : (index.link node label neighbour).Valid :=
  valid_put valid node label (NodeSet.valid_insert (valid.sets node label) neighbour)
    ⟨neighbour, (NodeSet.contains_insert (valid.sets node label) neighbour neighbour).mpr (.inl rfl)⟩

/-- Recording a neighbour adds that neighbour and nothing else. -/
theorem contains_link {index : LabelIndex} (valid : index.Valid) (node : Node) (label : Label)
    (neighbour other : Node) (otherLabel : Label) (otherNeighbour : Node) :
    ((index.link node label neighbour).find other otherLabel).contains otherNeighbour ↔
      (index.find other otherLabel).contains otherNeighbour ∨
        (other = node ∧ otherLabel = label ∧ otherNeighbour = neighbour) := by
  unfold link
  rw [find_put]
  split
  · next same =>
    obtain ⟨rfl, rfl⟩ := same
    rw [NodeSet.contains_insert (valid.sets _ _)]
    simp [or_comm]
  · next other =>
    rw [or_iff_left]
    exact fun same => other ⟨same.1, same.2.1⟩

/-- Recording one neighbour at each node of a list. -/
theorem foldl_link {index : LabelIndex} (valid : index.Valid) (label : Label) (neighbour : Node)
    (nodes : List Node) :
    let linked := nodes.foldl (fun index node => index.link node label neighbour) index
    linked.Valid ∧ ∀ other otherLabel otherNeighbour,
      (linked.find other otherLabel).contains otherNeighbour ↔
        (index.find other otherLabel).contains otherNeighbour ∨
          (other ∈ nodes ∧ otherLabel = label ∧ otherNeighbour = neighbour) := by
  induction nodes generalizing index with
  | nil => simp [valid]
  | cons node nodes ih =>
    obtain ⟨linkedValid, linked⟩ := ih (valid_link valid node label neighbour)
    refine ⟨linkedValid, fun other otherLabel otherNeighbour => ?_⟩
    rw [List.foldl_cons, linked, contains_link valid, List.mem_cons]
    tauto

/-- A row lists the labels with a recorded set. -/
theorem mem_row (index : LabelIndex) (node : Node) (label : Label) (set : NodeSet) :
    (label, set) ∈ index.row node ↔ index.find? node label = some set := by
  unfold row find?
  rw [Std.TreeMap.mem_toList_iff_getElem?_eq_some, Std.TreeMap.getD_eq_getD_getElem?]
  cases index.rows[node]? <;> simp

end LabelIndex

namespace Dataset

/-- Both indexes agree, no label is a fault, and the count is the number of edges. -/
structure Valid (data : Dataset) : Prop where
  outgoing : data.outgoing.Valid
  incoming : data.incoming.Valid
  mirrored : ∀ edge : Edge,
    (data.incoming.find edge.dst edge.label).contains edge.src ↔ data.contains edge
  faultless : ∀ edge, data.contains edge → ¬ edge.label.isFault
  counted : ∃ stored : Finset Edge, (∀ edge, edge ∈ stored ↔ data.contains edge) ∧
    data.edgeCount = stored.card

theorem not_contains_empty (edge : Edge) : ¬ empty.contains edge := by
  simp [contains, empty, LabelIndex.find, LabelIndex.find?]

theorem valid_empty : empty.Valid where
  outgoing := LabelIndex.valid_empty
  incoming := LabelIndex.valid_empty
  mirrored edge := by simp [contains, empty, LabelIndex.find, LabelIndex.find?]
  faultless edge stored := absurd stored (not_contains_empty edge)
  counted := ⟨∅, fun edge => by simp [not_contains_empty], rfl⟩

/-- What adding a batch of edges amounts to, whichever end it is done from. -/
private theorem valid_of_added {data grown : Dataset} (valid : data.Valid)
    (outgoing : grown.outgoing.Valid) (incoming : grown.incoming.Valid) (batch : Finset Edge)
    (faultless : ∀ edge ∈ batch, ¬ edge.label.isFault) (new : ∀ edge ∈ batch, ¬ data.contains edge)
    (forward : ∀ edge, grown.contains edge ↔ data.contains edge ∨ edge ∈ batch)
    (backward : ∀ edge : Edge, (grown.incoming.find edge.dst edge.label).contains edge.src ↔
      (data.incoming.find edge.dst edge.label).contains edge.src ∨ edge ∈ batch)
    (count : grown.edgeCount = data.edgeCount + batch.card) : grown.Valid where
  outgoing := outgoing
  incoming := incoming
  mirrored edge := by rw [backward, forward, valid.mirrored]
  faultless edge contained := by
    rcases (forward edge).mp contained with old | added
    · exact valid.faultless edge old
    · exact faultless edge added
  counted := by
    obtain ⟨stored, inside, total⟩ := valid.counted
    refine ⟨stored ∪ batch, fun edge => ?_, ?_⟩
    · rw [Finset.mem_union, inside, forward]
    · rw [count, total, Finset.card_union_of_disjoint]
      exact Finset.disjoint_left.mpr fun edge old added => new edge added ((inside edge).mp old)

/-- The count is the size of the set of edges. -/
theorem edgeCount_eq_card {data : Dataset} (valid : data.Valid) {stored : Finset Edge}
    (inside : ∀ edge, edge ∈ stored ↔ data.contains edge) : data.edgeCount = stored.card := by
  obtain ⟨counted, same, total⟩ := valid.counted
  rw [total]
  congr 1
  ext edge
  rw [same, inside]

/-! ### One edge -/

theorem add_flag (data : Dataset) (edge : Edge) :
    (data.add edge).2 ↔ ¬ edge.label.isFault ∧ ¬ data.contains edge := by
  unfold add
  split
  · next fault => simp [fault]
  · next sound =>
    have fresh := NodeSet.insert_flag (data.outgoing.find edge.src edge.label) edge.dst
    dsimp only
    split
    · next flag =>
      rw [flag] at fresh
      simp_all [contains]
    · next flag =>
      rw [Bool.not_eq_true] at flag
      rw [flag] at fresh
      simp_all [contains]

/-- An edge that is not reported as new leaves the dataset as it is. -/
theorem add_of_not_flag {data : Dataset} {edge : Edge} (known : ¬ (data.add edge).2) :
    (data.add edge).1 = data := by
  unfold add at known ⊢
  split
  · rfl
  · next sound =>
    simp only [sound, Bool.false_eq_true, if_false] at known
    dsimp only at known ⊢
    split
    · next flag => simp [flag] at known
    · rfl

theorem contains_add {data : Dataset} (valid : data.Valid) (edge other : Edge) :
    (data.add edge).1.contains other ↔
      data.contains other ∨ (other = edge ∧ ¬ edge.label.isFault) := by
  by_cases flag : (data.add edge).2
  · obtain ⟨sound, -⟩ := (add_flag data edge).mp flag
    have inserted := NodeSet.contains_insert (valid.outgoing.sets edge.src edge.label) edge.dst
    unfold add at flag ⊢
    simp only [sound, Bool.false_eq_true, if_false] at flag ⊢
    split at flag
    · next fresh =>
      rw [if_pos fresh]
      simp only [contains, LabelIndex.find_put]
      split
      · next same =>
        rw [same.1, same.2, inserted]
        cases edge
        cases other
        simp_all [or_comm]
      · next differs =>
        rw [or_iff_left]
        rintro ⟨rfl, -⟩
        exact differs ⟨rfl, rfl⟩
    · simp at flag
  · rw [add_of_not_flag flag]
    rw [add_flag, not_and_not_right] at flag
    constructor
    · exact .inl
    · rintro (stored | ⟨rfl, sound⟩)
      · exact stored
      · exact flag sound

theorem valid_add {data : Dataset} (valid : data.Valid) (edge : Edge) : (data.add edge).1.Valid := by
  by_cases flag : (data.add edge).2
  · obtain ⟨sound, new⟩ := (add_flag data edge).mp flag
    have added := contains_add valid edge
    unfold add at flag added ⊢
    simp only [sound, Bool.false_eq_true, if_false] at flag added ⊢
    split at flag
    · next fresh =>
      rw [if_pos fresh] at added ⊢
      refine valid_of_added valid ?_ ?_ {edge} ?_ ?_ ?_ ?_ ?_
      · have here := valid.outgoing.sets edge.src edge.label
        exact LabelIndex.valid_put valid.outgoing _ _ (NodeSet.valid_insert here edge.dst)
          ⟨edge.dst, (NodeSet.contains_insert here edge.dst edge.dst).mpr (.inl rfl)⟩
      · exact LabelIndex.valid_link valid.incoming _ _ _
      · simp [sound]
      · simp [new]
      · intro other
        rw [added, Finset.mem_singleton]
        simp
      · intro other
        rw [LabelIndex.contains_link valid.incoming, Finset.mem_singleton]
        cases edge
        cases other
        simp only [Edge.mk.injEq]
        tauto
      · simp
    · simp at flag
  · rw [add_of_not_flag flag]
    exact valid

/-! ### Many edges at one node -/

private theorem card_image {list : List Node} (distinct : list.Nodup) {edgeOf : Node → Edge}
    (injective : Function.Injective edgeOf) : (list.toFinset.image edgeOf).card = list.length := by
  rw [Finset.card_image_of_injective _ injective, List.toFinset_card_of_nodup distinct]

/-- A bulk addition adds the edges to all targets and reports those that were absent. -/
structure AddsAll (data grown : Dataset) (fresh : NodeSet) (edgeOf : Node → Edge)
    (neighbours : NodeSet) : Prop where
  valid : grown.Valid
  freshValid : fresh.Valid
  fresh_iff : ∀ node, fresh.contains node ↔
    neighbours.contains node ∧ ¬ (edgeOf node).label.isFault ∧ ¬ data.contains (edgeOf node)
  contains_iff : ∀ edge, grown.contains edge ↔
    data.contains edge ∨ ∃ node, fresh.contains node ∧ edge = edgeOf node

private theorem addsAll_nothing {data : Dataset} (valid : data.Valid) (edgeOf : Node → Edge)
    (neighbours : NodeSet)
    (nothing : ∀ node, neighbours.contains node → (edgeOf node).label.isFault) :
    AddsAll data data .empty edgeOf neighbours where
  valid := valid
  freshValid := NodeSet.valid_empty
  fresh_iff node := by
    constructor
    · intro absurdity
      exact absurd absurdity (NodeSet.not_contains_empty node)
    · rintro ⟨member, sound, -⟩
      exact absurd (nothing node member) sound
  contains_iff edge := by simp

/-- A row that has received new targets stores the edges to them, and no other edge is new. -/
private theorem contains_put (data : Dataset) (src : Node) (label : Label) {row fresh : NodeSet}
    (grown : ∀ node, row.contains node ↔
      (data.outgoing.find src label).contains node ∨ fresh.contains node) (edge : Edge) :
    ((data.outgoing.put src label row).find edge.src edge.label).contains edge.dst ↔
      data.contains edge ∨ ∃ node, fresh.contains node ∧ edge = ⟨src, node, label⟩ := by
  obtain ⟨start, stop, mark⟩ := edge
  rw [LabelIndex.find_put]
  split
  · next same =>
    obtain ⟨rfl, rfl⟩ := same
    simp [grown, contains]
  · next differs =>
    rw [contains, or_iff_left]
    rintro ⟨node, -, same⟩
    simp only [Edge.mk.injEq] at same
    exact differs ⟨same.1, same.2.2⟩

/-- A row takes in new targets, which are linked back to their source and counted. -/
private theorem valid_widened {data : Dataset} (valid : data.Valid) (src : Node) {label : Label}
    (sound : ¬ label.isFault) {row fresh : NodeSet} (rowValid : row.Valid) (freshValid : fresh.Valid)
    (inhabited : ∃ node, row.contains node)
    (grown : ∀ node, row.contains node ↔
      (data.outgoing.find src label).contains node ∨ fresh.contains node)
    (new : ∀ node, fresh.contains node → ¬ data.contains ⟨src, node, label⟩) :
    Valid
      { outgoing := data.outgoing.put src label row
        incoming := fresh.toList.foldl (fun index dst => index.link dst label src) data.incoming
        edgeCount := data.edgeCount + fresh.size } := by
  have listed := NodeSet.mem_toList fresh
  obtain ⟨linkedValid, linked⟩ :=
    LabelIndex.foldl_link valid.incoming label src fresh.toList
  refine valid_of_added valid (LabelIndex.valid_put valid.outgoing _ _ rowValid inhabited) linkedValid
    (fresh.toList.toFinset.image fun dst => ⟨src, dst, label⟩) ?_ ?_ ?_ ?_ ?_
  · intro edge batch
    obtain ⟨node, -, rfl⟩ := Finset.mem_image.mp batch
    exact sound
  · intro edge batch
    obtain ⟨node, member, rfl⟩ := Finset.mem_image.mp batch
    exact new node ((listed node).mp (List.mem_toFinset.mp member))
  · intro edge
    rw [contains, contains_put data src label grown]
    refine or_congr_right ?_
    simp only [Finset.mem_image, List.mem_toFinset, listed]
    exact exists_congr fun node => and_congr_right fun _ => eq_comm
  · rintro ⟨start, stop, mark⟩
    rw [linked]
    refine or_congr_right ?_
    simp only [Finset.mem_image, List.mem_toFinset, Edge.mk.injEq]
    constructor
    · rintro ⟨member, rfl, rfl⟩
      exact ⟨stop, member, rfl, rfl, rfl⟩
    · rintro ⟨node, member, rfl, rfl, rfl⟩
      exact ⟨member, rfl, rfl⟩
  · rw [card_image (NodeSet.toList_nodup freshValid), NodeSet.length_toList]
    intro first second same
    simpa using same

theorem addTargets_addsAll {data : Dataset} (valid : data.Valid) (src : Node) {targets : NodeSet}
    (targetsValid : targets.Valid) (label : Label) :
    AddsAll data (data.addTargets src targets label).1 (data.addTargets src targets label).2
      (fun dst => ⟨src, dst, label⟩) targets := by
  unfold addTargets
  split
  · next skipped =>
    refine addsAll_nothing valid _ _ fun node member => ?_
    rcases Bool.or_eq_true_iff.mp skipped with fault | none
    · exact fault
    · exact absurd member ((NodeSet.isEmpty_iff targets).mp none node)
  · next worked =>
    obtain ⟨sound, some⟩ := not_or.mp (mt Bool.or_eq_true_iff.mpr worked)
    obtain ⟨target, member⟩ : ∃ target, targets.contains target := by
      simpa [NodeSet.isEmpty_iff] using some
    have here := valid.outgoing.sets src label
    have united := NodeSet.contains_unionNew here targetsValid
    have fresh := NodeSet.contains_unionNew_fresh here targetsValid
    obtain ⟨unitedValid, freshValid⟩ := NodeSet.valid_unionNew here targetsValid
    have grown : ∀ node, ((data.outgoing.find src label).unionNew targets).1.contains node ↔
        (data.outgoing.find src label).contains node ∨
          ((data.outgoing.find src label).unionNew targets).2.contains node := by
      intro node
      rw [united, fresh]
      tauto
    exact
      { valid := valid_widened valid src sound unitedValid freshValid
          ⟨target, (united target).mpr (.inr member)⟩ grown fun node new => ((fresh node).mp new).2
        freshValid := freshValid
        fresh_iff := fun node => by
          rw [fresh]
          simp [sound, contains]
        contains_iff := data.contains_put src label grown }

private def reversed (data : Dataset) : Dataset :=
  { outgoing := data.incoming, incoming := data.outgoing, edgeCount := data.edgeCount }

private def backwards (edge : Edge) : Edge := ⟨edge.dst, edge.src, edge.label⟩

private theorem contains_reversed {data : Dataset} (valid : data.Valid) (edge : Edge) :
    data.reversed.contains edge ↔ data.contains (backwards edge) := valid.mirrored (backwards edge)

private theorem backwards_injective : Function.Injective backwards := by
  rintro ⟨src, dst, label⟩ ⟨src', dst', label'⟩ same
  simp_all [backwards]

private theorem valid_reversed {data : Dataset} (valid : data.Valid) : data.reversed.Valid where
  outgoing := valid.incoming
  incoming := valid.outgoing
  mirrored edge := (contains_reversed valid edge).symm
  faultless edge contained :=
    valid.faultless (backwards edge) ((contains_reversed valid edge).mp contained)
  counted := by
    obtain ⟨stored, inside, total⟩ := valid.counted
    refine ⟨stored.image backwards, fun edge => ?_, ?_⟩
    · rw [contains_reversed valid, ← inside, Finset.mem_image]
      constructor
      · rintro ⟨original, member, rfl⟩
        exact member
      · intro member
        exact ⟨backwards edge, member, rfl⟩
    · rw [Finset.card_image_of_injective _ backwards_injective]
      exact total

private theorem reversed_addTargets (data : Dataset) (dst : Node) (sources : NodeSet)
    (label : Label) :
    (data.addSources sources dst label).1 = (data.reversed.addTargets dst sources label).1.reversed ∧
    (data.addSources sources dst label).2 = (data.reversed.addTargets dst sources label).2 := by
  unfold addSources addTargets
  split <;> exact ⟨rfl, rfl⟩

theorem addSources_addsAll {data : Dataset} (valid : data.Valid) (dst : Node) {sources : NodeSet}
    (sourcesValid : sources.Valid) (label : Label) :
    AddsAll data (data.addSources sources dst label).1 (data.addSources sources dst label).2
      (fun src => ⟨src, dst, label⟩) sources := by
  obtain ⟨grown, fresh⟩ := reversed_addTargets data dst sources label
  rw [grown, fresh]
  have added := addTargets_addsAll (valid_reversed valid) dst sourcesValid label
  exact
    { valid := valid_reversed added.valid
      freshValid := added.freshValid
      fresh_iff := fun node => by
        rw [added.fresh_iff, contains_reversed valid]
        rfl
      contains_iff := fun edge => by
        rw [contains_reversed added.valid, added.contains_iff, contains_reversed valid]
        refine or_congr_right (exists_congr fun node => and_congr_right fun _ => ?_)
        cases edge
        simp only [backwards, Edge.mk.injEq]
        tauto }

/-! ### Looking edges up -/

/-- A set of neighbours that holds anything was recorded. -/
private theorem mem_labels_of_contains (index : LabelIndex) (node : Node) (label : Label)
    (neighbour : Node) (held : (index.find node label).contains neighbour) :
    label ∈ (index.row node).map (·.1) := by
  obtain ⟨set, recorded, -⟩ := (index.exists_find? node label neighbour).mpr held
  exact List.mem_map.mpr ⟨(label, set), (index.mem_row node label set).mpr recorded, rfl⟩

theorem mem_outLabels {data : Dataset} {edge : Edge} (stored : data.contains edge) :
    edge.label ∈ (data.outLabels edge.src).map (·.1) :=
  mem_labels_of_contains data.outgoing edge.src edge.label edge.dst stored

theorem mem_inLabels {data : Dataset} (valid : data.Valid) {edge : Edge}
    (stored : data.contains edge) : edge.label ∈ (data.inLabels edge.dst).map (·.1) :=
  mem_labels_of_contains data.incoming edge.dst edge.label edge.src ((valid.mirrored edge).mpr stored)

/-- The neighbours that a row lists under a label are those recorded. -/
private theorem exists_mem_row (index : LabelIndex) (node : Node) (label : Label) (neighbour : Node) :
    (∃ set, (label, set) ∈ index.row node ∧ neighbour ∈ set.toList) ↔
      (index.find node label).contains neighbour := by
  rw [← LabelIndex.exists_find?]
  refine exists_congr fun set => ?_
  rw [LabelIndex.mem_row]
  exact and_congr_right fun recorded => NodeSet.mem_toList _ neighbour

theorem exists_mem_outLabels (data : Dataset) (src dst : Node) (label : Label) :
    (∃ targets, (label, targets) ∈ data.outLabels src ∧ dst ∈ targets.toList) ↔
      data.contains ⟨src, dst, label⟩ :=
  exists_mem_row data.outgoing src label dst

theorem exists_mem_inLabels {data : Dataset} (valid : data.Valid) (src dst : Node) (label : Label) :
    (∃ sources, (label, sources) ∈ data.inLabels dst ∧ src ∈ sources.toList) ↔
      data.contains ⟨src, dst, label⟩ :=
  (exists_mem_row data.incoming dst label src).trans (valid.mirrored ⟨src, dst, label⟩)

/-! ### All edges of another dataset -/

theorem mem_targetSets (data : Dataset) (src : Node) (label : Label) (targets : NodeSet) :
    (src, label, targets) ∈ data.targetSets ↔ data.outgoing.find? src label = some targets := by
  simp only [targetSets, List.mem_flatMap, List.mem_map, Prod.exists, Prod.mk.injEq,
    Std.TreeMap.mem_toList_iff_getElem?_eq_some, LabelIndex.find?, Option.bind_eq_some_iff]
  constructor
  · rintro ⟨_, row, found, label', targets', inside, rfl, rfl, rfl⟩
    exact ⟨row, found, inside⟩
  · rintro ⟨row, found, inside⟩
    exact ⟨src, row, found, label, targets, inside, rfl, rfl, rfl⟩

private theorem foldl_addTargets (entries : List (Node × Label × NodeSet)) (data : Dataset)
    (valid : data.Valid) (sound : ∀ src label targets, (src, label, targets) ∈ entries →
      targets.Valid ∧ ∀ node, targets.contains node → ¬ label.isFault) (added : Nat) :
    let result := entries.foldl
      (fun (data, added) (src, label, targets) =>
        let (data, fresh) := data.addTargets src targets label
        (data, added + fresh.size))
      (data, added)
    result.1.Valid ∧ ∀ edge, result.1.contains edge ↔ data.contains edge ∨
      ∃ targets, (edge.src, edge.label, targets) ∈ entries ∧ targets.contains edge.dst := by
  induction entries generalizing data added with
  | nil => simp [valid]
  | cons entry entries ih =>
    obtain ⟨src, label, targets⟩ := entry
    obtain ⟨targetsValid, clean⟩ := sound src label targets (by simp)
    have step := addTargets_addsAll valid src targetsValid label
    obtain ⟨resultValid, result⟩ := ih _ step.valid
      (fun src label targets member => sound src label targets (by simp [member]))
      (added + (data.addTargets src targets label).2.size)
    refine ⟨resultValid, fun edge => ?_⟩
    rw [List.foldl_cons]
    refine (result edge).trans ?_
    rw [step.contains_iff]
    obtain ⟨start, stop, mark⟩ := edge
    simp only [step.fresh_iff, List.mem_cons, Prod.mk.injEq, Edge.mk.injEq]
    constructor
    · rintro ((old | ⟨node, ⟨member, -⟩, rfl, rfl, rfl⟩) | ⟨set, member, held⟩)
      · exact .inl old
      · exact .inr ⟨targets, .inl ⟨rfl, rfl, rfl⟩, member⟩
      · exact .inr ⟨set, .inr member, held⟩
    · rintro (old | ⟨set, ⟨rfl, rfl, rfl⟩ | member, held⟩)
      · exact .inl (.inl old)
      · by_cases old : data.contains ⟨start, stop, mark⟩
        · exact .inl (.inl old)
        · exact .inl (.inr ⟨stop, ⟨held, clean stop held, old⟩, rfl, rfl, rfl⟩)
      · exact .inr ⟨set, member, held⟩

theorem absorb_spec {data other : Dataset} (valid : data.Valid) (otherValid : other.Valid) :
    (data.absorb other).1.Valid ∧
      ∀ edge, (data.absorb other).1.contains edge ↔ data.contains edge ∨ other.contains edge := by
  have sound : ∀ src label targets, (src, label, targets) ∈ other.targetSets →
      targets.Valid ∧ ∀ node, targets.contains node → ¬ label.isFault := by
    intro src label targets member
    have recorded := (other.mem_targetSets src label targets).mp member
    refine ⟨(otherValid.outgoing.of_find? recorded).1, fun node held => ?_⟩
    exact otherValid.faultless ⟨src, node, label⟩
      ((other.outgoing.exists_find? src label node).mp ⟨targets, recorded, held⟩)
  obtain ⟨grownValid, grown⟩ := foldl_addTargets other.targetSets data valid sound 0
  refine ⟨grownValid, fun edge => (grown edge).trans (or_congr_right ?_)⟩
  simp only [mem_targetSets]
  exact other.outgoing.exists_find? edge.src edge.label edge.dst

/-- Absorbing a dataset that shares no edge adds up the counts. -/
theorem edgeCount_absorb {data other : Dataset} (valid : data.Valid) (otherValid : other.Valid)
    (apart : ∀ edge, data.contains edge → ¬ other.contains edge) :
    (data.absorb other).1.edgeCount = data.edgeCount + other.edgeCount := by
  obtain ⟨grownValid, grown⟩ := absorb_spec valid otherValid
  obtain ⟨left, insideLeft, totalLeft⟩ := valid.counted
  obtain ⟨right, insideRight, totalRight⟩ := otherValid.counted
  have inside : ∀ edge, edge ∈ left ∪ right ↔ (data.absorb other).1.contains edge := fun edge => by
    rw [Finset.mem_union, insideLeft, insideRight, grown]
  have disjoint : Disjoint left right := Finset.disjoint_left.mpr fun edge inLeft inRight =>
    apart edge ((insideLeft edge).mp inLeft) ((insideRight edge).mp inRight)
  rw [edgeCount_eq_card grownValid inside, totalLeft, totalRight, Finset.card_union_of_disjoint disjoint]

theorem edgeCount_addTargets (data : Dataset) (src : Node) (targets : NodeSet) (label : Label) :
    (data.addTargets src targets label).1.edgeCount =
      data.edgeCount + (data.addTargets src targets label).2.size := by
  unfold addTargets
  split <;> rfl

private theorem edgeCount_foldl (first : Nat) (entries : List (Node × Label × NodeSet))
    (state : Dataset × Nat) (start : state.1.edgeCount = first + state.2) :
    let result := entries.foldl
      (fun (data, added) (src, label, targets) =>
        let (data, fresh) := data.addTargets src targets label
        (data, added + fresh.size))
      state
    result.1.edgeCount = first + result.2 := by
  induction entries generalizing state with
  | nil => exact start
  | cons entry entries ih =>
    refine ih _ ?_
    dsimp only
    rw [edgeCount_addTargets, start, Nat.add_assoc]

/-- Absorbing adds to the count what it tells. -/
theorem edgeCount_absorb_eq_add (data other : Dataset) :
    (data.absorb other).1.edgeCount = data.edgeCount + (data.absorb other).2 :=
  edgeCount_foldl data.edgeCount other.targetSets (data, 0) rfl

/-! ### Listing -/

theorem mem_edges (data : Dataset) (edge : Edge) : edge ∈ data.edges ↔ data.contains edge := by
  rw [contains, ← exists_mem_row data.outgoing edge.src edge.label edge.dst]
  simp only [edges, List.mem_mergeSort, List.mem_flatMap, List.mem_map, Prod.exists, mem_targetSets,
    LabelIndex.mem_row]
  constructor
  · rintro ⟨src, label, targets, recorded, dst, listed, rfl⟩
    exact ⟨targets, recorded, listed⟩
  · rintro ⟨targets, recorded, listed⟩
    exact ⟨_, _, targets, recorded, edge.dst, listed, rfl⟩

theorem isEmpty_iff {data : Dataset} (valid : data.Valid) :
    data.isEmpty ↔ ∀ edge, ¬ data.contains edge := by
  obtain ⟨stored, inside, total⟩ := valid.counted
  rw [isEmpty, beq_iff_eq, total, Finset.card_eq_zero, Finset.eq_empty_iff_forall_notMem]
  simp only [inside]

end Dataset

end GrammarReach
