import GrammarReach.Proofs.Counts
import GrammarReach.Proofs.NodeSet.Calls

namespace GrammarReach.Dataset

/-- All that a dataset shows is a finite set of edges. -/
structure Represents (data : Dataset) (stored : Finset Edge) : Prop where
  contains_iff : ∀ edge, data.contains edge ↔ edge ∈ stored
  successors : ∀ src dst label, (∃ targets, data.successors? src label = some targets ∧
    targets.contains dst) ↔ ⟨src, dst, label⟩ ∈ stored
  predecessors : ∀ src dst label, (∃ sources, data.predecessors? dst label = some sources ∧
    sources.contains src) ↔ ⟨src, dst, label⟩ ∈ stored
  faultless : ∀ edge ∈ stored, ¬ edge.label.isFault
  targets_sound : ∀ src label targets, data.successors? src label = some targets →
    targets.Valid ∧ ¬ targets.isEmpty
  sources_sound : ∀ dst label sources, data.predecessors? dst label = some sources →
    sources.Valid ∧ ¬ sources.isEmpty
  edgeCount_eq : data.edgeCount = stored.card
  symbolCounts_sum : (data.symbolCounts.toList.map (·.2)).sum = data.edgeCount
  mem_edges : ∀ edge, edge ∈ data.edges ↔ edge ∈ stored
  edges_ascend : data.edges.Pairwise (compare · · = .lt)

/-- A dataset is laid out well and holds the edges of a finite set. -/
structure Stores (data : Dataset) (stored : Finset Edge) : Prop where
  valid : data.Valid
  contains_iff : ∀ edge, data.contains edge ↔ edge ∈ stored

theorem stores_empty : Stores empty ∅ := ⟨valid_empty, fun edge => by simp [not_contains_empty]⟩

/-- What adding the edges to some neighbours, all but those with a fault label, makes of a set of
edges, and which of the neighbours were new. -/
def unite (stored : Finset Edge) (edgeOf : Node → Edge) (nodes : Finset Node) : Finset Edge × Finset Node :=
  let sound := nodes.filter fun node => ¬ (edgeOf node).label.isFault
  (stored ∪ sound.image edgeOf, sound.filter fun node => edgeOf node ∉ stored)

theorem mem_unite (stored : Finset Edge) (edgeOf : Node → Edge) (nodes : Finset Node) (edge : Edge) :
    edge ∈ (unite stored edgeOf nodes).1 ↔
      edge ∈ stored ∨ ∃ node ∈ nodes, ¬ edge.label.isFault ∧ edge = edgeOf node := by
  simp only [unite, Finset.mem_union, Finset.mem_image, Finset.mem_filter]
  refine or_congr_right (exists_congr fun node => ?_)
  constructor
  · rintro ⟨⟨inside, sound⟩, rfl⟩
    exact ⟨inside, sound, rfl⟩
  · rintro ⟨inside, sound, rfl⟩
    exact ⟨⟨inside, sound⟩, rfl⟩

theorem mem_unite_fresh (stored : Finset Edge) (edgeOf : Node → Edge) (nodes : Finset Node) (node : Node) :
    node ∈ (unite stored edgeOf nodes).2 ↔
      node ∈ nodes ∧ ¬ (edgeOf node).label.isFault ∧ edgeOf node ∉ stored := by
  simp only [unite, Finset.mem_filter, and_assoc]

/-- The first of some neighbours may be added on its own. -/
theorem unite_insert (stored : Finset Edge) (edgeOf : Node → Edge) (first : Node) (nodes : Finset Node) :
    (unite stored edgeOf (insert first nodes)).1 =
      (unite (if (edgeOf first).label.isFault then stored else insert (edgeOf first) stored) edgeOf nodes).1 := by
  ext edge
  simp only [mem_unite, Finset.exists_mem_insert]
  split
  · next fault =>
    refine or_congr_right (or_iff_right ?_)
    rintro ⟨sound, rfl⟩
    exact sound fault
  · next sound =>
    rw [Finset.mem_insert, ← or_assoc, or_comm (a := edge ∈ stored)]
    refine or_congr_left (or_congr_left (and_iff_right_of_imp ?_))
    rintro rfl
    exact sound

namespace Stores

variable {data grown other : Dataset} {stored others : Finset Edge} {edgeOf : Node → Edge}

theorem add (stores : Stores data stored) (edge : Edge) :
    Stores (data.add edge).1 (if edge.label.isFault then stored else insert edge stored) := by
  refine ⟨valid_add stores.valid edge, fun other => ?_⟩
  rw [contains_add stores.valid, stores.contains_iff]
  split
  · next fault => simp [fault]
  · next sound => simp [sound, or_comm]

theorem add_flag (stores : Stores data stored) (edge : Edge) :
    (data.add edge).2 = decide (¬ edge.label.isFault ∧ edge ∉ stored) := by
  rw [Bool.eq_iff_iff, Dataset.add_flag, stores.contains_iff, decide_eq_true_iff]

/-- A bulk addition. -/
theorem addsAll (stores : Stores data stored) {fresh neighbours : NodeSet} {nodes : Finset Node}
    (represents : neighbours.Represents nodes) (adds : AddsAll data grown fresh edgeOf neighbours) :
    Stores grown (unite stored edgeOf nodes).1 ∧ fresh.Represents (unite stored edgeOf nodes).2 := by
  have new : ∀ node, fresh.contains node ↔ node ∈ (unite stored edgeOf nodes).2 := fun node => by
    rw [adds.fresh_iff, mem_unite_fresh, represents.contains_iff, stores.contains_iff]
  refine ⟨⟨adds.valid, fun edge => ?_⟩, adds.freshValid, new⟩
  rw [adds.contains_iff, mem_unite, stores.contains_iff]
  simp only [new, mem_unite_fresh]
  constructor
  · rintro (old | ⟨node, ⟨inside, sound, -⟩, rfl⟩)
    · exact .inl old
    · exact .inr ⟨node, inside, sound, rfl⟩
  · rintro (old | ⟨node, inside, sound, rfl⟩)
    · exact .inl old
    · by_cases old : edgeOf node ∈ stored
      · exact .inl old
      · exact .inr ⟨node, ⟨inside, sound, old⟩, rfl⟩

theorem addTargets (stores : Stores data stored) (src : Node) {targets : NodeSet} {nodes : Finset Node}
    (represents : targets.Represents nodes) (label : Label) :
    Stores (data.addTargets src targets label).1 (unite stored (⟨src, ·, label⟩) nodes).1 ∧
      (data.addTargets src targets label).2.Represents (unite stored (⟨src, ·, label⟩) nodes).2 :=
  stores.addsAll represents (addTargets_addsAll stores.valid src represents.valid label)

theorem addSources (stores : Stores data stored) {sources : NodeSet} {nodes : Finset Node}
    (represents : sources.Represents nodes) (dst : Node) (label : Label) :
    Stores (data.addSources sources dst label).1 (unite stored (⟨·, dst, label⟩) nodes).1 ∧
      (data.addSources sources dst label).2.Represents (unite stored (⟨·, dst, label⟩) nodes).2 :=
  stores.addsAll represents (addSources_addsAll stores.valid dst represents.valid label)

theorem absorb (stores : Stores data stored) (stores' : Stores other others) :
    Stores (data.absorb other).1 (stored ∪ others) := by
  obtain ⟨grown, contains⟩ := absorb_spec stores.valid stores'.valid
  refine ⟨grown, fun edge => ?_⟩
  rw [contains, Finset.mem_union, stores.contains_iff, stores'.contains_iff]

theorem edgeCount_eq (stores : Stores data stored) : data.edgeCount = stored.card :=
  edgeCount_eq_card stores.valid fun edge => (stores.contains_iff edge).symm

theorem absorb_number (stores : Stores data stored) (stores' : Stores other others) :
    (data.absorb other).2 = (others \ stored).card := by
  have total := edgeCount_absorb_eq_add data other
  rw [(stores.absorb stores').edgeCount_eq, stores.edgeCount_eq, Finset.union_comm,
    ← Finset.card_sdiff_add_card, Nat.add_comm] at total
  exact (Nat.add_left_cancel total).symm

/-- Adding edges one by one, in any order of their other ends. -/
theorem runCalls_add (stores : Stores data stored) (injective : Function.Injective edgeOf)
    {order : List Node} (distinct : order.Nodup) :
    let outcome := runCalls (fun node data => data.add (edgeOf node)) order data
    Stores outcome.1 (unite stored edgeOf order.toFinset).1 ∧
      ∀ node, (node, true) ∈ order.zip outcome.2 ↔ node ∈ (unite stored edgeOf order.toFinset).2 := by
  induction order generalizing data stored with
  | nil => simpa [unite, runCalls] using stores
  | cons first order ih =>
    obtain ⟨absent, distinct⟩ := List.nodup_cons.mp distinct
    obtain ⟨last, told⟩ := ih (stores.add (edgeOf first)) distinct
    rw [List.toFinset_cons, runCalls_cons]
    refine ⟨unite_insert stored edgeOf first order.toFinset ▸ last, fun node => ?_⟩
    rw [List.zip_cons_cons, List.mem_cons, told, mem_unite_fresh, mem_unite_fresh, Finset.mem_insert,
      List.mem_toFinset, Prod.mk.injEq, stores.add_flag, eq_comm (a := true), decide_eq_true_iff]
    by_cases here : node = first
    · subst here
      simp [absent]
    · have apart : edgeOf node ≠ edgeOf first := fun same => here (injective same)
      split <;> simp [here, apart]

/-- A dataset that is laid out well shows nothing but the set of its edges. -/
theorem represents (stores : Stores data stored) : Represents data stored where
  contains_iff := stores.contains_iff
  successors src dst label := by
    rw [successors?, LabelIndex.exists_find?, ← stores.contains_iff, contains]
  predecessors src dst label := by
    rw [predecessors?, LabelIndex.exists_find?, ← stores.contains_iff, ← stores.valid.mirrored]
  faultless edge inside := stores.valid.faultless edge ((stores.contains_iff edge).mpr inside)
  targets_sound src label targets recorded := stores.valid.outgoing.of_find? recorded
  sources_sound dst label sources recorded := stores.valid.incoming.of_find? recorded
  edgeCount_eq := stores.edgeCount_eq
  symbolCounts_sum := sum_symbolCounts stores.valid
  mem_edges edge := (data.mem_edges edge).trans (stores.contains_iff edge)
  edges_ascend := Dataset.edges_ascend stores.valid

end Stores

open Function (update)

/-- A call on datasets that are kept at numbered places. The sets of nodes that it is given are laid
out well, as all sets are that calls on sets make. -/
inductive Call
  | add (place : Nat) (edge : Edge)
  | addTargets (place : Nat) (src : Node) (targets : { set : NodeSet // set.Valid }) (label : Label)
  | addSources (place : Nat) (sources : { set : NodeSet // set.Valid }) (dst : Node) (label : Label)
  | absorb (place other : Nat)

inductive Answer
  | flag (value : Bool)
  | fresh (nodes : List Node)
  | number (value : Nat)

def carryOut (call : Call) (datasets : Nat → Dataset) : (Nat → Dataset) × Answer :=
  match call with
  | .add place edge =>
    let (grown, fresh) := (datasets place).add edge
    (update datasets place grown, .flag fresh)
  | .addTargets place src targets label =>
    let (grown, fresh) := (datasets place).addTargets src targets label
    (update datasets place grown, .fresh fresh.toList)
  | .addSources place sources dst label =>
    let (grown, fresh) := (datasets place).addSources sources dst label
    (update datasets place grown, .fresh fresh.toList)
  | .absorb place other =>
    let (grown, number) := (datasets place).absorb (datasets other)
    (update datasets place grown, .number number)

/-- What a call means for finite sets of edges. -/
def expect (call : Call) (sets : Nat → Finset Edge) : (Nat → Finset Edge) × Answer :=
  match call with
  | .add place edge =>
    (update sets place (if edge.label.isFault then sets place else insert edge (sets place)),
      .flag (¬ edge.label.isFault ∧ edge ∉ sets place))
  | .addTargets place src targets label =>
    let (grown, fresh) := unite (sets place) (⟨src, ·, label⟩) targets.val.toList.toFinset
    (update sets place grown, .fresh fresh.sort)
  | .addSources place sources dst label =>
    let (grown, fresh) := unite (sets place) (⟨·, dst, label⟩) sources.val.toList.toFinset
    (update sets place grown, .fresh fresh.sort)
  | .absorb place other =>
    (update sets place (sets place ∪ sets other), .number (sets other \ sets place).card)

/-- Every place holds a dataset that stores the set of edges there. -/
def StoresAll (datasets : Nat → Dataset) (sets : Nat → Finset Edge) : Prop :=
  ∀ place, Stores (datasets place) (sets place)

/-- One call is answered as finite sets of edges answer it, and leaves the sets that they leave. -/
theorem alike_carryOut (call : Call) (datasets : Nat → Dataset) (sets : Nat → Finset Edge)
    (all : StoresAll datasets sets) : Alike StoresAll (carryOut call datasets) (expect call sets) := by
  cases call with
  | add place edge =>
    exact ⟨related_update all place ((all place).add edge), congrArg Answer.flag ((all place).add_flag edge)⟩
  | addTargets place src targets label =>
    obtain ⟨grown, fresh⟩ := (all place).addTargets src targets.property.represents label
    exact ⟨related_update all place grown, congrArg Answer.fresh fresh.toList_eq⟩
  | addSources place sources dst label =>
    obtain ⟨grown, fresh⟩ := (all place).addSources sources.property.represents dst label
    exact ⟨related_update all place grown, congrArg Answer.fresh fresh.toList_eq⟩
  | absorb place other =>
    exact ⟨related_update all place ((all place).absorb (all other)),
      congrArg Answer.number ((all place).absorb_number (all other))⟩

/-- The outcome of a bulk addition is that of adding the members one by one, in any order: it shows the
same set of edges, and the members that were new are those whose own addition told so. -/
def OneByOne (data : Dataset) (edgeOf : Node → Edge) (neighbours : NodeSet) (bulk : Dataset × NodeSet) :
    Prop :=
  ∀ order : List Node, order.Perm neighbours.toList →
    let outcome := runCalls (fun node data => data.add (edgeOf node)) order data
    (∃ stored, Represents bulk.1 stored ∧ Represents outcome.1 stored) ∧
      ∀ node, bulk.2.contains node ↔ (node, true) ∈ order.zip outcome.2

theorem Stores.oneByOne {data : Dataset} {stored : Finset Edge} (stores : Stores data stored)
    {edgeOf : Node → Edge} (injective : Function.Injective edgeOf) {neighbours : NodeSet}
    {bulk : Dataset × NodeSet} (valid : neighbours.Valid)
    (grown : Stores bulk.1 (unite stored edgeOf neighbours.toList.toFinset).1)
    (fresh : bulk.2.Represents (unite stored edgeOf neighbours.toList.toFinset).2) :
    OneByOne data edgeOf neighbours bulk := by
  intro order perm
  obtain ⟨each, told⟩ := stores.runCalls_add injective (perm.nodup_iff.mpr (NodeSet.toList_nodup valid))
  rw [List.toFinset_eq_of_perm _ _ perm] at each told
  exact ⟨⟨_, grown.represents, each.represents⟩, fun node => (fresh.contains_iff node).trans (told node).symm⟩

/-- Any sequence of calls on datasets that are empty at first is answered as finite sets of edges answer
it. The datasets show those sets and nothing else, and bulk additions could as well be made one by one. -/
theorem calls_refine_edge_sets (calls : List Call) :
    let (datasets, answers) := runCalls carryOut calls fun _ => empty
    let (sets, expected) := runCalls expect calls fun _ => ∅
    answers = expected ∧ ∀ place, Represents (datasets place) (sets place) ∧
      (∀ src (targets : { set : NodeSet // set.Valid }) label, OneByOne (datasets place)
        (⟨src, ·, label⟩) targets ((datasets place).addTargets src targets label)) ∧
      (∀ (sources : { set : NodeSet // set.Valid }) dst label, OneByOne (datasets place)
        (⟨·, dst, label⟩) sources ((datasets place).addSources sources dst label)) := by
  have outcome := alike_runCalls alike_carryOut calls fun _ => stores_empty
  refine ⟨outcome.answers, fun place => ?_⟩
  have stores := outcome.states place
  refine ⟨stores.represents, fun src targets label => ?_, fun sources dst label => ?_⟩
  · obtain ⟨grown, fresh⟩ := stores.addTargets src targets.property.represents label
    exact stores.oneByOne (fun _ _ same => (Edge.mk.inj same).2.1) targets.property grown fresh
  · obtain ⟨grown, fresh⟩ := stores.addSources sources.property.represents dst label
    exact stores.oneByOne (fun _ _ same => (Edge.mk.inj same).1) sources.property grown fresh

end GrammarReach.Dataset
