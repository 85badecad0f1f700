import Mathlib.Data.List.Induction
import Mathlib.Logic.Relation
import GrammarReach.Proofs.Graph.Merge

/-!
Graphs that are built by additions, marks and merges, in any order.

Such a graph is the quotient of all that was ever put in. Everything is seen at its representative of
the end, and two nodes have the same one just when merges connect them. An edge that was added to a node
long gone, a merge into such a node and a chain of merges are no exceptions.
-/

namespace GrammarReach.Multigraph

/-- A call that puts something into a graph or merges two of its nodes. -/
inductive Edit
  | addNode (node : Node)
  | markSource (node : Node)
  | addEdge (edge : Edge)
  | merge (node target : Node)
deriving DecidableEq

def edit (graph : Multigraph) : Edit → Multigraph
  | .addNode node => (graph.addNode node).1
  | .markSource node => graph.markSource node
  | .addEdge edge => (graph.addEdge edge).1
  | .merge node target => (graph.merge node target).1

/-- An edit makes one node of two: it is a merge of them, and succeeds. -/
def Edit.Joins (graph : Multigraph) (edit : Edit) (node target : Node) : Prop :=
  edit = .merge node target ∧ (graph.merge node target).2 = true

/-- An edit puts a node into a graph, or an edge at it, or merges another one into it. -/
def Edit.Uses (graph : Multigraph) (node : Node) : Edit → Prop
  | .addNode used => used = node
  | .markSource used => used = node
  | .addEdge edge => edge.src = node ∨ edge.dst = node
  | .merge merged target => (graph.merge merged target).2 = true ∧ target = node

/-- The graph that a sequence of edits builds from nothing. -/
def ofEdits (kinds : List Kind) (edits : List Edit) : Multigraph :=
  edits.foldl edit (withDirectKinds kinds)

/-- One of the edits was so, with the graph that it met. -/
def Happened (kinds : List Kind) (edits : List Edit) (so : Multigraph → Edit → Prop) : Prop :=
  ∃ before last after, edits = before ++ last :: after ∧ so (ofEdits kinds before) last

theorem ofEdits_concat (kinds : List Kind) (edits : List Edit) (last : Edit) :
    ofEdits kinds (edits ++ [last]) = (ofEdits kinds edits).edit last := by
  rw [ofEdits, List.foldl_append]
  rfl

theorem not_happened_nil (kinds : List Kind) (so : Multigraph → Edit → Prop) :
    ¬ Happened kinds [] so := by
  rintro ⟨before, last, after, split, -⟩
  simp at split

theorem happened_concat (kinds : List Kind) (edits : List Edit) (last : Edit)
    (so : Multigraph → Edit → Prop) :
    Happened kinds (edits ++ [last]) so ↔ Happened kinds edits so ∨ so (ofEdits kinds edits) last := by
  constructor
  · rintro ⟨before, other, after, split, held⟩
    obtain rfl | ⟨after, final, rfl⟩ := after.eq_nil_or_concat
    · obtain ⟨rfl, same⟩ := List.append_inj' split rfl
      exact Or.inr (List.head_eq_of_cons_eq same ▸ held)
    · rw [List.concat_eq_append, ← List.cons_append, ← List.append_assoc] at split
      exact Or.inl ⟨before, other, after, (List.append_inj' split rfl).1, held⟩
  · rintro (⟨before, other, after, rfl, held⟩ | held)
    · exact ⟨before, other, after ++ [last], by rw [List.append_assoc, List.cons_append], held⟩
    · exact ⟨edits, last, [], rfl, held⟩

variable {graph next : Multigraph} {edit : Edit}

/-! ### One edit -/

/-- A graph has become the quotient of itself and what an edit put in. -/
structure Takes (graph : Multigraph) (edit : Edit) (next : Multigraph) : Prop where
  valid : next.Valid
  kinds : next.directKinds = graph.directKinds
  absorbs : ∀ node, next.repOf (graph.repOf node) = next.repOf node
  joins : ∀ node target, edit.Joins graph node target → next.repOf node = next.repOf target
  splits : ∀ one two, next.repOf one = next.repOf two → graph.repOf one = graph.repOf two ∨
    ∃ node target, edit.Joins graph node target ∧
      ((graph.repOf one = graph.repOf node ∧ graph.repOf two = graph.repOf target) ∨
        (graph.repOf one = graph.repOf target ∧ graph.repOf two = graph.repOf node))
  nodes : ∀ node, next.hasNode node ↔
    ∃ old, (graph.hasNode old ∨ edit.Uses graph old) ∧ next.repOf old = node
  edges : ∀ edge, next.hasEdge edge ↔
    ∃ old, (graph.hasEdge old ∨ edit = .addEdge old) ∧ next.represented old = edge ∧
      ¬ next.IsDirectLoop edge
  sources : ∀ node, next.isSource node ↔
    ∃ old, (graph.isSource old ∨ edit = .markSource old) ∧ next.repOf old = node

/-- An edit that merges nothing adds to a graph what it puts in. -/
private theorem Valid.takes_of_unmerged (before : graph.Valid) (valid : next.Valid)
    (merged : next.merged = graph.merged) (kinds : next.directKinds = graph.directKinds)
    (alone : ∀ node target, ¬ edit.Joins graph node target)
    (nodes : ∀ node, next.hasNode node ↔
      graph.hasNode node ∨ ∃ used, edit.Uses graph used ∧ graph.repOf used = node)
    (edges : ∀ edge, next.hasEdge edge ↔ graph.hasEdge edge ∨
      ∃ added, edit = .addEdge added ∧ graph.represented added = edge ∧ ¬ graph.IsDirectLoop edge)
    (sources : ∀ node, next.isSource node ↔
      graph.isSource node ∨ ∃ marked, edit = .markSource marked ∧ graph.repOf marked = node) :
    Takes graph edit next := by
  have same : next.repOf = graph.repOf := by
    funext node
    rw [repOf, repOf, merged]
  have straight : ∀ edge, next.IsDirectLoop edge ↔ graph.IsDirectLoop edge := by
    intro edge
    rw [IsDirectLoop, IsDirectLoop, isDirect, isDirect, kinds]
  have old := Quotient.refl before
  exact
    { valid := valid
      kinds := kinds
      absorbs := fun node => by rw [same, before.repOf_repOf]
      joins := fun node target joins => absurd joins (alone node target)
      splits := fun one two equal => by
        rw [same] at equal
        exact .inl equal
      nodes := fun node => by
        simp only [same, or_and_right, exists_or]
        rw [nodes, old.nodes]
      edges := fun edge => by
        simp only [represented, same, straight, or_and_right, exists_or]
        rw [edges, old.edges]
        rfl
      sources := fun node => by
        simp only [same, or_and_right, exists_or]
        rw [sources, old.sources] }

theorem Valid.takes_addNode (valid : graph.Valid) (node : Node) :
    Takes graph (.addNode node) (graph.edit (.addNode node)) := by
  refine valid.takes_of_unmerged (valid.addNode node) rfl rfl ?_ (fun other => ?_) (fun edge => ?_)
    fun other => ?_
  · rintro _ _ ⟨impossible, -⟩
    cases impossible
  · simp only [edit, hasNode_addNode, Edit.Uses, exists_eq_left', @eq_comm _ other]
  · simp only [reduceCtorEq, false_and, exists_false, or_false]
    rfl
  · simp only [reduceCtorEq, false_and, exists_false, or_false]
    rw [edit, isSource_addNode]

private theorem isSource_markSource (graph : Multigraph) (node other : Node) :
    (graph.markSource node).isSource other ↔ graph.isSource other ∨ graph.repOf node = other := by
  obtain ⟨vertex, found⟩ : ∃ vertex, (graph.addNode node).1.vertices[graph.repOf node]? = some vertex :=
    (hasNode_iff _ _).mp ((hasNode_addNode graph node _).mpr (Or.inr rfl))
  have marked : (graph.markSource node).vertices = (graph.addNode node).1.vertices.modify
      (graph.repOf node) fun vertex => { vertex with isSource := true } := rfl
  rw [← isSource_addNode graph node other, isSource, isSource, vertex?, vertex?, marked]
  simp only [Std.TreeMap.getElem?_modify, Std.LawfulEqCmp.compare_eq_iff_eq]
  by_cases here : graph.repOf node = other
  · subst here
    simp [found]
  · simp [here]

theorem Valid.takes_markSource (valid : graph.Valid) (node : Node) :
    Takes graph (.markSource node) (graph.edit (.markSource node)) := by
  refine valid.takes_of_unmerged (valid.markSource node) rfl rfl ?_ (fun other => ?_) (fun edge => ?_)
    fun other => ?_
  · rintro _ _ ⟨impossible, -⟩
    cases impossible
  · simp only [edit, hasNode_markSource, Edit.Uses, exists_eq_left', @eq_comm _ other]
  · simp only [reduceCtorEq, false_and, exists_false, or_false]
    rfl
  · simp only [edit, isSource_markSource, Edit.markSource.injEq, exists_eq_left']

theorem Valid.takes_addEdge (valid : graph.Valid) (edge : Edge) :
    Takes graph (.addEdge edge) (graph.edit (.addEdge edge)) := by
  obtain ⟨merged, kinds⟩ := graph.kept_addEdge edge
  refine valid.takes_of_unmerged (valid.addEdge edge) merged kinds ?_ (fun node => ?_) (fun other => ?_)
    fun node => ?_
  · rintro _ _ ⟨impossible, -⟩
    cases impossible
  · simp only [edit, hasNode_addEdge, Edit.Uses, or_and_right, exists_or, exists_eq_left', represented,
      @eq_comm _ node]
  · simp only [edit, hasEdge_addEdge, Edit.addEdge.injEq, exists_eq_left', @eq_comm _ other]
  · simp only [reduceCtorEq, false_and, exists_false, or_false]
    rw [edit, isSource_addEdge]

/-- A merge that fails leaves everything as it is. -/
private theorem Valid.takes_idle (valid : graph.Valid) {node target : Node}
    (failed : (graph.merge node target).2 = false) :
    Takes graph (.merge node target) (graph.merge node target).1 := by
  have idle : graph.hasNode node = false ∨ node = graph.repOf target := by
    by_contra busy
    rw [not_or, Bool.not_eq_false] at busy
    rw [(graph.merge_flag node target).mpr busy] at failed
    cases failed
  rw [merge_of_same idle]
  refine valid.takes_of_unmerged valid rfl rfl ?_ (fun other => ?_) (fun edge => ?_) fun other => ?_
  · rintro _ _ ⟨same, joined⟩
    cases same
    rw [failed] at joined
    cases joined
  · simp only [Edit.Uses, failed, Bool.false_eq_true, false_and, exists_false, or_false]
  · simp only [reduceCtorEq, false_and, exists_false, or_false]
  · simp only [reduceCtorEq, false_and, exists_false, or_false]

/-- A merge that succeeds makes one node of two, and sees to it that the target is there. -/
private theorem Valid.takes_joining (valid : graph.Valid) {node target : Node}
    (joined : (graph.merge node target).2 = true) :
    Takes graph (.merge node target) (graph.merge node target).1 := by
  obtain ⟨live, apart⟩ := (graph.merge_flag node target).mp joined
  obtain ⟨quotient, repOf⟩ := valid.quotient_merge live apart
  have own := valid.repOf_live live
  exact
    { valid := quotient.valid
      kinds := quotient.kinds
      absorbs := quotient.absorbs
      joins := by
        rintro _ _ ⟨same, -⟩
        cases same
        rw [repOf, repOf, own, if_pos rfl, ite_self]
      splits := fun one two equal => by
        rw [repOf, repOf] at equal
        by_cases first : graph.repOf one = node
        · by_cases second : graph.repOf two = node
          · exact .inl (first.trans second.symm)
          · rw [if_pos first, if_neg second] at equal
            exact .inr ⟨node, target, ⟨rfl, joined⟩, .inl ⟨first.trans own.symm, equal.symm⟩⟩
        · by_cases second : graph.repOf two = node
          · rw [if_neg first, if_pos second] at equal
            exact .inr ⟨node, target, ⟨rfl, joined⟩, .inr ⟨equal, second.trans own.symm⟩⟩
          · rw [if_neg first, if_neg second] at equal
            exact .inl equal
      nodes := fun other => by
        rw [quotient.nodes]
        constructor
        · rintro ⟨old, there, rfl⟩
          obtain there | rfl := (hasNode_addNode graph target old).mp there
          · exact ⟨old, .inl there, rfl⟩
          · exact ⟨target, .inr ⟨joined, rfl⟩, (quotient.absorbs target).symm⟩
        · rintro ⟨old, there | ⟨-, rfl⟩, rfl⟩
          · exact ⟨old, (hasNode_addNode graph target old).mpr (.inl there), rfl⟩
          · exact ⟨_, (hasNode_addNode graph target _).mpr (.inr rfl), quotient.absorbs target⟩
      edges := fun edge => by
        simp only [reduceCtorEq, or_false]
        exact quotient.edges edge
      sources := fun other => by
        simp only [reduceCtorEq, or_false, ← isSource_addNode graph target]
        exact quotient.sources other }

/-- Every edit takes what it names into the quotient. -/
theorem Valid.takes_edit (valid : graph.Valid) (edit : Edit) : Takes graph edit (graph.edit edit) := by
  cases edit with
  | addNode node => exact valid.takes_addNode node
  | markSource node => exact valid.takes_markSource node
  | addEdge edge => exact valid.takes_addEdge edge
  | merge node target =>
    cases flag : (graph.merge node target).2 with
    | false => exact valid.takes_idle flag
    | true => exact valid.takes_joining flag

/-! ### All edits -/

variable {kinds : List Kind} {edits : List Edit}

/-- One of the merges made one node of two. -/
def Joined (kinds : List Kind) (edits : List Edit) (node target : Node) : Prop :=
  Happened kinds edits fun graph edit => edit.Joins graph node target

/-- A node that was put in, by itself, at an edge, or by a merge into it. -/
def Used (kinds : List Kind) (edits : List Edit) (node : Node) : Prop :=
  Happened kinds edits fun graph edit => edit.Uses graph node

/-- A graph is the quotient of all that its edits put in. -/
structure Shows (kinds : List Kind) (edits : List Edit) (graph : Multigraph) : Prop where
  valid : graph.Valid
  direct : graph.directKinds = (withDirectKinds kinds).directKinds
  classes : ∀ one two, graph.repOf one = graph.repOf two ↔ Relation.EqvGen (Joined kinds edits) one two
  nodes : ∀ node, graph.hasNode node ↔ ∃ used, Used kinds edits used ∧ graph.repOf used = node
  edges : ∀ edge, graph.hasEdge edge ↔
    ∃ added, .addEdge added ∈ edits ∧ graph.represented added = edge ∧ ¬ graph.IsDirectLoop edge
  sources : ∀ node, graph.isSource node ↔
    ∃ marked, .markSource marked ∈ edits ∧ graph.repOf marked = node

/-- Representatives that agree on related nodes agree on those that the relation connects. -/
theorem repOf_eq_of_eqvGen {related : Node → Node → Prop} {one two : Node}
    (agree : ∀ one two, related one two → graph.repOf one = graph.repOf two)
    (linked : Relation.EqvGen related one two) : graph.repOf one = graph.repOf two :=
  (eq_equivalence.comap graph.repOf).eqvGen_iff.mp (linked.mono agree)

theorem shows_nil (kinds : List Kind) : Shows kinds [] (ofEdits kinds []) where
  valid := valid_withDirectKinds kinds
  direct := rfl
  classes one two := by
    constructor
    · rintro rfl
      exact .refl one
    · exact repOf_eq_of_eqvGen fun _ _ joined => absurd joined (not_happened_nil kinds _)
  nodes node := by simp [ofEdits, withDirectKinds, hasNode, Used, not_happened_nil]
  edges edge := by simp [ofEdits, withDirectKinds, hasEdge]
  sources node := by simp [ofEdits, withDirectKinds, isSource, vertex?]

private theorem Shows.classes_concat (shows : Shows kinds edits (ofEdits kinds edits)) {last : Edit}
    (takes : Takes (ofEdits kinds edits) last next) (one two : Node) :
    next.repOf one = next.repOf two ↔ Relation.EqvGen (Joined kinds (edits ++ [last])) one two := by
  have later : ∀ one two, (ofEdits kinds edits).repOf one = (ofEdits kinds edits).repOf two →
      Relation.EqvGen (Joined kinds (edits ++ [last])) one two := fun one two same =>
    ((shows.classes one two).mp same).mono fun _ _ joined => (happened_concat ..).mpr (Or.inl joined)
  have new : ∀ node target, last.Joins (ofEdits kinds edits) node target →
      Relation.EqvGen (Joined kinds (edits ++ [last])) node target := fun node target joins =>
    .rel _ _ ((happened_concat ..).mpr (Or.inr joins))
  constructor
  · intro same
    obtain same | ⟨node, target, joins, ⟨first, second⟩ | ⟨first, second⟩⟩ := takes.splits one two same
    · exact later one two same
    · exact .trans _ _ _ (later _ _ first) (.trans _ _ _ (new _ _ joins) (later _ _ second.symm))
    · exact .trans _ _ _ (later _ _ first) (.trans _ _ _ (.symm _ _ (new _ _ joins)) (later _ _ second.symm))
  · refine repOf_eq_of_eqvGen fun one two joined => ?_
    obtain old | joins := (happened_concat ..).mp joined
    · have same := (shows.classes one two).mpr (.rel _ _ old)
      rw [← takes.absorbs one, same, takes.absorbs]
    · exact takes.joins one two joins

/-- Nodes that were seen at their representatives before an edit, and those that come with it, are seen
at their representatives after it. -/
private theorem Takes.image (takes : Takes graph edit next) {seen named new : Node → Prop}
    (image : ∀ node, seen node ↔ ∃ old, named old ∧ graph.repOf old = node) (node : Node) :
    (∃ old, (seen old ∨ new old) ∧ next.repOf old = node) ↔
      ∃ old, (named old ∨ new old) ∧ next.repOf old = node := by
  constructor
  · rintro ⟨old, there | fresh, rfl⟩
    · obtain ⟨older, listed, rfl⟩ := (image old).mp there
      exact ⟨older, Or.inl listed, (takes.absorbs older).symm⟩
    · exact ⟨old, Or.inr fresh, rfl⟩
  · rintro ⟨old, there | fresh, rfl⟩
    · exact ⟨graph.repOf old, Or.inl ((image _).mpr ⟨old, there, rfl⟩), takes.absorbs old⟩
    · exact ⟨old, Or.inr fresh, rfl⟩

private theorem Shows.edges_concat (shows : Shows kinds edits graph) {last : Edit}
    (takes : Takes graph last next) (edge : Edge) :
    next.hasEdge edge ↔ ∃ added, .addEdge added ∈ edits ++ [last] ∧ next.represented added = edge ∧
      ¬ next.IsDirectLoop edge := by
  have moved : ∀ old, next.represented (graph.represented old) = next.represented old := by
    intro old
    rw [represented, represented, represented, takes.absorbs, takes.absorbs]
  simp only [List.mem_append, List.mem_singleton, @eq_comm _ _ last]
  rw [takes.edges]
  constructor
  · rintro ⟨old, there | fresh, rfl, straight⟩
    · obtain ⟨older, added, rfl, -⟩ := (shows.edges old).mp there
      rw [moved] at straight ⊢
      exact ⟨older, Or.inl added, rfl, straight⟩
    · exact ⟨old, Or.inr fresh, rfl, straight⟩
  · rintro ⟨old, added | fresh, rfl, straight⟩
    · refine ⟨graph.represented old, Or.inl ((shows.edges _).mpr ⟨old, added, rfl, ?_⟩), moved old, straight⟩
      -- What is a loop before the edit is one after it.
      rintro ⟨direct, same⟩
      refine straight ⟨by rwa [isDirect, takes.kinds], ?_⟩
      have equal := congrArg next.repOf same
      rwa [represented, takes.absorbs, takes.absorbs] at equal
    · exact ⟨old, Or.inr fresh, rfl, straight⟩

/-- What graphs show of their edits is kept by one edit more. -/
private theorem Shows.concat (shows : Shows kinds edits (ofEdits kinds edits)) {last : Edit}
    (takes : Takes (ofEdits kinds edits) last next) : Shows kinds (edits ++ [last]) next where
  valid := takes.valid
  direct := takes.kinds.trans shows.direct
  classes := shows.classes_concat takes
  nodes node := by
    simp only [Used, happened_concat]
    exact (takes.nodes node).trans (takes.image shows.nodes node)
  edges := shows.edges_concat takes
  sources node := by
    simp only [List.mem_append, List.mem_singleton, @eq_comm _ _ last]
    exact (takes.sources node).trans (takes.image shows.sources node)

/-- A graph shows all of its edits. -/
theorem shows_ofEdits (kinds : List Kind) (edits : List Edit) :
    Shows kinds edits (ofEdits kinds edits) := by
  induction edits using List.reverseRecOn with
  | nil => exact shows_nil kinds
  | append_singleton edits last shows =>
    rw [ofEdits_concat]
    exact shows.concat (shows.valid.takes_edit last)

/-! ### Without merges -/

section Unmerged

variable (unmerged : ∀ node target, .merge node target ∉ edits)

include unmerged

/-- Without merges every node stands for itself. -/
theorem repOf_ofEdits (node : Node) : (ofEdits kinds edits).repOf node = node := by
  have shows := shows_ofEdits kinds edits
  have alone : ∀ one two, Joined kinds edits one two → one = two := by
    rintro one two ⟨before, last, after, rfl, rfl, -⟩
    exact absurd (List.mem_append_right before List.mem_cons_self) (unmerged one two)
  have linked := (shows.classes _ _).mp (shows.valid.repOf_repOf node)
  exact eq_equivalence.eqvGen_iff.mp (linked.mono alone)

theorem represented_ofEdits (edge : Edge) : (ofEdits kinds edits).represented edge = edge := by
  rw [represented, repOf_ofEdits unmerged, repOf_ofEdits unmerged]

theorem hasEdge_ofEdits (edge : Edge) : (ofEdits kinds edits).hasEdge edge ↔
    .addEdge edge ∈ edits ∧ ¬ (ofEdits kinds edits).IsDirectLoop edge := by
  rw [(shows_ofEdits kinds edits).edges]
  simp only [represented_ofEdits unmerged]
  constructor
  · rintro ⟨added, listed, rfl, straight⟩
    exact ⟨listed, straight⟩
  · rintro ⟨listed, straight⟩
    exact ⟨edge, listed, rfl, straight⟩

theorem isSource_ofEdits (node : Node) :
    (ofEdits kinds edits).isSource node ↔ .markSource node ∈ edits := by
  rw [(shows_ofEdits kinds edits).sources]
  simp only [repOf_ofEdits unmerged, exists_eq_right]

theorem hasNode_ofEdits (node : Node) : (ofEdits kinds edits).hasNode node ↔
    .addNode node ∈ edits ∨ .markSource node ∈ edits ∨
      ∃ edge, .addEdge edge ∈ edits ∧ (edge.src = node ∨ edge.dst = node) := by
  rw [(shows_ofEdits kinds edits).nodes]
  simp only [repOf_ofEdits unmerged, exists_eq_right]
  constructor
  · rintro ⟨before, last, after, rfl, uses⟩
    have listed : last ∈ before ++ last :: after := List.mem_append_right before List.mem_cons_self
    cases last with
    | addNode used => exact Or.inl (uses ▸ listed)
    | markSource used => exact Or.inr (Or.inl (uses ▸ listed))
    | addEdge edge => exact Or.inr (Or.inr ⟨edge, listed, uses⟩)
    | merge merged target => exact absurd listed (unmerged merged target)
  · have met : ∀ {last : Edit}, last ∈ edits → (∀ graph, last.Uses graph node) → Used kinds edits node := by
      intro last listed uses
      obtain ⟨before, after, split⟩ := List.append_of_mem listed
      exact ⟨before, last, after, split, uses _⟩
    rintro (listed | listed | ⟨edge, listed, stop⟩)
    · exact met listed fun _ => rfl
    · exact met listed fun _ => rfl
    · exact met listed fun _ => stop

end Unmerged

/-! ### The quotient -/

/-- No edge is listed in two slots. -/
theorem Valid.nodup_listed (valid : graph.Valid) : (graph.edges.map (·.2.toEdge)).Nodup := by
  have slots := graph.nodup_edges
  rw [List.Nodup, List.pairwise_map] at slots ⊢
  refine slots.imp_of_mem ?_
  rintro ⟨first, one⟩ ⟨second, two⟩ atFirst atSecond differ same
  rw [mem_edges] at atFirst atSecond
  exact differ (valid.slot_unique atFirst atSecond same)

/-- What a graph answers is the quotient of what was put in under the successful merges. The next merge
succeeds on a live node that the target does not stand for. -/
structure IsQuotient (kinds : List Kind) (edits : List Edit) (graph : Multigraph) : Prop where
  edges : ∀ edge, edge ∈ graph.edges.map (·.2.toEdge) ↔ ∃ added, .addEdge added ∈ edits ∧
    edge = ⟨graph.repOf added.src, graph.repOf added.dst, added.label⟩ ∧
      ¬ (added.label.symbol ∈ kinds ∧ graph.repOf added.src = graph.repOf added.dst)
  once : (graph.edges.map (·.2.toEdge)).Nodup
  nodes : ∀ node, node ∈ graph.nodes ↔ ∃ used, Used kinds edits used ∧ graph.repOf used = node
  sources : ∀ node, node ∈ graph.sources ↔
    node ∈ graph.nodes ∧ ∃ marked, .markSource marked ∈ edits ∧ graph.repOf marked = node
  classes : ∀ one two, graph.repOf one = graph.repOf two ↔ Relation.EqvGen (Joined kinds edits) one two
  idempotent : ∀ node, graph.repOf (graph.repOf node) = graph.repOf node
  merges : ∀ node target, (graph.merge node target).2 ↔ node ∈ graph.nodes ∧ node ≠ graph.repOf target
  members : ∀ node rep, node ∈ graph.subsOf rep ↔ graph.repOf node = rep ∧ node ≠ rep
  distinct : ∀ rep, (graph.subsOf rep).Nodup

/-- Whatever is added, marked and merged, in whatever order, the graph is the quotient of it. -/
theorem isQuotient_ofEdits (kinds : List Kind) (edits : List Edit) :
    IsQuotient kinds edits (ofEdits kinds edits) := by
  have shows := shows_ofEdits kinds edits
  have direct : ∀ kind, (ofEdits kinds edits).isDirect kind ↔ kind ∈ kinds := by
    intro kind
    rw [isDirect, shows.direct, withDirectKinds, Std.TreeSet.contains_ofList, List.contains_iff_mem]
  refine
    { edges := fun edge => ?_, once := shows.valid.nodup_listed, nodes := fun node => ?_
      sources := fun node => ?_, classes := shows.classes, idempotent := shows.valid.repOf_repOf
      merges := fun node target => by rw [mem_nodes, merge_flag]
      members := shows.valid.mem_subsOf, distinct := shows.valid.distinct }
  · rw [shows.valid.mem_edges_iff, shows.edges]
    refine exists_congr fun added => and_congr_right fun _ => ?_
    rw [@eq_comm _ _ edge]
    refine and_congr_right ?_
    rintro rfl
    rw [IsDirectLoop, direct]
    rfl
  · rw [mem_nodes, shows.nodes]
  · rw [mem_sources, mem_nodes, shows.sources]
    refine (and_iff_right_of_imp ?_).symm
    exact fun marked => hasNode_of_isSource ((shows.sources node).mpr marked)

/-- A chain of merges. On the way a merge of a node that is gone fails, and an edge to that node comes
last. -/
def chainedMerges : List Edit :=
  [.addEdge ⟨1, 2, .plain 1⟩, .addEdge ⟨4, 1, .plain 2⟩, .addEdge ⟨4, 2, .plain 2⟩, .markSource 1,
    .merge 1 2, .merge 1 4, .merge 2 3, .addEdge ⟨1, 5, .plain 2⟩]

theorem isQuotient_chainedMerges :
    let graph := ofEdits [1] chainedMerges
    IsQuotient [1] chainedMerges graph ∧ graph.nodes = [3, 4, 5] ∧ graph.sources = [3] ∧
      graph.edges.map (·.2.toEdge) = [⟨4, 3, .plain 2⟩, ⟨3, 5, .plain 2⟩] ∧
      [1, 2, 3, 4, 5].map graph.repOf = [3, 3, 3, 4, 5] ∧ graph.subsOf 3 = [1, 2] ∧
      ¬ ((ofEdits [1] (chainedMerges.take 5)).merge 1 4).2 :=
  ⟨isQuotient_ofEdits [1] chainedMerges, by decide +kernel, by decide +kernel, by decide +kernel,
    by decide +kernel, by decide +kernel, by decide +kernel⟩

end GrammarReach.Multigraph
