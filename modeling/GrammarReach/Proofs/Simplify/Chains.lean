import Mathlib.Data.List.Induction
import GrammarReach.Simplify.Chains
import GrammarReach.Proofs.Simplify.Collapse

namespace GrammarReach.Multigraph

open Relation (ReflTransGen)

variable {graph before middle : Multigraph}

theorem mem_foldableLinks (graph : Multigraph) (link : Node × Node) :
    link ∈ graph.foldableLinks ↔ link ∈ graph.directPairs ∧ graph.isFoldable link.2 :=
  List.mem_filter

theorem not_isSource_of_isFoldable {node : Node} (foldable : graph.isFoldable node) :
    ¬ graph.isSource node := by
  rw [isFoldable, Option.any_eq_true] at foldable
  obtain ⟨vertex, found, single⟩ := foldable
  rw [Bool.and_eq_true] at single
  rw [isSource, found]
  simpa using single.2

/-- Only one edge enters a foldable node. -/
theorem Valid.entry_unique (valid : graph.Valid) {node : Node} (foldable : graph.isFoldable node)
    {first second : Edge} (one : graph.hasEdge first) (two : graph.hasEdge second)
    (atOne : first.dst = node) (atTwo : second.dst = node) : first = second := by
  rw [isFoldable, Option.any_eq_true] at foldable
  obtain ⟨vertex, found, single⟩ := foldable
  rw [Bool.and_eq_true, beq_iff_eq] at single
  have listed : ∀ edge, graph.hasEdge edge → edge.dst = node →
      ∃ id ∈ vertex.incoming.toList, ∃ kept, graph.edge? id = some kept ∧ kept.toEdge = edge := by
    rintro edge there rfl
    obtain ⟨id, kept, slot, rfl⟩ := (valid.hasEdge_iff edge).mp there
    refine ⟨id, (Incidence.mem_toList ..).mpr ⟨kept.label.symbol, ?_⟩, kept, slot, rfl⟩
    exact ((valid.incoming _ vertex found).2 _ id).mpr ⟨kept, slot, rfl, rfl⟩
  obtain ⟨id, atId, kept, slot, rfl⟩ := listed first one atOne
  obtain ⟨other, atOther, same, there, rfl⟩ := listed second two atTwo
  obtain rfl := Incidence.eq_of_degree single.1 atId atOther
  rw [Option.some.inj (slot.symm.trans there)]

/-- Whether the one edge that enters a node, which is no source, is a direct edge from the given one. -/
def Parent (graph : Multigraph) (parent node : Node) : Prop :=
  ¬ graph.isSource node ∧ ∃ label, graph.isDirect label.symbol ∧
    ∀ edge, (graph.hasEdge edge ∧ edge.dst = node) ↔ edge = ⟨parent, node, label⟩

theorem Parent.straight {parent node : Node} (link : graph.Parent parent node) :
    graph.Straight parent node := by
  obtain ⟨-, label, direct, sole⟩ := link
  exact ⟨label, ((sole _).mpr rfl).1, direct⟩

theorem leads_of_parents {start node : Node} (path : ReflTransGen graph.Parent start node) :
    graph.Leads start node :=
  path.lift id fun _ _ => Parent.straight

theorem Parent.unique {first second node : Node} (one : graph.Parent first node)
    (two : graph.Parent second node) :
    first = second := by
  obtain ⟨-, label, -, sole⟩ := one
  obtain ⟨-, label', -, sole'⟩ := two
  exact (congrArg Edge.src ((sole _).mp ((sole' _).mpr rfl))).symm

/-- The node at the end of the only edge that enters it is foldable, unless it is a source. -/
theorem Valid.isFoldable_of_sole (valid : graph.Valid) (edge : Edge) (unmarked : ¬ graph.isSource edge.dst)
    (sole : ∀ other, (graph.hasEdge other ∧ other.dst = edge.dst) ↔ other = edge) :
    graph.isFoldable edge.dst := by
  have there := ((sole edge).mpr rfl).1
  obtain ⟨id, kept, slot, rfl⟩ := (valid.hasEdge_iff edge).mp there
  obtain ⟨vertex, found⟩ := (graph.hasNode_iff _).mp (valid.hasNode_of_hasEdge there).2
  have lists := valid.incoming _ vertex found
  have single : vertex.incoming.toList.Perm [id] := by
    refine (List.perm_ext_iff_of_nodup lists.nodup (List.nodup_singleton id)).mpr fun other => ?_
    rw [Incidence.mem_toList, List.mem_singleton]
    simp only [lists.2]
    constructor
    · rintro ⟨kind, kept', slot', same, -⟩
      have equal := (sole kept'.toEdge).mp ⟨(valid.hasEdge_iff _).mpr ⟨other, kept', slot', rfl⟩, same⟩
      exact valid.slot_unique slot' slot equal
    · rintro rfl
      exact ⟨_, kept, slot, rfl, rfl⟩
  rw [isSource, vertex?, found] at unmarked
  rw [isFoldable, vertex?, found, Option.any_some, Incidence.degree_eq, single.length_eq]
  simpa using unmarked

/-- The links that folding goes through lead to the foldable nodes from their parents. -/
theorem Valid.mem_foldableLinks_iff (valid : graph.Valid) (parent node : Node) :
    (parent, node) ∈ graph.foldableLinks ↔ graph.Parent parent node := by
  rw [mem_foldableLinks, valid.mem_directPairs]
  constructor
  · rintro ⟨⟨label, there, direct⟩, foldable⟩
    refine ⟨not_isSource_of_isFoldable foldable, label, direct, fun edge => ⟨fun entry => ?_, ?_⟩⟩
    · exact valid.entry_unique foldable entry.1 there entry.2 rfl
    · rintro rfl
      exact ⟨there, rfl⟩
  · rintro ⟨unmarked, label, direct, sole⟩
    have foldable := valid.isFoldable_of_sole ⟨parent, node, label⟩ unmarked sole
    exact ⟨⟨label, ((sole _).mpr rfl).1, direct⟩, foldable⟩

/-- Folds the given links one after the other; the number tells how many nodes were folded away. -/
def foldLinks (graph : Multigraph) (links : List (Node × Node)) : Multigraph × Nat :=
  links.foldl (fun (graph, folded) link => graph.foldLink folded link) (graph, 0)

theorem foldChains_eq (graph : Multigraph) : graph.foldChains = graph.foldLinks graph.foldableLinks.reverse :=
  rfl

/-- Where folding stands after the given links: their ends stand together, and only ends of them were
merged. -/
structure Folding (before : Multigraph) (links : List (Node × Node)) (state : Multigraph × Nat) : Prop where
  collapse : Collapse (ReflTransGen before.Parent) before state.1
  together : ∀ link ∈ links, state.1.repOf link.1 = state.1.repOf link.2
  folded : ∀ node, before.hasNode node → state.1.repOf node ≠ node → ∃ start, (start, node) ∈ links
  count : state.1.nodeCount + state.2 = before.nodeCount

/-- While a node stands apart from its parent it has not been folded away: the link that did so would have
been this one. -/
private theorem Folding.unfolded (valid : before.Valid) {links : List (Node × Node)}
    {state : Multigraph × Nat} (folding : Folding before links state)
    (known : ∀ link ∈ links, before.Parent link.1 link.2) {start stop : Node}
    (parent : before.Parent start stop) (apart : state.1.repOf start ≠ state.1.repOf stop) :
    state.1.repOf stop = stop := by
  by_contra moved
  obtain ⟨other, listed⟩ := folding.folded stop (valid.hasNode_of_straight parent.straight).2 moved
  obtain rfl := (known _ listed).unique parent
  exact apart (folding.together _ listed)

private theorem Folding.skip {links : List (Node × Node)} {state : Multigraph × Nat}
    (folding : Folding before links state) {link : Node × Node}
    (same : state.1.repOf link.1 = state.1.repOf link.2) :
    Folding before (links ++ [link]) state :=
  { folding with
    together := List.forall_mem_append.mpr ⟨folding.together, List.forall_mem_singleton.mpr same⟩
    folded := fun node live moved => by
      obtain ⟨origin, listed⟩ := folding.folded node live moved
      exact ⟨origin, List.mem_append_left _ listed⟩ }

private theorem Folding.foldLink (valid : before.Valid) {links : List (Node × Node)} {state : Multigraph × Nat}
    (folding : Folding before links state) (known : ∀ link ∈ links, before.Parent link.1 link.2)
    {link : Node × Node} (parent : before.Parent link.1 link.2) :
    Folding before (links ++ [link]) (state.1.foldLink state.2 link) := by
  obtain ⟨middle, count⟩ := state
  obtain ⟨start, stop⟩ := link
  rw [Multigraph.foldLink]
  by_cases same : middle.repOf start = middle.repOf stop
  · rw [if_pos same]
    exact folding.skip same
  rw [if_neg same]
  have whole := folding.unfolded valid known parent same
  have collapse := folding.collapse
  dsimp only at collapse whole
  obtain ⟨one, two⟩ := valid.hasNode_of_straight parent.straight
  have apart : middle.repOf start ≠ stop := by rwa [whole] at same
  have rooted := collapse.quotient.valid.repOf_repOf start
  have live := collapse.hasNode_repOf one
  have above := collapse.tied start one
  obtain ⟨merged, repOf⟩ := collapse.merge Relation.ReflTransGen.trans two
    (valid.hasNode_of_leads (leads_of_parents above) one) (by
      rw [rooted, whole]
      exact above.tail parent)
  have counted := collapse.quotient.valid.nodeCount_merge stop (rooted.symm ▸ live)
  rw [rooted, whole] at repOf
  rw [whole] at merged ⊢
  exact
    { collapse := merged
      together := fun link listed => by
        dsimp only
        obtain listed | listed := List.mem_append.mp listed
        · rw [repOf, repOf, folding.together link listed]
        · obtain rfl := List.mem_singleton.mp listed
          rw [repOf, repOf, if_neg apart, if_pos whole]
      folded := fun node live moved => by
        dsimp only at moved
        by_cases here : node = stop
        · exact ⟨start, here ▸ List.mem_append_right _ (List.mem_singleton_self _)⟩
        · obtain ⟨origin, listed⟩ := folding.folded node live fun stays => by
            dsimp only at stays
            rw [repOf, stays, if_neg here] at moved
            exact moved rfl
          exact ⟨origin, List.mem_append_left _ listed⟩
      count := by
        rw [← folding.count, ← counted]
        dsimp only
        split <;> omega }

theorem Valid.folding (valid : graph.Valid) (links : List (Node × Node))
    (known : ∀ link ∈ links, graph.Parent link.1 link.2) : Folding graph links (graph.foldLinks links) := by
  induction links using List.reverseRecOn with
  | nil =>
    exact
      { collapse := Collapse.refl valid fun _ => .refl
        together := by simp
        folded := fun node live moved => absurd (valid.repOf_live live) moved
        count := rfl }
  | append_singleton links link ih =>
    obtain ⟨known, parent⟩ := List.forall_mem_append.mp known
    rw [foldLinks, List.foldl_append]
    exact (ih known).foldLink valid known (parent link (List.mem_singleton_self link))

/-- What folding chains comes to: an edge into a folded node is a direct one within what became one
node, and sources were not folded. -/
structure ChainsFolded (before after : Multigraph) : Prop where
  collapse : Collapse before.Leads before after
  entered : ∀ edge, before.hasEdge edge → after.repOf edge.dst = edge.dst ∨
    (before.isDirect edge.label.symbol ∧ after.repOf edge.src = after.repOf edge.dst)
  sources : ∀ node, before.isSource node → after.repOf node = node

theorem Valid.foldChains (valid : graph.Valid) : ChainsFolded graph graph.foldChains.1 := by
  have known : ∀ start node, (start, node) ∈ graph.foldableLinks.reverse → graph.Parent start node :=
    fun start node listed => (valid.mem_foldableLinks_iff start node).mp (List.mem_reverse.mp listed)
  obtain ⟨⟨quotient, tied⟩, together, folded, -⟩ :=
    valid.folding graph.foldableLinks.reverse fun link listed => known link.1 link.2 listed
  rw [← foldChains_eq] at quotient tied together folded
  refine ⟨⟨quotient, fun node live => leads_of_parents (tied node live)⟩, fun edge there => ?_,
    fun node marked => ?_⟩
  · rw [or_iff_not_imp_left]
    intro moved
    obtain ⟨start, listed⟩ := folded edge.dst (valid.hasNode_of_hasEdge there).2 moved
    obtain ⟨-, label, direct, sole⟩ := known start edge.dst listed
    have same := (sole edge).mp ⟨there, rfl⟩
    have joined := together _ listed
    rw [same]
    exact ⟨direct, joined⟩
  · by_contra moved
    obtain ⟨start, listed⟩ := folded node (hasNode_of_isSource marked) moved
    exact (known start node listed).1 marked

end GrammarReach.Multigraph
