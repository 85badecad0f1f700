import GrammarReach.Proofs.Components
import GrammarReach.Proofs.Graph.Calls
import GrammarReach.Proofs.Simplify.Chains

/-!
Folding chains makes one node of each tree of parent links. A tree hangs from a node that is not
foldable, and this node stands for it. Where parent links form a cycle there is no such node, and one of
the nodes on the cycle stays: when its turn comes, it has become one node with its parent.
-/

namespace GrammarReach.Multigraph

open Relation (EqvGen ReflTransGen TransGen)

variable {graph before after : Multigraph} {folded : Nat} {links : List (Node × Node)}

/-- Whether a node has a parent that it may be folded into. -/
def Foldable (graph : Multigraph) (node : Node) : Prop := ∃ parent, graph.Parent parent node

/-- The nodes that parent links lead to from a node and back. -/
def round (graph : Multigraph) (node : Node) : Set Node :=
  { other | TransGen graph.Parent node other ∧ TransGen graph.Parent other node }

def rounds (graph : Multigraph) : Set (Set Node) :=
  { cycle | ∃ node, TransGen graph.Parent node node ∧ cycle = graph.round node }

/-- A graph with its chains folded, and the number of nodes that this took away. -/
structure FoldsForest (before after : Multigraph) (folded : Nat) : Prop where
  nodes : ∀ node, after.hasNode node ↔ before.hasNode node ∧ after.repOf node = node
  /-- Nodes stand together just when parent links connect them. -/
  together : ∀ one two, before.hasNode one → before.hasNode two →
    (after.repOf one = after.repOf two ↔ EqvGen before.Parent one two)
  kept : ∀ node, before.hasNode node → ¬ before.Foldable node → after.hasNode node ∧ after.repOf node = node
  /-- Nodes that stand together are all foldable just when the one that stands for them is on a cycle. -/
  cyclic : ∀ node, before.hasNode node →
    ((∀ other, EqvGen before.Parent node other → before.Foldable other) ↔
      TransGen before.Parent (after.repOf node) (after.repOf node))
  count : after.nodeCount + folded = before.nodeCount
  finite : { node | before.Foldable node }.Finite
  foldable : (folded : ℕ∞) + before.rounds.encard = { node | before.Foldable node }.encard

theorem foldable_of_path {start node : Node} (path : TransGen graph.Parent start node) :
    graph.Foldable node := by
  obtain ⟨parent, -, link⟩ := TransGen.tail'_iff.mp path
  exact ⟨parent, link⟩

theorem Valid.hasNode_of_foldable (valid : graph.Valid) {node : Node} (foldable : graph.Foldable node) :
    graph.hasNode node := by
  obtain ⟨parent, link⟩ := foldable
  exact (valid.hasNode_of_straight link.straight).2

theorem Valid.finite_foldable (valid : graph.Valid) : { node | graph.Foldable node }.Finite :=
  graph.nodes.finite_toSet.subset fun node foldable =>
    (graph.mem_nodes node).mpr (valid.hasNode_of_foldable foldable)

/-- As a node has one parent, what leads to a node on a cycle is on that cycle. -/
theorem path_back {start node : Node} (cyclic : TransGen graph.Parent node node)
    (path : ReflTransGen graph.Parent start node) : TransGen graph.Parent node start := by
  induction path using ReflTransGen.head_induction_on with
  | refl => exact cyclic
  | head link _ back =>
    obtain ⟨parent, onward, last⟩ := TransGen.tail'_iff.mp back
    obtain rfl := last.unique link
    exact cyclic.trans_left onward

theorem round_eq {start node : Node} (cyclic : TransGen graph.Parent node node)
    (path : ReflTransGen graph.Parent start node) : graph.round start = graph.round node := by
  have back := path_back cyclic path
  ext other
  constructor
  · exact fun inner => ⟨back.trans inner.1, inner.2.trans_left path⟩
  · exact fun inner => ⟨.trans_right path inner.1, inner.2.trans back⟩

theorem Valid.hasNode_of_eqvGen (valid : graph.Valid) {one two : Node} (joined : EqvGen graph.Parent one two)
    (live : graph.hasNode one) : graph.hasNode two := by
  have agree : ∀ parent node, graph.Parent parent node → graph.hasNode parent = graph.hasNode node := by
    intro parent node link
    obtain ⟨first, second⟩ := valid.hasNode_of_straight link.straight
    rw [first, second]
  have same := (eq_equivalence.comap graph.hasNode).eqvGen_iff.mp (joined.mono agree)
  exact same.symm.trans live

/-- What is left once every link was folded, in whatever order. -/
structure Folded (before after : Multigraph) (folded : Nat) : Prop where
  collapse : Collapse (ReflTransGen before.Parent) before after
  together : ∀ parent node, before.Parent parent node → after.repOf parent = after.repOf node
  foldable : ∀ node, before.hasNode node → after.repOf node ≠ node → before.Foldable node
  count : after.nodeCount + folded = before.nodeCount

theorem Valid.folds (valid : graph.Valid) (all : links.Perm graph.foldableLinks) :
    Folded graph (graph.foldLinks links).1 (graph.foldLinks links).2 := by
  have listed : ∀ parent node, (parent, node) ∈ links ↔ graph.Parent parent node := fun parent node =>
    all.mem_iff.trans (valid.mem_foldableLinks_iff parent node)
  obtain ⟨collapse, together, moved, count⟩ :=
    valid.folding links fun link inside => (listed link.1 link.2).mp inside
  refine ⟨collapse, fun parent node link => together _ ((listed parent node).mpr link),
    fun node live moves => ?_,
    count⟩
  obtain ⟨parent, inside⟩ := moved node live moves
  exact ⟨parent, (listed parent node).mp inside⟩

namespace Folded

variable (result : Folded before after folded)
include result

theorem repOf_eq {one two : Node} (joined : EqvGen before.Parent one two) : after.repOf one = after.repOf two :=
  repOf_eq_of_eqvGen result.together joined

theorem joined_repOf {node : Node} (live : before.hasNode node) :
    EqvGen before.Parent (after.repOf node) node :=
  EqvGen.reflTransGen_le_eqvGen _ _ _ (result.collapse.tied node live)

theorem eqvGen_iff {one two : Node} (first : before.hasNode one) (second : before.hasNode two) :
    after.repOf one = after.repOf two ↔ EqvGen before.Parent one two := by
  refine ⟨fun same => ?_, result.repOf_eq⟩
  have atTwo := result.joined_repOf second
  rw [← same] at atTwo
  exact ((result.joined_repOf first).symm _ _).trans _ _ _ atTwo

theorem kept {node : Node} (live : before.hasNode node) (rooted : ¬ before.Foldable node) :
    after.repOf node = node := by
  by_contra moved
  exact rooted (result.foldable node live moved)

theorem repOf_repOf (node : Node) : after.repOf (after.repOf node) = after.repOf node :=
  result.collapse.quotient.valid.repOf_repOf node

theorem nodes (valid : before.Valid) (node : Node) :
    after.hasNode node ↔ before.hasNode node ∧ after.repOf node = node :=
  result.collapse.quotient.live_iff
    (fun _ live => valid.hasNode_of_leads (leads_of_parents (result.collapse.tied _ live)) live) node

/-- A foldable node that stands for itself is on a cycle, as it stands for its parent too. -/
theorem cyclic_of_foldable (valid : before.Valid) {node : Node} (foldable : before.Foldable node)
    (stays : after.repOf node = node) : TransGen before.Parent node node := by
  obtain ⟨parent, link⟩ := foldable
  have above := result.collapse.tied parent (valid.hasNode_of_straight link.straight).1
  rw [result.together parent node link, stays] at above
  exact .tail' above link

theorem cyclic_iff (valid : before.Valid) {node : Node} (live : before.hasNode node) :
    (∀ other, EqvGen before.Parent node other → before.Foldable other) ↔
      TransGen before.Parent (after.repOf node) (after.repOf node) := by
  constructor
  · intro all
    exact result.cyclic_of_foldable valid (all _ ((result.joined_repOf live).symm _ _))
      (result.repOf_repOf node)
  · intro cyclic other joined
    by_contra rooted
    have stays := result.kept (valid.hasNode_of_eqvGen joined live) rooted
    rw [result.repOf_eq joined, stays] at cyclic
    exact rooted (foldable_of_path cyclic)

/-- The foldable nodes that stay, one for each cycle. -/
theorem encard_rounds (valid : before.Valid) :
    before.rounds.encard = { node | before.Foldable node ∧ after.repOf node = node }.encard := by
  have image : before.rounds = before.round '' { node | before.Foldable node ∧ after.repOf node = node } := by
    ext cycle
    constructor
    · rintro ⟨node, cyclic, rfl⟩
      have live := valid.hasNode_of_foldable (foldable_of_path cyclic)
      have above := result.collapse.tied node live
      exact ⟨after.repOf node, ⟨foldable_of_path (path_back cyclic above), result.repOf_repOf node⟩,
        round_eq cyclic above⟩
    · rintro ⟨node, ⟨foldable, stays⟩, rfl⟩
      exact ⟨node, result.cyclic_of_foldable valid foldable stays, rfl⟩
  rw [image]
  refine Set.InjOn.encard_image fun one first two second same => ?_
  have inner : two ∈ before.round two :=
    ⟨result.cyclic_of_foldable valid second.1 second.2, result.cyclic_of_foldable valid second.1 second.2⟩
  rw [← same] at inner
  rw [← first.2, ← second.2]
  exact result.repOf_eq (EqvGen.transGen_le_eqvGen _ _ _ inner.1)

/-- The nodes that were folded away are as many as the number tells. -/
theorem encard_moved (valid : before.Valid) :
    { node | before.Foldable node ∧ after.repOf node ≠ node }.encard = folded := by
  have size : ∀ graph : Multigraph, { node | graph.hasNode node }.encard = graph.nodeCount := fun graph => by
    refine (Components.encard_of_listed graph.nodup_nodes graph.mem_nodes).symm.trans ?_
    rw [length_nodes]
  have split : { node | before.hasNode node } =
      { node | after.hasNode node } ∪ { node | before.Foldable node ∧ after.repOf node ≠ node } := by
    ext node
    constructor
    · intro live
      by_cases stays : after.repOf node = node
      · exact Or.inl ((result.nodes valid node).mpr ⟨live, stays⟩)
      · exact Or.inr ⟨result.foldable node live stays, stays⟩
    · rintro (live | ⟨foldable, -⟩)
      · exact ((result.nodes valid node).mp live).1
      · exact valid.hasNode_of_foldable foldable
  have apart : Disjoint { node | after.hasNode node }
      { node | before.Foldable node ∧ after.repOf node ≠ node } :=
    Set.disjoint_left.mpr fun node live gone => gone.2 ((result.nodes valid node).mp live).2
  have total := Set.encard_union_eq apart
  rw [← split, size, size, ← result.count, Nat.cast_add] at total
  exact (ENat.add_right_injective_of_ne_top (ENat.natCast_ne_top _) total).symm

theorem foldsForest (valid : before.Valid) : FoldsForest before after folded where
  nodes := result.nodes valid
  together _ _ := result.eqvGen_iff
  kept node live rooted := by
    have stays := result.kept live rooted
    exact ⟨(result.nodes valid node).mpr ⟨live, stays⟩, stays⟩
  cyclic _ := result.cyclic_iff valid
  count := result.count
  finite := valid.finite_foldable
  foldable := by
    rw [← result.encard_moved valid, result.encard_rounds valid, ← Set.encard_union_eq]
    · congr 1
      ext node
      exact and_or_left.symm.trans (and_iff_left (ne_or_eq _ _))
    · exact Set.disjoint_left.mpr fun node gone stays => gone.2 stays.2

end Folded

/-- Whatever calls a graph was made by, folding its chains joins the nodes that parent links connect, and
any order of the links gives the same partition. -/
theorem foldsForest_ofCalls (kinds : List Kind) (calls : List Call) :
    let graph := ofCalls kinds calls
    FoldsForest graph graph.foldChains.1 graph.foldChains.2 ∧
      ∀ links : List (Node × Node), links.Perm graph.foldableLinks →
        FoldsForest graph (graph.foldLinks links).1 (graph.foldLinks links).2 ∧
          ∀ one two, graph.hasNode one → graph.hasNode two →
            ((graph.foldLinks links).1.repOf one = (graph.foldLinks links).1.repOf two ↔
              graph.foldChains.1.repOf one = graph.foldChains.1.repOf two) := by
  have valid := valid_ofCalls kinds calls
  have first := (valid.folds (List.reverse_perm _)).foldsForest valid
  refine ⟨first, fun links all => ?_⟩
  have other := (valid.folds all).foldsForest valid
  exact ⟨other, fun one two live there =>
    (other.together one two live there).trans (first.together one two live there).symm⟩

/-- A chain below a node, and two nodes on a cycle, with the links in another order. -/
theorem foldsForest_ofCalls_reordered :
    let graph := ofCalls [0] ([(1, 2), (2, 3), (4, 5), (5, 4)].map fun link =>
      .edit (.addEdge ⟨link.1, link.2, ⟨0, 0⟩⟩))
    let links := [(5, 4), (2, 3), (4, 5), (1, 2)]
    links.Perm graph.foldableLinks ∧ FoldsForest graph (graph.foldLinks links).1 3 := by
  intro graph links
  have order : links.Perm graph.foldableLinks := by decide +kernel
  have number : (graph.foldLinks links).2 = 3 := by decide +kernel
  refine ⟨order, ?_⟩
  have forest := ((foldsForest_ofCalls [0] _).2 links order).1
  rwa [number] at forest

end GrammarReach.Multigraph
