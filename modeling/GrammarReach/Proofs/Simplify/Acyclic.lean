import GrammarReach.Proofs.Graph.Calls
import GrammarReach.Proofs.Simplify.Contraction

/-!
Merging cycles makes one node of each class of nodes that direct edges lead between both ways. Direct
edges then lead from no node back to it, and there is nothing to merge any more.
-/

namespace GrammarReach.Multigraph

open Relation (TransGen)

variable {graph before after : Multigraph} {merged : Nat}

/-- A graph with its cycles of direct edges merged, and the number of nodes that this took away. -/
structure CyclesMerged (before after : Multigraph) (merged : Nat) : Prop where
  kinds : after.directKinds = before.directKinds
  /-- Nodes stand together just when direct edges led between them both ways. -/
  together : ∀ one two, before.hasNode one → before.hasNode two →
    (after.repOf one = after.repOf two ↔ before.Mutual one two)
  least : ∀ node, before.hasNode node → IsLeast { other | before.Mutual node other } (after.repOf node)
  nodes : ∀ node, after.hasNode node ↔ before.hasNode node ∧ after.repOf node = node
  /-- The edges are the images of the old ones, but for the direct ones within a class. -/
  edges : ∀ edge, after.hasEdge edge ↔ ∃ old, before.hasEdge old ∧ after.represented old = edge ∧
    ¬ (before.isDirect old.label.symbol ∧ before.Mutual old.src old.dst)
  acyclic : ∀ node, ¬ TransGen after.Straight node node
  count : after.nodeCount + merged = before.nodeCount
  again : after.mergeCycles = (after, 0)

theorem CyclesJoined.together (joined : CyclesJoined before after merged) {one two : Node}
    (first : before.hasNode one) (second : before.hasNode two) :
    after.repOf one = after.repOf two ↔ before.Mutual one two := by
  have atOne := joined.collapse.tied one first
  have atTwo := joined.collapse.tied two second
  constructor
  · intro same
    exact atOne.symm.trans (same ▸ atTwo)
  · intro both
    exact (joined.headed one first).eq (joined.headed two second) (atOne.trans (both.trans atTwo.symm))

theorem CyclesJoined.nodes (joined : CyclesJoined before after merged) (node : Node) :
    after.hasNode node ↔ before.hasNode node ∧ after.repOf node = node :=
  joined.collapse.quotient.live_iff (fun old live => (joined.headed old live).1) node

theorem CyclesJoined.edges (joined : CyclesJoined before after merged) (valid : before.Valid) (edge : Edge) :
    after.hasEdge edge ↔ ∃ old, before.hasEdge old ∧ after.represented old = edge ∧
      ¬ (before.isDirect old.label.symbol ∧ before.Mutual old.src old.dst) := by
  have quotient := joined.collapse.quotient
  rw [quotient.edges]
  refine exists_congr fun old => and_congr_right fun there => and_congr_right fun same => not_congr ?_
  obtain ⟨one, two⟩ := valid.hasNode_of_hasEdge there
  rw [IsDirectLoop, quotient.isDirect_eq, ← same, ← joined.together one two]
  rfl

/-- A round of direct edges would have been one before, and so within a class. -/
theorem CyclesJoined.acyclic (joined : CyclesJoined before after merged)
    (contraction : Contraction before after) (valid : before.Valid) (node : Node) :
    ¬ TransGen after.Straight node node := by
  intro round
  have quotient := joined.collapse.quotient
  obtain ⟨next, straight, back⟩ := TransGen.head'_iff.mp round
  obtain ⟨one, two⟩ := quotient.valid.hasNode_of_straight straight
  have forth := (contraction.leads_behind valid (.single straight)).to_reflTransGen
  have home : before.Leads next node := by
    obtain rfl | path := Relation.reflTransGen_iff_eq_or_transGen.mp back
    · exact .refl
    · exact (contraction.leads_behind valid path).to_reflTransGen
  have same : node = next := by
    obtain ⟨first, atFirst⟩ := (joined.nodes node).mp one
    obtain ⟨second, atSecond⟩ := (joined.nodes next).mp two
    rw [← atFirst, ← atSecond]
    exact (joined.together first second).mpr ⟨forth, home⟩
  obtain ⟨label, there, direct⟩ := straight
  exact quotient.valid.not_isDirectLoop there ⟨direct, same⟩

/-- Where direct edges lead from no node back to it, there is no cycle to merge. -/
theorem Valid.mergeCycles_of_acyclic (valid : graph.Valid)
    (acyclic : ∀ node, ¬ TransGen graph.Straight node node) :
    graph.mergeCycles = (graph, 0) := by
  have none : (Components.ofEdges graph.directPairs).cycles = [] := by
    refine (Components.cycles_eq_nil_iff _).mpr fun one two both => ?_
    obtain ⟨forth, back⟩ := (valid.mutual_iff one two).mp both
    obtain same | path := Relation.reflTransGen_iff_eq_or_transGen.mp forth
    · exact same.symm
    · exact absurd (path.trans_left back) (acyclic one)
  rw [Multigraph.mergeCycles, none]
  rfl

theorem Valid.cyclesMerged (valid : graph.Valid) :
    CyclesMerged graph graph.mergeCycles.1 graph.mergeCycles.2 := by
  have joined := valid.mergeCycles
  have acyclic := joined.acyclic valid.contraction_mergeCycles valid
  exact
    { kinds := joined.collapse.quotient.kinds
      together := fun _ _ => joined.together
      least := fun node live => by
        obtain ⟨-, least⟩ := joined.headed node live
        have tied := joined.collapse.tied node live
        exact ⟨tied.symm, fun other both => least other (tied.trans both)⟩
      nodes := joined.nodes
      edges := joined.edges valid
      acyclic := acyclic
      count := joined.count
      again := joined.collapse.quotient.valid.mergeCycles_of_acyclic acyclic }

/-- Whatever calls a graph was made by, merging its cycles joins the nodes that direct edges lead between
both ways, and leaves no cycle. -/
theorem cyclesMerged_ofCalls (kinds : List Kind) (calls : List Call) :
    CyclesMerged (ofCalls kinds calls) (ofCalls kinds calls).mergeCycles.1 (ofCalls kinds calls).mergeCycles.2 :=
  (valid_ofCalls kinds calls).cyclesMerged

end GrammarReach.Multigraph
