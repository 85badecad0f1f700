import Mathlib.Logic.Relation
import GrammarReach.Proofs.Graph.Merge

namespace GrammarReach.Multigraph

open Relation (ReflTransGen)

def Straight (graph : Multigraph) (src dst : Node) : Prop :=
  ∃ label, graph.hasEdge ⟨src, dst, label⟩ ∧ graph.isDirect label.symbol

abbrev Leads (graph : Multigraph) : Node → Node → Prop := ReflTransGen graph.Straight

variable {graph before middle : Multigraph}

theorem Valid.hasNode_of_straight (valid : graph.Valid) {src dst : Node}
    (straight : graph.Straight src dst) : graph.hasNode src ∧ graph.hasNode dst := by
  obtain ⟨label, there, -⟩ := straight
  exact valid.hasNode_of_hasEdge there

theorem Valid.hasNode_of_leads (valid : graph.Valid) {src dst : Node} (leads : graph.Leads src dst)
    (live : graph.hasNode dst) : graph.hasNode src := by
  obtain rfl | ⟨next, straight, -⟩ := leads.cases_head
  · exact live
  · exact (valid.hasNode_of_straight straight).1

/-- A graph after merges, and a relation between each representative and the nodes it stands for. -/
structure Collapse (tie : Node → Node → Prop) (before after : Multigraph) : Prop where
  quotient : Quotient before after
  tied : ∀ node, before.hasNode node → tie (after.repOf node) node

variable {tie : Node → Node → Prop}

theorem Collapse.refl (valid : graph.Valid) (reflexive : ∀ node, tie node node) :
    Collapse tie graph graph where
  quotient := Quotient.refl valid
  tied node live := by
    rw [valid.repOf_live live]
    exact reflexive node

theorem Collapse.hasNode_repOf (collapse : Collapse tie before middle) {node : Node}
    (live : before.hasNode node) : middle.hasNode (middle.repOf node) :=
  (collapse.quotient.nodes _).mpr ⟨node, live, rfl⟩

/-- One more merge, of a node that stood for `first` into the one that stands for `second`. -/
theorem Collapse.merge (collapse : Collapse tie before middle)
    (transitive : ∀ {first second third}, tie first second → tie second third → tie first third)
    {first second : Node} (one : before.hasNode first) (two : before.hasNode second)
    (bond : tie (middle.repOf second) (middle.repOf first)) :
    Collapse tie before (middle.merge (middle.repOf first) second).1 ∧
      ∀ other, (middle.merge (middle.repOf first) second).1.repOf other =
        if middle.repOf other = middle.repOf first then middle.repOf second else middle.repOf other := by
  obtain ⟨quotient, repOf⟩ := collapse.quotient.valid.quotient_merge_live (collapse.hasNode_repOf one)
    (collapse.hasNode_repOf two)
  refine ⟨⟨collapse.quotient.trans quotient, fun node live => ?_⟩, repOf⟩
  rw [repOf]
  have tied := collapse.tied node live
  split
  · next same => exact transitive bond (same ▸ tied)
  · exact tied

end GrammarReach.Multigraph
