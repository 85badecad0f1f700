import GrammarReach.Simplify.Run
import GrammarReach.Proofs.Simplify.Chains
import GrammarReach.Proofs.Simplify.Cycles

namespace GrammarReach

open Multigraph

/-- A graph after merges that direct edges allow to undo: each representative leads to the nodes it
stands for, and what enters such a node by an edge from elsewhere gets on to the representative. -/
structure Contraction (before after : Multigraph) : Prop where
  quotient : Quotient before after
  inward : ∀ node, before.hasNode node → before.Leads (after.repOf node) node
  entered : ∀ edge, before.hasEdge edge → before.Leads edge.dst (after.repOf edge.dst) ∨
    (before.isDirect edge.label.symbol ∧ after.repOf edge.src = after.repOf edge.dst)

variable {graph before after : Multigraph}

theorem Multigraph.Valid.contraction_mergeCycles (valid : graph.Valid) :
    Contraction graph graph.mergeCycles.1 where
  quotient := valid.collapse_mergeCycles.quotient
  inward node live := (valid.collapse_mergeCycles.tied node live).1
  entered edge there :=
    Or.inl (valid.collapse_mergeCycles.tied edge.dst (valid.hasNode_of_hasEdge there).2).2

theorem Multigraph.ChainsFolded.contraction (folded : ChainsFolded before after) :
    Contraction before after where
  quotient := folded.collapse.quotient
  inward := folded.collapse.tied
  entered edge there := by
    obtain stays | inner := folded.entered edge there
    · exact Or.inl (by rw [stays])
    · exact Or.inr inner

theorem Contraction.refl (valid : graph.Valid) : Contraction graph graph where
  quotient := Quotient.refl valid
  inward node live := by rw [valid.repOf_live live]
  entered edge there := Or.inl (by rw [valid.repOf_live (valid.hasNode_of_hasEdge there).2])

/-- What leads to a representative leads on to each node that it stands for. -/
theorem Contraction.onward (contraction : Contraction before after) {start rep member : Node}
    (leads : before.Leads start rep) (live : before.hasNode member) (stands : after.repOf member = rep) :
    before.Leads start member :=
  leads.trans (stands ▸ contraction.inward member live)

/-- A node that stands for one of the old nodes is one of them. -/
theorem Contraction.hasNode_of_hasNode (contraction : Contraction before after) (valid : before.Valid)
    {node : Node} (live : after.hasNode node) : before.hasNode node := by
  obtain ⟨old, there, rfl⟩ := (contraction.quotient.nodes node).mp live
  exact valid.hasNode_of_leads (contraction.inward old there) there

/-- A simplification merges cycles or not, then folds chains or not, and then prunes brackets or not. -/
theorem Multigraph.simplify_passes (graph : Multigraph) (passes : Passes) (profile : BracketProfile) :
    ∃ merged folded, (merged = graph ∨ merged = graph.mergeCycles.1) ∧
      (folded = merged ∨ folded = merged.foldChains.1) ∧
      ((graph.simplify passes profile).1 = folded ∨ passes.interDyck ∧
        (graph.simplify passes profile).1 = (folded.pruneBrackets profile).graph) := by
  simp only [Multigraph.simplify]
  by_cases cycles : passes.scc <;> by_cases chains : passes.fold <;>
    by_cases pruned : passes.interDyck <;> by_cases bare : profile.isEmpty <;>
    simp [cycles, chains, pruned, bare]

/-- Without pruning, it merges cycles or not, and then folds chains or not. -/
theorem Multigraph.simplify_cases (graph : Multigraph) {passes : Passes}
    (unpruned : passes.interDyck = false) (profile : BracketProfile) :
    ∃ middle, (middle = graph ∨ middle = graph.mergeCycles.1) ∧
      ((graph.simplify passes profile).1 = middle ∨
        (graph.simplify passes profile).1 = middle.foldChains.1) := by
  obtain ⟨merged, folded, cycles, chains, same | ⟨pruned, -⟩⟩ := graph.simplify_passes passes profile
  · exact ⟨merged, cycles, same ▸ chains⟩
  · exact absurd pruned (by simp [unpruned])

/-- A direct edge becomes one between the representatives of its ends, unless these are one node. -/
theorem Multigraph.Quotient.straight (quotient : Quotient before after) {src dst : Node}
    (straight : before.Straight src dst) (apart : after.repOf src ≠ after.repOf dst) :
    after.Straight (after.repOf src) (after.repOf dst) := by
  obtain ⟨label, there, direct⟩ := straight
  refine ⟨label, (quotient.edges _).mpr ⟨_, there, rfl, fun loop => apart loop.2⟩, ?_⟩
  rwa [quotient.isDirect_eq]

/-- Behind an edge of the merged graph stands one that gets on to the representative of its end. -/
theorem Contraction.behind (contraction : Contraction before after) {src dst : Node} {label : Label}
    (there : after.hasEdge ⟨src, dst, label⟩) : ∃ start stop, before.hasEdge ⟨start, stop, label⟩ ∧
      after.repOf start = src ∧ after.repOf stop = dst ∧ before.Leads stop dst := by
  obtain ⟨⟨start, stop, own⟩, stood, same, outer⟩ := (contraction.quotient.edges _).mp there
  obtain ⟨rfl, rfl, rfl⟩ := Edge.mk.inj same
  refine ⟨start, stop, stood, rfl, rfl, (contraction.entered _ stood).resolve_right fun loop => ?_⟩
  exact outer ⟨(contraction.quotient.isDirect_eq _).trans loop.1, loop.2⟩

theorem Contraction.straight_behind (contraction : Contraction before after) {src dst : Node}
    (straight : after.Straight src dst) : ∃ start stop, before.Straight start stop ∧
      after.repOf start = src ∧ after.repOf stop = dst ∧ before.Leads stop dst := by
  obtain ⟨label, there, direct⟩ := straight
  obtain ⟨start, stop, stood, atStart, atStop, leads⟩ := contraction.behind there
  rw [contraction.quotient.isDirect_eq] at direct
  exact ⟨start, stop, ⟨label, stood, direct⟩, atStart, atStop, leads⟩

/-- Where direct edges lead in the merged graph, they lead in the graph itself. -/
theorem Contraction.leads_behind (contraction : Contraction before after) (valid : before.Valid)
    {src dst : Node} (straight : Relation.TransGen after.Straight src dst) :
    Relation.TransGen before.Straight src dst := by
  have single : ∀ {src dst}, after.Straight src dst → Relation.TransGen before.Straight src dst := by
    intro src dst straight
    obtain ⟨start, stop, edge, rfl, -, leads⟩ := contraction.straight_behind straight
    have inward := contraction.inward start (valid.hasNode_of_straight edge).1
    exact .trans_right inward (.trans_left (.single edge) leads)
  induction straight with
  | single straight => exact single straight
  | tail _ straight path => exact path.trans (single straight)

end GrammarReach
