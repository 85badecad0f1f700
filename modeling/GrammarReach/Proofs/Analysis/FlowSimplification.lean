import GrammarReach.Proofs.Analysis.ValueFlow
import GrammarReach.Proofs.Simplify.Contraction

/-!
Merging cycles and folding chains keep the value flows.

A flow of the simplified graph is lifted edge by edge. Direct edges lead from each representative to
the nodes it stands for, so a lifted path can move on to where the next edge starts; and an edge that
enters a class at all enters it at the representative, or at a node that leads there.
-/

namespace GrammarReach

open Multigraph

variable {graph before after : Multigraph}

namespace ValueFlow

theorem Flows.live (valid : graph.Valid) {src dst : Node} (flows : Flows graph src dst) :
    graph.hasNode src ∧ graph.hasNode dst := by
  induction flows with
  | refl live => exact ⟨live, live⟩
  | direct straight => exact valid.hasNode_of_straight straight
  | trans _ _ first second => exact ⟨first.1, second.2⟩
  | matched opens _ closes _ =>
    exact ⟨(valid.hasNode_of_hasEdge opens).1, (valid.hasNode_of_hasEdge closes).2⟩

theorem flows_of_leads {src dst : Node} (leads : graph.Leads src dst) (live : graph.hasNode dst) :
    Flows graph src dst := by
  induction leads using Relation.ReflTransGen.head_induction_on with
  | refl => exact .refl live
  | head straight _ flows => exact (Flows.direct straight).trans flows

/-- A flow stays one between the representatives of its ends. -/
theorem Flows.image (formed : WellFormed before) (quotient : Quotient before after) {src dst : Node}
    (flows : Flows before src dst) : Flows after (after.repOf src) (after.repOf dst) := by
  have kept := wellFormed_iff.mp formed
  induction flows with
  | refl live => exact .refl ((quotient.nodes _).mpr ⟨_, live, rfl⟩)
  | @direct src dst straight =>
    by_cases same : after.repOf src = after.repOf dst
    · rw [same]
      exact .refl ((quotient.nodes _).mpr ⟨dst, (formed.valid.hasNode_of_straight straight).2, rfl⟩)
    · exact .direct (quotient.straight straight same)
  | trans _ _ first second => exact first.trans second
  | matched opens _ closes inner =>
    refine .matched (kept.hasEdge_represented quotient opens ?_) inner
      (kept.hasEdge_represented quotient closes ?_)
    · simp [symbols_grammar]
    · simp [symbols_grammar]

/-- A flow of the merged graph is one of the graph itself, to any node that its end stands for. -/
theorem Flows.lift (valid : before.Valid) (contraction : Contraction before after)
    {src dst : Node} (flows : Flows after src dst) {member : Node} (live : before.hasNode member)
    (stands : after.repOf member = dst) : Flows before src member := by
  have valid' := contraction.quotient.valid
  have inward : ∀ node, before.hasNode node → Flows before (after.repOf node) node :=
    fun node there => flows_of_leads (contraction.inward node there) there
  have onward : ∀ {stop dst member : Node}, before.Leads stop dst → before.hasNode member →
      after.repOf member = dst → Flows before stop member :=
    fun leads there stands => flows_of_leads (contraction.onward leads there stands) there
  induction flows generalizing member with
  | refl _ =>
    rw [← stands]
    exact inward member live
  | direct straight =>
    obtain ⟨start, stop, edge, rfl, -, leads⟩ := contraction.straight_behind straight
    have first := inward start (valid.hasNode_of_straight edge).1
    exact (first.trans (.direct edge)).trans (onward leads live stands)
  | @trans src middle dst first second one two =>
    have middleLive := (first.live valid').2
    exact (one (contraction.hasNode_of_hasNode valid middleLive) (valid'.repOf_live middleLive)).trans
      (two live stands)
  | matched opens _ closes inner =>
    obtain ⟨start, entry, opened, rfl, -, entered⟩ := contraction.behind opens
    obtain ⟨exit, stop, closed, atExit, -, leads⟩ := contraction.behind closes
    have first := inward start (valid.hasNode_of_hasEdge opened).1
    have root := contraction.hasNode_of_hasNode valid (valid'.hasNode_of_hasEdge opens).2
    have within := (flows_of_leads entered root).trans
      (inner (valid.hasNode_of_hasEdge closed).1 atExit)
    exact (first.trans (.matched opened within closed)).trans (onward leads live stands)

/-- From a node that leads to its representative, the flows are those between representatives. -/
theorem flows_iff (formed : WellFormed before) (contraction : Contraction before after)
    {src dst : Node} (outward : before.Leads src (after.repOf src)) (start : before.hasNode src)
    (stop : before.hasNode dst) :
    Flows before src dst ↔ Flows after (after.repOf src) (after.repOf dst) := by
  refine ⟨Flows.image formed contraction.quotient, fun flows => ?_⟩
  have root := formed.valid.hasNode_of_leads (contraction.inward src start) start
  exact (flows_of_leads outward root).trans (flows.lift formed.valid contraction stop rfl)

/-- What the flows of a simplified graph tell about those of the graph itself, from nodes that outlived
the simplification and from sources. -/
structure Simplified (before after : Multigraph) : Prop where
  quotient : Quotient before after
  live : ∀ src dst, after.hasNode src → before.hasNode dst →
    (Flows before src dst ↔ Flows after src (after.repOf dst))
  sources : ∀ source dst, before.isSource source → before.hasNode dst →
    (Flows before source dst ↔ Flows after (after.repOf source) (after.repOf dst))

theorem simplified (formed : WellFormed graph) {passes : Passes} (unpruned : passes.interDyck = false)
    (profile : BracketProfile) : Simplified graph (graph.simplify passes profile).1 := by
  have valid := formed.valid
  obtain ⟨middle, cycles, chains⟩ := graph.simplify_cases unpruned profile
  obtain ⟨first, outward⟩ : Contraction graph middle ∧
      ∀ node, graph.hasNode node → graph.Leads node (middle.repOf node) := by
    obtain rfl | rfl := cycles
    · exact ⟨.refl valid, fun node live => by rw [valid.repOf_live live]⟩
    · exact ⟨valid.contraction_mergeCycles, fun node live => (valid.collapse_mergeCycles.tied node live).2⟩
  have formed' := formed.of_quotient first.quotient
  generalize (graph.simplify passes profile).1 = after at chains ⊢
  obtain ⟨second, stays⟩ : Contraction middle after ∧
      ∀ node, middle.isSource node → after.repOf node = node := by
    obtain rfl | rfl := chains
    · exact ⟨.refl formed'.valid, fun node marked => formed'.valid.repOf_live (hasNode_of_isSource marked)⟩
    · exact ⟨formed'.valid.foldChains.contraction, formed'.valid.foldChains.sources⟩
  have alive : ∀ node, graph.hasNode node → middle.hasNode (middle.repOf node) :=
    fun node live => (first.quotient.nodes _).mpr ⟨node, live, rfl⟩
  -- What stands for itself after cycles were merged and chains folded has its flows kept in both steps.
  have both : ∀ src dst, after.repOf (middle.repOf src) = middle.repOf src → graph.hasNode src →
      graph.hasNode dst → (Flows graph src dst ↔ Flows after (after.repOf src) (after.repOf dst)) := by
    intro src dst root start stop
    rw [flows_iff formed first (outward src start) start stop,
      flows_iff formed' second (by rw [root]) (alive src start) (alive dst stop),
      second.quotient.absorbs, second.quotient.absorbs]
  refine ⟨first.quotient.trans second.quotient, fun src dst start stop => ?_, fun source dst marked stop => ?_⟩
  · have inMiddle := second.hasNode_of_hasNode formed'.valid start
    have inGraph := first.hasNode_of_hasNode valid inMiddle
    have root := second.quotient.valid.repOf_live start
    rw [both src dst ?_ inGraph stop, root]
    rw [formed'.valid.repOf_live inMiddle, root]
  · exact both source dst (stays _ ((first.quotient.sources _).mpr ⟨source, marked, rfl⟩))
      (hasNode_of_isSource marked) stop

private theorem Simplified.refl (valid : graph.Valid) : Simplified graph graph where
  quotient := Quotient.refl valid
  live src dst _ stop := by rw [valid.repOf_live stop]
  sources source dst marked stop := by
    rw [valid.repOf_live stop, valid.repOf_live (hasNode_of_isSource marked)]

/-- The simplification of an analysis gives the analysis of a simplified graph. -/
theorem simplify_analysis (formed : WellFormed graph) {config : Config}
    (unpruned : config.passes.interDyck = false) :
    ∃ after, ((analysis graph).simplify config).1 = analysis after ∧ Simplified graph after := by
  rw [Analysis.simplify]
  split
  · exact ⟨_, rfl, simplified formed unpruned (analysis graph).profile⟩
  · exact ⟨graph, rfl, .refl formed.valid⟩

/-- Two datasets tell the same flows, one in terms of a graph and the other of the simplified graph:
from each node that is still live, and from each source, which is still there under its
representative. -/
structure SameFlows (graph simplified : Multigraph) (whole small : Dataset) : Prop where
  live : ∀ src dst, simplified.hasNode src → graph.hasNode dst →
    (whole.contains ⟨src, dst, .plain flow⟩ ↔
      small.contains ⟨src, simplified.repOf dst, .plain flow⟩)
  sources : ∀ source ∈ graph.sources, simplified.hasNode (simplified.repOf source) ∧
    simplified.repOf source ∈ simplified.sources ∧ ∀ dst, graph.hasNode dst →
      (whole.contains ⟨source, dst, .plain flow⟩ ↔
        small.contains ⟨simplified.repOf source, simplified.repOf dst, .plain flow⟩)

private theorem Simplified.sameFlows (kept : Simplified before after) {whole small : Dataset}
    (first : ∀ src dst, whole.contains ⟨src, dst, .plain flow⟩ ↔ Flows before src dst)
    (second : ∀ src dst, small.contains ⟨src, dst, .plain flow⟩ ↔ Flows after src dst) :
    SameFlows before after whole small where
  live src dst start stop := by rw [first, second, kept.live src dst start stop]
  sources source listed := by
    have marked := (before.mem_sources source).mp listed
    have marked' := (kept.quotient.sources _).mpr ⟨source, marked, rfl⟩
    refine ⟨hasNode_of_isSource marked', (after.mem_sources _).mpr marked', fun dst stop => ?_⟩
    rw [first, second, kept.sources source dst marked stop]

/-- Merging cycles and folding chains, or doing either or neither, changes no flow: whatever the
strategy and the orders in which labels are gone through, solving the simplified graph gives what
solving the graph itself gives. -/
theorem solve_simplified (built : Built graph) {config : Config} {solver : Solver}
    (made : (analysis graph).solver config = .ok solver) (unpruned : config.passes.interDyck = false)
    (order order' : LabelOrder) {deadline : Deadline} (unexpired : ∀ tick, deadline.expired tick = false) :
    ∃ whole small, solver.solveInOrder order (analysis graph).seeds deadline = .ok whole ∧
      solver.solveInOrder order' ((analysis graph).simplify config).1.seeds deadline = .ok small ∧
      SameFlows graph ((analysis graph).simplify config).1.graph whole.data small.data := by
  have formed := built.wellFormed
  obtain ⟨after, same, kept⟩ := simplify_analysis formed unpruned
  have formed' := formed.of_quotient kept.quotient
  obtain ⟨whole, solved, first⟩ := solve_flows formed made order unexpired
  obtain ⟨small, solved', second⟩ := solve_flows formed' made order' unexpired
  rw [same]
  exact ⟨whole, small, solved, solved', kept.sameFlows first second⟩

/-- A source, the flow out of it, and a call and a return around a cycle. -/
def callGraph : Multigraph :=
  addReturn (addFlow (addFlow (addCall (addFlow (emptyGraph.markSource 1) 1 2) 2 3 5) 3 4) 4 3) 4 5 5

theorem built_callGraph : Built callGraph := by
  have flows : IsKind direct := Or.inl rfl
  have calls : IsKind call := Or.inr (Or.inl rfl)
  have returns : IsKind ret := Or.inr (Or.inr rfl)
  exact .addEdge _ returns (.addEdge _ flows (.addEdge _ flows (.addEdge _ calls (.addEdge _ flows
    (.markSource 1 .empty)))))

def foldingConfig : Config := { variant := .pocr, passes := { scc := true, fold := true } }

theorem solve_simplified_callGraph : ∃ solver whole small,
    (analysis callGraph).solver foldingConfig = .ok solver ∧
    solver.solveInOrder .ascending (analysis callGraph).seeds .unlimited = .ok whole ∧
    solver.solveInOrder .ascending ((analysis callGraph).simplify foldingConfig).1.seeds .unlimited =
      .ok small ∧
    (whole.data.contains ⟨1, 5, .plain flow⟩ ↔ small.data.contains ⟨1, 5, .plain flow⟩) ∧
    (whole.data.contains ⟨1, 2, .plain flow⟩ ↔ small.data.contains ⟨1, 1, .plain flow⟩) := by
  have made : (analysis callGraph).solver foldingConfig = .ok _ := rfl
  have unexpired : ∀ tick, Deadline.unlimited.expired tick = false := fun _ => rfl
  obtain ⟨whole, small, solved, solved', same⟩ :=
    solve_simplified built_callGraph made rfl .ascending .ascending unexpired
  refine ⟨_, whole, small, made, solved, solved', ?_, ?_⟩
  · have agree := same.live 1 5 (by decide +kernel) (by decide +kernel)
    have own : ((analysis callGraph).simplify foldingConfig).1.graph.repOf 5 = 5 := by decide +kernel
    rwa [own] at agree
  · have agree := same.live 1 2 (by decide +kernel) (by decide +kernel)
    have folded : ((analysis callGraph).simplify foldingConfig).1.graph.repOf 2 = 1 := by decide +kernel
    rwa [folded] at agree

/-- So a run with these passes reports the flows that a run without them does. -/
theorem run_simplified (built : Built graph) {config : Config} (settings : config.validate = .ok ())
    (solves : config.solve) {solver : Solver} (made : (analysis graph).solver config = .ok solver)
    (unpruned : config.passes.interDyck = false) {clock : Nat → Nat}
    (unexpired : ∀ tick, (Deadline.ofSeconds? config.timeout? clock).expired tick = false) :
    ∃ before after whole small,
      (analysis graph).run { config with passes := {} } clock = .ok before ∧
      before.result? = some whole ∧
      (analysis graph).run config clock = .ok after ∧ after.result? = some small ∧
      SameFlows graph after.analysis.graph whole.data small.data := by
  have formed := built.wellFormed
  obtain ⟨final, same, kept⟩ := simplify_analysis formed unpruned
  have formed' := formed.of_quotient kept.quotient
  obtain ⟨whole, solved, first⟩ := solve_flows formed made .ascending unexpired
  obtain ⟨small, solved', second⟩ := solve_flows formed' made .ascending unexpired
  obtain ⟨before, ran, -, found⟩ :=
    Analysis.run_eq { config with passes := {} } settings solves made solved
  rw [← same] at solved'
  have made' : ((analysis graph).simplify config).1.solver config = .ok solver := by rwa [same]
  obtain ⟨after, ran', simplified, found'⟩ := Analysis.run_eq config settings solves made' solved'
  refine ⟨before, after, whole, small, ran, found, ran', found', ?_⟩
  rw [simplified, same]
  exact kept.sameFlows first second

end ValueFlow

end GrammarReach
