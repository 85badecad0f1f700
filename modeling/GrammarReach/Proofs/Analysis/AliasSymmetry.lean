import GrammarReach.Proofs.Analysis.AliasSimplification
import GrammarReach.Proofs.Analysis.Pruning

namespace GrammarReach

namespace Multigraph

variable {direct : Kind} {known : Kind → Prop} {graph : Multigraph}

/-- Whatever passes run, a graph stays one of its kinds. -/
theorem OfKinds.simplify (kept : graph.OfKinds direct known) (passes : Passes)
    (profile : BracketProfile) : (graph.simplify passes profile).1.OfKinds direct known := by
  obtain ⟨merged, folded, cycles, chains, pruned⟩ := graph.simplify_passes passes profile
  have first : merged.OfKinds direct known := by
    obtain rfl | rfl := cycles
    · exact kept
    · exact kept.of_quotient kept.valid.collapse_mergeCycles.quotient
  have second : folded.OfKinds direct known := by
    obtain rfl | rfl := chains
    · exact first
    · exact first.of_quotient first.valid.foldChains.contraction.quotient
  obtain same | ⟨-, same⟩ := pruned
  · rwa [same]
  · rw [same]
    exact second.of_pruned (second.valid.pruneBrackets profile)

/-- Simplifies a graph once for each of the given passes and profiles. -/
def simplifyAll (graph : Multigraph) (rounds : List (Passes × BracketProfile)) : Multigraph :=
  rounds.foldl (fun graph round => (graph.simplify round.1 round.2).1) graph

theorem OfKinds.simplifyAll (kept : graph.OfKinds direct known)
    (rounds : List (Passes × BracketProfile)) : (graph.simplifyAll rounds).OfKinds direct known :=
  List.foldlRecOn (motive := fun graph : Multigraph => graph.OfKinds direct known) rounds _ kept
    fun _ kept round _ => kept.simplify round.1 round.2

end Multigraph

namespace Alias

variable {graph : Multigraph}

theorem simplify_wellFormed (formed : WellFormed graph) (config : Config) :
    ∃ after, ((analysis graph).simplify config).1 = analysis after ∧ WellFormed after := by
  rw [Analysis.simplify]
  split
  · exact ⟨_, rfl, formed.simplify config.passes _⟩
  · exact ⟨graph, rfl, formed⟩

/-- In a dataset, value aliases and memory aliases go both ways, and value flow through assignments goes
backwards under the barred symbol. -/
structure Mirrored (data : Dataset) : Prop where
  mayAlias : ∀ u v, data.contains ⟨u, v, .plain mayAlias⟩ ↔ data.contains ⟨v, u, .plain mayAlias⟩
  matched : ∀ u v, data.contains ⟨u, v, .plain matched⟩ ↔ data.contains ⟨v, u, .plain matched⟩
  assigned : ∀ u v,
    data.contains ⟨u, v, .plain assigned⟩ ↔ data.contains ⟨v, u, .plain assignedBar⟩

/-- The solution for an expression graph goes both ways. -/
theorem mirrored_of_solution (formed : WellFormed graph) {data : Dataset}
    (found : ∀ edge, data.contains edge ↔ (analysis graph).seeds.Solution grammar edge) :
    Mirrored data where
  mayAlias u v := by
    rw [found, found, solution_iff_aliases formed, solution_iff_aliases formed]
    exact ⟨Aliases.symm, Aliases.symm⟩
  matched u v := by
    rw [found, found, solution_iff_memory formed, solution_iff_memory formed]
    exact ⟨Memory.symm, Memory.symm⟩
  assigned u v := by
    rw [found, found, solution_iff_assigned formed, solution_iff_assignedBar formed]

/-- After any simplification, and with any passes of its own, a run of the analysis finds data that go
both ways, whatever the strategy and the deadline, and so does its solver in whatever order it goes
through the labels. Without an expired deadline they do find them. -/
theorem run_mirrored (built : Built graph) (rounds : List (Passes × BracketProfile)) (config : Config)
    (clock : Nat → Nat) :
    let start := analysis (graph.simplifyAll rounds)
    let seeds := (start.simplify config).1.seeds
    let deadline := Deadline.ofSeconds? config.timeout? clock
    (∀ run result, start.run config clock = .ok run → run.result? = some result →
      Mirrored result.data) ∧
    (∀ solver order result, (analysis graph).solver config = .ok solver →
      solver.solveInOrder order seeds deadline = .ok result → Mirrored result.data) ∧
    ∀ solver, config.validate = .ok () → config.solve →
      (analysis graph).solver config = .ok solver → (∀ tick, deadline.expired tick = false) →
      (∃ run result, start.run config clock = .ok run ∧ run.result? = some result) ∧
        ∀ order, ∃ result, solver.solveInOrder order seeds deadline = .ok result := by
  intro start seeds deadline
  obtain ⟨after, same, formed⟩ := simplify_wellFormed (built.ofKinds.simplifyAll rounds) config
  have sameSeeds : seeds = (analysis after).seeds := congrArg Analysis.seeds same
  have mirrored : ∀ solver order result, (analysis graph).solver config = .ok solver →
      solver.solveInOrder order seeds deadline = .ok result → Mirrored result.data := by
    intro solver order result made solved
    obtain ⟨prepared, -⟩ := Analysis.prepared_of_solver made
    rw [sameSeeds] at solved
    exact mirrored_of_solution formed (prepared.solution_of_ok built_grammar.selfRuled
      (indexedBy_seeds formed) (implied_solver formed made) solved)
  refine ⟨fun run result ran has => ?_, mirrored, fun solver settings solves made unexpired => ?_⟩
  · obtain ⟨solver, made, solved⟩ := Analysis.solved_of_run ran has
    rw [same] at made
    exact mirrored solver .ascending result made solved
  · have ends : ∀ order, ∃ result, solver.solveInOrder order seeds deadline = .ok result := by
      intro order
      obtain ⟨result, solved, -⟩ := solve_aliases formed made order unexpired
      exact ⟨result, sameSeeds ▸ solved⟩
    obtain ⟨result, solved⟩ := ends .ascending
    have madeAfter : (start.simplify config).1.solver config = .ok solver := by
      rw [same]
      exact made
    obtain ⟨run, ran, -, has⟩ := Analysis.run_eq config settings solves madeAfter solved
    exact ⟨⟨run, result, ran, has⟩, ends⟩

/-- One earlier round, in which unmatched field edges are pruned. -/
def pruningRounds : List (Passes × BracketProfile) := [({ interDyck := true }, profile)]

theorem run_mirrored_sharedGraph :
    (∃ run result, (analysis (sharedGraph.simplifyAll pruningRounds)).run foldingConfig (fun _ => 0) =
        .ok run ∧ run.result? = some result ∧ Mirrored result.data ∧
      result.data.contains ⟨3, 2, .plain mayAlias⟩) ∧
    ∃ solver, (analysis sharedGraph).solver foldingConfig = .ok solver ∧ ∀ order, ∃ result,
      solver.solveInOrder order
          ((analysis (sharedGraph.simplifyAll pruningRounds)).simplify foldingConfig).1.seeds
          (.ofSeconds? foldingConfig.timeout? fun _ => 0) = .ok result ∧ Mirrored result.data := by
  have made : (analysis sharedGraph).solver foldingConfig = .ok _ := rfl
  obtain ⟨mirrored, inOrder, solves⟩ :=
    run_mirrored built_sharedGraph pruningRounds foldingConfig fun _ => 0
  obtain ⟨⟨run, result, ran, has⟩, ends⟩ := solves _ rfl rfl made fun tick => by
    simp [Deadline.expired, Deadline.ofSeconds?]
  have both := mirrored run result ran has
  have found : (((analysis (sharedGraph.simplifyAll pruningRounds)).run
      foldingConfig fun _ => 0).toOption.bind fun run => run.result?.map fun result =>
        result.data.contains ⟨2, 3, .plain mayAlias⟩) = some true := by decide +kernel
  simp only [ran, Except.toOption, Option.bind_some, has, Option.map_some, Option.some.injEq] at found
  refine ⟨⟨run, result, ran, has, both, (both.mayAlias 2 3).mp found⟩, _, made, fun order => ?_⟩
  obtain ⟨result, solved⟩ := ends order
  exact ⟨result, solved, inOrder _ order result made solved⟩

end Alias

end GrammarReach
