import GrammarReach.Analysis.Run
import GrammarReach.Proofs.Graph.Basic
import GrammarReach.Proofs.SeedGraph
import GrammarReach.Proofs.Solve.Variants

namespace GrammarReach.Analysis

variable {analysis : Analysis}

/-- The seeds come about by additions. -/
private theorem seeds_eq (analysis : Analysis) :
    analysis.seeds = ({ reflexive := analysis.reflexive } : SeedGraph).addAll
      (analysis.graph.nodes.map .node ++
        (analysis.graph.edges.flatMap fun (_, edge) => analysis.seedEdges edge.toEdge).map .edge) := by
  rw [SeedGraph.addAll, List.foldl_append, List.foldl_map, List.foldl_map]
  rfl

theorem reflexive_seeds (analysis : Analysis) : analysis.seeds.reflexive = analysis.reflexive := by
  rw [seeds_eq, SeedGraph.reflexive_addAll]

theorem mem_edges_seeds (analysis : Analysis) (valid : analysis.graph.Valid) (seed : Edge) :
    seed ∈ analysis.seeds.edges ↔ ∃ edge, analysis.graph.hasEdge edge ∧ seed ∈ analysis.seedEdges edge := by
  rw [seeds_eq, SeedGraph.mem_edges_addAll]
  simp only [List.not_mem_nil, false_or, List.mem_append, List.mem_map, reduceCtorEq, and_false,
    exists_false, SeedGraph.Addition.edge.injEq, exists_eq_right, List.mem_flatMap, ← valid.mem_edges_iff]
  constructor
  · rintro ⟨slot, listed, inside⟩
    exact ⟨slot.2.toEdge, ⟨slot, listed, rfl⟩, inside⟩
  · rintro ⟨edge, ⟨slot, listed, rfl⟩, inside⟩
    exact ⟨slot, listed, inside⟩

/-- When the seeds of an edge lie between its ends, the nodes of the seeds are the live ones. -/
theorem mem_nodes_seeds (analysis : Analysis) (valid : analysis.graph.Valid)
    (between : ∀ edge, ∀ seed ∈ analysis.seedEdges edge, (seed.src = edge.src ∨ seed.src = edge.dst) ∧
      (seed.dst = edge.src ∨ seed.dst = edge.dst)) (node : Node) :
    node ∈ analysis.seeds.nodes ↔ analysis.graph.hasNode node := by
  rw [seeds_eq, SeedGraph.mem_nodes_addAll]
  simp only [Std.TreeSet.not_mem_emptyc, false_or, List.mem_append, or_and_right, exists_or,
    List.mem_map, exists_exists_and_eq_and, SeedGraph.Addition.Brings, exists_eq_right,
    Multigraph.mem_nodes]
  refine or_iff_left_of_imp ?_
  rintro ⟨seed, listed, touches⟩
  obtain ⟨⟨id, kept⟩, slot, inside⟩ := List.mem_flatMap.mp listed
  obtain ⟨src, dst⟩ := valid.ends id kept ((analysis.graph.mem_edges id kept).mp slot)
  obtain ⟨one, two⟩ := between kept.toEdge seed inside
  obtain rfl | rfl := touches
  · exact one.elim (fun same => same ▸ src) fun same => same ▸ dst
  · exact two.elim (fun same => same ▸ src) fun same => same ▸ dst

/-- The ends of the seeds are among their nodes. -/
theorem mem_nodes_of_mentioned (analysis : Analysis) {node : Node}
    (mentioned : node ∈ analysis.seeds.mentionedNodes) : node ∈ analysis.seeds.nodes := by
  rw [seeds_eq] at mentioned ⊢
  exact SeedGraph.mem_nodes_of_mentioned rfl _ mentioned

/-- The solver of an analysis is one for its grammar, with its shortcuts. -/
theorem prepared_of_solver {config : Config} {solver : Solver}
    (made : analysis.solver config = .ok solver) :
    solver.Prepared analysis.grammar config.variant ∧ solver.brackets = analysis.brackets := by
  cases prepares : Solver.prepare analysis.grammar config with
  | error fault => simp [Analysis.solver, prepares, bind, Except.bind] at made
  | ok core =>
    obtain ⟨prepared, -⟩ := Solver.prepared_of_prepare prepares
    have same : core.withBrackets analysis.brackets = solver ∨
        (core.withBrackets analysis.brackets).withCountSymbol analysis.countSymbol? = solver := by
      simp only [Analysis.solver, prepares, bind, Except.bind, pure, Except.pure, Except.ok.injEq] at made
      split at made
      · exact Or.inr made
      · exact Or.inl made
    have whole := prepared.withBrackets analysis.brackets
    obtain rfl | rfl := same
    · exact ⟨whole, rfl⟩
    · exact ⟨whole.withCountSymbol analysis.countSymbol?, rfl⟩

/-- An analysis under a grammar without a cycle of unary productions has a solver, if the symbol to
report on is known. -/
theorem solver_eq_ok (analysis : Analysis) {config : Config} (acyclic : Solver.cycleFault? analysis.grammar = none)
    (known : ∀ name, config.countSymbol = some name → (analysis.grammar.find? name).isSome) :
    ∃ solver, analysis.solver config = .ok solver := by
  obtain ⟨core, prepares⟩ := Solver.prepare_eq_ok acyclic known
  unfold Analysis.solver
  rw [prepares]
  exact ⟨_, rfl⟩

/-- A run that solves simplifies the graph and solves what came out. -/
theorem run_eq (config : Config) {clock : Nat → Nat} (settings : config.validate = .ok ())
    (solves : config.solve) {solver : Solver} (made : (analysis.simplify config).1.solver config = .ok solver)
    {result : SolveResult} (solved : solver.solve (analysis.simplify config).1.seeds
      (.ofSeconds? config.timeout? clock) = .ok result) :
    ∃ run, analysis.run config clock = .ok run ∧ run.analysis = (analysis.simplify config).1 ∧
      run.result? = some result := by
  let report := (analysis.simplify config).1.report config (analysis.simplify config).2
  refine ⟨(analysis.simplify config).1.finished report result, ?_, rfl, rfl⟩
  simp [run, settings, solves, made, solved, bind, Except.bind, pure, Except.pure, Except.mapError, report]

/-- The result of a run is what a solver of the simplified analysis found. -/
theorem solved_of_run {config : Config} {clock : Nat → Nat} {run : AnalysisRun} {result : SolveResult}
    (ran : analysis.run config clock = .ok run) (has : run.result? = some result) :
    ∃ solver, (analysis.simplify config).1.solver config = .ok solver ∧
      solver.solve (analysis.simplify config).1.seeds (.ofSeconds? config.timeout? clock) = .ok result := by
  unfold Analysis.run at ran
  cases settings : config.validate with
  | error fault => simp [settings, Except.mapError, bind, Except.bind] at ran
  | ok =>
    simp only [settings, Except.mapError, bind, Except.bind, pure, Except.pure] at ran
    split at ran
    · cases made : (analysis.simplify config).1.solver config with
      | error fault => simp [made] at ran
      | ok solver =>
        simp only [made] at ran
        cases solved : solver.solve (analysis.simplify config).1.seeds
            (.ofSeconds? config.timeout? clock) with
        | error fault => simp [solved] at ran
        | ok found =>
          simp only [solved, Except.ok.injEq] at ran
          subst ran
          obtain rfl := Option.some.inj has
          exact ⟨solver, rfl, solved⟩
    · cases ran
      cases has

/-- Whether solving an analysis finds an edge. -/
def finds? (analysis : Analysis) (config : Config) (edge : Edge) : Option Bool := do
  let solver ← (analysis.solver config).toOption
  let result ← (solver.solveInOrder .ascending analysis.seeds .unlimited).toOption
  return result.data.contains edge

end GrammarReach.Analysis
