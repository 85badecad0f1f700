import GrammarReach.Proofs.SeedGraph
import GrammarReach.Proofs.Solve.Stats

/-!
Solving as a closure operator on seeds without reflexive labels.

A result holds the seeds, does not shrink when seeds are added, and is its own result when it is solved
again. None of this depends on the strategies of the solves: a closure that is handed a relation which is
closed already, with all of its shortcuts, still comes to every edge of it.
-/

namespace GrammarReach

namespace SeedGraph

variable {seeds larger : SeedGraph} {grammar : Grammar} {additions more again : List Addition}

/-- Where nothing is reflexive, a solution that holds the initial edges of other seeds holds their
solution. -/
theorem Solution.subset (none : seeds.reflexive = []) (noneLarger : larger.reflexive = [])
    (initial : ∀ edge, seeds.Initial grammar edge → larger.Solution grammar edge) {edge : Edge}
    (inside : seeds.Solution grammar edge) : larger.Solution grammar edge := by
  have audible : ∀ edge, ¬ larger.Silent grammar edge := not_silent_of_none noneLarger grammar
  refine ((solution_iff_derives none edge).mp inside).least initial
    (fun other silent => absurd silent (not_silent_of_none none grammar other)) ?_ ?_
  · intro other solved _ label rule
    exact solved.alone (audible other) rule
  · intro left right first second _ meets label rule
    exact first.join second (.inl (audible left)) meets rule

/-- An initial edge of seeds stays one, if all that it comes from is there. -/
theorem Initial.mono {edge : Edge} (initial : seeds.Initial grammar edge)
    (edges : ∀ edge ∈ seeds.edges, edge ∈ larger.edges) (nodes : ∀ node ∈ seeds.nodes, node ∈ larger.nodes) :
    larger.Initial grammar edge := by
  obtain ⟨sound, seeded | ⟨node, present, symbol, empty, rfl⟩⟩ := initial
  · exact ⟨sound, .inl (edges edge seeded)⟩
  · exact ⟨sound, .inr ⟨node, nodes node present, symbol, empty, rfl⟩⟩

/-- More additions have no smaller solution. -/
theorem Solution.mono (within : additions ⊆ more) {edge : Edge}
    (inside : (ofAdditions additions).Solution grammar edge) :
    (ofAdditions more).Solution grammar edge := by
  refine inside.subset (reflexive_ofAdditions _) (reflexive_ofAdditions _) fun edge initial =>
    .inr (.initial (initial.mono (fun edge => ?_) fun node => ?_))
  · rw [mem_edges_ofAdditions, mem_edges_ofAdditions]
    exact fun listed => within listed
  · rw [mem_nodes_ofAdditions, mem_nodes_ofAdditions]
    rintro ⟨addition, listed, brings⟩
    exact ⟨addition, within listed, brings⟩

/-- The ends of the edges of a solution are nodes of the seeds. -/
theorem Solution.brings {edge : Edge} (inside : (ofAdditions additions).Solution grammar edge) {node : Node}
    (brings : (Addition.edge edge).Brings node) : node ∈ (ofAdditions additions).nodes := by
  have within : (ofAdditions additions).Within grammar [] edge := inside.within
  obtain rfl | rfl := brings
  · exact mem_nodes_of_mentioned rfl additions within.src
  · exact mem_nodes_of_mentioned rfl additions within.dst

/-- Additions of the edges of some data and of the nodes of some seeds, in whatever order. -/
def Restarts (seeds : SeedGraph) (data : Dataset) (again : List Addition) : Prop :=
  again.Perm (data.edges.map .edge ++ seeds.nodes.toList.map .node)

variable {data : Dataset}

section Restarts

variable (restarts : (ofAdditions additions).Restarts data again)
  (solved : ∀ edge, data.contains edge ↔ (ofAdditions additions).Solution grammar edge)

include restarts solved

theorem Restarts.mem_edges (edge : Edge) :
    edge ∈ (ofAdditions again).edges ↔ (ofAdditions additions).Solution grammar edge := by
  rw [mem_edges_ofAdditions, restarts.mem_iff, ← solved, ← Dataset.mem_edges]
  simp

theorem Restarts.mem_nodes (node : Node) :
    node ∈ (ofAdditions again).nodes ↔ node ∈ (ofAdditions additions).nodes := by
  rw [mem_nodes_ofAdditions]
  constructor
  · rintro ⟨addition, listed, brings⟩
    obtain seeded | kept := List.mem_append.mp (restarts.mem_iff.mp listed)
    · obtain ⟨edge, stored, rfl⟩ := List.mem_map.mp seeded
      exact ((solved edge).mp ((Dataset.mem_edges _ edge).mp stored)).brings brings
    · obtain ⟨other, present, rfl⟩ := List.mem_map.mp kept
      exact brings ▸ Std.TreeSet.mem_toList.mp present
  · intro present
    refine ⟨.node node, restarts.mem_iff.mpr (List.mem_append_right _ ?_), rfl⟩
    exact List.mem_map_of_mem (Std.TreeSet.mem_toList.mpr present)

/-- A solution is the solution of itself. -/
theorem Restarts.solution_iff (edge : Edge) :
    (ofAdditions again).Solution grammar edge ↔ (ofAdditions additions).Solution grammar edge := by
  constructor
  · refine fun inside => inside.subset (reflexive_ofAdditions _) (reflexive_ofAdditions _) ?_
    rintro edge ⟨sound, seeded | ⟨node, present, symbol, empty, rfl⟩⟩
    · exact (restarts.mem_edges solved edge).mp seeded
    · have kept := (restarts.mem_nodes solved node).mp present
      exact .inr (.initial ⟨sound, .inr ⟨node, kept, symbol, empty, rfl⟩⟩)
  · intro inside
    have seeded := (restarts.mem_edges solved edge).mpr inside
    exact .inr (.initial ⟨inside.not_isFault, .inl seeded⟩)

/-- The edges of a solution bear no index that their symbols do not allow. -/
theorem Restarts.indexedBy (indexed : (ofAdditions additions).IndexedBy grammar) :
    (ofAdditions again).IndexedBy grammar where
  edges edge seeded unvaried := by
    have inside := (restarts.mem_edges solved edge).mp seeded
    rw [inside.plain indexed unvaried]
    rfl
  reflexive label listed := by
    rw [reflexive_ofAdditions] at listed
    cases listed

end Restarts

end SeedGraph

namespace Solver

open SeedGraph

variable {grammar : Grammar} {config : Config} {solver : Solver} {deadline : Deadline}

/-- Without shortcuts a solve finds exactly the solution, whatever its strategy, and stores it in order. -/
theorem solve_solution (built : grammar.Built) (made : prepare grammar config = .ok solver)
    {seeds : SeedGraph} (indexed : seeds.IndexedBy grammar) (order : LabelOrder)
    (unexpired : ∀ tick, deadline.expired tick = false) :
    ∃ result, solver.solveInOrder order seeds deadline = .ok result ∧ result.data.Valid ∧
      ∀ edge, result.data.contains edge ↔ seeds.Solution grammar edge := by
  obtain ⟨prepared, none⟩ := prepared_of_prepare made
  obtain ⟨state, valid, ran, found⟩ :=
    prepared.solve_result built.selfRuled indexed none order unexpired
  exact ⟨_, ran, valid, found⟩

/-- Solving is a closure operator, and one and the same for all strategies: a result holds the seed edges,
no result of more seeds lacks one of its edges, and solving it again changes nothing. -/
theorem solve_closure_operator (built : grammar.Built) (made : prepare grammar config = .ok solver)
    (additions : List SeedGraph.Addition) (indexed : (ofAdditions additions).IndexedBy grammar) (order : LabelOrder)
    (unexpired : ∀ tick, deadline.expired tick = false) :
    ∃ result, solver.solveInOrder order (ofAdditions additions) deadline = .ok result ∧
      (∀ edge, .edge edge ∈ additions → ¬ edge.label.isFault → result.data.contains edge) ∧
      ∀ {config' : Config} {solver' : Solver} {deadline' : Deadline} (order' : LabelOrder),
        prepare grammar config' = .ok solver' → (∀ tick, deadline'.expired tick = false) →
        (∀ more, additions ⊆ more → (ofAdditions more).IndexedBy grammar →
          ∃ larger, solver'.solveInOrder order' (ofAdditions more) deadline' = .ok larger ∧
            ∀ edge, result.data.contains edge → larger.data.contains edge) ∧
        ∀ again, (ofAdditions additions).Restarts result.data again →
          ∃ same, solver'.solveInOrder order' (ofAdditions again) deadline' = .ok same ∧
            ∀ edge, same.data.contains edge ↔ result.data.contains edge := by
  obtain ⟨result, ran, valid, found⟩ := solve_solution built made indexed order unexpired
  refine ⟨result, ran, fun edge listed sound => ?_, fun order' made' unexpired' => ⟨?_, ?_⟩⟩
  · have seeded := (mem_edges_ofAdditions additions edge).mpr listed
    exact (found edge).mpr (.inr (.initial ⟨sound, .inl seeded⟩))
  · intro more within indexedMore
    obtain ⟨larger, ranMore, -, foundMore⟩ := solve_solution built made' indexedMore order' unexpired'
    exact ⟨larger, ranMore, fun edge stored => (foundMore edge).mpr (((found edge).mp stored).mono within)⟩
  · intro again restarts
    obtain ⟨same, ranAgain, -, foundAgain⟩ :=
      solve_solution built made' (restarts.indexedBy found indexed) order' unexpired'
    refine ⟨same, ranAgain, fun edge => ?_⟩
    rw [foundAgain, found, restarts.solution_iff found]

theorem solve_closure_operator_path :
    let additions := [SeedGraph.Addition.edge ⟨1, 2, .plain 1⟩, .edge ⟨2, 3, .plain 1⟩]
    let more := SeedGraph.Addition.node 9 :: .edge ⟨3, 4, .plain 1⟩ :: additions
    ∃ solver solver' result larger same,
      prepare pathGrammar {} = .ok solver ∧ prepare pathGrammar { variant := .focr } = .ok solver' ∧
      solver.solveInOrder .ascending (ofAdditions additions) .unlimited = .ok result ∧
      result.data.contains ⟨2, 3, .plain 1⟩ ∧
      solver'.solveInOrder .ascending (ofAdditions more) .unlimited = .ok larger ∧
      (∀ edge, result.data.contains edge → larger.data.contains edge) ∧
      solver'.solveInOrder .ascending (ofAdditions
        (result.data.edges.map .edge ++ (ofAdditions additions).nodes.toList.map .node)) .unlimited =
          .ok same ∧
      ∀ edge, same.data.contains edge ↔ result.data.contains edge := by
  intro additions more
  have made : prepare pathGrammar {} = .ok _ := rfl
  have made' : prepare pathGrammar { variant := .focr } = .ok _ := rfl
  have unexpired : ∀ tick, Deadline.unlimited.expired tick = false := fun _ => rfl
  have plain : ∀ list : List SeedGraph.Addition, (∀ edge ∈ (ofAdditions list).edges, edge.label.index = 0) →
      (ofAdditions list).IndexedBy pathGrammar := fun list zero =>
    ⟨fun edge listed _ => zero edge listed, by rw [reflexive_ofAdditions]; simp⟩
  obtain ⟨result, ran, holds, related⟩ := solve_closure_operator (.addRule "A" ["A", "A"] .empty) made
    additions (plain additions (by decide)) .ascending unexpired
  obtain ⟨grows, repeats⟩ := related .ascending made' unexpired
  obtain ⟨larger, ranMore, within⟩ := grows more (List.subset_append_right [_, _] _) (plain more (by decide))
  obtain ⟨same, ranAgain, equal⟩ := repeats _ (.refl _)
  exact ⟨_, _, result, larger, same, made, made', ran, holds _ (by simp [additions]) (by decide), ranMore,
    within, ranAgain, equal⟩

end Solver

end GrammarReach
