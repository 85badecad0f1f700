import GrammarReach.Proofs.Counts
import GrammarReach.Proofs.Solve.Exact

/-!
The turns of a solve: what it has taken from the worklist, one item a turn, until nothing is left.

No item is ever queued twice, so an edge is taken once as a primary item and once as a secondary one at most.
Where no symbol has a closure there are primary items only, and every edge is taken, but for the reflexive
ones that are only stored.
-/

namespace GrammarReach

namespace SeedGraph

variable (seeds : SeedGraph) (grammar : Grammar) (edge : Edge)

instance : Decidable (seeds.Initial grammar edge) :=
  decidable_of_iff (¬ edge.label.isFault ∧ (edge ∈ seeds.edges ∨
      ∃ node ∈ seeds.nodes.toList, ∃ symbol ∈ grammar.nullable.toList,
        edge = ⟨node, node, .plain symbol⟩)) <| by
    simp only [Initial, Std.TreeSet.mem_toList]

instance : Decidable (seeds.Silent grammar edge) :=
  decidable_of_iff (¬ edge.label.isFault ∧ ¬ seeds.Initial grammar edge ∧
      ∃ node ∈ seeds.nodes.toList, ∃ label ∈ seeds.reflexive, edge = ⟨node, node, label⟩) <| by
    simp only [Silent, Std.TreeSet.mem_toList]

/-- How many edges of a dataset nothing but a reflexive label put there. -/
def silentCount (data : Dataset) : Nat := data.edges.countP fun edge => seeds.Silent grammar edge

variable {seeds grammar} in
theorem length_add_silentCount {data : Dataset} (valid : data.Valid) {audible : List Edge}
    (distinct : audible.Nodup)
    (mem : ∀ edge, edge ∈ audible ↔ data.contains edge ∧ ¬ seeds.Silent grammar edge) :
    audible.length + seeds.silentCount grammar data = data.edges.length := by
  have perm : audible.Perm (data.edges.filter fun edge => ¬ seeds.Silent grammar edge) := by
    refine (List.perm_ext_iff_of_nodup distinct ((Dataset.nodup_edges valid).filter _)).mpr fun edge => ?_
    rw [mem, List.mem_filter, Dataset.mem_edges, decide_eq_true_iff]
  have split := data.edges.length_eq_countP_add_countP fun edge => decide (seeds.Silent grammar edge)
  simp only [decide_eq_true_eq] at split
  rw [silentCount, split, perm.length_eq, ← List.countP_eq_length_filter, Nat.add_comm]

end SeedGraph

namespace Solver

variable {grammar : Grammar} {config : Config} {solver : Solver} {variant : Variant} {seeds : SeedGraph}
  {order : LabelOrder} {deadline : Deadline} {silent allowed : Edge → Prop} {done : List WorkItem}
  {state before after : SolveState} {edge : Edge}

/-- The states at the head of the loop, each with the items taken so far. -/
inductive Turned (solver : Solver) (order : LabelOrder) (seeds : SeedGraph) :
    List WorkItem → SolveState → Prop
  | start : Turned solver order seeds [] (solver.start seeds)
  | turn {done : List WorkItem} {state : SolveState} {item : WorkItem} {rest : Worklist} :
      Turned solver order seeds done state → state.work.pop? = some (item, rest) →
        Turned solver order seeds (done ++ [item]) (solver.process order item
          { state with work := rest, iterations := state.iterations + 1 })

/-- At the head of the loop the books are in order, and nothing owed is missing. -/
theorem Turned.stands (turned : solver.Turned order seeds done state) (regular : solver.Regular)
    (confines : solver.Confines seeds allowed) :
    solver.Stands (seeds.Silent solver.grammar) allowed done state := by
  induction turned with
  | start => exact ⟨start_ledger regular confines, joined_nil _ _⟩
  | turn _ popped stands =>
    obtain ⟨ledger, joined, -⟩ :=
      process_keeps regular confines.admits order stands.ledger stands.joined popped
    exact ⟨ledger, joined⟩

/-- Without an expired deadline, the loop ends with an empty worklist. -/
theorem exists_turned (regular : solver.Regular) (queued : solver.variant ≠ .batchSemiNaive)
    (seeds : SeedGraph) (order : LabelOrder) (unexpired : ∀ tick, deadline.expired tick = false) :
    ∃ done final, solver.Turned order seeds done final ∧ final.work.toList = [] ∧
      Loop.Ends (solver.step order deadline) (solver.start seeds) final ∧
      solver.solveInOrder order seeds deadline = .ok (solver.conclude seeds final) := by
  have confines := solver.confines_extent seeds
  obtain ⟨ran, dry, -⟩ := solveInOrder_eq_ok regular confines queued order unexpired
  obtain ⟨done, -, turned⟩ := run_keeps order deadline regular confines
    (motive := solver.Turned order seeds) .start (fun _ _ _ _ _ turned popped => turned.turn popped)
    (solver.itemBound seeds)
  refine ⟨done, _, turned, dry, ⟨Loop.leads_run _ _ _, ?_⟩, ran⟩
  simp only [step, Worklist.pop?_of_isEmpty ((Worklist.isEmpty_iff _).mpr dry)]

/-- Looking at an edge queues primary items only. -/
private theorem Works.primary (works : solver.Works edge before after)
    (primary : ∀ item ∈ before.work.toList, item.primary) : ∀ item ∈ after.work.toList, item.primary := by
  induction works with
  | refl => exact primary
  | tail _ addition ih =>
    obtain ⟨apart, new, adds, -⟩ := addition
    intro item listed
    obtain old | added := List.mem_append.mp (adds.queued.mem_iff.mp listed)
    · exact ih item old
    · obtain ⟨_, -, rfl⟩ := List.mem_map.mp added
      rfl

/-- Without closures, every item ever queued is a primary one. -/
theorem Turned.primary (turned : solver.Turned order seeds done state) (regular : solver.Regular)
    (plainly : ∀ symbol, ¬ solver.accelerates symbol) : ∀ item ∈ history done state, item.primary := by
  have confines := solver.confines_extent seeds
  induction turned with
  | start => exact fun item listed => (((start_seeded regular seeds).queued item).mp listed).1
  | @turn done state item rest turned popped primary =>
    have stands := turned.stands regular confines
    rw [history, Worklist.toList_of_pop? popped, List.forall_mem_append, List.forall_mem_cons] at primary
    obtain ⟨-, ⟨absorbed, -⟩ | ⟨-, works, -⟩⟩ :=
      process_cases regular confines.admits order stands.ledger popped
    · exact absurd absorbed.2.2 (plainly _)
    · rw [history, List.forall_mem_append, List.forall_mem_append, List.forall_mem_singleton]
      exact ⟨⟨primary.1, primary.2.1⟩, works.primary primary.2.2⟩

section Dry

variable (ledger : solver.Ledger silent allowed done state) (dry : state.work.toList = [])

include ledger dry

theorem Ledger.nodup_of_dry : done.Nodup := by
  have distinct := ledger.distinct
  rwa [history, dry, List.append_nil] at distinct

/-- When nothing is left, exactly the edges that are not silent have been taken. -/
theorem Ledger.mem_taken (edge : Edge) :
    edge ∈ done.map (·.edge) ↔ state.Stores edge ∧ ¬ silent edge := by
  have all : history done state = done := by rw [history, dry, List.append_nil]
  rw [List.mem_map]
  constructor
  · rintro ⟨item, taken, rfl⟩
    rw [← all] at taken
    exact ⟨ledger.stored item taken, ledger.audible item taken⟩
  · rintro ⟨stored, audible⟩
    obtain ⟨primary, listed⟩ := (ledger.listed edge stored).resolve_left audible
    exact ⟨_, all ▸ listed, rfl⟩

end Dry

theorem nodup_edges_of_primary (distinct : done.Nodup) (primary : ∀ item ∈ done, item.primary) :
    (done.map (·.edge)).Nodup := by
  refine distinct.map_on ?_
  rintro ⟨edge, first⟩ one ⟨other, second⟩ two rfl
  exact congrArg (WorkItem.mk edge) ((primary _ one).trans (primary _ two).symm)

theorem iterations_conclude (solver : Solver) (seeds : SeedGraph) (state : SolveState) :
    (solver.conclude seeds state).stats.iterations = state.iterations := by
  unfold conclude
  split <;> rfl

theorem totalEdges_conclude (valid : solver.Valid state) (seeds : SeedGraph) :
    (solver.conclude seeds state).stats.totalEdges = (solver.conclude seeds state).data.edges.length :=
  (Dataset.length_edges (valid_conclude valid seeds)).symm

/-- What a solve has done when it ends: the items it took, in order, and the result. -/
structure Tally (solver : Solver) (grammar : Grammar) (seeds : SeedGraph) (taken : List WorkItem)
    (result : SolveResult) : Prop where
  iterations : result.stats.iterations = taken.length
  distinct : taken.Nodup
  stored : ∀ item ∈ taken, result.data.contains item.edge
  bounded : result.stats.iterations ≤ 2 * result.stats.totalEdges
  once : solver.variant.usesClosure = false → (taken.map (·.edge)).Nodup ∧
    (∀ edge, edge ∈ taken.map (·.edge) ↔ result.data.contains edge ∧ ¬ seeds.Silent grammar edge) ∧
    result.stats.iterations + seeds.silentCount grammar result.data = result.stats.totalEdges

theorem Turned.tally (turned : solver.Turned order seeds done state) (prepared : solver.Prepared grammar variant)
    (dry : state.work.toList = []) :
    solver.Tally grammar seeds done (solver.conclude seeds state) := by
  have stands := turned.stands prepared.regular (solver.confines_extent seeds)
  have ledger := stands.ledger
  rw [prepared.silent_eq] at ledger
  have valid := valid_conclude ledger.valid seeds
  have taken : ∀ edge, edge ∈ done.map (·.edge) ↔
      (solver.conclude seeds state).data.contains edge ∧ ¬ seeds.Silent grammar edge := by
    intro edge
    rw [ledger.mem_taken dry, contains_conclude ledger.valid]
  have distinct := ledger.nodup_of_dry dry
  have iterations : (solver.conclude seeds state).stats.iterations = done.length :=
    (iterations_conclude solver seeds state).trans ledger.iterations
  have total := totalEdges_conclude ledger.valid seeds
  refine
    { iterations
      distinct
      stored := fun item listed => ((taken _).mp (List.mem_map_of_mem listed)).1
      bounded := ?_
      once := fun plain => ?_ }
  · rw [iterations, total]
    refine length_le_of_edges distinct fun edges distinct inside => ?_
    refine (distinct.subperm fun edge listed => ?_).length_le
    obtain ⟨item, there, rfl⟩ := inside edge listed
    exact (Dataset.mem_edges _ _).mpr ((taken _).mp (List.mem_map_of_mem there)).1
  · have plainly := prepared.not_accelerates (prepared.variant ▸ plain)
    have once := nodup_edges_of_primary distinct fun item listed =>
      turned.primary prepared.regular plainly item (List.mem_append_left _ listed)
    refine ⟨once, taken, ?_⟩
    rw [iterations, total, ← SeedGraph.length_add_silentCount valid once taken, List.length_map]

/-- Every worklist solve ends, whatever shortcuts are registered, and takes no item twice: an edge is
taken at most once as a primary item and once as a secondary one. Without closures, every edge is taken
just once, but for those that only a reflexive label put there. -/
theorem solve_turns (made : prepare grammar config = .ok solver) (queued : config.variant ≠ .batchSemiNaive)
    (brackets : List BracketRule) (seeds : SeedGraph) (order : LabelOrder)
    (unexpired : ∀ tick, deadline.expired tick = false) :
    (∀ done state, (solver.withBrackets brackets).Turned order seeds done state →
      (done ++ state.work.toList).Nodup) ∧
    ∃ taken final result, (solver.withBrackets brackets).Turned order seeds taken final ∧
      Loop.Ends ((solver.withBrackets brackets).step order deadline)
        ((solver.withBrackets brackets).start seeds) final ∧
      (solver.withBrackets brackets).solveInOrder order seeds deadline = .ok result ∧
      (solver.withBrackets brackets).Tally grammar seeds taken result := by
  have prepared := (prepared_of_prepare made).1.withBrackets brackets
  refine ⟨fun done state turned => ?_, ?_⟩
  · exact (turned.stands prepared.regular (confines_extent _ seeds)).ledger.distinct
  · obtain ⟨taken, final, turned, dry, ends, ran⟩ := exists_turned prepared.regular
      (prepared.variant ▸ queued) seeds order unexpired
    exact ⟨taken, final, _, turned, ends, ran, turned.tally prepared dry⟩

theorem solve_turns_path : ∃ (solver : Solver) (taken : List WorkItem) (result : SolveResult),
    prepare pathGrammar {} = .ok solver ∧
    (solver.withBrackets []).solveInOrder .ascending pathSeeds .unlimited = .ok result ∧
    result.stats.iterations = taken.length ∧ (taken.map (·.edge)).Nodup ∧
    result.stats.iterations + pathSeeds.silentCount pathGrammar result.data = result.stats.totalEdges := by
  have made : prepare pathGrammar {} = .ok _ := rfl
  have unexpired : ∀ tick, Deadline.unlimited.expired tick = false := fun _ => rfl
  obtain ⟨-, taken, -, result, -, -, ran, tally⟩ :=
    solve_turns made (by decide) [] pathSeeds .ascending unexpired
  obtain ⟨once, -, total⟩ := tally.once rfl
  exact ⟨_, taken, result, made, ran, tally.iterations, once, total⟩

end Solver

end GrammarReach
