import GrammarReach.Proofs.Counts
import GrammarReach.Proofs.Solve.Variants

/-!
What a solve reports about its edges.

All strategies find the same edges, so they count the same. The exception is the number of edges under
nonterminals: it goes by the grammar that the solver has kept, and a solver that hands a symbol to a
closure has given up the production of the symbol from two of itself. Where that was its only
production, its edges are not counted.
-/

namespace GrammarReach.Solver

variable {grammar : Grammar} {config config' : Config} {solver solver' : Solver} {variant : Variant}
  {seeds : SeedGraph} {result result' : SolveResult}

/-- The result of a solve is read off a final state whose data are in order. -/
theorem Prepared.exists_state (prepared : solver.Prepared grammar variant) {order : LabelOrder}
    {deadline : Deadline} (ran : solver.solveInOrder order seeds deadline = .ok result) :
    ∃ state : SolveState, state.data.Valid ∧ result = solver.result seeds state := by
  have ran := solveInOrder_unlimited ran
  by_cases batch : solver.variant = .batchSemiNaive
  · have single : ¬ solver.reduces := by simp [reduces, batch]
    simp only [solveInOrder, if_pos batch, solveGenerations] at ran
    rw [Generations.solve_eq_generation fun _ => rfl] at ran
    have stands := Generations.generation_stands solver.grammar seeds .unlimited
      (Generations.bound solver.grammar seeds)
    refine ⟨ofGenerations _, stands.full, ?_⟩
    rw [← Except.ok.inj ran, conclude_of_not_reduces single]
  · have unexpired : ∀ tick, Deadline.unlimited.expired tick = false := fun _ => rfl
    obtain ⟨solved, -, done, stands⟩ :=
      solveInOrder_eq_ok prepared.regular (solver.confines_extent seeds) batch order unexpired
    obtain rfl := Except.ok.inj (ran.symm.trans solved)
    exact ⟨_, valid_conclude stands.ledger.valid seeds, rfl⟩

/-- Without shortcuts, a solve reports on a final state that holds exactly the solution. -/
theorem Prepared.solve_result (prepared : solver.Prepared grammar variant) (ruled : grammar.SelfRuled)
    (indexed : seeds.IndexedBy grammar) (none : solver.brackets = []) (order : LabelOrder)
    {deadline : Deadline} (unexpired : ∀ tick, deadline.expired tick = false) :
    ∃ state : SolveState, state.data.Valid ∧
      solver.solveInOrder order seeds deadline = .ok (solver.result seeds state) ∧
      ∀ edge, state.data.contains edge ↔ seeds.Solution grammar edge := by
  obtain ⟨result, ran, found⟩ :=
    prepared.solve_exact ruled indexed (implied_of_none none) order unexpired
  obtain ⟨state, valid, rfl⟩ := prepared.exists_state ran
  exact ⟨state, valid, ran, found⟩

/-- Whether a symbol heads a production that the solver has kept. For a symbol with a closure, that is
one apart from the production of the symbol from two of itself. -/
def headsKept (solver : Solver) (grammar : Grammar) (symbol : Symbol) : Bool :=
  if solver.accelerates symbol then (grammar.removeSelfRule symbol).1.nonterminals.contains symbol
  else grammar.nonterminals.contains symbol

theorem Prepared.contains_nonterminals (prepared : solver.Prepared grammar variant) (symbol : Symbol) :
    solver.grammar.nonterminals.contains symbol = solver.headsKept grammar symbol := by
  rw [Bool.eq_iff_iff, headsKept]
  have kept : ∀ rule : BinaryRule, rule.lhs = symbol →
      ((∀ other, solver.accelerates other → rule ≠ ⟨other, other, other⟩) ↔
        (solver.accelerates symbol → rule ≠ ⟨symbol, symbol, symbol⟩)) := by
    rintro rule rfl
    refine ⟨fun none => none rule.lhs, fun own other accelerated same => ?_⟩
    obtain rfl : rule.lhs = other := congrArg BinaryRule.lhs same
    exact own accelerated same
  split
  · next accelerated =>
    simp only [← Std.TreeSet.mem_iff_contains, Grammar.mem_nonterminals, prepared.nullable,
      prepared.unary, prepared.binary, Grammar.removeSelfRule, List.mem_filter, bne_iff_ne]
    refine and_congr_right fun _ => or_congr_right (or_congr_right (exists_congr fun rule => ?_))
    rw [and_assoc, and_assoc]
    refine and_congr_right fun _ => and_congr_left fun heads => ?_
    rw [kept rule heads, forall_prop_of_true accelerated]
  · next slow =>
    simp only [← Std.TreeSet.mem_iff_contains, Grammar.mem_nonterminals, prepared.nullable,
      prepared.unary, prepared.binary]
    refine and_congr_right fun _ => or_congr_right (or_congr_right (exists_congr fun rule => ?_))
    refine and_congr_left fun heads => and_iff_left ?_
    exact (kept rule heads).mpr fun accelerated => absurd accelerated slow

/-- A symbol that heads a production besides that from two of itself is counted as the nonterminal that
it is. -/
theorem headsKept_eq {symbol : Symbol} (heads : solver.accelerates symbol →
    (grammar.removeSelfRule symbol).1.nonterminals.contains symbol) :
    solver.headsKept grammar symbol = grammar.nonterminals.contains symbol := by
  rw [headsKept]
  split
  · next accelerated =>
    have kept := heads accelerated
    rw [kept, eq_comm, ← Std.TreeSet.mem_iff_contains, Grammar.mem_nonterminals]
    rw [← Std.TreeSet.mem_iff_contains, Grammar.mem_nonterminals] at kept
    refine ⟨kept.1, kept.2.imp_right (Or.imp_right ?_)⟩
    rintro ⟨rule, listed, same⟩
    exact ⟨rule, List.mem_of_mem_filter listed, same⟩
  · rfl

/-- The edges that a result counts as derived are those whose symbol heads a production that the solver
has kept. -/
theorem Prepared.summaryEdges_eq (prepared : solver.Prepared grammar variant) (seeds : SeedGraph)
    {state : SolveState} (valid : state.data.Valid) : (solver.result seeds state).stats.summaryEdges =
      state.data.edges.countP fun edge => solver.headsKept grammar edge.label.symbol := by
  change summaryEdges solver.grammar state.data = _
  rw [summaryEdges, (Dataset.symbolCounts_tallies valid).foldl_eq_countP, List.countP_map]
  exact List.countP_congr fun edge _ => by
    rw [Function.comp_apply, prepared.contains_nonterminals]

/-- Counters that say the same about the edges found. -/
structure SameCounts (stats others : SolverStats) : Prop where
  totalEdges : stats.totalEdges = others.totalEdges
  symbolCounts : stats.symbolCounts = others.symbolCounts
  countSymbol : stats.countSymbol = others.countSymbol
  countPairs : stats.countPairs = others.countPairs

/-- Two solvers that name their symbols alike report the same counts on the same edges. -/
theorem sameCounts {state state' : SolveState} (names : solver.grammar.names = solver'.grammar.names)
    (reporting : solver.countSymbol? = solver'.countSymbol?) (valid : state.data.Valid)
    (valid' : state'.data.Valid) (same : ∀ edge, state.data.contains edge ↔ state'.data.contains edge) :
    SameCounts (solver.result seeds state).stats (solver'.result seeds state').stats := by
  have perm := Dataset.edges_perm valid valid' same
  have named : solver.grammar.nameOrFault = solver'.grammar.nameOrFault := by
    funext symbol
    simp only [Grammar.nameOrFault, Grammar.name?, names]
  constructor
  · change state.data.edgeCount = state'.data.edgeCount
    rw [← Dataset.length_edges valid, ← Dataset.length_edges valid', perm.length_eq]
  · change namedCounts solver.grammar state.data = namedCounts solver'.grammar state'.data
    have counts := (Dataset.symbolCounts_tallies valid).toList_eq
      ((Dataset.symbolCounts_tallies valid').perm (perm.map _).symm)
    simp only [namedCounts, Std.TreeMap.foldl_eq_foldl_toList, counts, named]
  · change solver.countSymbol?.map solver.grammar.nameOrFault =
      solver'.countSymbol?.map solver'.grammar.nameOrFault
    rw [reporting, named]
  · change ((solver.countSymbol?.elim [] state.data.pairs).filter _).length =
      ((solver'.countSymbol?.elim [] state'.data.pairs).filter _).length
    rw [reporting]
    cases solver'.countSymbol? with
    | none => rfl
    | some symbol => exact ((Dataset.pairs_perm valid valid' same symbol).filter _).length_eq

/-- The same solver, with another symbol to report on if one is given. -/
def reportingOn (solver : Solver) (override? : Option (Option Symbol)) : Solver :=
  override?.elim solver solver.withCountSymbol

theorem Prepared.reportingOn (prepared : solver.Prepared grammar variant)
    (override? : Option (Option Symbol)) : (solver.reportingOn override?).Prepared grammar variant := by
  cases override? with
  | none => exact prepared
  | some count? => exact prepared.withCountSymbol count?

@[simp] theorem brackets_reportingOn (solver : Solver) (override? : Option (Option Symbol)) :
    (solver.reportingOn override?).brackets = solver.brackets := by
  cases override? <;> rfl

@[simp] theorem headsKept_reportingOn (solver : Solver) (override? : Option (Option Symbol)) :
    (solver.reportingOn override?).headsKept = solver.headsKept := by
  cases override? <;> rfl

/-- What a solver reports on is a matter of its configuration and its grammar. -/
theorem countSymbol?_of_prepare (made : prepare grammar config = .ok solver) :
    solver.countSymbol? = config.countSymbol.elim grammar.start? grammar.find? := by
  cases counted : config.countSymbol with
  | none =>
    simp only [prepare, counted, bind, Except.bind, pure, Except.pure] at made
    repeat' split at made
    all_goals cases made
    all_goals rfl
  | some name =>
    rw [Option.elim_some]
    simp only [prepare, counted, Grammar.lookup, bind, Except.bind, pure, Except.pure] at made
    cases found : grammar.find? name with
    | none =>
      simp only [found, Functor.map, Except.map] at made
      repeat' split at made
      all_goals cases made
    | some symbol =>
      simp only [found, Functor.map, Except.map] at made
      repeat' split at made
      all_goals cases made
      all_goals rfl

/-- Whatever the strategies of two solves with one count symbol, they report the same counts. The edges
that they count as derived are those under symbols that head a production which the solver has kept:
the nonterminals, as long as every symbol with a closure heads another production. -/
theorem solve_counts (built : grammar.Built) (indexed : seeds.IndexedBy grammar)
    (made : prepare grammar config = .ok solver) (made' : prepare grammar config' = .ok solver')
    (setting : config.countSymbol = config'.countSymbol) (override? : Option (Option Symbol))
    (order order' : LabelOrder) {deadline deadline' : Deadline}
    (unexpired : ∀ tick, deadline.expired tick = false)
    (unexpired' : ∀ tick, deadline'.expired tick = false) :
    ∃ result result',
      (solver.reportingOn override?).solveInOrder order seeds deadline = .ok result ∧
      (solver'.reportingOn override?).solveInOrder order' seeds deadline' = .ok result' ∧
      SameCounts result.stats result'.stats ∧
      (result.stats.summaryEdges =
        result.data.edges.countP fun edge => solver.headsKept grammar edge.label.symbol) ∧
      ((∀ symbol, solver.accelerates symbol ∨ solver'.accelerates symbol →
          (grammar.removeSelfRule symbol).1.nonterminals.contains symbol) →
        result.stats.summaryEdges = result'.stats.summaryEdges ∧
        result.stats.summaryEdges =
          result.data.edges.countP fun edge => grammar.nonterminals.contains edge.label.symbol) := by
  obtain ⟨prepared, none⟩ := prepared_of_prepare made
  obtain ⟨prepared', none'⟩ := prepared_of_prepare made'
  have reporting : (solver.reportingOn override?).countSymbol? =
      (solver'.reportingOn override?).countSymbol? := by
    cases override? with
    | none =>
      change solver.countSymbol? = solver'.countSymbol?
      rw [countSymbol?_of_prepare made, countSymbol?_of_prepare made', setting]
    | some count? => rfl
  have ready := prepared.reportingOn override?
  have ready' := prepared'.reportingOn override?
  obtain ⟨state, valid, ran, found⟩ := ready.solve_result built.selfRuled indexed
    ((solver.brackets_reportingOn override?).trans none) order unexpired
  obtain ⟨state', valid', ran', found'⟩ := ready'.solve_result built.selfRuled indexed
    ((solver'.brackets_reportingOn override?).trans none') order' unexpired'
  have same : ∀ edge, state.data.contains edge ↔ state'.data.contains edge := fun edge =>
    (found edge).trans (found' edge).symm
  have summary := ready.summaryEdges_eq seeds valid
  have summary' := ready'.summaryEdges_eq seeds valid'
  rw [headsKept_reportingOn] at summary summary'
  refine ⟨_, _, ran, ran', sameCounts (ready.names.trans ready'.names.symm) reporting valid valid' same,
    summary, fun heads => ?_⟩
  have whole : solver.headsKept grammar = grammar.nonterminals.contains :=
    funext fun symbol => headsKept_eq fun accelerated => heads symbol (.inl accelerated)
  have whole' : solver'.headsKept grammar = grammar.nonterminals.contains :=
    funext fun symbol => headsKept_eq fun accelerated => heads symbol (.inr accelerated)
  rw [summary, summary', whole, whole']
  exact ⟨(Dataset.edges_perm valid valid' same).countP_eq _, rfl⟩

/-- The grammar with one transitive symbol that heads another production, too. -/
def chainGrammar : Grammar := pathGrammar.addRule "A" ["a"]

def chainSeeds : SeedGraph := .ofEdges [⟨1, 2, .plain 2⟩, ⟨2, 3, .plain 2⟩]

theorem solve_counts_chain : ∃ solver solver' result result',
    prepare chainGrammar {} = .ok solver ∧ prepare chainGrammar { variant := .focr } = .ok solver' ∧
    solver.solveInOrder .ascending chainSeeds .unlimited = .ok result ∧
    solver'.solveInOrder .ascending chainSeeds .unlimited = .ok result' ∧
    SameCounts result.stats result'.stats ∧ result.stats.summaryEdges = result'.stats.summaryEdges := by
  have built : chainGrammar.Built := .addRule "A" ["a"] (.addRule "A" ["A", "A"] .empty)
  have indexed : chainSeeds.IndexedBy chainGrammar := ⟨by decide, by decide⟩
  have made : prepare chainGrammar {} = .ok _ := rfl
  have made' : prepare chainGrammar { variant := .focr } = .ok _ := rfl
  have unexpired : ∀ tick, Deadline.unlimited.expired tick = false := fun _ => rfl
  obtain ⟨result, result', ran, ran', same, -, summary⟩ := solve_counts built indexed made made' rfl none
    .ascending .ascending unexpired unexpired
  refine ⟨_, _, result, result', made, made', ran, ran', same, (summary ?_).1⟩
  rintro symbol (accelerated | accelerated)
  · exact absurd accelerated ((prepared_of_prepare made).1.not_accelerates rfl symbol)
  · have transitive := (((prepared_of_prepare made').1.accelerates symbol).mp accelerated).2.1
    have only : chainGrammar.transitive.toList = [1] := by decide +kernel
    rw [Grammar.isTransitive, ← Std.TreeSet.mem_iff_contains, ← Std.TreeSet.mem_toList, only,
      List.mem_singleton] at transitive
    subst transitive
    decide +kernel

def stats? (grammar : Grammar) (config : Config) (seeds : SeedGraph) : Option SolverStats := do
  let solver ← (prepare grammar config).toOption
  let result ← (solver.solveInOrder .ascending seeds .unlimited).toOption
  return result.stats

/-- Where a transitive symbol has no other production, the strategies do not agree on how many edges
are under nonterminals: with a closure for it, its edges are left out. -/
theorem summaryEdges_lost_path : pathGrammar.Built ∧ pathSeeds.IndexedBy pathGrammar ∧
    pathGrammar.nonterminals.contains 1 ∧
    (stats? pathGrammar {} pathSeeds).map (·.summaryEdges) = some 3 ∧
    (stats? pathGrammar { variant := .focr } pathSeeds).map (·.totalEdges) = some 3 ∧
    (stats? pathGrammar { variant := .focr } pathSeeds).map (·.summaryEdges) = some 0 :=
  ⟨.addRule "A" ["A", "A"] .empty, indexedBy_path, by decide +kernel, by decide +kernel,
    by decide +kernel, by decide +kernel⟩

end GrammarReach.Solver
