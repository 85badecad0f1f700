import GrammarReach.Proofs.Solve.Generations
import GrammarReach.Proofs.Solve.Reduction

namespace GrammarReach.Solver

variable {grammar : Grammar} {solver : Solver} {variant : Variant} {seeds : SeedGraph}

/-- Where no symbol has a closure, nothing was taken out of the grammar. -/
theorem Prepared.solution_iff (prepared : solver.Prepared grammar variant)
    (never : ∀ symbol, ¬ solver.accelerates symbol) (edge : Edge) :
    seeds.Solution solver.grammar edge ↔ seeds.Solution grammar edge := by
  have binary : ∀ left right, ∀ label, label ∈ solver.grammar.derivedBinary left right ↔
      label ∈ grammar.derivedBinary left right := by
    intro left right label
    rw [prepared.mem_derivedBinary]
    exact and_iff_left fun accelerated => never _ accelerated.1
  have initial := prepared.initial_iff seeds
  have silent := prepared.silent_iff seeds
  constructor
  · rintro (quiet | derived)
    · exact .inl ((silent edge).mp quiet)
    · refine derived.least (fun other start => .inr (.initial ((initial other).mp start)))
        (fun other quiet => .inl ((silent other).mp quiet)) ?_ ?_
      · intro other inside audible label rule
        rw [silent] at audible
        rw [prepared.derivedUnary] at rule
        exact inside.alone audible rule
      · intro left right first second audible meets label rule
        rw [silent, silent] at audible
        exact first.join second audible meets ((binary _ _ _).mp rule)
  · rintro (quiet | derived)
    · exact .inl ((silent edge).mpr quiet)
    · refine derived.least (fun other start => .inr (.initial ((initial other).mpr start)))
        (fun other quiet => .inl ((silent other).mpr quiet)) ?_ ?_
      · intro other inside audible label rule
        rw [← silent] at audible
        rw [← prepared.derivedUnary] at rule
        exact inside.alone audible rule
      · intro left right first second audible meets label rule
        rw [← silent, ← silent] at audible
        exact first.join second audible meets ((binary _ _ _).mpr rule)

theorem Prepared.exact_batch (prepared : solver.Prepared grammar .batchSemiNaive) (order : LabelOrder)
    {deadline : Deadline} (unexpired : ∀ tick, deadline.expired tick = false) :
    ∃ result, solver.solveInOrder order seeds deadline = .ok result ∧
      ∀ edge, result.data.contains edge ↔ seeds.Solution grammar edge := by
  obtain ⟨final, ran, found⟩ := Generations.solve_exact solver.grammar seeds unexpired
  have never := prepared.not_accelerates rfl
  refine ⟨solver.conclude seeds (ofGenerations final), ?_, fun edge => ?_⟩
  · simp only [solveInOrder, if_pos prepared.variant, solveGenerations, ran]
    rfl
  · rw [← prepared.solution_iff never, ← found]
    have whole : ¬ solver.reduces := by simp [reduces, prepared.variant]
    rw [conclude_of_not_reduces whole]
    rfl

/-- Whatever the strategy, a solve finds exactly the solution. -/
theorem Prepared.solve_exact (prepared : solver.Prepared grammar variant) (ruled : grammar.SelfRuled)
    (indexed : seeds.IndexedBy grammar) (implied : solver.Implied seeds grammar) (order : LabelOrder)
    {deadline : Deadline} (unexpired : ∀ tick, deadline.expired tick = false) :
    ∃ result, solver.solveInOrder order seeds deadline = .ok result ∧
      ∀ edge, result.data.contains edge ↔ seeds.Solution grammar edge := by
  cases variant with
  | standard => exact prepared.exact_standard implied order unexpired
  | pocr => exact prepared.exact_accelerated rfl ruled indexed implied order unexpired
  | hierarchicalPocr => exact prepared.exact_accelerated rfl ruled indexed implied order unexpired
  | focr => exact prepared.exact_accelerated rfl ruled indexed implied order unexpired
  | transitiveReduction => exact prepared.exact_reduced indexed implied order unexpired
  | batchSemiNaive => exact prepared.exact_batch order unexpired

/-- A deadline that has not stopped a solve has not changed it. -/
theorem solveInOrder_unlimited {order : LabelOrder} {deadline : Deadline} {result : SolveResult}
    (ran : solver.solveInOrder order seeds deadline = .ok result) :
    solver.solveInOrder order seeds .unlimited = .ok result := by
  unfold solveInOrder at ran ⊢
  by_cases batch : solver.variant = .batchSemiNaive
  · simp only [if_pos batch, solveGenerations] at ran ⊢
    cases solved : Generations.solve solver.grammar seeds deadline with
    | error fault => simp [solved, bind, Except.bind] at ran
    | ok final =>
      rw [solved] at ran
      rwa [Generations.solve_unlimited solved]
  · simp only [if_neg batch] at ran ⊢
    cases saturated : solver.saturate order seeds deadline with
    | error fault => simp [saturated, bind, Except.bind] at ran
    | ok state =>
      rw [saturated] at ran
      rwa [saturate_unlimited saturated]

/-- Whatever deadline a solve has kept, it has found exactly the solution. -/
theorem Prepared.solution_of_ok (prepared : solver.Prepared grammar variant)
    (ruled : grammar.SelfRuled) (indexed : seeds.IndexedBy grammar)
    (implied : solver.Implied seeds grammar) {order : LabelOrder} {deadline : Deadline}
    {result : SolveResult} (ran : solver.solveInOrder order seeds deadline = .ok result) (edge : Edge) :
    result.data.contains edge ↔ seeds.Solution grammar edge := by
  have unexpired : ∀ tick, Deadline.unlimited.expired tick = false := fun _ => rfl
  obtain ⟨whole, solved, found⟩ := prepared.solve_exact ruled indexed implied order unexpired
  obtain rfl := Except.ok.inj ((solveInOrder_unlimited ran).symm.trans solved)
  exact found edge

/-- Solving by generations comes to an end and finds what the standard strategy finds. No edge is in
two generations, so there are no more of them than edges. -/
theorem solve_generations (grammar : Grammar) (seeds : SeedGraph) {deadline : Deadline}
    (unexpired : ∀ tick, deadline.expired tick = false) :
    ∃ final, Generations.solve grammar seeds deadline = .ok final ∧
      (∀ {config : Config} {solver : Solver} (order : LabelOrder) {plainDeadline : Deadline},
        prepare grammar config = .ok solver → config.variant = .standard →
        (∀ tick, plainDeadline.expired tick = false) →
        ∃ expected, solver.solveInOrder order seeds plainDeadline = .ok expected ∧
          ∀ edge, final.full.contains edge ↔ expected.data.contains edge) ∧
      (∀ early late, early < late → ∀ edge,
        (Generations.generation grammar seeds deadline early).delta.contains edge →
          ¬ (Generations.generation grammar seeds deadline late).delta.contains edge) ∧
      (∀ number, number < final.count ↔
        ¬ (Generations.generation grammar seeds deadline number).delta.isEmpty) ∧
      final.count ≤ final.full.edgeCount := by
  obtain ⟨final, ran, found⟩ := Generations.solve_exact grammar seeds unexpired
  have last := Except.ok.inj (ran.symm.trans (Generations.solve_eq_generation unexpired))
  refine ⟨final, ran, fun {config solver} order {plainDeadline} made standard plainUnexpired => ?_,
    fun early late earlier edge listed => ?_, fun number => ?_, ?_⟩
  · obtain ⟨prepared, none⟩ := prepared_of_prepare made
    rw [standard] at prepared
    have implied : solver.Implied seeds grammar := implied_of_none none
    obtain ⟨expected, plainRan, plainFound⟩ := prepared.exact_standard implied order plainUnexpired
    exact ⟨expected, plainRan, fun edge => (found edge).trans (plainFound edge).symm⟩
  · have stands := Generations.generation_stands grammar seeds deadline early
    exact (Generations.generation_fresh unexpired earlier (stands.inside edge listed)).2
  · rw [last, Generations.lt_count_generation unexpired]
    refine and_iff_right_of_imp fun nonempty => ?_
    -- A generation at the bound or later is the empty one.
    by_contra late
    have same := Generations.generation_of_isEmpty unexpired (Nat.not_lt.mp late)
      (Generations.isEmpty_generation_bound unexpired)
    exact nonempty (same ▸ Generations.isEmpty_generation_bound unexpired)
  · rw [last]
    exact Generations.count_generation_le grammar seeds deadline _

theorem solve_generations_path : ∃ solver final expected,
    prepare pathGrammar {} = .ok solver ∧
    Generations.solve pathGrammar pathSeeds .unlimited = .ok final ∧
    solver.solveInOrder .ascending pathSeeds .unlimited = .ok expected ∧
    final.full.contains ⟨1, 3, .plain 1⟩ ∧ expected.data.contains ⟨1, 3, .plain 1⟩ ∧
    final.count ≤ final.full.edgeCount := by
  have made : prepare pathGrammar {} = .ok _ := rfl
  have unexpired : ∀ tick, Deadline.unlimited.expired tick = false := fun _ => rfl
  obtain ⟨final, ran, same, -, -, few⟩ := solve_generations pathGrammar pathSeeds unexpired
  obtain ⟨expected, plainRan, agree⟩ := same .ascending made rfl unexpired
  obtain ⟨final', ran', found⟩ := Generations.solve_exact pathGrammar pathSeeds unexpired
  obtain rfl : final = final' := Except.ok.inj (ran.symm.trans ran')
  have stored := (found _).mpr (.inr derives_path)
  exact ⟨_, final, expected, made, ran, plainRan, stored, (agree _).mp stored, few⟩

end GrammarReach.Solver
