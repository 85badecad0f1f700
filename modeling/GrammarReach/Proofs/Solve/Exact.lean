import GrammarReach.Proofs.Grammar
import GrammarReach.Proofs.Solve.Prepare

namespace GrammarReach

namespace SeedGraph

/-- No label of the seeds bears an index unless its symbol is variant. -/
structure IndexedBy (seeds : SeedGraph) (grammar : Grammar) : Prop where
  edges : ∀ edge ∈ seeds.edges, grammar.isVariant edge.label.symbol = false → edge.label.index = 0
  reflexive : ∀ label ∈ seeds.reflexive, grammar.isVariant label.symbol = false → label.index = 0

variable {seeds : SeedGraph} {grammar : Grammar} {edge : Edge}

theorem Solution.not_isFault (inside : seeds.Solution grammar edge) : ¬ edge.label.isFault := by
  rcases inside with silent | derived
  · exact silent.1
  · cases derived with
    | initial start => exact start.1
    | alone _ rule _ => exact grammar.not_isFault_of_mem_derivedUnary rule
    | both _ _ _ rule _ => exact grammar.not_isFault_of_mem_derivedBinary rule
    | beforeSilent _ _ _ rule _ => exact grammar.not_isFault_of_mem_derivedBinary rule
    | behindSilent _ _ _ rule _ => exact grammar.not_isFault_of_mem_derivedBinary rule

theorem IndexedBy.initial (indexed : seeds.IndexedBy grammar) (start : seeds.Initial grammar edge) :
    grammar.Plain edge.label := by
  obtain ⟨-, listed | ⟨node, -, symbol, -, rfl⟩⟩ := start
  · exact grammar.plain_of_index (indexed.edges edge listed)
  · exact fun _ => rfl

theorem IndexedBy.silent (indexed : seeds.IndexedBy grammar) (silent : seeds.Silent grammar edge) :
    grammar.Plain edge.label := by
  obtain ⟨-, -, node, -, label, reflexive, rfl⟩ := silent
  exact grammar.plain_of_index (indexed.reflexive label reflexive)

/-- In a solution, too, no label bears an index unless its symbol is variant. -/
theorem Solution.plain (indexed : seeds.IndexedBy grammar) (inside : seeds.Solution grammar edge) :
    grammar.Plain edge.label := by
  rcases inside with silent | derived
  · exact indexed.silent silent
  · cases derived with
    | initial start => exact indexed.initial start
    | alone _ rule _ => exact grammar.plain_of_mem_derivedUnary rule
    | both _ _ _ rule _ => exact grammar.plain_of_mem_derivedBinary rule
    | beforeSilent _ _ _ rule _ => exact grammar.plain_of_mem_derivedBinary rule
    | behindSilent _ _ _ rule _ => exact grammar.plain_of_mem_derivedBinary rule

/-- Under a transitive symbol without indices, a solution is transitive. -/
theorem Solution.chain {symbol : Symbol} (unvaried : grammar.isVariant symbol = false)
    (rule : ⟨symbol, symbol, symbol⟩ ∈ grammar.binary) {u v w : Node}
    (first : seeds.Solution grammar ⟨u, v, .plain symbol⟩)
    (second : seeds.Solution grammar ⟨v, w, .plain symbol⟩) :
    seeds.Solution grammar ⟨u, w, .plain symbol⟩ := by
  by_cases start : u = v
  · exact start ▸ second
  · have audible : ¬ seeds.Silent grammar ⟨u, v, .plain symbol⟩ := by
      rintro ⟨-, -, node, -, label, -, same⟩
      obtain ⟨rfl, rfl, -⟩ := Edge.mk.inj same
      exact start rfl
    refine first.join second (.inl audible) rfl ((grammar.mem_derivedBinary _ _ _).mpr
      ⟨by simp [Grammar.agree, Label.plain, unvaried], _, rule, rfl, rfl, ?_,
        (grammar.inherit_of_not_isVariant unvaried _).symm⟩)
    exact fun fault => first.not_isFault ((isFault_iff _).mpr fault)

end SeedGraph

namespace Solver

open SeedGraph

variable {grammar : Grammar} {config : Config} {solver : Solver} {variant : Variant} {seeds : SeedGraph}

/-- What the shortcuts of a solver derive is in the solution anyway. -/
def Implied (solver : Solver) (seeds : SeedGraph) (grammar : Grammar) : Prop :=
  ∀ rule ∈ solver.brackets, ∀ (opening inner : Label) (parent src dst child : Node),
    opening.symbol = rule.opening → inner.symbol = rule.inner →
    seeds.Solution grammar ⟨parent, src, opening⟩ → seeds.Solution grammar ⟨src, dst, inner⟩ →
    seeds.Solution grammar ⟨dst, child, solver.grammar.label rule.closing opening.index⟩ →
    seeds.Solution grammar ⟨parent, child, .plain rule.result⟩

theorem implied_of_none (none : solver.brackets = []) : solver.Implied seeds grammar := by
  intro rule listed
  simp [none] at listed

/-- A pair that a symbol with a closure derives from two of itself stays within the extent of the
seeds, although the production is gone. -/
private theorem Prepared.solution_within (prepared : solver.Prepared grammar variant) {edge : Edge}
    (inside : seeds.Solution grammar edge) : seeds.Within solver.grammar solver.brackets edge := by
  have binary : ∀ left right : Edge, seeds.Within solver.grammar solver.brackets left →
      seeds.Within solver.grammar solver.brackets right →
      ∀ label ∈ grammar.derivedBinary left.label right.label,
        seeds.Within solver.grammar solver.brackets ⟨left.src, right.dst, label⟩ := by
    intro left right first second label rule
    by_cases kept : label ∈ solver.grammar.derivedBinary left.label right.label
    · exact first.join second kept
    · rw [prepared.mem_derivedBinary, and_iff_right rule, not_not] at kept
      obtain ⟨accelerated, same, -⟩ := kept
      refine ⟨first.src, second.dst, ?_, ?_⟩
      · rw [same]
        exact first.symbol
      · rw [grammar.plain_of_mem_derivedBinary rule ((prepared.accelerates _).mp accelerated).2.2]
        exact List.mem_cons_self
  rcases inside with silent | derived
  · exact within_silent ((prepared.silent_iff seeds edge).mpr silent)
  · refine derived.least (fun other start => within_initial ((prepared.initial_iff seeds other).mpr start))
      (fun other quiet => within_silent ((prepared.silent_iff seeds other).mpr quiet))
      (fun other inside _ label rule => ?_)
      fun left right first second _ _ label rule => binary left right first second label rule
    rw [← prepared.derivedUnary] at rule
    exact inside.alone rule

/-- A solve cannot leave the solution. -/
theorem Prepared.confines (prepared : solver.Prepared grammar variant)
    (implied : solver.Implied seeds grammar)
    (ruled : ∀ symbol, solver.accelerates symbol → ⟨symbol, symbol, symbol⟩ ∈ grammar.binary)
    (plain : ∀ edge, seeds.Solution grammar edge → solver.accelerates edge.label.symbol →
      edge.label = .plain edge.label.symbol) :
    solver.Confines seeds (seeds.Solution grammar) where
  admits := by
    rw [prepared.silent_eq]
    refine
      { alone := fun edge inside audible label rule => ?_
        join := fun left right first second audible meets label rule => ?_
        chain := fun left right accelerated like u v w _ first second => ?_
        bracket := implied
        loop := fun _ quiet => quiet.loop }
    · rw [prepared.derivedUnary] at rule
      exact inside.alone audible rule
    · exact first.join second audible meets ((prepared.mem_derivedBinary _ _ _).mp rule).1
    · have ownLeft : left = .plain left.symbol := plain _ first accelerated
      have ownRight : right = .plain right.symbol := plain _ second (like ▸ accelerated)
      rw [like, ← ownLeft] at ownRight
      subst ownRight
      rw [ownLeft] at first second ⊢
      exact and_self_iff.mpr (first.chain ((prepared.accelerates _).mp accelerated).2.2
        (ruled _ accelerated) second)
  initial edge start := .inr (.initial ((prepared.initial_iff seeds edge).mp start))
  silent edge quiet := .inl ((prepared.silent_iff seeds edge).mp quiet)
  within _ inside := prepared.solution_within inside

/-- A state that misses nothing stores the whole solution. -/
theorem Prepared.stores_solution (prepared : solver.Prepared grammar variant) {state : SolveState}
    (plain : ∀ edge, seeds.Solution grammar edge → solver.accelerates edge.label.symbol →
      edge.label = .plain edge.label.symbol)
    (permitted : ∀ edge, state.Stores edge → seeds.Solution grammar edge)
    (closed : solver.Closed (seeds.Silent grammar) state)
    (initial : ∀ edge, seeds.Initial grammar edge → state.Stores edge)
    (quiet : ∀ edge, seeds.Silent grammar edge → state.Stores edge)
    (reduced : ∀ left right, state.Stores left → state.Stores right → left.dst = right.src →
      ∀ label ∈ solver.grammar.derivedBinary left.label right.label,
        solver.isReduced left.label right.label label → state.Stores ⟨left.src, right.dst, label⟩)
    {edge : Edge} (inside : seeds.Solution grammar edge) : state.Stores edge := by
  rcases inside with silent | derived
  · exact quiet edge silent
  · refine derived.least initial quiet (fun other inside audible label rule => ?_)
      fun left right first second audible meets label rule => ?_
    · rw [← prepared.derivedUnary] at rule
      exact closed.alone other inside audible label rule
    · by_cases kept : label ∈ solver.grammar.derivedBinary left.label right.label
      · by_cases whole : solver.isReduced left.label right.label label
        · exact reduced left right first second meets label kept whole
        · exact closed.join left right first second audible meets label kept whole
      · rw [prepared.mem_derivedBinary, and_iff_right rule, not_not] at kept
        obtain ⟨accelerated, atLeft, atRight⟩ := kept
        have unvaried := ((prepared.accelerates _).mp accelerated).2.2
        have ownLabel : label = .plain label.symbol := grammar.plain_of_mem_derivedBinary rule unvaried
        have leftLabel := plain left (permitted left first) (atLeft ▸ accelerated)
        have rightLabel := plain right (permitted right second) (atRight ▸ accelerated)
        rw [← atLeft] at leftLabel
        rw [← atRight] at rightLabel
        rw [ownLabel]
        refine closed.chain _ accelerated left.src left.dst right.dst ?_ ?_
        · rwa [← leftLabel]
        · rwa [meets, ← rightLabel]

/-- A worklist solve that keeps nothing apart finds exactly the solution. -/
theorem Prepared.exact (prepared : solver.Prepared grammar variant)
    (implied : solver.Implied seeds grammar)
    (ruled : ∀ symbol, solver.accelerates symbol → ⟨symbol, symbol, symbol⟩ ∈ grammar.binary)
    (plain : ∀ edge, seeds.Solution grammar edge → solver.accelerates edge.label.symbol →
      edge.label = .plain edge.label.symbol)
    (queued : solver.variant ≠ .batchSemiNaive) (whole : ¬ solver.reduces) (order : LabelOrder)
    {deadline : Deadline} (unexpired : ∀ tick, deadline.expired tick = false) :
    ∃ result, solver.solveInOrder order seeds deadline = .ok result ∧
      ∀ edge, result.data.contains edge ↔ seeds.Solution grammar edge := by
  have confines := prepared.confines implied ruled plain
  obtain ⟨ran, dry, done, stands⟩ :=
    solveInOrder_eq_ok prepared.regular confines queued order unexpired
  have initial : ∀ edge, seeds.Initial solver.grammar edge → SolveState.Stores _ edge := fun _ =>
    run_stores_initial order deadline prepared.regular confines (solver.itemBound seeds)
  set final := Loop.run (solver.step order deadline) (solver.itemBound seeds) (solver.start seeds)
  have ledger := stands.ledger
  have closed := ledger.closed prepared.regular confines.admits stands.joined dry
    fun edge stored => plain edge (ledger.permitted edge stored)
  rw [prepared.silent_eq] at ledger closed
  refine ⟨_, ran, fun edge => (contains_conclude ledger.valid seeds edge).trans
    ⟨ledger.permitted edge, prepared.stores_solution plain ledger.permitted closed ?_ ?_ ?_⟩⟩
  · intro other start
    exact initial other ((prepared.initial_iff seeds other).mpr start)
  · intro other silent
    exact .inl (ledger.quiet other silent)
  · intro left right _ _ _ label _ reduced
    simp [isReduced, whole] at reduced

theorem Prepared.exact_standard (prepared : solver.Prepared grammar .standard)
    (implied : solver.Implied seeds grammar) (order : LabelOrder) {deadline : Deadline}
    (unexpired : ∀ tick, deadline.expired tick = false) :
    ∃ result, solver.solveInOrder order seeds deadline = .ok result ∧
      ∀ edge, result.data.contains edge ↔ seeds.Solution grammar edge := by
  have plainly := prepared.not_accelerates rfl
  exact prepared.exact implied (fun symbol accelerated => absurd accelerated (plainly symbol))
    (fun edge _ accelerated => absurd accelerated (plainly _)) (by simp [prepared.variant])
    (by simp [reduces, prepared.variant]) order unexpired

/-- The standard strategy finds exactly the silent edges and the derived ones, in whatever order it
goes through the labels. -/
theorem solve_standard (made : prepare grammar config = .ok solver) (standard : config.variant = .standard)
    (seeds : SeedGraph) (order : LabelOrder) {deadline : Deadline}
    (unexpired : ∀ tick, deadline.expired tick = false) :
    ∃ result, solver.solveInOrder order seeds deadline = .ok result ∧
      ∀ edge, result.data.contains edge ↔ seeds.Solution grammar edge := by
  obtain ⟨prepared, none⟩ := prepared_of_prepare made
  rw [standard] at prepared
  exact prepared.exact_standard (implied_of_none none) order unexpired

def pathGrammar : Grammar := Grammar.empty.addRule "A" ["A", "A"]

def pathSeeds : SeedGraph := .ofEdges [⟨1, 2, .plain 1⟩, ⟨2, 3, .plain 1⟩]

theorem derives_path : pathSeeds.Derives pathGrammar ⟨1, 3, .plain 1⟩ := by
  have first : pathSeeds.Derives pathGrammar ⟨1, 2, .plain 1⟩ := .initial ⟨by decide, .inl (by decide)⟩
  have second : pathSeeds.Derives pathGrammar ⟨2, 3, .plain 1⟩ := .initial ⟨by decide, .inl (by decide)⟩
  exact .both first second rfl (by decide) fun silent => by
    simp [pathSeeds, SeedGraph.ofEdges, SeedGraph.addEdge, SeedGraph.Silent] at silent

theorem solve_standard_path : ∃ solver result, prepare pathGrammar {} = .ok solver ∧
    solver.solveInOrder .ascending pathSeeds .unlimited = .ok result ∧
    result.data.contains ⟨1, 3, .plain 1⟩ := by
  have made : prepare pathGrammar {} = .ok _ := rfl
  have unexpired : ∀ tick, Deadline.unlimited.expired tick = false := fun _ => rfl
  obtain ⟨result, ran, found⟩ := solve_standard made rfl pathSeeds .ascending unexpired
  exact ⟨_, result, made, ran, (found _).mpr (.inr derives_path)⟩

theorem Prepared.exact_accelerated (prepared : solver.Prepared grammar variant)
    (uses : variant.usesClosure) (ruled : grammar.SelfRuled) (indexed : seeds.IndexedBy grammar)
    (implied : solver.Implied seeds grammar) (order : LabelOrder) {deadline : Deadline}
    (unexpired : ∀ tick, deadline.expired tick = false) :
    ∃ result, solver.solveInOrder order seeds deadline = .ok result ∧
      ∀ edge, result.data.contains edge ↔ seeds.Solution grammar edge := by
  have accelerates : ∀ symbol, solver.accelerates symbol →
      grammar.isTransitive symbol ∧ grammar.isVariant symbol = false := fun symbol accelerated =>
    ((prepared.accelerates symbol).mp accelerated).2
  exact prepared.exact implied (fun symbol accelerated => ruled symbol (accelerates symbol accelerated).1)
    (fun edge inside accelerated => inside.plain indexed (accelerates _ accelerated).2)
    (prepared.not_batch uses) (prepared.not_reduces uses) order unexpired

/-- With closures in place of transitive productions, a solve finds what the standard strategy
finds. -/
theorem solve_accelerated (built : grammar.Built) (indexed : seeds.IndexedBy grammar)
    (made : prepare grammar config = .ok solver) (uses : config.variant.usesClosure)
    {plainConfig : Config} {plainSolver : Solver}
    (madePlain : prepare grammar plainConfig = .ok plainSolver)
    (standard : plainConfig.variant = .standard) (order plainOrder : LabelOrder)
    {deadline plainDeadline : Deadline} (unexpired : ∀ tick, deadline.expired tick = false)
    (plainUnexpired : ∀ tick, plainDeadline.expired tick = false) :
    ∃ result expected, solver.solveInOrder order seeds deadline = .ok result ∧
      plainSolver.solveInOrder plainOrder seeds plainDeadline = .ok expected ∧
      ∀ edge, result.data.contains edge ↔ expected.data.contains edge := by
  obtain ⟨prepared, none⟩ := prepared_of_prepare made
  obtain ⟨preparedPlain, nonePlain⟩ := prepared_of_prepare madePlain
  rw [standard] at preparedPlain
  obtain ⟨result, ran, found⟩ := prepared.exact_accelerated uses built.selfRuled indexed
    (implied_of_none none) order unexpired
  obtain ⟨expected, ranPlain, foundPlain⟩ :=
    preparedPlain.exact_standard (implied_of_none nonePlain) plainOrder plainUnexpired
  exact ⟨result, expected, ran, ranPlain, fun edge => (found edge).trans (foundPlain edge).symm⟩

theorem indexedBy_path : pathSeeds.IndexedBy pathGrammar where
  edges := by decide
  reflexive := by decide

theorem solve_accelerated_path : ∃ solver plainSolver result expected,
    prepare pathGrammar { variant := .focr } = .ok solver ∧
    prepare pathGrammar {} = .ok plainSolver ∧ solver.accelerates 1 ∧
    solver.solveInOrder .ascending pathSeeds .unlimited = .ok result ∧
    plainSolver.solveInOrder .ascending pathSeeds .unlimited = .ok expected ∧
    ∀ edge, result.data.contains edge ↔ expected.data.contains edge := by
  have made : prepare pathGrammar { variant := .focr } = .ok _ := rfl
  have madePlain : prepare pathGrammar {} = .ok _ := rfl
  have unexpired : ∀ tick, Deadline.unlimited.expired tick = false := fun _ => rfl
  obtain ⟨result, expected, ran, ranPlain, same⟩ := solve_accelerated (.addRule "A" ["A", "A"] .empty)
    indexedBy_path made rfl madePlain rfl .ascending .ascending unexpired unexpired
  exact ⟨_, _, result, expected, made, madePlain, rfl, ran, ranPlain, same⟩

end Solver

end GrammarReach
