import GrammarReach.Proofs.Solve.Run

namespace GrammarReach.Solver

variable {grammar : Grammar} {config : Config} {solver : Solver}

/-- A solver of a strategy, as it was set up for a grammar. -/
structure Prepared (grammar : Grammar) (strategy : Variant) (solver : Solver) : Prop where
  variant : solver.variant = strategy
  accelerates : ∀ symbol, solver.accelerates symbol ↔
    strategy.usesClosure ∧ grammar.isTransitive symbol ∧ grammar.isVariant symbol = false
  names : solver.grammar.names = grammar.names
  transitive : solver.grammar.transitive = grammar.transitive
  nullable : solver.grammar.nullable = grammar.nullable
  unary : solver.grammar.unary = grammar.unary
  binary : ∀ rule, rule ∈ solver.grammar.binary ↔ rule ∈ grammar.binary ∧
    ∀ symbol, solver.accelerates symbol → rule ≠ ⟨symbol, symbol, symbol⟩

private theorem foldl_removeSelfRule (symbols : List Symbol) (grammar : Grammar) :
    let thinned := symbols.foldl (fun grammar symbol => (grammar.removeSelfRule symbol).1) grammar
    thinned.names = grammar.names ∧ thinned.transitive = grammar.transitive ∧
      thinned.nullable = grammar.nullable ∧ thinned.unary = grammar.unary ∧
      ∀ rule, rule ∈ thinned.binary ↔ rule ∈ grammar.binary ∧
        ∀ symbol ∈ symbols, rule ≠ ⟨symbol, symbol, symbol⟩ := by
  induction symbols generalizing grammar with
  | nil => simp
  | cons symbol symbols ih =>
    obtain ⟨names, transitive, nullable, unary, binary⟩ := ih (grammar.removeSelfRule symbol).1
    refine ⟨names, transitive, nullable, unary, ?_⟩
    intro rule
    refine (binary rule).trans ?_
    simp only [Grammar.removeSelfRule, List.mem_filter, bne_iff_ne, List.forall_mem_cons, and_assoc]

theorem prepared_of_prepare (made : prepare grammar config = .ok solver) :
    solver.Prepared grammar config.variant ∧ solver.brackets = [] := by
  obtain ⟨count, rfl⟩ : ∃ count, solver =
      { variant := config.variant
        grammar := (closureSymbols config.variant grammar).foldl
          (fun grammar symbol => (grammar.removeSelfRule symbol).1) grammar
        accelerated := Std.TreeSet.ofList (closureSymbols config.variant grammar)
        countSymbol? := count } := by
    simp only [prepare, bind, Except.bind, pure, Except.pure] at made
    repeat' split at made
    all_goals cases made
    all_goals exact ⟨_, rfl⟩
  obtain ⟨names, transitive, nullable, unary, binary⟩ :=
    foldl_removeSelfRule (closureSymbols config.variant grammar) grammar
  have accelerates : ∀ symbol, (Std.TreeSet.ofList (closureSymbols config.variant grammar)).contains symbol ↔
      symbol ∈ closureSymbols config.variant grammar := by
    intro symbol
    rw [← Std.TreeSet.mem_iff_contains, Std.TreeSet.mem_ofList, List.contains_iff_mem]
  refine ⟨
    { variant := rfl
      accelerates := fun symbol => (accelerates symbol).trans ?_
      names := names
      transitive := transitive
      nullable := nullable
      unary := unary
      binary := fun rule => (binary rule).trans (and_congr_right fun _ => forall_congr' fun symbol =>
        imp_congr_left (accelerates symbol).symm) }, rfl⟩
  unfold closureSymbols
  split
  · next uses =>
    simp [uses, List.mem_filter, Grammar.isTransitive]
  · next uses => simp [uses]

/-- A grammar without a cycle of unary productions has a solver, if the symbol to report on is known. -/
theorem prepare_eq_ok (acyclic : cycleFault? grammar = none)
    (known : ∀ name, config.countSymbol = some name → (grammar.find? name).isSome) :
    ∃ solver, prepare grammar config = .ok solver := by
  unfold prepare
  rw [acyclic]
  cases counted : config.countSymbol with
  | none => cases config.strictGrammar <;> exact ⟨_, rfl⟩
  | some name =>
    obtain ⟨symbol, found⟩ := Option.isSome_iff_exists.mp (known name counted)
    simp only [Grammar.lookup, found]
    cases config.strictGrammar <;> exact ⟨_, rfl⟩

variable {variant : Variant} (prepared : solver.Prepared grammar variant)

include prepared

theorem Prepared.isVariant (symbol : Symbol) :
    solver.grammar.isVariant symbol = grammar.isVariant symbol := by
  simp only [Grammar.isVariant, Grammar.name?, prepared.names]

theorem Prepared.label (symbol : Symbol) (index : Nat) :
    solver.grammar.label symbol index = grammar.label symbol index := by
  simp only [Grammar.label, prepared.isVariant]

theorem Prepared.inherit (lhs : Symbol) (index? : Option Nat) :
    solver.grammar.inherit lhs index? = grammar.inherit lhs index? := by
  simp only [Grammar.inherit, Grammar.label, prepared.isVariant]

theorem Prepared.derivedUnary (label : Label) :
    solver.grammar.derivedUnary label = grammar.derivedUnary label := by
  simp only [Grammar.derivedUnary, Grammar.ownIndex?, prepared.unary, prepared.inherit,
    prepared.isVariant]

/-- Two labels derive what they derive under the whole grammar, except that a symbol with a closure
derives nothing from two of itself. -/
theorem Prepared.mem_derivedBinary (left right label : Label) :
    label ∈ solver.grammar.derivedBinary left right ↔ label ∈ grammar.derivedBinary left right ∧
      ¬ (solver.accelerates label.symbol ∧ label.symbol = left.symbol ∧ label.symbol = right.symbol) := by
  simp only [Grammar.mem_derivedBinary, Grammar.agree, Grammar.ownIndex?, prepared.isVariant,
    prepared.inherit, prepared.binary]
  constructor
  · rintro ⟨agree, rule, ⟨listed, kept⟩, first, second, sound, rfl⟩
    refine ⟨⟨agree, rule, listed, first, second, sound, rfl⟩, ?_⟩
    rintro ⟨accelerated, atLeft, atRight⟩
    rw [Grammar.symbol_inherit] at accelerated atLeft atRight
    refine kept _ accelerated ?_
    rw [← atLeft] at first
    rw [← atRight] at second
    obtain ⟨lhs, one, two⟩ := rule
    simp only at first second
    rw [first, second]
  · rintro ⟨⟨agree, rule, listed, first, second, sound, rfl⟩, other⟩
    refine ⟨agree, rule, ⟨listed, ?_⟩, first, second, sound, rfl⟩
    rintro symbol accelerated rfl
    rw [Grammar.symbol_inherit] at other
    exact other ⟨accelerated, first, second⟩

theorem Prepared.initial_iff (seeds : SeedGraph) (edge : Edge) :
    seeds.Initial solver.grammar edge ↔ seeds.Initial grammar edge := by
  simp only [SeedGraph.Initial, prepared.nullable]

theorem Prepared.silent_iff (seeds : SeedGraph) (edge : Edge) :
    seeds.Silent solver.grammar edge ↔ seeds.Silent grammar edge := by
  simp only [SeedGraph.Silent, prepared.initial_iff]

theorem Prepared.silent_eq (seeds : SeedGraph) :
    seeds.Silent solver.grammar = seeds.Silent grammar :=
  funext fun edge => propext (prepared.silent_iff seeds edge)

/-- Strategies without closures have no symbol with a closure. -/
theorem Prepared.not_accelerates (plain : variant.usesClosure = false) (symbol : Symbol) :
    ¬ solver.accelerates symbol := by
  rw [prepared.accelerates, plain]
  exact fun never => Bool.false_ne_true never.1

theorem Prepared.not_reduces (uses : variant.usesClosure) : ¬ solver.reduces := by
  rw [reduces, prepared.variant]
  cases variant <;> simp_all [Variant.usesClosure]

theorem Prepared.not_batch (uses : variant.usesClosure) : solver.variant ≠ .batchSemiNaive := by
  rw [prepared.variant]
  rintro rfl
  cases uses

theorem Prepared.withBrackets (brackets : List BracketRule) :
    (solver.withBrackets brackets).Prepared grammar variant := { prepared with }

theorem Prepared.withCountSymbol (countSymbol? : Option Symbol) :
    (solver.withCountSymbol countSymbol?).Prepared grammar variant := { prepared with }

theorem Prepared.regular : solver.Regular where
  exclusive symbol accelerated := prepared.not_reduces ((prepared.accelerates symbol).mp accelerated).1
  unvaried symbol accelerated := by
    rw [prepared.isVariant]
    exact ((prepared.accelerates symbol).mp accelerated).2.2
  single symbol accelerated listed := ((prepared.binary _).mp listed).2 symbol accelerated rfl
  equipped symbol accelerated := by
    have uses := ((prepared.accelerates symbol).mp accelerated).1
    rw [prepared.variant]
    cases variant <;> simp_all [Variant.usesClosure, Closure.ofVariant?]

end GrammarReach.Solver
