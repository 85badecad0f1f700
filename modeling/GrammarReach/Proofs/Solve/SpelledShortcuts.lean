import GrammarReach.Proofs.Grammar.Indices
import GrammarReach.Proofs.Solve.Shortcuts

/-!
Shortcuts that the productions spell out change nothing.

A shortcut saves two joins: the opening bracket with the inner edge, and what they come to with the
closing bracket. Where the grammar has the two productions for these joins, every edge of the shortcut
is in the solution anyway, and a solve that follows the shortcut ends with the same edges as one that
does not.
-/

namespace GrammarReach

namespace BracketRule

/-- A grammar has the two productions that a shortcut stands for, by way of a symbol in the middle, and
neither what the brackets enclose nor what they come to bears an index. -/
structure SpelledBy (rule : BracketRule) (grammar : Grammar) (middle : Symbol) : Prop where
  begins : ⟨middle, rule.opening, rule.inner⟩ ∈ grammar.binary
  ends : ⟨rule.result, middle, rule.closing⟩ ∈ grammar.binary
  middle : middle ≠ Symbol.fault
  result : rule.result ≠ Symbol.fault
  innerPlain : grammar.isVariant rule.inner = false
  resultPlain : grammar.isVariant rule.result = false

/-- No reflexive label bears the symbol of the opening bracket or the one in the middle, so that neither
of the two joins meets with silent edges alone. -/
structure Audible (rule : BracketRule) (seeds : SeedGraph) (middle : Symbol) : Prop where
  opening : ∀ label ∈ seeds.reflexive, label.symbol ≠ rule.opening
  middle : ∀ label ∈ seeds.reflexive, label.symbol ≠ middle

end BracketRule

namespace SeedGraph

/-- An edge is not silent under a symbol that no reflexive label bears. -/
theorem not_silent_of_symbol {seeds : SeedGraph} {edge : Edge} {symbol : Symbol}
    (absent : ∀ label ∈ seeds.reflexive, label.symbol ≠ symbol) (same : edge.label.symbol = symbol)
    (grammar : Grammar) : ¬ seeds.Silent grammar edge := by
  rintro ⟨-, -, node, -, label, reflexive, rfl⟩
  exact absent label reflexive same

end SeedGraph

namespace Grammar

/-- A grammar with the productions of some symbols from two of themselves. -/
def withSelfRules (grammar : Grammar) (symbols : List Symbol) : Grammar :=
  { grammar with binary := grammar.binary ++ symbols.map fun symbol => ⟨symbol, symbol, symbol⟩ }

theorem mem_withSelfRules (grammar : Grammar) (symbols : List Symbol) (rule : BinaryRule) :
    rule ∈ (grammar.withSelfRules symbols).binary ↔
      rule ∈ grammar.binary ∨ ∃ symbol ∈ symbols, rule = ⟨symbol, symbol, symbol⟩ := by
  simp only [withSelfRules, List.mem_append, List.mem_map, @eq_comm _ rule]

end Grammar

open SeedGraph

/-- What a shortcut derives, its two productions derive in two steps. In between, the index of the
opening bracket is kept if the symbol in the middle can bear it, and is not asked for again if not. -/
theorem BracketRule.SpelledBy.solution {rule : BracketRule} {grammar : Grammar} {middle : Symbol}
    (spelled : rule.SpelledBy grammar middle) {seeds : SeedGraph} (audible : rule.Audible seeds middle)
    (indexed : seeds.IndexedBy grammar) {opening inner : Label} {parent src dst child : Node}
    (opens : opening.symbol = rule.opening) (inside : inner.symbol = rule.inner)
    (first : seeds.Solution grammar ⟨parent, src, opening⟩)
    (second : seeds.Solution grammar ⟨src, dst, inner⟩)
    (third : seeds.Solution grammar ⟨dst, child, grammar.label rule.closing opening.index⟩) :
    seeds.Solution grammar ⟨parent, child, .plain rule.result⟩ := by
  have innerPlain : grammar.isVariant inner.symbol = false := inside ▸ spelled.innerPlain
  let joined := grammar.inherit middle (grammar.ownIndex? opening)
  have joinedSymbol : joined.symbol = middle := grammar.symbol_inherit _ _
  have toMiddle : joined ∈ grammar.derivedBinary opening inner := by
    refine (grammar.mem_derivedBinary _ _ _).mpr
      ⟨by simp [Grammar.agree, innerPlain], _, spelled.begins, opens.symm, inside.symm,
        spelled.middle, ?_⟩
    rw [Grammar.ownIndex?_of_not_isVariant innerPlain, Option.or_none]
  have halfway : seeds.Solution grammar ⟨parent, dst, joined⟩ :=
    first.join second (.inl (not_silent_of_symbol audible.opening opens grammar)) rfl toMiddle
  have agree : grammar.agree joined (grammar.label rule.closing opening.index) := by
    refine Grammar.agree_iff.mpr fun middleVaries closingVaries => ?_
    rw [joinedSymbol] at middleVaries
    rw [Grammar.symbol_label] at closingVaries
    rw [Grammar.index_label_of_isVariant closingVaries]
    by_cases openingVaries : grammar.isVariant opening.symbol
    · simp only [joined, Grammar.ownIndex?_of_isVariant openingVaries, Grammar.inherit,
        Grammar.index_label_of_isVariant middleVaries]
    · -- An opening bracket that bears no index has the index zero, like the edge in the middle.
      have openingPlain := Bool.not_eq_true _ |>.mp openingVaries
      simp only [joined, Grammar.ownIndex?_of_not_isVariant openingPlain, Grammar.inherit]
      exact (congrArg Label.index (first.plain indexed openingPlain)).symm
  have toResult : Label.plain rule.result ∈
      grammar.derivedBinary joined (grammar.label rule.closing opening.index) :=
    (grammar.mem_derivedBinary _ _ _).mpr ⟨agree, _, spelled.ends, joinedSymbol.symm,
      (grammar.symbol_label _ _).symm, spelled.result,
      (grammar.inherit_of_not_isVariant spelled.resultPlain _).symm⟩
  exact halfway.join third (.inl (not_silent_of_symbol audible.middle joinedSymbol grammar)) rfl toResult

namespace Solver

variable {grammar : Grammar} {config : Config} {core solver : Solver} {variant : Variant}
  {seeds : SeedGraph}

/-- A solver for a grammar is one for the grammar with the productions that its closures stand in for,
whether they were there or not. -/
theorem Prepared.withSelfRules (prepared : solver.Prepared grammar variant) {symbols : List Symbol}
    (accelerated : ∀ symbol, symbol ∈ symbols ↔ solver.accelerates symbol) :
    solver.Prepared (grammar.withSelfRules symbols) variant where
  variant := prepared.variant
  accelerates := prepared.accelerates
  names := prepared.names
  transitive := prepared.transitive
  nullable := prepared.nullable
  unary := prepared.unary
  binary rule := by
    rw [prepared.binary, Grammar.mem_withSelfRules]
    constructor
    · exact fun kept => ⟨.inl kept.1, kept.2⟩
    · rintro ⟨listed | ⟨symbol, inside, rfl⟩, kept⟩
      · exact ⟨listed, kept⟩
      · exact absurd rfl (kept symbol ((accelerated symbol).mp inside))

/-- With closures, and with shortcuts that add nothing to the solution, a solve finds the solution under
the grammar and the productions that the closures stand in for. -/
theorem Prepared.exact_closures (prepared : solver.Prepared grammar variant) (uses : variant.usesClosure)
    (indexed : seeds.IndexedBy grammar) {symbols : List Symbol}
    (accelerated : ∀ symbol, symbol ∈ symbols ↔ solver.accelerates symbol)
    (implied : solver.Implied seeds (grammar.withSelfRules symbols)) (order : LabelOrder)
    {deadline : Deadline} (unexpired : ∀ tick, deadline.expired tick = false) :
    ∃ result, solver.solveInOrder order seeds deadline = .ok result ∧
      ∀ edge, result.data.contains edge ↔ seeds.Solution (grammar.withSelfRules symbols) edge := by
  have closed := prepared.withSelfRules accelerated
  have ruled : ∀ symbol, solver.accelerates symbol →
      ⟨symbol, symbol, symbol⟩ ∈ (grammar.withSelfRules symbols).binary := fun symbol inside =>
    (Grammar.mem_withSelfRules _ _ _).mpr (.inr ⟨symbol, (accelerated symbol).mpr inside, rfl⟩)
  have indexedClosed : seeds.IndexedBy (grammar.withSelfRules symbols) :=
    ⟨indexed.edges, indexed.reflexive⟩
  exact closed.exact implied ruled
    (fun edge inside accelerated =>
      inside.plain indexedClosed ((closed.accelerates _).mp accelerated).2.2)
    (prepared.not_batch uses) (prepared.not_reduces uses) order unexpired

/-- Shortcuts that the productions spell out cannot be told from the result: with closures, a solve that
is given them comes to the same edges as one that is not. -/
theorem solve_spelled (made : prepare grammar config = .ok core) (uses : config.variant.usesClosure)
    {brackets : List BracketRule}
    (spelled : ∀ rule ∈ brackets, ∃ middle, rule.SpelledBy grammar middle ∧ rule.Audible seeds middle)
    (indexed : seeds.IndexedBy grammar) (order plainOrder : LabelOrder) {deadline plainDeadline : Deadline}
    (unexpired : ∀ tick, deadline.expired tick = false)
    (plainUnexpired : ∀ tick, plainDeadline.expired tick = false) :
    ∃ result expected,
      (core.withBrackets brackets).solveInOrder order seeds deadline = .ok result ∧
      core.solveInOrder plainOrder seeds plainDeadline = .ok expected ∧
      ∀ edge, result.data.contains edge ↔ expected.data.contains edge := by
  obtain ⟨prepared, none⟩ := prepared_of_prepare made
  have accelerated : ∀ symbol, symbol ∈ core.accelerated.toList ↔ core.accelerates symbol := fun symbol => by
    rw [Std.TreeSet.mem_toList, Std.TreeSet.mem_iff_contains, accelerates]
  have closed := (prepared.withBrackets brackets).withSelfRules accelerated
  have implied : (core.withBrackets brackets).Implied seeds
      (grammar.withSelfRules core.accelerated.toList) := by
    intro rule listed opening inner parent src dst child opens inside first second third
    obtain ⟨middle, spelled, audible⟩ := spelled rule listed
    have whole : rule.SpelledBy (grammar.withSelfRules core.accelerated.toList) middle :=
      { spelled with
        begins := (Grammar.mem_withSelfRules _ _ _).mpr (.inl spelled.begins)
        ends := (Grammar.mem_withSelfRules _ _ _).mpr (.inl spelled.ends) }
    rw [closed.label] at third
    exact whole.solution audible ⟨indexed.edges, indexed.reflexive⟩ opens inside first second third
  obtain ⟨result, ran, found⟩ := (prepared.withBrackets brackets).exact_closures uses indexed accelerated
    implied order unexpired
  obtain ⟨expected, ranPlain, foundPlain⟩ := prepared.exact_closures uses indexed accelerated
    (implied_of_none none) plainOrder plainUnexpired
  exact ⟨result, expected, ran, ranPlain, fun edge => (found edge).trans (foundPlain edge).symm⟩

/-- A transitive symbol that also spans a pair of brackets around itself, by way of a symbol that keeps
the index of the opening one. -/
def nestGrammar : Grammar :=
  (((Grammar.empty.addRule "A" ["A", "A"]).addRule "A" ["a"]).addRule "M_i" ["o_i", "A"]).addRule
    "A" ["M_i", "c_i"]

def nestBrackets : List BracketRule := [{ result := 1, opening := 4, inner := 1, closing := 5 }]

/-- A path between two brackets, where every node reaches itself without saying so. -/
def nestSeeds : SeedGraph :=
  (SeedGraph.ofEdges [⟨1, 2, ⟨4, 7⟩⟩, ⟨2, 3, .plain 2⟩, ⟨3, 4, ⟨5, 7⟩⟩]).addReflexive (.plain 1)

theorem spelledBy_nest : ∀ rule ∈ nestBrackets, ∃ middle, rule.SpelledBy nestGrammar middle ∧
    rule.Audible nestSeeds middle := by
  intro rule listed
  obtain rfl := List.mem_singleton.mp listed
  exact ⟨3, ⟨by decide, by decide, by decide, by decide, by decide, by decide⟩,
    ⟨by decide, by decide⟩⟩

theorem solve_spelled_nest : ∃ core result expected,
    prepare nestGrammar { variant := .pocr } = .ok core ∧ core.accelerates 1 ∧
    (core.withBrackets nestBrackets).solveInOrder .ascending nestSeeds .unlimited = .ok result ∧
    core.solveInOrder .ascending nestSeeds .unlimited = .ok expected ∧
    (∀ edge, result.data.contains edge ↔ expected.data.contains edge) ∧
    result.data.contains ⟨1, 4, .plain 1⟩ := by
  have made : prepare nestGrammar { variant := .pocr } = .ok _ := rfl
  have unexpired : ∀ tick, Deadline.unlimited.expired tick = false := fun _ => rfl
  obtain ⟨result, expected, ran, ranPlain, same⟩ := solve_spelled made rfl spelledBy_nest
    ⟨by decide +kernel, by decide⟩ .ascending .ascending unexpired unexpired
  refine ⟨_, result, expected, made, by decide +kernel, ran, ranPlain, same, (same _).mpr ?_⟩
  have found : (do
      let core ← (prepare nestGrammar { variant := .pocr }).toOption
      let expected ← (core.solveInOrder .ascending nestSeeds .unlimited).toOption
      return expected.data.contains ⟨1, 4, .plain 1⟩) = some true := by decide +kernel
  simpa [made, ranPlain, Except.toOption] using found

end Solver

end GrammarReach
