import Mathlib.Data.Set.Card
import GrammarReach.Proofs.Solve.InStep
import GrammarReach.Proofs.Solve.Shortcuts

/-!
What a solve stores on its way.

Labels come from many places: from productions, which hand indices on, from the empty productions, from the
reflexive labels, from closures and from shortcuts. Wherever they come from, their symbols and indices are
those of the seeds, of the productions and of the shortcuts. Both datasets only ever grow, so what is stored
in the middle of a turn is still there at its end.
-/

namespace GrammarReach

open Loop (Fills)

namespace SeedGraph

variable {seeds : SeedGraph} {grammar : Grammar} {brackets : List BracketRule} {edge : Edge}

/-- An edge between nodes of the seeds, of a symbol that the seeds, a production or a shortcut can put on it,
with an index that the seeds bear, or none. -/
structure WellFormed (seeds : SeedGraph) (grammar : Grammar) (brackets : List BracketRule) (edge : Edge) :
    Prop extends seeds.Within grammar brackets edge where
  sound : edge.label.symbol ≠ Symbol.fault
  plain : grammar.isVariant edge.label.symbol = false → edge.label.index = 0

theorem Within.wellFormed (within : seeds.Within grammar brackets edge) (sound : ¬ edge.label.isFault)
    (plain : grammar.Plain edge.label) : seeds.WellFormed grammar brackets edge := by
  refine { within with sound := ?_, plain := ?_ }
  · intro fault
    exact sound ((isFault_iff _).mpr fault)
  · intro unvaried
    rw [plain unvaried]
    rfl

/-- There are no more well-formed edges than the extent of the seeds tells. -/
theorem encard_wellFormed_le (seeds : SeedGraph) (grammar : Grammar) (brackets : List BracketRule) :
    {edge | seeds.WellFormed grammar brackets edge}.encard ≤ seeds.edgeExtent grammar brackets := by
  by_contra more
  have enough := Order.add_one_le_of_lt (not_le.mp more)
  obtain ⟨part, inside, size⟩ := Set.exists_subset_encard_eq enough
  have finite : part.Finite := Set.finite_of_encard_eq_coe size
  rw [finite.encard_eq_coe_toFinset_card] at size
  have count : finite.toFinset.toList.length = seeds.edgeExtent grammar brackets + 1 := by
    rw [Finset.length_toList]
    exact_mod_cast size
  have few := seeds.length_le_edgeExtent grammar brackets (Finset.nodup_toList finite.toFinset) ?_
  · omega
  · intro edge listed
    apply (inside _).toWithin
    rwa [Finset.mem_toList, finite.mem_toFinset] at listed

end SeedGraph

/-- Whether an edge is known when a generation begins. -/
def Generations.Stores (state : Generations) (edge : Edge) : Prop :=
  state.full.contains edge ∨ state.delta.contains edge

namespace Solver

variable {grammar : Grammar} {config : Config} {solver : Solver} {variant : Variant} {seeds : SeedGraph}
  {order : LabelOrder} {deadline : Deadline} {done : List WorkItem} {state : SolveState} {edge : Edge}
  {brackets : List BracketRule}

/-- A solver that has given up productions for closures brings up no other symbols. -/
theorem Prepared.within (prepared : solver.Prepared grammar variant)
    (within : seeds.Within solver.grammar brackets edge) : seeds.Within grammar brackets edge := by
  have heads : solver.grammar.binary.map (·.lhs) ⊆ grammar.binary.map (·.lhs) := by
    apply List.map_subset
    intro rule kept
    exact ((prepared.binary rule).mp kept).1
  have symbol := within.symbol
  rw [SeedGraph.mentionedSymbols, prepared.nullable, prepared.unary] at symbol
  rw [List.mem_append, List.mem_append] at symbol
  refine { within with symbol := ?_ }
  rw [SeedGraph.mentionedSymbols, List.mem_append, List.mem_append]
  exact symbol.imp_left (Or.imp_right (@heads _))

theorem Prepared.indexed (prepared : solver.Prepared grammar variant) (indexed : seeds.IndexedBy grammar) :
    seeds.IndexedBy solver.grammar := by
  constructor
  · intro edge seeded unvaried
    rw [prepared.isVariant] at unvaried
    exact indexed.edges edge seeded unvaried
  · intro label reflexive unvaried
    rw [prepared.isVariant] at unvaried
    exact indexed.reflexive label reflexive unvaried

/-- At the head of a turn, everything stored is well formed. -/
theorem Turned.wellFormed (turned : solver.Turned order seeds done state)
    (prepared : solver.Prepared grammar variant) (indexed : seeds.IndexedBy grammar)
    (stored : state.Stores edge) : seeds.WellFormed grammar solver.brackets edge := by
  have stands := turned.stands prepared.regular (prepared.confines_plain indexed)
  have valid := stands.ledger.valid
  obtain ⟨within, plain⟩ := stands.ledger.permitted edge stored
  apply (prepared.within within).wellFormed _ plain
  cases stored with
  | inl primary => exact valid.data.faultless edge primary
  | inr secondary => exact valid.secondary.faultless edge secondary

theorem Prepared.fills (prepared : solver.Prepared grammar variant) (indexed : seeds.IndexedBy grammar)
    (order : LabelOrder) (deadline : Deadline) :
    Fills (solver.step order deadline) (solver.start seeds) SolveState.Stores
      (seeds.WellFormed grammar solver.brackets) := by
  apply Fills.of_invariant (motive := fun state => ∃ done, solver.Turned order seeds done state)
  · exact ⟨[], .start⟩
  · rintro state ⟨done, turned⟩ edge stored
    exact turned.wellFormed prepared indexed stored
  · rintro state next ⟨done, turned⟩ stepped
    obtain ⟨item, rest, popped, rfl⟩ := step_cases stepped
    have confines := solver.confines_extent seeds
    have stands := turned.stands prepared.regular confines
    obtain ⟨-, -, grows⟩ :=
      process_keeps prepared.regular confines.admits order stands.ledger stands.joined popped
    exact ⟨⟨done ++ [item], turned.turn popped⟩, grows⟩

theorem Prepared.fills_generations (prepared : solver.Prepared grammar variant)
    (indexed : seeds.IndexedBy grammar) (brackets : List BracketRule) (deadline : Deadline) :
    Fills (Generations.step solver.grammar deadline) (Generations.start solver.grammar seeds)
      Generations.Stores (seeds.WellFormed grammar brackets) := by
  apply Fills.of_invariant (motive := Generations.Stands seeds solver.grammar)
  · exact Generations.start_stands solver.grammar seeds
  · intro state stands edge stored
    have known : state.full.contains edge := stored.elim id (stands.inside edge)
    have inside := stands.permitted edge known
    apply (prepared.within inside.within).wellFormed inside.not_isFault
    intro unvaried
    apply inside.plain (prepared.indexed indexed)
    rwa [prepared.isVariant]
  · intro state next stands stepped
    obtain ⟨-, rfl⟩ := Generations.step_cases stepped
    refine ⟨stands.advance, ?_⟩
    intro edge stored
    have known : state.full.contains edge := stored.elim id (stands.inside edge)
    exact .inl ((stands.full_advance edge).mpr (.inl known))

/-- The result holds what was stored when the loop of the strategy came to its end. -/
theorem Prepared.wellFormed_of_ok (prepared : solver.Prepared grammar variant)
    (indexed : seeds.IndexedBy grammar) {result : SolveResult}
    (ran : solver.solveInOrder order seeds deadline = .ok result) (found : result.data.contains edge) :
    seeds.WellFormed grammar solver.brackets edge := by
  have unexpired : ∀ tick, Deadline.unlimited.expired tick = false := fun _ => rfl
  have ran := solveInOrder_unlimited ran
  by_cases batch : solver.variant = .batchSemiNaive
  · have single : ¬ solver.reduces := by simp [reduces, batch]
    simp only [solveInOrder, if_pos batch, solveGenerations] at ran
    rw [Generations.solve_eq_generation unexpired] at ran
    obtain rfl := Except.ok.inj ran
    rw [conclude_of_not_reduces single] at found
    exact (prepared.fills_generations indexed _ .unlimited).inside _ (Loop.leads_run ..) edge (.inl found)
  · obtain ⟨solved, -, done, stands⟩ :=
      solveInOrder_eq_ok prepared.regular (solver.confines_extent seeds) batch order unexpired
    obtain rfl := Except.ok.inj (ran.symm.trans solved)
    have stored := (contains_conclude stands.ledger.valid seeds edge).mp found
    exact (prepared.fills indexed order .unlimited).inside _ (Loop.leads_run ..) edge stored

/-- What a solver stores is well formed on the way, in whichever of the two loops its strategy runs, and in
the end; and there is only so much of it. -/
structure StoresWellFormed (solver : Solver) (grammar : Grammar) (seeds : SeedGraph) (order : LabelOrder)
    (deadline : Deadline) : Prop where
  worklist : Fills (solver.step order deadline) (solver.start seeds) SolveState.Stores
    (seeds.WellFormed grammar solver.brackets)
  generations : Fills (Generations.step solver.grammar deadline) (Generations.start solver.grammar seeds)
    Generations.Stores (seeds.WellFormed grammar solver.brackets)
  result : ∀ result, solver.solveInOrder order seeds deadline = .ok result →
    ∀ edge, result.data.contains edge → seeds.WellFormed grammar solver.brackets edge
  finite : {edge | seeds.WellFormed grammar solver.brackets edge}.encard ≤
    seeds.edgeExtent grammar solver.brackets

/-- Whatever the strategy and the shortcuts, a solver stores nothing but well-formed edges, if the seeds bear
no needless indices. -/
theorem storesWellFormed_of_prepare (made : prepare grammar config = .ok solver)
    (indexed : seeds.IndexedBy grammar) (brackets : List BracketRule) (order : LabelOrder)
    (deadline : Deadline) :
    (solver.withBrackets brackets).StoresWellFormed grammar seeds order deadline := by
  have prepared := (prepared_of_prepare made).1.withBrackets brackets
  exact
    { worklist := prepared.fills indexed order deadline
      generations := prepared.fills_generations indexed _ deadline
      result := fun result ran edge found => prepared.wellFormed_of_ok indexed ran found
      finite := seeds.encard_wellFormed_le grammar _ }

/-- A shortcut's edge, and the index of the bracket before it. -/
theorem storesWellFormed_of_prepare_bridge : ∃ core result,
    prepare bridgeGrammar { variant := .pocr } = .ok core ∧ bridgeSeeds.IndexedBy bridgeGrammar ∧
    (core.withBrackets bridgeBrackets).StoresWellFormed bridgeGrammar bridgeSeeds .ascending .unlimited ∧
    (core.withBrackets bridgeBrackets).solveInOrder .ascending bridgeSeeds .unlimited = .ok result ∧
    result.data.contains ⟨1, 4, .plain 3⟩ ∧ result.data.contains ⟨1, 2, ⟨5, 7⟩⟩ := by
  have made : prepare bridgeGrammar { variant := .pocr } = .ok _ := rfl
  have indexed : bridgeSeeds.IndexedBy bridgeGrammar := ⟨by decide +kernel, by decide⟩
  have stores := storesWellFormed_of_prepare made indexed bridgeBrackets .ascending .unlimited
  have bridged : bridgeFinds? bridgeSeeds ⟨1, 4, .plain 3⟩ = some true := by decide +kernel
  have opened : bridgeFinds? bridgeSeeds ⟨1, 2, ⟨5, 7⟩⟩ = some true := by decide +kernel
  have prepared := (prepared_of_prepare made).1.withBrackets bridgeBrackets
  have unexpired : ∀ tick, Deadline.unlimited.expired tick = false := fun _ => rfl
  obtain ⟨ran, -⟩ := solveInOrder_eq_ok prepared.regular (confines_extent _ bridgeSeeds)
    (prepared.not_batch rfl) .ascending unexpired
  refine ⟨_, _, made, indexed, stores, ran, ?_, ?_⟩
  · simpa [bridgeFinds?, made, ran, Except.toOption] using bridged
  · simpa [bridgeFinds?, made, ran, Except.toOption] using opened

end Solver

end GrammarReach
