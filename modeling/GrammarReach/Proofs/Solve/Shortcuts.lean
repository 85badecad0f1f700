import GrammarReach.Proofs.Solve.Variants

/-!
What bracket shortcuts come to.

A solver with closures follows a shortcut around every edge that it looks at, if the symbol inside has
no closure, and else around every pair that the closure finds. No closure finds a pair of a node with
itself, so around the loops of a symbol with a closure nothing is followed.
-/

namespace GrammarReach

theorem Grammar.ne_fault_of_lookup {grammar : Grammar} {name : String} {symbol : Symbol}
    (found : grammar.lookup name = .ok symbol) : symbol ≠ Symbol.fault := by
  unfold lookup at found
  split at found
  · next there =>
    obtain rfl := Except.ok.inj found
    obtain ⟨position, -, rfl⟩ := Option.map_eq_some_iff.mp there
    exact Nat.succ_ne_zero position
  · cases found

namespace BracketRule

/-- The symbols of a shortcut whose edges have to be stored are none that stands for the absence of an
edge. -/
structure Proper (rule : BracketRule) : Prop where
  result : rule.result ≠ Symbol.fault
  opening : rule.opening ≠ Symbol.fault
  closing : rule.closing ≠ Symbol.fault

/-- A shortcut of four names has proper symbols. -/
theorem proper_of_ofNames {grammar : Grammar} {result opening inner closing : String}
    {rule : BracketRule} (made : ofNames grammar result opening inner closing = .ok rule) :
    rule.Proper := by
  simp only [ofNames, bind, Except.bind, pure, Except.pure] at made
  repeat' split at made
  all_goals cases made
  next _ _ opens _ _ _ _ _ closes _ _ results =>
  exact ⟨Grammar.ne_fault_of_lookup results, Grammar.ne_fault_of_lookup opens,
    Grammar.ne_fault_of_lookup closes⟩

end BracketRule

namespace Solver

variable {solver core : Solver} {silent allowed : Edge → Prop} {done : List WorkItem}
  {start state before after : SolveState} {item : WorkItem} {seeds : SeedGraph} {grammar : Grammar}
  {config : Config}

/-- Where the shortcuts stand after some items. What was stored at the start still is, and from there the
shortcuts have been followed around the pairs that closures have found, and around the edges of the other
symbols that were looked at. -/
structure Bridged (solver : Solver) (start : SolveState) (done : List WorkItem) (state : SolveState) :
    Prop where
  grows : ∀ edge, start.data.contains edge → state.data.contains edge
  found : ∀ rule ∈ solver.brackets, solver.accelerates rule.inner → ∀ closure,
    state.closures[rule.inner]? = some closure → ∀ u v, u ≠ v → closure.Reaches u v →
      solver.Followed rule start state u v
  taken : ∀ rule ∈ solver.brackets, solver.firesBrackets rule.inner → ∀ item ∈ done,
    item.edge.label.symbol = rule.inner → solver.Followed rule start state item.edge.src item.edge.dst

theorem bridged_start (regular : solver.Regular) (seeds : SeedGraph) :
    solver.Bridged (solver.start seeds) [] (solver.start seeds) where
  grows _ := id
  found _ _ _ _ made _ _ apart reaches := absurd reaches (start_unreached regular made apart)
  taken _ _ _ _ inside := absurd inside List.not_mem_nil

theorem not_accelerates_of_firesBrackets {symbol : Symbol} (fires : solver.firesBrackets symbol) :
    ¬ solver.accelerates symbol := by
  simp only [firesBrackets, Bool.and_eq_true, Bool.not_eq_true'] at fires
  simp [fires.1.2]

theorem firesBrackets_of_mem {rule : BracketRule} (uses : solver.variant.usesClosure)
    (slow : ¬ solver.accelerates rule.inner) (listed : rule ∈ solver.brackets) :
    solver.firesBrackets rule.inner := by
  simp only [firesBrackets, uses, Bool.not_eq_true _ |>.mp slow, Bool.not_false, Bool.and_self,
    Bool.true_and, List.any_eq_true, beq_iff_eq]
  exact ⟨rule, listed, rfl⟩

/-- Handing an edge to its closure follows the shortcuts around the new pairs. -/
private theorem Bridged.absorb (bridged : solver.Bridged start done before)
    (absorbed : solver.Absorbed item) (absorbs : solver.Absorbs item.edge before after) :
    solver.Bridged start (done ++ [item]) after := by
  obtain ⟨closure, grown, pairs, old, takes, closuresAfter, followed⟩ := absorbs.closures
  have stores : ∀ edge, before.Stores edge → after.Stores edge := fun edge =>
    Or.imp (absorbs.data edge) (absorbs.secondary edge)
  refine ⟨fun edge first => absorbs.data edge (bridged.grows edge first),
    fun rule listed accelerated current made u v apart reaches => ?_,
    fun rule listed fires other inside same => ?_⟩
  · rw [closuresAfter] at made
    split at made
    · next same =>
      obtain rfl := Option.some.inj made
      rcases (takes.reaches u v).mp reaches with known | new
      · exact (bridged.found rule listed accelerated closure (same ▸ old) u v apart known).keeps
          (fun _ => id) stores
      · exact (followed rule listed same.symm (u, v) new).keeps bridged.grows fun _ => id
    · exact (bridged.found rule listed accelerated current made u v apart reaches).keeps
        (fun _ => id) stores
  · rcases List.mem_append.mp inside with earlier | last
    · exact (bridged.taken rule listed fires other earlier same).keeps (fun _ => id) stores
    · obtain rfl := List.mem_singleton.mp last
      exact absurd (same ▸ absorbed.2.2) (not_accelerates_of_firesBrackets fires)

/-- Looking at an edge follows the shortcuts around it. -/
private theorem Bridged.work (bridged : solver.Bridged start done before) (keeps : Keeps before after)
    (followed : solver.firesBrackets item.edge.label.symbol →
      ∀ rule ∈ solver.brackets, rule.inner = item.edge.label.symbol →
        solver.Followed rule before after item.edge.src item.edge.dst) :
    solver.Bridged start (done ++ [item]) after := by
  refine ⟨fun edge first => keeps.data edge (bridged.grows edge first),
    fun rule listed accelerated closure made u v apart reaches => ?_,
    fun rule listed fires other inside same => ?_⟩
  · rw [keeps.closures] at made
    exact (bridged.found rule listed accelerated closure made u v apart reaches).keeps
      (fun _ => id) fun _ => keeps.stores
  · rcases List.mem_append.mp inside with earlier | last
    · exact (bridged.taken rule listed fires other earlier same).keeps (fun _ => id) fun _ => keeps.stores
    · obtain rfl := List.mem_singleton.mp last
      exact (followed (same ▸ fires) rule listed same.symm).keeps bridged.grows fun _ => id

theorem Bridged.process (bridged : solver.Bridged start done state) (regular : solver.Regular)
    (admits : solver.Admits silent allowed) (order : LabelOrder)
    (ledger : solver.Ledger silent allowed done state) {rest : Worklist}
    (popped : state.work.pop? = some (item, rest)) :
    solver.Bridged start (done ++ [item])
      (solver.process order item { state with work := rest, iterations := state.iterations + 1 }) := by
  obtain ⟨-, ⟨absorbed, absorbs⟩ | ⟨-, works, -, followed⟩⟩ :=
    process_cases regular admits order ledger popped
  · exact bridged.absorb absorbed absorbs
  · have ready : solver.Bridged start done { state with work := rest, iterations := state.iterations + 1 } :=
      ⟨bridged.grows, bridged.found, bridged.taken⟩
    exact ready.work works.keeps followed

/-- Around every stored edge that is not silent, the shortcuts have been followed, except around the loops
of a symbol with a closure. -/
theorem Bridged.followed (bridged : solver.Bridged start done state)
    (admits : solver.Admits silent allowed) (ledger : solver.Ledger silent allowed done state)
    (joined : solver.Joined silent done state) (dry : state.work.toList = [])
    (uses : solver.variant.usesClosure) {rule : BracketRule} (listed : rule ∈ solver.brackets)
    {edge : Edge} (inner : edge.label.symbol = rule.inner) (stored : state.Stores edge)
    (audible : ¬ silent edge) (apart : edge.src ≠ edge.dst ∨ ¬ solver.accelerates rule.inner) :
    solver.Followed rule start state edge.src edge.dst := by
  by_cases accelerated : solver.accelerates rule.inner
  · have apart := apart.resolve_right (not_not.mpr accelerated)
    obtain ⟨closure, found⟩ := ledger.valid.present _ accelerated
    refine bridged.found rule listed accelerated closure found _ _ apart ?_
    rw [← inner] at accelerated found
    exact ledger.reach_of_stored admits joined dry accelerated found apart stored
  · obtain ⟨primary, queued⟩ := (ledger.listed edge stored).resolve_left audible
    have taken : ⟨edge, primary⟩ ∈ done := by simpa [history, dry] using queued
    exact bridged.taken rule listed (firesBrackets_of_mem uses accelerated listed) _ taken inner

variable {variant : Variant}

/-- Around every edge of a result the shortcuts have been followed from the seeds on, except around the
loops of a symbol with a closure. -/
theorem Prepared.followed (prepared : solver.Prepared grammar variant) (uses : variant.usesClosure)
    (none : seeds.reflexive = []) {order : LabelOrder} {deadline : Deadline} {result : SolveResult}
    (ran : solver.solveInOrder order seeds deadline = .ok result) {rule : BracketRule}
    (listed : rule ∈ solver.brackets) {edge : Edge} (inner : edge.label.symbol = rule.inner)
    (held : result.data.contains edge) (apart : edge.src ≠ edge.dst ∨ ¬ solver.accelerates rule.inner) :
    ∃ final : SolveState, solver.Followed rule (solver.start seeds) final edge.src edge.dst ∧
      ∀ other, result.data.contains other ↔ final.Stores other := by
  have regular := prepared.regular
  have confines := solver.confines_extent seeds
  have unexpired : ∀ tick, Deadline.unlimited.expired tick = false := fun _ => rfl
  obtain ⟨solved, dry, -⟩ :=
    solveInOrder_eq_ok regular confines (prepared.not_batch uses) order unexpired
  obtain rfl := Except.ok.inj ((solveInOrder_unlimited ran).symm.trans solved)
  obtain ⟨done, stands, bridged⟩ := run_keeps order .unlimited regular confines
    (motive := solver.Bridged (solver.start seeds)) (bridged_start regular seeds)
    (fun done state item rest stands bridged popped =>
      bridged.process regular confines.admits order stands.ledger popped) (solver.itemBound seeds)
  have stored := contains_conclude stands.ledger.valid seeds
  exact ⟨_, bridged.followed confines.admits stands.ledger stands.joined dry (prepared.variant ▸ uses)
    listed inner ((stored edge).mp held) (SeedGraph.not_silent_of_none none _ _) apart, stored⟩

/-- A solver with closures comes to an end whatever shortcuts it is given, and it leaves out no shortcut
between two seed edges around an edge that it has found, unless the edge is a loop of a symbol with a
closure. -/
theorem solve_shortcuts (made : prepare grammar config = .ok core) (uses : config.variant.usesClosure)
    (brackets : List BracketRule) (none : seeds.reflexive = []) (order : LabelOrder)
    (deadline : Deadline) :
    ((∀ tick, deadline.expired tick = false) →
      ∃ result, (core.withBrackets brackets).solveInOrder order seeds deadline = .ok result) ∧
    ∀ result, (core.withBrackets brackets).solveInOrder order seeds deadline = .ok result →
      ∀ rule ∈ brackets, rule.Proper →
        ∀ (opening inner : Label) (parent src dst child : Node),
          opening.symbol = rule.opening → inner.symbol = rule.inner →
          ⟨parent, src, opening⟩ ∈ seeds.edges →
          ⟨dst, child, grammar.label rule.closing opening.index⟩ ∈ seeds.edges →
          (src ≠ dst ∨ ¬ core.accelerates rule.inner) →
          result.data.contains ⟨src, dst, inner⟩ →
          result.data.contains ⟨parent, child, .plain rule.result⟩ := by
  have prepared := (prepared_of_prepare made).1.withBrackets brackets
  have regular := prepared.regular
  refine ⟨fun unexpired => ⟨_, (solveInOrder_eq_ok regular (confines_extent _ seeds)
    (prepared.not_batch uses) order unexpired).1⟩, ?_⟩
  intro result ran rule listed proper opening inner parent src dst child opens inside above below apart held
  obtain ⟨final, followed, stored⟩ := prepared.followed uses none ran listed inside held apart
  have seeded : ∀ edge ∈ seeds.edges, ¬ edge.label.isFault →
      ((core.withBrackets brackets).start seeds).data.contains edge := fun edge seed sound =>
    ((start_seeded regular seeds).data edge).mpr (.inl ⟨sound, .inl seed⟩)
  have closes : (core.withBrackets brackets).grammar.label rule.closing opening.index =
      grammar.label rule.closing opening.index := by
    simp only [Grammar.label, prepared.isVariant]
  refine (stored _).mpr (followed ?_ opening parent child opens (seeded _ above ?_)
    (closes ▸ seeded _ below ?_))
  · simpa [isFault_iff, Label.plain] using proper.result
  · simpa [isFault_iff, opens] using proper.opening
  · simpa [isFault_iff] using proper.closing

/-- A transitive symbol that heads another production, and a symbol that no production derives from
brackets around it. -/
def bridgeGrammar : Grammar :=
  ((Grammar.empty.addRule "A" ["A", "A"]).addRule "A" ["a"]).addRule "R" ["c_i", "o_i"]

def bridgeBrackets : List BracketRule := [{ result := 3, opening := 5, inner := 1, closing := 4 }]

/-- Whether a solve with closures and shortcuts finds an edge, if it comes to an end. -/
def bridgeFinds? (seeds : SeedGraph) (edge : Edge) : Option Bool := do
  let core ← (prepare bridgeGrammar { variant := .pocr }).toOption
  let result ← ((core.withBrackets bridgeBrackets).solveInOrder .ascending seeds .unlimited).toOption
  return result.data.contains edge

def bridgeSeeds : SeedGraph :=
  .ofEdges [⟨1, 2, ⟨5, 7⟩⟩, ⟨2, 3, .plain 2⟩, ⟨3, 4, ⟨4, 7⟩⟩]

theorem solve_shortcuts_bridge : ∃ core result,
    prepare bridgeGrammar { variant := .pocr } = .ok core ∧ core.accelerates 1 ∧
    (core.withBrackets bridgeBrackets).solveInOrder .ascending bridgeSeeds .unlimited = .ok result ∧
    result.data.contains ⟨2, 3, .plain 1⟩ ∧ result.data.contains ⟨1, 4, .plain 3⟩ := by
  have made : prepare bridgeGrammar { variant := .pocr } = .ok _ := rfl
  have none : bridgeSeeds.reflexive = [] := rfl
  obtain ⟨ends, follows⟩ := solve_shortcuts made rfl bridgeBrackets none .ascending .unlimited
  obtain ⟨result, ran⟩ := ends fun _ => rfl
  have inner : result.data.contains ⟨2, 3, .plain 1⟩ := by
    have found : bridgeFinds? bridgeSeeds ⟨2, 3, .plain 1⟩ = some true := by decide +kernel
    simpa [bridgeFinds?, made, ran, Except.toOption] using found
  have named : BracketRule.ofNames bridgeGrammar "R" "o_i" "A" "c_i" = .ok ⟨3, 5, 1, 4⟩ := rfl
  refine ⟨_, result, made, by decide +kernel, ran, inner, ?_⟩
  exact follows result ran _ (List.mem_singleton_self _) (BracketRule.proper_of_ofNames named) ⟨5, 7⟩
    (.plain 1) 1 2 3 4 rfl rfl (by decide) (by decide +kernel) (.inl (by decide)) inner

def cycleSeeds : SeedGraph :=
  .ofEdges [⟨1, 2, ⟨5, 7⟩⟩, ⟨2, 3, .plain 2⟩, ⟨3, 2, .plain 2⟩, ⟨2, 4, ⟨4, 7⟩⟩]

/-- Around a loop of a symbol with a closure, the shortcut is left out, although both brackets and the
loop are found. -/
theorem shortcut_lost_cycle :
    BracketRule.ofNames bridgeGrammar "R" "o_i" "A" "c_i" = .ok ⟨3, 5, 1, 4⟩ ∧
    ⟨3, 5, 1, 4⟩ ∈ bridgeBrackets ∧ cycleSeeds.reflexive = [] ∧
    ⟨1, 2, ⟨5, 7⟩⟩ ∈ cycleSeeds.edges ∧ ⟨2, 4, bridgeGrammar.label 4 7⟩ ∈ cycleSeeds.edges ∧
    bridgeFinds? cycleSeeds ⟨2, 2, .plain 1⟩ = some true ∧
    bridgeFinds? cycleSeeds ⟨1, 4, .plain 3⟩ = some false :=
  ⟨rfl, by decide, rfl, by decide, by decide +kernel, by decide +kernel, by decide +kernel⟩

end Solver

end GrammarReach
