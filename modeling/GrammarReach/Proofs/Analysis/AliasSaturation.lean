import GrammarReach.Proofs.Analysis.AliasSimplification

/-!
What the alias analysis solves, said without a word on how: the least set of edges that holds the seeds
and the loops of the reflexive symbols and is closed under all productions.

The loops of `A` and `Abar` are stored but never worked on, so a join of two of them does not happen.
In this grammar that costs nothing, for such a join leads back to one of its operands, and no unary
production starts from either symbol.
-/

namespace GrammarReach.Alias

variable {graph : Multigraph}

/-- A set of edges that holds all seeds of an expression graph and the loops on its live nodes, and that
no production leads out of. The symbols of one use of a production share their index, as far as they
bear one. -/
structure Saturated (graph : Multigraph) (edges : Edge → Prop) : Prop where
  seeds : ∀ seed ∈ (analysis graph).seeds.edges, edges seed
  loops : ∀ node, graph.hasNode node → ∀ symbol ∈ [mayAlias, assigned, assignedBar],
    edges ⟨node, node, .plain symbol⟩
  unary : ∀ rule ∈ grammar.unary, ∀ src dst index,
    edges ⟨src, dst, grammar.label rule.rhs index⟩ → edges ⟨src, dst, grammar.label rule.lhs index⟩
  binary : ∀ rule ∈ grammar.binary, ∀ src middle dst index,
    edges ⟨src, middle, grammar.label rule.left index⟩ →
    edges ⟨middle, dst, grammar.label rule.right index⟩ →
    edges ⟨src, dst, grammar.label rule.lhs index⟩

/-- A unary production neither starts from a reflexive symbol nor makes up an index. -/
theorem unary_shape {rule : UnaryRule} (listed : rule ∈ grammar.unary) :
    ∃ lhs rhs : Role, rule = unaryRule lhs rhs ∧ lhs.isVariant = false ∧ rhs.isReflexive = false := by
  rw [unary_grammar] at listed
  simp only [List.mem_cons, List.not_mem_nil, or_false] at listed
  obtain rfl | rfl | rfl := listed <;> exact ⟨_, _, rfl, rfl, rfl⟩

/-- Where a binary production joins two reflexive symbols, they are the one that it makes. -/
theorem binary_shape {rule : BinaryRule} (listed : rule ∈ grammar.binary) :
    ∃ lhs left right : Role, rule = binaryRule lhs left right ∧
      (lhs.isVariant → left.isVariant ∨ right.isVariant) ∧
      (left.isReflexive = false ∨ right.isReflexive = false ∨ lhs = left ∧ lhs = right) := by
  rw [binary_grammar] at listed
  simp only [List.mem_cons, List.not_mem_nil, or_false] at listed
  obtain rfl | rfl | rfl | rfl | rfl | rfl | rfl | rfl | rfl | rfl := listed <;>
    exact ⟨_, _, _, rfl, by decide, by decide⟩

/-- Two labels that agree have an index in common. -/
theorem exists_common_index {left right : Role} {index other : Nat}
    (agree : grammar.agree (left.label index) (right.label other)) :
    ∃ common, left.label index = left.label common ∧ right.label other = right.label common := by
  by_cases varies : left.isVariant
  · refine ⟨index, rfl, ?_⟩
    by_cases also : right.isVariant
    · have same : index = other := by
        simpa [Grammar.agree, Role.isVariant_symbol, Role.label_of_isVariant, varies, also] using agree
      rw [same]
    · exact label_congr (Bool.eq_false_iff.mpr also) other index
  · exact ⟨other, label_congr (Bool.eq_false_iff.mpr varies) index other, rfl⟩

private theorem solution_loop (formed : WellFormed graph) {node : Node} (live : graph.hasNode node)
    {symbol : Symbol} (listed : symbol ∈ [mayAlias, assigned, assignedBar]) :
    (analysis graph).seeds.Solution grammar ⟨node, node, .plain symbol⟩ := by
  simp only [List.mem_cons, List.not_mem_nil, or_false] at listed
  obtain rfl | rfl | rfl := listed
  · exact (solution_iff_aliases formed node node).mpr (.refl live)
  · exact (solution_iff_assigned formed node node).mpr ⟨live, .refl⟩
  · exact (solution_iff_assignedBar formed node node).mpr ⟨live, .refl⟩

/-- Nothing is lost on the way through the solution, even where it goes over silent edges. -/
theorem saturated_solution (formed : WellFormed graph) :
    Saturated graph ((analysis graph).seeds.Solution grammar) where
  seeds seed listed := by
    obtain ⟨role, index, -, same, -⟩ := exists_role formed listed
    refine .inr (.initial ⟨?_, .inl listed⟩)
    rw [isFault_iff, same, role.symbol_label]
    exact role.symbol_ne_fault
  loops node live symbol listed := solution_loop formed live listed
  unary rule listed src dst index inside := by
    obtain ⟨lhs, rhs, rfl, plain, loud⟩ := unary_shape listed
    exact solution_unary listed plain inside loud
  binary rule listed src middle dst index first second := by
    obtain ⟨lhs, left, right, rfl, inherits, loud | loud | ⟨rfl, rfl⟩⟩ := binary_shape listed
    · exact solution_join listed index first second inherits (.inl (not_silent loud _ _ _))
    · exact solution_join listed index first second inherits (.inr (not_silent loud _ _ _))
    · by_cases silent : (analysis graph).seeds.Silent grammar ⟨src, middle, lhs.label index⟩
      · -- The first operand is a loop, and the second is what the join would derive.
        obtain rfl : src = middle := silent.loop
        exact second
      · exact solution_join listed index first second inherits (.inl silent)

variable {edges : Edge → Prop}

/-- An edge of a set that bears the label of a role. -/
private def Roled (edges : Edge → Prop) (edge : Edge) : Prop :=
  edges edge ∧ ∃ role : Role, ∃ index, edge.label = role.label index

private theorem roled_plain {src dst : Node} (role : Role) (plain : role.isVariant = false)
    (inside : edges ⟨src, dst, .plain role.symbol⟩) : Roled edges ⟨src, dst, .plain role.symbol⟩ :=
  ⟨inside, role, 0, (Role.label_of_not_isVariant plain 0).symm⟩

private theorem roled_initial (formed : WellFormed graph) (saturated : Saturated graph edges)
    {edge : Edge} (initial : (analysis graph).seeds.Initial grammar edge) : Roled edges edge := by
  obtain ⟨-, listed | ⟨node, there, symbol, empty, rfl⟩⟩ := initial
  · obtain ⟨role, index, -, same, -⟩ := exists_role formed listed
    exact ⟨saturated.seeds edge listed, role, index, same⟩
  · obtain rfl := (mem_nullable_grammar symbol).mp empty
    exact roled_plain .mayAlias rfl
      (saturated.loops node ((mem_nodes_seeds formed node).mp there) _ (by simp [Role.symbol]))

private theorem roled_silent (formed : WellFormed graph) (saturated : Saturated graph edges)
    {edge : Edge} (silent : (analysis graph).seeds.Silent grammar edge) : Roled edges edge := by
  obtain ⟨-, -, node, there, label, reflexive, rfl⟩ := silent
  have live := (mem_nodes_seeds formed node).mp there
  rw [reflexive_seeds, List.mem_pair] at reflexive
  obtain rfl | rfl := reflexive
  · exact roled_plain .assigned rfl (saturated.loops node live _ (by simp [Role.symbol]))
  · exact roled_plain .assignedBar rfl (saturated.loops node live _ (by simp [Role.symbol]))

private theorem roled_unary (saturated : Saturated graph edges) {edge : Edge}
    (inside : Roled edges edge) {label : Label} (rule : label ∈ grammar.derivedUnary edge.label) :
    Roled edges ⟨edge.src, edge.dst, label⟩ := by
  obtain ⟨src, dst, own⟩ := edge
  obtain ⟨inside, role, index, rfl⟩ := inside
  obtain ⟨found, listed, kind, -, rfl⟩ := (grammar.mem_derivedUnary _ _).mp rule
  obtain ⟨lhs, rhs, rfl, plain, -⟩ := unary_shape listed
  obtain rfl : rhs = role := Role.symbol_injective (kind.trans (role.symbol_label index))
  have derived : grammar.inherit lhs.symbol (grammar.ownIndex? (rhs.label index)) = lhs.label index :=
    Role.inherit_label fun varies => by simp [plain] at varies
  exact ⟨derived ▸ saturated.unary _ listed src dst index inside, lhs, index, derived⟩

private theorem roled_binary (saturated : Saturated graph edges) {left right : Edge}
    (first : Roled edges left) (second : Roled edges right) (meets : left.dst = right.src) {label : Label}
    (rule : label ∈ grammar.derivedBinary left.label right.label) :
    Roled edges ⟨left.src, right.dst, label⟩ := by
  obtain ⟨src, middle, own⟩ := left
  obtain ⟨_, dst, own'⟩ := right
  obtain rfl := meets
  obtain ⟨first, one, index, rfl⟩ := first
  obtain ⟨second, two, other, rfl⟩ := second
  obtain ⟨agree, found, listed, kind, kind', -, rfl⟩ := (grammar.mem_derivedBinary _ _ _).mp rule
  obtain ⟨lhs, left, right, rfl, inherits, -⟩ := binary_shape listed
  obtain rfl : left = one := Role.symbol_injective (kind.trans (one.symbol_label index))
  obtain rfl : right = two := Role.symbol_injective (kind'.trans (two.symbol_label other))
  obtain ⟨common, same, same'⟩ := exists_common_index agree
  have derived := Role.inherit_join inherits common
  dsimp only at first second ⊢
  rw [same, same', show (binaryRule lhs left right).lhs = lhs.symbol from rfl, derived]
  rw [same] at first
  rw [same'] at second
  exact ⟨saturated.binary _ listed src middle dst common first second, lhs, common, rfl⟩

/-- The solution lies in every saturated set. -/
theorem Saturated.of_solution (saturated : Saturated graph edges) (formed : WellFormed graph)
    {edge : Edge} (inside : (analysis graph).seeds.Solution grammar edge) : edges edge := by
  obtain silent | derived := inside
  · exact (roled_silent formed saturated silent).1
  · suffices roled : Roled edges edge from roled.1
    refine derived.least ?_ ?_ ?_ ?_
    · exact fun edge => roled_initial formed saturated
    · exact fun edge => roled_silent formed saturated
    · exact fun edge inside _ label => roled_unary saturated inside
    · exact fun left right first second _ meets label => roled_binary saturated first second meets

theorem acyclic_grammar : Solver.cycleFault? grammar = none := by
  have none : grammar.unaryCycles = [] := by decide +kernel
  rw [Solver.cycleFault?, none]

/-- Whatever the strategy, a solve finds the least saturated set, and so do all other solves that come
to an end. -/
theorem solve_saturated (built : Built graph) {config : Config}
    (known : ∀ name, config.countSymbol = some name → (grammar.find? name).isSome) (order : LabelOrder)
    {deadline : Deadline} (unexpired : ∀ tick, deadline.expired tick = false) :
    ∃ solver result, (analysis graph).solver config = .ok solver ∧
      solver.solveInOrder order (analysis graph).seeds deadline = .ok result ∧
      Saturated graph (fun edge => result.data.contains edge) ∧
      (∀ edges, Saturated graph edges → ∀ edge, result.data.contains edge → edges edge) ∧
      ∀ (config' : Config) (solver' : Solver) (order' : LabelOrder) (deadline' : Deadline)
        (result' : SolveResult), (analysis graph).solver config' = .ok solver' →
        solver'.solveInOrder order' (analysis graph).seeds deadline' = .ok result' →
        ∀ edge, result'.data.contains edge ↔ result.data.contains edge := by
  have formed := built.ofKinds
  have indexed := indexedBy_seeds formed
  obtain ⟨solver, made⟩ := (analysis graph).solver_eq_ok acyclic_grammar known
  obtain ⟨prepared, -⟩ := Analysis.prepared_of_solver made
  obtain ⟨result, solved, found⟩ := prepared.solve_exact built_grammar.selfRuled indexed
    (implied_solver formed made) order unexpired
  refine ⟨solver, result, made, solved, ?_, fun edges saturated edge inside => ?_, ?_⟩
  · have same : (fun edge => result.data.contains edge = true) =
        (analysis graph).seeds.Solution grammar := funext fun edge => propext (found edge)
    exact same ▸ saturated_solution formed
  · exact saturated.of_solution formed ((found edge).mp inside)
  · intro config' solver' order' deadline' result' made' solved' edge
    obtain ⟨prepared', -⟩ := Analysis.prepared_of_solver made'
    rw [found, prepared'.solution_of_ok built_grammar.selfRuled indexed (implied_solver formed made')
      solved' edge]

theorem solve_saturated_sharedGraph : ∃ solver result,
    (analysis sharedGraph).solver { variant := .focr } = .ok solver ∧
    solver.solveInOrder .ascending (analysis sharedGraph).seeds .unlimited = .ok result ∧
    Saturated sharedGraph (fun edge => result.data.contains edge) ∧
    result.data.contains ⟨2, 3, .plain mayAlias⟩ := by
  have unexpired : ∀ tick, Deadline.unlimited.expired tick = false := fun _ => rfl
  have known : ∀ name, ({ variant := .focr } : Config).countSymbol = some name →
      (grammar.find? name).isSome := fun _ named => by cases named
  obtain ⟨solver, result, made, solved, saturated, -, -⟩ :=
    solve_saturated built_sharedGraph known .ascending unexpired
  refine ⟨solver, result, made, solved, saturated, ?_⟩
  have found : (analysis sharedGraph).finds? { variant := .focr } ⟨2, 3, .plain mayAlias⟩ = some true := by
    decide +kernel
  simpa [Analysis.finds?, made, solved, Except.toOption] using found

end GrammarReach.Alias
