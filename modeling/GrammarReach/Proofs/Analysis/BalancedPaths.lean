import GrammarReach.Proofs.Analysis.FlowSimplification

namespace GrammarReach

/-- A path of the graph from one node to another spells a word: the labels of its edges, in order. -/
inductive Multigraph.Spells (graph : Multigraph) : Node → List Label → Node → Prop
  | nil (node : Node) : graph.Spells node [] node
  | cons {src middle dst : Node} {label : Label} {word : List Label} :
      graph.hasEdge ⟨src, middle, label⟩ → graph.Spells middle word dst →
      graph.Spells src (label :: word) dst

namespace Multigraph.Spells

variable {graph : Multigraph} {src dst : Node} {label : Label} {word front back : List Label}

theorem single (there : graph.hasEdge ⟨src, dst, label⟩) : graph.Spells src [label] dst :=
  .cons there (.nil dst)

@[simp] theorem nil_iff : graph.Spells src [] dst ↔ src = dst := by
  constructor
  · rintro ⟨⟩
    rfl
  · rintro rfl
    exact .nil src

@[simp] theorem cons_iff : graph.Spells src (label :: word) dst ↔
    ∃ middle, graph.hasEdge ⟨src, middle, label⟩ ∧ graph.Spells middle word dst := by
  constructor
  · rintro ⟨⟩
    next middle there rest => exact ⟨middle, there, rest⟩
  · rintro ⟨middle, there, rest⟩
    exact .cons there rest

/-- A path that spells two words one after the other turns from the first to the second somewhere. -/
@[simp] theorem append_iff : graph.Spells src (front ++ back) dst ↔
    ∃ middle, graph.Spells src front middle ∧ graph.Spells middle back dst := by
  induction front generalizing src with
  | nil => simp
  | cons label front ih =>
    simp only [List.cons_append, cons_iff, ih]
    constructor
    · rintro ⟨next, there, middle, first, second⟩
      exact ⟨middle, ⟨next, there, first⟩, second⟩
    · rintro ⟨middle, ⟨next, there, first⟩, second⟩
      exact ⟨next, there, middle, first, second⟩

end Multigraph.Spells

namespace ValueFlow

open Multigraph

/-- The balanced words of labels. A call and the return that closes it are of one site. -/
inductive Balanced : List Label → Prop
  | nil : Balanced []
  | direct (index : Nat) : Balanced [⟨direct, index⟩]
  | append {front back : List Label} : Balanced front → Balanced back → Balanced (front ++ back)
  | matched {word : List Label} (site : Nat) : Balanced word →
      Balanced (⟨call, site⟩ :: word ++ [⟨ret, site⟩])

variable {graph : Multigraph} {src dst : Node}

/-- A flow takes a path that spells a balanced word. -/
theorem Flows.spells (formed : WellFormed graph) (flows : Flows graph src dst) :
    ∃ word, Balanced word ∧ graph.Spells src word dst := by
  induction flows with
  | refl _ => exact ⟨[], .nil, .nil _⟩
  | direct straight =>
    obtain ⟨⟨symbol, index⟩, there, straight⟩ := straight
    obtain rfl : symbol = ValueFlow.direct := (formed.direct symbol).mp straight
    exact ⟨_, .direct index, .single there⟩
  | trans _ _ first second =>
    obtain ⟨front, balanced, path⟩ := first
    obtain ⟨back, balanced', path'⟩ := second
    exact ⟨_, balanced.append balanced', Spells.append_iff.mpr ⟨_, path, path'⟩⟩
  | @matched src entry exit dst site opens _ closes inner =>
    obtain ⟨word, balanced, path⟩ := inner
    refine ⟨_, balanced.matched site, Spells.append_iff.mpr ⟨exit, ?_, .single closes⟩⟩
    exact .cons opens path

/-- Along a path that spells a balanced word, values flow. -/
theorem Balanced.flows (formed : WellFormed graph) {word : List Label} (balanced : Balanced word)
    (live : graph.hasNode src) (path : graph.Spells src word dst) : Flows graph src dst := by
  induction balanced generalizing src dst with
  | nil =>
    obtain rfl := Spells.nil_iff.mp path
    exact .refl live
  | direct index =>
    simp only [Spells.cons_iff, Spells.nil_iff, exists_eq_right] at path
    exact .direct ⟨_, path, (formed.direct ValueFlow.direct).mpr rfl⟩
  | append _ _ first second =>
    obtain ⟨middle, path, path'⟩ := Spells.append_iff.mp path
    have front := first live path
    exact front.trans (second (front.live formed.valid).2 path')
  | matched site _ inner =>
    simp only [Spells.append_iff, Spells.cons_iff, Spells.nil_iff, exists_eq_right] at path
    obtain ⟨exit, ⟨entry, opens, path⟩, closes⟩ := path
    exact .matched opens (inner (formed.valid.hasNode_of_hasEdge opens).2 path) closes

/-- The flows are the balanced paths from live nodes. -/
theorem flows_iff_spells (formed : WellFormed graph) (src dst : Node) :
    Flows graph src dst ↔
      graph.hasNode src ∧ ∃ word, Balanced word ∧ graph.Spells src word dst := by
  constructor
  · exact fun flows => ⟨(flows.live formed.valid).1, flows.spells formed⟩
  · rintro ⟨live, word, balanced, path⟩
    exact balanced.flows formed live path

/-- In a dataset, the pairs of value flow are those that a balanced path joins. -/
def FindsBalanced (graph : Multigraph) (data : Dataset) : Prop :=
  ∀ src dst, data.contains ⟨src, dst, .plain flow⟩ ↔
    graph.hasNode src ∧ ∃ word, Balanced word ∧ graph.Spells src word dst

theorem acyclic_grammar : Solver.cycleFault? grammar = none := by
  have none : grammar.unaryCycles = [] := by decide +kernel
  rw [Solver.cycleFault?, none]

/-- Without simplification, a run of the analysis finds the balanced paths whatever the strategy, and so
it does in whatever order its solver goes through the labels. -/
theorem run_balanced (built : Built graph) {config : Config} (settings : config.validate = .ok ())
    (unsimplified : config.passes.any = false) (solves : config.solve)
    (known : ∀ name, config.countSymbol = some name → (grammar.find? name).isSome) {clock : Nat → Nat}
    (unexpired : ∀ tick, (Deadline.ofSeconds? config.timeout? clock).expired tick = false) :
    (∃ run result, (analysis graph).run config clock = .ok run ∧ run.result? = some result ∧
      FindsBalanced graph result.data) ∧
    ∃ solver, (analysis graph).solver config = .ok solver ∧
      ∀ order, ∃ result, solver.solveInOrder order (analysis graph).seeds
        (.ofSeconds? config.timeout? clock) = .ok result ∧ FindsBalanced graph result.data := by
  have formed := built.wellFormed
  obtain ⟨solver, made⟩ := (analysis graph).solver_eq_ok acyclic_grammar known
  have finds : ∀ order, ∃ result, solver.solveInOrder order (analysis graph).seeds
      (.ofSeconds? config.timeout? clock) = .ok result ∧ FindsBalanced graph result.data := by
    intro order
    obtain ⟨result, solved, found⟩ := solve_flows formed made order unexpired
    exact ⟨result, solved, fun src dst => (found src dst).trans (flows_iff_spells formed src dst)⟩
  refine ⟨?_, solver, made, finds⟩
  obtain ⟨result, solved, found⟩ := finds .ascending
  have whole : ((analysis graph).simplify config).1 = analysis graph := by
    rw [Analysis.simplify, if_neg (by simp [unsimplified])]
  rw [← whole] at made solved
  obtain ⟨run, ran, -, has⟩ := Analysis.run_eq config settings solves made solved
  exact ⟨run, result, ran, has, found⟩

/-- A procedure that calls itself once from its only call site. -/
def recursiveGraph : Multigraph :=
  addReturn (addReturn (addFlow (addCall (addCall emptyGraph 1 2 0) 2 3 0) 3 4) 4 5 0) 5 6 0

theorem built_recursiveGraph : Built recursiveGraph := by
  have calls : IsKind call := .inr (.inl rfl)
  have returns : IsKind ret := .inr (.inr rfl)
  exact .addEdge _ returns (.addEdge _ returns (.addEdge _ (.inl rfl) (.addEdge _ calls
    (.addEdge _ calls .empty))))

theorem run_balanced_recursiveGraph : ∃ run result,
    (analysis recursiveGraph).run { variant := .pocr } (fun _ => 0) = .ok run ∧
    run.result? = some result ∧ FindsBalanced recursiveGraph result.data ∧
    result.data.contains ⟨1, 6, .plain flow⟩ ∧ ¬ result.data.contains ⟨1, 5, .plain flow⟩ := by
  have settings : ({ variant := .pocr } : Config).validate = .ok () := rfl
  have unexpired : ∀ tick, (Deadline.ofSeconds? ({ variant := .pocr } : Config).timeout?
      fun _ => 0).expired tick = false := fun _ => by simp [Deadline.expired, Deadline.ofSeconds?]
  obtain ⟨⟨run, result, ran, has, found⟩, -⟩ := run_balanced built_recursiveGraph settings rfl rfl
    (fun _ named => by cases named) unexpired
  have computed : (((analysis recursiveGraph).run { variant := .pocr } fun _ => 0).toOption.bind fun run =>
      run.result?.map fun result => (result.data.contains ⟨1, 6, .plain flow⟩,
        result.data.contains ⟨1, 5, .plain flow⟩)) = some (true, false) := by decide +kernel
  simp only [ran, Except.toOption, Option.bind_some, has, Option.map_some, Option.some.injEq,
    Prod.mk.injEq] at computed
  exact ⟨run, result, ran, has, found, computed.1, by simp [computed.2]⟩

end ValueFlow

end GrammarReach
