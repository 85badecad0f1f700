import GrammarReach.Analysis.ValueFlow
import GrammarReach.Proofs.Analysis.Basic
import GrammarReach.Proofs.Graph.Kinds
import GrammarReach.Proofs.Simplify.Collapse

/-!
What the value-flow analysis computes: a value flows along direct edges, and through a call and a
return of one site when it flows from where the call leads to where the return starts.
-/

namespace GrammarReach.ValueFlow

def called : Symbol := symbol "Cl_i"

theorem unary_grammar : grammar.unary = [⟨flow, direct⟩] := by decide +kernel

theorem binary_grammar :
    grammar.binary = [⟨flow, flow, flow⟩, ⟨called, call, flow⟩, ⟨flow, called, ret⟩] := by
  decide +kernel

theorem mem_nullable_grammar (symbol : Symbol) : symbol ∈ grammar.nullable ↔ symbol = flow := by
  have whole : grammar.nullable.toList = [flow] := by decide +kernel
  rw [← Std.TreeSet.mem_toList, whole, List.mem_singleton]

theorem isVariant_grammar : grammar.isVariant flow = false ∧ grammar.isVariant direct = false ∧
    grammar.isVariant called = true ∧ grammar.isVariant call = true ∧ grammar.isVariant ret = true := by
  decide +kernel

theorem symbols_grammar : flow = 1 ∧ called = 2 ∧ call = 3 ∧ ret = 4 ∧ direct = 5 := by decide +kernel

theorem built_grammar : grammar.Built := Grammar.Built.empty.addRules _

def IsKind (kind : Kind) : Prop := kind = direct ∨ kind = call ∨ kind = ret

/-- The graphs that can be built for the analysis. -/
inductive Built : Multigraph → Prop
  | empty : Built emptyGraph
  | addNode {graph : Multigraph} (node : Node) : Built graph → Built (graph.addNode node).1
  | markSource {graph : Multigraph} (node : Node) : Built graph → Built (graph.markSource node)
  | addEdge {graph : Multigraph} (edge : Edge) : IsKind edge.label.symbol → Built graph →
      Built (graph.addEdge edge).1
  | removeEdge {graph : Multigraph} (id : EdgeId) : Built graph → Built (graph.removeEdge id).1
  | setContributing {graph : Multigraph} (id : EdgeId) (value : Bool) : Built graph →
      Built (graph.setContributing id value)
  | merge {graph : Multigraph} (node target : Node) : Built graph → Built (graph.merge node target).1

/-- Only flows within a procedure are direct, and apart from them there are calls and returns. -/
structure WellFormed (graph : Multigraph) : Prop where
  valid : graph.Valid
  direct : ∀ kind, graph.isDirect kind ↔ kind = direct
  kinds : ∀ edge, graph.hasEdge edge → IsKind edge.label.symbol

theorem wellFormed_iff {graph : Multigraph} : WellFormed graph ↔ graph.OfKinds direct IsKind :=
  ⟨fun formed => ⟨formed.valid, formed.direct, formed.kinds⟩,
    fun kept => ⟨kept.valid, kept.direct, kept.kinds⟩⟩

theorem WellFormed.of_quotient {before after : Multigraph} (formed : WellFormed before)
    (quotient : before.Quotient after) : WellFormed after :=
  wellFormed_iff.mpr ((wellFormed_iff.mp formed).of_quotient quotient)

theorem built_iff_assembled {graph : Multigraph} :
    Built graph ↔ Multigraph.Assembled direct IsKind graph := by
  constructor
  · intro built
    induction built with
    | empty => exact .empty
    | addNode node _ assembled => exact assembled.addNode node
    | markSource node _ assembled => exact assembled.markSource node
    | addEdge edge kind _ assembled => exact assembled.addEdge edge kind
    | removeEdge id _ assembled => exact assembled.removeEdge id
    | setContributing id value _ assembled => exact assembled.setContributing id value
    | merge node target _ assembled => exact assembled.merge node target
  · intro assembled
    induction assembled with
    | empty => exact .empty
    | addNode node _ built => exact built.addNode node
    | markSource node _ built => exact built.markSource node
    | addEdge edge kind _ built => exact built.addEdge edge kind
    | removeEdge id _ built => exact built.removeEdge id
    | setContributing id value _ built => exact built.setContributing id value
    | merge node target _ built => exact built.merge node target

theorem Built.wellFormed {graph : Multigraph} (built : Built graph) : WellFormed graph :=
  wellFormed_iff.mpr (built_iff_assembled.mp built).ofKinds

private theorem isKind_of_edgeKind? {label : String} {kind : Kind}
    (found : format.edgeKind? grammar label = some kind) : IsKind kind := by
  simp only [EdgeListFormat.edgeKind?, format, Option.all_some, Option.ite_none_right_eq_some,
    List.contains_iff_mem, List.mem_cons, List.not_mem_nil, or_false] at found
  obtain ⟨rfl | rfl | rfl, declared⟩ := found
  · exact Or.inl (by rw [direct, symbol, declared]; rfl)
  · exact Or.inr (Or.inl (by rw [call, symbol, declared]; rfl))
  · exact Or.inr (Or.inr (by rw [ret, symbol, declared]; rfl))

/-- What is read from a text is the analysis of such a graph. -/
theorem built_of_read {text : String} {made : Analysis} (reads : read text = .ok made) :
    ∃ graph, Built graph ∧ made = analysis graph := by
  have known : format.direct.mapM grammar.lookup = .ok [direct] := by
    have declared : grammar.find? "a" = some direct := by decide +kernel
    simp [format, Grammar.lookup, declared, bind, Except.bind, pure, Except.pure]
  cases parsed : format.read grammar text with
  | error fault => simp [read, parsed, bind, Except.bind] at reads
  | ok graph =>
    simp only [read, parsed, bind, Except.bind, pure, Except.pure, Except.ok.injEq] at reads
    have assembled := EdgeListFormat.assembled_of_read (fun _ _ => isKind_of_edgeKind?) known parsed
    exact ⟨graph, built_iff_assembled.mpr assembled, reads.symm⟩

/-- A value flows from one node to another. -/
inductive Flows (graph : Multigraph) : Node → Node → Prop
  | refl {node : Node} : graph.hasNode node → Flows graph node node
  | direct {src dst : Node} : graph.Straight src dst → Flows graph src dst
  | trans {src middle dst : Node} : Flows graph src middle → Flows graph middle dst → Flows graph src dst
  | matched {src entry exit dst : Node} {site : Nat} : graph.hasEdge ⟨src, entry, ⟨call, site⟩⟩ →
      Flows graph entry exit → graph.hasEdge ⟨exit, dst, ⟨ret, site⟩⟩ → Flows graph src dst

structure Means (graph : Multigraph) (edge : Edge) : Prop where
  flow : edge.label.symbol = flow → Flows graph edge.src edge.dst
  called : edge.label.symbol = called →
    ∃ entry, graph.hasEdge ⟨edge.src, entry, ⟨call, edge.label.index⟩⟩ ∧ Flows graph entry edge.dst
  direct : edge.label.symbol = direct → graph.Straight edge.src edge.dst
  call : edge.label.symbol = call → graph.hasEdge edge
  ret : edge.label.symbol = ret → graph.hasEdge edge

variable {graph : Multigraph}

theorem mem_edges_seeds (formed : WellFormed graph) (seed : Edge) :
    seed ∈ (analysis graph).seeds.edges ↔
      ∃ edge, graph.hasEdge edge ∧ seed = Analysis.ownSeed grammar edge :=
  (Analysis.mem_edges_seeds (analysis graph) formed.valid seed).trans
    (exists_congr fun _ => and_congr_right fun _ => List.mem_singleton)

theorem mem_nodes_seeds (formed : WellFormed graph) (node : Node) :
    node ∈ (analysis graph).seeds.nodes ↔ graph.hasNode node :=
  Analysis.mem_nodes_seeds (analysis graph) formed.valid
    (fun edge seed listed => by
      rw [List.mem_singleton.mp listed]
      exact ⟨Or.inl rfl, Or.inr rfl⟩) node

theorem reflexive_seeds (graph : Multigraph) : (analysis graph).seeds.reflexive = [] :=
  Analysis.reflexive_seeds _

theorem indexedBy_seeds (formed : WellFormed graph) : (analysis graph).seeds.IndexedBy grammar where
  edges seed listed plain := by
    obtain ⟨edge, -, rfl⟩ := (mem_edges_seeds formed seed).mp listed
    rw [Analysis.ownSeed, Grammar.symbol_label] at plain
    rw [Analysis.ownSeed, Grammar.label_of_not_isVariant _ plain]
    rfl
  reflexive label listed := by
    rw [reflexive_seeds] at listed
    cases listed

private theorem Means.of_flow {edge : Edge} (same : edge.label.symbol = ValueFlow.flow)
    (flows : Flows graph edge.src edge.dst) : Means graph edge := by
  refine ⟨fun _ => flows, ?_, ?_, ?_, ?_⟩ <;> simp [same, symbols_grammar]

private theorem Means.of_called {edge : Edge} (same : edge.label.symbol = ValueFlow.called) {entry : Node}
    (opens : graph.hasEdge ⟨edge.src, entry, ⟨ValueFlow.call, edge.label.index⟩⟩)
    (flows : Flows graph entry edge.dst) : Means graph edge := by
  refine ⟨?_, fun _ => ⟨entry, opens, flows⟩, ?_, ?_, ?_⟩ <;> simp [same, symbols_grammar]

/-- A seed means what it should. -/
private theorem means_ownSeed (formed : WellFormed graph) {edge : Edge} (there : graph.hasEdge edge) :
    Means graph (Analysis.ownSeed grammar edge) := by
  obtain ⟨-, -, -, callVaries, retVaries⟩ := isVariant_grammar
  have varies : grammar.isVariant edge.label.symbol → Analysis.ownSeed grammar edge = edge := by
    intro varies
    rw [Analysis.ownSeed, Grammar.label, if_pos varies]
  have symbol : (Analysis.ownSeed grammar edge).label.symbol = edge.label.symbol :=
    Grammar.symbol_label _ _ _
  obtain same | same | same := formed.kinds edge there
  · refine ⟨?_, ?_, fun _ => ⟨edge.label, there, (formed.direct _).mpr same⟩, ?_, ?_⟩ <;>
      simp [symbol, same, symbols_grammar]
  · rw [varies (same ▸ callVaries)]
    refine ⟨?_, ?_, ?_, fun _ => there, ?_⟩ <;> simp [same, symbols_grammar]
  · rw [varies (same ▸ retVaries)]
    refine ⟨?_, ?_, ?_, ?_, fun _ => there⟩ <;> simp [same, symbols_grammar]

/-- Whatever is derived means what it should. -/
theorem means_of_derives (formed : WellFormed graph) {edge : Edge}
    (derived : (analysis graph).seeds.Derives grammar edge) : Means graph edge := by
  obtain ⟨-, -, calledVaries, callVaries, retVaries⟩ := isVariant_grammar
  refine derived.least ?_ ?_ ?_ ?_
  · rintro edge ⟨-, listed | ⟨node, there, symbol, empty, rfl⟩⟩
    · obtain ⟨own, there, rfl⟩ := (mem_edges_seeds formed edge).mp listed
      exact means_ownSeed formed there
    · obtain rfl := (mem_nullable_grammar symbol).mp empty
      exact .of_flow rfl (.refl ((mem_nodes_seeds formed node).mp there))
  · rintro edge ⟨-, -, node, -, label, reflexive, -⟩
    rw [reflexive_seeds] at reflexive
    cases reflexive
  · intro edge means _ label rule
    obtain ⟨found, listed, kind, -, rfl⟩ := (grammar.mem_derivedUnary _ _).mp rule
    rw [unary_grammar, List.mem_singleton] at listed
    subst listed
    exact .of_flow (Grammar.symbol_inherit _ _ _) (.direct (means.direct kind.symm))
  · intro left right one two _ meets label rule
    obtain ⟨agree, found, listed, first, second, -, rfl⟩ := (grammar.mem_derivedBinary _ _ _).mp rule
    rw [binary_grammar] at listed
    simp only [List.mem_cons, List.not_mem_nil, or_false] at listed
    obtain rfl | rfl | rfl := listed
    · have flows := one.flow first.symm
      rw [meets] at flows
      exact .of_flow (Grammar.symbol_inherit _ _ _) (flows.trans (two.flow second.symm))
    · obtain ⟨src, middle, ⟨symbol, site⟩⟩ := left
      obtain rfl : call = symbol := first
      obtain rfl : middle = right.src := meets
      have index : (grammar.inherit called ((grammar.ownIndex? ⟨call, site⟩).or
          (grammar.ownIndex? right.label))).index = site := by
        simp [Grammar.inherit, Grammar.ownIndex?, Grammar.label, callVaries, calledVaries]
      refine .of_called (Grammar.symbol_inherit _ _ _) ?_ (two.flow second.symm)
      rw [index]
      exact one.call rfl
    · obtain ⟨entry, opens, flows⟩ := one.called first.symm
      obtain ⟨exit, dst, ⟨symbol, site⟩⟩ := right
      obtain rfl : ret = symbol := second
      obtain rfl : left.dst = exit := meets
      obtain rfl : left.label.index = site := by
        simpa [Grammar.agree, ← first, calledVaries, retVaries] using agree
      exact .of_flow (Grammar.symbol_inherit _ _ _) (.matched opens flows (two.ret rfl))

/-- The seed of an edge is in the solution. -/
private theorem solution_seed (formed : WellFormed graph) {edge : Edge} (there : graph.hasEdge edge) :
    (analysis graph).seeds.Solution grammar (Analysis.ownSeed grammar edge) := by
  refine Or.inr (.initial ⟨?_, Or.inl ((mem_edges_seeds formed _).mpr ⟨edge, there, rfl⟩)⟩)
  rw [isFault_iff, Analysis.ownSeed, Grammar.symbol_label]
  obtain same | same | same := formed.kinds edge there <;> simp [same, symbols_grammar, Symbol.fault]

private theorem not_silent (graph : Multigraph) (edge : Edge) :
    ¬ (analysis graph).seeds.Silent grammar edge :=
  SeedGraph.not_silent_of_none (reflexive_seeds graph) grammar edge

theorem flow_mem_derivedUnary : .plain flow ∈ grammar.derivedUnary (.plain direct) := by
  refine (grammar.mem_derivedUnary _ _).mpr ⟨⟨flow, direct⟩, by simp [unary_grammar], rfl, ?_, ?_⟩
  · simp [symbols_grammar, Symbol.fault]
  · exact (grammar.inherit_of_not_isVariant isVariant_grammar.1 _).symm

theorem called_mem_derivedBinary (site : Nat) :
    ⟨called, site⟩ ∈ grammar.derivedBinary ⟨call, site⟩ (.plain flow) := by
  obtain ⟨flowPlain, -, calledVaries, callVaries, -⟩ := isVariant_grammar
  refine (grammar.mem_derivedBinary _ _ _).mpr
    ⟨?_, ⟨called, call, flow⟩, by simp [binary_grammar], rfl, rfl, ?_, ?_⟩
  · simp [Grammar.agree, Label.plain, flowPlain]
  · simp [symbols_grammar, Symbol.fault]
  · simp [Grammar.inherit, Grammar.ownIndex?, Grammar.label, callVaries, calledVaries]

theorem flow_mem_derivedBinary (site : Nat) :
    .plain flow ∈ grammar.derivedBinary ⟨called, site⟩ ⟨ret, site⟩ := by
  refine (grammar.mem_derivedBinary _ _ _).mpr
    ⟨by simp [Grammar.agree], ⟨flow, called, ret⟩, by simp [binary_grammar], rfl, rfl, ?_, ?_⟩
  · simp [symbols_grammar, Symbol.fault]
  · exact (grammar.inherit_of_not_isVariant isVariant_grammar.1 _).symm

/-- In a solution, a flow between a call and a return of one site is a flow from end to end. -/
private theorem solution_matched {src entry exit dst : Node} {site : Nat}
    (opens : (analysis graph).seeds.Solution grammar ⟨src, entry, ⟨call, site⟩⟩)
    (inner : (analysis graph).seeds.Solution grammar ⟨entry, exit, .plain flow⟩)
    (closes : (analysis graph).seeds.Solution grammar ⟨exit, dst, ⟨ret, site⟩⟩) :
    (analysis graph).seeds.Solution grammar ⟨src, dst, .plain flow⟩ := by
  have half := opens.join inner (Or.inl (not_silent graph _)) rfl (called_mem_derivedBinary site)
  exact half.join closes (Or.inl (not_silent graph _)) rfl (flow_mem_derivedBinary site)

private theorem ownSeed_of_isVariant {edge : Edge} (varies : grammar.isVariant edge.label.symbol) :
    Analysis.ownSeed grammar edge = edge := by
  rw [Analysis.ownSeed, Grammar.label, if_pos varies]

theorem solution_of_flows (formed : WellFormed graph) {src dst : Node} (flows : Flows graph src dst) :
    (analysis graph).seeds.Solution grammar ⟨src, dst, .plain flow⟩ := by
  obtain ⟨flowPlain, directPlain, -, callVaries, retVaries⟩ := isVariant_grammar
  induction flows with
  | refl live =>
    refine Or.inr (.initial ⟨?_, Or.inr ⟨_, (mem_nodes_seeds formed _).mpr live, flow, ?_, rfl⟩⟩)
    · simp [isFault_iff, Label.plain, symbols_grammar, Symbol.fault]
    · exact (mem_nullable_grammar flow).mpr rfl
  | direct straight =>
    obtain ⟨⟨symbol, index⟩, there, straight⟩ := straight
    obtain rfl : symbol = direct := (formed.direct _).mp straight
    have seed := solution_seed formed there
    rw [Analysis.ownSeed, Grammar.label_of_not_isVariant _ directPlain] at seed
    exact seed.alone (not_silent graph _) flow_mem_derivedUnary
  | trans _ _ first second =>
    exact first.chain flowPlain (by rw [binary_grammar]; exact List.mem_cons_self) second
  | matched opens _ closes inner =>
    have opens := solution_seed formed opens
    have closes := solution_seed formed closes
    rw [ownSeed_of_isVariant callVaries] at opens
    rw [ownSeed_of_isVariant retVaries] at closes
    exact solution_matched opens inner closes

/-- The edges of value flow in the solution are the flows. -/
theorem solution_iff_flows (formed : WellFormed graph) (src dst : Node) :
    (analysis graph).seeds.Solution grammar ⟨src, dst, .plain flow⟩ ↔ Flows graph src dst := by
  refine ⟨fun inside => ?_, solution_of_flows formed⟩
  exact (means_of_derives formed (inside.derives (not_silent graph _))).flow rfl

/-- The shortcut over matched calls and returns derives nothing new. -/
theorem implied_solver (formed : WellFormed graph) {config : Config} {solver : Solver}
    (made : (analysis graph).solver config = .ok solver) :
    solver.Implied (analysis graph).seeds grammar := by
  obtain ⟨prepared, brackets⟩ := Analysis.prepared_of_solver made
  obtain ⟨flowPlain, -, -, -, retVaries⟩ := isVariant_grammar
  intro rule listed opening inner parent src dst child opens holds one two three
  rw [brackets] at listed
  obtain rfl := List.mem_singleton.mp listed
  obtain ⟨symbol, site⟩ := opening
  obtain rfl : symbol = call := opens
  have plain := two.plain (indexedBy_seeds formed) (by rw [holds]; exact flowPlain)
  rw [holds] at plain
  dsimp only at plain holds two three
  rw [plain] at two
  rw [Grammar.label, if_pos ((prepared.isVariant ret).trans retVaries)] at three
  exact solution_matched one two three

/-- Whatever the strategy, solving finds the flows. -/
theorem solve_flows (formed : WellFormed graph) {config : Config} {solver : Solver}
    (made : (analysis graph).solver config = .ok solver) (order : LabelOrder) {deadline : Deadline}
    (unexpired : ∀ tick, deadline.expired tick = false) :
    ∃ result, solver.solveInOrder order (analysis graph).seeds deadline = .ok result ∧
      ∀ src dst, result.data.contains ⟨src, dst, .plain flow⟩ ↔ Flows graph src dst := by
  obtain ⟨prepared, -⟩ := Analysis.prepared_of_solver made
  obtain ⟨result, solved, found⟩ := prepared.solve_exact built_grammar.selfRuled
    (indexedBy_seeds formed) (implied_solver formed made) order unexpired
  exact ⟨result, solved, fun src dst => (found _).trans (solution_iff_flows formed src dst)⟩

end GrammarReach.ValueFlow
