import GrammarReach.Proofs.Solve.Addition
import GrammarReach.Proofs.Solve.Derivation

/-!
What looking at one edge comes to. Every edge that it adds is derived, from the edge and from what is
stored by then; and everything that the edge derives from what was stored before is stored
afterwards, except that a closure answers for its direct links only.
-/

namespace GrammarReach.Solver

open Relation (ReflTransGen)

/-- Why an edge is added while another one is looked at; the flag tells the secondary dataset. -/
inductive Derived (solver : Solver) (edge : Edge) (state : SolveState) : Bool → Edge → Prop
  | alone {label : Label} : label ∈ solver.grammar.derivedUnary edge.label →
      Derived solver edge state false ⟨edge.src, edge.dst, label⟩
  | joined {side : Side} {neighbour : Node} {other label : Label} :
      label ∈ solver.grammar.derivedBinary (inOrder side edge.label other).1
        (inOrder side edge.label other).2 →
      state.Stores (edgeAt side (near side edge) neighbour other) →
      (solver.isReduced (inOrder side edge.label other).1 (inOrder side edge.label other).2 label →
        state.data.contains (edgeAt side (near side edge) neighbour other)) →
      Derived solver edge state
        (solver.isReduced (inOrder side edge.label other).1 (inOrder side edge.label other).2 label)
        (edgeAt side (far side edge) neighbour label)
  | extended {side : Side} {neighbour : Node} {other : Label} {closure : Closure} :
      edge.label ∈ solver.grammar.derivedBinary (inOrder side edge.label other).1
        (inOrder side edge.label other).2 →
      solver.accelerates other.symbol → state.closures[other.symbol]? = some closure →
      closure.Reaches (edgeAt side (near side edge) neighbour other).src
        (edgeAt side (near side edge) neighbour other).dst → neighbour ≠ near side edge →
      Derived solver edge state false (edgeAt side (far side edge) neighbour edge.label)
  | bracketed {rule : BracketRule} {opening : Label} {parent child : Node} :
      rule ∈ solver.brackets → rule.inner = edge.label.symbol → opening.symbol = rule.opening →
      state.data.contains ⟨parent, edge.src, opening⟩ →
      state.data.contains ⟨edge.dst, child, solver.grammar.label rule.closing opening.index⟩ →
      Derived solver edge state false ⟨parent, child, .plain rule.result⟩

/-- One addition while an edge is looked at. -/
def Addition (solver : Solver) (edge : Edge) (before after : SolveState) : Prop :=
  ∃ apart new, solver.Adds apart new before after ∧
    ∀ derived ∈ new, solver.Derived edge before apart derived

/-- Any number of additions while an edge is looked at. -/
def Works (solver : Solver) (edge : Edge) : SolveState → SolveState → Prop :=
  ReflTransGen (solver.Addition edge)

variable {solver : Solver} {edge : Edge} {before after : SolveState}

theorem Works.valid (works : solver.Works edge before after) (valid : solver.Valid before) :
    solver.Valid after := by
  induction works with
  | refl => exact valid
  | tail _ addition _ =>
    obtain ⟨_, _, adds, -⟩ := addition
    exact adds.valid

/-- What additions keep. -/
structure Keeps (before after : SolveState) : Prop where
  data : ∀ edge, before.data.contains edge → after.data.contains edge
  secondary : ∀ edge, before.secondary.contains edge → after.secondary.contains edge
  closures : after.closures = before.closures
  iterations : after.iterations = before.iterations

theorem Keeps.stores (keeps : Keeps before after) {edge : Edge} (stored : before.Stores edge) :
    after.Stores edge := stored.imp (keeps.data edge) (keeps.secondary edge)

theorem Works.keeps (works : solver.Works edge before after) : Keeps before after := by
  induction works with
  | refl => exact ⟨fun _ => id, fun _ => id, rfl, rfl⟩
  | tail _ addition ih =>
    obtain ⟨_, _, adds, -⟩ := addition
    exact ⟨fun edge stored => (adds.data edge).mpr (.inl (ih.data edge stored)),
      fun edge stored => (adds.secondary edge).mpr (.inl (ih.secondary edge stored)),
      adds.closures.trans ih.closures, adds.iterations.trans ih.iterations⟩

theorem Works.one {apart : Bool} {new : List Edge} (adds : solver.Adds apart new before after)
    (derived : ∀ other ∈ new, solver.Derived edge before apart other) :
    solver.Works edge before after := .single ⟨apart, new, adds, derived⟩

/-- Working through a list, by steps that compose, reaches a goal for each of its members, if later
steps keep the goals. -/
theorem foldl_reaches {α σ : Type} {steps : σ → σ → Prop} (refl : ∀ state, steps state state)
    (trans : ∀ {first second third}, steps first second → steps second third → steps first third)
    (op : σ → α → σ) (goal : α → σ → Prop) (items : List α) {before : σ}
    (one : ∀ item ∈ items, ∀ state, steps before state →
      steps state (op state item) ∧ goal item (op state item))
    (keeps : ∀ item state next, goal item state → steps state next → goal item next) :
    steps before (items.foldl op before) ∧ ∀ item ∈ items, goal item (items.foldl op before) := by
  have general : ∀ (items : List α) (state : σ), steps before state →
      (∀ item ∈ items, ∀ state, steps before state →
        steps state (op state item) ∧ goal item (op state item)) →
      steps state (items.foldl op state) ∧ ∀ item ∈ items, goal item (items.foldl op state) := by
    intro items
    induction items with
    | nil => exact fun state _ _ => ⟨refl state, by simp⟩
    | cons item items ih =>
      intro state there one
      obtain ⟨first, reached⟩ := one item List.mem_cons_self state there
      obtain ⟨rest, goals⟩ := ih (op state item) (trans there first)
        fun other listed => one other (List.mem_cons_of_mem _ listed)
      refine ⟨trans first rest, fun other listed => ?_⟩
      rcases List.mem_cons.mp listed with rfl | listed
      · exact keeps other _ _ reached rest
      · exact goals other listed
  exact general items before (refl before) one

/-- Additions that work through a list reach a goal for each of its members, if later work keeps the
goals. -/
theorem foldl_works {α : Type} (op : SolveState → α → SolveState) (goal : α → SolveState → Prop)
    (items : List α)
    (one : ∀ item ∈ items, ∀ state, solver.Works edge before state →
      solver.Works edge state (op state item) ∧ goal item (op state item))
    (keeps : ∀ item state next, goal item state → solver.Works edge state next → goal item next) :
    solver.Works edge before (items.foldl op before) ∧
      ∀ item ∈ items, goal item (items.foldl op before) :=
  foldl_reaches (fun _ => ReflTransGen.refl) ReflTransGen.trans op goal items one keeps

/-! ### Alone -/

theorem deriveAlone_works (edge : Edge) (valid : solver.Valid before) :
    solver.Works edge before (solver.deriveAlone edge before) ∧
      ∀ label ∈ solver.grammar.derivedUnary edge.label,
        (solver.deriveAlone edge before).Stores ⟨edge.src, edge.dst, label⟩ := by
  refine foldl_works _ (fun label state => state.Stores ⟨edge.src, edge.dst, label⟩) _
    (fun label rule state works => ?_) fun label state next stored works => works.keeps.stores stored
  have valid := works.valid valid
  dsimp only
  split
  · next held =>
    exact ⟨.refl, .inr (Bool.and_eq_true_iff.mp held).2⟩
  · next unheld =>
    have absent : ¬ state.secondary.contains ⟨edge.src, edge.dst, label⟩ := by
      intro held
      by_cases double : solver.reduces
      · exact unheld (Bool.and_eq_true_iff.mpr ⟨double, held⟩)
      · exact valid.unused double _ held
    obtain ⟨⟨new, adds, only⟩, stored⟩ := addAndEnqueue_adds valid absent
    refine ⟨.one adds fun other listed => ?_, stored ?_⟩
    · rw [only other listed]
      exact .alone rule
    · exact solver.grammar.not_isFault_of_mem_derivedUnary rule

/-! ### Joins -/

/-- What a join owes: the edge to the neighbour is stored, in the dataset where a reduced production
looks for it, and where a closure stands in for it, it is one of the closure's links. -/
structure Due (solver : Solver) (state : SolveState) (side : Side) (edge : Edge) (neighbour : Node)
    (other label : Label) : Prop where
  stored : state.Stores (edgeAt side (near side edge) neighbour other)
  primary : solver.isReduced (inOrder side edge.label other).1 (inOrder side edge.label other).2 label →
    state.data.contains (edgeAt side (near side edge) neighbour other)
  linked : label = edge.label → solver.accelerates other.symbol → neighbour ≠ near side edge ∧
    ∀ closure, state.closures[other.symbol]? = some closure →
      closure.Linked (edgeAt side (near side edge) neighbour other).src
        (edgeAt side (near side edge) neighbour other).dst

theorem Due.keeps {side : Side} {neighbour : Node} {other label : Label}
    (due : solver.Due before side edge neighbour other label) (keeps : Keeps before after) :
    solver.Due after side edge neighbour other label where
  stored := keeps.stores due.stored
  primary reduced := keeps.data _ (due.primary reduced)
  linked := by
    rw [keeps.closures]
    exact due.linked

/-! ### Extensions -/

/-- The visit of a walk that extends an edge. -/
private def extendTo (side : Side) (fixed : Node) (label : Label) (walk : Extension)
    (neighbour : Node) : Extension × Bool :=
  let (data, fresh) := walk.data.add (edgeAt side fixed neighbour label)
  ({ data
     checks := walk.checks + 1
     added := if fresh then neighbour :: walk.added else walk.added }, fresh)

/-- Where a walk that extends an edge stands: the dataset has the old edges and those noted, which
are new. -/
structure ExtensionRun (side : Side) (fixed : Node) (label : Label) (data : Dataset)
    (walk : Extension) : Prop where
  valid : walk.data.Valid
  distinct : walk.added.Nodup
  contains : ∀ edge, walk.data.contains edge ↔ data.contains edge ∨
    ∃ neighbour ∈ walk.added, edge = edgeAt side fixed neighbour label
  fresh : ∀ neighbour ∈ walk.added, ¬ data.contains (edgeAt side fixed neighbour label)

/-- What visits to some nodes make of a walk that extends an edge. -/
private structure Extends (side : Side) (fixed : Node) (label : Label) (data : Dataset) (nodes : List Node)
    (walk next : Extension) : Prop where
  run : ExtensionRun side fixed label data next
  complete : ∀ node ∈ nodes, next.data.contains (edgeAt side fixed node label)
  grows : ∀ other, walk.data.contains other → next.data.contains other
  only : ∀ other ∈ next.added, other ∈ walk.added ∨ other ∈ nodes

private theorem Extends.trans {side : Side} {fixed : Node} {label : Label} {data : Dataset}
    {early late : List Node} {first second third : Extension}
    (one : Extends side fixed label data early first second)
    (two : Extends side fixed label data late second third) :
    Extends side fixed label data (early ++ late) first third where
  run := two.run
  complete node listed := by
    rcases List.mem_append.mp listed with inEarly | inLate
    · exact two.grows _ (one.complete node inEarly)
    · exact two.complete node inLate
  grows other old := two.grows other (one.grows other old)
  only other listed := by
    rw [List.mem_append, ← or_assoc]
    exact (two.only other listed).imp_left (one.only other)

/-- A visit to a node whose edge is new stores the edge and notes the node. -/
private theorem ExtensionRun.extendTo_new {side : Side} {fixed : Node} {label : Label} {data : Dataset}
    {walk : Extension} (run : ExtensionRun side fixed label data walk) {neighbour : Node}
    (new : (walk.data.add (edgeAt side fixed neighbour label)).2) (checks : Nat) :
    Extends side fixed label data [neighbour] walk
      { data := (walk.data.add (edgeAt side fixed neighbour label)).1
        checks
        added := neighbour :: walk.added } := by
  obtain ⟨sound, absent⟩ := (walk.data.add_flag _).mp new
  have added := Dataset.contains_add run.valid (edgeAt side fixed neighbour label)
  exact
    { run :=
        { valid := Dataset.valid_add run.valid _
          distinct := by
            refine List.nodup_cons.mpr ⟨fun listed => absent ?_, run.distinct⟩
            exact (run.contains _).mpr (.inr ⟨neighbour, listed, rfl⟩)
          contains := fun other => by
            rw [added, run.contains, and_iff_left sound]
            simp only [List.mem_cons, exists_eq_or_imp]
            exact or_assoc.trans (or_congr_right or_comm)
          fresh := by
            refine List.forall_mem_cons.mpr ⟨fun old => absent ?_, run.fresh⟩
            exact (run.contains _).mpr (.inl old) }
      complete := List.forall_mem_singleton.mpr ((added _).mpr (.inr ⟨rfl, sound⟩))
      grows := fun other old => (added other).mpr (.inl old)
      only := fun other listed => by
        rw [List.mem_singleton]
        exact (List.mem_cons.mp listed).symm }

private theorem extendTo_extends {side : Side} {fixed : Node} {label : Label} {data : Dataset}
    {walk : Extension} (run : ExtensionRun side fixed label data walk) (sound : ¬ label.isFault)
    (neighbour : Node) :
    Extends side fixed label data [neighbour] walk (extendTo side fixed label walk neighbour).1 := by
  by_cases new : (walk.data.add (edgeAt side fixed neighbour label)).2
  · have ran : (extendTo side fixed label walk neighbour).1 =
        { data := (walk.data.add (edgeAt side fixed neighbour label)).1
          checks := walk.checks + 1
          added := neighbour :: walk.added } := by
      simp [extendTo, new]
    rw [ran]
    exact run.extendTo_new new _
  · have ran : (extendTo side fixed label walk neighbour).1 = { walk with checks := walk.checks + 1 } := by
      simp [extendTo, new, Dataset.add_of_not_flag new]
    rw [Dataset.add_flag, not_and_not_right, label_edgeAt] at new
    rw [ran]
    exact
      { run := { run with }
        complete := List.forall_mem_singleton.mpr (new sound)
        grows := fun _ => id
        only := fun _ => .inl }

private theorem foldl_extendTo {side : Side} {fixed : Node} {label : Label} {data : Dataset}
    (sound : ¬ label.isFault) (nodes : List Node) :
    ∀ {walk : Extension}, ExtensionRun side fixed label data walk →
      Extends side fixed label data nodes walk
        (nodes.foldl (fun walk node => (extendTo side fixed label walk node).1) walk) := by
  induction nodes with
  | nil =>
    intro walk run
    exact { run, complete := by simp, grows := fun _ => id, only := fun _ => .inl }
  | cons node nodes ih =>
    intro walk run
    have one := extendTo_extends run sound node
    exact one.trans (ih one.run)

/-- A walk through a closure at either side of a node. -/
private theorem walk_eq_foldl {closure : Closure} (valid : closure.Valid) {σ : Type} (side : Side)
    (node : Node) (other : Label) (visit : σ → Node → σ × Bool) (state : σ) :
    ∃ nodes : List Node,
      (∀ neighbour ∈ nodes, neighbour ≠ node ∧
        closure.Reaches (edgeAt side node neighbour other).src (edgeAt side node neighbour other).dst) ∧
      (∀ neighbour, neighbour ≠ node →
        closure.Linked (edgeAt side node neighbour other).src (edgeAt side node neighbour other).dst →
        neighbour ∈ nodes) ∧
      (match side with
        | .outgoing => closure.walkDown node visit state
        | .incoming => closure.walkUp node visit state) =
        nodes.foldl (fun state node => (visit state node).1) state := by
  cases side with
  | outgoing =>
    obtain ⟨nodes, covers, run⟩ := Closure.walkDown_eq_foldl valid node visit state
    exact ⟨nodes, covers.sound, fun neighbour apart link => covers.all neighbour link apart, run⟩
  | incoming =>
    obtain ⟨nodes, covers, run⟩ := Closure.walkUp_eq_foldl valid node visit state
    refine ⟨nodes, fun neighbour listed => ⟨(covers.sound neighbour listed).1, ?_⟩,
      fun neighbour apart link => covers.all neighbour link apart, run⟩
    exact Relation.reflTransGen_swap.mp (covers.sound neighbour listed).2

/-- Extending an edge through a closure. -/
theorem extendByClosure_works (valid : solver.Valid before) (single : ¬ solver.reduces) (side : Side)
    {other : Label} (accelerated : solver.accelerates other.symbol)
    (rule : edge.label ∈ solver.grammar.derivedBinary (inOrder side edge.label other).1
      (inOrder side edge.label other).2) :
    let after := solver.extendByClosure before side (far side edge) (near side edge) edge.label
      other.symbol
    solver.Works edge before after ∧ ∀ neighbour, solver.Due before side edge neighbour other edge.label →
      after.Stores (edgeAt side (far side edge) neighbour edge.label) := by
  intro after
  have sound := solver.grammar.not_isFault_of_mem_derivedBinary rule
  obtain ⟨closure, found⟩ := valid.present _ accelerated
  let begin : Extension := { data := before.data, checks := before.checks }
  obtain ⟨nodes, reached, all, ran⟩ := walk_eq_foldl (valid.closures _ _ found) side (near side edge)
    other (extendTo side (far side edge) edge.label) begin
  have begins : ExtensionRun side (far side edge) edge.label before.data begin :=
    { valid := valid.data
      distinct := List.nodup_nil
      contains := by simp [begin]
      fresh := by simp [begin] }
  obtain ⟨run, complete, -, only⟩ := foldl_extendTo sound nodes begins
  set walk := nodes.foldl (fun walk node => (extendTo side (far side edge) edge.label walk node).1) begin
  have afterIs : after = walk.added.reverse.foldl
      (fun state neighbour => solver.enqueue state (edgeAt side (far side edge) neighbour edge.label))
      { before with data := walk.data, checks := walk.checks } := by
    simp only [after, extendByClosure, found]
    rw [← ran]
    rfl
  have listed : ∀ other, other ∈ walk.added.reverse.map (edgeAt side (far side edge) · edge.label) ↔
      ∃ neighbour ∈ walk.added, other = edgeAt side (far side edge) neighbour edge.label := by
    intro other
    simp only [List.mem_map, List.mem_reverse]
    exact exists_congr fun _ => and_congr_right fun _ => eq_comm
  have adds : solver.Adds false
      (walk.added.reverse.map (edgeAt side (far side edge) · edge.label)) before after := by
    rw [afterIs]
    refine (solver.foldl_enqueue (edgeAt side (far side edge) · edge.label) walk.added.reverse
      _).adds valid rfl rfl rfl run.valid valid.secondary (by simp) ?_ ?_ ?_ (by simp)
    · intro other inside
      obtain ⟨neighbour, inAdded, rfl⟩ := (listed other).mp inside
      rw [valid.stores_iff single]
      exact run.fresh neighbour inAdded
    · exact (List.nodup_reverse.mpr run.distinct).map (edgeAt_injective side _ _)
    · exact fun other => (run.contains other).trans
        (or_congr_right (by rw [and_iff_right rfl]; exact (listed other).symm))
  refine ⟨.one adds fun derived inside => ?_, fun neighbour due => .inl ?_⟩
  · obtain ⟨neighbour, inAdded, rfl⟩ := (listed derived).mp inside
    have visited := (only neighbour inAdded).resolve_left (by simp [begin])
    exact .extended rule accelerated found (reached neighbour visited).2 (reached neighbour visited).1
  · obtain ⟨apart, linked⟩ := due.linked rfl accelerated
    have visited := complete neighbour (all neighbour apart (linked closure found))
    refine (adds.data _).mpr ?_
    rw [listed, and_iff_right rfl]
    exact (run.contains _).mp visited

/-! ### One side -/

theorem valid_operands {state : SolveState} (valid : solver.Valid state) (side : Side) (node : Node)
    (label : Label) (reduced : Bool) : (solver.operands state side node label reduced).Valid := by
  unfold operands
  dsimp only
  split
  · exact NodeSet.valid_union (valid_neighboursIn valid.data side node label)
      (valid_neighboursIn valid.secondary side node label)
  · exact valid_neighboursIn valid.data side node label

/-- A reduced production finds the primary edges, every other one all edges. -/
theorem contains_operands {state : SolveState} (valid : solver.Valid state) (side : Side)
    (node neighbour : Node) (label : Label) (reduced : Bool) :
    (solver.operands state side node label reduced).contains neighbour ↔
      state.Stores (edgeAt side node neighbour label) ∧
        (reduced → solver.reduces → state.data.contains (edgeAt side node neighbour label)) := by
  have primary := contains_neighboursIn valid.data side node neighbour label
  unfold operands
  dsimp only
  split
  · next both =>
    obtain ⟨double, whole⟩ := Bool.and_eq_true_iff.mp both
    rw [NodeSet.contains_union (valid_neighboursIn valid.data side node label)
      (valid_neighboursIn valid.secondary side node label), primary,
      contains_neighboursIn valid.secondary]
    exact (and_iff_left fun reduced => by simp [reduced] at whole).symm
  · next one =>
    rw [primary]
    constructor
    · exact fun held => ⟨.inl held, fun _ _ => held⟩
    · rintro ⟨held | other, only⟩
      · exact held
      · by_cases double : solver.reduces
        · cases reduced with
          | true => exact only rfl double
          | false => simp [double] at one
        · exact absurd other (valid.unused double _)

private theorem mem_labels {data : Dataset} (valid : data.Valid) (side : Side) {node neighbour : Node}
    {label : Label} : data.contains (edgeAt side node neighbour label) →
    label ∈ (match side with
      | .outgoing => (data.outLabels node).map (·.1)
      | .incoming => (data.inLabels node).map (·.1) : List Label) := by
  intro held
  cases side with
  | outgoing => exact Dataset.mem_outLabels held
  | incoming => exact Dataset.mem_inLabels valid held

theorem mem_labelsAt (order : LabelOrder) {state : SolveState} (valid : solver.Valid state)
    (side : Side) {node neighbour : Node} {label : Label}
    (stored : state.Stores (edgeAt side node neighbour label)) :
    label ∈ solver.labelsAt order state side node := by
  unfold labelsAt
  dsimp only
  split
  · rw [Std.TreeSet.mem_toList, Std.TreeSet.mem_ofList, List.contains_iff_mem, List.mem_append]
    exact stored.imp (mem_labels valid.data side) (mem_labels valid.secondary side)
  · next single =>
    exact (order.perm _ _ _ _).mem_iff.mpr
      (mem_labels valid.data side ((valid.stores_iff single _).mp stored))

theorem joinDerived_works (exclusive : ∀ symbol, solver.accelerates symbol → ¬ solver.reduces)
    (valid : solver.Valid before) (side : Side) {other label : Label}
    (rule : label ∈ solver.grammar.derivedBinary (inOrder side edge.label other).1
      (inOrder side edge.label other).2) :
    solver.Works edge before (solver.joinDerived side edge other before label) ∧
      ∀ neighbour, solver.Due before side edge neighbour other label →
        (solver.joinDerived side edge other before label).Stores
          (edgeAt side (far side edge) neighbour label) := by
  by_cases extends' : label = edge.label ∧ solver.accelerates other.symbol
  · obtain ⟨rfl, accelerated⟩ := extends'
    have ran : solver.joinDerived side edge other before edge.label =
        solver.extendByClosure before side (far side edge) (near side edge) edge.label other.symbol := by
      simp [joinDerived, accelerated]
    rw [ran]
    exact extendByClosure_works valid (exclusive _ accelerated) side accelerated rule
  · set reduced := solver.isReduced (inOrder side edge.label other).1 (inOrder side edge.label other).2
      label with reducedIs
    let neighbours := solver.operands before side (near side edge) other reduced
    have agrees : (solver.reduces && reduced) = reduced := by
      simp only [reducedIs, isReduced]
      cases solver.reduces <;> simp
    obtain ⟨⟨new, adds, only⟩, stored⟩ := insertAll_adds
      (valid.of_checks (before.checks + neighbours.size)) side (far side edge)
      (valid_operands valid side (near side edge) other reduced)
      (solver.grammar.not_isFault_of_mem_derivedBinary rule) reduced
    have ran : solver.joinDerived side edge other before label =
        let inserted := solver.insertAll { before with checks := before.checks + neighbours.size } side
          (far side edge) neighbours label reduced
        inserted.2.toList.foldl (fun state neighbour =>
          solver.enqueue state (edgeAt side (far side edge) neighbour label)) inserted.1 := by
      rw [joinDerived, if_neg extends']
    rw [ran]
    have found := contains_operands valid side (near side edge)
    refine ⟨.one (agrees ▸ adds.of_checks) fun derived inside => ?_, fun neighbour due => ?_⟩
    · obtain ⟨neighbour, held, rfl⟩ := only derived inside
      obtain ⟨held, primary⟩ := (found neighbour other reduced).mp held
      refine .joined rule held fun isReduced => primary isReduced ?_
      exact (Bool.and_eq_true_iff.mp (agrees.trans isReduced)).1
    · exact stored neighbour ((found neighbour other reduced).mpr
        ⟨due.stored, fun isReduced _ => due.primary isReduced⟩)

/-- Joining an edge at one side. -/
theorem join_works (exclusive : ∀ symbol, solver.accelerates symbol → ¬ solver.reduces)
    (valid : solver.Valid before) (order : LabelOrder) (side : Side) :
    solver.Works edge before (solver.join order side edge before) ∧
      ∀ (neighbour : Node) (other : Label),
        ∀ label ∈ solver.grammar.derivedBinary (inOrder side edge.label other).1
            (inOrder side edge.label other).2,
          solver.Due before side edge neighbour other label →
          (solver.join order side edge before).Stores (edgeAt side (far side edge) neighbour label) := by
  have keepsGoal : ∀ (other label : Label) (state next : SolveState),
      (∀ neighbour, solver.Due before side edge neighbour other label →
        state.Stores (edgeAt side (far side edge) neighbour label)) → solver.Works edge state next →
      ∀ neighbour, solver.Due before side edge neighbour other label →
        next.Stores (edgeAt side (far side edge) neighbour label) :=
    fun other label state next goal works neighbour due => works.keeps.stores (goal neighbour due)
  obtain ⟨works, goals⟩ := foldl_works (solver.joinLabel side edge)
    (fun other state => ∀ label ∈ solver.grammar.derivedBinary (inOrder side edge.label other).1
        (inOrder side edge.label other).2,
      ∀ neighbour, solver.Due before side edge neighbour other label →
        state.Stores (edgeAt side (far side edge) neighbour label))
    (solver.labelsAt order before side (near side edge))
    (fun other _ state (works : solver.Works edge before state) => by
      refine foldl_works (solver.joinDerived side edge other)
        (fun label state => ∀ neighbour, solver.Due before side edge neighbour other label →
          state.Stores (edgeAt side (far side edge) neighbour label)) _
        (fun label rule current here => ?_) (keepsGoal other)
      have all : solver.Works edge before current := works.trans here
      obtain ⟨one, stored⟩ := joinDerived_works exclusive (all.valid valid) side rule
      exact ⟨one, fun neighbour due => stored neighbour (due.keeps all.keeps)⟩)
    (fun other state next goal works label rule => keepsGoal other label state next (goal label rule) works)
  exact ⟨works, fun neighbour other label rule due =>
    goals other (mem_labelsAt order valid side due.stored) label rule neighbour due⟩

/-! ### The whole item -/

/-- Everything that an edge derives, alone and with what was stored before, is stored. -/
structure Complete (solver : Solver) (edge : Edge) (before after : SolveState) : Prop where
  alone : ∀ label ∈ solver.grammar.derivedUnary edge.label,
    after.Stores ⟨edge.src, edge.dst, label⟩
  joined : ∀ (side : Side) (neighbour : Node) (other : Label),
    ∀ label ∈ solver.grammar.derivedBinary (inOrder side edge.label other).1
        (inOrder side edge.label other).2,
      solver.Due before side edge neighbour other label →
      after.Stores (edgeAt side (far side edge) neighbour label)

theorem processItem_works (exclusive : ∀ symbol, solver.accelerates symbol → ¬ solver.reduces)
    (valid : solver.Valid before) (order : LabelOrder) :
    solver.Works edge before (solver.processItem order edge before) ∧
      solver.Complete edge before (solver.processItem order edge before) := by
  obtain ⟨first, alone⟩ := deriveAlone_works edge valid
  obtain ⟨second, right⟩ := join_works exclusive (first.valid valid) order .outgoing
  have both : solver.Works edge before _ := first.trans second
  obtain ⟨third, left⟩ := join_works exclusive (both.valid valid) order .incoming
  refine ⟨both.trans third, fun label rule => ?_, fun side neighbour other label rule due => ?_⟩
  · exact (Works.keeps (second.trans third)).stores (alone label rule)
  · cases side with
    | outgoing => exact third.keeps.stores (right neighbour other label rule (due.keeps first.keeps))
    | incoming => exact left neighbour other label rule (due.keeps both.keeps)

/-! ### Bracket shortcuts -/

/-- The edge between the two nodes of a pair. -/
def spanned (label : Label) (pair : Node × Node) : Edge := ⟨pair.1, pair.2, label⟩

theorem spanned_injective (label : Label) : Function.Injective (spanned label) := by
  rintro ⟨u, v⟩ ⟨u', v'⟩ same
  simp_all [spanned]

/-- A shortcut has been followed around a pair, from every opening edge to every closing one that was
stored before. -/
def Followed (solver : Solver) (rule : BracketRule) (before after : SolveState) (src dst : Node) : Prop :=
  ¬ (Label.plain rule.result).isFault →
    ∀ (opening : Label) (parent child : Node), opening.symbol = rule.opening →
      before.data.contains ⟨parent, src, opening⟩ →
      before.data.contains ⟨dst, child, solver.grammar.label rule.closing opening.index⟩ →
      after.Stores ⟨parent, child, .plain rule.result⟩

theorem Followed.keeps {rule : BracketRule} {earlier later : SolveState} {src dst : Node}
    (followed : solver.Followed rule before after src dst)
    (first : ∀ edge, earlier.data.contains edge → before.data.contains edge)
    (last : ∀ edge, after.Stores edge → later.Stores edge) :
    solver.Followed rule earlier later src dst :=
  fun sound opening parent child opens parentHeld childHeld =>
    last _ (followed sound opening parent child opens (first _ parentHeld) (first _ childHeld))

/-- Adding the shortcut from a parent to each child of an edge. -/
private theorem addShortcuts_works (single : ¬ solver.reduces) {rule : BracketRule}
    (listed : rule ∈ solver.brackets) (inner : rule.inner = edge.label.symbol) {opening : Label}
    (opens : opening.symbol = rule.opening) {parent : Node} {children : List Node}
    (valid : solver.Valid before) (above : before.data.contains ⟨parent, edge.src, opening⟩)
    (below : ∀ child ∈ children,
      before.data.contains ⟨edge.dst, child, solver.grammar.label rule.closing opening.index⟩) :
    let after := children.foldl (fun state child =>
      solver.addAndEnqueue { state with checks := state.checks + 1 }
        ⟨parent, child, .plain rule.result⟩) before
    solver.Works edge before after ∧ ∀ child ∈ children, ¬ (Label.plain rule.result).isFault →
      after.Stores ⟨parent, child, .plain rule.result⟩ := by
  refine foldl_works _ (fun child state => ¬ (Label.plain rule.result).isFault →
    state.Stores ⟨parent, child, .plain rule.result⟩) children (fun child isChild state works => ?_)
    fun child _ _ goal works sound => works.keeps.stores (goal sound)
  have current := works.valid valid
  obtain ⟨⟨new, adds, only⟩, stored⟩ := addAndEnqueue_adds
    (current.of_checks (state.checks + 1)) (current.unused single _)
  refine ⟨.one adds.of_checks fun other inside => ?_, stored⟩
  rw [only other inside]
  exact .bracketed listed inner opens (works.keeps.data _ above) (works.keeps.data _ (below child isChild))

/-- Adding the shortcuts around an edge from the parents above openings of one label. The closings are
looked up when it is the turn of their opening. -/
private theorem fireOpening_works (valid : solver.Valid before) (single : ¬ solver.reduces)
    {rule : BracketRule} (listed : rule ∈ solver.brackets) (inner : rule.inner = edge.label.symbol)
    {opening : Label} (opens : opening.symbol = rule.opening) {parents : List Node}
    (above : ∀ parent ∈ parents, before.data.contains ⟨parent, edge.src, opening⟩) :
    let closing := solver.grammar.label rule.closing opening.index
    let children := (neighboursIn before.data .outgoing edge.dst closing).toList
    let after := parents.foldl (fun state parent => children.foldl (fun state child =>
      solver.addAndEnqueue { state with checks := state.checks + 1 }
        ⟨parent, child, .plain rule.result⟩) state) before
    solver.Works edge before after ∧ ∀ parent ∈ parents, ∀ child,
      before.data.contains ⟨edge.dst, child, closing⟩ → ¬ (Label.plain rule.result).isFault →
        after.Stores ⟨parent, child, .plain rule.result⟩ := by
  intro closing children after
  have isChild : ∀ child, child ∈ children ↔ before.data.contains ⟨edge.dst, child, closing⟩ :=
    fun child => (NodeSet.mem_toList _ child).trans
      (contains_neighboursIn valid.data .outgoing edge.dst child _)
  obtain ⟨works, stored⟩ := foldl_works _ (fun parent state => ∀ child ∈ children,
      ¬ (Label.plain rule.result).isFault → state.Stores ⟨parent, child, .plain rule.result⟩) parents
    (fun parent isParent state (works : solver.Works edge before state) =>
      addShortcuts_works single listed inner opens (works.valid valid)
        (works.keeps.data _ (above parent isParent))
        fun child below => works.keeps.data _ ((isChild child).mp below))
    fun _ _ _ goal works child below sound => works.keeps.stores (goal child below sound)
  exact ⟨works, fun parent isParent child held => stored parent isParent child ((isChild child).mpr held)⟩

theorem fireBracket_works (edge : Edge) (valid : solver.Valid before) (single : ¬ solver.reduces)
    (order : LabelOrder) {rule : BracketRule} (listed : rule ∈ solver.brackets)
    (inner : rule.inner = edge.label.symbol) :
    let after := solver.fireBracket order rule before (edge.src, edge.dst)
    solver.Works edge before after ∧ solver.Followed rule before after edge.src edge.dst := by
  intro after
  have isParent : ∀ parent label, parent ∈ (neighboursIn before.data .incoming edge.src label).toList ↔
      before.data.contains ⟨parent, edge.src, label⟩ := fun parent label =>
    (NodeSet.mem_toList _ parent).trans
      (contains_neighboursIn valid.data .incoming edge.src parent label)
  set labels := order.arrange before .incoming edge.src
    ((before.data.inLabels edge.src).map (·.1)) with labelsIs
  -- The openings are looked up at the start.
  obtain ⟨works, stored⟩ : solver.Works edge before after ∧
      ∀ item ∈ (labels.filter (·.symbol == rule.opening)).map fun label =>
          (label, neighboursIn before.data .incoming edge.src label),
        ∀ parent ∈ item.2.toList, ∀ child,
          before.data.contains ⟨edge.dst, child, solver.grammar.label rule.closing item.1.index⟩ →
          ¬ (Label.plain rule.result).isFault → after.Stores ⟨parent, child, .plain rule.result⟩ := by
    refine foldl_works _ (fun (item : Label × NodeSet) state => ∀ parent ∈ item.2.toList, ∀ child,
        before.data.contains ⟨edge.dst, child, solver.grammar.label rule.closing item.1.index⟩ →
        ¬ (Label.plain rule.result).isFault → state.Stores ⟨parent, child, .plain rule.result⟩) _
      (fun (opening, parents) opened state works => ?_)
      fun _ _ _ goal works parent above child held sound =>
        works.keeps.stores (goal parent above child held sound)
    obtain ⟨label, opens, same⟩ := List.mem_map.mp opened
    obtain ⟨rfl, rfl⟩ := Prod.mk.inj same
    have symbol : label.symbol = rule.opening := by simpa using (List.mem_filter.mp opens).2
    obtain ⟨all, goals⟩ := fireOpening_works (works.valid valid) single listed inner symbol
      fun parent above => works.keeps.data _ ((isParent parent label).mp above)
    exact ⟨all, fun parent above child held =>
      goals parent above child (works.keeps.data _ held)⟩
  refine ⟨works, fun sound opening parent child opens parentHeld childHeld => ?_⟩
  have arranged : opening ∈ labels :=
    (order.perm _ _ _ _).mem_iff.mpr (Dataset.mem_inLabels valid.data parentHeld)
  have opened : opening ∈ labels.filter (·.symbol == rule.opening) :=
    List.mem_filter.mpr ⟨arranged, by simpa using opens⟩
  exact stored _ (List.mem_map_of_mem opened) parent ((isParent parent opening).mpr parentHeld) child
    childHeld sound

/-- Any number of additions while the edges between the nodes of some pairs are looked at. -/
def WorksAll (solver : Solver) (label : Label) (pairs : List (Node × Node)) :
    SolveState → SolveState → Prop :=
  ReflTransGen fun before after => ∃ pair ∈ pairs, solver.Works (spanned label pair) before after

theorem WorksAll.valid {label : Label} {pairs : List (Node × Node)}
    (works : solver.WorksAll label pairs before after) (valid : solver.Valid before) :
    solver.Valid after := by
  induction works with
  | refl => exact valid
  | tail _ works ih =>
    obtain ⟨_, -, works⟩ := works
    exact works.valid ih

theorem Keeps.trans {first second third : SolveState} (one : Keeps first second)
    (two : Keeps second third) : Keeps first third :=
  ⟨fun edge stored => two.data edge (one.data edge stored),
    fun edge stored => two.secondary edge (one.secondary edge stored),
    two.closures.trans one.closures, two.iterations.trans one.iterations⟩

theorem WorksAll.keeps {label : Label} {pairs : List (Node × Node)}
    (works : solver.WorksAll label pairs before after) : Keeps before after := by
  induction works with
  | refl => exact ⟨fun _ => id, fun _ => id, rfl, rfl⟩
  | tail _ works ih =>
    obtain ⟨_, -, works⟩ := works
    exact ih.trans works.keeps

/-- Firing the shortcuts around some pairs follows them all. -/
theorem fireBrackets_worksAll (valid : solver.Valid before) (single : ¬ solver.reduces)
    (order : LabelOrder) (label : Label) (pairs : List (Node × Node)) :
    let after := solver.fireBrackets order label.symbol pairs before
    solver.WorksAll label pairs before after ∧
      ∀ rule ∈ solver.brackets, rule.inner = label.symbol →
        ∀ pair ∈ pairs, solver.Followed rule before after pair.1 pair.2 := by
  intro after
  have keepsGoal : ∀ (rule : BracketRule) (pair : Node × Node) (state next : SolveState),
      solver.Followed rule before state pair.1 pair.2 → solver.WorksAll label pairs state next →
      solver.Followed rule before next pair.1 pair.2 := fun rule pair state next followed works =>
    followed.keeps (fun _ => id) fun _ => works.keeps.stores
  obtain ⟨works, followed⟩ : solver.WorksAll label pairs before after ∧
      ∀ rule ∈ solver.brackets.filter (·.inner == label.symbol),
        ∀ pair ∈ pairs, solver.Followed rule before after pair.1 pair.2 := by
    refine foldl_reaches (fun _ => ReflTransGen.refl) ReflTransGen.trans _
      (fun rule state => ∀ pair ∈ pairs, solver.Followed rule before state pair.1 pair.2) _
      (fun rule applies state there => ?_)
      fun rule state next goal works pair inside => keepsGoal rule pair state next (goal pair inside) works
    obtain ⟨listed, inner⟩ := List.mem_filter.mp applies
    refine foldl_reaches (fun _ => ReflTransGen.refl) ReflTransGen.trans _
      (fun (pair : Node × Node) state => solver.Followed rule before state pair.1 pair.2) _
      (fun pair inside current here => ?_) (keepsGoal rule)
    have all : solver.WorksAll label pairs before current := ReflTransGen.trans there here
    obtain ⟨one, followed⟩ := fireBracket_works (spanned label pair) (all.valid valid) single order
      listed (by simpa [spanned] using inner)
    exact ⟨.single ⟨pair, inside, one⟩, followed.keeps all.keeps.data fun _ => id⟩
  exact ⟨works, fun rule listed inner =>
    followed rule (List.mem_filter.mpr ⟨listed, by simpa using inner⟩)⟩

/-- Firing the shortcuts around one pair. -/
theorem fireBrackets_works (edge : Edge) (valid : solver.Valid before) (single : ¬ solver.reduces)
    (order : LabelOrder) :
    let after := solver.fireBrackets order edge.label.symbol [(edge.src, edge.dst)] before
    solver.Works edge before after ∧ ∀ rule ∈ solver.brackets, rule.inner = edge.label.symbol →
      solver.Followed rule before after edge.src edge.dst := by
  obtain ⟨all, followed⟩ :=
    fireBrackets_worksAll valid single order edge.label [(edge.src, edge.dst)]
  refine ⟨?_, fun rule listed inner => followed rule listed inner _ (List.mem_singleton_self _)⟩
  generalize solver.fireBrackets order edge.label.symbol [(edge.src, edge.dst)] before = after at all
  clear followed
  induction all with
  | refl => exact .refl
  | tail _ works ih =>
    obtain ⟨pair, inside, works⟩ := works
    obtain rfl := List.mem_singleton.mp inside
    exact ih.trans works

end GrammarReach.Solver
