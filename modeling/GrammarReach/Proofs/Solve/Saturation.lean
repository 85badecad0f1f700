import GrammarReach.Proofs.Solve.Primary

/-!
Why a solve misses nothing. Of two edges that have both been looked at, the later one was joined with
the earlier one. Where a closure stands in for one of them, only its direct links were owed; once
nothing is left to do, a path of links leads to every pair that the closure has found.
-/

namespace GrammarReach.Solver

open Relation (ReflTransGen)

/-- An item is handed to a closure instead of being looked at. -/
def Absorbed (solver : Solver) (item : WorkItem) : Prop :=
  item.primary ∧ item.edge.src ≠ item.edge.dst ∧ solver.accelerates item.edge.label.symbol

def Handled (solver : Solver) (done : List WorkItem) (edge : Edge) : Prop :=
  ∃ item ∈ done, item.edge = edge ∧ ¬ solver.Absorbed item

/-- An edge was there when an item was taken after others: it is silent, it is the edge of the item
itself, or it had been looked at. -/
def Known (solver : Solver) (silent : Edge → Prop) (earlier : List WorkItem) (item : WorkItem)
    (edge : Edge) : Prop :=
  silent edge ∨ edge = item.edge ∨ solver.Handled earlier edge

/-- Everything owed to the items taken so far is stored. -/
structure Joined (solver : Solver) (silent : Edge → Prop) (done : List WorkItem)
    (state : SolveState) : Prop where
  alone : ∀ item ∈ done, ¬ solver.Absorbed item →
    ∀ label ∈ solver.grammar.derivedUnary item.edge.label,
      state.Stores ⟨item.edge.src, item.edge.dst, label⟩
  joined : ∀ (earlier later : List WorkItem) (item : WorkItem), done = earlier ++ item :: later →
    ¬ solver.Absorbed item → ∀ (side : Side) (neighbour : Node) (other : Label),
      ∀ label ∈ solver.grammar.derivedBinary (inOrder side item.edge.label other).1
          (inOrder side item.edge.label other).2,
        solver.Known silent earlier item (edgeAt side (near side item.edge) neighbour other) →
        solver.Due state side item.edge neighbour other label →
        state.Stores (edgeAt side (far side item.edge) neighbour label)
  absorbed : ∀ item ∈ done, solver.Absorbed item → ∀ closure,
    state.closures[item.edge.label.symbol]? = some closure → closure.Reaches item.edge.src item.edge.dst

variable {solver : Solver} {silent allowed : Edge → Prop} {done : List WorkItem}
  {state before after : SolveState} {item : WorkItem}

theorem Handled.mono {earlier : List WorkItem} {edge : Edge} (handled : solver.Handled earlier edge)
    (inside : ∀ item ∈ earlier, item ∈ done) : solver.Handled done edge := by
  obtain ⟨item, listed, same, open'⟩ := handled
  exact ⟨item, inside item listed, same, open'⟩

theorem Ledger.handled_stored (ledger : solver.Ledger silent allowed done state) {edge : Edge}
    (handled : solver.Handled done edge) : state.Stores edge := by
  obtain ⟨item, listed, rfl, -⟩ := handled
  exact ledger.stored item (List.mem_append_left _ listed)

theorem Ledger.silent_stored (ledger : solver.Ledger silent allowed done state) {edge : Edge}
    (quiet : silent edge) : state.Stores edge := .inl (ledger.quiet edge quiet)

/-- Taking an item moves it from the front of the worklist to the end of the list of those taken. -/
theorem Ledger.pop (ledger : solver.Ledger silent allowed done state) {rest : Worklist}
    (popped : state.work.pop? = some (item, rest)) :
    solver.Ledger silent allowed (done ++ [item])
      { state with work := rest, iterations := state.iterations + 1 } := by
  have same : history (done ++ [item])
      { state with work := rest, iterations := state.iterations + 1 } = history done state := by
    simp [history, Worklist.toList_of_pop? popped]
  exact
    { valid :=
        { ledger.valid with
          undeferred := fun never => Worklist.deferred_of_pop? popped (ledger.valid.undeferred never) }
      distinct := same ▸ ledger.distinct
      stored := same ▸ ledger.stored
      audible := same ▸ ledger.audible
      listed := same ▸ ledger.listed
      quiet := ledger.quiet
      permitted := ledger.permitted
      iterations := by simp [ledger.iterations]
      reached := same ▸ ledger.reached
      looped := ledger.looped }

/-- What is owed later was owed before, as far as it was there by then. -/
private theorem Due.earlier (valid : solver.Valid after)
    (secondary : ∀ edge, before.secondary.contains edge → after.secondary.contains edge)
    {side : Side} {edge : Edge} {neighbour : Node} {other label : Label}
    (due : solver.Due after side edge neighbour other label)
    (stored : before.Stores (edgeAt side (near side edge) neighbour other))
    (links : solver.accelerates other.symbol → ∀ closure grown,
      before.closures[other.symbol]? = some closure → after.closures[other.symbol]? = some grown →
      grown.Linked (edgeAt side (near side edge) neighbour other).src
        (edgeAt side (near side edge) neighbour other).dst →
      closure.Linked (edgeAt side (near side edge) neighbour other).src
        (edgeAt side (near side edge) neighbour other).dst) :
    solver.Due before side edge neighbour other label where
  stored := stored
  primary reduced := by
    rcases stored with primary | other
    · exact primary
    · exact absurd (secondary _ other) (valid.apart _ (due.primary reduced))
  linked same accelerated := by
    obtain ⟨apart, linked⟩ := due.linked same accelerated
    obtain ⟨grown, made⟩ := valid.present _ accelerated
    exact ⟨apart, fun closure found => links accelerated closure grown found made (linked grown made)⟩

/-- What was owed before is stored later too, while the closures find more, but get no new links to edges
that were known. -/
private theorem Joined.carry (joined : solver.Joined silent done before)
    (ledger : solver.Ledger silent allowed done before) (valid : solver.Valid after)
    (data : ∀ edge, before.data.contains edge → after.data.contains edge)
    (secondary : ∀ edge, before.secondary.contains edge → after.secondary.contains edge)
    (grows : ∀ (symbol : Symbol) (closure grown : Closure), before.closures[symbol]? = some closure →
      after.closures[symbol]? = some grown → ∀ u v, closure.Reaches u v → grown.Reaches u v)
    (links : ∀ edge, silent edge ∨ solver.Handled done edge →
      solver.accelerates edge.label.symbol → ∀ closure grown,
        before.closures[edge.label.symbol]? = some closure →
        after.closures[edge.label.symbol]? = some grown →
        grown.Linked edge.src edge.dst → closure.Linked edge.src edge.dst) :
    solver.Joined silent done after where
  alone item listed open' label rule :=
    (joined.alone item listed open' label rule).imp (data _) (secondary _)
  joined earlier later item split open' side neighbour other label rule known due := by
    have there : silent (edgeAt side (near side item.edge) neighbour other) ∨
        solver.Handled done (edgeAt side (near side item.edge) neighbour other) := by
      rcases known with quiet | own | handled
      · exact .inl quiet
      · exact .inr ⟨item, by simp [split], own.symm, open'⟩
      · exact .inr (handled.mono fun item inside => by simp [split, inside])
    have mapped := links _ there
    rw [label_edgeAt] at mapped
    have owed := due.earlier valid secondary
      (there.elim ledger.silent_stored ledger.handled_stored) mapped
    exact (joined.joined earlier later item split open' side neighbour other label rule known owed).imp
      (data _) (secondary _)
  absorbed item listed taken grown made := by
    obtain ⟨closure, found⟩ := ledger.valid.present _ taken.2.2
    exact grows _ closure grown found made _ _ (joined.absorbed item listed taken closure found)

private theorem concat_split {α : Type} {list earlier later : List α} {last one : α}
    (split : list ++ [last] = earlier ++ one :: later) :
    (list = earlier ∧ last = one) ∨ ∃ rest, list = earlier ++ one :: rest := by
  rcases List.eq_nil_or_concat later with rfl | ⟨rest, other, rfl⟩
  · obtain ⟨same, tail⟩ := List.append_inj' split rfl
    exact .inl ⟨same, List.singleton_inj.mp tail⟩
  · rw [List.concat_eq_append, ← List.cons_append, ← List.append_assoc] at split
    exact .inr ⟨rest, (List.append_inj' split rfl).1⟩

/-- One more item has been taken, and what is owed to it is stored as well. -/
private theorem Joined.concat (joined : solver.Joined silent done after)
    (alone : ¬ solver.Absorbed item → ∀ label ∈ solver.grammar.derivedUnary item.edge.label,
      after.Stores ⟨item.edge.src, item.edge.dst, label⟩)
    (both : ¬ solver.Absorbed item → ∀ (side : Side) (neighbour : Node) (other : Label),
      ∀ label ∈ solver.grammar.derivedBinary (inOrder side item.edge.label other).1
          (inOrder side item.edge.label other).2,
        solver.Known silent done item (edgeAt side (near side item.edge) neighbour other) →
        solver.Due after side item.edge neighbour other label →
        after.Stores (edgeAt side (far side item.edge) neighbour label))
    (absorbed : solver.Absorbed item → ∀ closure, after.closures[item.edge.label.symbol]? = some closure →
      closure.Reaches item.edge.src item.edge.dst) :
    solver.Joined silent (done ++ [item]) after where
  alone other inside open' := by
    rcases List.mem_append.mp inside with inside | last
    · exact joined.alone other inside open'
    · obtain rfl := List.mem_singleton.mp last
      exact alone open'
  joined earlier later other split open' := by
    rcases concat_split split with ⟨rfl, rfl⟩ | ⟨later, split⟩
    · exact both open'
    · exact joined.joined earlier later other split open'
  absorbed other inside taken := by
    rcases List.mem_append.mp inside with inside | last
    · exact joined.absorbed other inside taken
    · obtain rfl := List.mem_singleton.mp last
      exact absorbed taken

theorem not_reduces_of_firesBrackets {symbol : Symbol} (fires : solver.firesBrackets symbol) :
    ¬ solver.reduces := by
  unfold firesBrackets at fires
  unfold reduces
  cases variant : solver.variant <;> simp_all [Variant.usesClosure]

/-- An item that is not handed to a closure is looked at, and fires the shortcuts around its edge. -/
theorem process_works (regular : solver.Regular) (valid : solver.Valid before) (order : LabelOrder)
    (open' : ¬ solver.Absorbed item) :
    let after := solver.process order item before
    solver.Works item.edge before after ∧ solver.Complete item.edge before after ∧
      (solver.firesBrackets item.edge.label.symbol →
        ∀ rule ∈ solver.brackets, rule.inner = item.edge.label.symbol →
          solver.Followed rule before after item.edge.src item.edge.dst) := by
  intro after
  have ran : after = solver.processItem order item.edge
      (if solver.firesBrackets item.edge.label.symbol then
        solver.fireBrackets order item.edge.label.symbol [(item.edge.src, item.edge.dst)] before
      else before) := by
    simp only [after, process]
    rw [if_neg]
    simpa [Absorbed, and_assoc] using open'
  rw [ran]
  split
  · next fires =>
    obtain ⟨fired, followed⟩ :=
      fireBrackets_works item.edge valid (not_reduces_of_firesBrackets fires) order
    obtain ⟨works, complete⟩ := processItem_works regular.exclusive (fired.valid valid) order
    refine ⟨fired.trans works,
      { alone := complete.alone
        joined := fun side neighbour other label rule due =>
          complete.joined side neighbour other label rule (due.keeps fired.keeps) },
      fun _ rule listed inner => ?_⟩
    exact (followed rule listed inner).keeps (fun _ => id) fun _ => works.keeps.stores
  · next silent =>
    obtain ⟨works, complete⟩ := processItem_works regular.exclusive valid order
    exact ⟨works, complete, fun fires => absurd fires silent⟩

/-- A link that a closure takes in was not known before: as one between two nodes it is not silent, and
as a handled edge it would have been announced. -/
private theorem TakesIn.linked (admits : solver.Admits silent allowed)
    (ledger : solver.Ledger silent allowed done state) {edge known : Edge} {closure grown : Closure}
    {pairs : List (Node × Node)} (takes : TakesIn edge closure grown pairs) (apart : edge.src ≠ edge.dst)
    (there : silent known ∨ solver.Handled done known) (accelerated : solver.accelerates known.label.symbol)
    (found : state.closures[known.label.symbol]? = some closure)
    (link : grown.Linked known.src known.dst) : closure.Linked known.src known.dst := by
  obtain old | ⟨src, dst, unknown⟩ := takes.inserts.links _ _ link
  · exact old
  · exfalso
    have differs : known.src ≠ known.dst := by
      rw [src, dst]
      exact apart
    obtain quiet | ⟨earlier, inDone, rfl, open'⟩ := there
    · exact differs (admits.loop known quiet)
    · have secondary : earlier.primary = false := by
        by_contra primary
        exact open' ⟨by simpa using primary, differs, accelerated⟩
      have inHistory := List.mem_append_left state.work.toList inDone
      have announced : ⟨earlier.edge, false⟩ ∈ history done state := secondary ▸ inHistory
      have reached := (ledger.reached _ closure accelerated found _ _ differs).mpr ⟨_, rfl, announced⟩
      rw [src, dst] at reached
      exact unknown reached

/-- An item handed to a closure leaves everything owed to the items before it stored. -/
private theorem Joined.absorb (admits : solver.Admits silent allowed)
    (ledger : solver.Ledger silent allowed done before) (joined : solver.Joined silent done before)
    (valid : solver.Valid after) (absorbed : solver.Absorbed item)
    (absorbs : solver.Absorbs item.edge before after) :
    solver.Joined silent (done ++ [item]) after := by
  obtain ⟨closure, grown, pairs, found, takes, closuresAfter, -⟩ := absorbs.closures
  -- Only the closure that took the edge in has changed.
  have changed : ∀ (symbol : Symbol) (old new : Closure), before.closures[symbol]? = some old →
      after.closures[symbol]? = some new → old = new ∨ (closure = old ∧ grown = new) := by
    intro symbol old new foundOld foundNew
    rw [closuresAfter] at foundNew
    split at foundNew
    · next same =>
      subst same
      exact .inr ⟨Option.some.inj (found.symm.trans foundOld), Option.some.inj foundNew⟩
    · exact .inl (Option.some.inj (foundOld.symm.trans foundNew))
  refine Joined.concat (joined.carry ledger valid absorbs.data absorbs.secondary ?grows ?links)
    (absurd absorbed) (absurd absorbed) ?taken
  case grows =>
    intro symbol old new foundOld foundNew u v path
    rcases changed symbol old new foundOld foundNew with rfl | ⟨rfl, rfl⟩
    · exact path
    · exact (takes.reaches u v).mpr (.inl path)
  case links =>
    intro known there accelerated old new foundOld foundNew link
    rcases changed _ old new foundOld foundNew with rfl | ⟨rfl, rfl⟩
    · exact link
    · exact takes.linked admits ledger absorbed.2.1 there accelerated foundOld link
  case taken =>
    intro _ current made
    rw [closuresAfter, if_pos rfl] at made
    obtain rfl := Option.some.inj made
    exact (takes.inserts.reaches _ _).mpr (.inr ⟨.refl, .refl⟩)

/-- An item that is looked at leaves what is owed to it stored as well. -/
private theorem Joined.work (ledger : solver.Ledger silent allowed done before)
    (joined : solver.Joined silent done before) (valid : solver.Valid after)
    (stored : before.Stores item.edge) (open' : ¬ solver.Absorbed item) {rest : Worklist} {count : Nat}
    (works : solver.Works item.edge { before with work := rest, iterations := count } after)
    (complete : solver.Complete item.edge { before with work := rest, iterations := count } after) :
    solver.Joined silent (done ++ [item]) after := by
  have keeps := works.keeps
  have unchanged : ∀ (symbol : Symbol) (old new : Closure), before.closures[symbol]? = some old →
      after.closures[symbol]? = some new → old = new := by
    intro symbol old new foundOld foundNew
    rw [keeps.closures] at foundNew
    exact Option.some.inj (foundOld.symm.trans foundNew)
  refine Joined.concat (joined.carry ledger valid keeps.data keeps.secondary ?grows ?links)
    (fun _ => complete.alone) (fun _ side neighbour other label rule known due => ?owed)
    fun taken => absurd taken open'
  case grows =>
    intro symbol old new foundOld foundNew u v path
    exact unchanged symbol old new foundOld foundNew ▸ path
  case links =>
    intro known _ _ old new foundOld foundNew link
    exact unchanged _ old new foundOld foundNew ▸ link
  case owed =>
    have there : before.Stores (edgeAt side (near side item.edge) neighbour other) := by
      rcases known with quiet | own | handled
      · exact ledger.silent_stored quiet
      · rw [own]
        exact stored
      · exact ledger.handled_stored handled
    refine complete.joined side neighbour other label rule (due.earlier valid keeps.secondary there ?_)
    intro _ old new foundOld foundNew link
    exact unchanged _ old new foundOld foundNew ▸ link

/-- Taking an item keeps the books in order. Either a closure takes its edge in, or the edge is looked
at. -/
theorem process_cases (regular : solver.Regular) (admits : solver.Admits silent allowed)
    (order : LabelOrder) (ledger : solver.Ledger silent allowed done state) {rest : Worklist}
    (popped : state.work.pop? = some (item, rest)) :
    let ready : SolveState := { state with work := rest, iterations := state.iterations + 1 }
    let after := solver.process order item ready
    solver.Ledger silent allowed (done ++ [item]) after ∧
      ((solver.Absorbed item ∧ solver.Absorbs item.edge state after) ∨
        (¬ solver.Absorbed item ∧ solver.Works item.edge ready after ∧
          solver.Complete item.edge ready after ∧
          (solver.firesBrackets item.edge.label.symbol →
            ∀ rule ∈ solver.brackets, rule.inner = item.edge.label.symbol →
              solver.Followed rule state after item.edge.src item.edge.dst))) := by
  intro ready after
  have readyLedger : solver.Ledger silent allowed (done ++ [item]) ready := ledger.pop popped
  have listed : item ∈ history (done ++ [item]) ready := by simp [history]
  have stored := readyLedger.stored item listed
  by_cases absorbed : solver.Absorbed item
  · have ran : after = solver.processPrimary order item.edge ready := by
      simp only [after, process]
      rw [if_pos]
      simpa [Absorbed, and_assoc] using absorbed
    obtain ⟨afterLedger, absorbs⟩ :=
      readyLedger.processPrimary regular admits order absorbed.2.2 absorbed.2.1 stored
    rw [← ran] at afterLedger absorbs
    exact ⟨afterLedger, .inl ⟨absorbed, { absorbs with }⟩⟩
  · obtain ⟨works, complete, followed⟩ := process_works regular readyLedger.valid order absorbed
    exact ⟨readyLedger.works regular admits stored (readyLedger.audible item listed) works,
      .inr ⟨absorbed, works, complete, followed⟩⟩

/-- Taking an item and doing what it asks for keeps the books in order, and stores what is owed. -/
theorem process_keeps (regular : solver.Regular) (admits : solver.Admits silent allowed)
    (order : LabelOrder) (ledger : solver.Ledger silent allowed done state)
    (joined : solver.Joined silent done state) {rest : Worklist}
    (popped : state.work.pop? = some (item, rest)) :
    let after := solver.process order item
      { state with work := rest, iterations := state.iterations + 1 }
    solver.Ledger silent allowed (done ++ [item]) after ∧
      solver.Joined silent (done ++ [item]) after ∧ ∀ edge, state.Stores edge → after.Stores edge := by
  intro after
  have stored : state.Stores item.edge :=
    ledger.stored item (by simp [history, Worklist.toList_of_pop? popped])
  obtain ⟨afterLedger, ⟨absorbed, absorbs⟩ | ⟨open', works, complete, -⟩⟩ :=
    process_cases regular admits order ledger popped
  · exact ⟨afterLedger, joined.absorb admits ledger afterLedger.valid absorbed absorbs,
      fun edge => Or.imp (absorbs.data edge) (absorbs.secondary edge)⟩
  · exact ⟨afterLedger, joined.work ledger afterLedger.valid stored open' works complete,
      fun edge => works.keeps.stores⟩

/-- Nothing is missing, but for what reduced productions derive. -/
structure Closed (solver : Solver) (silent : Edge → Prop) (state : SolveState) : Prop where
  alone : ∀ edge, state.Stores edge → ¬ silent edge →
    ∀ label ∈ solver.grammar.derivedUnary edge.label, state.Stores ⟨edge.src, edge.dst, label⟩
  join : ∀ left right, state.Stores left → state.Stores right → (¬ silent left ∨ ¬ silent right) →
    left.dst = right.src → ∀ label ∈ solver.grammar.derivedBinary left.label right.label,
      ¬ solver.isReduced left.label right.label label → state.Stores ⟨left.src, right.dst, label⟩
  chain : ∀ symbol, solver.accelerates symbol → ∀ u v w, state.Stores ⟨u, v, .plain symbol⟩ →
    state.Stores ⟨v, w, .plain symbol⟩ → state.Stores ⟨u, w, .plain symbol⟩

/-- One of two members of a list comes at or behind the other. -/
private theorem later_of_two {α : Type} {list : List α} {first second : α} (one : first ∈ list)
    (two : second ∈ list) :
    (∃ earlier later, list = earlier ++ first :: later ∧ (second = first ∨ second ∈ earlier)) ∨
      ∃ earlier later, list = earlier ++ second :: later ∧ first ∈ earlier := by
  obtain ⟨earlier, later, rfl⟩ := List.append_of_mem one
  rcases List.mem_append.mp two with before | behind
  · exact .inl ⟨earlier, later, rfl, .inr before⟩
  · rcases List.mem_cons.mp behind with same | behind
    · exact .inl ⟨earlier, later, rfl, .inl same⟩
    · obtain ⟨between, rest, rfl⟩ := List.append_of_mem behind
      exact .inr ⟨earlier ++ first :: between, rest, by simp, by simp⟩

/-- A production that keeps a label beside an accelerated symbol is not that of the symbol itself. -/
private theorem Regular.not_both (regular : solver.Regular) {left right label : Label}
    (rule : label ∈ solver.grammar.derivedBinary left right) (ownLeft : label = left)
    (ownRight : label = right) : ¬ solver.accelerates label.symbol := by
  intro accelerated
  obtain ⟨-, ⟨lhs, first, second⟩, listed, atLeft, atRight, -, same⟩ :=
    (solver.grammar.mem_derivedBinary _ _ _).mp rule
  have produced : label.symbol = lhs := by rw [same, Grammar.symbol_inherit]
  refine regular.single _ accelerated ?_
  subst ownLeft ownRight
  simp only at atLeft atRight
  rwa [atLeft, atRight, ← produced] at listed

theorem Regular.not_isReduced (regular : solver.Regular) {symbol : Symbol}
    (accelerated : solver.accelerates symbol) (left right label : Label) :
    ¬ solver.isReduced left right label := by
  simp [isReduced, regular.exclusive symbol accelerated]

/-- Between two nodes, an edge of a symbol with a closure has been found by the closure or is still to be
handed to it. -/
theorem Ledger.reach_or_waits (ledger : solver.Ledger silent allowed done state)
    (admits : solver.Admits silent allowed) (joined : solver.Joined silent done state) {edge : Edge}
    {closure : Closure} (accelerated : solver.accelerates edge.label.symbol)
    (found : state.closures[edge.label.symbol]? = some closure) (apart : edge.src ≠ edge.dst)
    (stored : state.Stores edge) :
    closure.Reaches edge.src edge.dst ∨ ⟨edge, true⟩ ∈ state.work.toList := by
  rcases ledger.listed _ stored with quiet | ⟨primary, listed⟩
  · exact absurd (admits.loop _ quiet) apart
  · cases primary with
    | true =>
      refine (List.mem_append.mp listed).imp_left fun taken => ?_
      exact joined.absorbed ⟨edge, true⟩ taken ⟨rfl, apart, accelerated⟩ closure found
    | false =>
      exact .inl ((ledger.reached _ closure accelerated found _ _ apart).mpr ⟨edge.label, rfl, listed⟩)

section Dry

variable (regular : solver.Regular) (admits : solver.Admits silent allowed)
  (ledger : solver.Ledger silent allowed done state) (joined : solver.Joined silent done state)
  (dry : state.work.toList = [])

include dry

private theorem mem_history_dry : item ∈ history done state ↔ item ∈ done := by
  simp [history, dry]

include ledger admits joined

/-- A closure has found every edge of its symbol, except loops. -/
theorem Ledger.reach_of_stored {edge : Edge} {closure : Closure}
    (accelerated : solver.accelerates edge.label.symbol)
    (found : state.closures[edge.label.symbol]? = some closure) (apart : edge.src ≠ edge.dst)
    (stored : state.Stores edge) : closure.Reaches edge.src edge.dst := by
  refine (ledger.reach_or_waits admits joined accelerated found apart stored).resolve_right ?_
  rw [dry]
  exact List.not_mem_nil

-- From here on no edge of a symbol with a closure bears an index. Otherwise the announced edges need
-- not bear the labels of those handed to the closure.
variable (plain : ∀ edge, state.Stores edge → solver.accelerates edge.label.symbol →
    edge.label = .plain edge.label.symbol)

omit admits joined dry in
include plain in
/-- What a closure has found is stored. -/
theorem Ledger.stores_of_reach {symbol : Symbol} {closure : Closure}
    (accelerated : solver.accelerates symbol) (found : state.closures[symbol]? = some closure)
    {u v : Node} (apart : u ≠ v) (reaches : closure.Reaches u v) :
    ⟨⟨u, v, .plain symbol⟩, false⟩ ∈ history done state ∧ state.Stores ⟨u, v, .plain symbol⟩ := by
  obtain ⟨label, rfl, announced⟩ :=
    (ledger.reached symbol closure accelerated found u v apart).mp reaches
  have held := ledger.stored _ announced
  have same : label = .plain label.symbol := plain _ held accelerated
  rw [← same]
  exact ⟨announced, held⟩

include plain

/-- Every stored edge that is not silent has been looked at. -/
theorem Ledger.handled_of_stored {edge : Edge} (stored : state.Stores edge)
    (audible : ¬ silent edge) : solver.Handled done edge := by
  obtain ⟨primary, listed⟩ := (ledger.listed edge stored).resolve_left audible
  by_cases absorbed : solver.Absorbed ⟨edge, primary⟩
  · obtain ⟨-, apart, accelerated⟩ := absorbed
    obtain ⟨closure, found⟩ := ledger.valid.present _ accelerated
    have reaches := ledger.reach_of_stored admits joined dry accelerated found apart stored
    obtain ⟨announced, -⟩ := ledger.stores_of_reach plain accelerated found apart reaches
    rw [← plain edge stored accelerated] at announced
    exact ⟨_, (mem_history_dry dry).mp announced, rfl, fun absorbed => by simp [Absorbed] at absorbed⟩
  · exact ⟨_, (mem_history_dry dry).mp listed, rfl, absorbed⟩

/-- Two adjacent edges have been joined, unless a closure stands in for one of them without linking
its ends. -/
theorem Joined.meet {left right : Edge} (first : state.Stores left) (second : state.Stores right)
    (audible : ¬ silent left ∨ ¬ silent right) (meets : left.dst = right.src) {label : Label}
    (rule : label ∈ solver.grammar.derivedBinary left.label right.label)
    (whole : ¬ solver.isReduced left.label right.label label)
    (byLeft : label = left.label → solver.accelerates right.label.symbol → right.dst ≠ right.src ∧
      ∀ closure, state.closures[right.label.symbol]? = some closure → closure.Linked right.src right.dst)
    (byRight : label = right.label → solver.accelerates left.label.symbol → left.src ≠ left.dst ∧
      ∀ closure, state.closures[left.label.symbol]? = some closure → closure.Linked left.src left.dst) :
    state.Stores ⟨left.src, right.dst, label⟩ := by
  obtain ⟨u, v, own⟩ := left
  obtain ⟨v', w, other⟩ := right
  obtain rfl : v = v' := meets
  have fromLeft : ∀ (earlier later : List WorkItem) (item : WorkItem),
      done = earlier ++ item :: later → item.edge = ⟨u, v, own⟩ → ¬ solver.Absorbed item →
      solver.Known silent earlier item ⟨v, w, other⟩ → state.Stores ⟨u, w, label⟩ := by
    intro earlier later item split same open' known
    have result := joined.joined earlier later item split open' .outgoing w other label
    rw [same] at result
    exact result rule known ⟨second, fun reduced => absurd reduced whole, byLeft⟩
  have fromRight : ∀ (earlier later : List WorkItem) (item : WorkItem),
      done = earlier ++ item :: later → item.edge = ⟨v, w, other⟩ → ¬ solver.Absorbed item →
      solver.Known silent earlier item ⟨u, v, own⟩ → state.Stores ⟨u, w, label⟩ := by
    intro earlier later item split same open' known
    have result := joined.joined earlier later item split open' .incoming u own label
    rw [same] at result
    exact result rule known ⟨first, fun reduced => absurd reduced whole, byRight⟩
  have handled : ∀ edge, state.Stores edge → ¬ silent edge → solver.Handled done edge := fun edge =>
    ledger.handled_of_stored admits joined dry plain
  by_cases quietLeft : silent ⟨u, v, own⟩
  · obtain ⟨item, listed, same, open'⟩ :=
      handled ⟨v, w, other⟩ second (audible.resolve_left (not_not.mpr quietLeft))
    obtain ⟨earlier, later, split⟩ := List.append_of_mem listed
    exact fromRight earlier later item split same open' (.inl quietLeft)
  obtain ⟨item, listed, same, open'⟩ := handled ⟨u, v, own⟩ first quietLeft
  by_cases quietRight : silent ⟨v, w, other⟩
  · obtain ⟨earlier, later, split⟩ := List.append_of_mem listed
    exact fromLeft earlier later item split same open' (.inl quietRight)
  obtain ⟨item', listed', same', open''⟩ := handled ⟨v, w, other⟩ second quietRight
  rcases later_of_two listed listed' with ⟨earlier, later, split, place⟩ | ⟨earlier, later, split, place⟩
  · refine fromLeft earlier later item split same open' (.inr ?_)
    rcases place with rfl | before
    · exact .inl same'.symm
    · exact .inr ⟨item', before, same', open''⟩
  · exact fromRight earlier later item' split same' open'' (.inr (.inr ⟨item, place, same, open'⟩))

include regular

/-- Whatever a closure connects, an edge that it stands beside has been extended by. -/
theorem Ledger.extend_right {symbol : Symbol} {closure : Closure}
    (accelerated : solver.accelerates symbol) (found : state.closures[symbol]? = some closure)
    {label : Label} (rule : label ∈ solver.grammar.derivedBinary label (.plain symbol)) {u v w : Node}
    (reaches : closure.Reaches v w) (stored : state.Stores ⟨u, v, label⟩) :
    state.Stores ⟨u, w, label⟩ := by
  induction reaches with
  | refl => exact stored
  | @tail m n _ link ih =>
    by_cases apart : m = n
    · exact apart ▸ ih
    · obtain ⟨-, there⟩ := ledger.stores_of_reach plain accelerated found apart (.single link)
      refine Joined.meet admits ledger joined dry plain ih there (.inr fun quiet => apart (admits.loop _ quiet))
        rfl rule (regular.not_isReduced accelerated _ _ _) (fun _ _ => ⟨Ne.symm apart, ?_⟩) ?_
      · intro current same
        obtain rfl := Option.some.inj (found.symm.trans same)
        exact link
      · intro own other
        exact absurd other (regular.not_both rule rfl own)

theorem Ledger.extend_left {symbol : Symbol} {closure : Closure}
    (accelerated : solver.accelerates symbol) (found : state.closures[symbol]? = some closure)
    {label : Label} (rule : label ∈ solver.grammar.derivedBinary (.plain symbol) label) {u v w : Node}
    (reaches : closure.Reaches u v) (stored : state.Stores ⟨v, w, label⟩) :
    state.Stores ⟨u, w, label⟩ := by
  induction reaches using Relation.ReflTransGen.head_induction_on with
  | refl => exact stored
  | @head m n link _ ih =>
    by_cases apart : m = n
    · exact apart ▸ ih
    · obtain ⟨-, there⟩ := ledger.stores_of_reach plain accelerated found apart (.single link)
      refine Joined.meet admits ledger joined dry plain there ih (.inl fun quiet => apart (admits.loop _ quiet))
        rfl rule (regular.not_isReduced accelerated _ _ _) ?_ (fun _ _ => ⟨apart, ?_⟩)
      · intro own other
        exact absurd other (regular.not_both rule own rfl)
      · intro current same
        obtain rfl := Option.some.inj (found.symm.trans same)
        exact link

/-- Two adjacent edges have been joined, directly or by the closure that stands in for one of them. -/
private theorem Ledger.join_closed {left right : Edge} (first : state.Stores left)
    (second : state.Stores right) (audible : ¬ silent left ∨ ¬ silent right) (meets : left.dst = right.src)
    {label : Label} (rule : label ∈ solver.grammar.derivedBinary left.label right.label)
    (whole : ¬ solver.isReduced left.label right.label label) :
    state.Stores ⟨left.src, right.dst, label⟩ := by
  obtain ⟨u, v, own⟩ := left
  obtain ⟨v', w, other⟩ := right
  obtain rfl : v = v' := meets
  by_cases byLeft : label = own ∧ solver.accelerates other.symbol
  · obtain ⟨rfl, accelerated⟩ := byLeft
    obtain ⟨closure, found⟩ := ledger.valid.present _ accelerated
    by_cases apart : v = w
    · exact apart ▸ first
    · have same := plain _ second accelerated
      have reaches := ledger.reach_of_stored admits joined dry accelerated found apart second
      exact ledger.extend_right regular admits joined dry plain accelerated found (same ▸ rule) reaches first
  by_cases byRight : label = other ∧ solver.accelerates own.symbol
  · obtain ⟨rfl, accelerated⟩ := byRight
    obtain ⟨closure, found⟩ := ledger.valid.present _ accelerated
    by_cases apart : u = v
    · exact apart ▸ second
    · have same := plain _ first accelerated
      have reaches := ledger.reach_of_stored admits joined dry accelerated found apart first
      exact ledger.extend_left regular admits joined dry plain accelerated found (same ▸ rule) reaches second
  exact Joined.meet admits ledger joined dry plain first second audible rfl rule whole
    (fun same accelerated => absurd ⟨same, accelerated⟩ byLeft)
    fun same accelerated => absurd ⟨same, accelerated⟩ byRight

omit regular in
/-- The edges of a symbol with a closure are transitive, as its closure is. -/
private theorem Ledger.chain_closed {symbol : Symbol} (accelerated : solver.accelerates symbol)
    {u v w : Node} (first : state.Stores ⟨u, v, .plain symbol⟩)
    (second : state.Stores ⟨v, w, .plain symbol⟩) : state.Stores ⟨u, w, .plain symbol⟩ := by
  obtain ⟨closure, found⟩ := ledger.valid.present _ accelerated
  by_cases start : u = v
  · exact start ▸ second
  by_cases stop : v = w
  · exact stop ▸ first
  have there : closure.Reaches u v := ledger.reach_of_stored admits joined dry accelerated found start first
  have on : closure.Reaches v w := ledger.reach_of_stored admits joined dry accelerated found stop second
  by_cases round : u = w
  · subst round
    obtain ⟨label, rfl, held⟩ := ledger.looped symbol closure accelerated found u v start there on
    exact plain _ held accelerated ▸ held
  · exact (ledger.stores_of_reach plain accelerated found round (there.trans on)).2

/-- A solve that has nothing left to do has missed nothing. -/
theorem Ledger.closed : solver.Closed silent state where
  alone edge stored audible label rule := by
    obtain ⟨item, listed, rfl, open'⟩ := ledger.handled_of_stored admits joined dry plain stored audible
    exact joined.alone item listed open' label rule
  join _ _ first second audible meets _ rule whole :=
    ledger.join_closed regular admits joined dry plain first second audible meets rule whole
  chain _ accelerated _ _ _ first second :=
    ledger.chain_closed admits joined dry plain accelerated first second

end Dry

end GrammarReach.Solver
