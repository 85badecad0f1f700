import GrammarReach.Proofs.Solve.Item

/-!
The books of a solve. The items taken so far, followed by those that wait, list every stored edge that
was ever queued, each item once. For a symbol with a closure, the items that announce pairs are those
that the closure has found, and a pair that was taken as a primary item is one of them.
-/

namespace GrammarReach.Solver

/-- What the solver promises by the way it was set up. -/
structure Regular (solver : Solver) : Prop where
  exclusive : ∀ symbol, solver.accelerates symbol → ¬ solver.reduces
  unvaried : ∀ symbol, solver.accelerates symbol → solver.grammar.isVariant symbol = false
  single : ∀ symbol, solver.accelerates symbol → ⟨symbol, symbol, symbol⟩ ∉ solver.grammar.binary
  equipped : ∀ symbol, solver.accelerates symbol →
    ∃ closure, Closure.ofVariant? solver.variant = some closure

/-- A set of edges that a solve cannot leave. -/
structure Admits (solver : Solver) (silent allowed : Edge → Prop) : Prop where
  alone : ∀ edge, allowed edge → ¬ silent edge →
    ∀ label ∈ solver.grammar.derivedUnary edge.label, allowed ⟨edge.src, edge.dst, label⟩
  join : ∀ left right, allowed left → allowed right → (¬ silent left ∨ ¬ silent right) →
    left.dst = right.src → ∀ label ∈ solver.grammar.derivedBinary left.label right.label,
      allowed ⟨left.src, right.dst, label⟩
  chain : ∀ first second : Label, solver.accelerates first.symbol → second.symbol = first.symbol →
    ∀ u v w, u ≠ v → allowed ⟨u, v, first⟩ → allowed ⟨v, w, second⟩ →
      allowed ⟨u, w, first⟩ ∧ allowed ⟨u, w, second⟩
  bracket : ∀ rule ∈ solver.brackets, ∀ (opening inner : Label) (parent src dst child : Node),
    opening.symbol = rule.opening → inner.symbol = rule.inner → allowed ⟨parent, src, opening⟩ →
    allowed ⟨src, dst, inner⟩ →
    allowed ⟨dst, child, solver.grammar.label rule.closing opening.index⟩ →
    allowed ⟨parent, child, .plain rule.result⟩
  loop : ∀ edge, silent edge → edge.src = edge.dst

/-- The items taken, in order, then those that wait. -/
def history (done : List WorkItem) (state : SolveState) : List WorkItem := done ++ state.work.toList

/-- The books are in order. -/
structure Ledger (solver : Solver) (silent allowed : Edge → Prop) (done : List WorkItem)
    (state : SolveState) : Prop where
  valid : solver.Valid state
  distinct : (history done state).Nodup
  stored : ∀ item ∈ history done state, state.Stores item.edge
  audible : ∀ item ∈ history done state, ¬ silent item.edge
  listed : ∀ edge, state.Stores edge → silent edge ∨ ∃ primary, ⟨edge, primary⟩ ∈ history done state
  quiet : ∀ edge, silent edge → state.data.contains edge
  permitted : ∀ edge, state.Stores edge → allowed edge
  iterations : state.iterations = done.length
  reached : ∀ (symbol : Symbol) (closure : Closure), solver.accelerates symbol →
    state.closures[symbol]? = some closure → ∀ u v, u ≠ v →
      (closure.Reaches u v ↔
        ∃ label : Label, label.symbol = symbol ∧ ⟨⟨u, v, label⟩, false⟩ ∈ history done state)
  looped : ∀ (symbol : Symbol) (closure : Closure), solver.accelerates symbol →
    state.closures[symbol]? = some closure → ∀ u v, u ≠ v → closure.Reaches u v →
      closure.Reaches v u → ∃ label : Label, label.symbol = symbol ∧ state.Stores ⟨u, u, label⟩

variable {solver : Solver} {silent allowed : Edge → Prop} {done : List WorkItem}
  {state before after : SolveState} {edge : Edge}

/-- What a closure has found is allowed, under a label of its symbol. -/
theorem Ledger.reach_allowed (ledger : solver.Ledger silent allowed done state) {symbol : Symbol}
    {closure : Closure} (accelerated : solver.accelerates symbol)
    (found : state.closures[symbol]? = some closure) {u v : Node} (apart : u ≠ v)
    (reaches : closure.Reaches u v) : ∃ label : Label, label.symbol = symbol ∧ allowed ⟨u, v, label⟩ := by
  obtain ⟨label, same, announced⟩ :=
    (ledger.reached symbol closure accelerated found u v apart).mp reaches
  exact ⟨label, same, ledger.permitted _ (ledger.stored _ announced)⟩

/-- Looking at an edge derives nothing that is not allowed. -/
theorem Ledger.derived_allowed (ledger : solver.Ledger silent allowed done state)
    (regular : solver.Regular) (admits : solver.Admits silent allowed) (stored : state.Stores edge)
    (audible : ¬ silent edge) {apart : Bool} {derived : Edge}
    (derives : solver.Derived edge state apart derived) : allowed derived := by
  have own := ledger.permitted edge stored
  cases derives with
  | alone rule => exact admits.alone edge own audible _ rule
  | @joined side neighbour other label rule held primary =>
    have there := ledger.permitted _ held
    cases side with
    | outgoing => exact admits.join edge ⟨edge.dst, neighbour, other⟩ own there (.inl audible) rfl _ rule
    | incoming => exact admits.join ⟨neighbour, edge.src, other⟩ edge there own (.inr audible) rfl _ rule
  | @extended side neighbour other closure rule accelerated found reaches apart =>
    have plain := regular.unvaried _ accelerated
    cases side with
    | outgoing =>
      obtain ⟨label, same, there⟩ := ledger.reach_allowed accelerated found (Ne.symm apart) reaches
      refine admits.join edge ⟨edge.dst, neighbour, label⟩ own there (.inl audible) rfl _ ?_
      rw [solver.grammar.derivedBinary_congr_right same plain]
      exact rule
    | incoming =>
      obtain ⟨label, same, there⟩ := ledger.reach_allowed accelerated found apart reaches
      refine admits.join ⟨neighbour, edge.src, label⟩ edge there own (.inr audible) rfl _ ?_
      rw [solver.grammar.derivedBinary_congr_left same plain]
      exact rule
  | bracketed listed inner symbol opens closes =>
    exact admits.bracket _ listed _ edge.label _ edge.src edge.dst _ symbol inner.symm
      (ledger.permitted _ (.inl opens)) own (ledger.permitted _ (.inl closes))

section Additions

variable {apart : Bool} {new : List Edge} (adds : solver.Adds apart new before after)

include adds in
private theorem Adds.history_perm :
    (history done after).Perm (history done before ++ new.map (⟨·, true⟩)) := by
  unfold history
  rw [List.append_assoc]
  exact adds.queued.append_left done

include adds in
private theorem Adds.mem_history (item : WorkItem) : item ∈ history done after ↔
    item ∈ history done before ∨ ∃ edge ∈ new, ⟨edge, true⟩ = item := by
  rw [adds.history_perm.mem_iff, List.mem_append, List.mem_map]

include adds in
/-- Additions announce nothing. -/
private theorem Adds.announced_iff (edge : Edge) :
    ⟨edge, false⟩ ∈ history done after ↔ ⟨edge, false⟩ ∈ history done before := by
  rw [adds.mem_history, or_iff_left]
  rintro ⟨other, -, same⟩
  exact absurd (WorkItem.mk.inj same).2 (by simp)

end Additions

/-- Additions of allowed edges keep the books in order. -/
theorem Ledger.adds (ledger : solver.Ledger silent allowed done before) {apart : Bool}
    {new : List Edge} (adds : solver.Adds apart new before after)
    (permitted : ∀ edge ∈ new, allowed edge) : solver.Ledger silent allowed done after where
  valid := adds.valid
  distinct := by
    refine adds.history_perm.nodup_iff.mpr (List.nodup_append.mpr ⟨ledger.distinct, ?_, ?_⟩)
    · exact adds.distinct.map fun _ _ same => (WorkItem.mk.inj same).1
    · rintro item old _ inNew rfl
      obtain ⟨edge, listed, rfl⟩ := List.mem_map.mp inNew
      exact adds.fresh edge listed (ledger.stored _ old)
  stored item listed := by
    rw [adds.stores]
    rcases (adds.mem_history item).mp listed with old | ⟨edge, new, rfl⟩
    · exact .inl (ledger.stored item old)
    · exact .inr new
  audible item listed := by
    rcases (adds.mem_history item).mp listed with old | ⟨edge, new, rfl⟩
    · exact ledger.audible item old
    · exact fun quiet => adds.fresh edge new (.inl (ledger.quiet edge quiet))
  listed edge stored := by
    rcases (adds.stores edge).mp stored with old | new
    · refine (ledger.listed edge old).imp_right ?_
      rintro ⟨primary, listed⟩
      exact ⟨primary, (adds.mem_history _).mpr (.inl listed)⟩
    · exact .inr ⟨true, (adds.mem_history _).mpr (.inr ⟨edge, new, rfl⟩)⟩
  quiet edge quiet := (adds.data edge).mpr (.inl (ledger.quiet edge quiet))
  permitted edge stored := by
    rcases (adds.stores edge).mp stored with old | new
    · exact ledger.permitted edge old
    · exact permitted edge new
  iterations := adds.iterations.trans ledger.iterations
  reached symbol closure accelerated found u v apart := by
    rw [adds.closures] at found
    refine (ledger.reached symbol closure accelerated found u v apart).trans ?_
    exact exists_congr fun label => and_congr_right fun _ => (adds.announced_iff _).symm
  looped symbol closure accelerated found u v apart there back := by
    rw [adds.closures] at found
    obtain ⟨label, same, held⟩ := ledger.looped symbol closure accelerated found u v apart there back
    exact ⟨label, same, (adds.stores _).mpr (.inl held)⟩

/-- Looking at an edge keeps the books in order. -/
theorem Ledger.works (ledger : solver.Ledger silent allowed done before) (regular : solver.Regular)
    (admits : solver.Admits silent allowed) (stored : before.Stores edge) (audible : ¬ silent edge)
    (works : solver.Works edge before after) : solver.Ledger silent allowed done after := by
  induction works with
  | refl => exact ledger
  | tail earlier addition ih =>
    obtain ⟨apart, new, adds, derived⟩ := addition
    refine ih.adds adds fun other listed => ?_
    exact ih.derived_allowed regular admits (Works.keeps earlier |>.stores stored) audible
      (derived other listed)

end GrammarReach.Solver
