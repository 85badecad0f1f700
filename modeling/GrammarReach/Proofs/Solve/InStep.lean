import GrammarReach.Proofs.Closure.Sequence
import GrammarReach.Proofs.Solve.Turns

/-!
The closures of a solve and its dataset, which hold the edges of the same symbols.

A closure takes in the primary edges of its symbol as they come from the worklist. What it connects is
stored at once, by its label without an index; what is stored in any other way waits in the worklist to
be taken in. So the two agree when the worklist has run dry, and the pairs that the closures have counted
are the stored edges.
-/

namespace GrammarReach.Solver

variable {grammar : Grammar} {config : Config} {solver : Solver} {variant : Variant} {seeds : SeedGraph}
  {order : LabelOrder} {deadline : Deadline} {silent allowed : Edge → Prop} {done : List WorkItem}
  {state : SolveState} {symbol : Symbol} {closure : Closure}

/-- Whatever the shortcuts, a solve of seeds without needless indices brings none up. -/
theorem Prepared.confines_plain (prepared : solver.Prepared grammar variant)
    (indexed : seeds.IndexedBy grammar) : solver.Confines seeds fun edge =>
      seeds.Within solver.grammar solver.brackets edge ∧ grammar.Plain edge.label where
  admits :=
    have extent := (solver.confines_extent seeds).admits
    { alone := fun edge inside audible label rule => by
        refine ⟨extent.alone edge inside.1 audible label rule, ?_⟩
        rw [prepared.derivedUnary] at rule
        exact grammar.plain_of_mem_derivedUnary rule
      join := fun left right first second audible meets label rule =>
        ⟨extent.join left right first.1 second.1 audible meets label rule,
          grammar.plain_of_mem_derivedBinary ((prepared.mem_derivedBinary _ _ _).mp rule).1⟩
      chain := fun left right accelerated like u v w apart first second =>
        (extent.chain left right accelerated like u v w apart first.1 second.1).imp
          (⟨·, first.2⟩) (⟨·, second.2⟩)
      bracket := fun rule listed opening inner parent src dst child opens between above inside below =>
        ⟨extent.bracket rule listed opening inner parent src dst child opens between above.1 inside.1
          below.1, fun _ => rfl⟩
      loop := extent.loop }
  initial edge start := ⟨SeedGraph.within_initial start,
    indexed.initial ((prepared.initial_iff seeds edge).mp start)⟩
  silent edge quiet := ⟨SeedGraph.within_silent quiet,
    indexed.silent ((prepared.silent_iff seeds edge).mp quiet)⟩
  within _ inside := inside.1

/-- The edges that the closure of a symbol was handed, in order. -/
def handed (symbol : Symbol) (done : List WorkItem) : List (Node × Node) :=
  (done.filter fun item => item.primary ∧ item.edge.src ≠ item.edge.dst ∧
    item.edge.label.symbol = symbol).map fun item => (item.edge.src, item.edge.dst)

theorem handed_concat (symbol : Symbol) (done : List WorkItem) (item : WorkItem) :
    handed symbol (done ++ [item]) = handed symbol done ++
      if item.primary ∧ item.edge.src ≠ item.edge.dst ∧ item.edge.label.symbol = symbol then
        [(item.edge.src, item.edge.dst)] else [] := by
  unfold handed
  rw [List.filter_append, List.map_append, List.filter_singleton]
  split
  · next taken => rw [decide_eq_true taken]; rfl
  · next other => rw [decide_eq_false other]; rfl

/-- A closure is that of the edges it was handed, whatever it was asked in between. -/
theorem Turned.tracks (turned : solver.Turned order seeds done state) (regular : solver.Regular) :
    ∀ {symbol closure}, state.closures[symbol]? = some closure →
      solver.accelerates symbol ∧ closure.Tracks (handed symbol done) := by
  have confines := solver.confines_extent seeds
  induction turned with
  | start =>
    intro symbol closure found
    rw [(start_seeded regular seeds).closures] at found
    obtain ⟨accelerated, made⟩ := mem_emptyClosures found
    exact ⟨accelerated, Closure.tracks_insertAll made []⟩
  | @turn done state item rest turned popped tracks =>
    intro symbol closure found
    have stands := turned.stands regular confines
    rw [handed_concat]
    obtain ⟨-, ⟨⟨primary, apart, -⟩, absorbs⟩ | ⟨looked, works, -⟩⟩ :=
      process_cases regular confines.admits order stands.ledger popped
    · obtain ⟨old, grown, pairs, foundOld, takes, after, -⟩ := absorbs.closures
      rw [after] at found
      by_cases own : item.edge.label.symbol = symbol
      · subst own
        rw [if_pos rfl] at found
        obtain rfl := Option.some.inj found
        obtain ⟨accelerated, tracked⟩ := tracks foundOld
        rw [if_pos ⟨primary, apart, rfl⟩]
        exact ⟨accelerated, tracked.grow takes.valid takes.inserts takes.counted⟩
      · rw [if_neg own] at found
        rw [if_neg fun taken => own taken.2.2, List.append_nil]
        exact tracks found
    · rw [works.keeps.closures] at found
      obtain ⟨accelerated, tracked⟩ := tracks found
      rw [if_neg, List.append_nil]
      · exact ⟨accelerated, tracked⟩
      · rintro ⟨primary, apart, rfl⟩
        exact looked ⟨primary, apart, accelerated⟩

/-- What the closure of a symbol holds is stored, and what is stored under the symbol is held or waits to be
taken in. -/
structure InStep (symbol : Symbol) (closure : Closure) (state : SolveState) : Prop where
  held : ∀ u v, u ≠ v → (closure.reaches u v).2 → state.data.contains ⟨u, v, .plain symbol⟩
  awaited : ∀ edge, state.data.contains edge → edge.label.symbol = symbol → edge.src ≠ edge.dst →
    (closure.reaches edge.src edge.dst).2 ∨ ⟨edge, true⟩ ∈ state.work.toList

/-- The closure of a symbol holds exactly what is stored under the symbol, loops apart, and that is
transitive. -/
structure Agrees (symbol : Symbol) (closure : Closure) (data : Dataset) : Prop where
  plain : ∀ edge, data.contains edge → edge.label.symbol = symbol → edge.label = .plain symbol
  held : ∀ u v, u ≠ v → ((closure.reaches u v).2 ↔ data.contains ⟨u, v, .plain symbol⟩)
  chain : ∀ u v w, data.contains ⟨u, v, .plain symbol⟩ → data.contains ⟨v, w, .plain symbol⟩ →
    data.contains ⟨u, w, .plain symbol⟩
  counted : closure.pairs =
    data.edges.countP fun edge => edge.label.symbol = symbol ∧ edge.src ≠ edge.dst

/-- Where a closure holds the edges of a symbol, it has counted them. -/
private theorem pairs_eq_countP {data : Dataset} {edges : List (Node × Node)} (valid : data.Valid)
    (tracks : closure.Tracks edges)
    (plain : ∀ edge, data.contains edge → edge.label.symbol = symbol → edge.label = .plain symbol)
    (held : ∀ u v, u ≠ v → ((closure.reaches u v).2 ↔ data.contains ⟨u, v, .plain symbol⟩)) :
    closure.pairs = data.edges.countP fun edge => edge.label.symbol = symbol ∧ edge.src ≠ edge.dst := by
  set own := data.edges.filter fun edge => edge.label.symbol = symbol ∧ edge.src ≠ edge.dst
  have mem : ∀ u v label, ⟨u, v, label⟩ ∈ own ↔
      label = .plain symbol ∧ u ≠ v ∧ data.contains ⟨u, v, .plain symbol⟩ := by
    intro u v label
    rw [List.mem_filter, Dataset.mem_edges, decide_eq_true_iff]
    constructor
    · rintro ⟨stored, like, apart⟩
      obtain rfl := plain _ stored like
      exact ⟨rfl, apart, stored⟩
    · rintro ⟨rfl, apart, stored⟩
      exact ⟨stored, rfl, apart⟩
  have distinct : (own.map fun edge => (edge.src, edge.dst)).Nodup := by
    refine ((Dataset.nodup_edges valid).filter _).map_on ?_
    rintro ⟨u, v, label⟩ one ⟨u', v', label'⟩ two same
    obtain ⟨rfl, rfl⟩ := Prod.mk.inj same
    rw [((mem _ _ _).mp one).1, ((mem _ _ _).mp two).1]
  have same : connectedPairs edges =
      ((own.map fun edge => (edge.src, edge.dst)).toFinset : Set (Node × Node)) := by
    ext ⟨u, v⟩
    rw [List.coe_toFinset, Set.mem_ofPred_eq, List.mem_map, connectedPairs, Set.mem_ofPred_eq,
      ← tracks.closureOf.reaches]
    constructor
    · rintro ⟨apart, path⟩
      exact ⟨_, (mem u v _).mpr ⟨rfl, apart, (held u v apart).mp path⟩, rfl⟩
    · rintro ⟨⟨u', v', label⟩, listed, same⟩
      obtain ⟨rfl, rfl⟩ := Prod.mk.inj same
      obtain ⟨-, apart, stored⟩ := (mem _ _ _).mp listed
      exact ⟨apart, (held _ _ apart).mpr stored⟩
  have counted := tracks.counted
  rwa [same, Set.encard_coe_eq_coe_finsetCard, List.toFinset_card_of_nodup distinct, List.length_map,
    Nat.cast_inj, ← List.countP_eq_length_filter] at counted

section Stands

variable (regular : solver.Regular) (admits : solver.Admits silent allowed)
  (stands : solver.Stands silent allowed done state)
  (plain : ∀ edge, state.Stores edge → solver.accelerates edge.label.symbol →
    edge.label = .plain edge.label.symbol)
  (accelerated : solver.accelerates symbol) (found : state.closures[symbol]? = some closure)

include regular admits stands plain accelerated found

theorem Stands.inStep : InStep symbol closure state := by
  have ledger := stands.ledger
  have answers := fun u v => (Closure.reaches_spec (ledger.valid.closures symbol closure found) u v).2.2
  refine ⟨fun u v apart reaches => ?_, fun edge stored same apart => ?_⟩
  · obtain ⟨-, stored⟩ :=
      ledger.stores_of_reach plain accelerated found apart ((answers u v).mp reaches)
    exact (ledger.valid.stores_iff (regular.exclusive _ accelerated) _).mp stored
  · subst same
    rw [answers]
    exact ledger.reach_or_waits admits stands.joined accelerated found apart (.inl stored)

/-- A closure that is in step with a dataset agrees with it when nothing waits any more. -/
theorem Stands.agrees (dry : state.work.toList = []) {edges : List (Node × Node)}
    (tracks : closure.Tracks edges) : Agrees symbol closure state.data := by
  have ledger := stands.ledger
  have stores := ledger.valid.stores_iff (regular.exclusive _ accelerated)
  have inStep := stands.inStep regular admits plain accelerated found
  have labels : ∀ edge, state.data.contains edge → edge.label.symbol = symbol →
      edge.label = .plain symbol := by
    rintro edge stored rfl
    exact plain edge (.inl stored) accelerated
  have held : ∀ u v, u ≠ v → ((closure.reaches u v).2 ↔ state.data.contains ⟨u, v, .plain symbol⟩) := by
    refine fun u v apart => ⟨inStep.held u v apart, fun stored => ?_⟩
    refine (inStep.awaited _ stored rfl apart).resolve_right ?_
    rw [dry]
    exact List.not_mem_nil
  refine ⟨labels, held, fun u v w first second => ?_, pairs_eq_countP ledger.valid.data tracks labels held⟩
  have closed := ledger.closed regular admits stands.joined dry plain
  exact (stores _).mp (closed.chain symbol accelerated u v w (.inl first) (.inl second))

end Stands

/-- The sum over closures that have counted the edges of their symbols, each symbol apart. -/
private theorem closureSum_pairs {data : Dataset} (valid : data.Valid)
    (only : ∀ symbol closure, state.closures[symbol]? = some closure → solver.accelerates symbol)
    (present : ∀ symbol, solver.accelerates symbol → ∃ closure, state.closures[symbol]? = some closure)
    (counted : ∀ symbol closure, state.closures[symbol]? = some closure → closure.pairs =
      data.edges.countP fun edge => edge.label.symbol = symbol ∧ edge.src ≠ edge.dst) :
    closureSum (·.pairs) state =
      data.edges.countP fun edge => solver.accelerates edge.label.symbol ∧ edge.src ≠ edge.dst := by
  have entry : ∀ symbol closure, (symbol, closure) ∈ state.closures.toList ↔
      state.closures[symbol]? = some closure := fun symbol closure =>
    Std.TreeMap.mem_toList_iff_getElem?_eq_some
  have perm : (state.closures.toList.flatMap fun entry => data.edges.filter fun edge =>
      edge.label.symbol = entry.1 ∧ edge.src ≠ edge.dst).Perm
      (data.edges.filter fun edge => solver.accelerates edge.label.symbol ∧ edge.src ≠ edge.dst) := by
    have distinct := Dataset.nodup_edges valid
    refine (List.perm_ext_iff_of_nodup (List.nodup_flatMap.mpr ⟨fun entry _ => distinct.filter _, ?_⟩)
      (distinct.filter _)).mpr fun edge => ?_
    · refine (distinct_keys state.closures).imp fun apart => ?_
      intro edge inFirst inSecond
      have first := (of_decide_eq_true (List.mem_filter.mp inFirst).2).1
      have second := (of_decide_eq_true (List.mem_filter.mp inSecond).2).1
      exact apart (first.symm.trans second)
    · simp only [List.mem_flatMap, List.mem_filter, decide_eq_true_eq, Prod.exists, entry]
      constructor
      · rintro ⟨_, closure, found, listed, rfl, apart⟩
        exact ⟨listed, only _ closure found, apart⟩
      · rintro ⟨listed, accelerated, apart⟩
        obtain ⟨closure, found⟩ := present _ accelerated
        exact ⟨_, closure, found, listed, rfl, apart⟩
  have sum : closureSum (·.pairs) state = (state.closures.toList.map (·.2.pairs)).sum := by
    rw [closureSum, Std.TreeMap.foldl_eq_foldl_toList, List.sum_eq_foldl, List.foldl_map]
  rw [sum, List.countP_eq_length_filter, ← perm.length_eq, List.length_flatMap]
  refine congrArg List.sum (List.map_congr_left ?_)
  rintro ⟨symbol, closure⟩ listed
  rw [counted symbol closure ((entry _ _).mp listed), List.countP_eq_length_filter]

/-- At every turn of a solve with closures, whatever shortcuts are registered, each closure is in step with
the dataset; in the end it agrees with it, and the pairs of all closures are the edges of their symbols. -/
theorem solve_in_step (indexed : seeds.IndexedBy grammar) (made : prepare grammar config = .ok solver)
    (uses : config.variant.usesClosure) (brackets : List BracketRule) (order : LabelOrder)
    (unexpired : ∀ tick, deadline.expired tick = false) :
    (∀ done state, (solver.withBrackets brackets).Turned order seeds done state →
      ∀ symbol, solver.accelerates symbol →
        ∃ closure, state.closures[symbol]? = some closure ∧ InStep symbol closure state) ∧
    ∃ taken final result, (solver.withBrackets brackets).Turned order seeds taken final ∧
      Loop.Ends ((solver.withBrackets brackets).step order deadline)
        ((solver.withBrackets brackets).start seeds) final ∧
      (solver.withBrackets brackets).solveInOrder order seeds deadline = .ok result ∧
      (∀ symbol, solver.accelerates symbol →
        ∃ closure, final.closures[symbol]? = some closure ∧ Agrees symbol closure result.data) ∧
      result.stats.reachablePairs = result.data.edges.countP fun edge =>
        solver.accelerates edge.label.symbol ∧ edge.src ≠ edge.dst := by
  have prepared := (prepared_of_prepare made).1.withBrackets brackets
  have regular := prepared.regular
  have confines := prepared.confines_plain indexed
  have accelerates := fun symbol => (prepared.accelerates symbol).mp
  have stands : ∀ {done state}, (solver.withBrackets brackets).Turned order seeds done state → _ :=
    fun turned => turned.stands regular confines
  have plain : ∀ {done state}, (solver.withBrackets brackets).Turned order seeds done state →
      ∀ edge, state.Stores edge → solver.accelerates edge.label.symbol →
        edge.label = .plain edge.label.symbol := fun turned edge stored accelerated =>
    ((stands turned).ledger.permitted edge stored).2 (accelerates _ accelerated).2.2
  refine ⟨fun done state turned symbol accelerated => ?_, ?_⟩
  · obtain ⟨closure, found⟩ := (stands turned).ledger.valid.present symbol accelerated
    exact ⟨closure, found,
      (stands turned).inStep regular confines.admits (plain turned) accelerated found⟩
  · obtain ⟨taken, final, turned, dry, ends, ran⟩ := exists_turned regular (prepared.not_batch uses)
      seeds order unexpired
    rw [conclude_of_not_reduces (prepared.not_reduces uses)] at ran
    have valid := (stands turned).ledger.valid
    have agrees : ∀ symbol closure, final.closures[symbol]? = some closure →
        solver.accelerates symbol ∧ Agrees symbol closure final.data := by
      intro symbol closure found
      obtain ⟨accelerated, tracks⟩ := turned.tracks regular found
      exact ⟨accelerated, (stands turned).agrees regular confines.admits (plain turned) accelerated found
        dry tracks⟩
    refine ⟨taken, final, _, turned, ends, ran, fun symbol accelerated => ?_, ?_⟩
    · obtain ⟨closure, found⟩ := valid.present symbol accelerated
      exact ⟨closure, found, (agrees symbol closure found).2⟩
    · exact closureSum_pairs valid.data (fun symbol closure found => (agrees symbol closure found).1)
        valid.present fun symbol closure found => (agrees symbol closure found).2.counted

theorem solve_in_step_path : ∃ (solver : Solver) (final : SolveState) (result : SolveResult),
    prepare pathGrammar { variant := .pocr } = .ok solver ∧
    (solver.withBrackets []).solveInOrder .ascending pathSeeds .unlimited = .ok result ∧
    (∃ closure, final.closures[(1 : Symbol)]? = some closure ∧ Agrees 1 closure result.data) ∧
    result.stats.reachablePairs = result.data.edges.countP fun edge =>
      solver.accelerates edge.label.symbol ∧ edge.src ≠ edge.dst := by
  have made : prepare pathGrammar { variant := .pocr } = .ok _ := rfl
  have unexpired : ∀ tick, Deadline.unlimited.expired tick = false := fun _ => rfl
  obtain ⟨-, -, final, result, -, -, ran, agree, counted⟩ :=
    solve_in_step indexedBy_path made rfl [] .ascending unexpired
  exact ⟨_, final, result, made, ran, agree 1 (by decide +kernel), counted⟩

end GrammarReach.Solver
