import GrammarReach.Proofs.Solve.Ledger

/-!
What becomes of a primary edge of a symbol with a closure. The closure takes it in, and the pairs that
this connects are stored and announced, as are the loops of the nodes that come to lie on a cycle.
-/

namespace GrammarReach.Solver

variable {solver : Solver} {silent allowed : Edge → Prop} {done : List WorkItem}
  {state before after : SolveState} {edge : Edge}

/-- Edges are stored, unless they are already, and announced. -/
structure Announces (new : List Edge) (before after : SolveState) : Prop where
  valid : after.data.Valid
  data : ∀ edge, after.data.contains edge ↔ before.data.contains edge ∨ edge ∈ new
  secondary : after.secondary = before.secondary
  closures : after.closures = before.closures
  iterations : after.iterations = before.iterations
  deferred : after.work.deferred = before.work.deferred
  queued : after.work.toList.Perm (before.work.toList ++ new.map (⟨·, false⟩))

theorem Announces.nothing (valid : state.data.Valid) : Announces [] state state where
  valid := valid
  data := by simp
  secondary := rfl
  closures := rfl
  iterations := rfl
  deferred := rfl
  queued := by simp

theorem Announces.trans {first second third : SolveState} {early late : List Edge}
    (one : Announces early first second) (two : Announces late second third) :
    Announces (early ++ late) first third where
  valid := two.valid
  data edge := by rw [two.data, one.data, List.mem_append, or_assoc]
  secondary := two.secondary.trans one.secondary
  closures := two.closures.trans one.closures
  iterations := two.iterations.trans one.iterations
  deferred := two.deferred.trans one.deferred
  queued := by
    refine two.queued.trans ((one.queued.append_right _).trans ?_)
    rw [List.map_append, List.append_assoc]

private theorem announce_announces (edge : Edge) (valid : state.data.Valid)
    (sound : ¬ edge.label.isFault) :
    Announces [edge] state (announce { state with data := (state.data.add edge).1 } edge) where
  valid := Dataset.valid_add valid edge
  data other := by
    rw [List.mem_singleton]
    exact (Dataset.contains_add valid edge other).trans (or_congr_right (and_iff_left sound))
  secondary := rfl
  closures := rfl
  iterations := rfl
  deferred := rfl
  queued := Worklist.toList_push_perm _ _

private theorem announcePairs_announces {label : Label} (sound : ¬ label.isFault)
    (pairs : List (Node × Node)) :
    ∀ state : SolveState, state.data.Valid →
      Announces (pairs.map (spanned label)) state
        (pairs.foldl (fun state (src, dst) =>
          announce { state with data := (state.data.add ⟨src, dst, label⟩).1 } ⟨src, dst, label⟩)
          state) := by
  induction pairs with
  | nil => exact fun state valid => .nothing valid
  | cons pair pairs ih =>
    intro state valid
    have one := announce_announces (spanned label pair) valid sound
    exact one.trans (ih _ one.valid)

/-- Of the loops of some nodes under a label, those that were not stored have been announced. -/
private structure Loops (label : Label) (nodes : List Node) (new : List Edge)
    (before after : SolveState) : Prop where
  announces : Announces new before after
  distinct : new.Nodup
  fresh : ∀ loop ∈ new, ¬ before.data.contains loop ∧ ∃ node ∈ nodes, loop = ⟨node, node, label⟩
  all : ∀ node ∈ nodes, before.data.contains ⟨node, node, label⟩ ∨ ⟨node, node, label⟩ ∈ new

private theorem Loops.nothing {label : Label} (valid : state.data.Valid) :
    Loops label [] [] state state where
  announces := .nothing valid
  distinct := List.nodup_nil
  fresh := by simp
  all := by simp

private theorem Loops.cons {label : Label} {node : Node} {nodes : List Node} {new : List Edge}
    (one : Announces [⟨node, node, label⟩] before state)
    (absent : ¬ before.data.contains ⟨node, node, label⟩) (rest : Loops label nodes new state after) :
    Loops label (node :: nodes) (⟨node, node, label⟩ :: new) before after where
  announces := one.trans rest.announces
  distinct := by
    refine List.nodup_cons.mpr ⟨fun listed => (rest.fresh _ listed).1 ?_, rest.distinct⟩
    exact (one.data _).mpr (.inr (List.mem_singleton_self _))
  fresh loop listed := by
    rcases List.mem_cons.mp listed with rfl | listed
    · exact ⟨absent, node, List.mem_cons_self, rfl⟩
    · obtain ⟨unknown, other, inside, same⟩ := rest.fresh loop listed
      exact ⟨fun old => unknown ((one.data loop).mpr (.inl old)), other,
        List.mem_cons_of_mem _ inside, same⟩
  all other listed := by
    rcases List.mem_cons.mp listed with rfl | listed
    · exact .inr List.mem_cons_self
    · rcases rest.all other listed with stored | inNew
      · rcases (one.data _).mp stored with old | same
        · exact .inl old
        · exact .inr (List.mem_singleton.mp same ▸ List.mem_cons_self)
      · exact .inr (List.mem_cons_of_mem _ inNew)

private theorem Loops.cons_known {label : Label} {node : Node} {nodes : List Node} {new : List Edge}
    (known : before.data.contains ⟨node, node, label⟩) (rest : Loops label nodes new before after) :
    Loops label (node :: nodes) new before after where
  announces := rest.announces
  distinct := rest.distinct
  fresh loop listed := by
    obtain ⟨unknown, other, inside, same⟩ := rest.fresh loop listed
    exact ⟨unknown, other, List.mem_cons_of_mem _ inside, same⟩
  all other listed := by
    rcases List.mem_cons.mp listed with rfl | listed
    · exact .inl known
    · exact rest.all other listed

private theorem announceLoops_announces {label : Label} (sound : ¬ label.isFault) (nodes : List Node) :
    ∀ state : SolveState, state.data.Valid → ∃ new, Loops label nodes new state
      (nodes.foldl (fun state node =>
        let (data, fresh) := state.data.add ⟨node, node, label⟩
        if fresh then announce { state with data } ⟨node, node, label⟩ else { state with data })
        state) := by
  induction nodes with
  | nil => exact fun state valid => ⟨[], .nothing valid⟩
  | cons node nodes ih =>
    intro state valid
    rw [List.foldl_cons]
    by_cases fresh : (state.data.add ⟨node, node, label⟩).2
    · obtain ⟨-, absent⟩ := (state.data.add_flag _).mp fresh
      have one := announce_announces ⟨node, node, label⟩ valid sound
      obtain ⟨new, rest⟩ := ih _ one.valid
      refine ⟨⟨node, node, label⟩ :: new, ?_⟩
      simpa [fresh] using rest.cons one absent
    · obtain ⟨new, rest⟩ := ih state valid
      have known : state.data.contains ⟨node, node, label⟩ := by
        rw [Dataset.add_flag, not_and_not_right] at fresh
        exact fresh sound
      have ran : (state.data.add ⟨node, node, label⟩).1 = state.data := Dataset.add_of_not_flag fresh
      refine ⟨new, ?_⟩
      simpa [fresh, ran] using rest.cons_known known

/-- Asks a closure whether a pair closes a cycle. -/
private def ask (asked : Closure × List Node) (pair : Node × Node) : Closure × List Node :=
  ((asked.1.reaches pair.2 pair.1).1,
    if (asked.1.reaches pair.2 pair.1).2 then pair.1 :: pair.2 :: asked.2 else asked.2)

/-- The nodes of those pairs whose way back is known. -/
theorem onCycles_spec {closure : Closure} (valid : closure.Valid) (pairs : List (Node × Node)) :
    (onCycles closure pairs).1.Valid ∧ (onCycles closure pairs).1.Linked = closure.Linked ∧
      (onCycles closure pairs).1.pairs = closure.pairs ∧
      ∀ node, node ∈ (onCycles closure pairs).2 ↔ ∃ pair ∈ pairs,
        closure.Reaches pair.2 pair.1 ∧ (node = pair.1 ∨ node = pair.2) := by
  have general : ∀ (pairs : List (Node × Node)) (current : Closure) (nodes : List Node),
      current.Valid → current.Linked = closure.Linked → current.pairs = closure.pairs →
      let asked := pairs.foldl ask (current, nodes)
      asked.1.Valid ∧ asked.1.Linked = closure.Linked ∧ asked.1.pairs = closure.pairs ∧
        ∀ node, node ∈ asked.2 ↔ node ∈ nodes ∨ ∃ pair ∈ pairs,
          closure.Reaches pair.2 pair.1 ∧ (node = pair.1 ∨ node = pair.2) := by
    intro pairs
    induction pairs with
    | nil => exact fun current nodes valid same counted => ⟨valid, same, counted, by simp⟩
    | cons pair pairs ih =>
      intro current nodes valid same counted
      obtain ⟨askedValid, askedSame, answer⟩ := Closure.reaches_spec valid pair.2 pair.1
      have answer' : (current.reaches pair.2 pair.1).2 ↔ closure.Reaches pair.2 pair.1 := by
        rw [answer, Closure.Reaches, Closure.Reaches, same]
      obtain ⟨finalValid, finalSame, finalCounted, final⟩ := ih (current.reaches pair.2 pair.1).1
        (if (current.reaches pair.2 pair.1).2 then pair.1 :: pair.2 :: nodes else nodes)
        askedValid (askedSame.trans same) ((current.pairs_reaches _ _).trans counted)
      refine ⟨finalValid, finalSame, finalCounted, fun node => (final node).trans ?_⟩
      simp only [List.mem_cons, exists_eq_or_imp, ← answer']
      split
      · next closes =>
        simp only [closes, true_and, List.mem_cons, ← or_assoc]
        exact or_congr_left (or_comm.trans or_assoc.symm)
      · next opens => simp [opens]
  obtain ⟨finalValid, same, counted, members⟩ := general pairs closure [] valid rfl rfl
  exact ⟨finalValid, same, counted, fun node => (members node).trans (by simp)⟩

/-- The closure of a symbol takes in an edge. -/
structure TakesIn (edge : Edge) (closure grown : Closure) (pairs : List (Node × Node)) : Prop where
  valid : grown.Valid
  inserts : Inserts closure.Linked edge.src edge.dst grown.Linked pairs
  counted : grown.pairs = closure.pairs + pairs.length

theorem TakesIn.reaches {closure grown : Closure} {pairs : List (Node × Node)}
    (takes : TakesIn edge closure grown pairs) (u v : Node) :
    grown.Reaches u v ↔ closure.Reaches u v ∨ (u, v) ∈ pairs := by
  rw [takes.inserts.mem_found]
  constructor
  · intro path
    by_cases old : closure.Reaches u v
    · exact .inl old
    · exact .inr ⟨path, old⟩
  · rintro (old | ⟨path, -⟩)
    · exact (takes.inserts.reaches u v).mpr (.inl old)
    · exact path

theorem TakesIn.apart {closure grown : Closure} {pairs : List (Node × Node)}
    (takes : TakesIn edge closure grown pairs) {u v : Node} (new : (u, v) ∈ pairs) : u ≠ v := by
  rintro rfl
  exact ((takes.inserts.mem_found u u).mp new).2 .refl

/-- What the announcements of a primary edge come to: all new pairs, and those loops of the nodes on new
cycles that were not stored. -/
structure Reports (edge : Edge) (grown : Closure) (pairs : List (Node × Node)) (loops : List Edge)
    (before after : SolveState) : Prop where
  announces : Announces (pairs.map (spanned edge.label) ++ loops) before after
  distinct : loops.Nodup
  fresh : ∀ loop ∈ loops, ¬ before.data.contains loop ∧ ∃ u v node, (u, v) ∈ pairs ∧
    grown.Reaches v u ∧ (node = u ∨ node = v) ∧ loop = ⟨node, node, edge.label⟩
  complete : ∀ u v, (u, v) ∈ pairs → grown.Reaches v u →
    after.data.contains ⟨u, u, edge.label⟩ ∧ after.data.contains ⟨v, v, edge.label⟩

section Reporting

variable {closure grown : Closure} {pairs : List (Node × Node)} {loops : List Edge}
  (ledger : solver.Ledger silent allowed done before) (admits : solver.Admits silent allowed)
  (accelerated : solver.accelerates edge.label.symbol)
  (found : before.closures[edge.label.symbol]? = some closure) (apart : edge.src ≠ edge.dst)
  (stored : before.Stores edge) (takes : TakesIn edge closure grown pairs)
  (reports : Reports edge grown pairs loops
    { before with closures := before.closures.insert edge.label.symbol grown } after)

include ledger admits accelerated found apart stored takes in
/-- What the new edge connects is allowed under its label, as it comes of what the closure has found so
far, which is allowed under some label of the symbol. -/
private theorem Ledger.pair_allowed {u v : Node} (new : (u, v) ∈ pairs) :
    allowed (spanned edge.label (u, v)) := by
  obtain ⟨path, unknown⟩ := (takes.inserts.mem_found u v).mp new
  have around := ((takes.inserts.reaches u v).mp path).resolve_left unknown
  have behind : allowed ⟨edge.src, v, edge.label⟩ := by
    have own := ledger.permitted edge stored
    by_cases same : edge.dst = v
    · exact same ▸ own
    · obtain ⟨label, like, there⟩ := ledger.reach_allowed accelerated found same around.2
      exact (admits.chain edge.label label accelerated like _ _ _ apart own there).1
  by_cases same : u = edge.src
  · exact same ▸ behind
  · obtain ⟨label, like, there⟩ := ledger.reach_allowed accelerated found same around.1
    exact (admits.chain label edge.label (like ▸ accelerated) like.symm _ _ _ same there behind).2

include ledger admits accelerated found apart stored takes in
private theorem Ledger.grown_allowed {u v : Node} (differs : u ≠ v) (path : grown.Reaches u v) :
    ∃ label : Label, label.symbol = edge.label.symbol ∧ allowed ⟨u, v, label⟩ := by
  rcases (takes.reaches u v).mp path with old | new
  · exact ledger.reach_allowed accelerated found differs old
  · exact ⟨edge.label, rfl, ledger.pair_allowed admits accelerated found apart stored takes new⟩

include ledger admits accelerated found apart stored takes reports in
private theorem Ledger.announced_allowed {other : Edge}
    (new : other ∈ pairs.map (spanned edge.label) ++ loops) : allowed other := by
  rcases List.mem_append.mp new with inPairs | inLoops
  · obtain ⟨⟨u, v⟩, isNew, rfl⟩ := List.mem_map.mp inPairs
    exact ledger.pair_allowed admits accelerated found apart stored takes isNew
  · obtain ⟨-, u, v, node, isNew, back, ends, rfl⟩ := reports.fresh other inLoops
    have differs := takes.apart isNew
    have there := ledger.pair_allowed admits accelerated found apart stored takes isNew
    obtain ⟨label, like, return'⟩ :=
      ledger.grown_allowed admits accelerated found apart stored takes differs.symm back
    rcases ends with rfl | rfl
    · exact (admits.chain edge.label label accelerated like _ _ _ differs there return').1
    · exact (admits.chain label edge.label (like ▸ accelerated) like.symm _ _ _ differs.symm return'
        there).2

include ledger accelerated found takes reports in
/-- No item that is announced was ever queued. -/
private theorem Ledger.announced_new (regular : solver.Regular) {other : Edge}
    (new : other ∈ pairs.map (spanned edge.label) ++ loops) : ⟨other, false⟩ ∉ history done before := by
  intro inHistory
  rcases List.mem_append.mp new with inPairs | inLoops
  · obtain ⟨⟨u, v⟩, isNew, rfl⟩ := List.mem_map.mp inPairs
    have known := (ledger.reached _ closure accelerated found u v (takes.apart isNew)).mpr
      ⟨edge.label, rfl, inHistory⟩
    exact ((takes.inserts.mem_found u v).mp isNew).2 known
  · have single := regular.exclusive _ accelerated
    have unknown := (reports.fresh other inLoops).1
    exact unknown ((ledger.valid.stores_iff single _).mp (ledger.stored _ inHistory))

include takes reports in
private theorem Reports.distinct_items : ((pairs.map (spanned edge.label) ++ loops).map
    (fun other => (⟨other, false⟩ : WorkItem))).Nodup := by
  refine List.Nodup.map (fun _ _ same => (WorkItem.mk.inj same).1) ?_
  refine List.nodup_append.mpr
    ⟨takes.inserts.distinct.map (spanned_injective _), reports.distinct, ?_⟩
  rintro other inPairs _ inLoops rfl
  obtain ⟨⟨u, v⟩, new, rfl⟩ := List.mem_map.mp inPairs
  obtain ⟨-, _, _, node, -, -, -, same⟩ := reports.fresh _ inLoops
  obtain ⟨first, second, -⟩ := Edge.mk.inj same
  exact takes.apart new (first.trans second.symm)

include reports in
/-- Among two different nodes, what is announced are the new pairs. -/
private theorem Reports.announced_iff {u v : Node} (differs : u ≠ v) (label : Label) :
    (⟨u, v, label⟩ : Edge) ∈ pairs.map (spanned edge.label) ++ loops ↔
      edge.label = label ∧ (u, v) ∈ pairs := by
  rw [List.mem_append, List.mem_map]
  constructor
  · rintro (⟨⟨u', v'⟩, isNew, same⟩ | inLoops)
    · obtain ⟨rfl, rfl, rfl⟩ := Edge.mk.inj same
      exact ⟨rfl, isNew⟩
    · obtain ⟨-, _, _, node, -, -, -, same⟩ := reports.fresh _ inLoops
      obtain ⟨rfl, rfl, -⟩ := Edge.mk.inj same
      exact absurd rfl differs
  · rintro ⟨rfl, new⟩
    exact Or.inl ⟨(u, v), new, rfl⟩

include reports in
private theorem Reports.history_perm : (history done after).Perm (history done before ++
    (pairs.map (spanned edge.label) ++ loops).map (⟨·, false⟩)) := by
  unfold history
  rw [List.append_assoc]
  exact reports.announces.queued.append_left done

include reports in
private theorem Reports.mem_history (item : WorkItem) : item ∈ history done after ↔
    item ∈ history done before ∨
      (item.primary = false ∧ item.edge ∈ pairs.map (spanned edge.label) ++ loops) := by
  rw [reports.history_perm.mem_iff, List.mem_append, List.mem_map]
  refine or_congr_right ⟨?_, fun ⟨secondary, listed⟩ => ⟨item.edge, listed, by rw [← secondary]⟩⟩
  rintro ⟨other, listed, rfl⟩
  exact ⟨rfl, listed⟩

include reports in
private theorem Reports.keeps {other : Edge} (old : before.Stores other) : after.Stores other :=
  old.imp (fun old => (reports.announces.data other).mpr (.inl old))
    (by rw [reports.announces.secondary]; exact id)

include reports in
private theorem Reports.old_or_new {other : Edge} (there : after.Stores other) :
    before.Stores other ∨ other ∈ pairs.map (spanned edge.label) ++ loops := by
  rcases there with primary | secondary
  · exact ((reports.announces.data other).mp primary).imp_left .inl
  · rw [reports.announces.secondary] at secondary
    exact .inl (.inr secondary)

include reports in
private theorem Reports.closures (other : Symbol) : after.closures[other]? =
    if edge.label.symbol = other then some grown else before.closures[other]? := by
  simp only [reports.announces.closures, Std.TreeMap.getElem?_insert, Std.LawfulEqCmp.compare_eq_iff_eq]

include ledger accelerated takes reports in
private theorem Reports.valid (regular : solver.Regular) : solver.Valid after where
  data := reports.announces.valid
  secondary := by
    rw [reports.announces.secondary]
    exact ledger.valid.secondary
  apart other _ := by
    rw [reports.announces.secondary]
    exact ledger.valid.unused (regular.exclusive _ accelerated) other
  unused _ other := by
    rw [reports.announces.secondary]
    exact ledger.valid.unused (regular.exclusive _ accelerated) other
  closures other current made := by
    rw [reports.closures] at made
    split at made
    · obtain rfl := Option.some.inj made
      exact takes.valid
    · exact ledger.valid.closures other current made
  present other accelerated := by
    rw [reports.closures]
    split
    · exact ⟨grown, rfl⟩
    · exact ledger.valid.present other accelerated
  undeferred never := by
    rw [reports.announces.deferred]
    exact ledger.valid.undeferred never

include ledger accelerated found takes reports in
/-- The closures go on to reach what was announced: the one that took the edge in has found the new pairs,
and these bear no other symbol. -/
private theorem Reports.reached {other : Symbol} {current : Closure} (accelerated' : solver.accelerates other)
    (made : after.closures[other]? = some current) {u v : Node} (differs : u ≠ v) :
    current.Reaches u v ↔
      ∃ label : Label, label.symbol = other ∧ ⟨⟨u, v, label⟩, false⟩ ∈ history done after := by
  rw [reports.closures] at made
  simp only [reports.mem_history, true_and, reports.announced_iff differs, and_or_left, exists_or]
  split at made
  · next same =>
    subst same
    obtain rfl := Option.some.inj made
    rw [takes.reaches, ledger.reached _ closure accelerated found u v differs]
    simp
  · next differ =>
    rw [ledger.reached other current accelerated' made u v differs, or_iff_left]
    rintro ⟨_, like, rfl, -⟩
    exact differ like

include ledger accelerated found takes reports in
/-- A cycle is an old one, or one of its two ways is among the new pairs and its loops were announced. -/
private theorem Reports.looped {other : Symbol} {current : Closure} (accelerated' : solver.accelerates other)
    (made : after.closures[other]? = some current) {u v : Node} (differs : u ≠ v)
    (there : current.Reaches u v) (back : current.Reaches v u) :
    ∃ label : Label, label.symbol = other ∧ after.Stores ⟨u, u, label⟩ := by
  have kept : (∃ label : Label, label.symbol = other ∧ before.Stores ⟨u, u, label⟩) →
      ∃ label : Label, label.symbol = other ∧ after.Stores ⟨u, u, label⟩ := by
    rintro ⟨label, like, held⟩
    exact ⟨label, like, reports.keeps held⟩
  rw [reports.closures] at made
  split at made
  · next same =>
    subst same
    obtain rfl := Option.some.inj made
    rcases (takes.reaches u v).mp there with oldThere | newThere
    · rcases (takes.reaches v u).mp back with oldBack | newBack
      · exact kept (ledger.looped _ closure accelerated found u v differs oldThere oldBack)
      · exact ⟨edge.label, rfl, .inl (reports.complete v u newBack there).2⟩
    · exact ⟨edge.label, rfl, .inl (reports.complete u v newThere back).1⟩
  · exact kept (ledger.looped other current accelerated' made u v differs there back)

include ledger admits accelerated found apart stored takes reports in
/-- Announcing what a closure has found keeps the books in order. -/
theorem Ledger.of_reports (regular : solver.Regular) : solver.Ledger silent allowed done after where
  valid := reports.valid ledger accelerated takes regular
  distinct := by
    refine reports.history_perm.nodup_iff.mpr
      (List.nodup_append.mpr ⟨ledger.distinct, reports.distinct_items takes, ?_⟩)
    rintro item inOld _ inNew rfl
    obtain ⟨other, listed, rfl⟩ := List.mem_map.mp inNew
    exact ledger.announced_new accelerated found takes reports regular listed inOld
  stored item listed := by
    rcases (reports.mem_history item).mp listed with inOld | ⟨-, new⟩
    · exact reports.keeps (ledger.stored item inOld)
    · exact .inl ((reports.announces.data _).mpr (.inr new))
  audible item listed := by
    rcases (reports.mem_history item).mp listed with inOld | ⟨-, new⟩
    · exact ledger.audible item inOld
    · rcases List.mem_append.mp new with inPairs | inLoops
      · obtain ⟨⟨u, v⟩, isNew, same⟩ := List.mem_map.mp inPairs
        rw [← same]
        exact fun quiet => takes.apart isNew (admits.loop _ quiet)
      · exact fun quiet => (reports.fresh _ inLoops).1 (ledger.quiet _ quiet)
  listed other there := by
    rcases reports.old_or_new there with old | new
    · refine (ledger.listed other old).imp_right ?_
      rintro ⟨primary, listed⟩
      exact ⟨primary, (reports.mem_history _).mpr (.inl listed)⟩
    · exact .inr ⟨false, (reports.mem_history _).mpr (.inr ⟨rfl, new⟩)⟩
  quiet other quiet := (reports.announces.data other).mpr (.inl (ledger.quiet other quiet))
  permitted other there := by
    rcases reports.old_or_new there with old | new
    · exact ledger.permitted other old
    · exact ledger.announced_allowed admits accelerated found apart stored takes reports new
  iterations := reports.announces.iterations.trans ledger.iterations
  reached _ _ accelerated' made _ _ differs :=
    reports.reached ledger accelerated found takes accelerated' made differs
  looped _ _ accelerated' made _ _ differs there back :=
    reports.looped ledger accelerated found takes accelerated' made differs there back

end Reporting

/-- A closure takes an edge in, and it is asked which of the new pairs lie on cycles. -/
private theorem takesIn_insert {closure : Closure} (valid : closure.Valid) (edge : Edge) :
    let inserted := closure.insert edge.src edge.dst
    let asked := onCycles inserted.1 inserted.2
    TakesIn edge closure asked.1 inserted.2 ∧ ∀ node, node ∈ asked.2 ↔
      ∃ u v, (u, v) ∈ inserted.2 ∧ asked.1.Reaches v u ∧ (node = u ∨ node = v) := by
  intro inserted asked
  obtain ⟨grownValid, inserts⟩ := Closure.insert_spec valid edge.src edge.dst
  obtain ⟨askedValid, sameLinks, counted, cyclic⟩ := onCycles_spec grownValid inserted.2
  refine ⟨{ valid := askedValid
            inserts := sameLinks ▸ inserts
            counted := counted.trans (Closure.pairs_insert valid _ _) },
    fun node => (cyclic node).trans ?_⟩
  simp only [Prod.exists, Closure.Reaches, ← sameLinks]
  rfl

/-- What handing an edge to its closure comes to, before the shortcuts are followed. -/
private theorem processPrimary_reports (solver : Solver) (order : LabelOrder) {closure : Closure}
    (valid : closure.Valid) (dataValid : before.data.Valid) (sound : ¬ edge.label.isFault)
    (found : before.closures[edge.label.symbol]? = some closure) :
    ∃ grown pairs loops reported, TakesIn edge closure grown pairs ∧
      Reports edge grown pairs loops
        { before with closures := before.closures.insert edge.label.symbol grown } reported ∧
      solver.processPrimary order edge before =
        solver.fireBrackets order edge.label.symbol pairs reported := by
  obtain ⟨takes, cyclic⟩ := takesIn_insert valid edge
  set pairs := (closure.insert edge.src edge.dst).2
  set asked := onCycles (closure.insert edge.src edge.dst).1 pairs
  have first := announcePairs_announces sound pairs
    { before with closures := before.closures.insert edge.label.symbol asked.1 } dataValid
  obtain ⟨loops, second⟩ := announceLoops_announces sound (ascending asked.2) _ first.valid
  have loopStored := fun node (onCycle : node ∈ asked.2) =>
    (second.announces.data ⟨node, node, edge.label⟩).mpr
      (second.all node ((mem_ascending node _).mpr onCycle))
  refine ⟨asked.1, pairs, loops, _, takes,
    { announces := first.trans second.announces
      distinct := second.distinct
      fresh := fun loop listed => ?fresh
      complete := fun u v new back => ?complete }, ?ran⟩
  case fresh =>
    obtain ⟨unknown, node, inside, same⟩ := second.fresh loop listed
    obtain ⟨u, v, new, back, ends⟩ := (cyclic node).mp ((mem_ascending node _).mp inside)
    exact ⟨fun old => unknown ((first.data loop).mpr (.inl old)), u, v, node, new, back, ends, same⟩
  case complete =>
    exact ⟨loopStored u ((cyclic u).mpr ⟨u, v, new, back, .inl rfl⟩),
      loopStored v ((cyclic v).mpr ⟨u, v, new, back, .inr rfl⟩)⟩
  case ran =>
    simp only [Solver.processPrimary, found]
    rfl

/-- Looking at stored pairs keeps the books in order. -/
theorem Ledger.worksAll (ledger : solver.Ledger silent allowed done before) (regular : solver.Regular)
    (admits : solver.Admits silent allowed) {label : Label} {pairs : List (Node × Node)}
    (stored : ∀ pair ∈ pairs, before.Stores (spanned label pair) ∧ ¬ silent (spanned label pair))
    (works : solver.WorksAll label pairs before after) : solver.Ledger silent allowed done after := by
  induction works with
  | refl => exact ledger
  | tail earlier works ih =>
    obtain ⟨pair, inside, works⟩ := works
    obtain ⟨held, audible⟩ := stored pair inside
    exact ih.works regular admits ((WorksAll.keeps earlier).stores held) audible works

/-- What a primary edge changes besides the worklist: edges are added, and the closure of its symbol
takes it in, with the shortcuts around the new pairs. -/
structure Absorbs (solver : Solver) (edge : Edge) (before after : SolveState) : Prop where
  data : ∀ edge, before.data.contains edge → after.data.contains edge
  secondary : ∀ edge, before.secondary.contains edge → after.secondary.contains edge
  closures : ∃ closure grown pairs, before.closures[edge.label.symbol]? = some closure ∧
    TakesIn edge closure grown pairs ∧
    (∀ other, after.closures[other]? =
      if edge.label.symbol = other then some grown else before.closures[other]?) ∧
    ∀ rule ∈ solver.brackets, rule.inner = edge.label.symbol →
      ∀ pair ∈ pairs, solver.Followed rule before after pair.1 pair.2

/-- Handing a primary edge to its closure keeps the books in order. -/
theorem Ledger.processPrimary (ledger : solver.Ledger silent allowed done before)
    (regular : solver.Regular) (admits : solver.Admits silent allowed) (order : LabelOrder)
    (accelerated : solver.accelerates edge.label.symbol) (apart : edge.src ≠ edge.dst)
    (stored : before.Stores edge) :
    solver.Ledger silent allowed done (solver.processPrimary order edge before) ∧
      solver.Absorbs edge before (solver.processPrimary order edge before) := by
  have single := regular.exclusive _ accelerated
  have held := (ledger.valid.stores_iff single edge).mp stored
  obtain ⟨closure, found⟩ := ledger.valid.present _ accelerated
  obtain ⟨grown, pairs, loops, reported, takes, reports, ran⟩ := processPrimary_reports solver order
    (ledger.valid.closures _ _ found) ledger.valid.data (ledger.valid.data.faultless edge held) found
  have ledger := ledger.of_reports admits accelerated found apart stored takes reports regular
  have announced := reports.announces.data
  have shown : ∀ pair ∈ pairs,
      reported.Stores (spanned edge.label pair) ∧ ¬ silent (spanned edge.label pair) := fun pair inside =>
    ⟨.inl ((announced _).mpr (.inr (List.mem_append_left _ (List.mem_map_of_mem inside)))),
      fun quiet => takes.apart inside (admits.loop _ quiet)⟩
  obtain ⟨fired, followed⟩ := fireBrackets_worksAll ledger.valid single order edge.label pairs
  have keeps := fired.keeps
  rw [ran]
  refine ⟨ledger.worksAll regular admits shown fired,
    { data := fun other old => keeps.data other ((announced other).mpr (.inl old))
      secondary := fun other old => keeps.secondary other (reports.announces.secondary ▸ old)
      closures := ⟨closure, grown, pairs, found, takes, fun other => ?_,
        fun rule listed inner pair inside => ?_⟩ }⟩
  · rw [keeps.closures]
    exact reports.closures other
  · exact (followed rule listed inner pair inside).keeps
      (fun other old => (announced other).mpr (.inl old)) fun _ => id

end GrammarReach.Solver
