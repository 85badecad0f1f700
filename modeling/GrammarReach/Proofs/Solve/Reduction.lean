import GrammarReach.Proofs.Solve.Exact

/-!
Transitive reduction. What a transitive symbol derives from itself is kept apart, and is joined with
primary edges only. Nothing is lost by that: items leave in the order in which they came, so an edge
that was kept apart spans a path of primary edges that left before it, and the last edge of a path to
leave finds the rest of the path stored.
-/

namespace GrammarReach.Solver

open Relation (ReflTransGen TransGen)
open SeedGraph

variable {solver : Solver} {silent allowed : Edge → Prop} {done : List WorkItem}
  {state before after : SolveState} {edge : Edge}

/-! ### Reduced productions -/

/-- A reduced production joins two edges under one label to a third one under the same label. -/
theorem isReduced_labels {left right label : Label}
    (rule : label ∈ solver.grammar.derivedBinary left right)
    (reduced : solver.isReduced left right label)
    (plainLeft : solver.grammar.isVariant left.symbol = false → left = .plain left.symbol)
    (plainRight : solver.grammar.isVariant right.symbol = false → right = .plain right.symbol) :
    left = label ∧ right = label := by
  simp only [isReduced, Bool.and_eq_true, beq_iff_eq] at reduced
  obtain ⟨⟨⟨-, atLeft⟩, atRight⟩, -⟩ := reduced
  obtain ⟨agree, found, -, -, -, -, same⟩ := (solver.grammar.mem_derivedBinary _ _ _).mp rule
  have lhs : label.symbol = found.lhs := by rw [same, Grammar.symbol_inherit]
  cases variant : solver.grammar.isVariant label.symbol with
  | false =>
    rw [← lhs, solver.grammar.inherit_of_not_isVariant variant] at same
    rw [atLeft] at variant
    have plainLeft := plainLeft variant
    rw [← atLeft, atRight] at variant
    have plainRight := plainRight variant
    rw [← atLeft] at plainLeft
    rw [← atRight] at plainRight
    exact ⟨plainLeft.trans same.symm, plainRight.trans same.symm⟩
  | true =>
    have indices : left.index = right.index := by
      simpa [Grammar.agree, ← atLeft, ← atRight, variant] using agree
    have inherited : label = ⟨label.symbol, left.index⟩ := by
      rw [← lhs] at same
      simp only [Grammar.ownIndex?, ← atLeft, variant, if_true, Option.some_or, Grammar.inherit,
        Grammar.label] at same
      exact same
    constructor
    · rw [inherited, atLeft]
    · rw [inherited, atRight, indices]

/-! ### Where secondary edges come from -/

/-- Two edges in a row under the label of a third one, which they span. Its symbol is transitive, and the
edge that was looked up to join the other one with it is primary. -/
structure Halves (grammar : Grammar) (data : Dataset) (left right whole : Edge) : Prop where
  transitive : grammar.isTransitive whole.label.symbol
  leftLabel : left.label = whole.label
  rightLabel : right.label = whole.label
  meets : left.dst = right.src
  src : left.src = whole.src
  dst : right.dst = whole.dst
  primary : data.contains left ∨ data.contains right

theorem Halves.mono {grammar : Grammar} {data more : Dataset} {left right whole : Edge}
    (halves : Halves grammar data left right whole)
    (grows : ∀ edge, data.contains edge → more.contains edge) : Halves grammar more left right whole :=
  { halves with primary := halves.primary.imp (grows left) (grows right) }

/-- A secondary edge was derived by a reduced production from two edges that came before it. -/
def Composed (solver : Solver) (done : List WorkItem) (state : SolveState) : Prop :=
  ∀ (earlier later : List WorkItem) (item : WorkItem), history done state = earlier ++ item :: later →
    state.secondary.contains item.edge → ∃ left ∈ earlier, ∃ right ∈ earlier,
      Halves solver.grammar state.data left.edge right.edge item.edge

/-- A solver that reduces, and whose edges bear an index only under a variant symbol. -/
structure Reducing (solver : Solver) (silent allowed : Edge → Prop) : Prop where
  regular : solver.Regular
  admits : solver.Admits silent allowed
  never : ∀ symbol, ¬ solver.accelerates symbol
  plain : ∀ edge, allowed edge → solver.grammar.isVariant edge.label.symbol = false →
    edge.label = .plain edge.label.symbol

theorem Reducing.plainly (reducing : solver.Reducing silent allowed)
    (ledger : solver.Ledger silent allowed done state) (edge : Edge) (stored : state.Stores edge)
    (accelerated : solver.accelerates edge.label.symbol) : edge.label = .plain edge.label.symbol :=
  reducing.plain edge (ledger.permitted edge stored) (reducing.regular.unvaried _ accelerated)

theorem Reducing.undeferred (reducing : solver.Reducing silent allowed) (symbol : Symbol) :
    ¬ solver.defers symbol := by
  have never := reducing.never symbol
  simp_all [defers]

private theorem append_cons_cases {old new earlier later : List WorkItem} {item : WorkItem}
    (split : old ++ new = earlier ++ item :: later) :
    (∃ rest, old = earlier ++ item :: rest) ∨
      ((∀ other ∈ old, other ∈ earlier) ∧ item ∈ new) := by
  rcases List.append_eq_append_iff.mp split with ⟨between, first, second⟩ | ⟨between, first, second⟩
  · refine .inr ⟨fun other listed => ?_, ?_⟩
    · rw [first]
      exact List.mem_append_left _ listed
    · rw [second]
      simp
  · cases between with
    | nil =>
      refine .inr ⟨fun other listed => ?_, ?_⟩
      · rw [List.append_nil] at first
        rwa [← first]
      · rw [List.nil_append] at second
        simp [← second]
    | cons head between =>
      obtain ⟨rfl, rfl⟩ := List.cons.inj second
      exact .inl ⟨between, first⟩

/-- The two edges that a reduced production joins to a new one are its halves, and both were listed: a silent
one among them is a loop, and would have joined to an edge that is stored. -/
private theorem exists_halves (reducing : solver.Reducing silent allowed)
    (ledger : solver.Ledger silent allowed done before) (stored : before.Stores edge)
    (audible : ¬ silent edge) {side : Side} {neighbour : Node} {other label : Label}
    (rule : label ∈ solver.grammar.derivedBinary (inOrder side edge.label other).1
      (inOrder side edge.label other).2)
    (reduced : solver.isReduced (inOrder side edge.label other).1 (inOrder side edge.label other).2 label)
    (there : before.data.contains (edgeAt side (near side edge) neighbour other))
    (fresh : ¬ before.Stores (edgeAt side (far side edge) neighbour label)) :
    ∃ left ∈ history done before, ∃ right ∈ history done before,
      Halves solver.grammar before.data left.edge right.edge
        (edgeAt side (far side edge) neighbour label) := by
  have plainOwn := reducing.plain edge (ledger.permitted edge stored)
  have plainThere := reducing.plain _ (ledger.permitted _ (.inl there))
  have transitive := (Bool.and_eq_true_iff.mp reduced).2
  rw [label_edgeAt] at plainThere
  obtain ⟨own, ownListed⟩ := (ledger.listed edge stored).resolve_left audible
  cases side with
  | outgoing =>
    obtain ⟨rfl, same⟩ := isReduced_labels rule reduced plainOwn plainThere
    have loud : ¬ silent ⟨edge.dst, neighbour, other⟩ := by
      intro quiet
      obtain rfl : edge.dst = neighbour := reducing.admits.loop _ quiet
      exact fresh stored
    obtain ⟨next, nextListed⟩ := (ledger.listed _ (.inl there)).resolve_left loud
    exact ⟨_, ownListed, _, nextListed, transitive, rfl, same, rfl, rfl, rfl, .inr there⟩
  | incoming =>
    obtain ⟨same, rfl⟩ := isReduced_labels rule reduced plainThere plainOwn
    have loud : ¬ silent ⟨neighbour, edge.src, other⟩ := by
      intro quiet
      obtain rfl : neighbour = edge.src := reducing.admits.loop _ quiet
      exact fresh stored
    obtain ⟨next, nextListed⟩ := (ledger.listed _ (.inl there)).resolve_left loud
    exact ⟨_, nextListed, _, ownListed, transitive, same, rfl, rfl, rfl, rfl, .inl there⟩

theorem Composed.addition (reducing : solver.Reducing silent allowed)
    (ledger : solver.Ledger silent allowed done before) (composed : solver.Composed done before)
    (stored : before.Stores edge) (audible : ¬ silent edge)
    (addition : solver.Addition edge before after) : solver.Composed done after := by
  obtain ⟨apart, new, adds, derived⟩ := addition
  have grown : history done after = history done before ++ new.map (⟨·, true⟩) := by
    rw [history, adds.inTurn reducing.undeferred, ← List.append_assoc, history]
  have keeps : ∀ edge, before.data.contains edge → after.data.contains edge :=
    fun edge held => (adds.data edge).mpr (.inl held)
  intro earlier later item split secondary
  rw [grown] at split
  rcases append_cons_cases split with ⟨rest, old⟩ | ⟨all, isNew⟩
  · have before' : before.secondary.contains item.edge := by
      rcases (adds.secondary item.edge).mp secondary with there | ⟨-, fresh⟩
      · exact there
      · exact absurd (ledger.stored item (by simp [old])) (adds.fresh _ fresh)
    obtain ⟨left, leftListed, right, rightListed, halves⟩ := composed earlier rest item old before'
    exact ⟨left, leftListed, right, rightListed, halves.mono keeps⟩
  · obtain ⟨other, inNew, rfl⟩ := List.mem_map.mp isNew
    have fresh := adds.fresh other inNew
    have isApart : apart = true := by
      rcases (adds.secondary other).mp secondary with there | ⟨same, -⟩
      · exact absurd (.inr there) fresh
      · exact same
    have derives := derived other inNew
    cases derives with
    | alone _ => cases isApart
    | extended _ accelerated _ _ _ => exact absurd accelerated (reducing.never _)
    | bracketed _ _ _ _ _ => cases isApart
    | joined rule there primary =>
      obtain ⟨left, leftListed, right, rightListed, halves⟩ :=
        exists_halves reducing ledger stored audible rule isApart (primary isApart) fresh
      exact ⟨left, all left leftListed, right, all right rightListed, halves.mono keeps⟩

theorem Composed.works (reducing : solver.Reducing silent allowed)
    (ledger : solver.Ledger silent allowed done before) (composed : solver.Composed done before)
    (stored : before.Stores edge) (audible : ¬ silent edge) (works : solver.Works edge before after) :
    solver.Composed done after := by
  induction works with
  | refl => exact composed
  | tail earlier addition ih =>
    have current := ledger.works reducing.regular reducing.admits stored audible earlier
    exact ih.addition reducing current (Works.keeps earlier |>.stores stored) audible addition

/-- Every step keeps the invariant. -/
theorem Composed.process (reducing : solver.Reducing silent allowed)
    (ledger : solver.Ledger silent allowed done state) (composed : solver.Composed done state)
    (order : LabelOrder) {item : WorkItem} {rest : Worklist}
    (popped : state.work.pop? = some (item, rest)) :
    solver.Composed (done ++ [item])
      (solver.process order item { state with work := rest, iterations := state.iterations + 1 }) := by
  have readyLedger := ledger.pop popped
  have same : history (done ++ [item])
      { state with work := rest, iterations := state.iterations + 1 } = history done state := by
    simp [history, Worklist.toList_of_pop? popped]
  have ready : solver.Composed (done ++ [item])
      { state with work := rest, iterations := state.iterations + 1 } := by
    intro earlier later other split secondary
    exact composed earlier later other (same ▸ split) secondary
  have listed : item ∈ history (done ++ [item])
      { state with work := rest, iterations := state.iterations + 1 } := by
    simp [history]
  obtain ⟨works, -⟩ := process_works reducing.regular readyLedger.valid order
    fun absorbed => reducing.never _ absorbed.2.2
  exact ready.works reducing readyLedger (readyLedger.stored item listed)
    (readyLedger.audible item listed) works

/-! ### Paths of primary edges -/

/-- The primary edges of a label among some items. -/
def PrimaryStep (items : List WorkItem) (state : SolveState) (label : Label) (u v : Node) : Prop :=
  state.data.contains ⟨u, v, label⟩ ∧ ∃ item ∈ items, item.edge = ⟨u, v, label⟩

section Paths

variable {label : Label} {u v : Node}

theorem PrimaryStep.mono {items more : List WorkItem} (inside : ∀ item ∈ items, item ∈ more)
    (path : TransGen (PrimaryStep items state label) u v) :
    TransGen (PrimaryStep more state label) u v := by
  refine TransGen.mono ?_ _ _ path
  rintro a b ⟨primary, item, listed, same⟩
  exact ⟨primary, item, inside item listed, same⟩

variable (reducing : solver.Reducing silent allowed)
  (ledger : solver.Ledger silent allowed done state) (joined : solver.Joined silent done state)
  (composed : solver.Composed done state) (dry : state.work.toList = [])

include ledger composed dry

/-- An edge spans a path of primary edges that left no later than it did. -/
theorem Composed.path : ∀ (size : Nat) (items later : List WorkItem), items.length ≤ size →
    done = items ++ later → ∀ item ∈ items, item.edge.label = label →
      TransGen (PrimaryStep items state label) item.edge.src item.edge.dst := by
  intro size
  induction size with
  | zero =>
    intro items later short _ item listed
    rw [List.length_eq_zero_iff.mp (Nat.le_zero.mp short)] at listed
    cases listed
  | succ size ih =>
    intro items later short split item listed sameLabel
    obtain ⟨earlier, between, rfl⟩ := List.append_of_mem listed
    have whole : history done state = earlier ++ item :: (between ++ later) := by
      simp [history, dry, split]
    rcases ledger.stored item (by simp [whole]) with primary | secondary
    · refine .single ⟨?_, item, listed, ?_⟩
      · rw [← sameLabel]
        exact primary
      · rw [← sameLabel]
    · obtain ⟨left, leftListed, right, rightListed, halves⟩ :=
        composed earlier (between ++ later) item whole secondary
      have less : earlier.length ≤ size := by
        simp only [List.length_append, List.length_cons] at short
        omega
      have split' : done = earlier ++ item :: (between ++ later) := by simp [split]
      have first := ih earlier _ less split' left leftListed (halves.leftLabel.trans sameLabel)
      have second := ih earlier _ less split' right rightListed (halves.rightLabel.trans sameLabel)
      rw [halves.src, halves.meets] at first
      rw [halves.dst] at second
      exact PrimaryStep.mono (fun other inside => List.mem_append_left _ inside) (first.trans second)

variable (rule : label ∈ solver.grammar.derivedBinary label label)

include reducing joined rule

/-- A stored edge of the label spans a path of primary edges that are among the given items, or it left
behind these and was joined with the primary edges among them. -/
private theorem Joined.path_or_joined {items later : List WorkItem} (split : done = items ++ later)
    (stored : state.Stores ⟨u, v, label⟩) (loud : ¬ silent ⟨u, v, label⟩) :
    TransGen (PrimaryStep items state label) u v ∨ ∀ (side : Side) (w : Node),
      state.data.contains (edgeAt side (near side ⟨u, v, label⟩) w label) →
      (∃ next ∈ items, next.edge = edgeAt side (near side ⟨u, v, label⟩) w label) →
      state.Stores (edgeAt side (far side ⟨u, v, label⟩) w label) := by
  obtain ⟨item, listed, same, open'⟩ :=
    ledger.handled_of_stored reducing.admits joined dry (reducing.plainly ledger) stored loud
  rw [split] at listed
  rcases List.mem_append.mp listed with early | late
  · have path := Composed.path ledger composed dry items.length items later le_rfl split item early
      (by rw [same] : item.edge.label = label)
    rw [same] at path
    exact .inl path
  · refine .inr fun side w primary ⟨next, nextListed, nextEdge⟩ => ?_
    have ordered : label ∈ solver.grammar.derivedBinary (inOrder side label label).1
        (inOrder side label label).2 := by
      cases side <;> exact rule
    obtain ⟨between, rest, rfl⟩ := List.append_of_mem late
    have owed := joined.joined (items ++ between) rest item (by simp [split]) open' side w label label
    rw [same] at owed
    refine owed ordered (.inr (.inr ⟨next, List.mem_append_left _ nextListed, nextEdge, ?_⟩))
      ⟨.inl primary, fun _ => primary, fun _ accelerated => absurd accelerated (reducing.never _)⟩
    exact fun absorbed => reducing.never _ absorbed.2.2

/-- An edge is joined with the primary edges that left before others, if whatever they span is
stored. -/
theorem Joined.extend_right {items later : List WorkItem} (split : done = items ++ later)
    (known : ∀ u v, TransGen (PrimaryStep items state label) u v → state.Stores ⟨u, v, label⟩)
    {w : Node} (stored : state.Stores ⟨u, v, label⟩) (step : PrimaryStep items state label v w) :
    state.Stores ⟨u, w, label⟩ := by
  by_cases quiet : silent ⟨u, v, label⟩
  · obtain rfl : u = v := reducing.admits.loop _ quiet
    exact .inl step.1
  rcases Joined.path_or_joined reducing ledger joined composed dry rule split stored quiet with
    path | joins
  · exact known u w (path.tail step)
  · exact joins .outgoing w step.1 step.2

theorem Joined.extend_left {items later : List WorkItem} (split : done = items ++ later)
    (known : ∀ u v, TransGen (PrimaryStep items state label) u v → state.Stores ⟨u, v, label⟩)
    {w : Node} (stored : state.Stores ⟨v, w, label⟩) (step : PrimaryStep items state label u v) :
    state.Stores ⟨u, w, label⟩ := by
  by_cases quiet : silent ⟨v, w, label⟩
  · obtain rfl : v = w := reducing.admits.loop _ quiet
    exact .inl step.1
  rcases Joined.path_or_joined reducing ledger joined composed dry rule split stored quiet with
    path | joins
  · exact known u w (.head step path)
  · exact joins .incoming u step.1 step.2

/-- Whatever primary edges span is stored. The induction is on the order in which they left: the last
edge of a path to leave is extended by the edges behind it, then by those before it. -/
theorem Joined.stores_path (items later : List WorkItem) (split : done = items ++ later) (u v : Node)
    (path : TransGen (PrimaryStep items state label) u v) : state.Stores ⟨u, v, label⟩ := by
  induction items using List.reverseRecOn generalizing later u v with
  | nil =>
    obtain ⟨_, _, ⟨-, item, listed, -⟩⟩ := TransGen.tail'_iff.mp path
    cases listed
  | append_singleton items last ih =>
    have split' : done = items ++ last :: later := by simp [split]
    have known := ih (last :: later) split'
    by_cases primary : last.edge.label = label ∧ state.data.contains last.edge
    · obtain ⟨sameLabel, held⟩ := primary
      have widened : TransGen (WithEdge (PrimaryStep items state label) last.edge.src last.edge.dst) u v := by
        refine TransGen.mono ?_ _ _ path
        rintro a b ⟨stored, item, listed, same⟩
        rcases List.mem_append.mp listed with early | here
        · exact .inl ⟨stored, item, early, same⟩
        · obtain rfl := List.mem_singleton.mp here
          exact .inr ⟨by rw [same], by rw [same]⟩
      rcases transGen_withEdge widened with direct | ⟨before, behind⟩
      · exact known u v direct
      · clear path widened
        have start : state.Stores ⟨last.edge.src, last.edge.dst, label⟩ := by
          rw [← sameLabel]
          exact .inl held
        have grown : state.Stores ⟨last.edge.src, v, label⟩ := by
          induction behind with
          | refl => exact start
          | tail _ step grown =>
            exact Joined.extend_right reducing ledger joined composed dry rule split' known grown step
        induction before using Relation.ReflTransGen.head_induction_on with
        | refl => exact grown
        | head step _ whole =>
          exact Joined.extend_left reducing ledger joined composed dry rule split' known whole step
    · refine known u v (TransGen.mono ?_ _ _ path)
      rintro a b ⟨stored, item, listed, same⟩
      rcases List.mem_append.mp listed with early | here
      · exact ⟨stored, item, early, same⟩
      · obtain rfl := List.mem_singleton.mp here
        exact absurd ⟨by rw [same], same ▸ stored⟩ primary

/-- A reduced production, too, has been joined to the end. -/
theorem Joined.reduced {w : Node} (first : state.Stores ⟨u, v, label⟩)
    (second : state.Stores ⟨v, w, label⟩) : state.Stores ⟨u, w, label⟩ := by
  have path : ∀ {a b : Node}, state.Stores ⟨a, b, label⟩ → ¬ silent ⟨a, b, label⟩ →
      TransGen (PrimaryStep done state label) a b := by
    intro a b stored loud
    obtain ⟨item, listed, same, -⟩ :=
      ledger.handled_of_stored reducing.admits joined dry (reducing.plainly ledger) stored loud
    have spans := Composed.path ledger composed dry done.length done [] le_rfl (by simp) item listed
      (by rw [same] : item.edge.label = label)
    rwa [same] at spans
  by_cases quietFirst : silent ⟨u, v, label⟩
  · obtain rfl : u = v := reducing.admits.loop _ quietFirst
    exact second
  by_cases quietSecond : silent ⟨v, w, label⟩
  · obtain rfl : v = w := reducing.admits.loop _ quietSecond
    exact first
  exact Joined.stores_path reducing ledger joined composed dry rule done [] (by simp) u w
    ((path first quietFirst).trans (path second quietSecond))

end Paths

/-! ### The strategy -/

variable {grammar : Grammar} {config : Config} {seeds : SeedGraph}

private theorem Prepared.reducing (prepared : solver.Prepared grammar .transitiveReduction)
    (implied : solver.Implied seeds grammar) (indexed : seeds.IndexedBy grammar) :
    solver.Reducing (seeds.Silent solver.grammar) (seeds.Solution grammar) ∧
      solver.Confines seeds (seeds.Solution grammar) := by
  have never := prepared.not_accelerates rfl
  have confines : solver.Confines seeds (seeds.Solution grammar) := prepared.confines implied
    (fun symbol accelerated => absurd accelerated (never symbol))
    fun edge _ accelerated => absurd accelerated (never _)
  refine ⟨⟨prepared.regular, confines.admits, never, ?_⟩, confines⟩
  intro edge inside unvaried
  rw [prepared.isVariant] at unvaried
  exact inside.plain indexed unvaried

/-- Before every step, secondary edges are composed of earlier ones. -/
private theorem run_composed (reducing : solver.Reducing (seeds.Silent solver.grammar) allowed)
    (confines : solver.Confines seeds allowed) (order : LabelOrder) (deadline : Deadline) (steps : Nat) :
    let state := Loop.run (solver.step order deadline) steps (solver.start seeds)
    ∃ done, solver.Stands (seeds.Silent solver.grammar) allowed done state ∧
      solver.Composed done state := by
  refine run_keeps order deadline reducing.regular confines (motive := solver.Composed) ?_ ?_ steps
  · intro earlier later item split secondary
    exact absurd secondary ((start_seeded reducing.regular seeds).secondary item.edge)
  · intro done state item rest stands composed popped
    exact composed.process reducing stands.ledger order popped

theorem Prepared.exact_reduced (prepared : solver.Prepared grammar .transitiveReduction)
    (indexed : seeds.IndexedBy grammar) (implied : solver.Implied seeds grammar) (order : LabelOrder)
    {deadline : Deadline} (unexpired : ∀ tick, deadline.expired tick = false) :
    ∃ result, solver.solveInOrder order seeds deadline = .ok result ∧
      ∀ edge, result.data.contains edge ↔ seeds.Solution grammar edge := by
  obtain ⟨reducing, confines⟩ := prepared.reducing implied indexed
  obtain ⟨ran, dry, -⟩ := solveInOrder_eq_ok prepared.regular confines (by simp [prepared.variant])
    order unexpired
  obtain ⟨done, stands, composed⟩ :=
    run_composed reducing confines order deadline (solver.itemBound seeds)
  have initial : ∀ edge, seeds.Initial solver.grammar edge → SolveState.Stores _ edge := fun _ =>
    run_stores_initial order deadline prepared.regular confines (solver.itemBound seeds)
  set final := Loop.run (solver.step order deadline) (solver.itemBound seeds) (solver.start seeds)
  have ledger := stands.ledger
  have closed := ledger.closed prepared.regular confines.admits stands.joined dry
    (reducing.plainly ledger)
  refine ⟨_, ran, fun edge => (contains_conclude ledger.valid seeds edge).trans
    ⟨ledger.permitted edge, prepared.stores_solution
      (fun _ _ accelerated => absurd accelerated (reducing.never _)) ledger.permitted
      (prepared.silent_eq seeds ▸ closed) ?_ ?_ ?_⟩⟩
  · intro other start
    exact initial other ((prepared.initial_iff seeds other).mpr start)
  · intro other silent
    exact .inl (ledger.quiet other ((prepared.silent_iff seeds other).mpr silent))
  · intro left right first second meets label rule reduced
    obtain ⟨sameLeft, sameRight⟩ := isReduced_labels rule reduced
      (reducing.plain left (ledger.permitted left first))
      (reducing.plain right (ledger.permitted right second))
    rw [sameLeft, sameRight] at rule
    have first : final.Stores ⟨left.src, left.dst, label⟩ := by
      rw [← sameLeft]
      exact first
    have second : final.Stores ⟨left.dst, right.dst, label⟩ := by
      rw [← sameRight, meets]
      exact second
    exact Joined.reduced reducing ledger stands.joined composed dry rule first second

/-- A secondary edge has halves that are stored. -/
private theorem Composed.exists_stored (ledger : solver.Ledger silent allowed done state)
    (composed : solver.Composed done state) (secondary : state.secondary.contains edge) :
    ∃ left right, state.Stores left ∧ state.Stores right ∧
      Halves solver.grammar state.data left right edge := by
  have audible : ¬ silent edge := fun quiet =>
    ledger.valid.apart edge (ledger.quiet edge quiet) secondary
  obtain ⟨primary, listed⟩ := (ledger.listed edge (.inr secondary)).resolve_left audible
  obtain ⟨earlier, later, split⟩ := List.append_of_mem listed
  obtain ⟨left, leftListed, right, rightListed, halves⟩ :=
    composed earlier later ⟨edge, primary⟩ split secondary
  have stored : ∀ item ∈ earlier, state.Stores item.edge := fun item inside =>
    ledger.stored item (split ▸ List.mem_append_left _ inside)
  exact ⟨_, _, stored left leftListed, stored right rightListed, halves⟩

/-- Transitive reduction finds what the standard strategy finds. Before every step the two datasets
share no edge, so that taking the second one into the first one adds up their counts, and an edge of the
second one bears a transitive symbol and spans two stored edges of its label, one of them primary. -/
theorem solve_reduced {plainConfig : Config} {plainSolver : Solver} (indexed : seeds.IndexedBy grammar)
    (made : prepare grammar config = .ok solver) (reduction : config.variant = .transitiveReduction)
    (madePlain : prepare grammar plainConfig = .ok plainSolver)
    (standard : plainConfig.variant = .standard) (order plainOrder : LabelOrder)
    {deadline plainDeadline : Deadline} (unexpired : ∀ tick, deadline.expired tick = false)
    (plainUnexpired : ∀ tick, plainDeadline.expired tick = false) :
    (∃ result expected, solver.solveInOrder order seeds deadline = .ok result ∧
      plainSolver.solveInOrder plainOrder seeds plainDeadline = .ok expected ∧
      ∀ edge, result.data.contains edge ↔ expected.data.contains edge) ∧
    ∀ steps, let state := Loop.run (solver.step order deadline) steps (solver.start seeds)
      (∀ edge, state.data.contains edge → ¬ state.secondary.contains edge) ∧
        (absorbSecondary state).data.edgeCount = state.data.edgeCount + state.secondary.edgeCount ∧
        ∀ edge, state.secondary.contains edge → ∃ left right, state.Stores left ∧ state.Stores right ∧
          Halves grammar state.data left right edge := by
  obtain ⟨prepared, none⟩ := prepared_of_prepare made
  rw [reduction] at prepared
  obtain ⟨preparedPlain, nonePlain⟩ := prepared_of_prepare madePlain
  rw [standard] at preparedPlain
  refine ⟨?_, fun steps => ?_⟩
  · obtain ⟨result, ran, found⟩ :=
      prepared.exact_reduced indexed (implied_of_none none) order unexpired
    obtain ⟨expected, ranPlain, foundPlain⟩ :=
      preparedPlain.exact_standard (implied_of_none nonePlain) plainOrder plainUnexpired
    exact ⟨result, expected, ran, ranPlain, fun edge => (found edge).trans (foundPlain edge).symm⟩
  · obtain ⟨reducing, confines⟩ := prepared.reducing (implied_of_none none) indexed
    obtain ⟨done, stands, composed⟩ := run_composed reducing confines order deadline steps
    have valid := stands.ledger.valid
    refine ⟨valid.apart, Dataset.edgeCount_absorb valid.data valid.secondary valid.apart, ?_⟩
    intro edge secondary
    obtain ⟨left, right, first, second, halves⟩ := composed.exists_stored stands.ledger secondary
    refine ⟨left, right, first, second, { halves with transitive := ?_ }⟩
    rw [Grammar.isTransitive, ← prepared.transitive]
    exact halves.transitive

theorem solve_reduced_path : ∃ solver plainSolver,
    prepare pathGrammar { variant := .transitiveReduction } = .ok solver ∧
    prepare pathGrammar {} = .ok plainSolver ∧
    (∃ result expected, solver.solveInOrder .ascending pathSeeds .unlimited = .ok result ∧
      plainSolver.solveInOrder .ascending pathSeeds .unlimited = .ok expected ∧
      ∀ edge, result.data.contains edge ↔ expected.data.contains edge) ∧
    (∀ steps, let state := Loop.run (solver.step .ascending .unlimited) steps (solver.start pathSeeds)
      (∀ edge, state.data.contains edge → ¬ state.secondary.contains edge) ∧
        (absorbSecondary state).data.edgeCount = state.data.edgeCount + state.secondary.edgeCount ∧
        ∀ edge, state.secondary.contains edge → ∃ left right, state.Stores left ∧ state.Stores right ∧
          Halves pathGrammar state.data left right edge) ∧
    (Loop.run (solver.step .ascending .unlimited) 1 (solver.start pathSeeds)).secondary.contains
      ⟨1, 3, .plain 1⟩ := by
  have made : prepare pathGrammar { variant := .transitiveReduction } = .ok _ := rfl
  have madePlain : prepare pathGrammar {} = .ok _ := rfl
  have unexpired : ∀ tick, Deadline.unlimited.expired tick = false := fun _ => rfl
  obtain ⟨same, apart⟩ := solve_reduced indexedBy_path made rfl madePlain rfl .ascending .ascending
    unexpired unexpired
  exact ⟨_, _, made, madePlain, same, apart, by decide +kernel⟩

end GrammarReach.Solver
