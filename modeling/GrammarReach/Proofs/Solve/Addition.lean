import GrammarReach.Proofs.Closure.Basic
import GrammarReach.Proofs.Dataset
import GrammarReach.Proofs.Worklist
import GrammarReach.Solve.Step

namespace GrammarReach

def SolveState.Stores (state : SolveState) (edge : Edge) : Prop :=
  state.data.contains edge ∨ state.secondary.contains edge

namespace Solver

/-- The datasets share no edge, the second one serves transitive reduction only, the closures are in
order, and nothing is deferred by a solver that defers no symbol. -/
structure Valid (solver : Solver) (state : SolveState) : Prop where
  data : state.data.Valid
  secondary : state.secondary.Valid
  apart : ∀ edge, state.data.contains edge → ¬ state.secondary.contains edge
  unused : ¬ solver.reduces → ∀ edge, ¬ state.secondary.contains edge
  closures : ∀ (symbol : Symbol) (closure : Closure), state.closures[symbol]? = some closure →
    closure.Valid
  present : ∀ symbol, solver.accelerates symbol → ∃ closure, state.closures[symbol]? = some closure
  undeferred : (∀ symbol, ¬ solver.defers symbol) → state.work.deferred.toList = []

/-- New edges are stored in one dataset and queued. -/
structure Adds (solver : Solver) (apart : Bool) (new : List Edge) (before after : SolveState) :
    Prop where
  valid : solver.Valid after
  fresh : ∀ edge ∈ new, ¬ before.Stores edge
  distinct : new.Nodup
  data : ∀ edge, after.data.contains edge ↔
    before.data.contains edge ∨ (apart = false ∧ edge ∈ new)
  secondary : ∀ edge, after.secondary.contains edge ↔
    before.secondary.contains edge ∨ (apart = true ∧ edge ∈ new)
  queued : after.work.toList.Perm (before.work.toList ++ new.map (⟨·, true⟩))
  inTurn : (∀ symbol, ¬ solver.defers symbol) →
    after.work.toList = before.work.toList ++ new.map (⟨·, true⟩)
  closures : after.closures = before.closures
  iterations : after.iterations = before.iterations

variable {solver : Solver}

theorem Adds.stores {apart : Bool} {new : List Edge} {before after : SolveState}
    (adds : solver.Adds apart new before after) (edge : Edge) :
    after.Stores edge ↔ before.Stores edge ∨ edge ∈ new := by
  unfold SolveState.Stores
  rw [adds.data, adds.secondary]
  cases apart <;> simp <;> tauto

/-- The counters have no part in an addition. -/
theorem Adds.of_checks {apart : Bool} {new : List Edge} {before after : SolveState} {checks : Nat}
    (adds : solver.Adds apart new { before with checks } after) :
    solver.Adds apart new before after := { adds with }

theorem Valid.of_checks {state : SolveState} (valid : solver.Valid state) (checks : Nat) :
    solver.Valid { state with checks } := { valid with }

theorem Valid.stores_iff {state : SolveState} (valid : solver.Valid state)
    (single : ¬ solver.reduces) (edge : Edge) : state.Stores edge ↔ state.data.contains edge :=
  or_iff_left (valid.unused single edge)

theorem Adds.nothing {state : SolveState} (valid : solver.Valid state) (apart : Bool) :
    solver.Adds apart [] state state where
  valid := valid
  fresh := by simp
  distinct := List.nodup_nil
  data := by simp
  secondary := by simp
  queued := by simp
  inTurn := by simp
  closures := rfl
  iterations := rfl

/-- Queueing edges changes nothing but the worklist. -/
structure Queues (solver : Solver) (edges : List Edge) (before after : SolveState) : Prop where
  data : after.data = before.data
  secondary : after.secondary = before.secondary
  closures : after.closures = before.closures
  iterations : after.iterations = before.iterations
  queued : after.work.toList.Perm (before.work.toList ++ edges.map (⟨·, true⟩))
  inTurn : (∀ symbol, ¬ solver.defers symbol) → before.work.deferred.toList = [] →
    after.work.toList = before.work.toList ++ edges.map (⟨·, true⟩) ∧
      after.work.deferred.toList = []

theorem Queues.nothing (state : SolveState) : solver.Queues [] state state where
  data := rfl
  secondary := rfl
  closures := rfl
  iterations := rfl
  queued := by simp
  inTurn _ none := ⟨by simp, none⟩

theorem Queues.trans {first second third : SolveState} {early late : List Edge}
    (one : solver.Queues early first second) (two : solver.Queues late second third) :
    solver.Queues (early ++ late) first third where
  data := two.data.trans one.data
  secondary := two.secondary.trans one.secondary
  closures := two.closures.trans one.closures
  iterations := two.iterations.trans one.iterations
  queued := by
    rw [List.map_append, ← List.append_assoc]
    exact two.queued.trans (one.queued.append_right _)
  inTurn never none := by
    obtain ⟨oneTurn, oneNone⟩ := one.inTurn never none
    obtain ⟨twoTurn, twoNone⟩ := two.inTurn never oneNone
    refine ⟨?_, twoNone⟩
    rw [twoTurn, oneTurn, List.map_append, List.append_assoc]

theorem enqueue_queues (state : SolveState) (edge : Edge) :
    solver.Queues [edge] state (solver.enqueue state edge) := by
  unfold enqueue
  dsimp only
  split
  · next defers =>
    exact
      { data := rfl
        secondary := rfl
        closures := rfl
        iterations := rfl
        queued := by
          rw [Worklist.toList_defer]
          exact .refl _
        inTurn := fun never => absurd defers.2 (never _) }
  · exact
      { data := rfl
        secondary := rfl
        closures := rfl
        iterations := rfl
        queued := Worklist.toList_push_perm _ _
        inTurn := fun _ none => ⟨Worklist.toList_push_of_none_deferred none _, none⟩ }

theorem foldl_enqueue {α : Type} (edgeOf : α → Edge) (items : List α) (state : SolveState) :
    solver.Queues (items.map edgeOf) state
      (items.foldl (fun state item => solver.enqueue state (edgeOf item)) state) := by
  induction items generalizing state with
  | nil => exact .nothing state
  | cons item items ih => exact (solver.enqueue_queues state (edgeOf item)).trans (ih _)

/-- Storing new edges and queueing them is an addition. -/
theorem Queues.adds {before stored after : SolveState} {apart : Bool} {new : List Edge}
    (queues : solver.Queues new stored after) (valid : solver.Valid before)
    (work : stored.work = before.work) (closures : stored.closures = before.closures)
    (iterations : stored.iterations = before.iterations) (dataValid : stored.data.Valid)
    (secondaryValid : stored.secondary.Valid) (reduced : apart → solver.reduces)
    (fresh : ∀ edge ∈ new, ¬ before.Stores edge) (distinct : new.Nodup)
    (data : ∀ edge, stored.data.contains edge ↔
      before.data.contains edge ∨ (apart = false ∧ edge ∈ new))
    (secondary : ∀ edge, stored.secondary.contains edge ↔
      before.secondary.contains edge ∨ (apart = true ∧ edge ∈ new)) :
    solver.Adds apart new before after where
  valid :=
    { data := queues.data ▸ dataValid
      secondary := queues.secondary ▸ secondaryValid
      apart := by
        intro edge
        rw [queues.data, queues.secondary, data, secondary]
        rintro (old | ⟨first, new⟩) (other | ⟨second, new'⟩)
        · exact valid.apart edge old other
        · exact fresh edge new' (.inl old)
        · exact fresh edge new (.inr other)
        · simp [first] at second
      unused := by
        intro single edge
        rw [queues.secondary, secondary]
        rintro (old | ⟨second, -⟩)
        · exact valid.unused single edge old
        · exact single (reduced second)
      closures := by
        rw [queues.closures, closures]
        exact valid.closures
      present := by
        rw [queues.closures, closures]
        exact valid.present
      undeferred := fun never =>
        (queues.inTurn never (by rw [work]; exact valid.undeferred never)).2 }
  fresh := fresh
  distinct := distinct
  data edge := by rw [queues.data, data]
  secondary edge := by rw [queues.secondary, secondary]
  queued := by
    have queued := queues.queued
    rwa [work] at queued
  inTurn never := by
    have inTurn := (queues.inTurn never (by rw [work]; exact valid.undeferred never)).1
    rwa [work] at inTurn
  closures := queues.closures.trans closures
  iterations := queues.iterations.trans iterations

/-- Adding an edge stores it, and queues it where it was new. -/
theorem addAndEnqueue_adds {state : SolveState} (valid : solver.Valid state) {edge : Edge}
    (unheld : ¬ state.secondary.contains edge) :
    (∃ new, solver.Adds false new state (solver.addAndEnqueue state edge) ∧
      ∀ other ∈ new, other = edge) ∧
      (¬ edge.label.isFault → (solver.addAndEnqueue state edge).Stores edge) := by
  by_cases flag : (state.data.add edge).2
  · obtain ⟨sound, absent⟩ := (state.data.add_flag edge).mp flag
    have ran : solver.addAndEnqueue state edge =
        solver.enqueue { state with data := (state.data.add edge).1 } edge := by
      simp [addAndEnqueue, flag]
    rw [ran]
    have adds : solver.Adds false [edge] state
        (solver.enqueue { state with data := (state.data.add edge).1 } edge) := by
      refine (solver.enqueue_queues _ edge).adds valid rfl rfl rfl (Dataset.valid_add valid.data edge)
        valid.secondary (by simp) ?_ (List.nodup_singleton _) ?_ (by simp)
      · intro other listed
        obtain rfl := List.mem_singleton.mp listed
        exact not_or.mpr ⟨absent, unheld⟩
      · intro other
        rw [Dataset.contains_add valid.data, List.mem_singleton]
        simp [sound]
    exact ⟨⟨[edge], adds, by simp⟩, fun _ => (adds.stores edge).mpr (.inr (by simp))⟩
  · have ran : solver.addAndEnqueue state edge = state := by
      simp [addAndEnqueue, flag, Dataset.add_of_not_flag flag]
    rw [ran]
    refine ⟨⟨[], .nothing valid false, by simp⟩, fun sound => .inl ?_⟩
    rw [Dataset.add_flag, not_and_not_right] at flag
    exact flag sound

theorem edgeAt_injective (side : Side) (node : Node) (label : Label) :
    Function.Injective (edgeAt side node · label) := by
  intro first second same
  cases side <;> simp_all [edgeAt]

theorem label_edgeAt (side : Side) (node neighbour : Node) (label : Label) :
    (edgeAt side node neighbour label).label = label := by
  cases side <;> rfl

theorem valid_neighboursIn {data : Dataset} (valid : data.Valid) (side : Side) (node : Node)
    (label : Label) : (neighboursIn data side node label).Valid := by
  cases side with
  | outgoing => exact valid.outgoing.sets node label
  | incoming => exact valid.incoming.sets node label

theorem contains_neighboursIn {data : Dataset} (valid : data.Valid) (side : Side)
    (node neighbour : Node) (label : Label) :
    (neighboursIn data side node label).contains neighbour ↔
      data.contains (edgeAt side node neighbour label) := by
  cases side with
  | outgoing => rfl
  | incoming => exact valid.mirrored ⟨neighbour, node, label⟩

theorem addNeighbours_addsAll {data : Dataset} (valid : data.Valid) (side : Side) (node : Node)
    {neighbours : NodeSet} (neighboursValid : neighbours.Valid) (label : Label) :
    Dataset.AddsAll data (addNeighbours data side node neighbours label).1
      (addNeighbours data side node neighbours label).2 (edgeAt side node · label) neighbours := by
  cases side with
  | outgoing => exact Dataset.addTargets_addsAll valid node neighboursValid label
  | incoming => exact Dataset.addSources_addsAll valid node neighboursValid label

/-- The edges between a node and some neighbours are stored, and those that were new were queued. -/
structure AddsEdges (solver : Solver) (apart : Bool) (side : Side) (node : Node) (neighbours : NodeSet)
    (label : Label) (before after : SolveState) : Prop where
  adds : ∃ new, solver.Adds apart new before after ∧ ∀ edge ∈ new, ∃ neighbour,
    neighbours.contains neighbour ∧ edge = edgeAt side node neighbour label
  stores : ∀ neighbour, neighbours.contains neighbour → after.Stores (edgeAt side node neighbour label)

section Neighbours

variable {state : SolveState} (valid : solver.Valid state) (side : Side) (node : Node)
  {neighbours : NodeSet} {label : Label}

include valid in
/-- Storing the edges to those neighbours that have none yet, and queueing them. -/
private theorem foldl_enqueue_adds {stored : SolveState} {fresh : NodeSet} (freshValid : fresh.Valid)
    {apart : Bool} (reduced : apart → solver.reduces)
    (work : stored.work = state.work) (closures : stored.closures = state.closures)
    (iterations : stored.iterations = state.iterations)
    (dataValid : stored.data.Valid) (secondaryValid : stored.secondary.Valid)
    (freshIff : ∀ neighbour, fresh.contains neighbour ↔
      neighbours.contains neighbour ∧ ¬ state.Stores (edgeAt side node neighbour label))
    (data : ∀ edge, stored.data.contains edge ↔ state.data.contains edge ∨
      (apart = false ∧ ∃ neighbour, fresh.contains neighbour ∧ edge = edgeAt side node neighbour label))
    (secondary : ∀ edge, stored.secondary.contains edge ↔ state.secondary.contains edge ∨
      (apart = true ∧ ∃ neighbour, fresh.contains neighbour ∧ edge = edgeAt side node neighbour label)) :
    solver.AddsEdges apart side node neighbours label state (fresh.toList.foldl
      (fun state neighbour => solver.enqueue state (edgeAt side node neighbour label)) stored) := by
  let new := fresh.toList.map (edgeAt side node · label)
  have listed : ∀ edge, edge ∈ new ↔ ∃ neighbour,
      fresh.contains neighbour ∧ edge = edgeAt side node neighbour label := by
    intro edge
    simp only [new, List.mem_map, NodeSet.mem_toList]
    exact exists_congr fun _ => and_congr_right fun _ => eq_comm
  have adds : solver.Adds apart new state (fresh.toList.foldl
      (fun state neighbour => solver.enqueue state (edgeAt side node neighbour label)) stored) := by
    refine (solver.foldl_enqueue (edgeAt side node · label) fresh.toList stored).adds valid work closures
      iterations dataValid secondaryValid reduced ?_ ?_ ?_ ?_
    · intro edge inside
      obtain ⟨neighbour, isFresh, rfl⟩ := (listed edge).mp inside
      exact ((freshIff neighbour).mp isFresh).2
    · exact (NodeSet.toList_nodup freshValid).map (edgeAt_injective side node label)
    · exact fun edge => (data edge).trans (or_congr_right (and_congr_right fun _ => (listed edge).symm))
    · exact fun edge =>
        (secondary edge).trans (or_congr_right (and_congr_right fun _ => (listed edge).symm))
  refine ⟨⟨new, adds, fun edge inside => ?_⟩, fun neighbour inside => ?_⟩
  · obtain ⟨neighbour, isFresh, rfl⟩ := (listed edge).mp inside
    exact ⟨neighbour, ((freshIff neighbour).mp isFresh).1, rfl⟩
  · rw [adds.stores, listed]
    by_cases known : state.Stores (edgeAt side node neighbour label)
    · exact .inl known
    · exact .inr ⟨neighbour, (freshIff neighbour).mpr ⟨inside, known⟩, rfl⟩

include valid in
/-- Edges that come into the first dataset. -/
private theorem AddsEdges.of_data {grown : Dataset} {fresh candidates : NodeSet}
    (added : Dataset.AddsAll state.data grown fresh (edgeAt side node · label) candidates)
    (freshIff : ∀ neighbour, fresh.contains neighbour ↔
      neighbours.contains neighbour ∧ ¬ state.Stores (edgeAt side node neighbour label)) :
    solver.AddsEdges false side node neighbours label state (fresh.toList.foldl
      (fun state neighbour => solver.enqueue state (edgeAt side node neighbour label))
      { state with data := grown }) := by
  refine foldl_enqueue_adds valid side node added.freshValid (by simp) rfl rfl rfl added.valid
    valid.secondary freshIff (fun edge => ?_) (by simp)
  rw [added.contains_iff]
  simp

include valid in
/-- Edges that come into the second dataset, which serves a solver that reduces. -/
private theorem AddsEdges.of_secondary {grown : Dataset} {fresh candidates : NodeSet}
    (reduces : solver.reduces)
    (added : Dataset.AddsAll state.secondary grown fresh (edgeAt side node · label) candidates)
    (freshIff : ∀ neighbour, fresh.contains neighbour ↔
      neighbours.contains neighbour ∧ ¬ state.Stores (edgeAt side node neighbour label)) :
    solver.AddsEdges true side node neighbours label state (fresh.toList.foldl
      (fun state neighbour => solver.enqueue state (edgeAt side node neighbour label))
      { state with secondary := grown }) := by
  refine foldl_enqueue_adds valid side node added.freshValid (fun _ => reduces) rfl rfl rfl valid.data
    added.valid freshIff (by simp) fun edge => ?_
  rw [added.contains_iff]
  simp

include valid in
/-- What neither dataset has at the node. -/
private theorem contains_unknown (neighbour : Node) :
    ((neighbours.difference (neighboursIn state.data side node label)).difference
        (neighboursIn state.secondary side node label)).contains neighbour ↔
      neighbours.contains neighbour ∧ ¬ state.Stores (edgeAt side node neighbour label) := by
  rw [NodeSet.contains_difference, NodeSet.contains_difference, contains_neighboursIn valid.data,
    contains_neighboursIn valid.secondary, and_assoc, SolveState.Stores, not_or]

include valid in
/-- Adding the edges to all neighbours stores them, and queues those that were new. -/
theorem insertAll_adds (neighboursValid : neighbours.Valid) (sound : ¬ label.isFault) (reduced : Bool) :
    let inserted := solver.insertAll state side node neighbours label reduced
    solver.AddsEdges (solver.reduces && reduced) side node neighbours label state
      (inserted.2.toList.foldl
        (fun state neighbour => solver.enqueue state (edgeAt side node neighbour label)) inserted.1) := by
  have clean : ∀ neighbour, ¬ (edgeAt side node neighbour label).label.isFault := fun neighbour => by
    rwa [label_edgeAt]
  by_cases double : solver.reduces
  · let unknown := (neighbours.difference (neighboursIn state.data side node label)).difference
      (neighboursIn state.secondary side node label)
    have unknownValid : unknown.Valid :=
      NodeSet.valid_difference (NodeSet.valid_difference neighboursValid _) _
    have unknownIff : ∀ neighbour, unknown.contains neighbour ↔
        neighbours.contains neighbour ∧ ¬ state.Stores (edgeAt side node neighbour label) :=
      contains_unknown valid side node
    cases reduced with
    | true =>
      have added := addNeighbours_addsAll valid.secondary side node unknownValid label
      have ran : solver.insertAll state side node neighbours label true =
          ({ state with secondary := (addNeighbours state.secondary side node unknown label).1 },
            (addNeighbours state.secondary side node unknown label).2) := by
        simp [insertAll, double, unknown]
      rw [ran, Bool.and_true, double]
      refine .of_secondary valid side node double added fun neighbour => ?_
      rw [added.fresh_iff, unknownIff]
      exact and_iff_left_of_imp fun inside => ⟨clean neighbour, fun held => inside.2 (.inr held)⟩
    | false =>
      have added := addNeighbours_addsAll valid.data side node unknownValid label
      have ran : solver.insertAll state side node neighbours label false =
          ({ state with data := (addNeighbours state.data side node unknown label).1 },
            (addNeighbours state.data side node unknown label).2) := by
        simp [insertAll, double, unknown]
      rw [ran, Bool.and_false]
      refine .of_data valid side node added fun neighbour => ?_
      rw [added.fresh_iff, unknownIff]
      exact and_iff_left_of_imp fun inside => ⟨clean neighbour, fun held => inside.2 (.inl held)⟩
  · have added := addNeighbours_addsAll valid.data side node neighboursValid label
    have ran : solver.insertAll state side node neighbours label reduced =
        ({ state with data := (addNeighbours state.data side node neighbours label).1 },
          (addNeighbours state.data side node neighbours label).2) := by
      simp [insertAll, double]
    rw [ran, Bool.not_eq_true _ |>.mp double, Bool.false_and]
    refine .of_data valid side node added fun neighbour => ?_
    rw [added.fresh_iff, valid.stores_iff double]
    exact and_congr_right fun _ => and_iff_right (clean neighbour)

end Neighbours

end Solver

end GrammarReach
