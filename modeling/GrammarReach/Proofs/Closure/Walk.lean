import GrammarReach.Proofs.Closure.Sequence

/-!
Walks through a closure that has taken in some edges.

Whatever a visit does and answers, the walk comes to an end, visits other nodes than the start that
are connected with it, each once, and leaves out only what lies behind nodes whose visits did not ask
to go on.
-/

namespace GrammarReach

open Relation (ReflTransGen)

namespace Closure

variable {σ τ : Type} {visit : σ → Node → σ × Bool}

/-- The loop of a walk down comes to an end, with the given state. -/
def EndsDown (closure : Closure) (start : Node) (visit : σ → Node → σ × Bool) (state final : σ) :
    Prop :=
  match closure with
  | dual forest => Loop.Ends (TreeWalk.step forest.descendants visit)
      ⟨forest.descendants.firstSlots start, state⟩ ⟨[], final⟩
  | graft forest => Loop.Ends (TreeWalk.step forest.trees visit)
      ⟨forest.trees.firstSlots start, state⟩ ⟨[], final⟩
  | critical graph => ∃ walk, Loop.Ends (CriticalWalk.step graph.successors visit)
      (CriticalWalk.ofStart start state) walk ∧ walk.state = final

/-- The loop of a walk up comes to an end, with the given state. Without ancestor trees, it is one over
a list. -/
def EndsUp (closure : Closure) (start : Node) (visit : σ → Node → σ × Bool) (state final : σ) :
    Prop :=
  match closure with
  | dual forest => Loop.Ends (TreeWalk.step forest.ancestors visit)
      ⟨forest.ancestors.firstSlots start, state⟩ ⟨[], final⟩
  | graft forest =>
    (forest.trees.holders start).foldl (fun state node => (visit state node).1) state = final
  | critical graph => ∃ walk, Loop.Ends (CriticalWalk.step graph.predecessors visit)
      (CriticalWalk.ofStart start state) walk ∧ walk.state = final

variable {closure : Closure}

theorem walkDown_ends (valid : closure.Valid) (start : Node) (visit : σ → Node → σ × Bool)
    (state : σ) : closure.EndsDown start visit state (closure.walkDown start visit state) := by
  cases closure with
  | dual forest => exact Arena.walk_ends valid.descendants start visit state
  | graft forest => exact Arena.walk_ends valid.trees start visit state
  | critical graph =>
    exact CriticalGraph.walkAlong_ends valid.mirrored.successors_known start visit state

theorem walkUp_ends (valid : closure.Valid) (start : Node) (visit : σ → Node → σ × Bool)
    (state : σ) : closure.EndsUp start visit state (closure.walkUp start visit state) := by
  cases closure with
  | dual forest => exact Arena.walk_ends valid.ancestors start visit state
  | graft forest => rfl
  | critical graph =>
    exact CriticalGraph.walkAlong_ends valid.mirrored.predecessors_known start visit state

theorem walkDown_view {view : τ → σ} {visit' : τ → Node → τ × Bool}
    (follows : Follows view visit visit') (closure : Closure) (start : Node) (state : τ) :
    closure.walkDown start visit (view state) = view (closure.walkDown start visit' state) := by
  cases closure with
  | dual forest => exact Arena.walk_view follows forest.descendants start state
  | graft forest => exact Arena.walk_view follows forest.trees start state
  | critical graph => exact CriticalGraph.walkAlong_view follows graph graph.successors start state

theorem walkUp_view {view : τ → σ} {visit' : τ → Node → τ × Bool}
    (follows : Follows view visit visit') (closure : Closure) (start : Node) (state : τ) :
    closure.walkUp start visit (view state) = view (closure.walkUp start visit' state) := by
  cases closure with
  | dual forest => exact Arena.walk_view follows forest.ancestors start state
  | graft forest => exact List.foldl_hom view fun state node => by rw [follows state node]
  | critical graph => exact CriticalGraph.walkAlong_view follows graph graph.predecessors start state

theorem walkDown_prunes (valid : closure.Valid) (sole : closure.Sole) (start : Node)
    (visit : σ → Node → σ × Bool) (state : σ) :
    ∃ nodes, closure.walkDown start visit state = (replay visit state nodes).1 ∧
      Prunes closure.Reaches start (replay visit state nodes).2 := by
  cases closure with
  | dual forest =>
    exact Arena.walk_prunes valid.descendants sole.2 valid.spreadDown (valid.exact start) visit state
  | graft forest => exact Arena.walk_prunes valid.trees sole valid.spread (valid.exact start) visit state
  | critical graph =>
    obtain ⟨nodes, result, prunes, -⟩ := CriticalGraph.walkDown_visits valid start visit state
    exact ⟨nodes, result, prunes⟩

theorem walkUp_prunes (valid : closure.Valid) (sole : closure.Sole) (start : Node)
    (visit : σ → Node → σ × Bool) (state : σ) :
    ∃ nodes, closure.walkUp start visit state = (replay visit state nodes).1 ∧
      Prunes (ReflTransGen (Function.swap closure.Linked)) start (replay visit state nodes).2 := by
  have swap : ∀ u v, ReflTransGen (Function.swap closure.Linked) v u ↔ closure.Reaches u v :=
    fun u v => Relation.reflTransGen_swap
  cases closure with
  | dual forest =>
    refine Arena.walk_prunes valid.ancestors sole.1 valid.spreadUp (fun node => ?_) visit state
    exact (valid.mirrored node start).trans ((valid.exact node start).trans (swap node start).symm)
  | graft forest =>
    -- Every root whose tree has the start is visited, whatever the visits answer.
    have holders : ∀ node, node ∈ forest.trees.holders start ↔
        node ≠ start ∧ ReflTransGen (Function.swap forest.Linked) start node := fun node => by
      rw [Arena.mem_holders, and_congr_right_iff]
      refine fun apart => Iff.trans ?_ (swap node start).symm
      rw [Reaches, Linked, ← valid.exact, Arena.holds_iff, or_iff_right apart]
    have members := map_fst_replay visit state (forest.trees.holders start)
    refine ⟨forest.trees.holders start, (replay_fst _ _ _).symm, ?_⟩
    exact
      { distinct := by
          rw [members]
          exact Std.TreeMap.nodup_keys.filter _
        sound := fun node listed => by
          rw [members] at listed
          exact (holders node).mp listed
        covers := fun node apart path => by
          refine .inl ?_
          rw [members]
          exact (holders node).mpr ⟨apart, path⟩ }
  | critical graph =>
    obtain ⟨nodes, result, prunes, -⟩ := CriticalGraph.walkUp_visits valid start visit state
    exact ⟨nodes, result, prunes⟩

theorem sole_insertAll (sole : closure.Sole) (edges : List (Node × Node)) :
    (closure.insertAll edges).Sole :=
  List.foldlRecOn (motive := Sole) edges _ sole fun _ sole edge _ => sole.insert edge.1 edge.2

end Closure

/-- What walks in one direction owe, whatever a visit does and answers: the loop comes to an end; with
its visits noted, a walk does the same, and leaves out only what lies behind refused nodes. -/
structure PrunedWalk (reaches : Node → Node → Prop)
    (ends : ∀ {σ : Type}, Node → (σ → Node → σ × Bool) → σ → σ → Prop)
    (walk : ∀ {σ : Type}, Node → (σ → Node → σ × Bool) → σ → σ) : Prop where
  ends : ∀ {σ : Type} (start : Node) (visit : σ → Node → σ × Bool) (state : σ),
    ends start visit state (walk start visit state)
  noted : ∀ {σ : Type} (start : Node) (visit : σ → Node → σ × Bool) (state : σ),
    (walk start (recorded visit) (state, [])).1 = walk start visit state
  prunes : ∀ {σ : Type} (start : Node) (visit : σ → Node → σ × Bool) (state : σ),
    Prunes reaches start (walk start (recorded visit) (state, [])).2
  whole : ∀ {σ : Type} (start : Node) (visit : σ → Node → σ × Bool) (state : σ),
    (∀ state node, (visit state node).2) →
    ∀ node, node ∈ (walk start (recorded visit) (state, [])).2.map Prod.fst ↔
      node ≠ start ∧ reaches start node

/-- A walk that makes visits one after the other notes just these. -/
theorem prunedWalk_of_replay {reaches : Node → Node → Prop}
    {ends : ∀ {σ : Type}, Node → (σ → Node → σ × Bool) → σ → σ → Prop}
    {walk : ∀ {σ : Type}, Node → (σ → Node → σ × Bool) → σ → σ}
    (comesToEnd : ∀ {σ : Type} (start : Node) (visit : σ → Node → σ × Bool) (state : σ),
      ends start visit state (walk start visit state))
    (seen : ∀ {σ : Type} (start : Node) (visit : σ → Node → σ × Bool) (state : σ),
      walk start visit state = (walk start (recorded visit) (state, [])).1)
    (prunes : ∀ {σ : Type} (start : Node) (visit : σ → Node → σ × Bool) (state : σ),
      ∃ nodes, walk start visit state = (replay visit state nodes).1 ∧
        Prunes reaches start (replay visit state nodes).2) :
    PrunedWalk reaches ends walk := by
  have log : ∀ {σ : Type} (start : Node) (visit : σ → Node → σ × Bool) (state : σ),
      ∃ nodes, (walk start (recorded visit) (state, [])).2 = (replay visit state nodes).2 ∧
        Prunes reaches start (replay visit state nodes).2 := by
    intro σ start visit state
    obtain ⟨nodes, result, prunes⟩ := prunes start (recorded visit) (state, [])
    rw [replay_recorded] at result prunes
    exact ⟨nodes, congrArg Prod.snd result, prunes⟩
  refine ⟨comesToEnd, fun start visit state => (seen start visit state).symm,
    fun start visit state => ?_, fun start visit state goesOn node => ?_⟩
  · obtain ⟨nodes, same, prunes⟩ := log start visit state
    rwa [same]
  · obtain ⟨nodes, same, prunes⟩ := log start visit state
    rw [same]
    exact prunes.all (answers_replay goesOn state nodes) node

namespace Closure

/-- Down and up, walks do what they owe with regard to the edges taken in. -/
def WalksPrune (closure : Closure) (edges : List (Node × Node)) : Prop :=
  PrunedWalk (Connects edges) closure.EndsDown closure.walkDown ∧
    PrunedWalk (Function.swap (Connects edges)) closure.EndsUp closure.walkUp

theorem walksPrune_insertAll {variant : Variant} {closure : Closure}
    (made : ofVariant? variant = some closure) (edges : List (Node × Node)) :
    (closure.insertAll edges).WalksPrune edges := by
  have tracks := tracks_insertAll made edges
  have sole := sole_insertAll (sole_of_ofVariant? made) edges
  have down : (closure.insertAll edges).Reaches = Connects edges := by
    funext u v
    exact propext (tracks.reaches u v)
  have up : ReflTransGen (Function.swap (closure.insertAll edges).Linked) =
      Function.swap (Connects edges) := by
    rw [← down]
    funext u v
    exact propext Relation.reflTransGen_swap
  constructor
  · refine prunedWalk_of_replay (walkDown_ends tracks.valid)
      (fun start visit state => walkDown_view (follows_recorded visit) _ start (state, [])) ?_
    rw [← down]
    exact walkDown_prunes tracks.valid sole
  · refine prunedWalk_of_replay (walkUp_ends tracks.valid)
      (fun start visit state => walkUp_view (follows_recorded visit) _ start (state, [])) ?_
    rw [← up]
    exact walkUp_prunes tracks.valid sole

/-- After any sequence of edges, the walks of every closure prune no more than they are asked to. -/
theorem walks_prune (edges : List (Node × Node)) :
    ((dual .empty).insertAll edges).WalksPrune edges ∧
      ((graft .empty).insertAll edges).WalksPrune edges ∧
      ((critical .empty).insertAll edges).WalksPrune edges :=
  ⟨walksPrune_insertAll (show ofVariant? .pocr = some _ from rfl) edges,
    walksPrune_insertAll (show ofVariant? .hierarchicalPocr = some _ from rfl) edges,
    walksPrune_insertAll (show ofVariant? .focr = some _ from rfl) edges⟩

end Closure

end GrammarReach
