import GrammarReach.Proofs.Closure.CriticalGraph
import GrammarReach.Proofs.Closure.Visit
import GrammarReach.Proofs.Loop

/-!
Walks through the sparse graph of a critical graph.

A node is put on the stack when it is met for the first time, if at all, so the loop comes to an end.
What is never met lies behind a node whose visit did not ask to go on.
-/

namespace GrammarReach

open Relation (ReflTransGen)

namespace CriticalWalk

variable {σ : Type}

/-- A walk that has visited nothing and is to go on from its start. -/
def ofStart (start : Node) (state : σ) : CriticalWalk σ :=
  { seen := Std.TreeSet.ofList [start], stack := [start], state }

/-- A walk has visited some nodes behind the start, each once. What the start leads to, and what those
nodes lead to whose visits asked for it, has been visited too, except behind nodes that are on the
stack or that the walk is busy with. -/
structure WalkRun (neighbours : Node → List Node) (visit : σ → Node → σ × Bool) (start : Node)
    (begin : σ) (busy nodes : List Node) (walk : CriticalWalk σ) : Prop where
  visited : ∀ node ∈ nodes, node ≠ start ∧ ReflTransGen (fun u v => v ∈ neighbours u) start node
  distinct : nodes.Nodup
  seen : ∀ node, node ∈ walk.seen ↔ node = start ∨ node ∈ nodes
  stacked : ∀ node ∈ walk.stack, node = start ∨ node ∈ nodes
  state : walk.state = (replay visit begin nodes).1
  further : ∀ node, node = start ∨ (node, true) ∈ (replay visit begin nodes).2 →
    node ∈ busy ∨ node ∈ walk.stack ∨ ∀ next ∈ neighbours node, next = start ∨ next ∈ nodes

variable {neighbours : Node → List Node} {visit : σ → Node → σ × Bool} {start : Node} {begin : σ}
  {busy nodes : List Node} {walk next : CriticalWalk σ}

theorem walkRun_ofStart : WalkRun neighbours visit start begin [] [] (ofStart start begin) where
  visited := by simp
  distinct := List.nodup_nil
  seen node := by
    simp only [ofStart, Std.TreeSet.mem_ofList, List.contains_eq_mem, List.mem_singleton,
      decide_eq_true_eq, List.not_mem_nil, or_false]
  stacked node listed := .inl (List.mem_singleton.mp listed)
  state := rfl
  further node here := .inr (.inl (by simpa [replay, ofStart] using here))

/-- Whatever the walk has met lies behind the start. -/
theorem WalkRun.reached (run : WalkRun neighbours visit start begin busy nodes walk) {node : Node}
    (met : node = start ∨ node ∈ nodes) :
    ReflTransGen (fun u v => v ∈ neighbours u) start node := by
  rcases met with rfl | listed
  · exact .refl
  · exact (run.visited node listed).2

/-- A node that has been seen is passed over; another one is visited. -/
theorem meet_cases (visit : σ → Node → σ × Bool) (walk : CriticalWalk σ) (node : Node) :
    (node ∈ walk.seen ∧ walk.meet visit node = walk) ∨
      (node ∉ walk.seen ∧ walk.meet visit node =
        { seen := walk.seen.insert node
          stack := if (visit walk.state node).2 then node :: walk.stack else walk.stack
          state := (visit walk.state node).1 }) := by
  unfold CriticalWalk.meet
  split
  · next seen => exact .inl ⟨by simpa using seen, rfl⟩
  · next unseen => exact .inr ⟨by simpa using unseen, rfl⟩

private theorem mem_pushed (goesOn : Bool) (node : Node) (stack : List Node) (other : Node) :
    other ∈ (if goesOn then node :: stack else stack) ↔ other ∈ stack ∨ (goesOn ∧ other = node) := by
  split <;> simp_all [or_comm]

/-- One more visit is the next entry of the log. -/
private theorem WalkRun.replay_new (run : WalkRun neighbours visit start begin busy nodes walk) (node : Node) :
    replay visit begin (nodes ++ [node]) = ((visit walk.state node).1,
      (replay visit begin nodes).2 ++ [(node, (visit walk.state node).2)]) := by
  rw [replay_concat, recorded, run.state]

/-- A node that is met for the first time is visited, and put on the stack if its visit asks for it. -/
theorem WalkRun.meet_new (run : WalkRun neighbours visit start begin busy nodes walk) {node : Node}
    (reached : ReflTransGen (fun u v => v ∈ neighbours u) start node)
    (new : ¬ (node = start ∨ node ∈ nodes)) :
    WalkRun neighbours visit start begin busy (nodes ++ [node])
      { seen := walk.seen.insert node
        stack := if (visit walk.state node).2 then node :: walk.stack else walk.stack
        state := (visit walk.state node).1 } where
  visited other listed := by
    rcases List.mem_append.mp listed with early | here
    · exact run.visited other early
    · obtain rfl := List.mem_singleton.mp here
      exact ⟨fun same => new (.inl same), reached⟩
  distinct := by
    refine List.nodup_append.mpr ⟨run.distinct, List.nodup_singleton node, ?_⟩
    rintro other early _ here rfl
    exact new (.inr (List.mem_singleton.mp here ▸ early))
  seen other := by
    simp only [Std.TreeSet.mem_insert, Std.LawfulEqCmp.compare_eq_iff_eq, run.seen,
      List.mem_append, List.mem_singleton, eq_comm (a := node)]
    tauto
  stacked other listed := by
    rcases (mem_pushed _ node walk.stack other).mp listed with early | ⟨-, rfl⟩
    · exact (run.stacked other early).imp_right (List.mem_append_left _)
    · exact .inr (by simp)
  state := by rw [run.replay_new]
  further other asked := by
    rw [run.replay_new, List.mem_append, List.mem_singleton, ← or_assoc] at asked
    rw [mem_pushed]
    rcases asked with early | last
    · refine (run.further other early).imp_right (Or.imp .inl fun all next listed => ?_)
      exact (all next listed).imp_right (List.mem_append_left _)
    · obtain ⟨same, goesOn⟩ := Prod.mk.inj last
      exact .inr (.inl (.inr ⟨goesOn.symm, same⟩))

theorem WalkRun.meet (run : WalkRun neighbours visit start begin busy nodes walk) {node : Node}
    (reached : ReflTransGen (fun u v => v ∈ neighbours u) start node) :
    ∃ more, WalkRun neighbours visit start begin busy (nodes ++ more) (walk.meet visit node) ∧
      (node = start ∨ node ∈ nodes ++ more) := by
  rcases meet_cases visit walk node with ⟨seen, same⟩ | ⟨unseen, same⟩
  · rw [same]
    exact ⟨[], by simpa using run, by simpa using (run.seen node).mp seen⟩
  · rw [same]
    exact ⟨[node], run.meet_new reached (mt (run.seen node).mpr unseen), by simp⟩

theorem WalkRun.meetAll (list : List Node) :
    ∀ {nodes : List Node} {walk : CriticalWalk σ},
      WalkRun neighbours visit start begin busy nodes walk →
      (∀ node ∈ list, ReflTransGen (fun u v => v ∈ neighbours u) start node) →
      ∃ more, WalkRun neighbours visit start begin busy (nodes ++ more)
          (list.foldl (CriticalWalk.meet visit) walk) ∧
        ∀ node ∈ list, node = start ∨ node ∈ nodes ++ more := by
  induction list with
  | nil => exact fun run _ => ⟨[], by simpa using run, by simp⟩
  | cons node list ih =>
    intro nodes walk run reached
    obtain ⟨one, run, here⟩ := run.meet (reached node List.mem_cons_self)
    obtain ⟨more, run, there⟩ := ih run fun other listed =>
      reached other (List.mem_cons_of_mem _ listed)
    refine ⟨one ++ more, by simpa using run, fun other listed => ?_⟩
    rw [← List.append_assoc]
    rcases List.mem_cons.mp listed with rfl | listed
    · exact here.imp_right (List.mem_append_left _)
    · exact there other listed

/-- A walk is busy with the node that it takes from the stack. -/
private theorem WalkRun.popped (run : WalkRun neighbours visit start begin [] nodes walk) {node : Node}
    {stack : List Node} (stacked : walk.stack = node :: stack) :
    WalkRun neighbours visit start begin [node] nodes { walk with stack } :=
  { run with
    stacked := fun other listed => run.stacked other (stacked ▸ List.mem_cons_of_mem _ listed)
    further := fun other asked => by
      have further := run.further other asked
      rw [stacked] at further
      simpa [or_assoc] using further }

/-- A node that a walk was busy with is done when all neighbours of it have been met. -/
private theorem WalkRun.served {node : Node} (run : WalkRun neighbours visit start begin [node] nodes walk)
    (all : ∀ other ∈ neighbours node, other = start ∨ other ∈ nodes) :
    WalkRun neighbours visit start begin [] nodes walk :=
  { run with
    further := fun other asked => by
      refine .inr ?_
      rcases run.further other asked with here | settled
      · exact .inr (List.mem_singleton.mp here ▸ all)
      · exact settled }

/-- A step is busy with the node on top of the stack until all neighbours of it have been met. -/
theorem WalkRun.step (run : WalkRun neighbours visit start begin [] nodes walk)
    (stepped : walk.step neighbours visit = some next) :
    ∃ more, WalkRun neighbours visit start begin [] (nodes ++ more) next := by
  unfold CriticalWalk.step at stepped
  cases stacked : walk.stack with
  | nil => simp [stacked] at stepped
  | cons node stack =>
    simp only [stacked, Option.some.injEq] at stepped
    subst stepped
    have onTop := run.stacked node (stacked ▸ List.mem_cons_self)
    obtain ⟨more, met, all⟩ := (run.popped stacked).meetAll (neighbours node) fun other listed =>
      (run.reached onTop).tail listed
    exact ⟨more, met.served all⟩

theorem step_eq_none_iff : walk.step neighbours visit = none ↔ walk.stack = [] := by
  unfold step
  split
  · next stacked => simp [stacked]
  · next stacked => simp [stacked]

/-- With nothing left to do, whatever the start and the nodes lead to whose visits asked for it has been
met. -/
theorem WalkRun.met_of_asked (run : WalkRun neighbours visit start begin [] nodes walk)
    (nothing : walk.stack = []) {node next : Node}
    (asked : node = start ∨ (node, true) ∈ (replay visit begin nodes).2)
    (link : next ∈ neighbours node) : next = start ∨ next ∈ nodes := by
  have further := run.further node asked
  simp only [nothing, List.not_mem_nil, false_or] at further
  exact further next link

/-- With nothing left to do, what has not been visited lies behind refused nodes. -/
theorem WalkRun.prunes (run : WalkRun neighbours visit start begin [] nodes walk)
    (nothing : walk.stack = []) :
    Prunes (ReflTransGen fun u v => v ∈ neighbours u) start (replay visit begin nodes).2 where
  distinct := by
    rw [map_fst_replay]
    exact run.distinct
  sound := by
    rw [map_fst_replay]
    exact run.visited
  covers node apart path := by
    -- Along the path: whatever the start or a covered node leads to is the start or covered.
    refine Or.resolve_left ?_ apart
    induction path with
    | refl => exact .inl rfl
    | @tail node next _ link ih =>
      refine or_iff_not_imp_left.mpr fun other => ?_
      have met : node = start ∨ (node, true) ∈ (replay visit begin nodes).2 →
          next ∈ (replay visit begin nodes).2.map Prod.fst := fun asked => by
        rw [map_fst_replay]
        exact (run.met_of_asked nothing asked link).resolve_left other
      by_cases same : node = start
      · exact .inl (met (.inl same))
      · exact ((ih same).resolve_left same).next link fun asked => met (.inr asked)

/-- The nodes on the stack and those that have not been met. -/
def waiting (known : List Node) (walk : CriticalWalk σ) : Nat :=
  walk.stack.length + (known.filter fun node => !walk.seen.contains node).length

private theorem length_unseen_insert {known : List Node} {node : Node} (listed : node ∈ known)
    {seen : Std.TreeSet Node} (unseen : node ∉ seen) :
    (known.filter fun other => !(seen.insert node).contains other).length <
      (known.filter fun other => !seen.contains other).length := by
  have narrows : (known.filter fun other => !(seen.insert node).contains other) =
      (known.filter fun other => !seen.contains other).filter (· != node) := by
    rw [List.filter_filter]
    refine List.filter_congr fun other _ => ?_
    by_cases same : other = node
    · simp [same]
    · have apart : (compare node other == .eq) = false := beq_eq_false_iff_ne.mpr fun here =>
        same (Std.LawfulEqCmp.compare_eq_iff_eq.mp here).symm
      rw [Std.TreeSet.contains_insert, apart, bne_iff_ne.mpr same, Bool.false_or, Bool.true_and]
  have absent : seen.contains node = false := by
    rwa [← Bool.not_eq_true, Std.TreeSet.contains_iff_mem]
  rw [narrows, List.length_filter_lt_length_iff_exists]
  exact ⟨node, List.mem_filter.mpr ⟨listed, by rw [absent]; rfl⟩, by simp⟩

theorem waiting_meet {known : List Node} {node : Node} (listed : node ∈ known)
    (walk : CriticalWalk σ) : (walk.meet visit node).waiting known ≤ walk.waiting known := by
  rcases meet_cases visit walk node with ⟨-, same⟩ | ⟨unseen, same⟩
  · rw [same]
  · -- The node has been met now, so that it may be on the stack instead.
    have fewer := length_unseen_insert listed unseen
    rw [same]
    unfold waiting
    dsimp only
    split
    · rw [List.length_cons]
      omega
    · omega

private theorem waiting_meetAll {known : List Node} (list : List Node) :
    ∀ walk : CriticalWalk σ, (∀ other ∈ list, other ∈ known) →
      (list.foldl (meet visit) walk).waiting known ≤ walk.waiting known := by
  induction list with
  | nil => exact fun walk _ => Nat.le_refl _
  | cons other list ih =>
    intro walk inside
    exact Nat.le_trans (ih _ fun other listed => inside other (List.mem_cons_of_mem _ listed))
      (waiting_meet (inside other List.mem_cons_self) walk)

theorem waiting_step {known : List Node}
    (closed : ∀ node, ∀ other ∈ neighbours node, other ∈ known)
    (stepped : walk.step neighbours visit = some next) :
    next.waiting known < walk.waiting known := by
  unfold step at stepped
  cases stacked : walk.stack with
  | nil => simp [stacked] at stepped
  | cons node stack =>
    simp only [stacked, Option.some.injEq] at stepped
    subst stepped
    refine Nat.lt_of_le_of_lt (waiting_meetAll (neighbours node) { walk with stack } (closed node)) ?_
    simp [waiting, stacked]

end CriticalWalk

namespace CriticalGraph

variable {graph : CriticalGraph} {σ : Type} {visit : σ → Node → σ × Bool}

/-- A walk comes to an end within its bound. -/
theorem walkAlong_ends {neighbours : Node → List Node}
    (closed : ∀ node, ∀ other ∈ neighbours node, other ∈ graph.nodes) (start : Node)
    (visit : σ → Node → σ × Bool) (state : σ) :
    ∃ walk, Loop.Ends (CriticalWalk.step neighbours visit) (CriticalWalk.ofStart start state) walk ∧
      walk.state = graph.walkAlong neighbours start visit state := by
  refine ⟨_, ⟨Loop.leads_run _ (graph.nodes.size + 2) _, ?_⟩, rfl⟩
  refine Loop.step_run_eq_none (motive := fun _ => True)
    (CriticalWalk.waiting graph.nodes.keys)
    (fun walk next _ stepped => ⟨trivial, CriticalWalk.waiting_step (fun node other listed =>
      Std.TreeMap.mem_keys.mpr (closed node other listed)) stepped⟩) _ _ trivial ?_
  have unmet := List.length_filter_le (fun node =>
    !(CriticalWalk.ofStart start state).seen.contains node) graph.nodes.keys
  rw [Std.TreeMap.length_keys] at unmet
  simp only [CriticalWalk.waiting, CriticalWalk.ofStart, List.length_singleton] at unmet ⊢
  omega

/-- What is seen of the state of a walk is the state of the walk that is seen. -/
theorem walkAlong_view {τ : Type} {view : τ → σ} {visit' : τ → Node → τ × Bool}
    (follows : Follows view visit visit') (graph : CriticalGraph) (neighbours : Node → List Node)
    (start : Node) (state : τ) :
    graph.walkAlong neighbours start visit (view state) =
      view (graph.walkAlong neighbours start visit' state) := by
  let seen (walk : CriticalWalk τ) : CriticalWalk σ := ⟨walk.seen, walk.stack, view walk.state⟩
  have meets : ∀ (walk : CriticalWalk τ) (node : Node),
      (seen walk).meet visit node = seen (walk.meet visit' node) := by
    intro walk node
    unfold CriticalWalk.meet
    split <;> simp_all [seen, follows walk.state node]
  have steps : ∀ walk, (seen walk).step neighbours visit = (walk.step neighbours visit').map seen := by
    intro walk
    obtain ⟨met, stack, state⟩ := walk
    cases stack with
    | nil => rfl
    | cons node stack =>
      exact congrArg some (List.foldl_hom seen meets :
        (neighbours node).foldl (CriticalWalk.meet visit) (seen ⟨met, stack, state⟩) = _)
  unfold walkAlong
  exact congrArg CriticalWalk.state
    (Loop.run_map seen steps (graph.nodes.size + 2) (CriticalWalk.ofStart start state))

/-- A walk visits the neighbours of its start, and leaves out only what lies behind refused nodes. -/
theorem walkAlong_visits {neighbours : Node → List Node}
    (closed : ∀ node, ∀ other ∈ neighbours node, other ∈ graph.nodes) (start : Node)
    (visit : σ → Node → σ × Bool) (state : σ) :
    ∃ nodes, graph.walkAlong neighbours start visit state = (replay visit state nodes).1 ∧
      Prunes (ReflTransGen fun u v => v ∈ neighbours u) start (replay visit state nodes).2 ∧
      ∀ node ∈ neighbours start, node ≠ start → node ∈ nodes := by
  obtain ⟨walk, ⟨leads, halted⟩, result⟩ := walkAlong_ends closed start visit state
  obtain ⟨nodes, run⟩ := leads.keeps
    (motive := fun walk => ∃ nodes,
      CriticalWalk.WalkRun neighbours visit start state [] nodes walk)
    (fun walk next ⟨nodes, run⟩ stepped => by
      obtain ⟨more, run⟩ := run.step stepped
      exact ⟨nodes ++ more, run⟩)
    ⟨[], CriticalWalk.walkRun_ofStart⟩
  have nothing : walk.stack = [] := CriticalWalk.step_eq_none_iff.mp halted
  exact ⟨nodes, result.symm.trans run.state, run.prunes nothing, fun node listed apart =>
    (run.met_of_asked nothing (.inl rfl) listed).resolve_left apart⟩

theorem Mirrored.successors_known (mirrored : graph.Mirrored) (node : Node) :
    ∀ other ∈ graph.successors node, other ∈ graph.nodes := by
  intro other listed
  by_contra unknown
  have before := (mem_predecessors graph node other).mp ((mirrored node other).mpr listed)
  rw [Std.TreeMap.getD_eq_fallback unknown] at before
  exact absurd before Std.TreeSet.not_mem_emptyc

theorem Mirrored.predecessors_known (mirrored : graph.Mirrored) (node : Node) :
    ∀ other ∈ graph.predecessors node, other ∈ graph.nodes := by
  intro other listed
  by_contra unknown
  have behind := (linked_iff graph other node).mp ((mirrored other node).mp listed)
  rw [Std.TreeMap.getD_eq_fallback unknown] at behind
  exact absurd behind Std.TreeMap.not_mem_emptyc

theorem walkDown_visits (valid : graph.Valid) (start : Node) (visit : σ → Node → σ × Bool)
    (state : σ) :
    ∃ nodes, graph.walkDown start visit state = (replay visit state nodes).1 ∧
      Prunes (ReflTransGen graph.Linked) start (replay visit state nodes).2 ∧
      ∀ node, graph.Linked start node → node ≠ start → node ∈ nodes :=
  walkAlong_visits valid.mirrored.successors_known start visit state

theorem walkUp_visits (valid : graph.Valid) (start : Node) (visit : σ → Node → σ × Bool)
    (state : σ) :
    ∃ nodes, graph.walkUp start visit state = (replay visit state nodes).1 ∧
      Prunes (ReflTransGen (Function.swap graph.Linked)) start (replay visit state nodes).2 ∧
      ∀ node, graph.Linked node start → node ≠ start → node ∈ nodes := by
  have swapped : (fun u v => v ∈ graph.predecessors u) = Function.swap graph.Linked := by
    funext u v
    exact propext (valid.mirrored v u)
  obtain ⟨nodes, result, prunes, all⟩ :=
    walkAlong_visits valid.mirrored.predecessors_known start visit state
  exact ⟨nodes, result, swapped ▸ prunes, fun node link => all node ((valid.mirrored _ _).mpr link)⟩

end CriticalGraph

end GrammarReach
