import GrammarReach.Proofs.Closure.Compaction

/-!
The closure of a critical graph is exact: the table tells what the sparse graph connects.

Taking in an edge visits the nodes that reach its start, and gives each of them what the end of the
edge reaches. The edges that go missing on the way run from such a node to something that the end
reaches, or beside a cycle that stays whole, so the new edge makes up for them.
-/

namespace GrammarReach

open Relation (ReflTransGen)

/-- Entries that leave a set make it smaller by their number. -/
private theorem card_add_length_le {before after : Finset (Node × Node)} {gone : List (Node × Node)}
    (distinct : gone.Nodup) (shrinks : ∀ link ∈ after, link ∈ before)
    (leaves : ∀ link ∈ gone, link ∈ before ∧ link ∉ after) :
    after.card + gone.length ≤ before.card := by
  have apart : Disjoint after gone.toFinset := by
    refine Finset.disjoint_left.mpr fun link inside listed => ?_
    exact (leaves link (List.mem_toFinset.mp listed)).2 inside
  rw [← List.toFinset_card_of_nodup distinct, ← Finset.card_union_of_disjoint apart]
  refine Finset.card_le_card fun link member => ?_
  rcases Finset.mem_union.mp member with inside | listed
  · exact shrinks link inside
  · exact (leaves link (List.mem_toFinset.mp listed)).1

namespace CriticalGraph

/-! ### Dropping edges -/

/-- What may have gone missing from a graph that is about to take in an edge from `src` to `dst`:
edges from what reaches its start to what its end reaches, and only where that does not close a
cycle. -/
structure Thins (src dst : Node) (start graph : CriticalGraph) : Prop where
  mirrored : graph.Mirrored
  kept : ∀ u v, graph.Linked u v → start.Linked u v
  dropped : ∀ u v, start.Linked u v → graph.Linked u v ∨
    (¬ start.knows dst src ∧ start.knows u src ∧ start.knows dst v)

theorem Thins.congr {src dst : Node} {start graph other : CriticalGraph}
    (thins : Thins src dst start graph) (same : other.nodes = graph.nodes) :
    Thins src dst start other :=
  ⟨thins.mirrored.congr same, fun u v link => thins.kept u v ((linked_congr same u v).mp link),
    fun u v link => (thins.dropped u v link).imp_left (linked_congr same u v).mpr⟩

/-- Nothing is missing behind the end of the edge. -/
theorem Thins.ahead {src dst : Node} {start graph : CriticalGraph} (exact : Exact start)
    (thins : Thins src dst start graph) (v : Node) :
    ReflTransGen graph.Linked dst v ↔ start.knows dst v := by
  rw [exact]
  constructor
  · exact fun path => ReflTransGen.mono (fun _ _ link => thins.kept _ _ link) _ _ path
  · intro path
    induction path with
    | refl => exact .refl
    | tail before link ih =>
      rcases thins.dropped _ _ link with there | ⟨apart, reaches, -⟩
      · exact ih.tail there
      · exact absurd ((exact _ _).mpr (before.trans ((exact _ _).mp reaches))) apart

/-- Nothing is missing before the start of the edge. -/
theorem Thins.behind {src dst : Node} {start graph : CriticalGraph} (exact : Exact start)
    (thins : Thins src dst start graph) (u : Node) :
    ReflTransGen graph.Linked u src ↔ start.knows u src := by
  rw [exact]
  constructor
  · exact fun path => ReflTransGen.mono (fun _ _ link => thins.kept _ _ link) _ _ path
  · intro path
    induction path using ReflTransGen.head_induction_on with
    | refl => exact .refl
    | head link rest ih =>
      rcases thins.dropped _ _ link with there | ⟨apart, -, reached⟩
      · exact .head there ih
      · exact absurd ((exact _ _).mpr (((exact _ _).mp reached).trans rest)) apart

end CriticalGraph

namespace CriticalSearch

open CriticalGraph (Thins)

/-! ### Entering pairs -/

/-- A search has entered new pairs into the table, and noted them. -/
structure Marks (before after : CriticalSearch) (new : List (Node × Node)) : Prop where
  tabled : after.graph.Tabled
  found : after.found = new ++ before.found
  distinct : new.Nodup
  fresh : ∀ u v, (u, v) ∈ new → ¬ before.graph.knows u v
  knows : ∀ u v, after.graph.knows u v ↔ before.graph.knows u v ∨ (u, v) ∈ new

theorem Marks.nothing {before after : CriticalSearch} (tabled : before.graph.Tabled)
    (same : after.graph.reachable = before.graph.reachable) (found : after.found = before.found) :
    Marks before after [] where
  tabled := tabled.congr same
  found := found
  distinct := List.nodup_nil
  fresh := by simp
  knows u v := by simp [CriticalGraph.knows_congr same]

theorem Marks.trans {first second third : CriticalSearch} {early late : List (Node × Node)}
    (before : Marks first second early) (behind : Marks second third late) :
    Marks first third (late ++ early) where
  tabled := behind.tabled
  found := by rw [behind.found, before.found, List.append_assoc]
  distinct := by
    refine List.nodup_append.mpr ⟨behind.distinct, before.distinct, ?_⟩
    rintro ⟨u, v⟩ inLate _ inEarly rfl
    exact behind.fresh u v inLate ((before.knows u v).mpr (.inr inEarly))
  fresh u v listed known := by
    rcases List.mem_append.mp listed with inLate | inEarly
    · exact behind.fresh u v inLate ((before.knows u v).mpr (.inl known))
    · exact before.fresh u v inEarly known
  knows u v := by
    rw [behind.knows, before.knows, List.mem_append]
    tauto

/-- What a search does to a table does not depend on its counters and its stack. -/
theorem Marks.congr {before after other : CriticalSearch} {new : List (Node × Node)}
    (marks : Marks before after new) (same : other.graph.reachable = after.graph.reachable)
    (found : other.found = after.found) : Marks before other new :=
  marks.trans (.nothing marks.tabled same found)

theorem Marks.congr_left {before after other : CriticalSearch} {new : List (Node × Node)}
    (marks : Marks other after new) (same : other.graph.reachable = before.graph.reachable)
    (found : other.found = before.found) : Marks before after new where
  tabled := marks.tabled
  found := found ▸ marks.found
  distinct := marks.distinct
  fresh u v listed := CriticalGraph.knows_congr same u v ▸ marks.fresh u v listed
  knows u v := CriticalGraph.knows_congr same u v ▸ marks.knows u v

theorem mark_marks {search : CriticalSearch} (tabled : search.graph.Tabled) {src dst : Node}
    (unknown : ¬ search.graph.knows src dst) :
    Marks search (search.mark src dst) [(src, dst)] ∧
      (search.mark src dst).graph.nodes = search.graph.nodes ∧
      (search.mark src dst).stack = search.stack := by
  have fresh : ((search.graph.reachable.getD src .empty).insert dst).2 := by
    rw [CriticalGraph.knows_iff, not_or] at unknown
    simpa [NodeSet.insert_flag] using unknown.2
  have ran : search.mark src dst =
      { search with
        graph :=
          { search.graph with
            reachable := search.graph.reachable.insert src
              ((search.graph.reachable.getD src .empty).insert dst).1
            pairs := search.graph.pairs + 1 }
        found := (src, dst) :: search.found } := by
    simp [mark, fresh]
  rw [ran]
  obtain ⟨tabled', knows⟩ := CriticalGraph.knows_insertRow tabled src dst
    { search.graph with
      reachable := search.graph.reachable.insert src
        ((search.graph.reachable.getD src .empty).insert dst).1
      pairs := search.graph.pairs + 1 } rfl
  refine ⟨⟨tabled', rfl, List.nodup_singleton _, ?_, fun u v => ?_⟩, rfl, rfl⟩
  · intro u v listed
    obtain ⟨rfl, rfl⟩ := Prod.mk.inj (List.mem_singleton.mp listed)
    exact unknown
  · rw [knows, List.mem_singleton, Prod.mk.injEq]

theorem pushUnknown_spec (search : CriticalSearch) (question : Node → Node × Node)
    (nodes : List Node) :
    let pushed := search.pushUnknown question nodes
    pushed.graph.nodes = search.graph.nodes ∧ pushed.graph.reachable = search.graph.reachable ∧
      pushed.found = search.found ∧ pushed.stack.length ≤ nodes.length + search.stack.length ∧
      ∀ node, node ∈ pushed.stack ↔
        (node ∈ nodes ∧ ¬ search.graph.knows (question node).1 (question node).2) ∨
          node ∈ search.stack := by
  refine ⟨rfl, rfl, rfl, ?_, fun node => ?_⟩
  · simp only [pushUnknown, List.length_append, List.length_reverse]
    exact Nat.add_le_add_right (List.length_filter_le _ _) _
  · simp only [pushUnknown, CriticalGraph.filterReaching, List.mem_append, List.mem_reverse,
      List.mem_filter, List.contains_eq_mem, Bool.not_eq_true', decide_eq_false_iff_not, not_and]
    refine or_congr_left (and_congr_right fun listed => ?_)
    exact ⟨fun unlisted => unlisted listed, fun unknown _ => unknown⟩

/-- What was known or waited still is or does, once the next node has been visited. -/
private theorem visited_or_waits (known grown : Node → Prop) {node other : Node}
    {stack rest : List Node} (before : known other ∨ other ∈ node :: stack)
    (keeps : ∀ other, known other → grown other) (visited : grown node)
    (waits : ∀ other ∈ stack, other ∈ rest) : grown other ∨ other ∈ rest := by
  rcases before with there | listed
  · exact .inl (keeps other there)
  · rcases List.mem_cons.mp listed with rfl | listed
    · exact .inl visited
    · exact .inr (waits other listed)

/-- A search has taken the next node off its stack and asked the table about it, nothing more. -/
structure Skips (stack : List Node) (search next : CriticalSearch) : Prop where
  nodes : next.graph.nodes = search.graph.nodes
  table : next.graph.reachable = search.graph.reachable
  found : next.found = search.found
  stack : next.stack = stack

private def ask (search : CriticalSearch) (src dst : Node) (stack : List Node) : CriticalSearch :=
  { search with graph := (search.graph.reaches src dst).1, stack }

private theorem ask_skips (search : CriticalSearch) (src dst : Node) (stack : List Node) :
    Skips stack search (search.ask src dst stack) := ⟨rfl, rfl, rfl, rfl⟩

/-! ### Forwards -/

/-- Where a search for everything that `target` reaches stands: it enters pairs of `origin` only, and
whatever a node that `origin` is known to reach leads to is known too or waits on the stack. -/
structure ForwardRun (origin target : Node) (start search : CriticalSearch)
    (new : List (Node × Node)) : Prop where
  nodes : search.graph.nodes = start.graph.nodes
  marks : Marks start search new
  sound : ∀ u v, (u, v) ∈ new → u = origin ∧ ReflTransGen start.graph.Linked target v
  stacked : ∀ node ∈ search.stack, ReflTransGen start.graph.Linked target node
  closed : ∀ v w, search.graph.knows origin v → start.graph.Linked v w →
    search.graph.knows origin w ∨ w ∈ search.stack
  arrived : search.graph.knows origin target ∨ target ∈ search.stack

/-- The edges that leave nodes which `origin` is not known to reach. -/
private def aheadOf (origin : Node) (start search : CriticalSearch) : Finset (Node × Node) :=
  start.graph.links.filter fun link => ¬ search.graph.knows origin link.1

private theorem forwardStep_eq {origin node : Node} {stack : List Node} {search : CriticalSearch}
    (stacked : search.stack = node :: stack) :
    forwardStep origin search = some (
      let asked := search.ask origin node stack
      if search.graph.knows origin node then asked
      else
        let marked := asked.mark origin node
        marked.pushUnknown (fun next => (origin, next)) (marked.graph.successors node)) := by
  rw [forwardStep, stacked]
  rfl

/-- What the visit of a node does that `origin` is not known to reach: its pair is entered, and the
successors that are not known to be reached wait on top of the stack. -/
structure Enters (origin node : Node) (stack : List Node) (search next : CriticalSearch) : Prop where
  nodes : next.graph.nodes = search.graph.nodes
  marks : Marks search next [(origin, node)]
  stacked : ∀ other, other ∈ next.stack ↔
    (search.graph.Linked node other ∧ ¬ next.graph.knows origin other) ∨ other ∈ stack
  shorter : next.stack.length ≤ (search.graph.successors node).length + stack.length

private theorem enters_pushUnknown {origin node : Node} {search : CriticalSearch}
    (tabled : search.graph.Tabled) (unknown : ¬ search.graph.knows origin node) (stack : List Node) :
    let marked := (search.ask origin node stack).mark origin node
    Enters origin node stack search
      (marked.pushUnknown (fun next => (origin, next)) (marked.graph.successors node)) := by
  intro marked
  have asked : (search.ask origin node stack).graph.Tabled := tabled
  obtain ⟨marks, nodes, sameStack⟩ : Marks search marked [(origin, node)] ∧
      marked.graph.nodes = search.graph.nodes ∧ marked.stack = stack :=
    (mark_marks asked unknown).imp_left fun marks => marks.congr_left rfl rfl
  have sameSuccessors : marked.graph.successors node = search.graph.successors node := by
    rw [CriticalGraph.successors, nodes, CriticalGraph.successors]
  rw [sameSuccessors]
  obtain ⟨nodes', table, found, shorter, onStack⟩ := marked.pushUnknown_spec
    (fun next => (origin, next)) (search.graph.successors node)
  rw [sameStack] at shorter onStack
  refine ⟨nodes'.trans nodes, marks.congr table found, fun other => ?_, shorter⟩
  rw [onStack, CriticalGraph.knows_congr table]
  exact Iff.rfl

section Forward

variable {origin target node : Node} {stack : List Node} {start search next : CriticalSearch}
  {new : List (Node × Node)}

private theorem ForwardRun.skip (run : ForwardRun origin target start search new)
    (stacked : search.stack = node :: stack) (known : search.graph.knows origin node)
    (skips : Skips stack search next) : ForwardRun origin target start next new := by
  have same := CriticalGraph.knows_congr skips.table
  have keeps : ∀ other, search.graph.knows origin other → next.graph.knows origin other :=
    fun other old => (same origin other).symm ▸ old
  have waits : ∀ other ∈ stack, other ∈ next.stack := fun other listed => skips.stack.symm ▸ listed
  exact
    { nodes := skips.nodes.trans run.nodes
      marks := run.marks.congr skips.table skips.found
      sound := run.sound
      stacked := fun other listed =>
        run.stacked other (stacked ▸ List.mem_cons_of_mem _ (skips.stack ▸ listed))
      closed := by
        intro v w reached link
        exact visited_or_waits _ (next.graph.knows origin ·)
          (stacked ▸ run.closed v w (same _ _ ▸ reached) link) keeps (keeps node known) waits
      arrived := visited_or_waits _ (next.graph.knows origin ·) (stacked ▸ run.arrived) keeps
        (keeps node known) waits }

private theorem ForwardRun.enter (run : ForwardRun origin target start search new)
    (stacked : search.stack = node :: stack) (enters : Enters origin node stack search next) :
    ForwardRun origin target start next ([(origin, node)] ++ new) := by
  have reached : ReflTransGen start.graph.Linked target node :=
    run.stacked node (stacked ▸ List.mem_cons_self)
  have sameLink := CriticalGraph.linked_congr run.nodes
  have here : next.graph.knows origin node := (enters.marks.knows _ _).mpr (.inr (by simp))
  have keeps : ∀ other, search.graph.knows origin other → next.graph.knows origin other :=
    fun other old => (enters.marks.knows origin other).mpr (.inl old)
  have waits : ∀ other ∈ stack, other ∈ next.stack := fun other listed =>
    (enters.stacked other).mpr (.inr listed)
  exact
    { nodes := enters.nodes.trans run.nodes
      marks := run.marks.trans enters.marks
      sound := by
        intro u v listed
        rcases List.mem_append.mp listed with late | early
        · obtain ⟨rfl, rfl⟩ := Prod.mk.inj (List.mem_singleton.mp late)
          exact ⟨rfl, reached⟩
        · exact run.sound u v early
      stacked := by
        intro other listed
        rcases (enters.stacked other).mp listed with ⟨link, -⟩ | listed
        · exact reached.tail ((sameLink node other).mp link)
        · exact run.stacked other (stacked ▸ List.mem_cons_of_mem _ listed)
      closed := by
        intro v w known link
        rcases (enters.marks.knows origin v).mp known with old | new
        · exact visited_or_waits _ (next.graph.knows origin ·) (stacked ▸ run.closed v w old link) keeps
            here waits
        · obtain ⟨-, rfl⟩ := Prod.mk.inj (List.mem_singleton.mp new)
          by_cases there : next.graph.knows origin w
          · exact .inl there
          · exact .inr ((enters.stacked w).mpr (.inl ⟨(sameLink v w).mpr link, there⟩))
      arrived :=
        visited_or_waits _ (next.graph.knows origin ·) (stacked ▸ run.arrived) keeps here waits }

/-- The edges that leave a node are counted until it is visited. -/
private theorem Enters.card_aheadOf (enters : Enters origin node stack search next)
    (unknown : ¬ search.graph.knows origin node) (same : search.graph.nodes = start.graph.nodes) :
    (aheadOf origin start next).card + (search.graph.successors node).length ≤
      (aheadOf origin start search).card := by
  rw [← List.length_map (f := (node, ·))]
  refine card_add_length_le ?_ (fun link ahead => ?_) fun link gone => ?_
  · exact (search.graph.nodup_successors node).map fun _ _ same => (Prod.mk.inj same).2
  · simp only [aheadOf, Finset.mem_filter] at ahead ⊢
    exact ⟨ahead.1, fun old => ahead.2 ((enters.marks.knows _ _).mpr (.inl old))⟩
  · obtain ⟨w, link, rfl⟩ := List.mem_map.mp gone
    have there := (CriticalGraph.linked_congr same node w).mp link
    simp only [aheadOf, Finset.mem_filter]
    refine ⟨⟨(CriticalGraph.mem_links _ _ _).mpr there, unknown⟩, fun ahead => ahead.2 ?_⟩
    exact (enters.marks.knows _ _).mpr (.inr (by simp))

private theorem forwardStep_keeps (run : ForwardRun origin target start search new)
    (stepped : forwardStep origin search = some next) :
    (∃ new, ForwardRun origin target start next new) ∧
      next.stack.length + (aheadOf origin start next).card <
        search.stack.length + (aheadOf origin start search).card := by
  cases stacked : search.stack with
  | nil => simp [forwardStep, stacked] at stepped
  | cons node stack =>
    rw [forwardStep_eq stacked, Option.some.injEq] at stepped
    by_cases known : search.graph.knows origin node
    · obtain rfl : search.ask origin node stack = next := by simpa [known] using stepped
      exact ⟨⟨new, run.skip stacked known (search.ask_skips ..)⟩,
        Nat.add_lt_add_right (Nat.lt_succ_self _) _⟩
    · simp only [known, Bool.false_eq_true, if_false] at stepped
      have enters : Enters origin node stack search next :=
        stepped ▸ enters_pushUnknown run.marks.tabled known stack
      have fewer := enters.card_aheadOf known run.nodes
      have shorter := enters.shorter
      refine ⟨⟨_, run.enter stacked enters⟩, ?_⟩
      rw [List.length_cons]
      omega

end Forward

/-- A search forwards comes to its end: nothing is left on its stack. -/
private theorem exists_forwardRun {search : CriticalSearch} (tabled : search.graph.Tabled) {origin : Node}
    (closed : ∀ v w, search.graph.knows origin v → search.graph.Linked v w →
      search.graph.knows origin w) (target : Node) :
    ∃ after new, ForwardRun origin target search after new ∧ after.stack = [] ∧
      search.forward origin target = { after with stack := search.stack } := by
  let start : CriticalSearch := { search with stack := [target] }
  let after := Loop.run (forwardStep origin) (search.graph.edgeCount + 2) start
  have begins : ForwardRun origin target search start [] :=
    { nodes := rfl
      marks := .nothing tabled rfl rfl
      sound := by simp
      stacked := fun node listed => List.mem_singleton.mp listed ▸ .refl
      closed := fun v w known link => .inl (closed v w known link)
      arrived := .inr (List.mem_singleton_self _) }
  have halted : forwardStep origin after = none := by
    refine Loop.step_run_eq_none
      (motive := fun current => ∃ new, ForwardRun origin target search current new)
      (fun current => current.stack.length + (aheadOf origin search current).card)
      (fun current next ⟨new, run⟩ stepped => forwardStep_keeps run stepped) _ start ⟨[], begins⟩ ?_
    have few := (Finset.card_filter_le search.graph.links
      fun link => ¬ start.graph.knows origin link.1).trans search.graph.card_links_le
    have one : start.stack.length = 1 := rfl
    simp only [aheadOf, one]
    omega
  obtain ⟨new, run⟩ : ∃ new, ForwardRun origin target search after new :=
    Loop.run_induction (motive := fun current => ∃ new, ForwardRun origin target search current new)
      (fun current next ⟨new, run⟩ stepped => (forwardStep_keeps run stepped).1) _ start ⟨[], begins⟩
  refine ⟨after, new, run, ?_, rfl⟩
  cases stacked : after.stack with
  | nil => rfl
  | cons node stack => simp [forwardStep, stacked] at halted

/-- A search forwards makes known, of one node, all that the target reaches, and nothing else. -/
theorem forward_spec {search : CriticalSearch} (tabled : search.graph.Tabled) {origin : Node}
    (closed : ∀ v w, search.graph.knows origin v → search.graph.Linked v w →
      search.graph.knows origin w) (target : Node) :
    (search.forward origin target).graph.nodes = search.graph.nodes ∧
      (search.forward origin target).stack = search.stack ∧
      ∃ new, Marks search (search.forward origin target) new ∧
        ∀ u v, (search.forward origin target).graph.knows u v ↔
          search.graph.knows u v ∨
            (u = origin ∧ ReflTransGen search.graph.Linked target v) := by
  obtain ⟨after, new, run, done, ran⟩ := exists_forwardRun tabled closed target
  have complete : ∀ v, ReflTransGen search.graph.Linked target v → after.graph.knows origin v := by
    intro v path
    induction path with
    | refl => simpa [done] using run.arrived
    | tail _ link ih => simpa [done] using run.closed _ _ ih link
  rw [ran]
  refine ⟨run.nodes, rfl, new, run.marks.congr rfl rfl, fun u v => ?_⟩
  constructor
  · intro known
    exact ((run.marks.knows u v).mp known).imp_right (run.sound u v)
  · rintro (old | ⟨rfl, path⟩)
    · exact (run.marks.knows u v).mpr (.inl old)
    · exact complete v path

/-! ### Backwards -/

theorem prune_spec (search : CriticalSearch) (node target : Node) :
    (search.prune node target).graph.reachable = search.graph.reachable ∧
      (search.prune node target).found = search.found ∧
      (search.prune node target).stack = search.stack ∧
      (search.graph.Mirrored → (search.prune node target).graph.Mirrored) ∧
      (∀ u v, (search.prune node target).graph.Linked u v → search.graph.Linked u v) ∧
      ∀ u v, search.graph.Linked u v → (search.prune node target).graph.Linked u v ∨
        (u = node ∧ search.graph.knows target v) := by
  let asked := search.graph.filterReaching (fun next => (target, next))
    ((search.graph.successors node).filter (· != target))
  obtain ⟨links, mirrors, table⟩ := asked.1.foldl_dropEdge node asked.2
  refine ⟨table, rfl, rfl, mirrors, fun u v link => ((links u v).mp link).1, fun u v link => ?_⟩
  by_cases gone : u = node ∧ v ∈ asked.2
  · exact .inr ⟨gone.1, (List.mem_filter.mp gone.2).2⟩
  · exact .inl ((links u v).mpr ⟨link, gone⟩)

/-- Where a search for everything that reaches `src` stands: a node is given everything that `dst`
reaches, or nothing, and what leads to a node that has been served is served too or waits on the
stack. -/
structure BackwardRun (src dst : Node) (start search : CriticalSearch) (new : List (Node × Node)) :
    Prop where
  marks : Marks start search new
  thins : Thins src dst start.graph search.graph
  sound : ∀ u v, (u, v) ∈ new → start.graph.knows u src ∧ start.graph.knows dst v
  served : ∀ u v, (u, v) ∈ new → search.graph.knows u dst
  full : ∀ u v, search.graph.knows u dst → start.graph.knows dst v → search.graph.knows u v
  stacked : ∀ node ∈ search.stack, start.graph.knows node src
  closed : ∀ u v, search.graph.knows v dst → search.graph.Linked u v →
    search.graph.knows u dst ∨ u ∈ search.stack
  arrived : search.graph.knows src dst ∨ src ∈ search.stack

/-- The edges into nodes that are not known to reach `dst`. -/
private def behindOf (dst : Node) (start search : CriticalSearch) : Finset (Node × Node) :=
  start.graph.links.filter fun link => ¬ search.graph.knows link.2 dst

/-- Whether or not it is pruned at, a node whose visit begins leaves the graph thinned out only. -/
private theorem thins_prune {src dst node : Node} {start search : CriticalSearch} {pruning : Bool}
    (apart : pruning → ¬ start.graph.knows dst src)
    (thins : Thins src dst start.graph search.graph) (reaches : start.graph.knows node src)
    (sameRow : ∀ v, search.graph.knows dst v → start.graph.knows dst v) :
    ∃ pruned, (if pruning then search.prune node dst else search) = pruned ∧
      Thins src dst start.graph pruned.graph ∧ pruned.graph.reachable = search.graph.reachable ∧
      pruned.found = search.found ∧ pruned.stack = search.stack ∧
      ∀ u v, pruned.graph.Linked u v → search.graph.Linked u v := by
  cases pruning with
  | false => exact ⟨search, rfl, thins, rfl, rfl, rfl, fun _ _ link => link⟩
  | true =>
    obtain ⟨table, found, stack, mirrors, kept, dropped⟩ := search.prune_spec node dst
    refine ⟨search.prune node dst, rfl, ⟨mirrors thins.mirrored, fun u v link =>
      thins.kept u v (kept u v link), fun u v link => ?_⟩, table, found, stack, kept⟩
    rcases thins.dropped u v link with there | gone
    · rcases dropped u v there with there | ⟨rfl, known⟩
      · exact .inl there
      · exact .inr ⟨apart rfl, reaches, sameRow v known⟩
    · exact .inr gone

private theorem backwardStep_eq {dst node : Node} {pruning : Bool} {stack : List Node}
    {search : CriticalSearch} (stacked : search.stack = node :: stack) :
    backwardStep dst pruning search = some (
      let asked := search.ask node dst stack
      if search.graph.knows node dst then asked
      else
        let served := (if pruning then asked.prune node dst else asked).forward node dst
        served.pushUnknown (fun next => (next, dst)) (served.graph.predecessors node)) := by
  rw [backwardStep, stacked]
  rfl

/-- What the visit of a node does that has not been served: it is given all that `dst` reaches, and
what leads to it and has not been served either waits on top of the stack. -/
structure Serves (src dst node : Node) (stack : List Node) (start search next : CriticalSearch)
    (given : List (Node × Node)) : Prop where
  marks : Marks search next given
  thins : Thins src dst start.graph next.graph
  kept : ∀ u v, next.graph.Linked u v → search.graph.Linked u v
  knows : ∀ u v, next.graph.knows u v ↔
    search.graph.knows u v ∨ (u = node ∧ start.graph.knows dst v)
  stacked : ∀ other, other ∈ next.stack ↔
    (next.graph.Linked other node ∧ ¬ next.graph.knows other dst) ∨ other ∈ stack
  shorter : next.stack.length ≤ (next.graph.predecessors node).length + stack.length

section Backward

variable {src dst node : Node} {pruning : Bool} {stack : List Node}
  {start search next : CriticalSearch} {new given : List (Node × Node)}

/-- The row of a node that has not been served is the old one, so it is closed under what is left of
the edges. -/
private theorem BackwardRun.row_closed (run : BackwardRun src dst start search new)
    (exact : start.graph.Exact) (unknown : ¬ search.graph.knows node dst) (v w : Node)
    (row : search.graph.knows node v) (link : start.graph.Linked v w) :
    search.graph.knows node w := by
  have old := ((run.marks.knows node v).mp row).resolve_right fun listed =>
    unknown (run.served node v listed)
  have path := (exact node v).mp old
  exact (run.marks.knows node w).mpr (.inl ((exact node w).mpr (path.tail link)))

private theorem BackwardRun.serves (run : BackwardRun src dst start search new)
    (exact : start.graph.Exact) (apart : pruning → ¬ start.graph.knows dst src)
    (reaches : start.graph.knows node src) (unknown : ¬ search.graph.knows node dst)
    (stack : List Node) :
    let asked := search.ask node dst stack
    let served := (if pruning then asked.prune node dst else asked).forward node dst
    ∃ given, Serves src dst node stack start search
      (served.pushUnknown (fun next => (next, dst)) (served.graph.predecessors node)) given := by
  intro asked served
  have endRow : ∀ v, asked.graph.knows dst v → start.graph.knows dst v := by
    intro v row
    rcases (run.marks.knows dst v).mp row with old | listed
    · exact old
    · exact (run.sound dst v listed).2
  have askedThins : Thins src dst start.graph asked.graph := run.thins.congr rfl
  obtain ⟨pruned, prunedIs, thins, table, found, prunedStack, kept⟩ :=
    thins_prune apart askedThins reaches endRow
  have prunedKnows : ∀ u v, pruned.graph.knows u v = search.graph.knows u v :=
    CriticalGraph.knows_congr table
  have rowClosed : ∀ v w, pruned.graph.knows node v → pruned.graph.Linked v w →
      pruned.graph.knows node w := by
    intro v w row link
    rw [prunedKnows] at row ⊢
    exact run.row_closed exact unknown v w row (thins.kept v w link)
  obtain ⟨nodes, sameStack, given, marks, row⟩ :=
    forward_spec (run.marks.tabled.congr table) rowClosed dst
  have servedIs : pruned.forward node dst = served := by rw [← prunedIs]
  rw [servedIs] at nodes sameStack marks row
  have servedStack : served.stack = stack := sameStack.trans prunedStack
  obtain ⟨nodes', table', found', shorter, onStack⟩ := served.pushUnknown_spec
    (fun next => (next, dst)) (served.graph.predecessors node)
  set next := served.pushUnknown (fun next => (next, dst)) (served.graph.predecessors node)
  have nextThins : Thins src dst start.graph next.graph := thins.congr (nodes'.trans nodes)
  have samePredecessors : served.graph.predecessors node = next.graph.predecessors node := by
    rw [CriticalGraph.predecessors, CriticalGraph.predecessors, nodes']
  rw [samePredecessors, servedStack] at shorter
  refine ⟨given,
    { marks := (marks.congr table' found').congr_left table found
      thins := nextThins
      kept := fun u v link => kept u v ((CriticalGraph.linked_congr (nodes'.trans nodes) u v).mp link)
      knows := fun u v => ?knows
      stacked := fun other => ?stacked
      shorter := shorter }⟩
  case knows => rw [CriticalGraph.knows_congr table', row, prunedKnows, thins.ahead exact]
  case stacked =>
    rw [onStack, samePredecessors, servedStack, nextThins.mirrored, CriticalGraph.knows_congr table']

/-- The pairs that a visit enters are those of its node. -/
private theorem Serves.given_iff (serves : Serves src dst node stack start search next given)
    {u v : Node} (listed : (u, v) ∈ given) : u = node ∧ start.graph.knows dst v :=
  ((serves.knows u v).mp ((serves.marks.knows u v).mpr (.inr listed))).resolve_left
    (serves.marks.fresh u v listed)

private theorem BackwardRun.skip (run : BackwardRun src dst start search new)
    (stacked : search.stack = node :: stack) (known : search.graph.knows node dst)
    (skips : Skips stack search next) : BackwardRun src dst start next new := by
  have same := CriticalGraph.knows_congr skips.table
  have keeps : ∀ other, search.graph.knows other dst → next.graph.knows other dst :=
    fun other old => (same other dst).symm ▸ old
  have waits : ∀ other ∈ stack, other ∈ next.stack := fun other listed => skips.stack.symm ▸ listed
  exact
    { marks := run.marks.congr skips.table skips.found
      thins := run.thins.congr skips.nodes
      sound := run.sound
      served := fun u v listed => keeps u (run.served u v listed)
      full := by
        intro u v reached behind
        rw [same] at reached ⊢
        exact run.full u v reached behind
      stacked := fun other listed =>
        run.stacked other (stacked ▸ List.mem_cons_of_mem _ (skips.stack ▸ listed))
      closed := by
        intro u v reached link
        have oldLink := (CriticalGraph.linked_congr skips.nodes u v).mp link
        exact visited_or_waits _ (next.graph.knows · dst)
          (stacked ▸ run.closed u v (same _ _ ▸ reached) oldLink) keeps (keeps node known) waits
      arrived := visited_or_waits _ (next.graph.knows · dst) (stacked ▸ run.arrived) keeps
        (keeps node known) waits }

private theorem BackwardRun.serve (run : BackwardRun src dst start search new)
    (exact : start.graph.Exact) (stacked : search.stack = node :: stack)
    (serves : Serves src dst node stack start search next given) :
    BackwardRun src dst start next (given ++ new) := by
  have reaches : start.graph.knows node src := run.stacked node (stacked ▸ List.mem_cons_self)
  have here : next.graph.knows node dst :=
    (serves.knows node dst).mpr (.inr ⟨rfl, start.graph.knows_self dst⟩)
  have keeps : ∀ other, search.graph.knows other dst → next.graph.knows other dst :=
    fun other old => (serves.knows other dst).mpr (.inl old)
  have waits : ∀ other ∈ stack, other ∈ next.stack := fun other listed =>
    (serves.stacked other).mpr (.inr listed)
  exact
    { marks := run.marks.trans serves.marks
      thins := serves.thins
      sound := by
        intro u v listed
        rcases List.mem_append.mp listed with late | early
        · obtain ⟨rfl, behind⟩ := serves.given_iff late
          exact ⟨reaches, behind⟩
        · exact run.sound u v early
      served := by
        intro u v listed
        rcases List.mem_append.mp listed with late | early
        · obtain ⟨rfl, -⟩ := serves.given_iff late
          exact here
        · exact keeps u (run.served u v early)
      full := by
        intro u v reached behind
        rcases (serves.knows u dst).mp reached with old | ⟨rfl, -⟩
        · exact (serves.knows u v).mpr (.inl (run.full u v old behind))
        · exact (serves.knows u v).mpr (.inr ⟨rfl, behind⟩)
      stacked := by
        intro other listed
        rcases (serves.stacked other).mp listed with ⟨link, -⟩ | listed
        · exact (exact other src).mpr (.head (serves.thins.kept _ _ link) ((exact _ _).mp reaches))
        · exact run.stacked other (stacked ▸ List.mem_cons_of_mem _ listed)
      closed := by
        intro u v reached link
        rcases (serves.knows v dst).mp reached with old | ⟨rfl, -⟩
        · exact visited_or_waits _ (next.graph.knows · dst)
            (stacked ▸ run.closed u v old (serves.kept u v link)) keeps here waits
        · by_cases there : next.graph.knows u dst
          · exact .inl there
          · exact .inr ((serves.stacked u).mpr (.inl ⟨link, there⟩))
      arrived := visited_or_waits _ (next.graph.knows · dst) (stacked ▸ run.arrived) keeps here waits }

/-- The edges into a node are counted until it is served. -/
private theorem Serves.card_behindOf (serves : Serves src dst node stack start search next given)
    (unknown : ¬ search.graph.knows node dst) :
    (behindOf dst start next).card + (next.graph.predecessors node).length ≤
      (behindOf dst start search).card := by
  rw [← List.length_map (f := (·, node))]
  refine card_add_length_le ?_ (fun link behind => ?_) fun link gone => ?_
  · exact (next.graph.nodup_predecessors node).map fun _ _ same => (Prod.mk.inj same).1
  · simp only [behindOf, Finset.mem_filter] at behind ⊢
    exact ⟨behind.1, fun old => behind.2 ((serves.knows _ _).mpr (.inl old))⟩
  · obtain ⟨u, before, rfl⟩ := List.mem_map.mp gone
    have link := serves.thins.kept u node ((serves.thins.mirrored u node).mp before)
    simp only [behindOf, Finset.mem_filter]
    refine ⟨⟨(CriticalGraph.mem_links _ _ _).mpr link, unknown⟩, fun behind => behind.2 ?_⟩
    exact (serves.knows node dst).mpr (.inr ⟨rfl, start.graph.knows_self dst⟩)

private theorem backwardStep_keeps (exact : start.graph.Exact)
    (apart : pruning → ¬ start.graph.knows dst src) (run : BackwardRun src dst start search new)
    (stepped : backwardStep dst pruning search = some next) :
    (∃ new, BackwardRun src dst start next new) ∧
      next.stack.length + (behindOf dst start next).card <
        search.stack.length + (behindOf dst start search).card := by
  cases stacked : search.stack with
  | nil => simp [backwardStep, stacked] at stepped
  | cons node stack =>
    rw [backwardStep_eq stacked, Option.some.injEq] at stepped
    by_cases known : search.graph.knows node dst
    · obtain rfl : search.ask node dst stack = next := by simpa [known] using stepped
      exact ⟨⟨new, run.skip stacked known (search.ask_skips ..)⟩,
        Nat.add_lt_add_right (Nat.lt_succ_self _) _⟩
    · have reaches : start.graph.knows node src := run.stacked node (stacked ▸ List.mem_cons_self)
      simp only [known, Bool.false_eq_true, if_false] at stepped
      obtain ⟨given, serves⟩ : ∃ given, Serves src dst node stack start search next given :=
        stepped ▸ run.serves exact apart reaches known stack
      have fewer := serves.card_behindOf known
      have shorter := serves.shorter
      refine ⟨⟨_, run.serve exact stacked serves⟩, ?_⟩
      rw [List.length_cons]
      omega

end Backward

/-- A search backwards comes to its end: nothing is left on its stack. -/
private theorem exists_backwardRun {graph : CriticalGraph} (tabled : graph.Tabled)
    (mirrored : graph.Mirrored) (exact : graph.Exact) {src dst : Node} {pruning : Bool}
    (apart : pruning → ¬ graph.knows dst src) :
    (backward graph src dst pruning).stack = [] ∧
      ∃ new, BackwardRun src dst { graph, stack := [src] } (backward graph src dst pruning) new := by
  let start : CriticalSearch := { graph, stack := [src] }
  let after := backward graph src dst pruning
  have begins : BackwardRun src dst start start [] :=
    { marks := .nothing tabled rfl rfl
      thins := ⟨mirrored, fun _ _ link => link, fun _ _ link => .inl link⟩
      sound := by simp
      served := by simp
      full := fun u v before behind =>
        (exact u v).mpr (((exact u dst).mp before).trans ((exact dst v).mp behind))
      stacked := fun node listed => List.mem_singleton.mp listed ▸ graph.knows_self _
      closed := fun u v before link => .inl ((exact u dst).mpr (.head link ((exact v dst).mp before)))
      arrived := .inr (List.mem_singleton_self _) }
  have halted : backwardStep dst pruning after = none := by
    refine Loop.step_run_eq_none
      (motive := fun current => ∃ new, BackwardRun src dst start current new)
      (fun current => current.stack.length + (behindOf dst start current).card)
      (fun current next ⟨new, run⟩ stepped => backwardStep_keeps exact apart run stepped) _ start
      ⟨[], begins⟩ ?_
    have few := (Finset.card_filter_le graph.links
      fun link => ¬ graph.knows link.2 dst).trans graph.card_links_le
    have one : start.stack.length = 1 := rfl
    simp only [behindOf, one, start]
    omega
  refine ⟨?_, Loop.run_induction
    (motive := fun current => ∃ new, BackwardRun src dst start current new)
    (fun current next ⟨new, run⟩ stepped => (backwardStep_keeps exact apart run stepped).1) _ start
    ⟨[], begins⟩⟩
  cases stacked : after.stack with
  | nil => rfl
  | cons node stack => simp [backwardStep, stacked] at halted

/-- A search backwards makes known that whatever reaches `src` reaches what `dst` reaches, and notes
what is new. -/
theorem backward_spec {graph : CriticalGraph} (tabled : graph.Tabled) (mirrored : graph.Mirrored)
    (exact : graph.Exact) {src dst : Node} {pruning : Bool} (apart : pruning → ¬ graph.knows dst src) :
    Thins src dst graph (backward graph src dst pruning).graph ∧
      (backward graph src dst pruning).graph.Tabled ∧
      (backward graph src dst pruning).found.Nodup ∧
      (∀ u v, (u, v) ∈ (backward graph src dst pruning).found ↔
        (backward graph src dst pruning).graph.knows u v ∧ ¬ graph.knows u v) ∧
      ∀ u v, (backward graph src dst pruning).graph.knows u v ↔
        graph.knows u v ∨ (graph.knows u src ∧ graph.knows dst v) := by
  obtain ⟨done, new, run⟩ := exists_backwardRun tabled mirrored exact apart
  have served : ∀ u, graph.knows u src → (backward graph src dst pruning).graph.knows u dst := by
    intro u reaches
    have path := (run.thins.behind exact u).mpr reaches
    induction path using ReflTransGen.head_induction_on with
    | refl => simpa [done] using run.arrived
    | head link rest ih =>
      have below := ih ((run.thins.behind exact _).mp rest)
      simpa [done] using run.closed _ _ below link
  have found : (backward graph src dst pruning).found = new := by
    rw [run.marks.found, List.append_nil]
  refine ⟨run.thins, run.marks.tabled, found ▸ run.marks.distinct, fun u v => ?_, fun u v => ?_⟩
  · rw [found]
    constructor
    · exact fun listed => ⟨(run.marks.knows u v).mpr (.inr listed), run.marks.fresh u v listed⟩
    · rintro ⟨known, unknown⟩
      exact ((run.marks.knows u v).mp known).resolve_left unknown
  · constructor
    · exact fun known => ((run.marks.knows u v).mp known).imp_right (run.sound u v)
    · rintro (old | ⟨before, behind⟩)
      · exact (run.marks.knows u v).mpr (.inl old)
      · exact run.full u v (served u before) behind

end CriticalSearch

namespace CriticalGraph

/-! ### Taking in an edge -/

/-- The edges are listed at both ends, the table is laid out well, and it tells what they connect. -/
structure Valid (graph : CriticalGraph) : Prop where
  mirrored : graph.Mirrored
  tabled : graph.Tabled
  exact : graph.Exact

theorem valid_empty : empty.Valid := by
  refine ⟨mirrored_empty, tabled_empty, fun u v => ?_⟩
  rw [knows_empty, Relation.reflTransGen_iff_eq (not_linked_empty u)]
  exact eq_comm

/-- A graph that was thinned out, and whose table is ahead of it, is exact once the edge is in. -/
private theorem insert_of_thinned {graph thinned : CriticalGraph} (valid : graph.Valid) {src dst : Node}
    (unknown : ¬ graph.knows src dst) {found : List (Node × Node)} (mirrored : thinned.Mirrored)
    (tabled : thinned.Tabled)
    (kept : ∀ u v, thinned.Linked u v → graph.Linked u v)
    (dropped : ∀ u v, graph.Linked u v → thinned.Linked u v ∨
      (ReflTransGen thinned.Linked u src ∧ ReflTransGen thinned.Linked dst v))
    (knows : ∀ u v, thinned.knows u v ↔
      graph.knows u v ∨ (graph.knows u src ∧ graph.knows dst v))
    (distinct : found.Nodup)
    (listed : ∀ u v, (u, v) ∈ found ↔ thinned.knows u v ∧ ¬ graph.knows u v) (tag : EdgeTag) :
    (thinned.addEdge src dst tag).Valid ∧
      Inserts graph.Linked src dst (thinned.addEdge src dst tag).Linked found := by
  have reaches : ∀ u v, ReflTransGen (thinned.addEdge src dst tag).Linked u v ↔
      ReflTransGen graph.Linked u v ∨
        (ReflTransGen graph.Linked u src ∧ ReflTransGen graph.Linked dst v) := by
    intro u v
    have same : (thinned.addEdge src dst tag).Linked = WithEdge thinned.Linked src dst := by
      funext u v
      exact propext (linked_addEdge thinned src dst tag u v)
    rw [same, reflTransGen_withEdge_congr kept dropped, reflTransGen_withEdge]
  have table : ∀ u v, (thinned.addEdge src dst tag).knows u v ↔
      ReflTransGen (thinned.addEdge src dst tag).Linked u v := by
    intro u v
    rw [reaches, ← valid.exact, ← valid.exact, ← valid.exact, ← knows]
    exact Iff.rfl
  refine ⟨⟨mirrored_addEdge mirrored src dst tag, tabled, table⟩, fun u v link => ?_, reaches,
    distinct, fun u v => ?_⟩
  · rcases (linked_addEdge thinned src dst tag u v).mp link with old | ⟨here, there⟩
    · exact .inl (kept u v old)
    · exact .inr ⟨here, there, fun path => unknown ((valid.exact src dst).mpr path)⟩
  · rw [listed, ← table, ← valid.exact]
    exact Iff.rfl

/-- What taking in an edge between unconnected nodes comes to. -/
private theorem insert_of_unknown {graph : CriticalGraph} {src dst : Node}
    (unknown : ¬ graph.knows src dst) :
    let search := CriticalSearch.backward { graph with checks := graph.checks + 1 + 1 } src dst
      (!graph.knows dst src)
    graph.insert src dst =
      (if graph.knows dst src then (search.graph.compactCycle src dst).addEdge src dst .back
        else search.graph.addEdge src dst .forward, search.found.reverse) := by
  unfold insert
  simp only [reaches, unknown]
  rfl

/-- Taking in an edge keeps a closure exact and reports the new pairs. -/
theorem insert_spec {graph : CriticalGraph} (valid : graph.Valid) (src dst : Node) :
    (graph.insert src dst).1.Valid ∧
      Inserts graph.Linked src dst (graph.insert src dst).1.Linked (graph.insert src dst).2 := by
  by_cases known : graph.knows src dst
  · have ran : graph.insert src dst = ({ graph with checks := graph.checks + 1 }, []) := by
      simp [insert, reaches, known]
    rw [ran]
    exact ⟨⟨valid.mirrored, valid.tabled, valid.exact⟩, .nothing ((valid.exact src dst).mp known)⟩
  · let asked : CriticalGraph := { graph with checks := graph.checks + 1 + 1 }
    have askedValid : asked.Valid := ⟨valid.mirrored, valid.tabled, valid.exact⟩
    have apart : (!graph.knows dst src) → ¬ asked.knows dst src := fun unclosed closed => by
      rw [show graph.knows dst src = true from closed] at unclosed
      simp at unclosed
    obtain ⟨thins, tabled, distinct, listed, knows⟩ :=
      CriticalSearch.backward_spec askedValid.tabled askedValid.mirrored askedValid.exact apart
    set search := CriticalSearch.backward asked src dst (!graph.knows dst src)
    have thinsLinks : ∀ u v, graph.Linked u v → search.graph.Linked u v ∨
        (ReflTransGen search.graph.Linked u src ∧ ReflTransGen search.graph.Linked dst v) := by
      intro u v link
      rcases thins.dropped u v link with there | ⟨-, before, behind⟩
      · exact .inl there
      · exact .inr ⟨(thins.behind askedValid.exact u).mpr before,
          (thins.ahead askedValid.exact v).mpr behind⟩
    have listedReverse : ∀ u v, (u, v) ∈ search.found.reverse ↔
        search.graph.knows u v ∧ ¬ graph.knows u v := fun u v => by
      rw [List.mem_reverse]
      exact listed u v
    rw [insert_of_unknown known]
    split
    · next closes =>
      have column : ∀ node, ReflTransGen search.graph.Linked node src → search.graph.knows node src :=
        fun node path => (knows node src).mpr (.inl ((thins.behind askedValid.exact node).mp path))
      obtain ⟨mirrored, table, way, last, chain, cuts⟩ := compactCycle_spec thins.mirrored column
        ((thins.behind askedValid.exact dst).mpr closes)
      refine insert_of_thinned valid known mirrored (tabled.congr table)
        (fun u v link => thins.kept u v (cuts.kept chain link)) (fun u v link => ?_)
        (fun u v => by rw [knows_congr table]; exact knows u v) (List.nodup_reverse.mpr distinct)
        (fun u v => by rw [knows_congr table]; exact listedReverse u v) .back
      -- The cycle is there already, so the search before the compaction has dropped nothing.
      rcases thins.dropped u v link with there | ⟨open', -, -⟩
      · exact cuts.dropped last there
      · exact absurd closes open'
    · exact insert_of_thinned valid known thins.mirrored tabled thins.kept thinsLinks knows
        (List.nodup_reverse.mpr distinct) listedReverse .forward

end CriticalGraph

/-! ### Counting -/

namespace CriticalSearch

/-- The pairs counted are those of the table before and the ones noted since. -/
def Counts (total : Nat) (search : CriticalSearch) : Prop :=
  search.graph.pairs = total + search.found.length

variable {total : Nat} {search : CriticalSearch}

theorem Counts.mark (counts : Counts total search) (src dst : Node) :
    Counts total (search.mark src dst) := by
  unfold CriticalSearch.mark
  dsimp only
  split
  · exact congrArg (· + 1) counts
  · exact counts

theorem Counts.forward (counts : Counts total search) (origin target : Node) :
    Counts total (search.forward origin target) := by
  have run : Counts total (Loop.run (forwardStep origin) (search.graph.edgeCount + 2)
      { search with stack := [target] }) := by
    refine Loop.run_induction (fun search next counts stepped => ?_) _ _ counts
    cases stacked : search.stack with
    | nil => simp [forwardStep, stacked] at stepped
    | cons node stack =>
      have taken : Counts total
          { search with graph := (search.graph.reaches origin node).1, stack } := counts
      by_cases known : search.graph.knows origin node
      · simp only [forwardStep, stacked, CriticalGraph.reaches, known, if_true,
          Option.some.injEq] at stepped
        exact stepped ▸ taken
      · simp only [forwardStep, stacked, CriticalGraph.reaches, known, Bool.false_eq_true, if_false,
          Option.some.injEq] at stepped
        exact stepped ▸ taken.mark origin node
  exact run

theorem pairs_dropEdge (graph : CriticalGraph) (src dst : Node) :
    (graph.dropEdge src dst).pairs = graph.pairs := by
  unfold CriticalGraph.dropEdge
  split <;> rfl

theorem Counts.prune (counts : Counts total search) (node target : Node) :
    Counts total (search.prune node target) := by
  refine List.foldlRecOn (motive := fun graph : CriticalGraph =>
    graph.pairs = total + search.found.length) _ _ counts fun graph counts next _ => ?_
  rw [pairs_dropEdge, counts]

theorem Counts.backward (graph : CriticalGraph) (origin target : Node) (pruning : Bool) :
    Counts graph.pairs (backward graph origin target pruning) := by
  refine Loop.run_induction (motive := Counts graph.pairs) (fun search next counts stepped => ?_) _ _ rfl
  cases stacked : search.stack with
  | nil => simp [backwardStep, stacked] at stepped
  | cons node stack =>
    have taken : Counts graph.pairs
        { search with graph := (search.graph.reaches node target).1, stack } := counts
    by_cases known : search.graph.knows node target
    · simp only [backwardStep, stacked, CriticalGraph.reaches, known, if_true,
        Option.some.injEq] at stepped
      exact stepped ▸ taken
    · simp only [backwardStep, stacked, CriticalGraph.reaches, known, Bool.false_eq_true, if_false,
        Option.some.injEq] at stepped
      refine stepped ▸ Counts.forward ?_ node target
      split
      · exact taken.prune node target
      · exact taken

end CriticalSearch

namespace CriticalGraph

/-- Cutting a cycle down leaves the count of pairs alone. -/
theorem pairs_compactCycle (graph : CriticalGraph) (src dst : Node) :
    (graph.compactCycle src dst).pairs = graph.pairs := by
  have searched : (PathSearch.run graph dst src).graph.pairs = graph.pairs := by
    refine Loop.run_induction (motive := fun search : PathSearch => search.graph.pairs = graph.pairs)
      (fun search next same stepped => ?_) _ _ rfl
    unfold PathSearch.step at stepped
    split at stepped
    · cases stepped
    · rw [Option.ite_none_left_eq_some, Option.some.injEq] at stepped
      rw [← stepped.2]
      refine List.foldlRecOn (motive := fun search : PathSearch => search.graph.pairs = graph.pairs)
        _ _ same fun search same next _ => ?_
      by_cases seen : next == dst || search.previous.contains next
      · simpa [PathSearch.discover, seen] using same
      · by_cases known : search.graph.knows next src <;>
          simpa [PathSearch.discover, seen, reaches, known] using same
  have dropped : ∀ (path rest : List Node) (graph : CriticalGraph),
      (dropChords path rest graph).pairs = graph.pairs := by
    intro path rest
    induction rest with
    | nil => exact fun _ => rfl
    | cons node rest ih =>
      intro graph
      refine (ih _).trans (List.foldlRecOn (motive := fun cut : CriticalGraph => cut.pairs = graph.pairs)
        _ _ rfl fun cut same next _ => ?_)
      rw [CriticalSearch.pairs_dropEdge, same]
  unfold compactCycle
  dsimp only
  split
  · exact searched
  · rw [dropped, searched]

/-- Taking in an edge counts the pairs that it reports. -/
theorem pairs_insert (graph : CriticalGraph) (src dst : Node) :
    (graph.insert src dst).1.pairs = graph.pairs + (graph.insert src dst).2.length := by
  by_cases known : graph.knows src dst
  · simp [insert, reaches, known]
  · have counts : _ = graph.pairs + _ := CriticalSearch.Counts.backward
      { graph with checks := graph.checks + 1 + 1 } src dst (!graph.knows dst src)
    rw [insert_of_unknown known, List.length_reverse, ← counts]
    split
    · exact pairs_compactCycle _ src dst
    · rfl

end CriticalGraph

end GrammarReach
