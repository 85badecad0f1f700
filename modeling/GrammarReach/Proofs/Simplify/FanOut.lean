import GrammarReach.Simplify.Brackets
import GrammarReach.Proofs.Graph.Merge

/-!
Merging targets goes on until no node has two under one label.

A merge can only unsettle the node that was merged into, and this node is queued; the node under
examination is queued again when anything was merged. So a live node that is not in the queue is settled,
and at the end all are.
-/

namespace GrammarReach

namespace Multigraph

variable {graph : Multigraph}

/-- A merge takes a live node away. -/
theorem Valid.nodeCount_merge_lt (valid : graph.Valid) {node rep : Node} (one : graph.hasNode node)
    (two : graph.hasNode rep) (apart : node ≠ rep) :
    (graph.merge node rep).1.nodeCount < graph.nodeCount := by
  have root := valid.repOf_live two
  have joined := (graph.merge_flag node rep).mpr ⟨one, root.symm ▸ apart⟩
  have count := valid.nodeCount_merge node (root.symm ▸ two : graph.hasNode (graph.repOf rep))
  rw [if_pos joined] at count
  exact Nat.lt_of_succ_le (Nat.le_of_eq count)

end Multigraph

namespace FanOut

open Multigraph (Quotient)

variable {profile : BracketProfile} {graph : Multigraph} {node : Node} {vertex : Vertex}

/-! ### Groups of targets -/

private theorem mem_foldl_groups (edges : List GraphEdge)
    (groups : Std.TreeMap Label (Std.TreeSet Node)) (label : Label) (target : Node) :
    target ∈ (edges.foldl (fun groups edge =>
        if profile.collapses edge.label.symbol then
          groups.insert edge.label ((groups.getD edge.label ∅).insert edge.dst)
        else groups) groups).getD label ∅ ↔
      target ∈ groups.getD label ∅ ∨
        ∃ edge ∈ edges, profile.collapses label.symbol ∧ edge.label = label ∧ edge.dst = target := by
  induction edges generalizing groups with
  | nil => simp
  | cons edge edges ih =>
    rw [List.foldl_cons, ih, List.exists_mem_cons_iff, ← or_assoc]
    refine or_congr_left ?_
    split
    · next collapses =>
      simp only [Std.TreeMap.getD_insert, Std.LawfulEqCmp.compare_eq_iff_eq]
      split
      · next same =>
        rw [Std.TreeSet.mem_insert, Std.LawfulEqCmp.compare_eq_iff_eq, same]
        rw [same] at collapses
        simp [collapses, or_comm]
      · next differs => simp [differs]
    · next keeps =>
      refine (or_iff_left_of_imp ?_).symm
      rintro ⟨collapses, rfl, -⟩
      exact absurd collapses keeps

private theorem label_of_mem_foldl_groups (edges : List GraphEdge) {label : Label}
    (listed : label ∈ edges.foldl (fun (groups : Std.TreeMap Label (Std.TreeSet Node)) edge =>
        if profile.collapses edge.label.symbol then
          groups.insert edge.label ((groups.getD edge.label ∅).insert edge.dst)
        else groups) ∅) : ∃ edge ∈ edges, edge.label = label := by
  refine List.foldlRecOn (motive := fun groups : Std.TreeMap Label (Std.TreeSet Node) =>
    label ∈ groups → ∃ edge ∈ edges, edge.label = label) edges _
    (fun inside => absurd inside Std.TreeMap.not_mem_emptyc) ?_ listed
  intro groups known edge inside
  split
  · rw [Std.TreeMap.mem_insert, Std.LawfulEqCmp.compare_eq_iff_eq]
    rintro (rfl | old)
    · exact ⟨edge, inside, rfl⟩
    · exact known old
  · exact known

private theorem mem_outgoing (valid : graph.Valid) (found : graph.vertex? node = some vertex)
    (edge : GraphEdge) : edge ∈ vertex.outgoing.toList.filterMap graph.edge? ↔
      edge.src = node ∧ ∃ id, graph.edge? id = some edge := by
  rw [List.mem_filterMap]
  constructor
  · rintro ⟨id, listed, slot⟩
    obtain ⟨kind, listed⟩ := (Incidence.mem_toList ..).mp listed
    obtain ⟨kept, here, atNode, -⟩ := ((valid.outgoing node vertex found).2 kind id).mp listed
    rw [slot] at here
    obtain rfl := Option.some.inj here
    exact ⟨atNode, id, slot⟩
  · rintro ⟨rfl, id, slot⟩
    refine ⟨id, (Incidence.mem_toList ..).mpr ⟨edge.label.symbol, ?_⟩, slot⟩
    exact ((valid.outgoing _ vertex found).2 _ id).mpr ⟨edge, slot, rfl, rfl⟩

/-- The group of a label holds the targets under it. -/
theorem mem_targetGroups (valid : graph.Valid) (found : graph.vertex? node = some vertex)
    (label : Label) (target : Node) :
    target ∈ (targetGroups profile graph vertex).getD label ∅ ↔
      profile.collapses label.symbol ∧ graph.hasEdge ⟨node, target, label⟩ := by
  rw [targetGroups, mem_foldl_groups, valid.hasEdge_iff]
  simp only [mem_outgoing valid found, Std.TreeMap.getD_emptyc, Std.TreeSet.not_mem_emptyc, false_or]
  constructor
  · rintro ⟨edge, ⟨rfl, id, slot⟩, collapses, rfl, rfl⟩
    exact ⟨collapses, id, edge, slot, rfl⟩
  · rintro ⟨collapses, id, edge, slot, same⟩
    obtain ⟨rfl, rfl, rfl⟩ := Edge.mk.inj same
    exact ⟨edge, ⟨rfl, id, slot⟩, collapses, rfl, rfl⟩

theorem hasEdge_of_group (valid : graph.Valid) (found : graph.vertex? node = some vertex)
    {group : Label × Std.TreeSet Node compare} (listed : group ∈ (targetGroups profile graph vertex).toList)
    {target : Node} (held : target ∈ group.2) :
    profile.collapses group.1.symbol ∧ graph.hasEdge ⟨node, target, group.1⟩ := by
  obtain ⟨label, targets⟩ := group
  rw [← mem_targetGroups valid found, Std.TreeMap.getD_eq_getD_getElem?,
    Std.TreeMap.mem_toList_iff_getElem?_eq_some.mp listed]
  exact held

/-- There are no more groups than edges in a graph that this one came from. -/
theorem length_targetGroups_le {before : Multigraph} (valid : before.Valid)
    (quotient : Quotient before graph) (found : graph.vertex? node = some vertex) :
    (targetGroups profile graph vertex).toList.length ≤ before.edgeCount := by
  have within : (targetGroups profile graph vertex).keys ⊆ before.edges.map (·.2.label) := by
    intro label listed
    obtain ⟨edge, inside, rfl⟩ := label_of_mem_foldl_groups _ (Std.TreeMap.mem_keys.mp listed)
    obtain ⟨-, id, slot⟩ := (mem_outgoing quotient.valid found edge).mp inside
    have there := (quotient.valid.hasEdge_iff _).mpr ⟨id, edge, slot, rfl⟩
    obtain ⟨old, stood, same, -⟩ := (quotient.edges _).mp there
    obtain ⟨origin, listed, rfl⟩ := List.mem_map.mp ((valid.mem_edges_iff old).mpr stood)
    obtain ⟨-, -, label⟩ := Edge.mk.inj same
    exact List.mem_map.mpr ⟨origin, listed, label⟩
  have bound := Std.TreeMap.nodup_keys.length_le_of_subset within
  rwa [← Std.TreeMap.map_fst_toList_eq_keys, List.length_map, List.length_map, valid.length_edges] at bound

/-! ### Settled nodes -/

/-- A node has no two targets under one label. -/
def Settled (profile : BracketProfile) (graph : Multigraph) (node : Node) : Prop :=
  ∀ (label : Label) (one two : Node), profile.collapses label.symbol →
    graph.hasEdge ⟨node, one, label⟩ → graph.hasEdge ⟨node, two, label⟩ → one = two

theorem settled_of_small (valid : graph.Valid) (found : graph.vertex? node = some vertex)
    (small : ∀ group ∈ (targetGroups profile graph vertex).toList, group.2.size < 2) :
    Settled profile graph node := by
  intro label one two collapses first second
  have here := (mem_targetGroups valid found label one).mpr ⟨collapses, first⟩
  have there := (mem_targetGroups valid found label two).mpr ⟨collapses, second⟩
  rw [Std.TreeMap.getD_eq_getD_getElem?] at here there
  cases listed : (targetGroups profile graph vertex)[label]? with
  | none => simp [listed] at here
  | some targets =>
    rw [listed, Option.getD_some, ← Std.TreeSet.mem_toList] at here there
    have few := small _ (Std.TreeMap.mem_toList_iff_getElem?_eq_some.mpr listed)
    rw [← Std.TreeSet.length_toList] at few
    match targets.toList, here, there, few with
    | [only], here, there, _ => rw [List.mem_singleton.mp here, List.mem_singleton.mp there]

/-- Every live node is settled or stands for one that has yet to be examined. -/
def Attended (profile : BracketProfile) (graph : Multigraph) (pending : List Node) : Prop :=
  ∀ node, graph.hasNode node →
    Settled profile graph node ∨ ∃ item ∈ pending, graph.repOf item = node

theorem Attended.mono {pending more : List Node} (attended : Attended profile graph pending)
    (covers : ∀ item ∈ pending, ∃ other ∈ more, graph.repOf other = graph.repOf item) :
    Attended profile graph more := by
  intro node live
  refine (attended node live).imp_right ?_
  rintro ⟨item, listed, rfl⟩
  exact covers item listed

/-- A node need not be examined any more once it is settled. -/
theorem Attended.drop {item : Node} {pending : List Node}
    (attended : Attended profile graph (item :: pending))
    (settled : graph.hasNode (graph.repOf item) → Settled profile graph (graph.repOf item)) :
    Attended profile graph pending := by
  intro node live
  obtain done | ⟨other, listed, rfl⟩ := attended node live
  · exact .inl done
  · obtain rfl | listed := List.mem_cons.mp listed
    · exact .inl (settled live)
    · exact .inr ⟨other, listed, rfl⟩

/-- The examined node may be queued as itself or as its representative, and anywhere. -/
theorem Attended.requeue (valid : graph.Valid) {item : Node} {pending more : List Node}
    (attended : Attended profile graph (item :: pending)) (queued : graph.repOf item ∈ more)
    (kept : pending ⊆ more) : Attended profile graph more := by
  refine attended.mono fun other listed => ?_
  obtain rfl | listed := List.mem_cons.mp listed
  · exact ⟨_, queued, valid.repOf_repOf _⟩
  · exact ⟨other, kept listed, rfl⟩

/-- A merge into a node that is pending leaves no other node unattended. -/
theorem Attended.merge (valid : graph.Valid) {pending : List Node}
    (attended : Attended profile graph pending) {member rep : Node} (one : graph.hasNode member)
    (two : graph.hasNode rep) (apart : member ≠ rep)
    (queued : ∃ item ∈ pending, graph.repOf item = rep) :
    Attended profile (graph.merge member rep).1 pending := by
  have root := valid.repOf_live two
  obtain ⟨quotient, repOf⟩ := valid.quotient_merge_live one (root.symm ▸ two)
  rw [root] at repOf
  -- A live node other than the one merged into was itself before.
  have stays : ∀ old, graph.hasNode old → (graph.merge member rep).1.repOf old ≠ rep →
      (graph.merge member rep).1.repOf old = old := by
    intro old there elsewhere
    rw [repOf, valid.repOf_live there] at elsewhere ⊢
    split at elsewhere
    · exact absurd rfl elsewhere
    · next differs => rw [if_neg differs]
  intro node live
  by_cases here : node = rep
  · obtain ⟨item, listed, same⟩ := queued
    exact .inr ⟨item, listed, by rw [repOf, same, if_neg apart.symm, here]⟩
  obtain ⟨old, there, rfl⟩ := (quotient.nodes node).mp live
  have self := stays old there here
  rw [self] at here ⊢
  obtain settled | ⟨item, listed, same⟩ := attended old there
  · left
    intro label first second collapses toFirst toSecond
    have behind : ∀ target, (graph.merge member rep).1.hasEdge ⟨old, target, label⟩ →
        ∃ stop, graph.hasEdge ⟨old, stop, label⟩ ∧ (graph.merge member rep).1.repOf stop = target := by
      intro target edge
      obtain ⟨⟨start, stop, own⟩, stood, equal, -⟩ := (quotient.edges _).mp edge
      obtain ⟨from_, rfl, rfl⟩ := Edge.mk.inj equal
      have same := stays start (valid.hasNode_of_hasEdge stood).1 (by rw [from_]; exact here)
      rw [from_] at same
      exact ⟨stop, same ▸ stood, rfl⟩
    obtain ⟨one, edge, rfl⟩ := behind first toFirst
    obtain ⟨two, edge', rfl⟩ := behind second toSecond
    rw [settled label one two collapses edge edge']
  · refine .inr ⟨item, listed, ?_⟩
    rw [← quotient.absorbs, same, self]

/-! ### Merging the targets of a node -/

/-- What merges come to, each of them into a node that is pending. The flag is set by the first. -/
structure Joins (profile : BracketProfile) (pending : List Node)
    (before after : Multigraph × Bool) : Prop where
  quotient : Quotient before.1 after.1
  attended : Attended profile after.1 pending
  idle : after.2 = false → after = before
  count : after.1.nodeCount ≤ before.1.nodeCount
  fewer : after.2 → before.2 ∨ after.1.nodeCount < before.1.nodeCount

variable {pending : List Node} {before middle after : Multigraph × Bool}

theorem Joins.refl (valid : before.1.Valid) (attended : Attended profile before.1 pending) :
    Joins profile pending before before where
  quotient := Quotient.refl valid
  attended := attended
  idle _ := rfl
  count := Nat.le_refl _
  fewer := .inl

theorem Joins.trans {more : List Node} (first : Joins profile pending before middle)
    (second : Joins profile more middle after) : Joins profile more before after where
  quotient := first.quotient.trans second.quotient
  attended := second.attended
  idle quiet := by
    have same := second.idle quiet
    rw [same] at quiet ⊢
    exact first.idle quiet
  count := Nat.le_trans second.count first.count
  fewer changed := by
    obtain earlier | fewer := second.fewer changed
    · exact (first.fewer earlier).imp_right (Nat.lt_of_le_of_lt second.count)
    · exact .inr (Nat.lt_of_lt_of_le fewer first.count)

theorem Joins.attend {more : List Node} (joins : Joins profile pending before after)
    (attended : Attended profile after.1 more) : Joins profile more before after :=
  { joins with attended }

theorem Joins.live (joins : Joins profile pending before after) {node : Node}
    (live : before.1.hasNode node) : after.1.hasNode (after.1.repOf node) :=
  (joins.quotient.nodes _).mpr ⟨node, live, rfl⟩

/-- One more member of a group is merged, unless it is the first one anyway. -/
theorem Joins.mergeMember (valid : before.1.Valid) (joins : Joins profile pending before after)
    {first member : Node} (queued : first ∈ pending) (one : before.1.hasNode first)
    (two : before.1.hasNode member) :
    Joins profile pending before (mergeMember first after member) ∧
      ((FanOut.mergeMember first after member).2 = false → after.2 = false ∧ member = first) := by
  obtain ⟨graph, changed⟩ := after
  have valid' := joins.quotient.valid
  simp only [FanOut.mergeMember]
  by_cases same : graph.repOf member = graph.repOf first
  · rw [if_pos same]
    refine ⟨joins, fun quiet => ⟨quiet, ?_⟩⟩
    have untouched : graph = before.1 := congrArg Prod.fst (joins.idle quiet)
    rwa [untouched, valid.repOf_live one, valid.repOf_live two] at same
  · rw [if_neg same]
    have rep := joins.live one
    have root := valid'.repOf_live rep
    obtain ⟨quotient, -⟩ := valid'.quotient_merge_live (joins.live two) (root.symm ▸ rep)
    have fewer := valid'.nodeCount_merge_lt (joins.live two) rep same
    refine ⟨joins.trans ⟨quotient, ?_, nofun, Nat.le_of_lt fewer, fun _ => .inr fewer⟩, nofun⟩
    exact joins.attended.merge valid' (joins.live two) rep same ⟨first, queued, rfl⟩

/-- When nothing comes of merging a group, all its members are the first one. -/
theorem Joins.mergeMembers (valid : before.1.Valid) {first : Node} (queued : first ∈ pending)
    (one : before.1.hasNode first) (members : List Node) :
    ∀ {after : Multigraph × Bool}, Joins profile pending before after →
      (∀ member ∈ members, before.1.hasNode member) →
      Joins profile pending before (members.foldl (FanOut.mergeMember first) after) ∧
        ((members.foldl (FanOut.mergeMember first) after).2 = false →
          after.2 = false ∧ ∀ member ∈ members, member = first) := by
  induction members with
  | nil => exact fun joins _ => ⟨joins, fun quiet => ⟨quiet, by simp⟩⟩
  | cons member members ih =>
    intro after joins live
    obtain ⟨here, live⟩ := List.forall_mem_cons.mp live
    obtain ⟨joined, quietly⟩ := joins.mergeMember valid queued one here
    obtain ⟨joined, still⟩ := ih joined live
    refine ⟨joined, fun quiet => ?_⟩
    obtain ⟨earlier, rest⟩ := still quiet
    obtain ⟨start, same⟩ := quietly earlier
    exact ⟨start, List.forall_mem_cons.mpr ⟨same, rest⟩⟩

/-- What merging groups comes to while the node that has them is examined: the node is pending, and as
many nodes more as there were groups may be queued. -/
structure Tends (profile : BracketProfile) (node : Node) (groups : List (Label × Std.TreeSet Node))
    (before after : FanOut × Bool) : Prop where
  joins : Joins profile (node :: after.1.queue.toList) (before.1.graph, before.2)
    (after.1.graph, after.2)
  size : after.1.queue.size ≤ before.1.queue.size + groups.length
  quiet : after.2 = false → after = before ∧ ∀ group ∈ groups, group.2.size < 2

/-- A set of two and more has two elements that differ. -/
theorem toList_of_two {targets : Std.TreeSet Node compare} (large : ¬ targets.size < 2) :
    ∃ one two rest, targets.toList = one :: two :: rest ∧ two ≠ one := by
  have distinct : List.Pairwise _ targets.toList := Std.TreeSet.distinct_toList
  rw [← Std.TreeSet.length_toList] at large
  match targets.toList, large, distinct with
  | one :: two :: rest, _, distinct =>
    refine ⟨one, two, rest, rfl, ?_⟩
    rintro rfl
    exact (List.pairwise_cons.mp distinct).1 two List.mem_cons_self Std.ReflCmp.compare_self
  | [_], large, _ => simp at large
  | [], large, _ => simp at large

/-- A group of one target is left alone. Of two targets or more, two differed from the start, so that
something is merged here or has been merged before. -/
theorem tends_mergeGroup {start : FanOut × Bool} {label : Label} {targets : Std.TreeSet Node compare}
    {origin : Multigraph} (valid : origin.Valid)
    (joins : Joins profile (node :: start.1.queue.toList) (origin, false) (start.1.graph, start.2))
    (live : ∀ target ∈ targets, origin.hasNode target) :
    Tends profile node [(label, targets)] start (mergeGroup node start (label, targets)) := by
  obtain ⟨fan, changed⟩ := start
  have valid' := joins.quotient.valid
  simp only [mergeGroup]
  by_cases small : targets.size < 2
  · rw [if_pos small]
    exact ⟨.refl valid' joins.attended, Nat.le_add_right _ _, fun _ => ⟨rfl, by simpa using small⟩⟩
  rw [if_neg small]
  obtain ⟨one, two, rest, listed, differ⟩ := toList_of_two small
  simp only [← Std.TreeSet.mem_toList, listed, List.forall_mem_cons] at live
  obtain ⟨oneLive, twoLive, restLive⟩ := live
  rw [listed]
  have roots : ∀ member ∈ (two :: rest).map fan.graph.repOf, fan.graph.hasNode member :=
    List.forall_mem_map.mpr (List.forall_mem_cons.mpr
      ⟨joins.live twoLive, fun target inside => joins.live (restLive target inside)⟩)
  have begun : Joins profile (fan.graph.repOf one :: node :: fan.queue.toList) (fan.graph, changed)
      (fan.graph, changed) :=
    .refl valid' (joins.attended.mono fun item inside => ⟨item, List.mem_cons_of_mem _ inside, rfl⟩)
  obtain ⟨joined, quietly⟩ :=
    Joins.mergeMembers valid' List.mem_cons_self (joins.live oneLive) _ begun roots
  have loud : (((two :: rest).map fan.graph.repOf).foldl (mergeMember (fan.graph.repOf one))
      (fan.graph, changed)).2 = true := by
    rw [← Bool.not_eq_false]
    intro quiet
    obtain ⟨unchanged, same⟩ := quietly quiet
    have together := same _ (List.mem_map_of_mem List.mem_cons_self)
    have untouched : fan.graph = origin := congrArg Prod.fst (joins.idle unchanged)
    rw [untouched, valid.repOf_live oneLive, valid.repOf_live twoLive] at together
    exact differ together
  simp only [List.map_cons] at joined loud ⊢
  generalize (fan.graph.repOf two :: rest.map fan.graph.repOf).foldl
    (mergeMember (fan.graph.repOf one)) (fan.graph, changed) = final at joined loud ⊢
  obtain ⟨graph, flag⟩ := final
  refine ⟨joined.attend ?_, ?_, fun quiet => absurd (loud.symm.trans quiet) nofun⟩
  · rw [Queue.toList_push, ← List.cons_append]
    exact joined.attended.requeue joined.quotient.valid
      (List.mem_append_right _ List.mem_cons_self) (List.subset_append_left _ _)
  · simp [← Queue.length_toList]

/-- Merging one group after another. -/
theorem tends_mergeGroups {origin : Multigraph} (valid : origin.Valid)
    (groups : List (Label × Std.TreeSet Node)) : ∀ {start : FanOut × Bool},
    Joins profile (node :: start.1.queue.toList) (origin, false) (start.1.graph, start.2) →
      (∀ group ∈ groups, ∀ target ∈ group.2, origin.hasNode target) →
      Tends profile node groups start (groups.foldl (mergeGroup node) start) := by
  induction groups with
  | nil =>
    exact fun joins _ => ⟨.refl joins.quotient.valid joins.attended, Nat.le_refl _, fun _ => ⟨rfl, by simp⟩⟩
  | cons group groups ih =>
    intro start joins live
    obtain ⟨here, live⟩ := List.forall_mem_cons.mp live
    have first : Tends profile node [group] start (mergeGroup node start group) :=
      tends_mergeGroup valid joins here
    have rest := ih (joins.trans first.joins) live
    refine ⟨first.joins.trans rest.joins, ?_, fun quiet => ?_⟩
    · have one := first.size
      have more := rest.size
      simp only [List.foldl_cons, List.length_cons, List.length_nil] at one more ⊢
      omega
    · obtain ⟨same, small⟩ := rest.quiet quiet
      rw [List.foldl_cons] at quiet ⊢
      rw [same] at quiet ⊢
      obtain ⟨same, fits⟩ := first.quiet quiet
      exact ⟨same, List.forall_mem_cons.mpr ⟨fits group List.mem_cons_self, small⟩⟩

/-! ### Examining the nodes of the queue -/

/-- What one examination does: it takes a node from the queue and, if this still stands for one that is
live, merges its groups. -/
theorem step_cases {fan next : FanOut} (stepped : step profile fan = some next) :
    ∃ queued queue, fan.queue.toList = queued :: Queue.toList queue ∧
      ((fan.graph.vertex? (fan.graph.repOf queued) = none ∧ next = { fan with queue }) ∨
        ∃ vertex after, fan.graph.vertex? (fan.graph.repOf queued) = some vertex ∧
          (targetGroups profile fan.graph vertex).toList.foldl (mergeGroup (fan.graph.repOf queued))
            ({ fan with queue }, false) = after ∧
          next = if after.2 then
              { after.1 with queue := after.1.queue.push (after.1.graph.repOf (fan.graph.repOf queued)) }
            else after.1) := by
  rw [step] at stepped
  cases popped : fan.queue.pop? with
  | none => simp [popped] at stepped
  | some taken =>
    obtain ⟨queued, queue⟩ := taken
    simp only [popped] at stepped
    refine ⟨queued, queue, Queue.toList_of_pop? popped, ?_⟩
    cases found : fan.graph.vertex? (fan.graph.repOf queued) with
    | none =>
      simp only [found, Option.some.injEq] at stepped
      exact .inl ⟨rfl, stepped.symm⟩
    | some vertex =>
      simp only [found, Option.some.injEq] at stepped
      exact .inr ⟨vertex, _, rfl, rfl, stepped.symm⟩

variable {fan next : FanOut}

/-- Where the merging of targets stands. -/
structure Stands (profile : BracketProfile) (start : Multigraph) (fan : FanOut) : Prop where
  quotient : Quotient start fan.graph
  attended : Attended profile fan.graph fan.queue.toList

/-- What each examination lowers: a merge takes a node away for good, and queues no more nodes than there
are labels and the one examined. -/
def remaining (start : Multigraph) (fan : FanOut) : Nat :=
  fan.queue.size + fan.graph.nodeCount * (start.edgeCount + 1)

/-- The examined node is pending while its groups are merged. -/
theorem Stands.joins {start : Multigraph} (stands : Stands profile start fan) {queued : Node}
    {queue : Queue Node} (listed : fan.queue.toList = queued :: queue.toList) :
    Joins profile (fan.graph.repOf queued :: queue.toList) (fan.graph, false) (fan.graph, false) := by
  have valid := stands.quotient.valid
  have attended := stands.attended
  rw [listed] at attended
  exact .refl valid (attended.requeue valid List.mem_cons_self (List.subset_cons_self _ _))

/-- What examining the node taken from the queue comes to. -/
theorem Stands.tends {start : Multigraph} (stands : Stands profile start fan) {queued : Node}
    {queue : Queue Node} (listed : fan.queue.toList = queued :: queue.toList)
    (found : fan.graph.vertex? (fan.graph.repOf queued) = some vertex) :
    Tends profile (fan.graph.repOf queued) (targetGroups profile fan.graph vertex).toList
      ({ fan with queue }, false) ((targetGroups profile fan.graph vertex).toList.foldl
        (mergeGroup (fan.graph.repOf queued)) ({ fan with queue }, false)) := by
  have valid := stands.quotient.valid
  refine tends_mergeGroups valid _ (stands.joins listed) fun group inside target held => ?_
  exact (valid.hasNode_of_hasEdge (hasEdge_of_group valid found inside held).2).2

theorem Stands.step {start : Multigraph} (valid : start.Valid) (stands : Stands profile start fan)
    (stepped : step profile fan = some next) :
    Stands profile start next ∧ remaining start next < remaining start fan := by
  obtain ⟨queued, queue, listed, ⟨found, rfl⟩ | ⟨vertex, ⟨after, changed⟩, found, merged, rfl⟩⟩ :=
    step_cases stepped
  all_goals
    have attended := stands.attended
    rw [listed] at attended
    have shorter : queue.size + 1 = fan.queue.size := by
      rw [← Queue.length_toList, ← Queue.length_toList, listed, List.length_cons]
  · refine ⟨⟨stands.quotient, attended.drop fun live => ?_⟩, by simp only [remaining]; omega⟩
    obtain ⟨vertex, there⟩ := (fan.graph.hasNode_iff _).mp live
    rw [Multigraph.vertex?, there] at found
    cases found
  have tends := stands.tends listed found
  rw [merged] at tends
  cases changed with
  | false =>
    obtain ⟨same, small⟩ := tends.quiet rfl
    obtain rfl : after = { fan with queue } := congrArg Prod.fst same
    simp only [Bool.false_eq_true, if_false]
    refine ⟨⟨stands.quotient, attended.drop fun _ => ?_⟩, by simp only [remaining]; omega⟩
    exact settled_of_small stands.quotient.valid found small
  | true =>
    simp only [if_true]
    refine ⟨⟨stands.quotient.trans tends.joins.quotient, ?_⟩, ?_⟩
    · rw [Queue.toList_push]
      exact tends.joins.attended.requeue tends.joins.quotient.valid
        (List.mem_append_right _ List.mem_cons_self) (List.subset_append_left _ _)
    · have fewer : after.graph.nodeCount < fan.graph.nodeCount :=
        (tends.joins.fewer rfl).resolve_left Bool.false_ne_true
      have weight := Nat.mul_le_mul_right (start.edgeCount + 1) (Nat.succ_le_of_lt fewer)
      rw [Nat.succ_mul] at weight
      have groups : (targetGroups profile fan.graph vertex).toList.length ≤ start.edgeCount :=
        length_targetGroups_le valid stands.quotient found
      have size := tends.size
      have pushed : (after.queue.push (after.graph.repOf (fan.graph.repOf queued))).size =
          after.queue.size + 1 := by simp [← Queue.length_toList]
      simp only [remaining] at size ⊢
      omega

theorem stands_start {graph : Multigraph} (valid : graph.Valid) :
    Stands profile graph { graph, queue := .ofList graph.nodes } where
  quotient := Quotient.refl valid
  attended node live := by
    refine .inr ⟨node, ?_, valid.repOf_live live⟩
    rw [Queue.toList_ofList, Multigraph.mem_nodes]
    exact live

theorem toList_of_step_eq_none (halted : step profile fan = none) : fan.queue.toList = [] := by
  refine Queue.toList_of_pop?_eq_none ?_
  rw [step] at halted
  split at halted
  · assumption
  · dsimp only at halted
    split at halted <;> cases halted

theorem step_eq_none (empty : fan.queue.toList = []) : step profile fan = none := by
  rw [Option.eq_none_iff_forall_ne_some]
  intro next stepped
  obtain ⟨queued, queue, listed, -⟩ := step_cases stepped
  rw [empty] at listed
  cases listed

theorem step_run_eq_none {graph : Multigraph} (valid : graph.Valid) :
    step profile (run profile graph) = none := by
  refine Loop.step_run_eq_none (remaining graph) (fun fan next stands => stands.step valid) _ _
    (stands_start valid) ?_
  have size : (Queue.ofList graph.nodes).size = graph.nodeCount := by
    rw [← Queue.length_toList, Queue.toList_ofList, Multigraph.length_nodes]
  have expand : graph.nodeCount * (graph.edgeCount + 2) =
      graph.nodeCount * (graph.edgeCount + 1) + graph.nodeCount := Nat.mul_succ _ _
  simp only [remaining, bound, size, Nat.succ_mul]
  omega

/-- At the end no node has two targets under one label. -/
theorem settled_run {graph : Multigraph} (valid : graph.Valid) :
    Quotient graph (run profile graph).graph ∧ ∀ node, Settled profile (run profile graph).graph node := by
  have stands : Stands profile graph (run profile graph) :=
    Loop.run_induction (fun fan next stands stepped => (stands.step valid stepped).1) _ _
      (stands_start valid)
  have empty : (run profile graph).queue.toList = [] := toList_of_step_eq_none (step_run_eq_none valid)
  refine ⟨stands.quotient, fun node label one two collapses first second => ?_⟩
  have live := (stands.quotient.valid.hasNode_of_hasEdge first).1
  obtain settled | ⟨item, listed, -⟩ := stands.attended node live
  · exact settled label one two collapses first second
  · simp [empty] at listed

end FanOut

end GrammarReach
