import Mathlib.Logic.Relation
import GrammarReach.Proofs.Simplify.FanOut

namespace GrammarReach.FanOut

open Multigraph (Quotient)
open Relation (EqvGen)

variable {profile : BracketProfile} {node : Node} {fan next : FanOut}

/-- A node stands for an anchor with the given label. -/
def Found (fan : FanOut) (node : Node) (label : Label) : Prop :=
  ∃ anchor, label ∈ fan.anchors.getD anchor ∅ ∧ fan.graph.repOf anchor = node

/-- Two nodes are targets, under one label, of nodes that are near each other and stand for an anchor
with this label. -/
def Meets (profile : BracketProfile) (start : Multigraph) (near : Node → Node → Prop) (fan : FanOut)
    (one two : Node) : Prop :=
  ∃ first second label, start.hasEdge ⟨first, one, label⟩ ∧ start.hasEdge ⟨second, two, label⟩ ∧
    profile.collapses label.symbol ∧ near first second ∧ fan.Found (fan.graph.repOf first) label

/-- Being near is an equivalence that goes from nodes to their targets under one label. -/
structure Congruent (profile : BracketProfile) (start : Multigraph) (near : Node → Node → Prop) :
    Prop where
  equivalence : Equivalence near
  matched : ∀ {first second one two label}, start.hasEdge ⟨first, one, label⟩ →
    start.hasEdge ⟨second, two, label⟩ → profile.collapses label.symbol → near first second → near one two

/-- Nodes that stand together got there step by step, each step between targets at an anchor. -/
def Grounded (profile : BracketProfile) (start : Multigraph) (near : Node → Node → Prop)
    (fan : FanOut) : Prop :=
  ∀ one two, start.hasNode one → start.hasNode two → fan.graph.repOf one = fan.graph.repOf two →
    EqvGen (Meets profile start near fan) one two

variable {start : Multigraph} {near : Node → Node → Prop}

/-- Later stages keep the anchors and what stands together. -/
theorem Meets.mono (absorbs : ∀ node, next.graph.repOf (fan.graph.repOf node) = next.graph.repOf node)
    (anchors : ∀ anchor label, label ∈ fan.anchors.getD anchor ∅ → label ∈ next.anchors.getD anchor ∅)
    {one two : Node} (meets : Meets profile start near fan one two) :
    Meets profile start near next one two := by
  obtain ⟨first, second, label, toOne, toTwo, collapses, close, anchor, listed, same⟩ := meets
  refine ⟨first, second, label, toOne, toTwo, collapses, close, anchor, anchors anchor label listed, ?_⟩
  rw [← absorbs anchor, same, absorbs]

theorem Grounded.close (grounded : Grounded profile start near fan)
    (congruent : Congruent profile start near) {one two : Node} (here : start.hasNode one)
    (there : start.hasNode two) (same : fan.graph.repOf one = fan.graph.repOf two) : near one two := by
  refine congruent.equivalence.eqvGen_iff.mp (EqvGen.mono ?_ one two (grounded one two here there same))
  rintro one two ⟨first, second, label, toOne, toTwo, collapses, close, -⟩
  exact congruent.matched toOne toTwo collapses close

theorem repOf_mergeMember {state : Multigraph × Bool} (valid : state.1.Valid) {first member : Node}
    (one : state.1.hasNode (state.1.repOf first)) (two : state.1.hasNode (state.1.repOf member)) :
    Quotient state.1 (mergeMember first state member).1 ∧ ∀ node,
      (mergeMember first state member).1.repOf node =
        if state.1.repOf node = state.1.repOf member then state.1.repOf first
        else state.1.repOf node := by
  obtain ⟨graph, changed⟩ := state
  simp only [mergeMember] at one two ⊢
  by_cases same : graph.repOf member = graph.repOf first
  · rw [if_pos same]
    refine ⟨.refl valid, fun node => ?_⟩
    rw [← same]
    split <;> simp_all
  · rw [if_neg same]
    have root := valid.repOf_repOf first
    obtain ⟨quotient, repOf⟩ := valid.quotient_merge_live two (root.symm ▸ one)
    rw [root] at repOf
    exact ⟨quotient, repOf⟩

/-- Merging members joins members only. -/
theorem joined_mergeMembers {before : Multigraph × Bool} (valid : before.1.Valid) {first : Node}
    {members : List Node} (live : ∀ member ∈ first :: members, before.1.hasNode member) :
    let after := members.foldl (mergeMember first) before
    Quotient before.1 after.1 ∧ ∀ one two, after.1.repOf one = after.1.repOf two →
      before.1.repOf one = before.1.repOf two ∨
        (before.1.repOf one ∈ first :: members ∧ before.1.repOf two ∈ first :: members) := by
  refine List.foldlRecOn (motive := fun after : Multigraph × Bool => Quotient before.1 after.1 ∧
    ∀ one two, after.1.repOf one = after.1.repOf two → before.1.repOf one = before.1.repOf two ∨
      (before.1.repOf one ∈ first :: members ∧ before.1.repOf two ∈ first :: members))
    members _ ⟨.refl valid, fun one two same => .inl same⟩ ?_
  rintro after ⟨quotient, joined⟩ member listed
  have alive : ∀ node ∈ first :: members, after.1.hasNode (after.1.repOf node) := fun node inside =>
    (quotient.nodes _).mpr ⟨node, live node inside, rfl⟩
  have inside := List.mem_cons_of_mem first listed
  obtain ⟨step, repOf⟩ := repOf_mergeMember quotient.valid (alive first List.mem_cons_self)
    (alive member inside)
  refine ⟨quotient.trans step, fun one two same => ?_⟩
  -- What stood with a member stood for a member.
  have among : ∀ root ∈ first :: members, ∀ node, after.1.repOf node = after.1.repOf root →
      before.1.repOf node ∈ first :: members := by
    intro root inside node same
    obtain here | ⟨here, -⟩ := joined node root same
    · rwa [here, valid.repOf_live (live root inside)]
    · exact here
  rw [repOf, repOf] at same
  split at same <;> split at same
  · next one two => exact joined _ _ (one.trans two.symm)
  · next one two => exact .inr ⟨among member inside _ one, among first List.mem_cons_self _ same.symm⟩
  · next one two => exact .inr ⟨among first List.mem_cons_self _ same, among member inside _ two⟩
  · exact joined _ _ same

/-- Where a stage joins targets of a node only, under one label, and the node is an anchor for it, what
stands together is still grounded. -/
private theorem Grounded.join {origin : Multigraph} (valid : start.Valid)
    (congruent : Congruent profile start near) (grounded : Grounded profile start near fan)
    (quotient : Quotient start origin) (merges : Quotient origin fan.graph)
    (last : Quotient fan.graph next.graph)
    (anchors : ∀ anchor label, label ∈ fan.anchors.getD anchor ∅ → label ∈ next.anchors.getD anchor ∅)
    {label : Label} (collapses : profile.collapses label.symbol)
    (found : label ∈ next.anchors.getD node ∅) {targets : List Node}
    (edges : ∀ target ∈ targets, origin.hasEdge ⟨node, target, label⟩)
    (joined : ∀ one two, next.graph.repOf one = next.graph.repOf two →
      fan.graph.repOf one = fan.graph.repOf two ∨
        (fan.graph.repOf one ∈ targets.map fan.graph.repOf ∧
          fan.graph.repOf two ∈ targets.map fan.graph.repOf)) :
    Grounded profile start near next := by
  have keep : ∀ one two, start.hasNode one → start.hasNode two →
      fan.graph.repOf one = fan.graph.repOf two → EqvGen (Meets profile start near next) one two :=
    fun one two here there same =>
      EqvGen.mono (fun _ _ => Meets.mono last.absorbs anchors) one two (grounded one two here there same)
  -- Behind each target stands one at the start, of a node that stands for the anchor.
  have behind : ∀ other, fan.graph.repOf other ∈ targets.map fan.graph.repOf →
      ∃ base target, start.hasEdge ⟨base, target, label⟩ ∧ origin.repOf base = node ∧
        fan.graph.repOf target = fan.graph.repOf other := by
    intro other inside
    obtain ⟨target, inside, same⟩ := List.mem_map.mp inside
    obtain ⟨⟨base, stop, own⟩, stood, equal, -⟩ := (quotient.edges _).mp (edges target inside)
    obtain ⟨atBase, rfl, rfl⟩ := Edge.mk.inj equal
    exact ⟨base, stop, stood, atBase, (merges.absorbs stop).symm.trans same⟩
  intro one two here there same
  obtain apart | ⟨atOne, atTwo⟩ := joined one two same
  · exact keep one two here there apart
  · obtain ⟨base, target, edge, atBase, sameOne⟩ := behind one atOne
    obtain ⟨other, target', edge', atOther, sameTwo⟩ := behind two atTwo
    have ends := valid.hasNode_of_hasEdge edge
    have ends' := valid.hasNode_of_hasEdge edge'
    have close : near base other := by
      refine grounded.close congruent ends.1 ends'.1 ?_
      rw [← merges.absorbs base, atBase, ← atOther, merges.absorbs]
    have anchored : next.Found (next.graph.repOf base) label :=
      ⟨node, found, by rw [← (merges.trans last).absorbs base, atBase]⟩
    have meets : Meets profile start near next target target' :=
      ⟨base, other, label, edge, edge', collapses, close, anchored⟩
    exact .trans _ _ _ (keep one target here ends.2 sameOne.symm)
      (.trans _ _ _ (.rel _ _ meets) (keep target' two ends'.2 there sameTwo))

/-- Merging a group keeps what stands together grounded: the node under examination is an anchor. -/
private theorem Grounded.mergeGroup {origin : Multigraph} (valid : start.Valid)
    (congruent : Congruent profile start near) {state : FanOut × Bool}
    (grounded : Grounded profile start near state.1) (quotient : Quotient start origin)
    (merges : Quotient origin state.1.graph) {label : Label} {targets : Std.TreeSet Node compare}
    (edges : ∀ target ∈ targets, profile.collapses label.symbol ∧ origin.hasEdge ⟨node, target, label⟩) :
    Grounded profile start near (FanOut.mergeGroup node state (label, targets)).1 := by
  obtain ⟨fan, changed⟩ := state
  simp only [FanOut.mergeGroup]
  by_cases small : targets.size < 2
  · rwa [if_pos small]
  rw [if_neg small]
  obtain ⟨first, second, rest, listed, -⟩ := toList_of_two small
  simp only [← Std.TreeSet.mem_toList, listed] at edges
  simp only [listed, List.map_cons]
  have alive : ∀ member ∈ (first :: second :: rest).map fan.graph.repOf, fan.graph.hasNode member :=
    List.forall_mem_map.mpr fun target inside => (merges.nodes _).mpr
      ⟨target, (quotient.valid.hasNode_of_hasEdge (edges target inside).2).2, rfl⟩
  obtain ⟨last, joined⟩ :=
    joined_mergeMembers (show (fan.graph, changed).1.Valid from merges.valid) alive
  simp only [List.map_cons] at last joined
  generalize (fan.graph.repOf second :: rest.map fan.graph.repOf).foldl
    (mergeMember (fan.graph.repOf first)) (fan.graph, changed) = final at last joined ⊢
  refine grounded.join valid congruent quotient merges last (fun anchor other held => ?_)
    (edges first List.mem_cons_self).1 ?_ (fun target inside => (edges target inside).2) joined
  · simp only [Std.TreeMap.getD_insert, Std.LawfulEqCmp.compare_eq_iff_eq]
    split
    · next same => exact Std.TreeSet.mem_insert.mpr (.inr (same ▸ held))
    · exact held
  · simp

private theorem Grounded.mergeGroups {origin : Multigraph} (valid : start.Valid)
    (congruent : Congruent profile start near) {state : FanOut × Bool}
    (grounded : Grounded profile start near state.1) (quotient : Quotient start origin)
    (joins : Joins profile (node :: state.1.queue.toList) (origin, false) (state.1.graph, state.2))
    {groups : List (Label × Std.TreeSet Node)} (edges : ∀ group ∈ groups, ∀ target ∈ group.2,
      profile.collapses group.1.symbol ∧ origin.hasEdge ⟨node, target, group.1⟩) :
    Grounded profile start near (groups.foldl (FanOut.mergeGroup node) state).1 := by
  refine (List.foldlRecOn (motive := fun state : FanOut × Bool =>
    Joins profile (node :: state.1.queue.toList) (origin, false) (state.1.graph, state.2) ∧
      Grounded profile start near state.1) groups _ ⟨joins, grounded⟩ ?_).2
  rintro state ⟨joins, grounded⟩ ⟨label, targets⟩ inside
  have tends : Tends profile node [(label, targets)] state (FanOut.mergeGroup node state (label, targets)) :=
    tends_mergeGroup quotient.valid joins fun target held =>
      (quotient.valid.hasNode_of_hasEdge (edges _ inside target held).2).2
  exact ⟨joins.trans tends.joins,
    grounded.mergeGroup valid congruent quotient joins.quotient (edges _ inside)⟩

private theorem Grounded.step (valid : start.Valid) (congruent : Congruent profile start near)
    (stands : Stands profile start fan) (grounded : Grounded profile start near fan)
    (stepped : step profile fan = some next) : Grounded profile start near next := by
  obtain ⟨queued, queue, listed, ⟨found, rfl⟩ | ⟨vertex, ⟨after, changed⟩, found, merged, rfl⟩⟩ :=
    step_cases stepped
  · exact grounded
  have grounded' : Grounded profile start near after := by
    have begun : Grounded profile start near ({ fan with queue }, false).1 := grounded
    have whole := begun.mergeGroups valid congruent stands.quotient (stands.joins listed)
      fun group inside target held => hasEdge_of_group stands.quotient.valid found inside held
    rwa [merged] at whole
  cases changed <;> exact grounded'

/-- At the end, what stands together got there by steps between targets at anchors. -/
theorem grounded_run {graph : Multigraph} (valid : graph.Valid) (congruent : Congruent profile graph near) :
    Grounded profile graph near (run profile graph) := by
  refine (Loop.run_induction (motive := fun fan => Stands profile graph fan ∧ Grounded profile graph near fan)
    (fun fan next both stepped => ⟨(both.1.step valid stepped).1,
      both.2.step valid congruent both.1 stepped⟩) _ _ ⟨stands_start valid, ?_⟩).2
  intro one two here there same
  rw [valid.repOf_live here, valid.repOf_live there] at same
  rw [same]
  exact .refl _

end GrammarReach.FanOut
