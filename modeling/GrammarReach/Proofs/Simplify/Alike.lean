import GrammarReach.Proofs.Components
import GrammarReach.Proofs.Simplify.Brackets

namespace GrammarReach

namespace Multigraph

/-- Two graphs with the same live nodes, the same representatives and the same direct kinds. -/
structure Alike (one two : Multigraph) : Prop where
  first : one.Valid
  second : two.Valid
  kinds : two.directKinds = one.directKinds
  repOf : ∀ node, two.repOf node = one.repOf node
  nodes : ∀ node, two.hasNode node = one.hasNode node

variable {one two : Multigraph} {profile : BracketProfile}

theorem Alike.represented (alike : Alike one two) (edge : Edge) :
    two.represented edge = one.represented edge := by
  rw [Multigraph.represented, Multigraph.represented, alike.repOf, alike.repOf]

theorem Alike.isDirect (alike : Alike one two) (kind : Kind) : two.isDirect kind = one.isDirect kind := by
  rw [Multigraph.isDirect, Multigraph.isDirect, alike.kinds]

/-- Where nodes stand for one another alike, a merge does the same to them. -/
theorem Alike.merge (alike : Alike one two) (node target : Node) :
    Alike (one.merge node target).1 (two.merge node target).1 := by
  by_cases idle : one.hasNode node = false ∨ node = one.repOf target
  · have idle' := idle
    rw [← alike.nodes, ← alike.repOf] at idle'
    rwa [merge_of_same idle, merge_of_same idle']
  · have busy := idle
    rw [← alike.nodes, ← alike.repOf] at busy
    rw [not_or, Bool.not_eq_false] at idle busy
    obtain ⟨quotient, repOf⟩ := alike.first.quotient_merge idle.1 idle.2
    obtain ⟨quotient', repOf'⟩ := alike.second.quotient_merge busy.1 busy.2
    have same : ∀ other, (two.merge node target).1.repOf other = (one.merge node target).1.repOf other := by
      intro other
      rw [repOf, repOf', alike.repOf, alike.repOf]
    exact
      { first := quotient.valid
        second := quotient'.valid
        kinds := quotient'.kinds.trans (alike.kinds.trans quotient.kinds.symm)
        repOf := same
        nodes := fun other => by
          rw [Bool.eq_iff_iff, quotient.nodes, quotient'.nodes]
          refine exists_congr fun old => and_congr ?_ (by rw [same])
          rw [hasNode_addNode, hasNode_addNode, alike.nodes, alike.repOf] }

/-- Contracting direct edges goes the same where they are the same. -/
theorem Alike.contractDirect (alike : Alike one two) (pairs : two.directPairs = one.directPairs) :
    Alike one.contractDirect two.contractDirect := by
  have general : ∀ (pairs : List (Node × Node)) {one two : Multigraph}, Alike one two →
      Alike (pairs.foldl (fun graph pair => (graph.merge (graph.repOf pair.2) (graph.repOf pair.1)).1) one)
        (pairs.foldl (fun graph pair => (graph.merge (graph.repOf pair.2) (graph.repOf pair.1)).1) two) := by
    intro pairs
    induction pairs with
    | nil => exact id
    | cons pair pairs ih =>
      intro one two alike
      simp only [List.foldl_cons, alike.repOf]
      exact ih (alike.merge _ _)
  rw [Multigraph.contractDirect, Multigraph.contractDirect, pairs]
  exact general _ alike

theorem Alike.flipEdges (alike : Alike one two) (suits : profile.Suits one) :
    Alike (one.flipEdges profile) (two.flipEdges profile) := by
  have first := alike.first.flipEdges suits
  have second := alike.second.flipEdges (suits.of_same alike.kinds)
  have repOf : ∀ {before after : Multigraph}, Oriented profile before after →
      ∀ node, after.repOf node = before.repOf node := fun oriented node => by
    rw [Multigraph.repOf, oriented.merged, Multigraph.repOf]
  exact
    { first := first.valid
      second := second.valid
      kinds := by rw [second.kinds, alike.kinds, first.kinds]
      repOf := fun node => by rw [repOf second, alike.repOf, repOf first]
      nodes := fun node => by rw [Bool.eq_iff_iff, second.nodes, first.nodes, alike.nodes] }

/-- Graphs that are alike list the same nodes. -/
theorem Alike.nodes_eq (alike : Alike one two) : two.nodes = one.nodes := by
  have ascending : ∀ graph : Multigraph, graph.nodes.Pairwise (· < ·) := fun graph =>
    Std.TreeMap.ordered_keys.imp Nat.compare_eq_lt.mp
  refine Components.eq_of_ascending (ascending two) (ascending one) fun node => ?_
  rw [mem_nodes, mem_nodes, alike.nodes]

end Multigraph

namespace FanOut

open Multigraph (Alike)

variable {profile : BracketProfile} {one two : FanOut} {before other : FanOut × Bool}

/-- The groups of two targets and more. -/
def wide (groups : List (Label × Std.TreeSet Node)) : List (Label × List Node) :=
  groups.filterMap fun group => if group.2.size < 2 then none else some (group.1, group.2.toList)

/-- Merges the targets of a group, whatever their number. -/
def mergeTargets (anchor : Node) (state : FanOut × Bool) (group : Label × List Node) : FanOut × Bool :=
  let (fan, changed) := state
  let (label, targets) := group
  let anchors := fan.anchors.insert anchor ((fan.anchors.getD anchor ∅).insert label)
  match targets.map fan.graph.repOf with
  | [] => ({ fan with anchors }, changed)
  | first :: rest =>
    let (graph, changed) := rest.foldl (mergeMember first) (fan.graph, changed)
    ({ graph, anchors, queue := fan.queue.push (graph.repOf first) }, changed)

/-- Only the groups of two targets and more count. -/
theorem foldl_mergeGroup (anchor : Node) (groups : List (Label × Std.TreeSet Node)) (state : FanOut × Bool) :
    groups.foldl (mergeGroup anchor) state = (wide groups).foldl (mergeTargets anchor) state := by
  induction groups generalizing state with
  | nil => rfl
  | cons group groups ih =>
    obtain ⟨label, targets⟩ := group
    obtain ⟨fan, changed⟩ := state
    rw [List.foldl_cons, ih]
    by_cases small : targets.size < 2
    · simp only [mergeGroup, wide, List.filterMap_cons, if_pos small]
    · simp only [mergeGroup, wide, List.filterMap_cons, if_neg small, List.foldl_cons]
      rfl

/-- The groups of two targets and more, as far as targets under a label are concerned. -/
private theorem wide_eq (groups : Std.TreeMap Label (Std.TreeSet Node)) :
    wide groups.toList =
      (groups.filterMap fun _ targets => if targets.size < 2 then none else some targets.toList).toList := by
  rw [Std.TreeMap.toList_filterMap, wide]
  congr 1
  funext group
  split <;> rfl

private theorem getElem?_wide (groups : Std.TreeMap Label (Std.TreeSet Node)) (label : Label) :
    (groups.filterMap fun _ targets => if targets.size < 2 then none else some targets.toList)[label]? =
      if (groups.getD label ∅).size < 2 then none else some (groups.getD label ∅).toList := by
  rw [Std.TreeMap.getElem?_filterMap', Std.TreeMap.getD_eq_getD_getElem?]
  cases groups[label]? <;> rfl

/-- Groups of two targets and more are the same when those of the first kind come again and no target is
new. -/
theorem wide_congr {groups others : Std.TreeMap Label (Std.TreeSet Node)}
    (fewer : ∀ label, ∀ target ∈ others.getD label ∅, target ∈ groups.getD label ∅)
    (again : ∀ label, ¬ (groups.getD label ∅).size < 2 →
      ∀ target ∈ groups.getD label ∅, target ∈ others.getD label ∅) :
    wide others.toList = wide groups.toList := by
  rw [wide_eq, wide_eq]
  refine (Std.TreeMap.Equiv.of_forall_constGet?_eq fun label => ?_).toList_eq
  rw [getElem?_wide, getElem?_wide]
  by_cases small : (groups.getD label ∅).size < 2
  · have distinct : (others.getD label ∅).toList.Nodup :=
      Std.TreeSet.distinct_toList.imp fun apart same => apart (Std.LawfulEqCmp.compare_eq_iff_eq.mpr same)
    have within : (others.getD label ∅).toList ⊆ (groups.getD label ∅).toList := fun target listed =>
      Std.TreeSet.mem_toList.mpr (fewer label target (Std.TreeSet.mem_toList.mp listed))
    have bound := distinct.length_le_of_subset within
    rw [Std.TreeSet.length_toList, Std.TreeSet.length_toList] at bound
    rw [if_pos small, if_pos (Nat.lt_of_le_of_lt bound small)]
  · have same : (others.getD label ∅).Equiv (groups.getD label ∅) :=
      Std.TreeSet.Equiv.of_forall_mem_iff fun target => ⟨fewer label target, again label small target⟩
    rw [same.size_eq, same.toList_eq]

theorem mem_wide {groups : Std.TreeMap Label (Std.TreeSet Node)} {label : Label}
    (large : ¬ (groups.getD label ∅).size < 2) :
    (label, (groups.getD label ∅).toList) ∈ wide groups.toList := by
  rw [wide_eq, Std.TreeMap.mem_toList_iff_getElem?_eq_some, getElem?_wide, if_neg large]

/-- Two stages of merging at which nodes stand for one another alike, with the same anchors and the same
nodes to examine. -/
structure Alike (one two : FanOut) : Prop where
  graph : one.graph.Alike two.graph
  anchors : two.anchors = one.anchors
  queue : two.queue.toList = one.queue.toList

private theorem alike_mergeMembers (first : Node) (members : List Node) :
    ∀ {before other : Multigraph × Bool}, before.1.Alike other.1 → other.2 = before.2 →
      (members.foldl (mergeMember first) before).1.Alike (members.foldl (mergeMember first) other).1 ∧
        (members.foldl (mergeMember first) other).2 = (members.foldl (mergeMember first) before).2 := by
  induction members with
  | nil => exact fun alike flags => ⟨alike, flags⟩
  | cons member members ih =>
    rintro ⟨one, changed⟩ ⟨two, _⟩ alike rfl
    rw [List.foldl_cons, List.foldl_cons]
    simp only [mergeMember, alike.repOf]
    split
    · exact ih alike rfl
    · exact ih (alike.merge _ _) rfl

private theorem Alike.mergeTargets (alike : Alike before.1 other.1) (flags : other.2 = before.2) (anchor : Node)
    (group : Label × List Node) :
    Alike (mergeTargets anchor before group).1 (mergeTargets anchor other group).1 ∧
      (FanOut.mergeTargets anchor other group).2 = (FanOut.mergeTargets anchor before group).2 := by
  obtain ⟨one, _⟩ := before
  obtain ⟨two, changed⟩ := other
  obtain ⟨label, targets⟩ := group
  obtain rfl := flags
  obtain ⟨graph, anchors, queue⟩ := alike
  have roots : targets.map two.graph.repOf = targets.map one.graph.repOf :=
    List.map_congr_left fun target _ => graph.repOf target
  dsimp only at graph anchors queue
  simp only [FanOut.mergeTargets, roots, anchors]
  cases targets.map one.graph.repOf with
  | nil => exact ⟨⟨graph, rfl, queue⟩, rfl⟩
  | cons first rest =>
    obtain ⟨joined, flags⟩ :=
      alike_mergeMembers first rest (show (one.graph, changed).1.Alike (two.graph, changed).1 from graph) rfl
    refine ⟨⟨joined, rfl, ?_⟩, flags⟩
    simp only [Queue.toList_push, joined.repOf, queue]

theorem Alike.mergeGroups (anchor : Node) (groups : List (Label × List Node)) :
    ∀ {before other : FanOut × Bool}, Alike before.1 other.1 → other.2 = before.2 →
      Alike (groups.foldl (FanOut.mergeTargets anchor) before).1
          (groups.foldl (FanOut.mergeTargets anchor) other).1 ∧
        (groups.foldl (FanOut.mergeTargets anchor) other).2 =
          (groups.foldl (FanOut.mergeTargets anchor) before).2 := by
  induction groups with
  | nil => exact fun alike flags => ⟨alike, flags⟩
  | cons group groups ih =>
    intro before other alike flags
    obtain ⟨alike, flags⟩ := alike.mergeTargets flags anchor group
    exact ih alike flags

private theorem mem_anchors_mergeTargets (anchor node : Node) (state : FanOut × Bool)
    (group : Label × List Node)
    (label : Label) : label ∈ (mergeTargets anchor state group).1.anchors.getD node ∅ ↔
      label ∈ state.1.anchors.getD node ∅ ∨ (anchor = node ∧ group.1 = label) := by
  have inserted : (mergeTargets anchor state group).1.anchors =
      state.1.anchors.insert anchor ((state.1.anchors.getD anchor ∅).insert group.1) := by
    rw [mergeTargets]
    dsimp only
    split <;> rfl
  rw [inserted, Std.TreeMap.getD_insert]
  split
  · next same =>
    obtain rfl := Std.LawfulEqCmp.compare_eq_iff_eq.mp same
    rw [Std.TreeSet.mem_insert, Std.LawfulEqCmp.compare_eq_iff_eq, or_comm]
    simp
  · next differs =>
    rw [Std.LawfulEqCmp.compare_eq_iff_eq] at differs
    simp [differs]

/-- The node under examination becomes an anchor for the labels of its groups, and no other is found. -/
theorem mem_anchors_mergeGroups (anchor node : Node) (groups : List (Label × List Node)) (label : Label) :
    ∀ state : FanOut × Bool, label ∈ (groups.foldl (mergeTargets anchor) state).1.anchors.getD node ∅ ↔
      label ∈ state.1.anchors.getD node ∅ ∨ (anchor = node ∧ ∃ group ∈ groups, group.1 = label) := by
  induction groups with
  | nil => simp
  | cons group groups ih =>
    intro state
    rw [List.foldl_cons, ih, mem_anchors_mergeTargets, List.exists_mem_cons_iff, and_or_left, or_assoc]

end FanOut

end GrammarReach
