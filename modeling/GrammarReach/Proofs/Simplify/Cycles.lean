import GrammarReach.Simplify.Cycles
import GrammarReach.Proofs.Components
import GrammarReach.Proofs.Simplify.Collapse

namespace GrammarReach.Multigraph

open Relation (ReflTransGen)

def Mutual (graph : Multigraph) (first second : Node) : Prop :=
  graph.Leads first second ∧ graph.Leads second first

variable {graph before middle : Multigraph} {first second third : Node}

theorem Mutual.refl (node : Node) : graph.Mutual node node := ⟨.refl, .refl⟩

theorem Mutual.symm (both : graph.Mutual first second) : graph.Mutual second first :=
  ⟨both.2, both.1⟩

theorem Mutual.trans (one : graph.Mutual first second) (two : graph.Mutual second third) :
    graph.Mutual first third :=
  ⟨one.1.trans two.1, two.2.trans one.2⟩

theorem Valid.mutual_iff (valid : graph.Valid) (first second : Node) :
    Components.Mutual graph.directPairs first second ↔ graph.Mutual first second := by
  have same : (fun src dst => (src, dst) ∈ graph.directPairs) = graph.Straight := by
    funext src dst
    exact propext (valid.mem_directPairs src dst)
  rw [Components.Mutual, same]
  rfl

/-- Whether a node is the least of those that direct edges lead to and back from. -/
def Heads (graph : Multigraph) (node : Node) : Prop :=
  graph.hasNode node ∧ ∀ other, graph.Mutual node other → node ≤ other

theorem Heads.eq (one : graph.Heads first) (two : graph.Heads second) (both : graph.Mutual first second) :
    first = second :=
  Nat.le_antisymm (one.2 second both) (two.2 first both.symm)

theorem Valid.hasNode_of_mutual (valid : graph.Valid) (live : graph.hasNode first)
    (both : graph.Mutual first second) : graph.hasNode second :=
  valid.hasNode_of_leads both.2 live

/-- The first node of a listed cycle is the least of its class. -/
theorem Valid.heads_of_mem_cycles (valid : graph.Valid) {rep : Node} {members : List Node}
    (listed : rep :: members ∈ (Components.ofEdges graph.directPairs).cycles) :
    graph.Heads rep ∧ ∀ member ∈ members, graph.Mutual rep member := by
  have cycles := Components.listsCycles_ofEdges graph.directPairs
  have ascending := cycles.ascending listed
  have inner : ∀ other, other ∈ rep :: members ↔ graph.Mutual rep other := fun other =>
    (cycles.mem listed List.mem_cons_self other).trans (valid.mutual_iff rep other)
  refine ⟨⟨?_, fun other both => ?_⟩, fun member inside => (inner member).mp (List.mem_cons_of_mem _ inside)⟩
  · obtain ⟨other, inside, apart⟩ :=
      Components.exists_ne_of_long ascending ((cycles.mem_iff _).mp listed).2.1 rep
    obtain same | ⟨next, straight, -⟩ := ((inner other).mp inside).1.cases_head
    · exact absurd same.symm apart
    · exact (valid.hasNode_of_straight straight).1
  · obtain rfl | later := List.mem_cons.mp ((inner other).mpr both)
    · exact Nat.le_refl _
    · exact Nat.le_of_lt ((List.pairwise_cons.mp ascending).1 other later)

/-- Where merging cycles stands once the nodes that are done stand under the least of their classes.
A node that is the least of its class has not been merged. -/
private structure Merging (before : Multigraph) (done : Node → Prop) (state : Multigraph × Nat) : Prop where
  collapse : Collapse before.Mutual before state.1
  fixed : ∀ node, before.Heads node → state.1.repOf node = node
  headed : ∀ node, done node → before.Heads (state.1.repOf node)
  count : state.1.nodeCount + state.2 = before.nodeCount

private theorem Merging.member (valid : before.Valid) {done : Node → Prop} {state : Multigraph × Nat}
    (merging : Merging before done state) {rep member : Node} (head : before.Heads rep)
    (bond : before.Mutual rep member) :
    Merging before (fun node => node = member ∨ done node)
      ((state.1.merge (state.1.repOf member) rep).1,
        if (state.1.merge (state.1.repOf member) rep).2 then state.2 + 1 else state.2) := by
  have collapse := merging.collapse
  have two := valid.hasNode_of_mutual head.1 bond
  have stays := merging.fixed rep head
  have tied := collapse.tied member two
  obtain ⟨merged, repOf⟩ := collapse.merge Mutual.trans two head.1
    (stays.symm ▸ bond.trans tied.symm)
  rw [stays] at repOf
  refine ⟨merged, fun node least => ?_, fun node finished => ?_, ?_⟩
  · rw [repOf, merging.fixed node least]
    split
    · next moves => exact head.eq least (bond.trans (moves ▸ tied).symm)
    · rfl
  · rw [repOf]
    split
    · exact head
    · next differs =>
      obtain rfl | finished := finished
      · exact absurd rfl differs
      · exact merging.headed node finished
  · have count := collapse.quotient.valid.nodeCount_merge (state.1.repOf member) (collapse.hasNode_repOf head.1)
    rw [← merging.count, ← count]
    dsimp only
    split <;> omega

private theorem Merging.members (valid : before.Valid) {rep : Node} (head : before.Heads rep)
    (members : List Node) (bonds : ∀ member ∈ members, before.Mutual rep member) {done : Node → Prop}
    {state : Multigraph × Nat} (merging : Merging before done state) :
    Merging before (fun node => node ∈ members ∨ done node)
      (members.foldl (fun state member => ((state.1.merge (state.1.repOf member) rep).1,
        if (state.1.merge (state.1.repOf member) rep).2 then state.2 + 1 else state.2)) state) := by
  induction members generalizing done state with
  | nil => simpa using merging
  | cons member members ih =>
    obtain ⟨bond, bonds⟩ := List.forall_mem_cons.mp bonds
    have next := ih bonds (merging.member valid head bond)
    simpa only [List.foldl_cons, List.mem_cons, or_assoc, or_left_comm] using next

private theorem Merging.component (valid : before.Valid) {done : Node → Prop} {state : Multigraph × Nat}
    (merging : Merging before done state) {members : List Node}
    (listed : members ∈ (Components.ofEdges before.directPairs).cycles) :
    Merging before (fun node => node ∈ members ∨ done node) (state.1.mergeComponent state.2 members) := by
  cases members with
  | nil => simpa [mergeComponent] using merging
  | cons rep members =>
    obtain ⟨head, bonds⟩ := valid.heads_of_mem_cycles listed
    have rest := merging.members valid head members bonds
    refine ⟨rest.collapse, rest.fixed, fun node finished => ?_, rest.count⟩
    rw [List.mem_cons, or_assoc] at finished
    obtain rfl | finished := finished
    · exact (rest.fixed node head).symm ▸ head
    · exact rest.headed node finished

private theorem Valid.merging (valid : before.Valid) (cycles : List (List Node))
    (listed : ∀ members ∈ cycles, members ∈ (Components.ofEdges before.directPairs).cycles) {done : Node → Prop}
    {state : Multigraph × Nat} (merging : Merging before done state) :
    Merging before (fun node => (∃ members ∈ cycles, node ∈ members) ∨ done node)
      (cycles.foldl (fun state members => state.1.mergeComponent state.2 members) state) := by
  induction cycles generalizing done state with
  | nil => simpa using merging
  | cons members cycles ih =>
    obtain ⟨first, rest⟩ := List.forall_mem_cons.mp listed
    have next := ih rest (merging.component valid first)
    simpa only [List.foldl_cons, List.exists_mem_cons_iff, or_assoc, or_left_comm] using next

/-- What merging cycles comes to: direct edges lead from each node to its representative and back, and
this is the least such node. -/
structure CyclesJoined (before after : Multigraph) (merged : Nat) : Prop where
  collapse : Collapse before.Mutual before after
  headed : ∀ node, before.hasNode node → before.Heads (after.repOf node)
  count : after.nodeCount + merged = before.nodeCount

theorem Valid.mergeCycles (valid : graph.Valid) :
    CyclesJoined graph graph.mergeCycles.1 graph.mergeCycles.2 := by
  have start : Merging graph (fun _ => False) (graph, 0) :=
    ⟨Collapse.refl valid Mutual.refl, fun node least => valid.repOf_live least.1, fun _ => False.elim, rfl⟩
  have merging := valid.merging (Components.ofEdges graph.directPairs).cycles (fun _ => id) start
  refine ⟨merging.collapse, fun node live => ?_, merging.count⟩
  by_cases single : ∀ other, graph.Mutual node other → other = node
  · have head : graph.Heads node := ⟨live, fun other both => Nat.le_of_eq (single other both).symm⟩
    exact (merging.fixed node head).symm ▸ head
  · push Not at single
    obtain ⟨other, both, apart⟩ := single
    obtain ⟨members, listed, inside⟩ :=
      Components.exists_cycle_of_mutual ((valid.mutual_iff node other).mpr both) apart.symm
    exact merging.headed node (Or.inl ⟨members, listed, inside⟩)

theorem Valid.collapse_mergeCycles (valid : graph.Valid) :
    Collapse graph.Mutual graph graph.mergeCycles.1 :=
  valid.mergeCycles.collapse

end GrammarReach.Multigraph
