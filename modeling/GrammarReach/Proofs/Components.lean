import Mathlib.Data.List.Sort
import Mathlib.Data.Set.Card
import GrammarReach.Grammar.Derivation
import GrammarReach.Proofs.Components.Search

/-!
What the components of a list of edges are: the classes of nodes that the edges connect both ways. The
listing of them is determined by the set of the edges.
-/

namespace GrammarReach

open Relation (ReflTransGen TransGen)

namespace Components

variable {edges : List (Node × Node)}

/-- Whether the edges lead from one node to another and back. -/
def Mutual (edges : List (Node × Node)) (one two : Node) : Prop :=
  ReflTransGen (fun src dst => (src, dst) ∈ edges) one two ∧
    ReflTransGen (fun src dst => (src, dst) ∈ edges) two one

def Mentions (edges : List (Node × Node)) (node : Node) : Prop :=
  ∃ edge ∈ edges, node = edge.1 ∨ node = edge.2

/-- The nodes that a node shares its component with, and itself. -/
def classOf (edges : List (Node × Node)) (node : Node) : Set Node := { other | Mutual edges node other }

theorem Mutual.refl (node : Node) : Mutual edges node node := ⟨.refl, .refl⟩

theorem Mutual.symm {one two : Node} (both : Mutual edges one two) : Mutual edges two one :=
  ⟨both.2, both.1⟩

theorem Mutual.trans {one two three : Node} (first : Mutual edges one two)
    (second : Mutual edges two three) : Mutual edges one three :=
  ⟨first.1.trans second.1, second.2.trans first.2⟩

theorem mutual_ofEdges (edges : List (Node × Node)) (one two : Node) :
    (Successors.ofEdges edges).Mutual one two ↔ Mutual edges one two := by
  have same : (Successors.ofEdges edges).Follows = fun src dst => (src, dst) ∈ edges := by
    funext src dst
    exact propext (Successors.follows_ofEdges edges src dst)
  rw [Successors.Mutual, Successors.Reaches, same]
  rfl

/-- A node that another one reaches and is reached from is at the end of an edge. -/
theorem Mutual.mentions {one two : Node} (both : Mutual edges one two) (apart : one ≠ two) :
    Mentions edges one := by
  obtain same | ⟨next, edge, -⟩ := both.1.cases_head
  · exact absurd same apart
  · exact ⟨_, edge, .inl rfl⟩

/-! ### Listings -/

section Ascending

variable {α : Type} [LT α] [Std.Asymm fun one two : α => one < two] {one two : List α}

theorem nodup_of_ascending (ascending : one.Pairwise (· < ·)) : one.Nodup := by
  refine List.Pairwise.imp (fun {first second} less => ?_) ascending
  rintro rfl
  exact Std.Asymm.asymm first first less less

/-- An ascending list is determined by its members. -/
theorem eq_of_ascending (first : one.Pairwise (· < ·)) (second : two.Pairwise (· < ·))
    (same : ∀ member, member ∈ one ↔ member ∈ two) : one = two := by
  refine List.Perm.eq_of_pairwise (fun one two _ _ less more => ?_) first second ?_
  · exact absurd more (Std.Asymm.asymm one two less)
  · exact (List.perm_ext_iff_of_nodup (nodup_of_ascending first) (nodup_of_ascending second)).mpr same

end Ascending

/-- A list of two members and more has one that differs from the given node. -/
theorem exists_ne_of_long {members : List Node} (ascending : members.Pairwise (· < ·))
    (long : 1 < members.length)
    (node : Node) : ∃ other ∈ members, other ≠ node := by
  match members, ascending, long with
  | one :: two :: rest, ascending, _ =>
    have less := (List.pairwise_cons.mp ascending).1 two List.mem_cons_self
    by_cases same : one = node
    · exact ⟨two, List.mem_cons_of_mem _ List.mem_cons_self, same ▸ Nat.ne_of_gt less⟩
    · exact ⟨one, List.mem_cons_self, same⟩

/-- A list without repetitions is as long as the set that it lists is large. -/
theorem encard_of_listed {α : Type} {members : List α} (distinct : members.Nodup) {set : Set α}
    (same : ∀ member, member ∈ members ↔ member ∈ set) : (members.length : ℕ∞) = set.encard := by
  classical
  have listed : set = (members.toFinset : Set α) := by
    ext member
    rw [← same, List.coe_toFinset]
    rfl
  rw [listed, Set.encard_coe_eq_coe_finsetCard, List.toFinset_card_of_nodup distinct]

theorem ascending_toList (set : Std.TreeSet Node compare) : set.toList.Pairwise (· < ·) :=
  Std.TreeSet.ordered_toList.imp fun less => Nat.compare_eq_lt.mp less

theorem mem_toList_ofList (members : List Node) (node : Node) :
    node ∈ (Std.TreeSet.ofList members compare).toList ↔ node ∈ members := by
  rw [Std.TreeSet.mem_toList, Std.TreeSet.mem_ofList, List.contains_iff_mem]

/-- Lists that differ are sorted into ascending order. -/
theorem ascending_mergeSort {lists : List (List Nat)} (distinct : lists.Nodup) :
    (lists.mergeSort fun a b => @decide _ (List.decidableLE a b)).Pairwise (· < ·) := by
  have sorted : (lists.mergeSort fun a b => @decide _ (List.decidableLE a b)).Pairwise
      fun one two => ¬ two < one := by
    refine List.Pairwise.imp (fun {one two} le => @of_decide_eq_true _ (List.decidableLE one two) le)
      (List.pairwise_mergeSort (fun one two three first second => ?_) (fun one two => ?_) lists)
    · exact @decide_eq_true _ (List.decidableLE one three)
        (List.le_trans (@of_decide_eq_true _ (List.decidableLE one two) first)
          (@of_decide_eq_true _ (List.decidableLE two three) second))
    · rw [Bool.or_eq_true]
      exact (List.le_total one two).imp (@decide_eq_true _ (List.decidableLE one two))
        (@decide_eq_true _ (List.decidableLE two one))
  refine (sorted.and ((List.mergeSort_perm lists _).nodup_iff.mpr distinct)).imp fun {one two} both => ?_
  by_contra less
  exact both.2 (Std.Trichotomous.trichotomous (r := (· < ·)) one two less both.1)

/-! ### The classes -/

/-- The components as the search closes them, each ascending. -/
def classes (edges : List (Node × Node)) : List (List Node) :=
  (Search.run (Successors.ofEdges edges)).closed.map fun members => (Std.TreeSet.ofList members).toList

theorem partitions (edges : List (Node × Node)) :
    Search.Partitions (Successors.ofEdges edges) (Search.run (Successors.ofEdges edges)).closed :=
  Search.partitions_run (Successors.closed_ofEdges edges)

theorem ascending_of_mem_classes {members : List Node} (listed : members ∈ classes edges) :
    members.Pairwise (· < ·) := by
  obtain ⟨closed, -, rfl⟩ := List.mem_map.mp listed
  exact ascending_toList _

theorem mem_of_mem_classes {members : List Node} (listed : members ∈ classes edges) {node : Node}
    (inside : node ∈ members) (other : Node) : other ∈ members ↔ Mutual edges node other := by
  obtain ⟨closed, found, rfl⟩ := List.mem_map.mp listed
  rw [mem_toList_ofList] at inside ⊢
  rw [← mutual_ofEdges]
  exact (partitions edges).classes closed found node inside other

/-- Each node that an edge mentions is in one class, and no other node is in any. -/
theorem mentions_iff_classes (node : Node) :
    Mentions edges node ↔ ∃ members ∈ classes edges, node ∈ members := by
  have covers := (partitions edges).covers node
  rw [Successors.mem_ofEdges] at covers
  refine covers.trans ⟨?_, ?_⟩
  · rintro ⟨closed, found, inside⟩
    exact ⟨_, List.mem_map_of_mem found, (mem_toList_ofList closed node).mpr inside⟩
  · rintro ⟨members, listed, inside⟩
    obtain ⟨closed, found, rfl⟩ := List.mem_map.mp listed
    exact ⟨closed, found, (mem_toList_ofList closed node).mp inside⟩

theorem exists_mem_of_mem_classes {members : List Node} (listed : members ∈ classes edges) :
    ∃ node, node ∈ members := by
  obtain ⟨closed, found, rfl⟩ := List.mem_map.mp listed
  obtain ⟨node, inside⟩ := List.exists_mem_of_ne_nil closed ((partitions edges).inhabited closed found)
  exact ⟨node, (mem_toList_ofList closed node).mpr inside⟩

theorem nodup_classes (edges : List (Node × Node)) : (classes edges).Nodup := by
  have disjoint : (classes edges).Pairwise List.Disjoint := by
    refine List.pairwise_map.mpr ((partitions edges).disjoint.imp fun apart node one two => ?_)
    rw [mem_toList_ofList] at one two
    exact apart one two
  refine disjoint.imp_of_mem fun {one two} listed _ apart same => ?_
  obtain ⟨node, inside⟩ := exists_mem_of_mem_classes listed
  exact apart inside (same ▸ inside)

/-- A list of the class of a node is among the classes, if an edge mentions the node. -/
theorem mem_classes_of_mentions {node : Node} (mentions : Mentions edges node) {members : List Node}
    (ascending : members.Pairwise (· < ·)) (same : ∀ other, other ∈ members ↔ Mutual edges node other) :
    members ∈ classes edges := by
  obtain ⟨listed, found, inside⟩ := (mentions_iff_classes node).mp mentions
  have equal : members = listed := eq_of_ascending ascending (ascending_of_mem_classes found) fun other =>
    (same other).trans (mem_of_mem_classes found inside other).symm
  rwa [equal]

/-! ### The cycles -/

/-- What a listing of cycles must be: every class of two nodes and more, ascending, once, in order. -/
structure ListsCycles (edges : List (Node × Node)) (cycles : List (List Node)) : Prop where
  sorted : cycles.Pairwise (· < ·)
  mem_iff : ∀ members, members ∈ cycles ↔ members.Pairwise (· < ·) ∧ 1 < members.length ∧
    ∃ node, ∀ other, other ∈ members ↔ Mutual edges node other

theorem listsCycles_ofEdges (edges : List (Node × Node)) : ListsCycles edges (ofEdges edges).cycles := by
  have perm : (ofEdges edges).cycles.Perm ((classes edges).filter fun members => 1 < members.length) :=
    List.mergeSort_perm _ _
  refine ⟨ascending_mergeSort ((nodup_classes edges).filter _), fun members => ?_⟩
  rw [perm.mem_iff, List.mem_filter, decide_eq_true_eq]
  constructor
  · rintro ⟨listed, long⟩
    obtain ⟨node, inside⟩ := exists_mem_of_mem_classes listed
    exact ⟨ascending_of_mem_classes listed, long, node, mem_of_mem_classes listed inside⟩
  · rintro ⟨ascending, long, node, same⟩
    refine ⟨?_, long⟩
    match members, ascending, long with
    | one :: two :: rest, ascending, _ =>
      have first := (same one).mp List.mem_cons_self
      have second := (same two).mp (List.mem_cons_of_mem _ List.mem_cons_self)
      have less := (List.pairwise_cons.mp ascending).1 two List.mem_cons_self
      refine mem_classes_of_mentions ((first.symm.trans second).mentions (Nat.ne_of_lt less)) ascending
        fun other => (same other).trans ⟨first.symm.trans, first.trans⟩

variable {cycles : List (List Node)}

theorem ListsCycles.mem (lists : ListsCycles edges cycles) {members : List Node} (listed : members ∈ cycles)
    {node : Node} (inside : node ∈ members) (other : Node) : other ∈ members ↔ Mutual edges node other := by
  obtain ⟨-, -, base, same⟩ := (lists.mem_iff members).mp listed
  have first := (same node).mp inside
  exact (same other).trans ⟨first.symm.trans, first.trans⟩

theorem ListsCycles.ascending (lists : ListsCycles edges cycles) {members : List Node}
    (listed : members ∈ cycles) : members.Pairwise (· < ·) :=
  ((lists.mem_iff members).mp listed).1

/-- A node is on one cycle at most. -/
theorem ListsCycles.unique (lists : ListsCycles edges cycles) {one two : List Node} (first : one ∈ cycles)
    (second : two ∈ cycles) {node : Node} (inOne : node ∈ one) (inTwo : node ∈ two) : one = two :=
  eq_of_ascending (lists.ascending first) (lists.ascending second) fun other =>
    (lists.mem first inOne other).trans (lists.mem second inTwo other).symm

/-- A node that shares its class with another is on a cycle. -/
theorem exists_cycle_of_mutual {edges : List (Node × Node)} {one two : Node}
    (both : Mutual edges one two) (apart : one ≠ two) : ∃ members ∈ (ofEdges edges).cycles, one ∈ members := by
  obtain ⟨members, listed, inside⟩ := (mentions_iff_classes one).mp (both.mentions apart)
  have ascending := ascending_of_mem_classes listed
  have same := mem_of_mem_classes listed inside
  refine ⟨members, ((listsCycles_ofEdges edges).mem_iff members).mpr ⟨ascending, ?_, one, same⟩, inside⟩
  match members, inside, (same two).mpr both with
  | [only], here, there =>
    exact absurd ((List.mem_singleton.mp here).trans (List.mem_singleton.mp there).symm) apart
  | _ :: _ :: _, _, _ => exact Nat.succ_lt_succ (Nat.succ_pos _)

/-! ### What else is told of them -/

theorem mem_loops (edges : List (Node × Node)) (node : Node) : node ∈ (ofEdges edges).loops ↔
    (node, node) ∈ edges ∧ ∀ other, Mutual edges node other → other = node := by
  have looped : (Std.TreeSet.ofList ((edges.filter fun edge => edge.1 == edge.2).map (·.1))).contains node ↔
      (node, node) ∈ edges := by
    rw [Std.TreeSet.contains_ofList, List.contains_iff_mem]
    simp
  have alone : node ∈ (ofEdges edges).loops ↔ [node] ∈ classes edges ∧ (node, node) ∈ edges := by
    rw [← looped]
    refine (mem_toList_ofList _ node).trans (List.mem_filterMap.trans ⟨?_, ?_⟩)
    · rintro ⟨members, listed, taken⟩
      split at taken
      · rw [Option.ite_none_right_eq_some, Option.some.injEq] at taken
        obtain ⟨there, rfl⟩ := taken
        exact ⟨listed, there⟩
      · cases taken
    · rintro ⟨listed, there⟩
      exact ⟨[node], listed, if_pos there⟩
  rw [alone, and_comm]
  refine and_congr_right fun loop => ⟨fun listed other both => ?_, fun single => ?_⟩
  · exact List.mem_singleton.mp ((mem_of_mem_classes listed List.mem_cons_self other).mpr both)
  · refine mem_classes_of_mentions ⟨_, loop, .inl rfl⟩ (List.pairwise_singleton _ _) fun other => ?_
    rw [List.mem_singleton]
    exact ⟨fun same => by rw [same]; exact .refl node, single other⟩

private theorem getElem?_foldl_insert (members : List Node) (rep : Node) (map : Std.TreeMap Node Node)
    (node : Node) : (members.foldl (fun map node => map.insert node rep) map)[node]? =
      if node ∈ members then some rep else map[node]? := by
  induction members generalizing map with
  | nil => simp
  | cons member members ih =>
    rw [List.foldl_cons, ih]
    simp only [Std.TreeMap.getElem?_insert, Std.LawfulEqCmp.compare_eq_iff_eq, List.mem_cons,
      @eq_comm _ node]
    by_cases later : node ∈ members <;> by_cases here : member = node <;> simp [later, here]

/-- Where the nodes of cycles are sent: to the first node of their cycle. -/
private def represent (cycles : List (List Node)) : Std.TreeMap Node Node :=
  cycles.foldl (fun map members => members.foldl (fun map node => map.insert node (members.headD node)) map) ∅

private theorem getElem?_members (members : List Node) (map : Std.TreeMap Node Node) (node : Node) :
    (members.foldl (fun map node => map.insert node (members.headD node)) map)[node]? =
      if node ∈ members then some (members.headD node) else map[node]? := by
  cases members with
  | nil => simp
  | cons rep members => exact getElem?_foldl_insert (rep :: members) rep map node

/-- Each node of a cycle is sent to the first node of it, where this is the same for all cycles with the
node. -/
private theorem getElem?_represent {cycles : List (List Node)} {node rep : Node}
    (unique : ∀ members ∈ cycles, node ∈ members → members.headD node = rep) :
    (represent cycles)[node]? = some rep ↔ ∃ members ∈ cycles, node ∈ members := by
  have general : ∀ map : Std.TreeMap Node Node,
      (cycles.foldl (fun map members => members.foldl (fun map node => map.insert node (members.headD node))
        map) map)[node]? = some rep ↔ (∃ members ∈ cycles, node ∈ members) ∨ map[node]? = some rep := by
    induction cycles with
    | nil => simp
    | cons members cycles ih =>
      obtain ⟨here, unique⟩ := List.forall_mem_cons.mp unique
      intro map
      rw [List.foldl_cons, ih unique, getElem?_members, List.exists_mem_cons_iff]
      split
      · next inside => simp only [here inside, inside, true_or, or_true]
      · next outside => simp [outside]
  exact (general ∅).trans (by simp)

/-- The nodes of the cycles are sent to the least nodes of their classes, and no other nodes are sent
anywhere. -/
theorem getElem?_representatives (edges : List (Node × Node)) (node rep : Node) :
    (ofEdges edges).representatives[node]? = some rep ↔
      (∃ other, other ≠ node ∧ Mutual edges node other) ∧ IsLeast (classOf edges node) rep := by
  have lists := listsCycles_ofEdges edges
  have least : ∀ members ∈ (ofEdges edges).cycles, node ∈ members →
      IsLeast (classOf edges node) (members.headD node) := by
    intro members listed inside
    have same := lists.mem listed inside
    match members, lists.ascending listed, inside, same with
    | first :: rest, ascending, _, same =>
      refine ⟨(same first).mp List.mem_cons_self, fun other both => ?_⟩
      obtain rfl | later := List.mem_cons.mp ((same other).mpr both)
      · exact Nat.le_refl _
      · exact Nat.le_of_lt ((List.pairwise_cons.mp ascending).1 other later)
  by_cases listed : ∃ members ∈ (ofEdges edges).cycles, node ∈ members
  · obtain ⟨members, found, inside⟩ := listed
    have sent : (ofEdges edges).representatives[node]? = some (members.headD node) := by
      refine (getElem?_represent fun other there within => ?_).mpr ⟨members, found, inside⟩
      rw [lists.unique there found within inside]
    have other : ∃ other, other ≠ node ∧ Mutual edges node other := by
      obtain ⟨ascending, long, -⟩ := (lists.mem_iff members).mp found
      obtain ⟨other, there, apart⟩ := exists_ne_of_long ascending long node
      exact ⟨other, apart, (lists.mem found inside other).mp there⟩
    rw [sent, Option.some.injEq, and_iff_right other]
    exact ⟨fun same => same ▸ least members found inside, fun is => (least members found inside).unique is⟩
  · refine iff_of_false (fun sent => ?_) fun both => ?_
    · exact listed ((getElem?_represent fun members found inside =>
        absurd ⟨members, found, inside⟩ listed).mp sent)
    · obtain ⟨⟨other, apart, both⟩, -⟩ := both
      exact listed (exists_cycle_of_mutual both (Ne.symm apart))

/-- How many nodes would vanish: those that are not the least of their class. -/
theorem encard_collapsed (edges : List (Node × Node)) : ((ofEdges edges).collapsed : ℕ∞) =
    { node | ∃ other, Mutual edges node other ∧ other < node }.encard := by
  have lists := listsCycles_ofEdges edges
  have total : (ofEdges edges).collapsed = ((ofEdges edges).cycles.flatMap List.tail).length := by
    have general : ∀ (cycles : List (List Node)) (total : Nat),
        cycles.foldl (fun total cycle => total + (cycle.length - 1)) total =
          total + (cycles.flatMap List.tail).length := by
      intro cycles
      induction cycles with
      | nil => simp
      | cons cycle cycles ih =>
        intro total
        rw [List.foldl_cons, ih, List.flatMap_cons, List.length_append, List.length_tail, Nat.add_assoc]
    exact (general _ 0).trans (Nat.zero_add _)
  have distinct : ((ofEdges edges).cycles.flatMap List.tail).Nodup := by
    refine List.nodup_flatMap.mpr ⟨fun cycle listed => ?_, ?_⟩
    · exact (nodup_of_ascending (lists.ascending listed)).sublist (List.tail_sublist cycle)
    · refine lists.sorted.imp_of_mem fun {one two} first second less node inOne inTwo => ?_
      have same := lists.unique first second (List.mem_of_mem_tail inOne) (List.mem_of_mem_tail inTwo)
      exact Std.Irrefl.irrefl (r := (· < ·)) one (same ▸ less)
  rw [total]
  refine encard_of_listed distinct fun node => ?_
  rw [List.mem_flatMap, Set.mem_ofPred_eq]
  constructor
  · rintro ⟨cycle, listed, inside⟩
    have ascending := lists.ascending listed
    match cycle, listed, ascending, inside with
    | least :: rest, listed, ascending, inside =>
      exact ⟨least, (lists.mem listed (List.mem_cons_of_mem _ inside) least).mp List.mem_cons_self,
        (List.pairwise_cons.mp ascending).1 node inside⟩
  · rintro ⟨other, both, less⟩
    obtain ⟨cycle, listed, inside⟩ := exists_cycle_of_mutual both (Nat.ne_of_gt less)
    refine ⟨cycle, listed, ?_⟩
    have there := (lists.mem listed inside other).mpr both
    match cycle, lists.ascending listed, inside, there with
    | least :: rest, ascending, inside, there =>
      refine (List.mem_cons.mp inside).resolve_left ?_
      rintro rfl
      obtain same | later := List.mem_cons.mp there
      · exact Nat.lt_irrefl _ (same ▸ less)
      · exact Nat.lt_asymm less ((List.pairwise_cons.mp ascending).1 other later)

/-- There are as many cycles as classes of two nodes and more. -/
theorem encard_cycles (edges : List (Node × Node)) : ((ofEdges edges).cycles.length : ℕ∞) =
    { members : Set Node | members.Nontrivial ∧ ∃ node, members = classOf edges node }.encard := by
  have lists := listsCycles_ofEdges edges
  have image : { members : Set Node | members.Nontrivial ∧ ∃ node, members = classOf edges node } =
      (fun members : List Node => { node | node ∈ members }) ''
        { members | members ∈ (ofEdges edges).cycles } := by
    ext members
    constructor
    · rintro ⟨⟨one, first, two, second, apart⟩, node, rfl⟩
      obtain ⟨cycle, listed, inside⟩ := exists_cycle_of_mutual (first.symm.trans second) apart
      refine ⟨cycle, listed, Set.ext fun other => (lists.mem listed inside other).trans ?_⟩
      exact ⟨first.trans, first.symm.trans⟩
    · rintro ⟨cycle, listed, rfl⟩
      obtain ⟨ascending, long, node, same⟩ := (lists.mem_iff cycle).mp listed
      obtain ⟨one, first, -⟩ := exists_ne_of_long ascending long node
      obtain ⟨two, second, apart⟩ := exists_ne_of_long ascending long one
      exact ⟨⟨two, second, one, first, apart⟩, node, Set.ext same⟩
  have injective : Set.InjOn (fun members : List Node => { node | node ∈ members })
      { members | members ∈ (ofEdges edges).cycles } := fun one first two second same =>
    eq_of_ascending (lists.ascending first) (lists.ascending second) (Set.ext_iff.mp same)
  rw [image, injective.encard_image]
  exact encard_of_listed (nodup_of_ascending lists.sorted) fun _ => Iff.rfl

private theorem foldl_max (numbers : List Nat) (start : Nat) :
    start ≤ numbers.foldl max start ∧ (∀ number ∈ numbers, number ≤ numbers.foldl max start) ∧
      (numbers.foldl max start = start ∨ numbers.foldl max start ∈ numbers) := by
  induction numbers generalizing start with
  | nil => simp
  | cons number numbers ih =>
    obtain ⟨least, all, reached⟩ := ih (max start number)
    rw [List.foldl_cons]
    refine ⟨Nat.le_trans (Nat.le_max_left ..) least, List.forall_mem_cons.mpr
      ⟨Nat.le_trans (Nat.le_max_right ..) least, all⟩, ?_⟩
    obtain same | listed := reached
    · rw [same]
      obtain le | le := Nat.le_total start number
      · exact .inr (by rw [Nat.max_eq_right le]; exact List.mem_cons_self)
      · exact .inl (Nat.max_eq_left le)
    · exact .inr (List.mem_cons_of_mem _ listed)

theorem largest_ofEdges (edges : List (Node × Node)) :
    (∀ node, Mentions edges node → (classOf edges node).encard ≤ (ofEdges edges).largest) ∧
      ((∃ node, Mentions edges node ∧ (classOf edges node).encard = (ofEdges edges).largest) ∨
        (edges = [] ∧ (ofEdges edges).largest = 0)) := by
  have size : ∀ members ∈ classes edges, ∀ node ∈ members,
      (classOf edges node).encard = members.length := fun members listed node inside =>
    (encard_of_listed (nodup_of_ascending (ascending_of_mem_classes listed))
      (mem_of_mem_classes listed inside)).symm
  obtain ⟨-, all, reached⟩ : _ ∧ (∀ number ∈ (classes edges).map (·.length),
      number ≤ (ofEdges edges).largest) ∧ ((ofEdges edges).largest = 0 ∨
        (ofEdges edges).largest ∈ (classes edges).map (·.length)) := foldl_max _ 0
  refine ⟨fun node mentions => ?_, ?_⟩
  · obtain ⟨members, listed, inside⟩ := (mentions_iff_classes node).mp mentions
    rw [size members listed node inside, Nat.cast_le]
    exact all _ (List.mem_map_of_mem listed)
  · obtain none | listed := reached
    · refine .inr ⟨List.eq_nil_iff_forall_not_mem.mpr fun edge there => ?_, none⟩
      obtain ⟨members, listed, inside⟩ := (mentions_iff_classes edge.1).mp ⟨edge, there, .inl rfl⟩
      have bound := all _ (List.mem_map_of_mem listed)
      rw [none] at bound
      exact absurd (List.length_pos_of_mem inside) (Nat.not_lt.mpr bound)
    · obtain ⟨members, listed, length⟩ := List.mem_map.mp listed
      obtain ⟨node, inside⟩ := exists_mem_of_mem_classes listed
      exact .inl ⟨node, (mentions_iff_classes node).mpr ⟨members, listed, inside⟩,
        (size members listed node inside).trans (congrArg _ length)⟩

/-- As many nodes are told of as the edges mention. -/
theorem encard_nodeCount (edges : List (Node × Node)) :
    ((ofEdges edges).nodeCount : ℕ∞) = { node | Mentions edges node }.encard := by
  have size : (ofEdges edges).nodeCount = (Successors.ofEdges edges).keys.length :=
    Std.TreeMap.length_keys.symm
  rw [size]
  refine encard_of_listed Std.TreeMap.nodup_keys fun node => ?_
  rw [Std.TreeMap.mem_keys, Successors.mem_ofEdges]
  rfl

/-- What the components of a list of edges must be. -/
structure Describes (edges : List (Node × Node)) (components : Components) : Prop where
  cycles : ListsCycles edges components.cycles
  loops_sorted : components.loops.Pairwise (· < ·)
  /-- A loop is a node with an edge to itself that shares its class with no other node. -/
  mem_loops : ∀ node, node ∈ components.loops ↔
    (node, node) ∈ edges ∧ ∀ other, Mutual edges node other → other = node
  /-- The nodes that share their class with another are sent to the least node of it. -/
  representatives : ∀ node rep, components.representatives[node]? = some rep ↔
    (∃ other, other ≠ node ∧ Mutual edges node other) ∧ IsLeast (classOf edges node) rep
  collapsed : (components.collapsed : ℕ∞) =
    { node | ∃ other, Mutual edges node other ∧ other < node }.encard
  cycleCount : (components.cycles.length : ℕ∞) =
    { members : Set Node | members.Nontrivial ∧ ∃ node, members = classOf edges node }.encard
  largest : ∀ node, Mentions edges node → (classOf edges node).encard ≤ components.largest
  reached : (∃ node, Mentions edges node ∧ (classOf edges node).encard = components.largest) ∨
    (edges = [] ∧ components.largest = 0)
  nodeCount : (components.nodeCount : ℕ∞) = { node | Mentions edges node }.encard
  edgeCount : components.edgeCount = edges.length

theorem describes (edges : List (Node × Node)) : Describes edges (ofEdges edges) where
  cycles := listsCycles_ofEdges edges
  loops_sorted := ascending_toList _
  mem_loops := mem_loops edges
  representatives := getElem?_representatives edges
  collapsed := encard_collapsed edges
  cycleCount := encard_cycles edges
  largest := (largest_ofEdges edges).1
  reached := (largest_ofEdges edges).2
  nodeCount := encard_nodeCount edges
  edgeCount := rfl

/-- The order of the edges, and how often one is told, do not matter. -/
theorem ofEdges_congr {edges others : List (Node × Node)} (same : ∀ edge, edge ∈ others ↔ edge ∈ edges) :
    ofEdges others = { ofEdges edges with edgeCount := others.length } := by
  have both : Mutual others = Mutual edges := by
    have connects : (fun src dst => (src, dst) ∈ others) = fun src dst => (src, dst) ∈ edges := by
      funext src dst
      exact propext (same (src, dst))
    funext one two
    rw [Mutual, Mutual, connects]
  have mentions : Mentions others = Mentions edges := by
    funext node
    exact propext (exists_congr fun edge => and_congr_left' (same edge))
  have classOf : classOf others = classOf edges := by
    funext node
    rw [Components.classOf, Components.classOf, both]
  have one := describes others
  have two := describes edges
  have cycles : (ofEdges others).cycles = (ofEdges edges).cycles := by
    refine eq_of_ascending one.cycles.sorted two.cycles.sorted fun members => ?_
    rw [one.cycles.mem_iff, two.cycles.mem_iff, both]
  have loops : (ofEdges others).loops = (ofEdges edges).loops := by
    refine eq_of_ascending one.loops_sorted two.loops_sorted fun node => ?_
    rw [one.mem_loops, two.mem_loops, both, same]
  have nodeCount : (ofEdges others).nodeCount = (ofEdges edges).nodeCount := by
    rw [← Nat.cast_inj (R := ℕ∞), one.nodeCount, two.nodeCount, mentions]
  have largest : (ofEdges others).largest = (ofEdges edges).largest := by
    have bounds := two.largest
    have reached := two.reached
    rw [← mentions, ← classOf] at bounds reached
    refine Nat.le_antisymm ?_ ?_
    · obtain ⟨node, there, size⟩ | ⟨-, none⟩ := one.reached
      · exact Nat.cast_le.mp (size ▸ bounds node there)
      · exact none ▸ Nat.zero_le _
    · obtain ⟨node, there, size⟩ | ⟨-, none⟩ := reached
      · exact Nat.cast_le.mp (size ▸ one.largest node there)
      · exact none ▸ Nat.zero_le _
  have representatives : (ofEdges others).representatives = (ofEdges edges).representatives :=
    congrArg represent cycles
  have parts : ∀ components : Components, components = ⟨components.cycles, components.loops,
      components.representatives, components.nodeCount, components.edgeCount, components.largest⟩ :=
    fun _ => rfl
  rw [parts (ofEdges others), cycles, loops, representatives, nodeCount, largest]
  rfl

/-- No cycle is listed just when no two nodes share a class. -/
theorem cycles_eq_nil_iff (edges : List (Node × Node)) :
    (ofEdges edges).cycles = [] ↔ ∀ one two, Mutual edges one two → one = two := by
  rw [List.eq_nil_iff_forall_not_mem]
  constructor
  · intro none one two both
    by_contra apart
    obtain ⟨members, listed, -⟩ := exists_cycle_of_mutual both apart
    exact none members listed
  · intro single members listed
    obtain ⟨ascending, long, node, same⟩ := ((listsCycles_ofEdges edges).mem_iff members).mp listed
    obtain ⟨other, there, apart⟩ := exists_ne_of_long ascending long node
    exact apart (single node other ((same other).mp there)).symm

/-- No cycle and no loop is listed just when the edges lead from no node back to it. -/
theorem acyclic_iff (edges : List (Node × Node)) :
    (ofEdges edges).cycles = [] ∧ (ofEdges edges).loops = [] ↔
      ∀ node, ¬ TransGen (fun src dst => (src, dst) ∈ edges) node node := by
  rw [cycles_eq_nil_iff, List.eq_nil_iff_forall_not_mem]
  constructor
  · rintro ⟨single, loopless⟩ node round
    obtain ⟨next, edge, back⟩ := TransGen.head'_iff.mp round
    have same := single node next ⟨.single edge, back⟩
    rw [← same] at edge
    exact loopless node ((mem_loops edges node).mpr ⟨edge, fun other both => (single node other both).symm⟩)
  · intro acyclic
    refine ⟨fun one two both => ?_, fun node listed => ?_⟩
    · by_contra apart
      obtain same | ⟨next, edge, onward⟩ := both.1.cases_head
      · exact apart same
      · exact acyclic one (TransGen.head' edge (onward.trans both.2))
    · exact acyclic node (.single ((mem_loops edges node).mp listed).1)

end Components

/-- A production has one symbol on its left-hand side and another, or the same, alone on its right. -/
def Grammar.Renames (grammar : Grammar) (lhs rhs : Symbol) : Prop := ⟨lhs, rhs⟩ ∈ grammar.unary

/-- A cycle is found just when a symbol derives itself by productions from one symbol. -/
theorem Grammar.unaryCycles_eq_nil_iff (grammar : Grammar) :
    grammar.unaryCycles = [] ↔ ∀ symbol, ¬ TransGen grammar.Renames symbol symbol := by
  have found : grammar.unaryCycles = [] ↔
      (Components.ofEdges (grammar.unary.map fun rule => (rule.rhs, rule.lhs))).cycles = [] ∧
        (Components.ofEdges (grammar.unary.map fun rule => (rule.rhs, rule.lhs))).loops = [] := by
    have perm : grammar.unaryCycles.Perm _ := List.mergeSort_perm _ _
    rw [← List.length_eq_zero_iff, perm.length_eq, List.length_eq_zero_iff, List.append_eq_nil_iff,
      List.map_eq_nil_iff]
  have swapped : (fun src dst => (src, dst) ∈ grammar.unary.map fun rule => (rule.rhs, rule.lhs)) =
      Function.swap grammar.Renames := by
    funext src dst
    refine propext (List.mem_map.trans ⟨?_, fun rule => ⟨_, rule, rfl⟩⟩)
    rintro ⟨rule, listed, same⟩
    obtain ⟨rfl, rfl⟩ := Prod.mk.inj same
    exact listed
  rw [found, Components.acyclic_iff, swapped]
  exact forall_congr' fun symbol => not_congr Relation.transGen_swap

/-- A search for components comes to its end. What it lists are the classes of nodes that the edges
connect both ways, whatever the order of the edges; so a grammar is found free of cycles just when no
symbol derives itself by productions from one symbol. -/
theorem Components.describes_ofEdges :
    (∀ edges : List (Node × Node),
      Search.step (Successors.ofEdges edges) (Search.run (Successors.ofEdges edges)) = none ∧
        Describes edges (ofEdges edges) ∧
        ∀ others : List (Node × Node), (∀ edge, edge ∈ others ↔ edge ∈ edges) →
          ofEdges others = { ofEdges edges with edgeCount := others.length }) ∧
      ∀ grammar : Grammar,
        grammar.unaryCycles = [] ↔ ¬ ∃ symbol, TransGen grammar.Renames symbol symbol :=
  ⟨fun edges => ⟨Search.step_run_eq_none (Successors.closed_ofEdges edges), describes edges,
    fun _ => ofEdges_congr⟩, fun grammar => grammar.unaryCycles_eq_nil_iff.trans not_exists.symm⟩

theorem Components.describes_ofEdges_repeated :
    (∀ edge, edge ∈ [(7, 5), (5, 7), (7, 7), (5, 7)] ↔ edge ∈ [(5, 7), (7, 5), (7, 7)]) ∧
      ofEdges [(7, 5), (5, 7), (7, 7), (5, 7)] = { ofEdges [(5, 7), (7, 5), (7, 7)] with edgeCount := 4 } := by
  have same : ∀ edge, edge ∈ [(7, 5), (5, 7), (7, 7), (5, 7)] ↔ edge ∈ [(5, 7), (7, 5), (7, 7)] := by
    intro edge
    simp only [List.mem_cons, List.not_mem_nil, or_false]
    tauto
  exact ⟨same, (describes_ofEdges.1 _).2.2 _ same⟩

end GrammarReach
