import Mathlib.Data.List.Sort
import GrammarReach.NodeSet

/-!
Sets of nodes, seen through their members. Every operation is described by what `contains` answers
afterwards. The list of a set stays ascending, and its buffer repeats nothing and lacks what is listed,
so sorting and merging the two repeats no member, and the reported additions of a bulk union are exact.
-/

namespace GrammarReach

private theorem insertSorted_eq (node : Node) (list : List Node) :
    insertSorted node list = list.orderedInsert (· ≤ ·) node := by
  induction list with
  | nil => rfl
  | cons head rest ih => rw [insertSorted, ih, List.orderedInsert_cons]

theorem sortNodes_eq (nodes : List Node) : sortNodes nodes = nodes.insertionSort (· ≤ ·) := by
  have same : insertSorted = List.orderedInsert (· ≤ ·) := funext₂ insertSorted_eq
  rw [sortNodes, same, List.insertionSort]

theorem sortNodes_perm (nodes : List Node) : (sortNodes nodes).Perm nodes := by
  rw [sortNodes_eq]
  exact List.perm_insertionSort _ nodes

theorem sortNodes_sorted (nodes : List Node) : (sortNodes nodes).Pairwise (· ≤ ·) := by
  rw [sortNodes_eq]
  exact List.pairwise_insertionSort _ nodes

private theorem mergeNode_eq (node : Node) (nodes : List Node) {rest : List Node → List Node}
    (merges : ∀ others, rest others = nodes.merge others) (others : List Node) :
    mergeNode node rest others = (node :: nodes).merge others := by
  induction others with
  | nil => rw [mergeNode, merges, List.merge_right, List.merge_right]
  | cons head tail ih => simp only [mergeNode, merges, ih, List.cons_merge_cons, decide_eq_true_eq]

theorem mergeSorted_eq (nodes others : List Node) : mergeSorted nodes others = nodes.merge others := by
  induction nodes generalizing others with
  | nil => rw [mergeSorted, List.nil_merge]
  | cons node nodes ih => exact mergeNode_eq node nodes ih others

theorem mergeSorted_perm (nodes others : List Node) :
    (mergeSorted nodes others).Perm (nodes ++ others) := by
  rw [mergeSorted_eq]
  exact List.merge_perm_append _

theorem mergeSorted_sorted {nodes others : List Node} (sorted : nodes.Pairwise (· ≤ ·))
    (sorted' : others.Pairwise (· ≤ ·)) : (mergeSorted nodes others).Pairwise (· ≤ ·) := by
  rw [mergeSorted_eq]
  have merged : (nodes.merge others).Pairwise fun one two => decide (one ≤ two) = true := by
    refine List.pairwise_merge ?_ ?_ nodes others ?_ ?_
    · simpa using fun _ _ _ => Nat.le_trans
    · simpa using Nat.le_total
    · simpa using sorted
    · simpa using sorted'
  simpa using merged

/-- A sorted list that repeats nothing ascends. -/
private theorem ascends_of_sorted {list : List Node} (sorted : list.Pairwise (· ≤ ·))
    (distinct : list.Nodup) : list.Pairwise (· < ·) :=
  sorted.imp₂ (fun _ _ below apart => Nat.lt_of_le_of_ne below apart) distinct

private theorem mem_dropRepeats (node : Node) (list : List Node) :
    node ∈ dropRepeats list ↔ node ∈ list := by
  induction list with
  | nil => simp [dropRepeats]
  | cons head rest ih =>
    rw [dropRepeats]
    split
    · next again =>
      rw [ih, List.mem_cons, or_iff_right_of_imp]
      rintro rfl
      exact List.mem_of_mem_head? again
    · rw [List.mem_cons, List.mem_cons, ih]

private theorem dropRepeats_ascends {list : List Node} (sorted : list.Pairwise (· ≤ ·)) :
    (dropRepeats list).Pairwise (· < ·) := by
  induction list with
  | nil => simp [dropRepeats]
  | cons head rest ih =>
    obtain ⟨below, sortedRest⟩ := List.pairwise_cons.mp sorted
    rw [dropRepeats]
    split
    · exact ih sortedRest
    · next alone =>
      refine List.pairwise_cons.mpr ⟨fun other member => ?_, ih sortedRest⟩
      have later := (mem_dropRepeats other rest).mp member
      refine Nat.lt_of_le_of_ne (below other later) ?_
      -- Had the node come again, it would have come right behind, for the list is sorted.
      rintro rfl
      cases rest with
      | nil => cases later
      | cons first rest =>
        have least : first ≤ head := by
          rcases List.mem_cons.mp later with same | later
          · exact Nat.le_of_eq same.symm
          · exact List.rel_of_pairwise_cons sortedRest later
        exact alone (congrArg some (Nat.le_antisymm least (below first List.mem_cons_self)))

theorem mem_ascending (node : Node) (list : List Node) : node ∈ ascending list ↔ node ∈ list := by
  rw [ascending, mem_dropRepeats, (sortNodes_perm list).mem_iff]

theorem ascending_ascends (list : List Node) : (ascending list).Pairwise (· < ·) :=
  dropRepeats_ascends (sortNodes_sorted list)

/-- What one pass over two ascending lists gives: their union, and what the first one lacks. -/
structure Unites (left right : List Node) (union : AscendingUnion) : Prop where
  mem_all : ∀ node, node ∈ union.all ↔ node ∈ left ∨ node ∈ right
  mem_fresh : ∀ node, node ∈ union.fresh ↔ node ∈ right ∧ node ∉ left
  all_ascends : union.all.Pairwise (· < ·)
  fresh_ascends : union.fresh.Pairwise (· < ·)

section Unites

variable {left right : List Node} {union : AscendingUnion} {node : Node}

/-- What lies below both lists lies below their union. -/
theorem Unites.above (unites : Unites left right union) (aboveLeft : ∀ other ∈ left, node < other)
    (aboveRight : ∀ other ∈ right, node < other) : ∀ other ∈ union.all, node < other :=
  fun other member =>
    ((unites.mem_all other).mp member).elim (aboveLeft other) (aboveRight other)

/-- A node below both lists that only the first one has. -/
theorem Unites.cons_left (unites : Unites left right union)
    (aboveLeft : ∀ other ∈ left, node < other) (aboveRight : ∀ other ∈ right, node < other) :
    Unites (node :: left) right { union with all := node :: union.all } where
  mem_all other := by
    simp only [List.mem_cons, unites.mem_all]
    tauto
  mem_fresh other := by
    rw [unites.mem_fresh]
    refine and_congr_right fun member => not_congr ?_
    rw [List.mem_cons, or_iff_right]
    rintro rfl
    exact Nat.lt_irrefl _ (aboveRight _ member)
  all_ascends := List.pairwise_cons.mpr ⟨unites.above aboveLeft aboveRight, unites.all_ascends⟩
  fresh_ascends := unites.fresh_ascends

/-- A node below both lists that only the second one has. -/
theorem Unites.cons_right (unites : Unites left right union)
    (aboveLeft : ∀ other ∈ left, node < other) (aboveRight : ∀ other ∈ right, node < other) :
    Unites left (node :: right) ⟨node :: union.all, node :: union.fresh⟩ where
  mem_all other := by
    simp only [List.mem_cons, unites.mem_all]
    tauto
  mem_fresh other := by
    rw [List.mem_cons (a := other), List.mem_cons (a := other) (b := node), unites.mem_fresh]
    constructor
    · rintro (rfl | ⟨member, lacks⟩)
      · exact ⟨.inl rfl, fun member => Nat.lt_irrefl _ (aboveLeft _ member)⟩
      · exact ⟨.inr member, lacks⟩
    · rintro ⟨rfl | member, lacks⟩
      · exact .inl rfl
      · exact .inr ⟨member, lacks⟩
  all_ascends := List.pairwise_cons.mpr ⟨unites.above aboveLeft aboveRight, unites.all_ascends⟩
  fresh_ascends := List.pairwise_cons.mpr
    ⟨fun other member => aboveRight other ((unites.mem_fresh other).mp member).1,
      unites.fresh_ascends⟩

/-- A node below the rest of both lists that both of them have. -/
theorem Unites.cons_both (unites : Unites left right union)
    (aboveLeft : ∀ other ∈ left, node < other) (aboveRight : ∀ other ∈ right, node < other) :
    Unites (node :: left) (node :: right) { union with all := node :: union.all } where
  mem_all other := by
    simp only [List.mem_cons, unites.mem_all]
    tauto
  mem_fresh other := by
    simp only [List.mem_cons, unites.mem_fresh]
    constructor
    · rintro ⟨member, lacks⟩
      refine ⟨.inr member, ?_⟩
      rintro (rfl | member')
      · exact Nat.lt_irrefl _ (aboveRight _ member)
      · exact lacks member'
    · rintro ⟨rfl | member, lacks⟩
      · exact absurd (.inl rfl) lacks
      · exact ⟨member, fun member' => lacks (.inr member')⟩
  all_ascends := List.pairwise_cons.mpr ⟨unites.above aboveLeft aboveRight, unites.all_ascends⟩
  fresh_ascends := unites.fresh_ascends

end Unites

private theorem weave_unites (node : Node) (left : List Node) (rest : List Node → AscendingUnion)
    (above : ∀ other ∈ left, node < other)
    (unites : ∀ right : List Node, right.Pairwise (· < ·) → Unites left right (rest right))
    (right : List Node) (ascends : right.Pairwise (· < ·)) :
    Unites (node :: left) right (AscendingUnion.weave node rest right) := by
  induction right with
  | nil => exact (unites [] .nil).cons_left above (by simp)
  | cons head tail ih =>
    obtain ⟨aboveHead, tailAscends⟩ := List.pairwise_cons.mp ascends
    unfold AscendingUnion.weave
    split
    · next below =>
      refine (unites (head :: tail) ascends).cons_left above fun other member => ?_
      rcases List.mem_cons.mp member with rfl | member
      · exact below
      · exact Nat.lt_trans below (aboveHead other member)
    · split
      · next reached =>
        refine (ih tailAscends).cons_right (fun other member => ?_) aboveHead
        rcases List.mem_cons.mp member with rfl | member
        · exact reached
        · exact Nat.lt_trans reached (above other member)
      · next notBelow notAbove =>
        obtain rfl := Nat.le_antisymm (Nat.not_lt.mp notAbove) (Nat.not_lt.mp notBelow)
        exact (unites tail tailAscends).cons_both above aboveHead

/-- One pass unites two ascending lists and finds exactly what only the second one has. -/
theorem uniteAscending_unites (left right : List Node) (leftAscends : left.Pairwise (· < ·))
    (rightAscends : right.Pairwise (· < ·)) : Unites left right (uniteAscending left right) := by
  induction left generalizing right with
  | nil => exact ⟨by simp [uniteAscending], by simp [uniteAscending], rightAscends, rightAscends⟩
  | cons node left ih =>
    obtain ⟨above, tail⟩ := List.pairwise_cons.mp leftAscends
    exact weave_unites node left _ above (fun right ascends => ih right tail ascends) right
      rightAscends

namespace NodeSet

/-- The list ascends, the buffer repeats nothing, and the two share no member. -/
structure Valid (set : NodeSet) : Prop where
  ascends : set.elements.Pairwise (· < ·)
  distinct : set.pending.Nodup
  apart : ∀ node ∈ set.pending, node ∉ set.elements

theorem valid_empty : empty.Valid := ⟨.nil, .nil, by simp [empty]⟩

/-- An ascending list alone is a set. -/
theorem valid_ofAscending {list : List Node} (ascends : list.Pairwise (· < ·)) :
    Valid { elements := list } := ⟨ascends, .nil, by simp⟩

theorem contains_iff (set : NodeSet) (node : Node) :
    set.contains node ↔ node ∈ set.pending ∨ node ∈ set.elements := by
  simp [contains]

@[simp] theorem not_contains_empty (node : Node) : ¬ empty.contains node := by
  simp [contains_iff, empty]

theorem contains_ofAscending (list : List Node) (node : Node) :
    contains { elements := list } node ↔ node ∈ list := by
  simp [contains_iff]

/-- The view of a set lists what its two parts hold, as often as they hold it. -/
theorem toList_perm (set : NodeSet) : set.toList.Perm (set.elements ++ set.pending) := by
  have sorted := sortNodes_perm set.pending
  exact (mergeSorted_perm _ _).trans ((sorted.append_right _).trans List.perm_append_comm)

/-- The view of a set lists its members. -/
theorem mem_toList (set : NodeSet) (node : Node) : node ∈ set.toList ↔ set.contains node := by
  rw [(toList_perm set).mem_iff, List.mem_append, contains_iff, or_comm]

/-- The size of a set is the length of its view. -/
theorem length_toList (set : NodeSet) : set.toList.length = set.size := by
  rw [(toList_perm set).length_eq, List.length_append, size]

theorem toList_nodup {set : NodeSet} (valid : set.Valid) : set.toList.Nodup := by
  refine (toList_perm set).nodup_iff.mpr (List.nodup_append.mpr ?_)
  refine ⟨valid.ascends.imp fun below => Nat.ne_of_lt below, valid.distinct, ?_⟩
  rintro node listed _ buffered rfl
  exact valid.apart node buffered listed

/-- The view of a set ascends, for neither part of it repeats a member and the parts share none. -/
theorem toList_ascends {set : NodeSet} (valid : set.Valid) : set.toList.Pairwise (· < ·) := by
  refine ascends_of_sorted (mergeSorted_sorted (sortNodes_sorted _) ?_) (toList_nodup valid)
  exact valid.ascends.imp fun below => Nat.le_of_lt below

private theorem consolidate_unites {set : NodeSet} (valid : set.Valid) :
    Unites set.elements (sortNodes set.pending) (uniteAscending set.elements (sortNodes set.pending)) := by
  refine uniteAscending_unites _ _ valid.ascends (ascends_of_sorted (sortNodes_sorted _) ?_)
  exact (sortNodes_perm _).nodup_iff.mpr valid.distinct

theorem valid_consolidate {set : NodeSet} (valid : set.Valid) : set.consolidate.Valid :=
  valid_ofAscending (consolidate_unites valid).all_ascends

theorem contains_consolidate {set : NodeSet} (valid : set.Valid) (node : Node) :
    set.consolidate.contains node ↔ set.contains node := by
  rw [consolidate, contains_ofAscending, (consolidate_unites valid).mem_all,
    (sortNodes_perm _).mem_iff, contains_iff, or_comm]

theorem isEmpty_iff (set : NodeSet) : set.isEmpty ↔ ∀ node, ¬ set.contains node := by
  obtain ⟨elements, pending⟩ := set
  constructor
  · intro none node
    simp only [isEmpty, Bool.and_eq_true, List.isEmpty_iff] at none
    simp [contains_iff, none.1, none.2]
  · intro none
    simp only [contains_iff, not_or] at none
    simp [isEmpty, List.eq_nil_iff_forall_not_mem.mpr fun node => (none node).1,
      List.eq_nil_iff_forall_not_mem.mpr fun node => (none node).2]

theorem valid_singleton (node : Node) : (singleton node).Valid :=
  valid_ofAscending (List.pairwise_singleton _ node)

theorem contains_singleton (node other : Node) : (singleton node).contains other ↔ other = node := by
  rw [singleton, contains_ofAscending, List.mem_singleton]

theorem valid_ofList (nodes : List Node) : (ofList nodes).Valid :=
  valid_ofAscending (ascending_ascends nodes)

theorem contains_ofList (nodes : List Node) (node : Node) :
    (ofList nodes).contains node ↔ node ∈ nodes := by
  rw [ofList, contains_ofAscending, mem_ascending]

theorem insert_flag (set : NodeSet) (node : Node) :
    (set.insert node).2 = !set.contains node := by
  unfold insert
  split <;> simp_all

private theorem valid_buffered {set : NodeSet} (valid : set.Valid) {node : Node}
    (absent : ¬ set.contains node) : Valid { set with pending := node :: set.pending } := by
  rw [contains_iff, not_or] at absent
  refine ⟨valid.ascends, List.nodup_cons.mpr ⟨absent.1, valid.distinct⟩, ?_⟩
  intro other buffered
  rcases List.mem_cons.mp buffered with rfl | buffered
  · exact absent.2
  · exact valid.apart other buffered

theorem valid_insert {set : NodeSet} (valid : set.Valid) (node : Node) :
    (set.insert node).1.Valid := by
  unfold insert
  split
  · exact valid
  · next absent =>
    have grown := valid_buffered valid absent
    dsimp only
    split
    · exact valid_consolidate grown
    · exact grown

/-- Insertion adds the node and nothing else. -/
theorem contains_insert {set : NodeSet} (valid : set.Valid) (node other : Node) :
    (set.insert node).1.contains other ↔ other = node ∨ set.contains other := by
  unfold insert
  split
  · next present =>
    constructor
    · exact .inr
    · rintro (rfl | member)
      · exact present
      · exact member
  · next absent =>
    have grown : contains { set with pending := node :: set.pending } other ↔
        other = node ∨ set.contains other := by
      simp only [contains_iff, List.mem_cons]
      tauto
    dsimp only
    split
    · rw [contains_consolidate (valid_buffered valid absent), grown]
    · exact grown

/-- Inserting the members of a list one by one. -/
theorem insertAll_spec {set : NodeSet} (valid : set.Valid) (nodes : List Node) :
    (set.insertAll nodes).Valid ∧
      ∀ node, (set.insertAll nodes).contains node ↔ set.contains node ∨ node ∈ nodes := by
  induction nodes generalizing set with
  | nil => simpa [insertAll] using valid
  | cons first nodes ih =>
    obtain ⟨grown, members⟩ := ih (valid_insert valid first)
    refine ⟨grown, fun node => (members node).trans ?_⟩
    rw [contains_insert valid, List.mem_cons]
    tauto

theorem remove_flag (set : NodeSet) (node : Node) : (set.remove node).2 = set.contains node := by
  unfold remove contains
  split
  · next buffered => simp_all
  · next missing =>
    split
    · next listed => simp_all
    · next absent => simp_all

theorem valid_remove {set : NodeSet} (valid : set.Valid) (node : Node) : (set.remove node).1.Valid := by
  unfold remove
  split
  · refine ⟨valid.ascends, valid.distinct.erase node, fun other buffered => ?_⟩
    exact valid.apart other (List.mem_of_mem_erase buffered)
  · split
    · refine ⟨valid.ascends.sublist List.erase_sublist, valid.distinct, fun other buffered listed => ?_⟩
      exact valid.apart other buffered (List.mem_of_mem_erase listed)
    · exact valid

/-- Removal takes out the node and nothing else, whichever part holds it. -/
theorem contains_remove {set : NodeSet} (valid : set.Valid) (node other : Node) :
    (set.remove node).1.contains other ↔ set.contains other ∧ other ≠ node := by
  have listedOnce : set.elements.Nodup := valid.ascends.imp fun below => Nat.ne_of_lt below
  unfold remove
  split
  · next buffered =>
    have unlisted := valid.apart node (List.contains_iff_mem.mp buffered)
    simp only [contains_iff, valid.distinct.mem_erase_iff]
    constructor
    · rintro (⟨apart, member⟩ | member)
      · exact ⟨.inl member, apart⟩
      · exact ⟨.inr member, fun same => unlisted (same ▸ member)⟩
    · rintro ⟨member | member, apart⟩
      · exact .inl ⟨apart, member⟩
      · exact .inr member
  · next missing =>
    rw [List.contains_iff_mem] at missing
    split
    · simp only [contains_iff, listedOnce.mem_erase_iff]
      constructor
      · rintro (member | ⟨apart, member⟩)
        · exact ⟨.inl member, fun same => missing (same ▸ member)⟩
        · exact ⟨.inr member, apart⟩
      · rintro ⟨member | member, apart⟩
        · exact .inl member
        · exact .inr ⟨apart, member⟩
    · next unlisted =>
      rw [List.contains_iff_mem] at unlisted
      refine (and_iff_left_of_imp fun member same => ?_).symm
      obtain buffered | listed := (contains_iff set other).mp member
      · exact missing (same ▸ buffered)
      · exact unlisted (same ▸ listed)

private theorem mem_consolidated {set : NodeSet} (valid : set.Valid) (node : Node) :
    node ∈ set.consolidate.elements ↔ set.contains node :=
  (contains_ofAscending _ node).symm.trans (contains_consolidate valid node)

private theorem unionNew_unites {set other : NodeSet} (valid : set.Valid) (otherValid : other.Valid) :
    Unites set.consolidate.elements other.toList
      (uniteAscending set.consolidate.elements other.toList) :=
  uniteAscending_unites _ _ (valid_consolidate valid).ascends (toList_ascends otherValid)

theorem valid_unionNew {set other : NodeSet} (valid : set.Valid) (otherValid : other.Valid) :
    (set.unionNew other).1.Valid ∧ (set.unionNew other).2.Valid := by
  unfold unionNew
  split
  · exact ⟨valid, valid_empty⟩
  · have united := unionNew_unites valid otherValid
    exact ⟨valid_ofAscending united.all_ascends, valid_ofAscending united.fresh_ascends⟩

theorem contains_unionNew {set other : NodeSet} (valid : set.Valid) (otherValid : other.Valid)
    (node : Node) :
    (set.unionNew other).1.contains node ↔ set.contains node ∨ other.contains node := by
  unfold unionNew
  split
  · next none =>
    have lacks := (isEmpty_iff other).mp none node
    simp [lacks]
  · have united := unionNew_unites valid otherValid
    rw [contains_ofAscending, united.mem_all, mem_consolidated valid, mem_toList]

/-- A bulk union reports exactly the members that were absent. -/
theorem contains_unionNew_fresh {set other : NodeSet} (valid : set.Valid) (otherValid : other.Valid)
    (node : Node) :
    (set.unionNew other).2.contains node ↔ other.contains node ∧ ¬ set.contains node := by
  unfold unionNew
  split
  · next none =>
    have lacks := (isEmpty_iff other).mp none node
    simp [lacks]
  · have united := unionNew_unites valid otherValid
    rw [contains_ofAscending, united.mem_fresh, mem_consolidated valid, mem_toList]

theorem valid_union {set other : NodeSet} (valid : set.Valid) (otherValid : other.Valid) :
    (set.union other).Valid := (valid_unionNew valid otherValid).1

theorem contains_union {set other : NodeSet} (valid : set.Valid) (otherValid : other.Valid)
    (node : Node) : (set.union other).contains node ↔ set.contains node ∨ other.contains node :=
  contains_unionNew valid otherValid node

theorem valid_difference {set : NodeSet} (valid : set.Valid) (other : NodeSet) :
    (set.difference other).Valid :=
  valid_ofAscending ((toList_ascends valid).filter _)

theorem contains_difference (set other : NodeSet) (node : Node) :
    (set.difference other).contains node ↔ set.contains node ∧ ¬ other.contains node := by
  rw [difference, contains_ofAscending]
  simp [List.mem_filter, mem_toList]

private theorem head?_least {list : List Node} (ascends : list.Pairwise (· < ·)) {node : Node}
    (first : list.head? = some node) : node ∈ list ∧ ∀ other ∈ list, node ≤ other := by
  obtain ⟨rest, rfl⟩ := List.head?_eq_some_iff.mp first
  refine ⟨List.mem_cons_self, fun other listed => ?_⟩
  obtain rfl | later := List.mem_cons.mp listed
  · exact Nat.le_refl _
  · exact Nat.le_of_lt (List.rel_of_pairwise_cons ascends later)

/-- The first member is the least one of both parts. -/
theorem first?_least {set : NodeSet} (valid : set.Valid) {node : Node} (first : set.first? = some node) :
    set.contains node ∧ ∀ other, set.contains other → node ≤ other := by
  simp only [contains_iff]
  unfold first? at first
  split at first
  · next listed buffered one two =>
    obtain ⟨inList, belowList⟩ := head?_least valid.ascends one
    obtain ⟨inBuffer, belowBuffer⟩ := List.min?_eq_some_iff.mp two
    obtain rfl := Option.some.inj first
    refine ⟨?_, ?_⟩
    · rcases Nat.le_total listed buffered with le | le
      · exact .inr ((Nat.min_eq_left le).symm ▸ inList)
      · exact .inl ((Nat.min_eq_right le).symm ▸ inBuffer)
    · rintro other (member | member)
      · exact Nat.le_trans (Nat.min_le_right _ _) (belowBuffer other member)
      · exact Nat.le_trans (Nat.min_le_left _ _) (belowList other member)
  · next listed one two =>
    obtain ⟨inList, belowList⟩ := head?_least valid.ascends one
    obtain rfl := Option.some.inj first
    have none := List.min?_eq_none_iff.mp two
    refine ⟨.inr inList, ?_⟩
    rintro other (member | member)
    · simp [none] at member
    · exact belowList other member
  · next one =>
    obtain ⟨inBuffer, belowBuffer⟩ := List.min?_eq_some_iff.mp first
    have none := List.head?_eq_none_iff.mp one
    refine ⟨.inl inBuffer, ?_⟩
    rintro other (member | member)
    · exact belowBuffer other member
    · simp [none] at member

/-- Only the empty set has no first member. -/
theorem first?_eq_none_iff (set : NodeSet) : set.first? = none ↔ ∀ node, ¬ set.contains node := by
  rw [← isEmpty_iff, isEmpty, Bool.and_eq_true, List.isEmpty_iff, List.isEmpty_iff]
  unfold first?
  split
  · next one two =>
    obtain ⟨rest, listed⟩ := List.head?_eq_some_iff.mp one
    simp [listed]
  · next one two =>
    obtain ⟨rest, listed⟩ := List.head?_eq_some_iff.mp one
    simp [listed]
  · next one =>
    rw [List.head?_eq_none_iff] at one
    simp [one, List.min?_eq_none_iff]

/-- Two sets are the same when they have the same members, however these are laid out. -/
theorem same_iff {set other : NodeSet} (valid : set.Valid) (otherValid : other.Valid) :
    set.same other ↔ ∀ node, set.contains node ↔ other.contains node := by
  simp only [same, Bool.and_eq_true, beq_iff_eq, ← mem_toList]
  constructor
  · rintro ⟨-, listed⟩ node
    rw [listed]
  · intro members
    have listed : set.toList = other.toList := by
      refine List.Perm.eq_of_pairwise ?_ (toList_ascends valid) (toList_ascends otherValid)
        ((List.perm_ext_iff_of_nodup (toList_nodup valid) (toList_nodup otherValid)).mpr members)
      intro one two _ _ below above
      exact absurd (Nat.lt_trans below above) (Nat.lt_irrefl _)
    exact ⟨by rw [← length_toList, ← length_toList, listed], listed⟩

end NodeSet

end GrammarReach
