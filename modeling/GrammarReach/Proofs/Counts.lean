import Mathlib.Algebra.BigOperators.Group.List.Lemmas
import Mathlib.Algebra.GroupWithZero.Nat
import GrammarReach.Proofs.Dataset
import GrammarReach.Solve.Stats

namespace GrammarReach

/-- A table lists no key twice. -/
theorem distinct_keys {κ β : Type} [Ord κ] [Std.TransOrd κ] [Std.LawfulEqOrd κ] (table : Std.TreeMap κ β) :
    table.toList.Pairwise fun first second => first.1 ≠ second.1 :=
  Std.TreeMap.distinct_keys_toList.imp fun apart same =>
    apart (Std.LawfulEqCmp.compare_eq_iff_eq.mpr same)

/-- A table tells how often each symbol occurs in a list, of those that do occur. -/
def Tallies (counts : Std.TreeMap Symbol Nat) (symbols : List Symbol) : Prop :=
  ∀ symbol, counts[symbol]? = if symbol ∈ symbols then some (symbols.count symbol) else none

namespace Tallies

variable {counts others : Std.TreeMap Symbol Nat} {symbols more : List Symbol}

theorem empty : Tallies ∅ [] := fun symbol => by simp

theorem getD (tallies : Tallies counts symbols) (symbol : Symbol) :
    counts.getD symbol 0 = symbols.count symbol := by
  rw [Std.TreeMap.getD_eq_getD_getElem?, tallies]
  split
  · rfl
  · next absent => exact (List.count_eq_zero_of_not_mem absent).symm

theorem perm (tallies : Tallies counts symbols) (perm : symbols.Perm more) : Tallies counts more := by
  intro symbol
  simp only [tallies symbol, perm.mem_iff, perm.count_eq]

/-- Counting one symbol several times, but at least once. -/
theorem add (tallies : Tallies counts symbols) (symbol : Symbol) {number : Nat} (some : 0 < number) :
    Tallies (counts.insert symbol (counts.getD symbol 0 + number))
      (symbols ++ List.replicate number symbol) := by
  intro other
  rw [Std.TreeMap.getElem?_insert, tallies.getD]
  by_cases same : symbol = other
  · subst same
    simp [Nat.ne_of_gt some]
  · have apart : other ≠ symbol := Ne.symm same
    simp [same, apart, tallies other, List.count_replicate]

/-- The entries of a table are the symbols of the list, each once and with its count. -/
theorem toList_perm (tallies : Tallies counts symbols) :
    counts.toList.Perm (symbols.dedup.map fun symbol => (symbol, symbols.count symbol)) := by
  have distinct : counts.toList.Nodup := (distinct_keys counts).imp fun apart same =>
    apart (congrArg Prod.fst same)
  refine (List.perm_ext_iff_of_nodup distinct ?_).mpr ?_
  · exact (symbols.nodup_dedup).map fun _ _ same => (Prod.mk.inj same).1
  · rintro ⟨symbol, number⟩
    rw [Std.TreeMap.mem_toList_iff_getElem?_eq_some, tallies]
    simp only [Option.ite_none_right_eq_some, Option.some.injEq, List.mem_map, List.mem_dedup,
      Prod.mk.injEq]
    constructor
    · rintro ⟨listed, rfl⟩
      exact ⟨symbol, listed, rfl, rfl⟩
    · rintro ⟨_, listed, rfl, rfl⟩
      exact ⟨listed, rfl⟩

/-- Two tables of one list have the same entries. -/
theorem toList_eq (tallies : Tallies counts symbols) (tallies' : Tallies others symbols) :
    counts.toList = others.toList :=
  Std.TreeMap.equiv_iff_toList_eq.mp (Std.TreeMap.Equiv.of_toList_perm
    (tallies.toList_perm.trans tallies'.toList_perm.symm))

private theorem foldl_sum (kept : Symbol → Bool) (entries : List (Symbol × Nat)) (total : Nat) :
    entries.foldl (fun total entry => if kept entry.1 then total + entry.2 else total) total =
      total + ((entries.filter (kept ·.1)).map (·.2)).sum := by
  induction entries generalizing total with
  | nil => simp
  | cons entry entries ih =>
    rw [List.foldl_cons, ih, List.filter_cons]
    split
    · rw [List.map_cons, List.sum_cons, Nat.add_assoc]
    · rfl

/-- Summing the counts of some symbols counts their occurrences. -/
theorem foldl_eq_countP (tallies : Tallies counts symbols) (kept : Symbol → Bool) :
    counts.foldl (fun total symbol number => if kept symbol then total + number else total) 0 =
      symbols.countP kept := by
  rw [Std.TreeMap.foldl_eq_foldl_toList, foldl_sum, Nat.zero_add,
    ((tallies.toList_perm.filter _).map _).sum_eq, List.filter_map, List.map_map]
  exact List.sum_map_count_dedup_filter_eq_countP kept symbols

end Tallies

namespace Dataset

variable {data other : Dataset}

/-- No two sets of targets are of one source and one label. -/
private theorem targetSets_distinct (data : Dataset) :
    data.targetSets.Pairwise fun first second => (first.1, first.2.1) ≠ (second.1, second.2.1) := by
  refine List.pairwise_flatMap.mpr ⟨fun row _ => ?_, (distinct_keys data.outgoing.rows).imp ?_⟩
  · rw [List.pairwise_map]
    exact (distinct_keys row.2).imp fun apart same => apart (Prod.mk.inj same).2
  · intro one two apart first inFirst second inSecond same
    obtain ⟨_, -, rfl⟩ := List.mem_map.mp inFirst
    obtain ⟨_, -, rfl⟩ := List.mem_map.mp inSecond
    exact apart (Prod.mk.inj same).1

private def edgesOf (entry : Node × Label × NodeSet) : List Edge :=
  entry.2.2.toList.map fun dst => ⟨entry.1, dst, entry.2.1⟩

private theorem edges_perm_flatMap (data : Dataset) : data.edges.Perm (data.targetSets.flatMap edgesOf) :=
  List.mergeSort_perm _ _

private theorem targets_spec (valid : data.Valid) {entry : Node × Label × NodeSet}
    (listed : entry ∈ data.targetSets) : entry.2.2.Valid ∧ 0 < entry.2.2.size := by
  obtain ⟨src, label, targets⟩ := entry
  have recorded := (data.mem_targetSets src label targets).mp listed
  obtain ⟨dst, held⟩ := valid.outgoing.inhabited src label targets recorded
  have targetsValid := (valid.outgoing.of_find? recorded).1
  refine ⟨targetsValid, ?_⟩
  rw [← NodeSet.length_toList]
  exact List.length_pos_of_mem ((NodeSet.mem_toList targets dst).mpr held)

theorem nodup_edges (valid : data.Valid) : data.edges.Nodup := by
  refine (edges_perm_flatMap data).nodup_iff.mpr (List.nodup_flatMap.mpr ⟨fun entry listed => ?_, ?_⟩)
  · refine (NodeSet.toList_nodup (targets_spec valid listed).1).map fun first second same => ?_
    exact (Edge.mk.inj same).2.1
  · refine (targetSets_distinct data).imp fun apart => ?_
    intro edge inFirst inSecond
    obtain ⟨_, -, rfl⟩ := List.mem_map.mp inFirst
    obtain ⟨_, -, same⟩ := List.mem_map.mp inSecond
    obtain ⟨src, -, label⟩ := Edge.mk.inj same
    exact apart (by rw [src, label])

/-- The list ascends strictly. -/
theorem edges_ascend (valid : data.Valid) : data.edges.Pairwise (compare · · = .lt) := by
  have sorted : data.edges.Pairwise fun a b => Edge.le a b := by
    refine List.pairwise_mergeSort (fun a b c => Std.TransCmp.isLE_trans) (fun a b => ?_) _
    rw [Bool.or_eq_true, or_iff_not_imp_left]
    intro above
    exact Ordering.isLE_of_eq_lt (Std.OrientedCmp.lt_of_not_isLE above)
  refine (sorted.and (nodup_edges valid)).imp fun {a b} ⟨le, apart⟩ => ?_
  rw [Edge.le, Ordering.isLE_iff_eq_lt_or_eq_eq] at le
  exact le.resolve_right fun same => apart (Std.LawfulEqCmp.eq_of_compare same)

/-- The count is the length of the list. -/
theorem length_edges (valid : data.Valid) : data.edges.length = data.edgeCount := by
  rw [← List.toFinset_card_of_nodup (nodup_edges valid)]
  refine (edgeCount_eq_card valid fun edge => ?_).symm
  rw [List.mem_toFinset, mem_edges]

/-- Datasets with the same edges list the same edges. -/
theorem edges_perm (valid : data.Valid) (otherValid : other.Valid)
    (same : ∀ edge, data.contains edge ↔ other.contains edge) : data.edges.Perm other.edges := by
  refine (List.perm_ext_iff_of_nodup (nodup_edges valid) (nodup_edges otherValid)).mpr fun edge => ?_
  rw [mem_edges, mem_edges, same]

private theorem foldl_tallies (entries : List (Node × Label × NodeSet))
    (inhabited : ∀ entry ∈ entries, 0 < entry.2.2.size) {counts : Std.TreeMap Symbol Nat}
    {symbols : List Symbol} (tallies : Tallies counts symbols) :
    Tallies (entries.foldl (fun counts (_, label, targets) =>
        counts.insert label.symbol (counts.getD label.symbol 0 + targets.size)) counts)
      (symbols ++ entries.flatMap fun entry => List.replicate entry.2.2.size entry.2.1.symbol) := by
  induction entries generalizing counts symbols with
  | nil => simpa using tallies
  | cons entry entries ih =>
    rw [List.foldl_cons, List.flatMap_cons, ← List.append_assoc]
    exact ih (fun other listed => inhabited other (List.mem_cons_of_mem _ listed))
      (tallies.add entry.2.1.symbol (inhabited entry List.mem_cons_self))

/-- The counts per symbol count the symbols of the edges. -/
theorem symbolCounts_tallies (valid : data.Valid) :
    Tallies data.symbolCounts (data.edges.map (·.label.symbol)) := by
  have tallies := foldl_tallies data.targetSets (fun entry listed => (targets_spec valid listed).2)
    Tallies.empty
  refine tallies.perm (((edges_perm_flatMap data).map _).trans (.of_eq ?_)).symm
  rw [List.nil_append, List.map_flatMap]
  refine List.flatMap_congr fun entry listed => ?_
  rw [edgesOf, List.map_map, ← NodeSet.length_toList,
    ← List.map_const']
  rfl

/-- The counts per symbol add up to the count of all edges. -/
theorem sum_symbolCounts (valid : data.Valid) :
    (data.symbolCounts.toList.map (·.2)).sum = data.edgeCount := by
  rw [((symbolCounts_tallies valid).toList_perm.map _).sum_eq, List.map_map, ← length_edges valid,
    ← List.length_map (·.label.symbol), ← List.sum_map_count_dedup_eq_length]
  rfl

private theorem foldl_union (symbol : Symbol) (entries : List (Label × NodeSet))
    (sound : ∀ entry ∈ entries, entry.2.Valid) {set : NodeSet} (setValid : set.Valid) :
    let united := entries.foldl
      (fun set entry => if entry.1.symbol == symbol then set.union entry.2 else set) set
    united.Valid ∧ ∀ node, united.contains node ↔ set.contains node ∨
      ∃ entry ∈ entries, entry.1.symbol = symbol ∧ entry.2.contains node := by
  induction entries generalizing set with
  | nil => simpa using setValid
  | cons entry entries ih =>
    obtain ⟨label, targets⟩ := entry
    have targetsValid : targets.Valid := sound (label, targets) List.mem_cons_self
    have rest : ∀ entry ∈ entries, entry.2.Valid := fun entry listed =>
      sound entry (List.mem_cons_of_mem _ listed)
    rw [List.foldl_cons]
    by_cases kind : label.symbol = symbol
    · obtain ⟨unitedValid, united⟩ := ih rest (NodeSet.valid_union setValid targetsValid)
      rw [if_pos (beq_iff_eq.mpr kind)]
      refine ⟨unitedValid, fun node => (united node).trans ?_⟩
      rw [NodeSet.contains_union setValid targetsValid, List.exists_mem_cons_iff, or_assoc]
      simp only [kind, true_and]
    · obtain ⟨unitedValid, united⟩ := ih rest setValid
      rw [if_neg (mt beq_iff_eq.mp kind)]
      refine ⟨unitedValid, fun node => (united node).trans ?_⟩
      rw [List.exists_mem_cons_iff]
      simp only [kind, false_and, false_or]

/-- The targets of a row under any label of a symbol. -/
private theorem row_spec (valid : data.Valid) (symbol : Symbol) {src : Node}
    {row : Std.TreeMap Label NodeSet compare} (listed : (src, row) ∈ data.outgoing.rows.toList) :
    let united := row.toList.foldl
      (fun set entry => if entry.1.symbol == symbol then set.union entry.2 else set) NodeSet.empty
    united.Valid ∧ ∀ dst, united.contains dst ↔ ∃ index, data.contains ⟨src, dst, ⟨symbol, index⟩⟩ := by
  have recorded : data.outgoing.rows[src]? = some row :=
    Std.TreeMap.mem_toList_iff_getElem?_eq_some.mp listed
  have found : ∀ label targets, (label, targets) ∈ row.toList ↔
      data.outgoing.find? src label = some targets := by
    intro label targets
    rw [Std.TreeMap.mem_toList_iff_getElem?_eq_some, LabelIndex.find?, recorded, Option.bind_some]
  have sound : ∀ entry ∈ row.toList, entry.2.Valid := fun entry inside =>
    (valid.outgoing.of_find? ((found entry.1 entry.2).mp inside)).1
  obtain ⟨unitedValid, united⟩ := foldl_union symbol row.toList sound NodeSet.valid_empty
  refine ⟨unitedValid, fun dst => (united dst).trans ?_⟩
  rw [or_iff_right (NodeSet.not_contains_empty dst)]
  constructor
  · rintro ⟨⟨⟨_, index⟩, targets⟩, inside, rfl, held⟩
    exact ⟨index, (data.outgoing.exists_find? _ _ _).mp ⟨targets, (found _ _).mp inside, held⟩⟩
  · rintro ⟨index, stored⟩
    obtain ⟨targets, recorded, held⟩ := (data.outgoing.exists_find? src ⟨symbol, index⟩ dst).mpr stored
    exact ⟨_, (found _ _).mpr recorded, rfl, held⟩

theorem mem_pairs (valid : data.Valid) (symbol : Symbol) (src dst : Node) :
    (src, dst) ∈ data.pairs symbol ↔ ∃ index, data.contains ⟨src, dst, ⟨symbol, index⟩⟩ := by
  simp only [pairs, List.mem_flatMap, List.mem_map, Prod.exists, Prod.mk.injEq]
  constructor
  · rintro ⟨_, row, listed, _, inside, rfl, rfl⟩
    obtain ⟨unitedValid, united⟩ := row_spec valid symbol listed
    exact (united _).mp ((NodeSet.mem_toList _ _).mp inside)
  · rintro ⟨index, stored⟩
    cases recorded : data.outgoing.rows[src]? with
    | none =>
      rw [contains, LabelIndex.find, LabelIndex.find?, recorded] at stored
      exact absurd stored (NodeSet.not_contains_empty dst)
    | some row =>
      have listed := Std.TreeMap.mem_toList_iff_getElem?_eq_some.mpr recorded
      obtain ⟨unitedValid, united⟩ := row_spec valid symbol listed
      exact ⟨src, row, listed, dst,
        (NodeSet.mem_toList _ dst).mpr ((united dst).mpr ⟨index, stored⟩), rfl, rfl⟩

theorem nodup_pairs (valid : data.Valid) (symbol : Symbol) : (data.pairs symbol).Nodup := by
  refine List.nodup_flatMap.mpr ⟨fun row listed => ?_, ?_⟩
  · obtain ⟨unitedValid, -⟩ := row_spec valid symbol listed
    exact (NodeSet.toList_nodup unitedValid).map fun _ _ same => (Prod.mk.inj same).2
  · refine (distinct_keys data.outgoing.rows).imp fun apart => ?_
    intro pair inFirst inSecond
    obtain ⟨_, -, rfl⟩ := List.mem_map.mp inFirst
    obtain ⟨_, -, same⟩ := List.mem_map.mp inSecond
    exact apart (Prod.mk.inj same).1.symm

theorem pairs_perm (valid : data.Valid) (otherValid : other.Valid)
    (same : ∀ edge, data.contains edge ↔ other.contains edge) (symbol : Symbol) :
    (data.pairs symbol).Perm (other.pairs symbol) := by
  refine (List.perm_ext_iff_of_nodup (nodup_pairs valid symbol) (nodup_pairs otherValid symbol)).mpr ?_
  rintro ⟨src, dst⟩
  simp only [mem_pairs valid, mem_pairs otherValid, same]

end Dataset

end GrammarReach
