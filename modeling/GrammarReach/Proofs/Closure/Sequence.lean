import Mathlib.Data.Set.Card
import GrammarReach.Proofs.Closure.Basic

/-!
Closures that take in one edge after the other.

Whatever the edges and their order, a closure connects what the edges connect, the next edge reports
the pairs that it connects for the first time, and the counter tells how many pairs of two different
nodes are connected.
-/

namespace GrammarReach

open Relation (ReflTransGen)

/-- Two nodes are one, or there is a path from the one to the other along the given edges. -/
def Connects (edges : List (Node × Node)) : Node → Node → Prop :=
  ReflTransGen fun src dst => (src, dst) ∈ edges

/-- The pairs of two different nodes that edges connect. -/
def connectedPairs (edges : List (Node × Node)) : Set (Node × Node) :=
  {pair | pair.1 ≠ pair.2 ∧ Connects edges pair.1 pair.2}

theorem connects_nil (u v : Node) : Connects [] u v ↔ u = v := by
  constructor
  · intro path
    cases path with
    | refl => rfl
    | tail _ edge => exact absurd edge List.not_mem_nil
  · rintro rfl
    exact .refl

theorem connectedPairs_nil : connectedPairs [] = ∅ := by
  ext ⟨u, v⟩
  simp [connectedPairs, connects_nil]

/-- One more edge connects what reaches its start with what its end reaches. -/
theorem connects_concat (edges : List (Node × Node)) (src dst u v : Node) :
    Connects (edges ++ [(src, dst)]) u v ↔
      Connects edges u v ∨ (Connects edges u src ∧ Connects edges dst v) := by
  have same : (fun u v => (u, v) ∈ edges ++ [(src, dst)]) =
      WithEdge (fun u v => (u, v) ∈ edges) src dst := by
    funext u v
    simp [WithEdge]
  rw [Connects, same]
  exact reflTransGen_withEdge _ src dst u v

/-- What a closure that has taken in the given edges answers, reports and counts: whether one node
reaches another, which pairs a further edge would add, and how many pairs there are. -/
structure ClosureOf (edges : List (Node × Node)) (reaches : Node → Node → Bool)
    (added : Node → Node → List (Node × Node)) (pairs : Nat) : Prop where
  reaches : ∀ u v, reaches u v ↔ Connects edges u v
  distinct : ∀ src dst, (added src dst).Nodup
  added : ∀ src dst u v, (u, v) ∈ added src dst ↔
    u ≠ v ∧ ¬ Connects edges u v ∧ Connects (edges ++ [(src, dst)]) u v
  counted : (pairs : ℕ∞) = (connectedPairs edges).encard

namespace Closure

def insertAll (closure : Closure) (edges : List (Node × Node)) : Closure :=
  edges.foldl (fun closure edge => (closure.insert edge.1 edge.2).1) closure

/-- A closure connects what the given edges connect, and has counted it. -/
structure Tracks (closure : Closure) (edges : List (Node × Node)) : Prop where
  valid : closure.Valid
  reaches : ∀ u v, closure.Reaches u v ↔ Connects edges u v
  counted : (closure.pairs : ℕ∞) = (connectedPairs edges).encard

variable {closure : Closure} {edges : List (Node × Node)}

section Growth

variable {grown : Closure} {src dst : Node} {found : List (Node × Node)}

/-- The pairs that the next edge brings are those that it connects for the first time. -/
theorem Tracks.mem_found (tracks : closure.Tracks edges)
    (inserts : Inserts closure.Linked src dst grown.Linked found) (u v : Node) :
    (u, v) ∈ found ↔ u ≠ v ∧ ¬ Connects edges u v ∧ Connects (edges ++ [(src, dst)]) u v := by
  have old : ReflTransGen closure.Linked u v ↔ Connects edges u v := tracks.reaches u v
  have new : ReflTransGen grown.Linked u v ↔ Connects (edges ++ [(src, dst)]) u v := by
    rw [inserts.reaches, connects_concat, ← tracks.reaches, ← tracks.reaches, ← tracks.reaches]
    exact Iff.rfl
  rw [inserts.mem_found, old, new]
  constructor
  · rintro ⟨connected, unconnected⟩
    refine ⟨?_, unconnected, connected⟩
    rintro rfl
    exact unconnected .refl
  · exact fun ⟨_, unconnected, connected⟩ => ⟨connected, unconnected⟩

/-- A closure that takes in one more edge and counts the pairs that this brings. -/
theorem Tracks.grow (tracks : closure.Tracks edges) (valid : grown.Valid)
    (inserts : Inserts closure.Linked src dst grown.Linked found)
    (counted : grown.pairs = closure.pairs + found.length) :
    grown.Tracks (edges ++ [(src, dst)]) := by
  refine ⟨valid, fun u v => ?_, ?_⟩
  · rw [connects_concat, ← tracks.reaches, ← tracks.reaches, ← tracks.reaches]
    exact inserts.reaches u v
  · have parts : connectedPairs (edges ++ [(src, dst)]) =
        connectedPairs edges ∪ (found.toFinset : Set (Node × Node)) := by
      ext ⟨u, v⟩
      have old : Connects edges u v → Connects (edges ++ [(src, dst)]) u v := fun path =>
        (connects_concat edges src dst u v).mpr (.inl path)
      simp only [connectedPairs, Set.mem_ofPred_eq, Set.mem_union, List.coe_toFinset]
      rw [tracks.mem_found inserts u v]
      tauto
    have apart : Disjoint (connectedPairs edges) (found.toFinset : Set (Node × Node)) := by
      refine Set.disjoint_left.mpr ?_
      rintro ⟨u, v⟩ old listed
      rw [List.coe_toFinset, Set.mem_ofPred_eq, tracks.mem_found inserts u v] at listed
      exact listed.2.1 old.2
    rw [counted, parts, Set.encard_union_eq apart, ← tracks.counted,
      Set.encard_coe_eq_coe_finsetCard, List.toFinset_card_of_nodup inserts.distinct, Nat.cast_add]

end Growth

theorem Tracks.insert (tracks : closure.Tracks edges) (src dst : Node) :
    (closure.insert src dst).1.Tracks (edges ++ [(src, dst)]) := by
  obtain ⟨valid, inserts⟩ := insert_spec tracks.valid src dst
  exact tracks.grow valid inserts (pairs_insert tracks.valid src dst)

theorem tracks_insertAll {variant : Variant} (made : ofVariant? variant = some closure)
    (edges : List (Node × Node)) : (closure.insertAll edges).Tracks edges := by
  induction edges using List.reverseRecOn with
  | nil =>
    obtain ⟨valid, unlinked⟩ := ofVariant?_spec made
    refine ⟨valid, fun u v => ?_, ?_⟩
    · rw [connects_nil]
      constructor
      · intro path
        cases path with
        | refl => rfl
        | tail _ link => exact absurd link (unlinked _ _)
      · rintro rfl
        exact .refl
    · rw [connectedPairs_nil, Set.encard_empty]
      cases variant <;> cases made <;> rfl
  | append_singleton edges edge tracks =>
    rw [insertAll, List.foldl_append]
    exact tracks.insert edge.1 edge.2

/-- What holds of every closure after a sequence of edges. -/
theorem Tracks.closureOf (tracks : closure.Tracks edges) :
    ClosureOf edges (fun u v => (closure.reaches u v).2) (fun src dst => (closure.insert src dst).2)
      closure.pairs where
  reaches u v := (reaches_spec tracks.valid u v).2.2.trans (tracks.reaches u v)
  distinct src dst := (insert_spec tracks.valid src dst).2.distinct
  added src dst := tracks.mem_found (insert_spec tracks.valid src dst).2
  counted := tracks.counted

end Closure

namespace CriticalGraph

def insertAll (graph : CriticalGraph) (edges : List (Node × Node)) : CriticalGraph :=
  edges.foldl (fun graph edge => (graph.insert edge.1 edge.2).1) graph

theorem critical_insertAll (graph : CriticalGraph) (edges : List (Node × Node)) :
    (Closure.critical graph).insertAll edges = .critical (graph.insertAll edges) := by
  induction edges generalizing graph with
  | nil => rfl
  | cons edge edges ih => exact ih (graph.insert edge.1 edge.2).1

/-- After any sequence of edges, a critical graph is the closure of them, the edges that it stores
connect what they connect, and each of these is listed at both of its ends. -/
theorem closureOf_insertAll_critical (edges : List (Node × Node)) :
    let graph := empty.insertAll edges
    ClosureOf edges (fun u v => (graph.reaches u v).2) (fun src dst => (graph.insert src dst).2)
        graph.pairs ∧
      (∀ u v, (graph.reaches u v).2 ↔
        ReflTransGen (fun src dst => dst ∈ graph.successors src) u v) ∧
      ∀ src dst, src ∈ graph.predecessors dst ↔ dst ∈ graph.successors src := by
  have tracks := Closure.tracks_insertAll (show Closure.ofVariant? .focr = some _ from rfl) edges
  rw [critical_insertAll] at tracks
  obtain ⟨mirrored, -, exact⟩ : (empty.insertAll edges).Valid := tracks.valid
  exact ⟨tracks.closureOf, exact, mirrored⟩

end CriticalGraph

namespace DualForest

def insertAll (forest : DualForest) (edges : List (Node × Node)) : DualForest :=
  edges.foldl (fun forest edge => (forest.insert edge.1 edge.2).1) forest

theorem dual_insertAll (forest : DualForest) (edges : List (Node × Node)) :
    (Closure.dual forest).insertAll edges = .dual (forest.insertAll edges) := by
  induction edges generalizing forest with
  | nil => rfl
  | cons edge edges ih => exact ih (forest.insert edge.1 edge.2).1

/-- After any sequence of edges, two forests are the closure of them, and a node has a place in the
descendant tree of another one just if that one has a place in its ancestor tree. -/
theorem closureOf_insertAll_dual (edges : List (Node × Node)) :
    let forest := empty.insertAll edges
    ClosureOf edges (fun u v => (forest.reaches u v).2) (fun src dst => (forest.insert src dst).2)
        forest.descendants.pairs ∧
      ∀ u v, u ≠ v →
        ((forest.descendants.place? u v).isSome ↔ (forest.ancestors.place? v u).isSome) := by
  have tracks := Closure.tracks_insertAll (show Closure.ofVariant? .pocr = some _ from rfl) edges
  rw [dual_insertAll] at tracks
  have valid : (empty.insertAll edges).Valid := tracks.valid
  refine ⟨tracks.closureOf, fun u v apart => ?_⟩
  have mirrored := (valid.mirrored u v).symm
  simpa [Arena.holds, apart, apart.symm] using mirrored

end DualForest

namespace GraftForest

def insertAll (forest : GraftForest) (edges : List (Node × Node)) : GraftForest :=
  edges.foldl (fun forest edge => (forest.insert edge.1 edge.2).1) forest

theorem graft_insertAll (forest : GraftForest) (edges : List (Node × Node)) :
    (Closure.graft forest).insertAll edges = .graft (forest.insertAll edges) := by
  induction edges generalizing forest with
  | nil => rfl
  | cons edge edges ih => exact ih (forest.insert edge.1 edge.2).1

end GraftForest

/-- Closures of the same edges give the same answers, add the same pairs and count as many. -/
theorem ClosureOf.agree {edges : List (Node × Node)} {reaches reaches' : Node → Node → Bool}
    {added added' : Node → Node → List (Node × Node)} {pairs pairs' : Nat}
    (one : ClosureOf edges reaches added pairs) (two : ClosureOf edges reaches' added' pairs') :
    reaches = reaches' ∧ (∀ src dst, (added src dst).Perm (added' src dst)) ∧ pairs = pairs' := by
  refine ⟨?_, fun src dst => ?_, ?_⟩
  · funext u v
    rw [Bool.eq_iff_iff, one.reaches, two.reaches]
  · refine (List.perm_ext_iff_of_nodup (one.distinct src dst) (two.distinct src dst)).mpr ?_
    rintro ⟨u, v⟩
    rw [one.added, two.added]
  · exact Nat.cast_injective (R := ℕ∞) (one.counted.trans two.counted.symm)

namespace GraftForest

/-- After any sequence of edges, a forest of grafts is the closure of them: the tree of a node has, apart
from the node itself, what it reaches. The other structures answer, report and count the same. -/
theorem closureOf_insertAll_graft (edges : List (Node × Node)) :
    let forest := empty.insertAll edges
    let dual := DualForest.empty.insertAll edges
    let critical := CriticalGraph.empty.insertAll edges
    ClosureOf edges (fun u v => (forest.reaches u v).2) (fun src dst => (forest.insert src dst).2)
        forest.trees.pairs ∧
      (∀ u v, ((forest.trees.place? u v).isSome ∨ v = u) ↔ Connects edges u v) ∧
      (∀ u v, (forest.reaches u v).2 = (dual.reaches u v).2 ∧
        (forest.reaches u v).2 = (critical.reaches u v).2) ∧
      (∀ src dst, (forest.insert src dst).2.Perm (dual.insert src dst).2 ∧
        (forest.insert src dst).2.Perm (critical.insert src dst).2) ∧
      forest.trees.pairs = dual.descendants.pairs ∧ forest.trees.pairs = critical.pairs := by
  have tracks := Closure.tracks_insertAll
    (show Closure.ofVariant? .hierarchicalPocr = some _ from rfl) edges
  have tracksDual := Closure.tracks_insertAll (show Closure.ofVariant? .pocr = some _ from rfl) edges
  have tracksCritical := Closure.tracks_insertAll
    (show Closure.ofVariant? .focr = some _ from rfl) edges
  rw [graft_insertAll] at tracks
  rw [DualForest.dual_insertAll] at tracksDual
  rw [CriticalGraph.critical_insertAll] at tracksCritical
  obtain ⟨answers, reports, counts⟩ := tracks.closureOf.agree tracksDual.closureOf
  obtain ⟨answers', reports', counts'⟩ := tracks.closureOf.agree tracksCritical.closureOf
  refine ⟨tracks.closureOf, fun u v => ?_,
    fun u v => ⟨congrFun (congrFun answers u) v, congrFun (congrFun answers' u) v⟩,
    fun src dst => ⟨reports src dst, reports' src dst⟩, counts, counts'⟩
  rw [← tracks.closureOf.reaches]
  change _ ↔ Arena.holds _ u v
  rw [Arena.holds_iff, Option.isSome_iff_exists, or_comm, eq_comm]

end GraftForest

end GrammarReach
