import GrammarReach.Closure.Basic
import GrammarReach.Proofs.Closure.DualForest
import GrammarReach.Proofs.Closure.GraftForest
import GrammarReach.Proofs.Closure.GraphWalk
import GrammarReach.Proofs.Closure.TreeWalk

namespace GrammarReach.Closure

open Relation (ReflTransGen)

/-- A node leads right on to another. -/
def Linked : Closure → Node → Node → Prop
  | dual forest => forest.Linked
  | graft forest => forest.Linked
  | critical graph => graph.Linked

/-- A structure is in order, and exact about its links. -/
def Valid : Closure → Prop
  | dual forest => forest.Valid
  | graft forest => forest.Valid
  | critical graph => graph.Valid

def Reaches (closure : Closure) : Node → Node → Prop := ReflTransGen closure.Linked

/-- The nodes that a walk visits: other ones than the start, within reach, and all neighbours. -/
structure Covers (links : Node → Node → Prop) (start : Node) (nodes : List Node) : Prop where
  sound : ∀ node ∈ nodes, node ≠ start ∧ ReflTransGen links start node
  all : ∀ node, links start node → node ≠ start → node ∈ nodes

/-- A walk that leaves out only what lies behind refused nodes, and no neighbour, covers them. -/
theorem covers_of_prunes {links : Node → Node → Prop} {start : Node} {nodes : List Node} {σ : Type}
    {visit : σ → Node → σ × Bool} {state : σ}
    (prunes : Prunes (ReflTransGen links) start (replay visit state nodes).2)
    (all : ∀ node, links start node → node ≠ start → node ∈ nodes) : Covers links start nodes where
  sound node listed := prunes.sound node (by rwa [map_fst_replay])
  all := all

theorem ofVariant?_spec {variant : Variant} {closure : Closure}
    (made : ofVariant? variant = some closure) :
    closure.Valid ∧ ∀ u v, ¬ closure.Linked u v := by
  cases variant with
  | standard => cases made
  | transitiveReduction => cases made
  | batchSemiNaive => cases made
  | pocr =>
    cases made
    exact ⟨DualForest.valid_empty, fun u v => Arena.not_child_empty u u v⟩
  | hierarchicalPocr =>
    cases made
    exact ⟨GraftForest.valid_empty, fun u v => Arena.not_child_empty u u v⟩
  | focr =>
    cases made
    exact ⟨CriticalGraph.valid_empty, CriticalGraph.not_linked_empty⟩

variable {closure : Closure}

theorem insert_spec (valid : closure.Valid) (src dst : Node) :
    (closure.insert src dst).1.Valid ∧
      Inserts closure.Linked src dst (closure.insert src dst).1.Linked (closure.insert src dst).2 := by
  cases closure with
  | dual forest =>
    obtain ⟨valid, inserts, -⟩ := DualForest.insert_spec valid src dst
    exact ⟨valid, inserts⟩
  | graft forest => exact GraftForest.insert_spec valid src dst
  | critical graph => exact CriticalGraph.insert_spec valid src dst

/-- The pairs that an edge makes reachable are counted. -/
theorem pairs_insert (valid : closure.Valid) (src dst : Node) :
    (closure.insert src dst).1.pairs = closure.pairs + (closure.insert src dst).2.length := by
  cases closure with
  | dual forest => exact (DualForest.insert_spec valid src dst).2.2
  | graft forest => exact GraftForest.pairs_insert forest src dst
  | critical graph => exact CriticalGraph.pairs_insert graph src dst

/-- Asking changes nothing but the counter. -/
theorem reaches_spec (valid : closure.Valid) (src dst : Node) :
    (closure.reaches src dst).1.Valid ∧
      (closure.reaches src dst).1.Linked = closure.Linked ∧
      ((closure.reaches src dst).2 ↔ closure.Reaches src dst) := by
  cases closure with
  | dual forest =>
    exact ⟨⟨valid.ancestors, valid.descendants, valid.mirrored, valid.spreadUp, valid.spreadDown,
      valid.linkedUp, valid.exact⟩, rfl, valid.exact src dst⟩
  | graft forest => exact ⟨⟨valid.trees, valid.spread, valid.exact⟩, rfl, valid.exact src dst⟩
  | critical graph =>
    exact ⟨⟨valid.mirrored, valid.tabled, valid.exact⟩, rfl, valid.exact src dst⟩

@[simp] theorem pairs_reaches (closure : Closure) (src dst : Node) :
    (closure.reaches src dst).1.pairs = closure.pairs := by
  cases closure <;> rfl

theorem walkDown_eq_foldl (valid : closure.Valid) {σ : Type} (start : Node)
    (visit : σ → Node → σ × Bool) (state : σ) :
    ∃ nodes, Covers closure.Linked start nodes ∧ closure.walkDown start visit state =
      nodes.foldl (fun state node => (visit state node).1) state := by
  cases closure with
  | dual forest =>
    obtain ⟨nodes, sound, all, run⟩ :=
      Arena.walk_eq_foldl valid.descendants start visit state
    exact ⟨nodes, ⟨fun node listed => ⟨(sound node listed).1,
      (valid.exact start node).mp (sound node listed).2⟩, fun node link _ => all node link⟩, run⟩
  | graft forest =>
    obtain ⟨nodes, sound, all, run⟩ := Arena.walk_eq_foldl valid.trees start visit state
    exact ⟨nodes, ⟨fun node listed => ⟨(sound node listed).1,
      (valid.exact start node).mp (sound node listed).2⟩, fun node link _ => all node link⟩, run⟩
  | critical graph =>
    obtain ⟨nodes, run, prunes, all⟩ := CriticalGraph.walkDown_visits valid start visit state
    exact ⟨nodes, covers_of_prunes prunes all, run.trans (replay_fst _ _ _)⟩

theorem walkUp_eq_foldl (valid : closure.Valid) {σ : Type} (start : Node)
    (visit : σ → Node → σ × Bool) (state : σ) :
    ∃ nodes, Covers (Function.swap closure.Linked) start nodes ∧ closure.walkUp start visit state =
      nodes.foldl (fun state node => (visit state node).1) state := by
  have swap : ∀ u v, ReflTransGen (Function.swap closure.Linked) v u ↔ closure.Reaches u v :=
    fun u v => Relation.reflTransGen_swap
  cases closure with
  | dual forest =>
    obtain ⟨nodes, sound, all, run⟩ := Arena.walk_eq_foldl valid.ancestors start visit state
    refine ⟨nodes, ⟨fun node listed => ⟨(sound node listed).1, (swap node start).mpr ?_⟩,
      fun node link _ => all node (valid.linkedUp link)⟩, run⟩
    exact (valid.exact node start).mp ((valid.mirrored node start).mp (sound node listed).2)
  | graft forest =>
    obtain ⟨sound, all⟩ := GraftForest.walkUp_eq_foldl valid start
    exact ⟨_, ⟨fun node listed => ⟨(sound node listed).1, (swap node start).mpr (sound node listed).2⟩,
      all⟩, rfl⟩
  | critical graph =>
    obtain ⟨nodes, run, prunes, all⟩ := CriticalGraph.walkUp_visits valid start visit state
    exact ⟨nodes, covers_of_prunes prunes all, run.trans (replay_fst _ _ _)⟩

end GrammarReach.Closure
