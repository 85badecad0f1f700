import GrammarReach.Closure.CriticalGraph
import GrammarReach.Closure.DualForest
import GrammarReach.Closure.GraftForest
import GrammarReach.Config.Basic

/-!
The closure structures that a solver can hand a transitive symbol to, behind one set of operations.

All of them keep the reachability of the edges taken in. That a node reaches itself goes without
saying and is never reported.
-/

namespace GrammarReach

inductive Closure where
  | dual (forest : DualForest)
  | graft (forest : GraftForest)
  | critical (graph : CriticalGraph)

namespace Closure

/-- The structure that a strategy uses, while it holds no pairs. -/
def ofVariant? : Variant → Option Closure
  | .pocr => some (.dual .empty)
  | .hierarchicalPocr => some (.graft .empty)
  | .focr => some (.critical .empty)
  | .standard | .transitiveReduction | .batchSemiNaive => none

def name : Closure → String
  | dual _ => "hybrid-tree"
  | graft _ => "hybrid-forest"
  | critical _ => "edge-critical-graph"

/-- Takes in an edge and tells the pairs that have become reachable, in the order of discovery. -/
def insert (closure : Closure) (src dst : Node) : Closure × List (Node × Node) :=
  match closure with
  | dual forest => let (forest, found) := forest.insert src dst; (dual forest, found)
  | graft forest => let (forest, found) := forest.insert src dst; (graft forest, found)
  | critical graph => let (graph, found) := graph.insert src dst; (critical graph, found)

/-- Whether a node reaches another, which counts as a check. -/
def reaches (closure : Closure) (src dst : Node) : Closure × Bool :=
  match closure with
  | dual forest => let (forest, answer) := forest.reaches src dst; (dual forest, answer)
  | graft forest => let (forest, answer) := forest.reaches src dst; (graft forest, answer)
  | critical graph => let (graph, answer) := graph.reaches src dst; (critical graph, answer)

/-- Visits nodes that a node reaches. A visit tells whether to go on behind the visited node. -/
def walkDown {σ : Type} (closure : Closure) (start : Node) (visit : σ → Node → σ × Bool)
    (state : σ) : σ :=
  match closure with
  | dual forest => forest.descendants.walk start visit state
  | graft forest => forest.trees.walk start visit state
  | critical graph => graph.walkDown start visit state

/-- Visits nodes that reach a node. A visit tells whether to go on behind the visited node, except in
a forest without ancestor trees, where every such node is visited in ascending order. -/
def walkUp {σ : Type} (closure : Closure) (start : Node) (visit : σ → Node → σ × Bool)
    (state : σ) : σ :=
  match closure with
  | dual forest => forest.ancestors.walk start visit state
  | graft forest => (forest.trees.holders start).foldl (fun state node => (visit state node).1) state
  | critical graph => graph.walkUp start visit state

def checks : Closure → Nat
  | dual forest => forest.checks
  | graft forest => forest.checks
  | critical graph => graph.checks

/-- The number of reachable pairs of two different nodes. -/
def pairs : Closure → Nat
  | dual forest => forest.descendants.pairs
  | graft forest => forest.trees.pairs
  | critical graph => graph.pairs

end Closure

end GrammarReach
