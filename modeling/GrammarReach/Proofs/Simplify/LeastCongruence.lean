import Mathlib.Order.Bounds.Defs
import GrammarReach.Proofs.Loop
import GrammarReach.Proofs.Simplify.PrunedOnce

/-!
The working copy of pruning is a congruence closure.

Merging targets comes to an end, since each merge takes a live node away for good. It leaves together
just the nodes that every congruence relates: an equivalence that relates the ends of direct edges and goes
from nodes to their targets under one bracket label.
-/

namespace GrammarReach

variable {profile : BracketProfile} {graph flipped : Multigraph} {near : Node → Node → Prop}

namespace BracketProfile

theorem proper_iff : profile.Proper graph ↔ (∀ kind ∈ profile.brackets.toList, ¬ graph.isDirect kind) ∧
    ∀ flip ∈ profile.flips.toList, ¬ graph.isDirect flip.1 ∧ ¬ graph.isDirect flip.2 ∧
      profile.flips[flip.2]? = none := by
  constructor
  · intro proper
    constructor
    · intro kind listed
      rw [Std.TreeSet.mem_toList] at listed
      exact proper.brackets kind listed
    · rintro ⟨kind, turned⟩ listed
      exact proper.flips kind turned (Std.TreeMap.mem_toList_iff_getElem?_eq_some.mp listed)
  · rintro ⟨brackets, flips⟩
    constructor
    · intro kind bracket
      apply brackets
      rwa [Std.TreeSet.mem_toList]
    · intro kind turned turns
      exact flips (kind, turned) (Std.TreeMap.mem_toList_iff_getElem?_eq_some.mpr turns)

instance (profile : BracketProfile) (graph : Multigraph) : Decidable (profile.Proper graph) :=
  decidable_of_iff _ proper_iff.symm

/-- Targets under a kind are merged if it is a bracket or another kind is turned into it. -/
theorem collapses_iff (profile : BracketProfile) (kind : Kind) : profile.collapses kind ↔
    profile.brackets.contains kind ∨ ∃ other : Kind, profile.flips[other]? = some kind := by
  have values : profile.flips.values = profile.flips.toList.map (·.2) := by
    change profile.flips.foldr (fun _ turned values => turned :: values) [] = _
    rw [Std.TreeMap.foldr_eq_foldr_toList, List.map_eq_foldr]
  rw [collapses, Bool.or_eq_true, List.contains_iff_mem, values, List.mem_map]
  apply or_congr_right
  constructor
  · rintro ⟨⟨other, turned⟩, listed, rfl⟩
    exact ⟨other, Std.TreeMap.mem_toList_iff_getElem?_eq_some.mp listed⟩
  · rintro ⟨other, turns⟩
    exact ⟨(other, kind), Std.TreeMap.mem_toList_iff_getElem?_eq_some.mpr turns, rfl⟩

/-- An edge that is a bracket, as it is or once it is turned around, is not direct. -/
theorem Proper.not_isDirect (proper : profile.Proper graph) {edge : Edge}
    (bracket : profile.collapses (profile.oriented edge).label.symbol) :
    ¬ graph.isDirect edge.label.symbol := by
  cases turns : profile.flips[edge.label.symbol]? with
  | some turned => exact (proper.flips _ turned turns).1
  | none =>
    have stays : profile.oriented edge = edge := by rw [oriented, turns]
    rw [stays, collapses_iff] at bracket
    rcases bracket with listed | ⟨other, turns⟩
    · exact proper.brackets _ listed
    · exact (proper.flips other _ turns).2.1

end BracketProfile

namespace Multigraph

open Relation (EqvGen)

/-- An equivalence that relates the ends of direct edges and goes from nodes to their targets under one
bracket label, in the graph with its edges turned around. -/
structure Congruence (profile : BracketProfile) (graph flipped : Multigraph) (near : Node → Node → Prop) :
    Prop extends FanOut.Congruent profile flipped near where
  straight : ∀ {src dst}, graph.Straight src dst → near src dst

/-- What is taken for one node is related by every congruence that sees, up to itself, the bracket edges. -/
theorem Together.related (congruence : graph.Congruence profile flipped near)
    (sees : ∀ edge, graph.IsBracket profile edge → ∃ src dst,
      flipped.hasEdge ⟨src, dst, (profile.oriented edge).label⟩ ∧
        near (profile.oriented edge).src src ∧ near (profile.oriented edge).dst dst)
    {one two : Node} (together : graph.Together profile one two) : near one two := by
  have equivalence := congruence.equivalence
  induction together with
  | refl node => exact equivalence.refl node
  | symm _ ih => exact equivalence.symm ih
  | trans _ _ first second => exact equivalence.trans first second
  | straight straight => exact congruence.straight straight
  | @matched first second mates _ ih =>
    obtain ⟨src, dst, there, atSrc, atDst⟩ := sees first mates.one
    obtain ⟨src', dst', there', atSrc', atDst'⟩ := sees second mates.two
    rw [← mates.label] at there'
    have close : near src src' := equivalence.trans (equivalence.symm atSrc) (equivalence.trans ih atSrc')
    have meets : near dst dst' := congruence.matched there there' mates.one.collapses close
    exact equivalence.trans atDst (equivalence.trans meets (equivalence.symm atDst'))

/-- Behind each edge under which targets are merged stands a bracket of the graph as it was. -/
theorem Oriented.bracket_behind (oriented : Oriented profile graph flipped) (proper : profile.Proper graph)
    {edge : Edge} (there : flipped.hasEdge edge) (collapses : profile.collapses edge.label.symbol) :
    ∃ old, graph.IsBracket profile old ∧ profile.oriented old = edge := by
  obtain ⟨old, stood, rfl⟩ := (oriented.edges edge).mp there
  exact ⟨old, ⟨stood, proper.not_isDirect collapses, collapses⟩, rfl⟩

/-- What is taken for one node is the least congruence on the edges as they are turned around. -/
theorem Valid.isLeast_together (valid : graph.Valid) (proper : profile.Proper graph) :
    IsLeast {near | graph.Congruence profile (graph.flipEdges profile) near} (graph.Together profile) := by
  have oriented := valid.flipEdges proper.suits
  constructor
  · refine { equivalence := Together.equivalence, straight := .straight, matched := ?_ }
    intro first second one two label toOne toTwo collapses close
    obtain ⟨old, here, same⟩ := oriented.bracket_behind proper toOne collapses
    obtain ⟨old', there, same'⟩ := oriented.bracket_behind proper toTwo collapses
    have mates : graph.Mates profile old old' := ⟨here, there, by rw [same, same']⟩
    have meets := Together.matched mates
    rw [same, same'] at meets
    exact meets close
  · intro near congruence one two together
    apply together.related congruence
    intro edge bracket
    have there := (oriented.edges _).mpr ⟨edge, bracket.there, rfl⟩
    exact ⟨_, _, there, congruence.equivalence.refl _, congruence.equivalence.refl _⟩

/-- Nothing changes if direct edges are contracted before. -/
theorem Valid.isLeast_together_contractDirect (valid : graph.Valid) (proper : profile.Proper graph) :
    IsLeast {near | graph.Congruence profile (graph.contractDirect.flipEdges profile) near}
      (graph.Together profile) := by
  have works := valid.works proper.suits
  constructor
  · exact { toCongruent := valid.congruent proper.suits, straight := .straight }
  · intro near congruence one two together
    have contracted : ∀ node, graph.hasNode node → near node (graph.contractDirect.repOf node) := by
      intro node live
      apply congruence.equivalence.eqvGen_iff.mp
      exact EqvGen.mono (fun _ _ => congruence.straight) _ _ (valid.contractDirect.2.2 node live)
    apply together.related congruence
    intro edge bracket
    obtain ⟨src, dst⟩ := bracket.live valid
    exact ⟨_, _, works.starts edge bracket.there bracket.indirect, contracted _ src, contracted _ dst⟩

/-- How the merging of targets ends: nothing is left to examine, live nodes stand together just if the least
congruence relates them, and no node has two targets under one bracket label. -/
structure LeastCollapse (profile : BracketProfile) (graph : Multigraph) (fan : FanOut) : Prop where
  ends : Loop.Ends (FanOut.step profile)
    { graph := graph.contractDirect.flipEdges profile
      queue := .ofList (graph.contractDirect.flipEdges profile).nodes } fan
  fused : ∀ one two, graph.hasNode one → graph.hasNode two →
    (fan.graph.repOf one = fan.graph.repOf two ↔ graph.Together profile one two)
  least : IsLeast {near | graph.Congruence profile (graph.flipEdges profile) near} (graph.Together profile)
  /-- The edges may as well be those of the contracted graph, which the loop starts from. -/
  contracted : IsLeast {near | graph.Congruence profile (graph.contractDirect.flipEdges profile) near}
    (graph.Together profile)
  settled : ∀ node, FanOut.Settled profile fan.graph node

theorem Valid.leastCollapse (valid : graph.Valid) (proper : profile.Proper graph) :
    LeastCollapse profile graph (graph.fanOut profile) := by
  have works := valid.works proper.suits
  exact
    { ends := ⟨Loop.leads_run .., FanOut.step_run_eq_none works.startValid⟩
      fused := fun _ _ here there => valid.repOf_workingCopy_iff proper.suits here there
      least := valid.isLeast_together proper
      contracted := valid.isLeast_together_contractDirect proper
      settled := works.settled }

/-- Whatever calls a graph was made by, merging targets comes to an end with the least congruence. -/
theorem leastCollapse_ofCalls (kinds : List Kind) (calls : List Call) (profile : BracketProfile)
    (proper : profile.Proper (ofCalls kinds calls)) :
    LeastCollapse profile (ofCalls kinds calls) ((ofCalls kinds calls).fanOut profile) :=
  (valid_ofCalls kinds calls).leastCollapse proper

/-- The targets of one node are merged, then their targets, one of them behind a bracket that is turned
around, and a direct edge adds a third. -/
theorem leastCollapse_ofCalls_cascade :
    let profile : BracketProfile := { brackets := .ofList [2], flips := .ofList [(3, 2)] }
    let graph := ofCalls [0] ([⟨1, 2, ⟨2, 0⟩⟩, ⟨3, 1, ⟨3, 0⟩⟩, ⟨2, 4, ⟨2, 1⟩⟩, ⟨3, 5, ⟨2, 1⟩⟩,
      ⟨5, 6, ⟨0, 0⟩⟩].map fun edge => .edit (.addEdge edge))
    profile.Proper graph ∧ LeastCollapse profile graph (graph.fanOut profile) ∧
      graph.Together profile 4 6 ∧ ¬ graph.Together profile 3 4 := by
  intro profile graph
  have proper : profile.Proper graph := by decide +kernel
  have collapse := leastCollapse_ofCalls _ _ profile proper
  refine ⟨proper, collapse, ?_, ?_⟩
  · apply (collapse.fused 4 6 (by decide +kernel) (by decide +kernel)).mp
    decide +kernel
  · intro together
    have same := (collapse.fused 3 4 (by decide +kernel) (by decide +kernel)).mpr together
    revert same
    decide +kernel

end Multigraph

end GrammarReach
