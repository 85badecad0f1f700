import GrammarReach.Proofs.Simplify.Collapse
import GrammarReach.Proofs.Simplify.Anchors

/-!
What pruning takes for one node, and which brackets it takes away.

The working copy makes one node of the ends of direct edges, and of the targets of one node under one
bracket label, again and again. For edges that lead to different nodes it finds an anchor, unless direct
edges and other anchors make one node of their targets. Edges at anchors stay; pruning removes bracket
edges and nothing else.
-/

namespace GrammarReach

/-- An edge, turned around if its kind is flipped. -/
def BracketProfile.oriented (profile : BracketProfile) (edge : Edge) : Edge :=
  match profile.flips[edge.label.symbol]? with
  | none => edge
  | some kind => ⟨edge.dst, edge.src, ⟨kind, edge.label.index⟩⟩

/-- A kind that edges are turned into is not turned around itself, and is not direct. -/
def BracketProfile.Suits (profile : BracketProfile) (graph : Multigraph) : Prop :=
  ∀ kind turned : Kind, profile.flips[kind]? = some turned →
    profile.flips[turned]? = none ∧ ¬ graph.isDirect turned

theorem BracketProfile.Suits.flips_oriented {profile : BracketProfile} {graph : Multigraph}
    (suits : profile.Suits graph) (edge : Edge) :
    profile.flips[(profile.oriented edge).label.symbol]? = none := by
  rw [oriented]
  split
  · assumption
  · next kind turns => exact (suits _ kind turns).1

theorem BracketProfile.Suits.not_isDirect_oriented {profile : BracketProfile} {graph : Multigraph}
    (suits : profile.Suits graph) {edge : Edge} (indirect : ¬ graph.isDirect edge.label.symbol) :
    ¬ graph.isDirect (profile.oriented edge).label.symbol := by
  rw [oriented]
  split
  · exact indirect
  · next kind turns => exact (suits _ kind turns).2

theorem BracketProfile.Suits.of_same {profile : BracketProfile} {graph other : Multigraph}
    (suits : profile.Suits graph) (kinds : other.directKinds = graph.directKinds) :
    profile.Suits other := by
  intro kind turned turns
  rw [Multigraph.isDirect, kinds]
  exact suits kind turned turns

namespace Multigraph

open Relation (EqvGen)

variable {graph middle after : Multigraph} {profile : BracketProfile}

/-! ### Nodes taken for one -/

/-- An edge that pruning works with: a bracket, or one that becomes a bracket when it is turned. -/
structure IsBracket (profile : BracketProfile) (graph : Multigraph) (edge : Edge) : Prop where
  there : graph.hasEdge edge
  indirect : ¬ graph.isDirect edge.label.symbol
  collapses : profile.collapses (profile.oriented edge).label.symbol

/-- Two bracket edges have one label once they are oriented. -/
structure Mates (profile : BracketProfile) (graph : Multigraph) (first second : Edge) : Prop where
  one : graph.IsBracket profile first
  two : graph.IsBracket profile second
  label : (profile.oriented first).label = (profile.oriented second).label

/-- What pruning takes for one node: the ends of direct edges, and the ends of bracket edges that have
one label and leave from what is taken for one node. -/
inductive Together (profile : BracketProfile) (graph : Multigraph) : Node → Node → Prop
  | refl (node : Node) : Together profile graph node node
  | symm {one two : Node} : Together profile graph one two → Together profile graph two one
  | trans {one two three : Node} : Together profile graph one two → Together profile graph two three →
      Together profile graph one three
  | straight {src dst : Node} : graph.Straight src dst → Together profile graph src dst
  | matched {first second : Edge} : graph.Mates profile first second →
      Together profile graph (profile.oriented first).src (profile.oriented second).src →
      Together profile graph (profile.oriented first).dst (profile.oriented second).dst

theorem Together.equivalence : Equivalence (Together profile graph) := ⟨.refl, .symm, .trans⟩

/-- Two nodes are the ends of a direct edge, or mates lead to them whose source and label meet a
condition. -/
def Link (profile : BracketProfile) (graph : Multigraph) (counts : Node → Label → Prop)
    (one two : Node) : Prop :=
  graph.Straight one two ∨ ∃ first second, graph.Mates profile first second ∧
    graph.Together profile (profile.oriented first).src (profile.oriented second).src ∧
    counts (profile.oriented first).src (profile.oriented first).label ∧
    (profile.oriented first).dst = one ∧ (profile.oriented second).dst = two

/-- Direct edges and mates, other than those with the given label at what is taken for the given node,
make two nodes one. -/
def TiedElsewhere (profile : BracketProfile) (graph : Multigraph) (base : Node) (label : Label) :
    Node → Node → Prop :=
  EqvGen (graph.Link profile fun src other => ¬ (other = label ∧ graph.Together profile src base))

/-! ### The working copy -/

def fanOut (graph : Multigraph) (profile : BracketProfile) : FanOut :=
  FanOut.run profile (graph.contractDirect.flipEdges profile)

/-- The working copy with all targets merged. -/
def workingCopy (graph : Multigraph) (profile : BracketProfile) : Multigraph :=
  (graph.fanOut profile).graph

/-- An anchor with the given label was found for what a node is taken for. -/
def Anchored (profile : BracketProfile) (graph : Multigraph) (node : Node) (label : Label) : Prop :=
  (graph.fanOut profile).Found ((graph.workingCopy profile).repOf node) label

private theorem quotient_contractPairs {tie : Node → Node → Prop} (equivalence : Equivalence tie)
    (pairs : List (Node × Node)) : ∀ {middle : Multigraph}, Quotient graph middle →
      (∀ node, graph.hasNode node → tie node (middle.repOf node)) →
      (∀ pair ∈ pairs, graph.hasNode pair.1 ∧ graph.hasNode pair.2 ∧ tie pair.1 pair.2) →
      let final := pairs.foldl
        (fun graph (src, dst) => (graph.merge (graph.repOf dst) (graph.repOf src)).1) middle
      Quotient middle final ∧ (∀ pair ∈ pairs, final.repOf pair.1 = final.repOf pair.2) ∧
        ∀ node, graph.hasNode node → tie node (final.repOf node) := by
  induction pairs with
  | nil => exact fun quotient tied _ => ⟨.refl quotient.valid, by simp, tied⟩
  | cons pair pairs ih =>
    intro middle quotient tied live
    obtain ⟨⟨src, dst, ends⟩, live⟩ := List.forall_mem_cons.mp live
    have root : ∀ node, graph.hasNode node → middle.hasNode (middle.repOf node) := fun node there =>
      (quotient.nodes _).mpr ⟨node, there, rfl⟩
    obtain ⟨step, repOf⟩ := quotient.valid.quotient_merge_live (root pair.2 dst)
      ((quotient.valid.repOf_repOf pair.1).symm ▸ root pair.1 src)
    rw [quotient.valid.repOf_repOf] at repOf
    have tied' : ∀ node, graph.hasNode node →
        tie node ((middle.merge (middle.repOf pair.2) (middle.repOf pair.1)).1.repOf node) := by
      intro node there
      rw [repOf]
      split
      · next same =>
        have toEnd := equivalence.trans (tied node there) (same ▸ equivalence.symm (tied pair.2 dst))
        exact equivalence.trans (equivalence.trans toEnd (equivalence.symm ends)) (tied pair.1 src)
      · exact tied node there
    obtain ⟨rest, together, final⟩ := ih (quotient.trans step) tied' live
    refine ⟨step.trans rest, List.forall_mem_cons.mpr ⟨?_, together⟩, final⟩
    rw [List.foldl_cons, ← rest.absorbs pair.1, ← rest.absorbs pair.2, repOf, repOf, if_pos rfl]
    split <;> rfl

/-- Contracting direct edges puts their ends together, and nothing else. -/
theorem Valid.contractDirect (valid : graph.Valid) : Quotient graph graph.contractDirect ∧
    (∀ src dst, graph.Straight src dst →
      graph.contractDirect.repOf src = graph.contractDirect.repOf dst) ∧
    ∀ node, graph.hasNode node → EqvGen graph.Straight node (graph.contractDirect.repOf node) := by
  obtain ⟨quotient, together, tied⟩ := quotient_contractPairs (EqvGen.is_equivalence graph.Straight)
    graph.directPairs (.refl valid)
    (fun node live => by
      rw [valid.repOf_live live]
      exact .refl node)
    (fun pair listed => by
      have straight := (valid.mem_directPairs pair.1 pair.2).mp listed
      obtain ⟨src, dst⟩ := valid.hasNode_of_straight straight
      exact ⟨src, dst, .rel _ _ straight⟩)
  exact ⟨quotient, fun src dst straight =>
    together (src, dst) ((valid.mem_directPairs src dst).mpr straight), tied⟩

/-- What turning edges around leaves as it was, and which edges there are then. -/
private structure Turned (profile : BracketProfile) (slots : List (EdgeId × GraphEdge))
    (before after : Multigraph) : Prop where
  valid : after.Valid
  merged : after.merged = before.merged
  kinds : after.directKinds = before.directKinds
  nodes : ∀ node, after.hasNode node ↔ before.hasNode node
  turned : ∀ slot ∈ slots, after.hasEdge (profile.oriented slot.2.toEdge)
  others : ∀ edge, before.hasEdge edge → profile.flips[edge.label.symbol]? = none → after.hasEdge edge
  origins : ∀ edge, after.hasEdge edge → (∃ slot ∈ slots, profile.oriented slot.2.toEdge = edge) ∨
    (before.hasEdge edge ∧ ∀ slot ∈ slots, slot.2.toEdge ≠ edge)

/-- A slot whose label is not turned stays as it is. -/
private theorem turned_of_unturned (valid : graph.Valid) {slot : EdgeId × GraphEdge}
    (found : graph.edge? slot.1 = some slot.2) (plain : profile.flips[slot.2.label.symbol]? = none) :
    Turned profile [slot] graph graph := by
  have there := (valid.hasEdge_iff _).mpr ⟨slot.1, slot.2, found, rfl⟩
  have stays : profile.oriented slot.2.toEdge = slot.2.toEdge := by
    rw [BracketProfile.oriented, plain]
  exact
    { valid := valid
      merged := rfl
      kinds := rfl
      nodes := fun _ => .rfl
      turned := by rwa [List.forall_mem_singleton, stays]
      others := fun _ there _ => there
      origins := fun edge there => by
        simp only [List.mem_singleton, exists_eq_left, forall_eq, stays]
        exact (eq_or_ne slot.2.toEdge edge).imp_right fun differs => ⟨there, differs⟩ }

/-- A slot whose label is turned gives way to the edge between the same nodes the other way around. -/
private theorem turned_of_turned (valid : graph.Valid) (suits : profile.Suits graph) {id : EdgeId}
    {kept : GraphEdge} (found : graph.edge? id = some kept) {kind : Kind}
    (turns : profile.flips[kept.label.symbol]? = some kind) :
    Turned profile [(id, kept)] graph
      ((graph.removeEdge id).1.addEdge ⟨kept.dst, kept.src, ⟨kind, kept.label.index⟩⟩).1 := by
  have turned : profile.oriented kept.toEdge = ⟨kept.dst, kept.src, ⟨kind, kept.label.index⟩⟩ := by
    rw [BracketProfile.oriented, turns]
  obtain ⟨merged, -, kinds⟩ := kept_removeEdge graph id
  obtain ⟨merged', kinds'⟩ := kept_addEdge (graph.removeEdge id).1
    ⟨kept.dst, kept.src, ⟨kind, kept.label.index⟩⟩
  have root : ∀ node, graph.hasNode node → (graph.removeEdge id).1.repOf node = node := by
    intro node live
    rw [repOf, merged]
    exact valid.repOf_live live
  obtain ⟨src, dst⟩ := valid.hasNode_of_hasEdge ((valid.hasEdge_iff _).mpr ⟨id, kept, found, rfl⟩)
  have same : (graph.removeEdge id).1.represented ⟨kept.dst, kept.src, ⟨kind, kept.label.index⟩⟩ =
      profile.oriented kept.toEdge := by
    rw [turned, represented, root _ src, root _ dst]
  exact
    { valid := (valid.removeEdge id).addEdge _
      merged := merged'.trans merged
      kinds := kinds'.trans kinds
      nodes := fun node => by
        rw [hasNode_addEdge, same, turned, hasNode_removeEdge]
        refine or_iff_left_of_imp ?_
        rintro (rfl | rfl)
        · exact dst
        · exact src
      turned := by
        rw [List.forall_mem_singleton]
        refine (hasEdge_addEdge _ _ _).mpr (.inr ⟨same.symm, fun loop => (suits _ _ turns).2 ?_⟩)
        have direct := loop.1
        rwa [turned, isDirect, kinds] at direct
      others := fun edge stood plain => by
        refine (hasEdge_addEdge _ _ _).mpr (.inl ((hasEdge_removeEdge valid id edge).mpr ⟨stood, ?_⟩))
        intro taken here equal
        rw [found] at here
        obtain rfl := Option.some.inj here
        rw [← equal, turns] at plain
        cases plain
      origins := fun edge there => by
        simp only [List.mem_singleton, exists_eq_left, forall_eq]
        obtain stood | ⟨fresh, -⟩ := (hasEdge_addEdge _ _ _).mp there
        · obtain ⟨stood, other⟩ := (hasEdge_removeEdge valid id edge).mp stood
          exact .inr ⟨stood, other kept found⟩
        · exact .inl (same.symm.trans fresh.symm) }

private theorem turned_flipEdge (valid : graph.Valid) (suits : profile.Suits graph)
    {slot : EdgeId × GraphEdge} (found : graph.edge? slot.1 = some slot.2) :
    Turned profile [slot] graph (graph.flipEdge profile slot) := by
  obtain ⟨id, kept⟩ := slot
  rw [flipEdge]
  dsimp only
  split
  · next plain => exact turned_of_unturned valid found plain
  · next kind turns => exact turned_of_turned valid suits found turns

private theorem edge?_flipEdge {slot : EdgeId × GraphEdge} {id : EdgeId} {kept : GraphEdge}
    (found : graph.edge? id = some kept) (apart : id ≠ slot.1) :
    (graph.flipEdge profile slot).edge? id = some kept := by
  rw [flipEdge]
  dsimp only
  split
  · exact found
  · refine edge?_addEdge_of_edge? ?_ _
    rw [edge?_removeEdge, if_neg apart, found]

private theorem turned_flipEdges (slots : List (EdgeId × GraphEdge)) :
    ∀ {graph : Multigraph}, graph.Valid → profile.Suits graph → (slots.map Prod.fst).Nodup →
      (∀ slot ∈ slots, graph.edge? slot.1 = some slot.2) →
      Turned profile slots graph (slots.foldl (flipEdge profile) graph) := by
  induction slots with
  | nil =>
    intro graph valid _ _ _
    exact
      { valid := valid
        merged := rfl
        kinds := rfl
        nodes := fun _ => .rfl
        turned := by simp
        others := fun _ there _ => there
        origins := fun _ there => .inr ⟨there, by simp⟩ }
  | cons slot slots ih =>
    intro graph valid suits distinct found
    obtain ⟨here, found⟩ := List.forall_mem_cons.mp found
    obtain ⟨fresh, distinct⟩ := List.nodup_cons.mp distinct
    have first := turned_flipEdge valid suits here
    have rest := ih first.valid (suits.of_same first.kinds) distinct fun other listed =>
      edge?_flipEdge (found other listed) fun same =>
        fresh (same ▸ List.mem_map_of_mem listed)
    exact
      { valid := rest.valid
        merged := rest.merged.trans first.merged
        kinds := rest.kinds.trans first.kinds
        nodes := fun node => (rest.nodes node).trans (first.nodes node)
        turned := by
          refine List.forall_mem_cons.mpr ⟨?_, rest.turned⟩
          exact rest.others _ (first.turned slot (List.mem_singleton.mpr rfl)) (suits.flips_oriented _)
        others := fun edge there plain => rest.others edge (first.others edge there plain) plain
        origins := fun edge there => by
          rw [List.exists_mem_cons_iff, List.forall_mem_cons]
          obtain later | ⟨stood, apart⟩ := rest.origins edge there
          · exact .inl (.inr later)
          · have origins := first.origins edge stood
            simp only [List.mem_singleton, exists_eq_left, forall_eq] at origins
            exact origins.imp .inl fun old => ⟨old.1, old.2, apart⟩ }

structure Oriented (profile : BracketProfile) (before after : Multigraph) : Prop where
  valid : after.Valid
  merged : after.merged = before.merged
  kinds : after.directKinds = before.directKinds
  nodes : ∀ node, after.hasNode node ↔ before.hasNode node
  edges : ∀ edge, after.hasEdge edge ↔ ∃ old, before.hasEdge old ∧ profile.oriented old = edge

theorem Valid.flipEdges (valid : graph.Valid) (suits : profile.Suits graph) :
    Oriented profile graph (graph.flipEdges profile) := by
  have turned : Turned profile graph.edges graph (graph.flipEdges profile) :=
    turned_flipEdges graph.edges valid suits graph.nodup_edges fun slot listed =>
      (graph.mem_edges slot.1 slot.2).mp listed
  refine { turned with edges := fun edge => ⟨fun there => ?_, ?_⟩ }
  · obtain ⟨slot, listed, same⟩ | ⟨stood, apart⟩ := turned.origins edge there
    · exact ⟨slot.2.toEdge, (valid.mem_edges_iff _).mp (List.mem_map_of_mem listed), same⟩
    · obtain ⟨slot, listed, same⟩ := List.mem_map.mp ((valid.mem_edges_iff edge).mpr stood)
      exact absurd same (apart slot listed)
  · rintro ⟨old, there, rfl⟩
    obtain ⟨slot, listed, rfl⟩ := List.mem_map.mp ((valid.mem_edges_iff old).mpr there)
    exact turned.turned slot listed

/-- Turning an edge around goes with taking its ends to their representatives. -/
private theorem represented_oriented (graph : Multigraph) (profile : BracketProfile) (edge : Edge) :
    profile.oriented (graph.represented edge) = graph.represented (profile.oriented edge) := by
  simp only [BracketProfile.oriented, represented]
  split <;> rfl

/-- Where the merging of targets starts and ends, in terms of the graph itself. -/
structure Works (profile : BracketProfile) (graph start : Multigraph) (fan : FanOut) : Prop where
  startValid : start.Valid
  valid : fan.graph.Valid
  absorbs : ∀ node, fan.graph.repOf (graph.contractDirect.repOf node) = fan.graph.repOf node
  nodes : ∀ node, graph.hasNode node → start.hasNode (graph.contractDirect.repOf node)
  starts : ∀ edge, graph.hasEdge edge → ¬ graph.isDirect edge.label.symbol →
    start.hasEdge (graph.contractDirect.represented (profile.oriented edge))
  edges : ∀ edge, graph.hasEdge edge → ¬ graph.isDirect edge.label.symbol →
    fan.graph.hasEdge (fan.graph.represented (profile.oriented edge))
  origins : ∀ edge, start.hasEdge edge → ∃ old, graph.hasEdge old ∧
    ¬ graph.isDirect old.label.symbol ∧ graph.contractDirect.represented (profile.oriented old) = edge
  settled : ∀ node, FanOut.Settled profile fan.graph node

theorem Valid.works (valid : graph.Valid) (suits : profile.Suits graph) :
    Works profile graph (graph.contractDirect.flipEdges profile) (graph.fanOut profile) := by
  obtain ⟨quotient, straight, -⟩ := valid.contractDirect
  have oriented := quotient.valid.flipEdges (suits.of_same quotient.kinds)
  obtain ⟨final, settled⟩ : Quotient _ (graph.fanOut profile).graph ∧
      ∀ node, FanOut.Settled profile (graph.fanOut profile).graph node := FanOut.settled_run oriented.valid
  have absorbs : ∀ node, (graph.fanOut profile).graph.repOf (graph.contractDirect.repOf node) =
      (graph.fanOut profile).graph.repOf node := by
    intro node
    have same : (graph.contractDirect.flipEdges profile).repOf node = graph.contractDirect.repOf node := by
      rw [repOf, oriented.merged]
      rfl
    rw [← same]
    exact final.absorbs node
  have starts : ∀ edge, graph.hasEdge edge → ¬ graph.isDirect edge.label.symbol →
      (graph.contractDirect.flipEdges profile).hasEdge
        (graph.contractDirect.represented (profile.oriented edge)) := by
    intro edge there indirect
    have contracted : graph.contractDirect.hasEdge (graph.contractDirect.represented edge) := by
      refine (quotient.edges _).mpr ⟨edge, there, rfl, fun loop => indirect ?_⟩
      exact (quotient.isDirect_eq _).symm.trans loop.1
    have turned := (oriented.edges _).mpr ⟨_, contracted, rfl⟩
    rwa [represented_oriented] at turned
  exact
    { startValid := oriented.valid
      valid := final.valid
      absorbs := absorbs
      nodes := fun node live => (oriented.nodes _).mpr ((quotient.nodes _).mpr ⟨node, live, rfl⟩)
      starts := starts
      edges := fun edge there indirect => by
        refine (final.edges _).mpr ⟨_, starts edge there indirect, ?_, fun loop =>
          suits.not_isDirect_oriented indirect ?_⟩
        · simp only [represented]
          exact congrArg₂ (Edge.mk · · _) (absorbs _) (absorbs _)
        · have direct := loop.1
          rw [final.isDirect_eq, isDirect, oriented.kinds, quotient.kinds] at direct
          exact direct
      origins := fun edge there => by
        obtain ⟨contracted, stood, rfl⟩ := (oriented.edges edge).mp there
        obtain ⟨old, older, rfl, outer⟩ := (quotient.edges contracted).mp stood
        refine ⟨old, older, fun direct => outer ⟨(quotient.isDirect_eq _).trans direct, ?_⟩,
          (represented_oriented ..).symm⟩
        exact straight old.src old.dst ⟨old.label, older, direct⟩
      settled := settled }

/-- In the working copy, what is taken for one node is one node. -/
theorem Together.repOf_workingCopy (valid : graph.Valid) (suits : profile.Suits graph) {one two : Node}
    (together : graph.Together profile one two) :
    (graph.workingCopy profile).repOf one = (graph.workingCopy profile).repOf two := by
  have works := valid.works suits
  change (graph.fanOut profile).graph.repOf one = (graph.fanOut profile).graph.repOf two
  induction together with
  | refl => rfl
  | symm _ same => exact same.symm
  | trans _ _ first second => exact first.trans second
  | @straight src dst straight =>
    rw [← works.absorbs src, ← works.absorbs dst, valid.contractDirect.2.1 src dst straight]
  | @matched first second mates _ meets =>
    have left := works.edges first mates.one.there mates.one.indirect
    have right := works.edges second mates.two.there mates.two.indirect
    simp only [represented] at left right
    rw [← mates.label, ← meets] at right
    exact works.settled _ _ _ _ mates.one.collapses left right

private theorem Together.contracted (valid : graph.Valid) {node : Node} (live : graph.hasNode node) :
    graph.Together profile node (graph.contractDirect.repOf node) := by
  refine Together.equivalence.eqvGen_iff.mp (EqvGen.mono ?_ _ _ (valid.contractDirect.2.2 node live))
  exact fun _ _ => .straight

private theorem Together.of_represented (valid : graph.Valid) {one two : Node} (here : graph.hasNode one)
    (there : graph.hasNode two) (together : graph.Together profile (graph.contractDirect.repOf one)
      (graph.contractDirect.repOf two)) : graph.Together profile one two :=
  .trans (.contracted valid here) (.trans together (.symm (.contracted valid there)))

/-- A bracket edge of the graph stands behind each edge that is collapsed. -/
private theorem Works.bracket_behind {start : Multigraph} {fan : FanOut}
    (works : Works profile graph start fan) {src dst : Node} {label : Label}
    (there : start.hasEdge ⟨src, dst, label⟩) (collapses : profile.collapses label.symbol) :
    ∃ old, graph.IsBracket profile old ∧ (profile.oriented old).label = label ∧
      graph.contractDirect.repOf (profile.oriented old).src = src ∧
      graph.contractDirect.repOf (profile.oriented old).dst = dst := by
  obtain ⟨old, stood, indirect, same⟩ := works.origins _ there
  obtain ⟨atSrc, atDst, labels⟩ := Edge.mk.inj same
  exact ⟨old, ⟨stood, indirect, labels ▸ collapses⟩, labels, atSrc, atDst⟩

/-- The ends of an edge are live, whichever way it is turned. -/
theorem Valid.hasNode_oriented (valid : graph.Valid) (profile : BracketProfile) {edge : Edge}
    (there : graph.hasEdge edge) :
    graph.hasNode (profile.oriented edge).src ∧ graph.hasNode (profile.oriented edge).dst := by
  obtain ⟨src, dst⟩ := valid.hasNode_of_hasEdge there
  rw [BracketProfile.oriented]
  split
  · exact ⟨src, dst⟩
  · exact ⟨dst, src⟩

theorem IsBracket.live (valid : graph.Valid) {edge : Edge} (bracket : graph.IsBracket profile edge) :
    graph.hasNode (profile.oriented edge).src ∧ graph.hasNode (profile.oriented edge).dst :=
  valid.hasNode_oriented profile bracket.there

/-- What is taken for one node is a congruence of the graph that the merging starts with. -/
theorem Valid.congruent (valid : graph.Valid) (suits : profile.Suits graph) :
    FanOut.Congruent profile (graph.contractDirect.flipEdges profile) (graph.Together profile) where
  equivalence := Together.equivalence
  matched toOne toTwo collapses close := by
    have works := valid.works suits
    obtain ⟨first, one, label, rfl, rfl⟩ := works.bracket_behind toOne collapses
    obtain ⟨second, two, label', rfl, rfl⟩ := works.bracket_behind toTwo collapses
    have mates : graph.Mates profile first second := ⟨one, two, label.trans label'.symm⟩
    have meets := Together.matched mates (close.of_represented valid (one.live valid).1 (two.live valid).1)
    exact .trans (.symm (.contracted valid (one.live valid).2))
      (.trans meets (.contracted valid (two.live valid).2))

/-- What stands together in the working copy got there by direct edges and by mates for which an anchor
was found. -/
theorem Valid.linked_of_repOf (valid : graph.Valid) (suits : profile.Suits graph) {one two : Node}
    (here : graph.hasNode one) (there : graph.hasNode two)
    (same : (graph.workingCopy profile).repOf one = (graph.workingCopy profile).repOf two) :
    EqvGen (graph.Link profile (graph.Anchored profile)) one two := by
  have works := valid.works suits
  have grounded : FanOut.Grounded profile _ (graph.Together profile) (graph.fanOut profile) :=
    FanOut.grounded_run works.startValid (valid.congruent suits)
  have contracted : ∀ node, graph.hasNode node →
      EqvGen (graph.Link profile (graph.Anchored profile)) node (graph.contractDirect.repOf node) :=
    fun node live => EqvGen.mono (fun _ _ => .inl) _ _ (valid.contractDirect.2.2 node live)
  have between := grounded _ _ (works.nodes one here) (works.nodes two there)
    ((works.absorbs one).trans (same.trans (works.absorbs two).symm))
  refine .trans _ _ _ (contracted one here) (.trans _ _ _ ?_ (.symm _ _ (contracted two there)))
  refine (EqvGen.is_equivalence _).eqvGen_iff.mp (EqvGen.mono ?_ _ _ between)
  rintro _ _ ⟨_, _, label, toOne, toTwo, collapses, close, found⟩
  obtain ⟨first, one, own, rfl, rfl⟩ := works.bracket_behind toOne collapses
  obtain ⟨second, two, own', rfl, rfl⟩ := works.bracket_behind toTwo collapses
  rw [works.absorbs, ← own] at found
  have link : graph.Link profile (graph.Anchored profile) _ _ :=
    .inr ⟨first, second, ⟨one, two, own.trans own'.symm⟩,
      close.of_represented valid (one.live valid).1 (two.live valid).1, found, rfl, rfl⟩
  exact .trans _ _ _ (.symm _ _ (contracted _ (one.live valid).2))
    (.trans _ _ _ (.rel _ _ link) (contracted _ (two.live valid).2))

/-- In the working copy, live nodes stand together just if they are taken for one. -/
theorem Valid.repOf_workingCopy_iff (valid : graph.Valid) (suits : profile.Suits graph) {one two : Node}
    (here : graph.hasNode one) (there : graph.hasNode two) :
    (graph.workingCopy profile).repOf one = (graph.workingCopy profile).repOf two ↔
      graph.Together profile one two := by
  refine ⟨fun same => ?_, fun together => together.repOf_workingCopy valid suits⟩
  refine Together.equivalence.eqvGen_iff.mp (EqvGen.mono ?_ _ _ (valid.linked_of_repOf suits here there same))
  rintro _ _ (straight | ⟨first, second, mates, close, -, rfl, rfl⟩)
  · exact .straight straight
  · exact .matched mates close

/-- For mates an anchor is found, unless their targets are one node for other reasons. -/
theorem Mates.anchored (valid : graph.Valid) (suits : profile.Suits graph) {first second : Edge}
    (mates : graph.Mates profile first second)
    (close : graph.Together profile (profile.oriented first).src (profile.oriented second).src)
    (apart : ¬ graph.TiedElsewhere profile (profile.oriented first).src (profile.oriented first).label
      (profile.oriented first).dst (profile.oriented second).dst) :
    graph.Anchored profile (profile.oriented first).src (profile.oriented first).label := by
  by_contra missed
  have same := (Together.matched mates close).repOf_workingCopy valid suits
  refine apart (EqvGen.mono ?_ _ _
    (valid.linked_of_repOf suits (mates.one.live valid).2 (mates.two.live valid).2 same))
  rintro _ _ (straight | ⟨one, two, others, near, found, rfl, rfl⟩)
  · exact .inl straight
  · refine .inr ⟨one, two, others, near, fun own => missed ?_, rfl, rfl⟩
    rwa [Anchored, own.1, own.2.repOf_workingCopy valid suits] at found

/-! ### Marking edges -/

private theorem mem_members (valid : graph.Valid) {node rep : Node} (root : graph.repOf rep = rep) :
    node ∈ rep :: graph.subsOf rep ↔ graph.repOf node = rep := by
  rw [List.mem_cons, valid.mem_subsOf]
  constructor
  · rintro (rfl | ⟨same, -⟩)
    · exact root
    · exact same
  · intro same
    by_cases own : node = rep
    · exact .inl own
    · exact .inr ⟨same, own⟩

/-- The edges listed at a node are those that leave it, once oriented, under one of the labels. -/
private theorem mem_anchoredAt (valid : graph.Valid) (labels : Std.TreeSet Label) (node : Node) (id : EdgeId) :
    id ∈ graph.anchoredAt profile labels node ↔ ∃ kept, graph.edge? id = some kept ∧
      (profile.oriented kept.toEdge).src = node ∧ (profile.oriented kept.toEdge).label ∈ labels := by
  rw [anchoredAt]
  cases slot : graph.edge? id with
  | none => cases graph.vertex? node <;> simp [slot]
  | some kept =>
    simp only [Option.some.injEq, exists_eq_left']
    cases found : graph.vertex? node with
    | none =>
      refine iff_of_false List.not_mem_nil ?_
      rintro ⟨rfl, -⟩
      obtain ⟨live, -⟩ := valid.hasNode_oriented profile ((valid.hasEdge_iff _).mpr ⟨id, kept, slot, rfl⟩)
      obtain ⟨vertex, there⟩ := (graph.hasNode_iff _).mp live
      cases found.symm.trans there
    | some vertex =>
      have leaves : id ∈ vertex.outgoing.toList ↔ kept.src = node := by
        simp [Incidence.mem_toList, (valid.outgoing node vertex found).2, slot]
      have enters : id ∈ vertex.incoming.toList ↔ kept.dst = node := by
        simp [Incidence.mem_toList, (valid.incoming node vertex found).2, slot]
      simp only [List.mem_append, List.mem_filter, leaves, enters, slot, Option.any_some,
        BracketProfile.oriented, Std.TreeMap.contains_eq_isSome_getElem?]
      cases turns : profile.flips[kept.label.symbol]? <;> simp [Std.TreeSet.contains_iff_mem]

/-- The edges on anchors are those for whose label the node that stands for their source is an anchor. -/
theorem Valid.mem_contributing (valid : graph.Valid) {fan : FanOut} (final : fan.graph.Valid) (id : EdgeId) :
    id ∈ graph.contributing profile fan ↔ ∃ kept, graph.edge? id = some kept ∧
      fan.Found (fan.graph.repOf (profile.oriented kept.toEdge).src) (profile.oriented kept.toEdge).label := by
  rw [contributing, Std.TreeSet.mem_ofList, List.contains_iff_mem, List.mem_flatMap]
  constructor
  · rintro ⟨⟨anchor, labels⟩, listed, inside⟩
    obtain ⟨node, among, here⟩ := List.mem_flatMap.mp inside
    obtain ⟨kept, slot, rfl, held⟩ := (mem_anchoredAt valid labels node id).mp here
    refine ⟨kept, slot, anchor, ?_, ?_⟩
    · rw [Std.TreeMap.getD_eq_getD_getElem?, Std.TreeMap.mem_toList_iff_getElem?_eq_some.mp listed]
      exact held
    · exact ((mem_members final (final.repOf_repOf anchor)).mp among).symm
  · rintro ⟨kept, slot, anchor, listed, same⟩
    rw [Std.TreeMap.getD_eq_getD_getElem?] at listed
    cases known : fan.anchors[anchor]? with
    | none => simp [known] at listed
    | some labels =>
      rw [known, Option.getD_some] at listed
      refine ⟨(anchor, labels), Std.TreeMap.mem_toList_iff_getElem?_eq_some.mpr known, ?_⟩
      refine List.mem_flatMap.mpr ⟨_, (mem_members final (final.repOf_repOf anchor)).mpr same.symm, ?_⟩
      exact (mem_anchoredAt valid labels _ id).mpr ⟨kept, slot, rfl, listed⟩

/-! ### Removing edges -/

/-- A graph without some of its bracket edges. -/
structure Pruned (profile : BracketProfile) (before after : Multigraph) : Prop where
  valid : after.Valid
  nodes : ∀ node, after.hasNode node = before.hasNode node
  sources : ∀ node, after.isSource node = before.isSource node
  kinds : after.directKinds = before.directKinds
  merged : after.merged = before.merged
  members : after.members = before.members
  slots : ∀ id kept, after.edge? id = some kept →
    ∃ old, before.edge? id = some old ∧ old.toEdge = kept.toEdge
  removed : ∀ edge, before.hasEdge edge → ¬ after.hasEdge edge →
    profile.brackets.contains edge.label.symbol ∧ ¬ before.isDirect edge.label.symbol

theorem Pruned.refl (valid : graph.Valid) : Pruned profile graph graph where
  valid := valid
  nodes _ := rfl
  sources _ := rfl
  kinds := rfl
  merged := rfl
  members := rfl
  slots _ kept found := ⟨kept, found, rfl⟩
  removed _ there gone := absurd there gone

theorem Pruned.hasEdge {before : Multigraph} (pruned : Pruned profile before after)
    (valid : before.Valid) {edge : Edge} (there : after.hasEdge edge) : before.hasEdge edge := by
  obtain ⟨id, kept, found, rfl⟩ := (pruned.valid.hasEdge_iff edge).mp there
  obtain ⟨old, stood, same⟩ := pruned.slots id kept found
  exact (valid.hasEdge_iff _).mpr ⟨id, old, stood, same⟩

theorem Pruned.straight_iff {before : Multigraph} (pruned : Pruned profile before after)
    (valid : before.Valid) (src dst : Node) : after.Straight src dst ↔ before.Straight src dst := by
  refine exists_congr fun label => ?_
  rw [isDirect, pruned.kinds]
  refine and_congr_left fun direct => ⟨pruned.hasEdge valid, fun there => ?_⟩
  by_contra gone
  exact (pruned.removed _ there gone).2 direct

private theorem Pruned.setContributing (pruned : Pruned profile graph after) (id : EdgeId) (value : Bool) :
    Pruned profile graph (after.setContributing id value) where
  valid := pruned.valid.setContributing id value
  nodes := pruned.nodes
  sources := pruned.sources
  kinds := pruned.kinds
  merged := pruned.merged
  members := pruned.members
  slots other kept found := by
    rw [edge?_setContributing] at found
    split at found
    · obtain ⟨marked, there, rfl⟩ := Option.map_eq_some_iff.mp found
      exact pruned.slots other marked there
    · exact pruned.slots other kept found
  removed := pruned.removed

private theorem Pruned.removeEdge (pruned : Pruned profile graph after) {id : EdgeId} {doomed : GraphEdge}
    (slot : graph.edge? id = some doomed) (bracket : profile.brackets.contains doomed.label.symbol)
    (indirect : ¬ graph.isDirect doomed.label.symbol) :
    Pruned profile graph (after.removeEdge id).1 where
  valid := pruned.valid.removeEdge id
  nodes node := (after.hasNode_removeEdge id node).trans (pruned.nodes node)
  sources node := (after.isSource_removeEdge id node).trans (pruned.sources node)
  kinds := (after.kept_removeEdge id).2.2.trans pruned.kinds
  merged := (after.kept_removeEdge id).1.trans pruned.merged
  members := (after.kept_removeEdge id).2.1.trans pruned.members
  slots other kept found := by
    rw [edge?_removeEdge, Option.ite_none_left_eq_some] at found
    exact pruned.slots other kept found.2
  removed edge there gone := by
    by_cases still : after.hasEdge edge
    · rw [hasEdge_removeEdge pruned.valid, not_and] at gone
      have taken := gone still
      push Not at taken
      obtain ⟨kept, found, rfl⟩ := taken
      obtain ⟨old, here, same⟩ := pruned.slots id kept found
      rw [slot] at here
      obtain rfl := Option.some.inj here
      rw [← same]
      exact ⟨bracket, indirect⟩
    · exact pruned.removed edge there still

theorem edge?_foldl_setContributing (ids : List EdgeId) (graph : Multigraph) (id : EdgeId) :
    (ids.foldl (fun graph id => graph.setContributing id true) graph).edge? id =
      if id ∈ ids then (graph.edge? id).map fun edge => { edge with contributing := true }
      else graph.edge? id := by
  induction ids generalizing graph with
  | nil => simp
  | cons first ids ih =>
    rw [List.foldl_cons, ih, edge?_setContributing]
    by_cases here : id = first
    · cases graph.edge? id <;> simp [here]
    · simp [here]

private theorem edge?_foldl_removeEdge (ids : List EdgeId) (graph : Multigraph) (id : EdgeId) :
    (ids.foldl (fun graph id => (graph.removeEdge id).1) graph).edge? id =
      if id ∈ ids then none else graph.edge? id := by
  induction ids generalizing graph with
  | nil => simp
  | cons first ids ih =>
    rw [List.foldl_cons, ih, edge?_removeEdge]
    by_cases here : id = first <;> simp [here]

/-- What pruning leaves in a slot. -/
theorem edge?_pruneBrackets (graph : Multigraph) (profile : BracketProfile) (id : EdgeId) :
    (graph.pruneBrackets profile).graph.edge? id =
      if id ∈ graph.unmatched profile (graph.contributing profile (graph.fanOut profile)) then none
      else if id ∈ graph.contributing profile (graph.fanOut profile) then
        (graph.edge? id).map fun edge => { edge with contributing := true }
      else graph.edge? id := by
  rw [pruneBrackets]
  dsimp only
  rw [edge?_foldl_removeEdge, edge?_foldl_setContributing]
  simp only [Std.TreeSet.mem_toList]
  rfl

theorem mem_unmatched (graph : Multigraph) (profile : BracketProfile) (kept : Std.TreeSet EdgeId)
    (id : EdgeId) :
    id ∈ graph.unmatched profile kept ↔ id ∉ kept ∧ ∃ edge, graph.edge? id = some edge ∧
      ¬ graph.isDirect edge.label.symbol ∧ profile.brackets.contains edge.label.symbol := by
  rw [unmatched, List.mem_filterMap, Prod.exists]
  simp only [mem_edges, Option.ite_none_right_eq_some, Option.some.injEq, Bool.and_eq_true, Bool.not_eq_true',
    ← Bool.not_eq_true, Std.TreeSet.contains_iff_mem]
  constructor
  · rintro ⟨slot, edge, found, ⟨⟨indirect, bracket⟩, unmarked⟩, rfl⟩
    exact ⟨unmarked, edge, found, indirect, bracket⟩
  · rintro ⟨unmarked, edge, found, indirect, bracket⟩
    exact ⟨id, edge, found, ⟨⟨indirect, bracket⟩, unmarked⟩, rfl⟩

/-- Pruning removes bracket edges and nothing else. -/
theorem Valid.pruneBrackets (valid : graph.Valid) (profile : BracketProfile) :
    Pruned profile graph (graph.pruneBrackets profile).graph := by
  rw [Multigraph.pruneBrackets]
  dsimp only
  refine List.foldlRecOn (motive := Pruned profile graph) _ _ ?_ fun middle pruned id listed => ?_
  · exact List.foldlRecOn (motive := Pruned profile graph) _ _ (.refl valid)
      fun middle pruned id _ => pruned.setContributing id true
  · obtain ⟨-, doomed, slot, indirect, bracket⟩ := (mem_unmatched ..).mp listed
    exact pruned.removeEdge slot bracket indirect

/-- An edge in a slot that is marked stays. -/
private theorem Valid.hasEdge_pruneBrackets (valid : graph.Valid) {id : EdgeId} {kept : GraphEdge}
    (slot : graph.edge? id = some kept)
    (marked : id ∈ graph.contributing profile (graph.fanOut profile)) :
    (graph.pruneBrackets profile).graph.hasEdge kept.toEdge := by
  refine ((valid.pruneBrackets profile).valid.hasEdge_iff _).mpr
    ⟨id, { kept with contributing := true }, ?_, rfl⟩
  rw [edge?_pruneBrackets, if_neg, if_pos marked, slot]
  · rfl
  · exact fun doomed => ((mem_unmatched ..).mp doomed).1 marked

/-- A bracket edge for whose source and label an anchor was found is not pruned. -/
theorem Anchored.hasEdge (valid : graph.Valid) (suits : profile.Suits graph) {edge : Edge}
    (there : graph.hasEdge edge)
    (anchored : graph.Anchored profile (profile.oriented edge).src (profile.oriented edge).label) :
    (graph.pruneBrackets profile).graph.hasEdge edge := by
  obtain ⟨id, kept, slot, rfl⟩ := (valid.hasEdge_iff edge).mp there
  exact valid.hasEdge_pruneBrackets slot
    ((valid.mem_contributing (valid.works suits).valid id).mpr ⟨kept, slot, anchored⟩)

/-- Mates whose targets are not one node for other reasons are not pruned. -/
theorem Mates.pruned (valid : graph.Valid) (suits : profile.Suits graph) {first second : Edge}
    (mates : graph.Mates profile first second)
    (close : graph.Together profile (profile.oriented first).src (profile.oriented second).src)
    (apart : ¬ graph.TiedElsewhere profile (profile.oriented first).src (profile.oriented first).label
      (profile.oriented first).dst (profile.oriented second).dst) :
    (graph.pruneBrackets profile).graph.hasEdge first ∧
      (graph.pruneBrackets profile).graph.hasEdge second := by
  have anchored := mates.anchored valid suits close apart
  refine ⟨Anchored.hasEdge valid suits mates.one.there anchored,
    Anchored.hasEdge valid suits mates.two.there ?_⟩
  rwa [Anchored, ← close.repOf_workingCopy valid suits, ← mates.label]

end Multigraph

end GrammarReach
