import GrammarReach.Proofs.Graph.Calls
import GrammarReach.Proofs.Simplify.Twice

/-!
Pruning takes away unmarked bracket edges and nothing else, and once is enough: what is left has the same
anchors, so that all its brackets sit on one.
-/

namespace GrammarReach

/-- Direct kinds are no brackets, are not turned around and are not what other kinds are turned into; and
what is turned around is not turned back. -/
structure BracketProfile.Proper (profile : BracketProfile) (graph : Multigraph) : Prop where
  brackets : ∀ kind, profile.brackets.contains kind → ¬ graph.isDirect kind
  flips : ∀ kind turned : Kind, profile.flips[kind]? = some turned →
    ¬ graph.isDirect kind ∧ ¬ graph.isDirect turned ∧ profile.flips[turned]? = none

theorem BracketProfile.Proper.suits {profile : BracketProfile} {graph : Multigraph}
    (proper : profile.Proper graph) : profile.Suits graph := by
  intro kind turned turns
  obtain ⟨-, indirect, stays⟩ := proper.flips kind turned turns
  exact ⟨stays, indirect⟩

namespace Multigraph

variable {graph : Multigraph} {profile : BracketProfile} {fan : FanOut}

private theorem edges_eq (graph : Multigraph) : graph.edges =
    (List.range graph.slots.size).filterMap fun id => (graph.edge? id).map fun edge => (id, edge) := by
  have slots : graph.slots.toList.zipIdx =
      (List.range graph.slots.size).map fun id => (graph.edge? id, id) := by
    refine List.ext_getElem (by simp) fun id here there => ?_
    have bound : id < graph.slots.size := by simpa using there
    simp [edge?, Array.getElem?_eq_getElem bound]
  rw [edges, slots, List.filterMap_map]
  rfl

private theorem size_pruneBrackets (graph : Multigraph) (profile : BracketProfile) :
    (graph.pruneBrackets profile).graph.slots.size = graph.slots.size := by
  rw [pruneBrackets]
  dsimp only
  refine List.foldlRecOn (motive := fun after : Multigraph => after.slots.size = graph.slots.size) _ _ ?_ ?_
  · refine List.foldlRecOn (motive := fun after : Multigraph => after.slots.size = graph.slots.size) _ _ rfl ?_
    intro after same id _
    rw [setContributing, Array.size_modify, same]
  · intro after same id _
    rw [removeEdge]
    split
    · exact same
    · exact (Array.size_setIfInBounds).trans same

/-- Direct edges are found again in the same order. -/
private theorem directPairs_pruneBrackets (graph : Multigraph) (profile : BracketProfile)
    (kinds : (graph.pruneBrackets profile).graph.directKinds = graph.directKinds) :
    (graph.pruneBrackets profile).graph.directPairs = graph.directPairs := by
  rw [directPairs, directPairs, edges_eq, edges_eq, size_pruneBrackets, List.filterMap_filterMap,
    List.filterMap_filterMap]
  refine List.filterMap_congr fun id _ => ?_
  rw [edge?_pruneBrackets]
  cases slot : graph.edge? id with
  | none => split <;> simp
  | some edge =>
    split
    · next doomed =>
      obtain ⟨-, _, slot', indirect, -⟩ := (mem_unmatched ..).mp doomed
      cases slot.symm.trans slot'
      simp [indirect]
    · split <;> simp [isDirect, kinds]

private theorem Valid.edgeCount_removeEdge (valid : graph.Valid) {id : EdgeId} {edge : GraphEdge}
    (slot : graph.edge? id = some edge) : (graph.removeEdge id).1.edgeCount + 1 = graph.edgeCount := by
  have inhabited : 0 < graph.edgeCount := by
    rw [← valid.length_edges]
    exact List.length_pos_of_mem ((graph.mem_edges id edge).mpr slot)
  rw [Multigraph.removeEdge, slot]
  exact Nat.sub_add_cancel inhabited

private theorem Valid.edgeCount_foldl_removeEdge (ids : List EdgeId) (distinct : ids.Nodup) :
    ∀ {graph : Multigraph}, graph.Valid → (∀ id ∈ ids, ∃ edge, graph.edge? id = some edge) →
      (ids.foldl (fun graph id => (graph.removeEdge id).1) graph).edgeCount + ids.length = graph.edgeCount := by
  induction ids with
  | nil => exact fun _ _ => rfl
  | cons id ids ih =>
    intro graph valid live
    obtain ⟨fresh, distinct⟩ := List.nodup_cons.mp distinct
    obtain ⟨⟨edge, slot⟩, live⟩ := List.forall_mem_cons.mp live
    have rest := ih distinct (valid.removeEdge id) fun other listed => by
      obtain ⟨kept, slot'⟩ := live other listed
      refine ⟨kept, ?_⟩
      rw [edge?_removeEdge, if_neg, slot']
      rintro rfl
      exact fresh listed
    rw [List.foldl_cons, List.length_cons, ← Nat.add_assoc, rest, valid.edgeCount_removeEdge slot]

private theorem nodup_unmatched (graph : Multigraph) (profile : BracketProfile) (kept : Std.TreeSet EdgeId) :
    (graph.unmatched profile kept).Nodup := by
  have slots := graph.nodup_edges
  rw [List.Nodup, List.pairwise_map] at slots
  refine slots.filterMap _ ?_
  rintro ⟨first, one⟩ ⟨second, two⟩ differ id here other there
  simp only [Option.ite_none_right_eq_some, Option.some.injEq] at here there
  rw [← here.2, ← there.2]
  exact differ

/-- As many edges are removed as the number tells. -/
theorem Valid.edgeCount_pruneBrackets (valid : graph.Valid) (profile : BracketProfile) :
    (graph.pruneBrackets profile).graph.edgeCount + (graph.pruneBrackets profile).pruned = graph.edgeCount := by
  rw [Multigraph.pruneBrackets]
  dsimp only
  generalize marks : (graph.contributing profile _).toList.foldl _ graph = marked
  have kept : marked.Valid ∧ marked.edgeCount = graph.edgeCount := by
    rw [← marks]
    exact List.foldlRecOn (motive := fun after : Multigraph => after.Valid ∧ after.edgeCount = graph.edgeCount)
      _ _ ⟨valid, rfl⟩ fun after both id _ => ⟨both.1.setContributing id true, both.2⟩
  rw [← kept.2]
  refine Valid.edgeCount_foldl_removeEdge _ (nodup_unmatched ..) kept.1 fun id listed => ?_
  obtain ⟨-, edge, slot, -⟩ := (mem_unmatched ..).mp listed
  rw [← marks, edge?_foldl_setContributing, slot]
  split <;> exact ⟨_, rfl⟩

/-- Merging targets goes the same on what pruning leaves. -/
theorem Valid.shadows_fanOut (valid : graph.Valid) (suits : profile.Suits graph) :
    FanOut.Shadows (graph.fanOut profile) (graph.fanOut profile)
      ((graph.pruneBrackets profile).graph.fanOut profile) := by
  have pruned := valid.pruneBrackets profile
  have works := valid.works suits
  have works' := pruned.valid.works (suits.of_same pruned.kinds)
  have whole : Alike graph (graph.pruneBrackets profile).graph :=
    ⟨valid, pruned.valid, pruned.kinds, fun node => by rw [repOf, pruned.merged, repOf], pruned.nodes⟩
  have contracted := whole.contractDirect (directPairs_pruneBrackets graph profile pruned.kinds)
  have started := contracted.flipEdges (suits.of_same valid.contractDirect.1.kinds)
  have begun : FanOut.Shadows (graph.fanOut profile)
      { graph := graph.contractDirect.flipEdges profile
        queue := .ofList (graph.contractDirect.flipEdges profile).nodes }
      { graph := (graph.pruneBrackets profile).graph.contractDirect.flipEdges profile
        queue := .ofList ((graph.pruneBrackets profile).graph.contractDirect.flipEdges profile).nodes } := by
    refine ⟨⟨started, rfl, ?_⟩, fun edge there => ?_, fun edge there found => ?_⟩
    · rw [Queue.toList_ofList, Queue.toList_ofList, started.nodes_eq]
    · obtain ⟨old, stood, indirect, rfl⟩ := works'.origins edge there
      rw [whole.isDirect] at indirect
      rw [contracted.represented]
      exact works.starts old (pruned.hasEdge valid stood) indirect
    · obtain ⟨old, stood, indirect, rfl⟩ := works.origins edge there
      rw [represented, works.absorbs] at found
      have stays := Anchored.hasEdge valid suits stood found
      rw [← contracted.represented]
      exact works'.starts old stays (by rwa [whole.isDirect])
  obtain ⟨steps, shadows, halted⟩ := begun.run works.startValid works'.startValid _
    (FanOut.stands_start works.startValid) (FanOut.stands_start works'.startValid)
    (FanOut.step_run_eq_none works.startValid)
  have same := Loop.run_eq_of_halted steps (FanOut.bound _) _ halted (FanOut.step_run_eq_none works'.startValid)
  rwa [same] at shadows

/-- The edges on anchors are those on anchors before, as far as they are left. -/
private theorem Valid.mem_contributing_again (valid : graph.Valid) (suits : profile.Suits graph)
    {after : Multigraph} (left : (graph.pruneBrackets profile).graph = after) (id : EdgeId) :
    id ∈ after.contributing profile (after.fanOut profile) ↔
      (∃ kept, after.edge? id = some kept) ∧ id ∈ graph.contributing profile (graph.fanOut profile) := by
  subst left
  have pruned := valid.pruneBrackets profile
  have shadows := valid.shadows_fanOut suits
  have found : ∀ node label, ((graph.pruneBrackets profile).graph.fanOut profile).Found
      (((graph.pruneBrackets profile).graph.fanOut profile).graph.repOf node) label ↔
        (graph.fanOut profile).Found ((graph.fanOut profile).graph.repOf node) label := by
    intro node label
    rw [FanOut.Found, FanOut.Found, shadows.alike.anchors]
    simp only [shadows.alike.graph.repOf]
  rw [pruned.valid.mem_contributing shadows.alike.graph.second,
    valid.mem_contributing shadows.alike.graph.first]
  simp only [found]
  constructor
  · rintro ⟨kept, slot, anchored⟩
    obtain ⟨old, slot', same⟩ := pruned.slots id kept slot
    exact ⟨⟨kept, slot⟩, old, slot', same ▸ anchored⟩
  · rintro ⟨⟨kept, slot⟩, old, slot', anchored⟩
    obtain ⟨_, slot'', same⟩ := pruned.slots id kept slot
    cases slot'.symm.trans slot''
    exact ⟨kept, slot, same ▸ anchored⟩

/-- What is left in a slot on an anchor is marked. -/
private theorem marked_of_contributing {id : EdgeId} {kept : GraphEdge}
    (slot : (graph.pruneBrackets profile).graph.edge? id = some kept)
    (anchored : id ∈ graph.contributing profile (graph.fanOut profile)) : kept.contributing = true := by
  rw [edge?_pruneBrackets, if_neg fun doomed => ((mem_unmatched ..).mp doomed).1 anchored,
    if_pos anchored] at slot
  obtain ⟨old, -, rfl⟩ := Option.map_eq_some_iff.mp slot
  rfl

/-- The brackets that are left are on anchors. -/
private theorem Valid.contributing_of_bracket (valid : graph.Valid) {id : EdgeId} {kept : GraphEdge}
    (slot : (graph.pruneBrackets profile).graph.edge? id = some kept)
    (indirect : ¬ graph.isDirect kept.label.symbol) (bracket : profile.brackets.contains kept.label.symbol) :
    id ∈ graph.contributing profile (graph.fanOut profile) := by
  by_contra unmarked
  obtain ⟨old, slot', same⟩ := (valid.pruneBrackets profile).slots id kept slot
  rw [← same] at indirect bracket
  have doomed := (mem_unmatched graph profile _ id).mpr ⟨unmarked, old, slot', indirect, bracket⟩
  rw [edge?_pruneBrackets, if_pos doomed] at slot
  cases slot

private theorem setContributing_of_marked {id : EdgeId}
    (marked : ∀ kept, graph.edge? id = some kept → kept.contributing = true) :
    graph.setContributing id true = graph := by
  have slots : graph.slots.modify id (Option.map fun edge => { edge with contributing := true }) =
      graph.slots := by
    refine Array.ext_getElem? fun other => ?_
    rw [Array.getElem?_modify]
    split
    · next same =>
      obtain rfl := same
      rw [edge?] at marked
      rcases found : graph.slots[id]? with _ | _ | kept
      · rfl
      · rfl
      · have already := marked kept (by rw [found]; rfl)
        cases kept
        subst already
        rfl
    · rfl
  rw [setContributing, slots]

/-- Pruning again changes nothing. -/
theorem Valid.pruneBrackets_again (valid : graph.Valid) (suits : profile.Suits graph) :
    (graph.pruneBrackets profile).graph.pruneBrackets profile =
      { graph := (graph.pruneBrackets profile).graph
        anchors := (graph.pruneBrackets profile).anchors
        pruned := 0 } := by
  have pruned := valid.pruneBrackets profile
  have anchors := (valid.shadows_fanOut suits).alike.anchors
  obtain ⟨after, left⟩ : ∃ after, (graph.pruneBrackets profile).graph = after := ⟨_, rfl⟩
  have again := valid.mem_contributing_again suits left
  rw [left] at pruned anchors ⊢
  have doomed : after.unmatched profile (after.contributing profile (after.fanOut profile)) = [] := by
    refine List.eq_nil_iff_forall_not_mem.mpr fun id listed => ?_
    obtain ⟨unmarked, kept, slot, indirect, bracket⟩ := (mem_unmatched ..).mp listed
    rw [isDirect, pruned.kinds] at indirect
    have slot' := slot
    rw [← left] at slot'
    exact unmarked ((again id).mpr ⟨⟨kept, slot⟩, valid.contributing_of_bracket slot' indirect bracket⟩)
  have marks : (after.contributing profile (after.fanOut profile)).toList.foldl
      (fun graph id => graph.setContributing id true) after = after := by
    refine List.foldlRecOn (motive := (· = after)) _ _ rfl ?_
    rintro _ rfl id listed
    refine setContributing_of_marked fun kept slot => ?_
    rw [← left] at slot
    exact marked_of_contributing slot ((again id).mp (Std.TreeSet.mem_toList.mp listed)).2
  have second : after.pruneBrackets profile =
      { graph := (after.unmatched profile (after.contributing profile (after.fanOut profile))).foldl
          (fun graph id => (graph.removeEdge id).1)
          ((after.contributing profile (after.fanOut profile)).toList.foldl
            (fun graph id => graph.setContributing id true) after)
        anchors := (after.fanOut profile).anchors.values.foldl (fun total labels => total + labels.size) 0
        pruned := (after.unmatched profile (after.contributing profile (after.fanOut profile))).length } := rfl
  rw [second, marks, doomed, anchors]
  rfl

/-- What pruning comes to: only unmarked brackets go, and doing it again changes nothing. -/
structure PrunedOnce (profile : BracketProfile) (before : Multigraph) (pruning : Pruning) : Prop where
  nodes : ∀ node, pruning.graph.hasNode node = before.hasNode node
  sources : ∀ node, pruning.graph.isSource node = before.isSource node
  kinds : pruning.graph.directKinds = before.directKinds
  merged : pruning.graph.merged = before.merged
  members : pruning.graph.members = before.members
  /-- Edges of direct kinds and of kinds that are no brackets stay. -/
  others : ∀ edge, before.isDirect edge.label.symbol ∨ ¬ profile.brackets.contains edge.label.symbol →
    (pruning.graph.hasEdge edge ↔ before.hasEdge edge)
  /-- What is left is in its old slot. -/
  slots : ∀ id kept, pruning.graph.edge? id = some kept →
    ∃ old, before.edge? id = some old ∧ old.toEdge = kept.toEdge
  marked : ∀ id kept, pruning.graph.edge? id = some kept →
    profile.brackets.contains kept.label.symbol → kept.contributing = true
  count : pruning.graph.edgeCount + pruning.pruned = before.edgeCount
  again : pruning.graph.pruneBrackets profile =
    { graph := pruning.graph, anchors := pruning.anchors, pruned := 0 }

theorem Valid.prunedOnce (valid : graph.Valid) (proper : profile.Proper graph) :
    PrunedOnce profile graph (graph.pruneBrackets profile) := by
  have pruned := valid.pruneBrackets profile
  exact
    { nodes := pruned.nodes, sources := pruned.sources, kinds := pruned.kinds
      merged := pruned.merged, members := pruned.members
      others := fun edge spared => by
        refine ⟨pruned.hasEdge valid, fun there => ?_⟩
        by_contra gone
        obtain ⟨bracket, indirect⟩ := pruned.removed edge there gone
        exact spared.elim indirect (absurd bracket)
      slots := pruned.slots
      marked := fun id kept slot bracket =>
        marked_of_contributing slot (valid.contributing_of_bracket slot (proper.brackets _ bracket) bracket)
      count := valid.edgeCount_pruneBrackets profile
      again := valid.pruneBrackets_again proper.suits }

/-- Whatever calls a graph was made by, pruning takes away unmarked brackets only, and once is enough. -/
theorem prunedOnce_ofCalls (kinds : List Kind) (calls : List Call) (profile : BracketProfile)
    (proper : profile.Proper (ofCalls kinds calls)) :
    PrunedOnce profile (ofCalls kinds calls) ((ofCalls kinds calls).pruneBrackets profile) :=
  (valid_ofCalls kinds calls).prunedOnce proper

/-- Two brackets on an anchor, one of them turned around, and a bracket that goes. -/
theorem prunedOnce_ofCalls_turned :
    let profile : BracketProfile := { brackets := .ofList [2], flips := .ofList [(3, 2)] }
    let graph := ofCalls [0] ([⟨1, 2, ⟨2, 0⟩⟩, ⟨3, 1, ⟨3, 0⟩⟩, ⟨3, 4, ⟨0, 0⟩⟩, ⟨4, 5, ⟨2, 1⟩⟩].map fun edge =>
      .edit (.addEdge edge))
    profile.Proper graph ∧ PrunedOnce profile graph (graph.pruneBrackets profile) ∧
      (graph.pruneBrackets profile).pruned = 1 := by
  intro profile graph
  have proper : profile.Proper graph := by
    refine ⟨fun kind bracket => ?_, fun kind turned turns => ?_⟩
    · rw [Std.TreeSet.contains_ofList] at bracket
      obtain rfl : kind = 2 := by simpa using bracket
      decide +kernel
    · have known : (Std.TreeMap.ofList [((3 : Kind), (2 : Kind))])[kind]? = some turned := turns
      rw [Std.TreeMap.ofList_singleton, Std.TreeMap.getElem?_insert] at known
      obtain ⟨rfl, rfl⟩ : 3 = kind ∧ 2 = turned := by simpa using known
      decide +kernel
  exact ⟨proper, prunedOnce_ofCalls _ _ profile proper, by decide +kernel⟩

end Multigraph

end GrammarReach
