import Mathlib.Data.List.Nodup
import GrammarReach.Graph.Merge
import GrammarReach.Proofs.Graph.Edit

namespace GrammarReach.Multigraph

variable {graph : Multigraph}

/-- The image of a graph after some of its nodes were merged into others. -/
structure Quotient (before after : Multigraph) : Prop where
  valid : after.Valid
  kinds : after.directKinds = before.directKinds
  absorbs : ∀ node, after.repOf (before.repOf node) = after.repOf node
  nodes : ∀ node, after.hasNode node ↔ ∃ old, before.hasNode old ∧ after.repOf old = node
  edges : ∀ edge, after.hasEdge edge ↔
    ∃ old, before.hasEdge old ∧ after.represented old = edge ∧ ¬ after.IsDirectLoop edge
  sources : ∀ node, after.isSource node ↔ ∃ old, before.isSource old ∧ after.repOf old = node

namespace Quotient

theorem refl (valid : graph.Valid) : Quotient graph graph where
  valid := valid
  kinds := rfl
  absorbs := valid.repOf_repOf
  nodes node := by
    constructor
    · exact fun live => ⟨node, live, valid.repOf_live live⟩
    · rintro ⟨old, live, rfl⟩
      rwa [valid.repOf_live live]
  edges edge := by
    constructor
    · exact fun there => ⟨edge, there, valid.represented_eq there, valid.not_isDirectLoop there⟩
    · rintro ⟨old, there, rfl, -⟩
      rwa [valid.represented_eq there]
  sources node := by
    constructor
    · exact fun marked => ⟨node, marked, valid.repOf_live (hasNode_of_isSource marked)⟩
    · rintro ⟨old, marked, rfl⟩
      rwa [valid.repOf_live (hasNode_of_isSource marked)]

variable {before middle after : Multigraph}

theorem isDirect_eq (quotient : Quotient before after) (kind : Kind) :
    after.isDirect kind = before.isDirect kind := by
  rw [isDirect, isDirect, quotient.kinds]

theorem represented_eq (quotient : Quotient before after) (edge : Edge) :
    after.represented (before.represented edge) = after.represented edge := by
  rw [represented, represented, represented, quotient.absorbs, quotient.absorbs]

theorem trans (first : Quotient before middle) (second : Quotient middle after) :
    Quotient before after where
  valid := second.valid
  kinds := second.kinds.trans first.kinds
  absorbs node := by rw [← second.absorbs, first.absorbs, second.absorbs]
  nodes node := by
    rw [second.nodes]
    constructor
    · rintro ⟨old, live, rfl⟩
      obtain ⟨older, there, rfl⟩ := (first.nodes old).mp live
      exact ⟨older, there, (second.absorbs older).symm⟩
    · rintro ⟨old, live, rfl⟩
      exact ⟨middle.repOf old, (first.nodes _).mpr ⟨old, live, rfl⟩, second.absorbs old⟩
  edges edge := by
    rw [second.edges]
    constructor
    · rintro ⟨old, there, rfl, straight⟩
      obtain ⟨older, stood, rfl, -⟩ := (first.edges old).mp there
      exact ⟨older, stood, (second.represented_eq older).symm, straight⟩
    · rintro ⟨old, there, rfl, straight⟩
      refine ⟨middle.represented old, (first.edges _).mpr ⟨old, there, rfl, fun loop => straight ?_⟩,
        second.represented_eq old, straight⟩
      obtain ⟨direct, same⟩ := loop
      refine ⟨(second.isDirect_eq _).trans direct, ?_⟩
      have equal := congrArg after.repOf same
      rwa [represented, second.absorbs, second.absorbs] at equal
  sources node := by
    rw [second.sources]
    constructor
    · rintro ⟨old, marked, rfl⟩
      obtain ⟨older, stood, rfl⟩ := (first.sources old).mp marked
      exact ⟨older, stood, (second.absorbs older).symm⟩
    · rintro ⟨old, marked, rfl⟩
      exact ⟨middle.repOf old, (first.sources _).mpr ⟨old, marked, rfl⟩, second.absorbs old⟩

/-- Where no node gave way to one that was not live, the live nodes are those that stand for themselves. -/
theorem live_iff (quotient : Quotient before after)
    (within : ∀ node, before.hasNode node → before.hasNode (after.repOf node)) (node : Node) :
    after.hasNode node ↔ before.hasNode node ∧ after.repOf node = node := by
  constructor
  · intro live
    refine ⟨?_, quotient.valid.repOf_live live⟩
    obtain ⟨old, there, rfl⟩ := (quotient.nodes node).mp live
    exact within old there
  · rintro ⟨live, same⟩
    exact (quotient.nodes node).mpr ⟨node, live, same⟩

end Quotient

/-! ### What stays while the edges move -/

/-- What taking edges out and putting edges back leave as it was. -/
private structure Kept (before after : Multigraph) : Prop where
  valid : after.Valid
  merged : after.merged = before.merged
  kinds : after.directKinds = before.directKinds
  nodes : ∀ node, after.hasNode node ↔ before.hasNode node
  sources : ∀ node, after.isSource node = before.isSource node

private theorem Kept.refl (valid : graph.Valid) : Kept graph graph where
  valid := valid
  merged := rfl
  kinds := rfl
  nodes _ := .rfl
  sources _ := rfl

private theorem Kept.trans {first second third : Multigraph} (one : Kept first second)
    (two : Kept second third) : Kept first third where
  valid := two.valid
  merged := two.merged.trans one.merged
  kinds := two.kinds.trans one.kinds
  nodes node := (two.nodes node).trans (one.nodes node)
  sources node := (two.sources node).trans (one.sources node)

private theorem Kept.repOf {before after : Multigraph} (kept : Kept before after) (node : Node) :
    after.repOf node = before.repOf node := by
  rw [Multigraph.repOf, Multigraph.repOf, kept.merged]

private theorem Kept.isDirectLoop_iff {before after : Multigraph} (kept : Kept before after) (edge : Edge) :
    after.IsDirectLoop edge ↔ before.IsDirectLoop edge := by
  rw [IsDirectLoop, IsDirectLoop, isDirect, isDirect, kept.kinds]

/-! ### Taking the edges out -/

private theorem Valid.kept_removeEdge (valid : graph.Valid) (id : EdgeId) :
    Kept graph (graph.removeEdge id).1 where
  valid := valid.removeEdge id
  merged := (graph.kept_removeEdge id).1
  kinds := (graph.kept_removeEdge id).2.2
  nodes node := by rw [graph.hasNode_removeEdge]
  sources node := graph.isSource_removeEdge id node

private theorem Valid.kept_detach (valid : graph.Valid) (ids : List EdgeId) :
    Kept graph (graph.detach ids).1 := by
  induction ids generalizing graph with
  | nil => exact .refl valid
  | cons id ids ih => exact (valid.kept_removeEdge id).trans (ih (valid.removeEdge id))

private theorem edge?_detach (graph : Multigraph) (ids : List EdgeId) (id : EdgeId) :
    (graph.detach ids).1.edge? id = if id ∈ ids then none else graph.edge? id := by
  induction ids generalizing graph with
  | nil => rfl
  | cons head ids ih =>
    rw [Multigraph.detach]
    dsimp only
    rw [ih, edge?_removeEdge]
    by_cases first : id = head
    · simp [first]
    · simp [first]

private theorem mem_detach (graph : Multigraph) (ids : List EdgeId) (edge : GraphEdge) :
    edge ∈ (graph.detach ids).2 ↔ ∃ id ∈ ids, graph.edge? id = some edge := by
  induction ids generalizing graph with
  | nil => simp [Multigraph.detach]
  | cons head ids ih =>
    rw [Multigraph.detach]
    dsimp only
    have taken : (graph.removeEdge head).2 = graph.edge? head := by
      rw [removeEdge]
      split <;> simp [*]
    rw [List.mem_append, ih, taken, Option.mem_toList, List.exists_mem_cons_iff]
    simp only [edge?_removeEdge, Option.ite_none_left_eq_some]
    constructor
    · rintro (found | ⟨id, listed, -, found⟩)
      · exact Or.inl found
      · exact Or.inr ⟨id, listed, found⟩
    · rintro (found | ⟨id, listed, found⟩)
      · exact Or.inl found
      · by_cases first : id = head
        · exact Or.inl (first ▸ found)
        · exact Or.inr ⟨id, listed, first, found⟩

/-! ### Giving way -/

private theorem getElem?_retire_vertices (graph : Multigraph) (node rep other : Node) :
    (graph.retire node rep).vertices[other]? =
      if other = node then none
      else graph.vertices[other]?.map fun vertex =>
        { vertex with isSource := vertex.isSource || (decide (other = rep) && graph.isSource node) } := by
  simp only [retire, Std.TreeMap.getElem?_modify, Std.TreeMap.getElem?_erase,
    Std.LawfulEqCmp.compare_eq_iff_eq]
  by_cases gone : other = node
  · subst gone
    by_cases target : rep = other <;> simp [target]
  · by_cases target : rep = other
    · subst target
      simp [gone, Ne.symm gone, isSource]
    · simp [gone, Ne.symm gone, target, Ne.symm target]

private theorem hasNode_retire (graph : Multigraph) (node rep other : Node) :
    (graph.retire node rep).hasNode other ↔ graph.hasNode other ∧ other ≠ node := by
  rw [hasNode_iff, getElem?_retire_vertices]
  split
  · next gone => simp [gone]
  · next stays =>
    rw [hasNode_iff, and_iff_left stays]
    cases graph.vertices[other]? <;> simp

private theorem isSource_retire (graph : Multigraph) {node rep : Node} (live : graph.hasNode rep)
    (apart : node ≠ rep) (other : Node) :
    (graph.retire node rep).isSource other ↔
      (other ≠ node ∧ graph.isSource other) ∨ (other = rep ∧ graph.isSource node) := by
  rw [isSource, vertex?, getElem?_retire_vertices]
  obtain ⟨target, found⟩ := (graph.hasNode_iff rep).mp live
  split
  · next gone => simp [gone, apart]
  · next stays =>
    by_cases here : other = rep
    · subst here
      simp [found, isSource, vertex?, stays]
    · cases there : graph.vertices[other]? <;> simp [isSource, vertex?, here, stays, there]

private theorem getElem?_retire_merged (graph : Multigraph) (node rep other : Node) :
    (graph.retire node rep).merged[other]? =
      if other = node ∨ other ∈ graph.subsOf node then some rep else graph.merged[other]? := by
  have general : ∀ (subs : List Node) (merged : Std.TreeMap Node Node),
      (subs.foldl (fun merged sub => merged.insert sub rep) merged)[other]? =
        if other ∈ subs then some rep else merged[other]? := by
    intro subs
    induction subs with
    | nil => simp
    | cons sub subs ih =>
      intro merged
      rw [List.foldl_cons, ih]
      simp only [Std.TreeMap.getElem?_insert, Std.LawfulEqCmp.compare_eq_iff_eq]
      by_cases first : other = sub
      · simp [first]
      · simp [first, Ne.symm first]
  rw [retire]
  dsimp only
  rw [general]
  simp only [Std.TreeMap.getElem?_insert, Std.LawfulEqCmp.compare_eq_iff_eq]
  by_cases own : other = node
  · simp [own]
  · simp [own, Ne.symm own]

private theorem subsOf_retire (graph : Multigraph) {node rep : Node} (other : Node) :
    (graph.retire node rep).subsOf other =
      if other = rep then graph.subsOf rep ++ graph.subsOf node ++ [node]
      else if other = node then [] else graph.subsOf other := by
  simp only [subsOf, retire, Std.TreeMap.getD_insert, Std.TreeMap.getD_erase,
    Std.LawfulEqCmp.compare_eq_iff_eq, @eq_comm _ other]

private theorem Valid.not_hasNode_sub (valid : graph.Valid) {node sub : Node}
    (listed : sub ∈ graph.subsOf node) : ¬ graph.hasNode sub := by
  have link := (valid.members sub node).mp listed
  intro live
  rw [valid.unmerged sub live] at link
  cases link

private theorem Valid.members_retire (valid : graph.Valid) {node rep : Node} (live : graph.hasNode node)
    (apart : node ≠ rep) (other stands : Node) :
    other ∈ (graph.retire node rep).subsOf stands ↔
      (graph.retire node rep).merged[other]? = some stands := by
  rw [subsOf_retire, getElem?_retire_merged]
  by_cases joins : other = node ∨ other ∈ graph.subsOf node
  · rw [if_pos joins, Option.some.injEq]
    by_cases atRep : stands = rep
    · rw [if_pos atRep]
      refine iff_of_true ?_ atRep.symm
      rw [List.append_assoc, List.mem_append, List.mem_append, List.mem_singleton]
      exact Or.inr joins.symm
    · rw [if_neg atRep]
      refine iff_of_false ?_ (Ne.symm atRep)
      split
      · exact List.not_mem_nil
      · next apart' =>
        intro listed
        obtain rfl | inherited := joins
        · exact valid.not_hasNode_sub listed live
        · have one := (valid.members other stands).mp listed
          have two := (valid.members other node).mp inherited
          exact apart' (Option.some.inj (one.symm.trans two))
  · rw [if_neg joins, ← valid.members]
    rw [not_or] at joins
    by_cases atRep : stands = rep
    · rw [if_pos atRep, atRep, List.append_assoc, List.mem_append, List.mem_append, List.mem_singleton]
      exact or_iff_left fun new => new.elim joins.2 joins.1
    · rw [if_neg atRep]
      split
      · next same =>
        rw [same]
        exact iff_of_false List.not_mem_nil joins.2
      · rfl

private theorem Valid.distinct_retire (valid : graph.Valid) {node rep : Node} (live : graph.hasNode node)
    (apart : node ≠ rep) (stands : Node) : ((graph.retire node rep).subsOf stands).Nodup := by
  rw [subsOf_retire]
  split
  · rw [List.nodup_append, List.nodup_append]
    refine ⟨⟨valid.distinct rep, valid.distinct node, ?_⟩, List.nodup_singleton node, ?_⟩
    · rintro other one _ two rfl
      have first := (valid.members other rep).mp one
      have second := (valid.members other node).mp two
      exact apart (Option.some.inj (second.symm.trans first))
    · rintro other listed _ own rfl
      rw [List.mem_singleton.mp own, List.mem_append] at listed
      exact listed.elim (valid.not_hasNode_sub · live) (valid.not_hasNode_sub · live)
  · split
    · exact List.nodup_nil
    · exact valid.distinct stands

/-- A node without edges can give way to another live node. -/
theorem Valid.retire (valid : graph.Valid) {node rep : Node} (live : graph.hasNode node)
    (target : graph.hasNode rep) (apart : node ≠ rep)
    (bare : ∀ id kept, graph.edge? id = some kept → kept.src ≠ node ∧ kept.dst ≠ node) :
    (graph.retire node rep).Valid where
  slotted := valid.slotted
  outgoing other vertex found := by
    rw [getElem?_retire_vertices, Option.ite_none_left_eq_some] at found
    obtain ⟨old, before, rfl⟩ := Option.map_eq_some_iff.mp found.2
    exact valid.outgoing other old before
  incoming other vertex found := by
    rw [getElem?_retire_vertices, Option.ite_none_left_eq_some] at found
    obtain ⟨old, before, rfl⟩ := Option.map_eq_some_iff.mp found.2
    exact valid.incoming other old before
  ends id kept found := by
    have stay := bare id kept found
    have ends := valid.ends id kept found
    exact ⟨(hasNode_retire ..).mpr ⟨ends.1, stay.1⟩, (hasNode_retire ..).mpr ⟨ends.2, stay.2⟩⟩
  loopless := valid.loopless
  counted := valid.counted
  unmerged other there := by
    obtain ⟨before, stays⟩ := (hasNode_retire ..).mp there
    rw [getElem?_retire_merged, if_neg]
    · exact valid.unmerged other before
    · rintro (same | listed)
      · exact stays same
      · exact valid.not_hasNode_sub listed before
  linked other next found := by
    rw [hasNode_retire]
    rw [getElem?_retire_merged] at found
    split at found
    · cases found
      exact ⟨target, apart.symm⟩
    · next old =>
      refine ⟨valid.linked other next found, ?_⟩
      rintro rfl
      exact old (Or.inr ((valid.members other next).mpr found))
  members := valid.members_retire live apart
  distinct := valid.distinct_retire live apart

/-- Who stood for the retired node is now stood for by its successor. -/
theorem Valid.repOf_retire (valid : graph.Valid) {node rep : Node} (live : graph.hasNode node)
    (other : Node) (after : (graph.retire node rep).Valid) :
    (graph.retire node rep).repOf other =
      if graph.repOf other = node then rep else graph.repOf other := by
  rw [after.repOf_eq, valid.repOf_eq, getElem?_retire_merged]
  by_cases joins : other = node ∨ other ∈ graph.subsOf node
  · rw [if_pos joins, Option.getD_some, if_pos]
    obtain rfl | listed := joins
    · rw [valid.unmerged other live, Option.getD_none]
    · rw [(valid.members other node).mp listed, Option.getD_some]
  · rw [if_neg joins, if_neg]
    rw [not_or, valid.members] at joins
    cases found : graph.merged[other]? with
    | none => exact joins.1
    | some next =>
      rintro rfl
      exact joins.2 found

/-! ### Putting the edges back -/

private theorem Valid.kept_addEdge (valid : graph.Valid) {edge : Edge} (src : graph.hasNode edge.src)
    (dst : graph.hasNode edge.dst) : Kept graph (graph.addEdge edge).1 where
  valid := valid.addEdge edge
  merged := (graph.kept_addEdge edge).1
  kinds := (graph.kept_addEdge edge).2
  nodes node := by
    rw [hasNode_addEdge, represented, valid.repOf_live src, valid.repOf_live dst]
    refine or_iff_left_of_imp ?_
    rintro (rfl | rfl)
    · exact src
    · exact dst
  sources := graph.isSource_addEdge edge

/-- An edge between the successors of its ends. -/
private def redirected (node rep : Node) (edge : Edge) : Edge :=
  ⟨if edge.src = node then rep else edge.src, if edge.dst = node then rep else edge.dst, edge.label⟩

private theorem Valid.reattach (valid : graph.Valid) {node rep : Node} (target : graph.hasNode rep)
    (edge : GraphEdge) (src : edge.src ≠ node → graph.hasNode edge.src)
    (dst : edge.dst ≠ node → graph.hasNode edge.dst) :
    Kept graph (graph.reattach node rep edge) ∧
      ∀ other, (graph.reattach node rep edge).hasEdge other ↔
        graph.hasEdge other ∨ (redirected node rep edge.toEdge = other ∧ ¬ graph.IsDirectLoop other) := by
  have ends : graph.hasNode (redirected node rep edge.toEdge).src ∧
      graph.hasNode (redirected node rep edge.toEdge).dst := by
    rw [redirected]
    dsimp only
    constructor
    · split
      · exact target
      · next stays => exact src stays
    · split
      · exact target
      · next stays => exact dst stays
  have added := valid.kept_addEdge ends.1 ends.2
  have edges : ∀ other, (graph.addEdge (redirected node rep edge.toEdge)).1.hasEdge other ↔
      graph.hasEdge other ∨ (redirected node rep edge.toEdge = other ∧ ¬ graph.IsDirectLoop other) := by
    intro other
    rw [hasEdge_addEdge, represented, valid.repOf_live ends.1, valid.repOf_live ends.2]
    exact or_congr Iff.rfl (and_congr_left' eq_comm)
  rw [redirected] at added edges
  rw [Multigraph.reattach]
  generalize graph.addEdge ⟨_, _, _⟩ = result at added edges ⊢
  obtain ⟨next, _ | id⟩ := result
  · exact ⟨added, edges⟩
  · exact ⟨{ added with valid := added.valid.setContributing id _ }, edges⟩

private theorem Valid.reattach_all (valid : graph.Valid) {node rep : Node} (target : graph.hasNode rep)
    (moved : List GraphEdge) (ends : ∀ edge ∈ moved, (edge.src ≠ node → graph.hasNode edge.src) ∧
      (edge.dst ≠ node → graph.hasNode edge.dst)) :
    Kept graph (moved.foldl (Multigraph.reattach node rep) graph) ∧
      ∀ other, (moved.foldl (Multigraph.reattach node rep) graph).hasEdge other ↔ graph.hasEdge other ∨
        ∃ edge ∈ moved, redirected node rep edge.toEdge = other ∧ ¬ graph.IsDirectLoop other := by
  induction moved generalizing graph with
  | nil => exact ⟨.refl valid, by simp⟩
  | cons edge moved ih =>
    obtain ⟨first, edges⟩ := valid.reattach target edge (ends edge List.mem_cons_self).1
      (ends edge List.mem_cons_self).2
    obtain ⟨rest, later⟩ := ih first.valid ((first.nodes rep).mpr target) fun other listed =>
      (ends other (List.mem_cons_of_mem edge listed)).imp (fun live apart => (first.nodes _).mpr (live apart))
        fun live apart => (first.nodes _).mpr (live apart)
    refine ⟨first.trans rest, fun other => ?_⟩
    rw [List.foldl_cons, later, edges, first.isDirectLoop_iff, List.exists_mem_cons_iff, or_assoc]

/-! ### Merging -/

private theorem Valid.mem_touching (valid : graph.Valid) {node : Node} {vertex : Vertex}
    (found : graph.vertices[node]? = some vertex) (id : EdgeId) :
    id ∈ (Std.TreeSet.ofList (vertex.incoming.toList ++ vertex.outgoing.toList)).toList ↔
      ∃ kept, graph.edge? id = some kept ∧ (kept.src = node ∨ kept.dst = node) := by
  rw [Std.TreeSet.mem_toList, Std.TreeSet.mem_ofList, List.contains_iff_mem, List.mem_append,
    Incidence.mem_toList, Incidence.mem_toList]
  simp only [(valid.incoming node vertex found).2, (valid.outgoing node vertex found).2]
  constructor
  · rintro (⟨kind, kept, there, same, -⟩ | ⟨kind, kept, there, same, -⟩)
    · exact ⟨kept, there, Or.inr same⟩
    · exact ⟨kept, there, Or.inl same⟩
  · rintro ⟨kept, there, same | same⟩
    · exact Or.inr ⟨_, kept, there, same, rfl⟩
    · exact Or.inl ⟨_, kept, there, same, rfl⟩

/-- With the edges at a node taken out, those elsewhere are left. -/
private theorem Valid.hasEdge_detach (valid : graph.Valid) {node : Node} {ids : List EdgeId}
    (touching : ∀ id, id ∈ ids ↔
      ∃ kept, graph.edge? id = some kept ∧ (kept.src = node ∨ kept.dst = node)) (edge : Edge) :
    (graph.detach ids).1.hasEdge edge ↔ graph.hasEdge edge ∧ edge.src ≠ node ∧ edge.dst ≠ node := by
  rw [(valid.kept_detach ids).valid.hasEdge_iff, valid.hasEdge_iff]
  simp only [edge?_detach, Option.ite_none_left_eq_some, touching]
  constructor
  · rintro ⟨id, old, ⟨elsewhere, there⟩, rfl⟩
    refine ⟨⟨id, old, there, rfl⟩, ?_⟩
    rw [← not_or]
    exact fun here => elsewhere ⟨old, there, here⟩
  · rintro ⟨⟨id, old, there, rfl⟩, stay⟩
    refine ⟨id, old, ⟨?_, there⟩, rfl⟩
    rintro ⟨same, there', here⟩
    cases there.symm.trans there'
    exact here.elim stay.1 stay.2

/-- What has become of a graph in which one node gave way to another, and the edges at it moved. -/
private structure Moved (node rep : Node) (before after : Multigraph) : Prop where
  valid : after.Valid
  kinds : after.directKinds = before.directKinds
  repOf : ∀ other, after.repOf other = if before.repOf other = node then rep else before.repOf other
  nodes : ∀ other, after.hasNode other ↔ before.hasNode other ∧ other ≠ node
  edges : ∀ edge, after.hasEdge edge ↔
    (before.hasEdge edge ∧ edge.src ≠ node ∧ edge.dst ≠ node) ∨
      ∃ old, before.hasEdge old ∧ (old.src = node ∨ old.dst = node) ∧
        redirected node rep old = edge ∧ ¬ after.IsDirectLoop edge
  sources : ∀ other, after.isSource other ↔
    (other ≠ node ∧ before.isSource other) ∨ (other = rep ∧ before.isSource node)

private theorem Valid.moved (valid : graph.Valid) {node rep : Node} (live : graph.hasNode node)
    (target : graph.hasNode rep) (apart : node ≠ rep) (ids : List EdgeId)
    (touching : ∀ id, id ∈ ids ↔
      ∃ kept, graph.edge? id = some kept ∧ (kept.src = node ∨ kept.dst = node)) :
    Moved node rep graph ((graph.detach ids).2.foldl (Multigraph.reattach node rep)
      ((graph.detach ids).1.retire node rep)) := by
  have taken := valid.kept_detach ids
  have target' := (taken.nodes rep).mpr target
  have live' := (taken.nodes node).mpr live
  have untouched := valid.hasEdge_detach touching
  have retired := taken.valid.retire live' target' apart fun id kept there =>
    ((untouched kept.toEdge).mp ((taken.valid.hasEdge_iff _).mpr ⟨id, kept, there, rfl⟩)).2
  have rest : ∀ other, ((graph.detach ids).1.retire node rep).hasNode other ↔
      graph.hasNode other ∧ other ≠ node := by
    intro other
    rw [hasNode_retire, taken.nodes]
  obtain ⟨kept, edges⟩ := retired.reattach_all ((rest rep).mpr ⟨target, apart.symm⟩) (graph.detach ids).2
    fun edge listed => by
      obtain ⟨id, -, there⟩ := (graph.mem_detach ids edge).mp listed
      have ends := valid.ends id edge there
      exact ⟨fun differs => (rest _).mpr ⟨ends.1, differs⟩, fun differs => (rest _).mpr ⟨ends.2, differs⟩⟩
  exact
    { valid := kept.valid
      kinds := kept.kinds.trans taken.kinds
      repOf := fun other => by
        rw [kept.repOf, taken.valid.repOf_retire live' other retired, taken.repOf]
      nodes := fun other => (kept.nodes other).trans (rest other)
      edges := fun edge => by
        refine (edges edge).trans (or_congr (untouched edge) ?_)
        rw [kept.isDirectLoop_iff]
        constructor
        · rintro ⟨moved, listed, same, straight⟩
          obtain ⟨id, inside, slot⟩ := (graph.mem_detach ids moved).mp listed
          obtain ⟨other, slot', here⟩ := (touching id).mp inside
          cases slot.symm.trans slot'
          exact ⟨moved.toEdge, (valid.hasEdge_iff _).mpr ⟨id, moved, slot, rfl⟩, here, same, straight⟩
        · rintro ⟨old, there, here, same, straight⟩
          obtain ⟨id, moved, slot, rfl⟩ := (valid.hasEdge_iff old).mp there
          exact ⟨moved, (graph.mem_detach ids moved).mpr ⟨id, (touching id).mpr ⟨moved, slot, here⟩, slot⟩,
            same, straight⟩
      sources := fun other => by
        rw [kept.sources, isSource_retire _ target' apart, taken.sources, taken.sources] }

/-- A graph in which one node gave way to another is the image under the representatives. -/
private theorem Moved.quotient {before after : Multigraph} {node rep : Node}
    (moved : Moved node rep before after) (valid : before.Valid) (live : before.hasNode node)
    (target : before.hasNode rep) (apart : node ≠ rep) : Quotient before after := by
  have onLive : ∀ other, before.hasNode other → after.repOf other = if other = node then rep else other := by
    intro other there
    rw [moved.repOf, valid.repOf_live there]
  have represented_eq : ∀ edge, before.hasEdge edge → after.represented edge = redirected node rep edge := by
    intro edge there
    have ends := valid.hasNode_of_hasEdge there
    rw [represented, onLive _ ends.1, onLive _ ends.2, redirected]
  exact
    { valid := moved.valid
      kinds := moved.kinds
      absorbs := fun other => by rw [moved.repOf, moved.repOf, valid.repOf_repOf]
      nodes := fun other => by
        rw [moved.nodes]
        constructor
        · rintro ⟨there, differs⟩
          exact ⟨other, there, by rw [onLive other there, if_neg differs]⟩
        · rintro ⟨old, there, rfl⟩
          rw [onLive old there]
          split
          · exact ⟨target, apart.symm⟩
          · next differs => exact ⟨there, differs⟩
      edges := fun edge => by
        constructor
        · intro there
          have straight := moved.valid.not_isDirectLoop there
          obtain ⟨old, stay⟩ | ⟨old, stood, -, rfl, -⟩ := (moved.edges edge).mp there
          · refine ⟨edge, old, ?_, straight⟩
            rw [represented_eq edge old, redirected, if_neg stay.1, if_neg stay.2]
          · exact ⟨old, stood, represented_eq old stood, straight⟩
        · rintro ⟨old, stood, rfl, straight⟩
          rw [represented_eq old stood] at straight ⊢
          rw [moved.edges]
          by_cases here : old.src = node ∨ old.dst = node
          · exact .inr ⟨old, stood, here, rfl, straight⟩
          · rw [not_or] at here
            rw [redirected, if_neg here.1, if_neg here.2]
            exact .inl ⟨stood, here⟩
      sources := fun other => by
        rw [moved.sources]
        constructor
        · rintro (⟨differs, marked⟩ | ⟨rfl, marked⟩)
          · exact ⟨other, marked, by rw [onLive other (hasNode_of_isSource marked), if_neg differs]⟩
          · exact ⟨node, marked, by rw [onLive node live, if_pos rfl]⟩
        · rintro ⟨old, marked, rfl⟩
          rw [onLive old (hasNode_of_isSource marked)]
          split
          · next same => exact .inr ⟨rfl, same ▸ marked⟩
          · next differs => exact .inl ⟨differs, marked⟩ }

theorem Valid.quotient_merge (valid : graph.Valid) {node target : Node} (live : graph.hasNode node)
    (apart : node ≠ graph.repOf target) :
    Quotient (graph.addNode target).1 (graph.merge node target).1 ∧
      ∀ other, (graph.merge node target).1.repOf other =
        if graph.repOf other = node then graph.repOf target else graph.repOf other := by
  obtain ⟨vertex, found⟩ := (graph.hasNode_iff node).mp live
  have here : (graph.addNode target).1.vertices[node]? = some vertex := by
    rw [getElem?_addNode, if_neg (fun both => apart both.1.symm), found]
  have result : (graph.merge node target).1 =
      let taken := (graph.addNode target).1.detach
        (Std.TreeSet.ofList (vertex.incoming.toList ++ vertex.outgoing.toList)).toList
      taken.2.foldl (Multigraph.reattach node (graph.repOf target))
        (taken.1.retire node (graph.repOf target)) := by
    simp only [merge, vertex?, found, if_neg apart]
    rfl
  rw [result]
  have first := valid.addNode target
  have live' := (graph.hasNode_addNode target node).mpr (Or.inl live)
  have target' := (graph.hasNode_addNode target (graph.repOf target)).mpr (Or.inr rfl)
  have moved := first.moved live' target' apart _ (first.mem_touching here)
  exact ⟨moved.quotient first live' target' apart, moved.repOf⟩

/-- Nothing happens to a node that is not live or that stands for the target already. -/
theorem merge_of_same {node target : Node} (idle : graph.hasNode node = false ∨ node = graph.repOf target) :
    (graph.merge node target).1 = graph := by
  rw [merge]
  cases found : graph.vertex? node with
  | none => rfl
  | some vertex =>
    have live := (graph.hasNode_iff node).mpr ⟨vertex, found⟩
    dsimp only
    rw [if_pos]
    refine idle.resolve_left fun absent => ?_
    rw [live] at absent
    cases absent

/-- Nothing new is made of a node that is live already. -/
theorem Valid.quotient_addNode (valid : graph.Valid) {node : Node} (live : graph.hasNode (graph.repOf node)) :
    Quotient graph (graph.addNode node).1 := by
  have same := Quotient.refl (valid.addNode node)
  have nodes : ∀ other, (graph.addNode node).1.hasNode other ↔ graph.hasNode other := by
    intro other
    rw [hasNode_addNode, or_iff_left_of_imp]
    rintro rfl
    exact live
  exact
    { valid := same.valid, kinds := rfl, absorbs := valid.repOf_repOf
      nodes := fun other =>
        (same.nodes other).trans (exists_congr fun old => and_congr_left' (nodes old))
      edges := same.edges
      sources := fun other => (same.sources other).trans (exists_congr fun old => by
        rw [isSource_addNode]) }

/-- Merging a live node into one that a live node stands for. -/
theorem Valid.quotient_merge_live (valid : graph.Valid) {node target : Node}
    (live : graph.hasNode node) (there : graph.hasNode (graph.repOf target)) :
    Quotient graph (graph.merge node target).1 ∧
      ∀ other, (graph.merge node target).1.repOf other =
        if graph.repOf other = node then graph.repOf target else graph.repOf other := by
  by_cases same : node = graph.repOf target
  · rw [merge_of_same (Or.inr same)]
    refine ⟨Quotient.refl valid, fun other => ?_⟩
    split
    · next moves => rw [moves, same]
    · rfl
  · obtain ⟨quotient, repOf⟩ := valid.quotient_merge live same
    exact ⟨(valid.quotient_addNode there).trans quotient, repOf⟩

/-- A merge succeeds on a live node that the target does not stand for. -/
theorem merge_flag (graph : Multigraph) (node target : Node) :
    (graph.merge node target).2 = true ↔ graph.hasNode node ∧ node ≠ graph.repOf target := by
  rw [merge, hasNode_iff, ← vertex?]
  cases found : graph.vertex? node with
  | none => simp
  | some vertex =>
    dsimp only
    split <;> simp [*]

/-- The nodes after a merge of one live node into another. -/
theorem Valid.hasNode_merge (valid : graph.Valid) {node target : Node} (live : graph.hasNode node)
    (there : graph.hasNode (graph.repOf target)) (apart : node ≠ graph.repOf target) (other : Node) :
    (graph.merge node target).1.hasNode other ↔ graph.hasNode other ∧ other ≠ node := by
  obtain ⟨quotient, repOf⟩ := valid.quotient_merge_live live there
  rw [quotient.nodes]
  constructor
  · rintro ⟨old, stood, rfl⟩
    rw [repOf, valid.repOf_live stood]
    split
    · exact ⟨there, apart.symm⟩
    · next differs => exact ⟨stood, differs⟩
  · rintro ⟨stood, differs⟩
    exact ⟨other, stood, by rw [repOf, valid.repOf_live stood, if_neg differs]⟩

/-- A merge into a live node takes one node away, if it succeeds, and else none. -/
theorem Valid.nodeCount_merge (valid : graph.Valid) (node : Node) {target : Node}
    (there : graph.hasNode (graph.repOf target)) :
    (graph.merge node target).1.nodeCount + (if (graph.merge node target).2 then 1 else 0) =
      graph.nodeCount := by
  split
  · next joined =>
    obtain ⟨live, apart⟩ := (graph.merge_flag node target).mp joined
    have left : (graph.merge node target).1.nodes.Perm (graph.nodes.erase node) := by
      refine (List.perm_ext_iff_of_nodup (nodup_nodes _) (graph.nodup_nodes.erase node)).mpr fun other => ?_
      rw [mem_nodes, valid.hasNode_merge live there apart, graph.nodup_nodes.mem_erase_iff, mem_nodes, and_comm]
    have listed := (graph.mem_nodes node).mpr live
    rw [← length_nodes, ← length_nodes, left.length_eq, List.length_erase_add_one listed]
  · next failed =>
    rw [merge_of_same, Nat.add_zero]
    rw [merge_flag, not_and_or, not_not, Bool.not_eq_true] at failed
    exact failed

end GrammarReach.Multigraph
