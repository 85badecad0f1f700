import GrammarReach.Proofs.Simplify.Alike

/-!
Merging targets on a graph and on what pruning leaves of it goes in step. An edge that is gone never sat
in a group of two targets and more, since the node of such a group becomes an anchor for its label.
-/

namespace GrammarReach.FanOut

open Multigraph (Quotient)

variable {profile : BracketProfile} {start start' : Multigraph} {last one two next : FanOut}

/-- A later stage keeps the anchors and what stands together. -/
structure Precedes (fan last : FanOut) : Prop where
  absorbs : ∀ node, last.graph.repOf (fan.graph.repOf node) = last.graph.repOf node
  anchors : ∀ node label, label ∈ fan.anchors.getD node ∅ → label ∈ last.anchors.getD node ∅

theorem Precedes.trans (first : Precedes one two) (second : Precedes two last) : Precedes one last where
  absorbs node := by rw [← second.absorbs, first.absorbs, second.absorbs]
  anchors node label found := second.anchors node label (first.anchors node label found)

private theorem Stands.precedes (stands : Stands profile start one)
    (stepped : FanOut.step profile one = some next) :
    Precedes one next := by
  obtain ⟨queued, queue, listed, ⟨found, rfl⟩ | ⟨vertex, after, found, merged, rfl⟩⟩ := step_cases stepped
  · exact ⟨stands.quotient.valid.repOf_repOf, fun _ _ => id⟩
  have tends := stands.tends listed found
  have anchors : ∀ node label, label ∈ one.anchors.getD node ∅ → label ∈ after.1.anchors.getD node ∅ := by
    intro node label held
    rw [← merged, foldl_mergeGroup]
    exact (mem_anchors_mergeGroups _ _ _ _ _).mpr (.inl held)
  rw [merged] at tends
  split <;> exact ⟨tends.joins.quotient.absorbs, anchors⟩

/-- What a run ends with keeps all that it starts with. -/
theorem Stands.precedes_run (valid : start.Valid) (stands : Stands profile start one) (bound : Nat) :
    Precedes one (Loop.run (FanOut.step profile) bound one) := by
  refine (Loop.run_induction (motive := fun fan => Stands profile start fan ∧ Precedes one fan)
    (fun fan next both stepped => ?_) bound one ⟨stands, ?_⟩).2
  · exact ⟨(both.1.step valid stepped).1, both.2.trans (both.1.precedes stepped)⟩
  · exact ⟨stands.quotient.valid.repOf_repOf, fun _ _ => id⟩

/-- Two stages in step. The second may lack edges, but not at what will be an anchor for their label when
the first run has come to its end. -/
structure Shadows (last one two : FanOut) : Prop where
  alike : Alike one two
  fewer : ∀ edge, two.graph.hasEdge edge → one.graph.hasEdge edge
  kept : ∀ edge, one.graph.hasEdge edge → last.Found (last.graph.repOf edge.src) edge.label →
    two.graph.hasEdge edge

/-- Merges that go the same keep two stages in step. -/
private theorem Shadows.merged {after after' : FanOut} (shadows : Shadows last one two)
    (alike : Alike after after')
    (first : Quotient one.graph after.graph) (second : Quotient two.graph after'.graph)
    (precedes : Precedes after last) : Shadows last after after' := by
  have loop : ∀ edge, after'.graph.IsDirectLoop edge ↔ after.graph.IsDirectLoop edge := fun edge => by
    rw [Multigraph.IsDirectLoop, Multigraph.IsDirectLoop, alike.graph.isDirect]
  refine ⟨alike, fun edge there => ?_, fun edge there found => ?_⟩
  · obtain ⟨old, stood, rfl, straight⟩ := (second.edges _).mp there
    rw [loop] at straight
    exact (first.edges _).mpr ⟨old, shadows.fewer old stood, (alike.graph.represented old).symm, straight⟩
  · obtain ⟨old, stood, rfl, straight⟩ := (first.edges _).mp there
    rw [← loop] at straight
    refine (second.edges _).mpr ⟨old, shadows.kept old stood ?_, alike.graph.represented old, straight⟩
    rw [Multigraph.represented] at found
    rwa [← precedes.absorbs old.src]

/-- A node under examination has the same groups of two targets and more in both stages. -/
private theorem Shadows.wide_eq (shadows : Shadows last one two) {node : Node} {vertex vertex' : Vertex}
    (found : one.graph.vertex? node = some vertex) (found' : two.graph.vertex? node = some vertex')
    (anchored : ∀ group ∈ wide (targetGroups profile one.graph vertex).toList,
      last.Found (last.graph.repOf node) group.1) :
    wide (targetGroups profile two.graph vertex').toList =
      wide (targetGroups profile one.graph vertex).toList := by
  have first : ∀ label target, target ∈ (targetGroups profile one.graph vertex).getD label ∅ ↔ _ :=
    mem_targetGroups shadows.alike.graph.first found
  have second : ∀ label target, target ∈ (targetGroups profile two.graph vertex').getD label ∅ ↔ _ :=
    mem_targetGroups shadows.alike.graph.second found'
  refine wide_congr (fun label target held => ?_) fun label large target held => ?_
  · obtain ⟨collapses, there⟩ := (second label target).mp held
    exact (first label target).mpr ⟨collapses, shadows.fewer _ there⟩
  · obtain ⟨collapses, there⟩ := (first label target).mp held
    exact (second label target).mpr ⟨collapses, shadows.kept _ there (anchored _ (mem_wide large))⟩

/-- Examining a node that is live goes the same in both stages. -/
private theorem Shadows.examine (shadows : Shadows last one two) (stands : Stands profile start one)
    (stands' : Stands profile start' two) {queued : Node} {queue queue' : Queue Node}
    (listed : one.queue.toList = queued :: queue.toList) (listed' : two.queue.toList = queued :: queue'.toList)
    {vertex vertex' : Vertex} (found : one.graph.vertex? (one.graph.repOf queued) = some vertex)
    (found' : two.graph.vertex? (one.graph.repOf queued) = some vertex') {after after' : FanOut × Bool}
    (merged : (targetGroups profile one.graph vertex).toList.foldl (mergeGroup (one.graph.repOf queued))
      ({ one with queue }, false) = after)
    (merged' : (targetGroups profile two.graph vertex').toList.foldl (mergeGroup (one.graph.repOf queued))
      ({ two with queue := queue' }, false) = after') (precedes : Precedes after.1 last) :
    Shadows last after.1 after'.1 ∧ after'.2 = after.2 := by
  have tends := stands.tends listed found
  have tends' := stands'.tends listed' (shadows.alike.graph.repOf queued ▸ found')
  rw [shadows.alike.graph.repOf, merged'] at tends'
  rw [merged] at tends
  rw [foldl_mergeGroup] at merged merged'
  -- Each group of two targets and more makes the node an anchor, now and at the end.
  have anchored : ∀ group ∈ wide (targetGroups profile one.graph vertex).toList,
      last.Found (last.graph.repOf (one.graph.repOf queued)) group.1 := by
    intro group inside
    refine ⟨_, precedes.anchors _ _ ?_, rfl⟩
    rw [← merged]
    exact (mem_anchors_mergeGroups _ _ _ _ _).mpr (.inr ⟨rfl, group, inside, rfl⟩)
  rw [shadows.wide_eq found found' anchored] at merged'
  have rest : Alike ({ one with queue }, false).1 ({ two with queue := queue' }, false).1 := by
    refine ⟨shadows.alike.graph, shadows.alike.anchors, ?_⟩
    have same := shadows.alike.queue
    rw [listed, listed'] at same
    exact (List.cons.inj same).2
  obtain ⟨alike, flags⟩ := rest.mergeGroups (one.graph.repOf queued)
    (wide (targetGroups profile one.graph vertex).toList) rfl
  rw [merged, merged'] at alike flags
  exact ⟨shadows.merged alike tends.joins.quotient tends'.joins.quotient precedes, flags⟩

/-- Each examination is matched by one that leaves the two stages in step. -/
theorem Shadows.step (shadows : Shadows last one two) (stands : Stands profile start one)
    (stands' : Stands profile start' two) (stepped : FanOut.step profile one = some next)
    (precedes : Precedes next last) :
    ∃ next', FanOut.step profile two = some next' ∧ Shadows last next next' := by
  obtain ⟨queued, queue, listed, found⟩ := step_cases stepped
  have alike := shadows.alike
  cases stepped' : FanOut.step profile two with
  | none =>
    have empty := toList_of_step_eq_none stepped'
    rw [alike.queue, listed] at empty
    cases empty
  | some next' =>
    obtain ⟨queued', queue', listed', found'⟩ := step_cases stepped'
    obtain ⟨rfl, queues⟩ := List.cons.inj (listed'.symm.trans (alike.queue.trans listed))
    rw [alike.graph.repOf] at found'
    have live := alike.graph.nodes (one.graph.repOf queued')
    rw [Bool.eq_iff_iff, Multigraph.hasNode_iff, Multigraph.hasNode_iff] at live
    refine ⟨next', rfl, ?_⟩
    obtain ⟨absent, rfl⟩ | ⟨vertex, after, there, merged, rfl⟩ := found
    · obtain ⟨-, rfl⟩ | ⟨vertex', after', there', -⟩ := found'
      · exact ⟨⟨alike.graph, alike.anchors, queues⟩, shadows.fewer, shadows.kept⟩
      · obtain ⟨vertex, there⟩ := live.mp ⟨vertex', there'⟩
        cases absent.symm.trans there
    · obtain ⟨absent', -⟩ | ⟨vertex', after', there', merged', rfl⟩ := found'
      · obtain ⟨vertex', there'⟩ := live.mpr ⟨vertex, there⟩
        cases absent'.symm.trans there'
      · have earlier : Precedes after.1 last := by
          split at precedes <;> exact ⟨precedes.absorbs, precedes.anchors⟩
        obtain ⟨shadows, flags⟩ :=
          shadows.examine stands stands' listed listed' there there' merged merged' earlier
        rw [flags]
        split
        · refine ⟨⟨shadows.alike.graph, shadows.alike.anchors, ?_⟩, shadows.fewer, shadows.kept⟩
          simp only [Queue.toList_push, shadows.alike.queue, shadows.alike.graph.repOf]
        · exact shadows

/-- Two runs from stages in step end in step. -/
theorem Shadows.run (valid : start.Valid) (valid' : start'.Valid) (bound : Nat) :
    ∀ {one two : FanOut}, Stands profile start one → Stands profile start' two →
      Shadows (Loop.run (FanOut.step profile) bound one) one two →
      FanOut.step profile (Loop.run (FanOut.step profile) bound one) = none →
      ∃ steps, Shadows (Loop.run (FanOut.step profile) bound one)
          (Loop.run (FanOut.step profile) bound one) (Loop.run (FanOut.step profile) steps two) ∧
        FanOut.step profile (Loop.run (FanOut.step profile) steps two) = none := by
  have ended : ∀ {one two : FanOut}, Shadows one one two → FanOut.step profile one = none →
      ∃ steps, Shadows one one (Loop.run (FanOut.step profile) steps two) ∧
        FanOut.step profile (Loop.run (FanOut.step profile) steps two) = none :=
    fun shadows halted =>
      ⟨0, shadows, step_eq_none (shadows.alike.queue.trans (toList_of_step_eq_none halted))⟩
  induction bound with
  | zero => exact fun _ _ => ended
  | succ bound ih =>
    intro one two stands stands' shadows halted
    cases stepped : FanOut.step profile one with
    | none =>
      rw [Loop.run_of_step_eq_none stepped] at shadows ⊢
      exact ended shadows stepped
    | some next =>
      rw [Loop.run_of_step_eq_some stepped] at shadows halted ⊢
      have later := (stands.step valid stepped).1
      obtain ⟨next', stepped', shadows⟩ :=
        shadows.step stands stands' stepped (later.precedes_run valid bound)
      obtain ⟨steps, shadows, halted⟩ := ih later (stands'.step valid' stepped').1 shadows halted
      rw [← Loop.run_of_step_eq_some stepped'] at shadows halted
      exact ⟨steps + 1, shadows, halted⟩

end GrammarReach.FanOut
