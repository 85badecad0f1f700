import GrammarReach.Proofs.Analysis.Alias
import GrammarReach.Proofs.Simplify.Contraction

/-!
What merging cycles and folding chains keep of the aliases.

No alias arises: an alias of the simplified graph is lifted edge by edge, and direct edges make up for
what the merges joined. But an assignment within what became one node vanishes, and with it the aliases
that need this assignment between two memory aliases. So an alias can get lost where a dereference leads
into a cycle of assignments, and only there.
-/

namespace GrammarReach.Alias

open Multigraph
open Relation (ReflTransGen TransGen)

variable {graph before middle after : Multigraph} {src between dst : Node}

theorem assigns_of_leads (leads : graph.Leads src dst) : ReflTransGen (Assigns graph) src dst :=
  ReflTransGen.mono (fun _ _ straight => .inl straight) _ _ leads

/-- Nodes that direct edges lead to from the two ends of an alias are aliases. -/
theorem Aliases.spread {start stop : Node} (aliases : Aliases graph start stop)
    (back : graph.Leads start src) (forth : graph.Leads stop dst) : Aliases graph src dst :=
  .back_all (assigns_of_leads back) (aliases.forth_all (assigns_of_leads forth))

/-- An alias moves on along direct edges, the last of which is the one before a memory alias. -/
theorem Aliases.forth_leads {last base other : Node} (aliases : Aliases graph src between)
    (path : TransGen graph.Straight between last) (opens : Derefs graph base last)
    (inner : Aliases graph base other) (closes : Derefs graph other dst) : Aliases graph src dst := by
  obtain ⟨next, leads, straight⟩ := TransGen.tail'_iff.mp path
  exact (aliases.forth_all (assigns_of_leads leads)).forthDeref straight opens inner closes

theorem Derefs.behind (valid : before.Valid) (contraction : Contraction before after) {base node : Node}
    (derefs : Derefs after base node) : ∃ start stop, Derefs before start stop ∧
      before.hasNode start ∧ before.hasNode stop ∧ after.repOf start = base ∧ after.repOf stop = node ∧
      before.Leads stop node := by
  obtain ⟨index, there⟩ := derefs
  obtain ⟨start, stop, stood, atStart, atStop, leads⟩ := contraction.behind there
  obtain ⟨startLive, stopLive⟩ := valid.hasNode_of_hasEdge stood
  exact ⟨start, stop, ⟨index, stood⟩, startLive, stopLive, atStart, atStop, leads⟩

/-- An alias of the merged graph is one of the graph itself, between any nodes that its ends stand
for. -/
theorem Aliases.lift (valid : before.Valid) (contraction : Contraction before after)
    (aliases : Aliases after src dst) {first second : Node} (one : before.hasNode first)
    (two : before.hasNode second) (atFirst : after.repOf first = src)
    (atSecond : after.repOf second = dst) : Aliases before first second := by
  induction aliases generalizing first second with
  | refl live =>
    have root := Aliases.refl (contraction.hasNode_of_hasNode valid live)
    exact root.spread (contraction.onward .refl one atFirst) (contraction.onward .refl two atSecond)
  | deref opens _ closes inner =>
    obtain ⟨base, start, opened, baseLive, -, atBase, -, back⟩ := opens.behind valid contraction
    obtain ⟨other, stop, closed, otherLive, -, atOther, -, forth⟩ := closes.behind valid contraction
    have aliases := Aliases.deref opened (inner baseLive otherLive atBase atOther) closed
    exact aliases.spread (contraction.onward back one atFirst) (contraction.onward forth two atSecond)
  | field opens _ closes inner =>
    obtain ⟨base, start, opened, atBase, -, back⟩ := contraction.behind opens
    obtain ⟨other, stop, closed, atOther, -, forth⟩ := contraction.behind closes
    have aliases := Aliases.field opened (inner (valid.hasNode_of_hasEdge opened).1
      (valid.hasNode_of_hasEdge closed).1 atBase atOther) closed
    exact aliases.spread (contraction.onward back one atFirst) (contraction.onward forth two atSecond)
  | forth _ straight outer =>
    obtain ⟨start, stop, edge, atStart, -, forth⟩ := contraction.straight_behind straight
    have aliases := (outer one (valid.hasNode_of_straight edge).1 atFirst atStart).forth edge
    exact aliases.spread .refl (contraction.onward forth two atSecond)
  | forthDeref _ straight opens _ closes outer inner =>
    obtain ⟨start, stop, edge, atStart, -, leads⟩ := contraction.straight_behind straight
    obtain ⟨base, last, opened, baseLive, lastLive, atBase, atLast, -⟩ := opens.behind valid contraction
    obtain ⟨other, target, closed, otherLive, -, atOther, -, forth⟩ := closes.behind valid contraction
    have path : TransGen before.Straight start last :=
      .trans_left (.single edge) (contraction.onward leads lastLive atLast)
    have aliases := (outer one (valid.hasNode_of_straight edge).1 atFirst atStart).forth_leads path opened
      (inner baseLive otherLive atBase atOther) closed
    exact aliases.spread .refl (contraction.onward forth two atSecond)
  | back straight _ outer =>
    obtain ⟨start, stop, edge, atStart, -, back⟩ := contraction.straight_behind straight
    have aliases := (outer (valid.hasNode_of_straight edge).1 two atStart atSecond).back edge
    exact aliases.spread (contraction.onward back one atFirst) .refl
  | backDeref opens _ closes straight _ inner outer =>
    obtain ⟨base, target, opened, baseLive, -, atBase, -, back⟩ := opens.behind valid contraction
    obtain ⟨other, last, closed, otherLive, lastLive, atOther, atLast, -⟩ := closes.behind valid contraction
    obtain ⟨start, stop, edge, atStart, -, leads⟩ := contraction.straight_behind straight
    have path : TransGen before.Straight start last :=
      .trans_left (.single edge) (contraction.onward leads lastLive atLast)
    have aliases := (outer (valid.hasNode_of_straight edge).1 two atStart atSecond).symm.forth_leads path
      closed (inner baseLive otherLive atBase atOther).symm opened
    exact aliases.symm.spread (contraction.onward back one atFirst) .refl

/-- No dereference leads into a cycle of assignments. -/
def CyclesUnloaded (graph : Multigraph) : Prop :=
  ∀ base node, Derefs graph base node → ¬ TransGen graph.Straight node node

/-- An alias stays one between the representatives of its ends, where no assignment vanishes that ends
where a dereference does. -/
theorem Aliases.image (formed : WellFormed before) (quotient : Quotient before after)
    (kept : ∀ src dst base, before.Straight src dst → Derefs before base dst →
      after.repOf src ≠ after.repOf dst)
    (aliases : Aliases before src dst) : Aliases after (after.repOf src) (after.repOf dst) := by
  have derefs : ∀ {base node}, Derefs before base node →
      Derefs after (after.repOf base) (after.repOf node) := by
    rintro base node ⟨index, there⟩
    exact ⟨index, formed.hasEdge_represented quotient there deref_ne_assign⟩
  have fields : ∀ {base node index}, before.hasEdge ⟨base, node, ⟨Alias.field, index⟩⟩ →
      after.hasEdge ⟨after.repOf base, after.repOf node, ⟨Alias.field, index⟩⟩ := fun there =>
    formed.hasEdge_represented quotient there field_ne_assign
  induction aliases with
  | refl live => exact .refl ((quotient.nodes _).mpr ⟨_, live, rfl⟩)
  | deref opens _ closes inner => exact .deref (derefs opens) inner (derefs closes)
  | field opens _ closes inner => exact .field (fields opens) inner (fields closes)
  | @forth src between dst _ straight outer =>
    by_cases same : after.repOf between = after.repOf dst
    · rwa [← same]
    · exact outer.forth (quotient.straight straight same)
  | forthDeref _ straight opens _ closes outer inner =>
    exact outer.forthDeref (quotient.straight straight (kept _ _ _ straight opens)) (derefs opens) inner
      (derefs closes)
  | @back src between dst straight _ outer =>
    by_cases same : after.repOf between = after.repOf src
    · rwa [← same]
    · exact outer.back (quotient.straight straight same)
  | backDeref opens _ closes straight _ inner outer =>
    exact .backDeref (derefs opens) inner (derefs closes)
      (quotient.straight straight (kept _ _ _ straight closes)) outer

/-- What the aliases of a merged graph tell about those of the graph itself. -/
structure Simplified (before after : Multigraph) : Prop where
  quotient : Quotient before after
  sound : ∀ src dst, before.hasNode src → before.hasNode dst →
    Aliases after (after.repOf src) (after.repOf dst) → Aliases before src dst
  complete : CyclesUnloaded before → ∀ src dst, Aliases before src dst →
    Aliases after (after.repOf src) (after.repOf dst)
  unloaded : CyclesUnloaded before → CyclesUnloaded after

theorem simplified_of_contraction (formed : WellFormed before) (contraction : Contraction before after)
    (kept : CyclesUnloaded before → ∀ src dst base, before.Straight src dst → Derefs before base dst →
      after.repOf src ≠ after.repOf dst) : Simplified before after where
  quotient := contraction.quotient
  sound src dst one two aliases := aliases.lift formed.valid contraction one two rfl rfl
  complete free src dst aliases := aliases.image formed contraction.quotient (kept free)
  unloaded free base node derefs cycle := by
    obtain ⟨index, there⟩ := derefs
    obtain ⟨start, stop, stood, -, atStop, leads⟩ := contraction.behind there
    have inward := contraction.inward stop (formed.valid.hasNode_of_hasEdge stood).2
    rw [atStop] at inward
    have around := TransGen.trans_right leads (contraction.leads_behind formed.valid cycle)
    exact free start stop ⟨index, stood⟩ (around.trans_left inward)

theorem simplified_refl (formed : WellFormed graph) : Simplified graph graph :=
  simplified_of_contraction formed (.refl formed.valid) fun free src dst base straight derefs same => by
    obtain ⟨one, two⟩ := formed.valid.hasNode_of_straight straight
    rw [formed.valid.repOf_live one, formed.valid.repOf_live two] at same
    exact free base dst derefs (.single (same ▸ straight))

theorem simplified_mergeCycles (formed : WellFormed graph) : Simplified graph graph.mergeCycles.1 := by
  refine simplified_of_contraction formed formed.valid.contraction_mergeCycles ?_
  intro free src dst base straight derefs same
  obtain ⟨one, two⟩ := formed.valid.hasNode_of_straight straight
  have back := (formed.valid.collapse_mergeCycles.tied dst two).2
  have forth := (formed.valid.collapse_mergeCycles.tied src one).1
  rw [same] at forth
  exact free base dst derefs (.tail' (back.trans forth) straight)

theorem simplified_foldChains (formed : WellFormed graph) : Simplified graph graph.foldChains.1 := by
  have folded := formed.valid.foldChains
  refine simplified_of_contraction formed folded.contraction ?_
  rintro free src dst base straight ⟨index, there⟩ same
  -- A folded node is entered by an assignment only, and the other nodes stay.
  have stays : graph.foldChains.1.repOf dst = dst := by
    refine (folded.entered _ there).resolve_right fun inner => ?_
    exact deref_ne_assign ((formed.direct _).mp inner.1)
  have back := folded.collapse.tied src (formed.valid.hasNode_of_straight straight).1
  rw [same, stays] at back
  exact free base dst ⟨index, there⟩ (.tail' back straight)

theorem Simplified.trans (first : Simplified before middle)
    (second : Simplified middle after) : Simplified before after where
  quotient := first.quotient.trans second.quotient
  sound src dst one two aliases := by
    rw [← second.quotient.absorbs src, ← second.quotient.absorbs dst] at aliases
    refine first.sound src dst one two (second.sound _ _ ?_ ?_ aliases)
    · exact (first.quotient.nodes _).mpr ⟨src, one, rfl⟩
    · exact (first.quotient.nodes _).mpr ⟨dst, two, rfl⟩
  complete free src dst aliases := by
    rw [← second.quotient.absorbs src, ← second.quotient.absorbs dst]
    exact second.complete (first.unloaded free) _ _ (first.complete free _ _ aliases)
  unloaded free := second.unloaded (first.unloaded free)

theorem simplified_simplify (formed : WellFormed graph) {passes : Passes}
    (unpruned : passes.interDyck = false) (profile : BracketProfile) :
    Simplified graph (graph.simplify passes profile).1 := by
  obtain ⟨middle, cycles, chains⟩ := graph.simplify_cases unpruned profile
  have first : Simplified graph middle := by
    obtain rfl | rfl := cycles
    · exact simplified_refl formed
    · exact simplified_mergeCycles formed
  have formed' := formed.of_quotient first.quotient
  obtain same | same := chains
  · rwa [same]
  · rw [same]
    exact first.trans (simplified_foldChains formed')

theorem simplify_analysis (formed : WellFormed graph) {config : Config}
    (unpruned : config.passes.interDyck = false) :
    ∃ after, ((analysis graph).simplify config).1 = analysis after ∧ Simplified graph after := by
  rw [Analysis.simplify]
  split
  · exact ⟨_, rfl, simplified_simplify formed unpruned _⟩
  · exact ⟨graph, rfl, simplified_refl formed⟩

/-- What one dataset, in terms of the simplified graph, tells about the aliases in another, in terms of
the graph itself: it has no others, and unless a dereference leads into a cycle of assignments it has
them all. -/
structure KeepsAliases (graph simplified : Multigraph) (whole small : Dataset) : Prop where
  sound : ∀ src dst, graph.hasNode src → graph.hasNode dst →
    small.contains ⟨simplified.repOf src, simplified.repOf dst, .plain mayAlias⟩ →
    whole.contains ⟨src, dst, .plain mayAlias⟩
  complete : CyclesUnloaded graph → ∀ src dst, whole.contains ⟨src, dst, .plain mayAlias⟩ →
    small.contains ⟨simplified.repOf src, simplified.repOf dst, .plain mayAlias⟩

/-- Merging cycles and folding chains, or doing either or neither, adds no alias, and where no
dereference leads into a cycle of assignments it loses none: so it goes whatever the strategy and the
orders in which labels are gone through. -/
theorem solve_simplified_aliases (built : Built graph) {config : Config} {solver : Solver}
    (made : (analysis graph).solver config = .ok solver) (unpruned : config.passes.interDyck = false)
    (order order' : LabelOrder) {deadline : Deadline}
    (unexpired : ∀ tick, deadline.expired tick = false) :
    ∃ whole small, solver.solveInOrder order (analysis graph).seeds deadline = .ok whole ∧
      solver.solveInOrder order' ((analysis graph).simplify config).1.seeds deadline = .ok small ∧
      KeepsAliases graph ((analysis graph).simplify config).1.graph whole.data small.data := by
  have formed := built.ofKinds
  obtain ⟨after, same, kept⟩ := simplify_analysis formed unpruned
  have formed' := formed.of_quotient kept.quotient
  obtain ⟨whole, solved, first⟩ := solve_aliases formed made order unexpired
  obtain ⟨small, solved', second⟩ := solve_aliases formed' made order' unexpired
  rw [same]
  refine ⟨whole, small, solved, solved', fun src dst one two there => ?_, fun free src dst there => ?_⟩
  · exact (first src dst).mpr (kept.sound src dst one two ((second _ _).mp there))
  · exact (second _ _).mpr (kept.complete free src dst ((first src dst).mp there))

/-- Two variables loaded from one pointer, of which the second is assigned on into a cycle. -/
def sharedGraph : Multigraph :=
  addAssign (addAssign (addAssign (addDeref (addDeref emptyGraph 1 2) 1 3) 3 4) 4 5) 5 4

theorem built_sharedGraph : Built sharedGraph := by
  have assigns : IsKind assign := .inl rfl
  have derefs : IsKind deref := .inr (.inl rfl)
  exact .addEdge _ assigns (.addEdge _ assigns (.addEdge _ assigns (.addEdge _ derefs
    (.addEdge _ derefs .empty))))

theorem cyclesUnloaded_sharedGraph : CyclesUnloaded sharedGraph := by
  rintro base node ⟨index, there⟩ cycle
  have valid := built_sharedGraph.ofKinds.valid
  have edges : sharedGraph.edges.map (·.2.toEdge) =
      [⟨1, 2, .plain deref⟩, ⟨1, 3, .plain deref⟩, ⟨3, 4, .plain assign⟩, ⟨4, 5, .plain assign⟩,
        ⟨5, 4, .plain assign⟩] := by decide +kernel
  have pairs : sharedGraph.directPairs = [(3, 4), (4, 5), (5, 4)] := by decide +kernel
  obtain ⟨last, -, straight⟩ := TransGen.tail'_iff.mp cycle
  have listed := (valid.mem_edges_iff _).mpr there
  have pair := (valid.mem_directPairs last node).mpr straight
  rw [edges] at listed
  rw [pairs] at pair
  have loaded : node = 2 ∨ node = 3 := by
    simp only [Label.plain, List.mem_cons, Edge.mk.injEq, Label.mk.injEq, deref_ne_assign, false_and,
      and_false, List.not_mem_nil, or_false] at listed
    exact listed.imp (·.2.1) (·.2.1)
  obtain rfl | rfl := loaded <;> simp at pair

def foldingConfig : Config := { variant := .pocr, passes := { scc := true, fold := true } }

theorem solve_simplified_aliases_sharedGraph : ∃ solver whole small,
    (analysis sharedGraph).solver foldingConfig = .ok solver ∧
    solver.solveInOrder .ascending (analysis sharedGraph).seeds .unlimited = .ok whole ∧
    solver.solveInOrder .ascending ((analysis sharedGraph).simplify foldingConfig).1.seeds .unlimited =
      .ok small ∧
    (whole.data.contains ⟨2, 5, .plain mayAlias⟩ ↔ small.data.contains ⟨2, 3, .plain mayAlias⟩) := by
  have made : (analysis sharedGraph).solver foldingConfig = .ok _ := rfl
  have unexpired : ∀ tick, Deadline.unlimited.expired tick = false := fun _ => rfl
  obtain ⟨whole, small, solved, solved', same⟩ :=
    solve_simplified_aliases built_sharedGraph made rfl .ascending .ascending unexpired
  refine ⟨_, whole, small, made, solved, solved', ?_⟩
  have sound := same.sound 2 5 (by decide +kernel) (by decide +kernel)
  have complete := same.complete cyclesUnloaded_sharedGraph 2 5
  have two : ((analysis sharedGraph).simplify foldingConfig).1.graph.repOf 2 = 2 := by decide +kernel
  have five : ((analysis sharedGraph).simplify foldingConfig).1.graph.repOf 5 = 3 := by decide +kernel
  rw [two, five] at sound complete
  exact ⟨complete, sound⟩

/-- Two variables loaded from one pointer and two from another, of which one each is assigned to the
other. -/
def loadedCycle : Multigraph :=
  addDeref (addDeref (addAssign (addAssign (addDeref (addDeref emptyGraph 1 2) 1 3) 3 4) 4 3) 5 4) 5 6

theorem built_loadedCycle : Built loadedCycle := by
  have assigns : IsKind assign := .inl rfl
  have derefs : IsKind deref := .inr (.inl rfl)
  exact .addEdge _ derefs (.addEdge _ derefs (.addEdge _ assigns (.addEdge _ assigns
    (.addEdge _ derefs (.addEdge _ derefs .empty)))))

def cyclesConfig : Config := { passes := { scc := true } }

/-- Where dereferences lead into a cycle of assignments, merging the cycle can lose an alias. -/
theorem alias_lost_loadedCycle : Built loadedCycle ∧
    (analysis loadedCycle).finds? cyclesConfig ⟨2, 6, .plain mayAlias⟩ = some true ∧
    ((analysis loadedCycle).simplify cyclesConfig).1.graph.repOf 2 = 2 ∧
    ((analysis loadedCycle).simplify cyclesConfig).1.graph.repOf 6 = 6 ∧
    ((analysis loadedCycle).simplify cyclesConfig).1.finds? cyclesConfig ⟨2, 6, .plain mayAlias⟩ =
      some false :=
  ⟨built_loadedCycle, by decide +kernel, by decide +kernel, by decide +kernel, by decide +kernel⟩

end GrammarReach.Alias
