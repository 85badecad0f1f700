import GrammarReach.Proofs.Analysis.Alias
import GrammarReach.Proofs.Analysis.ValueFlow
import GrammarReach.Proofs.Simplify.Brackets

/-!
What pruning brackets keeps of the value flows and of the aliases.

Whatever flows, or may be an alias, is taken for one node. So two bracket edges that match leave, once
oriented, from what is taken for one node, and when they lead to different nodes the pass ought to find
an anchor. But direct edges, and merges made elsewhere, can have put these two nodes together before the
pass looks at them. Then it finds no anchor, and prunes edges that match. This is the only way in which a
pair gets lost.
-/

namespace GrammarReach

open Multigraph
open Relation (EqvGen)

variable {graph before after : Multigraph} {src dst : Node}

/-- No two targets of bracket edges that may match are taken for one node for any other reason than these
edges and others with their label at their source. Besides, only variant labels bear an index. -/
structure Analysis.Discerns (analysis : Analysis) : Prop where
  indexed : ∀ edge, analysis.graph.hasEdge edge →
    analysis.grammar.isVariant edge.label.symbol = false → edge.label.index = 0
  apart : ∀ first second, analysis.graph.Mates analysis.profile first second →
    analysis.graph.Together analysis.profile (analysis.profile.oriented first).src
      (analysis.profile.oriented second).src →
    (analysis.profile.oriented first).dst ≠ (analysis.profile.oriented second).dst →
    ¬ analysis.graph.TiedElsewhere analysis.profile (analysis.profile.oriented first).src
      (analysis.profile.oriented first).label (analysis.profile.oriented first).dst
      (analysis.profile.oriented second).dst

theorem Multigraph.OfKinds.of_pruned {direct : Kind} {known : Kind → Prop}
    (kept : before.OfKinds direct known) {profile : BracketProfile}
    (pruned : Pruned profile before after) : after.OfKinds direct known where
  valid := pruned.valid
  direct kind := by
    rw [isDirect, pruned.kinds]
    exact kept.direct kind
  kinds edge there := kept.kinds edge (pruned.hasEdge kept.valid there)

namespace ValueFlow

def profile : BracketProfile := { brackets := .ofList [call, ret], flips := .ofList [(call, ret)] }

theorem oriented_call (src dst : Node) (site : Nat) :
    profile.oriented ⟨src, dst, ⟨call, site⟩⟩ = ⟨dst, src, ⟨ret, site⟩⟩ := by
  have turns : profile.flips[call]? = some ret := by decide +kernel
  rw [BracketProfile.oriented]
  dsimp only
  rw [turns]

theorem oriented_ret (src dst : Node) (site : Nat) :
    profile.oriented ⟨src, dst, ⟨ret, site⟩⟩ = ⟨src, dst, ⟨ret, site⟩⟩ := by
  have stays : profile.flips[ret]? = none := by decide +kernel
  rw [BracketProfile.oriented]
  dsimp only
  rw [stays]

theorem collapses_ret : profile.collapses ret := by decide +kernel

private theorem not_isDirect_brackets (formed : WellFormed graph) :
    ¬ graph.isDirect call ∧ ¬ graph.isDirect ret := by
  rw [formed.direct, formed.direct]
  simp [symbols_grammar]

theorem suits_profile (formed : WellFormed graph) : profile.Suits graph := by
  intro kind turned turns
  have turnsInto : turned = ret := by
    rw [profile, Std.TreeMap.ofList_singleton, Std.TreeMap.getElem?_insert] at turns
    split at turns
    · exact (Option.some.inj turns).symm
    · simp at turns
  rw [turnsInto]
  exact ⟨by decide +kernel, (not_isDirect_brackets formed).2⟩

theorem Flows.of_pruned (valid : before.Valid) (pruned : Pruned profile before after)
    (flows : Flows after src dst) : Flows before src dst := by
  induction flows with
  | refl live => exact .refl ((pruned.nodes _).symm ▸ live)
  | direct straight => exact .direct ((pruned.straight_iff valid _ _).mp straight)
  | trans _ _ first second => exact first.trans second
  | matched opens _ closes inner =>
    exact .matched (pruned.hasEdge valid opens) inner (pruned.hasEdge valid closes)

/-- A call and a return of one site are mates. -/
theorem mates_of_call (formed : WellFormed graph) {caller entry exit caller' : Node} {site : Nat}
    (opens : graph.hasEdge ⟨caller, entry, ⟨call, site⟩⟩)
    (closes : graph.hasEdge ⟨exit, caller', ⟨ret, site⟩⟩) :
    graph.Mates profile ⟨caller, entry, ⟨call, site⟩⟩ ⟨exit, caller', ⟨ret, site⟩⟩ := by
  obtain ⟨first, second⟩ := not_isDirect_brackets formed
  refine ⟨⟨opens, first, ?_⟩, ⟨closes, second, ?_⟩, ?_⟩
  · rw [oriented_call]
    exact collapses_ret
  · rw [oriented_ret]
    exact collapses_ret
  · rw [oriented_call, oriented_ret]

/-- What a value flows between is taken for one node. -/
theorem Flows.together (formed : WellFormed graph) (flows : Flows graph src dst) :
    graph.Together profile src dst := by
  induction flows with
  | refl _ => exact .refl _
  | direct straight => exact .straight straight
  | trans _ _ first second => exact first.trans second
  | matched opens _ closes inner =>
    have meets := Together.matched (mates_of_call formed opens closes)
    rw [oriented_call, oriented_ret] at meets
    exact meets inner

/-- Where pruning tells apart what it has to, no flow gets lost. -/
theorem Flows.pruned (formed : WellFormed graph) (discerns : (analysis graph).Discerns)
    (flows : Flows graph src dst) : Flows (graph.pruneBrackets profile).graph src dst := by
  have valid := formed.valid
  have pruned := valid.pruneBrackets profile
  induction flows with
  | refl live => exact .refl ((pruned.nodes _).trans live)
  | direct straight => exact .direct ((pruned.straight_iff valid _ _).mpr straight)
  | trans _ _ first second => exact first.trans second
  | @matched src entry exit dst site opens flows closes inner =>
    by_cases same : src = dst
    · rw [same]
      exact .refl ((pruned.nodes _).trans (valid.hasNode_of_hasEdge closes).2)
    · have mates := mates_of_call formed opens closes
      have close : graph.Together profile
          (profile.oriented ⟨src, entry, ⟨call, site⟩⟩).src (profile.oriented ⟨exit, dst, ⟨ret, site⟩⟩).src := by
        rw [oriented_call, oriented_ret]
        exact flows.together formed
      have apart : (profile.oriented ⟨src, entry, ⟨call, site⟩⟩).dst ≠
          (profile.oriented ⟨exit, dst, ⟨ret, site⟩⟩).dst := by
        rwa [oriented_call, oriented_ret]
      obtain ⟨first, second⟩ :=
        mates.pruned valid (suits_profile formed) close (discerns.apart _ _ mates close apart)
      exact .matched first inner second

end ValueFlow

namespace Alias

def profile : BracketProfile := { brackets := .ofList [deref, field] }

theorem oriented_eq (edge : Edge) : profile.oriented edge = edge := by
  have stays : profile.flips[edge.label.symbol]? = none := Std.TreeMap.getElem?_emptyc
  rw [BracketProfile.oriented, stays]

theorem collapses_brackets : profile.collapses deref ∧ profile.collapses field := by decide +kernel

theorem suits_profile (graph : Multigraph) : profile.Suits graph := by
  intro kind turned turns
  rw [profile, Std.TreeMap.getElem?_emptyc] at turns
  cases turns

theorem Derefs.of_pruned (valid : before.Valid) (pruned : Pruned profile before after)
    (derefs : Derefs after src dst) : Derefs before src dst := by
  obtain ⟨index, there⟩ := derefs
  exact ⟨index, pruned.hasEdge valid there⟩

theorem Aliases.of_pruned (valid : before.Valid) (pruned : Pruned profile before after)
    (aliases : Aliases after src dst) : Aliases before src dst := by
  have straight := fun src dst => (pruned.straight_iff valid src dst).mp
  induction aliases with
  | refl live => exact .refl ((pruned.nodes _).symm ▸ live)
  | deref opens _ closes inner =>
    exact .deref (opens.of_pruned valid pruned) inner (closes.of_pruned valid pruned)
  | field opens _ closes inner =>
    exact .field (pruned.hasEdge valid opens) inner (pruned.hasEdge valid closes)
  | forth _ edge outer => exact outer.forth (straight _ _ edge)
  | forthDeref _ edge opens _ closes outer inner =>
    exact outer.forthDeref (straight _ _ edge) (opens.of_pruned valid pruned) inner
      (closes.of_pruned valid pruned)
  | back edge _ outer => exact .back (straight _ _ edge) outer
  | backDeref opens _ closes edge _ inner outer =>
    exact .backDeref (opens.of_pruned valid pruned) inner (closes.of_pruned valid pruned)
      (straight _ _ edge) outer

/-- Edges that are no assignments are mates if they have one label. -/
theorem mates_of_label (formed : WellFormed graph) {base other : Node} {label : Label}
    (collapses : profile.collapses label.symbol) (indirect : label.symbol ≠ assign)
    (opens : graph.hasEdge ⟨base, src, label⟩) (closes : graph.hasEdge ⟨other, dst, label⟩) :
    graph.Mates profile ⟨base, src, label⟩ ⟨other, dst, label⟩ := by
  refine ⟨⟨opens, formed.not_isDirect indirect, ?_⟩, ⟨closes, formed.not_isDirect indirect, ?_⟩, ?_⟩
  · rwa [oriented_eq]
  · rwa [oriented_eq]
  · rw [oriented_eq, oriented_eq]

theorem together_of_mates {base other : Node} {label : Label}
    (mates : graph.Mates profile ⟨base, src, label⟩ ⟨other, dst, label⟩)
    (inner : graph.Together profile base other) : graph.Together profile src dst := by
  have meets := Together.matched mates
  rw [oriented_eq, oriented_eq] at meets
  exact meets inner

/-- Where only variant labels bear an index, any two dereferences have one label. -/
theorem Derefs.mates (formed : WellFormed graph)
    (indexed : ∀ src dst index, graph.hasEdge ⟨src, dst, ⟨deref, index⟩⟩ → index = 0)
    {base other : Node} (opens : Derefs graph base src) (closes : Derefs graph other dst) :
    graph.Mates profile ⟨base, src, .plain deref⟩ ⟨other, dst, .plain deref⟩ := by
  obtain ⟨first, opens⟩ := opens
  obtain ⟨second, closes⟩ := closes
  obtain rfl := indexed _ _ _ opens
  obtain rfl := indexed _ _ _ closes
  exact mates_of_label formed collapses_brackets.1 deref_ne_assign opens closes

/-- What may be an alias is taken for one node. -/
theorem Aliases.together (formed : WellFormed graph)
    (indexed : ∀ src dst index, graph.hasEdge ⟨src, dst, ⟨Alias.deref, index⟩⟩ → index = 0)
    (aliases : Aliases graph src dst) : graph.Together profile src dst := by
  induction aliases with
  | refl _ => exact .refl _
  | deref opens _ closes inner => exact together_of_mates (opens.mates formed indexed closes) inner
  | field opens _ closes inner =>
    exact together_of_mates (mates_of_label formed collapses_brackets.2 field_ne_assign opens closes) inner
  | forth _ edge outer => exact outer.trans (.straight edge)
  | forthDeref _ edge opens _ closes outer inner =>
    exact (outer.trans (.straight edge)).trans (together_of_mates (opens.mates formed indexed closes) inner)
  | back edge _ outer => exact (Together.straight edge).symm.trans outer
  | backDeref opens _ closes edge _ inner outer =>
    exact (together_of_mates (opens.mates formed indexed closes) inner).trans
      ((Together.straight edge).symm.trans outer)

/-- No edge of an expression graph is turned around. -/
theorem discerns_iff : (analysis graph).Discerns ↔
    (∀ edge, graph.hasEdge edge → grammar.isVariant edge.label.symbol = false → edge.label.index = 0) ∧
      ∀ first second, graph.Mates profile first second → graph.Together profile first.src second.src →
        first.dst ≠ second.dst →
        ¬ graph.TiedElsewhere profile first.src first.label first.dst second.dst := by
  constructor
  · rintro ⟨indexed, apart⟩
    refine ⟨indexed, fun first second => ?_⟩
    have whole := apart first second
    change _ → graph.Together profile (profile.oriented first).src (profile.oriented second).src →
      (profile.oriented first).dst ≠ (profile.oriented second).dst → ¬ graph.TiedElsewhere profile
        (profile.oriented first).src (profile.oriented first).label (profile.oriented first).dst
          (profile.oriented second).dst at whole
    rwa [oriented_eq, oriented_eq] at whole
  · rintro ⟨indexed, apart⟩
    refine ⟨indexed, fun first second => ?_⟩
    change _ → graph.Together profile (profile.oriented first).src (profile.oriented second).src →
      (profile.oriented first).dst ≠ (profile.oriented second).dst → ¬ graph.TiedElsewhere profile
        (profile.oriented first).src (profile.oriented first).label (profile.oriented first).dst
          (profile.oriented second).dst
    rw [oriented_eq, oriented_eq]
    exact apart first second

theorem indexed_of_discerns (discerns : (analysis graph).Discerns) (src dst : Node) (index : Nat)
    (there : graph.hasEdge ⟨src, dst, ⟨deref, index⟩⟩) : index = 0 :=
  discerns.indexed _ there (Role.isVariant_symbol .deref)

/-- Mates that meet and lead to different nodes both stay. -/
theorem kept_of_discerns (formed : WellFormed graph) (discerns : (analysis graph).Discerns)
    {base other : Node} {label : Label}
    (mates : graph.Mates profile ⟨base, src, label⟩ ⟨other, dst, label⟩)
    (inner : graph.Together profile base other) (apart : src ≠ dst) :
    (graph.pruneBrackets profile).graph.hasEdge ⟨base, src, label⟩ ∧
      (graph.pruneBrackets profile).graph.hasEdge ⟨other, dst, label⟩ := by
  have close : graph.Together profile (profile.oriented ⟨base, src, label⟩).src
      (profile.oriented ⟨other, dst, label⟩).src := by
    rwa [oriented_eq, oriented_eq]
  refine mates.pruned formed.valid (suits_profile graph) close (discerns.apart _ _ mates close ?_)
  change (profile.oriented _).dst ≠ (profile.oriented _).dst
  rwa [oriented_eq, oriented_eq]

theorem Derefs.pruned (formed : WellFormed graph) (discerns : (analysis graph).Discerns)
    {base other : Node} (opens : Derefs graph base src) (closes : Derefs graph other dst)
    (inner : graph.Together profile base other) (apart : src ≠ dst) :
    Derefs (graph.pruneBrackets profile).graph base src ∧
      Derefs (graph.pruneBrackets profile).graph other dst := by
  have mates := opens.mates formed (indexed_of_discerns discerns) closes
  exact (kept_of_discerns formed discerns mates inner apart).imp (⟨0, ·⟩) (⟨0, ·⟩)

/-- Where pruning tells apart what it has to, no alias gets lost. -/
theorem Aliases.pruned (formed : WellFormed graph) (discerns : (analysis graph).Discerns)
    (aliases : Aliases graph src dst) : Aliases (graph.pruneBrackets profile).graph src dst := by
  have valid := formed.valid
  have indexed := indexed_of_discerns discerns
  have pruned := valid.pruneBrackets profile
  have alive : ∀ {node}, graph.hasNode node → (graph.pruneBrackets profile).graph.hasNode node :=
    fun live => (pruned.nodes _).trans live
  have straight := fun src dst => (pruned.straight_iff valid src dst).mpr
  induction aliases with
  | refl live => exact .refl (alive live)
  | @deref base other src dst opens aliases closes inner =>
    by_cases same : src = dst
    · obtain ⟨index, there⟩ := closes
      rw [same]
      exact .refl (alive (valid.hasNode_of_hasEdge there).2)
    · obtain ⟨first, second⟩ := opens.pruned formed discerns closes (aliases.together formed indexed) same
      exact .deref first inner second
  | @field base other src dst index opens aliases closes inner =>
    by_cases same : src = dst
    · rw [same]
      exact .refl (alive (valid.hasNode_of_hasEdge closes).2)
    · have mates := mates_of_label formed collapses_brackets.2 field_ne_assign opens closes
      obtain ⟨first, second⟩ :=
        kept_of_discerns formed discerns mates (aliases.together formed indexed) same
      exact .field first inner second
  | forth _ edge outer => exact outer.forth (straight _ _ edge)
  | @forthDeref src between next base other dst _ edge opens aliases closes outer inner =>
    by_cases same : next = dst
    · exact outer.forth (same ▸ straight _ _ edge)
    · obtain ⟨first, second⟩ := opens.pruned formed discerns closes (aliases.together formed indexed) same
      exact outer.forthDeref (straight _ _ edge) first inner second
  | back edge _ outer => exact .back (straight _ _ edge) outer
  | @backDeref src base other next between dst opens aliases closes edge _ inner outer =>
    by_cases same : src = next
    · exact .back (same ▸ straight _ _ edge) outer
    · obtain ⟨first, second⟩ := opens.pruned formed discerns closes (aliases.together formed indexed) same
      exact .backDeref first inner second (straight _ _ edge) outer

end Alias

/-- The analyses whose graphs have brackets to prune, and the symbol that each counts. -/
inductive Analysis.Bracketed : Analysis → Symbol → Prop
  | flow {graph : Multigraph} : ValueFlow.Built graph →
      Bracketed (ValueFlow.analysis graph) ValueFlow.flow
  | mayAlias {graph : Multigraph} : Alias.Built graph →
      Bracketed (Alias.analysis graph) Alias.mayAlias

/-- What one dataset, after pruning, tells about the pairs in another, from before: it has no others, and
if pruning tells apart what it has to it has them all. -/
structure Analysis.KeepsPairs (analysis : Analysis) (symbol : Symbol) (whole small : Dataset) : Prop where
  sound : ∀ src dst, small.contains ⟨src, dst, .plain symbol⟩ → whole.contains ⟨src, dst, .plain symbol⟩
  complete : analysis.Discerns → ∀ src dst, whole.contains ⟨src, dst, .plain symbol⟩ →
    small.contains ⟨src, dst, .plain symbol⟩

/-- The analysis of the pruned graph. -/
theorem Analysis.simplify_pruned (analysis : Analysis) {config : Config}
    (only : config.passes = { interDyck := true }) (brackets : analysis.profile.isEmpty = false) :
    (analysis.simplify config).1 =
      { analysis with graph := (analysis.graph.pruneBrackets analysis.profile).graph } := by
  simp [Analysis.simplify, only, Passes.any, Multigraph.simplify, brackets]

/-- Pruning brackets adds no pair, and where it tells apart what it has to it loses none: so it goes
whatever the strategy and the orders in which labels are gone through. -/
theorem Analysis.solve_pruned {analysis : Analysis} {symbol : Symbol}
    (bracketed : analysis.Bracketed symbol) {config : Config} {solver : Solver}
    (made : analysis.solver config = .ok solver) (only : config.passes = { interDyck := true })
    (order order' : LabelOrder) {deadline : Deadline}
    (unexpired : ∀ tick, deadline.expired tick = false) :
    ∃ whole small, solver.solveInOrder order analysis.seeds deadline = .ok whole ∧
      solver.solveInOrder order' (analysis.simplify config).1.seeds deadline = .ok small ∧
      analysis.KeepsPairs symbol whole.data small.data := by
  cases bracketed with
  | @flow graph built =>
    have formed := built.wellFormed
    have pruned := formed.valid.pruneBrackets ValueFlow.profile
    have formed' := ValueFlow.wellFormed_iff.mpr ((ValueFlow.wellFormed_iff.mp formed).of_pruned pruned)
    obtain ⟨whole, solved, first⟩ := ValueFlow.solve_flows formed made order unexpired
    obtain ⟨small, solved', second⟩ :=
      ValueFlow.solve_flows formed' made order' unexpired
    rw [Analysis.simplify_pruned _ only (show ValueFlow.profile.isEmpty = false by decide +kernel)]
    refine ⟨whole, small, solved, solved', fun src dst there => ?_, fun discerns src dst there => ?_⟩
    · exact (first src dst).mpr (((second src dst).mp there).of_pruned formed.valid pruned)
    · exact (second src dst).mpr (((first src dst).mp there).pruned formed discerns)
  | @mayAlias graph built =>
    have formed := built.ofKinds
    have pruned := formed.valid.pruneBrackets Alias.profile
    obtain ⟨whole, solved, first⟩ := Alias.solve_aliases formed made order unexpired
    obtain ⟨small, solved', second⟩ :=
      Alias.solve_aliases (formed.of_pruned pruned) made order' unexpired
    rw [Analysis.simplify_pruned _ only (show Alias.profile.isEmpty = false by decide +kernel)]
    refine ⟨whole, small, solved, solved', fun src dst there => ?_, fun discerns src dst there => ?_⟩
    · exact (first src dst).mpr (((second src dst).mp there).of_pruned formed.valid pruned)
    · exact (second src dst).mpr (((first src dst).mp there).pruned formed discerns)

def pruningConfig : Config := { passes := { interDyck := true } }

/-- Two variables loaded from one pointer, each of them assigned on, and one loaded from another. -/
def sharedPointer : Multigraph :=
  Alias.addDeref (Alias.addAssign (Alias.addAssign (Alias.addDeref (Alias.addDeref Alias.emptyGraph
    1 2) 1 3) 2 4) 3 5) 6 7

theorem built_sharedPointer : Alias.Built sharedPointer := by
  have assigns : Alias.IsKind Alias.assign := .inl rfl
  have derefs : Alias.IsKind Alias.deref := .inr (.inl rfl)
  exact .addEdge _ derefs (.addEdge _ assigns (.addEdge _ assigns (.addEdge _ derefs
    (.addEdge _ derefs .empty))))

private theorem loads_sharedPointer {edge : Edge} (bracket : sharedPointer.IsBracket Alias.profile edge) :
    edge.label = .plain Alias.deref ∧
      (edge.src = 1 ∧ (edge.dst = 2 ∨ edge.dst = 3) ∨ edge.src = 6 ∧ edge.dst = 7) := by
  have each : ∀ edge ∈ sharedPointer.edges.map (·.2.toEdge), ¬ sharedPointer.isDirect edge.label.symbol →
      edge.label = .plain Alias.deref ∧
        (edge.src = 1 ∧ (edge.dst = 2 ∨ edge.dst = 3) ∨ edge.src = 6 ∧ edge.dst = 7) := by decide +kernel
  exact each edge ((built_sharedPointer.ofKinds.valid.mem_edges_iff edge).mpr bracket.there) bracket.indirect

/-- The two pointers are not taken for one, so loads that match are both from the first one. -/
private theorem meets_sharedPointer {one two : Edge} (mates : sharedPointer.Mates Alias.profile one two)
    (close : sharedPointer.Together Alias.profile one.src two.src) :
    one.src = 1 ∧ two.src = 1 ∨ one.dst = two.dst := by
  have far : ¬ sharedPointer.Together Alias.profile 1 6 := by
    rw [← built_sharedPointer.ofKinds.valid.repOf_workingCopy_iff (Alias.suits_profile _)
      (by decide +kernel) (by decide +kernel)]
    decide +kernel
  obtain ⟨-, ⟨src, -⟩ | ⟨src, dst⟩⟩ := loads_sharedPointer mates.one <;>
    obtain ⟨-, ⟨src', -⟩ | ⟨src', dst'⟩⟩ := loads_sharedPointer mates.two <;> rw [src, src'] at close
  · exact .inl ⟨src, src'⟩
  · exact absurd close far
  · exact absurd close.symm far
  · exact .inr (dst.trans dst'.symm)

/-- The variables that the two loads go to are not assigned to each other or to one other. -/
theorem discerns_sharedPointer : (Alias.analysis sharedPointer).Discerns := by
  have valid := built_sharedPointer.ofKinds.valid
  refine Alias.discerns_iff.mpr ⟨fun edge there => ?_, fun first second mates close apart tied => ?_⟩
  · have each : ∀ edge ∈ sharedPointer.edges.map (·.2.toEdge),
        Alias.grammar.isVariant edge.label.symbol = false → edge.label.index = 0 := by decide +kernel
    exact each edge ((valid.mem_edges_iff edge).mpr there)
  obtain ⟨base, base'⟩ := (meets_sharedPointer mates close).resolve_right apart
  -- Each variable that is assigned to counts as the one that is assigned, and no link changes what counts.
  let origin : Node → Node := fun node => if node = 4 then 2 else if node = 5 then 3 else node
  have agrees : ∀ one two, sharedPointer.Link Alias.profile (fun src other => ¬ (other = first.label ∧
      sharedPointer.Together Alias.profile src first.src)) one two → origin one = origin two := by
    rintro one two (straight | ⟨one, two, others, near, counts, rfl, rfl⟩)
    · have each : ∀ pair ∈ sharedPointer.directPairs, origin pair.1 = origin pair.2 := by decide +kernel
      exact each (one, two) ((valid.mem_directPairs one two).mpr straight)
    · simp only [Alias.oriented_eq] at near counts ⊢
      obtain ⟨src, -⟩ | same := meets_sharedPointer others near
      · refine absurd ⟨?_, ?_⟩ counts
        · exact (loads_sharedPointer others.one).1.trans (loads_sharedPointer mates.one).1.symm
        · rw [src, base]
          exact .refl 1
      · rw [same]
  have same : origin first.dst = origin second.dst :=
    (InvImage.equivalence Eq origin eq_equivalence).eqvGen_iff.mp (EqvGen.mono agrees _ _ tied)
  obtain ⟨-, ⟨-, one | one⟩ | ⟨src, -⟩⟩ := loads_sharedPointer mates.one <;>
    obtain ⟨-, ⟨-, two | two⟩ | ⟨src', -⟩⟩ := loads_sharedPointer mates.two <;> simp_all [origin]

theorem solve_pruned_sharedPointer : ∃ solver whole small,
    (Alias.analysis sharedPointer).solver pruningConfig = .ok solver ∧
    solver.solveInOrder .ascending (Alias.analysis sharedPointer).seeds .unlimited = .ok whole ∧
    solver.solveInOrder .ascending ((Alias.analysis sharedPointer).simplify pruningConfig).1.seeds
      .unlimited = .ok small ∧
    ¬ ((Alias.analysis sharedPointer).simplify pruningConfig).1.graph.hasEdge
      ⟨6, 7, .plain Alias.deref⟩ ∧
    (whole.data.contains ⟨4, 5, .plain Alias.mayAlias⟩ ↔
      small.data.contains ⟨4, 5, .plain Alias.mayAlias⟩) := by
  have made : (Alias.analysis sharedPointer).solver pruningConfig = .ok _ := rfl
  have unexpired : ∀ tick, Deadline.unlimited.expired tick = false := fun _ => rfl
  obtain ⟨whole, small, solved, solved', keeps⟩ := Analysis.solve_pruned (.mayAlias built_sharedPointer)
    made rfl .ascending .ascending unexpired
  exact ⟨_, whole, small, made, solved, solved', by decide +kernel,
    keeps.complete discerns_sharedPointer 4 5, keeps.sound 4 5⟩

/-- Two variables loaded from one pointer and assigned to one other. -/
def joinedLoads : Multigraph :=
  Alias.addAssign (Alias.addAssign (Alias.addDeref (Alias.addDeref Alias.emptyGraph 1 2) 1 3) 2 4) 3 4

/-- A call that returns, whose two ends flow to one node. -/
def joinedCall : Multigraph :=
  ValueFlow.addFlow (ValueFlow.addFlow (ValueFlow.addReturn (ValueFlow.addCall ValueFlow.emptyGraph
    1 10 7) 10 2 7) 1 3) 2 3

theorem built_joinedLoads : Alias.Built joinedLoads := by
  have assigns : Alias.IsKind Alias.assign := .inl rfl
  have derefs : Alias.IsKind Alias.deref := .inr (.inl rfl)
  exact .addEdge _ assigns (.addEdge _ assigns (.addEdge _ derefs (.addEdge _ derefs .empty)))

theorem built_joinedCall : ValueFlow.Built joinedCall := by
  have flows : ValueFlow.IsKind ValueFlow.direct := .inl rfl
  have calls : ValueFlow.IsKind ValueFlow.call := .inr (.inl rfl)
  have returns : ValueFlow.IsKind ValueFlow.ret := .inr (.inr rfl)
  exact .addEdge _ flows (.addEdge _ flows (.addEdge _ returns (.addEdge _ calls .empty)))

/-- Where direct edges join the targets of two edges that match, pruning takes both away, and with them
the pair of these targets. -/
theorem pairs_lost_joined :
    (Alias.Built joinedLoads ∧
      (Alias.analysis joinedLoads).finds? pruningConfig ⟨2, 3, .plain Alias.mayAlias⟩ = some true ∧
      ((Alias.analysis joinedLoads).simplify pruningConfig).1.finds? pruningConfig
        ⟨2, 3, .plain Alias.mayAlias⟩ = some false) ∧
    ValueFlow.Built joinedCall ∧
      (ValueFlow.analysis joinedCall).finds? pruningConfig ⟨1, 2, .plain ValueFlow.flow⟩ = some true ∧
      ((ValueFlow.analysis joinedCall).simplify pruningConfig).1.finds? pruningConfig
        ⟨1, 2, .plain ValueFlow.flow⟩ = some false :=
  ⟨⟨built_joinedLoads, by decide +kernel, by decide +kernel⟩,
    built_joinedCall, by decide +kernel, by decide +kernel⟩

end GrammarReach
