import GrammarReach.Proofs.Solve.Saturation
import GrammarReach.Proofs.Solve.Seeding
import GrammarReach.Solve.Run

namespace GrammarReach.Solver

open SeedGraph

/-- The state while the seeds are put in: the edges put in as initial ones are stored and queued, and
the silent ones so far are stored. -/
structure Seeded (solver : Solver) (closures : Std.TreeMap Symbol Closure)
    (initial silent : Edge → Prop) (state : SolveState) : Prop where
  valid : solver.Valid state
  data : ∀ edge, state.data.contains edge ↔ initial edge ∨ silent edge
  secondary : ∀ edge, ¬ state.secondary.contains edge
  distinct : state.work.toList.Nodup
  queued : ∀ item, item ∈ state.work.toList ↔ item.primary ∧ initial item.edge
  closures : state.closures = closures
  iterations : state.iterations = 0

variable {solver : Solver} {closures : Std.TreeMap Symbol Closure} {initial silent : Edge → Prop}
  {state : SolveState} {seeds : SeedGraph}

/-- Putting in an initial edge. -/
theorem Seeded.queue (seeded : solver.Seeded closures initial silent state) {edge : Edge}
    (audible : ¬ silent edge) :
    solver.Seeded closures (fun other => initial other ∨ (¬ other.label.isFault ∧ other = edge)) silent
      (solver.addAndEnqueue state edge) := by
  obtain ⟨⟨new, adds, only⟩, stored⟩ := addAndEnqueue_adds seeded.valid (seeded.secondary edge)
  have added : ∀ other, initial other ∨ (¬ other.label.isFault ∧ other = edge) ↔
      initial other ∨ other ∈ new := by
    refine fun other => ⟨?_, Or.imp_right fun listed => ⟨?_, only other listed⟩⟩
    · rintro (old | ⟨sound, rfl⟩)
      · exact .inl old
      · refine ((adds.stores _).mp (stored sound)).imp_left fun held => ?_
        exact ((seeded.data _).mp (held.resolve_right (seeded.secondary _))).resolve_right audible
    · exact adds.valid.data.faultless other ((adds.data other).mpr (.inr ⟨rfl, listed⟩))
  exact
    { valid := adds.valid
      data := fun other => by
        rw [adds.data, seeded.data, added, and_iff_right rfl, or_right_comm]
      secondary := fun other => by simp [adds.secondary, seeded.secondary]
      distinct := by
        refine adds.queued.nodup_iff.mpr (List.nodup_append.mpr ⟨seeded.distinct, ?_, ?_⟩)
        · exact adds.distinct.map fun _ _ same => (WorkItem.mk.inj same).1
        · rintro item old _ listed rfl
          obtain ⟨other, isNew, rfl⟩ := List.mem_map.mp listed
          exact adds.fresh other isNew (.inl ((seeded.data _).mpr (.inl ((seeded.queued _).mp old).2)))
      queued := fun item => by
        rw [adds.queued.mem_iff, List.mem_append, seeded.queued, added, List.mem_map]
        constructor
        · rintro (⟨primary, old⟩ | ⟨other, isNew, rfl⟩)
          · exact ⟨primary, .inl old⟩
          · exact ⟨rfl, .inr isNew⟩
        · rintro ⟨primary, old | isNew⟩
          · exact .inl ⟨primary, old⟩
          · exact .inr ⟨item.edge, isNew, by rw [← primary]⟩
      closures := adds.closures.trans seeded.closures
      iterations := adds.iterations.trans seeded.iterations }

/-- Putting in an edge that is not queued. -/
theorem Seeded.hush (seeded : solver.Seeded closures initial silent state) (edge : Edge) :
    solver.Seeded closures initial
      (fun other => silent other ∨ (¬ other.label.isFault ∧ ¬ initial other ∧ other = edge))
      { state with data := (state.data.add edge).1 } :=
  { seeded with
    valid :=
      { seeded.valid with
        data := Dataset.valid_add seeded.valid.data edge
        apart := fun other _ => seeded.secondary other }
    data := fun other => by
      rw [Dataset.contains_add seeded.valid.data, seeded.data]
      constructor
      · rintro ((first | quiet) | ⟨rfl, sound⟩)
        · exact .inl first
        · exact .inr (.inl quiet)
        · by_cases first : initial other
          · exact .inl first
          · exact .inr (.inr ⟨sound, first, rfl⟩)
      · rintro (first | quiet | ⟨sound, -, rfl⟩)
        · exact .inl (.inl first)
        · exact .inl (.inr quiet)
        · exact .inr ⟨rfl, sound⟩ }

theorem seeding (solver : Solver) (closures : Std.TreeMap Symbol Closure) :
    Seeding (solver.Seeded closures) solver.addAndEnqueue
      fun state edge => { state with data := (state.data.add edge).1 } where
  queue seeded audible := seeded.queue audible
  hush edge seeded := seeded.hush edge

def emptyClosures (solver : Solver) : Std.TreeMap Symbol Closure :=
  solver.accelerated.toList.foldl
    (fun (closures : Std.TreeMap Symbol Closure) symbol =>
      match Closure.ofVariant? solver.variant with
      | some closure => closures.insert symbol closure
      | none => closures) ∅

private theorem getElem?_foldl_insert (closure : Closure) (symbols : List Symbol)
    (closures : Std.TreeMap Symbol Closure) (symbol : Symbol) :
    (symbols.foldl (fun (closures : Std.TreeMap Symbol Closure) symbol =>
      closures.insert symbol closure) closures)[symbol]? =
      if symbol ∈ symbols then some closure else closures[symbol]? := by
  induction symbols generalizing closures with
  | nil => simp
  | cons first symbols ih =>
    simp only [List.foldl_cons, ih, Std.TreeMap.getElem?_insert, Std.LawfulEqCmp.compare_eq_iff_eq,
      List.mem_cons]
    grind

/-- At first, every symbol with a closure has the empty one of the strategy. -/
theorem getElem?_emptyClosures (solver : Solver) (symbol : Symbol) : solver.emptyClosures[symbol]? =
    if solver.accelerates symbol then Closure.ofVariant? solver.variant else none := by
  unfold emptyClosures
  cases Closure.ofVariant? solver.variant with
  | none => simp
  | some closure =>
    simp only [getElem?_foldl_insert, Std.TreeSet.mem_toList, Std.TreeSet.mem_iff_contains, accelerates]
    simp

theorem mem_emptyClosures {symbol : Symbol} {closure : Closure}
    (found : solver.emptyClosures[symbol]? = some closure) :
    solver.accelerates symbol ∧ Closure.ofVariant? solver.variant = some closure := by
  rw [getElem?_emptyClosures] at found
  split at found
  · next accelerated => exact ⟨accelerated, found⟩
  · cases found

theorem exists_emptyClosures (regular : solver.Regular) {symbol : Symbol}
    (accelerated : solver.accelerates symbol) :
    ∃ closure, solver.emptyClosures[symbol]? = some closure := by
  rw [getElem?_emptyClosures, if_pos accelerated]
  exact regular.equipped symbol accelerated

private theorem valid_blank (regular : solver.Regular) :
    solver.Valid { closures := solver.emptyClosures } where
  data := Dataset.valid_empty
  secondary := Dataset.valid_empty
  apart edge held := absurd held (Dataset.not_contains_empty edge)
  unused _ := Dataset.not_contains_empty
  closures _ _ found := (Closure.ofVariant?_spec (mem_emptyClosures found).2).1
  present _ accelerated := exists_emptyClosures regular accelerated
  undeferred _ := rfl

private theorem blank_seeded (regular : solver.Regular) :
    solver.Seeded solver.emptyClosures (fun _ => False) (fun _ => False)
      { closures := solver.emptyClosures } where
  valid := valid_blank regular
  data edge := by simp [Dataset.not_contains_empty]
  secondary := Dataset.not_contains_empty
  distinct := List.nodup_nil
  queued item := by simp [Worklist.empty, Worklist.toList, Queue.empty, Queue.toList]
  closures := rfl
  iterations := rfl

theorem start_seeded (regular : solver.Regular) (seeds : SeedGraph) :
    solver.Seeded solver.emptyClosures (seeds.Initial solver.grammar)
      (seeds.Silent solver.grammar) (solver.start seeds) :=
  (solver.seeding solver.emptyClosures).all seeds solver.grammar (blank_seeded regular)

/-- At the start, no closure has found anything. -/
theorem start_unreached (regular : solver.Regular) {symbol : Symbol} {closure : Closure}
    (found : (solver.start seeds).closures[symbol]? = some closure) {u v : Node} (apart : u ≠ v) :
    ¬ closure.Reaches u v := by
  intro reaches
  rw [(start_seeded regular seeds).closures] at found
  obtain ⟨-, unlinked⟩ := Closure.ofVariant?_spec (mem_emptyClosures found).2
  rcases Relation.ReflTransGen.cases_head reaches with same | ⟨middle, link, -⟩
  · exact apart same
  · exact unlinked u middle link

end GrammarReach.Solver
