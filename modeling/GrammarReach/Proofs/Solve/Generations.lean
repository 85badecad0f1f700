import GrammarReach.Proofs.Loop
import GrammarReach.Proofs.Solve.Seeding
import GrammarReach.Solve.Generations

/-!
Solving generation by generation. Two edges of which neither is in the latest generation have been
joined, so once a generation is empty, everything has. Each generation but the last brings a new edge.
-/

namespace GrammarReach.Generations

open SeedGraph

variable {grammar : Grammar} {seeds : SeedGraph} {state : Generations}

/-! ### The first generation -/

/-- The state while the seeds are put in. -/
structure Seeded (initial silent : Edge → Prop) (state : Generations) : Prop where
  full : state.full.Valid
  delta : state.delta.Valid
  stored : ∀ edge, state.full.contains edge ↔ initial edge ∨ silent edge
  latest : ∀ edge, state.delta.contains edge ↔ initial edge

theorem Seeded.discover {initial silent : Edge → Prop} (seeded : Seeded initial silent state) {edge : Edge}
    (audible : ¬ silent edge) :
    Seeded (fun other => initial other ∨ (¬ other.label.isFault ∧ other = edge)) silent
      (state.discover edge) := by
  have new : ∀ other : Edge, (other = edge ∧ ¬ edge.label.isFault) ↔
      (¬ other.label.isFault ∧ other = edge) := by
    intro other
    constructor
    · rintro ⟨rfl, sound⟩
      exact ⟨sound, rfl⟩
    · rintro ⟨sound, rfl⟩
      exact ⟨rfl, sound⟩
  by_cases fresh : (state.full.add edge).2
  · have ran : state.discover edge =
        { state with full := (state.full.add edge).1, delta := (state.delta.add edge).1 } := by
      simp [Generations.discover, fresh]
    rw [ran]
    refine ⟨Dataset.valid_add seeded.full edge, Dataset.valid_add seeded.delta edge, ?_, ?_⟩
    · intro other
      rw [Dataset.contains_add seeded.full, seeded.stored, new, or_right_comm]
    · intro other
      rw [Dataset.contains_add seeded.delta, seeded.latest, new]
  · have ran : state.discover edge = state := by
      simp [Generations.discover, fresh, Dataset.add_of_not_flag fresh]
    have known : ¬ edge.label.isFault → initial edge := by
      intro sound
      rw [Dataset.add_flag, not_and_not_right] at fresh
      exact ((seeded.stored edge).mp (fresh sound)).resolve_right audible
    have same : ∀ other, initial other ∨ (¬ other.label.isFault ∧ other = edge) ↔ initial other := by
      intro other
      refine or_iff_left_of_imp ?_
      rintro ⟨sound, rfl⟩
      exact known sound
    rw [ran]
    refine ⟨seeded.full, seeded.delta, fun other => ?_, fun other => ?_⟩
    · rw [seeded.stored, same]
    · rw [seeded.latest, same]

theorem seeding : Seeding Seeded discover
    fun state edge => { state with full := (state.full.add edge).1 } where
  queue seeded audible := seeded.discover audible
  hush {initial silent state} edge seeded := by
    refine ⟨Dataset.valid_add seeded.full edge, seeded.delta, fun other => ?_, seeded.latest⟩
    rw [Dataset.contains_add seeded.full, seeded.stored]
    constructor
    · rintro ((first | quiet) | ⟨rfl, sound⟩)
      · exact .inl first
      · exact .inr (.inl quiet)
      · by_cases first : initial other
        · exact .inl first
        · exact .inr (.inr ⟨sound, first, rfl⟩)
    · rintro (first | quiet | ⟨sound, -, rfl⟩)
      · exact .inl (.inl first)
      · exact .inl (.inr quiet)
      · exact .inr ⟨rfl, sound⟩

theorem start_seeded (grammar : Grammar) (seeds : SeedGraph) :
    Seeded (seeds.Initial grammar) (seeds.Silent grammar) (start grammar seeds) := by
  refine seeding.all seeds grammar ⟨Dataset.valid_empty, Dataset.valid_empty, ?_, ?_⟩
  · intro edge
    simp [Dataset.not_contains_empty]
  · intro edge
    simp [Dataset.not_contains_empty]

/-! ### One generation -/

theorem mem_derive {full : Dataset} (valid : full.Valid) (edge derived : Edge) :
    derived ∈ derive grammar full edge ↔
      (∃ label ∈ grammar.derivedUnary edge.label, derived = ⟨edge.src, edge.dst, label⟩) ∨
      (∃ right dst, full.contains ⟨edge.dst, dst, right⟩ ∧
        ∃ label ∈ grammar.derivedBinary edge.label right, derived = ⟨edge.src, dst, label⟩) ∨
      ∃ left src, full.contains ⟨src, edge.src, left⟩ ∧
        ∃ label ∈ grammar.derivedBinary left edge.label, derived = ⟨src, edge.dst, label⟩ := by
  have out := full.exists_mem_outLabels
  have into := Dataset.exists_mem_inLabels valid
  simp only [derive, List.mem_append, List.mem_map, List.mem_flatMap, Prod.exists]
  rw [or_assoc]
  refine or_congr ?_ (or_congr ?_ ?_)
  · exact exists_congr fun label => and_congr_right fun _ => eq_comm
  · constructor
    · rintro ⟨right, targets, row, label, rule, dst, listed, rfl⟩
      exact ⟨right, dst, (out _ _ _).mp ⟨targets, row, listed⟩, label, rule, rfl⟩
    · rintro ⟨right, dst, stored, label, rule, rfl⟩
      obtain ⟨targets, row, listed⟩ := (out _ _ _).mpr stored
      exact ⟨right, targets, row, label, rule, dst, listed, rfl⟩
  · constructor
    · rintro ⟨left, sources, row, label, rule, src, listed, rfl⟩
      exact ⟨left, src, (into _ _ _).mp ⟨sources, row, listed⟩, label, rule, rfl⟩
    · rintro ⟨left, src, stored, label, rule, rfl⟩
      obtain ⟨sources, row, listed⟩ := (into _ _ _).mpr stored
      exact ⟨left, sources, row, label, rule, src, listed, rfl⟩

private theorem foldl_candidates (full : Dataset) (candidates : List Edge) :
    ∀ next : Dataset, next.Valid →
      let final := candidates.foldl
        (fun next edge => if full.contains edge then next else (next.add edge).1) next
      final.Valid ∧ ∀ edge, final.contains edge ↔ next.contains edge ∨
        (edge ∈ candidates ∧ ¬ edge.label.isFault ∧ ¬ full.contains edge) := by
  induction candidates with
  | nil => exact fun next valid => ⟨valid, by simp⟩
  | cons edge edges ih =>
    intro next valid
    rw [List.foldl_cons]
    by_cases known : full.contains edge
    · rw [if_pos known]
      obtain ⟨finalValid, final⟩ := ih next valid
      refine ⟨finalValid, fun other => (final other).trans (or_congr_right ?_)⟩
      rw [List.mem_cons]
      refine and_congr_left ?_
      rintro ⟨-, unknown⟩
      refine (or_iff_right ?_).symm
      rintro rfl
      exact unknown known
    · rw [if_neg known]
      obtain ⟨finalValid, final⟩ := ih _ (Dataset.valid_add valid edge)
      refine ⟨finalValid, fun other => (final other).trans ?_⟩
      rw [Dataset.contains_add valid, List.mem_cons, or_assoc]
      refine or_congr_right ?_
      constructor
      · rintro (⟨rfl, sound⟩ | ⟨listed, rest⟩)
        · exact ⟨.inl rfl, sound, known⟩
        · exact ⟨.inr listed, rest⟩
      · rintro ⟨rfl | listed, sound, unknown⟩
        · exact .inl ⟨rfl, sound⟩
        · exact .inr ⟨listed, sound, unknown⟩

/-! ### All generations -/

/-- Between two generations, everything is stored that edges of earlier generations derive. -/
structure Stands (seeds : SeedGraph) (grammar : Grammar) (state : Generations) : Prop where
  full : state.full.Valid
  delta : state.delta.Valid
  inside : ∀ edge, state.delta.contains edge → state.full.contains edge
  audible : ∀ edge, state.delta.contains edge → ¬ seeds.Silent grammar edge
  initial : ∀ edge, seeds.Initial grammar edge → state.full.contains edge
  quiet : ∀ edge, seeds.Silent grammar edge → state.full.contains edge
  permitted : ∀ edge, state.full.contains edge → seeds.Solution grammar edge
  alone : ∀ edge, state.full.contains edge → ¬ state.delta.contains edge →
    ¬ seeds.Silent grammar edge → ∀ label ∈ grammar.derivedUnary edge.label,
      state.full.contains ⟨edge.src, edge.dst, label⟩
  join : ∀ left right, state.full.contains left → state.full.contains right →
    ¬ state.delta.contains left → ¬ state.delta.contains right →
    (¬ seeds.Silent grammar left ∨ ¬ seeds.Silent grammar right) → left.dst = right.src →
    ∀ label ∈ grammar.derivedBinary left.label right.label,
      state.full.contains ⟨left.src, right.dst, label⟩

theorem start_stands (grammar : Grammar) (seeds : SeedGraph) :
    Stands seeds grammar (start grammar seeds) := by
  have seeded := start_seeded grammar seeds
  have old : ∀ edge, (start grammar seeds).full.contains edge →
      ¬ (start grammar seeds).delta.contains edge → seeds.Silent grammar edge := by
    intro edge stored earlier
    rw [seeded.latest] at earlier
    exact ((seeded.stored edge).mp stored).resolve_left earlier
  refine
    { full := seeded.full
      delta := seeded.delta
      inside := fun edge latest => (seeded.stored edge).mpr (.inl ((seeded.latest edge).mp latest))
      audible := fun edge latest quiet => quiet.2.1 ((seeded.latest edge).mp latest)
      initial := fun edge first => (seeded.stored edge).mpr (.inl first)
      quiet := fun edge quiet => (seeded.stored edge).mpr (.inr quiet)
      permitted := fun edge stored => ?_
      alone := fun edge stored earlier audible => absurd (old edge stored earlier) audible
      join := fun left right first second earlier earlier' audible => ?_ }
  · rcases (seeded.stored edge).mp stored with first | quiet
    · exact .inr (.initial first)
    · exact .inl quiet
  · rcases audible with loud | loud
    · exact absurd (old left first earlier) loud
    · exact absurd (old right second earlier') loud

/-- The next generation is what the edges of the latest one derive, as far as it was not known. -/
theorem delta_advance (grammar : Grammar) (state : Generations) :
    (state.advance grammar).delta.Valid ∧
      ∀ edge, (state.advance grammar).delta.contains edge ↔
        (∃ old, state.delta.contains old ∧ edge ∈ derive grammar state.full old) ∧
          ¬ edge.label.isFault ∧ ¬ state.full.contains edge := by
  obtain ⟨valid, next⟩ := foldl_candidates state.full
    (state.delta.edges.flatMap (derive grammar state.full)) .empty Dataset.valid_empty
  refine ⟨valid, fun edge => (next edge).trans ?_⟩
  simp only [Dataset.not_contains_empty, Bool.false_eq_true, false_or, List.mem_flatMap,
    Dataset.mem_edges]

/-- What was stored stays, and what a generation brings is stored. -/
theorem Stands.full_advance (stands : Stands seeds grammar state) (edge : Edge) :
    (state.advance grammar).full.contains edge ↔
      state.full.contains edge ∨ (state.advance grammar).delta.contains edge :=
  (Dataset.absorb_spec stands.full (delta_advance grammar state).1).2 edge

/-- Whatever an edge of the latest generation derives is stored next. -/
theorem Stands.arrives (stands : Stands seeds grammar state) {old edge : Edge}
    (latest : state.delta.contains old) (derives : edge ∈ derive grammar state.full old)
    (sound : ¬ edge.label.isFault) : (state.advance grammar).full.contains edge := by
  refine (stands.full_advance edge).mpr (or_iff_not_imp_left.mpr fun unknown => ?_)
  exact ((delta_advance grammar state).2 edge).mpr ⟨⟨old, latest, derives⟩, sound, unknown⟩

theorem Stands.permitted_derive (stands : Stands seeds grammar state) {old edge : Edge}
    (latest : state.delta.contains old) (derives : edge ∈ derive grammar state.full old) :
    seeds.Solution grammar edge := by
  have inside := stands.permitted old (stands.inside old latest)
  have audible := stands.audible old latest
  rcases (mem_derive stands.full old edge).mp derives with ⟨label, rule, rfl⟩ |
    ⟨right, dst, stored, label, rule, rfl⟩ | ⟨left, src, stored, label, rule, rfl⟩
  · exact inside.alone audible rule
  · exact inside.join (stands.permitted _ stored) (.inl audible) rfl rule
  · exact (stands.permitted _ stored).join inside (.inr audible) rfl rule

/-- An edge that the next generation does not have was stored before. -/
theorem Stands.earlier (stands : Stands seeds grammar state) {edge : Edge}
    (stored : (state.advance grammar).full.contains edge)
    (old : ¬ (state.advance grammar).delta.contains edge) : state.full.contains edge :=
  ((stands.full_advance edge).mp stored).resolve_right old

theorem Stands.alone_advance (stands : Stands seeds grammar state) {edge : Edge}
    (stored : state.full.contains edge) (audible : ¬ seeds.Silent grammar edge) {label : Label}
    (rule : label ∈ grammar.derivedUnary edge.label) :
    (state.advance grammar).full.contains ⟨edge.src, edge.dst, label⟩ := by
  by_cases latest : state.delta.contains edge
  · exact stands.arrives latest ((mem_derive stands.full _ _).mpr (.inl ⟨label, rule, rfl⟩))
      (grammar.not_isFault_of_mem_derivedUnary rule)
  · exact (stands.full_advance _).mpr (.inl (stands.alone edge stored latest audible label rule))

/-- Of two stored edges that meet, one in the latest generation finds the other in the full set. -/
theorem Stands.join_advance (stands : Stands seeds grammar state) {left right : Edge}
    (first : state.full.contains left) (second : state.full.contains right)
    (audible : ¬ seeds.Silent grammar left ∨ ¬ seeds.Silent grammar right)
    (meets : left.dst = right.src) {label : Label}
    (rule : label ∈ grammar.derivedBinary left.label right.label) :
    (state.advance grammar).full.contains ⟨left.src, right.dst, label⟩ := by
  obtain ⟨u, v, own⟩ := left
  obtain ⟨v', w, other⟩ := right
  obtain rfl : v = v' := meets
  have sound := grammar.not_isFault_of_mem_derivedBinary rule
  by_cases latestLeft : state.delta.contains ⟨u, v, own⟩
  · refine stands.arrives latestLeft ((mem_derive stands.full _ _).mpr ?_) sound
    exact .inr (.inl ⟨other, w, second, label, rule, rfl⟩)
  · by_cases latestRight : state.delta.contains ⟨v, w, other⟩
    · refine stands.arrives latestRight ((mem_derive stands.full _ _).mpr ?_) sound
      exact .inr (.inr ⟨own, u, first, label, rule, rfl⟩)
    · exact (stands.full_advance _).mpr
        (.inl (stands.join _ _ first second latestLeft latestRight audible rfl label rule))

/-- Joining a generation keeps what stands between two of them. -/
theorem Stands.advance (stands : Stands seeds grammar state) :
    Stands seeds grammar (state.advance grammar) where
  full := (Dataset.absorb_spec stands.full (delta_advance grammar state).1).1
  delta := (delta_advance grammar state).1
  inside edge latest := (stands.full_advance edge).mpr (.inr latest)
  audible edge latest quiet := (((delta_advance grammar state).2 edge).mp latest).2.2 (stands.quiet edge quiet)
  initial edge first := (stands.full_advance edge).mpr (.inl (stands.initial edge first))
  quiet edge quiet := (stands.full_advance edge).mpr (.inl (stands.quiet edge quiet))
  permitted edge stored := by
    rcases (stands.full_advance edge).mp stored with known | latest
    · exact stands.permitted edge known
    · obtain ⟨⟨old, latest, derives⟩, -⟩ := ((delta_advance grammar state).2 edge).mp latest
      exact stands.permitted_derive latest derives
  alone _ stored old audible _ rule := stands.alone_advance (stands.earlier stored old) audible rule
  join _ _ first second oldLeft oldRight audible meets _ rule :=
    stands.join_advance (stands.earlier first oldLeft) (stands.earlier second oldRight) audible meets rule

/-- What is known does not come up again. -/
theorem fresh_advance {edge : Edge} (known : state.full.contains edge) :
    ¬ (state.advance grammar).delta.contains edge :=
  fun latest => (((delta_advance grammar state).2 edge).mp latest).2.2 known

/-- There are no more edges than the extent of the seeds allows. -/
theorem Stands.edgeCount_le (stands : Stands seeds grammar state) :
    state.full.edgeCount ≤ seeds.edgeExtent grammar [] := by
  obtain ⟨stored, inside, total⟩ := stands.full.counted
  rw [total, ← Finset.length_toList]
  refine seeds.length_le_edgeExtent grammar [] stored.nodup_toList ?_
  intro edge listed
  exact (stands.permitted edge ((inside edge).mp (Finset.mem_toList.mp listed))).within

theorem Stands.edgeCount_advance (stands : Stands seeds grammar state) :
    (state.advance grammar).full.edgeCount =
      state.full.edgeCount + (state.advance grammar).delta.edgeCount := by
  exact Dataset.edgeCount_absorb stands.full (delta_advance grammar state).1 fun _ => fresh_advance

/-- How many generations may still come: one more than there are edges left to find, unless the
latest one is empty. -/
private def remaining (limit : Nat) (state : Generations) : Nat :=
  limit - state.full.edgeCount + if state.delta.isEmpty then 0 else 1

private theorem Stands.remaining_advance (stands : Stands seeds grammar state)
    (nonempty : ¬ state.delta.isEmpty) :
    remaining (seeds.edgeExtent grammar []) (state.advance grammar) <
      remaining (seeds.edgeExtent grammar []) state := by
  have limit := stands.advance.edgeCount_le
  have grown := stands.edgeCount_advance
  unfold remaining
  rw [if_neg nonempty]
  by_cases last : (state.advance grammar).delta.isEmpty
  · rw [if_pos last]
    omega
  · rw [if_neg last]
    rw [Dataset.isEmpty, beq_iff_eq] at last
    omega

/-- The state once the given number of generations have been joined, or there is none left. -/
def generation (grammar : Grammar) (seeds : SeedGraph) (deadline : Deadline) (number : Nat) :
    Generations :=
  Loop.run (step grammar deadline) number (start grammar seeds)

variable {deadline : Deadline}

theorem step_cases {next : Generations} (stepped : step grammar deadline state = some next) :
    ¬ state.delta.isEmpty ∧ next = state.advance grammar := by
  unfold step at stepped
  split at stepped
  · cases stepped
  · next going =>
    rw [Bool.or_eq_true, not_or] at going
    exact ⟨going.1, (Option.some.inj stepped).symm⟩

/-- A deadline that has not stopped the loop has not changed its result. -/
theorem solve_unlimited (ran : solve grammar seeds deadline = .ok state) :
    solve grammar seeds .unlimited = .ok state := by
  unfold solve at ran ⊢
  dsimp only at ran ⊢
  split at ran
  · next empty =>
    have part : ∀ state next, step grammar deadline state = some next →
        step grammar .unlimited state = some next := by
      intro state next stepped
      obtain ⟨nonempty, rfl⟩ := step_cases stepped
      simp [step, nonempty, Deadline.expired, Deadline.unlimited]
    have whole := Loop.run_of_halted part (bound grammar seeds) (start grammar seeds)
      (by simp [step, empty])
    rw [whole, if_pos empty]
    exact ran
  · cases ran

theorem generation_stands (grammar : Grammar) (seeds : SeedGraph) (deadline : Deadline)
    (number : Nat) : Stands seeds grammar (generation grammar seeds deadline number) := by
  refine Loop.run_induction ?_ _ _ (start_stands grammar seeds)
  intro state next stands stepped
  obtain ⟨-, rfl⟩ := step_cases stepped
  exact stands.advance

section Unexpired

variable (unexpired : ∀ tick, deadline.expired tick = false)

include unexpired

theorem step_eq_none_iff : step grammar deadline state = none ↔ state.delta.isEmpty := by
  unfold step
  rw [unexpired, Bool.or_false]
  split <;> simp_all

/-- Within the bound, a generation is empty. -/
theorem isEmpty_generation_bound :
    (generation grammar seeds deadline (bound grammar seeds)).delta.isEmpty := by
  refine (step_eq_none_iff unexpired).mp (Loop.step_run_eq_none (motive := Stands seeds grammar)
    (remaining (seeds.edgeExtent grammar [])) ?_ _ _ (start_stands grammar seeds) ?_)
  · intro state next stands stepped
    obtain ⟨nonempty, rfl⟩ := step_cases stepped
    exact ⟨stands.advance, stands.remaining_advance nonempty⟩
  · unfold remaining bound
    split <;> omega

theorem solve_eq_generation : solve grammar seeds deadline =
    .ok (generation grammar seeds deadline (bound grammar seeds)) :=
  if_pos (isEmpty_generation_bound unexpired)

end Unexpired

/-- Solving by generations comes to an end without an expired deadline, and finds exactly the
solution. -/
theorem solve_exact (grammar : Grammar) (seeds : SeedGraph) {deadline : Deadline}
    (unexpired : ∀ tick, deadline.expired tick = false) :
    ∃ final, solve grammar seeds deadline = .ok final ∧
      ∀ edge, final.full.contains edge ↔ seeds.Solution grammar edge := by
  have stands := generation_stands grammar seeds deadline (bound grammar seeds)
  have none := (Dataset.isEmpty_iff stands.delta).mp (isEmpty_generation_bound unexpired)
  refine ⟨_, solve_eq_generation unexpired, fun edge => ⟨stands.permitted edge, ?_⟩⟩
  rintro (quiet | derived)
  · exact stands.quiet edge quiet
  · refine derived.least stands.initial stands.quiet ?_ ?_
    · intro other stored audible label rule
      exact stands.alone other stored (none other) audible label rule
    · intro left right first second audible meets label rule
      exact stands.join left right first second (none left) (none right) audible meets label rule

/-! ### The number of generations -/

/-- Putting the seeds in counts as no generation. -/
theorem count_start (grammar : Grammar) (seeds : SeedGraph) : (start grammar seeds).count = 0 := by
  have discovered : ∀ (state : Generations) (edge : Edge), state.count = 0 →
      (state.discover edge).count = 0 := by
    intro state edge none
    unfold discover
    dsimp only
    split <;> exact none
  refine List.foldlRecOn (motive := fun state : Generations => state.count = 0) _ _ ?_ ?_
  · exact List.foldlRecOn (motive := fun state : Generations => state.count = 0) _ _ rfl
      fun state none edge _ => discovered state edge none
  · intro state none node _
    refine List.foldlRecOn (motive := fun state : Generations => state.count = 0) _ _ ?_
      fun state none _ _ => none
    exact List.foldlRecOn (motive := fun state : Generations => state.count = 0) _ _ none
      fun state none label _ => discovered state _ none

section Unexpired

variable (unexpired : ∀ tick, deadline.expired tick = false)

include unexpired

/-- The generation after one that is empty is the same; every other one is joined. -/
theorem generation_succ (number : Nat) : generation grammar seeds deadline (number + 1) =
    if (generation grammar seeds deadline number).delta.isEmpty then
      generation grammar seeds deadline number
    else (generation grammar seeds deadline number).advance grammar := by
  rw [generation, Loop.run_succ, ← generation, step, unexpired, Bool.or_false]
  split <;> rfl

/-- What is stored stays, and never comes up in a later generation. -/
theorem generation_fresh {early late : Nat} (earlier : early < late) {edge : Edge}
    (stored : (generation grammar seeds deadline early).full.contains edge) :
    (generation grammar seeds deadline late).full.contains edge ∧
      ¬ (generation grammar seeds deadline late).delta.contains edge := by
  have next : ∀ number, (generation grammar seeds deadline number).full.contains edge →
      (generation grammar seeds deadline (number + 1)).full.contains edge ∧
        ¬ (generation grammar seeds deadline (number + 1)).delta.contains edge := by
    intro number stored
    have stands := generation_stands grammar seeds deadline number
    rw [generation_succ unexpired]
    split
    · next empty => exact ⟨stored, (Dataset.isEmpty_iff stands.delta).mp empty edge⟩
    · exact ⟨(stands.full_advance edge).mpr (.inl stored), fresh_advance stored⟩
  induction late, earlier using Nat.le_induction with
  | base => exact next early stored
  | succ late _ ih => exact next late ih.1

/-- No generation comes after one that is empty. -/
theorem generation_of_isEmpty {number later : Nat} (le : number ≤ later)
    (empty : (generation grammar seeds deadline number).delta.isEmpty) :
    generation grammar seeds deadline later = generation grammar seeds deadline number := by
  induction later, le using Nat.le_induction with
  | base => rfl
  | succ later _ ih => rw [generation_succ unexpired, ih, if_pos empty]

/-- Just the generations that are not empty are counted. -/
theorem lt_count_generation (number later : Nat) :
    number < (generation grammar seeds deadline later).count ↔
      number < later ∧ ¬ (generation grammar seeds deadline number).delta.isEmpty := by
  induction later generalizing number with
  | zero => simp [generation, Loop.run, count_start]
  | succ later ih =>
    rw [generation_succ unexpired, Nat.lt_succ_iff_lt_or_eq]
    split
    · next empty =>
      rw [ih]
      constructor
      · rintro ⟨before, nonempty⟩
        exact ⟨.inl before, nonempty⟩
      · rintro ⟨before | rfl, nonempty⟩
        · exact ⟨before, nonempty⟩
        · exact absurd empty nonempty
    · next nonempty =>
      have all : ∀ number ≤ later, ¬ (generation grammar seeds deadline number).delta.isEmpty :=
        fun number le empty => nonempty (generation_of_isEmpty unexpired le empty ▸ empty)
      have count : (generation grammar seeds deadline later).count = later := by
        refine eq_of_forall_lt_iff fun number => (ih number).trans (and_iff_left_of_imp fun before => ?_)
        exact all number (Nat.le_of_lt before)
      have advanced : ((generation grammar seeds deadline later).advance grammar).count = later + 1 :=
        congrArg (· + 1) count
      rw [advanced, Nat.lt_succ_iff_lt_or_eq]
      refine (and_iff_left_of_imp fun before => ?_).symm
      exact all number (Nat.le_of_lt_succ (Nat.lt_succ_iff_lt_or_eq.mpr before))

end Unexpired

/-- Every generation that is not empty has brought an edge. -/
theorem count_generation_le (grammar : Grammar) (seeds : SeedGraph) (deadline : Deadline)
    (number : Nat) :
    (generation grammar seeds deadline number).count ≤
      (generation grammar seeds deadline number).full.edgeCount := by
  -- The latest generation has not been joined yet, but its edges are stored.
  have kept : Stands seeds grammar (generation grammar seeds deadline number) ∧
      (generation grammar seeds deadline number).count +
          (if (generation grammar seeds deadline number).delta.isEmpty then 0 else 1) ≤
        (generation grammar seeds deadline number).full.edgeCount := by
    refine Loop.run_induction (motive := fun state => Stands seeds grammar state ∧
      state.count + (if state.delta.isEmpty then 0 else 1) ≤ state.full.edgeCount) ?_ _ _
      ⟨start_stands grammar seeds, ?_⟩
    · rintro state next ⟨stands, counted⟩ stepped
      obtain ⟨nonempty, rfl⟩ := step_cases stepped
      rw [if_neg nonempty] at counted
      refine ⟨stands.advance, ?_⟩
      rw [stands.edgeCount_advance]
      have count : (state.advance grammar).count = state.count + 1 := rfl
      split
      · omega
      · next more =>
        rw [Dataset.isEmpty, beq_iff_eq] at more
        omega
    · rw [count_start]
      split
      · exact Nat.zero_le _
      · next nonempty =>
        have stands := start_stands grammar seeds
        rw [Dataset.isEmpty_iff stands.delta, not_forall_not] at nonempty
        obtain ⟨edge, latest⟩ := nonempty
        refine Nat.one_le_iff_ne_zero.mpr fun empty => ?_
        exact (Dataset.isEmpty_iff stands.full).mp (beq_iff_eq.mpr empty) edge (stands.inside edge latest)
  exact Nat.le_trans (Nat.le_add_right _ _) kept.2

end GrammarReach.Generations
