import GrammarReach.Proofs.Loop
import GrammarReach.Proofs.Solve.Start

namespace GrammarReach.Solver

/-- A set of edges that a solve of the seeds cannot leave. -/
structure Confines (solver : Solver) (seeds : SeedGraph) (allowed : Edge → Prop) : Prop where
  admits : solver.Admits (seeds.Silent solver.grammar) allowed
  initial : ∀ edge, seeds.Initial solver.grammar edge → allowed edge
  silent : ∀ edge, seeds.Silent solver.grammar edge → allowed edge
  within : ∀ edge, allowed edge → seeds.Within solver.grammar solver.brackets edge

/-- Whatever the seeds and the shortcuts, a solve stays within their extent. -/
theorem confines_extent (solver : Solver) (seeds : SeedGraph) :
    solver.Confines seeds (seeds.Within solver.grammar solver.brackets) where
  admits :=
    { alone := fun _ inside _ _ rule => inside.alone rule
      join := fun _ _ first second _ _ _ rule => first.join second rule
      chain := fun _ _ _ _ _ _ _ _ first second =>
        ⟨⟨first.src, second.dst, first.symbol, first.index⟩,
          ⟨first.src, second.dst, second.symbol, second.index⟩⟩
      bracket := fun _ listed _ _ _ _ _ _ _ _ opening _ closing => opening.shortcut closing listed
      loop := fun _ quiet => quiet.loop }
  initial _ start := SeedGraph.within_initial start
  silent _ quiet := SeedGraph.within_silent quiet
  within _ inside := inside

variable {solver : Solver} {seeds : SeedGraph} {allowed : Edge → Prop} {done : List WorkItem}
  {state next : SolveState}

theorem start_ledger (regular : solver.Regular) (confines : solver.Confines seeds allowed) :
    solver.Ledger (seeds.Silent solver.grammar) allowed [] (solver.start seeds) := by
  have seeded := start_seeded regular seeds
  have stores : ∀ edge, (solver.start seeds).Stores edge ↔
      seeds.Initial solver.grammar edge ∨ seeds.Silent solver.grammar edge := by
    intro edge
    rw [SolveState.Stores, or_iff_left (seeded.secondary edge), seeded.data]
  refine
    { valid := seeded.valid
      distinct := seeded.distinct
      stored := fun item listed => (stores _).mpr (.inl ((seeded.queued item).mp listed).2)
      audible := fun item listed quiet => quiet.2.1 ((seeded.queued item).mp listed).2
      listed := fun edge stored => ?_
      quiet := fun edge quiet => (seeded.data edge).mpr (.inr quiet)
      permitted := fun edge stored => ?_
      iterations := seeded.iterations
      reached := fun symbol closure _ found u v apart => ?_
      looped := fun symbol closure _ found u v apart reaches _ =>
        absurd reaches (start_unreached regular found apart) }
  · rcases (stores edge).mp stored with first | quiet
    · exact .inr ⟨true, (seeded.queued _).mpr ⟨rfl, first⟩⟩
    · exact .inl quiet
  · rcases (stores edge).mp stored with first | quiet
    · exact confines.initial edge first
    · exact confines.silent edge quiet
  · constructor
    · intro reaches
      exact absurd reaches (start_unreached regular found apart)
    · rintro ⟨label, -, listed⟩
      exact absurd ((seeded.queued _).mp listed).1 (by simp)

theorem joined_nil (silent : Edge → Prop) (state : SolveState) : solver.Joined silent [] state where
  alone _ listed := absurd listed List.not_mem_nil
  joined earlier later _ split := absurd split (by simp)
  absorbed _ listed := absurd listed List.not_mem_nil

/-- Where a solve stands after it has taken some items. -/
structure Stands (solver : Solver) (silent allowed : Edge → Prop) (done : List WorkItem)
    (state : SolveState) : Prop where
  ledger : solver.Ledger silent allowed done state
  joined : solver.Joined silent done state

/-- A step takes an item and does what it asks for. -/
theorem step_cases {order : LabelOrder} {deadline : Deadline}
    (stepped : solver.step order deadline state = some next) :
    ∃ item rest, state.work.pop? = some (item, rest) ∧
      next = solver.process order item
        { state with work := rest, iterations := state.iterations + 1 } := by
  unfold step at stepped
  split at stepped
  · cases stepped
  · next item rest popped =>
    split at stepped
    · cases stepped
    · exact ⟨item, rest, popped, (Option.some.inj stepped).symm⟩

/-- Without an expired deadline, a solve that takes no more steps has nothing left to do. -/
theorem dry_of_step_eq_none {order : LabelOrder} {deadline : Deadline}
    (unexpired : ∀ tick, deadline.expired tick = false)
    (halted : solver.step order deadline state = none) : state.work.toList = [] := by
  unfold step at halted
  split at halted
  · next dry => exact Worklist.toList_of_pop?_eq_none dry
  · simp [Deadline.stops, unexpired] at halted

/-- A deadline that has not stopped the loop has not changed its result. -/
theorem saturate_unlimited {order : LabelOrder} {seeds : SeedGraph} {deadline : Deadline}
    (ran : solver.saturate order seeds deadline = .ok state) :
    solver.saturate order seeds .unlimited = .ok state := by
  unfold saturate at ran ⊢
  dsimp only at ran ⊢
  split at ran
  · next dry =>
    have part : ∀ state next, solver.step order deadline state = some next →
        solver.step order .unlimited state = some next := by
      intro state next stepped
      obtain ⟨item, rest, popped, rfl⟩ := step_cases stepped
      simp [step, popped, Deadline.stops, Deadline.expired, Deadline.unlimited]
    have whole := Loop.run_of_halted part (solver.itemBound seeds) (solver.start seeds)
      (by simp [step, Worklist.pop?_of_isEmpty dry])
    rw [whole, if_pos dry]
    exact ran
  · cases ran

/-- Different items are two to an edge at most. -/
theorem length_le_of_edges {items : List WorkItem} (distinct : items.Nodup) {bound : Nat}
    (few : ∀ edges : List Edge, edges.Nodup → (∀ edge ∈ edges, ∃ item ∈ items, item.edge = edge) →
      edges.length ≤ bound) : items.length ≤ 2 * bound := by
  have part : ∀ flag : Bool, (items.filter (·.primary == flag)).length ≤ bound := by
    intro flag
    rw [← List.length_map (f := WorkItem.edge)]
    refine few _ ?_ fun edge listed => ?_
    · refine List.Nodup.map_on ?_ (distinct.filter _)
      rintro ⟨edge, first⟩ one ⟨other, second⟩ two rfl
      have one := (List.mem_filter.mp one).2
      have two := (List.mem_filter.mp two).2
      simp only [beq_iff_eq] at one two
      rw [one, two]
    · obtain ⟨item, inside, rfl⟩ := List.mem_map.mp listed
      exact ⟨item, List.mem_of_mem_filter inside, rfl⟩
  have both : items.length =
      (items.filter (·.primary == true)).length + (items.filter (·.primary == false)).length := by
    rw [List.length_eq_length_filter_add (·.primary == true)]
    congr 3
    funext item
    cases item.primary <;> rfl
  have first := part true
  have second := part false
  omega

/-- No more items are ever taken than the bound of the loop tells. -/
theorem Ledger.length_le (confines : solver.Confines seeds allowed)
    (ledger : solver.Ledger (seeds.Silent solver.grammar) allowed done state) :
    done.length ≤ 2 * seeds.edgeExtent solver.grammar solver.brackets := by
  have distinct : done.Nodup := (List.nodup_append.mp ledger.distinct).1
  refine length_le_of_edges distinct fun edges distinct inside => ?_
  refine seeds.length_le_edgeExtent _ _ distinct fun edge listed => ?_
  obtain ⟨item, taken, rfl⟩ := inside edge listed
  exact confines.within _ (ledger.permitted _ (ledger.stored item (List.mem_append_left _ taken)))

section Run

variable {order : LabelOrder} {deadline : Deadline}

/-- What every step keeps holds after any number of steps. -/
theorem run_keeps (order : LabelOrder) (deadline : Deadline) (regular : solver.Regular)
    (confines : solver.Confines seeds allowed) {motive : List WorkItem → SolveState → Prop}
    (start : motive [] (solver.start seeds))
    (keep : ∀ done state item rest,
      solver.Stands (seeds.Silent solver.grammar) allowed done state → motive done state →
      state.work.pop? = some (item, rest) →
      motive (done ++ [item])
        (solver.process order item { state with work := rest, iterations := state.iterations + 1 }))
    (bound : Nat) :
    ∃ done, solver.Stands (seeds.Silent solver.grammar) allowed done
        (Loop.run (solver.step order deadline) bound (solver.start seeds)) ∧
      motive done (Loop.run (solver.step order deadline) bound (solver.start seeds)) := by
  refine Loop.run_induction (motive := fun state => ∃ done,
    solver.Stands (seeds.Silent solver.grammar) allowed done state ∧ motive done state) ?_ bound _
    ⟨[], ⟨start_ledger regular confines, joined_nil _ _⟩, start⟩
  rintro state next ⟨done, stands, kept⟩ stepped
  obtain ⟨item, rest, popped, rfl⟩ := step_cases stepped
  obtain ⟨ledger, joined, -⟩ :=
    process_keeps regular confines.admits order stands.ledger stands.joined popped
  exact ⟨done ++ [item], ⟨ledger, joined⟩, keep done state item rest stands kept popped⟩

/-- A solve without an expired deadline comes to an end, at which nothing is left to do. -/
theorem saturate_eq_ok (regular : solver.Regular) (confines : solver.Confines seeds allowed)
    (order : LabelOrder) (unexpired : ∀ tick, deadline.expired tick = false) :
    let final := Loop.run (solver.step order deadline) (solver.itemBound seeds) (solver.start seeds)
    solver.saturate order seeds deadline = .ok final ∧ final.work.toList = [] := by
  intro final
  have halted : solver.step order deadline final = none := by
    refine Loop.step_run_eq_none
      (motive := fun state => ∃ done,
        solver.Stands (seeds.Silent solver.grammar) allowed done state)
      (fun state => 2 * seeds.edgeExtent solver.grammar solver.brackets - state.iterations) ?_ _ _
      ⟨[], start_ledger regular confines, joined_nil _ _⟩ ?_
    · rintro state next ⟨done, stands⟩ stepped
      obtain ⟨item, rest, popped, rfl⟩ := step_cases stepped
      obtain ⟨ledger, joined, -⟩ :=
        process_keeps regular confines.admits order stands.ledger stands.joined popped
      refine ⟨⟨_, ledger, joined⟩, ?_⟩
      have taken := ledger.length_le confines
      rw [ledger.iterations, stands.ledger.iterations]
      rw [List.length_append, List.length_singleton] at taken ⊢
      omega
    · unfold itemBound
      omega
  have dry := dry_of_step_eq_none unexpired halted
  refine ⟨?_, dry⟩
  show (if final.work.isEmpty then Except.ok final else .error (deadline.timeout final.iterations)) = _
  rw [if_pos (final.work.isEmpty_iff.mpr dry)]

theorem conclude_of_not_reduces (whole : ¬ solver.reduces) (seeds : SeedGraph) (state : SolveState) :
    solver.conclude seeds state = solver.result seeds state := by
  rw [conclude, if_neg whole]

/-- The result has every stored edge, of whichever dataset. -/
theorem contains_conclude (valid : solver.Valid state) (seeds : SeedGraph) (edge : Edge) :
    (solver.conclude seeds state).data.contains edge ↔ state.Stores edge := by
  unfold conclude
  split
  · exact (Dataset.absorb_spec valid.data valid.secondary).2 edge
  · next single => exact (valid.stores_iff single edge).symm

theorem valid_conclude (valid : solver.Valid state) (seeds : SeedGraph) :
    (solver.conclude seeds state).data.Valid := by
  unfold conclude
  split
  · exact (Dataset.absorb_spec valid.data valid.secondary).1
  · exact valid.data

/-- The initial edges stay where they were put. -/
theorem run_stores_initial (order : LabelOrder) (deadline : Deadline) (regular : solver.Regular)
    (confines : solver.Confines seeds allowed) (bound : Nat) {edge : Edge}
    (start : seeds.Initial solver.grammar edge) :
    (Loop.run (solver.step order deadline) bound (solver.start seeds)).Stores edge := by
  obtain ⟨-, -, stored⟩ := run_keeps order deadline regular confines
    (motive := fun _ state => state.Stores edge)
    (.inl (((start_seeded regular seeds).data edge).mpr (.inl start)))
    (by
      intro done state item rest stands stored popped
      obtain ⟨-, -, grows⟩ :=
        process_keeps regular confines.admits order stands.ledger stands.joined popped
      exact grows edge stored)
    bound
  exact stored

/-- A worklist solve without an expired deadline gives a result, and its edges are those stored when
nothing is left to do. -/
theorem solveInOrder_eq_ok (regular : solver.Regular) (confines : solver.Confines seeds allowed)
    (queued : solver.variant ≠ .batchSemiNaive) (order : LabelOrder)
    (unexpired : ∀ tick, deadline.expired tick = false) :
    let final := Loop.run (solver.step order deadline) (solver.itemBound seeds) (solver.start seeds)
    solver.solveInOrder order seeds deadline = .ok (solver.conclude seeds final) ∧
      final.work.toList = [] ∧
      ∃ done, solver.Stands (seeds.Silent solver.grammar) allowed done final := by
  intro final
  obtain ⟨ran, dry⟩ := saturate_eq_ok regular confines order unexpired
  obtain ⟨done, stands, -⟩ := run_keeps order deadline regular confines
    (motive := fun _ _ => True) trivial (fun _ _ _ _ _ _ _ => trivial) (solver.itemBound seeds)
  refine ⟨?_, dry, done, stands⟩
  simp only [solveInOrder, if_neg queued, ran]
  rfl

end Run

end GrammarReach.Solver
