import GrammarReach.Proofs.Solve.Derivation

/-!
Putting in the seeds. Whatever a solver starts with, it puts in the seed edges, then for each node the
edges of the empty productions and the reflexive labels; the former it queues in some way, the latter
it hushes. What is queued then is initial, and what is hushed is silent.
-/

namespace GrammarReach.SeedGraph

variable {σ : Type}

/-- What `holds` says of a state, with the edges queued and the edges hushed so far, is kept up. -/
structure Seeding (holds : (Edge → Prop) → (Edge → Prop) → σ → Prop) (queue hush : σ → Edge → σ) :
    Prop where
  queue : ∀ {initial silent : Edge → Prop} {state : σ} {edge : Edge}, holds initial silent state →
    ¬ silent edge →
    holds (fun other => initial other ∨ (¬ other.label.isFault ∧ other = edge)) silent (queue state edge)
  hush : ∀ {initial silent : Edge → Prop} {state : σ} (edge : Edge), holds initial silent state →
    holds initial (fun other => silent other ∨ (¬ other.label.isFault ∧ ¬ initial other ∧ other = edge))
      (hush state edge)

/-- What a node starts with. -/
def seedWith (queue hush : σ → Edge → σ) (nullable reflexive : List Label) (state : σ) (node : Node) : σ :=
  reflexive.foldl (fun state label => hush state ⟨node, node, label⟩)
    (nullable.foldl (fun state label => queue state ⟨node, node, label⟩) state)

/-- The initial edges, as far as some of the nodes bring them in. -/
def InitialSoFar (seeds : SeedGraph) (grammar : Grammar) (seen : List Node) (edge : Edge) : Prop :=
  ¬ edge.label.isFault ∧ (edge ∈ seeds.edges ∨
    ∃ node ∈ seen, ∃ symbol ∈ grammar.nullable, edge = ⟨node, node, .plain symbol⟩)

/-- The silent edges, as far as some of the nodes bring them in. -/
def SilentSoFar (seeds : SeedGraph) (grammar : Grammar) (seen : List Node) (edge : Edge) : Prop :=
  seeds.Silent grammar edge ∧ edge.src ∈ seen

variable {seeds : SeedGraph} {grammar : Grammar} {holds : (Edge → Prop) → (Edge → Prop) → σ → Prop}
  {queue hush : σ → Edge → σ} {initial silent : Edge → Prop} {state : σ}

theorem holds_congr {initial' silent' : Edge → Prop} (kept : holds initial silent state)
    (sameInitial : ∀ edge, initial edge ↔ initial' edge) (sameSilent : ∀ edge, silent edge ↔ silent' edge) :
    holds initial' silent' state := by
  obtain rfl : initial = initial' := funext fun edge => propext (sameInitial edge)
  obtain rfl : silent = silent' := funext fun edge => propext (sameSilent edge)
  exact kept

theorem InitialSoFar.isInitial {seen : List Node} (inside : ∀ node ∈ seen, node ∈ seeds.nodes)
    {edge : Edge} (first : seeds.InitialSoFar grammar seen edge) : seeds.Initial grammar edge := by
  obtain ⟨sound, listed | ⟨node, member, rest⟩⟩ := first
  · exact ⟨sound, .inl listed⟩
  · exact ⟨sound, .inr ⟨node, inside node member, rest⟩⟩

variable (seeding : Seeding holds queue hush)

include seeding

theorem Seeding.queueAll (edges : List Edge) (audible : ∀ edge ∈ edges, ¬ silent edge)
    (kept : holds initial silent state) :
    holds (fun other => initial other ∨ (¬ other.label.isFault ∧ other ∈ edges)) silent
      (edges.foldl queue state) := by
  induction edges generalizing initial state with
  | nil => exact holds_congr kept (by simp) fun _ => .rfl
  | cons edge edges ih =>
    obtain ⟨here, audible⟩ := List.forall_mem_cons.mp audible
    refine holds_congr (ih audible (seeding.queue kept here)) ?_ fun _ => .rfl
    intro other
    rw [List.mem_cons, and_or_left, or_assoc]

theorem Seeding.hushAll (edges : List Edge) (kept : holds initial silent state) :
    holds initial (fun other => silent other ∨ (¬ other.label.isFault ∧ ¬ initial other ∧ other ∈ edges))
      (edges.foldl hush state) := by
  induction edges generalizing silent state with
  | nil => exact holds_congr kept (fun _ => .rfl) (by simp)
  | cons edge edges ih =>
    refine holds_congr (ih (seeding.hush edge kept)) (fun _ => .rfl) ?_
    intro other
    rw [List.mem_cons, and_or_left, and_or_left, or_assoc]

/-- A node brings in its loops under the empty productions. -/
private theorem Seeding.queueLoops {seen : List Node} {node : Node} (known : node ∈ seeds.nodes)
    (kept : holds (seeds.InitialSoFar grammar seen) (seeds.SilentSoFar grammar seen) state) :
    holds (seeds.InitialSoFar grammar (node :: seen)) (seeds.SilentSoFar grammar seen)
      ((grammar.nullable.toList.map .plain).foldl (fun state label => queue state ⟨node, node, label⟩)
        state) := by
  let loops : List Edge := (grammar.nullable.toList.map .plain).map fun label => ⟨node, node, label⟩
  have loud : ∀ edge ∈ loops, ¬ seeds.SilentSoFar grammar seen edge := by
    rintro edge listed ⟨quiet, -⟩
    simp only [loops, List.mem_map, Std.TreeSet.mem_toList] at listed
    obtain ⟨_, ⟨symbol, nullable, rfl⟩, rfl⟩ := listed
    exact quiet.2.1 ⟨quiet.1, .inr ⟨node, known, symbol, nullable, rfl⟩⟩
  have queued := seeding.queueAll loops loud kept
  rw [List.foldl_map] at queued
  refine holds_congr queued ?_ fun _ => .rfl
  intro edge
  simp only [loops, InitialSoFar, ← and_or_left, List.mem_map, Std.TreeSet.mem_toList, List.mem_cons,
    exists_eq_or_imp, exists_exists_and_eq_and]
  refine and_congr_right fun _ => or_assoc.trans (or_congr_right (or_comm.trans ?_))
  exact or_congr_left (exists_congr fun symbol => and_congr_right fun _ => eq_comm)

omit seeding in
/-- A node makes those of its loops under reflexive labels silent that are not initial. -/
private theorem silentSoFar_cons {seen : List Node} {node : Node} (known : node ∈ seeds.nodes)
    (inside : ∀ other ∈ node :: seen, other ∈ seeds.nodes) (edge : Edge) :
    seeds.SilentSoFar grammar seen edge ∨ (¬ edge.label.isFault ∧
        ¬ seeds.InitialSoFar grammar (node :: seen) edge ∧
        ∃ label ∈ seeds.reflexive, ⟨node, node, label⟩ = edge) ↔
      seeds.SilentSoFar grammar (node :: seen) edge := by
  constructor
  · rintro (⟨quiet, here⟩ | ⟨sound, unstarted, label, reflexive, rfl⟩)
    · exact ⟨quiet, List.mem_cons_of_mem _ here⟩
    · refine ⟨⟨sound, fun first => unstarted ?_, node, known, label, reflexive, rfl⟩, List.mem_cons_self⟩
      refine ⟨sound, first.2.imp_right ?_⟩
      rintro ⟨other, -, symbol, nullable, same⟩
      obtain ⟨rfl, -⟩ := Edge.mk.inj same
      exact ⟨node, List.mem_cons_self, symbol, nullable, same⟩
  · rintro ⟨quiet, here⟩
    rcases List.mem_cons.mp here with now | before
    · obtain ⟨sound, uninitial, other, -, label, reflexive, rfl⟩ := quiet
      obtain rfl : other = node := now
      exact .inr ⟨sound, fun first => uninitial (first.isInitial inside), label, reflexive, rfl⟩
    · exact .inl ⟨quiet, before⟩

theorem Seeding.seedWith {seen : List Node} {node : Node}
    (inside : ∀ other ∈ node :: seen, other ∈ seeds.nodes)
    (kept : holds (seeds.InitialSoFar grammar seen) (seeds.SilentSoFar grammar seen) state) :
    holds (seeds.InitialSoFar grammar (node :: seen)) (seeds.SilentSoFar grammar (node :: seen))
      (seedWith queue hush (grammar.nullable.toList.map .plain) seeds.reflexive state node) := by
  have known := inside node List.mem_cons_self
  have hushed := seeding.hushAll (seeds.reflexive.map fun label => ⟨node, node, label⟩)
    (seeding.queueLoops known kept)
  rw [List.foldl_map] at hushed
  refine holds_congr hushed (fun _ => .rfl) fun edge => ?_
  rw [List.mem_map]
  exact silentSoFar_cons known inside edge

theorem Seeding.seedNodes {nodes seen : List Node} (known : ∀ node ∈ nodes, node ∈ seeds.nodes)
    (inside : ∀ node ∈ seen, node ∈ seeds.nodes)
    (kept : holds (seeds.InitialSoFar grammar seen) (seeds.SilentSoFar grammar seen) state) :
    ∃ all, (∀ node, node ∈ all ↔ node ∈ nodes ∨ node ∈ seen) ∧
      holds (seeds.InitialSoFar grammar all) (seeds.SilentSoFar grammar all)
        (nodes.foldl
          (SeedGraph.seedWith queue hush (grammar.nullable.toList.map .plain) seeds.reflexive) state) := by
  induction nodes generalizing seen state with
  | nil => exact ⟨seen, by simp, kept⟩
  | cons node nodes ih =>
    obtain ⟨here, known⟩ := List.forall_mem_cons.mp known
    have insideNow : ∀ other ∈ node :: seen, other ∈ seeds.nodes := List.forall_mem_cons.mpr ⟨here, inside⟩
    obtain ⟨all, members, final⟩ := ih known insideNow (seeding.seedWith insideNow kept)
    refine ⟨all, fun other => (members other).trans ?_, final⟩
    rw [List.mem_cons, List.mem_cons, or_left_comm, or_assoc]

/-- In the end the initial edges have been queued and the silent ones hushed. -/
theorem Seeding.all (seeds : SeedGraph) (grammar : Grammar)
    (blank : holds (fun _ => False) (fun _ => False) state) :
    holds (seeds.Initial grammar) (seeds.Silent grammar)
      (seeds.nodes.toList.foldl
        (SeedGraph.seedWith queue hush (grammar.nullable.toList.map .plain) seeds.reflexive)
        (seeds.edges.foldl queue state)) := by
  have edges : holds (seeds.InitialSoFar grammar []) (seeds.SilentSoFar grammar [])
      (seeds.edges.foldl queue state) :=
    holds_congr (seeding.queueAll seeds.edges (fun _ _ => id) blank) (by simp [InitialSoFar])
      (by simp [SilentSoFar])
  have known : ∀ node ∈ seeds.nodes.toList, node ∈ seeds.nodes := fun node listed =>
    Std.TreeSet.mem_toList.mp listed
  obtain ⟨all, members, final⟩ := seeding.seedNodes known (by simp) edges
  have same : ∀ node, node ∈ all ↔ node ∈ seeds.nodes := by
    intro node
    rw [members, Std.TreeSet.mem_toList]
    simp
  refine holds_congr final (fun edge => ?_) fun edge => ?_
  · simp only [InitialSoFar, Initial, same]
  · rw [SilentSoFar, same]
    refine and_iff_left_of_imp ?_
    rintro ⟨-, -, node, known, label, -, rfl⟩
    exact known

end GrammarReach.SeedGraph
