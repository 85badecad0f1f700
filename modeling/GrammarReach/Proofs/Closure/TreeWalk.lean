import Mathlib.Data.List.Nodup
import GrammarReach.Proofs.Closure.Sole
import GrammarReach.Proofs.Closure.Visit
import GrammarReach.Proofs.Loop

/-!
Walks through a tree of slots as a loop with a stack.

The loop comes to an end and gives what the recursion over the depth gives. A slot hangs in one place,
so it is put on the stack once at most, and what is never put there lies below a slot whose visit did
not ask for it.
-/

namespace GrammarReach

open Relation (ReflTransGen)

/-- A walk through a tree: the slots to visit, the next one first, and what the visits have made of
their state. -/
structure TreeWalk (σ : Type) where
  stack : List Slot
  state : σ

namespace TreeWalk

variable {σ : Type}

/-- Visits the next slot. What lies below it is visited next where the visit asks for it. -/
def step (arena : Arena) (visit : σ → Node → σ × Bool) (walk : TreeWalk σ) : Option (TreeWalk σ) :=
  match walk.stack with
  | [] => none
  | slot :: stack =>
    let (state, deeper) := visit walk.state (arena.memberAt slot)
    some { stack := if deeper then arena.latestBelow slot ++ stack else stack, state }

theorem step_cases {arena : Arena} {visit : σ → Node → σ × Bool} {walk next : TreeWalk σ}
    (stepped : walk.step arena visit = some next) :
    ∃ slot stack, walk.stack = slot :: stack ∧
      next.state = (visit walk.state (arena.memberAt slot)).1 ∧
      next.stack = if (visit walk.state (arena.memberAt slot)).2 then
        arena.latestBelow slot ++ stack else stack := by
  unfold step at stepped
  split at stepped
  · cases stepped
  · next slot stack stacked =>
    obtain rfl := Option.some.inj stepped
    exact ⟨slot, stack, stacked, rfl, rfl⟩

end TreeWalk

namespace Arena

variable {arena : Arena} {root : Node} {σ : Type} {visit : σ → Node → σ × Bool}

/-- The slots right below the root of a tree, the latest first. -/
def firstSlots (arena : Arena) (root : Node) : List Slot :=
  (arena.place? root root).elim [] arena.latestBelow

theorem mem_firstSlots (arena : Arena) (root : Node) (slot : Slot) :
    slot ∈ arena.firstSlots root ↔
      ∃ place, arena.place? root root = some place ∧ slot ∈ arena.latestBelow place := by
  unfold firstSlots
  cases arena.place? root root <;> simp

theorem walk_eq_visitSlots (arena : Arena) (root : Node) (visit : σ → Node → σ × Bool) (state : σ) :
    arena.walk root visit state =
      arena.visitSlots visit arena.slots.size (arena.firstSlots root) state := by
  unfold walk firstSlots
  cases arena.place? root root with
  | some place => rfl
  | none => cases arena.slots.size <;> rfl

theorem Sole.distinct_first (sole : arena.Sole) (root : Node) : (arena.firstSlots root).Nodup := by
  unfold firstSlots
  cases arena.place? root root with
  | none => exact List.nodup_nil
  | some place => exact sole.distinct place

/-- A slot belongs to the tree of a root. -/
def Sits (arena : Arena) (root : Node) (slot : Slot) : Prop :=
  arena.place? root (arena.memberAt slot) = some slot

theorem Valid.sits_below (valid : arena.Valid) {slot child : Slot} (sits : arena.Sits root slot)
    (inside : child ∈ arena.latestBelow slot) : arena.Sits root child :=
  (valid.below sits inside).2

theorem Valid.sits_first (valid : arena.Valid) {slot : Slot} (first : slot ∈ arena.firstSlots root) :
    arena.Sits root slot := by
  obtain ⟨place, placed, inside⟩ := (mem_firstSlots _ _ _).mp first
  exact (valid.below placed inside).2

theorem visitSlots_cons (arena : Arena) (visit : σ → Node → σ × Bool) (depth : Nat) (slot : Slot)
    (slots : List Slot) (state : σ) :
    arena.visitSlots visit (depth + 1) (slot :: slots) state =
      arena.visitSlots visit (depth + 1) slots
        (if (visit state (arena.memberAt slot)).2 then
          arena.visitSlots visit depth (arena.latestBelow slot) (visit state (arena.memberAt slot)).1
        else (visit state (arena.memberAt slot)).1) :=
  rfl

/-- A member sits in one slot of a tree. -/
theorem Sits.unique {slot other : Slot} (sits : arena.Sits root slot) (sits' : arena.Sits root other)
    (same : arena.memberAt slot = arena.memberAt other) : slot = other := by
  unfold Sits at sits sits'
  rw [same, sits'] at sits
  exact (Option.some.inj sits).symm

/-- The recursion over slots takes the steps of the loop: it clears them from the top of the stack. -/
theorem visitSlots_leads (valid : arena.Valid) (visit : σ → Node → σ × Bool) (depth : Nat) :
    ∀ (slots rest : List Slot) (state : σ),
      (∀ slot ∈ slots, arena.Sits root slot ∧ arena.slots.size ≤ slot + depth) →
      Loop.Leads (TreeWalk.step arena visit) ⟨slots ++ rest, state⟩
        ⟨rest, arena.visitSlots visit depth slots state⟩ := by
  induction depth with
  | zero =>
    intro slots rest state deep
    cases slots with
    | nil => exact .refl
    | cons slot slots =>
      obtain ⟨sits, late⟩ := deep slot List.mem_cons_self
      exact absurd (valid.placed sits).1 (Nat.not_lt.mpr late)
  | succ depth deeper =>
    intro slots rest
    induction slots with
    | nil => exact fun state _ => .refl
    | cons slot slots ih =>
      intro state deep
      obtain ⟨sits, late⟩ := deep slot List.mem_cons_self
      have others := fun other listed => deep other (List.mem_cons_of_mem slot listed)
      rw [visitSlots_cons]
      by_cases goesOn : (visit state (arena.memberAt slot)).2
      · -- What lies below the slot is cleared first; it was made later, so it lies less deep.
        have inner := deeper (arena.latestBelow slot) (slots ++ rest)
          (visit state (arena.memberAt slot)).1 fun child inside => by
            obtain ⟨later, there⟩ := valid.below sits inside
            rw [← Nat.succ_add_eq_add_succ] at late
            exact ⟨there, Nat.le_trans late (Nat.add_le_add_right later depth)⟩
        rw [if_pos goesOn]
        exact .head (by simp [TreeWalk.step, goesOn]) (inner.trans (ih _ others))
      · rw [if_neg goesOn]
        exact .head (by simp [TreeWalk.step, goesOn]) (ih _ others)

/-- The loop of a walk comes to an end, with the state that the walk gives. -/
theorem walk_ends (valid : arena.Valid) (root : Node) (visit : σ → Node → σ × Bool) (state : σ) :
    Loop.Ends (TreeWalk.step arena visit) ⟨arena.firstSlots root, state⟩
      ⟨[], arena.walk root visit state⟩ where
  leads := by
    have leads := visitSlots_leads valid visit arena.slots.size (arena.firstSlots root) [] state
      fun slot first => ⟨valid.sits_first first, Nat.le_add_left _ _⟩
    rwa [List.append_nil, ← walk_eq_visitSlots] at leads
  halted := rfl

/-- What is seen of the state of a walk is the state of the walk that is seen. -/
theorem walk_view {τ : Type} {view : τ → σ} {visit' : τ → Node → τ × Bool}
    (follows : Follows view visit visit') (arena : Arena) (root : Node) (state : τ) :
    arena.walk root visit (view state) = view (arena.walk root visit' state) := by
  have slots : ∀ (depth : Nat) (slots : List Slot) (state : τ),
      arena.visitSlots visit depth slots (view state) =
        view (arena.visitSlots visit' depth slots state) := by
    intro depth
    induction depth with
    | zero => exact fun _ _ => rfl
    | succ depth deeper =>
      intro slots state
      refine List.foldl_hom view fun state slot => ?_
      simp only [follows state]
      split
      · exact deeper _ _
      · rfl
  rw [walk_eq_visitSlots, walk_eq_visitSlots]
  exact slots _ _ _

/-- A walk has visited some slots. They and the slots on the stack hang below the root or below visited
slots, and what hangs below the root, or below a slot whose visit asked for it, is among them. -/
structure TreeRun (arena : Arena) (root : Node) (visit : σ → Node → σ × Bool) (begin : σ)
    (visited : List Slot) (walk : TreeWalk σ) : Prop where
  state : walk.state = (replay visit begin (visited.map arena.memberAt)).1
  sits : ∀ slot ∈ visited ++ walk.stack, arena.Sits root slot
  hangs : ∀ slot ∈ visited ++ walk.stack,
    slot ∈ arena.firstSlots root ∨ ∃ above ∈ visited, slot ∈ arena.latestBelow above
  first : ∀ slot ∈ arena.firstSlots root, slot ∈ visited ++ walk.stack
  further : ∀ above ∈ visited,
    (arena.memberAt above, true) ∈ (replay visit begin (visited.map arena.memberAt)).2 →
    ∀ slot ∈ arena.latestBelow above, slot ∈ visited ++ walk.stack

theorem treeRun_start (valid : arena.Valid) (root : Node) (visit : σ → Node → σ × Bool) (begin : σ) :
    TreeRun arena root visit begin [] ⟨arena.firstSlots root, begin⟩ where
  state := rfl
  sits _ first := valid.sits_first first
  hangs _ first := .inl first
  first _ first := first
  further _ listed := absurd listed List.not_mem_nil

variable {begin : σ} {visited : List Slot} {walk next : TreeWalk σ}

/-- A slot of the tree whose member is noted was visited. -/
theorem TreeRun.visited_of_noted (run : TreeRun arena root visit begin visited walk) {slot : Slot}
    (sits : arena.Sits root slot) {answer : Bool} (noted :
      (arena.memberAt slot, answer) ∈ (replay visit begin (visited.map arena.memberAt)).2) :
    slot ∈ visited := by
  have member := List.mem_map_of_mem (f := Prod.fst) noted
  rw [map_fst_replay] at member
  obtain ⟨other, listed, same⟩ := List.mem_map.mp member
  obtain rfl := (run.sits other (List.mem_append_left _ listed)).unique sits same
  exact listed

/-- A step visits the slot on top of the stack. -/
theorem TreeRun.step (run : TreeRun arena root visit begin visited walk) (valid : arena.Valid)
    {slot : Slot} {stack : List Slot} (stacked : walk.stack = slot :: stack)
    (state : next.state = (visit walk.state (arena.memberAt slot)).1)
    (pushed : next.stack = if (visit walk.state (arena.memberAt slot)).2 then
      arena.latestBelow slot ++ stack else stack) :
    TreeRun arena root visit begin (visited ++ [slot]) next := by
  have log : replay visit begin ((visited ++ [slot]).map arena.memberAt) =
      ((visit walk.state (arena.memberAt slot)).1,
        (replay visit begin (visited.map arena.memberAt)).2 ++
          [(arena.memberAt slot, (visit walk.state (arena.memberAt slot)).2)]) := by
    rw [List.map_append, List.map_singleton, replay_concat, recorded, run.state]
  have known : ∀ other, other ∈ (visited ++ [slot]) ++ next.stack ↔ other ∈ visited ++ walk.stack ∨
      ((visit walk.state (arena.memberAt slot)).2 ∧ other ∈ arena.latestBelow slot) := by
    intro other
    rw [pushed, stacked]
    split <;> simp_all [or_assoc, or_comm]
  have here : slot ∈ visited ++ walk.stack := by simp [stacked]
  exact
    { state := by rw [log, state]
      sits := fun other listed => by
        rcases (known other).mp listed with early | ⟨-, inside⟩
        · exact run.sits other early
        · exact valid.sits_below (run.sits slot here) inside
      hangs := fun other listed => by
        rcases (known other).mp listed with early | ⟨-, inside⟩
        · rcases run.hangs other early with first | ⟨above, early, inside⟩
          · exact .inl first
          · exact .inr ⟨above, List.mem_append_left _ early, inside⟩
        · exact .inr ⟨slot, by simp, inside⟩
      first := fun other listed => (known other).mpr (.inl (run.first other listed))
      further := fun above listed asked other inside => by
        have sits : arena.Sits root above := by
          rcases List.mem_append.mp listed with early | last
          · exact run.sits above (List.mem_append_left _ early)
          · exact List.mem_singleton.mp last ▸ run.sits slot here
        rw [log] at asked
        rw [known]
        rcases List.mem_append.mp asked with early | last
        · exact .inl (run.further above (run.visited_of_noted sits early) early other inside)
        · obtain ⟨member, goesOn⟩ := Prod.mk.inj (List.mem_singleton.mp last)
          obtain rfl := sits.unique (run.sits slot here) member
          exact .inr ⟨goesOn.symm, inside⟩ }

/-- A slot that hangs below the root or below another slot is not the one of the root. -/
theorem TreeRun.apart (run : TreeRun arena root visit begin visited walk) (valid : arena.Valid) :
    ∀ slot ∈ visited ++ walk.stack, arena.memberAt slot ≠ root := by
  intro slot listed
  rcases run.hangs slot listed with first | ⟨above, early, inside⟩
  · obtain ⟨place, placed, inside⟩ := (mem_firstSlots _ _ _).mp first
    exact valid.child_ne_root ⟨place, slot, placed, inside, rfl⟩
  · have sits := run.sits above (List.mem_append_left _ early)
    exact valid.child_ne_root ⟨above, slot, sits, inside, rfl⟩

/-- Whom a walk has visited is another member than the root. -/
theorem TreeRun.sound (run : TreeRun arena root visit begin visited walk) (valid : arena.Valid) :
    ∀ node ∈ visited.map arena.memberAt, node ≠ root ∧ arena.holds root node := by
  intro node listed
  obtain ⟨slot, early, rfl⟩ := List.mem_map.mp listed
  have known := List.mem_append_left walk.stack early
  exact ⟨run.apart valid slot known, (holds_iff _ _ _).mpr (.inr ⟨slot, run.sits slot known⟩)⟩

/-- Where slots hang in one place, none is put on the stack again. -/
theorem TreeRun.distinct_step (run : TreeRun arena root visit begin visited walk) (valid : arena.Valid)
    (sole : arena.Sole) {slot : Slot} {stack : List Slot} (stacked : walk.stack = slot :: stack)
    (pushed : next.stack = if (visit walk.state (arena.memberAt slot)).2 then
      arena.latestBelow slot ++ stack else stack)
    (distinct : (visited ++ walk.stack).Nodup) : ((visited ++ [slot]) ++ next.stack).Nodup := by
  have same : visited ++ walk.stack = (visited ++ [slot]) ++ stack := by simp [stacked]
  have apart := run.apart valid slot (by simp [stacked])
  have hangs := run.hangs
  rw [same] at distinct hangs
  rw [pushed]
  split
  · have fresh : ∀ child ∈ arena.latestBelow slot, child ∉ (visited ++ [slot]) ++ stack := by
      intro child inside listed
      rcases hangs child listed with first | ⟨above, early, inside'⟩
      · obtain ⟨place, placed, inside'⟩ := (mem_firstSlots _ _ _).mp first
        obtain rfl := sole.above inside inside'
        exact apart (valid.placed placed).2
      · obtain rfl := sole.above inside inside'
        have twice := (List.nodup_append.mp (List.nodup_append.mp distinct).1).2.2
        exact twice slot early slot (List.mem_singleton_self slot) rfl
    rw [(List.perm_append_comm_assoc _ _ _).nodup_iff, List.nodup_append]
    refine ⟨sole.distinct slot, distinct, fun child inside other listed same => ?_⟩
    exact fresh child inside (same ▸ listed)
  · exact distinct

/-- A walk visits slots that hang together and leaves none of them waiting; where slots hang in one
place, it visits each once. -/
theorem walk_visits (valid : arena.Valid) (root : Node) (visit : σ → Node → σ × Bool) (state : σ) :
    ∃ visited, TreeRun arena root visit state visited ⟨[], arena.walk root visit state⟩ ∧
      (arena.Sole → visited.Nodup) := by
  have kept := (walk_ends valid root visit state).leads.keeps
    (motive := fun walk => ∃ visited, TreeRun arena root visit state visited walk ∧
      (arena.Sole → (visited ++ walk.stack).Nodup))
    (fun walk next ⟨visited, run, distinct⟩ stepped => by
      obtain ⟨slot, stack, stacked, result, pushed⟩ := TreeWalk.step_cases stepped
      exact ⟨visited ++ [slot], run.step valid stacked result pushed, fun sole =>
        run.distinct_step valid sole stacked pushed (distinct sole)⟩)
    ⟨[], treeRun_start valid root visit state, fun sole => sole.distinct_first root⟩
  simpa using kept

/-- A walk makes visits to members other than the root, among them all that lie right below it. -/
theorem walk_eq_foldl (valid : arena.Valid) {σ : Type} (root : Node) (visit : σ → Node → σ × Bool)
    (state : σ) :
    ∃ nodes : List Node,
      (∀ node ∈ nodes, node ≠ root ∧ arena.holds root node) ∧
      (∀ node, arena.Child root root node → node ∈ nodes) ∧
      arena.walk root visit state = nodes.foldl (fun state node => (visit state node).1) state := by
  obtain ⟨visited, run, -⟩ := walk_visits valid root visit state
  have first := run.first
  rw [List.append_nil] at first
  refine ⟨visited.map arena.memberAt, run.sound valid, fun node child => ?_,
    run.state.trans (replay_fst _ _ _)⟩
  obtain ⟨place, slot, placed, inside, rfl⟩ := child
  exact List.mem_map_of_mem (first slot ((mem_firstSlots _ _ _).mpr ⟨place, placed, inside⟩))

/-- Where below means linked, a walk leaves out only what lies behind refused members. -/
theorem walk_prunes (valid : arena.Valid) (sole : arena.Sole) {links : Node → Node → Prop}
    (spread : ∀ {parent member : Node}, arena.Child root parent member → links parent member)
    (exact : ∀ node, arena.holds root node ↔ ReflTransGen links root node)
    (visit : σ → Node → σ × Bool) (state : σ) :
    ∃ nodes, arena.walk root visit state = (replay visit state nodes).1 ∧
      Prunes (ReflTransGen links) root (replay visit state nodes).2 := by
  obtain ⟨visited, run, distinct⟩ := walk_visits valid root visit state
  have sits := run.sits
  have first := run.first
  have further := run.further
  rw [List.append_nil] at sits first further
  have members := map_fst_replay visit state (visited.map arena.memberAt)
  refine ⟨visited.map arena.memberAt, run.state,
    { distinct := ?distinct
      sound := fun node listed => ?sound
      covers := fun node other reached => ?covers }⟩
  case distinct =>
    rw [members]
    refine List.Nodup.map_on (fun slot listed other listed' same => ?_) (distinct sole)
    exact (sits slot listed).unique (sits other listed') same
  case sound =>
    rw [members] at listed
    exact (run.sound valid node listed).imp_right (exact node).mp
  case covers =>
    -- Down the tree: whatever lies below the root or below a covered member is covered.
    refine (valid.induction_below (motive := fun node => node = root ∨ Covered (ReflTransGen links)
      (replay visit state (visited.map arena.memberAt)).2 node) (.inl rfl)
      (fun parent member held child ih => .inr ?_) ((exact node).mpr reached)).resolve_left other
    obtain ⟨place, slot, placed, inside, rfl⟩ := id child
    have visits : slot ∈ visited → arena.memberAt slot ∈
        (replay visit state (visited.map arena.memberAt)).2.map Prod.fst := fun listed => by
      rw [members]
      exact List.mem_map_of_mem listed
    rcases ih with rfl | covered
    · exact .inl (visits (first slot ((mem_firstSlots _ _ _).mpr ⟨place, placed, inside⟩)))
    · obtain rfl := (valid.placed placed).2
      exact covered.next (spread child) fun asked =>
        visits (further place (run.visited_of_noted placed asked) asked slot inside)

end Arena

end GrammarReach
