import Mathlib.Data.List.Nodup
import GrammarReach.Closure.DualForest
import GrammarReach.Proofs.Closure.Arena
import GrammarReach.Proofs.Closure.Reachability

/-!
The closure of two forests is exact, and the forests mirror each other.

Taking in an edge walks the ancestor tree of its start and the descendant tree of its end. Neither of
the two grows meanwhile: every pair that concerns them is known. A pair that is known ends the walk,
and nothing is lost below it: either it was known before, with everything behind it, or the walk has
been there.
-/

namespace GrammarReach

open Relation (ReflTransGen)

namespace DualGrowth

theorem enter_of_holds {arena : Arena} (valid : arena.Valid) {root member : Node}
    (held : arena.holds root member) (parent : Node) :
    enter arena root member parent = ((arena.root root).1, false) := by
  simp [enter, Arena.plant_of_holds valid held]

theorem enter_adopts {arena : Arena} (valid : arena.Valid) {root member parent : Node}
    (absent : ¬ arena.holds root member) (above : arena.holds root parent) :
    ∃ grown slot, enter arena root member parent = (grown, true) ∧
      Arena.Adopts arena grown root parent member slot := by
  obtain ⟨rooted, rootPlaced⟩ := Arena.root_rooted valid root
  have placed : ∃ place, (arena.root root).1.place? root parent = some place := by
    rcases (Arena.holds_iff _ _ _).mp above with rfl | ⟨slot, placed⟩
    · exact ⟨_, rootPlaced⟩
    · exact ⟨slot, (rooted.kept placed).1⟩
  obtain ⟨place, placed⟩ := placed
  obtain ⟨planted, slot, plantedIs, adopts⟩ := Arena.adopts_plant_attach valid absent placed
  have found : planted.place? root parent = some place := adopts.kept placed
  refine ⟨planted.attach place slot, slot, ?_, rooted.adopts adopts⟩
  simp [enter, plantedIs, placeOrRoot, found]

/-- Entering a member counts it if it is new. -/
theorem pairs_enter (arena : Arena) (root member parent : Node) :
    (enter arena root member parent).1.pairs =
      arena.pairs + if (enter arena root member parent).2 then 1 else 0 := by
  have counted := arena.pairs_plant root member
  unfold enter
  split
  · next planted => simpa [planted] using counted
  · next grown slot planted =>
    have placed : (placeOrRoot grown root parent).1.pairs = grown.pairs := by
      unfold placeOrRoot
      split
      · rfl
      · exact grown.pairs_root root
    rw [planted] at counted
    exact placed.trans counted

/-- Where a closure of two forests stands while it takes in an edge from `src` to `dst`, with the
forests that it had before: `up` of ancestors and `down` of descendants. -/
structure Pairing (up down : Arena) (src dst : Node) (growth : DualGrowth) : Prop where
  ancestors : growth.forest.ancestors.Valid
  descendants : growth.forest.descendants.Valid
  walkedUp : Arena.SameTree src up growth.forest.ancestors
  walkedDown : Arena.SameTree dst down growth.forest.descendants
  mirrored : ∀ u v, growth.forest.ancestors.holds v u ↔ growth.forest.descendants.holds u v
  keeps : ∀ u v, down.holds u v → growth.forest.descendants.holds u v
  sound : ∀ u v, growth.forest.descendants.holds u v →
    down.holds u v ∨ (up.holds src u ∧ down.holds dst v)
  growsUp : ∀ root parent member, up.Child root parent member →
    growth.forest.ancestors.Child root parent member
  growsDown : ∀ root parent member, down.Child root parent member →
    growth.forest.descendants.Child root parent member
  childUp : ∀ root parent member, growth.forest.ancestors.Child root parent member →
    up.Child root parent member ∨ (¬ down.holds member root ∧
      ((parent = dst ∧ member = src) ∨ up.Child src parent member))
  childDown : ∀ root parent member, growth.forest.descendants.Child root parent member →
    down.Child root parent member ∨ (¬ down.holds root member ∧
      ((parent = src ∧ member = dst) ∨ down.Child dst parent member))
  distinct : growth.found.Nodup
  found : ∀ u v, (u, v) ∈ growth.found ↔
    growth.forest.descendants.holds u v ∧ ¬ down.holds u v
  counted : growth.forest.descendants.pairs = down.pairs + growth.found.length

variable {up down : Arena} {src dst : Node}

/-- Counting a check changes nothing else. -/
theorem Pairing.tick {growth : DualGrowth} (pairing : Pairing up down src dst growth) :
    Pairing up down src dst growth.tick :=
  { pairing with }

/-- Pairs and places stay when a closure grows. -/
structure Grows (before after : DualGrowth) : Prop where
  holds : ∀ u v, before.forest.descendants.holds u v → after.forest.descendants.holds u v
  up : ∀ root parent member, before.forest.ancestors.Child root parent member →
    after.forest.ancestors.Child root parent member
  down : ∀ root parent member, before.forest.descendants.Child root parent member →
    after.forest.descendants.Child root parent member

theorem Grows.refl (growth : DualGrowth) : Grows growth growth :=
  ⟨fun _ _ held => held, fun _ _ _ child => child, fun _ _ _ child => child⟩

theorem Grows.tick {before after : DualGrowth} (grows : Grows before.tick after) :
    Grows before after := ⟨grows.holds, grows.up, grows.down⟩

theorem Grows.trans {first second third : DualGrowth} (before : Grows first second)
    (behind : Grows second third) : Grows first third :=
  ⟨fun u v held => behind.holds u v (before.holds u v held),
    fun _ _ _ child => behind.up _ _ _ (before.up _ _ _ child),
    fun _ _ _ child => behind.down _ _ _ (before.down _ _ _ child)⟩

/-- What recording a pair does: the pair is known, and nothing else is new. -/
structure Records (up down : Arena) (src dst via source origin target : Node)
    (before after : DualGrowth) : Prop where
  pairing : Pairing up down src dst after
  grows : Grows before after
  holds : ∀ u v, after.forest.descendants.holds u v ↔
    before.forest.descendants.holds u v ∨ (u = source ∧ v = target)
  attached : ¬ before.forest.descendants.holds source target →
    after.forest.ancestors.Child target via source ∧
      after.forest.descendants.Child source origin target

section Record

variable {growth : DualGrowth} {via source origin target : Node}

/-- A slot for a root in the ancestor forest changes no pair. -/
private theorem Pairing.withRoot {rooted : Arena} {target : Node}
    (pairing : Pairing up down src dst growth)
    (roots : Arena.Rooted growth.forest.ancestors rooted target)
    (walkedUp : Arena.SameTree src up rooted) (checks : Nat) :
    Pairing up down src dst
      { growth with forest := { growth.forest with ancestors := rooted, checks } } where
  ancestors := roots.valid
  descendants := pairing.descendants
  walkedUp := walkedUp
  walkedDown := pairing.walkedDown
  mirrored u v := (roots.holds v u).trans (pairing.mirrored u v)
  keeps := pairing.keeps
  sound := pairing.sound
  growsUp _ _ _ child := (roots.child _ _ _).mpr (pairing.growsUp _ _ _ child)
  growsDown := pairing.growsDown
  childUp _ _ _ child := pairing.childUp _ _ _ ((roots.child _ _ _).mp child)
  childDown := pairing.childDown
  distinct := pairing.distinct
  found := pairing.found
  counted := pairing.counted

/-- A pair that is known makes a slot for a root at most. -/
private theorem Pairing.record_of_holds (pairing : Pairing up down src dst growth)
    {rootPlace : Slot} (upRooted : up.place? src src = some rootPlace)
    (known : growth.forest.descendants.holds source target) :
    Records up down src dst via source origin target growth
      (growth.record via source origin target) := by
  have held := (pairing.mirrored source target).mpr known
  obtain ⟨roots, -⟩ := Arena.root_rooted pairing.ancestors target
  have ran : growth.record via source origin target =
      { growth with forest :=
        { growth.forest with
          ancestors := (growth.forest.ancestors.root target).1
          checks := growth.forest.checks + 1 } } := by
    simp [DualGrowth.record, DualGrowth.tick, enter_of_holds pairing.ancestors held]
  have walkedUp : Arena.SameTree src up (growth.forest.ancestors.root target).1 := by
    by_cases same : target = src
    · subst same
      rw [Arena.root_of_placed ((pairing.walkedUp target).1.trans upRooted)]
      exact pairing.walkedUp
    · exact pairing.walkedUp.trans (roots.same src (Ne.symm same))
  rw [ran]
  refine
    { pairing := pairing.withRoot roots walkedUp _
      grows :=
        { holds := fun _ _ held => held
          up := fun _ _ _ child => (roots.child _ _ _).mpr child
          down := fun _ _ _ child => child }
      holds := fun u v => ?_
      attached := fun unknown => absurd known unknown }
  refine (or_iff_left_of_imp ?_).symm
  rintro ⟨rfl, rfl⟩
  exact known

/-- Both trees have taken in a pair that was new. -/
private theorem Pairing.entered {grownUp grownDown : Arena} {slotUp slotDown : Slot}
    (pairing : Pairing up down src dst growth)
    (known : ¬ growth.forest.descendants.holds source target)
    (adoptsUp : Arena.Adopts growth.forest.ancestors grownUp target via source slotUp)
    (adoptsDown : Arena.Adopts growth.forest.descendants grownDown source origin target slotDown)
    (sourceIn : up.holds src source) (targetIn : down.holds dst target)
    (linkUp : (via = dst ∧ source = src) ∨ up.Child src via source)
    (linkDown : (origin = src ∧ target = dst) ∨ down.Child dst origin target)
    (counted : grownDown.pairs = growth.forest.descendants.pairs + 1) (checks : Nat) :
    Pairing up down src dst
      { forest := { ancestors := grownUp, descendants := grownDown, checks }
        found := (source, target) :: growth.found } := by
  have unheld := (not_congr (pairing.mirrored source target)).mpr known
  have oldUnknown : ¬ down.holds source target := fun old => known (pairing.keeps _ _ old)
  have targetApart : src ≠ target := by
    rintro rfl
    exact unheld ((pairing.walkedUp.holds_iff source).mpr sourceIn)
  have sourceApart : dst ≠ source := by
    rintro rfl
    exact oldUnknown targetIn
  exact
    { ancestors := adoptsUp.valid
      descendants := adoptsDown.valid
      walkedUp := pairing.walkedUp.trans (adoptsUp.same src targetApart)
      walkedDown := pairing.walkedDown.trans (adoptsDown.same dst sourceApart)
      mirrored := by
        intro u v
        refine (adoptsUp.holds v u).trans (Iff.trans ?_ (adoptsDown.holds u v).symm)
        rw [pairing.mirrored]
        tauto
      keeps := fun u v old => (adoptsDown.holds u v).mpr (.inl (pairing.keeps u v old))
      sound := by
        intro u v held
        rcases (adoptsDown.holds u v).mp held with old | ⟨rfl, rfl⟩
        · exact pairing.sound u v old
        · exact .inr ⟨sourceIn, targetIn⟩
      growsUp := fun _ _ _ child =>
        (adoptsUp.child _ _ _).mpr (.inl (pairing.growsUp _ _ _ child))
      growsDown := fun _ _ _ child =>
        (adoptsDown.child _ _ _).mpr (.inl (pairing.growsDown _ _ _ child))
      childUp := by
        intro root parent member child
        rcases (adoptsUp.child _ _ _).mp child with old | ⟨rfl, rfl, rfl⟩
        · exact pairing.childUp _ _ _ old
        · exact .inr ⟨oldUnknown, linkUp⟩
      childDown := by
        intro root parent member child
        rcases (adoptsDown.child _ _ _).mp child with old | ⟨rfl, rfl, rfl⟩
        · exact pairing.childDown _ _ _ old
        · exact .inr ⟨oldUnknown, linkDown⟩
      distinct := List.nodup_cons.mpr
        ⟨fun listed => known ((pairing.found _ _).mp listed).1, pairing.distinct⟩
      found := by
        intro u v
        rw [List.mem_cons, Prod.mk.injEq, pairing.found]
        refine Iff.trans ?_ (and_congr_left' (adoptsDown.holds u v)).symm
        constructor
        · rintro (⟨rfl, rfl⟩ | ⟨held, unknown⟩)
          · exact ⟨.inr ⟨rfl, rfl⟩, oldUnknown⟩
          · exact ⟨.inl held, unknown⟩
        · rintro ⟨held | new, unknown⟩
          · exact .inr ⟨held, unknown⟩
          · exact .inl new
      counted := by rw [counted, pairing.counted, List.length_cons, Nat.add_assoc] }

/-- A pair that is new is entered into both trees. -/
private theorem Pairing.record_of_not_holds (pairing : Pairing up down src dst growth)
    (known : ¬ growth.forest.descendants.holds source target)
    (viaHeld : growth.forest.ancestors.holds target via)
    (originHeld : growth.forest.descendants.holds source origin) (sourceIn : up.holds src source)
    (targetIn : down.holds dst target)
    (linkUp : (via = dst ∧ source = src) ∨ up.Child src via source)
    (linkDown : (origin = src ∧ target = dst) ∨ down.Child dst origin target) :
    Records up down src dst via source origin target growth
      (growth.record via source origin target) := by
  have unheld := (not_congr (pairing.mirrored source target)).mpr known
  obtain ⟨grownUp, slotUp, enteredUp, adoptsUp⟩ := enter_adopts pairing.ancestors unheld viaHeld
  obtain ⟨grownDown, slotDown, enteredDown, adoptsDown⟩ :=
    enter_adopts pairing.descendants known originHeld
  have ran : growth.record via source origin target =
      { forest :=
          { ancestors := grownUp
            descendants := grownDown
            checks := growth.forest.checks + 1 }
        found := (source, target) :: growth.found } := by
    simp [DualGrowth.record, DualGrowth.tick, enteredUp, enteredDown]
  have counted : grownDown.pairs = growth.forest.descendants.pairs + 1 := by
    simpa [enteredDown] using pairs_enter growth.forest.descendants source target origin
  rw [ran]
  exact
    { pairing := pairing.entered known adoptsUp adoptsDown sourceIn targetIn linkUp linkDown counted _
      grows :=
        { holds := fun u v held => (adoptsDown.holds u v).mpr (.inl held)
          up := fun _ _ _ child => (adoptsUp.child _ _ _).mpr (.inl child)
          down := fun _ _ _ child => (adoptsDown.child _ _ _).mpr (.inl child) }
      holds := fun u v => adoptsDown.holds u v
      attached := fun _ => ⟨(adoptsUp.child _ _ _).mpr (.inr ⟨rfl, rfl, rfl⟩),
        (adoptsDown.child _ _ _).mpr (.inr ⟨rfl, rfl, rfl⟩)⟩ }

theorem Pairing.record (pairing : Pairing up down src dst growth)
    {rootPlace : Slot} (upRooted : up.place? src src = some rootPlace)
    (viaHeld : growth.forest.ancestors.holds target via)
    (originHeld : growth.forest.descendants.holds source origin) (sourceIn : up.holds src source)
    (targetIn : down.holds dst target)
    (linkUp : (via = dst ∧ source = src) ∨ up.Child src via source)
    (linkDown : (origin = src ∧ target = dst) ∨ down.Child dst origin target) :
    Records up down src dst via source origin target growth
      (growth.record via source origin target) := by
  by_cases known : growth.forest.descendants.holds source target
  · exact pairing.record_of_holds upRooted known
  · exact pairing.record_of_not_holds known viaHeld originHeld sourceIn targetIn linkUp linkDown

end Record

/-- Walks that start from one slot after the other: what each of them does, they do together, and
each of them arrives. -/
private theorem foldl_walks {visit : DualGrowth → Slot → DualGrowth}
    (walks : DualGrowth → DualGrowth → Prop) (ready : DualGrowth → Prop)
    (arrived : Slot → DualGrowth → Prop) (stay : ∀ growth, ready growth → walks growth growth)
    (join : ∀ first second third, walks first second → walks second third → walks first third)
    (lasts : ∀ slot before after, walks before after → arrived slot before → arrived slot after)
    (slots : List Slot)
    (each : ∀ slot ∈ slots, ∀ growth, ready growth →
      walks growth (visit growth slot) ∧ ready (visit growth slot) ∧ arrived slot (visit growth slot))
    (growth : DualGrowth) (begins : ready growth) :
    walks growth (slots.foldl visit growth) ∧
      ∀ slot ∈ slots, arrived slot (slots.foldl visit growth) := by
  induction slots generalizing growth with
  | nil => exact ⟨stay growth begins, by simp⟩
  | cons slot slots ih =>
    obtain ⟨one, further, here⟩ := each slot (by simp) growth begins
    obtain ⟨others, all⟩ := ih (fun slot listed => each slot (List.mem_cons_of_mem _ listed)) _ further
    refine ⟨join _ _ _ one others, fun other listed => ?_⟩
    rcases List.mem_cons.mp listed with rfl | listed
    · exact lasts _ _ _ others here
    · exact all other listed

/-- What pairing a part of the ancestor tree with one target does: only pairs with this target are
new, and where one is, the walk has gone on. -/
structure PairsUp (up down : Arena) (src dst target : Node) (before after : DualGrowth) : Prop where
  pairing : Pairing up down src dst after
  grows : Grows before after
  column : ∀ u v, after.forest.descendants.holds u v →
    before.forest.descendants.holds u v ∨ v = target
  covers : ∀ source, after.forest.descendants.holds source target →
    before.forest.descendants.holds source target ∨
      ∀ above, up.Child src source above → after.forest.descendants.holds above target

theorem PairsUp.trans {target : Node} {first second third : DualGrowth}
    (before : PairsUp up down src dst target first second)
    (behind : PairsUp up down src dst target second third) :
    PairsUp up down src dst target first third where
  pairing := behind.pairing
  grows := before.grows.trans behind.grows
  column u v held := (behind.column u v held).elim (before.column u v) .inr
  covers source held := by
    rcases behind.covers source held with early | late
    · rcases before.covers source early with old | early
      · exact .inl old
      · exact .inr fun above child => behind.grows.holds _ _ (early above child)
    · exact .inr late

/-- Where a walk through the ancestor tree stands: the node behind it is known to reach the target,
and all sources are known to reach what the target is reached from. -/
structure ReadyUp (up : Arena) (src via origin target : Node) (growth : DualGrowth) : Prop where
  via : growth.forest.ancestors.holds target via
  origin : ∀ source, up.holds src source → growth.forest.descendants.holds source origin

/-- A walk through the ancestor tree that starts from one member has paired it with the target, and
both trees have taken the pair in. -/
structure PassesUp (up down : Arena) (src dst via member origin target : Node)
    (before after : DualGrowth) : Prop where
  walked : PairsUp up down src dst target before after
  arrived : after.forest.descendants.holds member target
  attached : ¬ before.forest.descendants.holds member target →
    after.forest.ancestors.Child target via member ∧
      after.forest.descendants.Child member origin target

/-- Recording a pair and going on from everything right above its source is a walk. -/
private theorem Records.passesUp {via member origin target : Node}
    {growth grown after : DualGrowth}
    (recorded : Records up down src dst via member origin target growth.tick grown)
    (walked : PairsUp up down src dst target grown after)
    (further : ∀ above, up.Child src member above → after.forest.descendants.holds above target) :
    PassesUp up down src dst via member origin target growth after := by
  have here : grown.forest.descendants.holds member target :=
    (recorded.holds member target).mpr (.inr ⟨rfl, rfl⟩)
  refine ⟨⟨walked.pairing, (recorded.grows.trans walked.grows).tick, fun u v held => ?_,
    fun source held => ?_⟩, walked.grows.holds _ _ here, fun unknown => ?_⟩
  · rcases walked.column u v held with early | late
    · rcases (recorded.holds u v).mp early with old | ⟨-, rfl⟩
      · exact .inl old
      · exact .inr rfl
    · exact .inr late
  · rcases walked.covers source held with early | late
    · rcases (recorded.holds source target).mp early with old | ⟨rfl, -⟩
      · exact .inl old
      · exact .inr further
    · exact .inr late
  · obtain ⟨attachedUp, attachedDown⟩ := recorded.attached unknown
    exact ⟨walked.grows.up _ _ _ attachedUp, walked.grows.down _ _ _ attachedDown⟩

theorem pairAncestors_passesUp (upValid : up.Valid) {rootPlace : Slot}
    (upRooted : up.place? src src = some rootPlace) {origin target : Node}
    (targetIn : down.holds dst target)
    (linkDown : (origin = src ∧ target = dst) ∨ down.Child dst origin target) (depth : Nat) :
    ∀ (via member : Node) (place : Slot) (guarded : Bool) (growth : DualGrowth),
      Pairing up down src dst growth → ReadyUp up src via origin target growth →
      up.place? src member = some place → up.Shallow depth place →
      ((via = dst ∧ member = src) ∨ up.Child src via member) →
      PassesUp up down src dst via member origin target growth
        (pairAncestors origin target depth via place guarded growth) := by
  induction depth with
  | zero => exact fun _ _ _ _ _ _ _ _ shallow => absurd shallow id
  | succ depth ih =>
    intro via member place guarded growth pairing ready placed shallow linkUp
    have memberIn : up.holds src member := (Arena.holds_iff _ _ _).mpr (.inr ⟨place, placed⟩)
    have stands := pairing.walkedUp.memberAt pairing.ancestors placed
    by_cases skipped : guarded && growth.forest.ancestors.holds target member
    · have ran : pairAncestors origin target (depth + 1) via place guarded growth =
          growth.tick := by
        simp only [pairAncestors, stands]
        exact if_pos skipped
      have known := (pairing.mirrored member target).mp (Bool.and_eq_true_iff.mp skipped).2
      rw [ran]
      exact ⟨⟨pairing.tick, (Grows.refl _).tick, fun _ _ => .inl, fun _ => .inl⟩, known,
        fun unknown => absurd known unknown⟩
    · have recorded := pairing.tick.record upRooted ready.via (ready.origin member memberIn)
        memberIn targetIn linkUp linkDown
      set grown := growth.tick.record via member origin target
      have ran : pairAncestors origin target (depth + 1) via place guarded growth =
          (up.below place).foldl
            (fun growth next => pairAncestors origin target depth member next true growth)
            grown := by
        rw [← recorded.pairing.walkedUp.below placed]
        simp only [pairAncestors, stands]
        exact if_neg skipped
      -- Each walk from a slot below leaves the closure ready for the next one.
      obtain ⟨walked, arrived⟩ := foldl_walks (PairsUp up down src dst target)
        (fun current => Pairing up down src dst current ∧ Grows grown current)
        (fun slot current => current.forest.descendants.holds (up.memberAt slot) target)
        (fun current ⟨pairing, _⟩ => ⟨pairing, .refl current, fun _ _ => .inl, fun _ => .inl⟩)
        (fun _ _ _ => PairsUp.trans) (fun _ _ _ walks => walks.grows.holds _ _) (up.below place)
        (fun slot listed current ⟨pairing, grows⟩ => by
          have below : slot ∈ up.latestBelow place := List.mem_reverse.mp listed
          have here : current.forest.descendants.holds member target :=
            grows.holds _ _ ((recorded.holds member target).mpr (.inr ⟨rfl, rfl⟩))
          obtain ⟨walked, arrived, -⟩ := ih member (up.memberAt slot) slot true current pairing
            ⟨(pairing.mirrored member target).mpr here, fun source listed =>
              grows.holds _ _ (recorded.grows.holds _ _ (ready.origin source listed))⟩
            (upValid.below placed below).2 (shallow slot below) (.inr ⟨place, slot, placed, below, rfl⟩)
          exact ⟨walked, ⟨walked.pairing, grows.trans walked.grows⟩, arrived⟩)
        grown ⟨recorded.pairing, .refl grown⟩
      rw [← ran] at walked arrived
      refine recorded.passesUp walked fun above child => ?_
      obtain ⟨slot, listed, rfl⟩ := (Arena.child_iff_below placed above).mp child
      exact arrived slot listed

/-- The forests before the insertion: they mirror each other, reachability is transitive, and what
lies right below a node in an ancestor tree reaches it. -/
structure Settled (up down : Arena) : Prop where
  upValid : up.Valid
  downValid : down.Valid
  mirrored : ∀ u v, up.holds v u ↔ down.holds u v
  trans : ∀ u v w, down.holds u v → down.holds v w → down.holds u w
  above : ∀ root parent member, up.Child root parent member → down.holds member parent
  below : ∀ root parent member, down.Child root parent member → down.holds parent member

/-- Everything that reaches the start of the edge is known to reach a target. -/
def Full (up : Arena) (src : Node) (growth : DualGrowth) (target : Node) : Prop :=
  ∀ source, up.holds src source → growth.forest.descendants.holds source target

/-- Between two walks through the ancestor tree, a target has been paired with all of it, or has no
pairs that are new. -/
def Columns (up down : Arena) (src : Node) (growth : DualGrowth) : Prop :=
  ∀ target, Full up src growth target ∨
    ∀ source, growth.forest.descendants.holds source target → down.holds source target

theorem Full.grows {before after : DualGrowth} {target : Node} (full : Full up src before target)
    (grows : Grows before after) : Full up src after target :=
  fun source listed => grows.holds _ _ (full source listed)

theorem Columns.full {growth : DualGrowth} (settled : Settled up down)
    (pairing : Pairing up down src dst growth) (columns : Columns up down src growth) {target : Node}
    (known : growth.forest.descendants.holds src target) : Full up src growth target := by
  rcases columns target with full | old
  · exact full
  · intro source listed
    exact pairing.keeps _ _ (settled.trans _ _ _ ((settled.mirrored _ _).mp listed) (old _ known))

/-- A finished walk through the ancestor tree has paired all of it with the target. -/
private theorem PairsUp.full {target : Node} {before after : DualGrowth} (settled : Settled up down)
    (columns : Columns up down src before) (walked : PairsUp up down src dst target before after)
    (arrived : after.forest.descendants.holds src target) : Full up src after target := by
  intro source listed
  refine settled.upValid.induction_below
    (motive := fun source => after.forest.descendants.holds source target) arrived ?_ listed
  intro parent member parentIn child reached
  have memberIn : up.holds src member := settled.upValid.child_holds child
  rcases walked.covers parent reached with early | further
  · rcases columns target with full | old
    · exact walked.grows.holds _ _ (full member memberIn)
    · exact walked.pairing.keeps _ _
        (settled.trans _ _ _ (settled.above _ _ _ child) (old parent early))
  · exact further member child

private theorem PairsUp.columns {target : Node} {before after : DualGrowth}
    (columns : Columns up down src before) (walked : PairsUp up down src dst target before after)
    (full : Full up src after target) : Columns up down src after := by
  intro other
  by_cases same : other = target
  · exact .inl (same ▸ full)
  · rcases columns other with full | old
    · exact .inl (full.grows walked.grows)
    · refine .inr fun source held => old source ?_
      exact (walked.column source other held).resolve_right same

/-- What pairing the ancestor tree with a part of the descendant tree does. -/
structure PairsDown (up down : Arena) (src dst : Node) (before after : DualGrowth) : Prop where
  pairing : Pairing up down src dst after
  grows : Grows before after
  columns : Columns up down src after
  covers : ∀ target, after.forest.descendants.holds src target →
    before.forest.descendants.holds src target ∨
      ∀ below, down.Child dst target below → after.forest.descendants.holds src below

theorem PairsDown.trans {first second third : DualGrowth}
    (before : PairsDown up down src dst first second)
    (behind : PairsDown up down src dst second third) : PairsDown up down src dst first third where
  pairing := behind.pairing
  grows := before.grows.trans behind.grows
  columns := behind.columns
  covers target held := by
    rcases behind.covers target held with early | late
    · rcases before.covers target early with old | early
      · exact .inl old
      · exact .inr fun below child => behind.grows.holds _ _ (early below child)
    · exact .inr late

/-- A walk through the descendant tree that starts from one member has paired it with the start of the
edge, and both trees have taken the pair in. -/
structure PassesDown (up down : Arena) (src dst origin member : Node) (before after : DualGrowth) :
    Prop where
  walked : PairsDown up down src dst before after
  arrived : after.forest.descendants.holds src member
  attached : ¬ before.forest.descendants.holds src member →
    after.forest.ancestors.Child member dst src ∧ after.forest.descendants.Child src origin member

/-- Pairing the ancestor tree with a target and going on from everything right below the target is a
walk. -/
private theorem PassesUp.passesDown {origin member : Node} {growth grown after : DualGrowth}
    (passed : PassesUp up down src dst dst src origin member growth.tick grown)
    (walked : PairsDown up down src dst grown after)
    (further : ∀ below, down.Child dst member below → after.forest.descendants.holds src below) :
    PassesDown up down src dst origin member growth after := by
  refine ⟨⟨walked.pairing, (passed.walked.grows.trans walked.grows).tick, walked.columns,
    fun target held => ?_⟩, walked.grows.holds _ _ passed.arrived, fun unknown => ?_⟩
  · rcases walked.covers target held with early | late
    · rcases passed.walked.column src target early with old | rfl
      · exact .inl old
      · exact .inr further
    · exact .inr late
  · obtain ⟨attachedUp, attachedDown⟩ := passed.attached unknown
    exact ⟨walked.grows.up _ _ _ attachedUp, walked.grows.down _ _ _ attachedDown⟩

theorem pairDescendants_passesDown (settled : Settled up down) {rootPlace : Slot}
    (upRooted : up.place? src src = some rootPlace) {height : Nat}
    (upShallow : up.Shallow height rootPlace) (depth : Nat) :
    ∀ (origin member : Node) (slot : Slot) (guarded : Bool) (growth : DualGrowth),
      Pairing up down src dst growth → Columns up down src growth → Full up src growth origin →
      down.place? dst member = some slot → down.Shallow depth slot →
      ((origin = src ∧ member = dst) ∨ down.Child dst origin member) →
      PassesDown up down src dst origin member growth
        (pairDescendants height dst rootPlace depth origin slot guarded growth) := by
  induction depth with
  | zero => exact fun _ _ _ _ _ _ _ _ _ shallow => absurd shallow id
  | succ depth ih =>
    intro origin member slot guarded growth pairing columns full placed shallow linkDown
    have memberIn : down.holds dst member := (Arena.holds_iff _ _ _).mpr (.inr ⟨slot, placed⟩)
    have stands := pairing.walkedDown.memberAt pairing.descendants placed
    have standsUp := pairing.walkedUp.memberAt pairing.ancestors upRooted
    by_cases skipped : guarded && growth.forest.descendants.holds src member
    · have ran : pairDescendants height dst rootPlace (depth + 1) origin slot guarded growth =
          growth.tick := by
        simp only [pairDescendants, stands, standsUp]
        exact if_pos skipped
      have known := (Bool.and_eq_true_iff.mp skipped).2
      rw [ran]
      exact ⟨⟨pairing.tick, (Grows.refl _).tick, columns, fun _ => .inl⟩, known,
        fun unknown => absurd known unknown⟩
    · have viaHeld : growth.forest.ancestors.holds member dst :=
        (pairing.mirrored dst member).mpr (pairing.keeps _ _ memberIn)
      have passed := pairAncestors_passesUp settled.upValid upRooted memberIn linkDown height dst src
        rootPlace false growth.tick pairing.tick ⟨viaHeld, full⟩ upRooted upShallow (.inl ⟨rfl, rfl⟩)
      set grown := pairAncestors origin member height dst rootPlace false growth.tick
      have ticked : Columns up down src growth.tick := columns
      have paired : Full up src grown member := passed.walked.full settled ticked passed.arrived
      have ran : pairDescendants height dst rootPlace (depth + 1) origin slot guarded growth =
          (down.below slot).foldl
            (fun growth next => pairDescendants height dst rootPlace depth member next true growth)
            grown := by
        rw [← pairing.walkedDown.below placed]
        simp only [pairDescendants, stands, standsUp]
        exact if_neg skipped
      obtain ⟨walked, arrived⟩ := foldl_walks (PairsDown up down src dst)
        (fun current => Pairing up down src dst current ∧ Columns up down src current ∧
          Grows grown current)
        (fun next current => current.forest.descendants.holds src (down.memberAt next))
        (fun current ⟨pairing, columns, _⟩ => ⟨pairing, .refl current, columns, fun _ => .inl⟩)
        (fun _ _ _ => PairsDown.trans) (fun _ _ _ walks => walks.grows.holds _ _) (down.below slot)
        (fun next listed current ⟨pairing, columns, grows⟩ => by
          have below : next ∈ down.latestBelow slot := List.mem_reverse.mp listed
          obtain ⟨walked, arrived, -⟩ := ih member (down.memberAt next) next true current pairing
            columns (paired.grows grows) (settled.downValid.below placed below).2 (shallow next below)
            (.inr ⟨slot, next, placed, below, rfl⟩)
          exact ⟨walked, ⟨walked.pairing, walked.columns, grows.trans walked.grows⟩, arrived⟩)
        grown ⟨passed.walked.pairing, passed.walked.columns ticked paired, .refl grown⟩
      rw [← ran] at walked arrived
      refine passed.passesDown walked fun below child => ?_
      obtain ⟨next, listed, rfl⟩ := (Arena.child_iff_below placed below).mp child
      exact arrived next listed

/-- The pairs that are known when all walks are over: those that were, and those that the edge makes. -/
theorem PairsDown.holds_iff {before after : DualGrowth} (settled : Settled up down)
    (walked : PairsDown up down src dst before after)
    (early : ∀ target, before.forest.descendants.holds src target → down.holds src target)
    (arrived : after.forest.descendants.holds src dst) (u v : Node) :
    after.forest.descendants.holds u v ↔
      down.holds u v ∨ (down.holds u src ∧ down.holds dst v) := by
  have reached : ∀ target, down.holds dst target → after.forest.descendants.holds src target := by
    intro target held
    refine settled.downValid.induction_below
      (motive := fun target => after.forest.descendants.holds src target) arrived ?_ held
    intro parent member _ child above
    rcases walked.covers parent above with old | further
    · exact walked.pairing.keeps _ _
        (settled.trans _ _ _ (early parent old) (settled.below _ _ _ child))
    · exact further member child
  constructor
  · intro known
    rcases walked.pairing.sound u v known with old | ⟨before, behind⟩
    · exact .inl old
    · exact .inr ⟨(settled.mirrored u src).mp before, behind⟩
  · rintro (old | ⟨before, behind⟩)
    · exact walked.pairing.keeps u v old
    · exact walked.columns.full settled walked.pairing (reached v behind) u
        ((settled.mirrored u src).mpr before)

end DualGrowth

namespace DualForest

/-- A node leads right on to another: the other one lies right below it in its descendant tree. -/
def Linked (forest : DualForest) (src dst : Node) : Prop := forest.descendants.Child src src dst

/-- The forests mirror each other, whatever lies right below a node in some tree is linked to it, and
the descendant tree of a node has exactly what the links lead to. -/
structure Valid (forest : DualForest) : Prop where
  ancestors : forest.ancestors.Valid
  descendants : forest.descendants.Valid
  mirrored : ∀ u v, forest.ancestors.holds v u ↔ forest.descendants.holds u v
  spreadUp : ∀ {root parent member : Node}, forest.ancestors.Child root parent member →
    forest.Linked member parent
  spreadDown : ∀ {root parent member : Node}, forest.descendants.Child root parent member →
    forest.Linked parent member
  linkedUp : ∀ {src dst : Node}, forest.Linked src dst → forest.ancestors.Child dst dst src
  exact : ∀ src dst, forest.descendants.holds src dst ↔ ReflTransGen forest.Linked src dst

theorem valid_empty : empty.Valid := by
  have childless : ∀ root parent member, ¬ Arena.empty.Child root parent member :=
    Arena.not_child_empty
  refine
    { ancestors := Arena.valid_empty
      descendants := Arena.valid_empty
      mirrored := fun u v => ?mirrored
      spreadUp := fun child => absurd child (childless _ _ _)
      spreadDown := fun child => absurd child (childless _ _ _)
      linkedUp := fun child => absurd child (childless _ _ _)
      exact := fun src dst => ?exact }
  case mirrored =>
    simp only [empty, Arena.holds_empty]
    exact eq_comm
  case exact =>
    have unlinked : ∀ node, ¬ empty.Linked src node := fun _ => childless _ _ _
    rw [Relation.reflTransGen_iff_eq unlinked]
    simp only [empty, Arena.holds_empty]
    exact eq_comm

variable {forest : DualForest} {src dst : Node}

theorem Valid.settled (valid : forest.Valid) :
    DualGrowth.Settled forest.ancestors forest.descendants where
  upValid := valid.ancestors
  downValid := valid.descendants
  mirrored := valid.mirrored
  trans u v w first second :=
    (valid.exact u w).mpr (((valid.exact u v).mp first).trans ((valid.exact v w).mp second))
  above _ _ _ child := (valid.exact _ _).mpr (.single (valid.spreadUp child))
  below _ _ _ child := (valid.exact _ _).mpr (.single (valid.spreadDown child))

/-- An insertion starts with no pair found. -/
theorem Valid.pairing (valid : forest.Valid) (src dst : Node) :
    DualGrowth.Pairing forest.ancestors forest.descendants src dst { forest } where
  ancestors := valid.ancestors
  descendants := valid.descendants
  walkedUp := .refl _ _
  walkedDown := .refl _ _
  mirrored := valid.mirrored
  keeps _ _ held := held
  sound _ _ held := .inl held
  growsUp _ _ _ child := child
  growsDown _ _ _ child := child
  childUp _ _ _ child := .inl child
  childDown _ _ _ child := .inl child
  distinct := List.nodup_nil
  found := by simp
  counted := rfl

/-- The forests once the start of an edge has a slot in its ancestor tree, and its end has one in its
descendant tree. -/
private def withRoots (forest : DualForest) (src dst : Node) : DualForest :=
  { forest with
    ancestors := (forest.ancestors.root src).1
    descendants := (forest.descendants.root dst).1 }

private theorem Valid.linked_withRoots (valid : forest.Valid) (src dst : Node) :
    (forest.withRoots src dst).Linked = forest.Linked := by
  funext u v
  exact propext ((Arena.root_rooted valid.descendants dst).1.child u u v)

private theorem Valid.withRoots (valid : forest.Valid) (src dst : Node) :
    (forest.withRoots src dst).Valid := by
  obtain ⟨rootedUp, -⟩ := Arena.root_rooted valid.ancestors src
  obtain ⟨rootedDown, -⟩ := Arena.root_rooted valid.descendants dst
  have linked := valid.linked_withRoots src dst
  exact
    { ancestors := rootedUp.valid
      descendants := rootedDown.valid
      mirrored := fun u v =>
        ((rootedUp.holds v u).trans (valid.mirrored u v)).trans (rootedDown.holds u v).symm
      spreadUp := fun child => linked ▸ valid.spreadUp ((rootedUp.child _ _ _).mp child)
      spreadDown := fun child => linked ▸ valid.spreadDown ((rootedDown.child _ _ _).mp child)
      linkedUp := fun link => (rootedUp.child _ _ _).mpr (valid.linkedUp (linked ▸ link))
      exact := fun u v => linked ▸ (rootedDown.holds u v).trans (valid.exact u v) }

/-- Where a closure stands when all walks of an insertion are over: the pairs that the edge makes are
known, and the edge itself is the only new link. -/
structure Walked (forest : DualForest) (src dst : Node) (growth : DualGrowth) : Prop where
  pairing : DualGrowth.Pairing forest.ancestors forest.descendants src dst growth
  holds : ∀ u v, growth.forest.descendants.holds u v ↔ forest.descendants.holds u v ∨
    (forest.descendants.holds u src ∧ forest.descendants.holds dst v)
  attachedUp : growth.forest.ancestors.Child dst dst src
  attachedDown : growth.forest.Linked src dst

theorem Valid.walked (valid : forest.Valid) {place target : Slot}
    (placedUp : forest.ancestors.place? src src = some place)
    (placedDown : forest.descendants.place? dst dst = some target)
    (unknown : ¬ forest.descendants.holds src dst) :
    Walked forest src dst (DualGrowth.pairDescendants forest.height dst place forest.height src target
      false { forest }) := by
  have deepUp : forest.ancestors.places.size + 1 ≤ forest.height := by
    simp only [height]
    omega
  have deepDown : forest.descendants.places.size + 1 ≤ forest.height := by
    simp only [height]
    omega
  obtain ⟨walked, arrived, attached⟩ := DualGrowth.pairDescendants_passesDown valid.settled placedUp
    ((Arena.shallow_places valid.ancestors placedUp).mono deepUp) forest.height src dst target false
    { forest } (valid.pairing src dst) (fun _ => .inr fun _ held => held)
    (fun source listed => (valid.mirrored source src).mp listed) placedDown
    ((Arena.shallow_places valid.descendants placedDown).mono deepDown) (.inl ⟨rfl, rfl⟩)
  obtain ⟨attachedUp, attachedDown⟩ := attached unknown
  exact ⟨walked.pairing, walked.holds_iff valid.settled (fun _ held => held) arrived, attachedUp,
    attachedDown⟩

theorem Walked.linked_iff {growth : DualGrowth} (walked : Walked forest src dst growth)
    (valid : forest.Valid) (u v : Node) :
    growth.forest.Linked u v ↔ WithEdge forest.Linked src dst u v := by
  constructor
  · intro link
    rcases walked.pairing.childDown u u v link with old | ⟨new, linked | copied⟩
    · exact .inl old
    · exact .inr linked
    · exact absurd (valid.settled.below _ _ _ copied) new
  · rintro (old | ⟨rfl, rfl⟩)
    · exact walked.pairing.growsDown u u v old
    · exact walked.attachedDown

theorem Walked.reaches_iff {growth : DualGrowth} (walked : Walked forest src dst growth)
    (valid : forest.Valid) (u v : Node) :
    ReflTransGen growth.forest.Linked u v ↔ ReflTransGen forest.Linked u v ∨
      (ReflTransGen forest.Linked u src ∧ ReflTransGen forest.Linked dst v) :=
  reflTransGen_of_withEdge (walked.linked_iff valid) u v

theorem Walked.valid {growth : DualGrowth} (walked : Walked forest src dst growth)
    (valid : forest.Valid) : growth.forest.Valid where
  ancestors := walked.pairing.ancestors
  descendants := walked.pairing.descendants
  mirrored := walked.pairing.mirrored
  spreadUp {root parent member} child := by
    refine (walked.linked_iff valid member parent).mpr ?_
    rcases walked.pairing.childUp _ _ _ child with old | ⟨-, ⟨rfl, rfl⟩ | copied⟩
    · exact .inl (valid.spreadUp old)
    · exact .inr ⟨rfl, rfl⟩
    · exact .inl (valid.spreadUp copied)
  spreadDown {root parent member} child := by
    refine (walked.linked_iff valid parent member).mpr ?_
    rcases walked.pairing.childDown _ _ _ child with old | ⟨-, linked | copied⟩
    · exact .inl (valid.spreadDown old)
    · exact .inr linked
    · exact .inl (valid.spreadDown copied)
  linkedUp {u v} link := by
    rcases (walked.linked_iff valid u v).mp link with old | ⟨rfl, rfl⟩
    · exact walked.pairing.growsUp _ _ _ (valid.linkedUp old)
    · exact walked.attachedUp
  exact u v := by
    rw [walked.holds, walked.reaches_iff valid, valid.exact, valid.exact, valid.exact]

theorem Walked.inserts {growth : DualGrowth} (walked : Walked forest src dst growth)
    (valid : forest.Valid) (unknown : ¬ forest.descendants.holds src dst) :
    Inserts forest.Linked src dst growth.forest.Linked growth.found.reverse := by
  refine ⟨fun u v link => ?_, walked.reaches_iff valid,
    List.nodup_reverse.mpr walked.pairing.distinct, fun u v => ?_⟩
  · refine ((walked.linked_iff valid u v).mp link).imp_right fun ⟨here, there⟩ => ⟨here, there, ?_⟩
    exact fun path => unknown ((valid.exact src dst).mpr path)
  · rw [List.mem_reverse, walked.pairing.found, (walked.valid valid).exact, valid.exact]

/-- Taking in an edge keeps a closure exact, reports the new pairs and counts them. -/
theorem insert_spec {forest : DualForest} (valid : forest.Valid) (src dst : Node) :
    (forest.insert src dst).1.Valid ∧
      Inserts forest.Linked src dst (forest.insert src dst).1.Linked (forest.insert src dst).2 ∧
      (forest.insert src dst).1.descendants.pairs =
        forest.descendants.pairs + (forest.insert src dst).2.length := by
  by_cases held : forest.descendants.holds src dst
  · have ran : forest.insert src dst = (forest, []) := by simp [insert, held]
    rw [ran]
    exact ⟨valid, .nothing ((valid.exact src dst).mp held), rfl⟩
  · have ran : forest.insert src dst =
        let ready := forest.withRoots src dst
        let growth := DualGrowth.pairDescendants ready.height dst (forest.ancestors.root src).2
          ready.height src (forest.descendants.root dst).2 false { forest := ready }
        (growth.forest, growth.found.reverse) := by
      simp [insert, held, DualForest.withRoots]
    obtain ⟨-, placedUp⟩ := Arena.root_rooted valid.ancestors src
    obtain ⟨rootedDown, placedDown⟩ := Arena.root_rooted valid.descendants dst
    have unknown := (not_congr (rootedDown.holds src dst)).mpr held
    have ready := valid.withRoots src dst
    have walked := ready.walked placedUp placedDown unknown
    rw [ran, ← valid.linked_withRoots src dst, ← Arena.pairs_root forest.descendants dst]
    exact ⟨walked.valid ready, walked.inserts ready unknown, by
      rw [List.length_reverse]
      exact walked.pairing.counted⟩

end DualForest

end GrammarReach
