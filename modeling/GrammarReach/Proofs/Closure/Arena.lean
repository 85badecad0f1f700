import Mathlib.Data.List.Basic
import Mathlib.Logic.Basic
import GrammarReach.Closure.Arena

/-!
Trees in one array, seen through two relations: which members a tree has, and which member lies right
below which. Growing one tree leaves every other tree alone, slot by slot, so a tree can be walked
while others grow.
-/

namespace GrammarReach.Arena

/-- In the tree of a root, a member lies right below another. -/
def Child (arena : Arena) (root parent member : Node) : Prop :=
  ∃ place slot, arena.place? root parent = some place ∧ slot ∈ arena.latestBelow place ∧
    arena.memberAt slot = member

/-- Places and slots fit: a slot belongs to one member of one tree, what lies below a slot was made
later and belongs to the same tree, and every member hangs below another one, up to the root. -/
structure Valid (arena : Arena) : Prop where
  placed : ∀ {root member : Node} {slot : Slot}, arena.place? root member = some slot →
    slot < arena.slots.size ∧ arena.memberAt slot = member
  owner : ∀ {root other member otherMember : Node} {slot : Slot},
    arena.place? root member = some slot → arena.place? other otherMember = some slot → root = other
  below : ∀ {root member : Node} {slot child : Slot}, arena.place? root member = some slot →
    child ∈ arena.latestBelow slot →
    slot < child ∧ arena.place? root (arena.memberAt child) = some child
  rooted : ∀ {root member : Node} {slot : Slot}, arena.place? root member = some slot →
    ∃ place, arena.place? root root = some place
  connected : ∀ {root member : Node} {slot : Slot}, arena.place? root member = some slot →
    member ≠ root → ∃ parent place, arena.place? root parent = some place ∧
      slot ∈ arena.latestBelow place

/-- A tree is the same in two arenas, slot by slot. -/
def SameTree (root : Node) (before after : Arena) : Prop :=
  ∀ member, after.place? root member = before.place? root member ∧
    ∀ slot, before.place? root member = some slot → after.latestBelow slot = before.latestBelow slot

theorem SameTree.refl (root : Node) (arena : Arena) : SameTree root arena arena :=
  fun _ => ⟨rfl, fun _ _ => rfl⟩

theorem SameTree.trans {root : Node} {first second third : Arena} (before : SameTree root first second)
    (after : SameTree root second third) : SameTree root first third := by
  intro member
  refine ⟨(after member).1.trans (before member).1, fun slot placed => ?_⟩
  rw [(after member).2 slot ((before member).1.trans placed), (before member).2 slot placed]

theorem holds_iff (arena : Arena) (root member : Node) :
    arena.holds root member ↔ root = member ∨ ∃ slot, arena.place? root member = some slot := by
  simp [holds, Option.isSome_iff_exists]

theorem holds_self (arena : Arena) (root : Node) : arena.holds root root :=
  (holds_iff arena root root).mpr (.inl rfl)

theorem SameTree.holds_iff {root : Node} {before after : Arena} (same : SameTree root before after)
    (member : Node) : after.holds root member ↔ before.holds root member := by
  rw [Arena.holds_iff, Arena.holds_iff, (same member).1]

variable {arena : Arena}

/-- What lies below a member is a member. -/
theorem Valid.child_placed (valid : arena.Valid) {root parent member : Node}
    (child : arena.Child root parent member) : ∃ slot, arena.place? root member = some slot := by
  obtain ⟨place, slot, placed, inside, rfl⟩ := child
  exact ⟨slot, (valid.below placed inside).2⟩

theorem Valid.child_holds (valid : arena.Valid) {root parent member : Node}
    (child : arena.Child root parent member) : arena.holds root member :=
  (holds_iff _ _ _).mpr (.inr (valid.child_placed child))

theorem SameTree.child_iff {before after : Arena} {root : Node} (same : SameTree root before after)
    (valid : before.Valid) (afterValid : after.Valid) (parent member : Node) :
    after.Child root parent member ↔ before.Child root parent member := by
  constructor
  · rintro ⟨place, slot, placed, inside, rfl⟩
    have here := (same parent).1 ▸ placed
    have inside' : slot ∈ before.latestBelow place := (same parent).2 place here ▸ inside
    have there := (valid.below here inside').2
    refine ⟨place, slot, here, inside', ?_⟩
    exact ((afterValid.placed (((same _).1).trans there)).2).symm
  · rintro ⟨place, slot, placed, inside, rfl⟩
    have there := (valid.below placed inside).2
    refine ⟨place, slot, ((same parent).1).trans placed, (same parent).2 place placed ▸ inside, ?_⟩
    exact (afterValid.placed (((same _).1).trans there)).2

/-- What lies right below a member sits in the slots below its own. -/
theorem child_iff_below {root parent : Node} {place : Slot}
    (placed : arena.place? root parent = some place) (member : Node) :
    arena.Child root parent member ↔ ∃ slot ∈ arena.below place, arena.memberAt slot = member := by
  simp [Child, below, placed]

theorem SameTree.below {before after : Arena} {root member : Node} {slot : Slot}
    (same : SameTree root before after) (placed : before.place? root member = some slot) :
    after.below slot = before.below slot := by
  rw [Arena.below, (same member).2 slot placed, Arena.below]

theorem SameTree.memberAt {before after : Arena} {root member : Node} {slot : Slot}
    (same : SameTree root before after) (valid : after.Valid)
    (placed : before.place? root member = some slot) : after.memberAt slot = member :=
  (valid.placed ((same member).1.trans placed)).2

/-- Every member of a tree is reached from the root, from member to member below. -/
theorem Valid.induction_below (valid : arena.Valid) {root : Node} {motive : Node → Prop}
    (start : motive root)
    (step : ∀ parent member, arena.holds root parent → arena.Child root parent member →
      motive parent → motive member)
    {member : Node} (held : arena.holds root member) : motive member := by
  rcases (holds_iff _ _ _).mp held with rfl | ⟨slot, placed⟩
  · exact start
  · induction slot using Nat.strongRecOn generalizing member with
    | ind slot ih =>
      by_cases same : member = root
      · exact same ▸ start
      · obtain ⟨parent, place, placedParent, inside⟩ := valid.connected placed same
        have above := (valid.below placedParent inside).1
        have heldParent := (holds_iff arena root parent).mpr (.inr ⟨place, placedParent⟩)
        refine step parent member heldParent ⟨place, slot, placedParent, inside, ?_⟩
          (ih place above heldParent placedParent)
        exact (valid.placed placed).2

theorem place?_empty (root member : Node) : empty.place? root member = none := by
  simp [place?, empty]

theorem holds_empty (root member : Node) : empty.holds root member ↔ root = member := by
  simp [holds, place?_empty]

theorem not_child_empty (root parent member : Node) : ¬ empty.Child root parent member := by
  rintro ⟨place, -, placed, -⟩
  simp [place?_empty] at placed

private theorem not_placed_empty (root member : Node) (slot : Slot) :
    empty.place? root member ≠ some slot := by
  simp [place?_empty]

theorem valid_empty : empty.Valid where
  placed placed := absurd placed (not_placed_empty _ _ _)
  owner placed := absurd placed (not_placed_empty _ _ _)
  below placed := absurd placed (not_placed_empty _ _ _)
  rooted placed := absurd placed (not_placed_empty _ _ _)
  connected placed := absurd placed (not_placed_empty _ _ _)

theorem place?_allot (arena : Arena) (root member other otherMember : Node) :
    (arena.allot root member).1.place? other otherMember =
      if otherMember = member ∧ other = root then some arena.slots.size
      else arena.place? other otherMember := by
  unfold place? allot
  dsimp only
  rw [Std.TreeMap.getElem?_insert]
  by_cases here : otherMember = member
  · subst here
    simp only [Std.LawfulEqCmp.compare_eq_iff_eq, if_true, Option.bind_some,
      Std.TreeMap.getElem?_insert, true_and]
    by_cases same : other = root
    · simp [same]
    · have differs : root ≠ other := Ne.symm same
      simp only [same, if_false, Std.TreeMap.getD_eq_getD_getElem?]
      cases arena.places[otherMember]? <;> simp [differs]
  · simp [here, Ne.symm here]

theorem memberAt_allot (arena : Arena) (root member : Node) (slot : Slot) :
    (arena.allot root member).1.memberAt slot =
      if slot = arena.slots.size then member else arena.memberAt slot := by
  unfold memberAt allot
  rw [Array.getElem?_push]
  split <;> rfl

theorem latestBelow_allot (arena : Arena) (root member : Node) (slot : Slot) :
    (arena.allot root member).1.latestBelow slot = arena.latestBelow slot := by
  unfold latestBelow allot
  rw [Array.getElem?_push]
  split
  · next last => simp [last]
  · rfl

theorem size_allot (arena : Arena) (root member : Node) :
    (arena.allot root member).1.slots.size = arena.slots.size + 1 := by
  simp [allot]

theorem memberAt_attach (arena : Arena) (parent child slot : Slot) :
    (arena.attach parent child).memberAt slot = arena.memberAt slot := by
  unfold memberAt attach
  rw [Array.getElem?_modify]
  split
  · cases arena.slots[slot]? <;> rfl
  · rfl

theorem latestBelow_attach (arena : Arena) {parent : Slot} (inside : parent < arena.slots.size)
    (child slot : Slot) :
    (arena.attach parent child).latestBelow slot =
      if slot = parent then child :: arena.latestBelow slot else arena.latestBelow slot := by
  unfold latestBelow attach
  rw [Array.getElem?_modify]
  by_cases same : slot = parent
  · subst same
    simp [inside]
  · simp [same, Ne.symm same]

/-- A slot may be made for a member of a tree: the member has none, and the slot goes below a place of
the same tree, or below none if it is the slot of the root. -/
structure Fits (arena : Arena) (root member : Node) (above : Option Slot) : Prop where
  unplaced : ∀ slot, arena.place? root member ≠ some slot
  atRoot : above = none → member = root
  home : ∀ place, above = some place → ∃ parent, arena.place? root parent = some place

/-- A slot has been made for a member of a tree, and put below another one: nothing else changes. -/
structure Allots (before after : Arena) (root member : Node) (above : Option Slot) : Prop where
  size : after.slots.size = before.slots.size + 1
  place? : ∀ other otherMember, after.place? other otherMember =
    if otherMember = member ∧ other = root then some before.slots.size
    else before.place? other otherMember
  memberAt : ∀ slot, after.memberAt slot =
    if slot = before.slots.size then member else before.memberAt slot
  latestBelow : ∀ slot, after.latestBelow slot =
    if above = some slot then before.slots.size :: before.latestBelow slot
    else before.latestBelow slot

theorem allots_allot (arena : Arena) (root member : Node) :
    Allots arena (arena.allot root member).1 root member none where
  size := size_allot arena root member
  place? := place?_allot arena root member
  memberAt := memberAt_allot arena root member
  latestBelow slot := by simp [latestBelow_allot]

theorem allots_allot_attach (arena : Arena) (root member : Node) {place : Slot}
    (inside : place < arena.slots.size) :
    Allots arena ((arena.allot root member).1.attach place arena.slots.size) root member
      (some place) where
  size := by simp [attach, size_allot]
  place? := place?_allot arena root member
  memberAt slot := by rw [memberAt_attach, memberAt_allot]
  latestBelow slot := by
    rw [latestBelow_attach _ (by rw [size_allot]; exact Nat.lt_succ_of_lt inside), latestBelow_allot]
    simp [eq_comm]

section Allots

variable {before after : Arena} {root member : Node} {above : Option Slot}

theorem Allots.new (allots : Allots before after root member above) :
    after.place? root member = some before.slots.size := by
  simp [allots.place?]

/-- A slot in the grown arena is the new one or was there. -/
theorem Allots.new_or_old (allots : Allots before after root member above) {other otherMember : Node}
    {slot : Slot} (placed : after.place? other otherMember = some slot) :
    (other = root ∧ otherMember = member ∧ slot = before.slots.size) ∨
      before.place? other otherMember = some slot := by
  rw [allots.place?] at placed
  split at placed
  · next here => exact .inl ⟨here.2, here.1, (Option.some.inj placed).symm⟩
  · exact .inr placed

theorem Allots.keeps (allots : Allots before after root member above)
    (fits : Fits before root member above) {other otherMember : Node} {slot : Slot}
    (placed : before.place? other otherMember = some slot) :
    after.place? other otherMember = some slot := by
  rw [allots.place?, if_neg]
  · exact placed
  · rintro ⟨rfl, rfl⟩
    exact fits.unplaced slot placed

theorem Allots.stands (allots : Allots before after root member above) (valid : before.Valid)
    {other otherMember : Node} {slot : Slot} (placed : before.place? other otherMember = some slot) :
    after.memberAt slot = otherMember := by
  rw [allots.memberAt, if_neg (Nat.ne_of_lt (valid.placed placed).1)]
  exact (valid.placed placed).2

theorem Allots.mem_latestBelow (allots : Allots before after root member above) (slot child : Slot) :
    child ∈ after.latestBelow slot ↔
      child ∈ before.latestBelow slot ∨ (above = some slot ∧ child = before.slots.size) := by
  rw [allots.latestBelow]
  split
  · next here => simp [here, or_comm]
  · next apart => simp [apart]

/-- What lies below a slot of the grown arena lay below it before, or is the new slot below its own
place. -/
theorem Allots.below (allots : Allots before after root member above) (valid : before.Valid)
    (fits : Fits before root member above) {other otherMember : Node} {slot child : Slot}
    (placed : after.place? other otherMember = some slot) (inside : child ∈ after.latestBelow slot) :
    before.place? other otherMember = some slot ∧
      (child ∈ before.latestBelow slot ∨
        (other = root ∧ above = some slot ∧ child = before.slots.size)) := by
  rcases allots.new_or_old placed with ⟨-, -, rfl⟩ | old
  · rcases (allots.mem_latestBelow _ _).mp inside with inside | ⟨here, -⟩
    · simp [Arena.latestBelow] at inside
    · obtain ⟨parent, home⟩ := fits.home _ here
      exact absurd (valid.placed home).1 (Nat.lt_irrefl _)
  · refine ⟨old, ((allots.mem_latestBelow _ _).mp inside).imp_right fun ⟨here, new⟩ => ?_⟩
    obtain ⟨parent, home⟩ := fits.home _ here
    exact ⟨valid.owner old home, here, new⟩

theorem Allots.valid (allots : Allots before after root member above) (valid : before.Valid)
    (fits : Fits before root member above) : after.Valid := by
  refine ⟨?placed, ?owner, ?below, ?rooted, ?connected⟩
  case placed =>
    intro other otherMember slot placed
    rw [allots.size]
    rcases allots.new_or_old placed with ⟨-, rfl, rfl⟩ | old
    · simp [allots.memberAt]
    · exact ⟨Nat.lt_succ_of_lt (valid.placed old).1, allots.stands valid old⟩
  case owner =>
    intro first second firstMember secondMember slot placed placed'
    rcases allots.new_or_old placed with ⟨rfl, -, rfl⟩ | old <;>
      rcases allots.new_or_old placed' with ⟨rfl, -, last⟩ | old'
    · rfl
    · exact absurd (valid.placed old').1 (Nat.lt_irrefl _)
    · exact absurd (last ▸ (valid.placed old).1) (Nat.lt_irrefl _)
    · exact valid.owner old old'
  case below =>
    intro other otherMember slot child placed inside
    obtain ⟨old, inside | ⟨rfl, -, rfl⟩⟩ := allots.below valid fits placed inside
    · obtain ⟨later, there⟩ := valid.below old inside
      rw [allots.stands valid there]
      exact ⟨later, allots.keeps fits there⟩
    · rw [allots.memberAt, if_pos rfl]
      exact ⟨(valid.placed old).1, allots.new⟩
  case rooted =>
    intro other otherMember slot placed
    rcases allots.new_or_old placed with ⟨rfl, rfl, -⟩ | old
    · cases above with
      | none => exact ⟨slot, fits.atRoot rfl ▸ placed⟩
      | some place =>
        obtain ⟨parent, home⟩ := fits.home place rfl
        exact (valid.rooted home).imp fun _ => allots.keeps fits
    · exact (valid.rooted old).imp fun _ => allots.keeps fits
  case connected =>
    intro other otherMember slot placed apart
    rcases allots.new_or_old placed with ⟨rfl, rfl, rfl⟩ | old
    · cases above with
      | none => exact absurd (fits.atRoot rfl) apart
      | some place =>
        obtain ⟨parent, home⟩ := fits.home place rfl
        exact ⟨parent, place, allots.keeps fits home,
          (allots.mem_latestBelow _ _).mpr (.inr ⟨rfl, rfl⟩)⟩
    · obtain ⟨parent, place, home, inside⟩ := valid.connected old apart
      exact ⟨parent, place, allots.keeps fits home, (allots.mem_latestBelow _ _).mpr (.inl inside)⟩

/-- The trees of other roots do not change. -/
theorem Allots.sameTree (allots : Allots before after root member above) (valid : before.Valid)
    (fits : Fits before root member above) {other : Node} (apart : other ≠ root) :
    SameTree other before after := by
  intro otherMember
  refine ⟨?_, fun slot placed => ?_⟩
  · rw [allots.place?, if_neg fun here => apart here.2]
  · rw [allots.latestBelow, if_neg]
    intro here
    obtain ⟨parent, home⟩ := fits.home slot here
    exact apart (valid.owner placed home)

theorem Allots.holds_iff (allots : Allots before after root member above) (other otherMember : Node) :
    after.holds other otherMember ↔
      before.holds other otherMember ∨ (other = root ∧ otherMember = member) := by
  rw [Arena.holds_iff, Arena.holds_iff, allots.place?]
  split
  · next here => simp [here.1, here.2]
  · next apart => exact (or_iff_left fun same => apart ⟨same.2, same.1⟩).symm

theorem Allots.child_iff (allots : Allots before after root member above) (valid : before.Valid)
    (fits : Fits before root member above) (other parent otherMember : Node) :
    after.Child other parent otherMember ↔ before.Child other parent otherMember ∨
      (other = root ∧ otherMember = member ∧
        ∃ place, above = some place ∧ before.place? root parent = some place) := by
  constructor
  · rintro ⟨place, slot, placed, inside, rfl⟩
    obtain ⟨old, inside | ⟨rfl, here, rfl⟩⟩ := allots.below valid fits placed inside
    · exact .inl ⟨place, slot, old, inside, (allots.stands valid (valid.below old inside).2).symm⟩
    · exact .inr ⟨rfl, by simp [allots.memberAt], place, here, old⟩
  · rintro (⟨place, slot, placed, inside, rfl⟩ | ⟨rfl, rfl, place, rfl, home⟩)
    · exact ⟨place, slot, allots.keeps fits placed, (allots.mem_latestBelow _ _).mpr (.inl inside),
        allots.stands valid (valid.below placed inside).2⟩
    · exact ⟨place, before.slots.size, allots.keeps fits home,
        (allots.mem_latestBelow _ _).mpr (.inr ⟨rfl, rfl⟩), by simp [allots.memberAt]⟩

end Allots

/-- The tree of a root once its root has a slot: nothing else changes. -/
structure Rooted (before after : Arena) (root : Node) : Prop where
  valid : after.Valid
  holds : ∀ other member, after.holds other member ↔ before.holds other member
  child : ∀ other parent member, after.Child other parent member ↔ before.Child other parent member
  same : ∀ other, other ≠ root → SameTree other before after
  kept : ∀ {member : Node} {slot : Slot}, before.place? root member = some slot →
    after.place? root member = some slot ∧ after.latestBelow slot = before.latestBelow slot

theorem root_rooted (valid : arena.Valid) (root : Node) :
    Rooted arena (arena.root root).1 root ∧
      (arena.root root).1.place? root root = some (arena.root root).2 := by
  unfold Arena.root
  cases placed : arena.place? root root with
  | some slot =>
    refine ⟨?_, placed⟩
    exact
      { valid := valid
        holds := fun _ _ => .rfl
        child := fun _ _ _ => .rfl
        same := fun _ _ => SameTree.refl _ _
        kept := fun placed => ⟨placed, rfl⟩ }
  | none =>
    have allots := allots_allot arena root root
    have fits : Fits arena root root none :=
      { unplaced := by simp [placed]
        atRoot := fun _ => rfl
        home := by simp }
    refine ⟨?_, allots.new⟩
    exact
      { valid := allots.valid valid fits
        holds := fun other member => by
          refine (allots.holds_iff other member).trans (or_iff_left_of_imp ?_)
          rintro ⟨rfl, rfl⟩
          exact arena.holds_self _
        child := fun other parent member => by simp [allots.child_iff valid fits]
        same := fun other apart => allots.sameTree valid fits apart
        kept := fun there => ⟨allots.keeps fits there, by simp [allots.latestBelow]⟩ }

/-- The slot of a root is not counted. -/
theorem pairs_root (arena : Arena) (root : Node) : (arena.root root).1.pairs = arena.pairs := by
  unfold Arena.root
  split <;> rfl

/-- A tree has received a new member below another one: nothing else changes. -/
structure Adopts (before after : Arena) (root parent member : Node) (slot : Slot) : Prop where
  valid : after.Valid
  holds : ∀ other otherMember, after.holds other otherMember ↔
    before.holds other otherMember ∨ (other = root ∧ otherMember = member)
  child : ∀ other otherParent otherMember, after.Child other otherParent otherMember ↔
    before.Child other otherParent otherMember ∨
      (other = root ∧ otherParent = parent ∧ otherMember = member)
  same : ∀ other, other ≠ root → SameTree other before after
  kept : ∀ {member : Node} {slot : Slot}, before.place? root member = some slot →
    after.place? root member = some slot
  placed : after.place? root member = some slot

theorem adopts_allot_attach (valid : arena.Valid) {root parent member : Node} {place : Slot}
    (absent : ¬ arena.holds root member) (above : arena.place? root parent = some place) :
    Adopts arena ((arena.allot root member).1.attach place arena.slots.size) root parent member
      arena.slots.size := by
  have allots := allots_allot_attach arena root member (valid.placed above).1
  have fits : Fits arena root member (some place) :=
    { unplaced := fun slot placed => absent ((holds_iff _ _ _).mpr (.inr ⟨slot, placed⟩))
      atRoot := by simp
      home := fun _ same => ⟨parent, Option.some.inj same ▸ above⟩ }
  have sole : ∀ other, (∃ there, some place = some there ∧ arena.place? root other = some there) ↔
      other = parent := by
    intro other
    constructor
    · rintro ⟨_, same, there⟩
      obtain rfl := Option.some.inj same
      rw [← (valid.placed there).2, (valid.placed above).2]
    · rintro rfl
      exact ⟨place, rfl, above⟩
  exact
    { valid := allots.valid valid fits
      holds := allots.holds_iff
      child := fun other otherParent otherMember => by
        rw [allots.child_iff valid fits, sole, and_comm (a := otherMember = member)]
      same := fun other apart => allots.sameTree valid fits apart
      kept := allots.keeps fits
      placed := allots.new }

theorem plant_of_holds (valid : arena.Valid) {root member : Node} (held : arena.holds root member) :
    arena.plant root member = ((arena.root root).1, none) := by
  have held' := ((root_rooted valid root).1.holds root member).mpr held
  simp [plant, held']

theorem plant_of_not_holds (valid : arena.Valid) {root member : Node}
    (absent : ¬ arena.holds root member) :
    arena.plant root member =
      ({ ((arena.root root).1.allot root member).1 with pairs := (arena.root root).1.pairs + 1 },
        some (arena.root root).1.slots.size) := by
  have absent' := (not_congr ((root_rooted valid root).1.holds root member)).mpr absent
  rw [Bool.not_eq_true] at absent'
  simp [plant, absent', allot]

/-- Only a member that is new is counted. -/
theorem pairs_plant (arena : Arena) (root member : Node) :
    (arena.plant root member).1.pairs =
      arena.pairs + if (arena.plant root member).2.isSome then 1 else 0 := by
  unfold plant
  by_cases held : (arena.root root).1.holds root member
  · simp [held, pairs_root]
  · simp [held, allot, pairs_root]

/-- Planting a new member and attaching its slot below a member of the same tree. -/
theorem adopts_plant_attach (valid : arena.Valid) {root parent member : Node} {place : Slot}
    (absent : ¬ arena.holds root member)
    (above : (arena.root root).1.place? root parent = some place) :
    ∃ planted slot, arena.plant root member = (planted, some slot) ∧
      Adopts (arena.root root).1 (planted.attach place slot) root parent member slot := by
  have rooted := (root_rooted valid root).1
  refine ⟨_, _, plant_of_not_holds valid absent, ?_⟩
  have absent' := (not_congr (rooted.holds root member)).mpr absent
  -- The count of pairs is no part of what the relations on the trees see.
  have adopts := adopts_allot_attach rooted.valid absent' above
  exact { adopts with valid := { adopts.valid with } }

/-- Making the slot of a root first is no part of what a new member changes. -/
theorem Rooted.adopts {before ready after : Arena} {root parent member : Node} {slot : Slot}
    (rooted : Rooted before ready root) (adopts : Adopts ready after root parent member slot) :
    Adopts before after root parent member slot where
  valid := adopts.valid
  holds other otherMember := by rw [adopts.holds, rooted.holds]
  child other otherParent otherMember := by rw [adopts.child, rooted.child]
  same other apart := (rooted.same other apart).trans (adopts.same other apart)
  kept placed := adopts.kept (rooted.kept placed).1
  placed := adopts.placed

/-- The slot of a root that has one is not made again. -/
theorem root_of_placed {root : Node} {place : Slot} (placed : arena.place? root root = some place) :
    arena.root root = (arena, place) := by
  simp [Arena.root, placed]

theorem mem_holders (arena : Arena) (member root : Node) :
    root ∈ arena.holders member ↔ root ≠ member ∧ ∃ slot, arena.place? root member = some slot := by
  unfold holders place?
  rw [List.mem_filter, Std.TreeMap.mem_keys, Std.TreeMap.getD_eq_getD_getElem?]
  cases arena.places[member]? with
  | none => simp
  | some row =>
    simp only [Option.getD_some, Option.bind_some, bne_iff_ne, ne_eq]
    rw [and_comm, Std.TreeMap.mem_iff_isSome_getElem?, Option.isSome_iff_exists]

/-- Everything below a slot is reached within fewer steps than the bound. -/
def Shallow (arena : Arena) : Nat → Slot → Prop
  | 0, _ => False
  | depth + 1, slot => ∀ child ∈ arena.latestBelow slot, Shallow arena depth child

theorem Shallow.mono {low : Nat} {slot : Slot} (shallow : arena.Shallow low slot) {high : Nat}
    (le : low ≤ high) : arena.Shallow high slot := by
  induction low generalizing slot high with
  | zero => exact absurd shallow id
  | succ low ih =>
    obtain ⟨high, rfl⟩ := Nat.exists_eq_succ_of_ne_zero (Nat.ne_of_gt (Nat.zero_lt_of_lt le))
    exact fun child inside => ih (shallow child inside) (Nat.le_of_succ_le_succ le)

theorem Shallow.of_sameTree {before after : Arena} {root : Node} (valid : before.Valid)
    (same : SameTree root before after) {depth : Nat} {member : Node} {slot : Slot}
    (placed : before.place? root member = some slot) (shallow : before.Shallow depth slot) :
    after.Shallow depth slot := by
  induction depth generalizing member slot with
  | zero => exact absurd shallow id
  | succ depth ih =>
    intro child inside
    rw [(same member).2 slot placed] at inside
    exact ih (valid.below placed inside).2 (shallow child inside)

/-- Whether a node sits in a tree at a slot or later. -/
private def sitsFrom (arena : Arena) (root : Node) (slot : Slot) (member : Node) : Bool :=
  (arena.place? root member).any (slot ≤ ·)

/-- The members along a path in a tree differ, so no path is longer than there are members. -/
theorem shallow_places (valid : arena.Valid) {root member : Node} {slot : Slot}
    (placed : arena.place? root member = some slot) : arena.Shallow (arena.places.size + 1) slot := by
  have listed : ∀ {member : Node} {slot : Slot}, arena.place? root member = some slot →
      member ∈ arena.places.keys.filter (arena.sitsFrom root slot) := by
    intro member slot placed
    refine List.mem_filter.mpr ⟨?_, by simp [sitsFrom, placed]⟩
    rw [Std.TreeMap.mem_keys, Std.TreeMap.mem_iff_isSome_getElem?]
    unfold place? at placed
    obtain ⟨row, found, -⟩ := Option.bind_eq_some_iff.mp placed
    simp [found]
  have bounded : ∀ (depth : Nat) {member : Node} {slot : Slot},
      arena.place? root member = some slot →
      (arena.places.keys.filter (arena.sitsFrom root slot)).length ≤ depth →
      arena.Shallow (depth + 1) slot := by
    intro depth
    induction depth with
    | zero =>
      intro member slot placed short
      have absurdity := listed placed
      rw [List.length_eq_zero_iff.mp (Nat.le_zero.mp short)] at absurdity
      exact absurd absurdity List.not_mem_nil
    | succ depth ih =>
      intro member slot placed short child inside
      obtain ⟨above, there⟩ := valid.below placed inside
      -- The member at the slot itself is counted for the slot, and no longer for what lies below it.
      have narrows : (arena.places.keys.filter (arena.sitsFrom root slot)).filter
          (arena.sitsFrom root child) = arena.places.keys.filter (arena.sitsFrom root child) := by
        rw [List.filter_filter]
        refine List.filter_congr fun other _ => ?_
        cases found : arena.place? root other with
        | none => simp [sitsFrom, found]
        | some place =>
          simp only [sitsFrom, found, Option.any_some, Bool.and_eq_left_iff_imp, decide_eq_true_eq]
          exact fun later => Nat.le_of_lt (Nat.lt_of_lt_of_le above later)
      have fewer : (arena.places.keys.filter (arena.sitsFrom root child)).length <
          (arena.places.keys.filter (arena.sitsFrom root slot)).length := by
        rw [← narrows, List.length_filter_lt_length_iff_exists]
        exact ⟨member, listed placed, by simp [sitsFrom, placed, above]⟩
      exact ih there (Nat.le_of_lt_succ (Nat.lt_of_lt_of_le fewer short))
  refine bounded _ placed ?_
  exact Nat.le_trans (List.length_filter_le _ _) (Nat.le_of_eq Std.TreeMap.length_keys)

/-- The root has the first slot of its tree. -/
theorem Valid.root_le (valid : arena.Valid) {root member : Node} {place slot : Slot}
    (rootPlaced : arena.place? root root = some place)
    (placed : arena.place? root member = some slot) : place ≤ slot := by
  induction slot using Nat.strongRecOn generalizing member with
  | ind slot ih =>
    by_cases same : member = root
    · subst same
      rw [rootPlaced] at placed
      exact Nat.le_of_eq (Option.some.inj placed)
    · obtain ⟨parent, above, placedParent, inside⟩ := valid.connected placed same
      have before := (valid.below placedParent inside).1
      exact Nat.le_trans (ih above before placedParent) (Nat.le_of_lt before)

/-- Nothing lies above a root. -/
theorem Valid.child_ne_root (valid : arena.Valid) {root parent member : Node}
    (child : arena.Child root parent member) : member ≠ root := by
  rintro rfl
  obtain ⟨place, slot, placed, inside, stands⟩ := child
  obtain ⟨before, there⟩ := valid.below placed inside
  rw [stands] at there
  exact absurd (valid.root_le there placed) (Nat.not_le.mpr before)

end GrammarReach.Arena
