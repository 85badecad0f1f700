import GrammarReach.Closure.Basic
import GrammarReach.Proofs.Closure.Arena

/-!
Every slot hangs in one place: it lies below one other slot at most, and is listed there once. Whatever
a closure of trees takes in, it puts only such slots below others as it has just made.
-/

namespace GrammarReach

namespace Arena

/-- No slot lies below two others, or below one twice. -/
structure Sole (arena : Arena) : Prop where
  made : ∀ slot, ∀ child ∈ arena.latestBelow slot, child < arena.slots.size
  distinct : ∀ slot, (arena.latestBelow slot).Nodup
  above : ∀ {slot other child : Slot}, child ∈ arena.latestBelow slot →
    child ∈ arena.latestBelow other → slot = other

/-- A slot has been made and lies below no other one. -/
structure Loose (arena : Arena) (slot : Slot) : Prop where
  made : slot < arena.slots.size
  free : ∀ above, slot ∉ arena.latestBelow above

variable {arena : Arena}

theorem sole_empty : empty.Sole := by
  have bare : ∀ slot, empty.latestBelow slot = [] := by simp [latestBelow, empty]
  refine ⟨fun slot => ?_, fun slot => ?_, fun {slot _ _} inside => ?_⟩
  · simp [bare]
  · simp [bare]
  · simp [bare] at inside

theorem Loose.allot {slot : Slot} (loose : arena.Loose slot) (root member : Node) :
    (arena.allot root member).1.Loose slot where
  made := by
    rw [size_allot]
    exact Nat.lt_succ_of_lt loose.made
  free above := by
    rw [latestBelow_allot]
    exact loose.free above

theorem Sole.allot (sole : arena.Sole) (root member : Node) :
    (arena.allot root member).1.Sole ∧ (arena.allot root member).1.Loose arena.slots.size := by
  have same := latestBelow_allot arena root member
  refine ⟨⟨fun slot child inside => ?_, fun slot => ?_, fun {slot other child} inside inside' => ?_⟩,
    ⟨?_, fun above inside => ?_⟩⟩
  · rw [same] at inside
    rw [size_allot]
    exact Nat.lt_succ_of_lt (sole.made slot child inside)
  · rw [same]
    exact sole.distinct slot
  · rw [same] at inside inside'
    exact sole.above inside inside'
  · rw [size_allot]
    exact Nat.lt_succ_self _
  · rw [same] at inside
    exact Nat.lt_irrefl _ (sole.made above _ inside)

theorem Sole.root (sole : arena.Sole) (root : Node) : (arena.root root).1.Sole := by
  unfold Arena.root
  split
  · exact sole
  · exact (sole.allot root root).1

theorem Loose.root {slot : Slot} (loose : arena.Loose slot) (root : Node) :
    (arena.root root).1.Loose slot := by
  unfold Arena.root
  split
  · exact loose
  · exact loose.allot root root

theorem Sole.plant (sole : arena.Sole) (root member : Node) :
    (arena.plant root member).1.Sole ∧
      ∀ slot, (arena.plant root member).2 = some slot → (arena.plant root member).1.Loose slot := by
  have ready := sole.root root
  unfold Arena.plant
  dsimp only
  split
  · exact ⟨ready, fun _ none => absurd none (by simp)⟩
  · obtain ⟨grown, loose⟩ := ready.allot root member
    refine ⟨⟨grown.made, grown.distinct, grown.above⟩, fun slot same => ?_⟩
    obtain rfl := Option.some.inj same
    exact ⟨loose.made, loose.free⟩

/-- Putting a slot below another leaves everything else where it is. -/
theorem latestBelow_attach_cases (arena : Arena) (parent child slot : Slot) :
    (arena.attach parent child).latestBelow slot = arena.latestBelow slot ∨
      (slot = parent ∧ (arena.attach parent child).latestBelow slot = child :: arena.latestBelow slot) := by
  by_cases inside : parent < arena.slots.size
  · rw [latestBelow_attach arena inside]
    by_cases same : slot = parent
    · exact .inr ⟨same, if_pos same⟩
    · exact .inl (if_neg same)
  · refine .inl ?_
    unfold latestBelow attach
    rw [Array.getElem?_modify]
    split
    · next same =>
      subst same
      rw [Array.getElem?_eq_none (Nat.not_lt.mp inside)]
      rfl
    · rfl

theorem Sole.attach (sole : arena.Sole) {child : Slot} (loose : arena.Loose child) (parent : Slot) :
    (arena.attach parent child).Sole := by
  have grows := latestBelow_attach_cases arena parent child
  have size : (arena.attach parent child).slots.size = arena.slots.size := by simp [Arena.attach]
  have old : ∀ {slot other : Slot}, other ∈ (arena.attach parent child).latestBelow slot →
      other ∈ arena.latestBelow slot ∨ (slot = parent ∧ other = child) := by
    intro slot other inside
    rcases grows slot with same | ⟨here, grown⟩
    · exact .inl (same ▸ inside)
    · rcases List.mem_cons.mp (grown ▸ inside) with new | inside
      · exact .inr ⟨here, new⟩
      · exact .inl inside
  refine ⟨fun slot other listed => ?_, fun slot => ?_, fun {slot slot' other} listed listed' => ?_⟩
  · rw [size]
    rcases old listed with inside | ⟨-, rfl⟩
    · exact sole.made slot other inside
    · exact loose.made
  · rcases grows slot with same | ⟨-, grown⟩
    · rw [same]
      exact sole.distinct slot
    · rw [grown]
      exact List.nodup_cons.mpr ⟨loose.free slot, sole.distinct slot⟩
  · rcases old listed, old listed' with ⟨inside | ⟨here, rfl⟩, inside' | ⟨here', new⟩⟩
    · exact sole.above inside inside'
    · exact absurd (new ▸ inside) (loose.free slot)
    · exact absurd inside' (loose.free slot')
    · rw [here, here']

end Arena

namespace DualGrowth

/-- In both forests, every slot hangs in one place. -/
def Sole (growth : DualGrowth) : Prop :=
  growth.forest.ancestors.Sole ∧ growth.forest.descendants.Sole

theorem sole_enter {arena : Arena} (sole : arena.Sole) (root member parent : Node) :
    (enter arena root member parent).1.Sole := by
  obtain ⟨planted, loose⟩ := sole.plant root member
  unfold enter
  split
  · next same =>
    rw [same] at planted
    exact planted
  · next grown slot same =>
    rw [same] at planted loose
    have free := loose slot rfl
    dsimp only at planted free ⊢
    obtain ⟨ready, stillFree⟩ : (placeOrRoot grown root parent).1.Sole ∧
        (placeOrRoot grown root parent).1.Loose slot := by
      unfold placeOrRoot
      split
      · exact ⟨planted, free⟩
      · exact ⟨planted.root root, free.root root⟩
    exact ready.attach stillFree _

variable {growth : DualGrowth}

theorem Sole.record (sole : growth.Sole) (via source origin target : Node) :
    (growth.record via source origin target).Sole := by
  have up := sole_enter sole.1 target source via
  have down := sole_enter sole.2 source target origin
  unfold DualGrowth.record
  dsimp only
  split
  · exact ⟨up, down⟩
  · exact ⟨up, sole.2⟩

theorem Sole.pairAncestors (origin target : Node) (depth : Nat) :
    ∀ {growth : DualGrowth}, growth.Sole → ∀ via place guarded,
      (pairAncestors origin target depth via place guarded growth).Sole := by
  induction depth with
  | zero => exact fun sole _ _ _ => sole
  | succ depth ih =>
    intro growth sole via place guarded
    unfold DualGrowth.pairAncestors
    dsimp only
    split
    · exact sole
    · refine List.foldlRecOn (motive := Sole) _ _ ?_ fun growth sole next _ => ih sole _ next true
      have ticked : growth.tick.Sole := sole
      exact ticked.record _ _ _ _

theorem Sole.pairDescendants (height : Nat) (via : Node) (place : Slot) (depth : Nat) :
    ∀ {growth : DualGrowth}, growth.Sole → ∀ origin target guarded,
      (pairDescendants height via place depth origin target guarded growth).Sole := by
  induction depth with
  | zero => exact fun sole _ _ _ => sole
  | succ depth ih =>
    intro growth sole origin target guarded
    unfold DualGrowth.pairDescendants
    dsimp only
    split
    · exact sole
    · refine List.foldlRecOn (motive := Sole) _ _ ?_ fun growth sole next _ => ih sole _ next true
      have ticked : growth.tick.Sole := sole
      exact Sole.pairAncestors _ _ height ticked via place false

end DualGrowth

namespace GraftGrowth

theorem sole_graft (root : Node) (depth : Nat) :
    ∀ {growth : GraftGrowth}, growth.forest.trees.Sole → ∀ parent subtree,
      (graft root depth parent subtree growth).forest.trees.Sole := by
  induction depth with
  | zero => exact fun sole _ _ => sole
  | succ depth ih =>
    intro growth sole parent subtree
    obtain ⟨planted, loose⟩ := sole.plant root (growth.forest.trees.memberAt subtree)
    unfold graft
    dsimp only
    split
    · next same =>
      rw [same] at planted
      exact planted
    · next trees copy same =>
      rw [same] at planted loose
      exact List.foldlRecOn (motive := fun growth : GraftGrowth => growth.forest.trees.Sole) _ _
        (planted.attach (loose copy rfl) parent) fun growth sole next _ => ih sole copy next

theorem sole_graftInto {growth : GraftGrowth} (sole : growth.forest.trees.Sole) (src : Node)
    (subtree : Slot) (root : Node) : (growth.graftInto src subtree root).forest.trees.Sole := by
  unfold graftInto
  dsimp only
  split
  · let rooted : GraftGrowth :=
      { growth with forest := { growth.forest with trees := (growth.forest.trees.root src).1 } }
    have ready : rooted.forest.trees.Sole := sole.root src
    exact sole_graft root _ ready _ _
  · split
    · exact sole
    · exact sole_graft root _ sole _ _

end GraftGrowth

namespace Closure

/-- In all trees of a closure, every slot hangs in one place. -/
def Sole : Closure → Prop
  | dual forest => forest.ancestors.Sole ∧ forest.descendants.Sole
  | graft forest => forest.trees.Sole
  | critical _ => True

theorem Sole.insert {closure : Closure} (sole : closure.Sole) (src dst : Node) :
    (closure.insert src dst).1.Sole := by
  cases closure with
  | critical graph => trivial
  | dual forest =>
    change (forest.insert src dst).1.ancestors.Sole ∧ (forest.insert src dst).1.descendants.Sole
    unfold DualForest.insert
    split
    · exact sole
    · have rooted : DualGrowth.Sole
          { forest := { forest with
              ancestors := (forest.ancestors.root src).1
              descendants := (forest.descendants.root dst).1 } } :=
        ⟨sole.1.root src, sole.2.root dst⟩
      exact rooted.pairDescendants _ _ _ _ _ _ _
  | graft forest =>
    change (forest.insert src dst).1.trees.Sole
    unfold GraftForest.insert GraftForest.addArc
    split
    · exact sole
    · dsimp only
      split
      · exact sole
      · exact List.foldlRecOn (motive := fun growth : GraftGrowth => growth.forest.trees.Sole) _ _
          (Arena.Sole.root sole dst) fun growth sole root _ => GraftGrowth.sole_graftInto sole src _ root

theorem sole_of_ofVariant? {variant : Variant} {closure : Closure}
    (made : ofVariant? variant = some closure) : closure.Sole := by
  cases variant with
  | standard => cases made
  | transitiveReduction => cases made
  | batchSemiNaive => cases made
  | pocr =>
    cases made
    exact ⟨Arena.sole_empty, Arena.sole_empty⟩
  | hierarchicalPocr =>
    cases made
    exact Arena.sole_empty
  | focr =>
    cases made
    trivial

end Closure

end GrammarReach
