import Mathlib.Data.List.Nodup
import GrammarReach.Closure.GraftForest
import GrammarReach.Proofs.Closure.Arena
import GrammarReach.Proofs.Closure.Reachability

/-!
The closure of one forest is exact: the tree of a node has exactly the nodes that the node reaches.

Grafting passes over what a tree has already, with everything below it. That loses nothing: a member
that was there before the graft has brought everything that it reaches, and one that the graft itself
has planted gets what lies below it in the tree that is copied.
-/

namespace GrammarReach

open Relation (ReflTransGen)

namespace GraftGrowth

/-- What copying a part of the tree of `stem` into the tree of `root` does: new members are planted,
below each other as in the copied tree, the topmost ones along `link`. -/
structure Sprouts (start : Arena) (stem root : Node) (link : Node → Node → Prop)
    (before after : GraftGrowth) (new : List Node) : Prop where
  valid : after.forest.trees.Valid
  found : after.found = new.map (fun member => (root, member)) ++ before.found
  distinct : new.Nodup
  fresh : ∀ member ∈ new, ¬ before.forest.trees.holds root member
  inside : ∀ member ∈ new, start.holds stem member
  holds : ∀ other member, after.forest.trees.holds other member ↔
    before.forest.trees.holds other member ∨ (other = root ∧ member ∈ new)
  grows : ∀ other parent member, before.forest.trees.Child other parent member →
    after.forest.trees.Child other parent member
  child : ∀ other parent member, after.forest.trees.Child other parent member →
    before.forest.trees.Child other parent member ∨
      (other = root ∧ member ∈ new ∧
        (link parent member ∨ (parent ∈ new ∧ start.Child stem parent member)))
  same : ∀ other, other ≠ root → Arena.SameTree other before.forest.trees after.forest.trees
  kept : ∀ {member : Node} {slot : Slot}, before.forest.trees.place? root member = some slot →
    after.forest.trees.place? root member = some slot

/-- Everything below a newly planted member has found its way into the tree. -/
def Covers (start : Arena) (stem root : Node) (after : GraftGrowth) (new : List Node) : Prop :=
  ∀ member ∈ new, ∀ below, start.Child stem member below → after.forest.trees.holds root below

variable {start : Arena} {stem root : Node}

theorem Sprouts.nothing {growth : GraftGrowth} (valid : growth.forest.trees.Valid)
    (link : Node → Node → Prop) : Sprouts start stem root link growth growth [] where
  valid := valid
  found := rfl
  distinct := List.nodup_nil
  fresh := by simp
  inside := by simp
  holds := by simp
  grows _ _ _ child := child
  child _ _ _ child := .inl child
  same _ _ := Arena.SameTree.refl _ _
  kept placed := placed

theorem Sprouts.trans {first second third : GraftGrowth} {link link' : Node → Node → Prop}
    {new new' : List Node} (before : Sprouts start stem root link first second new)
    (behind : Sprouts start stem root link' second third new') :
    Sprouts start stem root (fun parent member => link parent member ∨ link' parent member) first
      third (new' ++ new) where
  valid := behind.valid
  found := by rw [behind.found, before.found, List.map_append, List.append_assoc]
  distinct := by
    refine List.nodup_append.mpr ⟨behind.distinct, before.distinct, ?_⟩
    rintro member late _ early rfl
    exact behind.fresh member late ((before.holds root member).mpr (.inr ⟨rfl, early⟩))
  fresh := by
    intro member listed held
    rcases List.mem_append.mp listed with late | early
    · exact behind.fresh member late ((before.holds root member).mpr (.inl held))
    · exact before.fresh member early held
  inside := by
    intro member listed
    rcases List.mem_append.mp listed with late | early
    · exact behind.inside member late
    · exact before.inside member early
  holds other member := by
    rw [behind.holds, before.holds, List.mem_append]
    tauto
  grows other parent member child := behind.grows _ _ _ (before.grows _ _ _ child)
  child other parent member child := by
    simp only [List.mem_append]
    rcases behind.child _ _ _ child with child | ⟨here, late, linked⟩
    · rcases before.child _ _ _ child with child | ⟨here, early, linked⟩
      · exact .inl child
      · refine .inr ⟨here, .inr early, ?_⟩
        rcases linked with linked | ⟨above, copied⟩
        · exact .inl (.inl linked)
        · exact .inr ⟨.inr above, copied⟩
    · refine .inr ⟨here, .inl late, ?_⟩
      rcases linked with linked | ⟨above, copied⟩
      · exact .inl (.inr linked)
      · exact .inr ⟨.inl above, copied⟩
  same other apart := (before.same other apart).trans (behind.same other apart)
  kept placed := behind.kept (before.kept placed)

theorem Covers.mono {growth later : GraftGrowth} {new : List Node}
    (covers : Covers start stem root growth new)
    (grows : ∀ member, growth.forest.trees.holds root member → later.forest.trees.holds root member) :
    Covers start stem root later new :=
  fun member listed below child => grows below (covers member listed below child)

/-- What the topmost new members hang along may be told differently. -/
theorem Sprouts.relink {before after : GraftGrowth} {link link' : Node → Node → Prop}
    {new : List Node} (sprouts : Sprouts start stem root link before after new)
    (told : ∀ parent member, link parent member →
      link' parent member ∨ (parent ∈ new ∧ start.Child stem parent member)) :
    Sprouts start stem root link' before after new where
  valid := sprouts.valid
  found := sprouts.found
  distinct := sprouts.distinct
  fresh := sprouts.fresh
  inside := sprouts.inside
  holds := sprouts.holds
  grows := sprouts.grows
  child other parent member child :=
    (sprouts.child other parent member child).imp_right fun ⟨here, listed, linked⟩ =>
      ⟨here, listed, linked.elim (told parent member) .inr⟩
  same := sprouts.same
  kept := sprouts.kept

/-- A graft plants what is missing of a subtree. -/
structure Grafts (start : Arena) (stem root parent member : Node) (before after : GraftGrowth) :
    Prop where
  sprouts : ∃ new, Sprouts start stem root
      (fun above below => above = parent ∧ below = member) before after new ∧
    Covers start stem root after new
  arrived : after.forest.trees.holds root member
  attached : ¬ before.forest.trees.holds root member →
    after.forest.trees.Child root parent member

/-- Grafting a list of subtrees that lie right below a member that has just been planted. -/
private theorem foldl_grafts {member : Node} {depth : Nat} {copy : Slot}
    (graftOne : ∀ (growth : GraftGrowth) (below : Node) (subtree : Slot),
      growth.forest.trees.Valid → Arena.SameTree stem start growth.forest.trees →
      growth.forest.trees.place? root member = some copy →
      start.place? stem below = some subtree → start.Shallow depth subtree →
      Grafts start stem root member below growth (graft root depth copy subtree growth))
    (apart : stem ≠ root) (subtrees : List Slot)
    (placed : ∀ slot ∈ subtrees, start.Child stem member (start.memberAt slot) ∧
      start.place? stem (start.memberAt slot) = some slot ∧ start.Shallow depth slot)
    (growth : GraftGrowth) (valid : growth.forest.trees.Valid)
    (same : Arena.SameTree stem start growth.forest.trees)
    (copied : growth.forest.trees.place? root member = some copy) :
    let after := subtrees.foldl (fun growth next => graft root depth copy next growth) growth
    ∃ new, Sprouts start stem root
        (fun above below => above = member ∧ start.Child stem member below) growth after new ∧
      Covers start stem root after new ∧
      ∀ slot ∈ subtrees, after.forest.trees.holds root (start.memberAt slot) := by
  induction subtrees generalizing growth with
  | nil => exact ⟨[], Sprouts.nothing valid _, by simp [Covers], by simp⟩
  | cons slot slots ih =>
    obtain ⟨child, there, shallow⟩ := placed slot (by simp)
    have one := graftOne growth (start.memberAt slot) slot valid same copied there shallow
    obtain ⟨new, sprouts, covers⟩ := one.sprouts
    obtain ⟨new', sprouts', covers', arrived'⟩ := ih
      (fun slot listed => placed slot (List.mem_cons_of_mem _ listed))
      (graft root depth copy slot growth) sprouts.valid (same.trans (sprouts.same stem apart))
      (sprouts.kept copied)
    have stays : ∀ other, (graft root depth copy slot growth).forest.trees.holds root other →
        (slots.foldl (fun growth next => graft root depth copy next growth)
          (graft root depth copy slot growth)).forest.trees.holds root other :=
      fun other held => (sprouts'.holds root other).mpr (.inl held)
    refine ⟨new' ++ new, (sprouts.trans sprouts').relink fun parent below linked => .inl ?_, ?_, ?_⟩
    · rcases linked with ⟨rfl, rfl⟩ | linked
      · exact ⟨rfl, child⟩
      · exact linked
    · intro other listed
      rcases List.mem_append.mp listed with late | early
      · exact covers' other late
      · exact (covers.mono stays) other early
    · intro other listed
      rcases List.mem_cons.mp listed with rfl | listed
      · exact stays _ one.arrived
      · exact arrived' other listed

/-- Grafting what the tree has already makes a slot for its root at most. -/
private theorem graft_of_holds (depth : Nat) {growth : GraftGrowth} {member : Node} {subtree : Slot}
    (valid : growth.forest.trees.Valid) (stands : growth.forest.trees.memberAt subtree = member)
    (held : growth.forest.trees.holds root member) (parent : Node) (place : Slot) :
    Grafts start stem root parent member growth (graft root (depth + 1) place subtree growth) := by
  have rooted := (Arena.root_rooted valid root).1
  have ran : graft root (depth + 1) place subtree growth =
      { growth with forest :=
        { trees := (growth.forest.trees.root root).1, checks := growth.forest.checks + 1 } } := by
    simp [graft, stands, Arena.plant_of_holds valid held]
  rw [ran]
  have nothing : Sprouts start stem root (fun above below => above = parent ∧ below = member) growth
      { growth with forest :=
        { trees := (growth.forest.trees.root root).1, checks := growth.forest.checks + 1 } } [] :=
    { valid := rooted.valid
      found := rfl
      distinct := List.nodup_nil
      fresh := by simp
      inside := by simp
      holds := fun other otherMember => by simp [rooted.holds]
      grows := fun other above below child => (rooted.child _ _ _).mpr child
      child := fun other above below child => .inl ((rooted.child _ _ _).mp child)
      same := rooted.same
      kept := fun placed => (rooted.kept placed).1 }
  exact
    { sprouts := ⟨[], nothing, by simp [Covers]⟩
      arrived := (rooted.holds root member).mpr held
      attached := fun absent => absurd held absent }

/-- Planting the topmost member of a subtree. -/
private theorem sprouts_of_adopts {growth grown : GraftGrowth} {parent member : Node} {copy : Slot}
    (adopts : Arena.Adopts growth.forest.trees grown.forest.trees root parent member copy)
    (found : grown.found = (root, member) :: growth.found)
    (absent : ¬ growth.forest.trees.holds root member) (inside : start.holds stem member) :
    Sprouts start stem root (fun above below => above = parent ∧ below = member) growth grown
      [member] where
  valid := adopts.valid
  found := found
  distinct := List.nodup_singleton _
  fresh := by simpa using absent
  inside := by simpa using inside
  holds other otherMember := by rw [adopts.holds, List.mem_singleton]
  grows other above below child := (adopts.child _ _ _).mpr (.inl child)
  child other above below child := by
    rcases (adopts.child _ _ _).mp child with old | ⟨rfl, rfl, rfl⟩
    · exact .inl old
    · exact .inr ⟨rfl, List.mem_singleton_self _, .inl ⟨rfl, rfl⟩⟩
  same := adopts.same
  kept placed := adopts.kept placed

/-- Grafting a subtree of one tree into another tree. -/
theorem graft_grafts (startValid : start.Valid) (apart : stem ≠ root) (depth : Nat) :
    ∀ (growth : GraftGrowth) (parent member : Node) (place subtree : Slot),
      growth.forest.trees.Valid → Arena.SameTree stem start growth.forest.trees →
      growth.forest.trees.place? root parent = some place →
      start.place? stem member = some subtree → start.Shallow depth subtree →
      Grafts start stem root parent member growth (graft root depth place subtree growth) := by
  induction depth with
  | zero => exact fun _ _ _ _ _ _ _ _ _ shallow => absurd shallow id
  | succ depth ih =>
    intro growth parent member place subtree valid same above there shallow
    have stands := same.memberAt valid there
    by_cases held : growth.forest.trees.holds root member
    · exact graft_of_holds depth valid stands held parent place
    · have rooted := (Arena.root_rooted valid root).1
      obtain ⟨planted, copy, plantedIs, adoptsReady⟩ :=
        Arena.adopts_plant_attach valid held (rooted.kept above).1
      have adopts := rooted.adopts adoptsReady
      -- The state in which the member itself has been planted and nothing below it has.
      let grown : GraftGrowth :=
        { forest := { trees := planted.attach place copy, checks := growth.forest.checks + 1 }
          found := (root, member) :: growth.found }
      have sameGrown : Arena.SameTree stem start grown.forest.trees :=
        same.trans (adopts.same stem apart)
      have ran : graft root (depth + 1) place subtree growth =
          (start.below subtree).foldl (fun growth next => graft root depth copy next growth)
            grown := by
        rw [← sameGrown.below there]
        simp [graft, stands, plantedIs, grown]
      have first : Sprouts start stem root (fun above below => above = parent ∧ below = member)
          growth grown [member] :=
        sprouts_of_adopts adopts rfl held ((start.holds_iff stem member).mpr (.inr ⟨subtree, there⟩))
      have placedBelow : ∀ slot ∈ start.below subtree,
          start.Child stem member (start.memberAt slot) ∧
          start.place? stem (start.memberAt slot) = some slot ∧ start.Shallow depth slot := by
        intro slot listed
        have inside : slot ∈ start.latestBelow subtree := List.mem_reverse.mp listed
        exact ⟨⟨subtree, slot, there, inside, rfl⟩, (startValid.below there inside).2,
          shallow slot inside⟩
      obtain ⟨new, sprouts, covers, arrived⟩ := foldl_grafts
        (fun growth below subtree valid same copied there shallow =>
          ih growth member below copy subtree valid same copied there shallow)
        apart (start.below subtree) placedBelow grown adopts.valid sameGrown adopts.placed
      rw [← ran] at sprouts covers arrived
      refine ⟨⟨new ++ [member], (first.trans sprouts).relink fun above below linked => ?_,
        fun other listed below child => ?_⟩, ?_, fun _ => ?_⟩
      · rcases linked with linked | ⟨rfl, child⟩
        · exact .inl linked
        · exact .inr ⟨by simp, child⟩
      · rcases List.mem_append.mp listed with late | early
        · exact covers other late below child
        · obtain rfl := List.mem_singleton.mp early
          obtain ⟨slot, listed, rfl⟩ := (Arena.child_iff_below there below).mp child
          exact arrived slot listed
      · exact (sprouts.holds root member).mpr (.inl ((first.holds root member).mpr (.inr (by simp))))
      · exact sprouts.grows _ _ _ ((adopts.child _ _ _).mpr (.inr ⟨rfl, rfl, rfl⟩))

/-- Some trees have received everything in the tree of `dst` below their member `src`. -/
structure Spread (start : Arena) (src dst : Node) (done : List Node) (growth : GraftGrowth) :
    Prop where
  valid : growth.forest.trees.Valid
  stem : Arena.SameTree dst start growth.forest.trees
  untouched : ∀ root, root ∉ done → Arena.SameTree root start growth.forest.trees
  holds : ∀ root member, growth.forest.trees.holds root member ↔
    start.holds root member ∨ (root ∈ done ∧ start.holds dst member)
  grows : ∀ root parent member, start.Child root parent member →
    growth.forest.trees.Child root parent member
  child : ∀ root parent member, growth.forest.trees.Child root parent member →
    start.Child root parent member ∨ (root ∈ done ∧ ¬ start.holds root member ∧
      ((parent = src ∧ member = dst) ∨ (¬ start.holds root parent ∧ start.Child dst parent member)))
  distinct : growth.found.Nodup
  found : ∀ root member, (root, member) ∈ growth.found ↔
    root ∈ done ∧ start.holds dst member ∧ ¬ start.holds root member
  attached : src ∈ done → growth.forest.trees.Child src src dst

/-- A tree whose root is `dst` itself gains nothing. -/
private theorem Spread.skip {src dst : Node} {done : List Node} {growth after : GraftGrowth}
    (spread : Spread start src dst done growth) (apart : src ≠ dst)
    (trees : after.forest.trees = growth.forest.trees) (found : after.found = growth.found) :
    Spread start src dst (dst :: done) after where
  valid := trees ▸ spread.valid
  stem := trees ▸ spread.stem
  untouched root absent := trees ▸ spread.untouched root fun listed => absent (by simp [listed])
  holds root member := by
    rw [trees, spread.holds, List.mem_cons]
    constructor
    · rintro (old | ⟨listed, held⟩)
      · exact .inl old
      · exact .inr ⟨.inr listed, held⟩
    · rintro (old | ⟨rfl | listed, held⟩)
      · exact .inl old
      · exact .inl held
      · exact .inr ⟨listed, held⟩
  grows root parent member child := trees ▸ spread.grows root parent member child
  child root parent member child := by
    rw [trees] at child
    rcases spread.child root parent member child with old | ⟨listed, rest⟩
    · exact .inl old
    · exact .inr ⟨List.mem_cons_of_mem _ listed, rest⟩
  distinct := found ▸ spread.distinct
  found root member := by
    rw [found, spread.found, List.mem_cons]
    constructor
    · rintro ⟨listed, rest⟩
      exact ⟨.inr listed, rest⟩
    · rintro ⟨rfl | listed, held, absent⟩
      · exact absurd held absent
      · exact ⟨listed, held, absent⟩
  attached listed := by
    rcases List.mem_cons.mp listed with same | listed
    · exact absurd same apart
    · exact trees ▸ spread.attached listed

/-- Into a tree that has everything below its members, a graft plants just what the tree lacks. -/
private theorem mem_planted {link : Node → Node → Prop} {ready after : GraftGrowth} {dst root : Node}
    {planted : List Node} (startValid : start.Valid) (readyValid : ready.forest.trees.Valid)
    (stem : Arena.SameTree dst start ready.forest.trees)
    (before : ∀ member, ready.forest.trees.holds root member ↔ start.holds root member)
    (closed : ∀ parent member, start.holds root parent → start.Child dst parent member →
      start.holds root member)
    (sprouts : Sprouts ready.forest.trees dst root link ready after planted)
    (covers : Covers ready.forest.trees dst root after planted)
    (arrived : after.forest.trees.holds root dst) (member : Node) :
    member ∈ planted ↔ start.holds dst member ∧ ¬ start.holds root member := by
  have complete : start.holds dst member → after.forest.trees.holds root member := by
    intro held
    refine readyValid.induction_below (motive := fun member => after.forest.trees.holds root member)
      arrived ?_ ((stem.holds_iff member).mpr held)
    intro parent member _ child above
    rcases (sprouts.holds root parent).mp above with old | ⟨-, listed⟩
    · have kept := closed parent member ((before parent).mp old)
        ((stem.child_iff startValid readyValid parent member).mp child)
      exact (sprouts.holds root member).mpr (.inl ((before member).mpr kept))
    · exact covers parent listed member child
  constructor
  · exact fun listed => ⟨(stem.holds_iff member).mp (sprouts.inside member listed),
      fun held => sprouts.fresh member listed ((before member).mpr held)⟩
  · rintro ⟨held, lacks⟩
    rcases (sprouts.holds root member).mp (complete held) with old | ⟨-, listed⟩
    · exact absurd ((before member).mp old) lacks
    · exact listed

/-- What is reported for one more tree is reported once. -/
private theorem Spread.distinct_planted {src dst root : Node} {done planted : List Node}
    {growth : GraftGrowth} (spread : Spread start src dst done growth) (new : root ∉ done)
    (distinct : planted.Nodup) : (planted.map (root, ·) ++ growth.found).Nodup := by
  refine List.nodup_append.mpr ⟨distinct.map fun _ _ same => (Prod.mk.inj same).2, spread.distinct, ?_⟩
  rintro ⟨other, member⟩ late _ early rfl
  obtain ⟨_, -, same⟩ := List.mem_map.mp late
  obtain ⟨rfl, rfl⟩ := Prod.mk.inj same
  exact new ((spread.found _ _).mp early).1

/-- What has been reported once one more tree is done. -/
private theorem Spread.mem_planted_found {src dst root : Node} {done planted : List Node}
    {growth : GraftGrowth} (spread : Spread start src dst done growth)
    (plantedIff : ∀ member, member ∈ planted ↔ start.holds dst member ∧ ¬ start.holds root member)
    (other member : Node) :
    (other, member) ∈ planted.map (root, ·) ++ growth.found ↔
      other ∈ root :: done ∧ start.holds dst member ∧ ¬ start.holds other member := by
  rw [List.mem_append, spread.found, List.mem_map, List.mem_cons]
  constructor
  · rintro (⟨_, listed, same⟩ | ⟨listed, rest⟩)
    · obtain ⟨rfl, rfl⟩ := Prod.mk.inj same
      exact ⟨.inl rfl, (plantedIff _).mp listed⟩
    · exact ⟨.inr listed, rest⟩
  · rintro ⟨rfl | listed, rest⟩
    · exact .inl ⟨member, (plantedIff member).mpr rest, rfl⟩
    · exact .inr ⟨listed, rest⟩

/-- One more tree receives everything in the tree of `dst`. -/
private theorem Spread.graft {src dst root : Node} {done : List Node}
    {growth after : GraftGrowth} (ready : GraftGrowth) (startValid : start.Valid)
    (closed : ∀ root parent member, start.holds root parent → start.Child dst parent member →
      start.holds root member)
    (spread : Spread start src dst done growth) (new : root ∉ done) (apart : dst ≠ root)
    (holdsSrc : start.holds root src) (found : ready.found = growth.found)
    (rooted : Arena.Rooted growth.forest.trees ready.forest.trees root)
    (grafts : Grafts ready.forest.trees dst root src dst ready after)
    (absent : root = src → ¬ start.holds src dst) :
    Spread start src dst (root :: done) after := by
  obtain ⟨⟨planted, sprouts, covers⟩, arrived, attached⟩ := grafts
  have before : ∀ member, ready.forest.trees.holds root member ↔ start.holds root member := by
    intro member
    rw [rooted.holds, spread.holds, or_iff_left fun absurdity => new absurdity.1]
  have stem := spread.stem.trans (rooted.same dst apart)
  have plantedIff := mem_planted startValid rooted.valid stem before (closed root) sprouts covers arrived
  have report : after.found = planted.map (root, ·) ++ growth.found := by rw [sprouts.found, found]
  exact
    { valid := sprouts.valid
      stem := stem.trans (sprouts.same dst apart)
      untouched := by
        intro other absentOther
        rw [List.mem_cons, not_or] at absentOther
        exact ((spread.untouched other absentOther.2).trans (rooted.same other absentOther.1)).trans
          (sprouts.same other absentOther.1)
      holds := by
        intro other member
        rw [sprouts.holds, rooted.holds, spread.holds, List.mem_cons, plantedIff]
        constructor
        · rintro ((old | ⟨listed, held⟩) | ⟨rfl, held, -⟩)
          · exact .inl old
          · exact .inr ⟨.inr listed, held⟩
          · exact .inr ⟨.inl rfl, held⟩
        · rintro (old | ⟨rfl | listed, held⟩)
          · exact .inl (.inl old)
          · by_cases old : start.holds other member
            · exact .inl (.inl old)
            · exact .inr ⟨rfl, held, old⟩
          · exact .inl (.inr ⟨listed, held⟩)
      grows := fun other parent member child =>
        sprouts.grows _ _ _ ((rooted.child _ _ _).mpr (spread.grows _ _ _ child))
      child := by
        intro other parent member child
        rcases sprouts.child _ _ _ child with old | ⟨rfl, listed, linked⟩
        · rcases spread.child _ _ _ ((rooted.child _ _ _).mp old) with old | ⟨listed, rest⟩
          · exact .inl old
          · exact .inr ⟨List.mem_cons_of_mem _ listed, rest⟩
        · refine .inr ⟨List.mem_cons_self, ((plantedIff member).mp listed).2, ?_⟩
          rcases linked with linked | ⟨above, copied⟩
          · exact .inl linked
          · exact .inr ⟨((plantedIff parent).mp above).2,
              (stem.child_iff startValid rooted.valid parent member).mp copied⟩
      distinct := report ▸ spread.distinct_planted new sprouts.distinct
      found := report ▸ spread.mem_planted_found plantedIff
      attached := by
        intro listed
        rcases List.mem_cons.mp listed with rfl | listed
        · exact attached fun held => absent rfl ((before dst).mp held)
        · exact sprouts.grows _ _ _ ((rooted.child _ _ _).mpr (spread.attached listed)) }

private theorem graftInto_spread {src dst root : Node} {subtree : Slot} {done : List Node}
    {growth : GraftGrowth} (startValid : start.Valid)
    (closed : ∀ root parent member, start.holds root parent → start.Child dst parent member →
      start.holds root member)
    (spread : Spread start src dst done growth) (new : root ∉ done)
    (holdsSrc : start.holds root src) (absent : ¬ start.holds src dst)
    (there : start.place? dst dst = some subtree) :
    Spread start src dst (root :: done) (graftInto src subtree growth root) := by
  have srcApart : src ≠ dst := by
    rintro rfl
    exact absent (start.holds_self src)
  by_cases own : root = src
  · subst own
    obtain ⟨rooted, placed⟩ := Arena.root_rooted spread.valid root
    have grafts := graft_grafts rooted.valid srcApart.symm
      (growth.forest.trees.places.size + 1)
      { growth with forest := { growth.forest with trees := (growth.forest.trees.root root).1 } }
      root dst (growth.forest.trees.root root).2 subtree rooted.valid (Arena.SameTree.refl _ _) placed
    have stemPlaced := ((spread.stem.trans (rooted.same dst srcApart.symm)) dst).1.trans there
    refine spread.graft
      { growth with forest := { growth.forest with trees := (growth.forest.trees.root root).1 } }
      startValid closed new srcApart.symm holdsSrc rfl rooted ?_ fun _ => absent
    have shallow := Arena.shallow_places spread.valid ((spread.stem dst).1.trans there)
    unfold graftInto
    rw [if_pos rfl]
    exact grafts stemPlaced (shallow.of_sameTree spread.valid (rooted.same dst srcApart.symm)
      ((spread.stem dst).1.trans there))
  · have untouched := spread.untouched root new
    obtain same | ⟨place, placed⟩ := (start.holds_iff root src).mp holdsSrc
    · exact absurd same own
    · have placed' := (untouched src).1.trans placed
      have there' := (spread.stem dst).1.trans there
      by_cases stem : root = dst
      · subst stem
        refine spread.skip srcApart ?_ ?_ <;>
        · have stands := (spread.valid.placed there').2
          have unchanged := Arena.root_of_placed there'
          simp [graftInto, own, placed', GraftGrowth.graft, stands,
            Arena.plant_of_holds spread.valid (Arena.holds_self _ root), unchanged]
      · refine spread.graft growth startValid closed new (Ne.symm stem) holdsSrc rfl
          ⟨spread.valid, fun _ _ => .rfl, fun _ _ _ => .rfl, fun _ _ => Arena.SameTree.refl _ _,
            fun placed => ⟨placed, rfl⟩⟩ ?_ fun same => absurd same own
        have ran : graftInto src subtree growth root =
            GraftGrowth.graft root (growth.forest.trees.places.size + 1) place subtree growth := by
          simp [graftInto, own, placed']
        rw [ran]
        exact graft_grafts spread.valid (Ne.symm stem) _ growth src dst place subtree spread.valid
          (Arena.SameTree.refl _ _) placed' there' (Arena.shallow_places spread.valid there')

/-- All trees that have `src` as a member receive everything in the tree of `dst`. -/
theorem foldl_graftInto {src dst : Node} {subtree : Slot} (startValid : start.Valid)
    (closed : ∀ root parent member, start.holds root parent → start.Child dst parent member →
      start.holds root member)
    (absent : ¬ start.holds src dst) (there : start.place? dst dst = some subtree)
    (roots : List Node) (distinct : roots.Nodup) (holdsSrc : ∀ root ∈ roots, start.holds root src)
    (done : List Node) (growth : GraftGrowth) (new : ∀ root ∈ roots, root ∉ done)
    (spread : Spread start src dst done growth) :
    Spread start src dst (roots.reverse ++ done)
      (roots.foldl (graftInto src subtree) growth) := by
  induction roots generalizing done growth with
  | nil => exact spread
  | cons root roots ih =>
    obtain ⟨alone, rest⟩ := List.nodup_cons.mp distinct
    have one := graftInto_spread startValid closed spread (new root (by simp))
      (holdsSrc root (by simp)) absent there
    have all := ih rest (fun root listed => holdsSrc root (List.mem_cons_of_mem _ listed))
      (root :: done) _ (by
        intro other listed
        rw [List.mem_cons, not_or]
        refine ⟨?_, new other (List.mem_cons_of_mem _ listed)⟩
        rintro rfl
        exact alone listed) one
    rwa [List.reverse_cons, List.append_assoc]

/-- The pairs counted are those of the forest before and the ones found since. -/
def Counts (total : Nat) (growth : GraftGrowth) : Prop :=
  growth.forest.trees.pairs = total + growth.found.length

theorem Counts.graft {total : Nat} (root : Node) (depth : Nat) :
    ∀ {growth : GraftGrowth}, Counts total growth → ∀ parent subtree,
      Counts total (graft root depth parent subtree growth) := by
  induction depth with
  | zero => exact fun counts _ _ => counts
  | succ depth ih =>
    intro growth counts parent subtree
    have planted := growth.forest.trees.pairs_plant root (growth.forest.trees.memberAt subtree)
    unfold GraftGrowth.graft
    dsimp only
    split
    · next held =>
      rw [held] at planted
      exact planted.trans counts
    · next trees copy new =>
      rw [new] at planted
      refine List.foldlRecOn (motive := Counts total) _ _ ?_ fun growth counts next _ =>
        ih counts copy next
      exact planted.trans (congrArg (· + 1) counts)

theorem Counts.graftInto {total : Nat} {growth : GraftGrowth} (counts : Counts total growth) (src : Node)
    (subtree : Slot) (root : Node) : Counts total (growth.graftInto src subtree root) := by
  unfold GraftGrowth.graftInto
  dsimp only
  split
  · refine Counts.graft root _ ?_ _ _
    exact (Arena.pairs_root _ _).trans counts
  · split
    · exact counts
    · exact Counts.graft root _ counts _ _

end GraftGrowth

namespace GraftForest

/-- A node leads right on to another: the other one lies right below it in its own tree. -/
def Linked (forest : GraftForest) (src dst : Node) : Prop := forest.trees.Child src src dst

/-- Whatever lies right below a node in some tree is linked to it, and the tree of a node has exactly
what the links lead to. -/
structure Valid (forest : GraftForest) : Prop where
  trees : forest.trees.Valid
  spread : ∀ {root parent member : Node}, forest.trees.Child root parent member →
    forest.Linked parent member
  exact : ∀ src dst, forest.trees.holds src dst ↔ ReflTransGen forest.Linked src dst

theorem valid_empty : empty.Valid := by
  refine ⟨Arena.valid_empty, fun child => absurd child (Arena.not_child_empty _ _ _),
    fun src dst => ?_⟩
  have unlinked : ∀ node, ¬ empty.Linked src node := fun _ => Arena.not_child_empty _ _ _
  rw [Relation.reflTransGen_iff_eq unlinked]
  simp only [empty, Arena.holds_empty]
  exact eq_comm

variable {forest : GraftForest} {src dst : Node}

/-- The closure once the end of an edge has a slot in its own tree, and the question about the edge has
been counted. -/
private def withRoot (forest : GraftForest) (dst : Node) : GraftForest :=
  { trees := (forest.trees.root dst).1, checks := forest.checks + 1 }

private theorem Valid.linked_withRoot (valid : forest.Valid) (dst : Node) :
    (forest.withRoot dst).Linked = forest.Linked := by
  funext u v
  exact propext ((Arena.root_rooted valid.trees dst).1.child u u v)

private theorem Valid.withRoot (valid : forest.Valid) (dst : Node) :
    (forest.withRoot dst).Valid := by
  obtain ⟨rooted, -⟩ := Arena.root_rooted valid.trees dst
  have linked := valid.linked_withRoot dst
  exact
    { trees := rooted.valid
      spread := fun child => linked ▸ valid.spread ((rooted.child _ _ _).mp child)
      exact := fun u v => linked ▸ (rooted.holds u v).trans (valid.exact u v) }

/-- Where a closure stands when all grafts of an insertion are over: every tree that has `src` as a
member has received everything in the tree of `dst`. -/
structure Grafted (forest : GraftForest) (src dst : Node) (growth : GraftGrowth) (done : List Node) :
    Prop where
  spread : GraftGrowth.Spread forest.trees src dst done growth
  done : ∀ root, root ∈ done ↔ ReflTransGen forest.Linked root src

theorem Valid.grafted (valid : forest.Valid) {subtree : Slot}
    (there : forest.trees.place? dst dst = some subtree) (unknown : ¬ forest.trees.holds src dst) :
    ∃ done, Grafted forest src dst
      ((forest.trees.holders src ++ [src]).foldl (GraftGrowth.graftInto src subtree) { forest })
      done := by
  have roots : ∀ root, root ∈ forest.trees.holders src ++ [src] ↔ forest.trees.holds root src := by
    intro root
    rw [List.mem_append, List.mem_singleton, Arena.mem_holders, Arena.holds_iff]
    tauto
  have distinct : (forest.trees.holders src ++ [src]).Nodup := by
    refine List.nodup_append.mpr ⟨(Std.TreeMap.nodup_keys).filter _, List.nodup_singleton _, ?_⟩
    rintro root listed _ own rfl
    exact ((Arena.mem_holders forest.trees src root).mp listed).1 (List.mem_singleton.mp own)
  have closed : ∀ root parent member, forest.trees.holds root parent →
      forest.trees.Child dst parent member → forest.trees.holds root member :=
    fun root parent member above child =>
      (valid.exact root member).mpr (((valid.exact root parent).mp above).tail (valid.spread child))
  refine ⟨_, GraftGrowth.foldl_graftInto valid.trees closed unknown there _ distinct
    (fun root listed => (roots root).mp listed) [] { forest } (by simp) ?_, fun root => ?_⟩
  · exact
      { valid := valid.trees, stem := .refl _ _, untouched := fun _ _ => .refl _ _
        holds := by simp, grows := fun _ _ _ child => child, child := fun _ _ _ child => .inl child
        distinct := List.nodup_nil, found := by simp, attached := by simp }
  · rw [List.append_nil, List.mem_reverse, roots, valid.exact]

section Grafted

variable {growth : GraftGrowth} {done : List Node}

theorem Grafted.linked_iff (grafted : Grafted forest src dst growth done) (u v : Node) :
    growth.forest.Linked u v ↔ WithEdge forest.Linked src dst u v := by
  constructor
  · intro link
    rcases grafted.spread.child u u v link with old | ⟨-, -, ⟨rfl, rfl⟩ | ⟨absurdity, -⟩⟩
    · exact .inl old
    · exact .inr ⟨rfl, rfl⟩
    · exact absurd (forest.trees.holds_self u) absurdity
  · rintro (old | ⟨rfl, rfl⟩)
    · exact grafted.spread.grows u u v old
    · exact grafted.spread.attached ((grafted.done u).mpr .refl)

theorem Grafted.valid (grafted : Grafted forest src dst growth done) (valid : forest.Valid) :
    growth.forest.Valid := by
  refine ⟨grafted.spread.valid, fun {root parent member} child => ?_, fun u v => ?_⟩
  · refine (grafted.linked_iff parent member).mpr ?_
    rcases grafted.spread.child root parent member child with old | ⟨-, -, linked | ⟨-, copied⟩⟩
    · exact .inl (valid.spread old)
    · exact .inr linked
    · exact .inl (valid.spread copied)
  · rw [grafted.spread.holds, grafted.done, valid.exact, valid.exact,
      reflTransGen_of_withEdge grafted.linked_iff]

theorem Grafted.inserts (grafted : Grafted forest src dst growth done) (valid : forest.Valid)
    (unknown : ¬ forest.trees.holds src dst) :
    Inserts forest.Linked src dst growth.forest.Linked growth.found.reverse := by
  have reaches := reflTransGen_of_withEdge grafted.linked_iff
  refine ⟨fun u v link => ?_, reaches, List.nodup_reverse.mpr grafted.spread.distinct, fun u v => ?_⟩
  · refine ((grafted.linked_iff u v).mp link).imp_right fun ⟨here, there⟩ => ⟨here, there, ?_⟩
    exact fun path => unknown ((valid.exact src dst).mpr path)
  · rw [List.mem_reverse, grafted.spread.found, grafted.done, valid.exact, valid.exact, reaches]
    tauto

end Grafted

theorem addArc_spec (valid : forest.Valid) (src dst : Node) :
    (forest.addArc src dst).1.Valid ∧
      Inserts forest.Linked src dst (forest.addArc src dst).1.Linked (forest.addArc src dst).2 := by
  by_cases held : forest.trees.holds src dst
  · have ran : forest.addArc src dst = ({ forest with checks := forest.checks + 1 }, []) := by
      simp [addArc, held]
    rw [ran]
    exact ⟨⟨valid.trees, valid.spread, valid.exact⟩, .nothing ((valid.exact src dst).mp held)⟩
  · obtain ⟨rooted, there⟩ := Arena.root_rooted valid.trees dst
    have ran : forest.addArc src dst =
        let ready := forest.withRoot dst
        let growth := (ready.trees.holders src ++ [src]).foldl
          (GraftGrowth.graftInto src (forest.trees.root dst).2) { forest := ready }
        (growth.forest, growth.found.reverse) := by
      simp [addArc, held, GraftForest.withRoot]
    have unknown := (not_congr (rooted.holds src dst)).mpr held
    have ready := valid.withRoot dst
    obtain ⟨done, grafted⟩ := ready.grafted there unknown
    rw [ran, ← valid.linked_withRoot dst]
    exact ⟨grafted.valid ready, grafted.inserts ready unknown⟩

/-- Taking in an edge keeps a closure exact and reports the new pairs. -/
theorem insert_spec {forest : GraftForest} (valid : forest.Valid) (src dst : Node) :
    (forest.insert src dst).1.Valid ∧
      Inserts forest.Linked src dst (forest.insert src dst).1.Linked (forest.insert src dst).2 := by
  unfold insert
  split
  · next same => exact ⟨valid, .nothing (same ▸ .refl)⟩
  · exact addArc_spec valid src dst

/-- Taking in an edge counts the pairs that it reports. -/
theorem pairs_insert (forest : GraftForest) (src dst : Node) :
    (forest.insert src dst).1.trees.pairs =
      forest.trees.pairs + (forest.insert src dst).2.length := by
  unfold insert addArc
  split
  · rfl
  · dsimp only
    split
    · rfl
    · rw [List.length_reverse]
      refine List.foldlRecOn (motive := GraftGrowth.Counts forest.trees.pairs) _ _
        (Arena.pairs_root _ _) fun growth counts root _ => counts.graftInto src _ root

/-- A walk up visits all nodes whose tree has the start, among them those linked to it. -/
theorem walkUp_eq_foldl {forest : GraftForest} (valid : forest.Valid) (start : Node) :
    (∀ node ∈ forest.trees.holders start,
      node ≠ start ∧ ReflTransGen forest.Linked node start) ∧
    ∀ node, forest.Linked node start → node ≠ start → node ∈ forest.trees.holders start := by
  constructor
  · intro node listed
    obtain ⟨apart, slot, placed⟩ := (Arena.mem_holders _ _ _).mp listed
    exact ⟨apart, (valid.exact node start).mp ((Arena.holds_iff _ _ _).mpr (.inr ⟨slot, placed⟩))⟩
  · intro node link apart
    exact (Arena.mem_holders _ _ _).mpr ⟨apart, valid.trees.child_placed link⟩

end GraftForest

end GrammarReach
