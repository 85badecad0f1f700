import GrammarReach.Proofs.Grammar
import GrammarReach.Proofs.Grammar.GeneratedNames

/-!
What adding a production does to a grammar.

The names of the production are declared first. A production with more than two symbols on the right is
then split into a chain of binary ones: each but the last derives a generated symbol from the beginning
so far and the next symbol, and the last derives the left-hand side. The generated symbols of one
production bear consecutive numbers, above those of all symbols declared before.
-/

namespace GrammarReach

/-- A production as it is written down. -/
structure Production where
  lhs : String
  rhs : List String

def Production.names (production : Production) : List String := production.lhs :: production.rhs

structure Rule where
  lhs : Symbol
  rhs : List Symbol

namespace Grammar

variable {grammar before after : Grammar}

/-- Whether a production, which has at most two symbols on the right then, is in the tables. -/
def Has (grammar : Grammar) : Rule → Prop
  | ⟨lhs, []⟩ => lhs ∈ grammar.nullable
  | ⟨lhs, [single]⟩ => ⟨lhs, single⟩ ∈ grammar.unary
  | ⟨lhs, [left, right]⟩ => ⟨lhs, left, right⟩ ∈ grammar.binary
  | ⟨_, _ :: _ :: _ :: _⟩ => False

theorem has_congr (nullable : after.nullable = before.nullable) (unary : after.unary = before.unary)
    (binary : after.binary = before.binary) (rule : Rule) : after.Has rule ↔ before.Has rule := by
  unfold Has
  rw [nullable, unary, binary]

theorem has_addEmpty (lhs : Symbol) (rule : Rule) :
    (grammar.addEmpty lhs).Has rule ↔ grammar.Has rule ∨ rule = ⟨lhs, []⟩ := by
  obtain ⟨other, _ | ⟨single, _ | ⟨right, _ | ⟨third, rest⟩⟩⟩⟩ := rule <;> simp [Has, addEmpty]
  exact or_comm.trans (or_congr_right eq_comm)

theorem has_addUnary (lhs rhs : Symbol) (rule : Rule) :
    (grammar.addUnary lhs rhs).Has rule ↔ grammar.Has rule ∨ rule = ⟨lhs, [rhs]⟩ := by
  obtain ⟨unary, same⟩ : ∃ unary, grammar.addUnary lhs rhs = { grammar with unary } := by
    unfold addUnary
    split <;> exact ⟨_, rfl⟩
  have added : ∀ rule, rule ∈ (grammar.addUnary lhs rhs).unary ↔ _ := mem_addUnary lhs rhs
  rw [same] at added ⊢
  obtain ⟨other, _ | ⟨single, _ | ⟨right, _ | ⟨third, rest⟩⟩⟩⟩ := rule <;> simp [Has, added]

theorem has_addBinary (lhs left right : Symbol) (rule : Rule) :
    (grammar.addBinary lhs left right).Has rule ↔ grammar.Has rule ∨ rule = ⟨lhs, [left, right]⟩ := by
  obtain ⟨other, _ | ⟨single, _ | ⟨next, _ | ⟨third, rest⟩⟩⟩⟩ := rule <;> simp [Has, mem_addBinary]

/-- The productions that derive `lhs` from `left` and the symbols behind it, where the generated symbols
count from `fresh`. -/
def chain (lhs fresh left : Symbol) : List Symbol → List Rule
  | [] => [⟨lhs, [left]⟩]
  | [last] => [⟨lhs, [left, last]⟩]
  | next :: rest => ⟨fresh, [left, next]⟩ :: chain lhs (fresh + 1) fresh rest

theorem chain_cons_cons (lhs fresh left next last : Symbol) (rest : List Symbol) :
    chain lhs fresh left (next :: last :: rest) =
      ⟨fresh, [left, next]⟩ :: chain lhs (fresh + 1) fresh (last :: rest) := rfl

/-- The productions of at most two symbols that a production comes to. -/
def parts (lhs fresh : Symbol) : List Symbol → List Rule
  | [] => [⟨lhs, []⟩]
  | left :: rest => chain lhs fresh left rest

/-- The link of a chain at a position: what stands before it makes its left operand. -/
theorem mem_chain_iff (lhs : Symbol) (rest : List Symbol) : ∀ (fresh left : Symbol) (rule : Rule),
    rest ≠ [] → (rule ∈ chain lhs fresh left rest ↔ ∃ position, ∃ inside : position < rest.length,
      rule = ⟨if position + 1 = rest.length then lhs else fresh + position,
        [if position = 0 then left else fresh + position - 1, rest[position]]⟩) := by
  induction rest with
  | nil => exact fun _ _ _ none => absurd rfl none
  | cons next rest ih =>
    intro fresh left rule _
    cases rest with
    | nil => simp [chain]
    | cons last rest =>
      -- The links of the shorter chain count from the next number.
      have heads : ∀ position : Nat, fresh + 1 + position = fresh + (position + 1) := fun position =>
        Nat.add_right_comm fresh 1 position
      have lefts : ∀ position : Nat, (if position = 0 then fresh else fresh + (position + 1) - 1) =
          if position + 1 = 0 then left else fresh + (position + 1) - 1 := by
        rintro (_ | position)
        · rfl
        · simp
      rw [chain_cons_cons, List.mem_cons, ih _ _ _ (List.cons_ne_nil _ _)]
      simp only [heads, lefts]
      constructor
      · rintro (rfl | ⟨position, inside, rfl⟩)
        · exact ⟨0, by simp, by simp⟩
        · exact ⟨position + 1, Nat.succ_lt_succ inside, by simp⟩
      · rintro ⟨_ | position, inside, rfl⟩
        · exact .inl (by simp)
        · exact .inr ⟨position, Nat.lt_of_succ_lt_succ inside, by simp⟩

theorem parts_of_short {rhs : List Symbol} (short : rhs.length ≤ 2) (lhs fresh : Symbol) :
    parts lhs fresh rhs = [⟨lhs, rhs⟩] := by
  match rhs with
  | [] => rfl
  | [_] => rfl
  | [_, _] => rfl
  | _ :: _ :: _ :: _ => simp at short

/-- The part of a longer production that derives what the production begins with, up to and including the
symbol behind the position: a generated symbol but for the last. -/
def link (lhs fresh : Symbol) (rhs : List Symbol) (position : Nat) (inside : position + 1 < rhs.length) :
    Rule where
  lhs := if position + 2 = rhs.length then lhs else fresh + position
  rhs := [if position = 0 then rhs[0] else fresh + position - 1, rhs[position + 1]]

theorem mem_parts_iff {rhs : List Symbol} (long : 1 < rhs.length) (lhs fresh : Symbol) (rule : Rule) :
    rule ∈ parts lhs fresh rhs ↔ ∃ position, ∃ inside : position + 1 < rhs.length,
      rule = link lhs fresh rhs position inside := by
  match rhs with
  | left :: next :: rest =>
    rw [parts, mem_chain_iff _ _ _ _ _ (List.cons_ne_nil _ _)]
    simp [link]

/-- The part at a position derives a generated symbol, unless it is the last one. -/
theorem lhs_link {lhs fresh : Symbol} {rhs : List Symbol} {position : Nat}
    {inside : position + 1 < rhs.length} (earlier : position + 2 ≠ rhs.length) :
    (link lhs fresh rhs position inside).lhs = fresh + position :=
  if_neg earlier

theorem lhs_link_last {lhs fresh : Symbol} {rhs : List Symbol} {position : Nat}
    {inside : position + 1 < rhs.length} (last : position + 2 = rhs.length) :
    (link lhs fresh rhs position inside).lhs = lhs :=
  if_pos last

/-- A part is the whole production, or stands at a position of it. -/
theorem parts_cases {lhs fresh : Symbol} {rhs : List Symbol} {rule : Rule}
    (part : rule ∈ parts lhs fresh rhs) : rule = ⟨lhs, rhs⟩ ∨
      ∃ position, ∃ inside : position + 1 < rhs.length, rule = link lhs fresh rhs position inside := by
  rcases Nat.lt_or_ge 2 rhs.length with long | short
  · exact .inr ((mem_parts_iff (Nat.lt_of_succ_lt long) _ _ _).mp part)
  · rw [parts_of_short short, List.mem_singleton] at part
    exact .inl part

/-- What a generated symbol changes: it is declared last, under a name that no symbol bears, and it is
variant if one of the two symbols is that it stands for. -/
structure Generates (before after : Grammar) (lhsName : String) (left right : Symbol) : Prop where
  names : ∃ name, after.names = before.names ++ [name] ∧ IsGeneratedFrom (variantStem lhsName) name
  distinct : after.names.Nodup
  varies : after.isVariant (before.size + 1) = (before.isVariant left || before.isVariant right)
  has : ∀ rule, after.Has rule ↔ before.Has rule

theorem intermediate_generates (distinct : grammar.names.Nodup) (lhsName : String)
    (left right : Symbol) :
    Generates grammar (grammar.intermediate lhsName left right).1 lhsName left right ∧
      (grammar.intermediate lhsName left right).2 = grammar.size + 1 := by
  let stem := variantStem lhsName
  let ending := if grammar.isVariant left || grammar.isVariant right then variantSuffix else ""
  let number := grammar.drawNumber stem ending
  have free : ¬ ({ grammar with drawn := number } : Grammar).declares (generatedName stem ending number) :=
    grammar.not_declares_drawNumber stem ending
  have same : grammar.intermediate lhsName left right =
      ({ grammar with drawn := number, names := grammar.names ++ [generatedName stem ending number] },
        grammar.size + 1) := addSymbol_of_not_declares free
  have absent : generatedName stem ending number ∉ grammar.names := fun inside =>
    free (declares_iff.mpr inside)
  have form : IsGeneratedFrom stem (generatedName stem ending number) ∧
      isVariantName (generatedName stem ending number) =
        (grammar.isVariant left || grammar.isVariant right) := by
    cases varies : grammar.isVariant left || grammar.isVariant right with
    | true =>
      have variant : ending = variantSuffix := if_pos varies
      rw [variant]
      exact ⟨⟨number, .inr rfl⟩, isVariantName_generatedName stem number⟩
    | false =>
      have plain : ending = "" := if_neg (by simp [varies])
      rw [plain]
      exact ⟨⟨number, .inl rfl⟩, not_isVariantName_generatedName stem number⟩
  rw [same]
  refine ⟨⟨⟨_, rfl, form.1⟩, ?_, ?_, has_congr rfl rfl rfl⟩, rfl⟩
  · refine List.nodup_append.mpr ⟨distinct, List.nodup_singleton _, ?_⟩
    rintro name inside other listed rfl
    exact absent (List.mem_singleton.mp listed ▸ inside)
  · rw [← form.2]
    simp [isVariant, name?, size]

/-- What a production changes once its symbols are declared. -/
structure Expands (before after : Grammar) (lhsName : String) (lhs : Symbol) (rhs : List Symbol) :
    Prop where
  names : before.names <+: after.names
  distinct : after.names.Nodup
  size : after.size = before.size + (rhs.length - 2)
  generated : ∀ name ∈ after.names, name ∈ before.names ∨ IsGeneratedFrom (variantStem lhsName) name
  has : ∀ rule, after.Has rule ↔ before.Has rule ∨ rule ∈ parts lhs (before.size + 1) rhs
  varies : ∀ rule ∈ parts lhs (before.size + 1) rhs, rule.lhs ≠ lhs →
    after.isVariant rule.lhs = rule.rhs.any after.isVariant

section Generates

variable {lhsName : String} {lhs left next last : Symbol} {rest : List Symbol}
  (made : Generates before after lhsName left next)

include made

theorem Generates.names_addBinary : ∃ name, IsGeneratedFrom (variantStem lhsName) name ∧
    (after.addBinary (before.size + 1) left next).names = before.names ++ [name] := by
  obtain ⟨name, names, form⟩ := made.names
  exact ⟨name, form, (Grammar.names_addBinary ..).trans names⟩

theorem Generates.size_addBinary :
    (after.addBinary (before.size + 1) left next).size = before.size + 1 := by
  obtain ⟨name, -, names⟩ := made.names_addBinary
  exact (congrArg List.length names).trans List.length_append

theorem Generates.grows_addBinary :
    before.names <+: (after.addBinary (before.size + 1) left next).names := by
  obtain ⟨name, -, names⟩ := made.names_addBinary
  exact names ▸ List.prefix_append _ _

theorem Generates.declared_addBinary :
    (after.addBinary (before.size + 1) left next).Declared (before.size + 1) :=
  ⟨Nat.succ_pos _, Nat.le_of_eq made.size_addBinary.symm⟩

/-- Once the first two symbols are joined into a generated one, splitting goes on with one symbol less. -/
theorem Generates.expands {final : Grammar} (knownLeft : before.Declared left)
    (knownNext : before.Declared next)
    (later : Expands (after.addBinary (before.size + 1) left next) final lhsName lhs
      ((before.size + 1) :: last :: rest)) :
    Expands before final lhsName lhs (left :: next :: last :: rest) := by
  obtain ⟨name, form, names⟩ := made.names_addBinary
  have whole := made.grows_addBinary.trans later.names
  have split : parts lhs (before.size + 1) (left :: next :: last :: rest) =
      ⟨before.size + 1, [left, next]⟩ ::
        parts lhs ((after.addBinary (before.size + 1) left next).size + 1)
          ((before.size + 1) :: last :: rest) := by
    rw [made.size_addBinary]
    rfl
  refine
    { names := whole
      distinct := later.distinct
      size := ?_
      generated := fun other inside => ?_
      has := fun rule => ?_
      varies := fun rule inside other => ?_ }
  · rw [later.size, made.size_addBinary]
    simp only [List.length_cons]
    omega
  · rcases later.generated other inside with old | new
    · rw [names, List.mem_append, List.mem_singleton] at old
      refine old.imp_right ?_
      rintro rfl
      exact form
    · exact .inr new
  · rw [later.has, has_addBinary, made.has, split, List.mem_cons, or_assoc]
  · rcases List.mem_cons.mp (split ▸ inside) with rfl | inside
    · -- The generated symbol is as variant in the end as its two operands were when it was declared.
      rw [isVariant_of_grown later.names made.declared_addBinary, isVariant_addBinary, made.varies]
      simp only [List.any_cons, List.any_nil, Bool.or_false, isVariant_of_grown whole knownLeft,
        isVariant_of_grown whole knownNext]
    · exact later.varies rule inside other

end Generates

theorem addRest_expands (lhsName : String) {lhs : Symbol} (rest : List Symbol) :
    ∀ {grammar : Grammar} {left : Symbol}, rest ≠ [] → grammar.names.Nodup → grammar.Declared lhs →
      grammar.Declared left → (∀ symbol ∈ rest, grammar.Declared symbol) →
      Expands grammar (grammar.addRest lhsName lhs left rest) lhsName lhs (left :: rest) := by
  induction rest with
  | nil => exact fun none => absurd rfl none
  | cons next rest ih =>
    intro grammar left _ distinct knownLhs knownLeft knownRest
    cases rest with
    | nil =>
      simp only [addRest]
      refine ⟨by simp, by simpa using distinct, by simp [size], fun name inside => ?_, fun rule => ?_, ?_⟩
      · exact .inl (by simpa using inside)
      · rw [has_addBinary, parts, chain, List.mem_singleton]
      · simp [parts, chain]
    | cons last rest =>
      obtain ⟨made, number⟩ := intermediate_generates distinct lhsName left next
      simp only [addRest, number]
      refine made.expands knownLeft (knownRest next List.mem_cons_self) ?_
      exact ih (List.cons_ne_nil _ _) (by simpa using made.distinct)
        (knownLhs.of_grown made.grows_addBinary) made.declared_addBinary
        fun symbol inside => (knownRest symbol (List.mem_cons_of_mem _ inside)).of_grown made.grows_addBinary

theorem addProduction_expands (distinct : grammar.names.Nodup) (lhsName : String) {lhs : Symbol}
    {rhs : List Symbol} (knownLhs : grammar.Declared lhs)
    (knownRhs : ∀ symbol ∈ rhs, grammar.Declared symbol) :
    Expands grammar (grammar.addProduction lhsName lhs rhs) lhsName lhs rhs := by
  match rhs with
  | [] =>
    refine ⟨List.prefix_rfl, distinct, rfl, fun _ => .inl, fun rule => ?_, by simp [parts]⟩
    rw [addProduction, has_addEmpty, parts, List.mem_singleton]
  | [single] =>
    have names : (grammar.addUnary lhs single).names = grammar.names := by
      unfold addUnary
      split <;> rfl
    rw [addProduction]
    refine ⟨names ▸ List.prefix_rfl, names ▸ distinct, by simp [size, names], ?_, fun rule => ?_,
      by simp [parts, chain]⟩
    · rw [names]
      exact fun _ => .inl
    · rw [has_addUnary, parts, chain, List.mem_singleton]
  | left :: right :: rest =>
    have same : grammar.addProduction lhsName lhs (left :: right :: rest) =
        grammar.addRest lhsName lhs left (right :: rest) := by
      cases rest <;> rfl
    rw [same]
    exact addRest_expands lhsName (right :: rest) (List.cons_ne_nil _ _) distinct knownLhs
      (knownRhs left List.mem_cons_self)
      (fun symbol inside => knownRhs symbol (List.mem_cons_of_mem _ inside))

def add (grammar : Grammar) (production : Production) : Grammar :=
  grammar.addRule production.lhs production.rhs

/-- The number of the first symbol that a production generates: its own names are declared before. -/
def firstGenerated (grammar : Grammar) (production : Production) : Symbol :=
  ((grammar.addSymbol production.lhs).1.addSymbols production.rhs).1.size + 1

/-- What a production changes, its names included. The symbols below `fresh` are those declared before and
those of the production, the ones from there on are generated. -/
structure Adds (before after : Grammar) (production : Production) (fresh lhs : Symbol)
    (rhs : List Symbol) : Prop where
  names : before.names <+: after.names
  distinct : after.names.Nodup
  size_lt : before.size < fresh
  size : after.size + 1 = fresh + (rhs.length - 2)
  lhs_named : after.name? lhs = some production.lhs
  rhs_named : rhs.map after.name? = production.rhs.map some
  lhs_lt : lhs < fresh
  rhs_lt : ∀ symbol ∈ rhs, symbol < fresh
  spelled : ∀ symbol < fresh, ∀ name, after.name? symbol = some name →
    name ∈ before.names ∨ name ∈ production.names
  generated : ∀ symbol ≥ fresh, ∀ name, after.name? symbol = some name →
    name ∉ before.names ∧ name ∉ production.names ∧ IsGeneratedFrom (variantStem production.lhs) name
  has : ∀ rule, after.Has rule ↔ before.Has rule ∨ rule ∈ parts lhs fresh rhs
  varies : ∀ rule ∈ parts lhs fresh rhs, rule.lhs ≠ lhs →
    after.isVariant rule.lhs = rule.rhs.any after.isVariant

theorem add_adds (distinct : before.names.Nodup) (production : Production) :
    ∃ lhs rhs, Adds before (before.add production) production (before.firstGenerated production) lhs rhs := by
  have first := addSymbol_declares distinct production.lhs
  have declared := first.trans (addSymbols_declares production.rhs first.distinct)
  simp only [List.singleton_append] at declared
  set lhs := (before.addSymbol production.lhs).2
  set start := ((before.addSymbol production.lhs).1.addSymbols production.rhs).1 with start_eq
  set rhs := ((before.addSymbol production.lhs).1.addSymbols production.rhs).2
  obtain ⟨lhsNamed, rhsNamed⟩ : start.name? lhs = some production.lhs ∧
      rhs.map start.name? = production.rhs.map some := by
    simpa using declared.symbols
  have knownRhs : ∀ symbol ∈ rhs, start.Declared symbol := declared_of_map_name? rhsNamed
  have knownLhs : start.Declared lhs := .of_name lhsNamed
  have expands := addProduction_expands declared.distinct production.lhs knownLhs knownRhs
  have below : ∀ {symbol}, start.Declared symbol → symbol < start.size + 1 := fun known =>
    Nat.lt_succ_of_le known.2
  have final : before.add production = start.addProduction production.lhs lhs rhs := rfl
  rw [final]
  refine ⟨lhs, rhs, ?_⟩
  exact
    { names := declared.names.trans expands.names
      distinct := expands.distinct
      size_lt := Nat.lt_succ_of_le declared.names.length_le
      size := by rw [expands.size, firstGenerated, ← start_eq]; omega
      lhs_named := name?_of_grown expands.names lhsNamed
      rhs_named := map_name?_of_grown expands.names rhsNamed
      lhs_lt := below knownLhs
      rhs_lt := fun symbol inside => below (knownRhs symbol inside)
      spelled := fun symbol inside name named => by
        have known : start.Declared symbol := ⟨(Declared.of_name named).1, Nat.le_of_lt_succ inside⟩
        rw [name?_eq_of_grown expands.names known] at named
        exact (declared.mem_names name).mp (mem_names_of_name? named)
      generated := fun symbol above name named => by
        have new : name ∉ start.names := by
          intro old
          obtain ⟨other, known⟩ := declares_iff_exists.mp (declares_iff.mpr old)
          have same := symbol_unique expands.distinct named (name?_of_grown expands.names known)
          exact absurd (same ▸ (Declared.of_name known).2) (Nat.not_le_of_lt above)
        have form := (expands.generated name (mem_names_of_name? named)).resolve_left new
        rw [declared.mem_names, not_or] at new
        exact ⟨new.1, new.2, form⟩
      has := fun rule => by
        rw [expands.has, has_congr declared.nullable declared.unary declared.binary]
        rfl
      varies := expands.varies }

end Grammar

end GrammarReach
