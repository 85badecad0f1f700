import GrammarReach.Proofs.Grammar.Written
import GrammarReach.Proofs.Text.Numeral

/-!
Names that can be printed.

Where the names of every written production make a line of a text, each name of the grammar makes a field
of one, and no left-hand side would be taken for a comment. This holds of generated names too: they begin
like the left-hand side of their production and end in a digit or in the variant ending.
-/

namespace GrammarReach

/-- A name begins with its stem. -/
theorem toList_variantStem (name : String) : ∃ rest, name.toList = (variantStem name).toList ++ rest := by
  unfold variantStem
  split
  · obtain ⟨rest, same⟩ := (List.dropLast_prefix name.toList.dropLast).trans (List.dropLast_prefix _)
    exact ⟨rest, by rw [String.toList_ofList, same]⟩
  · exact ⟨[], (List.append_nil _).symm⟩

/-- The characters of a generated name stand in the left-hand side that it was generated for, or are the
dot, digits, and those of the variant ending. -/
theorem IsGeneratedFrom.spelled {lhs name : String} (generated : IsGeneratedFrom (variantStem lhs) name) :
    ∃ rest digits ending, lhs.toList = (variantStem lhs).toList ++ rest ∧
      name.toList = (variantStem lhs).toList ++ '.' :: (digits ++ ending) ∧ digits ≠ [] ∧
      (∀ c ∈ digits, c.isDigit) ∧ (ending = [] ∨ ending = ['_', 'i']) := by
  obtain ⟨rest, whole⟩ := toList_variantStem lhs
  obtain ⟨number, made⟩ := generated
  refine ⟨rest, Nat.toDigits 10 number, ?_⟩
  have digits : ∀ c ∈ Nat.toDigits 10 number, c.isDigit := fun c =>
    Nat.isDigit_of_mem_toDigits (by decide) (Nat.le_refl 10)
  rcases made with rfl | rfl
  · exact ⟨[], whole, Grammar.toList_generatedName .., Nat.toDigits_ne_nil, digits, .inl rfl⟩
  · exact ⟨['_', 'i'], whole, Grammar.toList_generatedName .., Nat.toDigits_ne_nil, digits, .inr rfl⟩

/-- A name that was generated for a left-hand side can be printed where that can. -/
theorem IsGeneratedFrom.printable {lhs name : String} (generated : IsGeneratedFrom (variantStem lhs) name)
    (field : Text.IsField lhs.toList) (visible : lhs.toList.head? ≠ some '#') :
    name ≠ "" ∧ Text.IsField name.toList ∧ name.toList.head? ≠ some '#' := by
  obtain ⟨rest, digits, ending, whole, made, filled, numeral, varied⟩ := generated.spelled
  have head : ∀ c, name.toList.head? = some c → c = '.' ∨ lhs.toList.head? = some c := by
    intro c first
    rw [made] at first
    rw [whole]
    cases stem : (variantStem lhs).toList with
    | nil => exact .inl (by simpa [stem] using first.symm)
    | cons d letters => exact .inr (by simpa [stem] using first)
  have last : ∀ c, name.toList.getLast? = some c → ¬ Text.isBlank c := by
    intro c final
    obtain ⟨front, digit, rfl⟩ := (List.eq_nil_or_concat' digits).resolve_left filled
    rcases varied with rfl | rfl
    · have same : digit = c := by simpa [made, List.getLast?_append, List.getLast?_cons] using final
      exact same ▸ Text.not_isBlank_of_isDigit (numeral digit (by simp))
    · have same : 'i' = c := by simpa [made, List.getLast?_append, List.getLast?_cons] using final
      exact same ▸ by decide
  have characters : ∀ c ∈ name.toList, c ∈ lhs.toList ∨ c = '.' ∨ c.isDigit ∨ c = '_' ∨ c = 'i' := by
    intro c inside
    rw [made] at inside
    rw [whole]
    rcases varied with rfl | rfl <;> grind
  refine ⟨?_, ⟨⟨fun c first => ?_, last⟩, fun tab => ?_, fun newline => ?_⟩, fun comment => ?_⟩
  · rintro rfl
    cases (List.append_eq_nil_iff.mp made.symm).2
  · rcases head c first with rfl | first
    · decide
    · exact field.trimmed.1 c first
  · exact absurd (characters _ tab) (by simp [field.tab])
  · exact absurd (characters _ newline) (by simp [field.newline])
  · exact (head _ comment).elim (by decide) visible

namespace Grammar

variable {before after grammar : Grammar} {production : Production}

/-- The names of the grammar are fields, and none that begins a production begins a comment. -/
structure Printable (grammar : Grammar) : Prop where
  field : ∀ name ∈ grammar.names, name ≠ "" ∧ Text.IsField name.toList
  visible : ∀ rule, grammar.Has rule → ∀ name, grammar.name? rule.lhs = some name →
    name.toList.head? ≠ some '#'

theorem printable_empty : empty.Printable where
  field := by simp [empty]
  visible rule has := absurd has (not_has_empty rule)

theorem Adds.printable {fresh lhs : Symbol} {rhs : List Symbol}
    (adds : Adds before after production fresh lhs rhs) (formed : before.WellFormed)
    (printable : before.Printable) (line : Text.IsLine production.names) : after.Printable := by
  have made : ∀ symbol ≥ fresh, ∀ name, after.name? symbol = some name →
      name ≠ "" ∧ Text.IsField name.toList ∧ name.toList.head? ≠ some '#' := fun symbol above name named =>
    (adds.generated symbol above name named).2.2.printable (line.field _ List.mem_cons_self).2
      (line.visible _ rfl)
  refine ⟨fun name inside => ?_, fun rule has name named => ?_⟩
  · obtain ⟨symbol, named⟩ := declares_iff_exists.mp (declares_iff.mpr inside)
    rcases Nat.lt_or_ge symbol fresh with below | above
    · rcases adds.spelled symbol below name named with old | written
      · exact printable.field name old
      · exact line.field name written
    · exact ⟨(made symbol above name named).1, (made symbol above name named).2.1⟩
  · rcases (adds.has rule).mp has with old | part
    · rw [name?_eq_of_grown adds.names (formed.known rule old _ List.mem_cons_self)] at named
      exact printable.visible rule old name named
    · rcases lhs_of_mem_parts part with head | above
      · rw [head, adds.lhs_named, Option.some.injEq] at named
        exact named ▸ line.visible _ rfl
      · exact (made _ above name named).2.2

theorem printable_ofProductions (productions : List Production)
    (lines : ∀ production ∈ productions, Text.IsLine production.names) :
    (ofProductions productions).Printable := by
  revert lines
  refine ofProductions_induction (motive := fun productions grammar =>
    (∀ production ∈ productions, Text.IsLine production.names) → grammar.Printable) ?_ ?_ productions
  · exact fun _ => printable_empty
  · intro earlier before after production fresh lhs rhs formed adds ih lines
    exact adds.printable formed (ih fun other listed => lines other (List.mem_append_left _ listed))
      (lines production (by simp))

end Grammar

end GrammarReach
