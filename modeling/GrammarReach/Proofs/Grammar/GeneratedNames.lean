import Mathlib.Data.List.Perm.Subperm
import GrammarReach.Proofs.Grammar.Symbols

/-!
Generated names.

There are infinitely many names with one stem and one ending, so one that no symbol bears can always be
drawn, and the first `size + 1` numbers are enough to find it. Whether a generated name is the name of a
variant symbol depends on its ending alone.
-/

namespace GrammarReach

/-- A name that could have been generated from a stem: behind the stem stand a dot and a decimal number,
and perhaps the variant ending. -/
def IsGeneratedFrom (stem name : String) : Prop :=
  ∃ number, name = Grammar.generatedName stem "" number ∨
    name = Grammar.generatedName stem variantSuffix number

def IsGeneratedName (name : String) : Prop := ∃ stem, IsGeneratedFrom stem name

theorem isVariantName_iff {name : String} : isVariantName name ↔
    variantSuffix.utf8ByteSize < name.utf8ByteSize ∧ variantSuffix.toList <:+ name.toList := by
  rw [isVariantName, Bool.and_eq_true, decide_eq_true_eq, String.endsWith_eq_endsWith_toSlice,
    String.Slice.endsWith_string_iff, String.copy_toSlice]

namespace Grammar

theorem toList_generatedName (stem ending : String) (number : Nat) :
    (generatedName stem ending number).toList =
      stem.toList ++ '.' :: (Nat.toDigits 10 number ++ ending.toList) := by
  simp [generatedName, Nat.toString_eq_repr, Nat.toList_repr]

/-- A name without a dot could not have been generated. -/
theorem not_isGeneratedName {name : String} (dotless : '.' ∉ name.toList) : ¬ IsGeneratedName name := by
  rintro ⟨stem, number, rfl | rfl⟩
  · exact dotless (by rw [toList_generatedName]; simp)
  · exact dotless (by rw [toList_generatedName]; simp)

theorem generatedName_injective (stem ending : String) :
    Function.Injective (generatedName stem ending) := by
  intro one two same
  have lists := congrArg String.toList same
  rw [toList_generatedName, toList_generatedName, List.append_cancel_left_eq, List.cons_inj_right,
    List.append_cancel_right_eq] at lists
  have numbers := congrArg (Nat.ofDigitChars 10 · 0) lists
  simpa only [Nat.ofDigitChars_ten_toDigits] using numbers

theorem isVariantName_generatedName (stem : String) (number : Nat) :
    isVariantName (generatedName stem variantSuffix number) := by
  refine isVariantName_iff.mpr ⟨?_, ?_⟩
  · simp only [generatedName, String.utf8ByteSize_append]
    have dot : ".".utf8ByteSize = 1 := rfl
    omega
  · rw [toList_generatedName]
    exact ⟨stem.toList ++ '.' :: Nat.toDigits 10 number, by simp⟩

/-- A name that ends in a number does not end in a letter. -/
theorem not_isVariantName_generatedName (stem : String) (number : Nat) :
    isVariantName (generatedName stem "" number) = false := by
  rw [← Bool.not_eq_true, isVariantName_iff]
  rintro ⟨-, start, same⟩
  rw [toList_generatedName] at same
  have last := congrArg List.getLast? same
  obtain ⟨digits, digit, split⟩ :=
    (List.eq_nil_or_concat' (Nat.toDigits 10 number)).resolve_left Nat.toDigits_ne_nil
  have isDigit : digit.isDigit := Nat.isDigit_of_mem_toDigits (by decide) (Nat.le_refl 10)
    (split ▸ List.mem_append_right _ (List.mem_singleton_self _))
  have letter : digit = 'i' := by
    simpa [split, variantSuffix, List.getLast?_append, List.getLast?_cons] using last.symm
  rw [letter] at isDigit
  exact absurd isDigit (by decide)

/-- The number that is drawn gives a name that no symbol bears yet. -/
theorem not_declares_drawNumber (grammar : Grammar) (stem ending : String) :
    ¬ grammar.declares (generatedName stem ending (grammar.drawNumber stem ending)) := by
  let candidates := (List.range (grammar.size + 1)).map (grammar.drawn + 1 + ·)
  have distinct : (candidates.map (generatedName stem ending)).Nodup :=
    (List.nodup_range.map fun _ _ => Nat.add_left_cancel).map (generatedName_injective stem ending)
  obtain ⟨number, listed, free⟩ : ∃ number ∈ candidates,
      ¬ grammar.declares (generatedName stem ending number) := by
    -- There are more candidates than names.
    by_contra taken
    push Not at taken
    have inside : candidates.map (generatedName stem ending) ⊆ grammar.names := by
      intro name listed
      obtain ⟨number, candidate, rfl⟩ := List.mem_map.mp listed
      exact declares_iff.mp (taken number candidate)
    have few := (distinct.subperm inside).length_le
    simp only [candidates, List.length_map, List.length_range, size] at few
    exact Nat.not_succ_le_self _ few
  have found : (candidates.find? fun number => !grammar.declares (generatedName stem ending number)).isSome :=
    List.find?_isSome.mpr ⟨number, listed, by simpa using free⟩
  obtain ⟨drawn, same⟩ := Option.isSome_iff_exists.mp found
  have free := List.find?_some same
  have chosen : grammar.drawNumber stem ending = drawn := by
    simp only [drawNumber]
    exact congrArg (Option.getD · _) same
  rw [chosen]
  simpa using free

end Grammar

end GrammarReach
