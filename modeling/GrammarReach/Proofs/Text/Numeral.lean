import GrammarReach.Proofs.Text.Record
import GrammarReach.Text.Numeral

namespace GrammarReach.Text

/-- A number that is read lies below the bound. -/
theorem lt_of_natural? {bound number : Nat} {text : String} (read : natural? bound text = some number) :
    number < bound := by
  have below : ∀ digits, numeral? 10 bound digits = some number → number < bound := by
    intro digits read
    unfold numeral? at read
    split at read
    · cases read
    · exact of_decide_eq_true (Option.filter_eq_some_iff.mp read).2
  unfold natural? at read
  split at read <;> exact below _ read

private theorem digitValue?_digit {c : Char} (isDigit : c.isDigit) :
    digitValue? 10 c = some (c.toNat - '0'.toNat) := by
  have range := Char.isDigit_iff_toNat.mp isDigit
  have zero : '0'.toNat = 48 := rfl
  have nine : '9'.toNat = 57 := rfl
  have inside : '0' ≤ c ∧ c ≤ '9' := by
    rw [Char.le_def, Char.le_def, UInt32.le_iff_toNat_le, UInt32.le_iff_toNat_le]
    exact range
  rw [digitValue?, if_pos inside]
  refine Option.filter_eq_some_iff.mpr ⟨rfl, decide_eq_true ?_⟩
  omega

private theorem digitsValue?_digits {digits : List Char} : ∀ high, (∀ c ∈ digits, c.isDigit) →
    digitsValue? 10 high digits = some (Nat.ofDigitChars 10 digits high) := by
  induction digits with
  | nil => exact fun _ _ => rfl
  | cons c rest ih =>
    intro high digits
    obtain ⟨first, later⟩ := List.forall_mem_cons.mp digits
    rw [digitsValue?, digitValue?_digit first, Nat.ofDigitChars_cons, Nat.mul_comm 10]
    exact ih _ later

theorem isDigit_of_mem_toString {number : Nat} {c : Char} (inside : c ∈ (toString number).toList) :
    c.isDigit := by
  rw [Nat.toString_eq_repr, Nat.toList_repr] at inside
  exact Nat.isDigit_of_mem_toDigits (by decide) (Nat.le_refl 10) inside

theorem toString_ne_empty (number : Nat) : toString number ≠ "" := by
  rw [Ne, ← String.toList_eq_nil_iff, Nat.toString_eq_repr, Nat.toList_repr]
  exact Nat.toDigits_ne_nil

/-- A number below the bound is read back. -/
theorem natural?_toString {bound number : Nat} (below : number < bound) :
    natural? bound (toString number) = some number := by
  have digits : ∀ c ∈ (toString number).toList, c.isDigit := fun c => isDigit_of_mem_toString
  have value : numeral? 10 bound (toString number).toList = some number := by
    have filled : ¬ (toString number).toList.isEmpty := by
      rw [List.isEmpty_iff, String.toList_eq_nil_iff]
      exact toString_ne_empty number
    rw [numeral?, if_neg filled, digitsValue?_digits 0 digits, Nat.toString_eq_repr, Nat.toList_repr,
      Nat.ofDigitChars_ten_toDigits]
    exact Option.filter_eq_some_iff.mpr ⟨rfl, decide_eq_true below⟩
  unfold natural?
  split
  · next signed =>
    rw [signed] at digits
    exact absurd (digits '+' List.mem_cons_self) (by decide)
  · exact value

/-- Characters that are not blank make a field. -/
theorem isField_of_visible {text : List Char} (visible : ∀ c ∈ text, ¬ isBlank c) : IsField text where
  trimmed := ⟨fun c first => visible c (List.mem_of_mem_head? first),
    fun c last => visible c (List.mem_of_mem_getLast? last)⟩
  tab inside := visible '\t' inside (by decide)
  newline inside := visible '\n' inside (by decide)

theorem not_isBlank_of_isDigit {c : Char} (digit : c.isDigit) : ¬ isBlank c := by
  have low : 48 ≤ c.toNat ∧ c.toNat ≤ 57 := by
    simpa [Char.isDigit, UInt32.le_iff_toNat_le] using digit
  simp only [isBlank, blankRanges, List.any_cons, List.any_nil, Bool.or_eq_true, Bool.and_eq_true,
    decide_eq_true_eq, Bool.false_eq_true, or_false]
  omega

theorem isField_toString (number : Nat) : IsField (toString number).toList :=
  isField_of_visible fun _ inside => not_isBlank_of_isDigit (isDigit_of_mem_toString inside)

/-- Fields behind a number make a row. -/
theorem isRow_of_number {number : Nat} {rest : List String}
    (fields : ∀ field ∈ rest, IsField field.toList) : IsRow (toString number :: rest) where
  field := List.forall_mem_cons.mpr ⟨isField_toString number, fields⟩
  visible := by
    obtain ⟨c, letters, begins⟩ :=
      List.exists_cons_of_ne_nil (mt String.toList_eq_nil_iff.mp (toString_ne_empty number))
    refine ⟨_, rfl, c, by rw [begins]; rfl, ?_⟩
    rintro rfl
    have digit : '#'.isDigit := isDigit_of_mem_toString (begins ▸ List.mem_cons_self)
    cases digit

end GrammarReach.Text
