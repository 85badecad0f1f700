import GrammarReach.Proofs.Solve.Derivation

namespace GrammarReach.Grammar

variable {grammar : Grammar}

/-- Labels disagree only where both symbols are variant. -/
theorem agree_iff {left right : Label} : grammar.agree left right ↔
    (grammar.isVariant left.symbol → grammar.isVariant right.symbol → left.index = right.index) := by
  simp only [agree, Bool.or_eq_true, Bool.not_eq_true', Bool.and_eq_false_iff, beq_iff_eq]
  cases grammar.isVariant left.symbol <;> cases grammar.isVariant right.symbol <;> simp

theorem ownIndex?_of_isVariant {label : Label} (varies : grammar.isVariant label.symbol) :
    grammar.ownIndex? label = some label.index :=
  if_pos varies

theorem ownIndex?_of_not_isVariant {label : Label} (plain : grammar.isVariant label.symbol = false) :
    grammar.ownIndex? label = none := by
  simp [ownIndex?, plain]

theorem index_label_of_isVariant {symbol : Symbol} (varies : grammar.isVariant symbol) (index : Nat) :
    (grammar.label symbol index).index = index := by
  rw [label, if_pos varies]

theorem ownIndex?_eq_some_iff {label : Label} {index : Nat} :
    grammar.ownIndex? label = some index ↔ grammar.isVariant label.symbol ∧ label.index = index := by
  unfold ownIndex?
  split <;> simp_all

theorem isSome_ownIndex? (label : Label) :
    (grammar.ownIndex? label).isSome = grammar.isVariant label.symbol := by
  unfold ownIndex?
  split <;> simp_all

/-- Labels agree where the indices that they hand on do not differ. -/
theorem agree_iff_ownIndex? {left right : Label} : grammar.agree left right ↔
    ∀ one two, grammar.ownIndex? left = some one → grammar.ownIndex? right = some two → one = two := by
  simp only [agree_iff, ownIndex?_eq_some_iff]
  constructor
  · rintro same one two ⟨first, rfl⟩ ⟨second, rfl⟩
    exact same first second
  · exact fun same first second => same _ _ ⟨first, rfl⟩ ⟨second, rfl⟩

/-- A label that inherits an index hands it on, if it is variant just where there is one. -/
theorem ownIndex?_inherit {lhs : Symbol} {index? : Option Nat}
    (varies : grammar.isVariant lhs = index?.isSome) :
    grammar.ownIndex? (grammar.inherit lhs index?) = index? := by
  cases index? with
  | none => exact ownIndex?_of_not_isVariant (by simpa using varies)
  | some index =>
    have varies : grammar.isVariant lhs := by simpa using varies
    rw [ownIndex?_of_isVariant (by simpa using varies), inherit, index_label_of_isVariant varies]

/-- All variant labels bear the one index, and there is one if any of the labels is variant. -/
def Carries (grammar : Grammar) (labels : List Label) (index? : Option Nat) : Prop :=
  (∀ label ∈ labels, grammar.isVariant label.symbol → index? = some label.index) ∧
    (index?.isSome → ∃ label ∈ labels, grammar.isVariant label.symbol)

variable {front back labels : List Label} {left right label : Label} {index? frontIndex? backIndex? : Option Nat}

theorem carries_nil : grammar.Carries [] index? ↔ index? = none := by
  simp [Carries]

theorem carries_singleton : grammar.Carries [label] index? ↔ index? = grammar.ownIndex? label := by
  cases varies : grammar.isVariant label.symbol with
  | true =>
    rw [ownIndex?_of_isVariant varies]
    simp [Carries, varies]
  | false =>
    rw [ownIndex?_of_not_isVariant varies]
    simp [Carries, varies]

/-- Labels have one common index at most. -/
theorem Carries.unique {other? : Option Nat} (carries : grammar.Carries labels index?)
    (others : grammar.Carries labels other?) : index? = other? := by
  by_cases varied : ∃ label ∈ labels, grammar.isVariant label.symbol
  · obtain ⟨label, inside, varies⟩ := varied
    exact (carries.1 label inside varies).trans (others.1 label inside varies).symm
  · have none : ∀ {common : Option Nat}, grammar.Carries labels common → common = Option.none := fun carries =>
      Option.not_isSome_iff_eq_none.mp fun some => varied (carries.2 some)
    exact (none carries).trans (none others).symm

/-- Two lists of labels have a common index if theirs do not differ. -/
theorem Carries.append (first : grammar.Carries front frontIndex?) (second : grammar.Carries back backIndex?)
    (same : ∀ one two, frontIndex? = some one → backIndex? = some two → one = two) :
    grammar.Carries (front ++ back) (frontIndex?.or backIndex?) := by
  constructor
  · intro label inside varies
    rcases List.mem_append.mp inside with inside | inside
    · rw [first.1 label inside varies, Option.some_or]
    · have behind := second.1 label inside varies
      cases before : frontIndex? with
      | none => rw [Option.none_or, behind]
      | some one => rw [Option.some_or, same one label.index before behind]
  · intro some
    cases before : frontIndex? with
    | none =>
      rw [before, Option.none_or] at some
      obtain ⟨label, inside, varies⟩ := second.2 some
      exact ⟨label, List.mem_append_right _ inside, varies⟩
    | some one =>
      obtain ⟨label, inside, varies⟩ := first.2 (before ▸ rfl)
      exact ⟨label, List.mem_append_left _ inside, varies⟩

/-- The first two of several labels with a common index agree. -/
theorem Carries.agree (carries : grammar.Carries (left :: right :: labels) index?) :
    grammar.agree left right := by
  refine agree_iff.mpr fun first second => ?_
  have one := carries.1 left List.mem_cons_self first
  have two := carries.1 right (List.mem_cons_of_mem _ List.mem_cons_self) second
  exact Option.some.inj (one.symm.trans two)

/-- The common index of two labels is the one that a production hands on from them. -/
theorem Carries.pair (carries : grammar.Carries [left, right] index?) :
    index? = (grammar.ownIndex? left).or (grammar.ownIndex? right) :=
  carries.unique ((carries_singleton.mpr rfl).append (carries_singleton.mpr rfl)
    (agree_iff_ownIndex?.mp carries.agree))

/-- A label that hands on what the first two hand on can stand in for them. -/
theorem Carries.join (carries : grammar.Carries (left :: right :: labels) index?)
    (joined : grammar.ownIndex? label = (grammar.ownIndex? left).or (grammar.ownIndex? right)) :
    grammar.Carries (label :: labels) index? := by
  have kept : ∀ other, other ∈ labels → other ∈ left :: right :: labels := fun other inside =>
    List.mem_cons_of_mem _ (List.mem_cons_of_mem _ inside)
  have varies : grammar.isVariant label.symbol =
      (grammar.isVariant left.symbol || grammar.isVariant right.symbol) := by
    rw [← isSome_ownIndex?, joined, Option.isSome_or, isSome_ownIndex?, isSome_ownIndex?]
  constructor
  · refine List.forall_mem_cons.mpr ⟨fun own => ?_, fun other inside => carries.1 other (kept other inside)⟩
    have index := joined.symm.trans (ownIndex?_of_isVariant own)
    rcases Option.or_eq_some_iff.mp index with first | ⟨-, second⟩
    · obtain ⟨own, same⟩ := ownIndex?_eq_some_iff.mp first
      exact same ▸ carries.1 left List.mem_cons_self own
    · obtain ⟨own, same⟩ := ownIndex?_eq_some_iff.mp second
      exact same ▸ carries.1 right (List.mem_cons_of_mem _ List.mem_cons_self) own
  · intro some
    obtain ⟨other, inside, own⟩ := carries.2 some
    rcases List.mem_cons.mp inside with rfl | inside
    · exact ⟨label, List.mem_cons_self, by simp [varies, own]⟩
    · rcases List.mem_cons.mp inside with rfl | inside
      · exact ⟨label, List.mem_cons_self, by simp [varies, own]⟩
      · exact ⟨other, List.mem_cons_of_mem _ inside, own⟩

end GrammarReach.Grammar
