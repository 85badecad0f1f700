import GrammarReach.Proofs.Grammar.Written

/-!
What the symbols of a grammar stand for.

A generated symbol stands for the beginning of the production that it was generated for, every other
symbol for itself. Read like this, each production in the tables comes to one that was written down, or
derives a generated symbol from what that stands for. Where no written name could have been generated,
this holds of the whole grammar, since no production then writes the name of a generated symbol.
-/

namespace GrammarReach

/-- No name that a production writes could have been generated. -/
def Production.Clean (production : Production) : Prop := ∀ name ∈ production.names, ¬ IsGeneratedName name

namespace Grammar

variable {grammar before after : Grammar} {production : Production} {productions : List Production}
  {symbol : Symbol}

def Generated (grammar : Grammar) (symbol : Symbol) : Prop :=
  ∃ name, grammar.name? symbol = some name ∧ IsGeneratedName name

theorem generated_of_grown (grown : before.names <+: after.names) (declared : before.Declared symbol) :
    after.Generated symbol ↔ before.Generated symbol := by
  simp only [Generated, name?_eq_of_grown grown declared]

/-- How the productions of a grammar read when each symbol is replaced by what it stands for. -/
structure Reads (grammar : Grammar) (productions : List Production) (stands : Symbol → List Symbol) :
    Prop where
  nonempty : ∀ symbol, stands symbol ≠ []
  itself : ∀ symbol, ¬ grammar.Generated symbol → stands symbol = [symbol]
  written : ∀ rule, grammar.Has rule → ¬ grammar.Generated rule.lhs → ∃ production ∈ productions,
    grammar.name? rule.lhs = some production.lhs ∧
      (rule.rhs.flatMap stands).map grammar.name? = production.rhs.map some
  generated : ∀ rule, grammar.Has rule → grammar.Generated rule.lhs →
    stands rule.lhs = rule.rhs.flatMap stands ∧
      grammar.isVariant rule.lhs = rule.rhs.any grammar.isVariant

theorem reads_empty : Reads empty [] ([·]) :=
  ⟨fun _ => List.cons_ne_nil _ _, fun _ _ => rfl, fun rule has => absurd has (not_has_empty rule),
    fun rule has => absurd has (not_has_empty rule)⟩

/-- The symbols that a production generates stand for what it begins with. -/
def standsBehind (stands : Symbol → List Symbol) (fresh : Symbol) (rhs : List Symbol) (symbol : Symbol) :
    List Symbol :=
  if fresh ≤ symbol ∧ symbol - fresh + 2 < rhs.length then rhs.take (symbol - fresh + 2)
  else stands symbol

theorem standsBehind_of_lt {stands : Symbol → List Symbol} {fresh : Symbol} {rhs : List Symbol}
    (below : symbol < fresh) : standsBehind stands fresh rhs symbol = stands symbol :=
  if_neg fun above => Nat.not_le_of_lt below above.1

theorem standsBehind_add {stands : Symbol → List Symbol} {fresh : Symbol} {rhs : List Symbol}
    {position : Nat} (inside : position + 2 < rhs.length) :
    standsBehind stands fresh rhs (fresh + position) = rhs.take (position + 2) := by
  rw [standsBehind, Nat.add_sub_cancel_left, if_pos ⟨Nat.le_add_right _ _, inside⟩]

section Adds

variable {stands : Symbol → List Symbol} {fresh lhs : Symbol} {rhs : List Symbol}
  (adds : Adds before after production fresh lhs rhs)

include adds

theorem Adds.not_generated (clean : production.Clean) (own : symbol ∈ lhs :: rhs) :
    ¬ after.Generated symbol := by
  rintro ⟨name, named, form⟩
  obtain ⟨written, listed, same⟩ := adds.named own
  rw [named, Option.some.injEq] at same
  exact clean written listed (same ▸ form)

theorem Adds.generated_fresh {position : Nat} (inside : position + 2 < rhs.length) :
    after.Generated (fresh + position) := by
  obtain ⟨name, named⟩ := declared_iff.mp (adds.declared_fresh inside)
  exact ⟨name, named, _, (adds.generated _ (Nat.le_add_right _ position) name named).2.2⟩

/-- The symbols of a production stand for themselves. -/
theorem Adds.standsBehind_own (reads : Reads before productions stands) (clean : production.Clean)
    (own : symbol ∈ lhs :: rhs) : standsBehind stands fresh rhs symbol = [symbol] := by
  have below : symbol < fresh := by
    rcases List.mem_cons.mp own with rfl | inside
    · exact adds.lhs_lt
    · exact adds.rhs_lt symbol inside
  rw [standsBehind_of_lt below]
  refine reads.itself symbol fun ⟨name, named, form⟩ => ?_
  exact adds.not_generated clean own ⟨name, name?_of_grown adds.names named, form⟩

/-- A link of the chain joins the beginning of the production up to its position and the next symbol. -/
theorem Adds.flatMap_link (reads : Reads before productions stands) (clean : production.Clean)
    {position : Nat} (inside : position + 1 < rhs.length) :
    (link lhs fresh rhs position inside).rhs.flatMap (standsBehind stands fresh rhs) =
      rhs.take (position + 2) := by
  have own := fun index (below : index < rhs.length) =>
    adds.standsBehind_own reads clean (List.mem_cons_of_mem _ (List.getElem_mem below))
  have front : standsBehind stands fresh rhs (if position = 0 then rhs[0] else fresh + position - 1) =
      rhs.take (position + 1) := by
    cases position with
    | zero =>
      rw [if_pos rfl, own, List.take_succ_eq_append_getElem (Nat.lt_of_succ_lt inside)]
      rfl
    | succ position =>
      rw [if_neg (Nat.succ_ne_zero _)]
      exact standsBehind_add inside
  simp only [link, List.flatMap_cons, List.flatMap_nil, List.append_nil, front, own]
  exact (List.take_succ_eq_append_getElem inside).symm

/-- The last part of a production reads as the production, and each part before it derives a generated
symbol from what that stands for. -/
theorem Adds.reads_part (reads : Reads before productions stands) (clean : production.Clean) {rule : Rule}
    (part : rule ∈ parts lhs fresh rhs) :
    rule.lhs = lhs ∧ rule.rhs.flatMap (standsBehind stands fresh rhs) = rhs ∨
      rule.lhs ≠ lhs ∧ after.Generated rule.lhs ∧
        standsBehind stands fresh rhs rule.lhs = rule.rhs.flatMap (standsBehind stands fresh rhs) := by
  rcases parts_cases part with rfl | ⟨position, inside, rfl⟩
  · have own : rhs.flatMap (standsBehind stands fresh rhs) = rhs.flatMap ([·]) :=
      List.flatMap_congr fun symbol inside =>
        adds.standsBehind_own reads clean (List.mem_cons_of_mem _ inside)
    exact .inl ⟨rfl, own.trans (List.flatMap_singleton' rhs)⟩
  · rw [adds.flatMap_link reads clean inside]
    by_cases last : position + 2 = rhs.length
    · rw [last, List.take_length]
      exact .inl ⟨lhs_link_last last, rfl⟩
    · have earlier : position + 2 < rhs.length := by omega
      have made := adds.generated_fresh earlier
      rw [lhs_link last, standsBehind_add earlier]
      refine .inr ⟨fun same => ?_, made, rfl⟩
      exact adds.not_generated clean List.mem_cons_self (same ▸ made)

/-- What an earlier production is about stands for what it stood for. -/
theorem Adds.standsBehind_old (formed : before.WellFormed) {rule : Rule} (has : before.Has rule)
    (inside : symbol ∈ rule.symbols) : standsBehind stands fresh rhs symbol = stands symbol :=
  standsBehind_of_lt (Nat.lt_of_le_of_lt (formed.known rule has symbol inside).2 adds.size_lt)

theorem Adds.reads (formed : before.WellFormed) (reads : Reads before productions stands)
    (clean : production.Clean) :
    Reads after (productions ++ [production]) (standsBehind stands fresh rhs) where
  nonempty symbol := by
    unfold standsBehind
    split
    · next inside =>
      have long := inside.2
      rw [ne_eq, List.take_eq_nil_iff, not_or]
      exact ⟨Nat.succ_ne_zero _, List.ne_nil_of_length_pos (Nat.zero_lt_of_lt long)⟩
    · exact reads.nonempty symbol
  itself symbol plain := by
    unfold standsBehind
    split
    · next inside =>
      have made := adds.generated_fresh inside.2
      rw [Nat.add_sub_cancel' inside.1] at made
      exact absurd made plain
    · exact reads.itself symbol fun ⟨name, named, form⟩ =>
        plain ⟨name, name?_of_grown adds.names named, form⟩
  written rule has plain := by
    rcases (adds.has rule).mp has with old | part
    · have known := formed.known rule old
      have same : rule.rhs.flatMap (standsBehind stands fresh rhs) = rule.rhs.flatMap stands :=
        List.flatMap_congr fun symbol inside =>
          adds.standsBehind_old formed old (List.mem_cons_of_mem _ inside)
      have knownLhs := known rule.lhs List.mem_cons_self
      obtain ⟨other, listed, head, rest⟩ := reads.written rule old fun made =>
        plain ((generated_of_grown adds.names knownLhs).mpr made)
      refine ⟨other, List.mem_append_left _ listed, name?_of_grown adds.names head, ?_⟩
      rw [same]
      exact map_name?_of_grown adds.names rest
    · refine ⟨production, List.mem_append_right _ (List.mem_singleton_self _), ?_⟩
      rcases adds.reads_part reads clean part with ⟨head, whole⟩ | ⟨-, made, -⟩
      · rw [head, whole]
        exact ⟨adds.lhs_named, adds.rhs_named⟩
      · exact absurd made plain
  generated rule has made := by
    rcases (adds.has rule).mp has with old | part
    · have known := formed.known rule old
      have knownLhs := known rule.lhs List.mem_cons_self
      obtain ⟨stood, varied⟩ := reads.generated rule old ((generated_of_grown adds.names knownLhs).mp made)
      rw [adds.standsBehind_old formed old List.mem_cons_self, stood,
        isVariant_of_grown adds.names knownLhs, varied,
        any_isVariant_of_grown adds.names fun symbol inside => known symbol (List.mem_cons_of_mem _ inside)]
      exact ⟨List.flatMap_congr fun symbol inside =>
        (adds.standsBehind_old formed old (List.mem_cons_of_mem _ inside)).symm, rfl⟩
    · rcases adds.reads_part reads clean part with ⟨head, -⟩ | ⟨other, -, stood⟩
      · exact absurd (head ▸ made) (adds.not_generated clean List.mem_cons_self)
      · exact ⟨stood, adds.varies rule part other⟩

end Adds

/-- Where no written name could have been generated, the productions of a grammar read as those that were
written down. -/
theorem exists_reads (productions : List Production) (clean : ∀ production ∈ productions, production.Clean) :
    ∃ stands, Reads (ofProductions productions) productions stands := by
  revert clean
  refine ofProductions_induction (motive := fun productions grammar =>
    (∀ production ∈ productions, production.Clean) → ∃ stands, Reads grammar productions stands) ?_ ?_ productions
  · exact fun _ => ⟨_, reads_empty⟩
  · intro earlier before after production fresh lhs rhs formed adds ih clean
    obtain ⟨stands, reads⟩ := ih fun other listed => clean other (List.mem_append_left _ listed)
    exact ⟨_, adds.reads formed reads (clean production (by simp))⟩

end Grammar

end GrammarReach
