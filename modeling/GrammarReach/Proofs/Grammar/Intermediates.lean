import GrammarReach.Proofs.Grammar.Written

/-!
Who may mention a generated symbol.

When a long production is added, each of its generated symbols is derived by one link of its chain and is
the left operand of the next, and no other production mentions it. It stays so for as long as no later
production writes its name. A name is generated against those declared so far only, so a later production
may well write it, and is then about the generated symbol.
-/

namespace GrammarReach.Grammar

variable {grammar before after : Grammar} {production : Production} {symbol : Symbol}

/-- A symbol that two links of a chain alone are about: one derives it, and one begins with it. -/
structure Private (grammar : Grammar) (links : List Rule) (symbol : Symbol) : Prop where
  derived : ∃ left right, ⟨symbol, [left, right]⟩ ∈ links ∧
    ∀ rhs, grammar.Has ⟨symbol, rhs⟩ ↔ rhs = [left, right]
  used : ∃ lhs right, ⟨lhs, [symbol, right]⟩ ∈ links ∧ right ≠ symbol ∧
    ∀ rule, grammar.Has rule ∧ symbol ∈ rule.rhs ↔ rule = ⟨lhs, [symbol, right]⟩

/-- Only the productions that are about the symbol matter. -/
theorem Private.congr {links : List Rule}
    (same : ∀ rule, symbol ∈ rule.symbols → (after.Has rule ↔ before.Has rule))
    (alone : before.Private links symbol) : after.Private links symbol := by
  obtain ⟨⟨left, right, link, derived⟩, ⟨lhs, last, next, other, used⟩⟩ := alone
  refine ⟨⟨left, right, link, fun rhs => ?_⟩, ⟨lhs, last, next, other, fun rule => ?_⟩⟩
  · rw [same ⟨symbol, rhs⟩ List.mem_cons_self, derived]
  · rw [← used]
    exact and_congr_left fun inside => same rule (List.mem_cons_of_mem _ inside)

/-- A generated symbol is derived by the link of its own position. -/
theorem eq_of_lhs_link {lhs fresh : Symbol} (own : lhs < fresh) {rhs : List Symbol}
    {place position : Nat} {below : place + 1 < rhs.length}
    (same : (link lhs fresh rhs place below).lhs = fresh + position) : place = position := by
  simp only [link] at same
  grind

/-- A generated symbol is an operand of the link behind its own position. -/
theorem eq_of_mem_rhs_link {lhs fresh : Symbol} {rhs : List Symbol} (own : ∀ symbol ∈ rhs, symbol < fresh)
    {place position : Nat} {below : place + 1 < rhs.length}
    (mentions : fresh + position ∈ (link lhs fresh rhs place below).rhs) : place = position + 1 := by
  have lower := fun index (inside : index < rhs.length) => own rhs[index] (List.getElem_mem inside)
  simp only [link, List.mem_cons, List.not_mem_nil, or_false] at mentions
  grind

section Adds

variable {fresh lhs : Symbol} {rhs : List Symbol} (adds : Adds before after production fresh lhs rhs)

include adds

/-- A new generated symbol is known to the links of its own chain alone. -/
theorem Adds.generates_private (formed : before.WellFormed) {position : Nat}
    (inside : position + 2 < rhs.length) :
    after.Private (parts lhs fresh rhs) (fresh + position) := by
  have long : 1 < rhs.length := by omega
  have unknown : ∀ rule, fresh + position ∈ rule.symbols → ¬ before.Has rule := by
    intro rule mentions has
    have known := (formed.known rule has _ mentions).2
    have above := adds.size_lt
    grind
  have links : ∀ rule, fresh + position ∈ rule.symbols →
      (after.Has rule ↔ ∃ place, ∃ below, rule = link lhs fresh rhs place below) := fun rule mentions =>
    ((adds.has rule).trans (or_iff_right (unknown rule mentions))).trans (mem_parts_iff long ..)
  have derives : link lhs fresh rhs position (by omega) = ⟨fresh + position, _⟩ :=
    congrArg (Rule.mk · _) (if_neg (by omega))
  have uses : link lhs fresh rhs (position + 1) inside = ⟨_, [fresh + position, rhs[position + 2]]⟩ := rfl
  have derived : ∀ other, after.Has ⟨fresh + position, other⟩ ↔
      (⟨fresh + position, other⟩ : Rule) = link lhs fresh rhs position (by omega) := by
    refine fun other => (links _ List.mem_cons_self).trans ⟨?_, fun same => ⟨position, _, same⟩⟩
    rintro ⟨place, below, same⟩
    obtain rfl := eq_of_lhs_link adds.lhs_lt (congrArg Rule.lhs same.symm)
    exact same
  have used : ∀ rule, after.Has rule ∧ fresh + position ∈ rule.rhs ↔
      rule = link lhs fresh rhs (position + 1) inside := by
    refine fun rule => ⟨fun ⟨has, mentions⟩ => ?_, ?_⟩
    · obtain ⟨place, below, rfl⟩ := (links rule (List.mem_cons_of_mem _ mentions)).mp has
      obtain rfl := eq_of_mem_rhs_link adds.rhs_lt mentions
      rfl
    · rintro rfl
      have mentions : fresh + position ∈ (link lhs fresh rhs (position + 1) inside).rhs :=
        uses ▸ List.mem_cons_self
      exact ⟨(links _ (List.mem_cons_of_mem _ mentions)).mpr ⟨position + 1, inside, rfl⟩, mentions⟩
  have part := fun place below => (mem_parts_iff long lhs fresh _).mpr ⟨place, below, rfl⟩
  refine ⟨⟨_, _, derives ▸ part position (by omega), fun other => ?_⟩,
    ⟨_, _, uses ▸ part (position + 1) inside, ?_, fun rule => ?_⟩⟩
  · rw [derived, derives, Rule.mk.injEq, and_iff_right rfl]
  · have own := adds.rhs_lt _ (List.getElem_mem inside)
    grind
  · rw [used, uses]

/-- A production that does not write the name of a symbol is not about it. -/
theorem Adds.keeps_private {links : List Rule} {name : String} (alone : before.Private links symbol)
    (named : before.name? symbol = some name) (unwritten : name ∉ production.names) :
    after.Private links symbol := by
  refine alone.congr fun rule mentions => (adds.has rule).trans (or_iff_left fun part => ?_)
  rcases mem_symbols_parts part mentions with own | ⟨above, -⟩
  · obtain ⟨written, listed, same⟩ := adds.named own
    have names : name = written :=
      Option.some.inj ((name?_of_grown adds.names named).symm.trans same)
    exact unwritten (names ▸ listed)
  · have known := (Declared.of_name named).2
    have behind := adds.size_lt
    grind

end Adds

theorem keeps_private_foldl {links : List Rule} {name : String} (later : List Production) :
    ∀ {start : Grammar}, start.WellFormed → start.Private links symbol →
      start.name? symbol = some name → (∀ production ∈ later, name ∉ production.names) →
        (later.foldl add start).Private links symbol := by
  induction later with
  | nil => exact fun _ alone _ _ => alone
  | cons production later ih =>
    intro start formed alone named unwritten
    obtain ⟨_, _, adds⟩ := add_adds formed.distinct production
    have first := adds.keeps_private alone named (unwritten production List.mem_cons_self)
    exact ih (adds.wellFormed formed) first (name?_of_grown adds.names named) fun other inside =>
      unwritten other (List.mem_cons_of_mem _ inside)

/-- Where a text is read, a production with more than two symbols on the right generates the symbols from
`fresh` on, one for each of its symbols but two. The name of a generated symbol is written nowhere in the
text up to its own production. If it is not written behind it either, then one production of the grammar
derives the symbol and another one begins with it, both links of its chain, and no other production of
any kind is about it. -/
theorem generated_private {text : String} (read : parse text = .ok grammar)
    (earlier : List Production) (production : Production) (later : List Production)
    (written : (Text.records text).map (·.fields) = (earlier ++ production :: later).map (·.names)) :
    ∃ fresh lhs rhs, grammar.name? lhs = some production.lhs ∧
      rhs.map grammar.name? = production.rhs.map some ∧
      (ofProductions (earlier ++ [production])).size + 1 = fresh + (production.rhs.length - 2) ∧
      ∀ position, position + 2 < production.rhs.length → ∃ name,
        grammar.name? (fresh + position) = some name ∧
        (∀ other ∈ earlier ++ [production], name ∉ other.names) ∧
        ((∀ other ∈ later, name ∉ other.names) →
          grammar.Private (parts lhs fresh rhs) (fresh + position)) := by
  obtain ⟨productions, spelled, -, rfl⟩ := parse_eq_ok_iff.mp read
  obtain rfl := Production.names_injective.list_map (spelled.symm.trans written)
  have formed := wellFormed_ofProductions earlier
  obtain ⟨lhs, rhs, adds⟩ := add_adds formed.distinct production
  have formedAfter := adds.wellFormed formed
  have whole : ofProductions (earlier ++ production :: later) =
      later.foldl add ((ofProductions earlier).add production) := ofProductions_append _ _
  have grown := (grows_foldl later formedAfter).1
  rw [whole, ofProductions_concat, ← adds.length_rhs]
  refine ⟨_, lhs, rhs, name?_of_grown grown adds.lhs_named, map_name?_of_grown grown adds.rhs_named,
    adds.size, fun position inside => ?_⟩
  obtain ⟨name, named⟩ := declared_iff.mp (adds.declared_fresh inside)
  obtain ⟨new, unwritten, -⟩ := adds.generated _ (Nat.le_add_right _ position) name named
  refine ⟨name, name?_of_grown grown named, fun other listed => ?_, fun later =>
    keeps_private_foldl _ formedAfter (adds.generates_private formed inside) named later⟩
  rcases List.mem_append.mp listed with before | own
  · exact fun old => new (mem_names_of_written before old)
  · exact List.mem_singleton.mp own ▸ unwritten

/-- A text with a production of three symbols, whose generated symbol is mentioned nowhere else. -/
def sharedText : String := "S\ta\tb\tc\nT\tS\ta\tb\n"

theorem generated_private_shared : ∃ grammar, parse sharedText = .ok grammar ∧
    grammar.name? 5 = some "S.1" ∧ ∃ lhs rhs, grammar.Private (parts lhs 5 rhs) 5 := by
  have read : parse sharedText = .ok (ofProductions [⟨"S", ["a", "b", "c"]⟩, ⟨"T", ["S", "a", "b"]⟩]) :=
    parse_eq_ok_iff.mpr ⟨_, by decide +kernel, by decide, rfl⟩
  obtain ⟨fresh, lhs, rhs, -, -, size, generated⟩ := generated_private read []
    ⟨"S", ["a", "b", "c"]⟩ [⟨"T", ["S", "a", "b"]⟩] (by decide +kernel)
  have first : fresh = 5 := Nat.succ.inj (size.symm.trans (by decide +kernel))
  subst first
  obtain ⟨name, named, -, alone⟩ := generated 0 (by decide)
  have same : (ofProductions [⟨"S", ["a", "b", "c"]⟩, ⟨"T", ["S", "a", "b"]⟩]).name? 5 = some "S.1" := by
    decide +kernel
  obtain rfl := Option.some.inj (same.symm.trans named)
  exact ⟨_, read, same, lhs, rhs, alone (by decide)⟩

/-- A text whose second line writes the name that its first line generates. -/
def capturingText : String := "S\ta\tb\tc\nS.1\tx\n"

/-- The symbol that stands for `a b` in the first line is derived from `x` by the second. -/
theorem generated_captured : ∃ grammar, parse capturingText = .ok grammar ∧
    (ofProductions []).firstGenerated ⟨"S", ["a", "b", "c"]⟩ = 5 ∧ grammar.name? 5 = some "S.1" ∧
    grammar.Has ⟨5, [2, 3]⟩ ∧ grammar.Has ⟨5, [6]⟩ ∧ ¬ grammar.Private (parts 1 5 [2, 3, 4]) 5 := by
  have unary : (ofProductions [⟨"S", ["a", "b", "c"]⟩, ⟨"S.1", ["x"]⟩]).Has ⟨5, [6]⟩ := by
    show (⟨5, 6⟩ : UnaryRule) ∈ (ofProductions [⟨"S", ["a", "b", "c"]⟩, ⟨"S.1", ["x"]⟩]).unary
    decide +kernel
  have binary : (ofProductions [⟨"S", ["a", "b", "c"]⟩, ⟨"S.1", ["x"]⟩]).Has ⟨5, [2, 3]⟩ := by
    show (⟨5, 2, 3⟩ : BinaryRule) ∈ (ofProductions [⟨"S", ["a", "b", "c"]⟩, ⟨"S.1", ["x"]⟩]).binary
    decide +kernel
  refine ⟨_, parse_eq_ok_iff.mpr ⟨_, by decide +kernel, by decide, rfl⟩, by decide +kernel,
    by decide +kernel, binary, unary, ?_⟩
  rintro ⟨⟨left, right, -, derived⟩, -⟩
  cases (derived _).mp unary

end GrammarReach.Grammar
