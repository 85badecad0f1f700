import Mathlib.Data.List.Induction
import GrammarReach.Proofs.Grammar.Productions
import GrammarReach.Proofs.Text.Record

/-!
Grammars that are written down as a list of productions.

A text gives such a list, one production a record, and reading it adds the productions in order. In the
grammar of a list no name is declared twice, and the productions are about declared symbols.
-/

namespace GrammarReach

def Rule.symbols (rule : Rule) : List Symbol := rule.lhs :: rule.rhs

theorem Production.names_injective : Function.Injective Production.names := by
  rintro ⟨lhs, rhs⟩ ⟨lhs', rhs'⟩ same
  obtain ⟨rfl, rfl⟩ := List.cons.inj same
  rfl

namespace Grammar

variable {grammar before after : Grammar} {production : Production}

def ofProductions (productions : List Production) : Grammar := productions.foldl add empty

theorem ofProductions_append (earlier later : List Production) :
    ofProductions (earlier ++ later) = later.foldl add (ofProductions earlier) :=
  List.foldl_append

theorem ofProductions_concat (earlier : List Production) (production : Production) :
    ofProductions (earlier ++ [production]) = (ofProductions earlier).add production :=
  ofProductions_append earlier [production]

theorem built_ofProductions (productions : List Production) : (ofProductions productions).Built :=
  List.foldlRecOn _ _ .empty fun _ built _ _ => built.addRule _ _

/-- No name is declared twice, and the productions are about declared symbols. -/
structure WellFormed (grammar : Grammar) : Prop where
  distinct : grammar.names.Nodup
  known : ∀ rule, grammar.Has rule → ∀ symbol ∈ rule.symbols, grammar.Declared symbol

theorem not_has_empty (rule : Rule) : ¬ empty.Has rule := by
  obtain ⟨lhs, _ | ⟨single, _ | ⟨right, _ | ⟨third, rest⟩⟩⟩⟩ := rule <;> simp [Has, empty]

theorem wellFormed_empty : empty.WellFormed :=
  ⟨List.nodup_nil, fun rule has => absurd has (not_has_empty rule)⟩

/-- The parts of a production are about its own symbols and about those it generates. -/
theorem mem_symbols_parts {lhs fresh : Symbol} {rhs : List Symbol} {rule : Rule}
    (part : rule ∈ parts lhs fresh rhs) {symbol : Symbol} (inside : symbol ∈ rule.symbols) :
    symbol ∈ lhs :: rhs ∨ fresh ≤ symbol ∧ symbol < fresh + (rhs.length - 2) := by
  rcases parts_cases part with rfl | ⟨position, below, rfl⟩
  · exact .inl inside
  · simp only [Rule.symbols, link, List.mem_cons, List.not_mem_nil, or_false] at inside
    rcases inside with head | left | right
    · split at head
      · exact .inl (head ▸ List.mem_cons_self)
      · exact .inr (by grind)
    · split at left
      · exact .inl (left ▸ List.mem_cons_of_mem _ (List.getElem_mem _))
      · exact .inr (by grind)
    · exact .inl (right ▸ List.mem_cons_of_mem _ (List.getElem_mem _))

/-- A part derives the left-hand side of the production or a generated symbol. -/
theorem lhs_of_mem_parts {lhs fresh : Symbol} {rhs : List Symbol} {rule : Rule}
    (part : rule ∈ parts lhs fresh rhs) : rule.lhs = lhs ∨ fresh ≤ rule.lhs := by
  rcases parts_cases part with rfl | ⟨position, below, rfl⟩
  · exact .inl rfl
  · by_cases last : position + 2 = rhs.length
    · exact .inl (lhs_link_last last)
    · exact .inr (lhs_link last ▸ Nat.le_add_right fresh position)

/-- Each symbol of a production is in one of its parts. -/
theorem exists_part {lhs : Symbol} {rhs : List Symbol} {symbol : Symbol} (own : symbol ∈ lhs :: rhs)
    (fresh : Symbol) : ∃ rule ∈ parts lhs fresh rhs, symbol ∈ rule.symbols := by
  rcases Nat.lt_or_ge 2 rhs.length with long | short
  · have part := fun position inside =>
      (mem_parts_iff (Nat.lt_of_succ_lt long) lhs fresh _).mpr ⟨position, inside, rfl⟩
    rcases List.mem_cons.mp own with rfl | inside
    · have last : rhs.length - 2 + 2 = rhs.length := Nat.sub_add_cancel (Nat.le_of_lt long)
      exact ⟨_, part (rhs.length - 2) (by omega), List.mem_cons.mpr (.inl (lhs_link_last last).symm)⟩
    · obtain ⟨_ | index, below, rfl⟩ := List.mem_iff_getElem.mp inside
      · exact ⟨_, part 0 (Nat.lt_of_succ_lt long), by simp [Rule.symbols, link]⟩
      · exact ⟨_, part index below, by simp [Rule.symbols, link]⟩
  · exact ⟨⟨lhs, rhs⟩, parts_of_short short lhs fresh ▸ List.mem_singleton_self _, own⟩

section Adds

variable {fresh lhs : Symbol} {rhs : List Symbol} (adds : Adds before after production fresh lhs rhs)

include adds

/-- The symbols of a production bear the names that it writes. -/
theorem Adds.symbols_named : (lhs :: rhs).map after.name? = production.names.map some := by
  rw [Production.names, List.map_cons, List.map_cons, adds.lhs_named, adds.rhs_named]

theorem Adds.length_rhs : rhs.length = production.rhs.length := by
  simpa using congrArg List.length adds.rhs_named

theorem Adds.named {symbol : Symbol} (inside : symbol ∈ lhs :: rhs) :
    ∃ name ∈ production.names, after.name? symbol = some name := by
  obtain ⟨name, named⟩ := declared_iff.mp (declared_of_map_name? adds.symbols_named symbol inside)
  exact ⟨name, (mem_iff_of_map_name? adds.symbols_named).mpr ⟨symbol, inside, named⟩, named⟩

theorem Adds.mem_names {name : String} (written : name ∈ production.names) : name ∈ after.names := by
  obtain ⟨symbol, -, named⟩ := (mem_iff_of_map_name? adds.symbols_named).mp written
  exact mem_names_of_name? named

/-- The symbols of a production, and those it generates, are declared behind it. -/
theorem Adds.declared {symbol : Symbol}
    (inside : symbol ∈ lhs :: rhs ∨ fresh ≤ symbol ∧ symbol < fresh + (rhs.length - 2)) :
    after.Declared symbol := by
  rcases inside with own | ⟨above, below⟩
  · exact declared_of_map_name? adds.symbols_named symbol own
  · have positive := adds.size_lt
    have size := adds.size
    exact ⟨by grind, by grind⟩

theorem Adds.declared_fresh {position : Nat} (inside : position + 2 < rhs.length) :
    after.Declared (fresh + position) :=
  adds.declared (.inr ⟨Nat.le_add_right _ position, Nat.add_lt_add_left (Nat.lt_sub_of_add_lt inside) _⟩)

theorem Adds.wellFormed (formed : before.WellFormed) : after.WellFormed := by
  refine ⟨adds.distinct, fun rule has symbol inside => ?_⟩
  rcases (adds.has rule).mp has with old | part
  · exact (formed.known rule old symbol inside).of_grown adds.names
  · exact adds.declared (mem_symbols_parts part inside)

end Adds

theorem WellFormed.add (formed : grammar.WellFormed) (production : Production) :
    (grammar.add production).WellFormed :=
  have ⟨_, _, adds⟩ := add_adds formed.distinct production
  adds.wellFormed formed

theorem wellFormed_ofProductions (productions : List Production) :
    (ofProductions productions).WellFormed :=
  List.foldlRecOn _ _ wellFormed_empty fun _ formed production _ => formed.add production

/-- Adding productions keeps the names that symbols have and the productions that are there. -/
theorem grows_foldl (later : List Production) : ∀ {start : Grammar}, start.WellFormed →
    start.names <+: (later.foldl add start).names ∧
      ∀ rule, start.Has rule → (later.foldl add start).Has rule := by
  induction later with
  | nil => exact fun _ => ⟨List.prefix_rfl, fun _ => id⟩
  | cons production later ih =>
    intro start formed
    obtain ⟨_, _, adds⟩ := add_adds formed.distinct production
    obtain ⟨names, has⟩ := ih (adds.wellFormed formed)
    exact ⟨adds.names.trans names, fun rule old => has rule ((adds.has rule).mpr (.inl old))⟩

/-- What the empty grammar has, and each production that is added keeps, the grammar of a list has. -/
theorem ofProductions_induction {motive : List Production → Grammar → Prop} (nil : motive [] empty)
    (concat : ∀ {earlier : List Production} {before after : Grammar} {production : Production}
      {fresh lhs : Symbol} {rhs : List Symbol}, before.WellFormed →
      Adds before after production fresh lhs rhs → motive earlier before →
      motive (earlier ++ [production]) after) (productions : List Production) :
    motive productions (ofProductions productions) := by
  induction productions using List.reverseRecOn with
  | nil => exact nil
  | append_singleton earlier production ih =>
    have formed := wellFormed_ofProductions earlier
    obtain ⟨_, _, adds⟩ := add_adds formed.distinct production
    rw [ofProductions_concat]
    exact concat formed adds ih

/-- Every name that is written is declared. -/
theorem mem_names_of_written {productions : List Production} (inside : production ∈ productions)
    {name : String} (written : name ∈ production.names) : name ∈ (ofProductions productions).names := by
  obtain ⟨earlier, later, rfl⟩ := List.append_of_mem inside
  obtain ⟨_, _, adds⟩ := add_adds (wellFormed_ofProductions earlier).distinct production
  have formed := adds.wellFormed (wellFormed_ofProductions earlier)
  rw [ofProductions_append, List.foldl_cons]
  exact (grows_foldl later formed).1.subset (adds.mem_names written)

/-- Every production that is written down was split into its parts. -/
theorem parts_of_written {productions : List Production} (inside : production ∈ productions) :
    ∃ fresh lhs rhs, (ofProductions productions).name? lhs = some production.lhs ∧
      rhs.map (ofProductions productions).name? = production.rhs.map some ∧ lhs < fresh ∧
      ∀ rule ∈ parts lhs fresh rhs, (ofProductions productions).Has rule ∧
        (rule.lhs ≠ lhs → (ofProductions productions).isVariant rule.lhs =
          rule.rhs.any (ofProductions productions).isVariant) := by
  obtain ⟨earlier, later, rfl⟩ := List.append_of_mem inside
  have formed := wellFormed_ofProductions earlier
  obtain ⟨lhs, rhs, adds⟩ := add_adds formed.distinct production
  have formedAfter := adds.wellFormed formed
  obtain ⟨grown, kept⟩ := grows_foldl later formedAfter
  rw [ofProductions_append, List.foldl_cons]
  refine ⟨_, lhs, rhs, name?_of_grown grown adds.lhs_named, map_name?_of_grown grown adds.rhs_named,
    adds.lhs_lt, fun rule part => ?_⟩
  have known : ∀ symbol ∈ rule.symbols, ((ofProductions earlier).add production).Declared symbol :=
    fun symbol inside => adds.declared (mem_symbols_parts part inside)
  refine ⟨kept rule ((adds.has rule).mpr (.inr part)), fun other => ?_⟩
  rw [isVariant_of_grown grown (known _ List.mem_cons_self), adds.varies rule part other,
    any_isVariant_of_grown grown fun symbol inside => known symbol (List.mem_cons_of_mem _ inside)]

theorem addRecord_eq (grammar : Grammar) {record : Text.Record}
    (same : record.fields = production.names) : grammar.addRecord record =
      if "" ∈ production.names then .error (.parse record.line .emptySymbolName)
      else .ok (grammar.add production) := by
  have blank : record.fields.any (·.isEmpty) ↔ "" ∈ production.names := by
    simp [same, String.isEmpty_iff]
  by_cases inside : "" ∈ production.names
  · rw [addRecord, if_pos (blank.mpr inside), if_pos inside]
  · rw [addRecord, if_neg (fun any => inside (blank.mp any)), if_neg inside, same]
    rfl

/-- Reading records one after the other adds their productions, unless one of them has an empty name. -/
private theorem foldlM_addRecord (records : List Text.Record)
    (nonempty : ∀ record ∈ records, record.fields ≠ []) : ∀ start : Grammar,
    records.foldlM addRecord start = .ok grammar ↔ ∃ productions : List Production,
      records.map (·.fields) = productions.map (·.names) ∧
        (∀ production ∈ productions, "" ∉ production.names) ∧
          grammar = productions.foldl add start := by
  induction records with
  | nil =>
    intro start
    constructor
    · rintro ⟨⟩
      exact ⟨[], rfl, by simp, rfl⟩
    · rintro ⟨productions, same, -, rfl⟩
      rw [List.map_eq_nil_iff.mp same.symm]
      rfl
  | cons record records ih =>
    intro start
    obtain ⟨production, same⟩ : ∃ production : Production, record.fields = production.names := by
      obtain ⟨lhs, rhs, same⟩ := List.exists_cons_of_ne_nil (nonempty record List.mem_cons_self)
      exact ⟨⟨lhs, rhs⟩, same⟩
    have ih := ih fun record inside => nonempty record (List.mem_cons_of_mem _ inside)
    rw [List.foldlM_cons, addRecord_eq start same]
    split
    · next empty =>
      refine iff_of_false (fun failed => nomatch failed) ?_
      rintro ⟨_ | ⟨first, productions⟩, spelled, filled, -⟩
      · cases spelled
      · obtain ⟨head, -⟩ := List.cons.inj spelled
        have names : production.names = first.names := same.symm.trans head
        exact filled first List.mem_cons_self (names ▸ empty)
    · next filled =>
      refine (ih (start.add production)).trans ⟨?_, ?_⟩
      · rintro ⟨productions, spelled, rest, rfl⟩
        refine ⟨production :: productions, ?_, ?_, rfl⟩
        · rw [List.map_cons, List.map_cons, same, spelled]
        · exact List.forall_mem_cons.mpr ⟨filled, rest⟩
      · rintro ⟨_ | ⟨⟨lhs, rhs⟩, productions⟩, spelled, rest, rfl⟩
        · cases spelled
        · obtain ⟨head, tail⟩ := List.cons.inj spelled
          refine ⟨productions, tail, fun production inside => rest production (List.mem_cons_of_mem _ inside), ?_⟩
          obtain ⟨rfl, rfl⟩ := List.cons.inj (same.symm.trans head)
          rfl

/-- A text is read if no name in it is empty, and gives the grammar of its productions. -/
theorem parse_eq_ok_iff {text : String} : parse text = .ok grammar ↔ ∃ productions : List Production,
    (Text.records text).map (·.fields) = productions.map (·.names) ∧
      (∀ production ∈ productions, "" ∉ production.names) ∧ grammar = ofProductions productions :=
  foldlM_addRecord _ (fun _ => Text.fields_ne_nil) empty

/-- A grammar that was read from a text was built by adding the productions one after the other. -/
theorem built_of_parse {text : String} (read : parse text = .ok grammar) : grammar.Built := by
  obtain ⟨productions, -, -, rfl⟩ := parse_eq_ok_iff.mp read
  exact built_ofProductions productions

end Grammar

end GrammarReach
