import GrammarReach.Graph.Text
import GrammarReach.Proofs.Grammar.Symbols
import GrammarReach.Proofs.Graph.History
import GrammarReach.Proofs.Text.Numeral

namespace GrammarReach.EdgeListFormat

open Multigraph (Edit ofEdits)

def index? (grammar : Grammar) (kind : Kind) : List String → Option Nat
  | [] => some 0
  | field :: _ => if grammar.isVariant kind then Text.natural? Text.wordBound field else some 0

/-- The edit that the fields of a line ask for, if the line is not passed over. There is none
for a line that is refused. -/
def editOf? (format : EdgeListFormat) (grammar : Grammar) : List String → Option (Option Edit)
  | src :: dst :: label :: rest => do
    let src ← Text.natural? Text.wordBound src
    let dst ← Text.natural? Text.wordBound dst
    if format.marker? = some label then return some (.markSource src)
    match format.edgeKind? grammar label with
    | none => return none
    | some kind =>
      let index ← index? grammar kind rest
      return some (.addEdge ⟨src, dst, ⟨kind, index⟩⟩)
  | _ => none

def edits (format : EdgeListFormat) (grammar : Grammar) (rows : List (List String)) : List Edit :=
  rows.filterMap fun fields => (format.editOf? grammar fields).join

variable {format : EdgeListFormat} {grammar : Grammar} {graph : Multigraph}

private theorem toOption_index (line : Nat) (kind : Kind) (fields : List String) :
    (index grammar line kind fields).toOption = index? grammar kind fields := by
  cases fields with
  | nil => rfl
  | cons field rest =>
    rw [index, index?]
    split
    · cases Text.natural? Text.wordBound field <;> rfl
    · rfl

private theorem toOption_node (line : Nat) (field : String) :
    (node line field).toOption = Text.natural? Text.wordBound field := by
  rw [node]
  cases Text.natural? Text.wordBound field <;> rfl

private theorem toOption_bind {α β : Type} (first : Except Error α) (rest : α → Except Error β) :
    (first >>= rest).toOption = first.toOption.bind fun middle => (rest middle).toOption := by
  cases first <;> rfl

private theorem toOption_eq_some_iff {α : Type} {result : Except Error α} {value : α} :
    result.toOption = some value ↔ result = .ok value := by
  cases result <;> simp [Except.toOption]

/-- A record is taken just when it has an entry, and does what that says. -/
theorem toOption_addRecord (record : Text.Record) :
    (format.addRecord grammar graph record).toOption =
      (format.editOf? grammar record.fields).map fun said => said.elim graph graph.edit := by
  obtain ⟨line, fields⟩ := record
  match fields with
  | [] | [_] | [_, _] => rfl
  | src :: dst :: label :: rest =>
    simp only [addRecord, editOf?, toOption_bind, toOption_node, Option.bind_eq_bind, Option.map_bind,
      Function.comp_def]
    refine Option.bind_congr fun src _ => Option.bind_congr fun dst _ => ?_
    split
    · rfl
    · cases format.edgeKind? grammar label with
      | none => rfl
      | some kind =>
        dsimp only
        rw [toOption_bind, toOption_index]
        cases index? grammar kind rest <;> rfl

/-- Records are taken when each of them has an entry, and then their edits are carried out in turn. -/
private theorem foldlM_addRecord_eq_ok_iff {records : List Text.Record} : ∀ {graph final : Multigraph},
    records.foldlM (format.addRecord grammar) graph = .ok final ↔
      (∀ fields ∈ records.map (·.fields), (format.editOf? grammar fields).isSome) ∧
        (format.edits grammar (records.map (·.fields))).foldl Multigraph.edit graph = final := by
  induction records with
  | nil => simp [edits, pure, Except.pure]
  | cons record records ih =>
    intro graph final
    rw [List.foldlM_cons, ← toOption_eq_some_iff, toOption_bind, toOption_addRecord, List.map_cons,
      List.forall_mem_cons, edits, List.filterMap_cons]
    cases format.editOf? grammar record.fields with
    | none => simp
    | some said =>
      rw [Option.map_some, Option.bind_some, toOption_eq_some_iff, ih]
      cases said <;> simp [edits]

/-- A text is read when its direct labels are known and each of its lines has an entry. -/
theorem read_eq_ok_iff {text : String} : format.read grammar text = .ok graph ↔
    ∃ direct, format.direct.mapM grammar.lookup = .ok direct ∧
      (∀ fields ∈ (Text.records text).map (·.fields), (format.editOf? grammar fields).isSome) ∧
      ofEdits direct (format.edits grammar ((Text.records text).map (·.fields))) = graph := by
  unfold read
  cases format.direct.mapM grammar.lookup with
  | error error => simp [bind, Except.bind]
  | ok direct =>
    simp only [Except.ok.injEq, exists_eq_left']
    exact foldlM_addRecord_eq_ok_iff

/-- A label that can be written so that it is read back: its symbol is found under a name that makes a field
and marks no source, and only a variant symbol has an index. -/
structure Legible (format : EdgeListFormat) (grammar : Grammar) (label : Label) : Prop where
  named : ∃ name : String, Text.IsField name.toList ∧ format.marker? ≠ some name ∧
    format.edgeKind? grammar name = some label.symbol
  bounded : label.index < Text.wordBound
  plain : grammar.isVariant label.symbol = false → label.index = 0

private theorem index?_bounded {kind : Kind} {fields : List String} {number : Nat}
    (found : index? grammar kind fields = some number) :
    number < Text.wordBound ∧ (grammar.isVariant kind = false → number = 0) := by
  have zero : 0 < Text.wordBound := by decide
  cases fields with
  | nil =>
    cases found
    exact ⟨zero, fun _ => rfl⟩
  | cons field rest =>
    rw [index?] at found
    split at found
    · next variant => exact ⟨Text.lt_of_natural? found, fun plain => by rw [variant] at plain; cases plain⟩
    · cases found
      exact ⟨zero, fun _ => rfl⟩

/-- A line marks a source, if the format has a marker for that, or adds an edge of a known kind. -/
theorem editOf?_cases {fields : List String} {edit : Edit}
    (entry : format.editOf? grammar fields = some (some edit)) :
    (∃ node < Text.wordBound, edit = .markSource node ∧ ∃ marker ∈ fields, format.marker? = some marker) ∨
    ∃ edge, edit = .addEdge edge ∧ edge.src < Text.wordBound ∧ edge.dst < Text.wordBound ∧
      (∃ name ∈ fields, format.marker? ≠ some name ∧
        format.edgeKind? grammar name = some edge.label.symbol) ∧
      edge.label.index < Text.wordBound ∧
      (grammar.isVariant edge.label.symbol = false → edge.label.index = 0) := by
  match fields with
  | [] | [_] | [_, _] => cases entry
  | src :: dst :: label :: rest =>
    have written : label ∈ src :: dst :: label :: rest := by simp
    simp only [editOf?, Option.bind_eq_bind, Option.bind_eq_some_iff] at entry
    obtain ⟨first, one, second, two, entry⟩ := entry
    split at entry
    · next marks =>
      cases entry
      exact Or.inl ⟨first, Text.lt_of_natural? one, rfl, label, written, marks⟩
    · next other =>
      split at entry
      · cases entry
      · next kind known =>
        obtain ⟨index, there, same⟩ := Option.bind_eq_some_iff.mp entry
        cases same
        exact Or.inr ⟨_, rfl, Text.lt_of_natural? one, Text.lt_of_natural? two,
          ⟨label, written, other, known⟩, index?_bounded there⟩

theorem mem_edits {rows : List (List String)} {edit : Edit} :
    edit ∈ format.edits grammar rows ↔ ∃ fields ∈ rows, format.editOf? grammar fields = some (some edit) := by
  simp only [edits, List.mem_filterMap, Option.join_eq_some_iff]

/-- No line merges nodes. -/
theorem merge_not_mem_edits (format : EdgeListFormat) (grammar : Grammar) (rows : List (List String))
    (node target : Node) :
    .merge node target ∉ format.edits grammar rows := by
  intro listed
  obtain ⟨fields, -, entry⟩ := mem_edits.mp listed
  obtain ⟨_, _, impossible, -⟩ | ⟨_, impossible, -⟩ := editOf?_cases entry <;> cases impossible

/-- No line adds a node by itself. -/
theorem addNode_not_mem_edits (rows : List (List String)) (node : Node) :
    .addNode node ∉ format.edits grammar rows := by
  intro listed
  obtain ⟨fields, -, entry⟩ := mem_edits.mp listed
  obtain ⟨_, _, impossible, -⟩ | ⟨_, impossible, -⟩ := editOf?_cases entry <;> cases impossible

/-- A graph whose edges and sources can be written so that they are read back. -/
structure Readable (format : EdgeListFormat) (grammar : Grammar) (graph : Multigraph) : Prop where
  valid : graph.Valid
  direct : ∃ kinds, format.direct.mapM grammar.lookup = .ok kinds ∧
    graph.directKinds = (Multigraph.withDirectKinds kinds).directKinds
  nodes : ∀ node, graph.hasNode node → node < Text.wordBound
  edges : ∀ edge, graph.hasEdge edge → format.Legible grammar edge.label
  sources : ∀ node, graph.isSource node →
    ∃ marker, format.marker? = some marker ∧ Text.IsField marker.toList

private theorem isField_of_mem_rows {text : String} {fields : List String}
    (inside : fields ∈ (Text.records text).map (·.fields)) {field : String} (listed : field ∈ fields) :
    Text.IsField field.toList := by
  obtain ⟨record, there, rfl⟩ := List.mem_map.mp inside
  exact Text.isField_of_mem_records there listed

private theorem source_of_mem_edits {text : String} {node : Node}
    (listed : .markSource node ∈ format.edits grammar ((Text.records text).map (·.fields))) :
    node < Text.wordBound ∧ ∃ marker, format.marker? = some marker ∧ Text.IsField marker.toList := by
  obtain ⟨fields, inside, entry⟩ := mem_edits.mp listed
  obtain ⟨_, bounded, same, marker, written, marks⟩ | ⟨_, impossible, -⟩ := editOf?_cases entry
  · cases same
    exact ⟨bounded, marker, marks, isField_of_mem_rows inside written⟩
  · cases impossible

private theorem edge_of_mem_edits {text : String} {edge : Edge}
    (listed : .addEdge edge ∈ format.edits grammar ((Text.records text).map (·.fields))) :
    edge.src < Text.wordBound ∧ edge.dst < Text.wordBound ∧ format.Legible grammar edge.label := by
  obtain ⟨fields, inside, entry⟩ := mem_edits.mp listed
  obtain ⟨_, _, impossible, -⟩ | ⟨_, same, src, dst, ⟨name, written, other, known⟩, bounded, plain⟩ :=
    editOf?_cases entry
  · cases impossible
  · cases same
    exact ⟨src, dst, ⟨name, isField_of_mem_rows inside written, other, known⟩, bounded, plain⟩

theorem readable_of_read {text : String} (read : format.read grammar text = .ok graph) :
    format.Readable grammar graph := by
  obtain ⟨kinds, known, -, rfl⟩ := read_eq_ok_iff.mp read
  have shows := Multigraph.shows_ofEdits kinds (format.edits grammar ((Text.records text).map (·.fields)))
  have unmerged := merge_not_mem_edits format grammar ((Text.records text).map (·.fields))
  refine ⟨shows.valid, ⟨kinds, known, shows.direct⟩, fun node live => ?_, fun edge there => ?_,
    fun node marked => ?_⟩
  · obtain listed | listed | ⟨edge, listed, stop⟩ := (Multigraph.hasNode_ofEdits unmerged node).mp live
    · exact absurd listed (addNode_not_mem_edits _ node)
    · exact (source_of_mem_edits listed).1
    · obtain ⟨src, dst, -⟩ := edge_of_mem_edits listed
      obtain rfl | rfl := stop
      · exact src
      · exact dst
  · exact (edge_of_mem_edits ((Multigraph.hasEdge_ofEdits unmerged edge).mp there).1).2.2
  · exact (source_of_mem_edits ((Multigraph.isSource_ofEdits unmerged node).mp marked)).2

end GrammarReach.EdgeListFormat
