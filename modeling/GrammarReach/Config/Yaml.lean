import GrammarReach.Config.Document
import GrammarReach.Yaml.Printer

namespace GrammarReach

namespace Overrides

/-- All settings of a configuration, as overrides. A count symbol or direct labels that are not set
are left out. -/
def ofConfig (config : Config) : Overrides :=
  { variant := some config.variant
    scc := some config.passes.scc
    fold := some config.passes.fold
    interDyck := some config.passes.interDyck
    timeoutSecs := some config.timeoutSecs
    solve := some config.solve
    strictGrammar := some config.strictGrammar
    countSymbol := config.countSymbol
    directLabels := if config.directLabels.isEmpty then none else some config.directLabels }

/-- Members of a record, from those of its fields that are given. -/
def members (fields : List (String × Option Yaml.Node)) : Yaml.Node :=
  .mapping (fields.filterMap fun (name, value?) =>
    value?.map fun value => (.scalar none .plain name, value))

/-- Overrides as a node. What is not overridden is left out. -/
def toNode (overrides : Overrides) : Yaml.Node :=
  let bool (value? : Option Bool) : Option Yaml.Node :=
    value?.map fun value => .scalar none .plain (if value then "true" else "false")
  let passes := members
    [("scc", bool overrides.scc), ("fold", bool overrides.fold),
      ("inter_dyck", bool overrides.interDyck)]
  let anyPass := [overrides.scc, overrides.fold, overrides.interDyck].any Option.isSome
  members
    [("variant", overrides.variant.map (Yaml.Node.ofText ·.longName)),
      ("simplify", if anyPass then some passes else none),
      ("timeout_secs", overrides.timeoutSecs.map (.scalar none .plain <| toString ·)),
      ("solve", bool overrides.solve),
      ("strict_grammar", bool overrides.strictGrammar),
      ("count_symbol", overrides.countSymbol.map .ofText),
      ("direct_labels", overrides.directLabels.map fun labels => .sequence (labels.map .ofText))]

end Overrides

/-- A document as a node. A document without a version says so by a null. -/
def ConfigDocument.toNode (document : ConfigDocument) : Yaml.Node :=
  let version := document.version.elim "null" toString
  Overrides.members
    [("version", some (.scalar none .plain version)),
      ("preset", some (.ofText document.preset.name)),
      ("overrides", document.overrides.map Overrides.toNode)]

namespace Config

/-- The document that describes a configuration. -/
def toDocument (config : Config) : ConfigDocument :=
  { version := some 1, preset := .baseline, overrides := some (.ofConfig config) }

def toYaml (config : Config) : String := config.toDocument.toNode.toText

end Config

end GrammarReach
