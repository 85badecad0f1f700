import GrammarReach.Config.Basic
import GrammarReach.Json.Record

namespace GrammarReach

namespace Passes

def ofJson? (json : Json) : Option Passes := do
  let members ← json.record? ["scc", "fold", "inter_dyck"]
  return {
    scc := ← Json.field? members "scc" false Json.bool?
    fold := ← Json.field? members "fold" false Json.bool?
    interDyck := ← Json.field? members "inter_dyck" false Json.bool? }

/-- A choice of passes as a JSON value. -/
def toJson (passes : Passes) : Json :=
  .object [("scc", .bool passes.scc), ("fold", .bool passes.fold),
    ("inter_dyck", .bool passes.interDyck)]

end Passes

namespace Config

/-- The names of the settings, in order. -/
def settingNames : List String :=
  ["variant", "simplify", "timeout_secs", "solve", "strict_grammar", "count_symbol",
    "direct_labels"]

/-- Reads a configuration. A setting that is left out has the value of the baseline preset. The
values are not validated. -/
def ofJson? (json : Json) : Option Config := do
  let members ← json.record? settingNames
  let base : Config := {}
  return {
    variant := ← Json.field? members "variant" base.variant (·.name?.bind Variant.ofLongName?)
    passes := ← Json.field? members "simplify" base.passes Passes.ofJson?
    timeoutSecs := ← Json.field? members "timeout_secs" base.timeoutSecs Json.long?
    solve := ← Json.field? members "solve" base.solve Json.bool?
    strictGrammar := ← Json.field? members "strict_grammar" base.strictGrammar Json.bool?
    countSymbol := ← Json.field? members "count_symbol" base.countSymbol
      (Json.nullable? Json.string?)
    directLabels := ← Json.field? members "direct_labels" base.directLabels
      (Json.list? Json.string?) }

/-- A configuration as a JSON value. A count symbol or direct labels that are not set are left out. -/
def toJson (config : Config) : Json :=
  .object <|
    [("variant", .string config.variant.longName),
      ("simplify", config.passes.toJson),
      ("timeout_secs", .nat config.timeoutSecs),
      ("solve", .bool config.solve),
      ("strict_grammar", .bool config.strictGrammar)] ++
    config.countSymbol.toList.map (fun name => ("count_symbol", .string name)) ++
    (if config.directLabels.isEmpty then []
      else [("direct_labels", .array (config.directLabels.map .string))])

end Config

end GrammarReach
