import GrammarReach.Config.Basic
import GrammarReach.Yaml.Value

/-!
Configuration documents: a version, a preset, and what overrides it.

Every field of the overrides may be left out or null, and then the preset decides. Fields that no one
knows are refused.
-/

namespace GrammarReach

/-- The settings that override those of a preset. -/
structure Overrides where
  variant : Option Variant := none
  scc : Option Bool := none
  fold : Option Bool := none
  interDyck : Option Bool := none
  timeoutSecs : Option Nat := none
  solve : Option Bool := none
  strictGrammar : Option Bool := none
  countSymbol : Option String := none
  directLabels : Option (List String) := none

namespace Overrides

/-- Lays the settings that are given over a configuration. -/
def apply (overrides : Overrides) (base : Config) : Config :=
  { variant := overrides.variant.getD base.variant
    passes :=
      { scc := overrides.scc.getD base.passes.scc
        fold := overrides.fold.getD base.passes.fold
        interDyck := overrides.interDyck.getD base.passes.interDyck }
    timeoutSecs := overrides.timeoutSecs.getD base.timeoutSecs
    solve := overrides.solve.getD base.solve
    strictGrammar := overrides.strictGrammar.getD base.strictGrammar
    countSymbol := overrides.countSymbol.or base.countSymbol
    directLabels := overrides.directLabels.getD base.directLabels }

/-- Reads the choice of passes into overrides. -/
def withPasses? (overrides : Overrides) (node : Yaml.Node) : Option Overrides := do
  let members ← node.record? ["scc", "fold", "inter_dyck"]
  let pass (name : String) : Option (Option Bool) :=
    Yaml.Node.field? members name none (Yaml.Node.nullable? Yaml.Node.bool?)
  return { overrides with
    scc := ← pass "scc"
    fold := ← pass "fold"
    interDyck := ← pass "inter_dyck" }

def settingNames : List String :=
  ["variant", "simplify", "timeout_secs", "solve", "strict_grammar", "count_symbol",
    "direct_labels"]

/-- Reads overrides. -/
def ofNode? (node : Yaml.Node) : Option Overrides := do
  let members ← node.record? settingNames
  let setting {α : Type} (name : String) (read : Yaml.Node → Option α) : Option (Option α) :=
    Yaml.Node.field? members name none (Yaml.Node.nullable? read)
  let overrides : Overrides :=
    { variant := ← setting "variant" (·.name?.bind Variant.ofLongName?)
      timeoutSecs := ← setting "timeout_secs" (Yaml.Node.natural? Text.longBound)
      solve := ← setting "solve" Yaml.Node.bool?
      strictGrammar := ← setting "strict_grammar" Yaml.Node.bool?
      countSymbol := ← setting "count_symbol" Yaml.Node.text?
      directLabels := ← setting "direct_labels" (Yaml.Node.list? Yaml.Node.text?) }
  return (← setting "simplify" overrides.withPasses?).getD overrides

end Overrides

structure ConfigDocument where
  version : Option Nat := none
  preset : Preset := .baseline
  overrides : Option Overrides := none

namespace ConfigDocument

def supportedVersions : List Nat := [1]

/-- Reads a document from its root. -/
def ofNode? (node : Yaml.Node) : Option ConfigDocument := do
  let members ← node.record? ["version", "preset", "overrides"]
  return {
    version := ← Yaml.Node.field? members "version" none
      (Yaml.Node.nullable? (Yaml.Node.natural? Text.wordBound))
    preset := ← Yaml.Node.field? members "preset" .baseline (·.name?.bind Preset.ofName?)
    overrides := ← Yaml.Node.field? members "overrides" none
      (Yaml.Node.nullable? Overrides.ofNode?) }

/-- The configuration that a document describes. It has to be valid. -/
def resolve (document : ConfigDocument) : Except ConfigError Config := do
  match document.version with
  | none => throw .missingVersion
  | some version =>
    if !supportedVersions.contains version then
      throw (.unsupportedVersion version supportedVersions)
  let base := Config.ofPreset document.preset
  let config := document.overrides.elim base (·.apply base)
  config.validate
  return config

/-- Reads a document. A text without one counts as a document without fields. -/
def parse (text : String) : Except ConfigError ConfigDocument :=
  match Yaml.Node.parse text with
  | .error fault => .error (.document fault)
  | .ok none => .ok {}
  | .ok (some root) =>
    match ofNode? root with
    | some document => .ok document
    | none => .error (.document .mismatched)

end ConfigDocument

/-- Reads a configuration from the text of a document. -/
def Config.ofYaml (text : String) : Except ConfigError Config := do
  (← ConfigDocument.parse text).resolve

end GrammarReach
