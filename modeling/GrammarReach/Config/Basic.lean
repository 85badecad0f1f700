import GrammarReach.Error
import GrammarReach.Text.Blank

namespace GrammarReach

/-- The solving strategy. All strategies compute the same edges. -/
inductive Variant where
  /-- One edge at a time, over the dataset alone. -/
  | standard
  /-- A closure of ancestor and descendant trees per transitive symbol. -/
  | pocr
  /-- A closure of descendant trees per transitive symbol, whose primary edges are deferred. -/
  | hierarchicalPocr
  /-- A closure over a reduced graph per transitive symbol. -/
  | focr
  /-- Edges that a transitive symbol derives from itself are kept apart from its operands. -/
  | transitiveReduction
  /-- All new edges of one generation together. -/
  | batchSemiNaive
deriving DecidableEq

/-- A text with its ASCII letters in lower case. -/
def asciiLower (text : String) : String := String.ofList (text.toList.map Char.toLower)

namespace Variant

def all : List Variant :=
  [standard, pocr, hierarchicalPocr, focr, transitiveReduction, batchSemiNaive]

/-- Whether the strategy hands transitive symbols to a closure. -/
def usesClosure : Variant → Bool
  | pocr | hierarchicalPocr | focr => true
  | standard | transitiveReduction | batchSemiNaive => false

/-- The name on the command line and in reports. -/
def shortName : Variant → String
  | standard => "standard"
  | pocr => "pocr"
  | hierarchicalPocr => "hpocr"
  | focr => "focr"
  | transitiveReduction => "tr"
  | batchSemiNaive => "semi-naive"

/-- The name in configuration documents. -/
def longName : Variant → String
  | standard => "standard"
  | pocr => "pocr"
  | hierarchicalPocr => "hierarchical-pocr"
  | focr => "focr"
  | transitiveReduction => "transitive-reduction"
  | batchSemiNaive => "batch-semi-naive"

/-- The strategy of a name in a configuration document. -/
def ofLongName? (name : String) : Option Variant := all.find? (·.longName == name)

/-- Reads a name of the command line, in letters of either case; long names and a few others are
understood as well. -/
def parse (text : String) : Except ConfigError Variant :=
  let name := asciiLower text
  match name with
  | "standard" | "std" => .ok standard
  | "pocr" => .ok pocr
  | "hpocr" | "hierarchical-pocr" => .ok hierarchicalPocr
  | "focr" => .ok focr
  | "tr" | "transitive-reduction" => .ok transitiveReduction
  | "semi-naive" | "gspan" | "batch-semi-naive" => .ok batchSemiNaive
  | _ => .error (.unknownVariant name)

end Variant

/-- A whole configuration with a name. -/
inductive Preset where
  | baseline
  | balanced
  | aggressive
deriving DecidableEq

namespace Preset

def all : List Preset := [baseline, balanced, aggressive]

def name : Preset → String
  | baseline => "baseline"
  | balanced => "balanced"
  | aggressive => "aggressive"

/-- The preset with exactly the given name. -/
def ofName? (name : String) : Option Preset := all.find? (·.name == name)

/-- Reads a name in letters of either case. -/
def parse (text : String) : Except ConfigError Preset :=
  match ofName? (asciiLower text) with
  | some preset => .ok preset
  | none => .error (.unknownPreset (asciiLower text))

end Preset

/-- Which simplification passes run before solving. -/
structure Passes where
  /-- Merge the cycles of direct edges. -/
  scc : Bool := false
  /-- Fold nodes with a single entry, a direct one, into their predecessor. -/
  fold : Bool := false
  /-- Remove bracket edges that no match can use. -/
  interDyck : Bool := false
deriving DecidableEq

def Passes.any (passes : Passes) : Bool := passes.scc || passes.fold || passes.interDyck

/-- The settings of a run. -/
structure Config where
  variant : Variant := .standard
  passes : Passes := {}
  /-- The deadline in seconds; zero stands for none. -/
  timeoutSecs : Nat := 24 * 3600
  /-- Whether to solve at all, after simplification. -/
  solve : Bool := true
  /-- Whether to refuse a grammar with a cycle of unary productions. -/
  strictGrammar : Bool := false
  /-- The symbol whose pairs are reported, instead of the usual one. -/
  countSymbol : Option String := none
  /-- The labels of direct edges, for a grammar that says nothing about them. -/
  directLabels : List String := []
deriving DecidableEq

namespace Config

/-- The greatest deadline, one week. -/
def greatestTimeout : Nat := 7 * 24 * 3600

def ofPreset : Preset → Config
  | .baseline => {}
  | .balanced => { variant := .pocr, passes := { scc := true, fold := true } }
  | .aggressive =>
    { variant := .focr, passes := { scc := true, fold := true, interDyck := true } }

/-- The deadline, if there is one. -/
def timeout? (config : Config) : Option Nat :=
  if config.timeoutSecs = 0 then none else some config.timeoutSecs

/-- Refuses a deadline above the greatest, then a blank count symbol, then a blank direct label. -/
def validate (config : Config) : Except ConfigError Unit :=
  if greatestTimeout < config.timeoutSecs then
    .error (.range "timeout_secs" (toString config.timeoutSecs) "0" (toString greatestTimeout)
      "Use 0 to disable the deadline")
  else if config.countSymbol.any Text.isBlankText then .error (.setting .emptyCountSymbol)
  else if config.directLabels.any Text.isBlankText then .error (.setting .emptyDirectLabel)
  else .ok ()

end Config

end GrammarReach
