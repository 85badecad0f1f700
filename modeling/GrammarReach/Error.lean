namespace GrammarReach

/-- Why a file cannot be read or written. -/
inductive FileFault where
  | missing
  | isFolder
  | notFolder
  | notText
  | other (detail : String)
deriving DecidableEq

namespace FileFault

def message : FileFault → String
  | missing => "No such file or directory (os error 2)"
  | isFolder => "Is a directory (os error 21)"
  | notFolder => "Not a directory (os error 20)"
  | notText => "stream did not contain valid UTF-8"
  | other detail => detail

end FileFault

/-- Why a configuration document cannot be read. -/
inductive DocumentFault where
  /-- The text is not a well-formed document. -/
  | malformed
  /-- The text holds more than one document. -/
  | several
  /-- The document does not have the shape of a configuration. -/
  | mismatched
deriving DecidableEq

namespace DocumentFault

def message : DocumentFault → String
  | malformed => "malformed document"
  | several => "more than one document"
  | mismatched => "not a configuration"

end DocumentFault

/-- Which setting has a value that makes no sense. -/
inductive SettingFault where
  | emptyCountSymbol
  | emptyDirectLabel
  | other (detail : String)
deriving DecidableEq

namespace SettingFault

def message : SettingFault → String
  | emptyCountSymbol => "count_symbol must not be empty"
  | emptyDirectLabel => "direct_labels must not contain empty names"
  | other detail => detail

end SettingFault

/-- Why a configuration is refused. -/
inductive ConfigError where
  | range (field value least greatest hint : String)
  | missingVersion
  | unsupportedVersion (found : Nat) (supported : List Nat)
  | unknownPreset (name : String)
  | unknownVariant (name : String)
  | io (fault : FileFault)
  | document (fault : DocumentFault)
  | setting (fault : SettingFault)
deriving DecidableEq

namespace ConfigError

def message : ConfigError → String
  | range field value least greatest hint =>
    "Invalid range for field '" ++ field ++ "': " ++ value ++ " not in " ++ least ++ "..=" ++
      greatest ++ ". " ++ hint
  | missingVersion =>
    "Missing 'version' field in configuration file. " ++
      "Add 'version: 1' to the top of your YAML file."
  | unsupportedVersion found supported =>
    "Unsupported configuration version " ++ toString found ++ ". Supported versions: " ++
      ", ".intercalate (supported.map toString)
  | unknownPreset name =>
    "Unknown preset '" ++ name ++ "'. Valid presets: baseline, balanced, aggressive"
  | unknownVariant name =>
    "Unknown solver variant '" ++ name ++
      "'. Valid variants: standard, pocr, hpocr, focr, tr, semi-naive"
  | io fault => "IO error: " ++ fault.message
  | document fault => "YAML parsing error: " ++ fault.message
  | setting fault => "Validation error: " ++ fault.message

end ConfigError

/-- What is wrong with a line of a grammar or of a graph, or with a grammar as a whole. -/
inductive ParseFault where
  | emptySymbolName
  | missingFields
  | badNode (field : String)
  | badIndex (field : String)
  /-- Unary productions that lead from a symbol back to itself: each cycle by its names. -/
  | unaryCycles (cycles : List (List String))
  | other (detail : String)
deriving DecidableEq

namespace ParseFault

def message : ParseFault → String
  | emptySymbolName => "empty symbol name"
  | missingFields => "expected src, dst and label"
  | badNode field => "bad node id '" ++ field ++ "'"
  | badIndex field => "bad index '" ++ field ++ "'"
  | unaryCycles cycles => "unary rule cycle: " ++ "; ".intercalate (cycles.map (" -> ".intercalate ·))
  | other detail => detail

end ParseFault

/-- Why the outcome of an analysis cannot be used as asked. -/
inductive AnalysisFault where
  | pairsWithoutSolve
  | other (detail : String)
deriving DecidableEq

namespace AnalysisFault

def message : AnalysisFault → String
  | pairsWithoutSolve => "--write-pairs needs a solve (drop --no-solve)"
  | other detail => detail

end AnalysisFault

/-- Why a run fails. -/
inductive Error where
  | io (fault : FileFault)
  /-- A fault on a line, counted from one; line zero stands for the whole text. -/
  | parse (line : Nat) (fault : ParseFault)
  | unknownSymbol (name : String)
  | timeout (elapsedMs : Nat)
  | config (error : ConfigError)
  | analysis (fault : AnalysisFault)
deriving DecidableEq

namespace Error

def message : Error → String
  | io fault => "IO error: " ++ fault.message
  | parse line fault => "Parse error at line " ++ toString line ++ ": " ++ fault.message
  | unknownSymbol name => "Unknown symbol '" ++ name ++ "'"
  | timeout elapsedMs => "Solver timed out after " ++ toString elapsedMs ++ " ms"
  | config error => "Configuration error: " ++ error.message
  | analysis fault => "Analysis error: " ++ fault.message

/-- Whether the deadline was the cause. -/
def isTimeout : Error → Bool
  | timeout _ => true
  | _ => false

end Error

end GrammarReach
