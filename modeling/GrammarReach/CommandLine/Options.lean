import GrammarReach.Config.Basic
import GrammarReach.Text.Numeral
import GrammarReach.Text.Record

/-!
The words of a command line.

A command line names one task and the files of the task, and sets options. An option stands before or
behind the name of the task. Each may be set once on either side, and the side behind wins; labels of
direct edges add up within a side.
-/

namespace GrammarReach.CommandLine

/-- Why the words of a command line make no sense. -/
inductive UsageFault where
  | noTask
  | missingFile
  | unexpected (word : String)
  | unknownOption (word : String)
  | missingValue (option : String)
  | needlessValue (option : String)
  | repeated (option : String)
  | badValue (option value : String)
deriving DecidableEq

namespace UsageFault

/-- The wording of a usage fault. -/
def message : UsageFault → String
  | noTask => "expected one of the commands cfl, alias and vfa"
  | missingFile => "expected more files behind the command"
  | unexpected word => "unexpected argument '" ++ word ++ "'"
  | unknownOption word => "unknown option '" ++ word ++ "'"
  | missingValue option => "option '" ++ option ++ "' needs a value"
  | needlessValue option => "option '" ++ option ++ "' takes no value"
  | repeated option => "option '" ++ option ++ "' is given twice"
  | badValue option value => "invalid value '" ++ value ++ "' for option '" ++ option ++ "'"

end UsageFault

/-- What is analysed, with the paths of its files. -/
inductive Task where
  /-- A graph under a grammar of its own. -/
  | generic (grammar graph : String)
  /-- The aliases of a program expression graph. -/
  | aliases (graph : String)
  /-- The value flow of an interprocedural value-flow graph. -/
  | valueFlow (graph : String)
deriving DecidableEq

namespace Task

def names : List String := ["cfl", "alias", "vfa"]

/-- The number of files that a task needs. -/
def arity (name : String) : Nat := if name = "cfl" then 2 else 1

/-- The task of a name and the paths behind it. No path is empty. -/
def ofName (name : String) (paths : List String) : Except UsageFault Task :=
  if paths.contains "" then .error .missingFile
  else
    match name, paths with
    | "cfl", [grammar, graph] => .ok (.generic grammar graph)
    | "alias", [graph] => .ok (.aliases graph)
    | "vfa", [graph] => .ok (.valueFlow graph)
    | _, _ => .error .missingFile

end Task

/-- What the options of a command line set. -/
structure Options where
  /-- The path of a configuration document. -/
  config? : Option String := none
  variant? : Option Variant := none
  /-- The passes that run besides those of the configuration. -/
  passes : Passes := {}
  timeoutSecs? : Option Nat := none
  noSolve : Bool := false
  /-- Where to write the simplified graph. -/
  writeGraph? : Option String := none
  /-- Where to write the pairs that were found. -/
  writePairs? : Option String := none
  countSymbol? : Option String := none
  directLabels : List String := []
  json : Bool := false
  verbose : Bool := false
deriving DecidableEq

namespace Options

/-- Sets a switch that is off. -/
def switch (name : String) (before : Bool) (options : Options) : Except UsageFault Options :=
  if before then .error (.repeated name) else .ok options

/-- Sets the option of a name that takes no value, if there is one. -/
def turnOn? (options : Options) (name : String) : Option (Except UsageFault Options) :=
  let passes := options.passes
  match name with
  | "--scc" => some (switch name passes.scc { options with passes := { passes with scc := true } })
  | "--fold" => some (switch name passes.fold { options with passes := { passes with fold := true } })
  | "--inter-dyck" =>
    some (switch name passes.interDyck { options with passes := { passes with interDyck := true } })
  | "--no-solve" => some (switch name options.noSolve { options with noSolve := true })
  | "--json" => some (switch name options.json { options with json := true })
  | "--verbose" | "-v" => some (switch name options.verbose { options with verbose := true })
  | _ => none

/-- How the value of an option is read. -/
abbrev Setter := String → Except UsageFault Options

/-- Reads the value of an option that has none yet. -/
def once {α : Type} (name : String) (before? : Option α) (read? : String → Option α)
    (put : α → Options) : Setter := fun value =>
  match read? value with
  | none => .error (.badValue name value)
  | some read => if before?.isSome then .error (.repeated name) else .ok (put read)

def path? (value : String) : Option String := if value.isEmpty then none else some value

/-- The labels of a list with commas between. -/
def labels (value : String) : List String :=
  (Text.splitOn ',' value.toList).map String.ofList

/-- How the value of the option of a name is read, if there is an option that takes one. -/
def setter? (options : Options) (name : String) : Option Setter :=
  match name with
  | "--config" =>
    some (once name options.config? path? fun value => { options with config? := some value })
  | "--variant" =>
    some (once name options.variant? (Variant.parse · |>.toOption) fun value =>
      { options with variant? := some value })
  | "--timeout" =>
    some (once name options.timeoutSecs? (Text.natural? Text.longBound) fun value =>
      { options with timeoutSecs? := some value })
  | "--write-graph" =>
    some (once name options.writeGraph? path? fun value => { options with writeGraph? := some value })
  | "--write-pairs" =>
    some (once name options.writePairs? path? fun value => { options with writePairs? := some value })
  | "--count-symbol" =>
    some (once name options.countSymbol? some fun value => { options with countSymbol? := some value })
  | "--direct" =>
    some fun value => .ok { options with directLabels := options.directLabels ++ labels value }
  | _ => none

/-- Options on both sides of the name of the task. Switches add up; of two values the inner one wins. -/
def orElse (inner outer : Options) : Options :=
  { config? := inner.config?.or outer.config?
    variant? := inner.variant?.or outer.variant?
    passes :=
      { scc := inner.passes.scc || outer.passes.scc
        fold := inner.passes.fold || outer.passes.fold
        interDyck := inner.passes.interDyck || outer.passes.interDyck }
    timeoutSecs? := inner.timeoutSecs?.or outer.timeoutSecs?
    noSolve := inner.noSolve || outer.noSolve
    writeGraph? := inner.writeGraph?.or outer.writeGraph?
    writePairs? := inner.writePairs?.or outer.writePairs?
    countSymbol? := inner.countSymbol?.or outer.countSymbol?
    directLabels := if inner.directLabels.isEmpty then outer.directLabels else inner.directLabels
    json := inner.json || outer.json
    verbose := inner.verbose || outer.verbose }

/-- The configuration that options make of another one. -/
def apply (options : Options) (base : Config) : Config :=
  { base with
    variant := options.variant?.getD base.variant
    passes :=
      { scc := base.passes.scc || options.passes.scc
        fold := base.passes.fold || options.passes.fold
        interDyck := base.passes.interDyck || options.passes.interDyck }
    timeoutSecs := options.timeoutSecs?.getD base.timeoutSecs
    solve := base.solve && !options.noSolve
    countSymbol := options.countSymbol?.or base.countSymbol
    directLabels :=
      if options.directLabels.isEmpty then base.directLabels else options.directLabels }

end Options

/-- Whether a word can only be an option, or the mark behind which there are none. -/
def isOptionWord (word : String) : Bool :=
  match word.toList with
  | '-' :: _ :: _ => true
  | _ => false

/-- The name of an option and the value behind an equals sign, if there is one. -/
def splitOption (word : String) : String × Option String :=
  let name := word.toList.takeWhile (· != '=')
  match word.toList.drop name.length with
  | [] => (word, none)
  | _ :: value => (String.ofList name, some (String.ofList value))

/-- Reads an option and its value, which may be the word behind it, and tells how many words these
are. -/
def readOption (options : Options) (word : String) (next? : Option String) :
    Except UsageFault (Options × Nat) := do
  let (name, attached?) := splitOption word
  match options.turnOn? name, options.setter? name, attached? with
  | some _, _, some _ => throw (.needlessValue name)
  | some options, _, none => return (← options, 1)
  | none, some setter, some value => return (← setter value, 1)
  | none, some setter, none =>
    match next?.filter (!isOptionWord ·) with
    | some value => return (← setter value, 2)
    | none => throw (.missingValue name)
  | none, none, _ => throw (.unknownOption word)

/-- The words on one side of the name of the task: what the options set, the words that are no options,
and what comes behind the word at which reading stopped, if it did. -/
structure Side where
  options : Options := {}
  words : List String := []
  stopped? : Option (String × List String) := none

/-- Reads words up to one at which to stop. Behind two dashes, no word is an option, and none stops
reading. -/
def readSide (stops : String → Bool) (side : Side) (words : List String) :
    Except UsageFault Side :=
  match words with
  | [] => .ok side
  | word :: rest =>
    if word = "--" then .ok { side with words := side.words ++ rest }
    else if isOptionWord word then do
      let (options, count) ← readOption side.options word rest.head?
      readSide stops { side with options } (rest.drop (count - 1))
    else if stops word then .ok { side with stopped? := some (word, rest) }
    else readSide stops { side with words := side.words ++ [word] } rest
termination_by words.length
decreasing_by all_goals simp only [List.length_drop, List.length_cons]; omega

/-- A task and options. -/
structure Invocation where
  task : Task
  options : Options

/-- Reads a command line. -/
def Invocation.parse (words : List String) : Except UsageFault Invocation := do
  let outer ← readSide Task.names.contains {} words
  if let some word := outer.words.head? then throw (.unexpected word)
  match outer.stopped? with
  | none => throw .noTask
  | some (name, rest) =>
    let inner ← readSide (fun _ => false) {} rest
    if let some word := (inner.words.drop (Task.arity name)).head? then throw (.unexpected word)
    return { task := ← Task.ofName name inner.words, options := inner.options.orElse outer.options }

end GrammarReach.CommandLine
