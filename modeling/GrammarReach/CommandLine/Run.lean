import GrammarReach.Analysis.Alias
import GrammarReach.Analysis.Generic
import GrammarReach.Analysis.Run
import GrammarReach.Analysis.ValueFlow
import GrammarReach.CommandLine.Options
import GrammarReach.CommandLine.System
import GrammarReach.Config.Document
import GrammarReach.Report.Json
import GrammarReach.Solve.Watch

/-!
Running a command: configure, load, analyse, print the report, write what was asked for.

The report is printed before any file is written. The first error ends the command.
-/

namespace GrammarReach.CommandLine

variable {m : Type → Type} [Monad m]

/-- The configuration of a command: that of the document, if one is named, under the options. -/
def Options.configure (options : Options) (system : System m) : ExceptT ConfigError m Config := do
  let base ← match options.config? with
    | none => pure {}
    | some path => do
      let text ← (system.read path).adapt ConfigError.io
      ofExcept (Config.ofYaml text)
  let config := options.apply base
  ofExcept config.validate
  return config

def System.text (system : System m) (path : String) : ExceptT Error m String :=
  (system.read path).adapt Error.io

def Task.load (task : Task) (system : System m) (config : Config) : ExceptT Error m Analysis := do
  match task with
  | .generic grammar graph =>
    let grammar ← ofExcept (Grammar.parse (← system.text grammar))
    ofExcept (Generic.read grammar (← system.text graph) config.directLabels)
  | .aliases graph => ofExcept (Alias.read (← system.text graph))
  | .valueFlow graph => ofExcept (ValueFlow.read (← system.text graph))

/-- Simplifies and solves as configured, by the clock of the system. -/
def System.analyse (system : System m) (analysis : Analysis) (config : Config) :
    ExceptT Error m AnalysisRun := do
  let ((analysis, simplify?), simplifyMs) ← system.timed fun _ => pure (analysis.simplify config)
  let report := analysis.report config
    (simplify?.map fun stats => { stats with durationMs := simplifyMs })
  if config.solve then
    let solver ← ofExcept (analysis.solver config)
    let begun ← system.now
    let (solved, solveMs) ← system.timed fun _ =>
      solver.solveWatched analysis.seeds (system.since begun) (Deadline.nanoseconds? config.timeout?)
    let result ← ofExcept solved
    return analysis.finished report { result with stats := { result.stats with solveMs } }
  else return { analysis, report }

def System.save (system : System m) (options : Options) (path text : String) :
    ExceptT Error m Unit := do
  (system.write path text).adapt Error.io
  if options.verbose then
    system.note ("wrote " ++ toString text.utf8ByteSize ++ " bytes to " ++ path)

def Invocation.run (invocation : Invocation) (system : System m) : ExceptT Error m Unit := do
  let options := invocation.options
  let config ← (options.configure system).adapt Error.config
  let analysis ← invocation.task.load system config
  let run ← system.analyse analysis config
  system.print (run.report.render (if options.json then .json else .text))
  if let some path := options.writeGraph? then
    system.save options path run.analysis.graphText
  if let some path := options.writePairs? then
    match run.result? with
    | none => throw (.analysis .pairsWithoutSolve)
    | some result => system.save options path (pairsText result.countPairs)

/-- How a command ends. -/
inductive Ending where
  | done
  | misused (fault : UsageFault)
  | failed (error : Error)
deriving DecidableEq

namespace Ending

/-- The exit status: usage faults and expired deadlines have one of their own. -/
def status : Ending → UInt32
  | done => 0
  | misused _ => 2
  | failed error => if error.isTimeout then 124 else 1

/-- What there is to tell about an ending. -/
def message? : Ending → Option String
  | done => none
  | misused fault => some fault.message
  | failed error => some error.message

end Ending

def run (system : System m) (words : List String) : m Ending := do
  match Invocation.parse words with
  | .error fault => return .misused fault
  | .ok invocation =>
    match ← (invocation.run system).run with
    | .error error => return .failed error
    | .ok () => return .done

end GrammarReach.CommandLine
