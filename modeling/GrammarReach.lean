import GrammarReach.Analysis.Alias
import GrammarReach.Analysis.Basic
import GrammarReach.Analysis.Generic
import GrammarReach.Analysis.Run
import GrammarReach.Analysis.ValueFlow
import GrammarReach.Closure.Arena
import GrammarReach.Closure.Basic
import GrammarReach.Closure.CriticalGraph
import GrammarReach.Closure.DualForest
import GrammarReach.Closure.GraftForest
import GrammarReach.CommandLine.Folder
import GrammarReach.CommandLine.Options
import GrammarReach.CommandLine.Run
import GrammarReach.CommandLine.System
import GrammarReach.Components
import GrammarReach.Config.Basic
import GrammarReach.Config.Document
import GrammarReach.Config.Json
import GrammarReach.Config.Yaml
import GrammarReach.Dataset
import GrammarReach.Deadline
import GrammarReach.Decimal.Binary64
import GrammarReach.Decimal.Fixed
import GrammarReach.Decimal.Rounding
import GrammarReach.Decimal.Shortest
import GrammarReach.Error
import GrammarReach.Grammar.Basic
import GrammarReach.Grammar.Derivation
import GrammarReach.Grammar.Text
import GrammarReach.Graph.Basic
import GrammarReach.Graph.Merge
import GrammarReach.Graph.Text
import GrammarReach.Json.Basic
import GrammarReach.Json.Record
import GrammarReach.Label
import GrammarReach.Loop
import GrammarReach.Main
import GrammarReach.NodeSet
import GrammarReach.Queue
import GrammarReach.Report.Basic
import GrammarReach.Report.Json
import GrammarReach.Report.Text
import GrammarReach.SeedGraph
import GrammarReach.Simplify.Brackets
import GrammarReach.Simplify.Chains
import GrammarReach.Simplify.Cycles
import GrammarReach.Simplify.Run
import GrammarReach.Solve.Basic
import GrammarReach.Solve.Extent
import GrammarReach.Solve.Generations
import GrammarReach.Solve.Run
import GrammarReach.Solve.Stats
import GrammarReach.Solve.Step
import GrammarReach.Solve.Watch
import GrammarReach.Text.Blank
import GrammarReach.Text.Numeral
import GrammarReach.Text.Record
import GrammarReach.Worklist
import GrammarReach.Yaml.Cursor
import GrammarReach.Yaml.Lexer
import GrammarReach.Yaml.Node
import GrammarReach.Yaml.Printer
import GrammarReach.Yaml.Scalar
import GrammarReach.Yaml.Tag
import GrammarReach.Yaml.Token
import GrammarReach.Yaml.Value
import GrammarReach.Proofs.NodeSet
import GrammarReach.Proofs.Dataset
import GrammarReach.Proofs.Closure.Arena
import GrammarReach.Proofs.Closure.GraftForest
import GrammarReach.Proofs.Solve.Derivation
import GrammarReach.Proofs.Worklist
import GrammarReach.Proofs.Closure.DualForest
import GrammarReach.Proofs.Closure.CriticalGraph
import GrammarReach.Proofs.Closure.Basic
import GrammarReach.Proofs.Closure.Sequence
import GrammarReach.Proofs.Solve.Addition
import GrammarReach.Proofs.Solve.Item
import GrammarReach.Proofs.Solve.Ledger
import GrammarReach.Proofs.Solve.Primary
import GrammarReach.Proofs.Solve.Saturation
import GrammarReach.Proofs.Solve.Start
import GrammarReach.Proofs.Solve.Run
import GrammarReach.Proofs.Solve.Prepare
import GrammarReach.Proofs.Grammar
import GrammarReach.Proofs.Solve.Exact
import GrammarReach.Proofs.Solve.Reduction
import GrammarReach.Proofs.Solve.Generations
import GrammarReach.Proofs.Solve.Variants
import GrammarReach.Proofs.Graph.Basic
import GrammarReach.Proofs.Graph.Edit
import GrammarReach.Proofs.Graph.Merge
import GrammarReach.Proofs.Graph.Kinds
import GrammarReach.Proofs.Components.Search
import GrammarReach.Proofs.Components
import GrammarReach.Proofs.Simplify.Collapse
import GrammarReach.Proofs.Simplify.Cycles
import GrammarReach.Proofs.Simplify.Chains
import GrammarReach.Proofs.Simplify.Contraction
import GrammarReach.Proofs.Simplify.FanOut
import GrammarReach.Proofs.Simplify.Anchors
import GrammarReach.Proofs.Simplify.Brackets
import GrammarReach.Proofs.Analysis.Basic
import GrammarReach.Proofs.Analysis.ValueFlow
import GrammarReach.Proofs.Analysis.FlowSimplification
import GrammarReach.Proofs.Analysis.Alias
import GrammarReach.Proofs.Analysis.AliasSimplification
import GrammarReach.Proofs.Analysis.Pruning
import GrammarReach.Proofs.Loop
import GrammarReach.Proofs.Closure.Sole
import GrammarReach.Proofs.Closure.Visit
import GrammarReach.Proofs.Closure.TreeWalk
import GrammarReach.Proofs.Closure.GraphWalk
import GrammarReach.Proofs.Closure.Walk
import GrammarReach.Proofs.Analysis.AliasSymmetry
import GrammarReach.Proofs.Analysis.AliasSaturation
import GrammarReach.Proofs.Analysis.BalancedPaths
import GrammarReach.Proofs.Counts
import GrammarReach.Proofs.Solve.Stats
import GrammarReach.Proofs.Solve.Shortcuts
import GrammarReach.Proofs.Solve.SpelledShortcuts
import GrammarReach.Proofs.Grammar.Intermediates
import GrammarReach.Proofs.Grammar.Reading
import GrammarReach.Proofs.Solve.LongProductions
import GrammarReach.Proofs.Grammar.RoundTrip
import GrammarReach.Proofs.Graph.RoundTrip
import GrammarReach.Proofs.Solve.Turns
import GrammarReach.Proofs.Solve.InStep
import GrammarReach.Proofs.SeedGraph
import GrammarReach.Proofs.Solve.ClosureOperator
import GrammarReach.Proofs.Calls
import GrammarReach.Proofs.NodeSet.Calls
import GrammarReach.Proofs.Dataset.Calls
import GrammarReach.Proofs.Graph.Calls
import GrammarReach.Proofs.Simplify.Acyclic
import GrammarReach.Proofs.Simplify.FoldForest
import GrammarReach.Proofs.Simplify.PrunedOnce
import GrammarReach.Proofs.Simplify.LeastCongruence
import GrammarReach.Proofs.Solve.StoredEdges
