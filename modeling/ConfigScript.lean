import ConfigScript.CommandLine.Arguments
import ConfigScript.CommandLine.Run
import ConfigScript.Config
import ConfigScript.Definition
import ConfigScript.Fault
import ConfigScript.Files.FileSystem
import ConfigScript.Files.FileTree
import ConfigScript.Import.Provider
import ConfigScript.Import.Session
import ConfigScript.Json.Reading
import ConfigScript.Library.Catalogue
import ConfigScript.Library.Collection
import ConfigScript.Library.Eval
import ConfigScript.Library.Format
import ConfigScript.Library.Operators
import ConfigScript.Macro.Apply
import ConfigScript.Macro.Basic
import ConfigScript.Macro.Builder
import ConfigScript.Macro.Overload
import ConfigScript.Macro.Registry
import ConfigScript.Macro.Template
import ConfigScript.Main
import ConfigScript.Node.Basic
import ConfigScript.Node.Equality
import ConfigScript.Node.Json
import ConfigScript.Node.Marks
import ConfigScript.Node.Path
import ConfigScript.Node.Printer
import ConfigScript.Node.Properties
import ConfigScript.Node.ShapeSet
import ConfigScript.Number.Basic
import ConfigScript.Number.Reading
import ConfigScript.Number.Shortest
import ConfigScript.Operator.Basic
import ConfigScript.Operator.Level
import ConfigScript.Operator.Table
import ConfigScript.Parser.Expansion
import ConfigScript.Parser.Operation
import ConfigScript.Parser.OperatorStatement
import ConfigScript.Parser.Recovery
import ConfigScript.Parser.Script
import ConfigScript.Parser.State
import ConfigScript.Parser.Statement
import ConfigScript.Parser.Value
import ConfigScript.Proofs.Library.Outcomes
import ConfigScript.Proofs.Library.Patterns
import ConfigScript.Proofs.Macro.Evaluation
import ConfigScript.Proofs.Macro.Known
import ConfigScript.Proofs.Macro.Replay
import ConfigScript.Proofs.Macro.Trusted
import ConfigScript.Proofs.Node.Equality
import ConfigScript.Proofs.Node.Keyed
import ConfigScript.Proofs.Node.Path
import ConfigScript.Proofs.Node.Written
import ConfigScript.Proofs.Operator.Valid
import ConfigScript.Proofs.Parser.CollectionsBack
import ConfigScript.Proofs.Parser.EntriesBack
import ConfigScript.Proofs.Parser.Growth
import ConfigScript.Proofs.Parser.GrowthValues
import ConfigScript.Proofs.Parser.OperationProgress
import ConfigScript.Proofs.Parser.Outcome
import ConfigScript.Proofs.Parser.Progress
import ConfigScript.Proofs.Parser.Quiet
import ConfigScript.Proofs.Parser.RoundTrip
import ConfigScript.Proofs.Parser.Starts
import ConfigScript.Proofs.Parser.StatementProgress
import ConfigScript.Proofs.Parser.Substitution
import ConfigScript.Proofs.Parser.Termination
import ConfigScript.Proofs.Parser.Told
import ConfigScript.Proofs.Parser.ToldStatements
import ConfigScript.Proofs.Parser.ToldValues
import ConfigScript.Proofs.Parser.ValueProgress
import ConfigScript.Proofs.Text.Literal
import ConfigScript.Proofs.Token.Cursor
import ConfigScript.Proofs.Token.Kept
import ConfigScript.Proofs.Token.Lexeme
import ConfigScript.Proofs.Token.Poised
import ConfigScript.Proofs.Token.ReadBack
import ConfigScript.Proofs.Token.Spelling
import ConfigScript.Report
import ConfigScript.Source
import ConfigScript.Text.Blank
import ConfigScript.Text.Hex
import ConfigScript.Text.Quoted
import ConfigScript.Token.Basic
import ConfigScript.Token.Scan
import ConfigScript.Token.Tokenizer
import ConfigScript.Proofs.Parser.GrowthStatements
import ConfigScript.Proofs.Parser.Requests
import ConfigScript.Proofs.Import.FailedImport
import ConfigScript.Proofs.Import.Moments
import ConfigScript.Proofs.Import.DepthFirst
import ConfigScript.Proofs.Macro.Steady
import ConfigScript.Proofs.Macro.Binding
import ConfigScript.Proofs.Macro.Deferred
import ConfigScript.Proofs.Macro.Overload
import ConfigScript.Proofs.Parser.Defers
import ConfigScript.Proofs.Parser.DefersValues
import ConfigScript.Proofs.Operator.Grammar
import ConfigScript.Proofs.Parser.Climbing
import ConfigScript.Proofs.Parser.Precedence
import ConfigScript.Proofs.Parser.Agreement
import ConfigScript.Proofs.Token.Tiling
import ConfigScript.Proofs.Import.History
import ConfigScript.Proofs.Import.LeftBehind
import ConfigScript.Proofs.Import.Renewed
import ConfigScript.Proofs.Import.Alone
import ConfigScript.Proofs.Import.Transparent
import ConfigScript.Proofs.Parser.Exported
import ConfigScript.Proofs.Parser.Severity
import ConfigScript.Proofs.Import.Positions
import ConfigScript.Proofs.Parser.OperatorsBack
import ConfigScript.Proofs.Macro.Fit
import ConfigScript.Proofs.Macro.Registration
import ConfigScript.Proofs.Macro.Search
import ConfigScript.Proofs.Macro.Ambiguity
import ConfigScript.Proofs.Node.Marked
import ConfigScript.Proofs.Parser.Account
import ConfigScript.Proofs.Parser.AccountValues
import ConfigScript.Proofs.Parser.Unresolved
import ConfigScript.Proofs.Node.Frame
import ConfigScript.Proofs.Macro.Frozen
import ConfigScript.Proofs.Parser.FrozenCalls
import ConfigScript.Proofs.Token.Lexical
import ConfigScript.Proofs.Parser.Rejected
import ConfigScript.Proofs.Operator.Partition
import ConfigScript.Proofs.Import.Again
import ConfigScript.Proofs.Parser.Resumption
import ConfigScript.Proofs.Source.Lines
import ConfigScript.Proofs.Source.Snippet
import ConfigScript.Proofs.Parser.Heedless
import ConfigScript.Proofs.Parser.Noted
import ConfigScript.Proofs.Parser.ObjectRecovery
import ConfigScript.Proofs.Parser.Separators
import ConfigScript.Proofs.Parser.Contexts
import ConfigScript.Proofs.Source.Index
import ConfigScript.Proofs.Token.Escapes
import ConfigScript.Proofs.Node.Addresses
import ConfigScript.Proofs.Library.Updates
import ConfigScript.Proofs.Macro.TemplateSlots
import ConfigScript.Proofs.Token.Terms
