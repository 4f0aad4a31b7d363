import BehaviorEngine.Domain
import BehaviorEngine.Registry
import BehaviorEngine.Integer
import BehaviorEngine.Decimal.Basic
import BehaviorEngine.Decimal.Numeral
import BehaviorEngine.Decimal.Parts
import BehaviorEngine.Decimal.Shortest
import BehaviorEngine.Text.Display
import BehaviorEngine.Text.Lines
import BehaviorEngine.Text.Occurrence
import BehaviorEngine.Text.Styling
import BehaviorEngine.Text.Unprintable
import BehaviorEngine.Text.Quoted
import BehaviorEngine.Source.Lexeme
import BehaviorEngine.Source.Reader
import BehaviorEngine.Error.Name
import BehaviorEngine.Error.Diagnostic
import BehaviorEngine.Error.Construction
import BehaviorEngine.Error.Registration
import BehaviorEngine.Error.Failure
import BehaviorEngine.Error.Label
import BehaviorEngine.Error.Report
import BehaviorEngine.Host.World
import BehaviorEngine.Parameters
import BehaviorEngine.Host.Environment
import BehaviorEngine.Host.Registration
import BehaviorEngine.Expr.Basic
import BehaviorEngine.Graph.Basic
import BehaviorEngine.Limits
import BehaviorEngine.Construction.Basic
import BehaviorEngine.Construction.Scope
import BehaviorEngine.Construction.Expr
import BehaviorEngine.Construction.Graph
import BehaviorEngine.Expr.Operation
import BehaviorEngine.Expr.Memory
import BehaviorEngine.Expr.Evaluation
import BehaviorEngine.Engine.Activation
import BehaviorEngine.Engine.Cycle
import BehaviorEngine.Engine.Snapshot
import BehaviorEngine.Engine.Basic
import BehaviorEngine.EnvironmentFile.Line
import BehaviorEngine.EnvironmentFile.Declaration
import BehaviorEngine.EnvironmentFile.Registration
import BehaviorEngine.CommandLine
import BehaviorEngine.Simulation
import BehaviorEngine.Main
import BehaviorEngine.Scripted.Host
import BehaviorEngine.Scripted.Session
import BehaviorEngine.Proofs.Grammar.Meaning
import BehaviorEngine.Proofs.Grammar.Programs
import BehaviorEngine.Proofs.Grammar.Reading
import BehaviorEngine.Proofs.Grammar.Expressions
import BehaviorEngine.Proofs.Grammar.States
import BehaviorEngine.Proofs.Grammar.Graphs
import BehaviorEngine.Proofs.Graph.Fits
import BehaviorEngine.Proofs.Partial
import BehaviorEngine.Proofs.Graph.Evaluation
import BehaviorEngine.Proofs.Cycle.Runs
import BehaviorEngine.Proofs.Cycle.Options
import BehaviorEngine.Proofs.Cycle.Reach
import BehaviorEngine.Proofs.Cycle.Trace
import BehaviorEngine.Proofs.Cycle.Completion
import BehaviorEngine.Proofs.Snapshot.Completion
import BehaviorEngine.Proofs.Snapshot.Replay
import BehaviorEngine.Proofs.Graph.Reorder
import BehaviorEngine.Proofs.Engine.Calls
import BehaviorEngine.Proofs.Engine.Cycles
import BehaviorEngine.Proofs.Engine.History
import BehaviorEngine.Proofs.Slots.Trace
import BehaviorEngine.Proofs.Cycle.Outputs
import BehaviorEngine.Proofs.Slots.Contents
import BehaviorEngine.Proofs.Slots.Separate
import BehaviorEngine.Proofs.Slots.Denotation
import BehaviorEngine.Proofs.Engine.Readings
import BehaviorEngine.Proofs.Engine.Continuity
import BehaviorEngine.Proofs.Engine.Snapshots
import BehaviorEngine.Proofs.Engine.Outputs
import BehaviorEngine.Proofs.Host.Registration
import BehaviorEngine.Proofs.Graph.Complete
import BehaviorEngine.Proofs.Cycle.Places
import BehaviorEngine.Proofs.Cycle.Parameters
import BehaviorEngine.Proofs.Engine.Parameters
import BehaviorEngine.Proofs.Host.Log
import BehaviorEngine.Proofs.Sites.Calls
import BehaviorEngine.Proofs.Sites.Log
import BehaviorEngine.Proofs.Sites.Visits
import BehaviorEngine.Proofs.Cycle.Log
import BehaviorEngine.Proofs.Host.Slots
import BehaviorEngine.Proofs.Sites.Slots
import BehaviorEngine.Proofs.Engine.Journal
import BehaviorEngine.Proofs.Engine.Notifications
import BehaviorEngine.Proofs.Engine.Freshness
import BehaviorEngine.Proofs.Engine.Refusals
import BehaviorEngine.Proofs.Comparison.Reading
import BehaviorEngine.Proofs.Comparison.Constructions
import BehaviorEngine.Proofs.Source.Lexemes
import BehaviorEngine.Proofs.Comparison.Prefixes
import BehaviorEngine.Proofs.Graph.Typing
import BehaviorEngine.Proofs.Cycle.Yields
import BehaviorEngine.Proofs.Cycle.Typing
import BehaviorEngine.Proofs.Snapshot.Alike
import BehaviorEngine.Proofs.Engine.Typing
import BehaviorEngine.Proofs.Cycle.Notices
import BehaviorEngine.Proofs.Cycle.Likeness
import BehaviorEngine.Proofs.Engine.Rebuilding
import BehaviorEngine.Proofs.Source.Places
import BehaviorEngine.Proofs.Errors.Reading
import BehaviorEngine.Proofs.Errors.Constructions
import BehaviorEngine.Proofs.Errors.Sources
import BehaviorEngine.Proofs.Comparison.Layouts
import BehaviorEngine.Proofs.Host.Bindings
import BehaviorEngine.Proofs.Cycle.Frames
import BehaviorEngine.Proofs.Engine.Frames
import BehaviorEngine.Proofs.Renaming.Positions
import BehaviorEngine.Proofs.Renaming.Environments
import BehaviorEngine.Proofs.Renaming.Graphs
import BehaviorEngine.Proofs.Renaming.Constructions
import BehaviorEngine.Proofs.Renaming.Evaluation
import BehaviorEngine.Proofs.Renaming.Cycles
import BehaviorEngine.Proofs.Renaming.Snapshots
import BehaviorEngine.Proofs.Renaming.Engines
import BehaviorEngine.Proofs.Host.Performing
import BehaviorEngine.Proofs.Host.Account
import BehaviorEngine.Proofs.Host.Order
import BehaviorEngine.Proofs.Engine.Order
import BehaviorEngine.Proofs.Grammar.Folding
import BehaviorEngine.Proofs.Cycle.Moments
import BehaviorEngine.Proofs.Engine.Targets
import BehaviorEngine.Proofs.Grammar.Nesting
import BehaviorEngine.Proofs.Comparison.Limits
import BehaviorEngine.Proofs.Grammar.Counts
import BehaviorEngine.Proofs.Requests.Reading
import BehaviorEngine.Proofs.Construction.Enumerations
import BehaviorEngine.Proofs.Requests.Loops
import BehaviorEngine.Proofs.Requests.Sources
import BehaviorEngine.Proofs.LongestMatch
import BehaviorEngine.Proofs.Source.Tokens
import BehaviorEngine.Proofs.Source.Words
import BehaviorEngine.Proofs.Registry.Operations
import BehaviorEngine.Proofs.Registry.Indexed
import BehaviorEngine.Proofs.Errors.Labels
import BehaviorEngine.Proofs.EnvironmentFile.Tokens
import BehaviorEngine.Proofs.EnvironmentFile.Lines
import BehaviorEngine.Proofs.EnvironmentFile.Forms
import BehaviorEngine.Proofs.EnvironmentFile.Prefixes
import BehaviorEngine.Proofs.Host.Names
import BehaviorEngine.Proofs.EnvironmentFile.Registrations
import BehaviorEngine.Proofs.Engine.Evaluations
