import JsonFilter.Cli.Run
import JsonFilter.Executor.ConfigText
import JsonFilter.Main
import JsonFilter.Task.Delivery
import JsonFilter.Proofs.Cache.Consistency
import JsonFilter.Proofs.Cache.Operations
import JsonFilter.Proofs.Cache.Leases
import JsonFilter.Proofs.Cache.Teardown
import JsonFilter.Proofs.Executor.Evaluations
import JsonFilter.Proofs.Executor.Transparency
import JsonFilter.Proofs.Filter.RoundTrip
import JsonFilter.Proofs.Eval.Names
import JsonFilter.Proofs.Eval.Termination
import JsonFilter.Proofs.Eval.Truncation
import JsonFilter.Proofs.Task.Handover
import JsonFilter.Proofs.Task.Steps
import JsonFilter.Proofs.Task.Accounts
import JsonFilter.Proofs.Task.Shutdown
import JsonFilter.Proofs.Cache.Sweeping
import JsonFilter.Proofs.Cache.LastUse
import JsonFilter.Proofs.Cache.Inclusion
import JsonFilter.Proofs.Executor.Exits
import JsonFilter.Proofs.Filter.Requoting
import JsonFilter.Proofs.Template.Awaiting
import JsonFilter.Proofs.Template.Escapes
import JsonFilter.Proofs.Template.Ranges
import JsonFilter.Proofs.Executor.Lenient
import JsonFilter.Proofs.Task.Progress
import JsonFilter.Proofs.Executor.Dispatch
import JsonFilter.Proofs.Executor.OnWorkers
import JsonFilter.Proofs.Eval.Expansion
import JsonFilter.Proofs.Eval.Limits
import JsonFilter.Proofs.Eval.Definitions
import JsonFilter.Proofs.Template.ReadBack
import JsonFilter.Proofs.Filter.Layout
import JsonFilter.Proofs.Cache.Programs
import JsonFilter.Proofs.Executor.Environment
import JsonFilter.Proofs.Cache.Eviction
import JsonFilter.Proofs.Json.Members
import JsonFilter.Proofs.Json.Parts
import JsonFilter.Proofs.Numeric.Values
import JsonFilter.Proofs.Json.Order
import JsonFilter.Proofs.Json.Literals
import JsonFilter.Proofs.Json.ReadBack
import JsonFilter.Proofs.Executor.HandOff
import JsonFilter.Proofs.Cli.Lines
import JsonFilter.Proofs.Cli.Batch
import JsonFilter.Proofs.Eval.Sorting
import JsonFilter.Proofs.Filter.Coverage
import JsonFilter.Proofs.Filter.ShownPlaces
import JsonFilter.Proofs.Filter.StringLiterals
import JsonFilter.Proofs.Filter.NestingCap
import JsonFilter.Proofs.Filter.KeyPlaces
import JsonFilter.Proofs.Filter.QuotedKeys
import JsonFilter.Proofs.Filter.Locality
import JsonFilter.Proofs.Filter.KeywordKeys
import JsonFilter.Proofs.Json.Merging
import JsonFilter.Proofs.Json.MergeOrder
import JsonFilter.Proofs.Eval.Alternatives
import JsonFilter.Proofs.Numeric.Integers
import JsonFilter.Proofs.Eval.Counting
import JsonFilter.Proofs.Numeric.Durations
import JsonFilter.Proofs.Executor.TimeBudgets
import JsonFilter.Proofs.Eval.LoopFree
import JsonFilter.Proofs.Eval.Showing
import JsonFilter.Proofs.Eval.PipeAlgebra
import JsonFilter.Proofs.Eval.Walks
import JsonFilter.Proofs.Eval.CoreForms
import JsonFilter.Proofs.Numeric.Floors
import JsonFilter.Proofs.Eval.ObjectProducts
import JsonFilter.Proofs.Eval.Positions
import JsonFilter.Proofs.Text.Splitting
import JsonFilter.Proofs.Eval.SplitJoin
import JsonFilter.Proofs.Eval.Sums
import JsonFilter.Proofs.Json.Containment
import JsonFilter.Proofs.Filter.QuotePlaces
import JsonFilter.Proofs.Filter.MalformedStrings
import JsonFilter.Proofs.Filter.NameSpans
import JsonFilter.Proofs.Filter.Derivations
import JsonFilter.Proofs.Cache.Statistics
import JsonFilter.Proofs.Text.EditScripts
import JsonFilter.Proofs.Cache.RecencyCommands
import JsonFilter.Proofs.Eval.Traversals
import JsonFilter.Proofs.Eval.Preorder
