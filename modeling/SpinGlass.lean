import SpinGlass.Bqpjson
import SpinGlass.Coefficient
import SpinGlass.Compile.Basic
import SpinGlass.Compile.Options
import SpinGlass.Decimal.Notation
import SpinGlass.Decimal.Reader
import SpinGlass.Decimal.Shortest
import SpinGlass.Embedding.Basic
import SpinGlass.Embedding.Dense
import SpinGlass.Embedding.Json
import SpinGlass.Embedding.Layout
import SpinGlass.Embedding.LogicalGraph
import SpinGlass.Embedding.Router
import SpinGlass.Embedding.ShortestPath
import SpinGlass.Embedding.Strategy
import SpinGlass.Expr.Basic
import SpinGlass.Expr.Eval
import SpinGlass.Expr.Json
import SpinGlass.Hardware.Chimera
import SpinGlass.Hardware.Target
import SpinGlass.Json.Parser
import SpinGlass.Json.Printer
import SpinGlass.Json.Record
import SpinGlass.Json.Value
import SpinGlass.Physical.Basic
import SpinGlass.Physical.Json
import SpinGlass.Physical.Statistics
import SpinGlass.Problem.Basic
import SpinGlass.Problem.Build
import SpinGlass.Problem.Energy
import SpinGlass.Problem.Json
import SpinGlass.Problem.Simplify
import SpinGlass.Problem.Statements
import SpinGlass.Problem.Strength
import SpinGlass.Program.Grammar
import SpinGlass.Program.Json
import SpinGlass.Program.Lexer
import SpinGlass.Program.Statement
import SpinGlass.Program.Token
import SpinGlass.Random.Generator
import SpinGlass.Sample.Anneal
import SpinGlass.Sample.Decode
import SpinGlass.Sample.Exhaustive
import SpinGlass.Sample.Json
import SpinGlass.Sample.Results
import SpinGlass.Sample.SolutionId
import SpinGlass.SignedFloat
import SpinGlass.Sorted
import SpinGlass.Spin
import SpinGlass.Symbols
import SpinGlass.Table
import SpinGlass.Text.Identifier
import SpinGlass.Text.IdentifierRanges
import SpinGlass.Proofs.Success
import SpinGlass.Proofs.Coefficient
import SpinGlass.Proofs.Table.Lookup
import SpinGlass.Proofs.Table.Total
import SpinGlass.Proofs.Problem.Objective
import SpinGlass.Proofs.Table.Renaming
import SpinGlass.Proofs.Problem.Indices
import SpinGlass.Proofs.Symbols.Compaction
import SpinGlass.Proofs.Symbols.Tidy
import SpinGlass.Proofs.Symbols.Runs
import SpinGlass.Proofs.Symbols.Consistent
import SpinGlass.Proofs.Simplify.Touching
import SpinGlass.Proofs.Simplify.Merge
import SpinGlass.Proofs.Simplify.Alias
import SpinGlass.Proofs.Simplify.Substitute
import SpinGlass.Proofs.Simplify.Fix
import SpinGlass.Proofs.Simplify.Propagation
import SpinGlass.Proofs.Simplify.Reduction
import SpinGlass.Proofs.Simplify.Dominance
import SpinGlass.Proofs.Simplify.Optima
import SpinGlass.Proofs.Problem.Build
import SpinGlass.Proofs.Problem.Domains
import SpinGlass.Proofs.Problem.PinHelpers
import SpinGlass.Proofs.Problem.PinStrength
import SpinGlass.Proofs.Simplify.Names
import SpinGlass.Proofs.Compile.LowestTier
import SpinGlass.Proofs.Compile.Lowering
import SpinGlass.Proofs.Physical.Placement
import SpinGlass.Proofs.Sample.Readout
import SpinGlass.Proofs.Compile.Energy
import SpinGlass.Proofs.Sample.Decode
import SpinGlass.Proofs.Compile.Solutions
import SpinGlass.Proofs.Hardware.Target
import SpinGlass.Proofs.Embedding.Connected
import SpinGlass.Proofs.Embedding.Minor
import SpinGlass.Proofs.Physical.Reconcile
import SpinGlass.Proofs.Routing.Paths
import SpinGlass.Proofs.Routing.Roots
import SpinGlass.Proofs.Routing.Placement
import SpinGlass.Proofs.Routing.Rounds
import SpinGlass.Proofs.Embedding.Found
import SpinGlass.Proofs.Expr.Names
import SpinGlass.Proofs.Sample.Best
import SpinGlass.Proofs.Sample.Exhaustive
import SpinGlass.Proofs.Compile.Optimum
import SpinGlass.Proofs.Simplify.Components
import SpinGlass.Proofs.Program.Layers
import SpinGlass.Proofs.Program.Lexing
import SpinGlass.Proofs.Program.Numbers
import SpinGlass.Proofs.Program.Parse
import SpinGlass.Proofs.Program.RoundTrip
import SpinGlass.Proofs.Simplify.InStep
import SpinGlass.Proofs.Compile.Emittable
import SpinGlass.Proofs.Compile.PinHelpers
import SpinGlass.Proofs.Compile.Reemit
import SpinGlass.Proofs.Simplify.Evident
import SpinGlass.Proofs.Simplify.Margin
import SpinGlass.Proofs.Simplify.Traces
import SpinGlass.Proofs.Simplify.Inference
import SpinGlass.Proofs.Simplify.Matching
import SpinGlass.Proofs.Simplify.Outcome
import SpinGlass.Proofs.Problem.Reordered
import SpinGlass.Proofs.Simplify.Order
import SpinGlass.Proofs.Problem.Meaning
import SpinGlass.Proofs.Symbols.Reachable
import SpinGlass.Proofs.Sample.SolutionId
import SpinGlass.Proofs.Sample.Reading
import SpinGlass.Proofs.Sample.Grouping
import SpinGlass.Proofs.Sample.Identity
import SpinGlass.Proofs.Sample.Report
import SpinGlass.Proofs.Problem.Conversion
import SpinGlass.Proofs.Physical.Document
import SpinGlass.Proofs.Symbols.Redirect
import SpinGlass.Proofs.Symbols.Batch
import SpinGlass.Proofs.Compile.Bindings
import SpinGlass.Proofs.Problem.PinReward
import SpinGlass.Proofs.Simplify.Clash
import SpinGlass.Proofs.Simplify.Again
import SpinGlass.Proofs.Simplify.Attached
import SpinGlass.Proofs.Compile.Anchored
import SpinGlass.Proofs.Routing.Frontier
import SpinGlass.Proofs.Embedding.Budget
import SpinGlass.Proofs.Routing.Settling
import SpinGlass.Proofs.Routing.Shortest
import SpinGlass.Proofs.Routing.Totals
import SpinGlass.Proofs.Compile.ChainStrength
import SpinGlass.Proofs.Hardware.Chimera
import SpinGlass.Proofs.Hardware.Inference
import SpinGlass.Proofs.Embedding.Widening
import SpinGlass.Proofs.Embedding.Hints
import SpinGlass.Proofs.Hardware.Removal
import SpinGlass.Proofs.Sample.Numeral
import SpinGlass.Proofs.Expr.Settled
import SpinGlass.Proofs.Sample.Anneal
import SpinGlass.Proofs.Symbols.Fresh
import SpinGlass.Proofs.Routing.Uses
