import ChartNet.Assoc
import ChartNet.Automaton
import ChartNet.Automaton.Edge
import ChartNet.Automaton.Rank
import ChartNet.Automaton.Variable
import ChartNet.Build
import ChartNet.Chart
import ChartNet.Chart.Assign
import ChartNet.Chart.Body
import ChartNet.Chart.Compile
import ChartNet.Chart.Data
import ChartNet.Chart.Guard
import ChartNet.Chart.Probability
import ChartNet.Chart.Schema
import ChartNet.CommandLine
import ChartNet.Composition
import ChartNet.Descriptor
import ChartNet.Descriptor.Compile
import ChartNet.Diagnostic
import ChartNet.Digest
import ChartNet.Document
import ChartNet.Error
import ChartNet.Event
import ChartNet.Expr.Access
import ChartNet.Expr.Array
import ChartNet.Expr.Basic
import ChartNet.Expr.Call
import ChartNet.Expr.Constant
import ChartNet.Expr.Draw
import ChartNet.Expr.Jani
import ChartNet.Expr.Operator
import ChartNet.Expr.Printer
import ChartNet.Expr.Type
import ChartNet.Expr.Typing
import ChartNet.Files
import ChartNet.Files.Bracket
import ChartNet.Files.Glob
import ChartNet.Files.Glob.Pattern
import ChartNet.Files.Glob.Range
import ChartNet.Files.Ignore
import ChartNet.Files.Search
import ChartNet.Json.Basic
import ChartNet.Json.Parser
import ChartNet.Json.Printer
import ChartNet.Macro.Expand
import ChartNet.Macro.Geometry
import ChartNet.Macro.Vector
import ChartNet.Main
import ChartNet.Model
import ChartNet.Model.Delivery
import ChartNet.Model.Printer
import ChartNet.Model.Random
import ChartNet.Number.Arithmetic
import ChartNet.Number.Dyadic
import ChartNet.Number.Reading
import ChartNet.Number.Shortest
import ChartNet.Number.Size
import ChartNet.Number.Text
import ChartNet.Phrase
import ChartNet.Phrase.Diagnosis
import ChartNet.Phrase.Meaning
import ChartNet.Phrase.Parser
import ChartNet.Proofs.Array.Comparison
import ChartNet.Proofs.Array.Padding
import ChartNet.Proofs.Array.Paths
import ChartNet.Proofs.Assoc
import ChartNet.Proofs.Automaton
import ChartNet.Proofs.Body.Actions
import ChartNet.Proofs.Body.Arrays
import ChartNet.Proofs.Body.Conflicts
import ChartNet.Proofs.Body.Elements
import ChartNet.Proofs.Body.Execution
import ChartNet.Proofs.Body.Locations
import ChartNet.Proofs.Body.Notes
import ChartNet.Proofs.Body.Payloads
import ChartNet.Proofs.Body.Phases
import ChartNet.Proofs.Body.Simulation
import ChartNet.Proofs.Body.Steps
import ChartNet.Proofs.Body.Targets
import ChartNet.Proofs.Build
import ChartNet.Proofs.Chart.Apart
import ChartNet.Proofs.Chart.Bodies
import ChartNet.Proofs.Chart.Bounds
import ChartNet.Proofs.Chart.Handling
import ChartNet.Proofs.Chart.Loops
import ChartNet.Proofs.Chart.Notes
import ChartNet.Proofs.Chart.Probabilities
import ChartNet.Proofs.Chart.Sites
import ChartNet.Proofs.Chart.Targets
import ChartNet.Proofs.Chart.Transitions
import ChartNet.Proofs.Chart.Wholes
import ChartNet.Proofs.Chart.Written
import ChartNet.Proofs.Expr.Acceptance
import ChartNet.Proofs.Expr.Evaluation
import ChartNet.Proofs.Expr.Form
import ChartNet.Proofs.Expr.Kinds
import ChartNet.Proofs.Expr.RoundTrip
import ChartNet.Proofs.Fields
import ChartNet.Proofs.Files.Outputs
import ChartNet.Proofs.History.Automata
import ChartNet.Proofs.History.Builds
import ChartNet.Proofs.History.Compositions
import ChartNet.Proofs.History.Graphs
import ChartNet.Proofs.History.Models
import ChartNet.Proofs.History.Refusals
import ChartNet.Proofs.Interpretation
import ChartNet.Proofs.Lookup
import ChartNet.Proofs.Macro.Clearance
import ChartNet.Proofs.Macro.Contact
import ChartNet.Proofs.Macro.Expansion
import ChartNet.Proofs.Macro.Intersection
import ChartNet.Proofs.Macro.NormalForm
import ChartNet.Proofs.Macro.Quantity
import ChartNet.Proofs.Macro.Typing
import ChartNet.Proofs.Merging
import ChartNet.Proofs.Model.Completion
import ChartNet.Proofs.Model.Formulas
import ChartNet.Proofs.Model.Listing
import ChartNet.Proofs.Model.Opcodes
import ChartNet.Proofs.Model.Positions
import ChartNet.Proofs.Model.Rewriting
import ChartNet.Proofs.Names
import ChartNet.Proofs.Network.Charted
import ChartNet.Proofs.Network.Conflicts
import ChartNet.Proofs.Network.Data
import ChartNet.Proofs.Network.Delivery
import ChartNet.Proofs.Network.EventData
import ChartNet.Proofs.Network.Expansion
import ChartNet.Proofs.Network.Extension
import ChartNet.Proofs.Network.Origin
import ChartNet.Proofs.Network.Payload
import ChartNet.Proofs.Network.Probabilities
import ChartNet.Proofs.Network.Run
import ChartNet.Proofs.Network.Stages
import ChartNet.Proofs.Network.Targets
import ChartNet.Proofs.Network.Vectors
import ChartNet.Proofs.Network.Widening
import ChartNet.Proofs.Network.Wiring
import ChartNet.Proofs.Number.Doubles
import ChartNet.Proofs.Number.Equality
import ChartNet.Proofs.Number.Numerals
import ChartNet.Proofs.Number.Printing
import ChartNet.Proofs.Number.Reading
import ChartNet.Proofs.Number.Rounding
import ChartNet.Proofs.Number.Shortest
import ChartNet.Proofs.Number.Sums
import ChartNet.Proofs.Order.Alone
import ChartNet.Proofs.Order.Charts
import ChartNet.Proofs.Order.Declared
import ChartNet.Proofs.Order.Models
import ChartNet.Proofs.Order.Stages
import ChartNet.Proofs.Order.Vectors
import ChartNet.Proofs.Random.Charts
import ChartNet.Proofs.Random.Combinations
import ChartNet.Proofs.Random.Elimination
import ChartNet.Proofs.Random.Law
import ChartNet.Proofs.Random.Numbering
import ChartNet.Proofs.Random.Outcomes
import ChartNet.Proofs.Random.Sampling
import ChartNet.Proofs.Random.Starts
import ChartNet.Proofs.Random.Texts
import ChartNet.Proofs.Registry
import ChartNet.Proofs.Schema.Reading
import ChartNet.Proofs.Schema.Tidy
import ChartNet.Proofs.Schema.Validity
import ChartNet.Proofs.Schema.Writing
import ChartNet.Proofs.Source.Derivation
import ChartNet.Proofs.Source.Descent
import ChartNet.Proofs.Source.Fitting
import ChartNet.Proofs.Source.Grammar
import ChartNet.Proofs.Source.Lexing
import ChartNet.Proofs.Source.Literals
import ChartNet.Proofs.Source.Quoting
import ChartNet.Proofs.Source.RoundTrip
import ChartNet.Proofs.Source.Shape
import ChartNet.Proofs.Source.Spelling
import ChartNet.Proofs.Source.Unambiguous
import ChartNet.Proofs.Source.WellFormed
import ChartNet.Proofs.Source.Words
import ChartNet.Proofs.Source.Written
import ChartNet.Proofs.Text.Endings
import ChartNet.Proofs.Units
import ChartNet.Proofs.Widening
import ChartNet.Property
import ChartNet.Report
import ChartNet.Schema
import ChartNet.Source
import ChartNet.Text.Blank
import ChartNet.Text.Case
import ChartNet.Text.Pattern
import ChartNet.Text.Split
import ChartNet.Text.Units
import ChartNet.Token
import ChartNet.World
