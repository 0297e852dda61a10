import StockFlow.Document.Basic
import StockFlow.Document.Decode
import StockFlow.Document.Encode
import StockFlow.Equation.Basic
import StockFlow.Equation.Printer
import StockFlow.Fault
import StockFlow.Function
import StockFlow.Json.Basic
import StockFlow.Json.Reader
import StockFlow.Json.Value
import StockFlow.Keyed
import StockFlow.Library
import StockFlow.Main
import StockFlow.Model.Basic
import StockFlow.Model.Dependencies
import StockFlow.Model.Expansion
import StockFlow.Model.Linked
import StockFlow.Name
import StockFlow.Number.Decimal
import StockFlow.Number.Digits
import StockFlow.Number.Double
import StockFlow.Number.Scalar
import StockFlow.Number.Shortest
import StockFlow.Number.Style
import StockFlow.Plan.Basic
import StockFlow.Plan.Clock
import StockFlow.Plan.Code
import StockFlow.Plan.Instance
import StockFlow.Plan.Layout
import StockFlow.Plan.Listing
import StockFlow.Plan.Lowering
import StockFlow.Plan.Meaning
import StockFlow.Plan.Order
import StockFlow.Plan.Row
import StockFlow.Plan.Term
import StockFlow.Project
import StockFlow.Proofs.Acyclic
import StockFlow.Proofs.Addresses
import StockFlow.Proofs.Agreement
import StockFlow.Proofs.Answers
import StockFlow.Proofs.Balancing
import StockFlow.Proofs.Bounds
import StockFlow.Proofs.Building
import StockFlow.Proofs.Calls
import StockFlow.Proofs.Canonical
import StockFlow.Proofs.Catalog
import StockFlow.Proofs.Clamping
import StockFlow.Proofs.Closure
import StockFlow.Proofs.Codability
import StockFlow.Proofs.Comparing
import StockFlow.Proofs.Completeness
import StockFlow.Proofs.Confining
import StockFlow.Proofs.Conservation
import StockFlow.Proofs.Construction
import StockFlow.Proofs.Courses
import StockFlow.Proofs.Cycles
import StockFlow.Proofs.Decimation
import StockFlow.Proofs.Declarations
import StockFlow.Proofs.Detours
import StockFlow.Proofs.Doubles
import StockFlow.Proofs.Dynamics
import StockFlow.Proofs.Ending
import StockFlow.Proofs.Equilibrium
import StockFlow.Proofs.Euler
import StockFlow.Proofs.Exact
import StockFlow.Proofs.Expanding
import StockFlow.Proofs.Flattening
import StockFlow.Proofs.History
import StockFlow.Proofs.Hoisting
import StockFlow.Proofs.Holding
import StockFlow.Proofs.Identifiers
import StockFlow.Proofs.Inlining
import StockFlow.Proofs.Instances
import StockFlow.Proofs.Instantiation
import StockFlow.Proofs.Integration
import StockFlow.Proofs.Interpolation
import StockFlow.Proofs.Interpreting
import StockFlow.Proofs.LastRow
import StockFlow.Proofs.Legibility
import StockFlow.Proofs.Lines
import StockFlow.Proofs.Linking
import StockFlow.Proofs.Lowering
import StockFlow.Proofs.Mirroring
import StockFlow.Proofs.Miscalling
import StockFlow.Proofs.Names
import StockFlow.Proofs.Nesting
import StockFlow.Proofs.Numerals
import StockFlow.Proofs.Observing
import StockFlow.Proofs.Omitting
import StockFlow.Proofs.Order
import StockFlow.Proofs.Overriding
import StockFlow.Proofs.Parentheses
import StockFlow.Proofs.Partition
import StockFlow.Proofs.Paths
import StockFlow.Proofs.Persisting
import StockFlow.Proofs.Planning
import StockFlow.Proofs.Program
import StockFlow.Proofs.Pulses
import StockFlow.Proofs.Queries
import StockFlow.Proofs.Reading
import StockFlow.Proofs.Rearranging
import StockFlow.Proofs.Recasting
import StockFlow.Proofs.Recurrences
import StockFlow.Proofs.References
import StockFlow.Proofs.Refusals
import StockFlow.Proofs.Rejoining
import StockFlow.Proofs.Relabeling
import StockFlow.Proofs.Relinking
import StockFlow.Proofs.Renaming
import StockFlow.Proofs.Replanning
import StockFlow.Proofs.Rerouting
import StockFlow.Proofs.Rerunning
import StockFlow.Proofs.Resetting
import StockFlow.Proofs.Resolution
import StockFlow.Proofs.Resting
import StockFlow.Proofs.Restoring
import StockFlow.Proofs.Retiming
import StockFlow.Proofs.RoundTrip
import StockFlow.Proofs.Rounding
import StockFlow.Proofs.Saving
import StockFlow.Proofs.Schedule
import StockFlow.Proofs.Sequence
import StockFlow.Proofs.Settling
import StockFlow.Proofs.Spelling
import StockFlow.Proofs.Stops
import StockFlow.Proofs.Storing
import StockFlow.Proofs.Success
import StockFlow.Proofs.Ticking
import StockFlow.Proofs.Walking
import StockFlow.Proofs.Writing
import StockFlow.Pulse
import StockFlow.Run.Simulation
import StockFlow.Run.Storage
import StockFlow.Session.Command
import StockFlow.Session.Engine
import StockFlow.Session.Worker
import StockFlow.Table
import StockFlow.Text.Blank
import StockFlow.Text.LetterCase
import StockFlow.Text.Lowercase
import StockFlow.TimeSpec
import StockFlow.Variable
