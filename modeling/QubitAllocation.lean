import QubitAllocation.Text.Blank
import QubitAllocation.Text.Number
import QubitAllocation.Search
import QubitAllocation.Total
import QubitAllocation.Device.Error
import QubitAllocation.Device.Basic
import QubitAllocation.Device.Catalog
import QubitAllocation.Device.Route
import QubitAllocation.Device.Reader
import QubitAllocation.Token.Arrangement
import QubitAllocation.Token.SwapTable
import QubitAllocation.Plan.Operation
import QubitAllocation.Error
import QubitAllocation.Layout
import QubitAllocation.Dependency.Basic
import QubitAllocation.Dependency.Reader
import QubitAllocation.Circuit.Program
import QubitAllocation.Circuit.Wires
import QubitAllocation.Choice
import QubitAllocation.Plan.Cost
import QubitAllocation.Plan.Solution
import QubitAllocation.Dependency.Table
import QubitAllocation.Replay.Basic
import QubitAllocation.Placement.Basic
import QubitAllocation.Strategy.Gate
import QubitAllocation.Strategy.Direct
import QubitAllocation.Strategy.Exact
import QubitAllocation.Strategy.PathGuided
import QubitAllocation.Circuit.Frontier
import QubitAllocation.Strategy.Greedy
import QubitAllocation.Json.Value
import QubitAllocation.Json.Quoted
import QubitAllocation.Json.Token
import QubitAllocation.Json.Reader
import QubitAllocation.Json.Printer
import QubitAllocation.Json.Records
import QubitAllocation.Decimal.Quotient
import QubitAllocation.Text.CodeRange
import QubitAllocation.Text.CaseIgnorable
import QubitAllocation.Text.Cased
import QubitAllocation.Text.LowerCase
import QubitAllocation.Config.Basic
import QubitAllocation.Yaml.Source
import QubitAllocation.Yaml.Token
import QubitAllocation.Yaml.Scalar
import QubitAllocation.Yaml.Block
import QubitAllocation.Yaml.Property
import QubitAllocation.Yaml.TokenReader
import QubitAllocation.Yaml.Node
import QubitAllocation.Yaml.Reader
import QubitAllocation.Config.Yaml
import QubitAllocation.Allocator
import QubitAllocation.Json.Report
import QubitAllocation.Command.Arguments
import QubitAllocation.Command.Basic
import QubitAllocation.Command.Files
import QubitAllocation.Command.Outcome
import QubitAllocation.Command.Run
import QubitAllocation.Main
import QubitAllocation.Proofs.Outcome
import QubitAllocation.Proofs.Coupling
import QubitAllocation.Proofs.Arrangement
import QubitAllocation.Proofs.Dependencies
import QubitAllocation.Proofs.Replay.Run
import QubitAllocation.Proofs.Replay.Judgement
import QubitAllocation.Proofs.Search
import QubitAllocation.Proofs.Itinerary
import QubitAllocation.Proofs.QueueSearch
import QubitAllocation.Proofs.Route
import QubitAllocation.Proofs.Rank
import QubitAllocation.Proofs.TokenSwap
import QubitAllocation.Proofs.Replay.SwapRun
import QubitAllocation.Proofs.Choice
import QubitAllocation.Proofs.Gate
import QubitAllocation.Proofs.Exact.Trail
import QubitAllocation.Proofs.Exact.Soundness
import QubitAllocation.Proofs.Exact.Optimality
import QubitAllocation.Proofs.Layout
import QubitAllocation.Proofs.Replay.Tracking
import QubitAllocation.Proofs.Placement
import QubitAllocation.Proofs.Circuit.Wires
import QubitAllocation.Proofs.Circuit.Frontier
import QubitAllocation.Proofs.Circuit.Carried
import QubitAllocation.Proofs.Greedy.Tracking
import QubitAllocation.Proofs.Greedy.Fix
import QubitAllocation.Proofs.Greedy.Soundness
import QubitAllocation.Proofs.Greedy.Schedule
import QubitAllocation.Proofs.TokenQuery
import QubitAllocation.Proofs.PathGuided.Chain
import QubitAllocation.Proofs.PathGuided.Soundness
import QubitAllocation.Proofs.Direct
import QubitAllocation.Proofs.Verification
import QubitAllocation.Proofs.Exact.Sharing
import QubitAllocation.Proofs.TokenReach
import QubitAllocation.Proofs.Exact.Connected
import QubitAllocation.Proofs.Replay.Coverage
import QubitAllocation.Proofs.Bridges
import QubitAllocation.Proofs.Exact.Dominance
import QubitAllocation.Proofs.Greedy.Agreement
import QubitAllocation.Proofs.ProgramFit
import QubitAllocation.Proofs.TokenBounds
import QubitAllocation.Proofs.Safety.Basic
import QubitAllocation.Proofs.Safety.Exact
import QubitAllocation.Proofs.Safety.Greedy
import QubitAllocation.Proofs.Safety.PathGuided
import QubitAllocation.Proofs.Safety.Allocator
import QubitAllocation.Proofs.Circuit.CursorRun
import QubitAllocation.Proofs.Text.Sheet
import QubitAllocation.Proofs.Text.Word
import QubitAllocation.Proofs.Description
import QubitAllocation.Proofs.DependencyList
import QubitAllocation.Proofs.Metric
import QubitAllocation.Proofs.PathGuided.Components
import QubitAllocation.Proofs.Enumeration
import QubitAllocation.Proofs.Json.Document
import QubitAllocation.Proofs.Json.FieldOrder
import QubitAllocation.Proofs.Json.Records
import QubitAllocation.Proofs.PathGuided.Occurrences
import QubitAllocation.Proofs.DirectReach
import QubitAllocation.Proofs.Exact.Canonical
import QubitAllocation.Proofs.Exact.Laws
import QubitAllocation.Proofs.TokenMetric
import QubitAllocation.Proofs.Placement.Words
import QubitAllocation.Proofs.Placement.Order
import QubitAllocation.Proofs.Origin
import QubitAllocation.Proofs.Families
import QubitAllocation.Proofs.Yaml.Lines
import QubitAllocation.Proofs.Yaml.Rows
import QubitAllocation.Proofs.ConfigText
import QubitAllocation.Proofs.Totals.Basic
import QubitAllocation.Proofs.Totals.Runs
import QubitAllocation.Proofs.Totals.Greedy
import QubitAllocation.Proofs.Totals.Exact
import QubitAllocation.Proofs.Totals
import QubitAllocation.Proofs.Labels
import QubitAllocation.Proofs.Greedy.Readiness
import QubitAllocation.Proofs.LayoutRun
import QubitAllocation.Proofs.RouteOrder
