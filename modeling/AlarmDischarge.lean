import AlarmDischarge.Node
import AlarmDischarge.Text.Escape
import AlarmDischarge.Code.Expr.Order
import AlarmDischarge.Code.Command
import AlarmDischarge.Logic.Formula
import AlarmDischarge.Logic.Conversion
import AlarmDischarge.Fact.Generation
import AlarmDischarge.Json.Reader
import AlarmDischarge.Json.Printer
import AlarmDischarge.Codec.Code
import AlarmDischarge.Codec.Logic
import AlarmDischarge.Condition
import AlarmDischarge.Decision
import AlarmDischarge.Report
import AlarmDischarge.NodeGraph.Basic
import AlarmDischarge.NodeGraph.Numbered
import AlarmDischarge.NodeGraph.Indexed
import AlarmDischarge.Program.Maps
import AlarmDischarge.NodeGraph.Ancestors
import AlarmDischarge.DefUse.Graph
import AlarmDischarge.Slice
import AlarmDischarge.Propagation
import AlarmDischarge.Verifier.Journal
import AlarmDischarge.Codec.Report
import AlarmDischarge.Codec.Settings
import AlarmDischarge.Yaml.Reader
import AlarmDischarge.Settings.Yaml
import AlarmDischarge.Proofs.FiniteSet
import AlarmDischarge.Proofs.Worklist
import AlarmDischarge.Proofs.Fact
import AlarmDischarge.Proofs.Propagation.Stored
import AlarmDischarge.Proofs.Slice
import AlarmDischarge.Proofs.Condition
import AlarmDischarge.Proofs.Propagation.Contradiction
import AlarmDischarge.Proofs.Propagation.Restriction
import AlarmDischarge.Proofs.DefUse.Reaching
import AlarmDischarge.Proofs.DefUse.Paths
import AlarmDischarge.Proofs.Propagation.Bound
import AlarmDischarge.Proofs.Influence
import AlarmDischarge.Proofs.Propagation.Pass
import AlarmDischarge.Proofs.Allocation
import AlarmDischarge.Proofs.Propagation.Cancellation
import AlarmDischarge.Proofs.Validity
import AlarmDischarge.Proofs.Discharge
import AlarmDischarge.Proofs.Json.Text
import AlarmDischarge.Proofs.Codec.Code
import AlarmDischarge.Proofs.Codec.Report
import AlarmDischarge.Proofs.Propagation.Reach
import AlarmDischarge.Proofs.ConditionText
import AlarmDischarge.Proofs.FactVariables
import AlarmDischarge.Proofs.Conversion
import AlarmDischarge.Proofs.IndexedGraph
import AlarmDischarge.Proofs.ProgramMaps
import AlarmDischarge.Proofs.Propagation.Filter
import AlarmDischarge.Proofs.Settings
