import ScenarioFsp.Main
import ScenarioFsp.Proofs.Flow.Exact
import ScenarioFsp.Proofs.Grammar.Completion
import ScenarioFsp.Proofs.Grammar.NormalForm
import ScenarioFsp.Proofs.Synthesis
import ScenarioFsp.Proofs.Fsp.Definitions
import ScenarioFsp.Proofs.Dangling
import ScenarioFsp.Proofs.Document.Accepted
import ScenarioFsp.Proofs.Flow.SameFlow
import ScenarioFsp.Proofs.History
import ScenarioFsp.Proofs.Registry
import ScenarioFsp.Proofs.Document.Faults
import ScenarioFsp.Proofs.Document.Verdict
import ScenarioFsp.Proofs.Document.Grammar
import ScenarioFsp.Proofs.Document.Recognition
import ScenarioFsp.Proofs.Document.Writing
import ScenarioFsp.Proofs.Document.RoundTrip
import ScenarioFsp.Proofs.Paths
import ScenarioFsp.Proofs.Flow.Boundaries
import ScenarioFsp.Proofs.Grammar.Saturation
import ScenarioFsp.Proofs.Reporting
import ScenarioFsp.Proofs.Flow.Rerooting
import ScenarioFsp.Proofs.Flow.Loosening
import ScenarioFsp.Proofs.Flow.Predecessors
import ScenarioFsp.Proofs.Grammar.SilentWays
import ScenarioFsp.Proofs.Grammar.Chains
import ScenarioFsp.Proofs.Grammar.Accounting
import ScenarioFsp.Proofs.Grammar.Grouping
import ScenarioFsp.Proofs.Fsp.Projections
import ScenarioFsp.Proofs.Document.Rearranging
import ScenarioFsp.Proofs.Document.Warnings
import ScenarioFsp.Proofs.Grammar.Usage
import ScenarioFsp.Proofs.Command.Arguments
import ScenarioFsp.Proofs.Command.Delivery
import ScenarioFsp.Proofs.Fsp.Clashes
