import BlockDag.Config.Load
import BlockDag.Proofs.Faults
import BlockDag.Proofs.Progress
import BlockDag.Proofs.Soundness
import BlockDag.Simulation.Node
import BlockDag.Simulation.Scenario
import BlockDag.Store.Directory
import BlockDag.Toml.Text.RoundTrip
import BlockDag.Proofs.Canonical
import BlockDag.Proofs.Endings
import BlockDag.Proofs.Lifecycle
import BlockDag.Proofs.Restart
import BlockDag.Proofs.Malformed
import BlockDag.Proofs.Resident
import BlockDag.Proofs.Alarms
import BlockDag.Proofs.Thrift
import BlockDag.Proofs.Prospect
import BlockDag.Proofs.Isolation
import BlockDag.Proofs.Tenure
import BlockDag.Proofs.Termination
import BlockDag.Proofs.Clearing
import BlockDag.Proofs.Leftovers
import BlockDag.Proofs.Repeats
import BlockDag.Proofs.Descent
import BlockDag.Proofs.Resources
import BlockDag.Proofs.Refinement
import BlockDag.Proofs.Levels
import BlockDag.Proofs.Figures
import BlockDag.Proofs.Verdicts
import BlockDag.Proofs.Multimap
import BlockDag.Proofs.Enumeration
import BlockDag.Proofs.Frame
import BlockDag.Proofs.Defaults
