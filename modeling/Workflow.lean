import Workflow.Bench
import Workflow.Handle.Board
import Workflow.Proofs.Machine.Await
import Workflow.Proofs.Machine.BackgroundUi
import Workflow.Proofs.Machine.Boundary
import Workflow.Proofs.Machine.CriticalPath
import Workflow.Proofs.Machine.Deadlock
import Workflow.Proofs.Machine.Delegation
import Workflow.Proofs.Machine.Drive
import Workflow.Proofs.Machine.Echo
import Workflow.Proofs.Machine.Endpoint
import Workflow.Proofs.Machine.ForkAwait
import Workflow.Proofs.Machine.Independence
import Workflow.Proofs.Machine.Isolation
import Workflow.Proofs.Machine.Journey
import Workflow.Proofs.Machine.Mimic
import Workflow.Proofs.Machine.Mismatch
import Workflow.Proofs.Machine.Parting
import Workflow.Proofs.Machine.Permissions
import Workflow.Proofs.Machine.Provider
import Workflow.Proofs.Machine.RaceOutcome
import Workflow.Proofs.Machine.Racer
import Workflow.Proofs.Machine.Stores
import Workflow.Proofs.Machine.Typing
import Workflow.Proofs.Machine.Uncancelled
import Workflow.Proofs.Machine.Unobserved
import Workflow.Proofs.Machine.Untraced
import Workflow.Proofs.Program.Keyed
import Workflow.Proofs.Program.Leading
import Workflow.Proofs.Program.Loop
import Workflow.Proofs.Program.Mimic
import Workflow.Proofs.Program.Sequencing
import Workflow.Proofs.Program.Typing
import Workflow.Proofs.Ui.Replay
import Workflow.Proofs.Ui.Wakeup
import Workflow.Proofs.Wire.Formats
import Workflow.Service.UiWaiter
import Workflow.Shared
import Workflow.Yaml.Config
