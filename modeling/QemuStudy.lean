import QemuStudy.Lib.Imperative
import QemuStudy.Lib.Paging
import QemuStudy.Lib.Ranking
import QemuStudy.Lib.Lines
import QemuStudy.Lib.Text
import QemuStudy.Lib.Runs
import QemuStudy.Policy.Trace
import QemuStudy.Policy.Min
import QemuStudy.Policy.Lru
import QemuStudy.Policy.Poly
import QemuStudy.Policy.Compare
import QemuStudy.Policy.ClosedForm
import QemuStudy.Policy.Ties
import QemuStudy.Policy.ParseInput
import QemuStudy.Policy.Loaders
import QemuStudy.Policy.Console
import QemuStudy.Policy.Safety
import QemuStudy.Policy.Main
import QemuStudy.Policy.Extract
import QemuStudy.Workload.MemAccess
import QemuStudy.Controller.Message
import QemuStudy.Controller.Config
import QemuStudy.Controller.Stream
import QemuStudy.Controller.Process
import QemuStudy.Controller.Programs
import QemuStudy.Controller.Handlers
import QemuStudy.Controller.Notifications
import QemuStudy.Controller.Net
import QemuStudy.Controller.History
import QemuStudy.Controller.Invariants
import QemuStudy.Controller.Switchover
import QemuStudy.Controller.Orderly
import QemuStudy.Controller.Agreement
import QemuStudy.Lib.Threads
import QemuStudy.Lib.Progress
import QemuStudy.Deployment.Instr
import QemuStudy.Deployment.Parties
import QemuStudy.Deployment.Causality
import QemuStudy.Deployment.Wiring
import QemuStudy.Deployment.Refines
import QemuStudy.Deployment.Authentic
import QemuStudy.Deployment.Orderly
import QemuStudy.Deployment.Streams
import QemuStudy.Deployment.Calm
import QemuStudy.Deployment.Turns
import QemuStudy.Deployment.Completion
import QemuStudy.Deployment.Times
import QemuStudy.Deployment.Switchover
import QemuStudy.Deployment.Report
import QemuStudy.Deployment.Latency
