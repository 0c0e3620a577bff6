import JobOrchestrator.Library.Table
import JobOrchestrator.Library.MinHeap
import JobOrchestrator.Library.Machine
import JobOrchestrator.Library.MachineInt
import JobOrchestrator.Library.Digraph
import JobOrchestrator.Library.Commute
import JobOrchestrator.Library.Sorting
import JobOrchestrator.Library.Keyset
import JobOrchestrator.Library.ReadCommitted
import JobOrchestrator.Library.FinalRows
import JobOrchestrator.Library.Guards
import JobOrchestrator.Library.Isolation
import JobOrchestrator.Library.Waiting
import JobOrchestrator.Domain.Spec
import JobOrchestrator.Domain.Kahn
import JobOrchestrator.Domain.Validation
import JobOrchestrator.Domain.KahnLoop
import JobOrchestrator.Domain.Stable
import JobOrchestrator.Scheduler.Basic
import JobOrchestrator.Scheduler.Effects
import JobOrchestrator.Scheduler.Run
import JobOrchestrator.Scheduler.Admission
import JobOrchestrator.Scheduler.Heap
import JobOrchestrator.Scheduler.Selection
import JobOrchestrator.Scheduler.Consistency
import JobOrchestrator.Scheduler.Invariant
import JobOrchestrator.Scheduler.Lifecycle
import JobOrchestrator.Scheduler.Dependencies
import JobOrchestrator.Scheduler.LeaseHistory
import JobOrchestrator.Scheduler.Tokens
import JobOrchestrator.Scheduler.Drain
import JobOrchestrator.Scheduler.Laws
import JobOrchestrator.Scheduler.Budget
import JobOrchestrator.Scheduler.Claims
import JobOrchestrator.Scheduler.Exclusion
import JobOrchestrator.Scheduler.Settling
import JobOrchestrator.Scheduler.Capacity
import JobOrchestrator.Scheduler.Reaping
import JobOrchestrator.Scheduler.Entries
import JobOrchestrator.Scheduler.Reports
import JobOrchestrator.Scheduler.RetryDelay
import JobOrchestrator.Scheduler.Overtaking
import JobOrchestrator.Scheduler.Snapshot
import JobOrchestrator.Store.Schema
import JobOrchestrator.Store.Statements
import JobOrchestrator.Store.Postgres
import JobOrchestrator.Store.Encoding
import JobOrchestrator.Library.Utf8
import JobOrchestrator.Http.Response
import JobOrchestrator.Http.Pagination
import JobOrchestrator.Store.Submit
import JobOrchestrator.Store.Effects
import JobOrchestrator.Store.Mirror
import JobOrchestrator.Store.ClaimOrder
import JobOrchestrator.Store.InStep
import JobOrchestrator.Store.Related
import JobOrchestrator.Store.Completion
import JobOrchestrator.Store.Refinement
import JobOrchestrator.Store.Audit
import JobOrchestrator.Store.Concurrent
import JobOrchestrator.Store.Cancellation
import JobOrchestrator.Store.LeaseSafety
import JobOrchestrator.Store.Release
import JobOrchestrator.Store.Origin
import JobOrchestrator.Store.Progression
import JobOrchestrator.Store.Constraints
import JobOrchestrator.Store.Isolation
import JobOrchestrator.Store.Integrity
import JobOrchestrator.Store.DependencyOrder
import JobOrchestrator.Store.Quiescence
import JobOrchestrator.Store.Deadlock
import JobOrchestrator.Store.Recovery
import JobOrchestrator.Http.Snapshot
import JobOrchestrator.Http.Polling
import JobOrchestrator.Http.Api
import JobOrchestrator.Worker.Loop
import JobOrchestrator.Worker.Execution
import JobOrchestrator.Worker.Fleet
