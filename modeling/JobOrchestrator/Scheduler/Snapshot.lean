import JobOrchestrator.Library.Sorting
import JobOrchestrator.Scheduler.Budget

/-!
# The read model

`JobSnapshot` and `DagSnapshot` with `Scheduler::snapshot`.  What a reader sees of
a reachable scheduler is the truth about every submitted job, once each and in
ascending order, whatever the iteration order of the maps.
-/

namespace JobOrchestrator

structure JobSnapshot where
  id : String
  state : JobState
  attempts : ℕ
  maxAttempts : ℕ
  availableAtMs : ℤ
  leaseOwner : Option String
  leaseExpiresAtMs : Option ℤ
  result : Option String
deriving DecidableEq, Repr

structure DagSnapshot where
  id : String
  jobs : List JobSnapshot
deriving DecidableEq, Repr

/-- What the read model shows of a record. -/
def JobRecord.snapshot (job : JobRecord) : JobSnapshot where
  id := job.spec.id
  state := job.state
  attempts := job.attempts
  maxAttempts := job.spec.maxAttempts
  availableAtMs := job.availableAtMs
  leaseOwner := job.lease.map Lease.owner
  leaseExpiresAtMs := job.lease.map Lease.expiresAtMs
  result := job.result

namespace Scheduler

/-- Returns a stable, identifier-sorted read model. -/
def snapshot (scheduler : Scheduler) (dagId : String) : Except SchedulerError DagSnapshot :=
  match scheduler.dags.get? dagId with
  | none => .error .dagNotFound
  | some dag => .ok ⟨dagId, Sorting.sortBy (· < ·) JobSnapshot.id
      (dag.jobs.entries.map fun entry => entry.2.snapshot)⟩

/-- Reading fails exactly for an unknown graph; otherwise the items are those of the
records, in ascending order. -/
theorem snapshot_cases {specs : String → Option DagSpec} {scheduler : Scheduler}
    (h : scheduler.Invariant specs) (dagId : String) :
    (scheduler.dags.get? dagId = none ∧ scheduler.snapshot dagId = .error .dagNotFound) ∨
    ∃ jobs, scheduler.dags.contains dagId = true ∧ scheduler.snapshot dagId = .ok ⟨dagId, jobs⟩ ∧
      jobs.Pairwise (fun first second => first.id < second.id) ∧
      ∀ item, item ∈ jobs ↔ ∃ jobId job, scheduler.job? dagId jobId = some job ∧
        item = job.snapshot ∧ item.id = jobId := by
  unfold snapshot
  cases hdag : scheduler.dags.get? dagId with
  | none => exact .inl ⟨rfl, rfl⟩
  | some dag =>
      have hid : ∀ entry ∈ dag.jobs.entries, entry.2.snapshot.id = entry.1 := fun entry hentry =>
        (h.valid_spec (job?_eq_some_iff.mpr ⟨dag, hdag, Table.mem_entries.mp hentry⟩)).2
      have hids : (dag.jobs.entries.map fun entry => entry.2.snapshot).map JobSnapshot.id =
          dag.jobs.entries.map Prod.fst := by
        rw [List.map_map]
        exact List.map_congr_left hid
      have hkeys := hids ▸ dag.jobs.nodupKeys
      refine .inr ⟨_, by rw [Table.contains, hdag]; rfl, rfl, Sorting.pairwise_sortBy hkeys,
        fun item => ?_⟩
      simp only [Sorting.mem_sortBy, List.mem_map]
      constructor
      · rintro ⟨entry, hentry, rfl⟩
        exact ⟨entry.1, entry.2, job?_eq_some_iff.mpr ⟨dag, hdag, Table.mem_entries.mp hentry⟩,
          rfl, hid entry hentry⟩
      · rintro ⟨jobId, job, hjob, rfl, -⟩
        exact ⟨(jobId, job), Table.mem_entries.mpr (get?_jobs_of_job? hdag hjob), rfl⟩

end Scheduler

end JobOrchestrator
