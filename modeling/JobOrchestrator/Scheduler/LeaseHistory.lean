import JobOrchestrator.Scheduler.Lifecycle

/-!
# The leases of a history

`leaseOf history dagId jobId` reads the current lease of a job off the events of
a run alone: claims grant it, heartbeats move its deadline, reports, reaps and
cancellations end it.  `run_leases`: the scheduler holds exactly these leases.
-/

namespace JobOrchestrator

/-! ## Leases of a history -/

/-- A reap at a time ends a lease whose deadline has come. -/
def reapLease (nowMs : ℤ) (lease : Option Lease) : Option Lease :=
  lease.filter fun lease => nowMs < lease.expiresAtMs

/-- The lease of a job after an event. -/
def Event.leaseAfter (dagId jobId : String) (lease : Option Lease) : Event → Option Lease
  | .claim owner nowMs _ (.ok (some claimed)) =>
      if claimed.dagId = dagId ∧ claimed.jobId = jobId then
        some ⟨owner, claimed.leaseToken, claimed.leaseExpiresAtMs⟩
      else reapLease nowMs lease
  | .claim _ nowMs _ (.ok none) => reapLease nowMs lease
  | .reap nowMs _ => reapLease nowMs lease
  | .heartbeat dagId' jobId' _ _ _ _ (.ok expiresAtMs) =>
      if dagId' = dagId ∧ jobId' = jobId then lease.map fun lease => { lease with expiresAtMs }
      else lease
  | .complete dagId' jobId' _ _ _ _ (.ok ()) =>
      if dagId' = dagId ∧ jobId' = jobId then none else lease
  | .fail dagId' jobId' _ _ _ (.ok _) =>
      if dagId' = dagId ∧ jobId' = jobId then none else lease
  | .cancel dagId' (.ok _) => if dagId' = dagId then none else lease
  | _ => lease

/-- The lease of a job that the events of a history leave. -/
def leaseOf : List Event → String → String → Option Lease
  | [], _, _ => none
  | event :: rest, dagId, jobId => event.leaseAfter dagId jobId (leaseOf rest dagId jobId)

namespace Scheduler

/-- The lease that the scheduler holds for a job. -/
def lease? (scheduler : Scheduler) (dagId jobId : String) : Option Lease :=
  (scheduler.job? dagId jobId).bind JobRecord.lease

variable {specs : String → Option DagSpec} {scheduler : Scheduler}

theorem lease_reaped {job : JobRecord} (hleased : job.lease.isSome = true ↔ job.state = .leased)
    (config : SchedulerConfig) (nowMs : ℤ) (jobId : String) :
    (reaped config nowMs jobId job).lease = reapLease nowMs job.lease := by
  unfold reaped
  cases hlease : job.lease with
  | none => simp [JobRecord.leaseExpired, hlease, reapLease]
  | some lease =>
      have hstate : job.state = .leased := hleased.mp (by simp [hlease])
      by_cases hexpired : lease.expiresAtMs ≤ nowMs
      · have hcond : job.leaseExpired nowMs = true := by
          simp [JobRecord.leaseExpired, hlease, hstate, hexpired]
        simp [hcond, reapLease, Option.filter, hexpired]
      · have hcond : job.leaseExpired nowMs = false := by
          simp [JobRecord.leaseExpired, hlease, hexpired]
        simp [hcond, hlease, reapLease, Option.filter, not_le.mp hexpired]

theorem lease_atJob {f : JobRecord → JobRecord} {job : JobRecord} {lease : Option Lease}
    (hf : (f job).lease = lease) (dagId' jobId' dagId jobId : String) :
    (atJob dagId' jobId' f dagId jobId job).lease =
      if dagId' = dagId ∧ jobId' = jobId then lease else job.lease := by
  by_cases hkey : dagId' = dagId ∧ jobId' = jobId
  · obtain ⟨rfl, rfl⟩ := hkey
    rw [atJob_self, hf, if_pos ⟨rfl, rfl⟩]
  · rw [atJob_of_ne fun h => hkey ⟨h.1.symm, h.2.symm⟩, if_neg hkey]

theorem lease_completedRecord (nowMs : ℤ) (output jobId' : String) (dependents : List String)
    (jobId : String) (job : JobRecord) :
    (completedRecord nowMs output jobId' dependents jobId job).lease =
      if jobId' = jobId then none else job.lease := by
  unfold completedRecord
  rw [lease_released]
  by_cases hjob : jobId = jobId'
  · rw [if_pos hjob, if_pos hjob.symm]
    rfl
  · rw [if_neg hjob, if_neg (Ne.symm hjob)]

/-- A job that is not leased has no lease to lose by a cancellation. -/
theorem lease_cancelled {job : JobRecord}
    (hleased : job.lease.isSome = true ↔ job.state = .leased) : (cancelled job).lease = none := by
  unfold cancelled
  split
  next hterminal =>
    rw [← Option.not_isSome_iff_eq_none, hleased]
    intro hstate
    simp [JobRecord.isTerminal, hstate] at hterminal
  next => rfl

theorem lease_recordAfter {job : JobRecord}
    (hleased : job.lease.isSome = true ↔ job.state = .leased) (event : Event)
    (dagId jobId : String) :
    (event.recordAfter scheduler dagId jobId job).lease =
      event.leaseAfter dagId jobId job.lease := by
  cases event with
  | submit spec nowMs result => rfl
  | claim owner nowMs leaseMs result =>
      match result with
      | .ok (some claimed) =>
          refine (lease_atJob rfl _ _ _ _).trans ?_
          rw [lease_reaped hleased]
          rfl
      | .ok none => exact lease_reaped hleased ..
      | .error _ => rfl
  | heartbeat dagId' jobId' owner token nowMs leaseMs result =>
      cases result with
      | ok expiresAtMs => exact lease_atJob rfl _ _ _ _
      | error error => rfl
  | complete dagId' jobId' owner token output nowMs result =>
      cases result with
      | ok _ =>
          simp only [Event.recordAfter, Event.leaseAfter]
          by_cases hdag : dagId' = dagId
          · rw [if_pos hdag.symm, lease_completedRecord]
            simp only [hdag, true_and]
          · rw [if_neg (Ne.symm hdag), if_neg fun hkey => hdag hkey.1]
      | error error => rfl
  | fail dagId' jobId' owner token nowMs result =>
      cases result with
      | ok state => exact lease_atJob (lease_retried ..) _ _ _ _
      | error error => rfl
  | reap nowMs result => exact lease_reaped hleased ..
  | cancel dagId' result =>
      cases result with
      | ok count =>
          simp only [Event.recordAfter, Event.leaseAfter]
          by_cases hdag : dagId' = dagId
          · rw [if_pos hdag.symm, if_pos hdag, lease_cancelled hleased]
          · rw [if_neg (Ne.symm hdag), if_neg hdag]
      | error error => rfl

theorem leaseAfter_none {event : Event} (hjustified : event.Justified scheduler)
    {dagId jobId : String} (hnone : scheduler.job? dagId jobId = none) :
    event.leaseAfter dagId jobId none = none := by
  cases event with
  | claim owner nowMs leaseMs result =>
      match result, hjustified with
      | .ok (some claimed), hjustified =>
          obtain ⟨-, -, -, taken, ⟨htaken, -⟩, -⟩ := hjustified
          refine if_neg ?_
          rintro ⟨rfl, rfl⟩
          rw [job?_of_dags_eq_mapJobs (dags_reap scheduler nowMs), hnone] at htaken
          cases htaken
      | .ok none, _ => rfl
      | .error _, _ => rfl
  | submit spec nowMs result => rfl
  | heartbeat dagId' jobId' owner token nowMs leaseMs result =>
      cases result with
      | ok expiresAtMs => exact ite_self none
      | error error => rfl
  | complete dagId' jobId' owner token output nowMs result =>
      cases result with
      | ok _ => exact ite_self none
      | error error => rfl
  | fail dagId' jobId' owner token nowMs result =>
      cases result with
      | ok state => exact ite_self none
      | error error => rfl
  | reap nowMs result => rfl
  | cancel dagId' result =>
      cases result with
      | ok count => exact ite_self none
      | error error => rfl

theorem Invariant.lease?_perform (h : scheduler.Invariant specs) (operation : Operation)
    (dagId jobId : String) :
    (operation.perform scheduler).2.lease? dagId jobId =
      (operation.perform scheduler).1.leaseAfter dagId jobId (scheduler.lease? dagId jobId) := by
  unfold lease?
  cases hjob : scheduler.job? dagId jobId with
  | some job =>
      rw [perform_record h operation hjob]
      exact lease_recordAfter (h.lease dagId jobId job hjob) _ dagId jobId
  | none =>
      rw [Option.bind_none, leaseAfter_none (perform_justified h operation) hjob,
        Option.bind_eq_none_iff]
      intro after hafter
      rcases perform_origin h operation hafter with ⟨before, hbefore, -⟩ | ⟨-, _, _, -, hinitial⟩
      · cases hbefore.symm.trans hjob
      · rw [hinitial, DagSpec.initialRecord]

end Scheduler

open Scheduler

/-- The scheduler holds the leases that the history leaves. -/
theorem run_leases {config : SchedulerConfig} {history : List Event} {scheduler : Scheduler}
    (hrun : Run config history scheduler) (dagId jobId : String) :
    scheduler.lease? dagId jobId = leaseOf history dagId jobId := by
  induction hrun with
  | new => rfl
  | step operation hrun ih =>
      rw [(run_invariant hrun).lease?_perform operation, ih]
      rfl

end JobOrchestrator
