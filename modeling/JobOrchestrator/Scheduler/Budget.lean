import JobOrchestrator.Scheduler.LeaseHistory
import JobOrchestrator.Scheduler.Lifecycle

/-!
# The attempt budget

A claim spends an attempt, and only the end of a lease looks at what is left.
`JobRecord.Budgeted` is what a single record keeps along every elementary change
of it; `attempt_budget` ties it to the history: the attempts of a job are the
claims that returned it, and a job is buried exactly by the end of the lease of
its last allowed claim.
-/

namespace JobOrchestrator

open Scheduler

/-- The attempts that a job in a state may have used. -/
def JobState.Spent : JobState → ℕ → ℕ → Prop
  | .pending, attempts, _ => attempts = 0
  | .ready, attempts, _ => attempts = 0
  | .retryWait, attempts, maxAttempts => 0 < attempts ∧ attempts < maxAttempts
  | .leased, attempts, maxAttempts => 1 ≤ attempts ∧ attempts ≤ maxAttempts
  | .succeeded, attempts, maxAttempts => 1 ≤ attempts ∧ attempts ≤ maxAttempts
  | .deadLettered, attempts, maxAttempts => attempts = maxAttempts
  | .cancelled, attempts, maxAttempts => attempts ≤ maxAttempts

/-- The fields of a record agree with its state. -/
structure JobRecord.Budgeted (job : JobRecord) : Prop where
  lease : job.lease.isSome = true ↔ job.state = .leased
  result : job.result.isSome = true ↔ job.state = .succeeded
  spent : job.state.Spent job.attempts job.spec.maxAttempts

theorem JobState.Spent.le {state : JobState} {attempts maxAttempts : ℕ}
    (h : state.Spent attempts maxAttempts) : attempts ≤ maxAttempts := by
  unfold JobState.Spent at h
  split at h <;> omega

theorem JobRecord.Budgeted.attempts_le {job : JobRecord} (h : job.Budgeted) :
    job.attempts ≤ job.spec.maxAttempts :=
  h.spent.le

theorem JobRecord.Budgeted.lt_of_isReady {job : JobRecord} (h : job.Budgeted)
    (hvalid : job.spec.Valid) (hready : job.isReady = true) :
    job.attempts < job.spec.maxAttempts := by
  have hspent := h.spent
  have hpos := hvalid.attempts_pos
  simp only [JobRecord.isReady, Bool.decide_or, Bool.or_eq_true, decide_eq_true_eq] at hready
  rcases hready with hstate | hstate
  · rw [hstate] at hspent
    have hzero : job.attempts = 0 := hspent
    omega
  · rw [hstate] at hspent
    exact hspent.2

/-! ## One record -/

theorem JobRecord.Budgeted.released {job : JobRecord} (h : job.Budgeted) (nowMs : ℤ)
    (edges : ℕ) : (released nowMs edges job).Budgeted := by
  unfold Scheduler.released
  split
  · exact h
  · split
    next hlast =>
      -- the released job was pending: it has neither lease nor result, and no attempts
      have hspent := h.spent
      have hlease := h.lease
      have hresult := h.result
      rw [hlast.2] at hspent hlease hresult
      exact ⟨by simpa using hlease, by simpa using hresult, hspent⟩
    next => exact ⟨h.lease, h.result, h.spent⟩

theorem JobRecord.Budgeted.leased {job : JobRecord} (h : job.Budgeted) (hvalid : job.spec.Valid)
    (hready : job.isReady = true) (owner token : String) (expiresAtMs : ℤ) :
    (leased owner token expiresAtMs job).Budgeted := by
  have hlt := h.lt_of_isReady hvalid hready
  have hle := hvalid.attempts_le
  have hresult := h.result
  have hattempts : U16.saturatingAdd job.attempts 1 = job.attempts + 1 :=
    U16.saturatingAdd_eq (by omega)
  refine ⟨by simp [Scheduler.leased], ?_, ?_⟩
  · simp only [JobRecord.isReady, Bool.decide_or, Bool.or_eq_true, decide_eq_true_eq] at hready
    rcases hready with hstate | hstate
    · simpa [Scheduler.leased, hstate] using hresult
    · simpa [Scheduler.leased, hstate] using hresult
  · show 1 ≤ U16.saturatingAdd job.attempts 1 ∧
      U16.saturatingAdd job.attempts 1 ≤ job.spec.maxAttempts
    omega

theorem JobRecord.Budgeted.retried {job : JobRecord} (h : job.Budgeted)
    (hleased : job.state = .leased) (config : SchedulerConfig) (nowMs : ℤ) (jobId : String) :
    (retried config nowMs jobId job).Budgeted := by
  have hspent := h.spent
  have hresult := h.result
  rw [hleased] at hspent hresult
  obtain ⟨hpos, hle⟩ : 1 ≤ job.attempts ∧ job.attempts ≤ job.spec.maxAttempts := hspent
  unfold Scheduler.retried
  split
  next hbudget =>
    refine ⟨by simp, by simpa using hresult, ?_⟩
    show job.attempts = job.spec.maxAttempts
    omega
  next hbudget =>
    refine ⟨by simp, by simpa using hresult, ?_⟩
    show 0 < job.attempts ∧ job.attempts < job.spec.maxAttempts
    omega

theorem JobRecord.Budgeted.cancelled {job : JobRecord} (h : job.Budgeted) :
    (cancelled job).Budgeted := by
  unfold Scheduler.cancelled
  split
  · exact h
  next hlive =>
    simp only [JobRecord.isTerminal, Bool.decide_or, Bool.or_eq_true, decide_eq_true_eq,
      not_or] at hlive
    refine ⟨by simp, ?_, h.attempts_le⟩
    show job.result.isSome = true ↔ _
    rw [h.result]
    simp [hlive.1]

namespace Scheduler

/-- Every elementary change keeps the fields in agreement. -/
theorem RecordStep.budgeted {config : SchedulerConfig} {jobId : String}
    {before after : JobRecord} (hstep : RecordStep config jobId before after)
    (hvalid : before.spec.Valid) (h : before.Budgeted) : after.Budgeted := by
  cases hstep with
  | released nowMs edges => exact h.released nowMs edges
  | leased owner token expiresAtMs hready => exact h.leased hvalid hready owner token expiresAtMs
  | extended expiresAtMs hleased =>
      refine ⟨?_, h.result, h.spent⟩
      show (before.lease.map _).isSome = true ↔ before.state = .leased
      rw [Option.isSome_map]
      exact h.lease
  | succeeded result hleased =>
      have hspent := h.spent
      rw [hleased] at hspent
      exact ⟨by simp [Scheduler.succeeded], by simp [Scheduler.succeeded], hspent⟩
  | retried nowMs hleased => exact h.retried hleased config nowMs jobId
  | cancelled => exact h.cancelled

theorem RecordStep.spec {config : SchedulerConfig} {jobId : String} {before after : JobRecord}
    (hstep : RecordStep config jobId before after) : after.spec = before.spec := by
  cases hstep with
  | released nowMs edges => exact spec_released nowMs edges before
  | leased owner token expiresAtMs _ => rfl
  | extended expiresAtMs _ => rfl
  | succeeded result _ => rfl
  | retried nowMs _ => exact spec_retried config nowMs jobId before
  | cancelled =>
      unfold Scheduler.cancelled
      split <;> rfl

theorem RecordSteps.budgeted {config : SchedulerConfig} {jobId : String}
    {before after : JobRecord} (hsteps : RecordSteps config jobId before after)
    (hvalid : before.spec.Valid) (h : before.Budgeted) :
    after.spec = before.spec ∧ after.Budgeted := by
  induction hsteps with
  | refl => exact ⟨rfl, h⟩
  | tail _ hstep ih =>
      obtain ⟨hspec, hbudgeted⟩ := ih
      exact ⟨hstep.spec.trans hspec, hstep.budgeted (hspec ▸ hvalid) hbudgeted⟩

end Scheduler

/-! ## The history of a job -/

/-- The event is a claim that returns the job. -/
def Event.Grants (dagId jobId : String) : Event → Bool
  | .claim _ _ _ (.ok (some claimed)) => claimed.dagId = dagId ∧ claimed.jobId = jobId
  | _ => false

/-- The number of claims that have returned the job. -/
def claimsOf (history : List Event) (dagId jobId : String) : ℕ :=
  history.countP (Event.Grants dagId jobId)

/-- The event ends the lease of the job by a failure report or by its expiry. -/
def Event.EndsLease (dagId jobId : String) (lease : Option Lease) : Event → Prop
  | .fail dagId' jobId' _ _ _ (.ok _) => dagId' = dagId ∧ jobId' = jobId
  | .reap nowMs _ => ∃ held, lease = some held ∧ held.expiresAtMs ≤ nowMs
  | .claim _ nowMs _ (.ok _) => ∃ held, lease = some held ∧ held.expiresAtMs ≤ nowMs
  | _ => False

/-- The history has a failure report or an expiry that ended the lease of the job
after as many claims as it is allowed. -/
def LastLeaseEnded (history : List Event) (dagId jobId : String) (maxAttempts : ℕ) : Prop :=
  ∃ event earlier, event :: earlier <:+ history ∧
    event.EndsLease dagId jobId (leaseOf earlier dagId jobId) ∧
    claimsOf earlier dagId jobId = maxAttempts

theorem claimsOf_cons (event : Event) (history : List Event) (dagId jobId : String) :
    claimsOf (event :: history) dagId jobId =
      claimsOf history dagId jobId + if event.Grants dagId jobId then 1 else 0 :=
  List.countP_cons ..

theorem lastLeaseEnded_cons {event : Event} {history : List Event} {dagId jobId : String}
    {maxAttempts : ℕ} : LastLeaseEnded (event :: history) dagId jobId maxAttempts ↔
      event.EndsLease dagId jobId (leaseOf history dagId jobId) ∧
          claimsOf history dagId jobId = maxAttempts ∨
        LastLeaseEnded history dagId jobId maxAttempts := by
  unfold LastLeaseEnded
  simp only [List.suffix_cons_iff, List.cons.injEq, or_and_right, exists_or]
  constructor
  · rintro (⟨_, _, ⟨rfl, rfl⟩, hends, hclaims⟩ | hearlier)
    · exact .inl ⟨hends, hclaims⟩
    · exact .inr hearlier
  · rintro (⟨hends, hclaims⟩ | hearlier)
    · exact .inl ⟨event, history, ⟨rfl, rfl⟩, hends, hclaims⟩
    · exact .inr hearlier

/-- A job that is not there is neither claimed nor does its lease end. -/
theorem Event.Justified.of_absent {scheduler : Scheduler} {event : Event}
    (h : event.Justified scheduler) {dagId jobId : String}
    (habsent : scheduler.job? dagId jobId = none) :
    event.Grants dagId jobId = false ∧
      ¬event.EndsLease dagId jobId (scheduler.lease? dagId jobId) := by
  have hlease : scheduler.lease? dagId jobId = none := by
    rw [Scheduler.lease?, habsent, Option.bind_none]
  constructor
  · unfold Event.Grants
    split
    next owner nowMs leaseMs claimed =>
      obtain ⟨_, _, _, taken, heligible, _⟩ := h
      rw [decide_eq_false_iff_not]
      intro hkey
      obtain ⟨rfl, rfl⟩ := hkey
      have htaken := heligible.1
      rw [job?_of_dags_eq_mapJobs (dags_reap scheduler nowMs), habsent] at htaken
      cases htaken
    next => rfl
  · rw [hlease]
    intro hends
    unfold Event.EndsLease at hends
    split at hends
    · obtain ⟨holder, hholder, _⟩ := h
      obtain ⟨rfl, rfl⟩ := hends
      rw [habsent] at hholder
      cases hholder
    · obtain ⟨_, hnone, _⟩ := hends
      cases hnone
    · obtain ⟨_, hnone, _⟩ := hends
      cases hnone
    · exact hends

/-! ## What an event does to the attempts -/

@[simp] theorem attempts_retried (config : SchedulerConfig) (nowMs : ℤ) (jobId : String)
    (job : JobRecord) : (retried config nowMs jobId job).attempts = job.attempts := by
  unfold retried
  split <;> rfl

@[simp] theorem attempts_reaped (config : SchedulerConfig) (nowMs : ℤ) (jobId : String)
    (job : JobRecord) : (reaped config nowMs jobId job).attempts = job.attempts := by
  unfold reaped
  split <;> simp

@[simp] theorem attempts_released (nowMs : ℤ) (edges : ℕ) (job : JobRecord) :
    (released nowMs edges job).attempts = job.attempts := by
  unfold released
  split
  · rfl
  · split <;> rfl

@[simp] theorem attempts_cancelled (job : JobRecord) : (cancelled job).attempts = job.attempts := by
  unfold cancelled
  split <;> rfl

@[simp] theorem attempts_completedRecord (nowMs : ℤ) (result jobId : String)
    (dependents : List String) (jobId' : String) (job : JobRecord) :
    (completedRecord nowMs result jobId dependents jobId' job).attempts = job.attempts := by
  unfold completedRecord
  rw [attempts_released]
  split <;> rfl

theorem attempts_atJob {f : JobRecord → JobRecord} {dagId jobId dagId' jobId' : String}
    {job : JobRecord} (hf : (f job).attempts = job.attempts) :
    (atJob dagId jobId f dagId' jobId' job).attempts = job.attempts := by
  unfold atJob
  split
  · exact hf
  · rfl

/-- Only a claim that returns the job spends an attempt. -/
theorem Event.attempts_recordAfter {before : Scheduler} {event : Event} {dagId jobId : String}
    {job : JobRecord} (hvalid : job.spec.Valid) (h : job.Budgeted) :
    (event.recordAfter before dagId jobId job).attempts =
      job.attempts + if event.Grants dagId jobId then 1 else 0 := by
  unfold Event.recordAfter
  split
  next owner nowMs leaseMs claimed =>
    by_cases hkey : dagId = claimed.dagId ∧ jobId = claimed.jobId
    · obtain ⟨rfl, rfl⟩ := hkey
      have hle := h.attempts_le
      have hmax := hvalid.attempts_le
      have hattempts : U16.saturatingAdd job.attempts 1 = job.attempts + 1 :=
        U16.saturatingAdd_eq (by omega)
      simp [leased, Event.Grants, hattempts]
    · have hnot : ¬(claimed.dagId = dagId ∧ claimed.jobId = jobId) := fun hsame =>
        hkey ⟨hsame.1.symm, hsame.2.symm⟩
      rw [atJob_of_ne hkey, attempts_reaped]
      simp [Event.Grants, hnot]
  next => exact attempts_reaped ..
  next => exact attempts_atJob rfl
  next =>
    split
    · exact attempts_completedRecord ..
    · rfl
  next => exact attempts_atJob (attempts_retried ..)
  next => exact attempts_reaped ..
  next =>
    split
    · exact attempts_cancelled job
    · rfl
  next hnot _ _ _ _ _ _ =>
    unfold Event.Grants
    split
    next owner nowMs leaseMs claimed _ _ _ _ _ _ =>
      exact absurd rfl (hnot owner nowMs leaseMs claimed)
    next => rfl

/-! ## How a job is buried -/

theorem state_retried_eq_deadLettered_iff {job : JobRecord} (h : job.Budgeted)
    (config : SchedulerConfig) (nowMs : ℤ) (jobId : String) :
    (retried config nowMs jobId job).state = .deadLettered ↔
      job.attempts = job.spec.maxAttempts := by
  have hle := h.attempts_le
  unfold retried
  split
  next hbudget =>
    simp only [true_iff]
    omega
  next hbudget =>
    simp only [reduceCtorEq, false_iff]
    omega

theorem leaseExpired_iff {job : JobRecord} (h : job.Budgeted) {nowMs : ℤ} :
    job.leaseExpired nowMs = true ↔ ∃ held, job.lease = some held ∧ held.expiresAtMs ≤ nowMs := by
  have hlease := h.lease
  unfold JobRecord.leaseExpired
  cases hcase : job.lease with
  | none => simp
  | some held =>
      rw [hcase, Option.isSome_some] at hlease
      simp [hlease.mp rfl]

theorem state_reaped_eq_deadLettered_iff {job : JobRecord} (h : job.Budgeted)
    (config : SchedulerConfig) (nowMs : ℤ) (jobId : String) :
    (reaped config nowMs jobId job).state = .deadLettered ↔ job.state = .deadLettered ∨
      (∃ held, job.lease = some held ∧ held.expiresAtMs ≤ nowMs) ∧
        job.attempts = job.spec.maxAttempts := by
  rw [← leaseExpired_iff h]
  unfold reaped
  split
  next hexpired =>
    rw [state_retried_eq_deadLettered_iff h]
    simp [hexpired, state_of_leaseExpired hexpired]
  next hexpired => simp [hexpired]

theorem state_atJob {f : JobRecord → JobRecord} {dagId jobId dagId' jobId' : String}
    {job : JobRecord} (hf : (f job).state = job.state) :
    (atJob dagId jobId f dagId' jobId' job).state = job.state := by
  unfold atJob
  split
  · exact hf
  · rfl

/-- A call buries a job exactly by ending the lease of its last attempt. -/
theorem Event.state_recordAfter_eq_deadLettered_iff {before : Scheduler} {event : Event}
    (hjustified : event.Justified before) {dagId jobId : String} {job : JobRecord}
    (hjob : before.job? dagId jobId = some job) (h : job.Budgeted) :
    (event.recordAfter before dagId jobId job).state = .deadLettered ↔
      job.state = .deadLettered ∨ event.EndsLease dagId jobId job.lease ∧
        job.attempts = job.spec.maxAttempts := by
  have hreaped := fun nowMs =>
    state_reaped_eq_deadLettered_iff h before.config nowMs jobId
  unfold Event.recordAfter
  split
  next owner nowMs leaseMs claimed =>
    show _ ↔ job.state = .deadLettered ∨
      (∃ held, job.lease = some held ∧ held.expiresAtMs ≤ nowMs) ∧ _
    rw [← hreaped]
    obtain ⟨_, _, _, taken, ⟨htaken, hready, _⟩, _⟩ := hjustified
    by_cases hkey : dagId = claimed.dagId ∧ jobId = claimed.jobId
    · obtain ⟨rfl, rfl⟩ := hkey
      rw [job?_reap nowMs hjob, Option.some.injEq] at htaken
      rw [htaken, atJob_self]
      -- the granted job was ready after the reap, and is leased now
      have hnot : taken.state ≠ .deadLettered := fun hdead => by
        simp [JobRecord.isReady, hdead] at hready
      simp [leased, hnot]
    · rw [atJob_of_ne hkey]
  next => exact hreaped _
  next =>
    rw [state_atJob rfl]
    simp [Event.EndsLease]
  next dagId' jobId' owner token output nowMs =>
    obtain ⟨holder, hholder, hholds⟩ := hjustified
    simp only [Event.EndsLease, false_and, or_false]
    split
    next hdag =>
      subst hdag
      by_cases hsame : jobId = jobId'
      · subst hsame
        rw [hjob] at hholder
        cases hholder
        simp [state_of_holdsLease hholds]
      · rw [state_completedRecord_of_ne _ _ _ _ hsame]
        split
        next hpending => simp [hpending.2.2]
        next => rfl
    next => rfl
  next dagId' jobId' owner token nowMs state =>
    obtain ⟨holder, hholder, hholds, _⟩ := hjustified
    by_cases hkey : dagId = dagId' ∧ jobId = jobId'
    · obtain ⟨rfl, rfl⟩ := hkey
      rw [hjob] at hholder
      cases hholder
      rw [atJob_self, state_retried_eq_deadLettered_iff h]
      simp [Event.EndsLease, state_of_holdsLease hholds]
    · have hnot : ¬(dagId' = dagId ∧ jobId' = jobId) := fun hsame =>
        hkey ⟨hsame.1.symm, hsame.2.symm⟩
      rw [atJob_of_ne hkey]
      simp [Event.EndsLease, hnot]
  next => exact hreaped _
  next =>
    simp only [Event.EndsLease, false_and, or_false]
    split
    next =>
      unfold cancelled
      split
      next => rfl
      next hlive =>
        simp only [JobRecord.isTerminal, Bool.decide_or, Bool.or_eq_true, decide_eq_true_eq,
          not_or] at hlive
        simp [hlive.2.1]
    next => rfl
  next hgranted hempty _ _ hfail hreap _ =>
    -- the remaining events end no lease
    have hnot : ¬event.EndsLease dagId jobId job.lease := by
      intro hends
      unfold Event.EndsLease at hends
      split at hends
      next => exact hfail _ _ _ _ _ _ rfl
      next => exact hreap _ _ rfl
      next result _ _ _ =>
        cases result with
        | none => exact hempty _ _ _ rfl
        | some claimed => exact hgranted _ _ _ _ rfl
      next => exact hends
    simp [hnot]

/-! ## Runs -/

theorem budgeted_initialRecord (spec : DagSpec) (nowMs : ℤ) (job : JobSpec) :
    (spec.initialRecord nowMs job).Budgeted := by
  unfold DagSpec.initialRecord
  by_cases hzero : spec.inDegree job.id = 0
  · refine ⟨by simp [hzero], by simp [hzero], ?_⟩
    simp only [hzero, if_true]
    rfl
  · refine ⟨by simp [hzero], by simp [hzero], ?_⟩
    simp only [hzero, if_false]
    rfl

/-- What the records of a state owe to the history that has led there. -/
structure Scheduler.Accounts (history : List Event) (scheduler : Scheduler) : Prop where
  absent : ∀ dagId jobId, scheduler.job? dagId jobId = none →
    claimsOf history dagId jobId = 0 ∧ ∀ n, ¬LastLeaseEnded history dagId jobId n
  present : ∀ dagId jobId job, scheduler.job? dagId jobId = some job →
    job.Budgeted ∧ job.attempts = claimsOf history dagId jobId ∧
      (job.state = .deadLettered ↔ LastLeaseEnded history dagId jobId job.spec.maxAttempts)

theorem Scheduler.Accounts.new (config : SchedulerConfig) :
    (Scheduler.new config).Accounts [] := by
  refine ⟨fun _ _ _ => ⟨rfl, fun n hended => ?_⟩, fun _ _ _ hjob => nomatch hjob⟩
  obtain ⟨_, _, hsuffix, _⟩ := hended
  simp at hsuffix

/-- Every operation keeps the accounts. -/
theorem Scheduler.Accounts.perform {config : SchedulerConfig} {history : List Event}
    {scheduler : Scheduler} (h : scheduler.Accounts history)
    (hrun : Run config history scheduler) (operation : Operation) :
    (operation.perform scheduler).2.Accounts ((operation.perform scheduler).1 :: history) := by
  have hinvariant := run_invariant hrun
  have hjustified := perform_justified hinvariant operation
  -- a job that was not there has no part in the event
  have hnew : ∀ dagId jobId, scheduler.job? dagId jobId = none →
      claimsOf ((operation.perform scheduler).1 :: history) dagId jobId = 0 ∧
        ∀ n, ¬LastLeaseEnded ((operation.perform scheduler).1 :: history) dagId jobId n := by
    intro dagId jobId hnone
    obtain ⟨hgrants, hends⟩ := hjustified.of_absent hnone
    obtain ⟨hclaims, hended⟩ := h.absent dagId jobId hnone
    rw [run_leases hrun] at hends
    refine ⟨by rw [claimsOf_cons, hclaims, hgrants]; rfl, fun n => ?_⟩
    rw [lastLeaseEnded_cons]
    intro hcase
    exact hcase.elim (fun hnow => hends hnow.1) (hended n)
  refine ⟨fun dagId jobId hnone => hnew dagId jobId ?_, fun dagId jobId after hafter => ?_⟩
  · cases hbefore : scheduler.job? dagId jobId with
    | none => rfl
    | some before =>
        rw [perform_record hinvariant operation hbefore] at hnone
        cases hnone
  · rcases perform_origin hinvariant operation hafter with
      ⟨before, hbefore, hafter⟩ | ⟨hnone, spec, nowMs, hevent, hinitial⟩
    · obtain ⟨hbudgeted, hattempts, hdead⟩ := h.present dagId jobId before hbefore
      have hvalid := (hinvariant.valid_spec hbefore).1
      obtain ⟨hspec, hkept⟩ :=
        (recordSteps_recordAfter hjustified hbefore).budgeted hvalid hbudgeted
      have hlease : before.lease = leaseOf history dagId jobId := by
        rw [← run_leases hrun, Scheduler.lease?, hbefore, Option.bind_some]
      subst hafter
      refine ⟨hkept, ?_, ?_⟩
      · rw [Event.attempts_recordAfter hvalid hbudgeted, claimsOf_cons, hattempts]
      · rw [Event.state_recordAfter_eq_deadLettered_iff hjustified hbefore hbudgeted, hspec,
          lastLeaseEnded_cons, hlease, hattempts, hdead]
        exact or_comm
    · -- the job was submitted by this operation
      obtain ⟨hclaims, hended⟩ := hnew dagId jobId hnone
      rw [hinitial]
      refine ⟨budgeted_initialRecord spec nowMs after.spec, hclaims.symm, ?_⟩
      refine iff_of_false ?_ (hended _)
      unfold DagSpec.initialRecord
      by_cases hzero : spec.inDegree after.spec.id = 0 <;> simp [hzero]

theorem run_accounts {config : SchedulerConfig} {history : List Event} {scheduler : Scheduler}
    (hrun : Run config history scheduler) : scheduler.Accounts history := by
  induction hrun with
  | new => exact Scheduler.Accounts.new config
  | step operation hrun ih => exact ih.perform hrun operation

/-- In every reachable state the attempts of a job are the claims that returned
it, no more than its budget allows; lease, result and attempts are as its state
requires; and it is buried exactly when the lease of its last allowed claim has
ended by a failure report or by expiry. -/
theorem attempt_budget {config : SchedulerConfig} {history : List Event} {scheduler : Scheduler}
    (hrun : Run config history scheduler) {dagId jobId : String} {job : JobRecord}
    (hjob : scheduler.job? dagId jobId = some job) :
    job.attempts = claimsOf history dagId jobId ∧
    claimsOf history dagId jobId ≤ job.spec.maxAttempts ∧
    (job.lease.isSome = true ↔ job.state = .leased) ∧
    (job.result.isSome = true ↔ job.state = .succeeded) ∧
    job.state.Spent job.attempts job.spec.maxAttempts ∧
    (job.state = .deadLettered ↔
      LastLeaseEnded history dagId jobId job.spec.maxAttempts) := by
  obtain ⟨hbudgeted, hattempts, hdead⟩ := (run_accounts hrun).present dagId jobId job hjob
  exact ⟨hattempts, hattempts ▸ hbudgeted.attempts_le, hbudgeted.lease, hbudgeted.result,
    hbudgeted.spent, hdead⟩

/-- A job that may be claimed once, whose lease expires. -/
def buriedRun : List Event × Scheduler :=
  let submitted := (Operation.submit ⟨"d", [⟨"j", .uppercase, "", 1, 0⟩], []⟩ 0).perform
    (Scheduler.new .default)
  let claimed := (Operation.claim "worker" 0 1000).perform submitted.2
  let reaped := (Operation.reap 1000).perform claimed.2
  ([reaped.1, claimed.1, submitted.1], reaped.2)

theorem run_buriedRun : Run .default buriedRun.1 buriedRun.2 :=
  Run.step (.reap 1000) (Run.step (.claim "worker" 0 1000)
    (Run.step (.submit ⟨"d", [⟨"j", .uppercase, "", 1, 0⟩], []⟩ 0) Run.new))

/-- Its one lease has ended, and with it the budget. -/
theorem attempt_budget_buried :
    claimsOf buriedRun.1 "d" "j" = 1 ∧ LastLeaseEnded buriedRun.1 "d" "j" 1 := by
  have hjob : buriedRun.2.job? "d" "j" =
      some ⟨⟨"j", .uppercase, "", 1, 0⟩, .deadLettered, 1, 0, 0, none, none⟩ := by decide
  obtain ⟨hattempts, _, _, _, _, hdead⟩ := attempt_budget run_buriedRun hjob
  exact ⟨hattempts.symm, hdead.mp rfl⟩

end JobOrchestrator
