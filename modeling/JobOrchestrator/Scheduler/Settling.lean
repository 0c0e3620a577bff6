import JobOrchestrator.Library.Machine
import JobOrchestrator.Scheduler.Dependencies
import JobOrchestrator.Scheduler.Budget

/-!
# How much work is left

The scheduler as a machine of the library, and two potentials of its states.  The
attempts that are left pay for the claims, exactly (`claims_spend_attempts`).
Twice the attempts that are left and once the leases pay for the valid claims that
come when everything is due: such a claim grants a lease, or takes one back, unless
no work is left at all.  Whatever the workers do, with failures, crashes and late
reports, so many claims settle every graph (`settles_despite_failures`).
-/

namespace JobOrchestrator

open Digraph

namespace Scheduler

/-- The state after an operation. -/
def next (scheduler : Scheduler) (operation : Operation) : Scheduler :=
  (operation.perform scheduler).2

/-- The sum of a weight over all jobs. -/
def total (scheduler : Scheduler) (weight : String → String → JobRecord → ℕ) : ℕ :=
  scheduler.dags.total fun dagId dag => dag.jobs.total (weight dagId)

/-! ## Sums over all jobs -/

theorem total_of_dags_eq_mapJobs {before after : Scheduler}
    {f : String → String → JobRecord → JobRecord} (h : after.dags = mapJobs f before.dags)
    (weight : String → String → JobRecord → ℕ) :
    after.total weight =
      before.total fun dagId jobId job => weight dagId jobId (f dagId jobId job) := by
  simp only [total, h, mapJobs, Table.total_mapValues, DagRecord.jobs_rewrite]

theorem total_le_total {scheduler : Scheduler} {first second : String → String → JobRecord → ℕ}
    (h : ∀ dagId jobId job, scheduler.job? dagId jobId = some job →
      first dagId jobId job ≤ second dagId jobId job) :
    scheduler.total first ≤ scheduler.total second :=
  Table.total_le_total fun dagId dag hdag => Table.total_le_total fun jobId job hjob =>
    h dagId jobId job (job?_eq_some_iff.mpr ⟨dag, hdag, hjob⟩)

theorem total_congr {scheduler : Scheduler} {first second : String → String → JobRecord → ℕ}
    (h : ∀ dagId jobId job, scheduler.job? dagId jobId = some job →
      first dagId jobId job = second dagId jobId job) :
    scheduler.total first = scheduler.total second :=
  le_antisymm (total_le_total fun dagId jobId job hjob => (h dagId jobId job hjob).le)
    (total_le_total fun dagId jobId job hjob => (h dagId jobId job hjob).ge)

theorem total_add (scheduler : Scheduler) (first second : String → String → JobRecord → ℕ) :
    (scheduler.total fun dagId jobId job => first dagId jobId job + second dagId jobId job) =
      scheduler.total first + scheduler.total second := by
  simp only [total, Table.total_add]

/-- One for a single job, zero for the others. -/
def onlyAt (dagId jobId : String) (dagId' jobId' : String) (_ : JobRecord) : ℕ :=
  if dagId' = dagId ∧ jobId' = jobId then 1 else 0

theorem total_onlyAt {scheduler : Scheduler} {dagId jobId : String} {job : JobRecord}
    (hjob : scheduler.job? dagId jobId = some job) : scheduler.total (onlyAt dagId jobId) = 1 := by
  obtain ⟨dag, hdag, hlookup⟩ := job?_eq_some_iff.mp hjob
  have hother : ∀ dagId' (other : DagRecord), dagId' ≠ dagId →
      other.jobs.total (onlyAt dagId jobId dagId') = 0 := by
    intro dagId' other hne
    refine List.sum_eq_zero fun count hcount => ?_
    obtain ⟨entry, -, rfl⟩ := List.mem_map.mp hcount
    exact if_neg fun hsame => hne hsame.1
  calc scheduler.total (onlyAt dagId jobId)
      = dag.jobs.total (onlyAt dagId jobId dagId) := Table.total_eq_of_key hdag hother
    _ = onlyAt dagId jobId dagId jobId job :=
        Table.total_eq_of_key hlookup fun jobId' _ hne => if_neg fun hsame => hne hsame.2
    _ = 1 := if_pos ⟨rfl, rfl⟩

/-- An operation admits a graph, or it is no accepted submission and rewrites the
records as its event says. -/
theorem admitted_or_rewritten {specs : String → Option DagSpec} {scheduler : Scheduler}
    (h : scheduler.Invariant specs) (operation : Operation) :
    (∃ spec nowMs dag, (operation.perform scheduler).1 = .submit spec nowMs (.ok ()) ∧
      Admitted spec nowMs scheduler (scheduler.next operation) dag) ∨
    (∀ spec nowMs, (operation.perform scheduler).1 ≠ .submit spec nowMs (.ok ())) ∧
      (scheduler.next operation).dags = mapJobs (fun dagId jobId job =>
        (operation.perform scheduler).1.recordAfter scheduler dagId jobId job) scheduler.dags := by
  rcases perform_dags h operation with ⟨spec, nowMs, dag, hevent, -, hadmitted⟩ | hdags
  · exact .inl ⟨spec, nowMs, dag, hevent, hadmitted⟩
  · by_cases haccepted : ∃ spec nowMs,
        (operation.perform scheduler).1 = .submit spec nowMs (.ok ())
    · obtain ⟨spec, nowMs, hevent⟩ := haccepted
      cases operation with
      | submit spec' nowMs' =>
          have hok : (scheduler.submit spec' nowMs').1 = .ok () := by
            simp only [Operation.perform, Event.submit.injEq] at hevent
            exact hevent.2.2
          rcases submit_cases scheduler spec' nowMs' with
            ⟨order, dag, -, -, hadmitted⟩ | ⟨error, herror⟩
          · exact .inl ⟨spec', nowMs', dag, by rw [Operation.perform, hok], hadmitted⟩
          · rw [herror] at hok
            cases hok
      | _ => cases hevent
    · exact .inr ⟨fun spec nowMs hevent => haccepted ⟨spec, nowMs, hevent⟩, hdags⟩

theorem Admitted.total_eq {spec : DagSpec} {nowMs : ℤ} {before after : Scheduler}
    {dag : DagRecord} (h : Admitted spec nowMs before after dag)
    (weight : String → String → JobRecord → ℕ) :
    after.total weight = before.total weight + dag.jobs.total (weight spec.id) := by
  unfold total
  rw [h.dags, Table.total_insert_of_get?_eq_none dag h.fresh]

theorem Admitted.total_specs {spec : DagSpec} {nowMs : ℤ} {before after : Scheduler}
    {dag : DagRecord} (h : Admitted spec nowMs before after dag) (weight : JobSpec → ℕ) :
    (dag.jobs.total fun _ job => weight job.spec) = (spec.jobs.map weight).sum := by
  have hids : (dag.jobs.entries.map fun entry => entry.2.spec).map JobSpec.id = spec.jobIds := by
    rw [← h.built.keys, Table.keys, List.map_map]
    exact List.map_congr_left fun entry hentry =>
      (h.built.record entry.1 entry.2 (Table.mem_entries.mp hentry)).2
  have hnodup := h.built.jobIds_nodup
  have hperm : (dag.jobs.entries.map fun entry => entry.2.spec).Perm spec.jobs := by
    rw [List.perm_ext_iff_of_nodup (List.Nodup.of_map _ (hids ▸ hnodup))
      (List.Nodup.of_map _ hnodup)]
    intro job
    constructor
    · intro hjob
      obtain ⟨entry, hentry, rfl⟩ := List.mem_map.mp hjob
      exact (h.built.record entry.1 entry.2 (Table.mem_entries.mp hentry)).1
    · intro hjob
      obtain ⟨record, hrecord, rfl⟩ := h.built.exists_record hjob
      exact List.mem_map.mpr ⟨_, Table.mem_entries.mpr hrecord, rfl⟩
  rw [← (hperm.map weight).sum_eq, List.map_map]
  rfl

/-! ## Claims spend attempts -/

/-- The attempts that the budgets of all jobs still allow. -/
def attemptsLeft (scheduler : Scheduler) : ℕ :=
  scheduler.total fun _ _ job => job.spec.maxAttempts - job.attempts

/-- One for a claim that returns a job. -/
def grantsAt (scheduler : Scheduler) (operation : Operation) : ℕ :=
  match (operation.perform scheduler).1 with
  | .claim _ _ _ (.ok (some _)) => 1
  | _ => 0

/-- The attempts that an accepted submission adds. -/
def attemptsAdmittedAt (scheduler : Scheduler) (operation : Operation) : ℕ :=
  match (operation.perform scheduler).1 with
  | .submit spec _ (.ok ()) => (spec.jobs.map JobSpec.maxAttempts).sum
  | _ => 0

theorem recordAfter_budgeted {config : SchedulerConfig} {history : List Event}
    {scheduler : Scheduler} (hrun : Run config history scheduler) (operation : Operation)
    {dagId jobId : String} {job : JobRecord} (hjob : scheduler.job? dagId jobId = some job) :
    ((operation.perform scheduler).1.recordAfter scheduler dagId jobId job).spec = job.spec ∧
      ((operation.perform scheduler).1.recordAfter scheduler dagId jobId job).Budgeted := by
  have h := run_invariant hrun
  have hsteps := recordSteps_recordAfter (perform_justified h operation) hjob
  exact hsteps.budgeted (h.valid_spec hjob).1 ((run_accounts hrun).present dagId jobId job hjob).1

theorem exists_job_of_grants {scheduler : Scheduler} {event : Event}
    (h : event.Justified scheduler) {dagId jobId : String}
    (hgrants : event.Grants dagId jobId = true) :
    ∃ job, scheduler.job? dagId jobId = some job := by
  cases hjob : scheduler.job? dagId jobId with
  | some job => exact ⟨job, rfl⟩
  | none =>
      rw [(h.of_absent hjob).1] at hgrants
      cases hgrants

theorem total_grants {scheduler : Scheduler} (operation : Operation)
    (h : (operation.perform scheduler).1.Justified scheduler) :
    (scheduler.total fun dagId jobId _ =>
        if (operation.perform scheduler).1.Grants dagId jobId then 1 else 0) =
      scheduler.grantsAt operation := by
  unfold grantsAt
  split
  next owner nowMs leaseMs claimed hevent =>
    rw [hevent] at h ⊢
    obtain ⟨job, hjob⟩ : ∃ job, scheduler.job? claimed.dagId claimed.jobId = some job :=
      exists_job_of_grants h (by simp [Event.Grants])
    refine Eq.trans (total_congr fun dagId jobId _ _ => ?_) (total_onlyAt hjob)
    simp only [Event.Grants, decide_eq_true_eq, onlyAt]
    exact if_congr ⟨fun hsame => ⟨hsame.1.symm, hsame.2.symm⟩,
      fun hsame => ⟨hsame.1.symm, hsame.2.symm⟩⟩ rfl rfl
  next hother =>
    have hnone : ∀ dagId jobId, (operation.perform scheduler).1.Grants dagId jobId = false := by
      intro dagId jobId
      unfold Event.Grants
      split
      next owner nowMs leaseMs claimed hevent => exact absurd hevent (hother owner nowMs leaseMs _)
      next => rfl
    simp [hnone, total, Table.total]

/-- One operation takes as many attempts as it grants, and adds those that it admits. -/
theorem attemptsLeft_next {config : SchedulerConfig} {history : List Event}
    {scheduler : Scheduler} (hrun : Run config history scheduler) (operation : Operation) :
    scheduler.grantsAt operation + (scheduler.next operation).attemptsLeft =
      scheduler.attemptsLeft + scheduler.attemptsAdmittedAt operation := by
  have h := run_invariant hrun
  have hjustified := perform_justified h operation
  rcases admitted_or_rewritten h operation with
    ⟨spec, nowMs, dag, hevent, hadmitted⟩ | ⟨hrefused, hdags⟩
  · have hfresh : (dag.jobs.total fun _ job => job.spec.maxAttempts - job.attempts) =
        (spec.jobs.map JobSpec.maxAttempts).sum := by
      rw [← hadmitted.total_specs]
      refine le_antisymm (Table.total_le_total fun jobId job hjob => ?_)
        (Table.total_le_total fun jobId job hjob => ?_) <;>
      · rw [hadmitted.records jobId job hjob]
        simp [DagSpec.initialRecord]
    rw [attemptsLeft, hadmitted.total_eq, hfresh]
    simp only [grantsAt, attemptsAdmittedAt, hevent, attemptsLeft]
    omega
  · have hnone : scheduler.attemptsAdmittedAt operation = 0 := by
      unfold attemptsAdmittedAt
      split
      next spec nowMs hevent => exact absurd hevent (hrefused spec nowMs)
      next => rfl
    rw [hnone, ← total_grants operation hjustified, attemptsLeft,
      total_of_dags_eq_mapJobs hdags, ← total_add, attemptsLeft, Nat.add_zero]
    refine total_congr fun dagId jobId job hjob => ?_
    obtain ⟨hspec, hbudgeted⟩ := recordAfter_budgeted hrun operation hjob
    have hattempts : ((operation.perform scheduler).1.recordAfter scheduler dagId jobId
        job).attempts = job.attempts +
          if (operation.perform scheduler).1.Grants dagId jobId then 1 else 0 :=
      Event.attempts_recordAfter (h.valid_spec hjob).1
        ((run_accounts hrun).present dagId jobId job hjob).1
    have hle := hbudgeted.attempts_le
    rw [hspec, hattempts] at hle ⊢
    omega

/-- The state has been reached from a fresh scheduler. -/
def Reached (config : SchedulerConfig) (scheduler : Scheduler) : Prop :=
  ∃ history, Run config history scheduler

theorem Reached.next {config : SchedulerConfig} {scheduler : Scheduler}
    (h : Reached config scheduler) (operation : Operation) :
    Reached config (scheduler.next operation) := by
  obtain ⟨history, hrun⟩ := h
  exact ⟨_, hrun.step operation⟩

/-- Claims are paid with attempts, exactly: in every continuation of every run, the
claims that return a job and the attempts that are left at its end make up the
attempts that were left at its beginning and those that it has admitted. -/
theorem claims_spend_attempts {config : SchedulerConfig} {history : List Event}
    {scheduler : Scheduler} (hrun : Run config history scheduler) (operations : List Operation) :
    Machine.tally next grantsAt scheduler operations +
        (Machine.after next scheduler operations).attemptsLeft =
      scheduler.attemptsLeft + Machine.tally next attemptsAdmittedAt scheduler operations := by
  have hkept : ∀ state operation, Reached config state → True →
      Reached config (state.next operation) := fun state operation hreached _ =>
    hreached.next operation
  have hpaid : ∀ state operation, Reached config state → True →
      grantsAt state operation + (state.next operation).attemptsLeft =
        state.attemptsLeft + attemptsAdmittedAt state operation := by
    rintro state operation ⟨earlier, hearlier⟩ -
    exact attemptsLeft_next hearlier operation
  have hstart : Reached config scheduler := ⟨history, hrun⟩
  exact Machine.tally_add_eq hkept hpaid hstart (Machine.along_of_forall fun _ _ => trivial)

/-- Two workers take the top of the diamond and nothing else: one of its four
attempts is spent. -/
theorem claims_spend_attempts_diamond :
    Machine.tally next grantsAt diamondScheduler
        [.claim "first" 10 1000, .claim "second" 10 1000] +
      (Machine.after next diamondScheduler
        [.claim "first" 10 1000, .claim "second" 10 1000]).attemptsLeft = 4 + 0 := by
  have hleft : diamondScheduler.attemptsLeft = 4 := by decide
  have hnone : Machine.tally next attemptsAdmittedAt diamondScheduler
      [.claim "first" 10 1000, .claim "second" 10 1000] = 0 := by decide
  rw [claims_spend_attempts run_diamondScheduler, hleft, hnone]

/-! ## Settled states -/

/-- Nothing is ready, waits for a retry or is leased. -/
def Settled (scheduler : Scheduler) : Prop :=
  ∀ dagId jobId job, scheduler.job? dagId jobId = some job →
    job.isReady = false ∧ job.state ≠ .leased

/-- What a job can still take part in: two steps for an attempt, one for the end of a lease. -/
def stepsOf (job : JobRecord) : ℕ :=
  2 * (job.spec.maxAttempts - job.attempts) + if job.state = .leased then 1 else 0

/-- The steps that are left for all jobs. -/
def stepsLeft (scheduler : Scheduler) : ℕ := scheduler.total fun _ _ job => stepsOf job

end Scheduler

/-- A job that waits or is leased is due at a time. -/
def JobRecord.isDue (nowMs : ℤ) (job : JobRecord) : Bool :=
  (!job.isReady || decide (job.availableAtMs ≤ nowMs)) &&
    job.lease.all fun lease => decide (lease.expiresAtMs ≤ nowMs)

namespace Scheduler

/-- Every job is due: it is available and its lease, if it has one, has run out. -/
def allDue (scheduler : Scheduler) (nowMs : ℤ) : Bool :=
  scheduler.dags.entries.all fun entry =>
    entry.2.jobs.entries.all fun job => job.2.isDue nowMs

/-- One for a valid claim at a time when every job is due. -/
def lateClaimAt (scheduler : Scheduler) : Operation → ℕ
  | .claim owner nowMs leaseMs =>
      if validLease scheduler.config owner leaseMs && scheduler.allDue nowMs then 1 else 0
  | _ => 0

theorem isDue_of_allDue {scheduler : Scheduler} {nowMs : ℤ} (h : scheduler.allDue nowMs = true)
    {dagId jobId : String} {job : JobRecord} (hjob : scheduler.job? dagId jobId = some job) :
    job.isDue nowMs = true := by
  obtain ⟨dag, hdag, hlookup⟩ := job?_eq_some_iff.mp hjob
  have hentry := List.all_eq_true.mp h _ (Table.mem_entries.mpr hdag)
  exact List.all_eq_true.mp hentry _ (Table.mem_entries.mpr hlookup)

/-! ### One record -/

/-- A granted lease takes an attempt, and its end is one step. -/
theorem stepsOf_leased_lt {job : JobRecord} (h : job.Budgeted) (hvalid : job.spec.Valid)
    (hready : job.isReady = true) (owner token : String) (expiresAtMs : ℤ) :
    stepsOf (leased owner token expiresAtMs job) < stepsOf job := by
  have hlt := h.lt_of_isReady hvalid hready
  have hle := hvalid.attempts_le
  have hattempts : U16.saturatingAdd job.attempts 1 = job.attempts + 1 :=
    U16.saturatingAdd_eq (by omega)
  simp only [stepsOf, leased, hattempts, if_true]
  omega

/-- The end of a lease is a step, whether or not the job is tried again. -/
theorem stepsOf_retried_lt {job : JobRecord} (hleased : job.state = .leased)
    (config : SchedulerConfig) (nowMs : ℤ) (jobId : String) :
    stepsOf (retried config nowMs jobId job) < stepsOf job := by
  have hstate : (retried config nowMs jobId job).state ≠ .leased := by
    unfold retried
    split <;> simp
  simp only [stepsOf, spec_retried, attempts_retried, if_neg hstate, if_pos hleased]
  omega

/-- A change that spends no attempt and grants no lease adds no step. -/
theorem stepsOf_le_of_eq {before after : JobRecord} (hspec : after.spec = before.spec)
    (hattempts : after.attempts = before.attempts)
    (hstate : after.state = .leased → before.state = .leased) :
    stepsOf after ≤ stepsOf before := by
  unfold stepsOf
  rw [hspec, hattempts]
  by_cases hleased : after.state = .leased
  · rw [if_pos hleased, if_pos (hstate hleased)]
  · rw [if_neg hleased]
    omega

theorem stepsOf_le_of_recordStep {config : SchedulerConfig} {jobId : String}
    {before after : JobRecord} (hstep : RecordStep config jobId before after)
    (hvalid : before.spec.Valid) (h : before.Budgeted) : stepsOf after ≤ stepsOf before := by
  have hspec := hstep.spec
  cases hstep with
  | released nowMs edges =>
      refine stepsOf_le_of_eq hspec (attempts_released nowMs edges before) fun hleased => ?_
      unfold released at hleased
      split at hleased
      · exact hleased
      · split at hleased
        · cases hleased
        · exact hleased
  | leased owner token expiresAtMs hready =>
      exact (stepsOf_leased_lt h hvalid hready owner token expiresAtMs).le
  | extended expiresAtMs hleased => exact stepsOf_le_of_eq hspec rfl fun _ => hleased
  | succeeded result hleased => exact stepsOf_le_of_eq hspec rfl fun _ => hleased
  | retried nowMs hleased => exact (stepsOf_retried_lt hleased config nowMs jobId).le
  | cancelled =>
      refine stepsOf_le_of_eq hspec (attempts_cancelled before) fun hleased => ?_
      unfold cancelled at hleased
      split at hleased
      · exact hleased
      · cases hleased

theorem stepsOf_le_of_recordSteps {config : SchedulerConfig} {jobId : String}
    {before after : JobRecord} (hsteps : RecordSteps config jobId before after)
    (hvalid : before.spec.Valid) (h : before.Budgeted) : stepsOf after ≤ stepsOf before := by
  induction hsteps with
  | refl => exact le_rfl
  | tail hearlier hstep ih =>
      obtain ⟨hspec, hbudgeted⟩ := RecordSteps.budgeted hearlier hvalid h
      exact (stepsOf_le_of_recordStep hstep (hspec ▸ hvalid) hbudgeted).trans ih

theorem leaseExpired_of_isDue {job : JobRecord} (h : job.Budgeted) {nowMs : ℤ}
    (hdue : job.isDue nowMs = true) (hleased : job.state = .leased) :
    job.leaseExpired nowMs = true := by
  obtain ⟨lease, hlease⟩ := Option.isSome_iff_exists.mp (h.lease.mpr hleased)
  simp only [JobRecord.isDue, hlease, Option.all_some, Bool.and_eq_true,
    decide_eq_true_eq] at hdue
  exact (leaseExpired_iff h).mpr ⟨lease, hlease, hdue.2⟩

/-! ### One operation -/

section

variable {config : SchedulerConfig} {history : List Event} {scheduler : Scheduler}

theorem stepsOf_recordAfter_le (hrun : Run config history scheduler) (operation : Operation)
    {dagId jobId : String} {job : JobRecord} (hjob : scheduler.job? dagId jobId = some job) :
    stepsOf ((operation.perform scheduler).1.recordAfter scheduler dagId jobId job) ≤
      stepsOf job := by
  have h := run_invariant hrun
  exact stepsOf_le_of_recordSteps (recordSteps_recordAfter (perform_justified h operation) hjob)
    (h.valid_spec hjob).1 ((run_accounts hrun).present dagId jobId job hjob).1

/-- A late claim takes a step of some job, unless the state is settled. -/
theorem exists_step_of_lateClaim (hrun : Run config history scheduler) {owner : String}
    {nowMs leaseMs : ℤ} (hvalid : validLease scheduler.config owner leaseMs = true)
    (hdue : scheduler.allDue nowMs = true) (hunsettled : ¬scheduler.Settled) :
    ∃ dagId jobId job, scheduler.job? dagId jobId = some job ∧
      stepsOf (((Operation.claim owner nowMs leaseMs).perform scheduler).1.recordAfter scheduler
        dagId jobId job) < stepsOf job := by
  have h := run_invariant hrun
  have hbudgeted : ∀ {dagId jobId job}, scheduler.job? dagId jobId = some job → job.Budgeted :=
    fun hjob => ((run_accounts hrun).present _ _ _ hjob).1
  rcases claim_cases h.heap h.ownIds owner nowMs leaseMs with
    ⟨hinvalid, -⟩ | ⟨-, ready, ⟨hnone, hclaim, -⟩ | ⟨key, taken, hselects, hclaim, -⟩⟩
  · rw [hvalid] at hinvalid
    cases hinvalid
  · -- nothing was eligible after the reap, so that something was leased
    simp only [Settled, not_forall] at hunsettled
    obtain ⟨dagId, jobId, job, hjob, hopen⟩ := hunsettled
    have hjobDue := isDue_of_allDue hdue hjob
    have hleased : job.state = .leased := by
      by_contra hnot
      have hready : job.isReady = true := by
        by_contra hnotReady
        exact hopen ⟨by simpa using hnotReady, hnot⟩
      have hkept : reaped scheduler.config nowMs jobId job = job := by
        refine if_neg fun hexpired => hnot ?_
        exact state_of_leaseExpired hexpired
      refine hnone dagId jobId job ⟨?_, hready, ?_⟩
      · rw [job?_reap nowMs hjob, hkept]
      · simp only [JobRecord.isDue, hready, Bool.not_true, Bool.false_or, Bool.and_eq_true,
          decide_eq_true_eq] at hjobDue
        exact hjobDue.1
    refine ⟨dagId, jobId, job, hjob, ?_⟩
    have hexpired := leaseExpired_of_isDue (hbudgeted hjob) hjobDue hleased
    simp only [Operation.perform, hclaim, Event.recordAfter, reaped, hexpired, if_true]
    exact stepsOf_retried_lt hleased scheduler.config nowMs jobId
  · -- the granted job has kept its steps in the reap
    have htaken := hselects.eligible.1
    rw [job?_of_dags_eq_mapJobs (dags_reap scheduler nowMs), Option.map_eq_some_iff] at htaken
    obtain ⟨job, hjob, hreaped⟩ := htaken
    refine ⟨key.dagId, key.jobId, job, hjob, ?_⟩
    have hsteps := recordSteps_reaped scheduler.config nowMs key.jobId job
    obtain ⟨hspec, hafter⟩ := hsteps.budgeted (h.valid_spec hjob).1 (hbudgeted hjob)
    have hkept := stepsOf_le_of_recordSteps hsteps (h.valid_spec hjob).1 (hbudgeted hjob)
    simp only [Operation.perform, hclaim, claimed_grant, Event.recordAfter, atJob_self]
    refine lt_of_lt_of_le (stepsOf_leased_lt hafter ?_ ?_ _ _ _) hkept
    · rw [hspec]
      exact (h.valid_spec hjob).1
    · rw [hreaped]
      exact hselects.eligible.2.1

/-- In a settled state an operation can only cancel jobs. -/
theorem recordAfter_of_settled {event : Event} (hjustified : event.Justified scheduler)
    (hsettled : scheduler.Settled) {dagId jobId : String} {job : JobRecord}
    (hjob : scheduler.job? dagId jobId = some job) :
    event.recordAfter scheduler dagId jobId job = job ∨
      event.recordAfter scheduler dagId jobId job = cancelled job := by
  have hreaped : ∀ nowMs dagId jobId job, scheduler.job? dagId jobId = some job →
      reaped scheduler.config nowMs jobId job = job := by
    intro nowMs dagId jobId job hjob
    exact if_neg fun hexpired =>
      (hsettled dagId jobId job hjob).2 (state_of_leaseExpired hexpired)
  have hholder : ∀ {dagId jobId owner token nowMs}, ¬∃ job,
      scheduler.job? dagId jobId = some job ∧ job.holdsLease owner token nowMs = true := by
    rintro dagId jobId owner token nowMs ⟨job, hjob, hholds⟩
    exact (hsettled dagId jobId job hjob).2 (state_of_holdsLease hholds)
  unfold Event.recordAfter
  split
  next owner nowMs leaseMs claimed =>
    obtain ⟨-, -, -, taken, ⟨htaken, hready, -⟩, -⟩ := hjustified
    rw [job?_of_dags_eq_mapJobs (dags_reap scheduler nowMs), Option.map_eq_some_iff] at htaken
    obtain ⟨before, hbefore, hsame⟩ := htaken
    rw [hreaped nowMs _ _ before hbefore] at hsame
    rw [← hsame, (hsettled _ _ before hbefore).1] at hready
    cases hready
  next => exact .inl (hreaped _ dagId jobId job hjob)
  next =>
    obtain ⟨-, -, holder, hheld, hholds⟩ := hjustified
    exact absurd ⟨holder, hheld, hholds⟩ hholder
  next => exact absurd hjustified hholder
  next =>
    obtain ⟨holder, hheld, hholds, -⟩ := hjustified
    exact absurd ⟨holder, hheld, hholds⟩ hholder
  next => exact .inl (hreaped _ dagId jobId job hjob)
  next =>
    split
    · exact .inr rfl
    · exact .inl rfl
  next => exact .inl rfl

theorem Settled.next (hsettled : scheduler.Settled) (hrun : Run config history scheduler)
    {operation : Operation} (hsubmit : ∀ spec nowMs, operation ≠ .submit spec nowMs) :
    (scheduler.next operation).Settled := by
  have h := run_invariant hrun
  rcases admitted_or_rewritten h operation with ⟨spec, nowMs, _, hevent, -⟩ | ⟨-, hdags⟩
  · cases operation with
    | submit spec' nowMs' => exact absurd rfl (hsubmit spec' nowMs')
    | _ => cases hevent
  · intro dagId jobId after hafter
    rw [job?_of_dags_eq_mapJobs hdags, Option.map_eq_some_iff] at hafter
    obtain ⟨job, hjob, rfl⟩ := hafter
    have hopen := hsettled dagId jobId job hjob
    rcases recordAfter_of_settled (perform_justified h operation) hsettled hjob with
      hkept | hcancelled
    · rw [hkept]
      exact hopen
    · rw [hcancelled, cancelled]
      split
      · exact hopen
      · simp [JobRecord.isReady]

/-- In an unsettled state a late claim is paid with a step. -/
theorem lateClaimAt_add_stepsLeft_le (hrun : Run config history scheduler)
    {operation : Operation} (hsubmit : ∀ spec nowMs, operation ≠ .submit spec nowMs)
    (hunsettled : ¬scheduler.Settled) :
    scheduler.lateClaimAt operation + (scheduler.next operation).stepsLeft ≤
      scheduler.stepsLeft := by
  have h := run_invariant hrun
  rcases admitted_or_rewritten h operation with ⟨spec, nowMs, _, hevent, -⟩ | ⟨-, hdags⟩
  · cases operation with
    | submit spec' nowMs' => exact absurd rfl (hsubmit spec' nowMs')
    | _ => cases hevent
  · have hrecords := fun dagId jobId job (hjob : scheduler.job? dagId jobId = some job) =>
      stepsOf_recordAfter_le hrun operation hjob
    rw [stepsLeft, total_of_dags_eq_mapJobs hdags]
    by_cases hlate : scheduler.lateClaimAt operation = 0
    · rw [hlate, Nat.zero_add]
      exact total_le_total hrecords
    · -- the claim takes a step of one job, and no step is added elsewhere
      obtain ⟨owner, nowMs, leaseMs, rfl, hvalid, hdue⟩ : ∃ owner nowMs leaseMs,
          operation = .claim owner nowMs leaseMs ∧
          validLease scheduler.config owner leaseMs = true ∧ scheduler.allDue nowMs = true := by
        unfold lateClaimAt at hlate
        split at hlate
        next owner nowMs leaseMs =>
          split at hlate
          next hboth =>
            rw [Bool.and_eq_true] at hboth
            exact ⟨owner, nowMs, leaseMs, rfl, hboth⟩
          next => exact absurd rfl hlate
        next => exact absurd rfl hlate
      obtain ⟨dagId, jobId, job, hjob, hlt⟩ :=
        exists_step_of_lateClaim hrun hvalid hdue hunsettled
      have hone : scheduler.lateClaimAt (.claim owner nowMs leaseMs) = 1 := by
        simp [lateClaimAt, hvalid, hdue]
      rw [hone, ← total_onlyAt hjob, ← total_add]
      refine total_le_total fun dagId' jobId' job' hjob' => ?_
      rcases job?_eq_or_ne hjob hjob' with ⟨rfl, rfl, rfl⟩ | hkey
      · rw [onlyAt, if_pos ⟨rfl, rfl⟩]
        omega
      · rw [onlyAt, if_neg hkey, Nat.zero_add]
        exact hrecords dagId' jobId' job' hjob'

end

/-- A state reached from a run without further admissions. -/
def ReachedUnder (config : SchedulerConfig) (history : List Event) (scheduler : Scheduler) :
    Prop :=
  ∃ later, Run config later scheduler ∧ admittedSpec later = admittedSpec history

theorem ReachedUnder.next {config : SchedulerConfig} {history : List Event}
    {scheduler : Scheduler} (h : ReachedUnder config history scheduler) {operation : Operation}
    (hsubmit : ∀ spec nowMs, operation ≠ .submit spec nowMs) :
    ReachedUnder config history (scheduler.next operation) := by
  obtain ⟨later, hrun, hspecs⟩ := h
  refine ⟨_, hrun.step operation, ?_⟩
  rw [admittedSpec_cons_of_not_submit, hspecs]
  intro spec nowMs hevent
  cases operation with
  | submit spec' nowMs' => exact hsubmit spec' nowMs' rfl
  | _ => cases hevent

/-- Workers settle every workload, whatever else they do.  Take any continuation of
any run that submits nothing: claims, heartbeats, reports of success and failure,
reaps and cancellations, by any clients at any times, with leases left to expire.
If it has more valid claims than `stepsLeft` that come when everything in the scheduler
is due, then in the end every job is finished, or it is pending behind a dead letter. -/
theorem settles_despite_failures {config : SchedulerConfig} {history : List Event}
    {scheduler : Scheduler} (hrun : Run config history scheduler) {operations : List Operation}
    (hsubmit : ∀ spec nowMs, .submit spec nowMs ∉ operations)
    (hlate : scheduler.stepsLeft < Machine.tally next lateClaimAt scheduler operations) :
    let settled := Machine.after next scheduler operations
    ∀ dagId jobId job, settled.job? dagId jobId = some job →
      job.state = .succeeded ∨ job.state = .deadLettered ∨ job.state = .cancelled ∨
      job.state = .pending ∧ ∃ spec, admittedSpec history dagId = some spec ∧
        ∃ ancestorId ancestor, Ancestor spec.edges ancestorId jobId ∧
          settled.job? dagId ancestorId = some ancestor ∧ ancestor.state = .deadLettered := by
  have halong : Machine.Along next
      (fun _ operation => ∀ spec nowMs, operation ≠ .submit spec nowMs) scheduler operations := by
    refine Machine.along_of_forall fun operation hmem spec nowMs hsame => ?_
    exact hsubmit spec nowMs (hsame ▸ hmem)
  have hkept : ∀ state operation, ReachedUnder config history state →
      (∀ spec nowMs, operation ≠ .submit spec nowMs) →
      ReachedUnder config history (state.next operation) :=
    fun state operation hreached => hreached.next
  have hstart : ReachedUnder config history scheduler := ⟨history, hrun, rfl⟩
  have hsettled : (Machine.after next scheduler operations).Settled := by
    refine Machine.finished_of_lt_tally hkept ?_ ?_ hstart halong hlate
    · rintro state operation ⟨later, hlater, -⟩ hnot hsettled
      exact hsettled.next hlater hnot
    · rintro state operation ⟨later, hlater, -⟩ hnot hunsettled
      exact lateClaimAt_add_stepsLeft_le hlater hnot hunsettled
  obtain ⟨later, hlater, hspecs⟩ := Machine.after_induction hkept hstart halong
  intro settled dagId jobId job hjob
  obtain ⟨hready, hleased⟩ := hsettled dagId jobId job hjob
  cases hstate : job.state with
  | succeeded => exact .inl rfl
  | deadLettered => exact .inr (.inl rfl)
  | cancelled => exact .inr (.inr (.inl rfl))
  | ready => simp [JobRecord.isReady, hstate] at hready
  | retryWait => simp [JobRecord.isReady, hstate] at hready
  | leased => exact absurd hstate hleased
  | pending =>
      obtain ⟨spec, hspec, ancestorId, ancestor, hpath, hancestor, hactive⟩ :=
        (run_invariant hlater).exists_active_ancestor hjob hstate
      refine .inr (.inr (.inr ⟨rfl, spec, hspecs ▸ hspec, ancestorId, ancestor, hpath,
        hancestor, ?_⟩))
      -- what is active in a settled state is a dead letter
      obtain ⟨hancestorReady, hancestorLeased⟩ := hsettled dagId ancestorId ancestor hancestor
      simp only [JobRecord.isReady, Bool.decide_or, Bool.or_eq_false_iff,
        decide_eq_false_iff_not] at hancestorReady
      simpa [JobRecord.isActive, hancestorReady, hancestorLeased] using hactive

/-- Two jobs in a row, with one attempt each. -/
def fragileSpec : DagSpec where
  id := "fragile"
  jobs := [⟨"first", .uppercase, "", 1, 0⟩, ⟨"second", .uppercase, "", 1, 0⟩]
  dependencies := [⟨"first", "second"⟩]

def fragileScheduler : Scheduler := ((new .default).submit fragileSpec 0).2

theorem run_fragileScheduler :
    Run .default [.submit fragileSpec 0 (.ok ())] fragileScheduler :=
  Run.step (.submit fragileSpec 0) Run.new

/-- A worker that claims again and again, and never reports. -/
def abandonedClaims : List Operation :=
  [.claim "worker" 1 10, .claim "worker" 20 10, .claim "worker" 40 10, .claim "worker" 60 10,
    .claim "worker" 80 10]

/-- The first job is buried, and the second one waits behind it. -/
theorem settles_despite_failures_fragile :
    ∃ ancestorId ancestor, Ancestor fragileSpec.edges ancestorId "second" ∧
      (Machine.after next fragileScheduler abandonedClaims).job? "fragile" ancestorId =
        some ancestor ∧ ancestor.state = .deadLettered := by
  obtain ⟨job, hjob⟩ : ∃ job,
      (Machine.after next fragileScheduler abandonedClaims).job? "fragile" "second" = some job :=
    Option.isSome_iff_exists.mp (by decide)
  have hpending : job.state = .pending := by
    have hstate : ((Machine.after next fragileScheduler abandonedClaims).job? "fragile"
        "second").map JobRecord.state = some .pending := by decide
    simpa [hjob] using hstate
  have hclaims : ∀ spec nowMs, Operation.submit spec nowMs ∉ abandonedClaims := by
    simp [abandonedClaims]
  have hsettled := settles_despite_failures run_fragileScheduler hclaims (by decide) "fragile"
    "second" job hjob
  simp only [hpending, reduceCtorEq, false_or, true_and] at hsettled
  obtain ⟨spec, hspec, hancestor⟩ := hsettled
  have hsame : spec = fragileSpec := by
    simpa [admittedSpec, fragileSpec] using hspec.symm
  rwa [hsame] at hancestor

end Scheduler

end JobOrchestrator
