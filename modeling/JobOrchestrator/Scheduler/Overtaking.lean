import JobOrchestrator.Scheduler.Drain
import JobOrchestrator.Scheduler.Exclusion
import JobOrchestrator.Scheduler.Settling

/-!
# How often a waiting job is overtaken

The heap compares availability times first, and whatever happens after a job has
become available is available later.  So the jobs in front of it can only become
fewer, and every claim takes one of them or the job itself: `bounded_overtaking`
counts the claims that it can have to wait for.  A retry that is due in the past, as
negative retry settings would have it, could overtake without end.
-/

namespace JobOrchestrator

/-- The clock value of an operation, if it has one. -/
def Operation.nowMs? : Operation → Option ℤ
  | .submit _ nowMs => some nowMs
  | .claim _ nowMs _ => some nowMs
  | .heartbeat _ _ _ _ nowMs _ => some nowMs
  | .complete _ _ _ _ _ nowMs => some nowMs
  | .fail _ _ _ _ nowMs => some nowMs
  | .reap nowMs => some nowMs
  | .cancel _ => none

theorem Event.nowMs?_perform (scheduler : Scheduler) (operation : Operation) :
    (operation.perform scheduler).1.nowMs? = operation.nowMs? := by
  cases operation <;> rfl

/-- The call comes after a time, and its clock value is in range. -/
def Operation.After (time : ℤ) (operation : Operation) : Prop :=
  ∀ nowMs, operation.nowMs? = some nowMs → time < nowMs ∧ I64.InRange nowMs

namespace Scheduler

theorem deterministicJitter_nonneg (jobId : String) (ceiling : ℤ) :
    0 ≤ deterministicJitter jobId ceiling := by
  unfold deterministicJitter
  split
  · exact le_rfl
  · exact ite_nonneg (Int.natCast_nonneg _) le_rfl

theorem le_saturatingAdd {a b : ℤ} (ha : a ≤ I64.max) (hb : 0 ≤ b) : a ≤ I64.saturatingAdd a b := by
  unfold I64.saturatingAdd I64.clamp
  exact le_max_of_le_right (le_min ha (by omega))

theorem saturatingAdd_le_max (a b : ℤ) : I64.saturatingAdd a b ≤ I64.max := by
  unfold I64.saturatingAdd I64.clamp
  exact max_le (by decide) (min_le_left _ _)

theorem le_retryAtMs {config : SchedulerConfig} (hbase : 0 ≤ config.baseRetryMs)
    (hmax : 0 ≤ config.maxRetryMs) (jobId : String) (attempts : ℕ) {nowMs : ℤ}
    (hnow : nowMs ≤ I64.max) : nowMs ≤ retryAtMs config jobId attempts nowMs := by
  have hnonneg : 0 ≤ I64.saturatingMul config.baseRetryMs (2 ^ min (attempts - 1) 16) := by
    unfold I64.saturatingMul I64.clamp
    exact le_max_of_le_right (le_min (by decide) (mul_nonneg hbase (by positivity)))
  calc nowMs
      ≤ I64.saturatingAdd nowMs (min (I64.saturatingMul config.baseRetryMs
          (2 ^ min (attempts - 1) 16)) config.maxRetryMs) :=
        le_saturatingAdd hnow (le_min hnonneg hmax)
    _ ≤ retryAtMs config jobId attempts nowMs :=
        le_saturatingAdd (saturatingAdd_le_max _ _) (deterministicJitter_nonneg _ _)

/-! ## The jobs in front of an entry -/

/-- One for a job that waits in front of a heap entry. -/
def aheadOf (key : ReadyKey) (dagId _jobId : String) (job : JobRecord) : ℕ :=
  if job.isReady = true ∧ readyKey dagId job.spec job.availableAtMs < key then 1 else 0

/-- The number of jobs that wait in front of a heap entry. -/
def waitsBefore (scheduler : Scheduler) (key : ReadyKey) : ℕ := scheduler.total (aheadOf key)

/-- One for a claim with a valid owner and duration. -/
def validClaimAt (scheduler : Scheduler) : Operation → ℕ
  | .claim owner _ leaseMs => if validLease scheduler.config owner leaseMs then 1 else 0
  | _ => 0

/-- The job waits in the heap under a key. -/
def WaitsUnder (scheduler : Scheduler) (key : ReadyKey) : Prop :=
  ∃ job, scheduler.job? key.dagId key.jobId = some job ∧ job.isReady = true ∧
    readyKey key.dagId job.spec job.availableAtMs = key

theorem aheadOf_of_lt {key : ReadyKey} {dagId jobId : String} {job : JobRecord}
    (h : key.availableAtMs < job.availableAtMs) : aheadOf key dagId jobId job = 0 := by
  refine if_neg fun hahead => ?_
  have hle : job.availableAtMs ≤ key.availableAtMs := ReadyKey.availableAtMs_le hahead.2.le
  omega

/-- After a time, a record waits only if it did so before, or becomes available later. -/
def WaitsAsBefore (time : ℤ) (before after : JobRecord) : Prop :=
  after.isReady = true → time < after.availableAtMs ∨
    before.isReady = true ∧ after.availableAtMs = before.availableAtMs

theorem aheadOf_le {key : ReadyKey} {dagId jobId : String} {before after : JobRecord}
    (hspec : after.spec = before.spec) (h : WaitsAsBefore key.availableAtMs before after) :
    aheadOf key dagId jobId after ≤ aheadOf key dagId jobId before := by
  by_cases hready : after.isReady = true
  · rcases h hready with hlater | ⟨hbefore, hsame⟩
    · rw [aheadOf_of_lt hlater]
      exact Nat.zero_le _
    · unfold aheadOf
      rw [hspec, hsame, hready, hbefore]
  · rw [aheadOf, if_neg fun hahead => hready hahead.1]
    exact Nat.zero_le _

theorem WaitsAsBefore.refl (time : ℤ) (job : JobRecord) : WaitsAsBefore time job job :=
  fun hready => .inr ⟨hready, rfl⟩

theorem WaitsAsBefore.of_not_ready {time : ℤ} {before after : JobRecord}
    (h : after.isReady = false) : WaitsAsBefore time before after := by
  intro hready
  rw [h] at hready
  cases hready

section

variable {config : SchedulerConfig} {time nowMs : ℤ} (hbase : 0 ≤ config.baseRetryMs)
  (hmax : 0 ≤ config.maxRetryMs) (hlater : time < nowMs) (hrange : I64.InRange nowMs)

include hbase hmax hlater hrange

theorem waitsAsBefore_retried (jobId : String) (job before : JobRecord) :
    WaitsAsBefore time before (retried config nowMs jobId job) := by
  unfold retried
  split
  · exact .of_not_ready (by simp [JobRecord.isReady])
  · exact fun _ => .inl (lt_of_lt_of_le hlater (le_retryAtMs hbase hmax _ _ hrange.2))

theorem waitsAsBefore_reaped (jobId : String) (job : JobRecord) :
    WaitsAsBefore time job (reaped config nowMs jobId job) := by
  unfold reaped
  split
  · exact waitsAsBefore_retried hbase hmax hlater hrange jobId job job
  · exact .refl time job

end

/-- No call after a time brings a job in front of what was available at that time. -/
theorem waitsAsBefore_recordAfter {scheduler : Scheduler} {event : Event} {time : ℤ}
    (hbase : 0 ≤ scheduler.config.baseRetryMs) (hmax : 0 ≤ scheduler.config.maxRetryMs)
    (htime : ∀ nowMs, event.nowMs? = some nowMs → time < nowMs ∧ I64.InRange nowMs)
    (dagId jobId : String) (job : JobRecord) :
    WaitsAsBefore time job (event.recordAfter scheduler dagId jobId job) := by
  have hatJob : ∀ {f : JobRecord → JobRecord} {dagId' jobId' : String} {record : JobRecord},
      WaitsAsBefore time job (f record) → WaitsAsBefore time job record →
      WaitsAsBefore time job (atJob dagId' jobId' f dagId jobId record) := by
    intro f dagId' jobId' record hchanged hsame
    unfold atJob
    split
    · exact hchanged
    · exact hsame
  unfold Event.recordAfter
  split
  next owner nowMs leaseMs claimed =>
    obtain ⟨hlater, hrange⟩ := htime nowMs rfl
    exact hatJob (.of_not_ready (isReady_leased ..))
      (waitsAsBefore_reaped hbase hmax hlater hrange jobId job)
  next owner nowMs leaseMs =>
    obtain ⟨hlater, hrange⟩ := htime nowMs rfl
    exact waitsAsBefore_reaped hbase hmax hlater hrange jobId job
  next => exact hatJob (.refl time job) (.refl time job)
  next dagId' jobId' owner token output nowMs =>
    obtain ⟨hlater, -⟩ := htime nowMs rfl
    split
    · by_cases hsame : jobId = jobId'
      · subst hsame
        exact .of_not_ready (by simp [JobRecord.isReady, state_completedRecord_self])
      · rw [completedRecord_of_ne _ _ _ _ hsame]
        rcases released_cases nowMs _ job with ⟨hstate, havailable⟩ | ⟨-, -, havailable⟩
        · intro hready
          refine .inr ⟨?_, havailable⟩
          simpa [JobRecord.isReady, hstate] using hready
        · exact fun _ => .inl (by rw [havailable]; exact hlater)
    · exact .refl time job
  next dagId' jobId' owner token nowMs state =>
    obtain ⟨hlater, hrange⟩ := htime nowMs rfl
    exact hatJob (waitsAsBefore_retried hbase hmax hlater hrange jobId' job job) (.refl time job)
  next nowMs result =>
    obtain ⟨hlater, hrange⟩ := htime nowMs rfl
    exact waitsAsBefore_reaped hbase hmax hlater hrange jobId job
  next =>
    split
    · unfold cancelled
      split
      · exact .refl time job
      · exact .of_not_ready (by simp [JobRecord.isReady])
    · exact .refl time job
  next => exact .refl time job

/-! ## One operation -/

theorem not_leased_of_isReady {job : JobRecord} (h : job.isReady = true) : job.state ≠ .leased := by
  rintro hleased
  simp [JobRecord.isReady, hleased] at h

theorem isReady_recordAfter {scheduler : Scheduler} {event : Event}
    (hjustified : event.Justified scheduler) {dagId jobId : String} {job : JobRecord}
    (hjob : scheduler.job? dagId jobId = some job) (hready : job.isReady = true)
    (hgrants : event.Grants dagId jobId = false) (hcancel : ∀ n, event ≠ .cancel dagId (.ok n)) :
    (event.recordAfter scheduler dagId jobId job).isReady = true ∧
      (event.recordAfter scheduler dagId jobId job).availableAtMs = job.availableAtMs := by
  have hreaped : ∀ nowMs, reaped scheduler.config nowMs jobId job = job := fun nowMs =>
    if_neg fun hexpired => not_leased_of_isReady hready (state_of_leaseExpired hexpired)
  -- a report of a lease holder is about another job
  have hother : ∀ {dagId' jobId' owner token nowMs}, (∃ holder,
      scheduler.job? dagId' jobId' = some holder ∧ holder.holdsLease owner token nowMs = true) →
      ¬(dagId = dagId' ∧ jobId = jobId') := by
    rintro dagId' jobId' owner token nowMs ⟨holder, hholder, hholds⟩ ⟨rfl, rfl⟩
    rw [hjob] at hholder
    cases hholder
    exact not_leased_of_isReady hready (state_of_holdsLease hholds)
  unfold Event.recordAfter
  split
  next owner nowMs leaseMs claimed =>
    have hkey : ¬(dagId = claimed.dagId ∧ jobId = claimed.jobId) := by
      rintro ⟨rfl, rfl⟩
      simp [Event.Grants] at hgrants
    rw [atJob_of_ne hkey, hreaped]
    exact ⟨hready, rfl⟩
  next =>
    rw [hreaped]
    exact ⟨hready, rfl⟩
  next =>
    obtain ⟨-, -, hholder⟩ := hjustified
    rw [atJob_of_ne (hother hholder)]
    exact ⟨hready, rfl⟩
  next dagId' jobId' owner token output nowMs =>
    split
    next hdag =>
      subst hdag
      have hne : jobId ≠ jobId' := fun hsame => hother hjustified ⟨rfl, hsame⟩
      rw [completedRecord_of_ne _ _ _ _ hne]
      rcases released_cases nowMs
        ((scheduler.dependentsOf dagId jobId').count jobId) job with hkept | ⟨hpending, -⟩
      · exact ⟨by simpa [JobRecord.isReady, hkept.1] using hready, hkept.2⟩
      · simp [JobRecord.isReady, hpending] at hready
    next => exact ⟨hready, rfl⟩
  next =>
    obtain ⟨holder, hholder, hholds, -⟩ := hjustified
    rw [atJob_of_ne (hother ⟨holder, hholder, hholds⟩)]
    exact ⟨hready, rfl⟩
  next =>
    rw [hreaped]
    exact ⟨hready, rfl⟩
  next dagId' n =>
    split
    next hdag => exact absurd (by rw [hdag]) (hcancel n)
    next => exact ⟨hready, rfl⟩
  next => exact ⟨hready, rfl⟩

section

variable {config : SchedulerConfig} {history : List Event} {scheduler : Scheduler}
  {key : ReadyKey}

/-- A valid claim that does not take the waiting job takes one in front of it. -/
theorem exists_ahead_of_claim (hrun : Run config history scheduler)
    (hbase : 0 ≤ config.baseRetryMs) (hmax : 0 ≤ config.maxRetryMs)
    (hwaits : scheduler.WaitsUnder key) {owner : String} {nowMs leaseMs : ℤ}
    (hvalid : validLease scheduler.config owner leaseMs = true)
    (hlater : key.availableAtMs < nowMs) (hrange : I64.InRange nowMs)
    (hgrants : ((Operation.claim owner nowMs leaseMs).perform scheduler).1.Grants key.dagId
      key.jobId = false) :
    ∃ dagId jobId job, scheduler.job? dagId jobId = some job ∧ aheadOf key dagId jobId job = 1 ∧
      aheadOf key dagId jobId (((Operation.claim owner nowMs leaseMs).perform
        scheduler).1.recordAfter scheduler dagId jobId job) = 0 := by
  have h := run_invariant hrun
  obtain ⟨job, hjob, hready, hkey⟩ := hwaits
  have hreaped : reaped scheduler.config nowMs key.jobId job = job :=
    if_neg fun hexpired => not_leased_of_isReady hready (state_of_leaseExpired hexpired)
  have heligible : (scheduler.reap nowMs).2.Eligible nowMs key.dagId key.jobId job := by
    refine ⟨by rw [job?_reap nowMs hjob, hreaped], hready, ?_⟩
    rw [← hkey] at hlater
    exact le_of_lt hlater
  rcases claim_cases h.heap h.ownIds owner nowMs leaseMs with
    ⟨hinvalid, -⟩ | ⟨-, ready, ⟨hnone, -⟩ | ⟨first, taken, hselects, hclaim, -⟩⟩
  · rw [hvalid] at hinvalid
    cases hinvalid
  · exact absurd heligible (hnone _ _ _)
  · have hle : first ≤ key := hkey ▸ hselects.least _ _ _ heligible
    have hne : first ≠ key := by
      rintro rfl
      simp [Operation.perform, hclaim, claimed_grant, Event.Grants] at hgrants
    have hfirst := hselects.key_eq
    obtain ⟨htaken, htakenReady, -⟩ := hselects.eligible
    rw [job?_of_dags_eq_mapJobs (dags_reap scheduler nowMs), Option.map_eq_some_iff] at htaken
    obtain ⟨before, hbefore, hafter⟩ := htaken
    have hspec : taken.spec = before.spec := by
      rw [← hafter, reaped]
      split
      · exact spec_retried ..
      · rfl
    refine ⟨first.dagId, first.jobId, before, hbefore, ?_, ?_⟩
    · -- the reap did not bring the selected job in front of the waiting one
      have hkept : WaitsAsBefore key.availableAtMs before
          (reaped scheduler.config nowMs first.jobId before) :=
        waitsAsBefore_reaped (by rw [run_config hrun]; exact hbase)
          (by rw [run_config hrun]; exact hmax) hlater hrange first.jobId before
      rw [hafter] at hkept
      rcases hkept htakenReady with hlate | ⟨hbeforeReady, havailable⟩
      · have havail : taken.availableAtMs ≤ key.availableAtMs := by
          have := ReadyKey.availableAtMs_le hle
          rwa [hfirst] at this
        omega
      · refine if_pos ⟨hbeforeReady, ?_⟩
        rw [← hspec, ← havailable, ← hfirst]
        exact lt_of_le_of_ne hle hne
    · simp only [Operation.perform, hclaim, claimed_grant, Event.recordAfter, atJob_self]
      exact if_neg fun hahead => by simp at hahead

/-- One operation: the jobs in front pay for the claims, and the job goes on waiting. -/
theorem WaitsUnder.step (hwaits : scheduler.WaitsUnder key) (hrun : Run config history scheduler)
    (hbase : 0 ≤ config.baseRetryMs) (hmax : 0 ≤ config.maxRetryMs) {operation : Operation}
    (hafter : operation.After key.availableAtMs)
    (hgrants : (operation.perform scheduler).1.Grants key.dagId key.jobId = false)
    (hcancel : ∀ n, (operation.perform scheduler).1 ≠ .cancel key.dagId (.ok n)) :
    (scheduler.next operation).WaitsUnder key ∧
      scheduler.validClaimAt operation + (scheduler.next operation).waitsBefore key ≤
        scheduler.waitsBefore key := by
  have h := run_invariant hrun
  have hjustified := perform_justified h operation
  have hconfig := run_config hrun
  have htime : ∀ nowMs, (operation.perform scheduler).1.nowMs? = some nowMs →
      key.availableAtMs < nowMs ∧ I64.InRange nowMs := by
    intro nowMs hnow
    rw [Event.nowMs?_perform] at hnow
    exact hafter nowMs hnow
  have hspec : ∀ {dagId jobId job}, scheduler.job? dagId jobId = some job →
      ((operation.perform scheduler).1.recordAfter scheduler dagId jobId job).spec = job.spec :=
    fun hjob => (recordAfter_budgeted hrun operation hjob).1
  constructor
  · obtain ⟨job, hjob, hready, hkey⟩ := hwaits
    obtain ⟨hready', havailable⟩ := isReady_recordAfter hjustified hjob hready hgrants hcancel
    refine ⟨_, perform_record h operation hjob, hready', ?_⟩
    rw [hspec hjob, havailable, hkey]
  · rcases admitted_or_rewritten h operation with
      ⟨spec, nowMs, dag, hevent, hadmitted⟩ | ⟨-, hdags⟩
    · -- the jobs of an admitted graph are available from now on
      have hnew : dag.jobs.total (aheadOf key spec.id) = 0 := by
        refine List.sum_eq_zero fun count hcount => ?_
        obtain ⟨entry, hentry, rfl⟩ := List.mem_map.mp hcount
        apply aheadOf_of_lt
        rw [hadmitted.records entry.1 entry.2 (Table.mem_entries.mp hentry)]
        exact (htime nowMs (by rw [hevent]; rfl)).1
      have hclaim : scheduler.validClaimAt operation = 0 := by
        cases operation with
        | claim owner nowMs' leaseMs => cases hevent
        | _ => rfl
      rw [hclaim, Nat.zero_add, waitsBefore, hadmitted.total_eq, hnew]
      exact le_rfl
    · have hrecords : ∀ dagId jobId job, scheduler.job? dagId jobId = some job →
          aheadOf key dagId jobId
              ((operation.perform scheduler).1.recordAfter scheduler dagId jobId job) ≤
            aheadOf key dagId jobId job := fun dagId jobId job hjob =>
        aheadOf_le (hspec hjob) (waitsAsBefore_recordAfter (by rw [hconfig]; exact hbase)
          (by rw [hconfig]; exact hmax) htime dagId jobId job)
      rw [waitsBefore, total_of_dags_eq_mapJobs hdags]
      by_cases hclaim : scheduler.validClaimAt operation = 0
      · rw [hclaim, Nat.zero_add]
        exact total_le_total hrecords
      · obtain ⟨owner, nowMs, leaseMs, rfl, hvalid⟩ : ∃ owner nowMs leaseMs,
            operation = .claim owner nowMs leaseMs ∧
              validLease scheduler.config owner leaseMs = true := by
          unfold validClaimAt at hclaim
          split at hclaim
          next owner nowMs leaseMs =>
            split at hclaim
            next hvalid => exact ⟨owner, nowMs, leaseMs, rfl, hvalid⟩
            next => exact absurd rfl hclaim
          next => exact absurd rfl hclaim
        obtain ⟨hlater, hrange⟩ := hafter nowMs rfl
        obtain ⟨dagId, jobId, job, hjob, hone, hzero⟩ := exists_ahead_of_claim hrun hbase hmax
          hwaits hvalid hlater hrange hgrants
        have hcount : scheduler.validClaimAt (.claim owner nowMs leaseMs) = 1 := if_pos hvalid
        rw [hcount, ← total_onlyAt hjob, ← total_add]
        refine total_le_total fun dagId' jobId' job' hjob' => ?_
        rcases job?_eq_or_ne hjob hjob' with ⟨rfl, rfl, rfl⟩ | hkey
        · rw [hone, hzero, onlyAt, if_pos ⟨rfl, rfl⟩]
        · rw [onlyAt, if_neg hkey, Nat.zero_add]
          exact hrecords dagId' jobId' job' hjob'

end

/-- A call after the job has become available that neither grants the job of the
key nor cancels its graph. -/
def PassesBy (key : ReadyKey) (scheduler : Scheduler) (operation : Operation) : Prop :=
  operation.After key.availableAtMs ∧
    (operation.perform scheduler).1.Grants key.dagId key.jobId = false ∧
    ∀ n, (operation.perform scheduler).1 ≠ .cancel key.dagId (.ok n)

/-- No job starves, as long as the two retry settings are not negative.  A job waits
under its key; take any continuation, by any clients and with any admissions, whose
clock values lie behind the time from which the job is available.  If it has more
valid claims than there were jobs in front of the key, then one of its calls hands
the job out, or cancels its graph. -/
theorem bounded_overtaking {config : SchedulerConfig} {history : List Event}
    {scheduler : Scheduler} (hrun : Run config history scheduler)
    (hbase : 0 ≤ config.baseRetryMs) (hmax : 0 ≤ config.maxRetryMs) {key : ReadyKey}
    (hwaits : scheduler.WaitsUnder key) {operations : List Operation}
    (hafter : ∀ operation ∈ operations, operation.After key.availableAtMs)
    (hclaims : scheduler.waitsBefore key < Machine.tally next validClaimAt scheduler operations) :
    ∃ before operation rest, operations = before ++ operation :: rest ∧
      ((operation.perform (Machine.after next scheduler before)).1.Grants key.dagId key.jobId =
          true ∨
        ∃ n, (operation.perform (Machine.after next scheduler before)).1 =
          .cancel key.dagId (.ok n)) := by
  by_contra hnone
  have halong : Machine.Along next (PassesBy key) scheduler operations := by
    by_contra hbroken
    obtain ⟨before, operation, rest, hsplit, -, hcalls⟩ := Machine.exists_of_not_along hbroken
    refine hcalls ⟨hafter operation (by simp [hsplit]), ?_, fun n hcancel => ?_⟩
    · by_contra hgrants
      exact hnone ⟨before, operation, rest, hsplit, .inl (by simpa using hgrants)⟩
    · exact hnone ⟨before, operation, rest, hsplit, .inr ⟨n, hcancel⟩⟩
  have hkept : ∀ state operation, Reached config state ∧ state.WaitsUnder key →
      PassesBy key state operation →
      Reached config (state.next operation) ∧ (state.next operation).WaitsUnder key := by
    rintro state operation ⟨⟨earlier, hearlier⟩, hwaiting⟩ ⟨hlater, hgrants, hcancel⟩
    exact ⟨⟨_, hearlier.step operation⟩,
      (hwaiting.step hearlier hbase hmax hlater hgrants hcancel).1⟩
  have hpaid : ∀ state operation, Reached config state ∧ state.WaitsUnder key →
      PassesBy key state operation → state.validClaimAt operation +
        (state.next operation).waitsBefore key ≤ state.waitsBefore key := by
    rintro state operation ⟨⟨earlier, hearlier⟩, hwaiting⟩ ⟨hlater, hgrants, hcancel⟩
    exact (hwaiting.step hearlier hbase hmax hlater hgrants hcancel).2
  have htotal : Machine.tally next validClaimAt scheduler operations +
      (Machine.after next scheduler operations).waitsBefore key ≤ scheduler.waitsBefore key :=
    Machine.tally_add_le validClaimAt (waitsBefore · key) hkept hpaid ⟨⟨history, hrun⟩, hwaits⟩
      halong
  omega

/-- Two jobs at once; the other one has the higher priority. -/
def crowdedSpec : DagSpec where
  id := "crowded"
  jobs := [⟨"patient", .uppercase, "", 3, 0⟩, ⟨"urgent", .uppercase, "", 3, 50⟩]
  dependencies := []

def crowdedScheduler : Scheduler := ((new .default).submit crowdedSpec 0).2

theorem run_crowdedScheduler :
    Run .default [.submit crowdedSpec 0 (.ok ())] crowdedScheduler :=
  Run.step (.submit crowdedSpec 0) Run.new

/-- The urgent job fails and is retried; the second claim takes the patient one. -/
theorem bounded_overtaking_crowded :
    ∃ before operation rest,
      [Operation.claim "worker" 1 10, .fail "crowded" "urgent" "worker" "lease-crowded-urgent-1" 2,
        .claim "worker" 3 10] = before ++ operation :: rest ∧
      ((operation.perform (Machine.after next crowdedScheduler before)).1.Grants "crowded"
          "patient" = true ∨
        ∃ n, (operation.perform (Machine.after next crowdedScheduler before)).1 =
          .cancel "crowded" (.ok n)) := by
  have hwaits : crowdedScheduler.WaitsUnder ⟨0, 100, "crowded", "patient"⟩ :=
    ⟨⟨⟨"patient", .uppercase, "", 3, 0⟩, .ready, 0, 0, 0, none, none⟩, by decide⟩
  refine bounded_overtaking run_crowdedScheduler (by decide) (by decide) hwaits ?_ (by decide)
  intro operation hoperation nowMs hnow
  simp only [List.mem_cons, List.not_mem_nil, or_false] at hoperation
  rcases hoperation with rfl | rfl | rfl <;>
  · cases hnow
    decide

end Scheduler

end JobOrchestrator
