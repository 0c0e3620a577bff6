import JobOrchestrator.Scheduler.Basic

/-!
# What each scheduler operation does to the job records

Every operation but `submit` acts on the job records pointwise: its effect on
`dags` is `mapJobs` of a function of the graph, the identifier and the record.
This file gives that function for each operation.  `job?_of_dags_eq_mapJobs` then
turns an effect into what a later lookup finds, and the frame facts (no graph or job
appears or disappears, the dependents stay the same) come for free.
-/

namespace JobOrchestrator

/-- Rewrites every record of a graph in place. -/
def DagRecord.rewrite (dag : DagRecord) (f : String → JobRecord → JobRecord) : DagRecord :=
  { dag with jobs := dag.jobs.mapValues f }

@[simp] theorem DagRecord.jobs_rewrite (dag : DagRecord) (f : String → JobRecord → JobRecord) :
    (dag.rewrite f).jobs = dag.jobs.mapValues f := rfl

@[simp] theorem DagRecord.dependents_rewrite (dag : DagRecord)
    (f : String → JobRecord → JobRecord) : (dag.rewrite f).dependents = dag.dependents := rfl

@[simp] theorem DagRecord.rewrite_id (dag : DagRecord) : (dag.rewrite fun _ job => job) = dag := by
  unfold DagRecord.rewrite
  rw [Table.mapValues_id]

@[simp] theorem DagRecord.get?_rewrite (dag : DagRecord) (f : String → JobRecord → JobRecord)
    (jobId : String) : (dag.rewrite f).jobs.get? jobId = (dag.jobs.get? jobId).map (f jobId) :=
  Table.get?_mapValues ..

/-- Rewrites every job record in place. -/
def mapJobs (f : String → String → JobRecord → JobRecord) (dags : Table String DagRecord) :
    Table String DagRecord :=
  dags.mapValues fun dagId dag => dag.rewrite (f dagId)

/-- Rewrites one record and leaves the others alone. -/
def atJob (dagId jobId : String) (f : JobRecord → JobRecord) :
    String → String → JobRecord → JobRecord :=
  fun dagId' jobId' job => if dagId' = dagId ∧ jobId' = jobId then f job else job

@[simp] theorem atJob_self (dagId jobId : String) (f : JobRecord → JobRecord) (job : JobRecord) :
    atJob dagId jobId f dagId jobId job = f job := if_pos ⟨rfl, rfl⟩

theorem atJob_of_ne {dagId jobId dagId' jobId' : String} (hne : ¬(dagId' = dagId ∧ jobId' = jobId))
    (f : JobRecord → JobRecord) (job : JobRecord) :
    atJob dagId jobId f dagId' jobId' job = job := if_neg hne

theorem mapJobs_mapJobs (f g : String → String → JobRecord → JobRecord)
    (dags : Table String DagRecord) :
    mapJobs g (mapJobs f dags) =
      mapJobs (fun dagId jobId job => g dagId jobId (f dagId jobId job)) dags := by
  simp only [mapJobs, DagRecord.rewrite, Table.mapValues_mapValues]

namespace Scheduler

/-- A lookup in rewritten records. -/
theorem job?_of_dags_eq_mapJobs {before after : Scheduler}
    {f : String → String → JobRecord → JobRecord} (h : after.dags = mapJobs f before.dags)
    (dagId jobId : String) :
    after.job? dagId jobId = (before.job? dagId jobId).map (f dagId jobId) := by
  unfold job?
  rw [h, mapJobs, Table.get?_mapValues]
  cases before.dags.get? dagId with
  | none => rfl
  | some dag => simp

/-- Two stored records are the same or have different keys. -/
theorem job?_eq_or_ne {scheduler : Scheduler} {dagId jobId dagId' jobId' : String}
    {job job' : JobRecord} (hjob : scheduler.job? dagId jobId = some job)
    (hjob' : scheduler.job? dagId' jobId' = some job') :
    (dagId' = dagId ∧ jobId' = jobId ∧ job = job') ∨ ¬(dagId' = dagId ∧ jobId' = jobId) := by
  by_cases hkey : dagId' = dagId ∧ jobId' = jobId
  · obtain ⟨rfl, rfl⟩ := hkey
    exact .inl ⟨rfl, rfl, Option.some_injective _ (hjob.symm.trans hjob')⟩
  · exact .inr hkey

theorem mapJobs_congr {scheduler : Scheduler} {f g : String → String → JobRecord → JobRecord}
    (h : ∀ dagId jobId job, scheduler.job? dagId jobId = some job →
      f dagId jobId job = g dagId jobId job) :
    mapJobs f scheduler.dags = mapJobs g scheduler.dags := by
  apply Table.mapValues_congr
  intro dagId dag hdag
  have hjobs : dag.jobs.mapValues (f dagId) = dag.jobs.mapValues (g dagId) := by
    apply Table.mapValues_congr
    intro jobId job hjob
    exact h dagId jobId job (by simp [job?, hdag, hjob])
  rw [DagRecord.rewrite, DagRecord.rewrite, hjobs]

@[simp] theorem dags_modifyJob (scheduler : Scheduler) (dagId jobId : String)
    (f : JobRecord → JobRecord) :
    (scheduler.modifyJob dagId jobId f).dags = mapJobs (atJob dagId jobId f) scheduler.dags := by
  unfold modifyJob Table.modify mapJobs
  simp only
  apply Table.mapValues_congr
  intro dagId' dag _
  by_cases hdag : dagId' = dagId
  · have hat : atJob dagId jobId f dagId' =
        fun other value => if other = jobId then f value else value := by
      funext other value
      simp [atJob, hdag]
    rw [if_pos hdag, hat]
    rfl
  · have hat : atJob dagId jobId f dagId' = fun _ value => value := by
      funext other value
      simp [atJob, hdag]
    rw [if_neg hdag, hat, DagRecord.rewrite_id]

@[simp] theorem ready_modifyJob (scheduler : Scheduler) (dagId jobId : String)
    (f : JobRecord → JobRecord) : (scheduler.modifyJob dagId jobId f).ready = scheduler.ready := rfl

@[simp] theorem config_modifyJob (scheduler : Scheduler) (dagId jobId : String)
    (f : JobRecord → JobRecord) :
    (scheduler.modifyJob dagId jobId f).config = scheduler.config := rfl

@[simp] theorem sequence_modifyJob (scheduler : Scheduler) (dagId jobId : String)
    (f : JobRecord → JobRecord) :
    (scheduler.modifyJob dagId jobId f).sequence = scheduler.sequence := rfl

/-- A write through the reference only depends on what it does to the stored record. -/
theorem modifyJob_congr {scheduler : Scheduler} {dagId jobId : String} {job : JobRecord}
    (hjob : scheduler.job? dagId jobId = some job) {f g : JobRecord → JobRecord}
    (h : f job = g job) :
    scheduler.modifyJob dagId jobId f = scheduler.modifyJob dagId jobId g := by
  have hdags : (scheduler.modifyJob dagId jobId f).dags =
      (scheduler.modifyJob dagId jobId g).dags := by
    rw [dags_modifyJob, dags_modifyJob]
    refine mapJobs_congr fun dagId' jobId' job' hjob' => ?_
    rcases job?_eq_or_ne hjob hjob' with ⟨rfl, rfl, rfl⟩ | hkey
    · simpa using h
    · rw [atJob_of_ne hkey, atJob_of_ne hkey]
  exact congrArg (fun dags => { scheduler with dags := dags }) hdags

@[simp] theorem dags_pushReady (scheduler : Scheduler) (dagId : String) (job : JobSpec)
    (availableAtMs : ℤ) : (scheduler.pushReady dagId job availableAtMs).dags = scheduler.dags := rfl

@[simp] theorem ready_pushReady (scheduler : Scheduler) (dagId : String) (job : JobSpec)
    (availableAtMs : ℤ) : (scheduler.pushReady dagId job availableAtMs).ready =
      scheduler.ready.push (readyKey dagId job availableAtMs) := rfl

@[simp] theorem config_pushReady (scheduler : Scheduler) (dagId : String) (job : JobSpec)
    (availableAtMs : ℤ) :
    (scheduler.pushReady dagId job availableAtMs).config = scheduler.config := rfl

@[simp] theorem sequence_pushReady (scheduler : Scheduler) (dagId : String) (job : JobSpec)
    (availableAtMs : ℤ) :
    (scheduler.pushReady dagId job availableAtMs).sequence = scheduler.sequence := rfl

theorem jobMut_eq_ok_iff {scheduler : Scheduler} {dagId jobId : String} {job : JobRecord} :
    scheduler.jobMut dagId jobId = .ok job ↔ scheduler.job? dagId jobId = some job := by
  unfold jobMut job?
  cases hdag : scheduler.dags.get? dagId with
  | none => simp
  | some dag => cases hjob : dag.jobs.get? jobId <;> simp [hjob]

theorem exists_job?_of_dags_eq_mapJobs {before after : Scheduler}
    {f : String → String → JobRecord → JobRecord} (h : after.dags = mapJobs f before.dags)
    {dagId jobId : String} (hjob : ∃ job, before.job? dagId jobId = some job) :
    ∃ job, after.job? dagId jobId = some job := by
  obtain ⟨job, hjob⟩ := hjob
  exact ⟨f dagId jobId job, by rw [job?_of_dags_eq_mapJobs h, hjob, Option.map_some]⟩

/-! ## Retry and expiry -/

/-- What a failed or expired lease makes of its job. -/
def retried (config : SchedulerConfig) (nowMs : ℤ) (jobId : String) (job : JobRecord) : JobRecord :=
  if job.spec.maxAttempts ≤ job.attempts then { job with lease := none, state := .deadLettered }
  else { job with
    lease := none
    availableAtMs := retryAtMs config jobId job.attempts nowMs
    state := .retryWait }

/-- The retry of an existing job: one record is rewritten, and a job with
attempts left enters the heap under its new availability time. -/
theorem retryOrDeadLetter_of_job? {scheduler : Scheduler} {dagId jobId : String} {job : JobRecord}
    (hjob : scheduler.job? dagId jobId = some job) (nowMs : ℤ) :
    scheduler.retryOrDeadLetter dagId jobId nowMs =
      (.ok (retried scheduler.config nowMs jobId job).state,
        let rewritten := scheduler.modifyJob dagId jobId (retried scheduler.config nowMs jobId)
        if job.spec.maxAttempts ≤ job.attempts then rewritten
        else rewritten.pushReady dagId job.spec
          (retryAtMs scheduler.config jobId job.attempts nowMs)) := by
  unfold retryOrDeadLetter
  rw [jobMut_eq_ok_iff.mpr hjob]
  by_cases hbudget : job.spec.maxAttempts ≤ job.attempts
  · have hrecord : retried scheduler.config nowMs jobId job =
        { job with lease := none, state := .deadLettered } := if_pos hbudget
    simp only [hbudget, if_true, hrecord]
    rw [modifyJob_congr hjob hrecord.symm]
  · have hrecord : retried scheduler.config nowMs jobId job =
        { job with
          lease := none
          availableAtMs := retryAtMs scheduler.config jobId job.attempts nowMs
          state := .retryWait } := if_neg hbudget
    simp only [hbudget, if_false, hrecord]
    rw [modifyJob_congr hjob hrecord.symm]

/-- What `reap` makes of a job. -/
def reaped (config : SchedulerConfig) (nowMs : ℤ) (jobId : String) (job : JobRecord) : JobRecord :=
  if job.leaseExpired nowMs then retried config nowMs jobId job else job

/-- The keys of the jobs with a property, in iteration order. -/
def jobsWhere (scheduler : Scheduler) (p : String → String → JobRecord → Bool) :
    List (String × String) :=
  scheduler.dags.entries.flatMap fun (dagId, dag) =>
    dag.jobs.entries.filterMap fun (jobId, job) =>
      if p dagId jobId job then some (dagId, jobId) else none

theorem mem_jobsWhere {scheduler : Scheduler} {p : String → String → JobRecord → Bool}
    {dagId jobId : String} : (dagId, jobId) ∈ scheduler.jobsWhere p ↔
      ∃ job, scheduler.job? dagId jobId = some job ∧ p dagId jobId job = true := by
  simp only [jobsWhere, List.mem_flatMap, List.mem_filterMap, Prod.exists,
    Option.ite_none_right_eq_some, Option.some.injEq, Prod.mk.injEq, Table.mem_entries, job?,
    Option.bind_eq_some_iff]
  constructor
  · rintro ⟨_, dag, hdag, _, job, hjob, hp, rfl, rfl⟩
    exact ⟨job, ⟨dag, hdag, hjob⟩, hp⟩
  · rintro ⟨job, ⟨dag, hdag, hjob⟩, hp⟩
    exact ⟨dagId, dag, hdag, jobId, job, hjob, hp, rfl, rfl⟩

theorem nodup_jobsWhere (scheduler : Scheduler) (p : String → String → JobRecord → Bool) :
    (scheduler.jobsWhere p).Nodup := by
  unfold jobsWhere
  rw [List.nodup_flatMap]
  constructor
  · rintro ⟨dagId, dag⟩ _
    have hsub : ((dag.jobs.entries.filterMap fun entry =>
        if p dagId entry.1 entry.2 = true then some (dagId, entry.1) else none).map
          Prod.snd).Sublist dag.jobs.keys := by
      unfold Table.keys
      induction dag.jobs.entries with
      | nil => simp
      | cons entry rest ih =>
          by_cases hp : p dagId entry.1 entry.2 = true
          · simpa [hp] using ih
          · simpa [hp] using ih.cons entry.1
    exact List.Nodup.of_map _ (hsub.nodup dag.jobs.nodupKeys)
  · have hkeys : scheduler.dags.entries.Pairwise fun first second => first.1 ≠ second.1 :=
      List.pairwise_map.mp scheduler.dags.nodupKeys
    refine hkeys.imp fun {first second} hne => ?_
    intro key hfirst hsecond
    simp only [List.mem_filterMap, Option.ite_none_right_eq_some, Option.some.injEq]
      at hfirst hsecond
    obtain ⟨_, _, _, rfl⟩ := hfirst
    obtain ⟨_, _, _, hkey⟩ := hsecond
    exact hne (congrArg Prod.fst hkey).symm

theorem mem_expiredLeases {scheduler : Scheduler} {nowMs : ℤ} {dagId jobId : String} :
    (dagId, jobId) ∈ scheduler.expiredLeases nowMs ↔
      ∃ job, scheduler.job? dagId jobId = some job ∧ job.leaseExpired nowMs = true :=
  mem_jobsWhere (p := fun _ _ job => job.leaseExpired nowMs)

theorem nodup_expiredLeases (scheduler : Scheduler) (nowMs : ℤ) :
    (scheduler.expiredLeases nowMs).Nodup :=
  nodup_jobsWhere scheduler fun _ _ job => job.leaseExpired nowMs

theorem dags_retryOrDeadLetter {scheduler : Scheduler} {dagId jobId : String}
    (hjob : ∃ job, scheduler.job? dagId jobId = some job) (nowMs : ℤ) :
    (scheduler.retryOrDeadLetter dagId jobId nowMs).2.dags =
      mapJobs (atJob dagId jobId (retried scheduler.config nowMs jobId)) scheduler.dags := by
  obtain ⟨job, hjob⟩ := hjob
  rw [retryOrDeadLetter_of_job? hjob]
  by_cases hbudget : job.spec.maxAttempts ≤ job.attempts <;> simp [hbudget]

@[simp] theorem config_retryOrDeadLetter (scheduler : Scheduler) (dagId jobId : String)
    (nowMs : ℤ) :
    (scheduler.retryOrDeadLetter dagId jobId nowMs).2.config = scheduler.config := by
  unfold retryOrDeadLetter
  split
  · rfl
  · split <;> rfl

@[simp] theorem sequence_retryOrDeadLetter (scheduler : Scheduler) (dagId jobId : String)
    (nowMs : ℤ) :
    (scheduler.retryOrDeadLetter dagId jobId nowMs).2.sequence = scheduler.sequence := by
  unfold retryOrDeadLetter
  split
  · rfl
  · split <;> rfl

/-- The loop of `reap` over a list of keys. -/
def retryAll (nowMs : ℤ) (keys : List (String × String)) (scheduler : Scheduler) : Scheduler :=
  keys.foldl (fun current key => (current.retryOrDeadLetter key.1 key.2 nowMs).2) scheduler

theorem retryAll_cons (nowMs : ℤ) (key : String × String) (rest : List (String × String))
    (scheduler : Scheduler) :
    retryAll nowMs (key :: rest) scheduler =
      retryAll nowMs rest (scheduler.retryOrDeadLetter key.1 key.2 nowMs).2 := rfl

theorem reap_eq (scheduler : Scheduler) (nowMs : ℤ) :
    scheduler.reap nowMs = ((scheduler.expiredLeases nowMs).length,
      retryAll nowMs (scheduler.expiredLeases nowMs) scheduler) := rfl

@[simp] theorem config_retryAll (nowMs : ℤ) (keys : List (String × String))
    (scheduler : Scheduler) : (retryAll nowMs keys scheduler).config = scheduler.config := by
  induction keys generalizing scheduler with
  | nil => rfl
  | cons key rest ih => rw [retryAll_cons, ih, config_retryOrDeadLetter]

@[simp] theorem sequence_retryAll (nowMs : ℤ) (keys : List (String × String))
    (scheduler : Scheduler) : (retryAll nowMs keys scheduler).sequence = scheduler.sequence := by
  induction keys generalizing scheduler with
  | nil => rfl
  | cons key rest ih => rw [retryAll_cons, ih, sequence_retryOrDeadLetter]

/-- Retrying distinct jobs one after the other rewrites each of them once. -/
theorem dags_retryAll (nowMs : ℤ) {keys : List (String × String)} (hnodup : keys.Nodup)
    {scheduler : Scheduler} (hjobs : ∀ key ∈ keys, ∃ job, scheduler.job? key.1 key.2 = some job) :
    (retryAll nowMs keys scheduler).dags =
      mapJobs (fun dagId jobId job => if (dagId, jobId) ∈ keys then
        retried scheduler.config nowMs jobId job else job) scheduler.dags := by
  induction keys generalizing scheduler with
  | nil => simp [retryAll, mapJobs]
  | cons key rest ih =>
      obtain ⟨dagId, jobId⟩ := key
      obtain ⟨hfresh, hrest⟩ := List.nodup_cons.mp hnodup
      have hfirst := dags_retryOrDeadLetter (hjobs (dagId, jobId) List.mem_cons_self) nowMs
      rw [retryAll_cons, ih hrest fun key hkey => exists_job?_of_dags_eq_mapJobs hfirst
        (hjobs key (List.mem_cons_of_mem _ hkey)), hfirst, mapJobs_mapJobs,
        config_retryOrDeadLetter]
      refine mapJobs_congr fun dagId' jobId' job _ => ?_
      by_cases hkey : dagId' = dagId ∧ jobId' = jobId
      · obtain ⟨rfl, rfl⟩ := hkey
        simp [hfresh]
      · rw [atJob_of_ne hkey]
        simp [List.mem_cons, hkey]

/-- Reaping rewrites exactly the jobs whose lease has expired. -/
theorem dags_reap (scheduler : Scheduler) (nowMs : ℤ) :
    (scheduler.reap nowMs).2.dags =
      mapJobs (fun _ => reaped scheduler.config nowMs) scheduler.dags := by
  rw [reap_eq, dags_retryAll nowMs (nodup_expiredLeases scheduler nowMs) fun key hkey => by
    obtain ⟨job, hjob, _⟩ := mem_expiredLeases.mp hkey
    exact ⟨job, hjob⟩]
  refine mapJobs_congr fun dagId jobId job hjob => ?_
  simp [mem_expiredLeases, hjob, reaped]

@[simp] theorem config_reap (scheduler : Scheduler) (nowMs : ℤ) :
    (scheduler.reap nowMs).2.config = scheduler.config := config_retryAll ..

@[simp] theorem sequence_reap (scheduler : Scheduler) (nowMs : ℤ) :
    (scheduler.reap nowMs).2.sequence = scheduler.sequence := sequence_retryAll ..

/-! ## Reports -/

theorem assertLease_eq_ok_iff {scheduler : Scheduler} {dagId jobId owner token : String}
    {nowMs : ℤ} : scheduler.assertLease dagId jobId owner token nowMs = .ok () ↔
      ∃ job, scheduler.job? dagId jobId = some job ∧ job.holdsLease owner token nowMs = true := by
  unfold assertLease
  cases hjob : scheduler.jobMut dagId jobId with
  | error error =>
      simp only [reduceCtorEq, false_iff, not_exists, not_and]
      intro job hlookup
      rw [jobMut_eq_ok_iff.mpr hlookup] at hjob
      cases hjob
  | ok job =>
      have hlookup := jobMut_eq_ok_iff.mp hjob
      simp [hlookup]

/-- What a heartbeat makes of its job. -/
def extended (expiresAtMs : ℤ) (job : JobRecord) : JobRecord :=
  { job with lease := job.lease.map fun lease => { lease with expiresAtMs } }

/-- A heartbeat either extends the caller's live lease or changes nothing. -/
theorem heartbeat_cases (scheduler : Scheduler) (dagId jobId owner token : String)
    (nowMs leaseMs : ℤ) :
    (∃ job, scheduler.job? dagId jobId = some job ∧ job.holdsLease owner token nowMs = true ∧
      0 < leaseMs ∧ leaseMs ≤ scheduler.config.maxLeaseMs ∧
      scheduler.heartbeat dagId jobId owner token nowMs leaseMs =
        (.ok (I64.saturatingAdd nowMs leaseMs), scheduler.modifyJob dagId jobId
          (extended (I64.saturatingAdd nowMs leaseMs)))) ∨
    ((∀ job, scheduler.job? dagId jobId = some job → job.holdsLease owner token nowMs = true →
        ¬(0 < leaseMs ∧ leaseMs ≤ scheduler.config.maxLeaseMs)) ∧
      ∃ error, scheduler.heartbeat dagId jobId owner token nowMs leaseMs =
        (.error error, scheduler)) := by
  unfold heartbeat
  by_cases hduration : leaseMs ≤ 0 ∨ scheduler.config.maxLeaseMs < leaseMs
  · simp only [hduration, if_true]
    exact .inr ⟨fun _ _ _ hvalid => by omega, _, rfl⟩
  · simp only [hduration, if_false]
    cases hjob : scheduler.jobMut dagId jobId with
    | error error =>
        refine .inr ⟨fun job hlookup => ?_, _, rfl⟩
        rw [jobMut_eq_ok_iff.mpr hlookup] at hjob
        cases hjob
    | ok job =>
        have hlookup := jobMut_eq_ok_iff.mp hjob
        by_cases hholds : job.holdsLease owner token nowMs = true
        · refine .inl ⟨job, hlookup, hholds, by omega, by omega, ?_⟩
          simp only [hholds, Bool.not_true, Bool.false_eq_true, if_false]
          rfl
        · refine .inr ⟨fun job' hlookup' hholds' => ?_, .leaseConflict, by simp [hholds]⟩
          rw [hlookup] at hlookup'
          cases hlookup'
          exact absurd hholds' hholds

/-- A failure report either retries the caller's job or changes nothing. -/
theorem fail_cases (scheduler : Scheduler) (dagId jobId owner token : String) (nowMs : ℤ) :
    (∃ job, scheduler.job? dagId jobId = some job ∧ job.holdsLease owner token nowMs = true ∧
      scheduler.fail dagId jobId owner token nowMs =
        scheduler.retryOrDeadLetter dagId jobId nowMs) ∨
    ((∀ job, scheduler.job? dagId jobId = some job → job.holdsLease owner token nowMs = false) ∧
      ∃ error, scheduler.fail dagId jobId owner token nowMs = (.error error, scheduler)) := by
  unfold fail
  cases hassert : scheduler.assertLease dagId jobId owner token nowMs with
  | ok =>
      obtain ⟨job, hjob, hholds⟩ := assertLease_eq_ok_iff.mp hassert
      exact .inl ⟨job, hjob, hholds, rfl⟩
  | error error =>
      refine .inr ⟨fun job hjob => ?_, _, rfl⟩
      by_contra hholds
      rw [assertLease_eq_ok_iff.mpr ⟨job, hjob, by simpa using hholds⟩] at hassert
      cases hassert

/-- What the success of a parent makes of a dependent that it has `edges` edges to. -/
def released (nowMs : ℤ) (edges : ℕ) (job : JobRecord) : JobRecord :=
  if edges = 0 then job
  else if job.remainingDependencies ≤ edges ∧ job.state = .pending then
    { job with
      remainingDependencies := job.remainingDependencies - edges
      state := .ready
      availableAtMs := nowMs }
  else { job with remainingDependencies := job.remainingDependencies - edges }

theorem released_zero (nowMs : ℤ) (job : JobRecord) : released nowMs 0 job = job := if_pos rfl

/-- Edges may be consumed one at a time. -/
theorem released_succ (nowMs : ℤ) (edges : ℕ) (job : JobRecord) :
    released nowMs (edges + 1) job = released nowMs edges (released nowMs 1 job) := by
  cases edges with
  | zero => rw [released_zero]
  | succ edges =>
      by_cases hpending : job.state = .pending
      · by_cases hlast : job.remainingDependencies ≤ 1
        · have hzero : job.remainingDependencies - 1 = 0 := by omega
          have hall : job.remainingDependencies - (edges + 1 + 1) = 0 := by omega
          simp [released, hpending, hlast, hzero, hall,
            show job.remainingDependencies ≤ edges + 1 + 1 by omega]
        · by_cases hreached : job.remainingDependencies ≤ edges + 1 + 1
          · have hreached' : job.remainingDependencies - 1 ≤ edges + 1 := by omega
            simp [released, hpending, hlast, hreached, hreached']
          · have hreached' : ¬job.remainingDependencies - 1 ≤ edges + 1 := by omega
            simp [released, hpending, hlast, hreached, hreached']
            omega
      · simp [released, hpending]
        omega

/-- One iteration of the loop of `complete`. -/
def releaseOne (dagId : String) (nowMs : ℤ) (dependent : String) (job : JobRecord)
    (scheduler : Scheduler) : Scheduler :=
  let rewritten := scheduler.modifyJob dagId dependent (released nowMs 1)
  if job.remainingDependencies ≤ 1 ∧ job.state = .pending then
    rewritten.pushReady dagId job.spec nowMs
  else rewritten

@[simp] theorem dags_releaseOne (dagId : String) (nowMs : ℤ) (dependent : String)
    (job : JobRecord) (scheduler : Scheduler) :
    (releaseOne dagId nowMs dependent job scheduler).dags =
      mapJobs (atJob dagId dependent (released nowMs 1)) scheduler.dags := by
  unfold releaseOne
  split <;> simp

theorem releaseDependents_cons {scheduler : Scheduler} {dagId dependent : String} {job : JobRecord}
    (hjob : scheduler.job? dagId dependent = some job) (nowMs : ℤ) (rest : List String) :
    releaseDependents dagId nowMs (dependent :: rest) scheduler =
      releaseDependents dagId nowMs rest (releaseOne dagId nowMs dependent job scheduler) := by
  rw [releaseDependents, jobMut_eq_ok_iff.mpr hjob, releaseOne]
  dsimp only
  by_cases hlast : job.remainingDependencies ≤ 1 ∧ job.state = .pending
  · have hrecord : released nowMs 1 job = { job with
        remainingDependencies := job.remainingDependencies - 1
        state := .ready
        availableAtMs := nowMs } := by
      simp [released, hlast]
    rw [if_pos ⟨by omega, hlast.2⟩, if_pos hlast, modifyJob_congr hjob hrecord.symm]
  · have hrecord : released nowMs 1 job =
        { job with remainingDependencies := job.remainingDependencies - 1 } := by
      simp [released, hlast]
    rw [if_neg fun h => hlast ⟨by omega, h.2⟩, if_neg hlast, modifyJob_congr hjob hrecord.symm]

/-- The loop succeeds when all dependents exist, and takes as many edges off a
dependent as the list has occurrences of it. -/
theorem releaseDependents_of_job? {dagId : String} (nowMs : ℤ) {dependents : List String}
    {scheduler : Scheduler}
    (hjobs : ∀ dependent ∈ dependents, ∃ job, scheduler.job? dagId dependent = some job) :
    (releaseDependents dagId nowMs dependents scheduler).1 = .ok () ∧
      (releaseDependents dagId nowMs dependents scheduler).2.dags =
        mapJobs (fun dagId' jobId job => if dagId' = dagId then
          released nowMs (dependents.count jobId) job else job) scheduler.dags := by
  induction dependents generalizing scheduler with
  | nil => simp [releaseDependents, mapJobs, released_zero]
  | cons dependent rest ih =>
      obtain ⟨job, hjob⟩ := hjobs dependent List.mem_cons_self
      have hone := dags_releaseOne dagId nowMs dependent job scheduler
      obtain ⟨hok, hdags⟩ := ih fun other hother => exists_job?_of_dags_eq_mapJobs hone
        (hjobs other (List.mem_cons_of_mem _ hother))
      rw [releaseDependents_cons hjob]
      refine ⟨hok, ?_⟩
      rw [hdags, hone, mapJobs_mapJobs]
      refine mapJobs_congr fun dagId' jobId job' _ => ?_
      by_cases hdag : dagId' = dagId
      · by_cases hjobId : jobId = dependent
        · subst hdag hjobId
          rw [if_pos rfl, if_pos rfl, atJob_self, List.count_cons_self,
            released_succ nowMs (rest.count jobId)]
        · simp [atJob, hdag, hjobId, List.count_cons_of_ne (Ne.symm hjobId)]
      · simp [atJob, hdag]

theorem config_releaseDependents (dagId : String) (nowMs : ℤ) (dependents : List String)
    (scheduler : Scheduler) :
    (releaseDependents dagId nowMs dependents scheduler).2.config = scheduler.config := by
  induction dependents generalizing scheduler with
  | nil => rfl
  | cons dependent rest ih =>
      rw [releaseDependents]
      split
      · rfl
      · dsimp only
        split <;> rw [ih] <;> rfl

theorem sequence_releaseDependents (dagId : String) (nowMs : ℤ) (dependents : List String)
    (scheduler : Scheduler) :
    (releaseDependents dagId nowMs dependents scheduler).2.sequence = scheduler.sequence := by
  induction dependents generalizing scheduler with
  | nil => rfl
  | cons dependent rest ih =>
      rw [releaseDependents]
      split
      · rfl
      · dsimp only
        split <;> rw [ih] <;> rfl

/-- What a success makes of the job itself. -/
def succeeded (result : String) (job : JobRecord) : JobRecord :=
  { job with state := .succeeded, lease := none, result := some result }

/-- The dependents of a job, each as often as it has an edge from it. -/
def dependentsOf (scheduler : Scheduler) (dagId jobId : String) : List String :=
  match scheduler.dags.get? dagId with
  | none => []
  | some dag => listAt dag.dependents jobId

theorem dependentsOf_of_dags_eq_mapJobs {before after : Scheduler}
    {f : String → String → JobRecord → JobRecord} (h : after.dags = mapJobs f before.dags)
    (dagId jobId : String) : after.dependentsOf dagId jobId = before.dependentsOf dagId jobId := by
  unfold dependentsOf
  rw [h, mapJobs, Table.get?_mapValues]
  cases before.dags.get? dagId <;> rfl

/-- A success report either runs the release loop over the dependents, after
marking the caller's job, or changes nothing. -/
theorem complete_cases (scheduler : Scheduler) (dagId jobId owner token result : String)
    (nowMs : ℤ) :
    (∃ job, scheduler.job? dagId jobId = some job ∧ job.holdsLease owner token nowMs = true ∧
      result.utf8ByteSize ≤ maxPayloadBytes ∧
      scheduler.complete dagId jobId owner token result nowMs =
        releaseDependents dagId nowMs (scheduler.dependentsOf dagId jobId)
          (scheduler.modifyJob dagId jobId (succeeded result))) ∨
    ((∀ job, scheduler.job? dagId jobId = some job → job.holdsLease owner token nowMs = true →
        ¬result.utf8ByteSize ≤ maxPayloadBytes) ∧
      ∃ error, scheduler.complete dagId jobId owner token result nowMs =
        (.error error, scheduler)) := by
  unfold complete
  by_cases hsize : maxPayloadBytes < result.utf8ByteSize
  · simp only [hsize, if_true]
    exact .inr ⟨fun _ _ _ => by omega, _, rfl⟩
  · simp only [hsize, if_false]
    cases hassert : scheduler.assertLease dagId jobId owner token nowMs with
    | error error =>
        refine .inr ⟨fun job hjob hholds => ?_, _, rfl⟩
        rw [assertLease_eq_ok_iff.mpr ⟨job, hjob, hholds⟩] at hassert
        cases hassert
    | ok =>
        obtain ⟨job, hjob, hholds⟩ := assertLease_eq_ok_iff.mp hassert
        refine .inl ⟨job, hjob, hholds, by omega, ?_⟩
        obtain ⟨dag, hdag, hlookup⟩ := Option.bind_eq_some_iff.mp hjob
        simp only [dependentsOf, hdag, hlookup]
        rfl

/-! ## Cancellation -/

theorem dags_cancel {scheduler : Scheduler} {dagId : String} {count : ℕ}
    (h : (scheduler.cancel dagId).1 = .ok count) :
    (scheduler.cancel dagId).2.dags =
      mapJobs (fun dagId' _ job => if dagId' = dagId then cancelled job else job)
        scheduler.dags := by
  unfold cancel at h ⊢
  cases hdag : scheduler.dags.get? dagId with
  | none => simp [hdag] at h
  | some dag =>
      simp only
      unfold Table.modify mapJobs
      apply Table.mapValues_congr
      intro dagId' dag' _
      by_cases hsame : dagId' = dagId <;> simp [hsame, DagRecord.rewrite]

/-- A cancellation of an unknown graph changes nothing; of a known one it touches
neither the heap nor the sequence. -/
theorem cancel_cases (scheduler : Scheduler) (dagId : String) :
    (∃ dag, scheduler.dags.get? dagId = some dag ∧
      (scheduler.cancel dagId).1 =
        .ok (dag.jobs.countValues fun _ job => !job.isTerminal) ∧
      (scheduler.cancel dagId).2 = { scheduler with
        dags := mapJobs (fun dagId' _ job => if dagId' = dagId then cancelled job else job)
          scheduler.dags }) ∨
    (scheduler.dags.get? dagId = none ∧
      scheduler.cancel dagId = (.error .dagNotFound, scheduler)) := by
  cases hdag : scheduler.dags.get? dagId with
  | none => exact .inr ⟨rfl, by simp [cancel, hdag]⟩
  | some dag =>
      have hok : (scheduler.cancel dagId).1 =
          .ok (dag.jobs.countValues fun _ job => !job.isTerminal) := by
        simp [cancel, hdag]
      refine .inl ⟨dag, rfl, hok, ?_⟩
      rw [← dags_cancel hok]
      simp [cancel, hdag]

/-! ## The claim loop -/

@[simp] theorem withReady_self (scheduler : Scheduler) :
    scheduler.withReady scheduler.ready = scheduler := rfl

@[simp] theorem ready_withReady (scheduler : Scheduler) (ready : MinHeap ReadyKey) :
    (scheduler.withReady ready).ready = ready := rfl

@[simp] theorem dags_withReady (scheduler : Scheduler) (ready : MinHeap ReadyKey) :
    (scheduler.withReady ready).dags = scheduler.dags := rfl

@[simp] theorem job?_withReady (scheduler : Scheduler) (ready : MinHeap ReadyKey)
    (dagId jobId : String) :
    (scheduler.withReady ready).job? dagId jobId = scheduler.job? dagId jobId := rfl

/-- A heap entry that the claim loop accepts. -/
def Live (scheduler : Scheduler) (key : ReadyKey) : Prop :=
  ∃ job, scheduler.job? key.dagId key.jobId = some job ∧ job.isReady = true ∧
    job.availableAtMs = key.availableAtMs

/-- The claim loop discards entries that are due but not live, and then either
stops, or grants the first live entry if it is due. -/
theorem claimLoop_cases (owner : String) (nowMs leaseMs : ℤ) :
    ∀ (fuel : ℕ) (scheduler : Scheduler), scheduler.ready.size ≤ fuel →
      ∃ (stale : List ReadyKey) (ready : MinHeap ReadyKey),
        scheduler.ready.entries = stale ++ ready.entries ∧
        (∀ key ∈ stale, ¬scheduler.Live key) ∧
        (((∀ key ∈ ready, nowMs < key.availableAtMs) ∧
            claimLoop owner nowMs leaseMs fuel scheduler =
              (.ok none, scheduler.withReady ready)) ∨
          ∃ key job, ready.peek? = some key ∧ key.availableAtMs ≤ nowMs ∧
            scheduler.job? key.dagId key.jobId = some job ∧ job.isReady = true ∧
            job.availableAtMs = key.availableAtMs ∧
            claimLoop owner nowMs leaseMs fuel scheduler =
              let granted := (scheduler.withReady ready.pop).grant key job owner nowMs leaseMs
              (.ok (some granted.1), granted.2)) := by
  intro fuel
  induction fuel with
  | zero =>
      intro scheduler hfuel
      -- the fuel is the size of the heap, which is empty here
      refine ⟨[], scheduler.ready, rfl, by simp, .inl ⟨fun key hkey => ?_, rfl⟩⟩
      have hempty : scheduler.ready.entries = [] :=
        List.length_eq_zero_iff.mp (Nat.le_zero.mp hfuel)
      rw [MinHeap.mem_iff, hempty] at hkey
      cases hkey
  | succ fuel ih =>
      intro scheduler hfuel
      rw [claimLoop]
      cases hpeek : scheduler.ready.peek? with
      | none =>
          refine ⟨[], scheduler.ready, rfl, by simp, .inl ⟨fun key hkey => ?_, rfl⟩⟩
          exact absurd hkey (MinHeap.peek?_eq_none_iff.mp hpeek key)
      | some key =>
          simp only
          by_cases hdue : nowMs < key.availableAtMs
          · -- the first entry is not due, so that none is
            refine ⟨[], scheduler.ready, rfl, by simp,
              .inl ⟨fun other hother => ?_, by simp [hdue]⟩⟩
            exact hdue.trans_le (ReadyKey.availableAtMs_le (MinHeap.peek?_le hpeek hother))
          · have hsize := MinHeap.size_pop_of_peek?_eq_some hpeek
            have hentries := MinHeap.entries_of_peek?_eq_some hpeek
            rw [if_neg hdue]
            by_cases hlive : scheduler.Live key
            · obtain ⟨job, hjob, hready, havailable⟩ := hlive
              have hpopped : (scheduler.withReady scheduler.ready.pop).job?
                  key.dagId key.jobId = some job := hjob
              refine ⟨[], scheduler.ready, rfl, by simp, .inr ⟨key, job, hpeek, not_lt.mp hdue,
                hjob, hready, havailable, ?_⟩⟩
              simp [hpopped, hready, havailable]
            · -- a stale entry: the loop goes on with the popped heap
              obtain ⟨stale, ready, hsplit, hstale, hresult⟩ :=
                ih (scheduler.withReady scheduler.ready.pop) (by simp only [ready_withReady]; omega)
              refine ⟨key :: stale, ready,
                by rw [hentries, List.cons_append, ← hsplit, ready_withReady],
                List.forall_mem_cons.mpr ⟨hlive, hstale⟩, ?_⟩
              cases hjob : (scheduler.withReady scheduler.ready.pop).job?
                  key.dagId key.jobId with
              | none => exact hresult
              | some job =>
                  have hnot : (!job.isReady) = true ∨ job.availableAtMs ≠ key.availableAtMs := by
                    by_contra hcontra
                    simp only [not_or, Bool.not_eq_true', Bool.not_eq_false, not_not] at hcontra
                    exact hlive ⟨job, hjob, hcontra⟩
                  dsimp only
                  rw [if_pos hnot]
                  exact hresult

end Scheduler

end JobOrchestrator
