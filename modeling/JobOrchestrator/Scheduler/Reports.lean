import JobOrchestrator.Library.Commute
import JobOrchestrator.Scheduler.Entries
import JobOrchestrator.Scheduler.Tokens

/-!
# Reports of different workers commute

A report is a heartbeat, a completion or a failure.  Whether it is accepted, and
what it returns, is decided by the record of its job (`WorkerReport.Accepts`,
`WorkerReport.reply`); what it does to the records is `WorkerReport.effect`.

Two accepted reports on different jobs both find their job leased.  A leased job
has only succeeded parents, so that neither job is a parent of the other, and no
report changes the record of the other one's job.  Every other record is changed
by releases only, which add up (`released_add`).  The heap is determined by the
records and by the entries of cancelled jobs, which no report touches.
-/

namespace JobOrchestrator

open Scheduler

/-- A call of a worker about a job that it has claimed. -/
inductive WorkerReport
  | heartbeat (dagId jobId owner token : String) (leaseMs : ℤ)
  | complete (dagId jobId owner token result : String)
  | fail (dagId jobId owner token : String)

namespace WorkerReport

/-- The job that the report is about. -/
def job : WorkerReport → String × String
  | .heartbeat dagId jobId _ _ _ => (dagId, jobId)
  | .complete dagId jobId _ _ _ => (dagId, jobId)
  | .fail dagId jobId _ _ => (dagId, jobId)

/-- The call at a time. -/
def operation (nowMs : ℤ) : WorkerReport → Operation
  | .heartbeat dagId jobId owner token leaseMs => .heartbeat dagId jobId owner token nowMs leaseMs
  | .complete dagId jobId owner token result => .complete dagId jobId owner token result nowMs
  | .fail dagId jobId owner token => .fail dagId jobId owner token nowMs

/-- Makes the call; the event holds what it returns. -/
def perform (nowMs : ℤ) (scheduler : Scheduler) (report : WorkerReport) : Event × Scheduler :=
  (report.operation nowMs).perform scheduler

/-- The report is accepted in a state in which its job has this record. -/
def Accepts (config : SchedulerConfig) (nowMs : ℤ) (job : JobRecord) : WorkerReport → Prop
  | .heartbeat _ _ owner token leaseMs => job.holdsLease owner token nowMs = true ∧
      0 < leaseMs ∧ leaseMs ≤ config.maxLeaseMs
  | .complete _ _ owner token result => job.holdsLease owner token nowMs = true ∧
      result.utf8ByteSize ≤ maxPayloadBytes
  | .fail _ _ owner token => job.holdsLease owner token nowMs = true

/-- What an accepted report returns. -/
def reply (config : SchedulerConfig) (nowMs : ℤ) (job : JobRecord) : WorkerReport → Event
  | .heartbeat dagId jobId owner token leaseMs =>
      .heartbeat dagId jobId owner token nowMs leaseMs (.ok (I64.saturatingAdd nowMs leaseMs))
  | .complete dagId jobId owner token result =>
      .complete dagId jobId owner token result nowMs (.ok ())
  | .fail dagId jobId owner token =>
      .fail dagId jobId owner token nowMs (.ok (retried config nowMs jobId job).state)

/-- What an accepted report makes of a record. -/
def effect (nowMs : ℤ) (before : Scheduler) (report : WorkerReport) (dagId jobId : String)
    (job : JobRecord) : JobRecord :=
  match report with
  | .heartbeat dagId' jobId' _ _ leaseMs =>
      atJob dagId' jobId' (extended (I64.saturatingAdd nowMs leaseMs)) dagId jobId job
  | .complete dagId' jobId' _ _ result =>
      if dagId = dagId' then completedRecord nowMs result jobId'
        (before.dependentsOf dagId' jobId') jobId job else job
  | .fail dagId' jobId' _ _ =>
      atJob dagId' jobId' (retried before.config nowMs jobId') dagId jobId job

/-- The number of edges into a job that the report consumes. -/
def edgesInto (before : Scheduler) (report : WorkerReport) (dagId jobId : String) : ℕ :=
  match report with
  | .complete dagId' jobId' _ _ _ =>
      if dagId = dagId' then (before.dependentsOf dagId' jobId').count jobId else 0
  | .heartbeat _ _ _ _ _ => 0
  | .fail _ _ _ _ => 0

end WorkerReport

/-- The call has returned `Ok`. -/
def Event.isOk : Event → Bool
  | .heartbeat _ _ _ _ _ _ (.ok _) => true
  | .complete _ _ _ _ _ _ (.ok ()) => true
  | .fail _ _ _ _ _ (.ok _) => true
  | _ => false

theorem WorkerReport.Accepts.leased {config : SchedulerConfig} {job : JobRecord}
    {report : WorkerReport} {nowMs : ℤ} (h : report.Accepts config nowMs job) :
    job.state = .leased := by
  cases report with
  | heartbeat => exact state_of_holdsLease h.1
  | complete => exact state_of_holdsLease h.1
  | fail => exact state_of_holdsLease h

/-- To a job that it is not about a report only consumes edges. -/
theorem WorkerReport.effect_of_ne (nowMs : ℤ) (before : Scheduler) {report : WorkerReport}
    {dagId jobId : String} (hne : (dagId, jobId) ≠ report.job) (job : JobRecord) :
    report.effect nowMs before dagId jobId job =
      released nowMs (report.edgesInto before dagId jobId) job := by
  cases report with
  | heartbeat dagId' jobId' owner token leaseMs =>
      have hkey : ¬(dagId = dagId' ∧ jobId = jobId') := fun h => hne (Prod.ext h.1 h.2)
      rw [WorkerReport.effect, WorkerReport.edgesInto, atJob_of_ne hkey, released_zero]
  | complete dagId' jobId' owner token result =>
      unfold WorkerReport.effect WorkerReport.edgesInto
      by_cases hdag : dagId = dagId'
      · have hkey : jobId ≠ jobId' := fun h => hne (Prod.ext hdag h)
        simp only [hdag, if_true, completedRecord_of_ne _ _ _ _ hkey]
      · simp only [hdag, if_false, released_zero]
  | fail dagId' jobId' owner token =>
      have hkey : ¬(dagId = dagId' ∧ jobId = jobId') := fun h => hne (Prod.ext h.1 h.2)
      rw [WorkerReport.effect, WorkerReport.edgesInto, atJob_of_ne hkey, released_zero]

namespace Scheduler

theorem released_add (nowMs : ℤ) (first second : ℕ) (job : JobRecord) :
    released nowMs (first + second) job = released nowMs second (released nowMs first job) := by
  induction first generalizing job with
  | zero => rw [Nat.zero_add, released_zero]
  | succ first ih =>
      rw [Nat.add_right_comm, released_succ, ih, released_succ nowMs first]

variable {specs : String → Option DagSpec} {scheduler : Scheduler} {nowMs : ℤ}

theorem perform_report (report : WorkerReport) {job : JobRecord}
    (hjob : scheduler.job? report.job.1 report.job.2 = some job) (h : scheduler.Invariant specs)
    (haccepts : report.Accepts scheduler.config nowMs job) :
    (report.perform nowMs scheduler).1 = report.reply scheduler.config nowMs job ∧
      (report.perform nowMs scheduler).2.dags =
        mapJobs (report.effect nowMs scheduler) scheduler.dags := by
  cases report with
  | heartbeat dagId jobId owner token leaseMs =>
      obtain ⟨hholds, hpos, hmax⟩ := haccepts
      rcases heartbeat_cases scheduler dagId jobId owner token nowMs leaseMs with
        ⟨_, _, _, _, _, hok⟩ | ⟨hnot, _⟩
      · simp only [WorkerReport.perform, WorkerReport.operation, Operation.perform, hok]
        exact ⟨rfl, dags_modifyJob ..⟩
      · exact absurd ⟨hpos, hmax⟩ (hnot job hjob hholds)
  | complete dagId jobId owner token result =>
      obtain ⟨hholds, hsize⟩ := haccepts
      rcases complete_cases scheduler dagId jobId owner token result nowMs with
        ⟨_, _, _, _, hrelease⟩ | ⟨hnot, _⟩
      · obtain ⟨hok, hdags⟩ := dags_complete nowMs result (h.exists_dependent dagId jobId)
        simp only [WorkerReport.perform, WorkerReport.operation, Operation.perform, hrelease]
        rw [hok, hdags]
        exact ⟨rfl, rfl⟩
      · exact absurd hsize (hnot job hjob hholds)
  | fail dagId jobId owner token =>
      have hjob : scheduler.job? dagId jobId = some job := hjob
      have hholds : job.holdsLease owner token nowMs = true := haccepts
      rcases fail_cases scheduler dagId jobId owner token nowMs with
        ⟨_, _, _, hretry⟩ | ⟨hnot, _⟩
      · have hok := congrArg Prod.fst (retryOrDeadLetter_of_job? hjob nowMs)
        simp only [WorkerReport.perform, WorkerReport.operation, Operation.perform, hretry]
        exact ⟨by rw [hok]; rfl, dags_retryOrDeadLetter ⟨job, hjob⟩ nowMs⟩
      · rw [hnot job hjob] at hholds
        cases hholds

theorem exists_accepts_of_isOk {report : WorkerReport}
    (hok : (report.perform nowMs scheduler).1.isOk = true) :
    ∃ job, scheduler.job? report.job.1 report.job.2 = some job ∧
      report.Accepts scheduler.config nowMs job := by
  cases report with
  | heartbeat dagId jobId owner token leaseMs =>
      rcases heartbeat_cases scheduler dagId jobId owner token nowMs leaseMs with
        ⟨job, hjob, hholds, hpos, hmax, _⟩ | ⟨_, error, herror⟩
      · exact ⟨job, hjob, hholds, hpos, hmax⟩
      · simp only [WorkerReport.perform, WorkerReport.operation, Operation.perform, herror,
          Event.isOk, Bool.false_eq_true] at hok
  | complete dagId jobId owner token result =>
      rcases complete_cases scheduler dagId jobId owner token result nowMs with
        ⟨job, hjob, hholds, hsize, _⟩ | ⟨_, error, herror⟩
      · exact ⟨job, hjob, hholds, hsize⟩
      · simp only [WorkerReport.perform, WorkerReport.operation, Operation.perform, herror,
          Event.isOk, Bool.false_eq_true] at hok
  | fail dagId jobId owner token =>
      rcases fail_cases scheduler dagId jobId owner token nowMs with
        ⟨job, hjob, hholds, _⟩ | ⟨_, error, herror⟩
      · exact ⟨job, hjob, hholds⟩
      · simp only [WorkerReport.perform, WorkerReport.operation, Operation.perform, herror,
          Event.isOk, Bool.false_eq_true] at hok

/-- Two leased jobs are never parent and child. -/
theorem Invariant.edgesInto_eq_zero (h : scheduler.Invariant specs) {report : WorkerReport}
    {holder : JobRecord} (hholder : scheduler.job? report.job.1 report.job.2 = some holder)
    (hleased : holder.state = .leased) {dagId jobId : String} {job : JobRecord}
    (hjob : scheduler.job? dagId jobId = some job) (hjobLeased : job.state = .leased) :
    report.edgesInto scheduler dagId jobId = 0 := by
  cases report with
  | heartbeat => rfl
  | fail => rfl
  | complete dagId' jobId' owner token result =>
      by_cases hdagId : dagId = dagId'
      · subst hdagId
        rw [WorkerReport.edgesInto, if_pos rfl, List.count_eq_zero]
        intro hmem
        obtain ⟨dag, spec, hdag, _, hspec, rfl, _, hconsistent⟩ := h.exists_dag hjob
        simp only [dependentsOf, hdag] at hmem
        rw [(hconsistent.dependents jobId').mem_iff, mem_childrenOf] at hmem
        obtain ⟨edge, hedge, hpair⟩ := List.mem_map.mp hmem
        obtain ⟨hsource, htarget⟩ := Prod.mk.inj hpair
        -- the source of this edge is leased, but the target has been released
        have hparents := h.parentsSucceeded hspec hjob (by simp [hjobLeased]) (by simp [hjobLeased])
          edge hedge htarget
        have hholder : scheduler.job? spec.id jobId' = some holder := hholder
        rw [hsource] at hparents
        simp [hasSucceeded, hholder, hleased] at hparents
      · rw [WorkerReport.edgesInto, if_neg hdagId]

/-! ## The heap -/

theorem mem_ready_releaseOne (hids : OwnIds scheduler) {dagId dependent : String}
    {job : JobRecord} (hjob : scheduler.job? dagId dependent = some job) {key : ReadyKey}
    {stale : JobRecord} (hstale : scheduler.job? key.dagId key.jobId = some stale)
    (hcancelled : stale.state = .cancelled) :
    key ∈ (releaseOne dagId nowMs dependent job scheduler).ready ↔ key ∈ scheduler.ready := by
  unfold releaseOne
  split
  next hlast =>
    rw [ready_pushReady, ready_modifyJob, MinHeap.mem_push, or_iff_right]
    rintro rfl
    simp only [readyKey, hids dagId dependent job hjob, hjob, Option.some.injEq] at hstale
    rw [← hstale, hlast.2] at hcancelled
    cases hcancelled
  next => rfl

theorem mem_ready_releaseDependents (hids : OwnIds scheduler) {dagId : String}
    {dependents : List String}
    (hjobs : ∀ dependent ∈ dependents, ∃ job, scheduler.job? dagId dependent = some job)
    {key : ReadyKey} {stale : JobRecord}
    (hstale : scheduler.job? key.dagId key.jobId = some stale)
    (hcancelled : stale.state = .cancelled) :
    key ∈ (releaseDependents dagId nowMs dependents scheduler).2.ready ↔
      key ∈ scheduler.ready := by
  induction dependents generalizing scheduler stale with
  | nil => rfl
  | cons dependent rest ih =>
      -- the key is of a cancelled job also in the state that the iteration leaves
      obtain ⟨job, hjob⟩ := hjobs dependent List.mem_cons_self
      have hdags := dags_releaseOne dagId nowMs dependent job scheduler
      have hids' : OwnIds (releaseOne dagId nowMs dependent job scheduler) := by
        refine hids.rewrite hdags fun dagId' jobId' job' _ => ?_
        unfold atJob
        split <;> simp
      have hstale' : (releaseOne dagId nowMs dependent job scheduler).job? key.dagId key.jobId =
          some (atJob dagId dependent (released nowMs 1) key.dagId key.jobId stale) := by
        rw [job?_of_dags_eq_mapJobs hdags, hstale, Option.map_some]
      have hcancelled' :
          (atJob dagId dependent (released nowMs 1) key.dagId key.jobId stale).state =
            .cancelled := by
        unfold atJob
        split <;> simp [state_released, hcancelled]
      rw [releaseDependents_cons hjob, ih hids'
        (fun other hother => exists_job?_of_dags_eq_mapJobs hdags
          (hjobs other (List.mem_cons_of_mem _ hother))) hstale' hcancelled']
      exact mem_ready_releaseOne hids hjob hstale hcancelled

theorem Invariant.mem_ready_report (h : scheduler.Invariant specs) (report : WorkerReport)
    {key : ReadyKey} {stale : JobRecord}
    (hstale : scheduler.job? key.dagId key.jobId = some stale)
    (hcancelled : stale.state = .cancelled) :
    key ∈ (report.perform nowMs scheduler).2.ready ↔ key ∈ scheduler.ready := by
  cases report with
  | heartbeat dagId jobId owner token leaseMs =>
      rcases heartbeat_cases scheduler dagId jobId owner token nowMs leaseMs with
        ⟨_, _, _, _, _, hok⟩ | ⟨_, _, herror⟩
      · simp only [WorkerReport.perform, WorkerReport.operation, Operation.perform, hok,
          ready_modifyJob]
      · simp only [WorkerReport.perform, WorkerReport.operation, Operation.perform, herror]
  | complete dagId jobId owner token result =>
      rcases complete_cases scheduler dagId jobId owner token result nowMs with
        ⟨job, hjob, hholds, _, hrelease⟩ | ⟨_, _, herror⟩
      · simp only [WorkerReport.perform, WorkerReport.operation, Operation.perform, hrelease]
        have hmodified := dags_modifyJob scheduler dagId jobId (succeeded result)
        have hother : ¬(key.dagId = dagId ∧ key.jobId = jobId) := by
          rintro ⟨hdag, hjobId⟩
          rw [hdag, hjobId, hjob, Option.some.injEq] at hstale
          rw [← hstale, state_of_holdsLease hholds] at hcancelled
          cases hcancelled
        have hstale' : (scheduler.modifyJob dagId jobId (succeeded result)).job?
            key.dagId key.jobId = some stale := by
          rw [job?_of_dags_eq_mapJobs hmodified, hstale, Option.map_some, atJob_of_ne hother]
        have hids : OwnIds (scheduler.modifyJob dagId jobId (succeeded result)) := by
          refine h.ownIds.rewrite hmodified fun dagId' jobId' job' _ => ?_
          unfold atJob
          split <;> rfl
        rw [mem_ready_releaseDependents hids (fun dependent hmem =>
          exists_job?_of_dags_eq_mapJobs hmodified
            (h.exists_dependent dagId jobId dependent hmem)) hstale' hcancelled]
        rfl
      · simp only [WorkerReport.perform, WorkerReport.operation, Operation.perform, herror]
  | fail dagId jobId owner token =>
      rcases fail_cases scheduler dagId jobId owner token nowMs with
        ⟨job, hjob, hholds, hretry⟩ | ⟨_, _, herror⟩
      · simp only [WorkerReport.perform, WorkerReport.operation, Operation.perform, hretry]
        rw [retryOrDeadLetter_of_job? hjob]
        dsimp only
        split
        · rfl
        · rw [ready_pushReady, ready_modifyJob, MinHeap.mem_push, or_iff_right]
          rintro rfl
          simp only [readyKey, h.ownIds dagId jobId job hjob, hjob, Option.some.injEq] at hstale
          rw [← hstale, state_of_holdsLease hholds] at hcancelled
          cases hcancelled
      · simp only [WorkerReport.perform, WorkerReport.operation, Operation.perform, herror]

/-- The heap is determined by the records and the entries of cancelled jobs. -/
theorem HeapMatches.ready_eq {first second : Scheduler} (hfirst : HeapMatches first)
    (hsecond : HeapMatches second) (hdags : first.dags = second.dags)
    (hstale : ∀ key job, first.job? key.dagId key.jobId = some job → job.state = .cancelled →
      (key ∈ first.ready ↔ key ∈ second.ready)) :
    first.ready = second.ready := by
  have hjobs : ∀ dagId jobId, first.job? dagId jobId = second.job? dagId jobId := by
    intro dagId jobId
    rw [job?, job?, hdags]
  apply MinHeap.ext_of_perm
  rw [List.perm_ext_iff_of_nodup (hfirst.distinct.of_map _) (hsecond.distinct.of_map _)]
  intro key
  rw [← MinHeap.mem_iff, ← MinHeap.mem_iff]
  constructor
  · intro hkey
    obtain ⟨job, hjob, hcancelled | ⟨hready, heq⟩⟩ := hfirst.live key hkey
    · exact (hstale key job hjob hcancelled).mp hkey
    · rw [heq]
      exact hsecond.listed _ _ job (hjobs _ _ ▸ hjob) hready
  · intro hkey
    obtain ⟨job, hjob, hcancelled | ⟨hready, heq⟩⟩ := hsecond.live key hkey
    · exact (hstale key job (hjobs _ _ ▸ hjob) hcancelled).mpr hkey
    · rw [heq]
      exact hfirst.listed _ _ job (hjobs _ _ ▸ hjob) hready

/-! ## Commuting -/

/-- The state after a report. -/
def afterReport (nowMs : ℤ) (scheduler : Scheduler) (report : WorkerReport) : Scheduler :=
  (report.perform nowMs scheduler).2

/-- The reports are about different jobs, and each would be accepted now. -/
structure Acceptable (specs : String → Option DagSpec) (nowMs : ℤ) (scheduler : Scheduler)
    (reports : List WorkerReport) : Prop where
  invariant : scheduler.Invariant specs
  distinct : (reports.map WorkerReport.job).Nodup
  accepted : ∀ report ∈ reports, ∃ job, scheduler.job? report.job.1 report.job.2 = some job ∧
    report.Accepts scheduler.config nowMs job

theorem Invariant.afterReport (h : scheduler.Invariant specs) (nowMs : ℤ) (report : WorkerReport) :
    (scheduler.afterReport nowMs report).Invariant specs := by
  cases report with
  | heartbeat dagId jobId owner token leaseMs => exact h.heartbeat ..
  | complete dagId jobId owner token result => exact h.complete ..
  | fail dagId jobId owner token => exact h.fail ..

theorem Invariant.config_afterReport (h : scheduler.Invariant specs) (nowMs : ℤ)
    (report : WorkerReport) : (scheduler.afterReport nowMs report).config = scheduler.config :=
  h.config_perform _

theorem Invariant.sequence_afterReport (h : scheduler.Invariant specs) (report : WorkerReport) :
    (scheduler.afterReport nowMs report).sequence = scheduler.sequence := by
  rcases h.sequence_perform (report.operation nowMs) with ⟨-, hsequence⟩ | ⟨_, _, htoken, -⟩
  · exact hsequence
  · cases report <;> cases htoken

variable {reports rest : List WorkerReport} {report first second : WorkerReport}

theorem Acceptable.dags_afterReport (h : Acceptable specs nowMs scheduler reports)
    (hreport : report ∈ reports) : (scheduler.afterReport nowMs report).dags =
      mapJobs (report.effect nowMs scheduler) scheduler.dags := by
  obtain ⟨job, hjob, haccepts⟩ := h.accepted report hreport
  exact (perform_report report hjob h.invariant haccepts).2

/-- A report does what it did also after another one. -/
theorem Acceptable.effect_afterReport (h : Acceptable specs nowMs scheduler reports)
    (hfirst : first ∈ reports) (second : WorkerReport) :
    second.effect nowMs (scheduler.afterReport nowMs first) = second.effect nowMs scheduler := by
  have hdependents := dependentsOf_of_dags_eq_mapJobs (h.dags_afterReport hfirst)
  have hconfig := h.invariant.config_afterReport nowMs first
  funext dagId jobId job
  cases second with
  | heartbeat => rfl
  | complete => simp only [WorkerReport.effect, hdependents]
  | fail => simp only [WorkerReport.effect, hconfig]

theorem Acceptable.effect_of_ne (h : Acceptable specs nowMs scheduler reports)
    (hfirst : first ∈ reports) (hsecond : second ∈ reports) (hne : second.job ≠ first.job)
    (job : JobRecord) :
    first.effect nowMs scheduler second.job.1 second.job.2 job = job := by
  obtain ⟨holder, hholder, haccepts⟩ := h.accepted first hfirst
  obtain ⟨other, hother, hotherAccepts⟩ := h.accepted second hsecond
  have hkey : (second.job.1, second.job.2) ≠ first.job := hne
  rw [WorkerReport.effect_of_ne nowMs scheduler hkey,
    h.invariant.edgesInto_eq_zero hholder haccepts.leased hother hotherAccepts.leased,
    released_zero]

theorem Acceptable.job_ne (h : Acceptable specs nowMs scheduler (first :: rest))
    (hsecond : second ∈ rest) : second.job ≠ first.job := by
  have hdistinct := h.distinct
  rw [List.map_cons, List.nodup_cons] at hdistinct
  exact fun heq => hdistinct.1 (heq ▸ List.mem_map_of_mem hsecond)

/-- What the other reports find is still there after the first. -/
theorem Acceptable.take (h : Acceptable specs nowMs scheduler (first :: rest)) :
    Acceptable specs nowMs (scheduler.afterReport nowMs first) rest := by
  have hdistinct := h.distinct
  rw [List.map_cons, List.nodup_cons] at hdistinct
  refine ⟨h.invariant.afterReport nowMs first, hdistinct.2, fun report hreport => ?_⟩
  have hmem := List.mem_cons_of_mem first hreport
  have hne := h.job_ne hreport
  obtain ⟨job, hjob, haccepts⟩ := h.accepted report hmem
  refine ⟨job, ?_, h.invariant.config_afterReport nowMs first ▸ haccepts⟩
  rw [job?_of_dags_eq_mapJobs (h.dags_afterReport List.mem_cons_self), hjob, Option.map_some,
    h.effect_of_ne List.mem_cons_self hmem hne]

theorem Acceptable.perm (h : Acceptable specs nowMs scheduler reports) {other : List WorkerReport}
    (hperm : reports.Perm other) : Acceptable specs nowMs scheduler other :=
  ⟨h.invariant, (hperm.map WorkerReport.job).nodup_iff.mp h.distinct,
    fun report hreport => h.accepted report (hperm.mem_iff.mpr hreport)⟩

theorem Acceptable.cancelled_effect_iff (h : Acceptable specs nowMs scheduler reports)
    (hreport : report ∈ reports) {dagId jobId : String} {job : JobRecord}
    (hjob : scheduler.job? dagId jobId = some job) :
    (report.effect nowMs scheduler dagId jobId job).state = .cancelled ↔
      job.state = .cancelled := by
  by_cases hkey : (dagId, jobId) = report.job
  · obtain ⟨holder, hholder, haccepts⟩ := h.accepted report hreport
    have hleased := haccepts.leased
    rw [← hkey] at hholder
    obtain rfl : holder = job := Option.some_injective _ (hholder.symm.trans hjob)
    rw [hleased]
    cases report with
    | heartbeat dagId' jobId' owner token leaseMs =>
        obtain ⟨rfl, rfl⟩ := Prod.mk.inj hkey
        simp [WorkerReport.effect, extended, hleased]
    | complete dagId' jobId' owner token result =>
        obtain ⟨rfl, rfl⟩ := Prod.mk.inj hkey
        simp [WorkerReport.effect]
    | fail dagId' jobId' owner token =>
        obtain ⟨rfl, rfl⟩ := Prod.mk.inj hkey
        rw [WorkerReport.effect, atJob_self, retried]
        split <;> simp
  · rw [WorkerReport.effect_of_ne nowMs scheduler hkey, state_released]
    split
    next hpending => simp [hpending.2.2]
    next => rfl

theorem Acceptable.stale_afterReport (h : Acceptable specs nowMs scheduler reports)
    (hreport : report ∈ reports) {key : ReadyKey} {job : JobRecord}
    (hjob : (scheduler.afterReport nowMs report).job? key.dagId key.jobId = some job)
    (hcancelled : job.state = .cancelled) :
    (key ∈ (scheduler.afterReport nowMs report).ready ↔ key ∈ scheduler.ready) ∧
      ∃ old, scheduler.job? key.dagId key.jobId = some old ∧ old.state = .cancelled := by
  rw [job?_of_dags_eq_mapJobs (h.dags_afterReport hreport), Option.map_eq_some_iff] at hjob
  obtain ⟨old, hold, rfl⟩ := hjob
  have holdCancelled := (h.cancelled_effect_iff hreport hold).mp hcancelled
  exact ⟨h.invariant.mem_ready_report report hold holdCancelled, old, hold, holdCancelled⟩

theorem Acceptable.effect_comm (h : Acceptable specs nowMs scheduler (first :: second :: rest))
    (dagId jobId : String) (job : JobRecord) :
    second.effect nowMs scheduler dagId jobId (first.effect nowMs scheduler dagId jobId job) =
      first.effect nowMs scheduler dagId jobId
        (second.effect nowMs scheduler dagId jobId job) := by
  have hfirstMem : first ∈ first :: second :: rest := List.mem_cons_self
  have hsecondMem : second ∈ first :: second :: rest :=
    List.mem_cons_of_mem _ List.mem_cons_self
  have hne : second.job ≠ first.job := h.job_ne List.mem_cons_self
  by_cases hfirst : (dagId, jobId) = first.job
  · have hsame : ∀ record, second.effect nowMs scheduler dagId jobId record = record := by
      intro record
      have heffect := h.effect_of_ne hsecondMem hfirstMem hne.symm record
      rwa [← hfirst] at heffect
    rw [hsame, hsame]
  · by_cases hsecond : (dagId, jobId) = second.job
    · have hsame : ∀ record, first.effect nowMs scheduler dagId jobId record = record := by
        intro record
        have heffect := h.effect_of_ne hfirstMem hsecondMem hne record
        rwa [← hsecond] at heffect
      rw [hsame, hsame]
    · -- a third job: both reports consume edges into it
      have heffect := WorkerReport.effect_of_ne nowMs scheduler hfirst
      have heffect' := WorkerReport.effect_of_ne nowMs scheduler hsecond
      rw [heffect, heffect', heffect, heffect', ← released_add, ← released_add, Nat.add_comm]

theorem eq_of_fields {first second : Scheduler} (hconfig : first.config = second.config)
    (hdags : first.dags = second.dags) (hready : first.ready = second.ready)
    (hsequence : first.sequence = second.sequence) : first = second := by
  cases first
  cases second
  simp only at hconfig hdags hready hsequence
  rw [hconfig, hdags, hready, hsequence]

/-- Two reports about different jobs may be made in either order. -/
theorem Acceptable.exchange
    (h : Acceptable specs nowMs scheduler (first :: second :: rest)) :
    (scheduler.afterReport nowMs first).afterReport nowMs second =
      (scheduler.afterReport nowMs second).afterReport nowMs first := by
  have hswapped : Acceptable specs nowMs scheduler (second :: first :: rest) :=
    h.perm (List.Perm.swap second first rest)
  have hfirst := h.invariant.afterReport nowMs first
  have hsecond := h.invariant.afterReport nowMs second
  have hdagsFirst := h.dags_afterReport List.mem_cons_self
  have hdagsSecond := hswapped.dags_afterReport List.mem_cons_self
  have hdags : ((scheduler.afterReport nowMs first).afterReport nowMs second).dags =
      ((scheduler.afterReport nowMs second).afterReport nowMs first).dags := by
    rw [h.take.dags_afterReport List.mem_cons_self,
      hswapped.take.dags_afterReport List.mem_cons_self,
      h.effect_afterReport List.mem_cons_self, hswapped.effect_afterReport List.mem_cons_self,
      hdagsFirst, hdagsSecond, mapJobs_mapJobs, mapJobs_mapJobs]
    exact mapJobs_congr fun dagId jobId job _ => h.effect_comm dagId jobId job
  refine eq_of_fields ?_ hdags ?_ ?_
  · rw [hfirst.config_afterReport, hsecond.config_afterReport, h.invariant.config_afterReport,
      h.invariant.config_afterReport]
  · -- the records fix the live entries, and neither report touches the stale ones
    refine (hfirst.afterReport nowMs second).heap.ready_eq
      (hsecond.afterReport nowMs first).heap hdags ?_
    intro key job hjob hcancelled
    obtain ⟨hmem, middle, hmiddle, hmiddleCancelled⟩ :=
      h.take.stale_afterReport List.mem_cons_self hjob hcancelled
    obtain ⟨hmem', -⟩ := h.stale_afterReport List.mem_cons_self hmiddle hmiddleCancelled
    rw [job?, hdags] at hjob
    obtain ⟨hswap, middle, hmiddle, hmiddleCancelled⟩ :=
      hswapped.take.stale_afterReport List.mem_cons_self hjob hcancelled
    obtain ⟨hswap', -⟩ := hswapped.stale_afterReport List.mem_cons_self hmiddle hmiddleCancelled
    exact (hmem.trans hmem').trans (hswap.trans hswap').symm
  · rw [hfirst.sequence_afterReport, hsecond.sequence_afterReport,
      h.invariant.sequence_afterReport, h.invariant.sequence_afterReport]

/-- Accepted reports about different jobs are independent of each other. -/
theorem independent_reports (specs : String → Option DagSpec) (nowMs : ℤ) :
    Independent (afterReport nowMs) (Acceptable specs nowMs) where
  perm h hperm := h.perm hperm
  take h := h.take
  exchange h := h.exchange

/-! ## The last parent of a job -/

/-- The number of edges into a job that reports consume. -/
def edgesOfAll (scheduler : Scheduler) (reports : List WorkerReport) (dagId jobId : String) : ℕ :=
  (reports.map fun report => report.edgesInto scheduler dagId jobId).sum

theorem Acceptable.edgesOfAll_afterReport (h : Acceptable specs nowMs scheduler reports)
    (hfirst : first ∈ reports) (others : List WorkerReport) (dagId jobId : String) :
    (scheduler.afterReport nowMs first).edgesOfAll others dagId jobId =
      scheduler.edgesOfAll others dagId jobId := by
  have hdependents := dependentsOf_of_dags_eq_mapJobs (h.dags_afterReport hfirst)
  have hsame : ∀ report : WorkerReport,
      report.edgesInto (scheduler.afterReport nowMs first) dagId jobId =
        report.edgesInto scheduler dagId jobId := by
    intro report
    cases report with
    | heartbeat => rfl
    | complete => simp only [WorkerReport.edgesInto, hdependents]
    | fail => rfl
  rw [edgesOfAll, edgesOfAll, List.map_congr_left fun report _ => hsame report]

theorem Acceptable.job?_foldl {reports : List WorkerReport} {scheduler : Scheduler}
    (h : Acceptable specs nowMs scheduler reports) {dagId jobId : String} {job : JobRecord}
    (hjob : scheduler.job? dagId jobId = some job)
    (hother : (dagId, jobId) ∉ reports.map WorkerReport.job) :
    (reports.foldl (Scheduler.afterReport nowMs) scheduler).job? dagId jobId =
      some (released nowMs (scheduler.edgesOfAll reports dagId jobId) job) := by
  induction reports generalizing scheduler job with
  | nil => exact hjob.trans (by rw [edgesOfAll, List.map_nil, List.sum_nil, released_zero])
  | cons report rest ih =>
      rw [List.map_cons, List.mem_cons, not_or] at hother
      have hnext : (scheduler.afterReport nowMs report).job? dagId jobId =
          some (released nowMs (report.edgesInto scheduler dagId jobId) job) := by
        rw [job?_of_dags_eq_mapJobs (h.dags_afterReport List.mem_cons_self), hjob,
          Option.map_some, WorkerReport.effect_of_ne nowMs scheduler hother.1]
      rw [List.foldl_cons, ih h.take hnext hother.2,
        h.edgesOfAll_afterReport List.mem_cons_self, ← released_add]
      rfl

theorem hasSucceeded_of_job? {dagId jobId : String} {job : JobRecord}
    (hjob : scheduler.job? dagId jobId = some job) (hstate : job.state = .succeeded) :
    scheduler.hasSucceeded dagId jobId = true := by
  simp [hasSucceeded, hjob, hstate]

theorem Acceptable.hasSucceeded_foldl {reports : List WorkerReport} {scheduler : Scheduler}
    (h : Acceptable specs nowMs scheduler reports) {dagId jobId : String}
    (hsucceeded : scheduler.hasSucceeded dagId jobId = true)
    (hother : (dagId, jobId) ∉ reports.map WorkerReport.job) :
    (reports.foldl (Scheduler.afterReport nowMs) scheduler).hasSucceeded dagId jobId = true := by
  unfold hasSucceeded at hsucceeded
  cases hjob : scheduler.job? dagId jobId with
  | none => simp [hjob] at hsucceeded
  | some job =>
      have hstate : job.state = .succeeded := by simpa [hjob] using hsucceeded
      refine hasSucceeded_of_job? (h.job?_foldl hjob hother) ?_
      simp [state_released, hstate]

theorem Acceptable.hasSucceeded_of_complete {reports : List WorkerReport} {scheduler : Scheduler}
    (h : Acceptable specs nowMs scheduler reports) {dagId jobId owner token result : String}
    (hmem : .complete dagId jobId owner token result ∈ reports) :
    (reports.foldl (Scheduler.afterReport nowMs) scheduler).hasSucceeded dagId jobId = true := by
  induction reports generalizing scheduler with
  | nil => cases hmem
  | cons report rest ih =>
      rw [List.foldl_cons]
      rcases List.mem_cons.mp hmem with rfl | hrest
      · -- it succeeds now, and the rest is about other jobs
        obtain ⟨job, hjob, -⟩ := h.accepted _ List.mem_cons_self
        have hjob : scheduler.job? dagId jobId = some job := hjob
        have hdistinct := h.distinct
        rw [List.map_cons, List.nodup_cons] at hdistinct
        refine h.take.hasSucceeded_foldl (hasSucceeded_of_job?
          (job?_of_dags_eq_mapJobs (h.dags_afterReport List.mem_cons_self) dagId jobId |>.trans
            (congrArg _ hjob)) ?_) hdistinct.1
        simp [WorkerReport.effect]
      · exact ih h.take hrest

theorem Acceptable.sublist (h : Acceptable specs nowMs scheduler reports)
    {fewer : List WorkerReport} (hsub : fewer.Sublist reports) :
    Acceptable specs nowMs scheduler fewer :=
  ⟨h.invariant, h.distinct.sublist (hsub.map WorkerReport.job),
    fun report hreport => h.accepted report (hsub.subset hreport)⟩

theorem Acceptable.invariant_foldl (h : Acceptable specs nowMs scheduler reports) :
    (reports.foldl (Scheduler.afterReport nowMs) scheduler).Invariant specs := by
  have hpending : Acceptable specs nowMs scheduler (reports ++ []) := by rwa [List.append_nil]
  exact ((independent_reports specs nowMs).pending_foldl hpending).invariant

/-- The state after the first reports of a list. -/
def afterReports (nowMs : ℤ) (scheduler : Scheduler) (reports : List WorkerReport) (count : ℕ) :
    Scheduler :=
  (reports.take count).foldl (Scheduler.afterReport nowMs) scheduler

/-- One of the reports releases the job: up to it the job is pending and has no
heap entry, from there on it is ready since `nowMs` and has exactly one. -/
def ReleasedOnce (nowMs : ℤ) (scheduler : Scheduler) (reports : List WorkerReport)
    (dagId child : String) : Prop :=
  ∃ last < reports.length,
    (∀ count ≤ last, ∃ record,
      (scheduler.afterReports nowMs reports count).job? dagId child = some record ∧
      record.state = .pending ∧
      (scheduler.afterReports nowMs reports count).entriesOf dagId child = []) ∧
    ∀ count > last, ∃ record,
      (scheduler.afterReports nowMs reports count).job? dagId child = some record ∧
      record.state = .ready ∧ record.availableAtMs = nowMs ∧
      (scheduler.afterReports nowMs reports count).entriesOf dagId child =
        [⟨nowMs, 100 - record.spec.priority, dagId, child⟩]

theorem Acceptable.notMem_of_not_leased (h : Acceptable specs nowMs scheduler reports)
    {dagId jobId : String} {job : JobRecord} (hjob : scheduler.job? dagId jobId = some job)
    (hstate : job.state ≠ .leased) : (dagId, jobId) ∉ reports.map WorkerReport.job := by
  intro hmem
  obtain ⟨report, hreport, hkey⟩ := List.mem_map.mp hmem
  obtain ⟨holder, hholder, haccepts⟩ := h.accepted report hreport
  rw [hkey, hjob] at hholder
  cases hholder
  exact hstate haccepts.leased

/-- Completing all parents that have not succeeded consumes all open edges. -/
theorem Acceptable.remaining_le (h : Acceptable specs nowMs scheduler reports) {dagId : String}
    {spec : DagSpec} (hspec : specs dagId = some spec) {child : String} {job : JobRecord}
    (hjob : scheduler.job? dagId child = some job) (hpending : job.state = .pending)
    (hparents : ∀ edge ∈ spec.dependencies, edge.toId = child →
      scheduler.hasSucceeded dagId edge.fromId = true ∨
        ∃ owner token result, .complete dagId edge.fromId owner token result ∈ reports) :
    job.remainingDependencies ≤ scheduler.edgesOfAll reports dagId child := by
  have hother := h.notMem_of_not_leased hjob (by simp [hpending])
  have hfinal := h.job?_foldl hjob hother
  have hsucceeded : (reports.foldl (Scheduler.afterReport nowMs) scheduler).ParentsSucceeded
      spec child := by
    intro edge hedge htarget
    obtain ⟨_, spec', _, _, hspec', hid, _⟩ := h.invariant.exists_dag hjob
    obtain rfl : spec = spec' := Option.some_injective _ (hspec.symm.trans hspec')
    rw [hid]
    rcases hparents edge hedge htarget with hdone | ⟨owner, token, result, hmem⟩
    · refine h.hasSucceeded_foldl hdone ?_
      unfold hasSucceeded at hdone
      cases hparent : scheduler.job? dagId edge.fromId with
      | none => simp [hparent] at hdone
      | some parent =>
          have hstate : parent.state = .succeeded := by simpa [hparent] using hdone
          exact h.notMem_of_not_leased hparent (by simp [hstate])
    · exact h.hasSucceeded_of_complete hmem
  obtain ⟨hremaining, -⟩ := h.invariant_foldl.accounted hspec hfinal
  rw [openDependencies_eq_zero_iff.mpr hsucceeded, remaining_released] at hremaining
  omega

theorem edgesOfAll_take_mono (scheduler : Scheduler) (reports : List WorkerReport)
    (dagId jobId : String) {fewer more : ℕ} (hle : fewer ≤ more) :
    scheduler.edgesOfAll (reports.take fewer) dagId jobId ≤
      scheduler.edgesOfAll (reports.take more) dagId jobId := by
  have hsub := (List.take_sublist_take_left hle (l := reports)).map fun report =>
    report.edgesInto scheduler dagId jobId
  exact hsub.sum_le_sum fun _ _ => Nat.zero_le _

/-- The parents of a pending job release it once, in whatever order they are completed. -/
theorem Acceptable.releasedOnce (h : Acceptable specs nowMs scheduler reports) {dagId : String}
    {spec : DagSpec} (hspec : specs dagId = some spec) {child : String} {job : JobRecord}
    (hjob : scheduler.job? dagId child = some job) (hpending : job.state = .pending)
    (hparents : ∀ edge ∈ spec.dependencies, edge.toId = child →
      scheduler.hasSucceeded dagId edge.fromId = true ∨
        ∃ owner token result, .complete dagId edge.fromId owner token result ∈ reports) :
    ReleasedOnce nowMs scheduler reports dagId child := by
  let edges : ℕ → ℕ := fun count => scheduler.edgesOfAll (reports.take count) dagId child
  have hall : job.remainingDependencies ≤ edges reports.length := by
    simpa [edges] using h.remaining_le hspec hjob hpending hparents
  have hexists : ∃ count, job.remainingDependencies ≤ edges count := ⟨_, hall⟩
  have hpos : 0 < job.remainingDependencies :=
    ((h.invariant.accounted hspec hjob).2 (by simp [hpending])).mp hpending
  have hnone : edges 0 = 0 := rfl
  -- the job is released at the first number of reports that consume all its open edges
  have hfirst := Nat.find_spec hexists
  have hle := Nat.find_min' hexists hall
  have hne : Nat.find hexists ≠ 0 := by
    intro hzero
    rw [hzero, hnone] at hfirst
    omega
  have hstate : ∀ count, (scheduler.afterReports nowMs reports count).job? dagId child =
      some (released nowMs (edges count) job) := by
    intro count
    have hsub := h.sublist (List.take_sublist count reports)
    exact hsub.job?_foldl hjob (hsub.notMem_of_not_leased hjob (by simp [hpending]))
  have hinvariant : ∀ count, (scheduler.afterReports nowMs reports count).Invariant specs :=
    fun count => (h.sublist (List.take_sublist count reports)).invariant_foldl
  refine ⟨Nat.find hexists - 1, by omega, fun count hcount => ?_, fun count hcount => ?_⟩
  · have hearly : ¬job.remainingDependencies ≤ edges count :=
      Nat.find_min hexists (by omega)
    have hstill : (released nowMs (edges count) job).state = .pending := by
      rw [state_released, if_neg fun hcase => hearly hcase.2.1, hpending]
    refine ⟨_, hstate count, hstill, ?_⟩
    apply (hinvariant count).heap.entriesOf_of_offHeap (hstate count)
    simp [OffHeap, JobRecord.isReady, hstill]
  · have hlate : job.remainingDependencies ≤ edges count :=
      hfirst.trans (edgesOfAll_take_mono scheduler reports dagId child (by omega))
    have hreleased : released nowMs (edges count) job = { job with
        remainingDependencies := job.remainingDependencies - edges count
        state := .ready
        availableAtMs := nowMs } := by
      rw [released, if_neg (by omega), if_pos ⟨hlate, hpending⟩]
    have hready : (released nowMs (edges count) job).isReady = true := by
      rw [hreleased]
      simp [JobRecord.isReady]
    obtain ⟨hvalid, hid⟩ := (hinvariant count).valid_spec (hstate count)
    refine ⟨_, hstate count, by rw [hreleased], by rw [hreleased], ?_⟩
    rw [(hinvariant count).heap.entriesOf_of_isReady (hinvariant count).ownIds (hstate count)
      hready, readyKey_eq hvalid, hid, hreleased]

theorem Acceptable.reply_afterReport (h : Acceptable specs nowMs scheduler (first :: rest))
    (hsecond : second ∈ rest) :
    (second.perform nowMs (scheduler.afterReport nowMs first)).1 =
      (second.perform nowMs scheduler).1 := by
  have hmem := List.mem_cons_of_mem first hsecond
  obtain ⟨job, hjob, haccepts⟩ := h.accepted second hmem
  obtain ⟨later, hlater, hlaterAccepts⟩ := h.take.accepted second hsecond
  have hne := h.job_ne hsecond
  have hsame : later = job := by
    rw [job?_of_dags_eq_mapJobs (h.dags_afterReport List.mem_cons_self), hjob, Option.map_some,
      h.effect_of_ne List.mem_cons_self hmem hne] at hlater
    exact (Option.some_injective _ hlater).symm
  rw [(perform_report second hlater h.take.invariant hlaterAccepts).1,
    (perform_report second hjob h.invariant haccepts).1, hsame,
    h.invariant.config_afterReport]

theorem Acceptable.reply_foldl {before : List WorkerReport} {scheduler : Scheduler}
    (h : Acceptable specs nowMs scheduler (before ++ report :: rest)) :
    (report.perform nowMs (before.foldl (Scheduler.afterReport nowMs) scheduler)).1 =
      (report.perform nowMs scheduler).1 := by
  induction before generalizing scheduler with
  | nil => rfl
  | cons first before ih =>
      have hmem : report ∈ before ++ report :: rest :=
        List.mem_append_right _ List.mem_cons_self
      rw [List.foldl_cons, ih h.take]
      exact h.reply_afterReport hmem

end Scheduler

/-- In every reachable state, two reports about different jobs that would both
succeed at a time may be made in either order: they return the same and lead to
the same state.  In particular the parents of a pending job may be completed in
any order: each completion returns what it would return at once, the final state
is the same, and the job is released exactly once, ready since that time. -/
theorem reports_commute {config : SchedulerConfig} {history : List Event} {scheduler : Scheduler}
    (hrun : Run config history scheduler) (nowMs : ℤ) :
    (∀ first second : WorkerReport, first.job ≠ second.job →
      (first.perform nowMs scheduler).1.isOk = true →
      (second.perform nowMs scheduler).1.isOk = true →
      (second.perform nowMs (first.perform nowMs scheduler).2).1 =
        (second.perform nowMs scheduler).1 ∧
      (first.perform nowMs (second.perform nowMs scheduler).2).1 =
        (first.perform nowMs scheduler).1 ∧
      (second.perform nowMs (first.perform nowMs scheduler).2).2 =
        (first.perform nowMs (second.perform nowMs scheduler).2).2) ∧
    ∀ dagId spec child job, admittedSpec history dagId = some spec →
      scheduler.job? dagId child = some job → job.state = .pending →
      ∀ reports : List WorkerReport, (reports.map WorkerReport.job).Nodup →
      (∀ report ∈ reports, (report.perform nowMs scheduler).1.isOk = true) →
      (∀ edge ∈ spec.dependencies, edge.toId = child →
        scheduler.hasSucceeded dagId edge.fromId = true ∨
          ∃ owner token result, .complete dagId edge.fromId owner token result ∈ reports) →
      ∀ other, reports.Perm other →
        ReleasedOnce nowMs scheduler other dagId child ∧
        (∀ before report after, other = before ++ report :: after →
          (report.perform nowMs (before.foldl (Scheduler.afterReport nowMs) scheduler)).1 =
            (report.perform nowMs scheduler).1) ∧
        other.foldl (Scheduler.afterReport nowMs) scheduler =
          reports.foldl (Scheduler.afterReport nowMs) scheduler := by
  have h := run_invariant hrun
  have hacceptable : ∀ reports : List WorkerReport, (reports.map WorkerReport.job).Nodup →
      (∀ report ∈ reports, (report.perform nowMs scheduler).1.isOk = true) →
      Acceptable (admittedSpec history) nowMs scheduler reports :=
    fun reports hdistinct hok =>
      ⟨h, hdistinct, fun report hreport => exists_accepts_of_isOk (hok report hreport)⟩
  constructor
  · intro first second hne hfirst hsecond
    have hpair : Acceptable (admittedSpec history) nowMs scheduler [first, second] := by
      refine hacceptable _ (by simpa using hne) fun report hreport => ?_
      rcases List.mem_pair.mp hreport with rfl | rfl
      · exact hfirst
      · exact hsecond
    have hswapped := hpair.perm (List.Perm.swap second first [])
    exact ⟨hpair.reply_afterReport List.mem_cons_self,
      hswapped.reply_afterReport List.mem_cons_self, hpair.exchange⟩
  · intro dagId spec child job hspec hjob hpending reports hdistinct hok hparents other hperm
    have hreports := hacceptable reports hdistinct hok
    have hother := hreports.perm hperm
    refine ⟨hother.releasedOnce hspec hjob hpending fun edge hedge htarget => ?_, ?_, ?_⟩
    · refine (hparents edge hedge htarget).imp_right ?_
      rintro ⟨owner, token, result, hmem⟩
      exact ⟨owner, token, result, hperm.mem_iff.mp hmem⟩
    · rintro before report after rfl
      exact hother.reply_foldl
    · exact ((independent_reports (admittedSpec history) nowMs).foldl_perm hreports hperm).symm

/-- The two sides of the diamond, both claimed. -/
def joinRun : List Event × Scheduler :=
  let submitted := (Operation.submit diamondSpec 0).perform (Scheduler.new .default)
  let top := (Operation.claim "w" 0 1000).perform submitted.2
  let done := (Operation.complete "diamond" "top" "w" "lease-diamond-top-1" "" 0).perform top.2
  let left := (Operation.claim "w" 0 1000).perform done.2
  let right := (Operation.claim "w" 0 1000).perform left.2
  ([right.1, left.1, done.1, top.1, submitted.1], right.2)

theorem run_joinRun : Run .default joinRun.1 joinRun.2 :=
  Run.step (.claim "w" 0 1000) (Run.step (.claim "w" 0 1000)
    (Run.step (.complete "diamond" "top" "w" "lease-diamond-top-1" "" 0)
      (Run.step (.claim "w" 0 1000) (Run.step (.submit diamondSpec 0) Run.new))))

/-- Completing the right side first releases the bottom of the diamond as well. -/
theorem reports_commute_join :
    ReleasedOnce 1 joinRun.2 [.complete "diamond" "right" "w" "lease-diamond-right-3" "",
      .complete "diamond" "left" "w" "lease-diamond-left-2" ""] "diamond" "bottom" := by
  have hjob : joinRun.2.job? "diamond" "bottom" =
      some ⟨⟨"bottom", .uppercase, "", 1, 0⟩, .pending, 0, 0, 3, none, none⟩ := by decide
  refine ((reports_commute run_joinRun 1).2 "diamond" diamondSpec "bottom" _ (by rfl) hjob rfl
    [.complete "diamond" "left" "w" "lease-diamond-left-2" "",
      .complete "diamond" "right" "w" "lease-diamond-right-3" ""] (by decide) ?_ ?_ _
    (List.Perm.swap ..)).1
  · intro report hreport
    rcases List.mem_pair.mp hreport with rfl | rfl <;> decide
  · intro edge hedge htarget
    simp only [diamondSpec, List.mem_cons, List.not_mem_nil, or_false] at hedge
    rcases hedge with rfl | rfl | rfl | rfl | rfl
    · exact absurd htarget (by decide)
    · exact absurd htarget (by decide)
    · exact .inr ⟨_, _, _, List.mem_cons_self⟩
    · exact .inr ⟨_, _, _, List.mem_cons_of_mem _ List.mem_cons_self⟩
    · exact .inr ⟨_, _, _, List.mem_cons_self⟩

end JobOrchestrator
