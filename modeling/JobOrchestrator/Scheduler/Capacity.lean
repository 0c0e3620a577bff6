import JobOrchestrator.Scheduler.Laws
import JobOrchestrator.Scheduler.Settling

/-!
# The ready limit

`submit` compares the size of the heap with `maxReadyJobs`, where the limit is
about the jobs that are ready or waiting for a retry.  The two differ by the
entries that cancelled jobs leave behind (`size_ready`), which is when a
submission is rejected without need (`overload_justified_iff`).  No other
operation looks at the limit.  It is a limit of admission: what releases, failures
and expired leases make ready comes on top of it (`ready_limit`).
-/

namespace JobOrchestrator

open Scheduler

namespace Scheduler

/-- The number of jobs that are ready or waiting for a retry. -/
def readyJobs (scheduler : Scheduler) : ℕ :=
  (scheduler.jobsWhere fun _ _ job => job.isReady).length

/-- The entry belongs to a cancelled job. -/
def IsStale (scheduler : Scheduler) (key : ReadyKey) : Bool :=
  (scheduler.job? key.dagId key.jobId).any fun job => job.state = .cancelled

/-- The number of heap entries that cancelled jobs have left behind. -/
def staleEntries (scheduler : Scheduler) : ℕ :=
  scheduler.ready.entries.countP scheduler.IsStale

/-- The heap holds one entry for every ready job, and the stale ones. -/
theorem size_ready {scheduler : Scheduler} (h : HeapMatches scheduler) (hids : OwnIds scheduler) :
    scheduler.ready.size = scheduler.readyJobs + scheduler.staleEntries := by
  have hperm : ((scheduler.ready.entries.filter fun key => !scheduler.IsStale key).map
      fun key => (key.dagId, key.jobId)).Perm
        (scheduler.jobsWhere fun _ _ job => job.isReady) := by
    have hnodup := ((List.filter_sublist (l := scheduler.ready.entries)
      (p := fun key => !scheduler.IsStale key)).map
        fun key => (key.dagId, key.jobId)).nodup h.distinct
    rw [List.perm_ext_iff_of_nodup hnodup (nodup_jobsWhere ..)]
    intro pair
    obtain ⟨dagId, jobId⟩ := pair
    rw [mem_jobsWhere, List.mem_map]
    constructor
    · intro hmem
      obtain ⟨key, hkey, hpair⟩ := hmem
      obtain ⟨hmem, hstale⟩ := List.mem_filter.mp hkey
      obtain ⟨rfl, rfl⟩ := Prod.mk.inj hpair
      obtain ⟨job, hjob, hcancelled | ⟨hready, _⟩⟩ := h.live key hmem
      · simp [IsStale, hjob, hcancelled] at hstale
      · exact ⟨job, hjob, hready⟩
    · intro hmem
      obtain ⟨job, hjob, hready⟩ := hmem
      have hid := hids dagId jobId job hjob
      refine ⟨readyKey dagId job.spec job.availableAtMs, List.mem_filter.mpr
        ⟨h.listed dagId jobId job hjob hready, ?_⟩, by rw [readyKey, hid]⟩
      have hstate : job.state ≠ .cancelled := fun hcancelled => by
        simp [JobRecord.isReady, hcancelled] at hready
      simp [IsStale, readyKey, hid, hjob, hstate]
  have hlength := hperm.length_eq
  rw [List.length_map, ← List.countP_eq_length_filter] at hlength
  have hsplit : scheduler.ready.entries.length = scheduler.ready.entries.countP scheduler.IsStale +
      scheduler.ready.entries.countP fun key => !scheduler.IsStale key := by
    simpa using List.length_eq_countP_add_countP (l := scheduler.ready.entries) scheduler.IsStale
  unfold MinHeap.size readyJobs staleEntries
  omega

end Scheduler

/-! ## Admission -/

/-- The number of jobs of a spec without incoming edges. -/
def DagSpec.rootCount (spec : DagSpec) : ℕ :=
  spec.jobs.countP fun job => spec.inDegree job.id = 0

/-- The count of `submit` is the number of jobs without incoming edges. -/
theorem countValues_countEdges {spec : DagSpec} (hnodup : spec.jobIds.Nodup) :
    ((countEdges spec.dependencies (zeroCounts spec.jobs) .empty).1.countValues
      fun _ count => count = 0) = spec.rootCount := by
  have hsub := (List.filter_sublist (l := spec.jobs)
    (p := fun job => decide (spec.inDegree job.id = 0))).map JobSpec.id
  rw [Table.countValues_eq_length (hsub.nodup hnodup)]
  · rw [List.length_map, ← List.countP_eq_length_filter]
    rfl
  · intro jobId
    rw [List.mem_map]
    constructor
    · intro hmem
      obtain ⟨job, hjob, rfl⟩ := hmem
      obtain ⟨hjob, hzero⟩ := List.mem_filter.mp hjob
      exact ⟨_, counts_get? hjob, hzero⟩
    · intro hcount
      obtain ⟨count, hcount, hzero⟩ := hcount
      have hkey : jobId ∈ spec.jobs.map JobSpec.id := by
        by_contra hnot
        rw [countEdges_get?, zeroCounts_get?, if_neg hnot] at hcount
        cases hcount
      obtain ⟨job, hjob, rfl⟩ := List.mem_map.mp hkey
      rw [counts_get? hjob, Option.some.injEq] at hcount
      subst hcount
      exact ⟨job, List.mem_filter.mpr ⟨hjob, hzero⟩, rfl⟩

/-- When a valid spec with a free identifier is rejected as too much. -/
theorem submit_overloaded_iff {scheduler : Scheduler} {spec : DagSpec} {order : List String}
    (hvalid : spec.validate = .ok order) (hfree : scheduler.dags.contains spec.id = false)
    (nowMs : ℤ) : (scheduler.submit spec nowMs).1 = .error .overloaded ↔
      scheduler.config.maxDags ≤ scheduler.dags.size ∨
        scheduler.config.maxReadyJobs < scheduler.ready.size + spec.rootCount := by
  have hcount := countValues_countEdges (accepted_of_validate hvalid).jobIds_nodup
  unfold submit
  simp only [hvalid, hfree, Bool.false_eq_true, if_false, hcount]
  by_cases hdags : scheduler.config.maxDags ≤ scheduler.dags.size
  · simp [hdags]
  · by_cases hready : scheduler.config.maxReadyJobs < scheduler.ready.size + spec.rootCount
    · simp [hdags, hready]
    · simp [hdags, hready]

/-- The submission is not rejected as too much, or one of the limits leaves no
room for it beside the graphs and the ready jobs that are there. -/
def OverloadJustified (scheduler : Scheduler) (spec : DagSpec) (nowMs : ℤ) : Prop :=
  (scheduler.submit spec nowMs).1 = .error .overloaded →
    scheduler.config.maxDags ≤ scheduler.dags.size ∨
      scheduler.config.maxReadyJobs < scheduler.readyJobs + spec.rootCount

/-- In a reachable state a rejection for lack of room is justified exactly when a
limit leaves no room, or when the stale entries leave room as well. -/
theorem overload_justified_iff {config : SchedulerConfig} {history : List Event}
    {scheduler : Scheduler} (hrun : Run config history scheduler) {spec : DagSpec}
    {order : List String} (hvalid : spec.validate = .ok order)
    (hfree : scheduler.dags.contains spec.id = false) (nowMs : ℤ) :
    OverloadJustified scheduler spec nowMs ↔
      config.maxDags ≤ scheduler.dags.size ∨
        config.maxReadyJobs < scheduler.readyJobs + spec.rootCount ∨
          scheduler.readyJobs + scheduler.staleEntries + spec.rootCount ≤ config.maxReadyJobs := by
  have h := run_invariant hrun
  unfold OverloadJustified
  rw [submit_overloaded_iff hvalid hfree, size_ready h.heap h.ownIds, run_config hrun]
  constructor
  · intro hjustified
    by_contra hnot
    simp only [not_or, not_le, not_lt] at hnot
    have := hjustified (.inr hnot.2.2)
    omega
  · intro hroom hrejected
    omega

/-- A scheduler that has room for one ready job, and had a graph that is cancelled. -/
def crampedConfig : SchedulerConfig := { SchedulerConfig.default with maxReadyJobs := 1 }

/-- A graph of one job. -/
def singleJob (dagId : String) : DagSpec := ⟨dagId, [⟨"j", .uppercase, "", 3, 0⟩], []⟩

def crampedRun : List Event × Scheduler :=
  let submitted := (Operation.submit (singleJob "a") 0).perform (Scheduler.new crampedConfig)
  let cancelled := (Operation.cancel "a").perform submitted.2
  ([cancelled.1, submitted.1], cancelled.2)

theorem run_crampedRun : Run crampedConfig crampedRun.1 crampedRun.2 :=
  Run.step (.cancel "a") (Run.step (.submit (singleJob "a") 0) Run.new)

/-- The second graph finds one graph admitted and no ready job, and is rejected. -/
theorem cancelled_job_blocks_admission :
    Run crampedConfig crampedRun.1 crampedRun.2 ∧ (singleJob "b").validate = .ok ["j"] ∧
    crampedRun.2.dags.contains "b" = false ∧
    (crampedRun.2.submit (singleJob "b") 1).1 = .error .overloaded ∧
    crampedRun.2.dags.size = 1 ∧ crampedRun.2.readyJobs = 0 ∧
    ¬OverloadJustified crampedRun.2 (singleJob "b") 1 := by
  have hrejected : (crampedRun.2.submit (singleJob "b") 1).1 = .error .overloaded := by decide
  refine ⟨run_crampedRun, by decide, by decide, hrejected, by decide, by decide, fun h => ?_⟩
  have hlimits := h hrejected
  revert hlimits
  decide

/-- Without the cancelled graph the rejection is justified. -/
theorem overload_justified_iff_fresh :
    OverloadJustified (Scheduler.new crampedConfig) (singleJob "b") 1 :=
  (overload_justified_iff (show Run crampedConfig [] (Scheduler.new crampedConfig) from Run.new)
    (show (singleJob "b").validate = .ok ["j"] by decide) rfl 1).mpr (.inr (.inr (by decide)))

/-! ## What an operation does to the ready jobs -/

/-- The call will be accepted as a report on the job. -/
def Scheduler.accepts (scheduler : Scheduler) (dagId jobId owner token : String) (nowMs : ℤ) :
    Bool :=
  (scheduler.job? dagId jobId).any fun job => job.holdsLease owner token nowMs

/-- The operation makes the job ready, or has it wait for a retry: a reap (also
in front of a claim) and a failure report do so with attempts left, a completion
with a pending job whose open edges all come from the completed one. -/
def Operation.Readies (scheduler : Scheduler) (operation : Operation) (dagId jobId : String)
    (job : JobRecord) : Bool :=
  match operation with
  | .claim owner nowMs leaseMs => validLease scheduler.config owner leaseMs &&
      job.leaseExpired nowMs && decide (job.attempts < job.spec.maxAttempts)
  | .reap nowMs => job.leaseExpired nowMs && decide (job.attempts < job.spec.maxAttempts)
  | .fail dagId' jobId' owner token nowMs => decide (dagId = dagId' ∧ jobId = jobId') &&
      job.holdsLease owner token nowMs && decide (job.attempts < job.spec.maxAttempts)
  | .complete dagId' jobId' owner token result nowMs =>
      decide (result.utf8ByteSize ≤ maxPayloadBytes) &&
      scheduler.accepts dagId' jobId' owner token nowMs && decide (dagId = dagId') &&
      let edges := (scheduler.dependentsOf dagId' jobId').count jobId
      decide (edges ≠ 0 ∧ job.remainingDependencies ≤ edges ∧ job.state = .pending)
  | _ => false

/-- The number of jobs that the operation makes ready. -/
def Scheduler.readied (scheduler : Scheduler) (operation : Operation) : ℕ :=
  (scheduler.jobsWhere (operation.Readies scheduler)).length

/-- How far the ready jobs may be above the limit after the operation: it adds what
it makes ready, a claim that returns a job takes one off, and an accepted
submission starts anew. -/
def Scheduler.overrunAfter (scheduler : Scheduler) (operation : Operation) (overrun : ℕ) : ℕ :=
  match (operation.perform scheduler).1 with
  | .submit _ _ (.ok ()) => 0
  | _ => overrun + scheduler.readied operation - scheduler.grantsAt operation

/-- How far the ready jobs may be above the limit after the operations. -/
def Scheduler.overrun : Scheduler → ℕ → List Operation → ℕ
  | _, overrun, [] => overrun
  | scheduler, overrun, operation :: rest =>
      (scheduler.next operation).overrun (scheduler.overrunAfter operation overrun) rest

namespace Scheduler

/-- Jobs are counted after a rewriting as they are found before it. -/
theorem length_jobsWhere_of_mapJobs {before after : Scheduler}
    {f : String → String → JobRecord → JobRecord} (hdags : after.dags = mapJobs f before.dags)
    {p q : String → String → JobRecord → Bool}
    (h : ∀ dagId jobId job, before.job? dagId jobId = some job →
      p dagId jobId (f dagId jobId job) = q dagId jobId job) :
    (after.jobsWhere p).length = (before.jobsWhere q).length := by
  refine List.Perm.length_eq ((List.perm_ext_iff_of_nodup (nodup_jobsWhere ..)
    (nodup_jobsWhere ..)).mpr fun pair => ?_)
  obtain ⟨dagId, jobId⟩ := pair
  rw [mem_jobsWhere, mem_jobsWhere, job?_of_dags_eq_mapJobs hdags]
  cases hjob : before.job? dagId jobId with
  | none => simp
  | some job => simp [h dagId jobId job hjob]

theorem length_jobsWhere_or {scheduler : Scheduler} {p q : String → String → JobRecord → Bool}
    (h : ∀ dagId jobId job, scheduler.job? dagId jobId = some job →
      p dagId jobId job = true → q dagId jobId job = false) :
    (scheduler.jobsWhere fun dagId jobId job => p dagId jobId job || q dagId jobId job).length =
      (scheduler.jobsWhere p).length + (scheduler.jobsWhere q).length := by
  rw [← List.length_append]
  refine List.Perm.length_eq ((List.perm_ext_iff_of_nodup (nodup_jobsWhere ..) ?_).mpr
    fun pair => ?_)
  · refine List.nodup_append.mpr ⟨nodup_jobsWhere .., nodup_jobsWhere .., ?_⟩
    intro first hfirst second hsecond hsame
    subst hsame
    obtain ⟨dagId, jobId⟩ := first
    obtain ⟨job, hjob, hp⟩ := mem_jobsWhere.mp hfirst
    obtain ⟨job', hjob', hq⟩ := mem_jobsWhere.mp hsecond
    rw [hjob] at hjob'
    cases hjob'
    rw [h dagId jobId job hjob hp] at hq
    cases hq
  · obtain ⟨dagId, jobId⟩ := pair
    rw [List.mem_append, mem_jobsWhere, mem_jobsWhere, mem_jobsWhere]
    constructor
    · intro hmem
      obtain ⟨job, hjob, hpq⟩ := hmem
      rw [Bool.or_eq_true] at hpq
      exact hpq.imp (fun hp => ⟨job, hjob, hp⟩) fun hq => ⟨job, hjob, hq⟩
    · intro hmem
      rcases hmem with ⟨job, hjob, hp⟩ | ⟨job, hjob, hq⟩
      · exact ⟨job, hjob, by rw [hp, Bool.true_or]⟩
      · exact ⟨job, hjob, by rw [hq, Bool.or_true]⟩

theorem length_jobsWhere_single {scheduler : Scheduler} {dagId jobId : String} {job : JobRecord}
    (hjob : scheduler.job? dagId jobId = some job) :
    (scheduler.jobsWhere fun dagId' jobId' _ =>
      decide (dagId' = dagId ∧ jobId' = jobId)).length = 1 := by
  have hperm : (scheduler.jobsWhere fun dagId' jobId' _ =>
      decide (dagId' = dagId ∧ jobId' = jobId)).Perm [(dagId, jobId)] := by
    refine (List.perm_ext_iff_of_nodup (nodup_jobsWhere ..) (List.nodup_singleton _)).mpr
      fun pair => ?_
    obtain ⟨dagId', jobId'⟩ := pair
    rw [mem_jobsWhere, List.mem_singleton, Prod.mk.injEq]
    constructor
    · intro hmem
      obtain ⟨_, _, hkey⟩ := hmem
      exact of_decide_eq_true hkey
    · intro hkey
      obtain ⟨rfl, rfl⟩ := hkey
      exact ⟨job, hjob, by simp⟩
  rw [hperm.length_eq, List.length_singleton]

/-- A rewriting that keeps the ready jobs ready and readies the jobs `r`. -/
theorem readyJobs_of_mapJobs {before after : Scheduler}
    {f : String → String → JobRecord → JobRecord} (hdags : after.dags = mapJobs f before.dags)
    {r : String → String → JobRecord → Bool}
    (hready : ∀ dagId jobId job, before.job? dagId jobId = some job →
      (f dagId jobId job).isReady = (job.isReady || r dagId jobId job))
    (hnew : ∀ dagId jobId job, before.job? dagId jobId = some job → job.isReady = true →
      r dagId jobId job = false) :
    after.readyJobs = before.readyJobs + (before.jobsWhere r).length := by
  unfold readyJobs
  rw [length_jobsWhere_of_mapJobs hdags hready, length_jobsWhere_or hnew]

/-- A rewriting that takes the jobs `r` out of the ready ones. -/
theorem readyJobs_of_mapJobs_out {before after : Scheduler}
    {f : String → String → JobRecord → JobRecord} (hdags : after.dags = mapJobs f before.dags)
    {r : String → String → JobRecord → Bool}
    (hready : ∀ dagId jobId job, before.job? dagId jobId = some job →
      job.isReady = ((f dagId jobId job).isReady || r dagId jobId job))
    (hout : ∀ dagId jobId job, before.job? dagId jobId = some job →
      (f dagId jobId job).isReady = true → r dagId jobId job = false) :
    before.readyJobs = after.readyJobs + (before.jobsWhere r).length := by
  have hsame : before.dags = mapJobs (fun _ _ job => job) before.dags := by simp [mapJobs]
  unfold readyJobs
  rw [length_jobsWhere_of_mapJobs hsame hready, length_jobsWhere_or hout,
    length_jobsWhere_of_mapJobs (q := fun dagId jobId job => (f dagId jobId job).isReady) hdags
      fun _ _ _ _ => rfl]

theorem isReady_of_leased {job : JobRecord} (hleased : job.state = .leased) :
    job.isReady = false := by
  simp [JobRecord.isReady, hleased]

theorem isReady_retried (config : SchedulerConfig) (nowMs : ℤ) (jobId : String)
    (job : JobRecord) : (retried config nowMs jobId job).isReady =
      decide (job.attempts < job.spec.maxAttempts) := by
  unfold retried
  split
  next hbudget => simp [JobRecord.isReady, hbudget]
  next hbudget => simp [JobRecord.isReady, not_le.mp hbudget]

theorem readyJobs_reap (scheduler : Scheduler) (nowMs : ℤ) :
    (scheduler.reap nowMs).2.readyJobs = scheduler.readyJobs +
      (scheduler.jobsWhere fun _ _ job => job.leaseExpired nowMs &&
        decide (job.attempts < job.spec.maxAttempts)).length := by
  refine readyJobs_of_mapJobs (dags_reap scheduler nowMs) (fun dagId jobId job _ => ?_)
    fun dagId jobId job _ hready => ?_
  · unfold reaped
    split
    next hexpired =>
      rw [isReady_retried, isReady_of_leased (state_of_leaseExpired hexpired), hexpired]
      simp
    next hexpired => simp [hexpired]
  · have hlive : job.leaseExpired nowMs = false := by
      by_contra hexpired
      have hleased := state_of_leaseExpired (eq_true_of_ne_false hexpired)
      rw [isReady_of_leased hleased] at hready
      cases hready
    rw [hlive, Bool.false_and]

theorem readyJobs_grant {before after : Scheduler} {dagId jobId owner token : String}
    {expiresAtMs : ℤ} {job : JobRecord} (hjob : before.job? dagId jobId = some job)
    (hready : job.isReady = true)
    (hdags : after.dags = mapJobs (atJob dagId jobId (leased owner token expiresAtMs))
      before.dags) : before.readyJobs = after.readyJobs + 1 := by
  rw [readyJobs_of_mapJobs_out (r := fun dagId' jobId' _ =>
    decide (dagId' = dagId ∧ jobId' = jobId)) hdags, length_jobsWhere_single hjob]
  all_goals
    intro dagId' jobId' job' hjob'
    by_cases hkey : dagId' = dagId ∧ jobId' = jobId
  · obtain ⟨rfl, rfl⟩ := hkey
    rw [hjob] at hjob'
    cases hjob'
    rw [atJob_self, isReady_leased, hready]
    simp
  · rw [atJob_of_ne hkey]
    simp [hkey]
  · obtain ⟨rfl, rfl⟩ := hkey
    rw [atJob_self, isReady_leased]
    intro hbad
    cases hbad
  · intro _
    simp [hkey]

theorem jobsWhere_eq_nil {scheduler : Scheduler} {p : String → String → JobRecord → Bool}
    (h : ∀ dagId jobId job, scheduler.job? dagId jobId = some job → p dagId jobId job = false) :
    scheduler.jobsWhere p = [] := by
  refine List.eq_nil_iff_forall_not_mem.mpr fun pair hmem => ?_
  obtain ⟨dagId, jobId⟩ := pair
  obtain ⟨job, hjob, hp⟩ := mem_jobsWhere.mp hmem
  rw [h dagId jobId job hjob] at hp
  cases hp

theorem countValues_isReady_of_admitted {spec : DagSpec} {nowMs : ℤ} {before after : Scheduler}
    {dag : DagRecord} (h : Admitted spec nowMs before after dag) :
    dag.jobs.countValues (fun _ job => job.isReady) = spec.rootCount := by
  have hsub := (List.filter_sublist (l := spec.jobs)
    (p := fun job => decide (spec.inDegree job.id = 0))).map JobSpec.id
  rw [Table.countValues_eq_length (hsub.nodup h.built.jobIds_nodup)]
  · rw [List.length_map, ← List.countP_eq_length_filter]
    rfl
  · intro jobId
    rw [List.mem_map]
    constructor
    · rintro ⟨job, hjob, rfl⟩
      obtain ⟨hjob, hzero⟩ := List.mem_filter.mp hjob
      obtain ⟨record, hlookup, hspec⟩ := h.built.exists_record hjob
      refine ⟨record, hlookup, ?_⟩
      rw [h.records job.id record hlookup, hspec]
      simp [DagSpec.initialRecord, JobRecord.isReady, of_decide_eq_true hzero]
    · rintro ⟨record, hlookup, hready⟩
      obtain ⟨hmem, hid⟩ := h.built.record jobId record hlookup
      refine ⟨record.spec, List.mem_filter.mpr ⟨hmem, ?_⟩, hid⟩
      rw [h.records jobId record hlookup] at hready
      by_contra hnot
      simp only [decide_eq_true_eq] at hnot
      simp [DagSpec.initialRecord, JobRecord.isReady, hnot] at hready

theorem readyJobs_of_admitted {spec : DagSpec} {nowMs : ℤ} {before after : Scheduler}
    {dag : DagRecord} (h : Admitted spec nowMs before after dag) :
    after.readyJobs = before.readyJobs + spec.rootCount := by
  unfold readyJobs jobsWhere
  rw [h.dags, Table.entries_insert_of_get?_eq_none _ _ h.fresh, List.flatMap_append,
    List.length_append, ← countValues_isReady_of_admitted h]
  congr 1
  simp only [List.flatMap_cons, List.flatMap_nil, List.append_nil, Table.countValues]
  induction dag.jobs.entries with
  | nil => rfl
  | cons entry rest ih =>
      rw [List.countP_cons]
      by_cases hready : entry.2.isReady = true
      · simp [hready, ih]
      · simp [hready, ih]

theorem submit_room {scheduler : Scheduler} {spec : DagSpec} {nowMs : ℤ} {order : List String}
    (hvalid : spec.validate = .ok order) (hfree : scheduler.dags.get? spec.id = none)
    (hok : (scheduler.submit spec nowMs).1 = .ok ()) :
    scheduler.ready.size + spec.rootCount ≤ scheduler.config.maxReadyJobs := by
  have hcontains : scheduler.dags.contains spec.id = false := by
    rw [Table.contains, hfree]
    rfl
  have hnot : ¬(scheduler.submit spec nowMs).1 = .error .overloaded := by
    rw [hok]
    simp
  rw [submit_overloaded_iff hvalid hcontains nowMs] at hnot
  omega

theorem length_jobsWhere_of_forall_false {scheduler : Scheduler}
    {p : String → String → JobRecord → Bool}
    (h : ∀ dagId jobId job, scheduler.job? dagId jobId = some job → p dagId jobId job = false) :
    (scheduler.jobsWhere p).length = 0 := by
  rw [jobsWhere_eq_nil h, List.length_nil]

variable {specs : String → Option DagSpec} {scheduler : Scheduler}

theorem Invariant.readyJobs_submit (h : scheduler.Invariant specs) {spec : DagSpec} {nowMs : ℤ}
    (hok : (scheduler.submit spec nowMs).1 = .ok ()) :
    (scheduler.submit spec nowMs).2.readyJobs ≤ scheduler.config.maxReadyJobs := by
  rcases submit_cases scheduler spec nowMs with
    ⟨order, dag, hvalid, _, hadmitted⟩ | ⟨_, herror⟩
  · have hroom := submit_room hvalid hadmitted.fresh hok
    rw [size_ready h.heap h.ownIds] at hroom
    rw [readyJobs_of_admitted hadmitted]
    omega
  · rw [herror] at hok
    cases hok

theorem Invariant.readyJobs_claim (h : scheduler.Invariant specs) (owner : String)
    (nowMs leaseMs : ℤ) :
    (scheduler.claim owner nowMs leaseMs).2.readyJobs +
        scheduler.grantsAt (.claim owner nowMs leaseMs) =
      scheduler.readyJobs + scheduler.readied (.claim owner nowMs leaseMs) := by
  have hreap := readyJobs_reap scheduler nowMs
  rcases claim_cases h.heap h.ownIds owner nowMs leaseMs with
    ⟨hinvalid, hclaim⟩ | ⟨hvalid, ready, hcase⟩
  · have hreadied : scheduler.readied (.claim owner nowMs leaseMs) = 0 :=
      length_jobsWhere_of_forall_false fun _ _ _ _ => by simp [Operation.Readies, hinvalid]
    have hgrants : scheduler.grantsAt (.claim owner nowMs leaseMs) = 0 := by
      simp [grantsAt, Operation.perform, hclaim]
    rw [hreadied, hgrants, hclaim]
  · have hreadied : scheduler.readied (.claim owner nowMs leaseMs) =
        (scheduler.jobsWhere fun _ _ job => job.leaseExpired nowMs &&
          decide (job.attempts < job.spec.maxAttempts)).length := by
      unfold readied Operation.Readies
      simp only [hvalid, Bool.true_and]
    rw [← hreadied] at hreap
    -- what the reap has readied is counted; a grant takes one job from that
    rcases hcase with ⟨_, hclaim, _⟩ | ⟨key, job, hselects, hclaim, _⟩
    · have hgrants : scheduler.grantsAt (.claim owner nowMs leaseMs) = 0 := by
        simp [grantsAt, Operation.perform, hclaim]
      rw [hgrants, hclaim]
      exact hreap
    · obtain ⟨hjob, hready, _⟩ := hselects.eligible
      have hgrants : scheduler.grantsAt (.claim owner nowMs leaseMs) = 1 := by
        simp [grantsAt, Operation.perform, hclaim]
      have hgrant := readyJobs_grant hjob hready (dags_grant hjob ready owner nowMs leaseMs)
      rw [hgrants, hclaim]
      rw [hgrant] at hreap
      exact hreap

theorem readyJobs_heartbeat (scheduler : Scheduler) (dagId jobId owner token : String)
    (nowMs leaseMs : ℤ) :
    (scheduler.heartbeat dagId jobId owner token nowMs leaseMs).2.readyJobs =
      scheduler.readyJobs := by
  rcases heartbeat_cases scheduler dagId jobId owner token nowMs leaseMs with
    ⟨_, _, _, _, _, hok⟩ | ⟨_, _, herror⟩
  · rw [hok]
    refine length_jobsWhere_of_mapJobs (dags_modifyJob ..) fun dagId' jobId' job _ => ?_
    unfold atJob
    split <;> rfl
  · rw [herror]

theorem readyJobs_fail (scheduler : Scheduler) (dagId jobId owner token : String) (nowMs : ℤ) :
    (scheduler.fail dagId jobId owner token nowMs).2.readyJobs =
      scheduler.readyJobs + scheduler.readied (.fail dagId jobId owner token nowMs) := by
  rcases fail_cases scheduler dagId jobId owner token nowMs with
    ⟨job, hjob, hholds, hretry⟩ | ⟨hnot, _, herror⟩
  · rw [hretry]
    refine readyJobs_of_mapJobs (dags_retryOrDeadLetter ⟨job, hjob⟩ nowMs)
      (fun dagId' jobId' job' hjob' => ?_) fun dagId' jobId' job' hjob' hready => ?_
    all_goals by_cases hkey : dagId' = dagId ∧ jobId' = jobId
    · obtain ⟨rfl, rfl⟩ := hkey
      rw [hjob] at hjob'
      cases hjob'
      rw [atJob_self, isReady_retried, isReady_of_leased (state_of_holdsLease hholds)]
      simp [Operation.Readies, hholds]
    · rw [atJob_of_ne hkey]
      simp [Operation.Readies, hkey]
    · obtain ⟨rfl, rfl⟩ := hkey
      rw [hjob] at hjob'
      cases hjob'
      rw [isReady_of_leased (state_of_holdsLease hholds)] at hready
      cases hready
    · simp [Operation.Readies, hkey]
  · have hreadied : scheduler.readied (.fail dagId jobId owner token nowMs) = 0 := by
      refine length_jobsWhere_of_forall_false fun dagId' jobId' job hjob => ?_
      by_cases hkey : dagId' = dagId ∧ jobId' = jobId
      · obtain ⟨rfl, rfl⟩ := hkey
        simp [Operation.Readies, hnot job hjob]
      · simp [Operation.Readies, hkey]
    rw [herror, hreadied, Nat.add_zero]

theorem isReady_released (nowMs : ℤ) (edges : ℕ) (job : JobRecord) :
    (released nowMs edges job).isReady = (job.isReady ||
      decide (edges ≠ 0 ∧ job.remainingDependencies ≤ edges ∧ job.state = .pending)) := by
  by_cases hlast : edges ≠ 0 ∧ job.remainingDependencies ≤ edges ∧ job.state = .pending
  · have hstate : (released nowMs edges job).state = .ready := by
      rw [state_released, if_pos hlast]
    simp [JobRecord.isReady, hstate, hlast]
  · have hstate : (released nowMs edges job).state = job.state := by
      rw [state_released, if_neg hlast]
    simp [JobRecord.isReady, hstate, hlast]

theorem Invariant.readyJobs_complete (h : scheduler.Invariant specs)
    (dagId jobId owner token result : String) (nowMs : ℤ) :
    (scheduler.complete dagId jobId owner token result nowMs).2.readyJobs =
      scheduler.readyJobs +
        scheduler.readied (.complete dagId jobId owner token result nowMs) := by
  rcases complete_cases scheduler dagId jobId owner token result nowMs with
    ⟨holder, hholder, hholds, hsize, hrelease⟩ | ⟨hnot, _, herror⟩
  · have haccepts : scheduler.accepts dagId jobId owner token nowMs = true := by
      simp [accepts, hholder, hholds]
    have hleased := state_of_holdsLease hholds
    rw [hrelease]
    refine readyJobs_of_mapJobs (dags_complete nowMs result (h.exists_dependent dagId jobId)).2
      (fun dagId' jobId' job hjob => ?_) fun dagId' jobId' job _ hready => ?_
    · by_cases hdag : dagId' = dagId
      · subst hdag
        simp only [Operation.Readies, hsize, haccepts, if_true, decide_true, Bool.true_and]
        by_cases hsame : jobId' = jobId
        · -- the completed job was leased, and is finished
          subst hsame
          rw [hholder] at hjob
          cases hjob
          simp [JobRecord.isReady, hleased]
        · rw [completedRecord_of_ne _ _ _ _ hsame, isReady_released]
      · simp [Operation.Readies, hdag]
    · have hpending : job.state ≠ .pending := fun hpending => by
        simp [JobRecord.isReady, hpending] at hready
      simp [Operation.Readies, hpending]
  · have hreadied :
        scheduler.readied (.complete dagId jobId owner token result nowMs) = 0 := by
      refine length_jobsWhere_of_forall_false fun dagId' jobId' job _ => ?_
      have hrejected : (decide (result.utf8ByteSize ≤ maxPayloadBytes) &&
          scheduler.accepts dagId jobId owner token nowMs) = false := by
        unfold accepts
        cases hholder : scheduler.job? dagId jobId with
        | none => simp
        | some holder =>
            cases hholds : holder.holdsLease owner token nowMs with
            | false => simp [hholds]
            | true => simp [hnot holder hholder hholds]
      simp only [Operation.Readies, hrejected, Bool.false_and]
    rw [herror, hreadied, Nat.add_zero]

theorem readyJobs_cancel_le (scheduler : Scheduler) (dagId : String) :
    (scheduler.cancel dagId).2.readyJobs ≤ scheduler.readyJobs := by
  rcases cancel_cases scheduler dagId with ⟨_, _, hok, _⟩ | ⟨_, herror⟩
  · rw [readyJobs_of_mapJobs_out
      (r := fun dagId' _ job => decide (dagId' = dagId) && job.isReady) (dags_cancel hok)]
    · exact Nat.le_add_right _ _
    all_goals
      intro dagId' jobId' job _
      by_cases hdag : dagId' = dagId
    · have hnot : (cancelled job).isReady = false :=
        not_isReady_of_isTerminal (isTerminal_cancelled job)
      simp [hdag, hnot]
    · simp [hdag]
    · have hnot : (cancelled job).isReady = false :=
        not_isReady_of_isTerminal (isTerminal_cancelled job)
      simp [hdag, hnot]
    · simp [hdag]
  · rw [herror]

/-- What an operation adds to the ready jobs, accepted submissions apart. -/
theorem Invariant.readyJobs_next_le (h : scheduler.Invariant specs) {operation : Operation}
    (hrefused : ∀ spec nowMs, (operation.perform scheduler).1 ≠ .submit spec nowMs (.ok ())) :
    (scheduler.next operation).readyJobs + scheduler.grantsAt operation ≤
      scheduler.readyJobs + scheduler.readied operation := by
  cases operation with
  | submit spec nowMs =>
      rcases submit_cases scheduler spec nowMs with ⟨_, _, _, hok, _⟩ | ⟨_, herror⟩
      · exact absurd (by simp only [Operation.perform, hok]) (hrefused spec nowMs)
      · simp only [next, Operation.perform, herror, grantsAt]
        omega
  | claim owner nowMs leaseMs => exact (h.readyJobs_claim owner nowMs leaseMs).le
  | heartbeat dagId jobId owner token nowMs leaseMs =>
      have hsame := readyJobs_heartbeat scheduler dagId jobId owner token nowMs leaseMs
      simp only [next, Operation.perform, grantsAt]
      omega
  | complete dagId jobId owner token result nowMs =>
      exact (h.readyJobs_complete dagId jobId owner token result nowMs).le
  | fail dagId jobId owner token nowMs =>
      exact (readyJobs_fail scheduler dagId jobId owner token nowMs).le
  | reap nowMs => exact (readyJobs_reap scheduler nowMs).le
  | cancel dagId => exact (readyJobs_cancel_le scheduler dagId).trans (Nat.le_add_right _ _)

/-! ## The ready limit -/

/-- One step from a state that is so far above the limit. -/
theorem readyJobs_next_le {config : SchedulerConfig} (hreached : Reached config scheduler)
    {overrun : ℕ} (hlimit : scheduler.readyJobs ≤ config.maxReadyJobs + overrun)
    (operation : Operation) : (scheduler.next operation).readyJobs ≤
      config.maxReadyJobs + scheduler.overrunAfter operation overrun := by
  obtain ⟨history, hrun⟩ := hreached
  have h := run_invariant hrun
  unfold overrunAfter
  split
  next spec nowMs hevent =>
    cases operation with
    | submit spec' nowMs' =>
        have hok : (scheduler.submit spec' nowMs').1 = .ok () := (Event.submit.inj hevent).2.2
        rw [← run_config hrun]
        exact h.readyJobs_submit hok
    | _ => cases hevent
  next hrefused =>
    have hstep := h.readyJobs_next_le fun spec nowMs hevent => hrefused spec nowMs hevent
    omega

theorem readyJobs_after_le {config : SchedulerConfig} (hreached : Reached config scheduler)
    {overrun : ℕ} (hlimit : scheduler.readyJobs ≤ config.maxReadyJobs + overrun)
    (operations : List Operation) : (Machine.after next scheduler operations).readyJobs ≤
      config.maxReadyJobs + scheduler.overrun overrun operations := by
  induction operations generalizing scheduler overrun with
  | nil => exact hlimit
  | cons operation rest ih =>
      exact ih (hreached.next operation) (readyJobs_next_le hreached hlimit operation)

end Scheduler

/-- The limit is kept by admission.  In every state that operations lead to, an
accepted submission leaves at most `maxReadyJobs` jobs ready or waiting for a retry,
and there are at most so many more than that as releases, failures and expired
leases have made ready since the last one, less those that have been claimed. -/
theorem ready_limit (config : SchedulerConfig) (operations : List Operation) :
    let reached := Machine.after next (Scheduler.new config) operations
    (∀ spec nowMs, (reached.submit spec nowMs).1 = .ok () →
      (reached.submit spec nowMs).2.readyJobs ≤ config.maxReadyJobs) ∧
    reached.readyJobs ≤ config.maxReadyJobs + (Scheduler.new config).overrun 0 operations := by
  intro reached
  have hnew : Reached config (Scheduler.new config) := ⟨[], Run.new⟩
  have hkept : ∀ state operation, Reached config state → True →
      Reached config (next state operation) := fun _ operation h _ => h.next operation
  obtain ⟨history, hrun⟩ : Reached config reached :=
    Machine.after_induction hkept hnew (Machine.along_of_forall fun _ _ => trivial)
  refine ⟨fun spec nowMs hok => ?_, readyJobs_after_le hnew (Nat.zero_le _) operations⟩
  rw [← run_config hrun]
  exact (run_invariant hrun).readyJobs_submit hok

/-- One job with two dependents. -/
def forkSpec : DagSpec :=
  ⟨"f", [⟨"a", .uppercase, "", 1, 0⟩, ⟨"b", .uppercase, "", 1, 0⟩, ⟨"c", .uppercase, "", 1, 0⟩],
    [⟨"a", "b"⟩, ⟨"a", "c"⟩]⟩

/-- The limit admits the first job of the graph, which is then claimed. -/
def forkRun : List Event × Scheduler :=
  let submitted := (Operation.submit forkSpec 0).perform (Scheduler.new crampedConfig)
  let claimed := (Operation.claim "worker" 0 1000).perform submitted.2
  ([claimed.1, submitted.1], claimed.2)

/-- The success of the claimed job makes its two dependents ready. -/
def overfullRun : List Event × Scheduler :=
  let completed := (Operation.complete "f" "a" "worker" "lease-f-a-1" "" 1).perform forkRun.2
  (completed.1 :: forkRun.1, completed.2)

theorem released_dependents_exceed_limit :
    Run crampedConfig overfullRun.1 overfullRun.2 ∧ crampedConfig.maxReadyJobs = 1 ∧
      overfullRun.2.readyJobs = 2 := by
  refine ⟨Run.step (.complete "f" "a" "worker" "lease-f-a-1" "" 1)
    (Run.step (.claim "worker" 0 1000) (Run.step (.submit forkSpec 0) Run.new)), rfl, by decide⟩

end JobOrchestrator
