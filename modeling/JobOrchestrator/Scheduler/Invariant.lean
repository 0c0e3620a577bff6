import JobOrchestrator.Scheduler.Consistency
import JobOrchestrator.Scheduler.Run
import JobOrchestrator.Scheduler.Selection

/-!
# The scheduler invariant

`Scheduler.Invariant specs` says that the graphs held are those in `specs`, each
consistent with its spec, that leases are present exactly in the leased state,
and that the heap matches the records.  `run_invariant`: it holds in every state
of every run, for the specs that the history has admitted.
-/

namespace JobOrchestrator

namespace Scheduler

/-- The graphs and the heap are as the admitted specs require. -/
structure Invariant (specs : String → Option DagSpec) (scheduler : Scheduler) : Prop where
  graph : ∀ dagId dag, scheduler.dags.get? dagId = some dag → ∃ spec, specs dagId = some spec ∧
    spec.id = dagId ∧ (∃ order, spec.validate = .ok order) ∧ dag.Consistent spec
  present : ∀ dagId spec, specs dagId = some spec → ∃ dag, scheduler.dags.get? dagId = some dag
  lease : ∀ dagId jobId job, scheduler.job? dagId jobId = some job →
    (job.lease.isSome = true ↔ job.state = .leased)
  heap : HeapMatches scheduler

theorem job?_eq_some_iff {scheduler : Scheduler} {dagId jobId : String} {job : JobRecord} :
    scheduler.job? dagId jobId = some job ↔
      ∃ dag, scheduler.dags.get? dagId = some dag ∧ dag.jobs.get? jobId = some job :=
  Option.bind_eq_some_iff

/-- The record of a job is found in the record of its graph. -/
theorem get?_jobs_of_job? {scheduler : Scheduler} {dagId jobId : String} {dag : DagRecord}
    {job : JobRecord} (hdag : scheduler.dags.get? dagId = some dag)
    (hjob : scheduler.job? dagId jobId = some job) : dag.jobs.get? jobId = some job := by
  obtain ⟨dag', hdag', hlookup⟩ := job?_eq_some_iff.mp hjob
  rw [hdag] at hdag'
  cases hdag'
  exact hlookup

variable {specs : String → Option DagSpec}

theorem Invariant.ownIds {scheduler : Scheduler} (h : scheduler.Invariant specs) :
    OwnIds scheduler := by
  intro dagId jobId job hjob
  obtain ⟨dag, hdag, hlookup⟩ := job?_eq_some_iff.mp hjob
  obtain ⟨spec, _, _, _, hconsistent⟩ := h.graph dagId dag hdag
  exact (hconsistent.record jobId job hlookup).2

/-- A job belongs to a graph that is consistent with its admitted spec. -/
theorem Invariant.exists_dag {scheduler : Scheduler} (h : scheduler.Invariant specs)
    {dagId jobId : String} {job : JobRecord} (hjob : scheduler.job? dagId jobId = some job) :
    ∃ dag spec, scheduler.dags.get? dagId = some dag ∧ dag.jobs.get? jobId = some job ∧
      specs dagId = some spec ∧ spec.id = dagId ∧ (∃ order, spec.validate = .ok order) ∧
      dag.Consistent spec := by
  obtain ⟨dag, hdag, hlookup⟩ := job?_eq_some_iff.mp hjob
  obtain ⟨spec, hspec, hid, hvalid, hconsistent⟩ := h.graph dagId dag hdag
  exact ⟨dag, spec, hdag, hlookup, hspec, hid, hvalid, hconsistent⟩

theorem Invariant.valid_spec {scheduler : Scheduler}
    (h : scheduler.Invariant specs) {dagId jobId : String} {job : JobRecord}
    (hjob : scheduler.job? dagId jobId = some job) : job.spec.Valid ∧ job.spec.id = jobId := by
  obtain ⟨_, _, _, hlookup, _, _, ⟨_, hvalid⟩, hconsistent⟩ := h.exists_dag hjob
  obtain ⟨hmem, hid⟩ := hconsistent.record jobId job hlookup
  exact ⟨(accepted_of_validate hvalid).jobs_valid _ hmem, hid⟩

/-- Rewriting records keeps the invariant if it keeps every graph consistent,
the leases where they belong and the heap matched. -/
theorem Invariant.rewrite {before after : Scheduler} (h : before.Invariant specs)
    {f : String → String → JobRecord → JobRecord} (hdags : after.dags = mapJobs f before.dags)
    (hgraph : ∀ dagId dag spec, before.dags.get? dagId = some dag → dag.Consistent spec →
      (dag.rewrite (f dagId)).Consistent spec)
    (hlease : ∀ dagId jobId job, before.job? dagId jobId = some job →
      (job.lease.isSome = true ↔ job.state = .leased) →
      ((f dagId jobId job).lease.isSome = true ↔ (f dagId jobId job).state = .leased))
    (hheap : HeapMatches after) : after.Invariant specs := by
  have hget : ∀ dagId, after.dags.get? dagId =
      (before.dags.get? dagId).map fun dag => dag.rewrite (f dagId) := by
    intro dagId
    rw [hdags, mapJobs, Table.get?_mapValues]
  refine ⟨fun dagId dag hdag => ?_, fun dagId spec hspec => ?_, fun dagId jobId job hjob => ?_,
    hheap⟩
  · rw [hget, Option.map_eq_some_iff] at hdag
    obtain ⟨old, hold, rfl⟩ := hdag
    obtain ⟨spec, hspec, hid, hvalid, hconsistent⟩ := h.graph dagId old hold
    exact ⟨spec, hspec, hid, hvalid, hgraph dagId old spec hold hconsistent⟩
  · obtain ⟨dag, hdag⟩ := h.present dagId spec hspec
    exact ⟨dag.rewrite (f dagId), by rw [hget, hdag, Option.map_some]⟩
  · rw [job?_of_dags_eq_mapJobs hdags, Option.map_eq_some_iff] at hjob
    obtain ⟨old, hold, rfl⟩ := hjob
    exact hlease dagId jobId old hold (h.lease dagId jobId old hold)

/-- Quiet rewriting keeps every graph consistent. -/
theorem Invariant.quiet {before after : Scheduler} (h : before.Invariant specs)
    {f : String → String → JobRecord → JobRecord} (hdags : after.dags = mapJobs f before.dags)
    (hf : ∀ dagId jobId job, before.job? dagId jobId = some job → Quiet job (f dagId jobId job) ∧
      ((f dagId jobId job).lease.isSome = true ↔ (f dagId jobId job).state = .leased))
    (hheap : HeapMatches after) : after.Invariant specs := by
  refine h.rewrite hdags (fun dagId dag spec hdag hconsistent => ?_)
    (fun dagId jobId job hjob _ => (hf dagId jobId job hjob).2) hheap
  exact hconsistent.quiet fun jobId job hjob =>
    (hf dagId jobId job (job?_eq_some_iff.mpr ⟨dag, hdag, hjob⟩)).1

/-! ## Quiet operations -/

theorem quiet_retried (config : SchedulerConfig) (nowMs : ℤ) (jobId : String) {job : JobRecord}
    (hleased : job.state = .leased) :
    Quiet job (retried config nowMs jobId job) ∧
      ((retried config nowMs jobId job).lease.isSome = true ↔
        (retried config nowMs jobId job).state = .leased) := by
  unfold retried
  split <;> exact ⟨⟨rfl, rfl, by simp [hleased], by simp [hleased], by simp [hleased],
    by simp [JobRecord.isTerminal, hleased]⟩, by simp⟩

theorem quiet_extended (expiresAtMs : ℤ) (job : JobRecord) :
    Quiet job (extended expiresAtMs job) :=
  ⟨rfl, rfl, Iff.rfl, Iff.rfl, Iff.rfl, id⟩

theorem quiet_leased (owner token : String) (expiresAtMs : ℤ) {job : JobRecord}
    (hready : job.isReady = true) : Quiet job (leased owner token expiresAtMs job) := by
  simp only [JobRecord.isReady, Bool.decide_or, Bool.or_eq_true, decide_eq_true_eq] at hready
  refine ⟨rfl, rfl, ?_, ?_, ?_, ?_⟩ <;>
    rcases hready with hstate | hstate <;> simp [leased, JobRecord.isTerminal, hstate]

theorem Invariant.retry {scheduler : Scheduler} (h : scheduler.Invariant specs)
    {dagId jobId : String} {job : JobRecord} (hjob : scheduler.job? dagId jobId = some job)
    (hleased : job.state = .leased) (nowMs : ℤ) :
    (scheduler.retryOrDeadLetter dagId jobId nowMs).2.Invariant specs := by
  refine h.quiet (dags_retryOrDeadLetter ⟨job, hjob⟩ nowMs) (fun dagId' jobId' job' hjob' => ?_)
    (h.heap.retry h.ownIds hjob hleased nowMs)
  rcases job?_eq_or_ne hjob hjob' with ⟨rfl, rfl, rfl⟩ | hkey
  · rw [atJob_self]
    exact quiet_retried _ _ _ hleased
  · rw [atJob_of_ne hkey]
    exact ⟨Quiet.refl job', h.lease dagId' jobId' job' hjob'⟩

theorem Invariant.reap {scheduler : Scheduler} (h : scheduler.Invariant specs) (nowMs : ℤ) :
    (scheduler.reap nowMs).2.Invariant specs := by
  refine h.quiet (dags_reap scheduler nowMs) (fun dagId jobId job hjob => ?_)
    (h.heap.reap h.ownIds nowMs)
  unfold reaped
  split
  next hexpired => exact quiet_retried _ _ _ (state_of_leaseExpired hexpired)
  next => exact ⟨Quiet.refl job, h.lease dagId jobId job hjob⟩

theorem Invariant.claim {scheduler : Scheduler} (h : scheduler.Invariant specs) (owner : String)
    (nowMs leaseMs : ℤ) : (scheduler.claim owner nowMs leaseMs).2.Invariant specs := by
  have hreap := h.reap nowMs
  rcases claim_cases h.heap h.ownIds owner nowMs leaseMs with
    ⟨_, hclaim⟩ | ⟨_, ready, ⟨_, hclaim, hheap⟩ | ⟨key, job, hselects, hclaim, hheap⟩⟩
  · rw [hclaim]
    exact h
  · rw [hclaim]
    exact ⟨hreap.graph, hreap.present, hreap.lease, hheap⟩
  · rw [hclaim]
    have hjob := hselects.eligible.1
    refine hreap.quiet (dags_grant hjob ready owner nowMs leaseMs)
      (fun dagId jobId job' hjob' => ?_) hheap
    rcases job?_eq_or_ne hjob hjob' with ⟨rfl, rfl, rfl⟩ | hkey
    · rw [atJob_self]
      exact ⟨quiet_leased _ _ _ hselects.eligible.2.1, by simp [leased]⟩
    · rw [atJob_of_ne hkey]
      exact ⟨Quiet.refl job', hreap.lease dagId jobId job' hjob'⟩

theorem state_of_holdsLease {job : JobRecord} {owner token : String} {nowMs : ℤ}
    (h : job.holdsLease owner token nowMs = true) : job.state = .leased := by
  unfold JobRecord.holdsLease at h
  split at h
  · cases h
  · simp only [Bool.decide_and, Bool.and_eq_true, decide_eq_true_eq] at h
    exact h.1

theorem Invariant.heartbeat {scheduler : Scheduler} (h : scheduler.Invariant specs)
    (dagId jobId owner token : String) (nowMs leaseMs : ℤ) :
    (scheduler.heartbeat dagId jobId owner token nowMs leaseMs).2.Invariant specs := by
  rcases heartbeat_cases scheduler dagId jobId owner token nowMs leaseMs with
    ⟨job, _, _, _, _, hok⟩ | ⟨_, error, herror⟩
  · rw [hok]
    have hdags := dags_modifyJob scheduler dagId jobId
      (extended (I64.saturatingAdd nowMs leaseMs))
    refine h.quiet hdags (fun dagId' jobId' job' hjob' => ?_)
      (h.heap.rewrite hdags rfl fun dagId' jobId' job' _ => .inl ?_)
    · have hlease := h.lease dagId' jobId' job' hjob'
      unfold atJob
      split
      · exact ⟨quiet_extended _ _, by simpa [extended] using hlease⟩
      · exact ⟨Quiet.refl job', hlease⟩
    · unfold atJob
      split <;> exact ⟨rfl, rfl, rfl⟩
  · rw [herror]
    exact h

theorem Invariant.fail {scheduler : Scheduler} (h : scheduler.Invariant specs)
    (dagId jobId owner token : String) (nowMs : ℤ) :
    (scheduler.fail dagId jobId owner token nowMs).2.Invariant specs := by
  rcases fail_cases scheduler dagId jobId owner token nowMs with
    ⟨job, hjob, hholds, hretry⟩ | ⟨_, error, herror⟩
  · rw [hretry]
    exact h.retry hjob (state_of_holdsLease hholds) nowMs
  · rw [herror]
    exact h

/-! ## Completion, cancellation, admission -/

/-- Every dependent of a job of a consistent graph has a record. -/
theorem Invariant.exists_dependent {scheduler : Scheduler} (h : scheduler.Invariant specs)
    (dagId jobId : String) : ∀ dependent ∈ scheduler.dependentsOf dagId jobId,
      ∃ job, scheduler.job? dagId dependent = some job := by
  intro dependent hmem
  unfold dependentsOf at hmem
  cases hdag : scheduler.dags.get? dagId with
  | none => simp [hdag] at hmem
  | some dag =>
      obtain ⟨spec, _, _, ⟨order, hvalid⟩, hconsistent⟩ := h.graph dagId dag hdag
      simp only [hdag] at hmem
      rw [(hconsistent.dependents jobId).mem_iff, mem_childrenOf] at hmem
      obtain ⟨edge, hedge, hpair⟩ := List.mem_map.mp hmem
      have htarget := ((accepted_of_validate hvalid).endpoints edge hedge).2.2
      simp only [Prod.mk.injEq] at hpair
      rw [hpair.2, ← hconsistent.keys] at htarget
      obtain ⟨job, hjob⟩ := Table.mem_keys.mp htarget
      exact ⟨job, job?_eq_some_iff.mpr ⟨dag, hdag, hjob⟩⟩

/-- What a success makes of any record. -/
theorem dags_complete {scheduler : Scheduler} {dagId jobId : String} (nowMs : ℤ) (result : String)
    (hjobs : ∀ dependent ∈ scheduler.dependentsOf dagId jobId,
      ∃ job, scheduler.job? dagId dependent = some job) :
    (releaseDependents dagId nowMs (scheduler.dependentsOf dagId jobId)
        (scheduler.modifyJob dagId jobId (succeeded result))).1 = .ok () ∧
      (releaseDependents dagId nowMs (scheduler.dependentsOf dagId jobId)
        (scheduler.modifyJob dagId jobId (succeeded result))).2.dags =
      mapJobs (fun dagId' jobId' job => if dagId' = dagId then completedRecord nowMs result jobId
        (scheduler.dependentsOf dagId jobId) jobId' job else job) scheduler.dags := by
  have hmodified := dags_modifyJob scheduler dagId jobId (succeeded result)
  obtain ⟨hok, hdags⟩ := releaseDependents_of_job? nowMs fun dependent hmem =>
    exists_job?_of_dags_eq_mapJobs hmodified (hjobs dependent hmem)
  refine ⟨hok, ?_⟩
  rw [hdags, hmodified, mapJobs_mapJobs]
  refine mapJobs_congr fun dagId' jobId' job _ => ?_
  by_cases hdag : dagId' = dagId
  · subst hdag
    by_cases hjob : jobId' = jobId <;> simp [completedRecord, atJob, hjob]
  · simp [atJob, hdag]

theorem Invariant.complete {scheduler : Scheduler} (h : scheduler.Invariant specs)
    (dagId jobId owner token result : String) (nowMs : ℤ) :
    (scheduler.complete dagId jobId owner token result nowMs).2.Invariant specs := by
  rcases complete_cases scheduler dagId jobId owner token result nowMs with
    ⟨job, hjob, hholds, _, hrelease⟩ | ⟨_, error, herror⟩
  · rw [hrelease]
    have hleased := state_of_holdsLease hholds
    have hmodified := dags_modifyJob scheduler dagId jobId (succeeded result)
    obtain ⟨_, hdags⟩ := dags_complete nowMs result (h.exists_dependent dagId jobId)
    refine h.rewrite hdags (fun dagId' dag spec hdag hconsistent => ?_)
      (fun dagId' jobId' job' hjob' hlease => ?_) ?_
    · by_cases hsame : dagId' = dagId
      · subst hsame
        simp only [if_true, dependentsOf, hdag]
        exact hconsistent.complete (get?_jobs_of_job? hdag hjob) hleased nowMs result
      · simpa [hsame] using hconsistent
    · split
      · unfold completedRecord
        rw [lease_released, state_released]
        split
        · simp [succeeded]
        · split
          next hpending => simpa [hpending.2.2] using hlease
          next => exact hlease
      · exact hlease
    · refine (h.heap.rewrite hmodified rfl fun dagId' jobId' job' hjob' => ?_).releaseDependents
        nowMs (h.ownIds.rewrite hmodified fun dagId' jobId' job' _ => ?_)
        fun dependent hmem =>
          exists_job?_of_dags_eq_mapJobs hmodified (h.exists_dependent dagId jobId dependent hmem)
      · rcases job?_eq_or_ne hjob hjob' with ⟨rfl, rfl, rfl⟩ | hkey
        · exact .inr ⟨by simp [succeeded, JobRecord.isReady], .inl (offHeap_of_leased hleased)⟩
        · rw [atJob_of_ne hkey]
          exact .inl ⟨rfl, rfl, rfl⟩
      · unfold atJob
        split <;> rfl
  · rw [herror]
    exact h

theorem Invariant.cancel {scheduler : Scheduler} (h : scheduler.Invariant specs) (dagId : String) :
    (scheduler.cancel dagId).2.Invariant specs := by
  rcases cancel_cases scheduler dagId with ⟨_, _, hok, hcancel⟩ | ⟨_, herror⟩
  · have hdags := dags_cancel hok
    refine h.rewrite hdags (fun dagId' dag spec _ hconsistent => ?_)
      (fun dagId' jobId job _ hlease => ?_)
      (h.heap.rewrite hdags (by rw [hcancel]) fun dagId' jobId job _ => ?_)
    · by_cases hsame : dagId' = dagId
      · simpa [hsame] using hconsistent.cancel
      · simpa [hsame] using hconsistent
    · unfold cancelled
      split
      · split
        · exact hlease
        · simp
      · exact hlease
    · unfold cancelled
      split
      · split
        · exact .inl ⟨rfl, rfl, rfl⟩
        · exact .inr ⟨by simp [JobRecord.isReady], .inr rfl⟩
      · exact .inl ⟨rfl, rfl, rfl⟩
  · rw [herror]
    exact h

theorem Invariant.submit {scheduler : Scheduler} (h : scheduler.Invariant specs) {spec : DagSpec}
    {nowMs : ℤ} {order : List String} (hvalid : spec.validate = .ok order) {after : Scheduler}
    {dag : DagRecord} (hadmitted : Admitted spec nowMs scheduler after dag) :
    after.Invariant fun dagId => if spec.id = dagId then some spec else specs dagId := by
  have hget : ∀ dagId, after.dags.get? dagId =
      if dagId = spec.id then some dag else scheduler.dags.get? dagId := by
    intro dagId
    rw [hadmitted.dags, Table.get?_insert]
  refine ⟨fun dagId dag' hdag => ?_, fun dagId spec' hspec => ?_, fun dagId jobId job hjob => ?_,
    h.heap.admit hadmitted⟩
  · rw [hget] at hdag
    by_cases hsame : dagId = spec.id
    · subst hsame
      rw [if_pos rfl, Option.some.injEq] at hdag
      subst hdag
      exact ⟨spec, if_pos rfl, rfl, ⟨order, hvalid⟩,
        DagRecord.Consistent.admitted hadmitted.built hadmitted.records⟩
    · rw [if_neg hsame] at hdag
      rw [if_neg (Ne.symm hsame)]
      exact h.graph dagId dag' hdag
  · rw [hget]
    by_cases hsame : dagId = spec.id
    · exact ⟨dag, if_pos hsame⟩
    · rw [if_neg (Ne.symm hsame)] at hspec
      rw [if_neg hsame]
      exact h.present dagId spec' hspec
  · obtain ⟨dag', hdag, hlookup⟩ := job?_eq_some_iff.mp hjob
    rw [hget] at hdag
    by_cases hsame : dagId = spec.id
    · rw [if_pos hsame, Option.some.injEq] at hdag
      subst hdag
      rw [hadmitted.records jobId job hlookup, DagSpec.initialRecord]
      by_cases hzero : spec.inDegree job.spec.id = 0 <;> simp [hzero]
    · rw [if_neg hsame] at hdag
      exact h.lease dagId jobId job (job?_eq_some_iff.mpr ⟨dag', hdag, hlookup⟩)

theorem Invariant.new (config : SchedulerConfig) :
    (Scheduler.new config).Invariant fun _ => none := by
  refine ⟨?_, ?_, ?_, ?_, ?_, ?_⟩ <;> simp [Scheduler.new, job?]

/-! ## Runs -/

/-- Every operation keeps the invariant for the specs admitted so far. -/
theorem Invariant.perform {scheduler : Scheduler} {history : List Event}
    (h : scheduler.Invariant (admittedSpec history)) (operation : Operation) :
    (operation.perform scheduler).2.Invariant
      (admittedSpec ((operation.perform scheduler).1 :: history)) := by
  cases operation with
  | submit spec nowMs =>
      rcases submit_cases scheduler spec nowMs with
        ⟨order, dag, hvalid, hok, hadmitted⟩ | ⟨error, herror⟩
      · have hspecs : admittedSpec (.submit spec nowMs (.ok ()) :: history) =
            fun dagId => if spec.id = dagId then some spec else admittedSpec history dagId := rfl
        simp only [Operation.perform, hok, hspecs]
        exact h.submit hvalid hadmitted
      · simp only [Operation.perform, herror]
        rwa [admittedSpec_cons_of_not_submit (by simp)]
  | claim owner nowMs leaseMs =>
      rw [admittedSpec_cons_of_not_submit (by simp [Operation.perform])]
      exact h.claim owner nowMs leaseMs
  | heartbeat dagId jobId owner token nowMs leaseMs =>
      rw [admittedSpec_cons_of_not_submit (by simp [Operation.perform])]
      exact h.heartbeat dagId jobId owner token nowMs leaseMs
  | complete dagId jobId owner token result nowMs =>
      rw [admittedSpec_cons_of_not_submit (by simp [Operation.perform])]
      exact h.complete dagId jobId owner token result nowMs
  | fail dagId jobId owner token nowMs =>
      rw [admittedSpec_cons_of_not_submit (by simp [Operation.perform])]
      exact h.fail dagId jobId owner token nowMs
  | reap nowMs =>
      rw [admittedSpec_cons_of_not_submit (by simp [Operation.perform])]
      exact h.reap nowMs
  | cancel dagId =>
      rw [admittedSpec_cons_of_not_submit (by simp [Operation.perform])]
      exact h.cancel dagId

end Scheduler

/-- The invariant holds in every state of every run. -/
theorem run_invariant {config : SchedulerConfig} {history : List Event} {scheduler : Scheduler}
    (hrun : Run config history scheduler) : scheduler.Invariant (admittedSpec history) := by
  induction hrun with
  | new => exact Scheduler.Invariant.new config
  | step operation _ ih => exact ih.perform operation

end JobOrchestrator
