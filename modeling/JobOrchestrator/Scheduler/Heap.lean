import JobOrchestrator.Scheduler.Admission

/-!
# The heap and the job records agree

`HeapMatches` is the representation invariant of the ready heap: every ready or
retrying job has an entry under its current availability time, every other entry
belongs to a cancelled job, and no job has two entries.  The heap changes in
three ways only: records change under it (`HeapMatches.rewrite`), one entry is
pushed for a job that becomes ready (`HeapMatches.push`), or the claim loop pops
a prefix (`HeapMatches.drop`, `HeapMatches.grant`).
-/

namespace JobOrchestrator

namespace Scheduler

/-- A job without a heap entry. -/
def OffHeap (job : JobRecord) : Prop := job.isReady = false ∧ job.state ≠ .cancelled

/-- The heap holds the keys of the ready and retrying jobs, each once, and
otherwise only entries of cancelled jobs. -/
structure HeapMatches (scheduler : Scheduler) : Prop where
  live : ∀ key ∈ scheduler.ready, ∃ job, scheduler.job? key.dagId key.jobId = some job ∧
    (job.state = .cancelled ∨
      job.isReady = true ∧ key = readyKey key.dagId job.spec job.availableAtMs)
  listed : ∀ dagId jobId job, scheduler.job? dagId jobId = some job → job.isReady = true →
    readyKey dagId job.spec job.availableAtMs ∈ scheduler.ready
  distinct : (scheduler.ready.entries.map fun key => (key.dagId, key.jobId)).Nodup

/-- Jobs are stored under their own identifier. -/
def OwnIds (scheduler : Scheduler) : Prop :=
  ∀ dagId jobId job, scheduler.job? dagId jobId = some job → job.spec.id = jobId

theorem OwnIds.rewrite {before after : Scheduler} (h : OwnIds before)
    {f : String → String → JobRecord → JobRecord} (hdags : after.dags = mapJobs f before.dags)
    (hf : ∀ dagId jobId job, before.job? dagId jobId = some job →
      (f dagId jobId job).spec = job.spec) : OwnIds after := by
  intro dagId jobId job hjob
  rw [job?_of_dags_eq_mapJobs hdags, Option.map_eq_some_iff] at hjob
  obtain ⟨old, hold, rfl⟩ := hjob
  rw [hf dagId jobId old hold]
  exact h dagId jobId old hold

/-- The record changes in no way that the heap can see. -/
def SameKey (before after : JobRecord) : Prop :=
  after.spec = before.spec ∧ after.availableAtMs = before.availableAtMs ∧ after.state = before.state

/-- Records may change under the heap as long as a job with an entry keeps its
key and state or is cancelled, and no job becomes ready. -/
theorem HeapMatches.rewrite {before after : Scheduler} (h : HeapMatches before)
    {f : String → String → JobRecord → JobRecord} (hdags : after.dags = mapJobs f before.dags)
    (hready : after.ready = before.ready)
    (hf : ∀ dagId jobId job, before.job? dagId jobId = some job →
      SameKey job (f dagId jobId job) ∨ (f dagId jobId job).isReady = false ∧
        (OffHeap job ∨ (f dagId jobId job).state = .cancelled)) :
    HeapMatches after := by
  refine ⟨fun key hkey => ?_, fun dagId jobId job hjob hisReady => ?_, by
    rw [hready]; exact h.distinct⟩
  · rw [hready] at hkey
    obtain ⟨job, hjob, hcase⟩ := h.live key hkey
    refine ⟨f key.dagId key.jobId job, by rw [job?_of_dags_eq_mapJobs hdags, hjob]; rfl, ?_⟩
    rcases hf _ _ job hjob with ⟨hspec, havailable, hstate⟩ | ⟨_, hoff | hcancelled⟩
    · rw [hspec, havailable, hstate]
      exact hcase.imp_right fun hlive =>
        ⟨by simpa [JobRecord.isReady, hstate] using hlive.1, hlive.2⟩
    · rcases hcase with hcancelled | ⟨hisReady, _⟩
      · exact absurd hcancelled hoff.2
      · rw [hoff.1] at hisReady
        cases hisReady
    · exact .inl hcancelled
  · rw [job?_of_dags_eq_mapJobs hdags, Option.map_eq_some_iff] at hjob
    obtain ⟨old, hold, rfl⟩ := hjob
    rw [hready]
    rcases hf dagId jobId old hold with ⟨hspec, havailable, hstate⟩ | ⟨hnot, _⟩
    · rw [hspec, havailable]
      exact h.listed dagId jobId old hold (by simpa [JobRecord.isReady, hstate] using hisReady)
    · rw [hnot] at hisReady
      cases hisReady

theorem HeapMatches.push {before after : Scheduler} (h : HeapMatches before) (hids : OwnIds before)
    {dagId jobId : String} {job : JobRecord} (hjob : before.job? dagId jobId = some job)
    (hoff : OffHeap job) {f : JobRecord → JobRecord} (hspec : (f job).spec = job.spec)
    (hisReady : (f job).isReady = true)
    (hdags : after.dags = mapJobs (atJob dagId jobId f) before.dags)
    (hready : after.ready = before.ready.push (readyKey dagId job.spec (f job).availableAtMs)) :
    HeapMatches after := by
  have hlookup : ∀ dagId' jobId', after.job? dagId' jobId' =
      (before.job? dagId' jobId').map (atJob dagId jobId f dagId' jobId') :=
    job?_of_dags_eq_mapJobs hdags
  have hid := hids dagId jobId job hjob
  have hself : after.job? dagId jobId = some (f job) := by simp [hlookup, hjob]
  -- an entry of the job would be stale or live, and a job off the heap has neither
  have hother : ∀ key ∈ before.ready, ¬(key.dagId = dagId ∧ key.jobId = jobId) := by
    rintro key hkey ⟨hdag, hjobId⟩
    obtain ⟨stored, hstored, hcase⟩ := h.live key hkey
    rw [hdag, hjobId, hjob] at hstored
    cases hstored
    rcases hcase with hcancelled | ⟨hstale, _⟩
    · exact hoff.2 hcancelled
    · rw [hoff.1] at hstale
      cases hstale
  refine ⟨fun key hkey => ?_, fun dagId' jobId' job' hjob' hisReady' => ?_, ?_⟩
  · rw [hready, MinHeap.mem_push] at hkey
    rcases hkey with rfl | hkey
    · refine ⟨f job, ?_, .inr ⟨hisReady, by rw [hspec]; rfl⟩⟩
      simpa only [readyKey, hid] using hself
    · obtain ⟨stored, hstored, hcase⟩ := h.live key hkey
      refine ⟨stored, ?_, hcase⟩
      rw [hlookup, hstored, Option.map_some, atJob_of_ne (hother key hkey)]
  · rw [hready, MinHeap.mem_push]
    by_cases hsame : dagId' = dagId ∧ jobId' = jobId
    · obtain ⟨rfl, rfl⟩ := hsame
      rw [hself] at hjob'
      cases hjob'
      exact .inl (by rw [hspec])
    · rw [hlookup, Option.map_eq_some_iff] at hjob'
      obtain ⟨old, hold, rfl⟩ := hjob'
      rw [atJob_of_ne hsame] at hisReady' ⊢
      exact .inr (h.listed dagId' jobId' old hold hisReady')
  · rw [hready, ((MinHeap.entries_push_perm _ _).map _).nodup_iff, List.map_cons,
      List.nodup_cons]
    refine ⟨fun hmem => ?_, h.distinct⟩
    obtain ⟨key, hkey, hpair⟩ := List.mem_map.mp hmem
    simp only [readyKey, Prod.mk.injEq] at hpair
    exact hother key hkey ⟨hpair.1, hpair.2.trans hid⟩

theorem HeapMatches.drop {scheduler : Scheduler} (h : HeapMatches scheduler)
    {stale : List ReadyKey} {ready : MinHeap ReadyKey} (hids : OwnIds scheduler)
    (hsplit : scheduler.ready.entries = stale ++ ready.entries)
    (hstale : ∀ key ∈ stale, ¬scheduler.Live key) :
    HeapMatches (scheduler.withReady ready) := by
  have hmem : ∀ key ∈ ready, key ∈ scheduler.ready := fun key hkey => by
    rw [MinHeap.mem_iff, hsplit]
    exact List.mem_append_right _ hkey
  refine ⟨fun key hkey => h.live key (hmem key hkey), fun dagId jobId job hjob hisReady => ?_, ?_⟩
  · have hkey := h.listed dagId jobId job hjob hisReady
    rw [MinHeap.mem_iff, hsplit, List.mem_append] at hkey
    refine hkey.resolve_left fun hbad => hstale _ hbad ⟨job, ?_, hisReady, rfl⟩
    rw [← hids dagId jobId job hjob] at hjob
    exact hjob
  · have hdistinct := h.distinct
    rw [hsplit, List.map_append, List.nodup_append] at hdistinct
    exact hdistinct.2.1

/-- The granted job loses its entry together with its ready state. -/
theorem HeapMatches.grant {before after : Scheduler} (h : HeapMatches before)
    {key : ReadyKey} (hpeek : before.ready.peek? = some key) {f : JobRecord → JobRecord}
    (hf : ∀ job, (f job).isReady = false)
    (hdags : after.dags = mapJobs (atJob key.dagId key.jobId f) before.dags)
    (hready : after.ready = before.ready.pop) (hids : OwnIds before) : HeapMatches after := by
  have hlookup : ∀ dagId' jobId', after.job? dagId' jobId' =
      (before.job? dagId' jobId').map (atJob key.dagId key.jobId f dagId' jobId') :=
    job?_of_dags_eq_mapJobs hdags
  have hentries := MinHeap.entries_of_peek?_eq_some hpeek
  have hdistinct := h.distinct
  rw [hentries, List.map_cons, List.nodup_cons] at hdistinct
  have hother : ∀ other ∈ before.ready.pop,
      ¬(other.dagId = key.dagId ∧ other.jobId = key.jobId) := by
    rintro other hmem ⟨hdag, hjobId⟩
    exact hdistinct.1 (List.mem_map.mpr ⟨other, hmem, by rw [hdag, hjobId]⟩)
  refine ⟨fun other hmem => ?_, fun dagId jobId job hjob hisReady => ?_, by
    rw [hready]; exact hdistinct.2⟩
  · rw [hready] at hmem
    obtain ⟨stored, hstored, hcase⟩ := h.live other (MinHeap.mem_of_mem_pop hmem)
    refine ⟨stored, ?_, hcase⟩
    rw [hlookup, hstored, Option.map_some, atJob_of_ne (hother other hmem)]
  · rw [hlookup, Option.map_eq_some_iff] at hjob
    obtain ⟨old, hold, rfl⟩ := hjob
    by_cases hsame : dagId = key.dagId ∧ jobId = key.jobId
    · obtain ⟨rfl, rfl⟩ := hsame
      rw [atJob_self, hf] at hisReady
      cases hisReady
    · rw [atJob_of_ne hsame] at hisReady ⊢
      have hmem := h.listed dagId jobId old hold hisReady
      rw [MinHeap.mem_iff, hentries, List.mem_cons] at hmem
      rw [hready]
      refine hmem.resolve_left fun hkey => hsame ?_
      rw [← hkey]
      exact ⟨rfl, (hids dagId jobId old hold).symm⟩

theorem HeapMatches.admit {before after : Scheduler} (h : HeapMatches before) {spec : DagSpec}
    {nowMs : ℤ} {dag : DagRecord} (hadmitted : Admitted spec nowMs before after dag) :
    HeapMatches after := by
  have hself : ∀ jobId, after.job? spec.id jobId = dag.jobs.get? jobId := fun jobId => by
    simp [job?, hadmitted.dags]
  have hother : ∀ dagId jobId, dagId ≠ spec.id →
      after.job? dagId jobId = before.job? dagId jobId := fun dagId jobId hne => by
    simp [job?, hadmitted.dags, Table.get?_insert_of_ne _ _ hne]
  -- the identifier is fresh, and every entry is of a job that is there
  have hold : ∀ key ∈ before.ready, key.dagId ≠ spec.id := by
    rintro key hkey hid
    obtain ⟨job, hjob, _⟩ := h.live key hkey
    simp [job?, hid, hadmitted.fresh] at hjob
  have hrecord : ∀ job ∈ spec.jobs,
      dag.jobs.get? job.id = some (spec.initialRecord nowMs job) := by
    intro job hjob
    obtain ⟨record, hlookup, hsame⟩ := hadmitted.built.exists_record hjob
    rw [hlookup, hadmitted.records job.id record hlookup, hsame]
  refine ⟨fun key hkey => ?_, fun dagId jobId job hjob hisReady => ?_, ?_⟩
  · rw [MinHeap.mem_iff, hadmitted.ready.mem_iff, List.mem_append] at hkey
    rcases hkey with hnew | hkey
    · obtain ⟨job, hjob, rfl⟩ := List.mem_map.mp hnew
      simp only [List.mem_filter, decide_eq_true_eq] at hjob
      refine ⟨spec.initialRecord nowMs job, ?_, .inr ⟨?_, rfl⟩⟩
      · exact (hself job.id).trans (hrecord job hjob.1)
      · simp [JobRecord.isReady, DagSpec.initialRecord, hjob.2]
    · obtain ⟨job, hjob, hcase⟩ := h.live key hkey
      exact ⟨job, by rwa [hother _ _ (hold key hkey)], hcase⟩
  · rw [MinHeap.mem_iff, hadmitted.ready.mem_iff, List.mem_append]
    by_cases hdag : dagId = spec.id
    · subst hdag
      rw [hself] at hjob
      have hinitial := hadmitted.records jobId job hjob
      have hzero : spec.inDegree job.spec.id = 0 := by
        rw [hinitial] at hisReady
        by_contra hne
        simp [JobRecord.isReady, DagSpec.initialRecord, hne] at hisReady
      refine .inl (List.mem_map.mpr ⟨job.spec, ?_, ?_⟩)
      · simpa [hzero] using (hadmitted.built.record jobId job hjob).1
      · rw [hinitial]
        rfl
    · rw [hother _ _ hdag] at hjob
      exact .inr (h.listed dagId jobId job hjob hisReady)
  · rw [(hadmitted.ready.map _).nodup_iff, List.map_append, List.nodup_append]
    refine ⟨?_, h.distinct, ?_⟩
    · rw [List.map_map]
      have hsub := (List.filter_sublist (l := spec.jobs)
        (p := fun job => decide (spec.inDegree job.id = 0))).map JobSpec.id
      have hids := (hsub.nodup hadmitted.built.jobIds_nodup).map (f := fun id => (spec.id, id))
        fun _ _ heq => (Prod.mk.inj heq).2
      simpa [List.map_map, Function.comp_def, readyKey] using hids
    · intro first hfirst second hsecond heq
      obtain ⟨key, hkey, rfl⟩ := List.mem_map.mp hfirst
      obtain ⟨other, hmem, rfl⟩ := List.mem_map.mp hsecond
      obtain ⟨job, _, rfl⟩ := List.mem_map.mp hkey
      exact hold other hmem (congrArg Prod.fst heq).symm

/-! ## Operations -/

@[simp] theorem spec_retried (config : SchedulerConfig) (nowMs : ℤ) (jobId : String)
    (job : JobRecord) : (retried config nowMs jobId job).spec = job.spec := by
  unfold retried
  split <;> rfl

@[simp] theorem lease_retried (config : SchedulerConfig) (nowMs : ℤ) (jobId : String)
    (job : JobRecord) : (retried config nowMs jobId job).lease = none := by
  unfold retried
  split <;> rfl

theorem offHeap_of_leased {job : JobRecord} (h : job.state = .leased) : OffHeap job := by
  simp [OffHeap, JobRecord.isReady, h]

/-- Retrying a leased job keeps the heap matched: a job with attempts left is
pushed, a dead letter stays outside. -/
theorem HeapMatches.retry {scheduler : Scheduler} (h : HeapMatches scheduler)
    (hids : OwnIds scheduler) {dagId jobId : String} {job : JobRecord}
    (hjob : scheduler.job? dagId jobId = some job) (hleased : job.state = .leased) (nowMs : ℤ) :
    HeapMatches (scheduler.retryOrDeadLetter dagId jobId nowMs).2 := by
  rw [retryOrDeadLetter_of_job? hjob]
  dsimp only
  split
  next hbudget =>
    refine h.rewrite (dags_modifyJob ..) rfl fun dagId' jobId' job' hjob' => ?_
    rcases job?_eq_or_ne hjob hjob' with ⟨rfl, rfl, rfl⟩ | hkey
    · rw [atJob_self, retried, if_pos hbudget]
      exact .inr ⟨by simp [JobRecord.isReady], .inl (offHeap_of_leased hleased)⟩
    · rw [atJob_of_ne hkey]
      exact .inl ⟨rfl, rfl, rfl⟩
  next hbudget =>
    refine h.push hids hjob (offHeap_of_leased hleased) (spec_retried ..) ?_
      (dags_modifyJob ..) ?_
    · rw [retried, if_neg hbudget]
      simp [JobRecord.isReady]
    · rw [retried, if_neg hbudget]
      rfl

theorem HeapMatches.retryAll {nowMs : ℤ} {keys : List (String × String)} (hnodup : keys.Nodup)
    {scheduler : Scheduler} (h : HeapMatches scheduler) (hids : OwnIds scheduler)
    (hkeys : ∀ key ∈ keys, ∃ job, scheduler.job? key.1 key.2 = some job ∧ job.state = .leased) :
    HeapMatches (retryAll nowMs keys scheduler) := by
  induction keys generalizing scheduler with
  | nil => exact h
  | cons key rest ih =>
      obtain ⟨dagId, jobId⟩ := key
      obtain ⟨hfresh, hrest⟩ := List.nodup_cons.mp hnodup
      obtain ⟨job, hjob, hleased⟩ := hkeys (dagId, jobId) List.mem_cons_self
      have hdags := dags_retryOrDeadLetter ⟨job, hjob⟩ nowMs
      rw [retryAll_cons]
      refine ih hrest (h.retry hids hjob hleased nowMs) ?_ fun other hother => ?_
      · refine hids.rewrite hdags fun dagId' jobId' job' _ => ?_
        unfold atJob
        split <;> simp
      · -- the other keys are still leased: only one record has changed
        obtain ⟨job', hjob', hleased'⟩ := hkeys other (List.mem_cons_of_mem _ hother)
        refine ⟨job', ?_, hleased'⟩
        rw [job?_of_dags_eq_mapJobs hdags, hjob', Option.map_some, atJob_of_ne]
        rintro ⟨hdag, hjobId⟩
        exact hfresh (Prod.ext hdag hjobId ▸ hother)

theorem state_of_leaseExpired {job : JobRecord} {nowMs : ℤ} (h : job.leaseExpired nowMs = true) :
    job.state = .leased := by
  unfold JobRecord.leaseExpired at h
  split at h
  · cases h
  · simp only [Bool.decide_and, Bool.and_eq_true, decide_eq_true_eq] at h
    exact h.1

theorem HeapMatches.reap {scheduler : Scheduler} (h : HeapMatches scheduler)
    (hids : OwnIds scheduler) (nowMs : ℤ) : HeapMatches (scheduler.reap nowMs).2 := by
  rw [reap_eq]
  refine h.retryAll (nodup_expiredLeases scheduler nowMs) hids fun key hkey => ?_
  obtain ⟨job, hjob, hexpired⟩ := mem_expiredLeases.mp hkey
  exact ⟨job, hjob, state_of_leaseExpired hexpired⟩

@[simp] theorem spec_released (nowMs : ℤ) (edges : ℕ) (job : JobRecord) :
    (released nowMs edges job).spec = job.spec := by
  unfold released
  split
  · rfl
  · split <;> rfl

@[simp] theorem remaining_released (nowMs : ℤ) (edges : ℕ) (job : JobRecord) :
    (released nowMs edges job).remainingDependencies = job.remainingDependencies - edges := by
  unfold released
  split
  next hzero => simp [hzero]
  next => split <;> rfl

@[simp] theorem lease_released (nowMs : ℤ) (edges : ℕ) (job : JobRecord) :
    (released nowMs edges job).lease = job.lease := by
  unfold released
  split
  · rfl
  · split <;> rfl

/-- Releasing only moves pending jobs, and only to ready. -/
theorem state_released (nowMs : ℤ) (edges : ℕ) (job : JobRecord) :
    (released nowMs edges job).state =
      if edges ≠ 0 ∧ job.remainingDependencies ≤ edges ∧ job.state = .pending then .ready
      else job.state := by
  unfold released
  by_cases hzero : edges = 0
  · simp [hzero]
  · by_cases hlast : job.remainingDependencies ≤ edges ∧ job.state = .pending
    · simp [hzero, hlast]
    · simp [hzero, hlast]

theorem HeapMatches.releaseOne {scheduler : Scheduler} (h : HeapMatches scheduler)
    (hids : OwnIds scheduler) {dagId dependent : String} {job : JobRecord}
    (hjob : scheduler.job? dagId dependent = some job) (nowMs : ℤ) :
    HeapMatches (releaseOne dagId nowMs dependent job scheduler) := by
  have hdags := dags_releaseOne dagId nowMs dependent job scheduler
  unfold Scheduler.releaseOne at hdags ⊢
  split at hdags
  next hlast =>
    rw [if_pos hlast]
    have hrecord : released nowMs 1 job = { job with
        remainingDependencies := job.remainingDependencies - 1
        state := .ready
        availableAtMs := nowMs } := by
      simp [released, hlast]
    refine h.push hids hjob ?_ (spec_released ..) ?_ hdags ?_
    · simp [OffHeap, JobRecord.isReady, hlast.2]
    · simp [JobRecord.isReady, hrecord]
    · rw [hrecord]
      rfl
  next hlast =>
    rw [if_neg hlast]
    refine h.rewrite hdags rfl fun dagId' jobId' job' hjob' => .inl ?_
    rcases job?_eq_or_ne hjob hjob' with ⟨rfl, rfl, rfl⟩ | hkey
    · simp [SameKey, released, hlast]
    · rw [atJob_of_ne hkey]
      exact ⟨rfl, rfl, rfl⟩

theorem HeapMatches.releaseDependents {dagId : String} (nowMs : ℤ) {dependents : List String}
    {scheduler : Scheduler} (h : HeapMatches scheduler) (hids : OwnIds scheduler)
    (hjobs : ∀ dependent ∈ dependents, ∃ job, scheduler.job? dagId dependent = some job) :
    HeapMatches (releaseDependents dagId nowMs dependents scheduler).2 := by
  induction dependents generalizing scheduler with
  | nil => exact h
  | cons dependent rest ih =>
      obtain ⟨job, hjob⟩ := hjobs dependent List.mem_cons_self
      have hdags := dags_releaseOne dagId nowMs dependent job scheduler
      rw [releaseDependents_cons hjob]
      refine ih (h.releaseOne hids hjob nowMs) ?_ fun other hother => ?_
      · refine hids.rewrite hdags fun dagId' jobId' job' _ => ?_
        unfold atJob
        split <;> simp
      · exact exists_job?_of_dags_eq_mapJobs hdags (hjobs other (List.mem_cons_of_mem _ hother))

end Scheduler

end JobOrchestrator
