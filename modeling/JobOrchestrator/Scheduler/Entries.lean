import JobOrchestrator.Scheduler.Dependencies

/-!
# The entries of the ready heap

`HeapMatches` read job by job: `entriesOf` lists the entries of one job, and
`ready_heap_exact` says that it is the singleton of the job's current key for a
ready or retrying job, and that only cancelled jobs leave entries behind.
-/

namespace JobOrchestrator

namespace Scheduler

/-- The heap entries of a job. -/
def entriesOf (scheduler : Scheduler) (dagId jobId : String) : List ReadyKey :=
  scheduler.ready.entries.filter fun key => key.dagId = dagId ∧ key.jobId = jobId

theorem mem_entriesOf {scheduler : Scheduler} {dagId jobId : String} {key : ReadyKey} :
    key ∈ scheduler.entriesOf dagId jobId ↔
      key ∈ scheduler.ready ∧ key.dagId = dagId ∧ key.jobId = jobId := by
  rw [entriesOf, List.mem_filter, decide_eq_true_eq, MinHeap.mem_iff]

variable {scheduler : Scheduler}

theorem HeapMatches.length_entriesOf_le (h : HeapMatches scheduler) (dagId jobId : String) :
    (scheduler.entriesOf dagId jobId).length ≤ 1 := by
  have hnodup : ((scheduler.entriesOf dagId jobId).map fun key => (key.dagId, key.jobId)).Nodup :=
    h.distinct.sublist (List.filter_sublist.map _)
  have hsame : ∀ key ∈ scheduler.entriesOf dagId jobId,
      (key.dagId, key.jobId) = (dagId, jobId) := by
    intro key hkey
    obtain ⟨-, hdag, hjob⟩ := mem_entriesOf.mp hkey
    rw [hdag, hjob]
  rw [List.map_congr_left hsame, List.map_const'] at hnodup
  by_contra hlong
  push Not at hlong
  exact List.nodup_replicate.mp hnodup |>.not_gt hlong

theorem HeapMatches.entriesOf_of_isReady (h : HeapMatches scheduler) (hids : OwnIds scheduler)
    {dagId jobId : String} {job : JobRecord} (hjob : scheduler.job? dagId jobId = some job)
    (hready : job.isReady = true) :
    scheduler.entriesOf dagId jobId = [readyKey dagId job.spec job.availableAtMs] := by
  have hmem : readyKey dagId job.spec job.availableAtMs ∈ scheduler.entriesOf dagId jobId :=
    mem_entriesOf.mpr ⟨h.listed dagId jobId job hjob hready, rfl, hids dagId jobId job hjob⟩
  obtain ⟨key, hkey⟩ : ∃ key, scheduler.entriesOf dagId jobId = [key] := by
    apply List.length_eq_one_iff.mp
    have hpos := List.length_pos_of_mem hmem
    have hle := h.length_entriesOf_le dagId jobId
    omega
  rw [hkey, List.mem_singleton] at hmem
  rw [hkey, hmem]

theorem HeapMatches.entriesOf_of_offHeap (h : HeapMatches scheduler) {dagId jobId : String}
    {job : JobRecord} (hjob : scheduler.job? dagId jobId = some job) (hoff : OffHeap job) :
    scheduler.entriesOf dagId jobId = [] := by
  apply List.eq_nil_iff_forall_not_mem.mpr
  intro key hmem
  obtain ⟨hkey, rfl, rfl⟩ := mem_entriesOf.mp hmem
  obtain ⟨stored, hstored, hcancelled | ⟨hready, -⟩⟩ := h.live key hkey
  · rw [hjob] at hstored
    cases hstored
    exact hoff.2 hcancelled
  · rw [hjob] at hstored
    cases hstored
    rw [hoff.1] at hready
    cases hready

/-- The subtraction in the key of a valid job does not saturate. -/
theorem readyKey_eq {job : JobSpec} (hvalid : job.Valid) (dagId : String) (availableAtMs : ℤ) :
    readyKey dagId job availableAtMs = ⟨availableAtMs, 100 - job.priority, dagId, job.id⟩ := by
  have hge := hvalid.priority_ge
  have hle := hvalid.priority_le
  have hexact : I16.saturatingSub 100 job.priority = 100 - job.priority := by
    unfold I16.saturatingSub
    omega
  rw [readyKey, hexact]

end Scheduler

open Scheduler

/-- The heap holds what the records call for, job by job. -/
structure ReadyHeapExact (history : List Event) (scheduler : Scheduler) : Prop where
  at_most_one : ∀ dagId jobId, (scheduler.entriesOf dagId jobId).length ≤ 1
  waiting : ∀ dagId jobId job, scheduler.job? dagId jobId = some job →
    job.state = .ready ∨ job.state = .retryWait →
    scheduler.entriesOf dagId jobId =
      [⟨job.availableAtMs, 100 - job.spec.priority, dagId, job.spec.id⟩] ∧ job.spec.id = jobId
  /-- Every entry belongs to a job of an admitted graph that waits or is cancelled. -/
  belongs : ∀ key ∈ scheduler.ready, (∃ spec, admittedSpec history key.dagId = some spec) ∧
    ∃ job, scheduler.job? key.dagId key.jobId = some job ∧
      (job.state = .ready ∨ job.state = .retryWait ∨ job.state = .cancelled)
  no_other : ∀ dagId jobId job, scheduler.job? dagId jobId = some job →
    job.state = .pending ∨ job.state = .leased ∨ job.state = .succeeded ∨
      job.state = .deadLettered →
    scheduler.entriesOf dagId jobId = []

/-- The representation invariant of the ready heap holds in every reachable state. -/
theorem ready_heap_exact {config : SchedulerConfig} {history : List Event}
    {scheduler : Scheduler} (hrun : Run config history scheduler) :
    ReadyHeapExact history scheduler := by
  have h := run_invariant hrun
  refine ⟨h.heap.length_entriesOf_le, fun dagId jobId job hjob hwaits => ?_,
    fun key hkey => ?_, fun dagId jobId job hjob hstate => ?_⟩
  · have hready : job.isReady = true := by simpa [JobRecord.isReady] using hwaits
    obtain ⟨hvalid, hid⟩ := h.valid_spec hjob
    rw [h.heap.entriesOf_of_isReady h.ownIds hjob hready, readyKey_eq hvalid]
    exact ⟨rfl, hid⟩
  · obtain ⟨job, hjob, hcase⟩ := h.heap.live key hkey
    obtain ⟨_, spec, _, _, hspec, _⟩ := h.exists_dag hjob
    refine ⟨⟨spec, hspec⟩, job, hjob, ?_⟩
    rcases hcase with hcancelled | ⟨hready, -⟩
    · exact .inr (.inr hcancelled)
    · simp only [JobRecord.isReady, Bool.decide_or, Bool.or_eq_true, decide_eq_true_eq] at hready
      exact hready.imp_right .inl
  · refine h.heap.entriesOf_of_offHeap hjob ?_
    rcases hstate with hstate | hstate | hstate | hstate <;>
      simp [OffHeap, JobRecord.isReady, hstate]

/-- The fresh diamond has one entry for its top and none for its bottom. -/
theorem ready_heap_exact_diamond :
    diamondScheduler.entriesOf "diamond" "top" = [⟨0, 100, "diamond", "top"⟩] ∧
      diamondScheduler.entriesOf "diamond" "bottom" = [] := by
  have hexact := ready_heap_exact run_diamondScheduler
  have htop : diamondScheduler.job? "diamond" "top" =
      some ⟨⟨"top", .uppercase, "", 1, 0⟩, .ready, 0, 0, 0, none, none⟩ := by decide
  have hbottom : diamondScheduler.job? "diamond" "bottom" =
      some ⟨⟨"bottom", .uppercase, "", 1, 0⟩, .pending, 0, 0, 3, none, none⟩ := by decide
  exact ⟨(hexact.waiting _ _ _ htop (.inl rfl)).1, hexact.no_other _ _ _ hbottom (.inl rfl)⟩

end JobOrchestrator
