import JobOrchestrator.Scheduler.Heap

/-!
# Which job a claim selects

`claimLoop_selects`: over a heap that matches the records, the claim loop grants
the eligible job with the least key, and returns nothing exactly when no job is
eligible.  `claim_cases` puts the reap in front of it.
-/

namespace JobOrchestrator

namespace Scheduler

/-- A job that a claim at a time may take. -/
def Eligible (scheduler : Scheduler) (nowMs : ℤ) (dagId jobId : String) (job : JobRecord) : Prop :=
  scheduler.job? dagId jobId = some job ∧ job.isReady = true ∧ job.availableAtMs ≤ nowMs

/-- The entry of an eligible job with the least key. -/
structure Selects (scheduler : Scheduler) (nowMs : ℤ) (key : ReadyKey) (job : JobRecord) :
    Prop where
  eligible : scheduler.Eligible nowMs key.dagId key.jobId job
  key_eq : key = readyKey key.dagId job.spec job.availableAtMs
  least : ∀ dagId jobId other, scheduler.Eligible nowMs dagId jobId other →
    key ≤ readyKey dagId other.spec other.availableAtMs

theorem readyKey_le_iff {first second : JobSpec} (hfirst : first.Valid) (hsecond : second.Valid)
    (dagId dagId' : String) (time time' : ℤ) :
    readyKey dagId first time ≤ readyKey dagId' second time' ↔
      time < time' ∨ time = time' ∧ (second.priority < first.priority ∨
        first.priority = second.priority ∧
          toLex (dagId, first.id) ≤ toLex (dagId', second.id)) := by
  have hrank : ∀ job : JobSpec, job.Valid → I16.saturatingSub 100 job.priority =
      100 - job.priority := by
    intro job hjob
    have := hjob.priority_ge
    have := hjob.priority_le
    unfold I16.saturatingSub
    omega
  have hlt : 100 - first.priority < 100 - second.priority ↔
      second.priority < first.priority := by omega
  have heq : 100 - first.priority = 100 - second.priority ↔
      first.priority = second.priority := by omega
  rw [ReadyKey.le_iff]
  unfold ReadyKey.fields readyKey
  rw [Prod.Lex.toLex_le_toLex, Prod.Lex.toLex_le_toLex]
  dsimp only
  rw [hrank first hfirst, hrank second hsecond, hlt, heq]

/-- What `grant` writes into the job. -/
def leased (owner token : String) (expiresAtMs : ℤ) (job : JobRecord) : JobRecord :=
  { job with
    attempts := U16.saturatingAdd job.attempts 1
    state := .leased
    lease := some ⟨owner, token, expiresAtMs⟩ }

/-- The token of the next grant for a job. -/
def nextToken (scheduler : Scheduler) (dagId jobId : String) : String :=
  leaseToken dagId jobId (U64.saturatingAdd scheduler.sequence 1)

theorem dags_grant {scheduler : Scheduler} {key : ReadyKey} {job : JobRecord}
    (hjob : scheduler.job? key.dagId key.jobId = some job) (ready : MinHeap ReadyKey)
    (owner : String) (nowMs leaseMs : ℤ) :
    ((scheduler.withReady ready).grant key job owner nowMs leaseMs).2.dags =
      mapJobs (atJob key.dagId key.jobId (leased owner (scheduler.nextToken key.dagId key.jobId)
        (I64.saturatingAdd nowMs leaseMs))) scheduler.dags := by
  have hpopped : (scheduler.withReady ready).job? key.dagId key.jobId = some job := hjob
  unfold grant nextToken
  dsimp only
  rw [← dags_withReady scheduler ready, ← dags_modifyJob]
  exact congrArg Scheduler.dags (modifyJob_congr hpopped rfl)

@[simp] theorem sequence_grant (scheduler : Scheduler) (ready : MinHeap ReadyKey) (key : ReadyKey)
    (job : JobRecord) (owner : String) (nowMs leaseMs : ℤ) :
    ((scheduler.withReady ready).grant key job owner nowMs leaseMs).2.sequence =
      U64.saturatingAdd scheduler.sequence 1 := rfl

@[simp] theorem config_grant (scheduler : Scheduler) (ready : MinHeap ReadyKey) (key : ReadyKey)
    (job : JobRecord) (owner : String) (nowMs leaseMs : ℤ) :
    ((scheduler.withReady ready).grant key job owner nowMs leaseMs).2.config =
      scheduler.config := rfl

/-- What a claim returns about the granted job. -/
theorem claimed_grant (scheduler : Scheduler) (ready : MinHeap ReadyKey) (key : ReadyKey)
    (job : JobRecord) (owner : String) (nowMs leaseMs : ℤ) :
    ((scheduler.withReady ready).grant key job owner nowMs leaseMs).1 =
      ⟨key.dagId, key.jobId, job.spec.kind, job.spec.payload, U16.saturatingAdd job.attempts 1,
        scheduler.nextToken key.dagId key.jobId, I64.saturatingAdd nowMs leaseMs⟩ := rfl

@[simp] theorem isReady_leased (owner token : String) (expiresAtMs : ℤ) (job : JobRecord) :
    (leased owner token expiresAtMs job).isReady = false := by
  simp [leased, JobRecord.isReady]

/-- The claim loop takes the eligible job with the least key. -/
theorem claimLoop_selects {scheduler : Scheduler} (h : HeapMatches scheduler)
    (hids : OwnIds scheduler) (owner : String) (nowMs leaseMs : ℤ) :
    ∃ ready,
      ((∀ dagId jobId job, ¬scheduler.Eligible nowMs dagId jobId job) ∧
        claimLoop owner nowMs leaseMs scheduler.ready.size scheduler =
          (.ok none, scheduler.withReady ready) ∧
        HeapMatches (scheduler.withReady ready)) ∨
      ∃ key job, scheduler.Selects nowMs key job ∧
        claimLoop owner nowMs leaseMs scheduler.ready.size scheduler =
          (let granted := (scheduler.withReady ready).grant key job owner nowMs leaseMs
          (.ok (some granted.1), granted.2)) ∧
        HeapMatches ((scheduler.withReady ready).grant key job owner nowMs leaseMs).2 := by
  obtain ⟨stale, ready, hsplit, hstale, hresult⟩ :=
    claimLoop_cases owner nowMs leaseMs scheduler.ready.size scheduler le_rfl
  have hmatches := h.drop hids hsplit hstale
  -- the entry of an eligible job survives the discarding of stale entries
  have hlisted : ∀ dagId jobId job, scheduler.Eligible nowMs dagId jobId job →
      readyKey dagId job.spec job.availableAtMs ∈ ready := fun dagId jobId job heligible =>
    hmatches.listed dagId jobId job heligible.1 heligible.2.1
  rcases hresult with ⟨hlate, hnone⟩ | ⟨key, job, hpeek, hdue, hjob, hready, havailable, hsome⟩
  · refine ⟨ready, .inl ⟨fun dagId jobId job heligible => ?_, hnone, hmatches⟩⟩
    have := hlate _ (hlisted dagId jobId job heligible)
    exact absurd heligible.2.2 (not_le.mpr this)
  · refine ⟨ready.pop, .inr ⟨key, job, ⟨⟨hjob, hready, havailable ▸ hdue⟩, ?_, ?_⟩, hsome, ?_⟩⟩
    · obtain ⟨stored, hstored, hcase⟩ := hmatches.live key (MinHeap.mem_of_peek?_eq_some hpeek)
      have hsame : stored = job := Option.some_injective _ (hstored.symm.trans hjob)
      subst hsame
      rcases hcase with hcancelled | ⟨_, hkey⟩
      · simp [JobRecord.isReady, hcancelled] at hready
      · exact hkey
    · exact fun dagId jobId other heligible =>
        MinHeap.peek?_le hpeek (hlisted dagId jobId other heligible)
    · exact hmatches.grant hpeek (fun job => isReady_leased ..)
        (dags_grant hjob ready.pop owner nowMs leaseMs)
        rfl hids

/-- A claim is rejected without any change, or reaps and then grants the
eligible job with the least key, or finds no eligible job. -/
theorem claim_cases {scheduler : Scheduler} (h : HeapMatches scheduler) (hids : OwnIds scheduler)
    (owner : String) (nowMs leaseMs : ℤ) :
    (validLease scheduler.config owner leaseMs = false ∧
      scheduler.claim owner nowMs leaseMs = (.error .invalidLease, scheduler)) ∨
    (validLease scheduler.config owner leaseMs = true ∧ ∃ ready,
      ((∀ dagId jobId job, ¬(scheduler.reap nowMs).2.Eligible nowMs dagId jobId job) ∧
        scheduler.claim owner nowMs leaseMs =
          (.ok none, (scheduler.reap nowMs).2.withReady ready) ∧
        HeapMatches ((scheduler.reap nowMs).2.withReady ready)) ∨
      ∃ key job, (scheduler.reap nowMs).2.Selects nowMs key job ∧
        scheduler.claim owner nowMs leaseMs =
          (let granted :=
            ((scheduler.reap nowMs).2.withReady ready).grant key job owner nowMs leaseMs
          (.ok (some granted.1), granted.2)) ∧
        HeapMatches
          (((scheduler.reap nowMs).2.withReady ready).grant key job owner nowMs leaseMs).2) := by
  unfold claim
  cases hvalid : validLease scheduler.config owner leaseMs with
  | false => exact .inl ⟨rfl, by simp⟩
  | true =>
      have hidsReap : OwnIds (scheduler.reap nowMs).2 := by
        refine hids.rewrite (dags_reap ..) fun dagId jobId job _ => ?_
        unfold reaped
        split <;> simp
      exact .inr ⟨rfl, claimLoop_selects (h.reap hids nowMs) hidsReap owner nowMs leaseMs⟩

theorem pos_of_validLease {config : SchedulerConfig} {owner : String} {leaseMs : ℤ}
    (h : validLease config owner leaseMs = true) : 0 < leaseMs := by
  simp only [validLease, Bool.not_eq_true', Bool.or_eq_false_iff, decide_eq_false_iff_not] at h
  omega

end Scheduler

end JobOrchestrator
