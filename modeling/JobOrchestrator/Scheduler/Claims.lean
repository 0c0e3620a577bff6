import JobOrchestrator.Scheduler.Budget

/-!
# What a claim returns

`claim_selection` describes an accepted claim in full: it reaps, and then either
finds no eligible job, or takes the one with the least `selectionRank` and
changes nothing but its record, the sequence and the heap.  `claim_cases` has the
selection; what is added here is where the heap entries go (`claim_ready`), and
that within the attempt budget nothing saturates.
-/

namespace JobOrchestrator

open Scheduler

/-- The order in which jobs are claimed: the earliest, then the most urgent, then
the identifiers. -/
def selectionRank (dagId : String) (job : JobRecord) : ℤ ×ₗ ℤ ×ₗ String ×ₗ String :=
  toLex (job.availableAtMs, toLex (-job.spec.priority, toLex (dagId, job.spec.id)))

theorem readyKey_le_iff_rank {first second : JobRecord} (hfirst : first.spec.Valid)
    (hsecond : second.spec.Valid) (dagId dagId' : String) :
    readyKey dagId first.spec first.availableAtMs ≤
        readyKey dagId' second.spec second.availableAtMs ↔
      selectionRank dagId first ≤ selectionRank dagId' second := by
  have hlt : -first.spec.priority < -second.spec.priority ↔
      second.spec.priority < first.spec.priority := by omega
  have heq : -first.spec.priority = -second.spec.priority ↔
      first.spec.priority = second.spec.priority := by omega
  rw [readyKey_le_iff hfirst hsecond]
  unfold selectionRank
  simp only [Prod.Lex.toLex_le_toLex, hlt, heq]

/-- An accepted claim takes entries of cancelled jobs off the heap, and the entry
of the job that it returns. -/
theorem Scheduler.claim_ready {scheduler : Scheduler} (h : HeapMatches scheduler)
    (hids : OwnIds scheduler) (owner : String) (nowMs : ℤ) {leaseMs : ℤ}
    (hvalid : validLease scheduler.config owner leaseMs = true) :
    ∃ stale, (∀ key ∈ stale, ∃ job,
        (scheduler.reap nowMs).2.job? key.dagId key.jobId = some job ∧ job.state = .cancelled) ∧
      (((scheduler.claim owner nowMs leaseMs).1 = .ok none ∧
          (scheduler.reap nowMs).2.ready.entries =
            stale ++ (scheduler.claim owner nowMs leaseMs).2.ready.entries) ∨
        ∃ claimed job, (scheduler.claim owner nowMs leaseMs).1 = .ok (some claimed) ∧
          (scheduler.reap nowMs).2.job? claimed.dagId claimed.jobId = some job ∧
          (scheduler.reap nowMs).2.ready.entries =
            stale ++ readyKey claimed.dagId job.spec job.availableAtMs ::
              (scheduler.claim owner nowMs leaseMs).2.ready.entries) := by
  have hreap := h.reap hids nowMs
  have hclaim : scheduler.claim owner nowMs leaseMs =
      claimLoop owner nowMs leaseMs (scheduler.reap nowMs).2.ready.size
        (scheduler.reap nowMs).2 := by
    rw [claim, hvalid]
    rfl
  obtain ⟨stale, ready, hsplit, hstale, hresult⟩ :=
    claimLoop_cases owner nowMs leaseMs _ (scheduler.reap nowMs).2 le_rfl
  -- an entry that is not live belongs to a cancelled job
  have hcancelled : ∀ key ∈ stale, ∃ job,
      (scheduler.reap nowMs).2.job? key.dagId key.jobId = some job ∧ job.state = .cancelled := by
    intro key hkey
    have hmem : key ∈ (scheduler.reap nowMs).2.ready := by
      rw [MinHeap.mem_iff, hsplit]
      exact List.mem_append_left _ hkey
    obtain ⟨job, hjob, hstate | ⟨hready, heq⟩⟩ := hreap.live key hmem
    · exact ⟨job, hjob, hstate⟩
    · refine absurd ⟨job, hjob, hready, ?_⟩ (hstale key hkey)
      rw [heq]
      rfl
  refine ⟨stale, hcancelled, ?_⟩
  rw [hclaim]
  rcases hresult with ⟨_, hnone⟩ | ⟨key, job, hpeek, _, hjob, hready, _, hsome⟩
  · rw [hnone]
    exact .inl ⟨rfl, hsplit⟩
  · rw [hsome]
    refine .inr ⟨_, job, rfl, hjob, ?_⟩
    obtain ⟨stored, hstored, hcase⟩ := hreap.live key (by
      rw [MinHeap.mem_iff, hsplit]
      exact List.mem_append_right _ (MinHeap.mem_of_peek?_eq_some hpeek))
    rw [hjob] at hstored
    cases hstored
    have hkey : key = readyKey key.dagId job.spec job.availableAtMs := by
      rcases hcase with hstate | ⟨_, heq⟩
      · simp [JobRecord.isReady, hstate] at hready
      · exact heq
    calc (scheduler.reap nowMs).2.ready.entries
      _ = stale ++ key :: ready.pop.entries := by
          rw [hsplit, MinHeap.entries_of_peek?_eq_some hpeek]
      _ = _ := by
          nth_rewrite 1 [hkey]
          rfl

theorem saturatingAdd_eq_min {nowMs leaseMs : ℤ} (hnow : I64.min ≤ nowMs) (hpos : 0 < leaseMs) :
    I64.saturatingAdd nowMs leaseMs = min I64.max (nowMs + leaseMs) := by
  apply I64.clamp_eq_min
  omega

/-- The record of a job that a claim has returned. -/
def claimedRecord (owner token : String) (expiresAtMs : ℤ) (job : JobRecord) : JobRecord :=
  { job with
    state := .leased
    attempts := job.attempts + 1
    lease := some ⟨owner, token, expiresAtMs⟩ }

theorem leased_eq_claimedRecord {job : JobRecord} (h : job.Budgeted) (hvalid : job.spec.Valid)
    (owner token : String) (expiresAtMs : ℤ) :
    leased owner token expiresAtMs job = claimedRecord owner token expiresAtMs job := by
  have hle := h.attempts_le
  have hmax := hvalid.attempts_le
  have hattempts : U16.saturatingAdd job.attempts 1 = job.attempts + 1 :=
    U16.saturatingAdd_eq (by omega)
  rw [leased, claimedRecord, hattempts]

/-- The result and the effect of a claim that takes a job. -/
structure Scheduler.Takes (reaped after : Scheduler)
    (result : Except SchedulerError (Option ClaimedJob)) (owner : String) (nowMs leaseMs : ℤ)
    (dagId jobId : String) (job : JobRecord) : Prop where
  eligible : reaped.Eligible nowMs dagId jobId job
  least : ∀ dagId' jobId' other, reaped.Eligible nowMs dagId' jobId' other →
    selectionRank dagId job ≤ selectionRank dagId' other
  result : result = .ok (some ⟨dagId, jobId, job.spec.kind, job.spec.payload, job.attempts + 1,
    reaped.nextToken dagId jobId, min I64.max (nowMs + leaseMs)⟩)
  dags : after.dags = mapJobs (atJob dagId jobId (claimedRecord owner
    (reaped.nextToken dagId jobId) (min I64.max (nowMs + leaseMs)))) reaped.dags
  config : after.config = reaped.config
  sequence : after.sequence = U64.saturatingAdd reaped.sequence 1
  ready : ∃ stale, (∀ key ∈ stale, ∃ other,
      reaped.job? key.dagId key.jobId = some other ∧ other.state = .cancelled) ∧
    reaped.ready.entries =
      stale ++ readyKey dagId job.spec job.availableAtMs :: after.ready.entries

/-- A valid claim in a reachable state reaps; it then returns nothing exactly when
no job is eligible, and otherwise takes the eligible job of least rank. -/
theorem claim_selection {config : SchedulerConfig} {history : List Event} {scheduler : Scheduler}
    (hrun : Run config history scheduler) {owner : String} {nowMs leaseMs : ℤ}
    (hvalid : validLease config owner leaseMs = true) (hnow : I64.min ≤ nowMs) :
    let reaped := (scheduler.reap nowMs).2
    let claimed := scheduler.claim owner nowMs leaseMs
    (claimed.1 = .ok none ↔ ∀ dagId jobId job, ¬reaped.Eligible nowMs dagId jobId job) ∧
    ((∃ dagId jobId job, reaped.Eligible nowMs dagId jobId job) →
      ∃ dagId jobId job,
        reaped.Takes claimed.2 claimed.1 owner nowMs leaseMs dagId jobId job) := by
  intro reaped claimed
  have h := run_invariant hrun
  have hreaped : Run config (.reap nowMs (scheduler.reap nowMs).1 :: history) reaped :=
    hrun.step (.reap nowMs)
  have hinvariant := run_invariant hreaped
  have hvalidLease : validLease scheduler.config owner leaseMs = true := by
    rwa [run_config hrun]
  have hexpires := saturatingAdd_eq_min hnow (pos_of_validLease hvalid)
  obtain ⟨stale, hstale, hentries⟩ :=
    claim_ready h.heap h.ownIds owner nowMs hvalidLease
  rcases claim_cases h.heap h.ownIds owner nowMs leaseMs with
    ⟨hinvalid, _⟩ | ⟨_, ready, ⟨hnone, hclaim, _⟩ | ⟨key, job, hselects, hclaim, _⟩⟩
  · rw [hvalidLease] at hinvalid
    cases hinvalid
  · have hresult : claimed.1 = .ok none := congrArg Prod.fst hclaim
    refine ⟨iff_of_true hresult hnone, fun hsome => ?_⟩
    obtain ⟨dagId, jobId, job, heligible⟩ := hsome
    exact absurd heligible (hnone dagId jobId job)
  · have heligible := hselects.eligible
    obtain ⟨hbudgeted, _, _⟩ := (run_accounts hreaped).present _ _ job heligible.1
    obtain ⟨hspec, hid⟩ := hinvariant.valid_spec heligible.1
    have hleased := leased_eq_claimedRecord hbudgeted hspec owner
      (reaped.nextToken key.dagId key.jobId) (min I64.max (nowMs + leaseMs))
    have hresult : claimed.1 = .ok (some ⟨key.dagId, key.jobId, job.spec.kind, job.spec.payload,
        job.attempts + 1, reaped.nextToken key.dagId key.jobId,
        min I64.max (nowMs + leaseMs)⟩) := by
      have hattempts : U16.saturatingAdd job.attempts 1 = job.attempts + 1 :=
        congrArg JobRecord.attempts hleased
      show (scheduler.claim owner nowMs leaseMs).1 = _
      rw [hclaim]
      dsimp only
      rw [claimed_grant, hattempts, hexpires]
    refine ⟨iff_of_false (by simp [hresult]) fun hnot => hnot _ _ _ heligible, fun _ =>
      ⟨key.dagId, key.jobId, job, heligible, fun dagId jobId other hother => ?_, hresult, ?_, ?_,
        ?_, stale, hstale, ?_⟩⟩
    · have hle := hselects.least dagId jobId other hother
      rw [hselects.key_eq] at hle
      exact (readyKey_le_iff_rank hspec (hinvariant.valid_spec hother.1).1 key.dagId dagId).mp hle
    · show (scheduler.claim owner nowMs leaseMs).2.dags = _
      rw [hclaim]
      dsimp only
      rw [dags_grant heligible.1, hexpires]
      refine mapJobs_congr fun dagId jobId other hother => ?_
      by_cases hkey : dagId = key.dagId ∧ jobId = key.jobId
      · obtain ⟨rfl, rfl⟩ := hkey
        rw [heligible.1] at hother
        cases hother
        rw [atJob_self, atJob_self, hleased]
      · rw [atJob_of_ne hkey, atJob_of_ne hkey]
    · show (scheduler.claim owner nowMs leaseMs).2.config = _
      rw [hclaim]
      rfl
    · show (scheduler.claim owner nowMs leaseMs).2.sequence = _
      rw [hclaim]
      rfl
    · -- the entry that the loop takes off the heap is that of the job it returns
      rcases hentries with ⟨hnone, _⟩ | ⟨returned, taken, hreturned, htaken, hsplit⟩
      · exact absurd (hnone.symm.trans hresult) (by simp)
      · have hsame := hreturned.symm.trans hresult
        simp only [Except.ok.injEq, Option.some.injEq] at hsame
        subst hsame
        rw [heligible.1] at htaken
        cases htaken
        exact hsplit

/-- Two jobs wait, and a cancelled graph has left an entry in front of them. -/
def waitingRun : List Event × Scheduler :=
  let first := (Operation.submit ⟨"a", [⟨"j", .uppercase, "", 3, 0⟩], []⟩ 0).perform
    (Scheduler.new .default)
  let second := (Operation.submit ⟨"b", [⟨"j", .uppercase, "", 3, 0⟩, ⟨"k", .uppercase, "", 3, 9⟩],
    []⟩ 5).perform first.2
  let cancelled := (Operation.cancel "a").perform second.2
  ([cancelled.1, second.1, first.1], cancelled.2)

theorem run_waitingRun : Run .default waitingRun.1 waitingRun.2 :=
  Run.step (.cancel "a") (Run.step (.submit ⟨"b", [⟨"j", .uppercase, "", 3, 0⟩,
    ⟨"k", .uppercase, "", 3, 9⟩], []⟩ 5)
    (Run.step (.submit ⟨"a", [⟨"j", .uppercase, "", 3, 0⟩], []⟩ 0) Run.new))

/-- The claim passes over the stale entry and takes the more urgent of the two. -/
theorem claim_selection_waiting :
    (∃ dagId jobId job, (waitingRun.2.reap 7).2.Takes (waitingRun.2.claim "worker" 7 1000).2
      (waitingRun.2.claim "worker" 7 1000).1 "worker" 7 1000 dagId jobId job) ∧
    (waitingRun.2.claim "worker" 7 1000).1 =
      .ok (some ⟨"b", "k", .uppercase, "", 1, "lease-b-k-1", 1007⟩) := by
  have hjob : (waitingRun.2.reap 7).2.job? "b" "k" =
      some ⟨⟨"k", .uppercase, "", 3, 9⟩, .ready, 0, 5, 0, none, none⟩ := by decide
  refine ⟨(claim_selection run_waitingRun (by decide) (by decide)).2 ?_, by decide⟩
  exact ⟨"b", "k", _, hjob, by decide, by decide⟩

end JobOrchestrator
