import JobOrchestrator.Store.Effects
import JobOrchestrator.Store.Mirror
import JobOrchestrator.Scheduler.Selection

/-!
# The order of claims on both sides

The heap of the scheduler compares availability times before priorities, the
query of the durable store priorities before availability times.  Over the same
jobs the two claims therefore select the same job exactly when an eligible job is
at once the most urgent and the earliest (`claims_agree_iff`).  A second
difference shows up only under a configuration without positive backoff, or at
the end of the clock: there the scheduler retries an expired lease at once, and
the store never does.
-/

namespace JobOrchestrator

/-- The job that a claim of the scheduler returns. -/
def Scheduler.pick (scheduler : Scheduler) (owner : String) (nowMs leaseMs : ℤ) :
    Option (String × String) :=
  match (scheduler.claim owner nowMs leaseMs).1 with
  | .ok (some claimed) => some (claimed.dagId, claimed.jobId)
  | _ => none

/-- The job that a claim of the store returns. -/
def PostgresStore.pick (db : Database) (owner : String) (leaseMs : ℤ) (token : Uuid) (now : ℤ) :
    Option (String × String) :=
  match (PostgresStore.claim db owner leaseMs token now).1 with
  | .ok (some claimed) => some (claimed.dagId, claimed.jobId)
  | _ => none

/-- Jobs become available at the same times on both sides. -/
def SameAvailability (scheduler : Scheduler) (db : Database) : Prop :=
  ∀ dagId jobId job row, scheduler.job? dagId jobId = some job →
    db.jobs.get? (dagId, jobId) = some row → row.availableAt = milliseconds job.availableAtMs

/-- Both claims select the same job, which no eligible job exceeds in priority. -/
def ClaimsAgree (scheduler : Scheduler) (db : Database) (owner : String) (leaseMs : ℤ)
    (token : Uuid) (nowMs : ℤ) : Prop :=
  scheduler.pick owner nowMs leaseMs =
    PostgresStore.pick db owner leaseMs token (milliseconds nowMs) ∧
  ∀ dagId jobId, scheduler.pick owner nowMs leaseMs = some (dagId, jobId) →
    ∃ job, scheduler.Eligible nowMs dagId jobId job ∧
      ∀ dagId' jobId' other, scheduler.Eligible nowMs dagId' jobId' other →
        other.spec.priority ≤ job.spec.priority

namespace Scheduler

/-- An expired lease whose retry is due at the very time at which it is reaped. -/
def RetriedAtOnce (scheduler : Scheduler) (nowMs : ℤ) (dagId jobId : String) (job : JobRecord) :
    Prop :=
  scheduler.job? dagId jobId = some job ∧ job.leaseExpired nowMs = true ∧
    job.attempts < job.spec.maxAttempts ∧
    retryAtMs scheduler.config jobId job.attempts nowMs ≤ nowMs

/-- An eligible job that no eligible job exceeds in priority or precedes in
time, and that comes before every retry that is due at once. -/
def Dominates (scheduler : Scheduler) (nowMs : ℤ) (dagId jobId : String) (job : JobRecord) :
    Prop :=
  scheduler.Eligible nowMs dagId jobId job ∧
    (∀ dagId' jobId' other, scheduler.Eligible nowMs dagId' jobId' other →
      other.spec.priority ≤ job.spec.priority ∧ job.availableAtMs ≤ other.availableAtMs) ∧
    ∀ dagId' jobId' other, scheduler.RetriedAtOnce nowMs dagId' jobId' other →
      readyKey dagId job.spec job.availableAtMs <
        readyKey dagId' other.spec (retryAtMs scheduler.config jobId' other.attempts nowMs)

/-- What a claim finds eligible after its reap. -/
theorem eligible_reap_iff {scheduler : Scheduler} {nowMs : ℤ} {dagId jobId : String}
    {job : JobRecord} : (scheduler.reap nowMs).2.Eligible nowMs dagId jobId job ↔
      scheduler.Eligible nowMs dagId jobId job ∨ ∃ old,
        scheduler.RetriedAtOnce nowMs dagId jobId old ∧
          job = retried scheduler.config nowMs jobId old := by
  unfold Eligible RetriedAtOnce
  rw [job?_of_dags_eq_mapJobs (dags_reap ..), Option.map_eq_some_iff]
  constructor
  · rintro ⟨⟨old, hold, hreaped⟩, hready, havailable⟩
    unfold reaped at hreaped
    split at hreaped
    next hexpired =>
      subst hreaped
      by_cases hbudget : old.spec.maxAttempts ≤ old.attempts
      · simp [retried, hbudget, JobRecord.isReady] at hready
      · rw [retried, if_neg hbudget] at havailable
        exact .inr ⟨old, ⟨hold, hexpired, not_le.mp hbudget, havailable⟩, rfl⟩
    next =>
      subst hreaped
      exact .inl ⟨hold, hready, havailable⟩
  · intro hcase
    rcases hcase with ⟨hjob, hready, havailable⟩ | ⟨old, ⟨hold, hexpired, hbudget, hdue⟩, rfl⟩
    · have hlive : ¬job.leaseExpired nowMs = true := by
        intro hexpired
        have hleased := state_of_leaseExpired hexpired
        simp [JobRecord.isReady, hleased] at hready
      exact ⟨⟨job, hjob, if_neg hlive⟩, hready, havailable⟩
    · rw [retried, if_neg (not_le.mpr hbudget)]
      refine ⟨⟨old, hold, ?_⟩, by simp [JobRecord.isReady], hdue⟩
      rw [reaped, if_pos hexpired, retried, if_neg (not_le.mpr hbudget)]

end Scheduler

theorem claimRank_le_iff (key key' : String × String) (row row' : JobRow) :
    claimRank key row ≤ claimRank key' row' ↔
      row'.priority < row.priority ∨ row.priority = row'.priority ∧
        (row.availableAt < row'.availableAt ∨
          row.availableAt = row'.availableAt ∧ toLex key ≤ toLex key') := by
  unfold claimRank
  rw [Prod.Lex.toLex_le_toLex, Prod.Lex.toLex_le_toLex]
  dsimp only
  rw [neg_lt_neg_iff, neg_inj]

/-! ## What the store finds eligible -/

theorem retryDelayMs_pos (attempts : ℕ) : 0 < retryDelayMs attempts := by
  unfold retryDelayMs
  have : (0 : ℤ) < 2 ^ min 16 (attempts - 1) := by positivity
  omega

theorem not_claimCandidate_retryRow (now : ℤ) (snapshot : Snapshot) (dagId jobId : String)
    (row : JobRow) : claimCandidate now snapshot dagId jobId (retryRow now row) = false := by
  have hdelay := retryDelayMs_pos row.attempts
  unfold claimCandidate retryRow milliseconds
  by_cases hbudget : row.maxAttempts ≤ row.attempts
  · simp [hbudget]
  · have : ¬now + retryDelayMs row.attempts * 1000 ≤ now := by omega
    simp [hbudget, this]

/-- After its reap the store finds the parents of a job succeeded if its counter
in the scheduler is zero. -/
theorem parentsSucceeded_reap {names : List (String × Uuid)} {specs : String → Option DagSpec}
    {scheduler : Scheduler} {db : Database} (hinvariant : scheduler.Invariant specs)
    (hmirrors : Mirrors names scheduler db) (now : ℤ) {dagId jobId : String} {job : JobRecord}
    (hjob : scheduler.job? dagId jobId = some job) (hpending : job.state ≠ .pending)
    (hcancelled : job.state ≠ .cancelled) :
    (PostgresStore.reapInTransaction db now).2.snapshot.parentsSucceeded dagId jobId = true := by
  obtain ⟨dag, spec, hdag, hlookup, _, _, hvalid, hconsistent⟩ := hinvariant.exists_dag hjob
  apply (Snapshot.parentsSucceeded_iff_remaining hconsistent hvalid hlookup
    (fun parentId => ?_) fun parentId parent hparent => ?_).mpr
    (hconsistent.remaining_eq_zero hlookup hpending hcancelled)
  · exact hmirrors.dependency_iff hdag parentId jobId
  · obtain ⟨row, hrow, hsame⟩ := hmirrors.exists_row
      (Scheduler.job?_eq_some_iff.mpr ⟨dag, hdag, hparent⟩)
    refine ⟨_, (Database.get?_execute db _ dagId parentId).trans (by rw [hrow, Option.map_some]),
      ?_⟩
    split
    next happlies =>
      -- neither the leased parent nor what the reap makes of it has succeeded
      rw [hsame.state.symm.trans (reapStatement_applies_iff.mp happlies).1]
      show (retryRow now row).state = .succeeded ↔ _
      rcases retryRow_state now row with hdead | hwaiting
      · simp [hdead]
      · simp [hwaiting]
    next => rw [hsame.state]

/-- After its reap the store finds the jobs eligible that the scheduler found
eligible before. -/
theorem claimCandidate_reap_iff {names : List (String × Uuid)} {specs : String → Option DagSpec}
    {scheduler : Scheduler} {db : Database} (hinvariant : scheduler.Invariant specs)
    (hmirrors : Mirrors names scheduler db) (htimes : SameAvailability scheduler db) (nowMs : ℤ)
    (dagId jobId : String) (row : JobRow) :
    ((PostgresStore.reapInTransaction db (milliseconds nowMs)).2.jobs.get? (dagId, jobId) =
        some row ∧
      claimCandidate (milliseconds nowMs)
        (PostgresStore.reapInTransaction db (milliseconds nowMs)).2.snapshot dagId jobId row =
          true) ↔
    db.jobs.get? (dagId, jobId) = some row ∧
      ∃ job, scheduler.Eligible nowMs dagId jobId job := by
  generalize hreaped : (PostgresStore.reapInTransaction db (milliseconds nowMs)).2 = reaped
  have hget : ∀ dagId jobId, reaped.jobs.get? (dagId, jobId) =
      (db.jobs.get? (dagId, jobId)).map fun row =>
        if (reapStatement (milliseconds nowMs)).applies db.snapshot dagId jobId row then
          retryRow (milliseconds nowMs) row else row := by
    intro dagId jobId
    rw [← hreaped]
    exact Database.get?_execute ..
  constructor
  · rintro ⟨hrow, hcandidate⟩
    rw [hget, Option.map_eq_some_iff] at hrow
    obtain ⟨old, hold, hrow⟩ := hrow
    split at hrow
    next =>
      -- a row that the reap has changed has to wait
      rw [← hrow, not_claimCandidate_retryRow] at hcandidate
      cases hcandidate
    next =>
      subst hrow
      obtain ⟨job, hjob, hsame⟩ := hmirrors.exists_record hold
      simp only [claimCandidate, Bool.and_eq_true, decide_eq_true_eq, hsame.state,
        htimes dagId jobId job old hjob hold, milliseconds_le_iff] at hcandidate
      exact ⟨hold, job, hjob, by simpa [JobRecord.isReady] using hcandidate.1.1.2,
        hcandidate.1.2⟩
  · rintro ⟨hold, job, hjob, hready, havailable⟩
    have hsame := hmirrors.same hjob hold
    have hstate : job.state = .ready ∨ job.state = .retryWait := by
      simpa [JobRecord.isReady] using hready
    have hkept : reaped.jobs.get? (dagId, jobId) = some row := by
      rw [hget, hold, Option.map_some, if_neg]
      intro happlies
      have hleased := hsame.state.symm.trans (reapStatement_applies_iff.mp happlies).1
      rcases hstate with hstate | hstate <;> simp [hstate] at hleased
    refine ⟨hkept, ?_⟩
    have hjoin : reaped.snapshot.parentsSucceeded dagId jobId = true := by
      rw [← hreaped]
      apply parentsSucceeded_reap hinvariant hmirrors _ hjob
      · rcases hstate with hstate | hstate <;> simp [hstate]
      · rcases hstate with hstate | hstate <;> simp [hstate]
    have hrunning : reaped.snapshot.dagState? dagId = some .running := by
      rw [← hreaped]
      exact hmirrors.running hjob (by
        rcases hstate with hstate | hstate <;> simp [JobRecord.isTerminal, hstate])
    simp only [claimCandidate, hrunning, hjoin, hsame.state,
      htimes dagId jobId job row hjob hold, milliseconds_le_iff, havailable, Bool.and_eq_true,
      decide_eq_true_eq, true_and, and_true, decide_true]
    simpa using hstate

/-! ## The two selections -/

/-- The order of the query, on the records of the scheduler. -/
def ClaimedBefore (dagId jobId : String) (job : JobRecord) (dagId' jobId' : String)
    (other : JobRecord) : Prop :=
  other.spec.priority < job.spec.priority ∨ job.spec.priority = other.spec.priority ∧
    (job.availableAtMs < other.availableAtMs ∨ job.availableAtMs = other.availableAtMs ∧
      toLex (dagId, jobId) ≤ toLex (dagId', jobId'))

theorem Scheduler.pick_cases {specs : String → Option DagSpec} {scheduler : Scheduler}
    (h : scheduler.Invariant specs) {owner : String} {leaseMs : ℤ}
    (hlease : Scheduler.validLease scheduler.config owner leaseMs = true) (nowMs : ℤ) :
    (scheduler.pick owner nowMs leaseMs = none ∧
      ∀ dagId jobId job, ¬(scheduler.reap nowMs).2.Eligible nowMs dagId jobId job) ∨
    ∃ key job, (scheduler.reap nowMs).2.Selects nowMs key job ∧
      scheduler.pick owner nowMs leaseMs = some (key.dagId, key.jobId) := by
  unfold pick
  rcases claim_cases h.heap h.ownIds owner nowMs leaseMs with
    ⟨hinvalid, _⟩ | ⟨_, ready, ⟨hnone, hclaim, _⟩ | ⟨key, job, hselects, hclaim, _⟩⟩
  · rw [hlease] at hinvalid
    cases hinvalid
  · rw [hclaim]
    exact .inl ⟨rfl, hnone⟩
  · rw [hclaim]
    exact .inr ⟨key, job, hselects, rfl⟩

section

variable {names : List (String × Uuid)} {specs : String → Option DagSpec} {scheduler : Scheduler}
  {db : Database} {owner : String} {leaseMs nowMs : ℤ}

theorem PostgresStore.pick_cases (hinvariant : scheduler.Invariant specs)
    (hmirrors : Mirrors names scheduler db) (htimes : SameAvailability scheduler db)
    (hvalid : PostgresStore.validateOwnerAndLease owner leaseMs = .ok ())
    (hnul : hasNul owner = false) (token : Uuid) (nowMs : ℤ) :
    (PostgresStore.pick db owner leaseMs token (milliseconds nowMs) = none ∧
      ∀ dagId jobId job, ¬scheduler.Eligible nowMs dagId jobId job) ∨
    ∃ dagId jobId job, scheduler.Eligible nowMs dagId jobId job ∧
      PostgresStore.pick db owner leaseMs token (milliseconds nowMs) = some (dagId, jobId) ∧
      ∀ dagId' jobId' other, scheduler.Eligible nowMs dagId' jobId' other →
        ClaimedBefore dagId jobId job dagId' jobId' other := by
  have hiff := claimCandidate_reap_iff hinvariant hmirrors htimes nowMs
  have hcandidates : ∀ dagId jobId job, scheduler.Eligible nowMs dagId jobId job →
      ∃ row, db.jobs.get? (dagId, jobId) = some row ∧ row.priority = job.spec.priority ∧
        row.availableAt = milliseconds job.availableAtMs := by
    intro dagId jobId job heligible
    obtain ⟨row, hrow, hsame⟩ := hmirrors.exists_row heligible.1
    exact ⟨row, hrow, hsame.priority, htimes dagId jobId job row heligible.1 hrow⟩
  unfold PostgresStore.pick
  rcases PostgresStore.claim_cases db hvalid hnul token (milliseconds nowMs) with
    ⟨⟨dagId, jobId⟩, row, hpicks, hclaim⟩ | ⟨hnone, hclaim⟩
  · rw [hclaim]
    obtain ⟨hrow, job, heligible⟩ := (hiff dagId jobId row).mp ⟨hpicks.stored, hpicks.candidate⟩
    refine .inr ⟨dagId, jobId, job, heligible, rfl, fun dagId' jobId' other hother => ?_⟩
    obtain ⟨row', hrow', hpriority', htime'⟩ := hcandidates dagId' jobId' other hother
    obtain ⟨hstored', hcandidate'⟩ := (hiff dagId' jobId' row').mpr ⟨hrow', other, hother⟩
    have hle := hpicks.least (dagId', jobId') row' hstored' hcandidate'
    rw [claimRank_le_iff, (hmirrors.same heligible.1 hrow).priority,
      htimes dagId jobId job row heligible.1 hrow, hpriority', htime'] at hle
    rw [milliseconds_lt_iff, milliseconds_inj] at hle
    exact hle
  · rw [hclaim]
    refine .inl ⟨rfl, fun dagId jobId job heligible => ?_⟩
    obtain ⟨row, hrow, _⟩ := hcandidates dagId jobId job heligible
    obtain ⟨hstored, hcandidate⟩ := (hiff dagId jobId row).mpr ⟨hrow, job, heligible⟩
    rw [hnone (dagId, jobId) row hstored] at hcandidate
    cases hcandidate

/-- The earliest job and the most urgent job are the same if one job is both. -/
theorem Scheduler.eq_of_dominates {dagId jobId dagId' jobId' dagId'' jobId'' : String}
    {first second dominating : JobRecord}
    (hkey : ∀ dagId' jobId' other, scheduler.Eligible nowMs dagId' jobId' other →
      readyKey dagId first.spec first.availableAtMs ≤
        readyKey dagId' other.spec other.availableAtMs)
    (hfirst : scheduler.Eligible nowMs dagId jobId first)
    (hsecond : scheduler.Eligible nowMs dagId' jobId' second)
    (hclaimed : ∀ dagId'' jobId'' other, scheduler.Eligible nowMs dagId'' jobId'' other →
      ClaimedBefore dagId' jobId' second dagId'' jobId'' other)
    (hdominates : scheduler.Dominates nowMs dagId'' jobId'' dominating)
    (hinvariant : scheduler.Invariant specs) : (dagId, jobId) = (dagId', jobId') := by
  obtain ⟨heligible, hbest, _⟩ := hdominates
  obtain ⟨hvalid₁, hid₁⟩ := hinvariant.valid_spec hfirst.1
  obtain ⟨hvalid₂, hid₂⟩ := hinvariant.valid_spec hsecond.1
  obtain ⟨hvalid, hid⟩ := hinvariant.valid_spec heligible.1
  obtain ⟨hpriority₁, htime₁⟩ := hbest _ _ _ hfirst
  obtain ⟨hpriority₂, htime₂⟩ := hbest _ _ _ hsecond
  have hless := hkey _ _ _ heligible
  have hforth := hkey _ _ _ hsecond
  have hmore := hclaimed _ _ _ heligible
  have hback := hclaimed _ _ _ hfirst
  rw [readyKey_le_iff hvalid₁ hvalid] at hless
  rw [readyKey_le_iff hvalid₁ hvalid₂, hid₁, hid₂] at hforth
  unfold ClaimedBefore at hmore hback
  -- both jobs share the time and the priority of the dominating one
  have htimes : first.availableAtMs = second.availableAtMs := by omega
  have hpriorities : first.spec.priority = second.spec.priority := by omega
  simp only [htimes, hpriorities, lt_irrefl, false_or, true_and] at hforth hback
  exact toLex.injective (le_antisymm hforth hback)

theorem Scheduler.Eligible.not_retriedAtOnce {dagId jobId : String} {job other : JobRecord}
    (heligible : scheduler.Eligible nowMs dagId jobId job)
    (hretried : scheduler.RetriedAtOnce nowMs dagId jobId other) : False := by
  have hsame : job = other := Option.some_injective _ (heligible.1.symm.trans hretried.1)
  have hready := heligible.2.1
  rw [hsame, JobRecord.isReady, state_of_leaseExpired hretried.2.1] at hready
  cases hready

/-- What the heap compares of a retry that is due at once. -/
theorem Scheduler.Selects.le_retry {key : ReadyKey} {job : JobRecord}
    (hselects : (scheduler.reap nowMs).2.Selects nowMs key job) {dagId jobId : String}
    {old : JobRecord} (hretried : scheduler.RetriedAtOnce nowMs dagId jobId old) :
    key ≤ readyKey dagId old.spec (retryAtMs scheduler.config jobId old.attempts nowMs) := by
  have hleast := hselects.least _ _ _ (eligible_reap_iff.mpr (.inr ⟨old, hretried, rfl⟩))
  rwa [retried, if_neg (not_le.mpr hretried.2.2.1)] at hleast

theorem Scheduler.Selects.dominates {key : ReadyKey} {job : JobRecord}
    (hselects : (scheduler.reap nowMs).2.Selects nowMs key job)
    (heligible : scheduler.Eligible nowMs key.dagId key.jobId job)
    (hclaimed : ∀ dagId' jobId' other, scheduler.Eligible nowMs dagId' jobId' other →
      ClaimedBefore key.dagId key.jobId job dagId' jobId' other)
    (hinvariant : scheduler.Invariant specs) :
    scheduler.Dominates nowMs key.dagId key.jobId job := by
  refine ⟨heligible, fun dagId' jobId' other hother => ?_, fun dagId' jobId' other hother => ?_⟩
  · have hle := hselects.least _ _ _ (eligible_reap_iff.mpr (.inl hother))
    rw [hselects.key_eq] at hle
    have htime := ReadyKey.availableAtMs_le hle
    have hrank := hclaimed _ _ other hother
    unfold readyKey at htime
    unfold ClaimedBefore at hrank
    exact ⟨by omega, htime⟩
  · have hle := hselects.le_retry hother
    rw [hselects.key_eq] at hle
    refine lt_of_le_of_ne hle fun hsame => ?_
    -- the identifiers are part of the key
    obtain ⟨hdag, hid⟩ : key.dagId = dagId' ∧ job.spec.id = other.spec.id := by
      simp only [readyKey, ReadyKey.mk.injEq] at hsame
      exact ⟨hsame.2.2.1, hsame.2.2.2⟩
    rw [(hinvariant.valid_spec heligible.1).2, (hinvariant.valid_spec hother.1).2] at hid
    rw [hdag, hid] at heligible
    exact heligible.not_retriedAtOnce hother

/-- Over the same jobs the claims of both sides agree exactly when nothing can
be claimed at all, or when one eligible job dominates the others. -/
theorem claims_agree_iff {config : SchedulerConfig} {history : List Event}
    (hrun : Run config history scheduler) (hmirrors : Mirrors names scheduler db)
    (htimes : SameAvailability scheduler db)
    (hlease : Scheduler.validLease scheduler.config owner leaseMs = true)
    (hvalid : PostgresStore.validateOwnerAndLease owner leaseMs = .ok ())
    (hnul : hasNul owner = false) (token : Uuid) (nowMs : ℤ) :
    ClaimsAgree scheduler db owner leaseMs token nowMs ↔
      (∀ dagId jobId job, ¬scheduler.Eligible nowMs dagId jobId job ∧
        ¬scheduler.RetriedAtOnce nowMs dagId jobId job) ∨
      ∃ dagId jobId job, scheduler.Dominates nowMs dagId jobId job := by
  have hinvariant := run_invariant hrun
  have hstore := PostgresStore.pick_cases hinvariant hmirrors htimes hvalid hnul token nowMs
  unfold ClaimsAgree
  rcases Scheduler.pick_cases hinvariant hlease nowMs with
    ⟨hpick, hnone⟩ | ⟨key, job, hselects, hpick⟩
  · -- nothing is left to claim for the scheduler, hence nothing for the store
    have hempty : ∀ dagId jobId job, ¬scheduler.Eligible nowMs dagId jobId job ∧
        ¬scheduler.RetriedAtOnce nowMs dagId jobId job := by
      intro dagId jobId job
      constructor
      · intro heligible
        exact hnone _ _ _ (Scheduler.eligible_reap_iff.mpr (.inl heligible))
      · intro hretried
        exact hnone _ _ _ (Scheduler.eligible_reap_iff.mpr (.inr ⟨job, hretried, rfl⟩))
    refine iff_of_true ⟨?_, fun dagId jobId hsome => ?_⟩ (.inl hempty)
    · rcases hstore with ⟨hstored, _⟩ | ⟨dagId, jobId, other, hother, _⟩
      · rw [hpick, hstored]
      · exact absurd hother (hempty _ _ _).1
    · rw [hpick] at hsome
      cases hsome
  · rcases Scheduler.eligible_reap_iff.mp hselects.eligible with heligible | ⟨old, hretried, hjob⟩
    · -- the scheduler takes a job that was eligible before its reap
      rcases hstore with ⟨_, hnoStore⟩ | ⟨dagId, jobId, picked, hpicked, hstored, hclaimed⟩
      · exact absurd heligible (hnoStore _ _ _)
      rw [hpick, hstored]
      constructor
      · rintro ⟨hsame, _⟩
        cases hsame
        have hrecord : picked = job := Option.some_injective _ (hpicked.1.symm.trans heligible.1)
        rw [hrecord] at hclaimed
        exact .inr ⟨_, _, job, hselects.dominates heligible hclaimed hinvariant⟩
      · intro hcase
        rcases hcase with hempty | ⟨_, _, dominating, hdominates⟩
        · exact absurd heligible (hempty _ _ _).1
        have hids := Scheduler.eq_of_dominates (fun _ _ other hother => hselects.key_eq ▸
          hselects.least _ _ other (Scheduler.eligible_reap_iff.mpr (.inl hother)))
          heligible hpicked hclaimed hdominates hinvariant
        refine ⟨congrArg some hids, fun dagId' jobId' hsame => ?_⟩
        rw [hids] at hsame
        cases hsame
        refine ⟨picked, hpicked, fun _ _ other hother => ?_⟩
        have hrank := hclaimed _ _ other hother
        unfold ClaimedBefore at hrank
        omega
    · -- the scheduler takes a lease that it has just reaped, which the store never does
      refine iff_of_false (fun ⟨hsame, _⟩ => ?_) fun hcase => ?_
      · rw [hpick] at hsame
        rcases hstore with ⟨hstored, _⟩ | ⟨dagId, jobId, picked, hpicked, hstored, _⟩
        · rw [hstored] at hsame
          cases hsame
        · rw [hstored] at hsame
          cases hsame
          exact hpicked.not_retriedAtOnce hretried
      · rcases hcase with hempty | ⟨_, _, dominating, heligible, _, hbefore⟩
        · exact (hempty _ _ _).2 hretried
        · have hlt := hbefore _ _ old hretried
          have hle := hselects.least _ _ _ (Scheduler.eligible_reap_iff.mpr (.inl heligible))
          rw [hselects.key_eq, hjob, Scheduler.retried, if_neg (not_le.mpr hretried.2.2.1)] at hle
          exact absurd hlt (not_lt.mpr hle)

end

theorem SameAvailability.submit {before after : Scheduler} {stored persisted : Database}
    (h : SameAvailability before stored) {spec : DagSpec} {nowMs : ℤ} {dag : DagRecord}
    (hadmitted : Scheduler.Admitted spec nowMs before after dag)
    (hpersisted : Persisted spec (milliseconds nowMs) stored persisted) :
    SameAvailability after persisted := by
  intro dagId jobId job row hjob hrow
  unfold Scheduler.job? at hjob
  rw [hadmitted.dags, Table.get?_insert] at hjob
  by_cases hsame : dagId = spec.id
  · rw [if_pos hsame, Option.bind_some] at hjob
    rcases (hpersisted.job dagId jobId row).mp hrow with ⟨hne, _⟩ | ⟨_, _, _, _, hfresh⟩
    · exact absurd hsame hne
    · rw [hfresh, hadmitted.records jobId job hjob]
      rfl
  · rw [if_neg hsame] at hjob
    rw [hpersisted.get?_jobs_of_ne hsame] at hrow
    exact h dagId jobId job row hjob hrow

theorem mirrors_of_submit {names : List (String × Uuid)} {scheduler : Scheduler} {db : Database}
    (h : Mirrors names scheduler db ∧ SameAvailability scheduler db) {spec : DagSpec} {nowMs : ℤ}
    (hnul : ∀ job ∈ spec.jobs, hasNul job.payload = false) (hnodup : spec.dependencies.Nodup)
    (hok : (scheduler.submit spec nowMs).1 = .ok ()) :
    Mirrors names (scheduler.submit spec nowMs).2
        (PostgresStore.submit db spec (milliseconds nowMs)).2 ∧
      SameAvailability (scheduler.submit spec nowMs).2
        (PostgresStore.submit db spec (milliseconds nowMs)).2 := by
  rcases h.1.submit_cases hnul hnodup (by rw [hok]; simp) with
    ⟨_, _, ⟨_, hadmitted⟩, hpersisted⟩ | ⟨⟨error, herror⟩, _⟩
  · exact ⟨h.1.submit hadmitted hpersisted, h.2.submit hadmitted hpersisted⟩
  · rw [herror] at hok
    cases hok

/-! ## Two graphs of one job -/

/-- A graph of a single job. -/
def singleSpec (id : String) (priority : ℤ) : DagSpec where
  id := id
  jobs := [⟨"job", .uppercase, "", 1, priority⟩]
  dependencies := []

/-- A graph submitted at 0. -/
def earlyScheduler : Scheduler :=
  ((Scheduler.new .default).submit (singleSpec "early" 0) 0).2

/-- And another one at 5. -/
def lateScheduler (priority : ℤ) : Scheduler :=
  (earlyScheduler.submit (singleSpec "late" priority) 5).2

def earlyDatabase : Database :=
  (PostgresStore.submit .empty (singleSpec "early" 0) 0).2

def lateDatabase (priority : ℤ) : Database :=
  (PostgresStore.submit earlyDatabase (singleSpec "late" priority) (milliseconds 5)).2

theorem run_lateScheduler (priority : ℤ) :
    ∃ history, Run .default history (lateScheduler priority) :=
  ⟨_, Run.step (.submit (singleSpec "late" priority) 5)
    (Run.step (.submit (singleSpec "early" 0) 0) Run.new)⟩

theorem lateDatabase_mirrors {priority : ℤ}
    (hok : (earlyScheduler.submit (singleSpec "late" priority) 5).1 = .ok ()) :
    Mirrors [] (lateScheduler priority) (lateDatabase priority) ∧
      SameAvailability (lateScheduler priority) (lateDatabase priority) := by
  have hnul : ∀ id urgency, ∀ job ∈ (singleSpec id urgency).jobs, hasNul job.payload = false := by
    intro id urgency job hjob
    rw [List.mem_singleton.mp hjob]
    rfl
  have hnew : Mirrors [] (Scheduler.new .default) .empty ∧
      SameAvailability (Scheduler.new .default) .empty :=
    ⟨Mirrors.new .default, fun _ _ _ _ h => by cases h⟩
  exact mirrors_of_submit (mirrors_of_submit hnew (hnul _ _) List.nodup_nil (by decide))
    (hnul _ _) List.nodup_nil hok

/-- With the earlier job also the more urgent one, both sides claim it. -/
theorem claims_agree_iff_urgent :
    ClaimsAgree (lateScheduler (-10)) (lateDatabase (-10)) "worker" 1000 0 10 := by
  obtain ⟨history, hrun⟩ := run_lateScheduler (-10)
  obtain ⟨hmirrors, htimes⟩ := lateDatabase_mirrors
    (show (earlyScheduler.submit (singleSpec "late" (-10)) 5).1 = .ok () by decide)
  refine (claims_agree_iff hrun hmirrors htimes (by decide) (by decide) (by decide) 0 10).mpr
    (.inr ⟨"early", "job", ⟨⟨"job", .uppercase, "", 1, 0⟩, .ready, 0, 0, 0, none, none⟩, ?_⟩)
  have hall : ∀ dag ∈ (lateScheduler (-10)).dags.entries, ∀ job ∈ dag.2.jobs.entries,
      job.2.spec.priority ≤ 0 ∧ 0 ≤ job.2.availableAtMs ∧ job.2.leaseExpired 10 = false := by
    decide
  have hjob : ∀ dagId jobId job, (lateScheduler (-10)).job? dagId jobId = some job →
      job.spec.priority ≤ 0 ∧ 0 ≤ job.availableAtMs ∧ job.leaseExpired 10 = false := by
    intro dagId jobId job hlookup
    obtain ⟨dag, hdag, hlookup⟩ := Scheduler.job?_eq_some_iff.mp hlookup
    exact hall _ (Table.mem_entries.mpr hdag) _ (Table.mem_entries.mpr hlookup)
  refine ⟨⟨by decide, by decide, by decide⟩, fun _ _ other hother => ?_, fun _ _ other hother => ?_⟩
  · exact ⟨(hjob _ _ other hother.1).1, (hjob _ _ other hother.1).2.1⟩
  · have := (hjob _ _ other hother.1).2.2
    rw [hother.2.1] at this
    cases this

/-- The scheduler claims the earlier of two jobs, the store the more urgent one. -/
theorem claims_differ : ∃ history, Run .default history (lateScheduler 10) ∧
    Mirrors [] (lateScheduler 10) (lateDatabase 10) ∧
    SameAvailability (lateScheduler 10) (lateDatabase 10) ∧
    (lateScheduler 10).pick "worker" 10 1000 = some ("early", "job") ∧
    PostgresStore.pick (lateDatabase 10) "worker" 1000 0 (milliseconds 10) =
      some ("late", "job") ∧
    ¬ClaimsAgree (lateScheduler 10) (lateDatabase 10) "worker" 1000 0 10 := by
  obtain ⟨history, hrun⟩ := run_lateScheduler 10
  have haccepted : (earlyScheduler.submit (singleSpec "late" 10) 5).1 = .ok () := by decide
  obtain ⟨hmirrors, htimes⟩ := lateDatabase_mirrors haccepted
  have hscheduler : (lateScheduler 10).pick "worker" 10 1000 = some ("early", "job") := by decide
  have hstore : PostgresStore.pick (lateDatabase 10) "worker" 1000 0 (milliseconds 10) =
      some ("late", "job") := by decide
  refine ⟨history, hrun, hmirrors, htimes, hscheduler, hstore, fun hagree => ?_⟩
  have hsame := hagree.1
  rw [hscheduler, hstore] at hsame
  simp at hsame

end JobOrchestrator
