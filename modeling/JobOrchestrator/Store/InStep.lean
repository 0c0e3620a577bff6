import JobOrchestrator.Scheduler.Selection
import JobOrchestrator.Scheduler.Tokens
import JobOrchestrator.Store.Effects
import JobOrchestrator.Store.Mirror

/-!
# One job on both sides

`InStep` adds to `SameJob` what an answer can depend on besides: the attempts
stay below the budget, so that their counter never saturates, and the owner of
a lease has passed the validation of a claim.  Every change that an operation
makes to a record has its counterpart on the row, and keeps the two in step.
-/

namespace JobOrchestrator

/-- The record and the row of a job agree, also in what later answers depend on. -/
structure InStep (names : List (String × Uuid)) (job : JobRecord) (row : JobRow) : Prop
    extends SameJob names job row where
  available : job.state = .pending ∨ job.state = .ready →
    row.availableAt = milliseconds job.availableAtMs
  owner : ∀ lease, job.lease = some lease →
    lease.owner.isEmpty = false ∧ lease.owner.utf8ByteSize ≤ 64
  lease : job.lease.isSome = true ↔ job.state = .leased
  attempts_le : job.attempts ≤ job.spec.maxAttempts
  attempts_lt : job.state = .pending ∨ job.isReady = true → job.attempts < job.spec.maxAttempts
  budget : job.spec.maxAttempts ≤ 20

/-- The pairs of tokens stand for the same leases: no token is in two of them. -/
structure OneToOne (names : List (String × Uuid)) : Prop where
  left : ∀ token uuid uuid', (token, uuid) ∈ names → (token, uuid') ∈ names → uuid = uuid'
  right : ∀ token token' uuid, (token, uuid) ∈ names → (token', uuid) ∈ names → token = token'

/-- The tokens in a request stand for the same lease, or neither was ever issued. -/
def Corresponds (names : List (String × Uuid)) (token : String) (uuid : Uuid) : Prop :=
  (token, uuid) ∈ names ∨ (∀ other, (token, other) ∉ names) ∧ ∀ other, (other, uuid) ∉ names

theorem OneToOne.eq_iff {names : List (String × Uuid)} (h : OneToOne names) {token token' : String}
    {uuid uuid' : Uuid} (hcorresponds : Corresponds names token uuid)
    (hnamed : (token', uuid') ∈ names) : token' = token ↔ uuid' = uuid := by
  rcases hcorresponds with hpair | ⟨hnoLeft, hnoRight⟩
  · constructor
    · intro hsame
      subst hsame
      exact h.left _ _ _ hnamed hpair
    · intro hsame
      subst hsame
      exact h.right _ _ _ hnamed hpair
  · constructor
    · intro hsame
      subst hsame
      exact absurd hnamed (hnoLeft _)
    · intro hsame
      subst hsame
      exact absurd hnamed (hnoRight _)

namespace InStep

variable {names : List (String × Uuid)} {job : JobRecord} {row : JobRow}

theorem exists_lease (h : InStep names job row) (hleased : job.state = .leased) :
    ∃ lease uuid, job.lease = some lease ∧ row.leaseOwner = some lease.owner ∧
      row.leaseToken = some uuid ∧ (lease.token, uuid) ∈ names ∧
      row.leaseExpiresAt = some (milliseconds lease.expiresAtMs) := by
  obtain ⟨lease, hlease⟩ := Option.isSome_iff_exists.mp (h.lease.mpr hleased)
  have howner := h.leaseOwner
  have hexpires := h.leaseExpiresAt
  have htoken := h.leaseToken
  rw [hlease] at howner hexpires htoken
  cases huuid : row.leaseToken with
  | none => rw [huuid] at htoken; cases htoken
  | some uuid =>
      rw [huuid] at htoken
      cases htoken with
      | some hnamed => exact ⟨lease, uuid, hlease, howner, rfl, hnamed, hexpires⟩

theorem lease_eq_none (h : InStep names job row) (hstate : job.state ≠ .leased) :
    job.lease = none := by
  rw [← Option.not_isSome_iff_eq_none, h.lease]
  exact hstate

/-- The compare-and-set of the store is that of the scheduler. -/
theorem leaseMatches_iff (h : InStep names job row) (hnames : OneToOne names) {token : String}
    {uuid : Uuid} (hcorresponds : Corresponds names token uuid) (dagId jobId owner : String)
    (nowMs : ℤ) :
    leaseMatches dagId jobId owner uuid (milliseconds nowMs) dagId jobId row = true ↔
      job.holdsLease owner token nowMs = true := by
  unfold leaseMatches JobRecord.holdsLease
  by_cases hleased : job.state = .leased
  · obtain ⟨lease, uuid', hlease, howner, htoken, hnamed, hexpires⟩ := h.exists_lease hleased
    have hsame := hnames.eq_iff hcorresponds hnamed
    simp [h.state, hleased, hlease, howner, htoken, hexpires, hsame, milliseconds_lt_iff]
    tauto
  · rw [h.lease_eq_none hleased]
    simp [h.state, hleased]

/-- The reap of the store takes the leases that the scheduler reaps. -/
theorem reapStatement_iff (h : InStep names job row) (snapshot : Snapshot) (dagId jobId : String)
    (nowMs : ℤ) : (reapStatement (milliseconds nowMs)).applies snapshot dagId jobId row = true ↔
      job.leaseExpired nowMs = true := by
  unfold reapStatement JobRecord.leaseExpired
  by_cases hleased : job.state = .leased
  · obtain ⟨lease, uuid, hlease, howner, htoken, hnamed, hexpires⟩ := h.exists_lease hleased
    simp [h.state, hleased, hlease, hexpires, milliseconds_le_iff]
  · rw [h.lease_eq_none hleased]
    simp [h.state, hleased]

/-- The cancellation of the store takes the jobs that the scheduler cancels. -/
theorem cancelStatement_iff (h : InStep names job row) (snapshot : Snapshot)
    (dagId dagId' jobId : String) :
    (cancelStatement dagId).applies snapshot dagId' jobId row = true ↔
      dagId' = dagId ∧ job.isTerminal = false := by
  unfold cancelStatement JobRecord.isTerminal
  simp [h.state, and_assoc]

/-! ## Changes -/

theorem retried (h : InStep names job row) (config : SchedulerConfig) (nowMs now : ℤ)
    (jobId : String) :
    InStep names (Scheduler.retried config nowMs jobId job) (retryRow now row) := by
  have hle := h.attempts_le
  unfold Scheduler.retried retryRow
  rw [h.maxAttempts, h.attempts]
  by_cases hbudget : job.spec.maxAttempts ≤ job.attempts
  · simp only [if_pos hbudget]
    exact {
      kind := h.kind, payload := h.payload, maxAttempts := h.maxAttempts, priority := h.priority
      state := rfl, attempts := h.attempts, result := h.result
      leaseOwner := rfl, leaseExpiresAt := rfl, leaseToken := Option.Rel.none
      available := by simp
      owner := by simp
      lease := by simp
      attempts_le := hle
      attempts_lt := by simp [JobRecord.isReady]
      budget := h.budget }
  · simp only [if_neg hbudget]
    exact {
      kind := h.kind, payload := h.payload, maxAttempts := h.maxAttempts, priority := h.priority
      state := rfl, attempts := h.attempts, result := h.result
      leaseOwner := rfl, leaseExpiresAt := rfl, leaseToken := Option.Rel.none
      available := by simp
      owner := by simp
      lease := by simp
      attempts_le := hle
      attempts_lt := fun _ => not_le.mp hbudget
      budget := h.budget }

theorem mono (h : InStep names job row) {names' : List (String × Uuid)}
    (hsub : ∀ pair ∈ names, pair ∈ names') : InStep names' job row where
  toSameJob := { h.toSameJob with
    leaseToken := by
      have htoken := h.leaseToken
      generalize job.lease.map Lease.token = token? at htoken ⊢
      generalize row.leaseToken = uuid? at htoken ⊢
      cases htoken with
      | none => exact Option.Rel.none
      | some hnamed => exact Option.Rel.some (hsub _ hnamed) }
  available := h.available
  owner := h.owner
  lease := h.lease
  attempts_le := h.attempts_le
  attempts_lt := h.attempts_lt
  budget := h.budget

theorem granted (h : InStep names job row) (hready : job.isReady = true) {owner token : String}
    {uuid : Uuid} {nowMs leaseMs : ℤ} (howner : owner.isEmpty = false ∧ owner.utf8ByteSize ≤ 64)
    (hrange : I64.InRange (nowMs + leaseMs)) (hnamed : (token, uuid) ∈ names) :
    InStep names (Scheduler.leased owner token (I64.saturatingAdd nowMs leaseMs) job)
      (grantLease owner uuid leaseMs (milliseconds nowMs) row) := by
  have hlt := h.attempts_lt (.inr hready)
  have hbudget := h.budget
  have hattempts : U16.saturatingAdd job.attempts 1 = job.attempts + 1 :=
    U16.saturatingAdd_eq (by omega)
  have hdeadline := milliseconds_deadline hrange
  unfold Scheduler.leased grantLease
  exact {
    kind := h.kind, payload := h.payload, maxAttempts := h.maxAttempts, priority := h.priority
    state := rfl, attempts := by rw [hattempts, h.attempts], result := h.result
    leaseOwner := rfl, leaseExpiresAt := by rw [hdeadline]; rfl
    leaseToken := Option.Rel.some hnamed
    available := by simp
    owner := by simpa using howner
    lease := by simp
    attempts_le := by rw [hattempts]; exact hlt
    attempts_lt := by simp [JobRecord.isReady]
    budget := hbudget }

theorem extended (h : InStep names job row) (hleased : job.state = .leased) {nowMs leaseMs : ℤ}
    (hrange : I64.InRange (nowMs + leaseMs)) :
    InStep names (Scheduler.extended (I64.saturatingAdd nowMs leaseMs) job)
      { row with leaseExpiresAt := some (milliseconds nowMs + milliseconds leaseMs) } := by
  obtain ⟨lease, uuid, hlease, howner, htoken, hnamed, _⟩ := h.exists_lease hleased
  have hdeadline := milliseconds_deadline hrange
  unfold Scheduler.extended
  rw [hlease]
  exact {
    kind := h.kind, payload := h.payload, maxAttempts := h.maxAttempts, priority := h.priority
    state := h.state, attempts := h.attempts, result := h.result
    leaseOwner := howner, leaseExpiresAt := by rw [hdeadline]; rfl
    leaseToken := by rw [htoken]; exact Option.Rel.some hnamed
    available := h.available
    owner := by simpa using h.owner lease hlease
    lease := by simp [hleased]
    attempts_le := h.attempts_le
    attempts_lt := h.attempts_lt
    budget := h.budget }

theorem finished (h : InStep names job row) {state : JobState} (hstate : state ≠ .leased)
    (hpending : state ≠ .pending) (hready : state ≠ .ready) (hretry : state ≠ .retryWait)
    (result : Option String) :
    InStep names { job with state := state, lease := none, result := result }
      { row.unleased with state := state, result := result } where
  kind := h.kind
  payload := h.payload
  maxAttempts := h.maxAttempts
  priority := h.priority
  state := rfl
  attempts := h.attempts
  result := rfl
  leaseOwner := rfl
  leaseExpiresAt := rfl
  leaseToken := Option.Rel.none
  available := by simp [hpending, hready]
  owner := by simp
  lease := by simp [hstate]
  attempts_le := h.attempts_le
  attempts_lt := by simp [JobRecord.isReady, hpending, hready, hretry]
  budget := h.budget

theorem cancelled (h : InStep names job row) (snapshot : Snapshot) (dagId dagId' jobId : String) :
    InStep names (if dagId' = dagId then Scheduler.cancelled job else job)
      (if (cancelStatement dagId).applies snapshot dagId' jobId row = true then
        (cancelStatement dagId).set row else row) := by
  by_cases hsame : dagId' = dagId
  · rw [if_pos hsame, Scheduler.cancelled]
    by_cases hterminal : job.isTerminal = true
    · rw [if_pos hterminal, if_neg]
      · exact h
      · rw [h.cancelStatement_iff, hterminal]
        simp
    · rw [if_neg hterminal, if_pos]
      · rw [← h.result]
        exact h.finished (by simp) (by simp) (by simp) (by simp) row.result
      · exact (h.cancelStatement_iff ..).mpr ⟨hsame, by simpa using hterminal⟩
  · rw [if_neg hsame, if_neg fun happlies => hsame ((h.cancelStatement_iff ..).mp happlies).1]
    exact h

theorem counted (h : InStep names job row) (remaining : ℕ) :
    InStep names { job with remainingDependencies := remaining } row where
  toSameJob := { h.toSameJob with }
  available := h.available
  owner := h.owner
  lease := h.lease
  attempts_le := h.attempts_le
  attempts_lt := h.attempts_lt
  budget := h.budget

theorem released (h : InStep names job row) (hpending : job.state = .pending) (nowMs : ℤ)
    (remaining : ℕ) :
    InStep names
      { job with remainingDependencies := remaining, state := .ready, availableAtMs := nowMs }
      { row with state := .ready, availableAt := milliseconds nowMs } := by
  have hlease := h.lease_eq_none (by simp [hpending])
  exact {
    kind := h.kind, payload := h.payload, maxAttempts := h.maxAttempts, priority := h.priority
    state := rfl, attempts := h.attempts, result := h.result
    leaseOwner := h.leaseOwner, leaseExpiresAt := h.leaseExpiresAt, leaseToken := h.leaseToken
    available := fun _ => rfl
    owner := h.owner
    lease := by simp [hlease]
    attempts_le := h.attempts_le
    attempts_lt := fun _ => h.attempts_lt (.inl hpending)
    budget := h.budget }

theorem initial (names : List (String × Uuid)) (spec : DagSpec) {job : JobSpec}
    (hvalid : job.Valid) (nowMs : ℤ) :
    InStep names (spec.initialRecord nowMs job) (spec.persistedRow (milliseconds nowMs) job) where
  toSameJob := SameJob.initial ..
  available _ := rfl
  owner _ h := by cases h
  lease := by
    unfold DagSpec.initialRecord
    dsimp only
    split <;> simp
  attempts_le := Nat.zero_le _
  attempts_lt _ := hvalid.attempts_pos
  budget := hvalid.attempts_le

end InStep

end JobOrchestrator
