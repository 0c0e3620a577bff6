import JobOrchestrator.Store.Schema

/-!
# The statements of the durable store

Every `UPDATE jobs` of `store.rs` as a condition on a row and a change of it.
The condition may also read other rows, in sub-selects and joins; these it reads
from a `Snapshot`.  The serial store and the concurrent one run the same
statements: they differ in the snapshot and in the version of the row that a
condition sees.
-/

namespace JobOrchestrator

/-- What sub-selects and joins read. -/
structure Snapshot where
  dagState? : String → Option DagState
  job? : String → String → Option JobRow
  dependencies : List DependencyRow

/-- An `UPDATE jobs SET … WHERE …`. -/
structure JobUpdate where
  applies : Snapshot → String → String → JobRow → Bool
  set : JobRow → JobRow

/-- Microseconds in a number of milliseconds. -/
def milliseconds (count : ℤ) : ℤ := count * 1000

/-- `NOT EXISTS (SELECT 1 FROM job_dependencies … parent.state <> 'succeeded')` -/
def Snapshot.parentsSucceeded (snapshot : Snapshot) (dagId jobId : String) : Bool :=
  snapshot.dependencies.all fun edge =>
    !(decide (edge.dagId = dagId) && decide (edge.childId = jobId)) ||
      match snapshot.job? dagId edge.parentId with
      | none => true
      | some parent => parent.state = .succeeded

theorem Snapshot.parentsSucceeded_iff {snapshot : Snapshot} {dagId jobId : String} :
    snapshot.parentsSucceeded dagId jobId = true ↔ ∀ edge ∈ snapshot.dependencies,
      edge.dagId = dagId → edge.childId = jobId →
      ∀ parent, snapshot.job? dagId edge.parentId = some parent → parent.state = .succeeded := by
  unfold parentsSucceeded
  rw [List.all_eq_true]
  refine forall₂_congr fun edge _ => ?_
  by_cases hdag : edge.dagId = dagId
  · by_cases hchild : edge.childId = jobId
    · cases hparent : snapshot.job? dagId edge.parentId <;> simp [hdag, hchild]
    · simp [hchild]
  · simp [hdag]

/-! ## Claims -/

/-- The `WHERE` of the candidate query. -/
def claimCandidate (now : ℤ) (snapshot : Snapshot) (dagId jobId : String) (row : JobRow) : Bool :=
  decide (snapshot.dagState? dagId = some .running) &&
    (row.state = .ready ∨ row.state = .retryWait) && decide (row.availableAt ≤ now) &&
    snapshot.parentsSucceeded dagId jobId

/-- `ORDER BY j.priority DESC, j.available_at, j.dag_id, j.id` -/
def claimRank (key : String × String) (row : JobRow) : ℤ ×ₗ ℤ ×ₗ String ×ₗ String :=
  toLex (-row.priority, toLex (row.availableAt, toLex key))

/-- The `SET` of the claim. -/
def grantLease (owner : String) (token : Uuid) (leaseMs now : ℤ) (row : JobRow) : JobRow :=
  { row with
    state := .leased
    attempts := row.attempts + 1
    leaseOwner := some owner
    leaseToken := some token
    leaseExpiresAt := some (now + milliseconds leaseMs) }

/-- The claim of a candidate; the queue of candidates decides which one. -/
def claimStatement (owner : String) (token : Uuid) (leaseMs now : ℤ) : JobUpdate where
  applies := claimCandidate now
  set := grantLease owner token leaseMs now

/-! ## Reports of a lease holder -/

/-- The `WHERE` of a compare-and-set on the lease. -/
def leaseMatches (dagId jobId owner : String) (token : Uuid) (now : ℤ) (dagId' jobId' : String)
    (row : JobRow) : Bool :=
  decide (dagId' = dagId) && decide (jobId' = jobId) && decide (row.state = .leased) &&
    decide (row.leaseOwner = some owner) && decide (row.leaseToken = some token) &&
    row.leaseExpiresAt.any fun expires => decide (now < expires)

theorem leaseMatches_cases {dagId jobId owner dagId' jobId' : String} {token : Uuid} {now : ℤ}
    {row : JobRow} (h : leaseMatches dagId jobId owner token now dagId' jobId' row = true) :
    dagId' = dagId ∧ jobId' = jobId ∧ row.state = .leased ∧ row.leaseOwner = some owner ∧
      row.leaseToken = some token := by
  simp only [leaseMatches, Bool.and_eq_true, decide_eq_true_eq] at h
  exact ⟨h.1.1.1.1.1, h.1.1.1.1.2, h.1.1.1.2, h.1.1.2, h.1.2⟩

/-- The row without its lease. -/
def JobRow.unleased (row : JobRow) : JobRow :=
  { row with leaseOwner := none, leaseToken := none, leaseExpiresAt := none }

/-- The statement of `heartbeat`. -/
def heartbeatStatement (dagId jobId owner : String) (token : Uuid) (leaseMs now : ℤ) :
    JobUpdate where
  applies _ := leaseMatches dagId jobId owner token now
  set row := { row with leaseExpiresAt := some (now + milliseconds leaseMs) }

/-- The `SET` of a completion. -/
def succeededRow (result : String) (row : JobRow) : JobRow :=
  { row.unleased with state := .succeeded, result := some result }

/-- The `SET` of a release. -/
def releasedRow (now : ℤ) (row : JobRow) : JobRow :=
  { row with state := .ready, availableAt := now }

/-- The first statement of `complete`. -/
def completeStatement (dagId jobId owner : String) (token : Uuid) (result : String) (now : ℤ) :
    JobUpdate where
  applies _ := leaseMatches dagId jobId owner token now
  set := succeededRow result

/-- The second statement of `complete`: the release of the children. -/
def releaseStatement (dagId jobId : String) (now : ℤ) : JobUpdate where
  applies snapshot dagId' childId row :=
    decide (dagId' = dagId) && decide (row.state = .pending) &&
      (snapshot.dependencies.any fun edge =>
        decide (edge = ⟨dagId', jobId, childId⟩)) &&
      snapshot.parentsSucceeded dagId' childId
  set := releasedRow now

/-- `LEAST(60000, 1000 * power(2, LEAST(16, GREATEST(0, attempts - 1))))` -/
def retryDelayMs (attempts : ℕ) : ℤ := min 60000 (1000 * 2 ^ min 16 (attempts - 1))

/-- The `SET` that `fail` and `reap` share. -/
def retryRow (now : ℤ) (row : JobRow) : JobRow :=
  { row.unleased with
    state := if row.maxAttempts ≤ row.attempts then .deadLettered else .retryWait
    availableAt :=
      if row.maxAttempts ≤ row.attempts then row.availableAt
      else now + milliseconds (retryDelayMs row.attempts) }

theorem retryRow_state (now : ℤ) (row : JobRow) :
    (retryRow now row).state = .deadLettered ∨ (retryRow now row).state = .retryWait := by
  by_cases hspent : row.maxAttempts ≤ row.attempts
  · exact .inl (if_pos hspent)
  · exact .inr (if_neg hspent)

/-- The statement of `fail`. -/
def failStatement (dagId jobId owner : String) (token : Uuid) (now : ℤ) : JobUpdate where
  applies _ := leaseMatches dagId jobId owner token now
  set := retryRow now

/-- The statement of `reap_in_transaction`. -/
def reapStatement (now : ℤ) : JobUpdate where
  applies _ _ _ row :=
    decide (row.state = .leased) && row.leaseExpiresAt.any fun expires => decide (expires ≤ now)
  set := retryRow now

theorem reapStatement_applies_iff {snapshot : Snapshot} {dagId jobId : String} {row : JobRow}
    {now : ℤ} : (reapStatement now).applies snapshot dagId jobId row = true ↔
      row.state = .leased ∧ ∃ expires, row.leaseExpiresAt = some expires ∧ expires ≤ now := by
  simp only [reapStatement, Bool.and_eq_true, decide_eq_true_eq, Option.any_eq_true]

/-- The second statement of `cancel`. -/
def cancelStatement (dagId : String) : JobUpdate where
  applies _ dagId' _ row :=
    decide (dagId' = dagId) &&
      !(decide (row.state = .succeeded) || decide (row.state = .deadLettered) ||
        decide (row.state = .cancelled))
  set row := { row.unleased with state := .cancelled }

end JobOrchestrator
