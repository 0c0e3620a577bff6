import JobOrchestrator.Scheduler.Snapshot
import JobOrchestrator.Store.Postgres

/-!
# Rows as the driver returns them

The words that stand for kinds and states in the columns, with `parse_kind` and
`parse_state`, and the decoding of the rows that `PostgresStore::claim` and
`PostgresStore::snapshot` get from their statements: a kind or a state is a text, a
counter a signed number.  A decoder fails with `CorruptData` on everything that no row
of the schema holds (`decode_eq_ok_iff`); on a row of the table it returns the row.
-/

namespace JobOrchestrator

/-- `u16::try_from(i16)` -/
def U16.tryFrom (a : ℤ) : Option ℕ := if 0 ≤ a ∧ a < 2 ^ 16 then some a.toNat else none

namespace PostgresStore

def kindName : JobKind → String
  | .delay => "delay"
  | .checksum => "checksum"
  | .uppercase => "uppercase"

def parseKind : String → Except StoreError JobKind
  | "delay" => .ok .delay
  | "checksum" => .ok .checksum
  | "uppercase" => .ok .uppercase
  | _ => .error .corruptData

def parseState : String → Except StoreError JobState
  | "pending" => .ok .pending
  | "ready" => .ok .ready
  | "retry_wait" => .ok .retryWait
  | "leased" => .ok .leased
  | "succeeded" => .ok .succeeded
  | "dead_lettered" => .ok .deadLettered
  | "cancelled" => .ok .cancelled
  | _ => .error .corruptData

theorem parseKind_eq_ok_iff {value : String} {kind : JobKind} :
    parseKind value = .ok kind ↔ value = kindName kind := by
  constructor
  · intro h
    unfold parseKind at h
    split at h <;> cases h <;> rfl
  · rintro rfl
    cases kind <;> rfl

theorem parseState_eq_ok_iff {value : String} {state : JobState} :
    parseState value = .ok state ↔ value = stateName state := by
  constructor
  · intro h
    unfold parseState at h
    split at h <;> cases h <;> rfl
  · rintro rfl
    cases state <;> rfl

/-- `.map_err(|_| StoreError::CorruptData)` of `u16::try_from` -/
def decodeCount (count : ℤ) : Except StoreError ℕ :=
  match U16.tryFrom count with
  | none => .error .corruptData
  | some count => .ok count

theorem decodeCount_eq_ok_iff {count : ℤ} {n : ℕ} :
    decodeCount count = .ok n ↔ count = n ∧ n < 2 ^ 16 := by
  unfold decodeCount U16.tryFrom
  split
  next hnone =>
    split at hnone
    · cases hnone
    next hrange =>
      refine iff_of_false (fun h => by cases h) fun h => hrange ?_
      omega
  next m hsome =>
    split at hsome
    next hrange =>
      simp only [Option.some.injEq] at hsome
      simp only [Except.ok.injEq]
      omega
    · cases hsome

end PostgresStore

/-! ## The row that a claim returns -/

/-- The `RETURNING` list of the update in `claim`. -/
structure ReturnedJob where
  dagId : String
  jobId : String
  kind : String
  payload : String
  attempts : ℤ
  leaseExpiresAt : ℤ
deriving DecidableEq

/-- The returned columns of a row whose lease ends at `expiresAt`. -/
def JobRow.returned (key : String × String) (expiresAt : ℤ) (row : JobRow) : ReturnedJob where
  dagId := key.1
  jobId := key.2
  kind := PostgresStore.kindName row.kind
  payload := row.payload
  attempts := row.attempts
  leaseExpiresAt := expiresAt

/-- The `ClaimedJob` that is built from the row. -/
def ReturnedJob.decode (row : ReturnedJob) (token : Uuid) : Except StoreError StoreClaim := do
  let kind ← PostgresStore.parseKind row.kind
  let attempt ← PostgresStore.decodeCount row.attempts
  .ok {
    dagId := row.dagId
    jobId := row.jobId
    kind := kind
    payload := row.payload
    attempt := attempt
    leaseToken := token
    leaseExpiresAtMs := PostgresStore.unixMillis row.leaseExpiresAt }

/-- A returned row is decoded if its kind is one of the words and its counter is in
range. -/
theorem ReturnedJob.decode_eq_ok_iff {row : ReturnedJob} {token : Uuid} {claimed : StoreClaim} :
    row.decode token = .ok claimed ↔ row.kind = PostgresStore.kindName claimed.kind ∧
      (row.attempts = claimed.attempt ∧ claimed.attempt < 2 ^ 16) ∧
      claimed.dagId = row.dagId ∧ claimed.jobId = row.jobId ∧ claimed.payload = row.payload ∧
      claimed.leaseToken = token ∧
      claimed.leaseExpiresAtMs = PostgresStore.unixMillis row.leaseExpiresAt := by
  simp only [decode, except_bind_eq_ok, PostgresStore.parseKind_eq_ok_iff,
    PostgresStore.decodeCount_eq_ok_iff, Except.ok.injEq]
  constructor
  · rintro ⟨kind, hkind, attempt, hattempt, rfl⟩
    exact ⟨hkind, hattempt, rfl, rfl, rfl, rfl, rfl⟩
  · rintro ⟨hkind, hattempt, hdagId, hjobId, hpayload, htoken, hexpires⟩
    refine ⟨_, hkind, _, hattempt, ?_⟩
    cases claimed
    simp only at hdagId hjobId hpayload htoken hexpires
    rw [hdagId, hjobId, hpayload, htoken, hexpires]

/-! ## The rows that a snapshot selects -/

/-- A row of the select list of `snapshot`. -/
structure SelectedJob where
  id : String
  state : String
  attempts : ℤ
  maxAttempts : ℤ
  availableAt : ℤ
  leaseOwner : Option String
  leaseExpiresAt : Option ℤ
  result : Option String
deriving DecidableEq

/-- The selected columns of a row. -/
def JobRow.selected (id : String) (row : JobRow) : SelectedJob where
  id := id
  state := PostgresStore.stateName row.state
  attempts := row.attempts
  maxAttempts := row.maxAttempts
  availableAt := row.availableAt
  leaseOwner := row.leaseOwner
  leaseExpiresAt := row.leaseExpiresAt
  result := row.result

/-- The body of the loop over the selected rows. -/
def SelectedJob.decode (row : SelectedJob) : Except StoreError JobSnapshot := do
  let state ← PostgresStore.parseState row.state
  let attempts ← PostgresStore.decodeCount row.attempts
  let maxAttempts ← PostgresStore.decodeCount row.maxAttempts
  .ok {
    id := row.id
    state := state
    attempts := attempts
    maxAttempts := maxAttempts
    availableAtMs := PostgresStore.unixMillis row.availableAt
    leaseOwner := row.leaseOwner
    leaseExpiresAtMs := row.leaseExpiresAt.map PostgresStore.unixMillis
    result := row.result }

/-- What a reader of the table sees of a row. -/
def JobRow.snapshot (id : String) (row : JobRow) : JobSnapshot where
  id := id
  state := row.state
  attempts := row.attempts
  maxAttempts := row.maxAttempts
  availableAtMs := PostgresStore.unixMillis row.availableAt
  leaseOwner := row.leaseOwner
  leaseExpiresAtMs := row.leaseExpiresAt.map PostgresStore.unixMillis
  result := row.result

/-- A selected row is decoded if its state is one of the words and its counters
are in range; nothing else is looked at. -/
theorem SelectedJob.decode_eq_ok_iff {row : SelectedJob} {item : JobSnapshot} :
    row.decode = .ok item ↔ row.state = PostgresStore.stateName item.state ∧
      (row.attempts = item.attempts ∧ item.attempts < 2 ^ 16) ∧
      (row.maxAttempts = item.maxAttempts ∧ item.maxAttempts < 2 ^ 16) ∧
      item.id = row.id ∧ item.availableAtMs = PostgresStore.unixMillis row.availableAt ∧
      item.leaseOwner = row.leaseOwner ∧
      item.leaseExpiresAtMs = row.leaseExpiresAt.map PostgresStore.unixMillis ∧
      item.result = row.result := by
  simp only [decode, except_bind_eq_ok, PostgresStore.parseState_eq_ok_iff,
    PostgresStore.decodeCount_eq_ok_iff, Except.ok.injEq]
  constructor
  · rintro ⟨state, hstate, attempts, hattempts, maxAttempts, hmax, rfl⟩
    exact ⟨hstate, hattempts, hmax, rfl, rfl, rfl, rfl, rfl⟩
  · rintro ⟨hstate, hattempts, hmax, hid, havailable, howner, hexpires, hresult⟩
    refine ⟨_, hstate, _, hattempts, _, hmax, ?_⟩
    cases item
    simp only at hid havailable howner hexpires hresult
    rw [hid, havailable, howner, hexpires, hresult]

/-- A row of the table is decoded as it is. -/
theorem JobRow.decode_selected {row : JobRow} (hattempts : row.attempts < 2 ^ 16)
    (hmax : row.maxAttempts < 2 ^ 16) (id : String) :
    (row.selected id).decode = .ok (row.snapshot id) :=
  SelectedJob.decode_eq_ok_iff.mpr
    ⟨rfl, ⟨rfl, hattempts⟩, ⟨rfl, hmax⟩, rfl, rfl, rfl, rfl, rfl⟩

end JobOrchestrator
