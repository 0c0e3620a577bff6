import JobOrchestrator.Library.MachineInt
import JobOrchestrator.Scheduler.Basic
import JobOrchestrator.Store.Statements

/-!
# The operations of the durable store

The methods of `PostgresStore`, each run as one transaction with nothing beside
it: a function from the committed database to the result and the next committed
database.  `now` is the `CURRENT_TIMESTAMP` of the transaction.  A transaction
that returns an error is rolled back, so that the database stays as it was.
-/

namespace JobOrchestrator

inductive StoreError
  | validation (error : ValidationError)
  | database (error : SqlError)
  | notFound
  | leaseConflict
  | invalidConfiguration
  | corruptData
deriving DecidableEq, Repr

/-- The `ClaimedJob` of the durable store; its token is a UUID. -/
structure StoreClaim where
  dagId : String
  jobId : String
  kind : JobKind
  payload : String
  attempt : ℕ
  leaseToken : Uuid
  leaseExpiresAtMs : ℤ
deriving DecidableEq

namespace Database

/-- What the statements of a transaction that runs alone read. -/
def snapshot (db : Database) : Snapshot where
  dagState? := db.dags.get?
  job? dagId jobId := db.jobs.get? (dagId, jobId)
  dependencies := db.dependencies.keys

/-- Runs an `UPDATE jobs`; the count is `rows_affected`. -/
def execute (db : Database) (statement : JobUpdate) : ℕ × Database :=
  let hit := fun (key : String × String) row => statement.applies db.snapshot key.1 key.2 row
  (db.jobs.countValues hit,
    { db with
      jobs := db.jobs.mapValues fun key row => if hit key row then statement.set row else row })

/-- `insert_event`: the attempt is read from the row of the job. -/
def insertEvent (db : Database) (dagId jobId eventType owner : String) : Database :=
  match db.jobs.get? (dagId, jobId) with
  | none => db
  | some row => { db with events := db.events ++ [⟨dagId, jobId, eventType, row.attempts, owner⟩] }

/-- The candidates of a claim in the order in which they are tried. -/
def claimQueue (db : Database) (now : ℤ) : List ((String × String) × JobRow) :=
  (db.jobs.entries.filter fun entry =>
    claimCandidate now db.snapshot entry.1.1 entry.1.2 entry.2).insertionSort
      fun first second => claimRank first.1 first.2 ≤ claimRank second.1 second.2

end Database

namespace PostgresStore

/-- The parameters of a statement are texts without NUL. -/
def bindTexts (texts : List String) : Except StoreError Unit :=
  if texts.any hasNul then .error (.database .invalidText) else .ok ()

/-- A rejected statement ends the transaction with a database error. -/
def fromSql {α : Type} : Except SqlError α → Except StoreError α
  | .error error => .error (.database error)
  | .ok value => .ok value

/-- Commits the database of a successful transaction and rolls back a failed one. -/
def transaction {α : Type} (db : Database) (outcome : Except StoreError (α × Database)) :
    Except StoreError α × Database :=
  match outcome with
  | .error error => (.error error, db)
  | .ok (value, after) => (.ok value, after)

/-! ## Submission -/

/-- The dependency counts of `submit`. -/
def dependencyCounts (spec : DagSpec) : Table String ℕ :=
  spec.dependencies.foldl (fun counts edge => counts.modify edge.toId (· + 1))
    (Scheduler.zeroCounts spec.jobs)

/-- The row that `submit` inserts for a job. -/
def submittedRow (counts : Table String ℕ) (now : ℤ) (job : JobSpec) : JobRow where
  kind := job.kind
  payload := job.payload
  maxAttempts := job.maxAttempts
  attempts := 0
  priority := job.priority
  state := if (counts.get? job.id).getD 0 = 0 then .ready else .pending
  availableAt := now
  leaseOwner := none
  leaseToken := none
  leaseExpiresAt := none
  result := none

/-- The loop over the jobs. -/
def insertJobs (dagId : String) (counts : Table String ℕ) (now : ℤ) :
    List JobSpec → Database → Except StoreError Database
  | [], db => .ok db
  | job :: rest, db =>
      -- `i16::try_from(job.max_attempts)`
      if 2 ^ 15 ≤ job.maxAttempts then .error .invalidConfiguration
      else do
        let db ← fromSql (db.insertJob dagId job.id (submittedRow counts now job))
        insertJobs dagId counts now rest db

/-- The loop over the edges. -/
def insertDependencies (dagId : String) :
    List Dependency → Database → Except StoreError Database
  | [], db => .ok db
  | edge :: rest, db => do
      let db ← fromSql (db.insertDependency ⟨dagId, edge.fromId, edge.toId⟩)
      insertDependencies dagId rest db

/-- Persists a fully validated DAG in one atomic transaction. -/
def submit (db : Database) (spec : DagSpec) (now : ℤ) : Except StoreError Unit × Database :=
  match spec.validate with
  | .error error => (.error (.validation error), db)
  | .ok _ => transaction db do
      let db ← fromSql (db.insertDag spec.id)
      let db ← insertJobs spec.id (dependencyCounts spec) now spec.jobs db
      let db ← insertDependencies spec.id spec.dependencies db
      .ok ((), db)

/-! ## Claims and reports -/

def validateOwnerAndLease (owner : String) (leaseMs : ℤ) : Except StoreError Unit :=
  if owner.isEmpty || decide (64 < owner.utf8ByteSize) ||
      !(decide (1 ≤ leaseMs) && decide (leaseMs ≤ 60000)) then .error .invalidConfiguration
  else .ok ()

def ensureCompareAndSet (changed : ℕ) : Except StoreError Unit :=
  if changed = 1 then .ok () else .error .leaseConflict

/-- `unix_millis` of a timestamp. -/
def unixMillis (timestamp : ℤ) : ℤ := I64.clamp ((timestamp * 1000).tdiv 1000000)

def stateName : JobState → String
  | .pending => "pending"
  | .ready => "ready"
  | .retryWait => "retry_wait"
  | .leased => "leased"
  | .succeeded => "succeeded"
  | .deadLettered => "dead_lettered"
  | .cancelled => "cancelled"

/-- The transition count and the database after `reap_in_transaction`. -/
def reapInTransaction (db : Database) (now : ℤ) : ℕ × Database := db.execute (reapStatement now)

/-- The update of the first candidate and the event about it. -/
def grantCandidate (db : Database) (key : String × String) (row : JobRow) (owner : String)
    (token : Uuid) (leaseMs now : ℤ) : StoreClaim × Database :=
  let granted := (claimStatement owner token leaseMs now).set row
  (⟨key.1, key.2, granted.kind, granted.payload, granted.attempts, token,
      unixMillis (now + milliseconds leaseMs)⟩,
    { db with
      jobs := db.jobs.modify key (claimStatement owner token leaseMs now).set
      events := db.events ++ [⟨key.1, key.2, "claimed", granted.attempts, owner⟩] })

/-- Atomically reaps expired leases and claims one eligible job. -/
def claim (db : Database) (owner : String) (leaseMs : ℤ) (token : Uuid) (now : ℤ) :
    Except StoreError (Option StoreClaim) × Database :=
  transaction db do
    validateOwnerAndLease owner leaseMs
    bindTexts [owner]
    let reaped := (reapInTransaction db now).2
    match (reaped.claimQueue now).head? with
    | none => .ok (none, reaped)
    | some (key, row) =>
        let (claimed, granted) := grantCandidate reaped key row owner token leaseMs now
        .ok (some claimed, granted)

/-- Extends a lease only when the current owner, token, state, and deadline match. -/
def heartbeat (db : Database) (dagId jobId owner : String) (token : Uuid) (leaseMs now : ℤ) :
    Except StoreError Unit × Database :=
  transaction db do
    validateOwnerAndLease owner leaseMs
    bindTexts [dagId, jobId, owner]
    let (changed, extended) := db.execute (heartbeatStatement dagId jobId owner token leaseMs now)
    ensureCompareAndSet changed
    .ok ((), extended)

/-- Commits a result and releases dependency-satisfied children atomically. -/
def complete (db : Database) (dagId jobId owner : String) (token : Uuid) (result : String)
    (now : ℤ) : Except StoreError Unit × Database :=
  if maxPayloadBytes < result.utf8ByteSize then (.error .invalidConfiguration, db)
  else transaction db do
    bindTexts [dagId, jobId, owner, result]
    let (changed, succeeded) :=
      db.execute (completeStatement dagId jobId owner token result now)
    ensureCompareAndSet changed
    let released := (succeeded.execute (releaseStatement dagId jobId now)).2
    .ok ((), released.insertEvent dagId jobId "succeeded" owner)

/-- Applies exponential backoff or moves an exhausted job to the dead-letter state. -/
def fail (db : Database) (dagId jobId owner : String) (token : Uuid) (now : ℤ) :
    Except StoreError JobState × Database :=
  transaction db do
    bindTexts [dagId, jobId, owner]
    let (changed, retried) := db.execute (failStatement dagId jobId owner token now)
    if changed = 0 then .error .leaseConflict
    else match retried.jobs.get? (dagId, jobId) with
      | none => .error .leaseConflict
      | some row =>
          .ok (row.state, retried.insertEvent dagId jobId (stateName row.state) owner)

/-- Reclaims all currently expired leases and returns the transition count. -/
def reap (db : Database) (now : ℤ) : Except StoreError ℕ × Database :=
  transaction db (.ok (reapInTransaction db now))

/-- Cancels a DAG and invalidates every unfinished lease in one transaction. -/
def cancel (db : Database) (dagId : String) : Except StoreError ℕ × Database :=
  transaction db do
    bindTexts [dagId]
    if !db.dags.contains dagId then .error .notFound
    else
      let marked := { db with dags := db.dags.modify dagId fun _ => .cancelled }
      .ok (marked.execute (cancelStatement dagId))

end PostgresStore

end JobOrchestrator
