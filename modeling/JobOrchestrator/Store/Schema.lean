import JobOrchestrator.Domain.Spec

/-!
# The tables of the durable store

The relations of the migration with their primary keys, foreign keys and checks.
A column that a check restricts to a list of words is an enumeration, a
timestamp is its number of microseconds, and the columns that no modelled
statement reads (`created_at`, `updated_at`, `occurred_at`) are left out.  An
insertion is accepted exactly when it violates no constraint.
-/

namespace JobOrchestrator

/-- A lease token of the durable store. -/
abbrev Uuid := BitVec 128

inductive DagState
  | running
  | cancelled
deriving DecidableEq, Repr

/-- A row of `jobs` without its key. -/
structure JobRow where
  kind : JobKind
  payload : String
  maxAttempts : ℕ
  attempts : ℕ
  priority : ℤ
  state : JobState
  availableAt : ℤ
  leaseOwner : Option String
  leaseToken : Option Uuid
  leaseExpiresAt : Option ℤ
  result : Option String
deriving DecidableEq

/-- A row of `job_dependencies`, which is all key. -/
structure DependencyRow where
  dagId : String
  parentId : String
  childId : String
deriving DecidableEq, Repr

/-- A row of `job_events`; the detail is the owner, the sequence is the position. -/
structure EventRow where
  dagId : String
  jobId : String
  eventType : String
  attempt : ℕ
  owner : String
deriving DecidableEq, Repr

structure Database where
  dags : Table String DagState
  jobs : Table (String × String) JobRow
  dependencies : Table DependencyRow Unit
  events : List EventRow

/-- The error classes of a rejected statement. -/
inductive SqlError
  | invalidText
  | uniqueViolation
  | foreignKeyViolation
  | checkViolation
deriving DecidableEq, Repr

/-- `SQLSTATE` -/
def SqlError.code : SqlError → String
  | .invalidText => "22021"
  | .uniqueViolation => "23505"
  | .foreignKeyViolation => "23503"
  | .checkViolation => "23514"

/-! ## Constraints -/

/-- `TEXT` cannot hold the character NUL. -/
def hasNul (text : String) : Bool := text.toList.contains (Char.ofNat 0)

/-- The pattern `^[A-Za-z0-9_-]{1,64}$`. -/
def matchesIdentifierPattern (id : String) : Bool :=
  id.toList.all (fun c => c.isAlphanum || c == '_' || c == '-') &&
    decide (1 ≤ id.length) && decide (id.length ≤ 64)

namespace JobRow

/-- The checks of the table on everything but the key. -/
def checks (row : JobRow) : Bool :=
  decide (row.payload.utf8ByteSize ≤ 4096) &&
    decide (1 ≤ row.maxAttempts ∧ row.maxAttempts ≤ 20) &&
    decide (-100 ≤ row.priority ∧ row.priority ≤ 100) &&
    row.result.all (fun result => decide (result.utf8ByteSize ≤ 4096)) &&
    (decide (row.state = .leased) ==
      (row.leaseOwner.isSome && row.leaseToken.isSome && row.leaseExpiresAt.isSome))

end JobRow

namespace Database

def putJob (db : Database) (dagId id : String) (row : JobRow) : Database :=
  { db with jobs := db.jobs.insert (dagId, id) row }

def putDependency (db : Database) (row : DependencyRow) : Database :=
  { db with dependencies := db.dependencies.insert row () }

theorem contains_putDependency (db : Database) (row row' : DependencyRow) :
    (db.putDependency row).dependencies.contains row' = true ↔
      row' = row ∨ db.dependencies.contains row' = true := by
  unfold putDependency Table.contains
  rw [Table.get?_insert]
  by_cases hrow : row' = row <;> simp [hrow]

/-- `INSERT INTO dags (id)` -/
def insertDag (db : Database) (id : String) : Except SqlError Database :=
  if hasNul id then .error .invalidText
  else if !matchesIdentifierPattern id then .error .checkViolation
  else if db.dags.contains id then .error .uniqueViolation
  else .ok { db with dags := db.dags.insert id .running }

/-- `INSERT INTO jobs` -/
def insertJob (db : Database) (dagId id : String) (row : JobRow) : Except SqlError Database :=
  if hasNul dagId || hasNul id || hasNul row.payload then .error .invalidText
  else if !(matchesIdentifierPattern id && row.checks) then .error .checkViolation
  else if db.jobs.contains (dagId, id) then .error .uniqueViolation
  else if !db.dags.contains dagId then .error .foreignKeyViolation
  else .ok (db.putJob dagId id row)

/-- `INSERT INTO job_dependencies` -/
def insertDependency (db : Database) (row : DependencyRow) : Except SqlError Database :=
  if hasNul row.dagId || hasNul row.parentId || hasNul row.childId then .error .invalidText
  else if row.parentId = row.childId then .error .checkViolation
  else if db.dependencies.contains row then .error .uniqueViolation
  else if !(db.jobs.contains (row.dagId, row.parentId) && db.jobs.contains (row.dagId, row.childId))
  then .error .foreignKeyViolation
  else .ok (db.putDependency row)

/-- The foreign keys hold. -/
structure ForeignKeys (db : Database) : Prop where
  job : ∀ dagId id row, db.jobs.get? (dagId, id) = some row → db.dags.contains dagId = true
  dependency : ∀ row ∈ db.dependencies.keys,
    db.jobs.contains (row.dagId, row.parentId) = true ∧
      db.jobs.contains (row.dagId, row.childId) = true
  event : ∀ row ∈ db.events, db.jobs.contains (row.dagId, row.jobId) = true

/-- The database right after the migration. -/
def empty : Database := ⟨.empty, .empty, .empty, []⟩

theorem ForeignKeys.empty : Database.empty.ForeignKeys where
  job _ _ _ h := by cases h
  dependency _ h := by cases h
  event _ h := by cases h

end Database

end JobOrchestrator
