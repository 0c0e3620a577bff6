import JobOrchestrator.Library.FinalRows
import JobOrchestrator.Store.Submit

/-!
# Concurrent transactions of the durable store

The methods of `PostgresStore` as programs under read committed isolation: the
statements of `Statements.lean`, in the order of the code, with the checks of
`rows_affected` between them.  The graphs have been submitted before; their
edges never change afterwards.  The insertions into `job_events` are left out:
they read a row that their own transaction has locked, and nothing reads them.

`Executes` lists the statements of the programs, and `RowChange` says what a
transaction can do with them to the row of a job; the invariants of the rows
follow from it.
-/

namespace JobOrchestrator

open ReadCommitted

/-! ## Rows -/

/-- The primary keys of `dags` and `jobs`. -/
inductive StoreKey
  | dag (id : String)
  | job (dagId jobId : String)
deriving DecidableEq

inductive StoredRow
  | dag (state : DagState)
  | job (row : JobRow)
deriving DecidableEq

/-- The rows of `dags` and `jobs`. -/
def Database.stored (db : Database) : Table StoreKey StoredRow where
  entries :=
    (db.dags.entries.map fun entry => (.dag entry.1, .dag entry.2)) ++
      db.jobs.entries.map fun entry => (.job entry.1.1 entry.1.2, .job entry.2)
  nodupKeys := by
    rw [List.map_append, List.map_map, List.map_map]
    have hdags : (db.dags.entries.map (StoreKey.dag ∘ Prod.fst)).Nodup := by
      rw [← List.map_map]
      exact db.dags.nodupKeys.map fun _ _ h => StoreKey.dag.inj h
    have hjobs : (db.jobs.entries.map
        ((fun key : String × String => StoreKey.job key.1 key.2) ∘ Prod.fst)).Nodup := by
      rw [← List.map_map]
      exact db.jobs.nodupKeys.map fun _ _ h =>
        Prod.ext (StoreKey.job.inj h).1 (StoreKey.job.inj h).2
    refine List.nodup_append.mpr ⟨hdags, hjobs, fun key hkey other hother hsame => ?_⟩
    obtain ⟨_, _, rfl⟩ := List.mem_map.mp hkey
    obtain ⟨_, _, rfl⟩ := List.mem_map.mp hother
    cases hsame

theorem get?_stored_job (db : Database) (dagId jobId : String) (stored : StoredRow) :
    db.stored.get? (.job dagId jobId) = some stored ↔
      ∃ row, db.jobs.get? (dagId, jobId) = some row ∧ stored = .job row := by
  rw [← Table.mem_entries]
  simp only [Database.stored, List.mem_append, List.mem_map, Prod.mk.injEq, reduceCtorEq,
    false_and, and_false, exists_false, false_or, StoreKey.job.injEq, Prod.exists,
    Table.mem_entries]
  constructor
  · rintro ⟨_, _, row, hrow, ⟨rfl, rfl⟩, rfl⟩
    exact ⟨row, hrow, rfl⟩
  · rintro ⟨row, hrow, rfl⟩
    exact ⟨dagId, jobId, row, hrow, ⟨rfl, rfl⟩, rfl⟩

theorem get?_stored_dag (db : Database) (dagId : String) (stored : StoredRow) :
    db.stored.get? (.dag dagId) = some stored ↔
      ∃ state, db.dags.get? dagId = some state ∧ stored = .dag state := by
  rw [← Table.mem_entries]
  simp only [Database.stored, List.mem_append, List.mem_map, Prod.mk.injEq, reduceCtorEq,
    false_and, and_false, exists_false, or_false, StoreKey.dag.injEq, Prod.exists,
    Table.mem_entries]
  constructor
  · rintro ⟨_, state, hstate, rfl, rfl⟩
    exact ⟨state, hstate, rfl⟩
  · rintro ⟨state, hstate, rfl⟩
    exact ⟨dagId, state, hstate, rfl, rfl⟩

theorem contains_stored_dag (db : Database) (dagId : String) :
    db.stored.contains (.dag dagId) = db.dags.contains dagId := by
  rw [Bool.eq_iff_iff, Table.contains_iff, Table.contains_iff]
  simp [Table.keys, Database.stored]

theorem contains_stored_job (db : Database) (dagId jobId : String) :
    db.stored.contains (.job dagId jobId) = db.jobs.contains (dagId, jobId) := by
  rw [Bool.eq_iff_iff, Table.contains_iff, Table.contains_iff]
  simp [Table.keys, Database.stored]

/-- What the sub-selects and joins of a statement read. -/
def snapshotOf (dependencies : List DependencyRow) (rows : Table StoreKey StoredRow) :
    Snapshot where
  dagState? id := match rows.get? (.dag id) with
    | some (.dag state) => some state
    | _ => none
  job? dagId jobId := match rows.get? (.job dagId jobId) with
    | some (.job row) => some row
    | _ => none
  dependencies := dependencies

theorem job?_snapshotOf {dependencies : List DependencyRow} {rows : Table StoreKey StoredRow}
    {dagId jobId : String} {row : JobRow} :
    (snapshotOf dependencies rows).job? dagId jobId = some row ↔
      rows.get? (.job dagId jobId) = some (.job row) := by
  simp only [snapshotOf]
  split
  next found hfound => simp [hfound]
  next hother =>
    refine iff_of_false (fun hnone => ?_) (hother row)
    cases hnone

/-! ## Statements -/

/-- The statements that write `dags` or `jobs`. -/
inductive StatementLabel
  | reap
  | claim
  | heartbeat
  | complete
  | release
  | fail
  | markDag
  | cancelJobs
deriving DecidableEq, Repr

/-- An `UPDATE jobs` under execution beside others. -/
def JobUpdate.statement (update : JobUpdate) (dependencies : List DependencyRow)
    (label : StatementLabel) (scan : Scan StoreKey StoredRow) :
    Statement StoreKey StoredRow StatementLabel where
  label := label
  applies rows key stored := match key, stored with
    | .job dagId jobId, .job row => update.applies (snapshotOf dependencies rows) dagId jobId row
    | _, _ => false
  set stored := match stored with
    | .job row => .job (update.set row)
    | .dag state => .dag state
  scan := scan

/-- `ORDER BY … FOR UPDATE OF j SKIP LOCKED LIMIT 1` -/
def claimScan : Scan StoreKey StoredRow :=
  .first fun first second => match first, second with
    | (.job dagId jobId, .job row), (.job dagId' jobId', .job row') =>
        decide (claimRank (dagId, jobId) row ≤ claimRank (dagId', jobId') row')
    | _, _ => true

/-- The first statement of `cancel`. -/
def markDagStatement (dagId : String) : Statement StoreKey StoredRow StatementLabel where
  label := .markDag
  applies _ key _ := key = .dag dagId
  set _ := .dag .cancelled
  scan := .every

/-! ## Transactions -/

/-- A call of the store with its transaction timestamp. -/
inductive Transaction
  | claim (owner : String) (token : Uuid) (leaseMs now : ℤ)
  | heartbeat (dagId jobId owner : String) (token : Uuid) (leaseMs now : ℤ)
  | complete (dagId jobId owner : String) (token : Uuid) (result : String) (now : ℤ)
  | fail (dagId jobId owner : String) (token : Uuid) (now : ℤ)
  | reap (now : ℤ)
  | cancel (dagId : String)
deriving DecidableEq

/-- Goes on if a check succeeds; otherwise the error ends the transaction. -/
def unlessError {α : Type} (check : Except StoreError α)
    (command : Command StoreKey StoredRow StatementLabel) :
    Command StoreKey StoredRow StatementLabel :=
  match check with
  | .ok _ => command
  | .error _ => .rollback

/-- The program of a call: the next command, from the numbers of rows that its
finished statements have changed. -/
def command (dependencies : List DependencyRow) :
    Script StoreKey StoredRow StatementLabel Transaction
  | .claim owner token leaseMs now, counts =>
      unlessError (PostgresStore.validateOwnerAndLease owner leaseMs) <| match counts with
        | [] => .execute ((reapStatement now).statement dependencies .reap .every)
        | [_] => unlessError (PostgresStore.bindTexts [owner]) <| .execute
            ((claimStatement owner token leaseMs now).statement dependencies .claim claimScan)
        | _ => .commit
  | .heartbeat dagId jobId owner token leaseMs now, counts =>
      unlessError (PostgresStore.validateOwnerAndLease owner leaseMs) <| match counts with
        | [] => unlessError (PostgresStore.bindTexts [dagId, jobId, owner]) <| .execute
            ((heartbeatStatement dagId jobId owner token leaseMs now).statement dependencies
              .heartbeat .every)
        | changed :: _ => unlessError (PostgresStore.ensureCompareAndSet changed) .commit
  | .complete dagId jobId owner token result now, counts =>
      if maxPayloadBytes < result.utf8ByteSize then .rollback
      else match counts with
        | [] => unlessError (PostgresStore.bindTexts [dagId, jobId, owner, result]) <| .execute
            ((completeStatement dagId jobId owner token result now).statement dependencies
              .complete .every)
        | [changed] => unlessError (PostgresStore.ensureCompareAndSet changed) <| .execute
            ((releaseStatement dagId jobId now).statement dependencies .release .every)
        | _ => .commit
  | .fail dagId jobId owner token now, counts => match counts with
      | [] => unlessError (PostgresStore.bindTexts [dagId, jobId, owner]) <| .execute
          ((failStatement dagId jobId owner token now).statement dependencies .fail .every)
      | changed :: _ => if changed = 0 then .rollback else .commit
  | .reap now, counts => match counts with
      | [] => .execute ((reapStatement now).statement dependencies .reap .every)
      | _ => .commit
  | .cancel dagId, counts => match counts with
      | [] => unlessError (PostgresStore.bindTexts [dagId]) <| .execute (markDagStatement dagId)
      | [changed] =>
          if changed = 0 then .rollback
          else .execute ((cancelStatement dagId).statement dependencies .cancelJobs .every)
      | _ => .commit

/-- The statements of the programs, each with the number of the statements before it. -/
inductive Executes (dependencies : List DependencyRow) :
    Transaction → ℕ → Statement StoreKey StoredRow StatementLabel → Prop
  | reapFirst (owner : String) (token : Uuid) (leaseMs now : ℤ) :
      Executes dependencies (.claim owner token leaseMs now) 0
        ((reapStatement now).statement dependencies .reap .every)
  | claim (owner : String) (token : Uuid) (leaseMs now : ℤ) :
      Executes dependencies (.claim owner token leaseMs now) 1
        ((claimStatement owner token leaseMs now).statement dependencies .claim claimScan)
  | heartbeat (dagId jobId owner : String) (token : Uuid) (leaseMs now : ℤ) :
      Executes dependencies (.heartbeat dagId jobId owner token leaseMs now) 0
        ((heartbeatStatement dagId jobId owner token leaseMs now).statement dependencies
          .heartbeat .every)
  | complete (dagId jobId owner : String) (token : Uuid) (result : String) (now : ℤ) :
      Executes dependencies (.complete dagId jobId owner token result now) 0
        ((completeStatement dagId jobId owner token result now).statement dependencies
          .complete .every)
  | release (dagId jobId owner : String) (token : Uuid) (result : String) (now : ℤ) :
      Executes dependencies (.complete dagId jobId owner token result now) 1
        ((releaseStatement dagId jobId now).statement dependencies .release .every)
  | fail (dagId jobId owner : String) (token : Uuid) (now : ℤ) :
      Executes dependencies (.fail dagId jobId owner token now) 0
        ((failStatement dagId jobId owner token now).statement dependencies .fail .every)
  | reap (now : ℤ) : Executes dependencies (.reap now) 0
      ((reapStatement now).statement dependencies .reap .every)
  | markDag (dagId : String) : Executes dependencies (.cancel dagId) 0 (markDagStatement dagId)
  | cancelJobs (dagId : String) : Executes dependencies (.cancel dagId) 1
      ((cancelStatement dagId).statement dependencies .cancelJobs .every)

theorem unlessError_eq_execute {α : Type} {check : Except StoreError α}
    {next : Command StoreKey StoredRow StatementLabel}
    {statement : Statement StoreKey StoredRow StatementLabel}
    (h : unlessError check next = .execute statement) : next = .execute statement := by
  unfold unlessError at h
  split at h
  · exact h
  · cases h

/-- A program executes no other statements. -/
theorem executes_of_command {dependencies : List DependencyRow} {program : Transaction}
    {counts : List ℕ} {statement : Statement StoreKey StoredRow StatementLabel}
    (hscript : command dependencies program counts = .execute statement) :
    Executes dependencies program counts.length statement := by
  cases program with
  | claim owner token leaseMs now =>
      replace hscript := unlessError_eq_execute hscript
      match counts with
      | [] =>
          cases hscript
          exact .reapFirst owner token leaseMs now
      | [_] =>
          cases unlessError_eq_execute hscript
          exact .claim owner token leaseMs now
      | _ :: _ :: _ => cases hscript
  | heartbeat dagId jobId owner token leaseMs now =>
      replace hscript := unlessError_eq_execute hscript
      match counts with
      | [] =>
          cases unlessError_eq_execute hscript
          exact .heartbeat dagId jobId owner token leaseMs now
      | _ :: _ => cases unlessError_eq_execute hscript
  | complete dagId jobId owner token result now =>
      simp only [command] at hscript
      split at hscript
      · cases hscript
      · match counts with
        | [] =>
            cases unlessError_eq_execute hscript
            exact .complete dagId jobId owner token result now
        | [_] =>
            cases unlessError_eq_execute hscript
            exact .release dagId jobId owner token result now
        | _ :: _ :: _ => cases hscript
  | fail dagId jobId owner token now =>
      match counts with
      | [] =>
          cases unlessError_eq_execute hscript
          exact .fail dagId jobId owner token now
      | changed :: _ =>
          simp only [command] at hscript
          split at hscript <;> cases hscript
  | reap now =>
      match counts with
      | [] =>
          cases hscript
          exact .reap now
      | _ :: _ => cases hscript
  | cancel dagId =>
      match counts with
      | [] =>
          cases unlessError_eq_execute hscript
          exact .markDag dagId
      | [_] =>
          simp only [command] at hscript
          split at hscript
          · cases hscript
          · cases hscript
            exact .cancelJobs dagId
      | _ :: _ :: _ => cases hscript

/-! ## What a transaction does to a row -/

/-- The changes that the statement after `index` others of a transaction makes to
the row of a job. -/
inductive RowChange (dagId jobId : String) :
    Transaction → ℕ → StatementLabel → JobRow → JobRow → Prop
  | reapFirst {old : JobRow} (owner : String) (token : Uuid) (leaseMs now : ℤ) :
      old.state = .leased →
      RowChange dagId jobId (.claim owner token leaseMs now) 0 .reap old (retryRow now old)
  | claim {old : JobRow} (owner : String) (token : Uuid) (leaseMs now : ℤ) :
      old.state = .ready ∨ old.state = .retryWait →
      RowChange dagId jobId (.claim owner token leaseMs now) 1 .claim old
        (grantLease owner token leaseMs now old)
  | heartbeat {old : JobRow} (owner : String) (token : Uuid) (leaseMs now : ℤ) :
      leaseMatches dagId jobId owner token now dagId jobId old = true →
      RowChange dagId jobId (.heartbeat dagId jobId owner token leaseMs now) 0 .heartbeat old
        ((heartbeatStatement dagId jobId owner token leaseMs now).set old)
  | complete {old : JobRow} (owner : String) (token : Uuid) (result : String) (now : ℤ) :
      leaseMatches dagId jobId owner token now dagId jobId old = true →
      RowChange dagId jobId (.complete dagId jobId owner token result now) 0 .complete old
        (succeededRow result old)
  | release {old : JobRow} (parentId owner : String) (token : Uuid) (result : String) (now : ℤ) :
      old.state = .pending →
      RowChange dagId jobId (.complete dagId parentId owner token result now) 1 .release old
        (releasedRow now old)
  | fail {old : JobRow} (owner : String) (token : Uuid) (now : ℤ) :
      leaseMatches dagId jobId owner token now dagId jobId old = true →
      RowChange dagId jobId (.fail dagId jobId owner token now) 0 .fail old (retryRow now old)
  | reap {old : JobRow} (now : ℤ) : old.state = .leased →
      RowChange dagId jobId (.reap now) 0 .reap old (retryRow now old)
  | cancel {old : JobRow} :
      ¬(old.state = .succeeded ∨ old.state = .deadLettered ∨ old.state = .cancelled) →
      RowChange dagId jobId (.cancel dagId) 1 .cancelJobs old
        { old.unleased with state := .cancelled }

/-- A statement that applies to the row of a job makes one of its changes. -/
theorem rowChange_of_applies {dependencies : List DependencyRow} {program : Transaction}
    {counts : List ℕ} {statement : Statement StoreKey StoredRow StatementLabel}
    (hscript : command dependencies program counts = .execute statement)
    {snapshot : Table StoreKey StoredRow} {dagId jobId : String} {old : JobRow}
    (happlies : statement.applies snapshot (.job dagId jobId) (.job old) = true) :
    ∃ new, statement.set (.job old) = .job new ∧
      RowChange dagId jobId program counts.length statement.label old new := by
  have hexecutes := executes_of_command hscript
  generalize counts.length = index at hexecutes ⊢
  cases hexecutes with
  | reapFirst owner token leaseMs now =>
      simp only [JobUpdate.statement, reapStatement, Bool.and_eq_true,
        decide_eq_true_eq] at happlies
      exact ⟨_, rfl, .reapFirst owner token leaseMs now happlies.1⟩
  | claim owner token leaseMs now =>
      simp only [JobUpdate.statement, claimStatement, claimCandidate, Bool.and_eq_true,
        decide_eq_true_eq] at happlies
      exact ⟨_, rfl, .claim owner token leaseMs now happlies.1.1.2⟩
  | heartbeat dagId' jobId' owner token leaseMs now =>
      simp only [JobUpdate.statement, heartbeatStatement] at happlies
      obtain ⟨rfl, rfl, -⟩ := leaseMatches_cases happlies
      exact ⟨_, rfl, .heartbeat owner token leaseMs now happlies⟩
  | complete dagId' jobId' owner token result now =>
      simp only [JobUpdate.statement, completeStatement] at happlies
      obtain ⟨rfl, rfl, -⟩ := leaseMatches_cases happlies
      exact ⟨_, rfl, .complete owner token result now happlies⟩
  | release dagId' parentId owner token result now =>
      simp only [JobUpdate.statement, releaseStatement, Bool.and_eq_true,
        decide_eq_true_eq] at happlies
      obtain ⟨⟨⟨rfl, hpending⟩, -⟩, -⟩ := happlies
      exact ⟨_, rfl, .release parentId owner token result now hpending⟩
  | fail dagId' jobId' owner token now =>
      simp only [JobUpdate.statement, failStatement] at happlies
      obtain ⟨rfl, rfl, -⟩ := leaseMatches_cases happlies
      exact ⟨_, rfl, .fail owner token now happlies⟩
  | reap now =>
      simp only [JobUpdate.statement, reapStatement, Bool.and_eq_true,
        decide_eq_true_eq] at happlies
      exact ⟨_, rfl, .reap now happlies.1⟩
  | markDag dagId' => simp [markDagStatement] at happlies
  | cancelJobs dagId' =>
      simp only [JobUpdate.statement, cancelStatement, Bool.and_eq_true,
        decide_eq_true_eq, Bool.not_eq_true', Bool.or_eq_false_iff,
        decide_eq_false_iff_not] at happlies
      obtain ⟨rfl, ⟨hsucceeded, hdead⟩, hcancelled⟩ := happlies
      refine ⟨_, rfl, .cancel ?_⟩
      rintro (h | h | h)
      · exact hsucceeded h
      · exact hdead h
      · exact hcancelled h

/-- The same for a change that a transaction has made. -/
theorem rowChange_of_justified {dependencies : List DependencyRow} {program : Transaction}
    {counts : List ℕ} {change : Change StoreKey StoredRow StatementLabel}
    (h : Justified (command dependencies) program counts change) {dagId jobId : String}
    {old : JobRow} (hkey : change.key = .job dagId jobId) (hold : change.old = .job old) :
    ∃ new, change.new = .job new ∧
      RowChange dagId jobId program change.index change.label old new := by
  obtain ⟨statement, snapshot, hindex, hscript, hlabel, happlies, hnew⟩ := h
  rw [hkey, hold] at happlies
  obtain ⟨new, hset, hchange⟩ := rowChange_of_applies hscript happlies
  rw [List.length_take_of_le hindex, ← hlabel] at hchange
  exact ⟨new, by rw [hnew, hold, hset], hchange⟩

/-! ## Invariants of a row -/

/-- A job that is not leased has no lease fields, and a job that can still be
claimed has an attempt left. -/
structure JobRow.Regular (row : JobRow) : Prop where
  unleased : row.state ≠ .leased →
    row.leaseOwner = none ∧ row.leaseToken = none ∧ row.leaseExpiresAt = none
  attempts_le : row.attempts ≤ row.maxAttempts
  attempts_lt : row.state = .pending ∨ row.state = .ready ∨ row.state = .retryWait →
    row.attempts < row.maxAttempts

theorem RowChange.regular {dagId jobId : String} {program : Transaction} {index : ℕ}
    {label : StatementLabel} {old new : JobRow}
    (h : RowChange dagId jobId program index label old new) (hold : old.Regular) :
    new.Regular := by
  have hretried : ∀ now, (retryRow now old).Regular := by
    intro now
    refine ⟨fun _ => ⟨rfl, rfl, rfl⟩, hold.attempts_le, fun hstate => ?_⟩
    by_contra hspent
    have hspent : old.maxAttempts ≤ old.attempts := not_lt.mp hspent
    simp [retryRow, hspent] at hstate
  cases h with
  | reapFirst owner token leaseMs now hstate => exact hretried now
  | claim owner token leaseMs now hstate =>
      have hlt := hold.attempts_lt (.inr hstate)
      exact ⟨fun hne => absurd rfl hne, hlt, fun hopen => by simp [grantLease] at hopen⟩
  | heartbeat owner token leaseMs now hmatches =>
      have hleased := (leaseMatches_cases hmatches).2.2.1
      exact ⟨fun hne => absurd hleased hne, hold.attempts_le, hold.attempts_lt⟩
  | complete owner token result now hmatches =>
      exact ⟨fun _ => ⟨rfl, rfl, rfl⟩, hold.attempts_le, fun hopen => by
        simp [succeededRow] at hopen⟩
  | release parentId owner token result now hstate =>
      have hnone := hold.unleased (by simp [hstate])
      exact ⟨fun _ => hnone, hold.attempts_le, fun _ => hold.attempts_lt (.inl hstate)⟩
  | fail owner token now hmatches => exact hretried now
  | reap now hstate => exact hretried now
  | cancel hopen =>
      exact ⟨fun _ => ⟨rfl, rfl, rfl⟩, hold.attempts_le, fun hstate => by simp at hstate⟩

/-- A terminal row is changed by nothing. -/
def JobRow.Terminal (row : JobRow) : Prop :=
  row.state = .succeeded ∨ row.state = .deadLettered ∨ row.state = .cancelled

theorem RowChange.not_terminal {dagId jobId : String} {program : Transaction} {index : ℕ}
    {label : StatementLabel} {old new : JobRow}
    (h : RowChange dagId jobId program index label old new) : ¬old.Terminal := by
  unfold JobRow.Terminal
  cases h with
  | reapFirst owner token leaseMs now hstate => simp [hstate]
  | claim owner token leaseMs now hstate => rcases hstate with h | h <;> simp [h]
  | heartbeat owner token leaseMs now hmatches => simp [(leaseMatches_cases hmatches).2.2.1]
  | complete owner token result now hmatches => simp [(leaseMatches_cases hmatches).2.2.1]
  | release parentId owner token result now hstate => simp [hstate]
  | fail owner token now hmatches => simp [(leaseMatches_cases hmatches).2.2.1]
  | reap now hstate => simp [hstate]
  | cancel hopen => exact hopen

/-- A row of `jobs` is stored under the key of a job, and it is regular. -/
def StoredRegular : StoreKey → StoredRow → Prop
  | .job _ _, .job row => row.Regular
  | .job _ _, .dag _ => False
  | .dag _, _ => True

theorem kept_storedRegular (dependencies : List DependencyRow) :
    Kept (command dependencies) StoredRegular := by
  intro program counts statement snapshot key stored hscript happlies hold
  cases key with
  | dag id => trivial
  | job dagId jobId =>
      cases stored with
      | dag state => exact hold.elim
      | job row =>
          obtain ⟨new, hset, hchange⟩ := rowChange_of_applies hscript happlies
          rw [hset]
          exact hchange.regular hold

/-- The row of a job that is terminal; no other row is stored under its key. -/
def StoredTerminal : StoreKey → StoredRow → Prop
  | .job _ _, .job row => row.Terminal
  | .job _ _, .dag _ => True
  | .dag _, _ => False

theorem final_storedTerminal (dependencies : List DependencyRow) :
    Final (command dependencies) StoredTerminal := by
  intro program counts statement snapshot key stored hscript hterminal
  rw [← Bool.not_eq_true]
  intro happlies
  cases key with
  | dag id => exact hterminal
  | job dagId jobId =>
      cases stored with
      | job row =>
          obtain ⟨new, -, hchange⟩ := rowChange_of_applies hscript happlies
          exact hchange.not_terminal hterminal
      | dag state =>
          have hexecutes := executes_of_command hscript
          generalize counts.length = index at hexecutes
          -- an update of `jobs` applies to no such row, and that of `dags` to no such key
          cases hexecutes with
          | markDag dagId' => simp [markDagStatement] at happlies
          | _ => simp [JobUpdate.statement] at happlies

/-! ## The initial database -/

/-- The databases that submissions lead to. -/
inductive Database.Submitted : Database → Prop
  | empty : Submitted .empty
  | submit {db : Database} (spec : DagSpec) (now : ℤ) : Submitted db →
      Submitted (PostgresStore.submit db spec now).2

/-- A job that has only been submitted: it is pending if an edge enters it. -/
structure JobRow.Untouched (db : Database) (dagId jobId : String) (row : JobRow) : Prop where
  attempts : row.attempts = 0
  attempts_left : 1 ≤ row.maxAttempts
  unleased : row.leaseOwner = none ∧ row.leaseToken = none ∧ row.leaseExpiresAt = none
  waiting : row.state = .ready ∨ row.state = .pending ∧ ∃ parentId,
    db.dependencies.contains ⟨dagId, parentId, jobId⟩ = true ∧
      db.jobs.contains (dagId, parentId) = true

theorem DagSpec.persistedRow_untouched {spec : DagSpec} {order : List String}
    (hvalid : spec.validate = .ok order) {now : ℤ} {before after : Database}
    (hinserted : Inserted spec now before after) {job : JobSpec} (hjob : job ∈ spec.jobs) :
    (spec.persistedRow now job).Untouched after spec.id job.id where
  attempts := rfl
  attempts_left := ((accepted_of_validate hvalid).jobs_valid job hjob).attempts_pos
  unleased := ⟨rfl, rfl, rfl⟩
  waiting := by
    by_cases hedge : (spec.dependencies.any fun edge => edge.toId == job.id) = true
    · obtain ⟨edge, hmem, htarget⟩ := List.any_eq_true.mp hedge
      have htarget : edge.toId = job.id := by simpa using htarget
      obtain ⟨hrow, hparent⟩ := hinserted.edge edge hmem
      rw [Dependency.row, htarget] at hrow
      exact .inr ⟨if_pos hedge, edge.fromId, hrow, hparent⟩
    · exact .inl (if_neg hedge)

theorem Database.Submitted.untouched {db : Database} (h : db.Submitted) {dagId jobId : String}
    {row : JobRow} (hrow : db.jobs.get? (dagId, jobId) = some row) :
    row.Untouched db dagId jobId := by
  induction h generalizing dagId jobId row with
  | empty => cases hrow
  | @submit db spec now _ ih =>
      rcases inserted_or_unchanged db spec now with hsame | ⟨order, hvalid, hinserted⟩
      · rw [hsame] at hrow ⊢
        exact ih hrow
      generalize (PostgresStore.submit db spec now).2 = after at hrow hinserted ⊢
      have hkept : ∀ key, db.jobs.contains key = true → after.jobs.contains key = true := by
        intro key hkey
        rcases hinserted.job key with hsame | ⟨hnone, -⟩
        · rw [Table.contains, hsame]
          exact hkey
        · simp [Table.contains, hnone] at hkey
      rcases hinserted.job (dagId, jobId) with hsame | ⟨-, job, hjob, hkey, hnew⟩
      · obtain ⟨hattempts, hleft, hunleased, hwaiting⟩ := ih (hsame.symm.trans hrow)
        refine ⟨hattempts, hleft, hunleased, hwaiting.imp_right ?_⟩
        rintro ⟨hpending, parentId, hedge, hparent⟩
        exact ⟨hpending, parentId, hinserted.dependencies _ hedge, hkept _ hparent⟩
      · cases hrow.symm.trans hnew
        cases hkey
        exact spec.persistedRow_untouched hvalid hinserted hjob

theorem JobRow.Untouched.regular {db : Database} {dagId jobId : String} {row : JobRow}
    (h : row.Untouched db dagId jobId) : row.Regular where
  unleased := fun _ => h.unleased
  attempts_le := by
    rw [h.attempts]
    exact Nat.zero_le _
  attempts_lt := fun _ => by
    rw [h.attempts]
    exact h.attempts_left

theorem Database.Submitted.storedRegular {db : Database} (h : db.Submitted) (key : StoreKey)
    (stored : StoredRow) (hstored : db.stored.get? key = some stored) :
    StoredRegular key stored := by
  cases key with
  | dag id => trivial
  | job dagId jobId =>
      obtain ⟨row, hrow, rfl⟩ := (get?_stored_job db dagId jobId stored).mp hstored
      exact (h.untouched hrow).regular

/-! ## Interleaved runs -/

/-- A system of transactions over a submitted database. -/
abbrev StoreSystem := System StoreKey StoredRow StatementLabel Transaction

/-- What can happen next. -/
abbrev StoreAction := Action StoreKey Transaction

/-- A committed transaction. -/
abbrev StoreCommit := Commit StoreKey StoredRow StatementLabel Transaction

/-- The systems that interleaved transactions lead to from a submitted database. -/
def Interleaved (db : Database) (allowed : StoreSystem → StoreAction → Prop)
    (system : StoreSystem) : Prop :=
  Reachable (command db.dependencies.keys) allowed db.stored system

/-- The system after a sequence of actions. -/
def Database.systemAfter (db : Database) (actions : List StoreAction) : StoreSystem :=
  ((System.new db.stored).run (command db.dependencies.keys) actions).getD (System.new .empty)

theorem interleaved_systemAfter {db : Database} {actions : List StoreAction}
    (hpossible : ((System.new db.stored).run (command db.dependencies.keys) actions).isSome =
      true) : Interleaved db anyAction (db.systemAfter actions) := by
  obtain ⟨last, hlast⟩ := Option.isSome_iff_exists.mp hpossible
  have hsystem : db.systemAfter actions = last := by
    rw [Database.systemAfter, hlast]
    rfl
  rw [hsystem]
  exact Reachable.new.run hlast

/-- The committed rows after the given commits. -/
def Database.after (db : Database) (commits : List StoreCommit) : Table StoreKey StoredRow :=
  install db.stored (commits.flatMap Commit.changes)

/-- A job stays in the table, with a regular row. -/
theorem Interleaved.exists_row {db : Database} (hdb : db.Submitted)
    {allowed : StoreSystem → StoreAction → Prop} {system : StoreSystem}
    (h : Interleaved db allowed system) {before after : List StoreCommit}
    (hhistory : system.history = before ++ after) {dagId jobId : String}
    (hjob : db.jobs.contains (dagId, jobId) = true) :
    ∃ row, (db.after before).get? (.job dagId jobId) = some (.job row) ∧ row.Regular := by
  have hsound := h.sound
  have hlog : system.log = before.flatMap Commit.changes ++ after.flatMap Commit.changes := by
    rw [System.log, hhistory, List.flatMap_append]
  have hlinked := (linked_append.mp (hlog ▸ hsound.linked)).1
  obtain ⟨first, hfirst⟩ := Option.isSome_iff_exists.mp hjob
  obtain ⟨last, hlast, -⟩ := hlinked.follows
    ((get?_stored_job db dagId jobId (.job first)).mpr ⟨first, hfirst, rfl⟩)
  have hregular : StoredRegular (.job dagId jobId) last := by
    refine (hlinked.keeps hdb.storedRegular fun change hchange hold => ?_).2 _ _ hlast
    obtain ⟨program, counts, hjustified⟩ := hsound.justified change
      (hlog ▸ List.mem_append_left _ hchange)
    exact hjustified.keeps (kept_storedRegular _) hold
  cases last with
  | dag state => exact hregular.elim
  | job row => exact ⟨row, hlast, hregular⟩

end JobOrchestrator
