import JobOrchestrator.Store.Effects
import JobOrchestrator.Store.Progression

/-!
# The constraints of the schema

The model of the concurrent store writes rows without asking PostgreSQL whether
they violate a `CHECK`.  It may: whatever the interleaving of calls on graphs that
have been submitted before, every version of a row
that a transaction sees, and every version that one of its statements is about to
write, passes the checks of its table, fits the integer columns and holds no text
that a `TEXT` column refuses.

`JobRow.Storable` is the invariant behind it.  A job that can be leased has an
attempt left, which keeps `attempts` small, and the lease columns are set and
cleared together, as the last check of the table demands.
-/

namespace JobOrchestrator

open ReadCommitted

/-- PostgreSQL takes the row: its key matches the pattern, its counter fits
`SMALLINT`, its texts can be stored, and it passes the checks of its table. -/
def StoredRow.accepted : StoreKey → StoredRow → Bool
  | .dag id, .dag _ => matchesIdentifierPattern id
  | .job _ id, .job row =>
      matchesIdentifierPattern id && row.checks && decide (row.attempts < 2 ^ 15) &&
        row.leaseOwner.all (fun owner => !hasNul owner) &&
        row.result.all fun result => !hasNul result
  | _, _ => false

/-! ## Storable rows -/

/-- A consistent row within the bounds that submissions and calls are checked for. -/
structure JobRow.Storable (row : JobRow) : Prop where
  consistent : row.Consistent
  payload : row.payload.utf8ByteSize ≤ 4096
  priority : -100 ≤ row.priority ∧ row.priority ≤ 100
  owner : ∀ owner, row.leaseOwner = some owner → hasNul owner = false
  result : ∀ result, row.result = some result →
    result.utf8ByteSize ≤ 4096 ∧ hasNul result = false

/-- The lease columns are set exactly for a leased job. -/
theorem JobRow.Consistent.lease_columns {row : JobRow} (h : row.Consistent) :
    (row.leaseOwner.isSome && row.leaseToken.isSome && row.leaseExpiresAt.isSome) =
      decide (row.state = .leased) := by
  by_cases hleased : row.state = .leased
  · obtain ⟨howner, htoken, hexpires⟩ := h.leased hleased
    simp [howner, htoken, hexpires, hleased]
  · obtain ⟨howner, -, -⟩ := h.unleased hleased
    simp [howner, hleased]

theorem JobRow.Storable.checks {row : JobRow} (h : row.Storable) : row.checks = true := by
  have hresult : row.result.all (fun result => decide (result.utf8ByteSize ≤ 4096)) = true := by
    cases hfound : row.result with
    | none => rfl
    | some result => exact decide_eq_true (h.result result hfound).1
  unfold JobRow.checks
  rw [h.consistent.lease_columns, hresult]
  simp [h.payload, h.priority, h.consistent.budget]

theorem JobRow.Storable.accepted {row : JobRow} (h : row.Storable) {dagId id : String}
    (hid : matchesIdentifierPattern id = true) :
    StoredRow.accepted (.job dagId id) (.job row) = true := by
  have hle := h.consistent.attempts_le
  have hbudget := h.consistent.budget
  have hsmall : decide (row.attempts < 2 ^ 15) = true := decide_eq_true (by omega)
  have howner : row.leaseOwner.all (fun owner => !hasNul owner) = true := by
    cases hfound : row.leaseOwner with
    | none => rfl
    | some owner => simp [h.owner owner hfound]
  have hresult : row.result.all (fun result => !hasNul result) = true := by
    cases hfound : row.result with
    | none => rfl
    | some result => simp [(h.result result hfound).2]
  rw [StoredRow.accepted, hid, h.checks, hsmall, howner, hresult]
  rfl

/-! ## What a statement writes -/

theorem unlessError_execute {α : Type} {check : Except StoreError α}
    {next : Command StoreKey StoredRow StatementLabel}
    {statement : Statement StoreKey StoredRow StatementLabel}
    (h : unlessError check next = .execute statement) : ∃ value, check = .ok value := by
  cases check with
  | error error => cases h
  | ok value => exact ⟨value, rfl⟩

section

variable {dependencies : List DependencyRow} {counts : List ℕ}
  {statement : Statement StoreKey StoredRow StatementLabel}

theorem hasNul_of_claim {owner : String} {token : Uuid} {leaseMs now : ℤ}
    (hscript : command dependencies (.claim owner token leaseMs now) counts = .execute statement)
    (hindex : counts.length = 1) : hasNul owner = false := by
  obtain ⟨changed, rfl⟩ := List.length_eq_one_iff.mp hindex
  obtain ⟨value, htexts⟩ := unlessError_execute (unlessError_eq_execute hscript)
  exact PostgresStore.bindTexts_eq_ok_iff.mp htexts owner (List.mem_singleton_self _)

theorem result_of_complete {dagId jobId owner result : String} {token : Uuid} {now : ℤ}
    (hscript : command dependencies (.complete dagId jobId owner token result now) counts =
      .execute statement) (hindex : counts.length = 0) :
    result.utf8ByteSize ≤ 4096 ∧ hasNul result = false := by
  obtain rfl := List.length_eq_zero_iff.mp hindex
  simp only [command] at hscript
  split at hscript
  · cases hscript
  next hsize =>
    obtain ⟨value, htexts⟩ := unlessError_execute hscript
    refine ⟨not_lt.mp hsize, PostgresStore.bindTexts_eq_ok_iff.mp htexts result ?_⟩
    simp

theorem RowChange.storable {dagId jobId : String} {program : Transaction} {label : StatementLabel}
    {old new : JobRow} (hscript : command dependencies program counts = .execute statement)
    (h : RowChange dagId jobId program counts.length label old new) (hold : old.Storable) :
    new.Storable := by
  have hconsistent := h.consistent hold.consistent
  have hnone : ∀ {row : JobRow}, row.leaseOwner = none → ∀ owner, row.leaseOwner = some owner →
      hasNul owner = false := by
    intro row hfree owner howner
    cases hfree.symm.trans howner
  generalize hindex : counts.length = index at h
  cases h with
  | reapFirst owner token leaseMs now hstate =>
      exact ⟨hconsistent, hold.payload, hold.priority, hnone rfl, hold.result⟩
  | claim owner token leaseMs now hstate =>
      refine ⟨hconsistent, hold.payload, hold.priority, fun granted hgranted => ?_, hold.result⟩
      cases hgranted
      exact hasNul_of_claim hscript hindex
  | heartbeat owner token leaseMs now hmatches =>
      exact ⟨hconsistent, hold.payload, hold.priority, hold.owner, hold.result⟩
  | complete owner token result now hmatches =>
      refine ⟨hconsistent, hold.payload, hold.priority, hnone rfl, fun stored hstored => ?_⟩
      cases hstored
      exact result_of_complete hscript hindex
  | release parentId owner token result now hstate =>
      exact ⟨hconsistent, hold.payload, hold.priority, hold.owner, hold.result⟩
  | fail owner token now hmatches =>
      exact ⟨hconsistent, hold.payload, hold.priority, hnone rfl, hold.result⟩
  | reap now hstate =>
      exact ⟨hconsistent, hold.payload, hold.priority, hnone rfl, hold.result⟩
  | cancel hopen =>
      exact ⟨hconsistent, hold.payload, hold.priority, hnone rfl, hold.result⟩

end

/-! ## Every interleaving -/

/-- A row of the right table under a key of the right form. -/
def StoredStorable : StoreKey → StoredRow → Prop
  | .dag id, .dag _ => matchesIdentifierPattern id = true
  | .job _ id, .job row => matchesIdentifierPattern id = true ∧ row.Storable
  | _, _ => False

theorem StoredStorable.accepted {key : StoreKey} {stored : StoredRow}
    (h : StoredStorable key stored) : stored.accepted key = true := by
  cases key with
  | dag id =>
      cases stored with
      | dag state => exact h
      | job row => exact h.elim
  | job dagId id =>
      cases stored with
      | dag state => exact h.elim
      | job row => exact h.2.accepted h.1

theorem kept_storedStorable (dependencies : List DependencyRow) :
    Kept (command dependencies) StoredStorable := by
  intro program counts statement snapshot key stored hscript happlies hold
  cases key with
  | dag id =>
      have hexecutes := executes_of_command hscript
      generalize counts.length = index at hexecutes
      cases hexecutes with
      | markDag dagId => cases stored with
        | dag state => exact hold
        | job row => exact hold.elim
      | _ => simp [JobUpdate.statement] at happlies
  | job dagId id =>
      cases stored with
      | dag state => exact hold.elim
      | job row =>
          obtain ⟨hid, hstorable⟩ := hold
          obtain ⟨new, hset, hchange⟩ := rowChange_of_applies hscript happlies
          rw [hset]
          exact ⟨hid, hchange.storable hscript hstorable⟩

theorem JobSpec.Valid.payload_size {job : JobSpec} (h : job.Valid) :
    job.payload.utf8ByteSize ≤ 4096 := by
  have hchecks := h.checks .empty 0
  simp only [JobRow.checks, Bool.and_eq_true, decide_eq_true_eq] at hchecks
  exact hchecks.1.1.1.1

theorem DagSpec.persistedRow_storable (spec : DagSpec) (now : ℤ) {job : JobSpec}
    (hvalid : job.Valid) : (spec.persistedRow now job).Storable where
  consistent := spec.persistedRow_consistent now hvalid
  payload := hvalid.payload_size
  priority := ⟨hvalid.priority_ge, hvalid.priority_le⟩
  owner _ howner := by cases howner
  result _ hresult := by cases hresult

theorem Database.Submitted.storedStorable {db : Database} (hdb : db.Submitted) (key : StoreKey)
    (stored : StoredRow) (hstored : db.stored.get? key = some stored) :
    StoredStorable key stored := by
  cases key with
  | dag id =>
      obtain ⟨state, hstate, rfl⟩ := (get?_stored_dag db id stored).mp hstored
      obtain ⟨spec, now, rfl, hholds⟩ := hdb.holds.2 id (by rw [Table.contains, hstate]; rfl)
      obtain ⟨order, haccepted⟩ := hholds.accepted
      exact (matchesIdentifierPattern_of_validate (by decide) haccepted.identifier).1
  | job dagId jobId =>
      obtain ⟨row, hrow, rfl⟩ := (get?_stored_job db dagId jobId stored).mp hstored
      obtain ⟨spec, now, job, -, -, -, rfl, hvalid, rfl⟩ := hdb.exists_spec hrow
      exact ⟨(matchesIdentifierPattern_of_validate (by decide) hvalid.identifier).1,
        spec.persistedRow_storable now hvalid⟩

/-- No `UPDATE` is ever rejected by a constraint.  In every interleaving PostgreSQL
accepts the rows that are committed, the rows that an open transaction sees, and
the rows that its statement is about to write. -/
theorem updates_accepted {db : Database} (hdb : db.Submitted) {system : StoreSystem}
    (hrun : Interleaved db anyAction system) :
    (∀ key stored, system.committed.get? key = some stored → stored.accepted key = true) ∧
    ∀ id session, system.sessions.get? id = some session → ∀ key stored,
      (system.view session).get? key = some stored →
      stored.accepted key = true ∧
      ∀ running, session.running = some running →
        running.statement.applies running.snapshot key stored = true →
        (running.statement.set stored).accepted key = true := by
  obtain ⟨-, hcommitted, hsessions⟩ :=
    hrun.sound.versions (kept_storedStorable _) hdb.storedStorable
  refine ⟨fun key stored hstored => (hcommitted key stored hstored).accepted, ?_⟩
  intro id session hsession key stored hview
  have hstorable := (hsessions id session hsession).2 key stored hview
  refine ⟨hstorable.accepted, fun running hrunning happlies => ?_⟩
  obtain ⟨hscript, -⟩ := (hrun.sound.sessions id session hsession).running running hrunning
  exact (kept_storedStorable _ _ _ _ _ key stored hscript happlies hstorable).accepted

/-- The second worker is about to write its result, and PostgreSQL accepts it. -/
theorem updates_accepted_contested :
    ∃ session running stored,
      (soloDatabase.systemAfter (contestedActions.take 28)).sessions.get? 4 = some session ∧
      session.running = some running ∧
      running.statement.applies running.snapshot (.job "solo" "job") stored = true ∧
      (running.statement.set stored).accepted (.job "solo" "job") = true := by
  have happlies :
      ((soloDatabase.systemAfter (contestedActions.take 28)).sessions.get? 4).any (fun session =>
        session.running.any fun running =>
          ((System.view (soloDatabase.systemAfter (contestedActions.take 28)) session).get?
            (.job "solo" "job")).any
              (running.statement.applies running.snapshot (.job "solo" "job"))) = true := by
    decide
  obtain ⟨session, hsession, happlies⟩ := (Option.any_eq_true _ _).mp happlies
  obtain ⟨running, hrunning, happlies⟩ := (Option.any_eq_true _ _).mp happlies
  obtain ⟨stored, hview, happlies⟩ := (Option.any_eq_true _ _).mp happlies
  have hrun : Interleaved soloDatabase anyAction
      (soloDatabase.systemAfter (contestedActions.take 28)) := interleaved_systemAfter (by decide)
  obtain ⟨-, hsessions⟩ := updates_accepted (.submit _ 0 .empty) hrun
  obtain ⟨-, hwrites⟩ := hsessions 4 session hsession _ stored hview
  exact ⟨session, running, stored, hsession, hrunning, happlies, hwrites running hrunning happlies⟩

end JobOrchestrator
