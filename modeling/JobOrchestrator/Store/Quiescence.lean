import JobOrchestrator.Store.Cancellation
import JobOrchestrator.Store.Constraints
import JobOrchestrator.Store.DependencyOrder
import JobOrchestrator.Store.Integrity

/-!
# Between the calls

When no call is open, the committed rows are those of a database again, and calls
may go on one at a time from there (`Rests.perform`).  Whatever has been committed
before, and in whatever overlap, such a database is in order: every row is
consistent, a released job has no parent that has not succeeded, and a graph with
an unfinished job has not been cancelled.  What may be missing is a release.
-/

namespace JobOrchestrator

open ReadCommitted

/-- No call is open, and the rows are those that an interleaving has committed. -/
structure Database.Rests (db current : Database) : Prop where
  dependencies : current.dependencies = db.dependencies
  reached : ∃ system, Interleaved db anyAction system ∧ system.sessions.entries = [] ∧
    system.committed = current.stored

/-- The database with the rows that transactions have left. -/
def Database.withRows (db : Database) (rows : Table StoreKey StoredRow) : Database :=
  let current := snapshotOf db.dependencies.keys rows
  { db with
    dags := db.dags.mapValues fun id state => (current.dagState? id).getD state
    jobs := db.jobs.mapValues fun key row => (current.job? key.1 key.2).getD row }

theorem Database.keys_stored (db : Database) : db.stored.keys =
    db.dags.keys.map StoreKey.dag ++ db.jobs.keys.map fun key => StoreKey.job key.1 key.2 := by
  simp only [Table.keys, Database.stored, List.map_append, List.map_map]
  rfl

theorem Interleaved.stored_withRows {db : Database} (hdb : db.Submitted)
    {allowed : StoreSystem → StoreAction → Prop} {system : StoreSystem}
    (h : Interleaved db allowed system) :
    (db.withRows system.committed).stored = system.committed := by
  have hkeys : system.committed.keys = db.stored.keys := by
    rw [h.sound.committed]
    exact h.keys_after (List.append_nil _).symm
  have hrows := (h.sound.versions (kept_storedStorable _) hdb.storedStorable).2.1
  refine Table.eq_of_keys_eq ?_ fun key stored hstored => ?_
  · rw [hkeys, Database.keys_stored, Database.keys_stored]
    simp [Database.withRows]
  · have hstorable := hrows key stored hstored
    have hknown : db.stored.contains key = true := by
      rw [← Table.contains_eq_of_keys_eq hkeys, Table.contains, hstored]
      rfl
    cases key with
    | dag id =>
        cases stored with
        | job row => exact hstorable.elim
        | dag state =>
            rw [contains_stored_dag] at hknown
            obtain ⟨first, hfirst⟩ := Option.isSome_iff_exists.mp hknown
            refine (get?_stored_dag _ id _).mpr ⟨state, ?_, rfl⟩
            simp [Database.withRows, hfirst, snapshotOf, hstored]
    | job dagId jobId =>
        cases stored with
        | dag state => exact hstorable.elim
        | job row =>
            rw [contains_stored_job] at hknown
            obtain ⟨first, hfirst⟩ := Option.isSome_iff_exists.mp hknown
            refine (get?_stored_job _ dagId jobId _).mpr ⟨row, ?_, rfl⟩
            simp [Database.withRows, hfirst, snapshotOf, hstored]

/-- An idle system has left a database at rest. -/
theorem Interleaved.rests {db : Database} (hdb : db.Submitted) {system : StoreSystem}
    (h : Interleaved db anyAction system) (hidle : ∀ id, system.sessions.get? id = none) :
    db.Rests (db.withRows system.committed) where
  dependencies := rfl
  reached := by
    refine ⟨system, h, ?_, (h.stored_withRows hdb).symm⟩
    refine List.eq_nil_iff_forall_not_mem.mpr fun entry hentry => ?_
    cases (hidle entry.1).symm.trans (Table.mem_entries.mp hentry)

theorem Database.Rests.perform {db current after : Database} (h : db.Rests current)
    {call : Transaction} (hafter : call.perform current = some after) : db.Rests after := by
  obtain ⟨hdependencies, system, hrun, hfree, hcommitted⟩ := h
  have hcommits := (commits_iff current call after.stored).mpr (by rw [hafter]; rfl)
  have hserial : Serial (command db.dependencies.keys) system.committed [call] after.stored := by
    rw [hcommitted, ← hdependencies]
    exact Serial.nil.snoc call hcommits
  obtain ⟨next, hnext, hfree', hcommitted'⟩ := hrun.exists_serial hfree hserial
  exact ⟨(call.perform_frame hafter).dependencies.trans hdependencies, next, hnext, hfree',
    hcommitted'⟩

/-! ## Cancelled graphs -/

section

variable {db : Database} {allowed : StoreSystem → StoreAction → Prop} {system : StoreSystem}
  {dagId : String}

/-- A committed cancellation has left no job of its graph unfinished. -/
theorem Interleaved.terminal_of_cancel (h : Interleaved db allowed system) {commit : StoreCommit}
    (hcommit : commit ∈ system.history) (hcancel : commit.program = .cancel dagId) {jobId : String}
    {row : JobRow} (hrow : system.committed.get? (.job dagId jobId) = some (.job row)) :
    row.Terminal := by
  obtain ⟨before, after, hhistory⟩ := List.append_of_mem hcommit
  have hsplit : system.history = (before ++ [commit]) ++ after := by
    rw [hhistory, List.append_assoc, List.singleton_append]
  have hswept := h.swept (final_storedTerminal _) (sweeps_cancel _ dagId)
    (lt_of_cancel_commits _ dagId)
  have hterminal := hswept.history before commit after hhistory hcancel _ ⟨jobId, rfl⟩
  have hstays := (h.sound.final (final_storedTerminal _) hsplit hterminal).2
  exact hterminal (.job row) (hstays.symm.trans hrow)

theorem RowChange.eq_cancel {dagId jobId : String} {program : Transaction} {index : ℕ}
    {label : StatementLabel} {old new : JobRow}
    (h : RowChange dagId jobId program index label old new) (hcancelled : new.state = .cancelled) :
    program = .cancel dagId := by
  have hretried : ∀ now, (retryRow now old).state ≠ .cancelled := by
    intro now hstate
    rcases retryRow_state now old with h | h <;> cases h.symm.trans hstate
  cases h with
  | reapFirst owner token leaseMs now hstate => exact absurd hcancelled (hretried now)
  | claim owner token leaseMs now hstate => cases hcancelled
  | heartbeat owner token leaseMs now hmatches =>
      cases (leaseMatches_cases hmatches).2.2.1.symm.trans hcancelled
  | complete owner token result now hmatches => cases hcancelled
  | release parentId owner token result now hstate => cases hcancelled
  | fail owner token now hmatches => exact absurd hcancelled (hretried now)
  | reap now hstate => exact absurd hcancelled (hretried now)
  | cancel hopen => rfl

theorem Interleaved.cancel_of_row (hdb : db.Submitted) (h : Interleaved db allowed system)
    {jobId : String} {row : JobRow}
    (hrow : system.committed.get? (.job dagId jobId) = some (.job row))
    (hcancelled : row.state = .cancelled) :
    ∃ commit ∈ system.history, commit.program = .cancel dagId := by
  rw [h.sound.committed] at hrow
  rcases get?_install_cases db.stored system.log (.job dagId jobId) with
    ⟨-, hsame⟩ | ⟨change, hchange, hkey, hnew⟩
  · -- a submitted job is not cancelled
    obtain ⟨first, hfirst, hjob⟩ := (get?_stored_job db dagId jobId _).mp (hsame.symm.trans hrow)
    cases hjob
    rcases (hdb.untouched hfirst).waiting with hready | ⟨hpending, -⟩
    · cases hready.symm.trans hcancelled
    · cases hpending.symm.trans hcancelled
  · obtain ⟨commit, hcommit, hmem⟩ := List.mem_flatMap.mp hchange
    obtain ⟨_, _, new, -, -, hsame, hmove⟩ := committed_rowChange h hcommit hmem hkey
    cases hrow.symm.trans (hnew.trans (congrArg some hsame))
    exact ⟨commit, hcommit, hmove.eq_cancel hcancelled⟩

theorem Interleaved.cancel_of_dag (hdb : db.Submitted) (h : Interleaved db allowed system)
    (hdag : system.committed.get? (.dag dagId) = some (.dag .cancelled)) :
    ∃ commit ∈ system.history, commit.program = .cancel dagId := by
  rw [h.sound.committed] at hdag
  rcases get?_install_cases db.stored system.log (.dag dagId) with
    ⟨-, hsame⟩ | ⟨change, hchange, hkey, -⟩
  · -- a submitted graph is running
    obtain ⟨state, hstate, hmarked⟩ := (get?_stored_dag db dagId _).mp (hsame.symm.trans hdag)
    cases hmarked
    obtain ⟨spec, now, rfl, hholds⟩ := hdb.holds.2 dagId (by rw [Table.contains, hstate]; rfl)
    cases hholds.dag.symm.trans hstate
  · obtain ⟨commit, hcommit, hmem⟩ := List.mem_flatMap.mp hchange
    obtain ⟨statement, snapshot, -, hscript, -, happlies, -⟩ :=
      (h.sound.commits commit hcommit).justified change hmem
    rw [hkey] at happlies
    refine ⟨commit, hcommit, ?_⟩
    have hexecutes := executes_of_command hscript
    generalize (commit.counts.take change.index).length = index at hexecutes
    generalize commit.program = program at hexecutes ⊢
    -- the statements on `jobs` apply to no graph
    cases hexecutes with
    | markDag marked =>
        have hsame : dagId = marked := by simpa [markDagStatement] using happlies
        rw [hsame]
    | _ => simp [JobUpdate.statement] at happlies

end

/-! ## A database at rest -/

section

variable {db current : Database} {dagId jobId : String} {row : JobRow}

/-- The interleaving behind a database at rest, and the row of a job in it. -/
theorem Database.Rests.exists_interleaved (h : db.Rests current)
    (hrow : current.jobs.get? (dagId, jobId) = some row) :
    ∃ system, Interleaved db anyAction system ∧ system.committed = current.stored ∧
      system.committed.get? (.job dagId jobId) = some (.job row) := by
  obtain ⟨-, system, hrun, -, hcommitted⟩ := h
  have hstored := (get?_stored_job current dagId jobId (.job row)).mpr ⟨row, hrow, rfl⟩
  exact ⟨system, hrun, hcommitted, hcommitted ▸ hstored⟩

theorem Database.Rests.contains_stored (h : db.Rests current) (key : StoreKey) :
    current.stored.contains key = db.stored.contains key := by
  obtain ⟨-, system, hrun, -, hcommitted⟩ := h
  have hkeys : system.committed.keys = db.stored.keys := by
    rw [hrun.sound.committed]
    exact hrun.keys_after (List.append_nil _).symm
  rw [← hcommitted, Table.contains_eq_of_keys_eq hkeys]

theorem Database.Rests.contains_job (h : db.Rests current) (key : String × String) :
    current.jobs.contains key = db.jobs.contains key := by
  rw [← contains_stored_job current key.1 key.2, ← contains_stored_job db key.1 key.2,
    h.contains_stored]

theorem Database.Rests.consistent (hdb : db.Submitted) (h : db.Rests current)
    (hrow : current.jobs.get? (dagId, jobId) = some row) : row.Consistent := by
  obtain ⟨system, hrun, -, hstored⟩ := h.exists_interleaved hrow
  have hsplit : system.history = system.history ++ [] ++ [] := by simp
  have hkey : db.jobs.contains (dagId, jobId) = true := by
    rw [← h.contains_job, Table.contains, hrow]
    rfl
  obtain ⟨first, hfirst⟩ := Option.isSome_iff_exists.mp hkey
  obtain ⟨found, -, hfound, -, hconsistent, -⟩ := hrun.progress hdb hsplit hfirst
  rw [hrun.sound.committed] at hstored
  cases hstored.symm.trans hfound
  exact hconsistent

/-- A job is released only when its parents have succeeded. -/
theorem Database.Rests.parent_succeeded (hdb : db.Submitted) (h : db.Rests current)
    (hrow : current.jobs.get? (dagId, jobId) = some row) (hreleased : row.Released)
    {parentId : String} (hedge : ⟨dagId, parentId, jobId⟩ ∈ db.dependencies.keys) :
    ∃ parent, current.jobs.get? (dagId, parentId) = some parent ∧ parent.state = .succeeded := by
  obtain ⟨system, hrun, hcommitted, hchild⟩ := h.exists_interleaved hrow
  rw [hrun.sound.committed] at hchild
  obtain ⟨parent, hparent, hsucceeded⟩ :=
    hrun.parent_succeeded hdb (List.append_nil _).symm hedge hchild hreleased
  have hstored : current.stored.get? (.job dagId parentId) = some (.job parent) := by
    rw [← hcommitted, hrun.sound.committed]
    exact hparent
  obtain ⟨found, hfound, hsame⟩ := (get?_stored_job current dagId parentId _).mp hstored
  cases hsame
  exact ⟨parent, hfound, hsucceeded⟩

theorem Database.Rests.terminal_of_cancelled (hdb : db.Submitted) (h : db.Rests current)
    (hrow : current.jobs.get? (dagId, jobId) = some row) {otherId : String} {other : JobRow}
    (hother : current.jobs.get? (dagId, otherId) = some other)
    (hcancelled : other.state = .cancelled) : row.Terminal := by
  obtain ⟨system, hrun, hcommitted, hstored⟩ := h.exists_interleaved hrow
  have hstoredOther : system.committed.get? (.job dagId otherId) = some (.job other) := by
    rw [hcommitted]
    exact (get?_stored_job current dagId otherId (.job other)).mpr ⟨other, hother, rfl⟩
  obtain ⟨commit, hcommit, hcancel⟩ := hrun.cancel_of_row hdb hstoredOther hcancelled
  exact hrun.terminal_of_cancel hcommit hcancel hstored

theorem Database.Rests.running (hdb : db.Submitted) (h : db.Rests current)
    (hrow : current.jobs.get? (dagId, jobId) = some row) (hopen : ¬row.Terminal) :
    current.dags.get? dagId = some .running := by
  obtain ⟨system, hrun, hcommitted, hstored⟩ := h.exists_interleaved hrow
  have hknown : current.dags.contains dagId = true := by
    obtain ⟨first, hfirst⟩ : ∃ first, db.jobs.get? (dagId, jobId) = some first := by
      refine Option.isSome_iff_exists.mp ?_
      rw [← Table.contains, ← h.contains_job, Table.contains, hrow]
      rfl
    rw [← contains_stored_dag, h.contains_stored, contains_stored_dag]
    exact hdb.holds.1.job dagId jobId first hfirst
  obtain ⟨state, hstate⟩ := Option.isSome_iff_exists.mp hknown
  cases state with
  | running => exact hstate
  | cancelled =>
      have hdag := (get?_stored_dag current dagId (.dag .cancelled)).mpr ⟨.cancelled, hstate, rfl⟩
      obtain ⟨commit, hcommit, hcancel⟩ := hrun.cancel_of_dag hdb (hcommitted ▸ hdag)
      exact absurd (hrun.terminal_of_cancel hcommit hcancel hstored) hopen

end

end JobOrchestrator
