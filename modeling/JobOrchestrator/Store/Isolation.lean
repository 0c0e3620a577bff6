import JobOrchestrator.Library.Isolation
import JobOrchestrator.Store.Concurrent
import JobOrchestrator.Store.Effects

/-!
# The serial store and the concurrent one

The methods of `PostgresStore` have two models: functions on the database for
calls with nothing beside them, and programs under read committed isolation.  They
agree.  The schedules of the programs in which no call starts while another one is
open are the sequences of calls of the functions (`isolated_runs_serial`), so that
what holds of every interleaving holds of the serial store as well, and what holds
of the serial store holds of every schedule without overlap.
-/

namespace JobOrchestrator

open ReadCommitted

/-! ## Calls that run alone -/

/-- The database after a transaction that commits. -/
def committed {α : Type} : Except StoreError α × Database → Option Database
  | (.ok _, after) => some after
  | (.error _, _) => none

/-- The database after a call that succeeds with nothing beside it. -/
def Transaction.perform (db : Database) : Transaction → Option Database
  | .claim owner token leaseMs now => committed (PostgresStore.claim db owner leaseMs token now)
  | .heartbeat dagId jobId owner token leaseMs now =>
      committed (PostgresStore.heartbeat db dagId jobId owner token leaseMs now)
  | .complete dagId jobId owner token result now =>
      committed (PostgresStore.complete db dagId jobId owner token result now)
  | .fail dagId jobId owner token now =>
      committed (PostgresStore.fail db dagId jobId owner token now)
  | .reap now => committed (PostgresStore.reap db now)
  | .cancel dagId => committed (PostgresStore.cancel db dagId)

/-- The database after calls that succeed one after the other. -/
def Transaction.performAll (db : Database) (calls : List Transaction) : Option Database :=
  calls.foldlM Transaction.perform db

/-! ## One statement -/

/-- A row of `jobs` among all rows. -/
def storedJob (entry : (String × String) × JobRow) : StoreKey × StoredRow :=
  (.job entry.1.1 entry.1.2, .job entry.2)

theorem snapshotOf_stored (db : Database) :
    snapshotOf db.dependencies.keys db.stored = db.snapshot := by
  have hdag : ∀ id, (snapshotOf db.dependencies.keys db.stored).dagState? id =
      db.dags.get? id := by
    intro id
    cases hstate : db.dags.get? id with
    | some state =>
        have hstored := (get?_stored_dag db id (.dag state)).mpr ⟨state, hstate, rfl⟩
        simp [snapshotOf, hstored]
    | none =>
        have hnone : db.stored.get? (.dag id) = none := by
          refine Option.eq_none_iff_forall_ne_some.mpr fun stored hstored => ?_
          obtain ⟨state, hsome, -⟩ := (get?_stored_dag db id stored).mp hstored
          cases hstate.symm.trans hsome
        simp [snapshotOf, hnone]
  have hjob : ∀ dagId jobId, (snapshotOf db.dependencies.keys db.stored).job? dagId jobId =
      db.jobs.get? (dagId, jobId) := by
    intro dagId jobId
    refine Option.ext fun row => ?_
    rw [job?_snapshotOf, get?_stored_job]
    simp
  have hdags := funext hdag
  have hjobs := funext fun dagId => funext (hjob dagId)
  unfold Database.snapshot
  rw [← hdags, ← hjobs]
  rfl

section

variable {db : Database} {update : JobUpdate} {label : StatementLabel}
  {scan : Scan StoreKey StoredRow}

/-- An `UPDATE jobs` finds the rows that it finds alone. -/
theorem hits_stored (db : Database) (update : JobUpdate) (label : StatementLabel)
    (scan : Scan StoreKey StoredRow) :
    (db.stored.entries.filter fun entry =>
      (update.statement db.dependencies.keys label scan).applies db.stored entry.1 entry.2) =
    (db.jobs.entries.filter fun entry =>
      update.applies db.snapshot entry.1.1 entry.1.2 entry.2).map storedJob := by
  have hdags :
      ((db.dags.entries.map fun entry => (StoreKey.dag entry.1, StoredRow.dag entry.2)).filter
        fun entry => (update.statement db.dependencies.keys label scan).applies db.stored
          entry.1 entry.2) = [] := by
    refine List.filter_eq_nil_iff.mpr fun entry hentry => ?_
    obtain ⟨marked, -, rfl⟩ := List.mem_map.mp hentry
    simp [JobUpdate.statement]
  have hjobs : (db.jobs.entries.map storedJob).filter (fun entry =>
      (update.statement db.dependencies.keys label scan).applies db.stored entry.1 entry.2) =
      (db.jobs.entries.filter fun entry =>
        update.applies db.snapshot entry.1.1 entry.1.2 entry.2).map storedJob := by
    rw [List.filter_map]
    congr 1
    refine List.filter_congr fun entry _ => ?_
    simp [JobUpdate.statement, storedJob, snapshotOf_stored]
  have hentries : db.stored.entries =
      (db.dags.entries.map fun entry => (StoreKey.dag entry.1, StoredRow.dag entry.2)) ++
        db.jobs.entries.map storedJob := rfl
  rw [hentries, List.filter_append, hdags, hjobs, List.nil_append]

/-- It writes as many rows as it does alone. -/
theorem length_writes (db : Database) (update : JobUpdate) (label : StatementLabel) :
    ((update.statement db.dependencies.keys label .every).writes db.stored).length =
      (db.execute update).1 := by
  have hwrites : (update.statement db.dependencies.keys label .every).writes db.stored =
      ((db.jobs.entries.filter fun entry =>
        update.applies db.snapshot entry.1.1 entry.1.2 entry.2).map storedJob).map Prod.fst := by
    rw [← hits_stored db update label .every]
    rfl
  rw [hwrites, List.length_map, List.length_map, Database.rowsAffected_execute,
    Table.countValues, List.countP_eq_length_filter]

/-- The rows of a database after a change of some jobs. -/
theorem mapValues_stored (db : Database) (writes : List StoreKey)
    (statement : Statement StoreKey StoredRow StatementLabel) (set : JobRow → JobRow)
    (hset : ∀ row, statement.set (.job row) = .job (set row))
    (hdags : ∀ id, StoreKey.dag id ∉ writes) :
    (db.stored.mapValues fun key row => if key ∈ writes then statement.set row else row) =
      { db with jobs := db.jobs.mapValues fun key row =>
          if StoreKey.job key.1 key.2 ∈ writes then set row else row }.stored := by
  refine Table.eq_of_entries_eq ?_
  simp only [Table.mapValues, Database.stored, List.map_append, List.map_map]
  congr 1
  · refine List.map_congr_left fun entry _ => ?_
    simp [hdags]
  · refine List.map_congr_left fun entry _ => ?_
    by_cases hwritten : StoreKey.job entry.1.1 entry.1.2 ∈ writes <;> simp [hwritten, hset]

/-- It leaves the rows that it leaves alone. -/
theorem perform_stored (db : Database) (update : JobUpdate) (label : StatementLabel) :
    (update.statement db.dependencies.keys label .every).perform db.stored =
      (db.execute update).2.stored := by
  have hscan : (update.statement db.dependencies.keys label .every).scan = .every := rfl
  have hmem : ∀ key, key ∈ (update.statement db.dependencies.keys label .every).writes db.stored ↔
      ∃ row, db.stored.get? key = some row ∧
        (update.statement db.dependencies.keys label .every).applies db.stored key row = true := by
    intro key
    rw [writes_of_every hscan]
    exact mem_candidates
  have hdags : ∀ id, StoreKey.dag id ∉
      (update.statement db.dependencies.keys label .every).writes db.stored := by
    intro id hwritten
    obtain ⟨row, -, happlies⟩ := (hmem _).mp hwritten
    simp [JobUpdate.statement] at happlies
  rw [Statement.perform, mapValues_stored db _ _ update.set (fun _ => rfl) hdags]
  unfold Database.execute
  congr 2
  refine Table.mapValues_congr fun key row hrow => ?_
  have hstored := (get?_stored_job db key.1 key.2 (.job row)).mpr ⟨row, hrow, rfl⟩
  refine if_congr ?_ rfl rfl
  rw [hmem]
  simp [hstored, JobUpdate.statement, snapshotOf_stored]

end

/-! ## The claim -/

/-- The claim goes through the candidates in the order of its queue. -/
theorem candidates_claim (db : Database) (owner : String) (token : Uuid) (leaseMs now : ℤ) :
    candidates ((claimStatement owner token leaseMs now).statement db.dependencies.keys .claim
        claimScan) db.stored =
      (db.claimQueue now).map fun entry => StoreKey.job entry.1.1 entry.1.2 := by
  unfold candidates
  rw [hits_stored]
  simp only [JobUpdate.statement, claimScan]
  rw [Database.claimQueue, ← List.map_insertionSort
    (fun first second : (String × String) × JobRow =>
      claimRank first.1 first.2 ≤ claimRank second.1 second.2)]
  · rw [List.map_map]
    rfl
  · intro first _ second _
    simp [storedJob]

/-- It takes the first one. -/
theorem writes_claim (db : Database) (owner : String) (token : Uuid) (leaseMs now : ℤ) :
    ((claimStatement owner token leaseMs now).statement db.dependencies.keys .claim
        claimScan).writes db.stored =
      ((db.claimQueue now).head?.map fun entry => StoreKey.job entry.1.1 entry.1.2).toList := by
  have hscan : ((claimStatement owner token leaseMs now).statement db.dependencies.keys .claim
      claimScan).scan = claimScan := rfl
  rw [writes_of_first hscan, candidates_claim]
  cases db.claimQueue now <;> rfl

theorem perform_claim (db : Database) (owner : String) (token : Uuid) (leaseMs now : ℤ) :
    ((claimStatement owner token leaseMs now).statement db.dependencies.keys .claim
        claimScan).perform db.stored =
      (match (db.claimQueue now).head? with
        | none => db
        | some entry =>
            (PostgresStore.grantCandidate db entry.1 entry.2 owner token leaseMs
              now).2).stored := by
  rw [Statement.perform, writes_claim]
  cases hhead : (db.claimQueue now).head? with
  | none => simp
  | some entry =>
      rw [mapValues_stored db _ _ (claimStatement owner token leaseMs now).set (fun _ => rfl)
        (by simp)]
      simp only [Option.map_some, Option.toList_some, List.mem_singleton, StoreKey.job.injEq]
      refine Table.eq_of_entries_eq ?_
      simp [PostgresStore.grantCandidate, Database.stored, Table.modify, Prod.ext_iff]

/-! ## The mark of a graph -/

/-- The database after the first statement of `cancel`. -/
def Database.markDag (db : Database) (dagId : String) : Database :=
  { db with dags := db.dags.modify dagId fun _ => .cancelled }

theorem mem_writes_markDag {db : Database} {dagId : String} {key : StoreKey} :
    key ∈ (markDagStatement dagId).writes db.stored ↔
      key = .dag dagId ∧ db.dags.contains dagId = true := by
  have hscan : (markDagStatement dagId).scan = .every := rfl
  rw [writes_of_every hscan, mem_candidates]
  constructor
  · rintro ⟨stored, hstored, happlies⟩
    obtain rfl : key = .dag dagId := by simpa [markDagStatement] using happlies
    obtain ⟨state, hstate, -⟩ := (get?_stored_dag db dagId stored).mp hstored
    exact ⟨rfl, by rw [Table.contains, hstate]; rfl⟩
  · rintro ⟨rfl, hknown⟩
    obtain ⟨state, hstate⟩ := Option.isSome_iff_exists.mp hknown
    exact ⟨.dag state, (get?_stored_dag db dagId _).mpr ⟨state, hstate, rfl⟩,
      by simp [markDagStatement]⟩

theorem length_writes_markDag (db : Database) (dagId : String) :
    ((markDagStatement dagId).writes db.stored).length =
      if db.dags.contains dagId then 1 else 0 := by
  by_cases hknown : db.dags.contains dagId = true
  · have hperm : ((markDagStatement dagId).writes db.stored).Perm [.dag dagId] := by
      refine (List.perm_ext_iff_of_nodup (nodup_writes _ _) (List.nodup_singleton _)).mpr ?_
      intro key
      rw [mem_writes_markDag, List.mem_singleton]
      exact and_iff_left hknown
    rw [hperm.length_eq, if_pos hknown]
    rfl
  · rw [if_neg hknown, List.length_eq_zero_iff]
    exact List.eq_nil_iff_forall_not_mem.mpr fun key hkey => hknown (mem_writes_markDag.mp hkey).2

theorem perform_markDag (db : Database) (dagId : String) :
    (markDagStatement dagId).perform db.stored = (db.markDag dagId).stored := by
  have hwrites : ∀ key, key ∈ (markDagStatement dagId).writes db.stored ↔
      key = .dag dagId ∧ db.dags.contains dagId = true := fun _ => mem_writes_markDag
  unfold Statement.perform
  generalize (markDagStatement dagId).writes db.stored = writes at hwrites
  refine Table.eq_of_entries_eq ?_
  simp only [Database.markDag, Table.modify, Table.mapValues, Database.stored, List.map_append,
    List.map_map]
  congr 1
  · refine List.map_congr_left fun entry hentry => ?_
    have hknown : db.dags.contains entry.1 = true := by
      rw [Table.contains, Table.mem_entries.mp hentry]
      rfl
    by_cases hid : entry.1 = dagId
    · have hwritten : StoreKey.dag entry.1 ∈ writes :=
        (hwrites _).mpr ⟨congrArg StoreKey.dag hid, hid ▸ hknown⟩
      simp only [Function.comp_apply, if_pos hwritten, if_pos hid]
      rfl
    · have hleft : StoreKey.dag entry.1 ∉ writes :=
        fun hwritten => hid (StoreKey.dag.inj ((hwrites _).mp hwritten).1)
      simp only [Function.comp_apply, if_neg hleft, if_neg hid]
  · refine List.map_congr_left fun entry _ => ?_
    have hleft : StoreKey.job entry.1.1 entry.1.2 ∉ writes := by
      intro hwritten
      cases ((hwrites _).mp hwritten).1
    simp only [Function.comp_apply, if_neg hleft]

/-! ## One call -/

section

variable {db : Database} {program : Transaction} {counts : List ℕ}

theorem performs_update {current : Database}
    (h : Performs (command db.dependencies.keys) program db.stored counts current.stored)
    (hdependencies : current.dependencies = db.dependencies) {update : JobUpdate}
    {label : StatementLabel}
    (hscript : command db.dependencies.keys program counts =
      .execute (update.statement db.dependencies.keys label .every)) :
    Performs (command db.dependencies.keys) program db.stored
      (counts ++ [(current.execute update).1]) (current.execute update).2.stored := by
  have hlength := length_writes current update label
  have hperform := perform_stored current update label
  rw [hdependencies] at hlength hperform
  rw [← hlength, ← hperform]
  exact h.execute _ hscript

/-- The call agrees with the program when both succeed. -/
theorem commits_of_commit {after : Database}
    (h : Performs (command db.dependencies.keys) program db.stored counts after.stored)
    (hcommit : command db.dependencies.keys program counts = .commit)
    {result : Option Database} (hresult : result.map Database.stored = some after.stored)
    (rows : Table StoreKey StoredRow) :
    Commits (command db.dependencies.keys) program db.stored rows ↔
      result.map Database.stored = some rows := by
  rw [h.commits_iff hcommit, hresult, Option.some.injEq]
  exact eq_comm

/-- The call agrees with the program when both fail. -/
theorem commits_of_rollback {current : Table StoreKey StoredRow}
    (h : Performs (command db.dependencies.keys) program db.stored counts current)
    (hrollback : command db.dependencies.keys program counts = .rollback)
    {result : Option Database} (hresult : result = none) (rows : Table StoreKey StoredRow) :
    Commits (command db.dependencies.keys) program db.stored rows ↔
      result.map Database.stored = some rows := by
  rw [hresult]
  exact iff_of_false (h.not_commits hrollback) (by simp)

end

theorem commits_claim (db : Database) (owner : String) (token : Uuid) (leaseMs now : ℤ)
    (rows : Table StoreKey StoredRow) :
    Commits (command db.dependencies.keys) (.claim owner token leaseMs now) db.stored rows ↔
      ((Transaction.claim owner token leaseMs now).perform db).map Database.stored = some rows := by
  rcases PostgresStore.validateOwnerAndLease_cases owner leaseMs with hvalid | hvalid
  · have hreap : Performs (command db.dependencies.keys) (.claim owner token leaseMs now) db.stored
        ([] ++ [(PostgresStore.reapInTransaction db now).1])
        (PostgresStore.reapInTransaction db now).2.stored :=
      performs_update .start rfl (by simp [command, hvalid, unlessError]; rfl)
    rcases PostgresStore.bindTexts_cases [owner] with htexts | htexts
    · have hclaim := hreap.execute
        ((claimStatement owner token leaseMs now).statement db.dependencies.keys .claim claimScan)
        (by simp [command, hvalid, htexts, unlessError])
      have hrows := perform_claim (PostgresStore.reapInTransaction db now).2 owner token leaseMs now
      rw [show (PostgresStore.reapInTransaction db now).2.dependencies = db.dependencies from rfl]
        at hrows
      rw [hrows] at hclaim
      refine commits_of_commit hclaim ?_ ?_ rows
      · simp [command, hvalid, unlessError]
      · rw [Transaction.perform]
        unfold PostgresStore.claim
        rw [hvalid, htexts]
        dsimp only [bind, Except.bind]
        cases ((PostgresStore.reapInTransaction db now).2.claimQueue now).head? <;> rfl
    · refine commits_of_rollback hreap ?_ ?_ rows
      · simp [command, hvalid, htexts, unlessError]
      · simp [Transaction.perform, PostgresStore.claim, hvalid, htexts, PostgresStore.transaction,
          bind, Except.bind, committed]
  · refine commits_of_rollback .start ?_ ?_ rows
    · simp [command, hvalid, unlessError]
    · simp [Transaction.perform, PostgresStore.claim, hvalid, PostgresStore.transaction,
        bind, Except.bind, committed]

theorem commits_heartbeat (db : Database) (dagId jobId owner : String) (token : Uuid)
    (leaseMs now : ℤ) (rows : Table StoreKey StoredRow) :
    Commits (command db.dependencies.keys) (.heartbeat dagId jobId owner token leaseMs now)
        db.stored rows ↔
      ((Transaction.heartbeat dagId jobId owner token leaseMs now).perform db).map
        Database.stored = some rows := by
  rcases PostgresStore.validateOwnerAndLease_cases owner leaseMs with hvalid | hvalid
  · rcases PostgresStore.bindTexts_cases [dagId, jobId, owner] with htexts | htexts
    · have hextend : Performs (command db.dependencies.keys)
          (.heartbeat dagId jobId owner token leaseMs now) db.stored
          ([] ++ [(db.execute (heartbeatStatement dagId jobId owner token leaseMs now)).1])
          (db.execute (heartbeatStatement dagId jobId owner token leaseMs now)).2.stored :=
        performs_update .start rfl (by simp [command, hvalid, htexts, unlessError]; rfl)
      cases hchanged : PostgresStore.ensureCompareAndSet
          (db.execute (heartbeatStatement dagId jobId owner token leaseMs now)).1 with
      | ok value =>
          refine commits_of_commit hextend ?_ ?_ rows
          · simp [command, hvalid, hchanged, unlessError]
          · simp [Transaction.perform, PostgresStore.heartbeat, hvalid, htexts, hchanged,
              PostgresStore.transaction, bind, Except.bind, committed]
      | error error =>
          refine commits_of_rollback hextend ?_ ?_ rows
          · simp [command, hvalid, hchanged, unlessError]
          · simp [Transaction.perform, PostgresStore.heartbeat, hvalid, htexts, hchanged,
              PostgresStore.transaction, bind, Except.bind, committed]
    · refine commits_of_rollback .start ?_ ?_ rows
      · simp [command, hvalid, htexts, unlessError]
      · simp [Transaction.perform, PostgresStore.heartbeat, hvalid, htexts,
          PostgresStore.transaction, bind, Except.bind, committed]
  · refine commits_of_rollback .start ?_ ?_ rows
    · simp [command, hvalid, unlessError]
    · simp [Transaction.perform, PostgresStore.heartbeat, hvalid, PostgresStore.transaction,
        bind, Except.bind, committed]

theorem commits_complete (db : Database) (dagId jobId owner : String) (token : Uuid)
    (result : String) (now : ℤ) (rows : Table StoreKey StoredRow) :
    Commits (command db.dependencies.keys) (.complete dagId jobId owner token result now)
        db.stored rows ↔
      ((Transaction.complete dagId jobId owner token result now).perform db).map
        Database.stored = some rows := by
  by_cases hsize : maxPayloadBytes < result.utf8ByteSize
  · refine commits_of_rollback .start ?_ ?_ rows
    · simp [command, hsize]
    · simp [Transaction.perform, PostgresStore.complete, hsize, committed]
  rcases PostgresStore.bindTexts_cases [dagId, jobId, owner, result] with htexts | htexts
  · have hcomplete : Performs (command db.dependencies.keys)
        (.complete dagId jobId owner token result now) db.stored
        ([] ++ [(db.execute (completeStatement dagId jobId owner token result now)).1])
        (db.execute (completeStatement dagId jobId owner token result now)).2.stored :=
      performs_update .start rfl (by simp [command, hsize, htexts, unlessError]; rfl)
    cases hchanged : PostgresStore.ensureCompareAndSet
        (db.execute (completeStatement dagId jobId owner token result now)).1 with
    | ok value =>
        have hrelease := performs_update hcomplete rfl
          (show _ = Command.execute ((releaseStatement dagId jobId now).statement
            db.dependencies.keys .release .every) by
              simp [command, hsize, hchanged, unlessError])
        refine commits_of_commit hrelease ?_ ?_ rows
        · simp [command, hsize]
        · simp [Transaction.perform, PostgresStore.complete, hsize, htexts, hchanged,
            PostgresStore.transaction, bind, Except.bind, committed, Database.stored]
    | error error =>
        refine commits_of_rollback hcomplete ?_ ?_ rows
        · simp [command, hsize, hchanged, unlessError]
        · simp [Transaction.perform, PostgresStore.complete, hsize, htexts, hchanged,
            PostgresStore.transaction, bind, Except.bind, committed]
  · refine commits_of_rollback .start ?_ ?_ rows
    · simp [command, hsize, htexts, unlessError]
    · simp [Transaction.perform, PostgresStore.complete, hsize, htexts,
        PostgresStore.transaction, bind, Except.bind, committed]

theorem commits_fail (db : Database) (dagId jobId owner : String) (token : Uuid) (now : ℤ)
    (rows : Table StoreKey StoredRow) :
    Commits (command db.dependencies.keys) (.fail dagId jobId owner token now) db.stored rows ↔
      ((Transaction.fail dagId jobId owner token now).perform db).map
        Database.stored = some rows := by
  rcases PostgresStore.bindTexts_cases [dagId, jobId, owner] with htexts | htexts
  · have hfail : Performs (command db.dependencies.keys) (.fail dagId jobId owner token now)
        db.stored ([] ++ [(db.execute (failStatement dagId jobId owner token now)).1])
        (db.execute (failStatement dagId jobId owner token now)).2.stored :=
      performs_update .start rfl (by simp [command, htexts, unlessError]; rfl)
    have hcount := db.rowsAffected_of_leaseMatches (failStatement dagId jobId owner token now)
      fun _ => rfl
    rcases PostgresStore.fail_cases db htexts token now with
      ⟨row, hrow, hmatches, hcall⟩ | ⟨hnot, hcall⟩
    · have hone := (hcount.resolve_right fun h => h.1 ⟨row, hrow, hmatches⟩).2
      refine commits_of_commit hfail ?_ ?_ rows
      · simp [command, hone]
      · rw [Transaction.perform, hcall]
        simp [committed, Database.stored]
    · have hzero := (hcount.resolve_left fun h => hnot h.1).2
      refine commits_of_rollback hfail ?_ ?_ rows
      · simp [command, hzero]
      · rw [Transaction.perform, hcall]
        rfl
  · refine commits_of_rollback .start ?_ ?_ rows
    · simp [command, htexts, unlessError]
    · simp [Transaction.perform, PostgresStore.fail, htexts, PostgresStore.transaction,
        bind, Except.bind, committed]

theorem commits_reap (db : Database) (now : ℤ) (rows : Table StoreKey StoredRow) :
    Commits (command db.dependencies.keys) (.reap now) db.stored rows ↔
      ((Transaction.reap now).perform db).map Database.stored = some rows := by
  have hreap : Performs (command db.dependencies.keys) (.reap now) db.stored
      ([] ++ [(db.execute (reapStatement now)).1])
      (db.execute (reapStatement now)).2.stored := performs_update .start rfl rfl
  exact commits_of_commit hreap rfl rfl rows

theorem commits_cancel (db : Database) (dagId : String) (rows : Table StoreKey StoredRow) :
    Commits (command db.dependencies.keys) (.cancel dagId) db.stored rows ↔
      ((Transaction.cancel dagId).perform db).map Database.stored = some rows := by
  rcases PostgresStore.bindTexts_cases [dagId] with htexts | htexts
  · have hstart : Performs (command db.dependencies.keys) (.cancel dagId) db.stored [] db.stored :=
      .start
    have hmark := hstart.execute (markDagStatement dagId) (by simp [command, htexts, unlessError])
    rw [length_writes_markDag, perform_markDag] at hmark
    by_cases hknown : db.dags.contains dagId = true
    · rw [if_pos hknown] at hmark
      have hcancel := performs_update hmark rfl
        (show command db.dependencies.keys (.cancel dagId) ([] ++ [1]) =
          .execute ((cancelStatement dagId).statement db.dependencies.keys .cancelJobs .every)
          from rfl)
      refine commits_of_commit hcancel rfl ?_ rows
      simp [Transaction.perform, PostgresStore.cancel, htexts, hknown, PostgresStore.transaction,
        bind, Except.bind, committed, Database.markDag]
    · rw [if_neg hknown] at hmark
      refine commits_of_rollback hmark rfl ?_ rows
      simp [Transaction.perform, PostgresStore.cancel, htexts, hknown, PostgresStore.transaction,
        bind, Except.bind, committed]
  · refine commits_of_rollback .start ?_ ?_ rows
    · simp [command, htexts, unlessError]
    · simp [Transaction.perform, PostgresStore.cancel, htexts, PostgresStore.transaction,
        bind, Except.bind, committed]

/-- A call that runs alone commits exactly if it succeeds, with the same rows. -/
theorem commits_iff (db : Database) (call : Transaction) (rows : Table StoreKey StoredRow) :
    Commits (command db.dependencies.keys) call db.stored rows ↔
      (call.perform db).map Database.stored = some rows := by
  cases call with
  | claim owner token leaseMs now => exact commits_claim db owner token leaseMs now rows
  | heartbeat dagId jobId owner token leaseMs now =>
      exact commits_heartbeat db dagId jobId owner token leaseMs now rows
  | complete dagId jobId owner token result now =>
      exact commits_complete db dagId jobId owner token result now rows
  | fail dagId jobId owner token now => exact commits_fail db dagId jobId owner token now rows
  | reap now => exact commits_reap db now rows
  | cancel dagId => exact commits_cancel db dagId rows

/-! ## Sequences of calls -/

theorem committed_eq_some {α : Type} {db after : Database}
    {outcome : Except StoreError (α × Database)}
    (h : committed (PostgresStore.transaction db outcome) = some after) :
    ∃ value, outcome = .ok (value, after) := by
  cases outcome with
  | error error => cases h
  | ok result =>
      cases h
      exact ⟨result.1, rfl⟩

/-- Outside the rows a call only records events, about jobs that exist. -/
structure Framed (before after : Database) : Prop where
  dependencies : after.dependencies = before.dependencies
  events : ∀ event ∈ after.events,
    event ∈ before.events ∨ after.jobs.contains (event.dagId, event.jobId) = true

theorem Framed.execute (db : Database) (update : JobUpdate) : Framed db (db.execute update).2 :=
  ⟨rfl, fun _ => .inl⟩

theorem Framed.insertEvent {before after : Database} (h : Framed before after)
    (dagId jobId eventType owner : String) :
    Framed before (after.insertEvent dagId jobId eventType owner) where
  dependencies := by
    rw [Database.dependencies_insertEvent]
    exact h.dependencies
  events event hevent := by
    rw [Database.jobs_insertEvent]
    unfold Database.insertEvent at hevent
    split at hevent
    · exact h.events event hevent
    next row hrow =>
      rcases List.mem_append.mp hevent with hbefore | hnew
      · exact h.events event hbefore
      · rw [List.mem_singleton.mp hnew, Table.contains, hrow]
        exact .inr rfl

theorem Framed.grantCandidate {before db : Database}
    (hdependencies : db.dependencies = before.dependencies) (hevents : db.events = before.events)
    {now : ℤ} {key : String × String} {row : JobRow}
    (hhead : (db.claimQueue now).head? = some (key, row)) (owner : String) (token : Uuid)
    (leaseMs : ℤ) :
    Framed before (PostgresStore.grantCandidate db key row owner token leaseMs now).2 where
  dependencies := hdependencies
  events event hevent := by
    rcases List.mem_append.mp hevent with hbefore | hnew
    · exact .inl (hevents ▸ hbefore)
    · have hqueued := List.mem_of_mem_head? hhead
      rw [Database.claimQueue, List.mem_insertionSort, List.mem_filter,
        Table.mem_entries] at hqueued
      rw [List.mem_singleton.mp hnew, Table.contains, PostgresStore.grantCandidate,
        Table.get?_modify_self, hqueued.1]
      exact .inr rfl

theorem Transaction.perform_frame {db after : Database} {call : Transaction}
    (h : call.perform db = some after) : Framed db after := by
  cases call with
  | claim owner token leaseMs now =>
      obtain ⟨value, houtcome⟩ := committed_eq_some h
      obtain ⟨-, -, houtcome⟩ := except_bind_eq_ok.mp houtcome
      obtain ⟨-, -, houtcome⟩ := except_bind_eq_ok.mp houtcome
      dsimp only at houtcome
      split at houtcome
      · cases houtcome
        exact .execute db (reapStatement now)
      next key row hhead =>
        cases houtcome
        have hdependencies : (PostgresStore.reapInTransaction db now).2.dependencies =
          db.dependencies := rfl
        have hevents : (PostgresStore.reapInTransaction db now).2.events = db.events := rfl
        exact .grantCandidate hdependencies hevents hhead owner token leaseMs
  | heartbeat dagId jobId owner token leaseMs now =>
      obtain ⟨value, houtcome⟩ := committed_eq_some h
      obtain ⟨-, -, houtcome⟩ := except_bind_eq_ok.mp houtcome
      obtain ⟨-, -, houtcome⟩ := except_bind_eq_ok.mp houtcome
      obtain ⟨-, -, houtcome⟩ := except_bind_eq_ok.mp houtcome
      cases houtcome
      exact .execute db (heartbeatStatement dagId jobId owner token leaseMs now)
  | complete dagId jobId owner token result now =>
      simp only [Transaction.perform, PostgresStore.complete] at h
      split at h
      · cases h
      · obtain ⟨value, houtcome⟩ := committed_eq_some h
        obtain ⟨-, -, houtcome⟩ := except_bind_eq_ok.mp houtcome
        obtain ⟨-, -, houtcome⟩ := except_bind_eq_ok.mp houtcome
        cases houtcome
        have hreleased : Framed db ((db.execute
            (completeStatement dagId jobId owner token result now)).2.execute
              (releaseStatement dagId jobId now)).2 :=
          ⟨rfl, fun _ => .inl⟩
        exact hreleased.insertEvent dagId jobId "succeeded" owner
  | fail dagId jobId owner token now =>
      obtain ⟨value, houtcome⟩ := committed_eq_some h
      obtain ⟨-, -, houtcome⟩ := except_bind_eq_ok.mp houtcome
      dsimp only at houtcome
      split at houtcome
      · cases houtcome
      · split at houtcome
        · cases houtcome
        · cases houtcome
          exact (Framed.execute db (failStatement dagId jobId owner token now)).insertEvent
            dagId jobId _ owner
  | reap now =>
      cases h
      exact .execute db (reapStatement now)
  | cancel dagId =>
      obtain ⟨value, houtcome⟩ := committed_eq_some h
      obtain ⟨-, -, houtcome⟩ := except_bind_eq_ok.mp houtcome
      split at houtcome
      · cases houtcome
      · cases houtcome
        exact ⟨rfl, fun _ => .inl⟩

theorem Transaction.performAll_concat {db after : Database} {calls : List Transaction}
    {call : Transaction} : Transaction.performAll db (calls ++ [call]) = some after ↔
      ∃ before, Transaction.performAll db calls = some before ∧
        call.perform before = some after := by
  rw [Transaction.performAll, List.foldlM_append]
  simp [Transaction.performAll, Option.bind_eq_some_iff]

/-- Calls that succeed one after the other are a serial execution of their programs. -/
theorem serial_of_performAll {db after : Database} {calls : List Transaction}
    (h : Transaction.performAll db calls = some after) :
    after.dependencies = db.dependencies ∧
      Serial (command db.dependencies.keys) db.stored calls after.stored := by
  induction calls using List.reverseRecOn generalizing after with
  | nil =>
      cases h
      exact ⟨rfl, .nil⟩
  | append_singleton calls call ih =>
      obtain ⟨before, hbefore, hlast⟩ := Transaction.performAll_concat.mp h
      obtain ⟨hdependencies, hserial⟩ := ih hbefore
      refine ⟨(Transaction.perform_frame hlast).dependencies.trans hdependencies,
        hserial.snoc call ?_⟩
      rw [← hdependencies, commits_iff, hlast]
      rfl

theorem exists_performAll {db : Database} {calls : List Transaction}
    {rows : Table StoreKey StoredRow}
    (h : Serial (command db.dependencies.keys) db.stored calls rows) :
    ∃ after, Transaction.performAll db calls = some after ∧ after.stored = rows := by
  induction h with
  | nil => exact ⟨db, rfl, rfl⟩
  | snoc call _ hcommits ih =>
      obtain ⟨before, hbefore, rfl⟩ := ih
      rw [← (serial_of_performAll hbefore).1, commits_iff, Option.map_eq_some_iff] at hcommits
      obtain ⟨after, hafter, hrows⟩ := hcommits
      exact ⟨after, Transaction.performAll_concat.mpr ⟨before, hbefore, hafter⟩, hrows⟩

/-- The schedules of the concurrent store in which no call starts while another one
is open are the sequences of calls of the serial store, in whatever order the
statements visit their rows and whichever calls are aborted on the way. -/
theorem isolated_runs_serial (db : Database) (calls : List Transaction)
    (rows : Table StoreKey StoredRow) :
    (∃ system, Interleaved db oneAtATime system ∧ system.sessions.entries = [] ∧
      system.history.map Commit.program = calls ∧ system.committed = rows) ↔
    ∃ after, Transaction.performAll db calls = some after ∧ after.stored = rows := by
  refine isolated_iff_serial.trans ⟨exists_performAll, ?_⟩
  rintro ⟨after, hafter, rfl⟩
  exact (serial_of_performAll hafter).2

end JobOrchestrator
