import JobOrchestrator.Store.Concurrent

/-!
# Where the rows of a submitted database come from

Submissions lead to databases that hold accepted graphs and nothing else: under
every identifier in `dags` there is one specification that `validate` has accepted,
its jobs and its edges are the rows of that identifier, and the foreign keys hold
(`Database.Submitted.holds`).
-/

namespace JobOrchestrator

/-! ## Refused submissions -/

/-- The identifier of an accepted graph is refused only if it is taken. -/
theorem submit_of_taken {spec : DagSpec} {order : List String} (hvalid : spec.validate = .ok order)
    {db : Database} (htaken : db.dags.contains spec.id = true) (now : ℤ) :
    PostgresStore.submit db spec now = (.error (.database .uniqueViolation), db) := by
  obtain ⟨hpattern, hnul⟩ := matchesIdentifierPattern_of_validate (by decide)
    (accepted_of_validate hvalid).identifier
  have hinsert : db.insertDag spec.id = .error .uniqueViolation := by
    simp [Database.insertDag, hpattern, hnul, htaken]
  unfold PostgresStore.submit
  rw [hvalid, hinsert]
  rfl

theorem insertJobs_of_hasNul {dagId : String} (counts : Table String ℕ) (now : ℤ)
    {jobs : List JobSpec} (hvalid : ∀ job ∈ jobs, job.Valid)
    (hpayload : ∃ job ∈ jobs, hasNul job.payload = true) (hnodup : (jobs.map JobSpec.id).Nodup)
    (hdagId : hasNul dagId = false) (db : Database) (hdag : db.dags.contains dagId = true)
    (hfresh : ∀ job ∈ jobs, db.jobs.contains (dagId, job.id) = false) :
    PostgresStore.insertJobs dagId counts now jobs db = .error (.database .invalidText) := by
  induction jobs generalizing db with
  | nil => simp at hpayload
  | cons job rest ih =>
      obtain ⟨hjob, hrest⟩ := List.forall_mem_cons.mp hvalid
      obtain ⟨hjobFresh, hrestFresh⟩ := List.forall_mem_cons.mp hfresh
      obtain ⟨hnew, hnodup⟩ := List.nodup_cons.mp hnodup
      obtain ⟨hpattern, hnul⟩ := matchesIdentifierPattern_of_validate (by decide) hjob.identifier
      have hsmall : ¬2 ^ 15 ≤ job.maxAttempts := by
        have := hjob.attempts_le
        omega
      rw [PostgresStore.insertJobs, if_neg hsmall]
      by_cases hstops : hasNul job.payload = true
      · have hinsert : db.insertJob dagId job.id (PostgresStore.submittedRow counts now job) =
            .error .invalidText := by
          have hrow : hasNul (PostgresStore.submittedRow counts now job).payload = true := hstops
          simp [Database.insertJob, hrow]
        rw [hinsert]
        rfl
      · have hinsert : db.insertJob dagId job.id (PostgresStore.submittedRow counts now job) =
            .ok (db.putJob dagId job.id (PostgresStore.submittedRow counts now job)) := by
          have hrow : hasNul (PostgresStore.submittedRow counts now job).payload = false :=
            (Bool.not_eq_true _).mp hstops
          simp [Database.insertJob, hdagId, hnul, hrow, hpattern, hjob.checks counts now,
            hjobFresh, hdag]
        have hlater : ∃ other ∈ rest, hasNul other.payload = true := by
          obtain ⟨other, hother, hpayload⟩ := hpayload
          rcases List.mem_cons.mp hother with rfl | hother
          · exact absurd hpayload hstops
          · exact ⟨other, hother, hpayload⟩
        rw [fromSql_eq_ok hinsert]
        refine ih hrest hlater hnodup _ hdag fun other hother => ?_
        have hne : (dagId, other.id) ≠ (dagId, job.id) := fun hsame =>
          hnew ((Prod.mk.inj hsame).2 ▸ List.mem_map_of_mem (f := JobSpec.id) hother)
        unfold Database.putJob Table.contains
        rw [Table.get?_insert_of_ne _ _ hne]
        exact hrestFresh other hother

theorem submit_of_hasNul {spec : DagSpec} {order : List String} (hvalid : spec.validate = .ok order)
    (hnul : ∃ job ∈ spec.jobs, hasNul job.payload = true) {db : Database}
    (hunused : db.Unused spec.id) (now : ℤ) :
    PostgresStore.submit db spec now = (.error (.database .invalidText), db) := by
  have haccepted := accepted_of_validate hvalid
  obtain ⟨hpattern, hidNul⟩ := matchesIdentifierPattern_of_validate (by decide) haccepted.identifier
  have hinsert : db.insertDag spec.id =
      .ok { db with dags := db.dags.insert spec.id .running } := by
    simp [Database.insertDag, hidNul, hpattern, Table.contains, hunused.dag]
  have hjobs := insertJobs_of_hasNul (PostgresStore.dependencyCounts spec) now haccepted.jobs_valid
    hnul haccepted.jobIds_nodup hidNul { db with dags := db.dags.insert spec.id .running }
    (by simp [Table.contains]) (fun job _ => by simp [Table.contains, hunused.jobs])
  unfold PostgresStore.submit
  rw [hvalid]
  dsimp only
  rw [fromSql_eq_ok hinsert]
  dsimp only [bind, Except.bind]
  rw [hjobs]
  rfl

/-! ## One submission -/

/-- A submission persists an accepted graph under a free identifier, or it changes nothing. -/
theorem persisted_or_unchanged {db : Database} (hkeys : db.ForeignKeys) (spec : DagSpec)
    (now : ℤ) : (PostgresStore.submit db spec now).2 = db ∨
      ∃ order, spec.validate = .ok order ∧ db.dags.get? spec.id = none ∧
        Persisted spec now db (PostgresStore.submit db spec now).2 := by
  cases hvalid : spec.validate with
  | error error => exact .inl (by simp [PostgresStore.submit, hvalid])
  | ok order =>
      by_cases htaken : db.dags.contains spec.id = true
      · exact .inl (by rw [submit_of_taken hvalid htaken])
      have hfree := Table.not_contains_iff.mp htaken
      by_cases hnul : ∃ job ∈ spec.jobs, hasNul job.payload = true
      · exact .inl (by rw [submit_of_hasNul hvalid hnul (hkeys.unused hfree)])
      have hnul : ∀ job ∈ spec.jobs, hasNul job.payload = false := by simpa using hnul
      rcases persist_cases hvalid hnul (hkeys.unused hfree) now with
        ⟨-, after, hsubmit, hpersisted⟩ | ⟨-, hsubmit⟩
      · rw [hsubmit]
        exact .inr ⟨order, rfl, hfree, hpersisted⟩
      · exact .inl (by rw [hsubmit])

section

variable {spec : DagSpec} {now : ℤ} {before after : Database}

theorem Persisted.contains_job (h : Persisted spec now before after) {jobId : String}
    (hid : jobId ∈ spec.jobIds) : after.jobs.contains (spec.id, jobId) = true := by
  obtain ⟨job, hjob, rfl⟩ := List.mem_map.mp hid
  have hrow := (h.job spec.id job.id _).mpr (.inr ⟨rfl, job, hjob, rfl, rfl⟩)
  rw [Table.contains, hrow]
  rfl

theorem Persisted.keeps_job (h : Persisted spec now before after) (hunused : before.Unused spec.id)
    {key : String × String} (hkey : before.jobs.contains key = true) :
    after.jobs.contains key = true := by
  obtain ⟨dagId, jobId⟩ := key
  obtain ⟨row, hrow⟩ := Option.isSome_iff_exists.mp hkey
  have hne : dagId ≠ spec.id := by
    rintro rfl
    rw [hunused.jobs] at hrow
    cases hrow
  rw [Table.contains, (h.job dagId jobId row).mpr (.inl ⟨hne, hrow⟩)]
  rfl

theorem Persisted.foreignKeys (h : Persisted spec now before after) {order : List String}
    (hvalid : spec.validate = .ok order) (hkeys : before.ForeignKeys)
    (hfree : before.dags.get? spec.id = none) : after.ForeignKeys where
  job dagId jobId row hrow := by
    rw [Table.contains, h.get?_dags]
    split
    · rfl
    next hne =>
      rcases (h.job dagId jobId row).mp hrow with ⟨-, hbefore⟩ | ⟨hdag, -⟩
      · exact hkeys.job dagId jobId row hbefore
      · exact absurd hdag hne
  dependency row hrow := by
    have hunused := hkeys.unused hfree
    rcases (h.dependency row).mp (Table.contains_iff.mpr hrow) with ⟨-, hbefore⟩ | ⟨hdag, hedge⟩
    · exact (hkeys.dependency row (Table.contains_iff.mp hbefore)).imp (h.keeps_job hunused)
        (h.keeps_job hunused)
    · obtain ⟨-, hfrom, hto⟩ := (accepted_of_validate hvalid).endpoints _ hedge
      rw [hdag]
      exact ⟨h.contains_job hfrom, h.contains_job hto⟩
  event row hrow := by
    rw [h.events] at hrow
    exact h.keeps_job (hkeys.unused hfree) (hkeys.event row hrow)

end

/-! ## All submissions -/

/-- The database holds an accepted graph as it was submitted. -/
structure Database.HoldsGraph (db : Database) (spec : DagSpec) (now : ℤ) : Prop where
  valid : ∃ order, spec.validate = .ok order
  dag : db.dags.get? spec.id = some .running
  job : ∀ jobId row, db.jobs.get? (spec.id, jobId) = some row ↔
    ∃ job ∈ spec.jobs, job.id = jobId ∧ row = spec.persistedRow now job
  dependency : ∀ row, row.dagId = spec.id → (db.dependencies.contains row = true ↔
    ⟨row.parentId, row.childId⟩ ∈ spec.dependencies)

theorem Persisted.holdsGraph {spec : DagSpec} {now : ℤ} {before after : Database}
    (h : Persisted spec now before after) (hvalid : ∃ order, spec.validate = .ok order) :
    after.HoldsGraph spec now where
  valid := hvalid
  dag := (h.dag spec.id .running).mpr (.inr ⟨rfl, rfl⟩)
  job jobId row := by
    rw [h.job]
    exact ⟨fun hrow => hrow.elim (fun hother => absurd rfl hother.1) And.right,
      fun hrow => .inr ⟨rfl, hrow⟩⟩
  dependency row hdag := by
    rw [h.dependency]
    exact ⟨fun hrow => hrow.elim (fun hother => absurd hdag hother.1) And.right,
      fun hedge => .inr ⟨hdag, hedge⟩⟩

theorem Persisted.keeps_holdsGraph {spec other : DagSpec} {now nowBefore : ℤ}
    {before after : Database} (h : Persisted other now before after)
    (hholds : before.HoldsGraph spec nowBefore)
    (hne : spec.id ≠ other.id) : after.HoldsGraph spec nowBefore where
  valid := hholds.valid
  dag := (h.dag spec.id .running).mpr (.inl ⟨hne, hholds.dag⟩)
  job jobId row := by
    rw [h.job, ← hholds.job jobId row]
    exact ⟨fun hrow => hrow.elim And.right fun hother => absurd hother.1 hne,
      fun hrow => .inl ⟨hne, hrow⟩⟩
  dependency row hdag := by
    rw [h.dependency, ← hholds.dependency row hdag, hdag]
    exact ⟨fun hrow => hrow.elim And.right fun hother => absurd hother.1 hne,
      fun hrow => .inl ⟨hne, hrow⟩⟩

/-- A submitted database holds an accepted graph under every identifier. -/
theorem Database.Submitted.holds {db : Database} (h : db.Submitted) :
    db.ForeignKeys ∧ ∀ dagId, db.dags.contains dagId = true →
      ∃ spec now, spec.id = dagId ∧ db.HoldsGraph spec now := by
  induction h with
  | empty =>
      exact ⟨.empty, fun dagId hknown => by simp [Database.empty, Table.contains] at hknown⟩
  | @submit db spec now _ ih =>
      obtain ⟨hkeys, hgraphs⟩ := ih
      rcases persisted_or_unchanged hkeys spec now with hsame | ⟨order, hvalid, hfree, hpersisted⟩
      · rw [hsame]
        exact ⟨hkeys, hgraphs⟩
      · refine ⟨hpersisted.foreignKeys hvalid hkeys hfree, fun dagId hknown => ?_⟩
        by_cases hdag : dagId = spec.id
        · exact ⟨spec, now, hdag.symm, hpersisted.holdsGraph ⟨order, hvalid⟩⟩
        · rw [Table.contains, hpersisted.get?_dags, if_neg hdag] at hknown
          obtain ⟨other, nowOther, rfl, hholds⟩ := hgraphs dagId hknown
          exact ⟨other, nowOther, rfl, hpersisted.keeps_holdsGraph hholds hdag⟩

section

variable {db : Database} {spec : DagSpec} {now : ℤ}

theorem Database.HoldsGraph.accepted (h : db.HoldsGraph spec now) :
    ∃ order, Accepted spec order := by
  obtain ⟨order, hvalid⟩ := h.valid
  exact ⟨order, accepted_of_validate hvalid⟩

theorem Database.HoldsGraph.hasNul_id (h : db.HoldsGraph spec now) : hasNul spec.id = false := by
  obtain ⟨order, haccepted⟩ := h.accepted
  exact (matchesIdentifierPattern_of_validate (by decide) haccepted.identifier).2

end

/-- Every row of `jobs` persists a job of the graph under its identifier. -/
theorem Database.Submitted.exists_spec {db : Database} (h : db.Submitted) {dagId jobId : String}
    {row : JobRow} (hrow : db.jobs.get? (dagId, jobId) = some row) :
    ∃ spec now job, spec.id = dagId ∧ db.HoldsGraph spec now ∧ job ∈ spec.jobs ∧ job.id = jobId ∧
      job.Valid ∧ row = spec.persistedRow now job := by
  obtain ⟨hkeys, hgraphs⟩ := h.holds
  obtain ⟨spec, now, rfl, hholds⟩ := hgraphs dagId (hkeys.job dagId jobId row hrow)
  obtain ⟨job, hjob, hid, hpersisted⟩ := (hholds.job jobId row).mp hrow
  obtain ⟨order, haccepted⟩ := hholds.accepted
  exact ⟨spec, now, job, rfl, hholds, hjob, hid, haccepted.jobs_valid job hjob, hpersisted⟩

end JobOrchestrator
