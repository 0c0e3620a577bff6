import JobOrchestrator.Scheduler.Invariant
import JobOrchestrator.Store.Submit

/-!
# A database that holds what a scheduler holds

`Mirrors`: the same graphs with the same edges, and job by job the same record.
Lease tokens are made up by each side for itself; a list of pairs says which
ones stand for the same lease.  The times at which jobs become available are
not part of the relation, because only the scheduler adds jitter to a retry.

The one fact that needs the invariant of the scheduler is
`Snapshot.parentsSucceeded_iff_remaining`: the join over the parents of a job
finds only succeeded ones exactly when the counter of the job is zero.
-/

namespace JobOrchestrator

/-- A row says about a job what its record says. -/
structure SameJob (names : List (String × Uuid)) (job : JobRecord) (row : JobRow) : Prop where
  kind : row.kind = job.spec.kind
  payload : row.payload = job.spec.payload
  maxAttempts : row.maxAttempts = job.spec.maxAttempts
  priority : row.priority = job.spec.priority
  state : row.state = job.state
  attempts : row.attempts = job.attempts
  result : row.result = job.result
  leaseOwner : row.leaseOwner = job.lease.map Lease.owner
  leaseExpiresAt : row.leaseExpiresAt = job.lease.map fun lease => milliseconds lease.expiresAtMs
  leaseToken : Option.Rel (fun token uuid => (token, uuid) ∈ names)
    (job.lease.map Lease.token) row.leaseToken

/-- A database holds the graphs and the jobs of a scheduler. -/
structure Mirrors (names : List (String × Uuid)) (scheduler : Scheduler) (db : Database) :
    Prop where
  dag : ∀ dagId, db.dags.contains dagId = scheduler.dags.contains dagId
  job : ∀ dagId jobId,
    Option.Rel (SameJob names) (scheduler.job? dagId jobId) (db.jobs.get? (dagId, jobId))
  dependency : ∀ row, db.dependencies.contains row = true ↔
    row.childId ∈ scheduler.dependentsOf row.dagId row.parentId
  cancelled : ∀ dagId jobId job, db.dags.get? dagId = some .cancelled →
    scheduler.job? dagId jobId = some job → job.isTerminal = true

theorem milliseconds_le_iff {first second : ℤ} :
    milliseconds first ≤ milliseconds second ↔ first ≤ second := by
  unfold milliseconds
  omega

theorem milliseconds_lt_iff {first second : ℤ} :
    milliseconds first < milliseconds second ↔ first < second := by
  unfold milliseconds
  omega

theorem milliseconds_inj {first second : ℤ} :
    milliseconds first = milliseconds second ↔ first = second := by
  unfold milliseconds
  omega

/-- Where the scheduler's deadline does not saturate, both sides compute one deadline. -/
theorem milliseconds_deadline {nowMs leaseMs : ℤ} (hrange : I64.InRange (nowMs + leaseMs)) :
    milliseconds nowMs + milliseconds leaseMs =
      milliseconds (I64.saturatingAdd nowMs leaseMs) := by
  rw [I64.saturatingAdd_eq hrange]
  exact (add_mul nowMs leaseMs 1000).symm

theorem SameJob.initial (names : List (String × Uuid)) (spec : DagSpec)
    (nowMs now : ℤ) (job : JobSpec) :
    SameJob names (spec.initialRecord nowMs job) (spec.persistedRow now job) where
  kind := rfl
  payload := rfl
  maxAttempts := rfl
  priority := rfl
  state := by
    unfold DagSpec.persistedRow DagSpec.initialRecord
    by_cases hzero : spec.inDegree job.id = 0
    · rw [if_neg (DagSpec.inDegree_eq_zero_iff.mp hzero), if_pos hzero]
    · rw [if_pos (not_not.mp (DagSpec.inDegree_eq_zero_iff.not.mp hzero)), if_neg hzero]
  attempts := rfl
  result := rfl
  leaseOwner := rfl
  leaseExpiresAt := rfl
  leaseToken := Option.Rel.none

namespace Mirrors

variable {names : List (String × Uuid)} {scheduler : Scheduler} {db : Database}

theorem exists_row (h : Mirrors names scheduler db) {dagId jobId : String} {job : JobRecord}
    (hjob : scheduler.job? dagId jobId = some job) :
    ∃ row, db.jobs.get? (dagId, jobId) = some row ∧ SameJob names job row := by
  have hrel := h.job dagId jobId
  rw [hjob] at hrel
  cases hrow : db.jobs.get? (dagId, jobId) with
  | none => rw [hrow] at hrel; cases hrel
  | some row => rw [hrow] at hrel; cases hrel with | some hsame => exact ⟨row, rfl, hsame⟩

theorem exists_record (h : Mirrors names scheduler db) {dagId jobId : String} {row : JobRow}
    (hrow : db.jobs.get? (dagId, jobId) = some row) :
    ∃ job, scheduler.job? dagId jobId = some job ∧ SameJob names job row := by
  have hrel := h.job dagId jobId
  rw [hrow] at hrel
  cases hjob : scheduler.job? dagId jobId with
  | none => rw [hjob] at hrel; cases hrel
  | some job => rw [hjob] at hrel; cases hrel with | some hsame => exact ⟨job, rfl, hsame⟩

theorem same (h : Mirrors names scheduler db) {dagId jobId : String} {job : JobRecord}
    {row : JobRow} (hjob : scheduler.job? dagId jobId = some job)
    (hrow : db.jobs.get? (dagId, jobId) = some row) : SameJob names job row := by
  have hrel := h.job dagId jobId
  rw [hjob, hrow] at hrel
  cases hrel with
  | some hsame => exact hsame

/-- The table of edges holds the lists of dependents. -/
theorem dependency_iff (h : Mirrors names scheduler db) {dagId : String} {dag : DagRecord}
    (hdag : scheduler.dags.get? dagId = some dag) (parentId childId : String) :
    ⟨dagId, parentId, childId⟩ ∈ db.dependencies.keys ↔
      childId ∈ listAt dag.dependents parentId := by
  have hedge := h.dependency ⟨dagId, parentId, childId⟩
  rw [Table.contains_iff] at hedge
  simp only [Scheduler.dependentsOf, hdag] at hedge
  exact hedge

theorem running (h : Mirrors names scheduler db) {dagId jobId : String} {job : JobRecord}
    (hjob : scheduler.job? dagId jobId = some job) (hlive : job.isTerminal = false) :
    db.dags.get? dagId = some .running := by
  obtain ⟨dag, hdag, _⟩ := Scheduler.job?_eq_some_iff.mp hjob
  have hcontains : db.dags.contains dagId = true := by
    rw [h.dag, Table.contains, hdag]
    rfl
  obtain ⟨state, hstate⟩ := Option.isSome_iff_exists.mp hcontains
  cases state with
  | running => exact hstate
  | cancelled =>
      have := h.cancelled dagId jobId job hstate hjob
      rw [hlive] at this
      cases this

theorem dag_iff (h : Mirrors names scheduler db) {dagId : String} :
    db.dags.get? dagId = none ↔ scheduler.dags.get? dagId = none := by
  rw [← Table.not_contains_iff, ← Table.not_contains_iff, h.dag]

theorem unused (h : Mirrors names scheduler db) {dagId : String}
    (hfresh : scheduler.dags.get? dagId = none) : db.Unused dagId := by
  refine ⟨h.dag_iff.mpr hfresh, fun id => ?_, fun row hdag => ?_⟩
  · have hrel := h.job dagId id
    rw [Scheduler.job?, hfresh] at hrel
    cases hrow : db.jobs.get? (dagId, id) with
    | none => rfl
    | some row => rw [hrow] at hrel; cases hrel
  · by_contra hrow
    have := (h.dependency row).mp (by simpa using hrow)
    simp [Scheduler.dependentsOf, hdag, hfresh] at this

theorem new (config : SchedulerConfig) : Mirrors [] (Scheduler.new config) .empty where
  dag _ := rfl
  job _ _ := Option.Rel.none
  dependency row := by
    simp [Database.empty, Scheduler.dependentsOf, Scheduler.new, Table.contains]
  cancelled _ _ _ h := by cases h

theorem submit {before after : Scheduler} {stored persisted : Database}
    (h : Mirrors names before stored) {spec : DagSpec} {nowMs : ℤ} {dag : DagRecord}
    (hadmitted : Scheduler.Admitted spec nowMs before after dag)
    (hpersisted : Persisted spec (milliseconds nowMs) stored persisted) :
    Mirrors names after persisted := by
  have hdag : ∀ dagId, after.dags.get? dagId =
      if dagId = spec.id then some dag else before.dags.get? dagId := by
    intro dagId
    rw [hadmitted.dags, Table.get?_insert]
  refine ⟨fun dagId => ?_, fun dagId jobId => ?_, fun row => ?_,
    fun dagId jobId job hcancelled hjob => ?_⟩
  · unfold Table.contains
    rw [hdag, hpersisted.get?_dags]
    split
    · rfl
    · exact h.dag dagId
  · unfold Scheduler.job?
    rw [hdag]
    by_cases hsame : dagId = spec.id
    · subst hsame
      rw [if_pos rfl, Option.bind_some]
      cases hrecord : dag.jobs.get? jobId with
      | some record =>
          obtain ⟨hmem, hid⟩ := hadmitted.built.record jobId record hrecord
          rw [(hpersisted.job spec.id jobId _).mpr (.inr ⟨rfl, record.spec, hmem, hid, rfl⟩),
            hadmitted.records jobId record hrecord]
          exact Option.Rel.some (SameJob.initial ..)
      | none =>
          -- the rows of the new graph are those of its records
          have hnone : persisted.jobs.get? (spec.id, jobId) = none := by
            rw [Option.eq_none_iff_forall_ne_some]
            intro row hrow
            rcases (hpersisted.job spec.id jobId row).mp hrow with ⟨hne, _⟩ | ⟨_, job, hmem, hid, _⟩
            · exact hne rfl
            · obtain ⟨record, hlookup, _⟩ := hadmitted.built.exists_record hmem
              rw [hid, hrecord] at hlookup
              cases hlookup
          rw [hnone]
          exact Option.Rel.none
    · rw [if_neg hsame, hpersisted.get?_jobs_of_ne hsame]
      exact h.job dagId jobId
  · rw [hpersisted.dependency]
    unfold Scheduler.dependentsOf
    rw [hdag]
    by_cases hsame : row.dagId = spec.id
    · rw [if_pos hsame, (hadmitted.built.dependents row.parentId).mem_iff, mem_childrenOf]
      simp only [hsame, ne_eq, not_true_eq_false, false_and, false_or, true_and, DagSpec.edges,
        List.mem_map, Prod.mk.injEq]
      constructor
      · intro hedge
        exact ⟨_, hedge, rfl, rfl⟩
      · rintro ⟨edge, hedge, hparent, hchild⟩
        rw [← hparent, ← hchild]
        exact hedge
    · rw [if_neg hsame]
      simp only [hsame, ne_eq, not_false_eq_true, true_and, false_and, or_false]
      exact h.dependency row
  · rw [hpersisted.get?_dags] at hcancelled
    unfold Scheduler.job? at hjob
    rw [hdag] at hjob
    by_cases hsame : dagId = spec.id
    · rw [if_pos hsame] at hcancelled
      cases hcancelled
    · rw [if_neg hsame] at hcancelled hjob
      exact h.cancelled dagId jobId job hcancelled hjob

theorem submit_cases (h : Mirrors names scheduler db) {spec : DagSpec} {nowMs : ℤ}
    (hnul : ∀ job ∈ spec.jobs, hasNul job.payload = false) (hnodup : spec.dependencies.Nodup)
    (hadmissible : (scheduler.submit spec nowMs).1 ≠ .error .overloaded) :
    ((scheduler.submit spec nowMs).1 = .ok () ∧
      (PostgresStore.submit db spec (milliseconds nowMs)).1 = .ok () ∧
      (∃ dag, Scheduler.Admitted spec nowMs scheduler (scheduler.submit spec nowMs).2 dag) ∧
      Persisted spec (milliseconds nowMs) db
        (PostgresStore.submit db spec (milliseconds nowMs)).2) ∨
    ((∃ error, scheduler.submit spec nowMs = (.error error, scheduler)) ∧
      ∃ error, PostgresStore.submit db spec (milliseconds nowMs) = (.error error, db)) := by
  rcases Scheduler.submit_cases scheduler spec nowMs with
    ⟨order, dag, hvalid, hok, hadmitted⟩ | ⟨error, herror⟩
  · rcases persist_cases hvalid hnul (h.unused hadmitted.fresh) (milliseconds nowMs) with
      ⟨_, persisted, hsubmit, hpersisted⟩ | ⟨hrepeated, _⟩
    · rw [hsubmit]
      exact .inl ⟨hok, rfl, ⟨dag, hadmitted⟩, hpersisted⟩
    · exact absurd hnodup hrepeated
  · refine .inr ⟨⟨error, herror⟩, ?_⟩
    unfold Scheduler.submit at herror hadmissible
    cases hvalid : spec.validate with
    | error invalid =>
        unfold PostgresStore.submit
        rw [hvalid]
        exact ⟨_, rfl⟩
    | ok order =>
        rw [hvalid] at herror hadmissible
        dsimp only at herror hadmissible
        by_cases htaken : scheduler.dags.contains spec.id = true
        · exact submit_of_contains (by rw [h.dag, htaken]) _
        · -- the remaining errors are those of an overloaded scheduler
          rw [if_neg htaken] at herror hadmissible
          split at herror
          next hdags => rw [if_pos hdags] at hadmissible; exact absurd rfl hadmissible
          next hdags =>
            rw [if_neg hdags] at hadmissible
            split at herror
            next hready => rw [if_pos hready] at hadmissible; exact absurd rfl hadmissible
            next => cases herror

end Mirrors

/-- The join over the parents of a job agrees with its dependency counter, if
the snapshot shows the edges of its graph and which of its jobs have succeeded. -/
theorem Snapshot.parentsSucceeded_iff_remaining {snapshot : Snapshot} {spec : DagSpec}
    {dag : DagRecord} (hconsistent : dag.Consistent spec)
    (hvalid : ∃ order, spec.validate = .ok order)
    {dagId jobId : String} {job : JobRecord} (hjob : dag.jobs.get? jobId = some job)
    (hedges : ∀ parentId, ⟨dagId, parentId, jobId⟩ ∈ snapshot.dependencies ↔
      jobId ∈ listAt dag.dependents parentId)
    (hparents : ∀ parentId parent, dag.jobs.get? parentId = some parent →
      ∃ row, snapshot.job? dagId parentId = some row ∧
        (row.state = .succeeded ↔ parent.state = .succeeded)) :
    snapshot.parentsSucceeded dagId jobId = true ↔ job.remainingDependencies = 0 := by
  obtain ⟨order, hvalid⟩ := hvalid
  rw [hconsistent.remaining jobId job hjob, Digraph.openInDegree_eq_zero_iff,
    Snapshot.parentsSucceeded_iff]
  have hmem : ∀ parentId, ⟨dagId, parentId, jobId⟩ ∈ snapshot.dependencies ↔
      (parentId, jobId) ∈ spec.edges := by
    intro parentId
    rw [hedges, (hconsistent.dependents parentId).mem_iff, mem_childrenOf]
  constructor
  · intro hsucceeded parentId hedge
    obtain ⟨edge, hdependency, hpair⟩ := List.mem_map.mp hedge
    have hsource := ((accepted_of_validate hvalid).endpoints edge hdependency).2.1
    simp only [Prod.mk.injEq] at hpair
    rw [hpair.1, ← hconsistent.keys] at hsource
    obtain ⟨parent, hparent⟩ := Table.mem_keys.mp hsource
    obtain ⟨row, hrow, hstate⟩ := hparents parentId parent hparent
    have := hstate.mp (hsucceeded _ ((hmem parentId).mpr hedge) rfl rfl row hrow)
    simp [DagRecord.isOpen, hparent, this]
  · rintro hclosed ⟨dagId', parentId, childId⟩ hedge hdag hchild row hrow
    simp only at hdag hchild hrow
    subst hdag hchild
    have hopen := hclosed parentId ((hmem parentId).mp hedge)
    unfold DagRecord.isOpen at hopen
    cases hparent : dag.jobs.get? parentId with
    | none => simp [hparent] at hopen
    | some parent =>
        obtain ⟨row', hrow', hstate⟩ := hparents parentId parent hparent
        rw [hrow'] at hrow
        cases hrow
        simp only [hparent, ne_eq, decide_not, Bool.not_eq_eq_eq_not, Bool.not_false,
          decide_eq_true_eq] at hopen
        exact hstate.mpr hopen

end JobOrchestrator
