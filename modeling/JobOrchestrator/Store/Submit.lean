import JobOrchestrator.Http.Response
import JobOrchestrator.Library.Utf8
import JobOrchestrator.Scheduler.Admission

/-!
# What the store persists of an accepted graph

An accepted graph passes every constraint of the migration but one: the primary
key of `job_dependencies` has no room for a repeated edge, which the validator
allows.  `submission_persisted_iff`: under a free identifier the graph is
persisted exactly when no edge is repeated.
-/

namespace JobOrchestrator

/-! ## Accepted values satisfy the checks -/

theorem identifier_byte {byte : UInt8}
    (h : (isAsciiAlphanumeric byte || byte == 45 || byte == 95) = true) :
    byte.toNat < 128 ∧ byte ≠ 0 ∧
      ((Char.ofNat byte.toNat).isAlphanum || Char.ofNat byte.toNat == '_' ||
        Char.ofNat byte.toNat == '-') = true := by
  revert h byte
  decide +kernel

/-- The identifiers that the validator accepts match the pattern of the migration. -/
theorem matchesIdentifierPattern_of_validate {id : String} {maxBytes : ℕ}
    (hmax : maxBytes ≤ 64) (h : validateIdentifier id maxBytes = .ok ()) :
    matchesIdentifierPattern id = true ∧ hasNul id = false := by
  unfold validateIdentifier at h
  dsimp only at h
  split at h
  next hvalid =>
    simp only [Bool.and_eq_true, Bool.not_eq_true', decide_eq_true_eq, List.all_eq_true] at hvalid
    obtain ⟨⟨hnonempty, hsize⟩, hbytes⟩ := hvalid
    have hchars : ∀ c ∈ id.toList, c.toNat ≠ 0 ∧
        (c.isAlphanum || c == '_' || c == '-') = true := by
      intro c hc
      obtain ⟨hlt, hmem⟩ := Utf8.mem_bytes_of_mem
        (fun byte hbyte => (identifier_byte (hbytes byte hbyte)).1) hc
      obtain ⟨_, hzero, hclass⟩ := identifier_byte (hbytes _ hmem)
      have hround : (UInt8.ofNat c.toNat).toNat = c.toNat := by
        rw [UInt8.toNat_ofNat']
        omega
      rw [hround, Char.ofNat_toNat] at hclass
      refine ⟨fun h0 => hzero ?_, hclass⟩
      rw [h0]
      rfl
    have hlength := Utf8.length_le_utf8ByteSize id
    refine ⟨?_, ?_⟩
    · unfold matchesIdentifierPattern
      rw [Bool.and_eq_true, Bool.and_eq_true, List.all_eq_true, decide_eq_true_eq,
        decide_eq_true_eq]
      refine ⟨⟨fun c hc => (hchars c hc).2, ?_⟩, by omega⟩
      rw [Nat.one_le_iff_ne_zero]
      intro hzero
      simp [String.length_eq_zero_iff.mp hzero] at hnonempty
    · unfold hasNul
      rw [List.contains_eq_mem, decide_eq_false_iff_not]
      intro hmem
      exact (hchars _ hmem).1 rfl
  · cases h

theorem fromSql_eq_ok {α : Type} {outcome : Except SqlError α} {value : α}
    (h : outcome = .ok value) : PostgresStore.fromSql outcome = .ok value := by
  rw [h]
  rfl

theorem JobSpec.Valid.checks {job : JobSpec} (h : job.Valid) (counts : Table String ℕ) (now : ℤ) :
    (PostgresStore.submittedRow counts now job).checks = true := by
  have hpayload : job.payload.utf8ByteSize ≤ 4096 := by
    have hchecked := h.payload
    unfold JobKind.validatePayload maxPayloadBytes at hchecked
    split at hchecked
    · cases hchecked
    · omega
  have hstate : (PostgresStore.submittedRow counts now job).state ≠ .leased := by
    unfold PostgresStore.submittedRow
    dsimp only
    split <;> simp
  unfold JobRow.checks
  rw [decide_eq_false hstate]
  simp [PostgresStore.submittedRow, hpayload, Nat.one_le_iff_ne_zero,
    Nat.pos_iff_ne_zero.mp h.attempts_pos, h.attempts_le, h.priority_ge, h.priority_le]

/-! ## The two loops -/

theorem insertJobs_ok {dagId : String} (counts : Table String ℕ) (now : ℤ) {jobs : List JobSpec}
    (hvalid : ∀ job ∈ jobs, job.Valid) (hpayload : ∀ job ∈ jobs, hasNul job.payload = false)
    (hnodup : (jobs.map JobSpec.id).Nodup) (hdagId : hasNul dagId = false) (db : Database)
    (hdag : db.dags.contains dagId = true)
    (hfresh : ∀ job ∈ jobs, db.jobs.contains (dagId, job.id) = false) :
    ∃ after, PostgresStore.insertJobs dagId counts now jobs db = .ok after ∧
      after.dags = db.dags ∧ after.dependencies = db.dependencies ∧ after.events = db.events ∧
      ∀ key row, after.jobs.get? key = some row ↔ db.jobs.get? key = some row ∨
        ∃ job ∈ jobs, key = (dagId, job.id) ∧ row = PostgresStore.submittedRow counts now job := by
  induction jobs generalizing db with
  | nil => exact ⟨db, rfl, rfl, rfl, rfl, by simp⟩
  | cons job rest ih =>
      obtain ⟨hjob, hrest⟩ := List.forall_mem_cons.mp hvalid
      obtain ⟨hjobPayload, hrestPayload⟩ := List.forall_mem_cons.mp hpayload
      obtain ⟨hjobFresh, hrestFresh⟩ := List.forall_mem_cons.mp hfresh
      obtain ⟨hnew, hnodup⟩ := List.nodup_cons.mp hnodup
      obtain ⟨hpattern, hnul⟩ := matchesIdentifierPattern_of_validate (by decide) hjob.identifier
      have hinsert : db.insertJob dagId job.id (PostgresStore.submittedRow counts now job) =
          .ok (db.putJob dagId job.id (PostgresStore.submittedRow counts now job)) := by
        have hrow : hasNul (PostgresStore.submittedRow counts now job).payload = false :=
          hjobPayload
        simp [Database.insertJob, hdagId, hnul, hrow, hpattern, hjob.checks counts now, hjobFresh,
          hdag]
      have hsmall : ¬2 ^ 15 ≤ job.maxAttempts := by
        have := hjob.attempts_le
        omega
      obtain ⟨after, hafter, hdags, hdependencies, hevents, hget⟩ := ih hrest hrestPayload hnodup
        (db.putJob dagId job.id (PostgresStore.submittedRow counts now job)) hdag
        (fun other hother => by
            have hne : (dagId, other.id) ≠ (dagId, job.id) := fun hsame => by
              rw [← (Prod.mk.inj hsame).2] at hnew
              exact hnew (List.mem_map_of_mem hother)
            unfold Database.putJob Table.contains
            rw [Table.get?_insert_of_ne _ _ hne]
            exact hrestFresh other hother)
      refine ⟨after, ?_, hdags, hdependencies, hevents, fun key row => ?_⟩
      · rw [PostgresStore.insertJobs, if_neg hsmall, fromSql_eq_ok hinsert]
        exact hafter
      · have habsent : db.jobs.get? (dagId, job.id) = none := by
          simpa [Table.contains] using hjobFresh
        rw [hget, Database.putJob, Table.get?_insert]
        by_cases hkey : key = (dagId, job.id)
        · subst hkey
          simp [habsent, eq_comm]
        · simp [hkey]

/-- The row of an edge. -/
def Dependency.row (dagId : String) (edge : Dependency) : DependencyRow :=
  ⟨dagId, edge.fromId, edge.toId⟩

theorem Dependency.row_injective (dagId : String) : Function.Injective (Dependency.row dagId) := by
  rintro ⟨_, _⟩ ⟨_, _⟩ h
  simp only [Dependency.row, DependencyRow.mk.injEq, true_and] at h
  obtain ⟨rfl, rfl⟩ := h
  rfl

/-- The constraints on an edge other than its primary key. -/
structure EdgeInsertable (db : Database) (dagId : String) (edge : Dependency) : Prop where
  fromNul : hasNul edge.fromId = false
  toNul : hasNul edge.toId = false
  ne : edge.fromId ≠ edge.toId
  parent : db.jobs.contains (dagId, edge.fromId) = true
  child : db.jobs.contains (dagId, edge.toId) = true

/-- An insertable edge is rejected only by its primary key. -/
theorem insertDependency_eq {db : Database} {dagId : String} (hdagId : hasNul dagId = false)
    {edge : Dependency} (h : EdgeInsertable db dagId edge) :
    db.insertDependency (edge.row dagId) =
      if db.dependencies.contains (edge.row dagId) then .error .uniqueViolation
      else .ok (db.putDependency (edge.row dagId)) := by
  unfold Database.insertDependency
  have htexts : (hasNul dagId || hasNul edge.fromId || hasNul edge.toId) = false := by
    simp [hdagId, h.fromNul, h.toNul]
  have hkeys : (db.jobs.contains (dagId, edge.fromId) && db.jobs.contains (dagId, edge.toId)) =
      true := by
    simp [h.parent, h.child]
  simp only [Dependency.row, htexts, h.ne, hkeys, Bool.false_eq_true, if_false, Bool.not_true]
  rfl

/-- The loop over the edges succeeds exactly when no edge is repeated. -/
theorem insertDependencies_cases {dagId : String} (hdagId : hasNul dagId = false)
    {edges : List Dependency} (db : Database)
    (hedges : ∀ edge ∈ edges, EdgeInsertable db dagId edge) :
    ((edges.Nodup ∧ ∀ edge ∈ edges, db.dependencies.contains (edge.row dagId) = false) ∧
      ∃ after, PostgresStore.insertDependencies dagId edges db = .ok after ∧
        after.dags = db.dags ∧ after.jobs = db.jobs ∧ after.events = db.events ∧
        ∀ row, after.dependencies.contains row = true ↔
          db.dependencies.contains row = true ∨ ∃ edge ∈ edges, row = edge.row dagId) ∨
    (¬(edges.Nodup ∧ ∀ edge ∈ edges, db.dependencies.contains (edge.row dagId) = false) ∧
      PostgresStore.insertDependencies dagId edges db = .error (.database .uniqueViolation)) := by
  induction edges generalizing db with
  | nil => exact .inl ⟨by simp, db, rfl, rfl, rfl, rfl, by simp⟩
  | cons edge rest ih =>
      obtain ⟨hedge, hrest⟩ := List.forall_mem_cons.mp hedges
      have hinsert := insertDependency_eq hdagId hedge
      by_cases htaken : db.dependencies.contains (edge.row dagId) = true
      · rw [if_pos htaken] at hinsert
        refine .inr ⟨fun hfree => ?_, ?_⟩
        · rw [hfree.2 edge List.mem_cons_self] at htaken
          cases htaken
        · rw [PostgresStore.insertDependencies]
          simp only [Dependency.row] at hinsert
          rw [hinsert]
          rfl
      · rw [if_neg htaken] at hinsert
        have hnext : PostgresStore.insertDependencies dagId (edge :: rest) db =
            PostgresStore.insertDependencies dagId rest (db.putDependency (edge.row dagId)) := by
          rw [PostgresStore.insertDependencies]
          simp only [Dependency.row] at hinsert
          rw [fromSql_eq_ok hinsert]
          rfl
        have hcontains := db.contains_putDependency (edge.row dagId)
        have hfree : ((edge :: rest).Nodup ∧ ∀ other ∈ edge :: rest,
              db.dependencies.contains (other.row dagId) = false) ↔
            rest.Nodup ∧ ∀ other ∈ rest,
              (db.putDependency (edge.row dagId)).dependencies.contains (other.row dagId) =
                false := by
          simp only [List.nodup_cons, List.forall_mem_cons, ← Bool.not_eq_true, hcontains,
            not_or, (Dependency.row_injective dagId).eq_iff]
          constructor
          · rintro ⟨⟨hnew, hnodup⟩, _, hothers⟩
            exact ⟨hnodup, fun other hother => ⟨fun hsame => hnew (hsame ▸ hother),
              hothers other hother⟩⟩
          · rintro ⟨hnodup, hothers⟩
            exact ⟨⟨fun hmem => (hothers edge hmem).1 rfl, hnodup⟩, htaken,
              fun other hother => (hothers other hother).2⟩
        rw [hfree, hnext]
        rcases ih (db.putDependency (edge.row dagId))
          (fun other hother => ⟨(hrest other hother).fromNul, (hrest other hother).toNul,
            (hrest other hother).ne, (hrest other hother).parent, (hrest other hother).child⟩) with
          ⟨hok, after, hafter, hdags, hjobs, hevents, hrows⟩ | hfailed
        · refine .inl ⟨hok, after, hafter, hdags, hjobs, hevents, fun row => ?_⟩
          rw [hrows, hcontains]
          simp only [List.exists_mem_cons_iff]
          tauto
        · exact .inr hfailed

/-! ## The whole transaction -/

/-- The row that persists a job: ready if no edge enters it, pending otherwise. -/
def DagSpec.persistedRow (spec : DagSpec) (now : ℤ) (job : JobSpec) : JobRow where
  kind := job.kind
  payload := job.payload
  maxAttempts := job.maxAttempts
  attempts := 0
  priority := job.priority
  state := if spec.dependencies.any fun edge => edge.toId == job.id then .pending else .ready
  availableAt := now
  leaseOwner := none
  leaseToken := none
  leaseExpiresAt := none
  result := none

/-- The database holds the graph and is otherwise unchanged: one row in `dags`,
one in `jobs` for each job, one in `job_dependencies` for each distinct edge. -/
structure Persisted (spec : DagSpec) (now : ℤ) (before after : Database) : Prop where
  dag : ∀ id state, after.dags.get? id = some state ↔
    (id ≠ spec.id ∧ before.dags.get? id = some state) ∨ (id = spec.id ∧ state = .running)
  job : ∀ dagId id row, after.jobs.get? (dagId, id) = some row ↔
    (dagId ≠ spec.id ∧ before.jobs.get? (dagId, id) = some row) ∨
      (dagId = spec.id ∧ ∃ job ∈ spec.jobs, job.id = id ∧ row = spec.persistedRow now job)
  dependency : ∀ row, after.dependencies.contains row = true ↔
    (row.dagId ≠ spec.id ∧ before.dependencies.contains row = true) ∨
      (row.dagId = spec.id ∧ ⟨row.parentId, row.childId⟩ ∈ spec.dependencies)
  events : after.events = before.events

theorem Persisted.get?_dags {spec : DagSpec} {now : ℤ} {before after : Database}
    (h : Persisted spec now before after) (id : String) :
    after.dags.get? id = if id = spec.id then some .running else before.dags.get? id := by
  ext state
  rw [h.dag]
  by_cases hid : id = spec.id <;> simp [hid, eq_comm]

theorem Persisted.get?_jobs_of_ne {spec : DagSpec} {now : ℤ} {before after : Database}
    (h : Persisted spec now before after) {dagId : String} (hne : dagId ≠ spec.id) (id : String) :
    after.jobs.get? (dagId, id) = before.jobs.get? (dagId, id) := by
  ext row
  rw [h.job]
  simp [hne]

theorem dependencyCounts_eq (spec : DagSpec) : PostgresStore.dependencyCounts spec =
    (Scheduler.countEdges spec.dependencies (Scheduler.zeroCounts spec.jobs) .empty).1 := by
  unfold PostgresStore.dependencyCounts
  generalize Scheduler.zeroCounts spec.jobs = counts
  generalize Table.empty = dependents
  induction spec.dependencies generalizing counts dependents with
  | nil => rfl
  | cons edge rest ih => exact ih ..

theorem DagSpec.inDegree_eq_zero_iff {spec : DagSpec} {id : String} : spec.inDegree id = 0 ↔
    ¬(spec.dependencies.any fun edge => edge.toId == id) = true := by
  rw [DagSpec.inDegree, Digraph.openInDegree_eq_zero_iff]
  simp only [DagSpec.edges, List.mem_map, Prod.mk.injEq, Bool.true_eq_false, imp_false,
    not_exists, not_and, List.any_eq_true, beq_iff_eq]
  exact ⟨fun h edge hedge htarget => h edge.fromId edge hedge rfl htarget,
    fun h _ edge hedge _ htarget => h edge hedge htarget⟩

theorem submittedRow_eq {spec : DagSpec} {job : JobSpec} (hjob : job ∈ spec.jobs) (now : ℤ) :
    PostgresStore.submittedRow (PostgresStore.dependencyCounts spec) now job =
      spec.persistedRow now job := by
  unfold PostgresStore.submittedRow DagSpec.persistedRow
  rw [dependencyCounts_eq, Scheduler.counts_get? hjob, Option.getD_some]
  by_cases hzero : spec.inDegree job.id = 0
  · rw [if_pos hzero, if_neg (DagSpec.inDegree_eq_zero_iff.mp hzero)]
  · rw [if_neg hzero, if_pos (not_not.mp (DagSpec.inDegree_eq_zero_iff.not.mp hzero))]

/-- A database that holds nothing of a graph. -/
structure Database.Unused (db : Database) (dagId : String) : Prop where
  dag : db.dags.get? dagId = none
  jobs : ∀ id, db.jobs.get? (dagId, id) = none
  dependencies : ∀ row, row.dagId = dagId → db.dependencies.contains row = false

theorem Database.ForeignKeys.unused {db : Database} (h : db.ForeignKeys) {dagId : String}
    (hfree : db.dags.get? dagId = none) : db.Unused dagId := by
  have hjobs : ∀ id, db.jobs.get? (dagId, id) = none := by
    intro id
    by_contra hrow
    obtain ⟨row, hrow⟩ := Option.ne_none_iff_exists'.mp hrow
    have := h.job dagId id row hrow
    simp [Table.contains, hfree] at this
  refine ⟨hfree, hjobs, fun row hdag => ?_⟩
  by_contra hrow
  have := (h.dependency row (Table.contains_iff.mp (by simpa using hrow))).1
  simp [Table.contains, hdag, hjobs] at this

/-- The rows of an unused identifier are those that both loops have inserted. -/
theorem Persisted.of_inserted {spec : DagSpec} {now : ℤ} {before after : Database}
    (hunused : before.Unused spec.id)
    (hdags : after.dags = before.dags.insert spec.id .running)
    (hjobs : ∀ key row, after.jobs.get? key = some row ↔ before.jobs.get? key = some row ∨
      ∃ job ∈ spec.jobs, key = (spec.id, job.id) ∧ row = spec.persistedRow now job)
    (hdependencies : ∀ row, after.dependencies.contains row = true ↔
      before.dependencies.contains row = true ∨
        ∃ edge ∈ spec.dependencies, row = edge.row spec.id)
    (hevents : after.events = before.events) : Persisted spec now before after := by
  refine ⟨fun id state => ?_, fun dagId id row => ?_, fun row => ?_, hevents⟩
  · rw [hdags, Table.get?_insert]
    by_cases hid : id = spec.id <;> simp [hid, eq_comm]
  · rw [hjobs]
    by_cases hdag : dagId = spec.id
    · subst hdag
      simp only [hunused.jobs, reduceCtorEq, false_or, ne_eq, not_true_eq_false, false_and,
        Prod.mk.injEq, true_and]
      exact exists_congr fun job => and_congr_right fun _ => and_congr_left fun _ => eq_comm
    · simp [hdag]
  · rw [hdependencies]
    by_cases hdag : row.dagId = spec.id
    · have habsent := hunused.dependencies row hdag
      have hrow : row = Dependency.row spec.id ⟨row.parentId, row.childId⟩ := by
        rw [← hdag]
        rfl
      simp only [habsent, hdag, Bool.false_eq_true, false_or, ne_eq, not_true_eq_false,
        false_and, true_and]
      constructor
      · rintro ⟨edge, hedge, heq⟩
        rw [Dependency.row_injective spec.id (heq.symm.trans hrow)] at hedge
        exact hedge
      · intro hedge
        exact ⟨_, hedge, hrow⟩
    · simp only [ne_eq, hdag, not_false_eq_true, true_and, false_and, or_false,
        or_iff_left_iff_imp]
      rintro ⟨edge, _, rfl⟩
      exact absurd rfl hdag

/-- The transaction reaches its second loop with the graph and all jobs inserted. -/
theorem submit_eq_insertDependencies {spec : DagSpec} {order : List String}
    (hvalid : spec.validate = .ok order) (hnul : ∀ job ∈ spec.jobs, hasNul job.payload = false)
    {before : Database} (hunused : before.Unused spec.id) (now : ℤ) :
    ∃ filled, PostgresStore.submit before spec now = PostgresStore.transaction before
        (PostgresStore.insertDependencies spec.id spec.dependencies filled >>= fun final =>
          .ok ((), final)) ∧
      filled.dags = before.dags.insert spec.id .running ∧
      filled.dependencies = before.dependencies ∧ filled.events = before.events ∧
      ∀ key row, filled.jobs.get? key = some row ↔ before.jobs.get? key = some row ∨
        ∃ job ∈ spec.jobs, key = (spec.id, job.id) ∧ row = spec.persistedRow now job := by
  have accepted := accepted_of_validate hvalid
  obtain ⟨hpattern, hidNul⟩ := matchesIdentifierPattern_of_validate (by decide) accepted.identifier
  have hinsert : before.insertDag spec.id =
      .ok { before with dags := before.dags.insert spec.id .running } := by
    simp [Database.insertDag, hidNul, hpattern, Table.contains, hunused.dag]
  generalize hmarked : { before with dags := before.dags.insert spec.id .running } = marked
    at hinsert
  have hjobsEq : marked.jobs = before.jobs := by rw [← hmarked]
  have hdependenciesEq : marked.dependencies = before.dependencies := by rw [← hmarked]
  have heventsEq : marked.events = before.events := by rw [← hmarked]
  have hdagsEq : marked.dags = before.dags.insert spec.id .running := by rw [← hmarked]
  obtain ⟨filled, hfilled, hdags, hdependencies, hevents, hjobs⟩ := insertJobs_ok
    (PostgresStore.dependencyCounts spec) now accepted.jobs_valid hnul
    accepted.jobIds_nodup hidNul marked (by simp [hdagsEq, Table.contains])
    (fun job _ => by simp [hjobsEq, Table.contains, hunused.jobs])
  refine ⟨filled, ?_, hdags.trans hdagsEq, hdependencies.trans hdependenciesEq,
    hevents.trans heventsEq, fun key row => ?_⟩
  · unfold PostgresStore.submit
    rw [hvalid]
    dsimp only
    rw [fromSql_eq_ok hinsert]
    dsimp only [bind, Except.bind]
    rw [hfilled]
  · rw [hjobs, hjobsEq]
    refine or_congr_right (exists_congr fun job => and_congr_right fun hjob => ?_)
    rw [submittedRow_eq hjob]

/-- Once the jobs have their rows, no edge of an accepted graph breaks a check or a
foreign key. -/
theorem Accepted.edgeInsertable {spec : DagSpec} {order : List String} (h : Accepted spec order)
    {db : Database} (hstored : ∀ id ∈ spec.jobIds, db.jobs.contains (spec.id, id) = true)
    {edge : Dependency} (hedge : edge ∈ spec.dependencies) : EdgeInsertable db spec.id edge := by
  have hnoNul : ∀ id ∈ spec.jobIds, hasNul id = false := by
    intro id hid
    obtain ⟨job, hjob, rfl⟩ := List.mem_map.mp hid
    exact (matchesIdentifierPattern_of_validate (by decide) (h.jobs_valid job hjob).identifier).2
  obtain ⟨hne, hfrom, hto⟩ := h.endpoints edge hedge
  exact ⟨hnoNul _ hfrom, hnoNul _ hto, hne, hstored _ hfrom, hstored _ hto⟩

/-- The submission of an accepted graph under a free identifier: it is persisted
when no edge is repeated, and rejected by a unique constraint otherwise. -/
theorem persist_cases {spec : DagSpec} {order : List String} (hvalid : spec.validate = .ok order)
    (hnul : ∀ job ∈ spec.jobs, hasNul job.payload = false) {before : Database}
    (hunused : before.Unused spec.id) (now : ℤ) :
    (spec.dependencies.Nodup ∧ ∃ after, PostgresStore.submit before spec now = (.ok (), after) ∧
      Persisted spec now before after) ∨
    (¬spec.dependencies.Nodup ∧
      PostgresStore.submit before spec now = (.error (.database .uniqueViolation), before)) := by
  have accepted := accepted_of_validate hvalid
  obtain ⟨_, hidNul⟩ := matchesIdentifierPattern_of_validate (by decide) accepted.identifier
  obtain ⟨filled, hsubmit, hdags, hdependencies, hevents, hjobs⟩ :=
    submit_eq_insertDependencies hvalid hnul hunused now
  have hstored : ∀ id ∈ spec.jobIds, filled.jobs.contains (spec.id, id) = true := by
    intro id hid
    obtain ⟨job, hjob, rfl⟩ := List.mem_map.mp hid
    unfold Table.contains
    rw [(hjobs _ _).mpr (.inr ⟨job, hjob, rfl, rfl⟩)]
    rfl
  have hfresh : ∀ edge ∈ spec.dependencies,
      filled.dependencies.contains (edge.row spec.id) = false := by
    intro edge _
    rw [hdependencies]
    exact hunused.dependencies _ rfl
  rw [hsubmit]
  rcases insertDependencies_cases hidNul filled fun edge => accepted.edgeInsertable hstored with
    ⟨⟨hnodup, _⟩, after, hafter, hafterDags, hafterJobs, hafterEvents, hrows⟩ | ⟨hnot, herror⟩
  · refine .inl ⟨hnodup, after, by rw [hafter]; rfl, ?_⟩
    apply Persisted.of_inserted hunused
    · rw [hafterDags, hdags]
    · rw [hafterJobs]
      exact hjobs
    · rw [← hdependencies]
      exact hrows
    · rw [hafterEvents, hevents]
  · refine .inr ⟨fun hnodup => hnot ⟨hnodup, hfresh⟩, ?_⟩
    rw [herror]
    rfl

/-! ## What any submission inserts -/

namespace PostgresStore

theorem of_fromSql_eq_ok {α : Type} {outcome : Except SqlError α} {value : α}
    (h : fromSql outcome = .ok value) : outcome = .ok value := by
  cases outcome with
  | error error => cases h
  | ok found =>
      cases h
      rfl

theorem of_insertJob_eq_ok {db after : Database} {dagId id : String} {row : JobRow}
    (h : db.insertJob dagId id row = .ok after) :
    after = db.putJob dagId id row ∧ db.jobs.get? (dagId, id) = none := by
  unfold Database.insertJob at h
  split at h
  · cases h
  split at h
  · cases h
  split at h
  · cases h
  next hfresh =>
    split at h
    · cases h
    · cases h
      exact ⟨rfl, Table.not_contains_iff.mp hfresh⟩

theorem of_insertDependency_eq_ok {db after : Database} {row : DependencyRow}
    (h : db.insertDependency row = .ok after) :
    after = db.putDependency row ∧ db.jobs.contains (row.dagId, row.parentId) = true := by
  unfold Database.insertDependency at h
  split at h
  · cases h
  split at h
  · cases h
  split at h
  · cases h
  split at h
  · cases h
  next hparents =>
    cases h
    rw [Bool.not_eq_true', Bool.not_eq_false, Bool.and_eq_true] at hparents
    exact ⟨rfl, hparents.1⟩

theorem insertJobs_inserted {dagId : String} {counts : Table String ℕ} {now : ℤ}
    {jobs : List JobSpec} {db after : Database}
    (h : insertJobs dagId counts now jobs db = .ok after) :
    after.events = db.events ∧ after.dependencies = db.dependencies ∧
      ∀ key, after.jobs.get? key = db.jobs.get? key ∨ db.jobs.get? key = none ∧
        ∃ job ∈ jobs, key = (dagId, job.id) ∧
          after.jobs.get? key = some (submittedRow counts now job) := by
  induction jobs generalizing db with
  | nil =>
      cases h
      exact ⟨rfl, rfl, fun _ => .inl rfl⟩
  | cons job rest ih =>
      rw [insertJobs] at h
      split at h
      · cases h
      · obtain ⟨middle, hinsert, hrest⟩ := except_bind_eq_ok.mp h
        obtain ⟨rfl, hfresh⟩ := of_insertJob_eq_ok (of_fromSql_eq_ok hinsert)
        obtain ⟨hevents, hdependencies, hkeys⟩ := ih hrest
        refine ⟨hevents, hdependencies, fun key => ?_⟩
        have hput : (db.putJob dagId job.id (submittedRow counts now job)).jobs.get? key =
            if key = (dagId, job.id) then some (submittedRow counts now job)
            else db.jobs.get? key := Table.get?_insert ..
        have hkeys := hkeys key
        rw [hput] at hkeys
        by_cases hkey : key = (dagId, job.id)
        · subst hkey
          rw [if_pos rfl] at hkeys
          rcases hkeys with hsame | ⟨hnone, -⟩
          · exact .inr ⟨hfresh, job, List.mem_cons_self, rfl, hsame⟩
          · cases hnone
        · rw [if_neg hkey] at hkeys
          refine hkeys.imp_right fun hnew => ?_
          obtain ⟨hnone, other, hother, hsame⟩ := hnew
          exact ⟨hnone, other, List.mem_cons_of_mem _ hother, hsame⟩

theorem insertDependencies_inserted {dagId : String} {dependencies : List Dependency}
    {db after : Database} (h : insertDependencies dagId dependencies db = .ok after) :
    after.events = db.events ∧ after.jobs = db.jobs ∧
      (∀ row, db.dependencies.contains row = true → after.dependencies.contains row = true) ∧
      ∀ edge ∈ dependencies, after.dependencies.contains (edge.row dagId) = true ∧
        db.jobs.contains (dagId, edge.fromId) = true := by
  induction dependencies generalizing db with
  | nil =>
      cases h
      exact ⟨rfl, rfl, fun _ hrow => hrow, fun _ hnone => nomatch hnone⟩
  | cons edge rest ih =>
      obtain ⟨middle, hinsert, hrest⟩ := except_bind_eq_ok.mp h
      obtain ⟨rfl, hparent⟩ := of_insertDependency_eq_ok (of_fromSql_eq_ok hinsert)
      obtain ⟨hevents, hjobs, hkept, hedges⟩ := ih hrest
      have hput := db.contains_putDependency (edge.row dagId)
      refine ⟨hevents, hjobs, fun row hrow => hkept row ((hput row).mpr (.inr hrow)), ?_⟩
      exact List.forall_mem_cons.mpr ⟨⟨hkept _ ((hput _).mpr (.inl rfl)), hparent⟩, hedges⟩

end PostgresStore

/-- The jobs and edges of a graph are added, and everything else about jobs,
edges and events stays. -/
structure Inserted (spec : DagSpec) (now : ℤ) (before after : Database) : Prop where
  events : after.events = before.events
  job : ∀ key, after.jobs.get? key = before.jobs.get? key ∨ before.jobs.get? key = none ∧
    ∃ job ∈ spec.jobs, key = (spec.id, job.id) ∧
      after.jobs.get? key = some (spec.persistedRow now job)
  dependencies : ∀ row, before.dependencies.contains row = true →
    after.dependencies.contains row = true
  edge : ∀ edge ∈ spec.dependencies, after.dependencies.contains (edge.row spec.id) = true ∧
    after.jobs.contains (spec.id, edge.fromId) = true

/-- A submission inserts an accepted graph or changes nothing, whatever the database holds. -/
theorem inserted_or_unchanged (db : Database) (spec : DagSpec) (now : ℤ) :
    (PostgresStore.submit db spec now).2 = db ∨
      ∃ order, spec.validate = .ok order ∧
        Inserted spec now db (PostgresStore.submit db spec now).2 := by
  unfold PostgresStore.submit
  split
  · exact .inl rfl
  next order hvalid =>
    cases houtcome : (do
        let db ← PostgresStore.fromSql (db.insertDag spec.id)
        let db ← PostgresStore.insertJobs spec.id (PostgresStore.dependencyCounts spec) now
          spec.jobs db
        let db ← PostgresStore.insertDependencies spec.id spec.dependencies db
        Except.ok ((), db)) with
    | error error => exact .inl rfl
    | ok result =>
        refine .inr ⟨order, hvalid, ?_⟩
        obtain ⟨marked, hmarked, houtcome⟩ := except_bind_eq_ok.mp houtcome
        obtain ⟨filled, hfilled, houtcome⟩ := except_bind_eq_ok.mp houtcome
        obtain ⟨linked, hlinked, houtcome⟩ := except_bind_eq_ok.mp houtcome
        cases houtcome
        have hdag : marked = { db with dags := db.dags.insert spec.id .running } := by
          replace hmarked := PostgresStore.of_fromSql_eq_ok hmarked
          unfold Database.insertDag at hmarked
          split at hmarked
          · cases hmarked
          split at hmarked
          · cases hmarked
          split at hmarked
          · cases hmarked
          · cases hmarked
            rfl
        subst hdag
        obtain ⟨hevents, hdependencies, hjobs⟩ := PostgresStore.insertJobs_inserted hfilled
        obtain ⟨hlinkedEvents, hlinkedJobs, hkept, hedges⟩ :=
          PostgresStore.insertDependencies_inserted hlinked
        refine ⟨hlinkedEvents.trans hevents, fun key => ?_, fun row hrow => ?_,
          fun edge hedge => ?_⟩
        · rw [show (PostgresStore.transaction db (Except.ok ((), linked))).2.jobs = filled.jobs
            from hlinkedJobs]
          refine (hjobs key).imp_right fun hnew => ?_
          obtain ⟨hnone, job, hjob, hkey, hrow⟩ := hnew
          exact ⟨hnone, job, hjob, hkey, hrow.trans (congrArg some (submittedRow_eq hjob now))⟩
        · exact hkept row (hdependencies ▸ hrow)
        · obtain ⟨hcontains, hparent⟩ := hedges edge hedge
          exact ⟨hcontains, hlinkedJobs ▸ hparent⟩

theorem submit_of_contains {db : Database} {spec : DagSpec}
    (htaken : db.dags.contains spec.id = true) (now : ℤ) :
    ∃ error, PostgresStore.submit db spec now = (.error error, db) := by
  have hinsert : ∃ error, db.insertDag spec.id = .error error := by
    unfold Database.insertDag
    rw [if_pos htaken]
    split
    · exact ⟨_, rfl⟩
    · split <;> exact ⟨_, rfl⟩
  obtain ⟨error, herror⟩ := hinsert
  unfold PostgresStore.submit
  split
  · exact ⟨_, rfl⟩
  · rw [herror]
    exact ⟨_, rfl⟩

/-- The answer that a resource exists already. -/
def alreadyExists : ErrorResponse := ⟨409, "already_exists", "resource already exists"⟩

/-- An accepted graph whose identifier is free is persisted exactly when none of
its edges is repeated.  Otherwise the client is told that the graph exists. -/
theorem submission_persisted_iff {spec : DagSpec} {order : List String}
    (hvalid : spec.validate = .ok order) (hnul : ∀ job ∈ spec.jobs, hasNul job.payload = false)
    {before : Database} (hkeys : before.ForeignKeys)
    (hfree : before.dags.get? spec.id = none) (now : ℤ) :
    (((PostgresStore.submit before spec now).1 = .ok () ∧
        Persisted spec now before (PostgresStore.submit before spec now).2) ↔
      spec.dependencies.Nodup) ∧
    ((postDag before spec now).1 = .error alreadyExists ↔ ¬spec.dependencies.Nodup) := by
  unfold postDag
  rcases persist_cases hvalid hnul (hkeys.unused hfree) now with
    ⟨hnodup, after, hsubmit, hpersisted⟩ | ⟨hrepeated, hsubmit⟩
  · rw [hsubmit]
    constructor
    · exact ⟨fun _ => hnodup, fun _ => ⟨rfl, hpersisted⟩⟩
    · exact ⟨fun hrefused => (nomatch hrefused), fun hrepeated => absurd hnodup hrepeated⟩
  · rw [hsubmit]
    constructor
    · exact ⟨fun ⟨hcommitted, _⟩ => (nomatch hcommitted), fun hnodup => absurd hnodup hrepeated⟩
    · exact ⟨fun _ => hrepeated, fun _ => rfl⟩

/-- Two jobs with an edge between them, given `copies` times. -/
def repeatedEdgeSpec (copies : ℕ) : DagSpec where
  id := "dag"
  jobs := [⟨"a", .uppercase, "", 1, 0⟩, ⟨"b", .uppercase, "", 1, 0⟩]
  dependencies := List.replicate copies ⟨"a", "b"⟩

theorem submission_persisted_iff_single :
    (repeatedEdgeSpec 1).validate = .ok ["a", "b"] ∧
    (PostgresStore.submit .empty (repeatedEdgeSpec 1) 0).1 = .ok () ∧
    Persisted (repeatedEdgeSpec 1) 0 .empty
      (PostgresStore.submit .empty (repeatedEdgeSpec 1) 0).2 :=
  have hvalid : (repeatedEdgeSpec 1).validate = .ok ["a", "b"] := by decide
  ⟨hvalid, (submission_persisted_iff hvalid (by decide) Database.ForeignKeys.empty rfl 0).1.mpr
    (by decide)⟩

/-- A valid graph with an edge given twice, submitted to an empty database, is
refused as already existing. -/
theorem repeated_edge_already_exists :
    (repeatedEdgeSpec 2).validate = .ok ["a", "b"] ∧
    (∀ job ∈ (repeatedEdgeSpec 2).jobs, hasNul job.payload = false) ∧
    Database.empty.dags.get? (repeatedEdgeSpec 2).id = none ∧
    (PostgresStore.submit .empty (repeatedEdgeSpec 2) 0).1 =
      .error (.database .uniqueViolation) ∧
    (postDag .empty (repeatedEdgeSpec 2) 0).1 = .error alreadyExists := by
  decide

end JobOrchestrator
