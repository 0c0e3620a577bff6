import JobOrchestrator.Http.Snapshot
import JobOrchestrator.Store.DependencyOrder

/-!
# Polling a graph

The command line and the dashboard poll `GET /v1/dags/{id}` while workers change
the graph, which has been submitted before.  The identifier of the poll has no NUL
character; with one, the answer is a database error.

A poll is not a transaction: its two statements see the rows committed at two
moments.  Its answer is consistent all the same, since the second statement reads
all jobs at one moment and nothing removes a graph (`poll_ok`), and two polls never
contradict each other (`polls_consistent`): whoever sees a job succeeded,
dead-lettered or cancelled sees the same for ever, attempts never go down, and a
lease that a later poll shows under the same attempt was there before.
-/

namespace JobOrchestrator

open ReadCommitted

/-! ## One poll -/

/-- The row of a job with its key in `jobs`. -/
def jobEntry : StoreKey × StoredRow → Option ((String × String) × JobRow)
  | (.job dagId jobId, .job row) => some ((dagId, jobId), row)
  | _ => none

/-- The rows of `jobs` among the stored ones. -/
def storedJobs (rows : Table StoreKey StoredRow) : List ((String × String) × JobRow) :=
  rows.entries.filterMap jobEntry

/-- `PostgresStore::snapshot` beside other transactions. -/
def pollDag (collation : Collation) (first second : Table StoreKey StoredRow) (dagId : String) :
    Except StoreError DagSnapshot := do
  PostgresStore.bindTexts [dagId]
  answerSnapshot collation dagId (first.contains (.dag dagId)) (storedJobs second)

theorem jobEntry_eq_some {entry : StoreKey × StoredRow} {dagId jobId : String} {row : JobRow} :
    jobEntry entry = some ((dagId, jobId), row) ↔ entry = (.job dagId jobId, .job row) := by
  constructor
  · intro h
    unfold jobEntry at h
    split at h <;> cases h
    rfl
  · rintro rfl
    rfl

theorem mem_storedJobs {rows : Table StoreKey StoredRow} {dagId jobId : String} {row : JobRow} :
    ((dagId, jobId), row) ∈ storedJobs rows ↔
      rows.get? (.job dagId jobId) = some (.job row) := by
  simp [storedJobs, List.mem_filterMap, jobEntry_eq_some, Table.mem_entries]

theorem storedJobs_stored (db : Database) : storedJobs db.stored = db.jobs.entries := by
  simp only [storedJobs, Database.stored, List.filterMap_append, List.filterMap_map]
  have hdags : (db.dags.entries.filterMap fun _ => (none : Option ((String × String) × JobRow))) =
      [] := List.filterMap_eq_nil_iff.mpr fun _ _ => rfl
  exact (congrArg₂ (· ++ ·) hdags List.filterMap_some).trans (List.nil_append _)

theorem nodup_storedJobs (rows : Table StoreKey StoredRow) :
    ((storedJobs rows).map Prod.fst).Nodup := by
  refine List.pairwise_map.mpr (List.Pairwise.filterMap _ ?_ (List.pairwise_map.mp rows.nodupKeys))
  intro first second hne job hjob other hother hsame
  have hfirst : first = (.job job.1.1 job.1.2, .job job.2) := jobEntry_eq_some.mp hjob
  have hsecond : second = (.job other.1.1 other.1.2, .job other.2) := jobEntry_eq_some.mp hother
  exact hne (by rw [hfirst, hsecond, hsame])

/-- Alone, a poll is the snapshot of the serial store. -/
theorem pollDag_stored (collation : Collation) (first second : Database) (dagId : String) :
    pollDag collation first.stored second.stored dagId =
      PostgresStore.snapshot collation first second dagId := by
  rw [pollDag, PostgresStore.snapshot, storedJobs_stored, contains_stored_dag]

/-! ## The rows at one moment -/

section

variable {db : Database} {allowed : StoreSystem → StoreAction → Prop} {system : StoreSystem}

/-- The rows after the first commits of a system. -/
def Database.moment (db : Database) (system : StoreSystem) (count : ℕ) :
    Table StoreKey StoredRow :=
  db.after (system.history.take count)

theorem Interleaved.contains_moment (h : Interleaved db allowed system) (count : ℕ)
    (key : StoreKey) : (db.moment system count).contains key = db.stored.contains key := by
  rw [Database.moment, Table.contains_eq_of_keys_eq
    (h.keys_after (List.take_append_drop count system.history).symm)]

end

/-! ## The items of a poll -/

/-- What a poll shows of every job. -/
structure JobSnapshot.Consistent (item : JobSnapshot) : Prop where
  attempts_le : item.attempts ≤ item.maxAttempts ∧ item.maxAttempts ≤ 20
  leaseOwner : item.leaseOwner.isSome = true ↔ item.state = .leased
  leaseExpiresAtMs : item.leaseExpiresAtMs.isSome = true ↔ item.state = .leased
  result : item.result.isSome = true ↔ item.state = .succeeded

/-- The second item may follow on the first one. -/
structure JobSnapshot.Precedes (earlier later : JobSnapshot) : Prop where
  id : later.id = earlier.id ∧ later.maxAttempts = earlier.maxAttempts
  attempts_le : earlier.attempts ≤ later.attempts
  terminal : earlier.state = .succeeded ∨ earlier.state = .deadLettered ∨
    earlier.state = .cancelled → later = earlier
  pending : later.state = .pending → later = earlier
  ready : later.state = .ready → earlier.state = .pending ∨ later = earlier
  leased : later.state = .leased → later.attempts = earlier.attempts →
    earlier.state = .leased ∧ earlier.leaseOwner = later.leaseOwner

theorem JobRow.Consistent.snapshot {row : JobRow} (h : row.Consistent) (jobId : String) :
    (row.snapshot jobId).Consistent where
  attempts_le := ⟨h.attempts_le, h.budget.2⟩
  leaseOwner := by
    by_cases hleased : row.state = .leased
    · exact iff_of_true (h.leased hleased).1 hleased
    · exact iff_of_false (by simp [JobRow.snapshot, (h.unleased hleased).1]) hleased
  leaseExpiresAtMs := by
    by_cases hleased : row.state = .leased
    · exact iff_of_true (by simp [JobRow.snapshot, (h.leased hleased).2.2]) hleased
    · exact iff_of_false (by simp [JobRow.snapshot, (h.unleased hleased).2.2]) hleased
  result := h.result

theorem JobRow.Precedes.snapshot {earlier later : JobRow} (h : earlier.Precedes later)
    (jobId : String) : (earlier.snapshot jobId).Precedes (later.snapshot jobId) where
  id := ⟨rfl, h.bounds.1⟩
  attempts_le := h.attempts_le
  terminal hterminal := by rw [h.terminal hterminal]
  pending hpending := by rw [h.pending hpending]
  ready hready := (h.ready hready).imp_right fun hsame => by rw [hsame]
  leased hleased hattempts :=
    have hbefore := h.leased hleased hattempts
    ⟨hbefore.1, hbefore.2.1⟩

/-- The items show the whole graph in ascending order, and no job before its dependencies. -/
structure ShowsGraph (collation : Collation) (spec : DagSpec) (items : List JobSnapshot) :
    Prop where
  ascending : items.Pairwise fun first second => collation.lt first.id second.id
  ids : (items.map JobSnapshot.id).Perm spec.jobIds
  consistent : ∀ item ∈ items, item.Consistent
  dependencies : ∀ edge ∈ spec.dependencies, ∀ child ∈ items, child.id = edge.toId →
    child.state ≠ .pending → child.state ≠ .cancelled →
    ∃ parent ∈ items, parent.id = edge.fromId ∧ parent.state = .succeeded

/-! ## Polls beside other transactions -/

section

variable {db : Database} {allowed : StoreSystem → StoreAction → Prop} {system : StoreSystem}
  {spec : DagSpec} {now : ℤ}

theorem Interleaved.row_at (hdb : db.Submitted) (h : Interleaved db allowed system)
    (hholds : db.HoldsGraph spec now) {job : JobSpec} (hjob : job ∈ spec.jobs) (count : ℕ) :
    ∃ row, (db.moment system count).get? (.job spec.id job.id) = some (.job row) ∧
      row.Consistent := by
  have hfirst := (hholds.job job.id _).mpr ⟨job, hjob, rfl, rfl⟩
  have hsplit : system.history =
      system.history.take count ++ system.history.drop count ++ [] := by simp
  obtain ⟨row, -, hrow, -, hconsistent, -⟩ := h.progress hdb hsplit hfirst
  exact ⟨row, hrow, hconsistent⟩

/-- Under the identifier of a held graph there are the jobs of its specification. -/
theorem Interleaved.exists_job_of_row (h : Interleaved db allowed system)
    (hholds : db.HoldsGraph spec now) {count : ℕ} {jobId : String} {stored : StoredRow}
    (hstored : (db.moment system count).get? (.job spec.id jobId) = some stored) :
    ∃ job ∈ spec.jobs, job.id = jobId := by
  have hkey := h.contains_moment count (.job spec.id jobId)
  rw [Table.contains, hstored] at hkey
  obtain ⟨first, hfirst⟩ := Option.isSome_iff_exists.mp hkey.symm
  obtain ⟨row, hrow, -⟩ := (get?_stored_job db spec.id jobId first).mp hfirst
  obtain ⟨job, hjob, hid, -⟩ := (hholds.job jobId row).mp hrow
  exact ⟨job, hjob, hid⟩

/-- A poll of a known graph succeeds and shows the rows of the second moment. -/
theorem Interleaved.poll_ok (hdb : db.Submitted) (h : Interleaved db allowed system)
    (hholds : db.HoldsGraph spec now) (collation : Collation) (first second : ℕ) :
    ∃ items, pollDag collation (db.moment system first) (db.moment system second) spec.id =
        .ok ⟨spec.id, items⟩ ∧
      items.Pairwise (fun first second => collation.lt first.id second.id) ∧
      ∀ item, item ∈ items ↔ ∃ job ∈ spec.jobs, ∃ row,
        (db.moment system second).get? (.job spec.id job.id) = some (.job row) ∧
          item = row.snapshot job.id := by
  have hbind : PostgresStore.bindTexts [spec.id] = .ok () :=
    PostgresStore.bindTexts_eq_ok_iff.mpr (List.forall_mem_singleton.mpr hholds.hasNul_id)
  have hknown : (db.moment system first).contains (.dag spec.id) = true := by
    rw [h.contains_moment, contains_stored_dag, Table.contains, hholds.dag]
    rfl
  have hcounts : ∀ jobId row, ((spec.id, jobId), row) ∈ storedJobs (db.moment system second) →
      row.attempts < 2 ^ 16 ∧ row.maxAttempts < 2 ^ 16 := by
    intro jobId row hrow
    have hlookup := mem_storedJobs.mp hrow
    obtain ⟨job, hjob, rfl⟩ := h.exists_job_of_row hholds hlookup
    obtain ⟨found, hfound, hconsistent⟩ := h.row_at hdb hholds hjob second
    cases hlookup.symm.trans hfound
    have hle := hconsistent.attempts_le
    have hbudget := hconsistent.budget.2
    omega
  obtain ⟨items, hanswer, hascending, hitems⟩ := answerSnapshot_known collation spec.id
    (nodup_storedJobs (db.moment system second)) hcounts
  refine ⟨items, ?_, hascending, fun item => ?_⟩
  · rw [pollDag, hbind, hknown]
    exact hanswer
  · rw [hitems]
    constructor
    · rintro ⟨jobId, row, hrow, rfl⟩
      have hlookup := mem_storedJobs.mp hrow
      obtain ⟨job, hjob, rfl⟩ := h.exists_job_of_row hholds hlookup
      exact ⟨job, hjob, row, hlookup, rfl⟩
    · rintro ⟨job, -, row, hrow, rfl⟩
      exact ⟨job.id, row, mem_storedJobs.mpr hrow, rfl⟩

theorem Interleaved.showsGraph (hdb : db.Submitted) (h : Interleaved db allowed system)
    (hholds : db.HoldsGraph spec now) {collation : Collation} {count : ℕ}
    {items : List JobSnapshot}
    (hascending : items.Pairwise fun first second => collation.lt first.id second.id)
    (hitems : ∀ item, item ∈ items ↔ ∃ job ∈ spec.jobs, ∃ row,
      (db.moment system count).get? (.job spec.id job.id) = some (.job row) ∧
        item = row.snapshot job.id) : ShowsGraph collation spec items where
  ascending := hascending
  ids := by
    obtain ⟨order, haccepted⟩ := hholds.accepted
    have hnodup : (items.map JobSnapshot.id).Nodup := by
      refine List.pairwise_map.mpr (hascending.imp fun {first second} hlt hsame => ?_)
      exact irrefl_of collation.lt second.id (hsame ▸ hlt)
    rw [List.perm_ext_iff_of_nodup hnodup haccepted.jobIds_nodup]
    intro jobId
    simp only [List.mem_map, hitems, DagSpec.jobIds]
    constructor
    · rintro ⟨_, ⟨job, hjob, row, -, rfl⟩, rfl⟩
      exact ⟨job, hjob, rfl⟩
    · rintro ⟨job, hjob, rfl⟩
      obtain ⟨row, hrow, -⟩ := h.row_at hdb hholds hjob count
      exact ⟨_, ⟨job, hjob, row, hrow, rfl⟩, rfl⟩
  consistent := by
    intro item hitem
    obtain ⟨job, hjob, row, hrow, rfl⟩ := (hitems item).mp hitem
    obtain ⟨found, hfound, hconsistent⟩ := h.row_at hdb hholds hjob count
    cases hrow.symm.trans hfound
    exact hconsistent.snapshot job.id
  dependencies := by
    intro edge hedge child hchild hid hpending hcancelled
    obtain ⟨job, hjob, row, hrow, rfl⟩ := (hitems child).mp hchild
    have hdependency := Table.contains_iff.mp
      ((hholds.dependency (edge.row spec.id) rfl).mpr hedge)
    have hjobId : job.id = edge.toId := hid
    rw [Dependency.row, ← hjobId] at hdependency
    obtain ⟨parent, hparent, hsucceeded⟩ := h.parent_succeeded hdb
      (List.take_append_drop count system.history).symm hdependency hrow ⟨hpending, hcancelled⟩
    obtain ⟨parentJob, hparentJob, hparentId⟩ := h.exists_job_of_row hholds hparent
    exact ⟨parent.snapshot edge.fromId, (hitems _).mpr
      ⟨parentJob, hparentJob, parent, hparentId ▸ hparent, by rw [hparentId]⟩, rfl, hsucceeded⟩

theorem Interleaved.precedes_at (hdb : db.Submitted) (h : Interleaved db allowed system)
    (hholds : db.HoldsGraph spec now) {job : JobSpec} (hjob : job ∈ spec.jobs)
    {count count' : ℕ} (hle : count ≤ count') {earlier later : JobRow}
    (hearlier : (db.moment system count).get? (.job spec.id job.id) = some (.job earlier))
    (hlater : (db.moment system count').get? (.job spec.id job.id) = some (.job later)) :
    earlier.Precedes later := by
  have hfirst := (hholds.job job.id _).mpr ⟨job, hjob, rfl, rfl⟩
  have hupto : system.history.take count ++ (system.history.take count').drop count =
      system.history.take count' := by
    conv_rhs => rw [← List.take_append_drop count (system.history.take count')]
    rw [List.take_take, min_eq_left hle]
  have hsplit : system.history = system.history.take count ++
      (system.history.take count').drop count ++ system.history.drop count' := by
    rw [hupto, List.take_append_drop]
  obtain ⟨first, second, hfirst, hsecond, -, -, -, hprecedes, -⟩ := h.progress hdb hsplit hfirst
  rw [hupto] at hsecond
  cases hearlier.symm.trans hfirst
  cases hlater.symm.trans hsecond
  exact hprecedes

end

/-- Polls beside any number of workers.  Of a graph that was never submitted no poll
finds anything; of any other graph every poll shows all jobs in a consistent state,
and where the rows of the second poll are read at a later moment than those of the
first one, the two answers list the same jobs and every item may follow on its
predecessor. -/
theorem polls_consistent {db : Database} (hdb : db.Submitted) {system : StoreSystem}
    (hrun : Interleaved db anyAction system) (collation : Collation) {dagId : String}
    (hnul : hasNul dagId = false) {second second' : ℕ} (hle : second ≤ second')
    (first first' : ℕ) :
    (db.dags.contains dagId = false ∧
      pollDag collation (db.moment system first) (db.moment system second) dagId =
        .error .notFound ∧
      pollDag collation (db.moment system first') (db.moment system second') dagId =
        .error .notFound) ∨
    ∃ spec now earlier later, spec.id = dagId ∧ db.HoldsGraph spec now ∧
      pollDag collation (db.moment system first) (db.moment system second) dagId =
        .ok ⟨dagId, earlier⟩ ∧
      pollDag collation (db.moment system first') (db.moment system second') dagId =
        .ok ⟨dagId, later⟩ ∧
      ShowsGraph collation spec earlier ∧ ShowsGraph collation spec later ∧
      List.Forall₂ JobSnapshot.Precedes earlier later := by
  by_cases hknown : db.dags.contains dagId = true
  · right
    obtain ⟨spec, now, rfl, hholds⟩ := hdb.holds.2 dagId hknown
    obtain ⟨earlier, hpoll, hascending, hitems⟩ := hrun.poll_ok hdb hholds collation first second
    obtain ⟨later, hpoll', hascending', hitems'⟩ :=
      hrun.poll_ok hdb hholds collation first' second'
    have hshown := hrun.showsGraph hdb hholds hascending hitems
    have hshown' := hrun.showsGraph hdb hholds hascending' hitems'
    refine ⟨spec, now, earlier, later, rfl, hholds, hpoll, hpoll', hshown, hshown', ?_⟩
    -- both lists are ascending and have the same identifiers
    have hsorted : ∀ {items : List JobSnapshot},
        items.Pairwise (fun first second => collation.lt first.id second.id) →
        (items.map JobSnapshot.id).Pairwise fun first second =>
          collation.lt (id first) (id second) :=
      fun hitems => List.pairwise_map.mpr hitems
    have hids : earlier.map JobSnapshot.id = later.map JobSnapshot.id :=
      Sorting.eq_of_ascending (hsorted hascending) (hsorted hascending')
        (hshown.ids.trans hshown'.ids.symm)
    refine Sorting.forall₂_of_map_eq hids fun item hitem item' hitem' hsame => ?_
    obtain ⟨job, hjob, row, hrow, rfl⟩ := (hitems item).mp hitem
    obtain ⟨job', hjob', row', hrow', rfl⟩ := (hitems' item').mp hitem'
    have hjobId : job.id = job'.id := hsame
    rw [← hjobId] at hrow' ⊢
    exact (hrun.precedes_at hdb hholds hjob hle hrow hrow').snapshot job.id
  · left
    rw [Bool.not_eq_true] at hknown
    have hbind : PostgresStore.bindTexts [dagId] = .ok () :=
      PostgresStore.bindTexts_eq_ok_iff.mpr (List.forall_mem_singleton.mpr hnul)
    have hpoll : ∀ first second,
        pollDag collation (db.moment system first) (db.moment system second) dagId =
          .error .notFound := by
      intro first second
      rw [pollDag, hbind, hrun.contains_moment, contains_stored_dag, hknown]
      rfl
    exact ⟨hknown, hpoll first second, hpoll first' second'⟩

/-- A poll after both parents are claimed, and one after the child is claimed. -/
theorem polls_consistent_join : ∃ earlier later,
    pollDag .codePoints (joinDatabase.moment (joinDatabase.systemAfter joinedActions) 0)
      (joinDatabase.moment (joinDatabase.systemAfter joinedActions) 2) "join" =
        .ok ⟨"join", earlier⟩ ∧
    pollDag .codePoints (joinDatabase.moment (joinDatabase.systemAfter joinedActions) 3)
      (joinDatabase.moment (joinDatabase.systemAfter joinedActions) 5) "join" =
        .ok ⟨"join", later⟩ ∧
    List.Forall₂ JobSnapshot.Precedes earlier later ∧
    earlier.map JobSnapshot.state = [.pending, .leased, .leased] ∧
    later.map JobSnapshot.state = [.leased, .succeeded, .succeeded] := by
  have hjoin : joinDatabase.Submitted := .submit _ 0 .empty
  rcases polls_consistent hjoin interleaved_joined .codePoints
    (show hasNul "join" = false by decide) (show 2 ≤ 5 by decide) 0 3 with
    ⟨hunknown, -⟩ | ⟨spec, now, earlier, later, -, -, hpoll, hpoll', -, -, hprecedes⟩
  · have hknown : joinDatabase.dags.contains "join" = true := by decide
    cases hknown.symm.trans hunknown
  · refine ⟨earlier, later, hpoll, hpoll', hprecedes, ?_, ?_⟩
    · have hstates : (pollDag .codePoints
          (joinDatabase.moment (joinDatabase.systemAfter joinedActions) 0)
          (joinDatabase.moment (joinDatabase.systemAfter joinedActions) 2) "join").toOption.map
          (fun view => view.jobs.map JobSnapshot.state) = some [.pending, .leased, .leased] := by
        decide
      rw [hpoll] at hstates
      exact Option.some.inj hstates
    · have hstates : (pollDag .codePoints
          (joinDatabase.moment (joinDatabase.systemAfter joinedActions) 3)
          (joinDatabase.moment (joinDatabase.systemAfter joinedActions) 5) "join").toOption.map
          (fun view => view.jobs.map JobSnapshot.state) =
          some [.leased, .succeeded, .succeeded] := by decide
      rw [hpoll'] at hstates
      exact Option.some.inj hstates

end JobOrchestrator
