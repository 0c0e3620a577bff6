import JobOrchestrator.Store.Postgres

/-!
# What the operations of the durable store do

One lemma for each operation that runs alone: which requests are refused, and
what becomes of every row when a request is granted.  A compare-and-set on a
lease touches the row of one job, so that `rows_affected` is zero or one; the
claim takes the first candidate in the order of the query.
-/

namespace JobOrchestrator

namespace Database

/-- An `UPDATE` rewrites the rows it applies to and leaves the others alone. -/
theorem get?_execute (db : Database) (statement : JobUpdate) (dagId jobId : String) :
    (db.execute statement).2.jobs.get? (dagId, jobId) =
      (db.jobs.get? (dagId, jobId)).map fun row =>
        if statement.applies db.snapshot dagId jobId row then statement.set row else row :=
  Table.get?_mapValues ..

theorem rowsAffected_execute (db : Database) (statement : JobUpdate) :
    (db.execute statement).1 = db.jobs.countValues fun key row =>
      statement.applies db.snapshot key.1 key.2 row := rfl

@[simp] theorem dags_execute (db : Database) (statement : JobUpdate) :
    (db.execute statement).2.dags = db.dags := rfl

@[simp] theorem dependencies_execute (db : Database) (statement : JobUpdate) :
    (db.execute statement).2.dependencies = db.dependencies := rfl

@[simp] theorem jobs_insertEvent (db : Database) (dagId jobId eventType owner : String) :
    (db.insertEvent dagId jobId eventType owner).jobs = db.jobs := by
  unfold insertEvent
  split <;> rfl

@[simp] theorem dags_insertEvent (db : Database) (dagId jobId eventType owner : String) :
    (db.insertEvent dagId jobId eventType owner).dags = db.dags := by
  unfold insertEvent
  split <;> rfl

@[simp] theorem dependencies_insertEvent (db : Database) (dagId jobId eventType owner : String) :
    (db.insertEvent dagId jobId eventType owner).dependencies = db.dependencies := by
  unfold insertEvent
  split <;> rfl

/-- The caller holds the lease of a job. -/
def Holds (db : Database) (dagId jobId owner : String) (token : Uuid) (now : ℤ) : Prop :=
  ∃ row, db.jobs.get? (dagId, jobId) = some row ∧
    leaseMatches dagId jobId owner token now dagId jobId row = true

/-- A compare-and-set changes one row if the caller holds the lease, none otherwise. -/
theorem rowsAffected_of_leaseMatches (db : Database) (statement : JobUpdate)
    {dagId jobId owner : String} {token : Uuid} {now : ℤ}
    (happlies : ∀ snapshot, statement.applies snapshot = leaseMatches dagId jobId owner token now) :
    (db.Holds dagId jobId owner token now ∧ (db.execute statement).1 = 1) ∨
    (¬db.Holds dagId jobId owner token now ∧ (db.execute statement).1 = 0) := by
  have hcount : (db.execute statement).1 =
      if (db.jobs.get? (dagId, jobId)).any
        (leaseMatches dagId jobId owner token now dagId jobId) then 1 else 0 := by
    rw [rowsAffected_execute]
    simp only [happlies]
    refine Table.countValues_eq_of_key (dagId, jobId) fun other row _ hmatches => ?_
    obtain ⟨dagId', jobId'⟩ := other
    simp only [leaseMatches, Bool.and_eq_true, decide_eq_true_eq] at hmatches
    rw [hmatches.1.1.1.1.1, hmatches.1.1.1.1.2]
  rw [hcount]
  by_cases hholds : db.Holds dagId jobId owner token now
  · exact .inl ⟨hholds, if_pos ((Option.any_eq_true ..).mpr hholds)⟩
  · exact .inr ⟨hholds, if_neg fun hany => hholds ((Option.any_eq_true ..).mp hany)⟩

/-! ## The candidates of a claim -/

/-- The first candidate in the order of the query. -/
structure Picks (db : Database) (now : ℤ) (key : String × String) (row : JobRow) : Prop where
  stored : db.jobs.get? key = some row
  candidate : claimCandidate now db.snapshot key.1 key.2 row = true
  least : ∀ other row', db.jobs.get? other = some row' →
    claimCandidate now db.snapshot other.1 other.2 row' = true →
    claimRank key row ≤ claimRank other row'

theorem claimQueue_cases (db : Database) (now : ℤ) :
    (∃ key row, (db.claimQueue now).head? = some (key, row) ∧ db.Picks now key row) ∨
    ((db.claimQueue now).head? = none ∧ ∀ key row, db.jobs.get? key = some row →
      claimCandidate now db.snapshot key.1 key.2 row = false) := by
  have hmem : ∀ key row, (key, row) ∈ db.claimQueue now ↔ db.jobs.get? key = some row ∧
      claimCandidate now db.snapshot key.1 key.2 row = true := by
    intro key row
    unfold claimQueue
    rw [List.mem_insertionSort, List.mem_filter, Table.mem_entries]
  cases hqueue : db.claimQueue now with
  | nil =>
      refine .inr ⟨rfl, fun key row hrow => ?_⟩
      have hnot := (hmem key row).not.mp (by simp [hqueue])
      simpa [hrow] using hnot
  | cons first rest =>
      obtain ⟨key, row⟩ := first
      obtain ⟨hstored, hcandidate⟩ := (hmem key row).mp (by simp [hqueue])
      refine .inl ⟨key, row, rfl, hstored, hcandidate, fun other row' hrow' hcandidate' => ?_⟩
      have hsorted : (db.claimQueue now).Pairwise fun first second =>
          claimRank first.1 first.2 ≤ claimRank second.1 second.2 := by
        unfold claimQueue
        exact List.pairwise_insertionSort _ _
      have hother := (hmem other row').mpr ⟨hrow', hcandidate'⟩
      rw [hqueue] at hother hsorted
      rcases List.mem_cons.mp hother with hsame | hrest
      · cases hsame
        exact le_rfl
      · exact (List.pairwise_cons.mp hsorted).1 _ hrest

end Database

namespace PostgresStore

theorem bindTexts_eq_ok_iff {texts : List String} :
    bindTexts texts = .ok () ↔ ∀ text ∈ texts, hasNul text = false := by
  unfold bindTexts
  by_cases hnul : texts.any hasNul = true
  · rw [if_pos hnul]
    simpa using hnul
  · rw [if_neg hnul]
    simpa using hnul

theorem bindTexts_cases (texts : List String) :
    bindTexts texts = .ok () ∨ bindTexts texts = .error (.database .invalidText) := by
  unfold bindTexts
  split
  · exact .inr rfl
  · exact .inl rfl

theorem validateOwnerAndLease_eq_ok_iff {owner : String} {leaseMs : ℤ} :
    validateOwnerAndLease owner leaseMs = .ok () ↔
      owner.isEmpty = false ∧ owner.utf8ByteSize ≤ 64 ∧ 1 ≤ leaseMs ∧ leaseMs ≤ 60000 := by
  unfold validateOwnerAndLease
  split
  next hinvalid =>
    simp only [reduceCtorEq, false_iff]
    rintro ⟨hempty, hsize, hlow, hhigh⟩
    simp [hempty, hlow, hhigh, not_lt.mpr hsize] at hinvalid
  next hvalid =>
    rw [Bool.not_eq_true, Bool.or_eq_false_iff, Bool.or_eq_false_iff, Bool.not_eq_false',
      Bool.and_eq_true, decide_eq_true_eq, decide_eq_true_eq, decide_eq_false_iff_not,
      not_lt] at hvalid
    exact iff_of_true rfl ⟨hvalid.1.1, hvalid.1.2, hvalid.2⟩

theorem validateOwnerAndLease_cases (owner : String) (leaseMs : ℤ) :
    validateOwnerAndLease owner leaseMs = .ok () ∨
      validateOwnerAndLease owner leaseMs = .error .invalidConfiguration := by
  unfold validateOwnerAndLease
  split
  · exact .inr rfl
  · exact .inl rfl

/-- A claim of a valid owner and duration reaps, and then takes the first
candidate or finds none. -/
theorem claim_cases (db : Database) {owner : String} {leaseMs : ℤ}
    (hvalid : validateOwnerAndLease owner leaseMs = .ok ()) (hnul : hasNul owner = false)
    (token : Uuid) (now : ℤ) :
    (∃ key row, (reapInTransaction db now).2.Picks now key row ∧
      claim db owner leaseMs token now =
        (let granted := grantCandidate (reapInTransaction db now).2 key row owner token leaseMs now
        (.ok (some granted.1), granted.2))) ∨
    ((∀ key row, (reapInTransaction db now).2.jobs.get? key = some row →
        claimCandidate now (reapInTransaction db now).2.snapshot key.1 key.2 row = false) ∧
      claim db owner leaseMs token now = (.ok none, (reapInTransaction db now).2)) := by
  have hbind : bindTexts [owner] = .ok () := bindTexts_eq_ok_iff.mpr (by simpa using hnul)
  unfold claim
  rw [hvalid, hbind]
  dsimp only [bind, Except.bind]
  rcases (reapInTransaction db now).2.claimQueue_cases now with
    ⟨key, row, hhead, hpicks⟩ | ⟨hhead, hnone⟩
  · rw [hhead]
    exact .inl ⟨key, row, hpicks, rfl⟩
  · rw [hhead]
    exact .inr ⟨hnone, rfl⟩

/-! ## Compare-and-set on a lease -/

theorem heartbeat_cases (db : Database) {dagId jobId owner : String} {leaseMs : ℤ}
    (hvalid : validateOwnerAndLease owner leaseMs = .ok ())
    (htexts : bindTexts [dagId, jobId, owner] = .ok ()) (token : Uuid) (now : ℤ) :
    (db.Holds dagId jobId owner token now ∧
      heartbeat db dagId jobId owner token leaseMs now =
        (.ok (), (db.execute (heartbeatStatement dagId jobId owner token leaseMs now)).2)) ∨
    (¬db.Holds dagId jobId owner token now ∧
      heartbeat db dagId jobId owner token leaseMs now = (.error .leaseConflict, db)) := by
  unfold heartbeat
  rw [hvalid, htexts]
  dsimp only [bind, Except.bind]
  rcases db.rowsAffected_of_leaseMatches
    (heartbeatStatement dagId jobId owner token leaseMs now) (fun _ => rfl) with
    ⟨hholds, hcount⟩ | ⟨hnot, hcount⟩
  · rw [hcount]
    exact .inl ⟨hholds, rfl⟩
  · rw [hcount]
    exact .inr ⟨hnot, rfl⟩

theorem complete_cases (db : Database) {dagId jobId owner result : String}
    (hsize : result.utf8ByteSize ≤ maxPayloadBytes)
    (htexts : bindTexts [dagId, jobId, owner, result] = .ok ()) (token : Uuid) (now : ℤ) :
    (db.Holds dagId jobId owner token now ∧
      complete db dagId jobId owner token result now =
        (.ok (), (((db.execute (completeStatement dagId jobId owner token result now)).2.execute
          (releaseStatement dagId jobId now)).2).insertEvent dagId jobId "succeeded" owner)) ∨
    (¬db.Holds dagId jobId owner token now ∧
      complete db dagId jobId owner token result now = (.error .leaseConflict, db)) := by
  unfold complete
  rw [if_neg (not_lt.mpr hsize), htexts]
  dsimp only [bind, Except.bind]
  rcases db.rowsAffected_of_leaseMatches
    (completeStatement dagId jobId owner token result now) (fun _ => rfl) with
    ⟨hholds, hcount⟩ | ⟨hnot, hcount⟩
  · rw [hcount]
    exact .inl ⟨hholds, rfl⟩
  · rw [hcount]
    exact .inr ⟨hnot, rfl⟩

theorem fail_cases (db : Database) {dagId jobId owner : String}
    (htexts : bindTexts [dagId, jobId, owner] = .ok ()) (token : Uuid) (now : ℤ) :
    (∃ row, db.jobs.get? (dagId, jobId) = some row ∧
      leaseMatches dagId jobId owner token now dagId jobId row = true ∧
      fail db dagId jobId owner token now = (.ok (retryRow now row).state,
        ((db.execute (failStatement dagId jobId owner token now)).2).insertEvent dagId jobId
          (stateName (retryRow now row).state) owner)) ∨
    (¬db.Holds dagId jobId owner token now ∧
      fail db dagId jobId owner token now = (.error .leaseConflict, db)) := by
  unfold fail
  rw [htexts]
  dsimp only [bind, Except.bind]
  rcases db.rowsAffected_of_leaseMatches
    (failStatement dagId jobId owner token now) (fun _ => rfl) with
    ⟨⟨row, hrow, hmatches⟩, hcount⟩ | ⟨hnot, hcount⟩
  · have hretried : (db.execute (failStatement dagId jobId owner token now)).2.jobs.get?
        (dagId, jobId) = some (retryRow now row) := by
      rw [Database.get?_execute, hrow, Option.map_some]
      exact congrArg some (if_pos hmatches)
    rw [hcount, if_neg one_ne_zero, hretried]
    exact .inl ⟨row, hrow, hmatches, rfl⟩
  · rw [hcount]
    exact .inr ⟨hnot, rfl⟩

theorem cancel_cases (db : Database) {dagId : String} (hnul : hasNul dagId = false) :
    (db.dags.contains dagId = true ∧ cancel db dagId =
      (.ok ((db.execute (cancelStatement dagId)).1),
        { (db.execute (cancelStatement dagId)).2 with
          dags := db.dags.modify dagId fun _ => .cancelled })) ∨
    (db.dags.contains dagId = false ∧ cancel db dagId = (.error .notFound, db)) := by
  have hbind : bindTexts [dagId] = .ok () := bindTexts_eq_ok_iff.mpr (by simpa using hnul)
  unfold cancel
  rw [hbind]
  dsimp only [bind, Except.bind]
  cases hdag : db.dags.contains dagId with
  | false => exact .inr ⟨rfl, rfl⟩
  | true => exact .inl ⟨rfl, rfl⟩

end PostgresStore

end JobOrchestrator
