import JobOrchestrator.Library.Guards
import JobOrchestrator.Store.Progression
import JobOrchestrator.Store.Release

/-!
# No job before its dependencies

The graphs have been submitted before, and no submission overlaps.  The release of
the children reads their parents without a lock, and two overlapping
completions can lose a release (`lost_release_overlapping`).  They cannot release a
child too early: that all parents have succeeded is a guard that names final rows
only, so it still holds when the release commits, and ever after.  Along the edges
the guard reaches all ancestors, and in the history it orders the commits: before a
job is claimed for the first time, all its ancestors have committed their completion.
-/

namespace JobOrchestrator

open ReadCommitted

/-! ## The guard of a released job -/

/-- The job has been released, and it was not cancelled. -/
def JobRow.Released (row : JobRow) : Prop := row.state ≠ .pending ∧ row.state ≠ .cancelled

/-- Under the key of a job there is the row of a released one. -/
def StoredReleased : StoreKey → StoredRow → Prop
  | .job _ _, .job row => row.Released
  | _, _ => False

/-- All parents of a job are there, and they have succeeded. -/
def ParentsDone (dependencies : List DependencyRow) (rows : Table StoreKey StoredRow) :
    StoreKey → Prop
  | .job dagId jobId => ∀ parentId, ⟨dagId, parentId, jobId⟩ ∈ dependencies →
      ∃ stored, rows.get? (.job dagId parentId) = some stored ∧
        ∀ row, stored = .job row → row.state = .succeeded
  | .dag _ => True

theorem released_of_leased {row : JobRow} (hleased : row.state = .leased) : row.Released := by
  simp [JobRow.Released, hleased]

theorem RowChange.released {dagId jobId : String} {program : Transaction} {index : ℕ}
    {label : StatementLabel} {old new : JobRow}
    (h : RowChange dagId jobId program index label old new) (hnew : new.Released) :
    old.Released ∨ label = .release := by
  cases h with
  | reapFirst owner token leaseMs now hstate => exact .inl (released_of_leased hstate)
  | claim owner token leaseMs now hstate =>
      rcases hstate with hstate | hstate <;> simp [JobRow.Released, hstate]
  | heartbeat owner token leaseMs now hmatches =>
      exact .inl (released_of_leased (leaseMatches_cases hmatches).2.2.1)
  | complete owner token result now hmatches =>
      exact .inl (released_of_leased (leaseMatches_cases hmatches).2.2.1)
  | release parentId owner token result now hstate => exact .inr rfl
  | fail owner token now hmatches =>
      exact .inl (released_of_leased (leaseMatches_cases hmatches).2.2.1)
  | reap now hstate => exact .inl (released_of_leased hstate)
  | cancel hopen => exact absurd rfl hnew.2

/-- Who releases a job has seen its parents succeeded. -/
theorem parentsDone_of_release {db : Database} (hkeys : db.ForeignKeys) {program : Transaction}
    {counts : List ℕ} {statement : Statement StoreKey StoredRow StatementLabel}
    (hscript : command db.dependencies.keys program counts = .execute statement)
    {snapshot : Table StoreKey StoredRow} (hcovers : Covers db.stored snapshot)
    {dagId jobId : String} {row : JobRow}
    (happlies : statement.applies snapshot (.job dagId jobId) (.job row) = true)
    (hlabel : statement.label = .release) :
    ParentsDone db.dependencies.keys snapshot (.job dagId jobId) := by
  have hexecutes := executes_of_command hscript
  generalize counts.length = index at hexecutes
  have hparents : (snapshotOf db.dependencies.keys snapshot).parentsSucceeded dagId jobId =
      true := by
    cases hexecutes with
    | release dagId' parentId owner token result now =>
        simp only [JobUpdate.statement, releaseStatement, Bool.and_eq_true,
          decide_eq_true_eq] at happlies
        exact happlies.2
    | markDag => cases hlabel
    | _ => cases hlabel
  intro parentId hedge
  have hstored : db.stored.contains (.job dagId parentId) = true := by
    obtain ⟨parent, hparent⟩ := Option.isSome_iff_exists.mp (hkeys.dependency _ hedge).1
    rw [Table.contains,
      (get?_stored_job db dagId parentId (.job parent)).mpr ⟨parent, hparent, rfl⟩]
    rfl
  obtain ⟨stored, hparent⟩ := Option.isSome_iff_exists.mp (hcovers _ hstored)
  refine ⟨stored, hparent, ?_⟩
  rintro parent rfl
  exact Snapshot.parentsSucceeded_iff.mp hparents _ hedge rfl rfl parent
    (job?_snapshotOf.mpr hparent)

theorem guards_release {db : Database} (hkeys : db.ForeignKeys) :
    Guards (command db.dependencies.keys) db.stored StoredTerminal
      (ParentsDone db.dependencies.keys) StoredReleased where
  final := final_storedTerminal _
  lasts := by
    intro first second key hretains hdone
    cases key with
    | dag id => trivial
    | job dagId jobId =>
        intro parentId hedge
        obtain ⟨stored, hstored, hsucceeded⟩ := hdone parentId hedge
        refine ⟨stored, hretains _ _ hstored ?_, hsucceeded⟩
        cases stored with
        | dag state => trivial
        | job row => exact .inl (hsucceeded row rfl)
  seen := by
    intro program counts statement snapshot key stored hscript hcovers happlies hreleased
    cases key with
    | dag id => exact hreleased.elim
    | job dagId jobId =>
        cases stored with
        | dag state =>
            -- the row of a job is of the other kind
            have hterminal : StoredTerminal (.job dagId jobId) (.dag state) := trivial
            rw [final_storedTerminal _ _ _ _ snapshot _ _ hscript hterminal] at happlies
            cases happlies
        | job row =>
            obtain ⟨new, hset, hchange⟩ := rowChange_of_applies hscript happlies
            rw [hset] at hreleased
            refine (hchange.released hreleased).imp id fun hlabel => ?_
            exact parentsDone_of_release hkeys hscript hcovers happlies hlabel

/-- A submitted job that no edge enters needs no guard; the others are pending. -/
theorem Database.Submitted.guarded {db : Database} (hdb : db.Submitted) :
    Guarded (ParentsDone db.dependencies.keys) StoredReleased db.stored := by
  intro key stored hstored hreleased
  cases key with
  | dag id => trivial
  | job dagId jobId =>
      obtain ⟨row, hrow, rfl⟩ := (get?_stored_job db dagId jobId stored).mp hstored
      obtain ⟨spec, now, job, rfl, hholds, -, rfl, -, rfl⟩ := hdb.exists_spec hrow
      intro parentId hedge
      have hmem : (⟨parentId, job.id⟩ : Dependency) ∈ spec.dependencies :=
        (hholds.dependency ⟨spec.id, parentId, job.id⟩ rfl).mp (Table.contains_iff.mpr hedge)
      have hentered : (spec.dependencies.any fun edge => edge.toId == job.id) = true :=
        List.any_eq_true.mpr ⟨_, hmem, beq_self_eq_true _⟩
      exact absurd (if_pos hentered) hreleased.1

/-! ## Moments -/

section

variable {db : Database} {allowed : StoreSystem → StoreAction → Prop} {system : StoreSystem}

theorem Interleaved.keys_after (h : Interleaved db allowed system)
    {before after : List StoreCommit} (hhistory : system.history = before ++ after) :
    (db.after before).keys = db.stored.keys := by
  have hlog : system.log = before.flatMap Commit.changes ++ after.flatMap Commit.changes := by
    rw [System.log, hhistory, List.flatMap_append]
  exact (linked_append.mp (hlog ▸ h.sound.linked)).1.keys

theorem Interleaved.parent_succeeded (hdb : db.Submitted) (h : Interleaved db allowed system)
    {before after : List StoreCommit} (hhistory : system.history = before ++ after)
    {dagId parentId childId : String} (hedge : ⟨dagId, parentId, childId⟩ ∈ db.dependencies.keys)
    {child : JobRow} (hchild : (db.after before).get? (.job dagId childId) = some (.job child))
    (hreleased : child.Released) :
    ∃ parent, (db.after before).get? (.job dagId parentId) = some (.job parent) ∧
      parent.state = .succeeded := by
  obtain ⟨hkeys, -⟩ := hdb.holds
  have hguarded := h.guarded_at (guards_release hkeys) hdb.guarded hhistory
  obtain ⟨stored, hstored, hsucceeded⟩ := hguarded _ _ hchild hreleased parentId hedge
  obtain ⟨parent, hparent, -⟩ := h.exists_row hdb hhistory (hkeys.dependency _ hedge).1
  cases hstored.symm.trans hparent
  exact ⟨parent, hparent, hsucceeded parent rfl⟩

/-- A job comes before another one in its graph. -/
def Database.Before (db : Database) (dagId : String) : String → String → Prop :=
  Relation.TransGen fun parentId childId => ⟨dagId, parentId, childId⟩ ∈ db.dependencies.keys

/-- A succeeded parent is a released job itself, and so on upwards. -/
theorem Interleaved.ancestor_succeeded (hdb : db.Submitted) (h : Interleaved db allowed system)
    {before after : List StoreCommit} (hhistory : system.history = before ++ after)
    {dagId ancestorId jobId : String} (hbefore : db.Before dagId ancestorId jobId) {row : JobRow}
    (hrow : (db.after before).get? (.job dagId jobId) = some (.job row))
    (hreleased : row.Released) :
    ∃ ancestor, (db.after before).get? (.job dagId ancestorId) = some (.job ancestor) ∧
      ancestor.state = .succeeded := by
  induction hbefore using Relation.TransGen.head_induction_on with
  | single hedge => exact h.parent_succeeded hdb hhistory hedge hrow hreleased
  | head hedge _ ih =>
      obtain ⟨middle, hmiddle, hsucceeded⟩ := ih
      have hmiddleReleased : middle.Released := by simp [JobRow.Released, hsucceeded]
      exact h.parent_succeeded hdb hhistory hedge hmiddle hmiddleReleased

end

/-! ## The order of the commits -/

section

variable {dagId jobId : String} {program : Transaction} {index : ℕ} {label : StatementLabel}
  {old new : JobRow}

/-- A transaction that claims leaves the jobs that it changes released, and none succeeded. -/
theorem RowChange.of_claim {owner : String} {token : Uuid} {leaseMs now : ℤ}
    (h : RowChange dagId jobId (.claim owner token leaseMs now) index label old new) :
    new.Released ∧ new.state ≠ .succeeded := by
  cases h with
  | reapFirst owner token leaseMs now hstate =>
      rcases retryRow_state now old with h | h <;> simp [JobRow.Released, h]
  | claim owner token leaseMs now hstate => simp [JobRow.Released, grantLease]

theorem RowChange.eq_claim (h : RowChange dagId jobId program index .claim old new) :
    ∃ owner token leaseMs now, program = .claim owner token leaseMs now := by
  cases h with
  | claim owner token leaseMs now hstate => exact ⟨owner, token, leaseMs, now, rfl⟩

theorem RowChange.completes (h : RowChange dagId jobId program index label old new)
    (hsucceeded : new.state = .succeeded) :
    label = .complete ∧ ∃ owner token result now,
      program = .complete dagId jobId owner token result now ∧ new.result = some result := by
  have hretried := fun now => retryRow_state_ne now old (.inr rfl)
  cases h with
  | reapFirst owner token leaseMs now hstate => exact absurd hsucceeded (hretried now)
  | claim owner token leaseMs now hstate => cases hsucceeded
  | heartbeat owner token leaseMs now hmatches =>
      cases (leaseMatches_cases hmatches).2.2.1.symm.trans hsucceeded
  | complete owner token result now hmatches => exact ⟨rfl, owner, token, result, now, rfl, rfl⟩
  | release parentId owner token result now hstate => cases hsucceeded
  | fail owner token now hmatches => exact absurd hsucceeded (hretried now)
  | reap now hstate => exact absurd hsucceeded (hretried now)
  | cancel hopen => cases hsucceeded

theorem exists_completion {changes : List StoreChange} {row row' : JobRow}
    (h : Follows (.job row) changes (.job row'))
    (hmoves : ∀ change ∈ changes, Moves dagId jobId change) (hstart : row.state ≠ .succeeded)
    (hsucceeded : row'.state = .succeeded) : ∃ change ∈ changes, change.label = .complete := by
  induction changes generalizing row with
  | nil =>
      cases h
      exact absurd hsucceeded hstart
  | cons change rest ih =>
      obtain ⟨hold, hrest⟩ := h
      obtain ⟨new, _, _, hnew, hchange⟩ := hmoves change List.mem_cons_self row hold
      by_cases hdone : new.state = .succeeded
      · exact ⟨change, List.mem_cons_self, (hchange.completes hdone).1⟩
      · obtain ⟨completion, hmem, hlabel⟩ := ih (hnew ▸ hrest)
          (fun other hother => hmoves other (List.mem_cons_of_mem _ hother)) hdone
        exact ⟨completion, List.mem_cons_of_mem _ hmem, hlabel⟩

end

section

variable {db : Database} {allowed : StoreSystem → StoreAction → Prop} {system : StoreSystem}

theorem Database.after_append_singleton (db : Database) (before : List StoreCommit)
    (commit : StoreCommit) :
    db.after (before ++ [commit]) = install (db.after before) commit.changes := by
  rw [Database.after, List.flatMap_append, List.flatMap_singleton, install_append]
  rfl

/-- Before a claim commits, all ancestors of the claimed job have succeeded. -/
theorem Interleaved.ancestor_of_claim (hdb : db.Submitted) (h : Interleaved db allowed system)
    {before after : List StoreCommit} {commit : StoreCommit}
    (hhistory : system.history = before ++ commit :: after) {dagId ancestorId jobId : String}
    (hbefore : db.Before dagId ancestorId jobId)
    (hclaims : ∃ claim ∈ jobLog [commit] dagId jobId, claim.label = .claim) :
    ∃ ancestor, (db.after before).get? (.job dagId ancestorId) = some (.job ancestor) ∧
      ancestor.state = .succeeded := by
  obtain ⟨claim, hclaim, hlabel⟩ := hclaims
  unfold jobLog at hclaim
  rw [List.flatMap_singleton] at hclaim
  obtain ⟨hmem, hkey⟩ := List.mem_filter.mp hclaim
  have hkey : claim.key = .job dagId jobId := by simpa using hkey
  have hcommit : commit ∈ system.history := by simp [hhistory]
  obtain ⟨_, _, _, -, -, -, hmove⟩ := committed_rowChange h hcommit hmem hkey
  rw [hlabel] at hmove
  obtain ⟨owner, token, leaseMs, now, hprogram⟩ := hmove.eq_claim
  have hsplit : system.history = (before ++ [commit]) ++ after := by simp [hhistory]
  -- after the commit the claimed job is released
  have hwritten : ∃ row, (db.after (before ++ [commit])).get? (.job dagId jobId) =
      some (.job row) ∧ row.Released := by
    rw [db.after_append_singleton]
    rcases get?_install_cases (db.after before) commit.changes (.job dagId jobId) with
      ⟨hnone, -⟩ | ⟨change, hchange, hsame, hrow⟩
    · exact absurd hkey (hnone claim hmem)
    · obtain ⟨_, _, new, -, -, hnew, hmove⟩ := committed_rowChange h hcommit hchange hsame
      rw [hprogram] at hmove
      exact ⟨new, by rw [hrow, hnew], hmove.of_claim.1⟩
  obtain ⟨row, hrow, hreleased⟩ := hwritten
  obtain ⟨ancestor, hancestor, hsucceeded⟩ :=
    h.ancestor_succeeded hdb hsplit hbefore hrow hreleased
  -- the claiming transaction completes nothing
  rw [db.after_append_singleton] at hancestor
  rcases get?_install_cases (db.after before) commit.changes (.job dagId ancestorId) with
    ⟨-, hsame⟩ | ⟨change, hchange, hsame, hnewRow⟩
  · exact ⟨ancestor, hsame ▸ hancestor, hsucceeded⟩
  · obtain ⟨_, _, new, -, -, hnew, hmove⟩ := committed_rowChange h hcommit hchange hsame
    rw [hprogram] at hmove
    rw [hnew] at hnewRow
    cases hancestor.symm.trans hnewRow
    exact absurd hsucceeded hmove.of_claim.2

theorem Interleaved.completion_of_succeeded (hdb : db.Submitted)
    (h : Interleaved db allowed system) {before after : List StoreCommit}
    (hhistory : system.history = before ++ after) {dagId jobId : String} {row : JobRow}
    (hrow : (db.after before).get? (.job dagId jobId) = some (.job row))
    (hsucceeded : row.state = .succeeded) (hjob : db.jobs.contains (dagId, jobId) = true) :
    ∃ change ∈ jobLog before dagId jobId, change.label = .complete := by
  obtain ⟨first, hfirst⟩ := Option.isSome_iff_exists.mp hjob
  have hstored : (db.after []).get? (.job dagId jobId) = some (.job first) :=
    (get?_stored_job db dagId jobId (.job first)).mpr ⟨first, hfirst, rfl⟩
  obtain ⟨hmoves, last, hlast, hfollows⟩ :=
    h.follows_between (show system.history = [] ++ before ++ after from hhistory) hstored
  cases hrow.symm.trans hlast
  refine exists_completion hfollows hmoves ?_ hsucceeded
  rcases (hdb.untouched hfirst).waiting with hready | ⟨hpending, -⟩
  · simp [hready]
  · simp [hpending]

theorem Database.Before.contains (hdb : db.Submitted) {dagId ancestorId jobId : String}
    (h : db.Before dagId ancestorId jobId) : db.jobs.contains (dagId, ancestorId) = true := by
  obtain ⟨hkeys, -⟩ := hdb.holds
  induction h using Relation.TransGen.head_induction_on with
  | single hedge => exact (hkeys.dependency _ hedge).1
  | head hedge _ _ => exact (hkeys.dependency _ hedge).1

end

/-- No job starts before its dependencies, whatever the interleaving: at every moment
all ancestors of a job that is neither pending nor cancelled have succeeded, and
when a claim of the job commits, their completions have been committed before. -/
theorem starts_after_ancestors {db : Database} (hdb : db.Submitted) {system : StoreSystem}
    (hrun : Interleaved db anyAction system) {dagId ancestorId jobId : String}
    (hbefore : db.Before dagId ancestorId jobId) :
    (∀ (before after : List StoreCommit) (row : JobRow), system.history = before ++ after →
      (db.after before).get? (.job dagId jobId) = some (.job row) →
      row.state ≠ .pending → row.state ≠ .cancelled →
      ∃ ancestor, (db.after before).get? (.job dagId ancestorId) = some (.job ancestor) ∧
        ancestor.state = .succeeded) ∧
    (∀ (before after : List StoreCommit) (commit : StoreCommit),
      system.history = before ++ commit :: after →
      (∃ claim ∈ jobLog [commit] dagId jobId, claim.label = .claim) →
      ∃ completion ∈ jobLog before dagId ancestorId, completion.label = .complete) := by
  constructor
  · intro before after row hhistory hrow hpending hcancelled
    exact hrun.ancestor_succeeded hdb hhistory hbefore hrow ⟨hpending, hcancelled⟩
  · intro before after commit hhistory hclaims
    obtain ⟨ancestor, hancestor, hsucceeded⟩ :=
      hrun.ancestor_of_claim hdb hhistory hbefore hclaims
    exact hrun.completion_of_succeeded hdb hhistory hancestor hsucceeded (hbefore.contains hdb)

/-- Two workers complete the parents of a join, and a third one claims the child. -/
def joinedActions : List StoreAction :=
  separatedActions ++ [.start 4 (.claim "third" 9 1000 30), .execute 4, .finish 4, .execute 4,
    .visit 4 (.job "join" "child"), .finish 4, .commit 4]

theorem interleaved_joined :
    Interleaved joinDatabase anyAction (joinDatabase.systemAfter joinedActions) :=
  interleaved_systemAfter (by decide)

/-- The completion of a parent is in the history before the claim of the child. -/
theorem starts_after_ancestors_join :
    ∃ completion ∈ jobLog ((joinDatabase.systemAfter joinedActions).history.take 4) "join" "left",
      completion.label = .complete := by
  have hclaim : ∃ claim ∈ jobLog (((joinDatabase.systemAfter joinedActions).history.drop 4).take 1)
      "join" "child", claim.label = .claim := by decide
  obtain ⟨commit, rest, hrest⟩ : ∃ commit rest,
      (joinDatabase.systemAfter joinedActions).history.drop 4 = commit :: rest :=
    List.exists_cons_of_length_pos (by decide)
  have hsplit : (joinDatabase.systemAfter joinedActions).history =
      (joinDatabase.systemAfter joinedActions).history.take 4 ++ commit :: rest := by
    rw [← hrest, List.take_append_drop]
  rw [hrest, List.take_succ_cons, List.take_zero] at hclaim
  have hedge : (⟨"join", "left", "child"⟩ : DependencyRow) ∈ joinDatabase.dependencies.keys := by
    decide
  obtain ⟨-, hcommits⟩ :=
    starts_after_ancestors (.submit _ 0 .empty) interleaved_joined (Relation.TransGen.single hedge)
  exact hcommits _ _ _ hsplit hclaim

end JobOrchestrator
