import JobOrchestrator.Store.LeaseSafety
import JobOrchestrator.Store.Origin

/-!
# Progress of a stored job

All graphs have been submitted before; no submission overlaps.  Seen from one job,
concurrent transactions are a chain of row changes (`Interleaved.follows`).  Three
facts about such a chain, whatever the interleaving was:

* `Consistent` holds of every version: the lease fields are there exactly while the
  row is leased, the result exactly when it succeeded, the attempts within the budget;
* `Precedes` relates two versions, the earlier one first: a row is never released
  twice, loses no attempt, and stays as it is once it is terminal;
* `changesAhead` bounds what is still to come: every change but a heartbeat lowers it,
  so that any number of workers, crashes and reaps writes a row a bounded number of
  times (`row_changes_bounded`).
-/

namespace JobOrchestrator

open ReadCommitted

/-! ## Every version -/

/-- What every committed version of a row looks like. -/
structure JobRow.Consistent (row : JobRow) : Prop where
  budget : 1 ≤ row.maxAttempts ∧ row.maxAttempts ≤ 20
  attempts_le : row.attempts ≤ row.maxAttempts
  leased : row.state = .leased → row.leaseOwner.isSome = true ∧ row.leaseToken.isSome = true ∧
    row.leaseExpiresAt.isSome = true
  unleased : row.state ≠ .leased →
    row.leaseOwner = none ∧ row.leaseToken = none ∧ row.leaseExpiresAt = none
  result : row.result.isSome = true ↔ row.state = .succeeded
  untried : row.state = .pending ∨ row.state = .ready → row.attempts = 0
  tried : row.state = .leased ∨ row.state = .retryWait ∨ row.state = .succeeded ∨
    row.state = .deadLettered → 1 ≤ row.attempts
  waiting : row.state = .retryWait → row.attempts < row.maxAttempts
  spent : row.state = .deadLettered → row.attempts = row.maxAttempts

section

variable {dagId jobId : String} {program : Transaction} {index : ℕ} {label : StatementLabel}
  {old new : JobRow}

theorem JobRow.Consistent.not_result (h : old.Consistent) (hopen : old.state ≠ .succeeded) :
    old.result.isSome ≠ true :=
  fun hresult => hopen (h.result.mp hresult)

theorem retryRow_consistent (h : old.Consistent) (hleased : old.state = .leased) (now : ℤ) :
    (retryRow now old).Consistent := by
  have htried := h.tried (.inl hleased)
  have hnone := h.not_result (by simp [hleased])
  by_cases hspent : old.maxAttempts ≤ old.attempts
  · have hstate : (retryRow now old).state = .deadLettered := if_pos hspent
    refine ⟨h.budget, h.attempts_le, fun hother => ?_, fun _ => ⟨rfl, rfl, rfl⟩, ?_,
      fun hother => ?_, fun _ => htried, fun hother => ?_, fun _ => ?_⟩
    · simp [hstate] at hother
    · exact iff_of_false hnone (by simp [hstate])
    · simp [hstate] at hother
    · simp [hstate] at hother
    · exact le_antisymm h.attempts_le hspent
  · have hstate : (retryRow now old).state = .retryWait := if_neg hspent
    refine ⟨h.budget, h.attempts_le, fun hother => ?_, fun _ => ⟨rfl, rfl, rfl⟩, ?_,
      fun hother => ?_, fun _ => htried, fun _ => not_le.mp hspent, fun hother => ?_⟩
    · simp [hstate] at hother
    · exact iff_of_false hnone (by simp [hstate])
    · simp [hstate] at hother
    · simp [hstate] at hother

theorem RowChange.consistent (h : RowChange dagId jobId program index label old new)
    (hold : old.Consistent) : new.Consistent := by
  cases h with
  | reapFirst owner token leaseMs now hstate => exact retryRow_consistent hold hstate now
  | claim owner token leaseMs now hstate =>
      have hlt : old.attempts < old.maxAttempts := by
        rcases hstate with hready | hwaiting
        · rw [hold.untried (.inr hready)]
          exact hold.budget.1
        · exact hold.waiting hwaiting
      have hnone := hold.not_result (by rcases hstate with h | h <;> simp [h])
      exact ⟨hold.budget, hlt, fun _ => ⟨rfl, rfl, rfl⟩, fun hne => absurd rfl hne,
        iff_of_false hnone (by simp [grantLease]), fun hopen => by simp [grantLease] at hopen,
        fun _ => Nat.le_add_left 1 _, fun hopen => by simp [grantLease] at hopen,
        fun hopen => by simp [grantLease] at hopen⟩
  | heartbeat owner token leaseMs now hmatches =>
      have hleased := (leaseMatches_cases hmatches).2.2.1
      obtain ⟨howner, htoken, -⟩ := hold.leased hleased
      exact ⟨hold.budget, hold.attempts_le, fun _ => ⟨howner, htoken, rfl⟩,
        fun hne => absurd hleased hne, hold.result, hold.untried, hold.tried, hold.waiting,
        hold.spent⟩
  | complete owner token result now hmatches =>
      have htried := hold.tried (.inl (leaseMatches_cases hmatches).2.2.1)
      exact ⟨hold.budget, hold.attempts_le, fun hne => by simp [succeededRow] at hne,
        fun _ => ⟨rfl, rfl, rfl⟩, iff_of_true rfl rfl, fun hne => by simp [succeededRow] at hne,
        fun _ => htried, fun hne => by simp [succeededRow] at hne,
        fun hne => by simp [succeededRow] at hne⟩
  | release parentId owner token result now hstate =>
      have hnone := hold.unleased (by simp [hstate])
      have huntried := hold.untried (.inl hstate)
      exact ⟨hold.budget, hold.attempts_le, fun hne => by simp [releasedRow] at hne,
        fun _ => hnone, iff_of_false (hold.not_result (by simp [hstate])) (by simp [releasedRow]),
        fun _ => huntried, fun hne => by simp [releasedRow] at hne,
        fun hne => by simp [releasedRow] at hne, fun hne => by simp [releasedRow] at hne⟩
  | fail owner token now hmatches =>
      exact retryRow_consistent hold (leaseMatches_cases hmatches).2.2.1 now
  | reap now hstate => exact retryRow_consistent hold hstate now
  | cancel hopen =>
      have hnone := hold.not_result fun hsucceeded => hopen (.inl hsucceeded)
      exact ⟨hold.budget, hold.attempts_le, fun hne => by simp at hne, fun _ => ⟨rfl, rfl, rfl⟩,
        iff_of_false hnone (by simp), fun hne => by simp at hne, fun hne => by simp at hne,
        fun hne => by simp at hne, fun hne => by simp at hne⟩

end

/-! ## Two versions -/

/-- The second version may follow on the first one. -/
structure JobRow.Precedes (earlier later : JobRow) : Prop where
  work : later.kind = earlier.kind ∧ later.payload = earlier.payload
  bounds : later.maxAttempts = earlier.maxAttempts ∧ later.priority = earlier.priority
  attempts_le : earlier.attempts ≤ later.attempts
  terminal : earlier.Terminal → later = earlier
  pending : later.state = .pending → later = earlier
  ready : later.state = .ready → earlier.state = .pending ∨ later = earlier
  leased : later.state = .leased → later.attempts = earlier.attempts →
    earlier.state = .leased ∧ earlier.leaseOwner = later.leaseOwner ∧
      earlier.leaseToken = later.leaseToken

namespace JobRow.Precedes

theorem refl (row : JobRow) : row.Precedes row where
  work := ⟨rfl, rfl⟩
  bounds := ⟨rfl, rfl⟩
  attempts_le := le_rfl
  terminal _ := rfl
  pending _ := rfl
  ready _ := .inr rfl
  leased hleased _ := ⟨hleased, rfl, rfl⟩

theorem trans {first second third : JobRow} (h : first.Precedes second)
    (h' : second.Precedes third) : first.Precedes third where
  work := ⟨h'.work.1.trans h.work.1, h'.work.2.trans h.work.2⟩
  bounds := ⟨h'.bounds.1.trans h.bounds.1, h'.bounds.2.trans h.bounds.2⟩
  attempts_le := h.attempts_le.trans h'.attempts_le
  terminal hterminal := by
    have hsecond := h.terminal hterminal
    rw [h'.terminal (hsecond ▸ hterminal), hsecond]
  pending hpending := by
    have hthird := h'.pending hpending
    rw [hthird, h.pending (hthird ▸ hpending)]
  ready hready := by
    rcases h'.ready hready with hpending | hthird
    · exact .inl (h.pending hpending ▸ hpending)
    · subst hthird
      exact h.ready hready
  leased hleased hattempts := by
    -- the attempts of the version in between are squeezed
    have hbetween : second.attempts = first.attempts :=
      le_antisymm (hattempts ▸ h'.attempts_le) h.attempts_le
    obtain ⟨hsecond, howner, htoken⟩ := h'.leased hleased (hattempts.trans hbetween.symm)
    obtain ⟨hfirst, howner', htoken'⟩ := h.leased hsecond hbetween
    exact ⟨hfirst, howner'.trans howner, htoken'.trans htoken⟩

end JobRow.Precedes

/-! ## What is still to come -/

/-- The number of changes, heartbeats apart, that a row can still see. -/
def JobRow.changesAhead (row : JobRow) : ℕ :=
  match row.state with
  | .pending | .leased => 2 * (row.maxAttempts - row.attempts) + 1
  | .ready | .retryWait => 2 * (row.maxAttempts - row.attempts)
  | .succeeded | .deadLettered | .cancelled => 0

section

variable {dagId jobId : String} {program : Transaction} {index : ℕ} {label : StatementLabel}
  {old new : JobRow}

theorem retryRow_precedes (hleased : old.state = .leased) (now : ℤ) :
    old.Precedes (retryRow now old) := by
  refine ⟨⟨rfl, rfl⟩, ⟨rfl, rfl⟩, le_rfl, fun hterminal => ?_, fun hstate => ?_,
    fun hstate => ?_, fun hstate => absurd hstate (retryRow_not_leased now old)⟩
  · rcases hterminal with h | h | h <;> cases hleased.symm.trans h
  · rcases retryRow_state now old with h | h <;> cases h.symm.trans hstate
  · rcases retryRow_state now old with h | h <;> cases h.symm.trans hstate

theorem RowChange.precedes (h : RowChange dagId jobId program index label old new) :
    old.Precedes new := by
  have hopen : old.Terminal → new = old := fun hterminal => absurd hterminal h.not_terminal
  cases h with
  | reapFirst owner token leaseMs now hstate => exact retryRow_precedes hstate now
  | claim owner token leaseMs now hstate =>
      exact ⟨⟨rfl, rfl⟩, ⟨rfl, rfl⟩, Nat.le_succ _, hopen, fun hne => by simp [grantLease] at hne,
        fun hne => by simp [grantLease] at hne, fun _ hsame => absurd hsame (Nat.succ_ne_self _)⟩
  | heartbeat owner token leaseMs now hmatches =>
      have hleased := (leaseMatches_cases hmatches).2.2.1
      refine ⟨⟨rfl, rfl⟩, ⟨rfl, rfl⟩, le_rfl, hopen, fun hne => ?_, fun hne => ?_,
        fun _ _ => ⟨hleased, rfl, rfl⟩⟩
      · cases hleased.symm.trans hne
      · cases hleased.symm.trans hne
  | complete owner token result now hmatches =>
      exact ⟨⟨rfl, rfl⟩, ⟨rfl, rfl⟩, le_rfl, hopen, fun hne => by simp [succeededRow] at hne,
        fun hne => by simp [succeededRow] at hne, fun hne => by simp [succeededRow] at hne⟩
  | release parentId owner token result now hstate =>
      exact ⟨⟨rfl, rfl⟩, ⟨rfl, rfl⟩, le_rfl, hopen, fun hne => by simp [releasedRow] at hne,
        fun _ => .inl hstate, fun hne => by simp [releasedRow] at hne⟩
  | fail owner token now hmatches =>
      exact retryRow_precedes (leaseMatches_cases hmatches).2.2.1 now
  | reap now hstate => exact retryRow_precedes hstate now
  | cancel =>
      exact ⟨⟨rfl, rfl⟩, ⟨rfl, rfl⟩, le_rfl, hopen, fun hne => by simp at hne,
        fun hne => by simp at hne, fun hne => by simp at hne⟩

theorem retryRow_changesAhead (hleased : old.state = .leased) (now : ℤ) :
    (retryRow now old).changesAhead + 1 ≤ old.changesAhead := by
  have hold : old.changesAhead = 2 * (old.maxAttempts - old.attempts) + 1 := by
    simp [JobRow.changesAhead, hleased]
  rw [hold]
  rcases retryRow_state now old with hdead | hwaiting
  · simp only [JobRow.changesAhead, hdead]
    omega
  · simp only [JobRow.changesAhead, hwaiting]
    exact le_refl (2 * (old.maxAttempts - old.attempts) + 1)

/-- A change uses up one of the changes ahead, a heartbeat none. -/
theorem RowChange.changesAhead (h : RowChange dagId jobId program index label old new)
    (hold : old.Consistent) :
    new.changesAhead + (if label = .heartbeat then 0 else 1) ≤ old.changesAhead := by
  cases h with
  | reapFirst owner token leaseMs now hstate => exact retryRow_changesAhead hstate now
  | claim owner token leaseMs now hstate =>
      have hlt : old.attempts < old.maxAttempts := by
        rcases hstate with hready | hwaiting
        · rw [hold.untried (.inr hready)]
          exact hold.budget.1
        · exact hold.waiting hwaiting
      have hahead : old.changesAhead = 2 * (old.maxAttempts - old.attempts) := by
        rcases hstate with h | h <;> simp [JobRow.changesAhead, h]
      rw [hahead]
      simp only [JobRow.changesAhead, grantLease, reduceCtorEq, if_false]
      omega
  | heartbeat owner token leaseMs now hmatches => exact le_rfl
  | complete owner token result now hmatches =>
      simp [JobRow.changesAhead, succeededRow, (leaseMatches_cases hmatches).2.2.1]
  | release parentId owner token result now hstate =>
      simp [JobRow.changesAhead, releasedRow, hstate]
  | fail owner token now hmatches =>
      exact retryRow_changesAhead (leaseMatches_cases hmatches).2.2.1 now
  | reap now hstate => exact retryRow_changesAhead hstate now
  | cancel hopen =>
      -- a row that can be cancelled has at least one change ahead
      have hattempts := hold.attempts_le
      have hbudget := hold.budget.1
      have huntried := hold.untried
      have hwaiting := hold.waiting
      simp only [JobRow.changesAhead, reduceCtorEq, if_false]
      cases hstate : old.state <;> simp only [hstate, true_or, or_true, not_true] at hopen ⊢
      · omega
      · have := huntried (.inr hstate)
        omega
      · have := hwaiting hstate
        omega
      · omega

end

/-! ## Chains of versions -/

/-- The changes of a log that are no heartbeats. -/
def proper (changes : List StoreChange) : ℕ :=
  changes.countP fun change => change.label ≠ .heartbeat

theorem progress_of_follows {dagId jobId : String} {changes : List StoreChange}
    {row row' : JobRow} (h : Follows (.job row) changes (.job row'))
    (hmoves : ∀ change ∈ changes, Moves dagId jobId change) (hrow : row.Consistent) :
    row'.Consistent ∧ row.Precedes row' ∧
      row'.changesAhead + proper changes ≤ row.changesAhead := by
  induction changes generalizing row with
  | nil =>
      cases h
      exact ⟨hrow, .refl _, le_rfl⟩
  | cons change rest ih =>
      obtain ⟨hold, hrest⟩ := h
      obtain ⟨new, _, _, hnew, hchange⟩ := hmoves change List.mem_cons_self row hold
      obtain ⟨hconsistent, hprecedes, hahead⟩ := ih (hnew ▸ hrest)
        (fun other hother => hmoves other (List.mem_cons_of_mem _ hother))
        (hchange.consistent hrow)
      refine ⟨hconsistent, hchange.precedes.trans hprecedes, ?_⟩
      have hused := hchange.changesAhead hrow
      have hcount : proper (change :: rest) =
          proper rest + if change.label = .heartbeat then 0 else 1 := by
        unfold proper
        rw [List.countP_cons]
        by_cases hheartbeat : change.label = .heartbeat <;> simp [hheartbeat]
      rw [hcount]
      omega

/-! ## Every interleaving -/

theorem DagSpec.persistedRow_consistent (spec : DagSpec) (now : ℤ) {job : JobSpec}
    (hvalid : job.Valid) : (spec.persistedRow now job).Consistent := by
  have hstate : (spec.persistedRow now job).state = .pending ∨
      (spec.persistedRow now job).state = .ready := by
    unfold DagSpec.persistedRow
    simp only
    split
    · exact .inl rfl
    · exact .inr rfl
  refine ⟨⟨hvalid.attempts_pos, hvalid.attempts_le⟩, Nat.zero_le _, fun hne => ?_,
    fun _ => ⟨rfl, rfl, rfl⟩, iff_of_false Bool.false_ne_true fun hne => ?_, fun _ => rfl,
    fun hne => ?_, fun hne => ?_, fun hne => ?_⟩
  all_goals rcases hstate with h | h <;> simp [h] at hne

/-- A submitted row is consistent. -/
theorem Database.Submitted.consistent {db : Database} (hdb : db.Submitted)
    {dagId jobId : String} {row : JobRow} (hrow : db.jobs.get? (dagId, jobId) = some row) :
    row.Consistent := by
  obtain ⟨spec, now, job, -, -, -, -, hvalid, rfl⟩ := hdb.exists_spec hrow
  exact spec.persistedRow_consistent now hvalid

section

variable {db : Database} {allowed : StoreSystem → StoreAction → Prop} {system : StoreSystem}

/-- The log between two moments leads from the one version to the other one. -/
theorem Interleaved.follows_between (h : Interleaved db allowed system)
    {before between after : List StoreCommit}
    (hhistory : system.history = before ++ between ++ after) {dagId jobId : String} {row : JobRow}
    (hrow : (db.after before).get? (.job dagId jobId) = some (.job row)) :
    (∀ change ∈ jobLog between dagId jobId, Moves dagId jobId change) ∧
      ∃ later, (db.after (before ++ between)).get? (.job dagId jobId) = some (.job later) ∧
        Follows (.job row) (jobLog between dagId jobId) (.job later) := by
  have hmoves : ∀ change ∈ jobLog between dagId jobId, Moves dagId jobId change := by
    intro change hchange
    refine h.moves dagId jobId change ?_
    rw [hhistory, jobLog_append, jobLog_append]
    exact List.mem_append_left _ (List.mem_append_right _ hchange)
  refine ⟨hmoves, ?_⟩
  have hlog : system.log = before.flatMap Commit.changes ++ between.flatMap Commit.changes ++
      after.flatMap Commit.changes := by
    rw [System.log, hhistory, List.flatMap_append, List.flatMap_append]
  have hlinked := (linked_append.mp (linked_append.mp (hlog ▸ h.sound.linked)).1).2
  obtain ⟨last, hlast, hfollows⟩ := hlinked.follows hrow
  obtain ⟨later, rfl⟩ := exists_row_of_follows hfollows hmoves
  refine ⟨later, ?_, hfollows⟩
  rw [Database.after, List.flatMap_append, install_append]
  exact hlast

/-- A job at two moments: both versions are consistent, the first one precedes the
second one, and the changes in between are paid for. -/
theorem Interleaved.progress (hdb : db.Submitted) (h : Interleaved db allowed system)
    {before between after : List StoreCommit}
    (hhistory : system.history = before ++ between ++ after) {dagId jobId : String}
    {first : JobRow} (hfirst : db.jobs.get? (dagId, jobId) = some first) :
    ∃ earlier later, (db.after before).get? (.job dagId jobId) = some (.job earlier) ∧
      (db.after (before ++ between)).get? (.job dagId jobId) = some (.job later) ∧
      earlier.Consistent ∧ later.Consistent ∧ first.Precedes earlier ∧ earlier.Precedes later ∧
      earlier.changesAhead + proper (jobLog before dagId jobId) ≤ first.changesAhead ∧
      later.changesAhead + proper (jobLog between dagId jobId) ≤ earlier.changesAhead := by
  have hstored : (db.after []).get? (.job dagId jobId) = some (.job first) :=
    (get?_stored_job db dagId jobId (.job first)).mpr ⟨first, hfirst, rfl⟩
  have hupto : system.history = [] ++ before ++ (between ++ after) := by simp [hhistory]
  obtain ⟨hmoves, earlier, hearlier, hfollows⟩ := h.follows_between hupto hstored
  rw [List.nil_append] at hearlier
  obtain ⟨hconsistent, hprecedes, hpaid⟩ :=
    progress_of_follows hfollows hmoves (hdb.consistent hfirst)
  obtain ⟨hmoves', later, hlater, hfollows'⟩ := h.follows_between hhistory hearlier
  obtain ⟨hconsistent', hprecedes', hpaid'⟩ := progress_of_follows hfollows' hmoves' hconsistent
  exact ⟨earlier, later, hearlier, hlater, hconsistent, hconsistent', hprecedes, hprecedes',
    hpaid, hpaid'⟩

end

/-- The row of a job is a version of the submitted one. -/
def Descends (db : Database) : StoreKey → StoredRow → Prop
  | .job dagId jobId, .job row => ∃ first, db.jobs.get? (dagId, jobId) = some first ∧
      first.Precedes row
  | .job _ _, .dag _ => False
  | .dag _, _ => True

theorem kept_descends (db : Database) : Kept (command db.dependencies.keys) (Descends db) := by
  intro program counts statement snapshot key stored hscript happlies hold
  cases key with
  | dag id => trivial
  | job dagId jobId =>
      cases stored with
      | dag state => exact hold.elim
      | job row =>
          obtain ⟨first, hfirst, hprecedes⟩ := hold
          obtain ⟨new, hset, hchange⟩ := rowChange_of_applies hscript happlies
          rw [hset]
          exact ⟨first, hfirst, hprecedes.trans hchange.precedes⟩

theorem descends_stored (db : Database) (key : StoreKey) (stored : StoredRow)
    (hstored : db.stored.get? key = some stored) : Descends db key stored := by
  cases key with
  | dag id => trivial
  | job dagId jobId =>
      obtain ⟨row, hrow, rfl⟩ := (get?_stored_job db dagId jobId stored).mp hstored
      exact ⟨row, hrow, .refl row⟩

/-- What a committed transaction has done to a job. -/
theorem committed_rowChange {db : Database} {allowed : StoreSystem → StoreAction → Prop}
    {system : StoreSystem} (h : Interleaved db allowed system) {commit : StoreCommit}
    (hcommit : commit ∈ system.history) {change : StoreChange} (hchange : change ∈ commit.changes)
    {dagId jobId : String} (hkey : change.key = .job dagId jobId) :
    ∃ first old new, db.jobs.get? (dagId, jobId) = some first ∧ first.Precedes old ∧
      change.new = .job new ∧
      RowChange dagId jobId commit.program change.index change.label old new := by
  have hdescends := (h.sound.versions (kept_descends db) (descends_stored db)).1 change
    (List.mem_flatMap.mpr ⟨commit, hcommit, hchange⟩)
  rw [hkey] at hdescends
  cases hold : change.old with
  | dag state =>
      rw [hold] at hdescends
      exact hdescends.elim
  | job old =>
      rw [hold] at hdescends
      obtain ⟨first, hfirst, hprecedes⟩ := hdescends
      obtain ⟨new, hnew, hmove⟩ :=
        rowChange_of_justified ((h.sound.commits commit hcommit).justified change hchange) hkey hold
      exact ⟨first, old, new, hfirst, hprecedes, hnew, hmove⟩

/-- However many workers claim, crash, report and reap at once, a submitted job with `n`
attempts is written at most `2 n` times after its release, heartbeats apart; and
from every moment on there are at most as many writes as its row has ahead. -/
theorem row_changes_bounded {db : Database} (hdb : db.Submitted) {system : StoreSystem}
    (hrun : Interleaved db anyAction system) {dagId jobId : String} {first : JobRow}
    (hfirst : db.jobs.get? (dagId, jobId) = some first) :
    proper (jobLog system.history dagId jobId) ≤
        2 * first.maxAttempts + (if first.state = .pending then 1 else 0) ∧
      ∀ before after : List StoreCommit, system.history = before ++ after →
        ∃ row, (db.after before).get? (.job dagId jobId) = some (.job row) ∧ row.Consistent ∧
          proper (jobLog after dagId jobId) ≤ row.changesAhead := by
  have hahead : ∀ before after : List StoreCommit, system.history = before ++ after →
      ∃ row, (db.after before).get? (.job dagId jobId) = some (.job row) ∧ row.Consistent ∧
        proper (jobLog after dagId jobId) ≤ row.changesAhead := by
    intro before after hhistory
    have hsplit : system.history = before ++ after ++ [] := by simp [hhistory]
    obtain ⟨row, later, hrow, -, hconsistent, -, -, -, -, hpaid⟩ :=
      hrun.progress hdb hsplit hfirst
    exact ⟨row, hrow, hconsistent, by omega⟩
  refine ⟨?_, hahead⟩
  obtain ⟨row, hrow, -, hpaid⟩ := hahead [] system.history rfl
  have hstored : db.stored.get? (.job dagId jobId) = some (.job first) :=
    (get?_stored_job db dagId jobId (.job first)).mpr ⟨first, hfirst, rfl⟩
  cases hrow.symm.trans hstored
  -- a submitted row has all its attempts left, and a pending one its release
  have huntouched := hdb.untouched hfirst
  have hstart : first.changesAhead =
      2 * first.maxAttempts + if first.state = .pending then 1 else 0 := by
    unfold JobRow.changesAhead
    rw [huntouched.attempts, Nat.sub_zero]
    rcases huntouched.waiting with hready | ⟨hpending, -⟩
    · simp [hready]
    · simp [hpending]
  exact hstart ▸ hpaid

/-- Two claims, a failure and a completion are all that two attempts allow. -/
theorem row_changes_bounded_contested :
    proper (jobLog (soloDatabase.systemAfter contestedActions).history "solo" "job") = 4 ∧
    proper (jobLog (soloDatabase.systemAfter contestedActions).history "solo" "job") ≤ 2 * 2 := by
  have hlabels : (jobLog (soloDatabase.systemAfter contestedActions).history "solo" "job").map
      Change.label = [.claim, .fail, .claim, .complete] := by decide
  have hcounted : ∀ changes : List StoreChange,
      changes.map Change.label = [.claim, .fail, .claim, .complete] → proper changes = 4 := by
    intro changes hchanges
    have hcount := congrArg (List.countP fun label => label ≠ StatementLabel.heartbeat) hchanges
    rwa [List.countP_map] at hcount
  obtain ⟨row, hrow, hready, hmax⟩ : ∃ row, soloDatabase.jobs.get? ("solo", "job") = some row ∧
      row.state = .ready ∧ row.maxAttempts = 2 := by decide
  obtain ⟨hbounded, -⟩ := row_changes_bounded (.submit _ 0 .empty) interleaved_contested hrow
  rw [hready, hmax] at hbounded
  exact ⟨hcounted _ hlabels, hbounded⟩

end JobOrchestrator
