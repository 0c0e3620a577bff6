import JobOrchestrator.Store.LeaseSafety

/-!
# The release of the children of a completed job

The second statement of `complete` makes a pending child ready if it sees all of
its parents succeeded.  It reads them without a lock.  Two parents whose
completions overlap therefore both see the other one leased, neither releases the
child, and it stays pending for ever.

`releaseSafe` says when such a statement may start: for every child that its
transaction sees pending, the transaction sees all parents succeeded, or another
parent is left that nobody is through with, whose own completion will look again.
Under this condition the invariant `Covered` holds in every interleaving: a
pending child whose parents are all settled is in the hands of an open transaction.
-/

namespace JobOrchestrator

open ReadCommitted

/-- An open transaction of the store. -/
abbrev StoreSession := Session StoreKey StoredRow StatementLabel Transaction

/-- The transaction completes the job and has started to release its children. -/
def releases (session : StoreSession) (dagId jobId : String) : Bool :=
  match session.program with
  | .complete dagId' jobId' _ _ _ _ =>
      decide (dagId' = dagId) && decide (jobId' = jobId) &&
        (decide (2 ≤ session.counts.length) ||
          decide (session.counts.length = 1) && session.running.isSome)
  | _ => false

/-- The job is committed as succeeded, or an open transaction releases its children. -/
def settled (system : StoreSystem) (dagId jobId : String) : Bool :=
  (match system.committed.get? (.job dagId jobId) with
    | some (.job row) => decide (row.state = .succeeded)
    | _ => true) ||
  system.sessions.entries.any fun entry => releases entry.2 dagId jobId

/-- The release of the children of a job may start. -/
def releaseStartSafe (dependencies : List DependencyRow) (system : StoreSystem)
    (session : StoreSession) (dagId jobId : String) : Bool :=
  let snapshot := snapshotOf dependencies (system.view session)
  dependencies.all fun edge =>
    !(decide (edge.dagId = dagId) && decide (edge.parentId = jobId) &&
        (snapshot.job? dagId edge.childId).any fun row => decide (row.state = .pending)) ||
      snapshot.parentsSucceeded dagId edge.childId ||
      dependencies.any fun other =>
        decide (other.dagId = dagId) && decide (other.childId = edge.childId) &&
          decide (other.parentId ≠ jobId) && !settled system dagId other.parentId

/-- An action that starts a release only where that is safe. -/
def releaseSafe (dependencies : List DependencyRow) (system : StoreSystem) : StoreAction → Bool
  | .execute id =>
      match system.sessions.get? id with
      | none => true
      | some session =>
          match session.program, session.counts with
          | .complete dagId jobId _ _ _ _, [_] =>
              releaseStartSafe dependencies system session dagId jobId
          | _, _ => true
  | _ => true

/-- A job of a running graph that is still pending although all of its parents
have succeeded. -/
def LostRelease (dependencies : List DependencyRow) (rows : Table StoreKey StoredRow) : Prop :=
  ∃ dagId jobId row, rows.get? (.dag dagId) = some (.dag .running) ∧
    rows.get? (.job dagId jobId) = some (.job row) ∧ row.state = .pending ∧
    (snapshotOf dependencies rows).parentsSucceeded dagId jobId = true

/-! ## Changes of the row of a job -/

section

variable {dagId jobId : String} {program : Transaction} {index : ℕ} {label : StatementLabel}
  {old new : JobRow}

theorem retryRow_state_ne (now : ℤ) (row : JobRow) {state : JobState}
    (hstate : state = .pending ∨ state = .succeeded) : (retryRow now row).state ≠ state := by
  rcases retryRow_state now row with hdead | hwaiting
  · rcases hstate with rfl | rfl <;> simp [hdead]
  · rcases hstate with rfl | rfl <;> simp [hwaiting]

theorem RowChange.not_pending (h : RowChange dagId jobId program index label old new) :
    new.state ≠ .pending := by
  have hretried := fun now => retryRow_state_ne now old (.inl rfl)
  cases h with
  | reapFirst owner token leaseMs now hstate => exact hretried now
  | claim owner token leaseMs now hstate => simp [grantLease]
  | heartbeat owner token leaseMs now hmatches =>
      simp [heartbeatStatement, (leaseMatches_cases hmatches).2.2.1]
  | complete owner token result now hmatches => simp [succeededRow]
  | release parentId owner token result now hstate => simp [releasedRow]
  | fail owner token now hmatches => exact hretried now
  | reap now hstate => exact hretried now
  | cancel hopen => simp

theorem RowChange.to_succeeded (h : RowChange dagId jobId program index label old new)
    (hsucceeded : new.state = .succeeded) :
    ∃ owner token result now, program = .complete dagId jobId owner token result now := by
  have hretried := fun now => retryRow_state_ne now old (.inr rfl)
  cases h with
  | reapFirst owner token leaseMs now hstate => exact absurd hsucceeded (hretried now)
  | claim owner token leaseMs now hstate => cases hsucceeded
  | heartbeat owner token leaseMs now hmatches =>
      cases (leaseMatches_cases hmatches).2.2.1.symm.trans hsucceeded
  | complete owner token result now hmatches => exact ⟨owner, token, result, now, rfl⟩
  | release parentId owner token result now hstate => cases hsucceeded
  | fail owner token now hmatches => exact absurd hsucceeded (hretried now)
  | reap now hstate => exact absurd hsucceeded (hretried now)
  | cancel hopen => cases hsucceeded

end

section

variable {db : Database} {allowed : StoreSystem → StoreAction → Prop} {system : StoreSystem}
  {id : ℕ} {session : StoreSession} {dagId jobId : String}

theorem Interleaved.view_job (hdb : db.Submitted) (h : Interleaved db allowed system)
    (hsession : system.sessions.get? id = some session) {stored : StoredRow}
    (hstored : (system.view session).get? (.job dagId jobId) = some stored) :
    ∃ row, stored = .job row := by
  have hregular := (h.sound.versions (kept_storedRegular _) hdb.storedRegular).2.2 id session
    hsession
  cases stored with
  | dag state => exact (hregular.2 _ _ hstored).elim
  | job row => exact ⟨row, rfl⟩

theorem Interleaved.rowChange (hdb : db.Submitted) (h : Interleaved db allowed system)
    (hsession : system.sessions.get? id = some session) {change : StoreChange}
    (hchange : change ∈ session.changes) (hkey : change.key = .job dagId jobId) :
    ∃ old new, change.new = .job new ∧
      RowChange dagId jobId session.program change.index change.label old new := by
  have hregular := ((h.sound.versions (kept_storedRegular _) hdb.storedRegular).2.2 id session
    hsession).1 change hchange
  have hjustified := (h.sound.sessions id session hsession).justified change hchange
  cases hold : change.old with
  | dag state =>
      rw [hkey, hold] at hregular
      exact hregular.elim
  | job old =>
      obtain ⟨new, hnew, hmove⟩ := rowChange_of_justified hjustified hkey hold
      exact ⟨old, new, hnew, hmove⟩

/-- A transaction sees a job as it is committed, or as a change of its own has left it. -/
theorem Interleaved.view_cases (hdb : db.Submitted) (h : Interleaved db allowed system)
    (hsession : system.sessions.get? id = some session) (dagId jobId : String) :
    (system.view session).get? (.job dagId jobId) = system.committed.get? (.job dagId jobId) ∨
      ∃ index label old new, (system.view session).get? (.job dagId jobId) = some (.job new) ∧
        RowChange dagId jobId session.program index label old new := by
  rcases get?_install_cases system.committed session.changes (.job dagId jobId) with
    ⟨-, hsame⟩ | ⟨change, hchange, hkey, hrow⟩
  · exact .inl hsame
  · obtain ⟨old, new, hnew, hmove⟩ := h.rowChange hdb hsession hchange hkey
    exact .inr ⟨change.index, change.label, old, new, by rw [← hnew]; exact hrow, hmove⟩

theorem Interleaved.committed_of_view_pending (hdb : db.Submitted)
    (h : Interleaved db allowed system) (hsession : system.sessions.get? id = some session)
    {row : JobRow} (hrow : (system.view session).get? (.job dagId jobId) = some (.job row))
    (hpending : row.state = .pending) :
    (system.view session).get? (.job dagId jobId) =
      system.committed.get? (.job dagId jobId) := by
  rcases h.view_cases hdb hsession dagId jobId with hsame | ⟨_, _, _, new, hnew, hmove⟩
  · exact hsame
  · cases hrow.symm.trans hnew
    exact absurd hpending hmove.not_pending

end

/-! ## Transactions that release children -/

theorem releases_iff {session : StoreSession} {dagId jobId : String} :
    releases session dagId jobId = true ↔
      (∃ owner token result now,
        session.program = .complete dagId jobId owner token result now) ∧
      (2 ≤ session.counts.length ∨
        session.counts.length = 1 ∧ ∃ running, session.running = some running) := by
  unfold releases
  split
  next dagId' jobId' owner token result now hprogram =>
    simp only [Bool.and_eq_true, Bool.or_eq_true, decide_eq_true_eq, Option.isSome_iff_exists]
    constructor
    · rintro ⟨⟨rfl, rfl⟩, hstarted⟩
      exact ⟨⟨owner, token, result, now, hprogram⟩, hstarted⟩
    · rintro ⟨⟨_, _, _, _, hsame⟩, hstarted⟩
      cases hprogram.symm.trans hsame
      exact ⟨⟨rfl, rfl⟩, hstarted⟩
  next hother =>
    constructor
    · intro h
      cases h
    · rintro ⟨⟨owner, token, result, now, hprogram⟩, -⟩
      exact absurd hprogram (hother dagId jobId owner token result now)

theorem settled_iff {system : StoreSystem} {dagId jobId : String} :
    settled system dagId jobId = true ↔
      (∀ row, system.committed.get? (.job dagId jobId) = some (.job row) →
        row.state = .succeeded) ∨
      ∃ id session, system.sessions.get? id = some session ∧
        releases session dagId jobId = true := by
  simp only [settled, Bool.or_eq_true, List.any_eq_true, Prod.exists, Table.mem_entries]
  refine or_congr_left ?_
  split
  next row hrow => simp [hrow]
  next hother => simp only [true_iff]; exact fun row hrow => absurd hrow (hother row)

/-- A transaction that releases children has completed their parent. -/
theorem completes_of_releases {dependencies : List DependencyRow}
    {committed : Table StoreKey StoredRow} {session : StoreSession}
    (hsound : session.Sound (command dependencies) committed) {dagId jobId : String}
    (hreleases : releases session dagId jobId = true) :
    ∃ change ∈ session.changes, change.key = .job dagId jobId := by
  obtain ⟨⟨owner, token, result, now, hprogram⟩, hstarted⟩ := releases_iff.mp hreleases
  have hreports : session.program.Reports dagId jobId owner token := by
    rw [hprogram]
    exact ⟨rfl, rfl, rfl, rfl⟩
  -- the release was executed, hence the first statement has changed one row
  have hexecuted : ∃ statement, command dependencies session.program (session.counts.take 1) =
      .execute statement := by
    rcases hstarted with htwo | ⟨hone, running, hrunning⟩
    · exact hsound.executed 1 htwo
    · rw [List.take_of_length_le hone.le]
      exact ⟨running.statement, (hsound.running running hrunning).1⟩
  have hcounted := hsound.counted 0 (by omega)
  obtain ⟨change, hchange, hkey, -⟩ := hreports.exists_change hsound.justified (by
    obtain ⟨statement, hstatement⟩ := hexecuted
    match hcounts : session.counts with
    | [] => simp [hcounts] at hstarted
    | changed :: rest =>
        rw [hcounts, List.getElem?_cons_zero, Option.some.injEq] at hcounted
        rw [← hcounted]
        rintro rfl
        rw [hprogram, hcounts] at hstatement
        simp only [command] at hstatement
        split at hstatement <;> cases hstatement)
  exact ⟨change, hchange, hkey⟩

/-! ## The invariant -/

/-- The transaction is going to release the child, or sees that it is not pending
any more. -/
def Carries (system : StoreSystem) (session : StoreSession) (dagId childId : String) : Prop :=
  (∃ running, session.running = some running ∧ running.statement.scan = .every ∧
    .job dagId childId ∈ running.todo ∧ ∀ row : JobRow, row.state = .pending →
      running.statement.applies running.snapshot (.job dagId childId) (.job row) = true) ∨
  ∃ row, (system.view session).get? (.job dagId childId) = some (.job row) ∧
    row.state ≠ .pending

/-- A pending child whose parents are all settled is carried by a transaction that
releases the children of one of them. -/
def Covered (dependencies : List DependencyRow) (system : StoreSystem) : Prop :=
  ∀ dagId childId row, system.committed.get? (.job dagId childId) = some (.job row) →
    row.state = .pending →
    (∀ parentId, ⟨dagId, parentId, childId⟩ ∈ dependencies →
      settled system dagId parentId = true) →
    ∃ id session parentId, system.sessions.get? id = some session ∧
      ⟨dagId, parentId, childId⟩ ∈ dependencies ∧ releases session dagId parentId = true ∧
      Carries system session dagId childId

section

variable {dependencies : List DependencyRow} {system : StoreSystem} {id : ℕ}
  {session : StoreSession}

theorem settled_of_put {dagId jobId : String}
    (hreleases : releases session dagId jobId = true → settled system dagId jobId = true)
    (h : settled (system.put id session) dagId jobId = true) :
    settled system dagId jobId = true := by
  rcases settled_iff.mp h with hcommitted | ⟨other, found, hfound, hothers⟩
  · exact settled_iff.mpr (.inl hcommitted)
  · rw [System.get?_put] at hfound
    split at hfound
    · cases hfound
      exact hreleases hothers
    · exact settled_iff.mpr (.inr ⟨other, found, hfound, hothers⟩)

/-- One transaction moves on: it starts to release nothing, and still carries what it carried. -/
theorem Covered.put (h : Covered dependencies system)
    (hreleases : ∀ dagId jobId, releases session dagId jobId = true →
      ∃ old, system.sessions.get? id = some old ∧ releases old dagId jobId = true)
    (hcarries : ∀ old dagId parentId childId row, system.sessions.get? id = some old →
      releases old dagId parentId = true →
      system.committed.get? (.job dagId childId) = some (.job row) →
      Carries system old dagId childId →
      releases session dagId parentId = true ∧ Carries system session dagId childId) :
    Covered dependencies (system.put id session) := by
  intro dagId childId row hrow hpending hsettled
  obtain ⟨other, found, parentId, hfound, hedge, hothers, hcarry⟩ :=
    h dagId childId row hrow hpending fun parentId hedge =>
      settled_of_put (fun hown => by
        obtain ⟨old, hold, holdReleases⟩ := hreleases dagId parentId hown
        exact settled_iff.mpr (.inr ⟨id, old, hold, holdReleases⟩)) (hsettled parentId hedge)
  by_cases hid : other = id
  · subst hid
    obtain ⟨hstill, hcarry'⟩ := hcarries found dagId parentId childId row hfound hothers hrow hcarry
    exact ⟨other, session, parentId, by rw [System.get?_put, if_pos rfl], hedge, hstill, hcarry'⟩
  · exact ⟨other, found, parentId, by rw [System.get?_put, if_neg hid, hfound], hedge, hothers,
      hcarry⟩

end

section

variable {db : Database} {allowed : StoreSystem → StoreAction → Prop} {system : StoreSystem}
  {id : ℕ} {session : StoreSession} {dagId childId : String}

theorem Carries.skip (h : Carries system session dagId childId)
    {running : Running StoreKey StoredRow StatementLabel}
    (hrunning : session.running = some running) {key : StoreKey}
    {row : JobRow} (hrow : (system.view session).get? (.job dagId childId) = some (.job row))
    (hskip : running.skipsLocked = true ∨ ∀ stored, (system.view session).get? key = some stored →
      running.statement.applies running.snapshot key stored = false) :
    Carries system (session.skip running key) dagId childId := by
  rcases h with ⟨found, hfound, hscan, htodo, happlies⟩ | hreleased
  · cases hrunning.symm.trans hfound
    by_cases hkey : key = .job dagId childId
    · subst hkey
      rcases hskip with hskips | hfails
      · simp [Running.skipsLocked, hscan] at hskips
      · refine .inr ⟨row, hrow, fun hpending => ?_⟩
        cases (happlies row hpending).symm.trans (hfails _ hrow)
    · exact .inl ⟨_, rfl, hscan, (List.mem_erase_of_ne (Ne.symm hkey)).mpr htodo, happlies⟩
  · exact .inr hreleased

theorem Interleaved.carries_write (hdb : db.Submitted) (hrun : Interleaved db allowed system)
    (hsession : system.sessions.get? id = some session)
    {running : Running StoreKey StoredRow StatementLabel}
    (hrunning : session.running = some running) {key : StoreKey} {stored : StoredRow}
    (hstored : (system.view session).get? key = some stored)
    (happlies : running.statement.applies running.snapshot key stored = true)
    (h : Carries system session dagId childId) :
    Carries system (session.write running key stored) dagId childId := by
  have hview := system.get?_view_write session running key stored
  by_cases hkey : .job dagId childId = key
  · subst hkey
    obtain ⟨row, rfl⟩ := hrun.view_job hdb hsession hstored
    have hscript := ((hrun.sound.sessions id session hsession).running running hrunning).1
    obtain ⟨new, hnew, hmove⟩ := rowChange_of_applies hscript happlies
    exact .inr ⟨new, by rw [hview, if_pos rfl, hnew], hmove.not_pending⟩
  · rcases h with ⟨found, hfound, hscan, htodo, hpasses⟩ | ⟨row, hrow, hreleased⟩
    · cases hrunning.symm.trans hfound
      refine .inl ⟨_, rfl, hscan, ?_, hpasses⟩
      simp only [Running.take, hscan]
      exact (List.mem_erase_of_ne hkey).mpr htodo
    · exact .inr ⟨row, by rw [hview, if_neg hkey, hrow], hreleased⟩

end

/-! ## The steps -/

theorem two_le_of_complete_commits {dependencies : List DependencyRow}
    {dagId jobId owner result : String} {token : Uuid} {now : ℤ} {counts : List ℕ}
    (h : command dependencies (.complete dagId jobId owner token result now) counts = .commit) :
    2 ≤ counts.length := by
  simp only [command] at h
  split at h
  · cases h
  · rcases counts with _ | ⟨changed, _ | ⟨second, rest⟩⟩
    · cases (unlessError_eq_commit h).2
    · cases (unlessError_eq_commit h).2
    · simp

theorem eq_release_of_execute {dependencies : List DependencyRow}
    {dagId jobId owner result : String} {token : Uuid} {now : ℤ} {changed : ℕ}
    {statement : Statement StoreKey StoredRow StatementLabel}
    (h : command dependencies (.complete dagId jobId owner token result now) [changed] =
      .execute statement) :
    statement = (releaseStatement dagId jobId now).statement dependencies .release .every := by
  cases executes_of_command h with
  | release => rfl

theorem releaseStatement_applies {dependencies : List DependencyRow}
    {rows : Table StoreKey StoredRow} {dagId jobId childId : String} (row : JobRow) (now : ℤ)
    (hedge : ⟨dagId, jobId, childId⟩ ∈ dependencies)
    (hparents : (snapshotOf dependencies rows).parentsSucceeded dagId childId = true)
    (hpending : row.state = .pending) :
    ((releaseStatement dagId jobId now).statement dependencies .release .every).applies rows
      (.job dagId childId) (.job row) = true := by
  have hany : (dependencies.any fun edge => decide (edge = ⟨dagId, jobId, childId⟩)) = true :=
    List.any_eq_true.mpr ⟨_, hedge, decide_eq_true rfl⟩
  simp only [JobUpdate.statement, releaseStatement, hpending, decide_true, Bool.true_and,
    hparents, Bool.and_true]
  exact hany

/-- What makes the start of a release safe for one child. -/
theorem releaseStartSafe_cases {dependencies : List DependencyRow} {system : StoreSystem}
    {session : StoreSession} {dagId jobId childId : String} {row : JobRow}
    (h : releaseStartSafe dependencies system session dagId jobId = true)
    (hedge : ⟨dagId, jobId, childId⟩ ∈ dependencies)
    (hrow : (system.view session).get? (.job dagId childId) = some (.job row))
    (hpending : row.state = .pending) :
    (snapshotOf dependencies (system.view session)).parentsSucceeded dagId childId = true ∨
      ∃ parentId, ⟨dagId, parentId, childId⟩ ∈ dependencies ∧ parentId ≠ jobId ∧
        settled system dagId parentId = false := by
  have hchild := List.all_eq_true.mp h _ hedge
  simp only [job?_snapshotOf.mpr hrow, hpending, decide_true, Option.any_some, Bool.and_true,
    Bool.not_true, Bool.false_or, Bool.or_eq_true, List.any_eq_true, Bool.and_eq_true,
    decide_eq_true_eq, Bool.not_eq_true'] at hchild
  refine hchild.imp_right ?_
  rintro ⟨⟨_, parentId, _⟩, hmem, ⟨⟨rfl, rfl⟩, hne⟩, hopen⟩
  exact ⟨parentId, hmem, hne, hopen⟩

section

variable {db : Database} {allowed : StoreSystem → StoreAction → Prop} {system : StoreSystem}
  {id : ℕ} {session : StoreSession}

/-- The start of a safe release: every child that the transaction sees pending is
one of its candidates, or has a parent that is not settled. -/
theorem Interleaved.covered_release (hdb : db.Submitted) (hrun : Interleaved db allowed system)
    (h : Covered db.dependencies.keys system) (hsession : system.sessions.get? id = some session)
    (hidle : session.running = none) {dagId jobId owner result : String} {token : Uuid} {now : ℤ}
    (hprogram : session.program = .complete dagId jobId owner token result now)
    (hcounts : session.counts.length = 1)
    (hsafe : releaseStartSafe db.dependencies.keys system session dagId jobId = true) :
    Covered db.dependencies.keys (system.put id
      { session with
        running := some (.start ((releaseStatement dagId jobId now).statement
          db.dependencies.keys .release .every) (system.view session)) }) := by
  intro dagId' childId row hrow hpending hsettled
  have hnew : ∀ dagId'' jobId'', releases
      { session with
        running := some (.start ((releaseStatement dagId jobId now).statement
          db.dependencies.keys .release .every) (system.view session)) } dagId'' jobId'' = true ↔
      dagId'' = dagId ∧ jobId'' = jobId := by
    intro dagId'' jobId''
    rw [releases_iff]
    simp only [hprogram, hcounts, Transaction.complete.injEq]
    constructor
    · rintro ⟨⟨_, _, _, _, rfl, rfl, -⟩, -⟩
      exact ⟨rfl, rfl⟩
    · rintro ⟨rfl, rfl⟩
      exact ⟨⟨owner, token, result, now, rfl, rfl, rfl, rfl, rfl, rfl⟩, .inr ⟨trivial, _, rfl⟩⟩
  have hbefore : ∀ parentId, ¬(dagId' = dagId ∧ parentId = jobId) →
      ⟨dagId', parentId, childId⟩ ∈ db.dependencies.keys →
      settled system dagId' parentId = true := fun parentId hother hedge =>
    settled_of_put (fun hown => absurd ((hnew dagId' parentId).mp hown) hother)
      (hsettled parentId hedge)
  by_cases hchild : dagId' = dagId ∧ ⟨dagId', jobId, childId⟩ ∈ db.dependencies.keys
  · -- a child of the completed job: the releasing transaction carries it itself
    obtain ⟨rfl, hedge⟩ := hchild
    refine ⟨id, _, jobId, by rw [System.get?_put, if_pos rfl], hedge, (hnew _ _).mpr ⟨rfl, rfl⟩, ?_⟩
    rcases hrun.view_cases hdb hsession dagId' childId with hsame | ⟨_, _, _, new, hview, hmove⟩
    · have hview : (system.view session).get? (.job dagId' childId) = some (.job row) :=
        hsame.trans hrow
      rcases releaseStartSafe_cases hsafe hedge hview hpending with
        hparents | ⟨parentId, hother, hne, hopen⟩
      · have happlies := fun row : JobRow =>
          releaseStatement_applies row now hedge hparents
        exact .inl ⟨_, rfl, rfl,
          mem_candidates.mpr ⟨_, hview, happlies row hpending⟩, happlies⟩
      · cases hopen.symm.trans (hbefore parentId (fun h => hne h.2) hother)
    · exact .inr ⟨new, hview, hmove.not_pending⟩
  · -- the start of the release settles none of its parents, so it was carried before
    obtain ⟨other, found, parentId, hfound, hedge, hreleases, hcarries⟩ :=
      h dagId' childId row hrow hpending fun parentId hedge =>
        hbefore parentId (fun hown => hchild ⟨hown.1, hown.2 ▸ hedge⟩) hedge
    have hne : other ≠ id := by
      rintro rfl
      cases hfound.symm.trans hsession
      obtain ⟨-, htwo | ⟨-, running, hrunning⟩⟩ := releases_iff.mp hreleases
      · omega
      · cases hrunning.symm.trans hidle
    exact ⟨other, found, parentId, by rw [System.get?_put, if_neg hne, hfound], hedge, hreleases,
      hcarries⟩

/-- A commit settles no other job than the one that it completes, and what it
leaves pending it has not written. -/
theorem Interleaved.covered_commit (hdb : db.Submitted) (hrun : Interleaved db allowed system)
    (h : Covered db.dependencies.keys system) (hsession : system.sessions.get? id = some session)
    (hidle : session.running = none)
    (hcommand : command db.dependencies.keys session.program session.counts = .commit) :
    Covered db.dependencies.keys
      { committed := system.view session
        sessions := system.sessions.erase id
        history := system.history ++ [⟨session.program, session.counts, session.changes⟩] } := by
  intro dagId childId row hrow hpending hsettled
  have hsame := hrun.committed_of_view_pending hdb hsession hrow hpending
  obtain ⟨other, found, parentId, hfound, hedge, hreleases, hcarries⟩ :=
    h dagId childId row (hsame.symm.trans hrow) hpending fun parentId hedge => by
      rcases settled_iff.mp (hsettled parentId hedge) with
        hcommitted | ⟨other, found, hfound, hothers⟩
      · rcases hrun.view_cases hdb hsession dagId parentId with
          hview | ⟨_, _, _, new, hview, hmove⟩
        · exact settled_iff.mpr (.inl fun row hold => hcommitted row (hview.trans hold))
        · -- this transaction has completed the parent, so it has also released
          obtain ⟨owner, token, result, now, hprogram⟩ :=
            hmove.to_succeeded (hcommitted new hview)
          have htwo := two_le_of_complete_commits (hprogram ▸ hcommand)
          exact settled_iff.mpr (.inr ⟨id, session, hsession,
            releases_iff.mpr ⟨⟨owner, token, result, now, hprogram⟩, .inl htwo⟩⟩)
      · exact settled_iff.mpr
          (.inr ⟨other, found, (Table.get?_erase_eq_some.mp hfound).2, hothers⟩)
  by_cases hid : other = id
  · -- the committing transaction cannot be the one: it sees the child pending
    subst hid
    cases hfound.symm.trans hsession
    rcases hcarries with ⟨running, hrunning, -⟩ | ⟨row', hrow', hreleased⟩
    · cases hrunning.symm.trans hidle
    · cases hrow'.symm.trans hrow
      exact absurd hpending hreleased
  · refine ⟨other, found, parentId, Table.get?_erase_eq_some.mpr ⟨hid, hfound⟩, hedge, hreleases,
      hcarries.imp_right ?_⟩
    rintro ⟨row', hrow', hreleased⟩
    exact ⟨row', (get?_install_congr hsame found.changes).trans hrow', hreleased⟩

theorem Interleaved.covered_abort (hrun : Interleaved db allowed system)
    (h : Covered db.dependencies.keys system) (hsession : system.sessions.get? id = some session) :
    Covered db.dependencies.keys { system with sessions := system.sessions.erase id } := by
  intro dagId childId row hrow hpending hsettled
  have hsound := hrun.sound
  obtain ⟨other, found, parentId, hfound, hedge, hreleases, hcarries⟩ :=
    h dagId childId row hrow hpending fun parentId hedge => by
      rcases settled_iff.mp (hsettled parentId hedge) with
        hcommitted | ⟨other, found, hfound, hothers⟩
      · exact settled_iff.mpr (.inl hcommitted)
      · exact settled_iff.mpr
          (.inr ⟨other, found, (Table.get?_erase_eq_some.mp hfound).2, hothers⟩)
  have hne : other ≠ id := by
    rintro rfl
    cases hfound.symm.trans hsession
    have hown := hsound.sessions other session hsession
    obtain ⟨change, hchange, hkey⟩ := completes_of_releases hown hreleases
    rcases settled_iff.mp (hsettled parentId hedge) with
      hcommitted | ⟨second, found, hfound', hothers⟩
    · -- a committed success is final
      refine hown.untouched (final_storedTerminal _) ?_ change hchange hkey
      intro stored hstored
      cases stored with
      | dag state => trivial
      | job parent => exact .inl (hcommitted parent hstored)
    · -- only one transaction can have written the parent
      obtain ⟨hne, hold⟩ := Table.get?_erase_eq_some.mp hfound'
      obtain ⟨change', hchange', hkey'⟩ :=
        completes_of_releases (hsound.sessions second found hold) hothers
      exact System.locked_eq_false.mp (hsound.exclusive other session hsession change hchange)
        second found hold hne change' hchange' (hkey'.trans hkey.symm)
  exact ⟨other, found, parentId, Table.get?_erase_eq_some.mpr ⟨hne, hfound⟩, hedge, hreleases,
    hcarries⟩

theorem Covered.execute {dependencies : List DependencyRow}
    (h : Covered dependencies system) (hsession : system.sessions.get? id = some session)
    (hidle : session.running = none)
    (hother : ¬(session.counts.length = 1 ∧ ∃ dagId jobId owner token result now,
      session.program = .complete dagId jobId owner token result now))
    (running : Running StoreKey StoredRow StatementLabel) :
    Covered dependencies (system.put id { session with running := some running }) := by
  refine h.put (fun dagId jobId hreleases => ⟨session, hsession, ?_⟩)
    fun old dagId parentId childId _ hold hreleases _ hcarries => ?_
  · obtain ⟨⟨owner, token, result, now, hprogram⟩, htwo | ⟨hone, -⟩⟩ := releases_iff.mp hreleases
    · exact releases_iff.mpr ⟨⟨owner, token, result, now, hprogram⟩, .inl htwo⟩
    · exact absurd ⟨hone, dagId, jobId, owner, token, result, now, hprogram⟩ hother
  · cases hold.symm.trans hsession
    constructor
    · obtain ⟨hprogram, htwo | ⟨-, running, hrunning⟩⟩ := releases_iff.mp hreleases
      · exact releases_iff.mpr ⟨hprogram, .inl htwo⟩
      · cases hrunning.symm.trans hidle
    · rcases hcarries with ⟨running, hrunning, -⟩ | hreleased
      · cases hrunning.symm.trans hidle
      · exact .inr hreleased

theorem releases_congr {next : StoreSession} (hprogram : next.program = session.program)
    (hcounts : next.counts = session.counts) (hrunning : ∃ running, session.running = some running)
    (hnext : ∃ running, next.running = some running) (dagId jobId : String) :
    releases next dagId jobId = true ↔ releases session dagId jobId = true := by
  rw [releases_iff, releases_iff, hprogram, hcounts]
  simp only [hnext, hrunning]

/-- A visit leaves out a job that is not pending, or makes it so. -/
theorem Interleaved.covered_visit (hdb : db.Submitted) (hrun : Interleaved db allowed system)
    (h : Covered db.dependencies.keys system) (hsession : system.sessions.get? id = some session)
    {running : Running StoreKey StoredRow StatementLabel}
    (hrunning : session.running = some running) {key : StoreKey} {next : StoreSession}
    (hnext : (next = session.skip running key ∧
        (running.skipsLocked = true ∨ ∀ stored, (system.view session).get? key = some stored →
          running.statement.applies running.snapshot key stored = false)) ∨
      ∃ stored, (system.view session).get? key = some stored ∧
        running.statement.applies running.snapshot key stored = true ∧
        next = session.write running key stored) :
    Covered db.dependencies.keys (system.put id next) := by
  have hreleases : ∀ dagId jobId, releases next dagId jobId = true ↔
      releases session dagId jobId = true := by
    rcases hnext with ⟨rfl, -⟩ | ⟨stored, -, -, rfl⟩
    · exact releases_congr rfl rfl ⟨running, hrunning⟩ ⟨_, rfl⟩
    · exact releases_congr rfl rfl ⟨running, hrunning⟩ ⟨_, rfl⟩
  refine h.put (fun dagId jobId hown => ⟨session, hsession, (hreleases _ _).mp hown⟩)
    fun old dagId parentId childId row hold hown hrow hcarries => ?_
  cases hold.symm.trans hsession
  refine ⟨(hreleases _ _).mpr hown, ?_⟩
  rcases hnext with ⟨rfl, hskip⟩ | ⟨stored, hstored, happlies, rfl⟩
  · rcases hrun.view_cases hdb hsession dagId childId with hview | ⟨_, _, _, new, hview, -⟩
    · exact hcarries.skip hrunning (hview.trans hrow) hskip
    · exact hcarries.skip hrunning hview hskip
  · exact hrun.carries_write hdb hsession hrunning hstored happlies hcarries

theorem Covered.finish {dependencies : List DependencyRow}
    (h : Covered dependencies system) (hsession : system.sessions.get? id = some session)
    {running : Running StoreKey StoredRow StatementLabel}
    (hrunning : session.running = some running) (hdone : running.todo = []) :
    Covered dependencies (system.put id
      { session with running := none, counts := session.counts ++ [running.count] }) := by
  refine h.put (fun dagId jobId hreleases => ⟨session, hsession, ?_⟩)
    fun old dagId parentId childId _ hold hreleases _ hcarries => ?_
  · obtain ⟨hprogram, htwo | ⟨-, _, hnone⟩⟩ := releases_iff.mp hreleases
    · refine releases_iff.mpr ⟨hprogram, ?_⟩
      rw [List.length_append, List.length_singleton] at htwo
      by_cases hone : session.counts.length = 1
      · exact .inr ⟨hone, running, hrunning⟩
      · exact .inl (by omega)
    · cases hnone
  · cases hold.symm.trans hsession
    constructor
    · obtain ⟨hprogram, hstarted⟩ := releases_iff.mp hreleases
      refine releases_iff.mpr ⟨hprogram, .inl ?_⟩
      rw [List.length_append, List.length_singleton]
      omega
    · rcases hcarries with ⟨found, hfound, -, htodo, -⟩ | hreleased
      · cases hrunning.symm.trans hfound
        rw [hdone] at htodo
        cases htodo
      · exact .inr hreleased

theorem Interleaved.covered_step (hdb : db.Submitted) (hrun : Interleaved db allowed system)
    (h : Covered db.dependencies.keys system) {next : StoreSystem} {action : StoreAction}
    (hsafe : releaseSafe db.dependencies.keys system action = true)
    (hstep : system.step (command db.dependencies.keys) action = some next) :
    Covered db.dependencies.keys next := by
  have hcases := System.step_cases hstep
  cases action with
  | start id program =>
      obtain ⟨hfree, rfl⟩ := hcases
      refine h.put (fun dagId jobId hreleases => ?_) fun old _ _ _ _ hold => ?_
      · obtain ⟨-, htwo | ⟨hone, -⟩⟩ := releases_iff.mp hreleases
        · simp at htwo
        · simp at hone
      · cases hfree.symm.trans hold
  | execute id =>
      obtain ⟨session, statement, hsession, hidle, hcommand, rfl⟩ := hcases
      -- only the start of a release may leave a child behind, and it is checked
      by_cases hstart : session.counts.length = 1 ∧ ∃ dagId jobId owner token result now,
          session.program = .complete dagId jobId owner token result now
      · obtain ⟨hone, dagId, jobId, owner, token, result, now, hprogram⟩ := hstart
        obtain ⟨changed, hcounts⟩ := List.length_eq_one_iff.mp hone
        rw [hprogram, hcounts] at hcommand
        cases eq_release_of_execute hcommand
        refine hrun.covered_release hdb h hsession hidle hprogram hone ?_
        simpa only [releaseSafe, hsession, hprogram, hcounts] using hsafe
      · exact h.execute hsession hidle hstart _
  | visit id key =>
      obtain ⟨session, running, hsession, hrunning, -, hcase⟩ := hcases
      rcases hcase with ⟨rfl, hskip⟩ | ⟨stored, -, hstored, happlies, rfl⟩
      · exact hrun.covered_visit hdb h hsession hrunning
          (.inl ⟨rfl, hskip.imp And.right And.right⟩)
      · exact hrun.covered_visit hdb h hsession hrunning
          (.inr ⟨stored, hstored, happlies, rfl⟩)
  | finish id =>
      obtain ⟨session, running, hsession, hrunning, hdone, rfl⟩ := hcases
      exact h.finish hsession hrunning hdone
  | commit id =>
      obtain ⟨session, hsession, hidle, hcommand, rfl⟩ := hcases
      exact hrun.covered_commit hdb h hsession hidle hcommand
  | abort id =>
      obtain ⟨session, hsession, rfl⟩ := hcases
      exact hrun.covered_abort h hsession

/-- In a submitted database a pending job has a parent that has not succeeded. -/
theorem Database.Submitted.covered (hdb : db.Submitted) :
    Covered db.dependencies.keys (.new db.stored) := by
  intro dagId childId row hrow hpending hsettled
  obtain ⟨row', hrow', hsame⟩ := (get?_stored_job db dagId childId (.job row)).mp hrow
  cases hsame
  rcases (hdb.untouched hrow').waiting with hready | ⟨-, parentId, hedge, hparent⟩
  · cases hready.symm.trans hpending
  obtain ⟨parent, hparent⟩ := Option.isSome_iff_exists.mp hparent
  rcases settled_iff.mp (hsettled parentId (Table.contains_iff.mp hedge)) with
    hcommitted | ⟨_, _, hnone, -⟩
  · have hsucceeded := hcommitted parent
      ((get?_stored_job db dagId parentId (.job parent)).mpr ⟨parent, hparent, rfl⟩)
    rcases (hdb.untouched hparent).waiting with hready | ⟨hwaiting, -⟩
    · cases hready.symm.trans hsucceeded
    · cases hwaiting.symm.trans hsucceeded
  · cases hnone

/-- The actions that start a release only where that is safe. -/
def ReleaseSafe (db : Database) (system : StoreSystem) (action : StoreAction) : Prop :=
  releaseSafe db.dependencies.keys system action = true

theorem Interleaved.covered (hdb : db.Submitted)
    (hrun : Interleaved db (ReleaseSafe db) system) : Covered db.dependencies.keys system := by
  induction hrun with
  | new => exact hdb.covered
  | step action hreachable hsafe hstep ih =>
      exact Interleaved.covered_step hdb hreachable ih hsafe hstep

end

/-- No release is lost in an interleaving whose releases start only where that is
safe: when no transaction is open, no pending job has only succeeded parents. -/
theorem no_lost_release {db : Database} (hdb : db.Submitted) {system : StoreSystem}
    (hrun : Interleaved db (ReleaseSafe db) system)
    (hidle : ∀ id, system.sessions.get? id = none) :
    ¬LostRelease db.dependencies.keys system.committed := by
  rintro ⟨dagId, childId, row, -, hrow, hpending, hparents⟩
  obtain ⟨id, session, -, hsession, -⟩ :=
    hrun.covered hdb dagId childId row hrow hpending fun parentId hedge => by
      refine settled_iff.mpr (.inl fun parent hparent => ?_)
      exact Snapshot.parentsSucceeded_iff.mp hparents _ hedge rfl rfl parent
        (job?_snapshotOf.mpr hparent)
  cases (hidle id).symm.trans hsession

/-! ## Two parents and one child -/

def joinDatabase : Database :=
  (PostgresStore.submit .empty
    ⟨"join", [⟨"left", .uppercase, "", 1, 0⟩, ⟨"right", .uppercase, "", 1, 0⟩,
        ⟨"child", .uppercase, "", 1, 0⟩],
      [⟨"left", "child"⟩, ⟨"right", "child"⟩]⟩ 0).2

/-- Two workers claim the parents, and both completions have written their results. -/
def joinPrefix : List StoreAction :=
  [.start 0 (.claim "first" 7 1000 10), .execute 0, .finish 0, .execute 0,
    .visit 0 (.job "join" "left"), .finish 0, .commit 0,
    .start 1 (.claim "second" 8 1000 10), .execute 1, .finish 1, .execute 1,
    .visit 1 (.job "join" "right"), .finish 1, .commit 1,
    .start 2 (.complete "join" "left" "first" 7 "done" 20), .execute 2,
    .visit 2 (.job "join" "left"), .finish 2,
    .start 3 (.complete "join" "right" "second" 8 "done" 20), .execute 3,
    .visit 3 (.job "join" "right"), .finish 3]

/-- The second release starts after the first completion has committed. -/
def separatedActions : List StoreAction :=
  joinPrefix ++ [.execute 2, .finish 2, .commit 2,
    .execute 3, .visit 3 (.job "join" "child"), .finish 3, .commit 3]

/-- Both releases start before one of the completions has committed. -/
def overlappingActions : List StoreAction :=
  joinPrefix ++ [.execute 2, .finish 2, .execute 3, .finish 3, .commit 2, .commit 3]

theorem idle_of_keys {system : StoreSystem} (h : system.sessions.keys = []) (id : ℕ) :
    system.sessions.get? id = none := by
  rw [Table.get?_eq_none_iff, h]
  exact List.not_mem_nil

theorem releaseSafe_systemAfter {db : Database} {actions : List StoreAction}
    (hpossible : ((System.new db.stored).runChecked (command db.dependencies.keys)
      (releaseSafe db.dependencies.keys) actions).isSome = true) :
    Interleaved db (ReleaseSafe db) (db.systemAfter actions) := by
  obtain ⟨last, hlast⟩ := Option.isSome_iff_exists.mp hpossible
  have hsystem : db.systemAfter actions = last := by
    rw [Database.systemAfter, System.run_of_runChecked hlast]
    rfl
  rw [hsystem]
  exact Reachable.new.runChecked hlast

/-- The second completion releases the child. -/
theorem no_lost_release_separated :
    ¬LostRelease joinDatabase.dependencies.keys
      (joinDatabase.systemAfter separatedActions).committed :=
  no_lost_release (.submit _ 0 .empty) (releaseSafe_systemAfter (by decide))
    (idle_of_keys (by decide))

/-- Nobody releases the child. -/
theorem lost_release_overlapping :
    ¬∀ (db : Database), db.Submitted → ∀ system : StoreSystem,
      Interleaved db anyAction system → (∀ id, system.sessions.get? id = none) →
      ¬LostRelease db.dependencies.keys system.committed := by
  intro hclaim
  refine hclaim joinDatabase (.submit _ 0 .empty) (joinDatabase.systemAfter overlappingActions)
    (interleaved_systemAfter (by decide)) (idle_of_keys (by decide)) ?_
  exact ⟨"join", "child", ⟨.uppercase, "", 1, 0, 0, .pending, 0, none, none, none, none⟩,
    by decide, by decide, rfl, by decide⟩

end JobOrchestrator
