import JobOrchestrator.Library.Waiting
import JobOrchestrator.Store.Quiescence

/-!
# Deadlocks

Two updates that lock the same rows in different orders may wait for each other, and
then PostgreSQL aborts one of them.  This module says which calls that can happen to.

A heartbeat, a failure report and the first statement of a completion lock a single
row, before they hold anything.  What is left is the reap (also in front of a claim),
the release of children and the update of a cancellation.  A release waits for
cancellations of its own graph only: whoever else has written a child of the completed
job has seen all its parents succeeded, which that job has not yet.  And cancellations
do not wait for each other once they have marked their graphs.  So every deadlock is
one of reaps alone, or has a cancellation in it, which waits for a reap or a release
(`deadlocks_classified`).
-/

namespace JobOrchestrator

open ReadCommitted

/-- The transaction is in the update that ends expired leases. -/
def Reaping (session : StoreSession) : Prop :=
  session.counts = [] ∧ ((∃ now, session.program = .reap now) ∨
    ∃ owner token leaseMs now, session.program = .claim owner token leaseMs now)

/-- The transaction is in the update that releases children of a job of the graph. -/
def Releasing (dagId : String) (session : StoreSession) : Prop :=
  session.counts.length = 1 ∧ ∃ jobId owner token result now,
    session.program = .complete dagId jobId owner token result now

/-- The transaction is in the update that cancels the jobs of the graph. -/
def Cancelling (dagId : String) (session : StoreSession) : Prop :=
  session.counts.length = 1 ∧ session.program = .cancel dagId

/-- The transaction under this number is open, and in such a position. -/
def Finds (system : StoreSystem) (position : StoreSession → Prop) (id : ℕ) : Prop :=
  ∃ session, system.sessions.get? id = some session ∧ position session

section

variable {db : Database} {allowed : StoreSystem → StoreAction → Prop} {system : StoreSystem}
  {id other : ℕ} {session blocker : StoreSession} {dagId : String}

/-! ## Who waits and holds a lock -/

/-- An `UPDATE jobs` applies to the rows of jobs only. -/
theorem job_of_applies {update : JobUpdate} {dependencies : List DependencyRow}
    {label : StatementLabel} {scan : Scan StoreKey StoredRow}
    {snapshot : Table StoreKey StoredRow} {key : StoreKey} {stored : StoredRow}
    (happlies : (update.statement dependencies label scan).applies snapshot key stored = true) :
    ∃ dagId jobId row, key = .job dagId jobId ∧
      update.applies (snapshotOf dependencies snapshot) dagId jobId row = true := by
  cases key with
  | dag id => cases stored <;> cases happlies
  | job dagId jobId =>
      cases stored with
      | dag state => cases happlies
      | job row => exact ⟨dagId, jobId, row, rfl, happlies⟩

theorem key_of_leaseMatches {update : JobUpdate} {dagId jobId owner : String} {token : Uuid}
    {now : ℤ} (hupdate : update.applies = fun _ => leaseMatches dagId jobId owner token now)
    {dependencies : List DependencyRow} {label : StatementLabel} {scan : Scan StoreKey StoredRow}
    {snapshot : Table StoreKey StoredRow} {key : StoreKey} {stored : StoredRow}
    (happlies : (update.statement dependencies label scan).applies snapshot key stored = true) :
    key = .job dagId jobId := by
  obtain ⟨dagId', jobId', row, rfl, hmatches⟩ := job_of_applies happlies
  rw [hupdate] at hmatches
  obtain ⟨rfl, rfl, -⟩ := leaseMatches_cases hmatches
  rfl

/-- A transaction that waits and holds a lock is in one of the statements on several rows. -/
theorem Interleaved.waits_cases (h : Interleaved db allowed system)
    (hsession : system.sessions.get? id = some session) (hwaits : system.Waits id other)
    {held : StoreKey} (hwrote : session.wrote held = true) :
    Reaping session ∨ (∃ dagId, Releasing dagId session) ∨ ∃ dagId, Cancelling dagId session := by
  obtain ⟨-, found, running, -, next, hfound, hrunning, hskips, hreaches, -⟩ := hwaits
  cases hsession.symm.trans hfound
  have hsound := h.sound.sessions id session hsession
  have hexecutes := executes_of_command (hsound.running running hrunning).1
  have hleft : running.todo ≠ [] := List.ne_nil_of_mem (Running.mem_todo hreaches)
  -- a first statement on a single row has no row left
  have hsingle : ∀ only : StoreKey, session.counts.length = 0 →
      (∀ snapshot key row, running.statement.applies snapshot key row = true → key = only) →
      False := by
    intro only hzero honly
    exact hleft ((h.tidy id session hsession).todo_eq_nil hsound hrunning
      (List.length_eq_zero_iff.mp hzero) honly hwrote)
  unfold Running.skipsLocked at hskips
  generalize hlength : session.counts.length = index at hexecutes hsingle
  generalize hprogram : session.program = program at hexecutes
  generalize running.statement = statement at hexecutes hsingle hskips
  cases hexecutes with
  | reapFirst owner token leaseMs now =>
      exact .inl ⟨List.length_eq_zero_iff.mp hlength, .inr ⟨owner, token, leaseMs, now, hprogram⟩⟩
  | claim owner token leaseMs now => cases hskips
  | heartbeat dagId jobId owner token leaseMs now =>
      exact (hsingle (.job dagId jobId) rfl fun _ _ _ => key_of_leaseMatches rfl).elim
  | complete dagId jobId owner token result now =>
      exact (hsingle (.job dagId jobId) rfl fun _ _ _ => key_of_leaseMatches rfl).elim
  | release dagId jobId owner token result now =>
      exact .inr (.inl ⟨dagId, hlength, jobId, owner, token, result, now, hprogram⟩)
  | fail dagId jobId owner token now =>
      exact (hsingle (.job dagId jobId) rfl fun _ _ _ => key_of_leaseMatches rfl).elim
  | reap now => exact .inl ⟨List.length_eq_zero_iff.mp hlength, .inl ⟨now, hprogram⟩⟩
  | markDag dagId =>
      refine (hsingle (.dag dagId) rfl fun snapshot key row happlies => ?_).elim
      simpa [markDagStatement] using happlies
  | cancelJobs dagId => exact .inr (.inr ⟨dagId, hlength, hprogram⟩)

/-! ## What a release waits for -/

/-- Who has written the child of a job, and not to cancel it, sees the parents succeeded. -/
theorem Interleaved.parent_of_wrote (hdb : db.Submitted) (h : Interleaved db allowed system)
    (hblocker : system.sessions.get? other = some blocker) {parentId childId : String}
    (hedge : ⟨dagId, parentId, childId⟩ ∈ db.dependencies.keys)
    (hwrote : blocker.wrote (.job dagId childId) = true)
    (hprogram : blocker.program ≠ .cancel dagId) :
    ∃ stored, (system.view blocker).get? (.job dagId parentId) = some stored ∧
      StoredTerminal (.job dagId parentId) stored := by
  have hguarded := (h.guarded (guards_release hdb.holds.1) hdb.guarded).views other blocker hblocker
  rcases get?_install_cases system.committed blocker.changes (.job dagId childId) with
    ⟨hnone, -⟩ | ⟨change, hchange, hkey, hview⟩
  · rw [Session.wrote_eq_false.mpr hnone] at hwrote
    cases hwrote
  · obtain ⟨old, new, hnew, hmove⟩ := h.rowChange hdb hblocker hchange hkey
    have hreleased : new.Released :=
      ⟨hmove.not_pending, fun hcancelled => hprogram (hmove.eq_cancel hcancelled)⟩
    have hrow : (system.view blocker).get? (.job dagId childId) = some (.job new) :=
      hview.trans (congrArg some hnew)
    obtain ⟨stored, hparent, hsucceeded⟩ := hguarded _ _ hrow hreleased parentId hedge
    refine ⟨stored, hparent, ?_⟩
    cases stored with
    | dag state => trivial
    | job parent => exact .inl (hsucceeded parent rfl)

theorem child_of_applies {dependencies : List DependencyRow} {dagId parentId : String} {now : ℤ}
    {label : StatementLabel} {scan : Scan StoreKey StoredRow} {snapshot : Table StoreKey StoredRow}
    {key : StoreKey} {stored : StoredRow}
    (happlies : ((releaseStatement dagId parentId now).statement dependencies label scan).applies
      snapshot key stored = true) :
    ∃ childId, key = .job dagId childId ∧ ⟨dagId, parentId, childId⟩ ∈ dependencies := by
  obtain ⟨dagId', childId, row, rfl, hchild⟩ := job_of_applies happlies
  simp only [releaseStatement, Bool.and_eq_true, List.any_eq_true, decide_eq_true_eq] at hchild
  obtain ⟨⟨⟨rfl, -⟩, edge, hedge, rfl⟩, -⟩ := hchild
  exact ⟨childId, rfl, hedge⟩

/-- A release only waits for cancellations of its own graph: nobody else has written
a child of a job whose success is not committed. -/
theorem Interleaved.cancel_of_release_waits (hdb : db.Submitted) (h : Interleaved db allowed system)
    (hsession : system.sessions.get? id = some session) (hreleasing : Releasing dagId session)
    (hwaits : system.Waits id other) :
    Finds system (fun blocker => blocker.program = .cancel dagId) other := by
  obtain ⟨hne, found, running, blocker, key, hfound, hrunning, -, hreaches, hblocker, hwrote⟩ :=
    hwaits
  cases hsession.symm.trans hfound
  obtain ⟨hlength, parentId, owner, token, result, now, hprogram⟩ := hreleasing
  refine ⟨blocker, hblocker, ?_⟩
  by_contra hother
  have hsound := h.sound.sessions id session hsession
  -- the row that is waited for is that of a child
  obtain ⟨stored, -, happlies⟩ :=
    (h.tidy id session hsession).candidate running hrunning key (Running.mem_todo hreaches)
  have hexecutes := executes_of_command (hsound.running running hrunning).1
  rw [hlength, hprogram] at hexecutes
  obtain ⟨childId, rfl, hedge⟩ : ∃ childId, key = .job dagId childId ∧
      ⟨dagId, parentId, childId⟩ ∈ db.dependencies.keys := by
    generalize running.statement = statement at hexecutes happlies
    cases hexecutes
    exact child_of_applies happlies
  obtain ⟨parent, hparent, hterminal⟩ := h.parent_of_wrote hdb hblocker hedge hwrote hother
  -- but the parent is locked by the release, so that its success is not committed
  have hreleases : releases session dagId parentId = true :=
    releases_iff.mpr ⟨⟨owner, token, result, now, hprogram⟩, .inr ⟨hlength, running, hrunning⟩⟩
  obtain ⟨change, hchange, hkey⟩ := completes_of_releases hsound hreleases
  have hfree : ∀ change ∈ blocker.changes, change.key ≠ .job dagId parentId :=
    System.locked_eq_false.mp (hkey ▸ h.sound.exclusive id session hsession change hchange)
      other blocker hblocker hne
  have hcommitted : system.committed.get? (.job dagId parentId) = some parent :=
    (get?_install_of_ne hfree _).symm.trans hparent
  refine hsound.untouched (final_storedTerminal _) (fun row hrow => ?_) change hchange hkey
  cases hcommitted.symm.trans hrow
  exact hterminal

/-! ## What a cancellation waits for -/

/-- A cancellation that has come to its second statement has marked its graph. -/
theorem marks_of_executed {dependencies : List DependencyRow}
    {committed : Table StoreKey StoredRow}
    (hsound : session.Sound (command dependencies) committed)
    (hprogram : session.program = .cancel dagId) (hlength : 1 ≤ session.counts.length)
    {statement : Statement StoreKey StoredRow StatementLabel}
    (hexecuted : command dependencies session.program (session.counts.take 1) =
      .execute statement) :
    ∃ change ∈ session.changes, change.key = .dag dagId := by
  obtain ⟨marked, hmarked⟩ : ∃ marked, session.counts[0]? = some marked :=
    ⟨_, List.getElem?_eq_getElem (by omega)⟩
  have hcount := hmarked.symm.trans (hsound.counted 0 hlength)
  have hpositive : marked ≠ 0 := by
    rintro rfl
    -- a cancellation of an unknown graph ends after its first statement
    have htake : session.counts.take 1 = [0] := by
      rw [List.take_one, List.head?_eq_getElem?, hmarked]
      rfl
    rw [hprogram, htake] at hexecuted
    cases hexecuted
  obtain ⟨change, hchange, hindex⟩ := List.countP_pos_iff.mp
    (Nat.pos_of_ne_zero ((Option.some.inj hcount) ▸ hpositive))
  obtain ⟨first, snapshot, -, hfirst, -, happlies, -⟩ := hsound.justified change hchange
  rw [of_decide_eq_true hindex, List.take_zero, hprogram] at hfirst
  cases unlessError_eq_execute hfirst
  exact ⟨change, hchange, by simpa [markDagStatement] using happlies⟩

/-- Two cancellations that update jobs do not wait for each other: they have marked
their graphs, which are different ones. -/
theorem Interleaved.not_cancel_of_cancel_waits (hdb : db.Submitted)
    (h : Interleaved db allowed system) (hsession : system.sessions.get? id = some session)
    (hcancelling : Cancelling dagId session) (hwaits : system.Waits id other) :
    Finds system (fun blocker => ∀ otherId, blocker.program ≠ .cancel otherId) other := by
  obtain ⟨hne, found, running, blocker, key, hfound, hrunning, -, hreaches, hblocker, hwrote⟩ :=
    hwaits
  cases hsession.symm.trans hfound
  obtain ⟨hlength, hprogram⟩ := hcancelling
  refine ⟨blocker, hblocker, fun otherId hother => ?_⟩
  have hsound := h.sound.sessions id session hsession
  have hscript := (hsound.running running hrunning).1
  obtain ⟨stored, -, happlies⟩ :=
    (h.tidy id session hsession).candidate running hrunning key (Running.mem_todo hreaches)
  have hexecutes := executes_of_command hscript
  rw [hlength, hprogram] at hexecutes
  obtain ⟨jobId, rfl⟩ : ∃ jobId, key = .job dagId jobId := by
    generalize running.statement = statement at hexecutes happlies
    cases hexecutes
    obtain ⟨dagId', jobId, row, rfl, hopen⟩ := job_of_applies happlies
    simp only [cancelStatement, Bool.and_eq_true, decide_eq_true_eq] at hopen
    exact ⟨jobId, by rw [hopen.1]⟩
  obtain ⟨change, hchange, hkey⟩ := List.any_eq_true.mp hwrote
  have hkey := of_decide_eq_true hkey
  obtain ⟨old, new, -, hmove⟩ := h.rowChange hdb hblocker hchange hkey
  obtain ⟨statement, -, hindex, hexecuted, -⟩ :=
    (h.sound.sessions other blocker hblocker).justified change hchange
  rw [hother] at hmove
  generalize change.index = index at hmove hindex hexecuted
  generalize change.label = label at hmove
  -- the row has been written to cancel it, so that both have marked the graph
  cases hmove
  obtain ⟨marking, hmarking, hmarked⟩ :=
    marks_of_executed (h.sound.sessions other blocker hblocker) hother hindex hexecuted
  have htake : session.counts.take 1 = session.counts :=
    List.take_of_length_le hlength.le
  obtain ⟨own, hown, hsame⟩ :=
    marks_of_executed hsound hprogram hlength.ge (htake.symm ▸ hscript)
  exact System.locked_eq_false.mp (h.sound.exclusive id session hsession own hown) other blocker
    hblocker hne marking hmarking (hmarked.trans hsame.symm)

/-! ## Circles -/

/-- Who waits in a circle is in one of the statements on several rows. -/
theorem Interleaved.position_of_circle (h : Interleaved db allowed system)
    (hcircle : system.SameCircle id id) :
    ∃ session, system.sessions.get? id = some session ∧
      (Reaping session ∨ (∃ dagId, Releasing dagId session) ∨
        ∃ dagId, Cancelling dagId session) := by
  obtain ⟨other, session, held, hwaits, -, hsession, hwrote⟩ := hcircle.waits
  exact ⟨session, hsession, h.waits_cases hsession hwaits hwrote⟩

/-- In a circle a release waits for a cancellation of its graph, and a cancellation for
a reap or a release. -/
theorem Interleaved.circle_cases (hdb : db.Submitted) (h : Interleaved db allowed system)
    (hwaits : system.Waits id other) (hcircle : system.SameCircle id other) :
    Finds system Reaping id ∨
      (∃ dagId, Finds system (Releasing dagId) id ∧ Finds system (Cancelling dagId) other) ∨
      ∃ dagId, Finds system (Cancelling dagId) id ∧
        (Finds system Reaping other ∨ ∃ otherId, Finds system (Releasing otherId) other) := by
  obtain ⟨session, hsession, hposition⟩ := h.position_of_circle (hcircle.trans hcircle.symm)
  obtain ⟨blocker, hblocker, hblocks⟩ := h.position_of_circle (hcircle.symm.trans hcircle)
  rcases hposition with hreaping | ⟨dagId, hreleasing⟩ | ⟨dagId, hcancelling⟩
  · exact .inl ⟨session, hsession, hreaping⟩
  · obtain ⟨found, hfound, hcancels⟩ := h.cancel_of_release_waits hdb hsession hreleasing hwaits
    cases hblocker.symm.trans hfound
    refine .inr (.inl ⟨dagId, ⟨session, hsession, hreleasing⟩, blocker, hblocker, ?_⟩)
    rcases hblocks with ⟨-, ⟨now, hreaps⟩ | ⟨owner, token, leaseMs, now, hclaims⟩⟩ |
      ⟨otherId, -, jobId, owner, token, result, now, hcompletes⟩ | ⟨otherId, hlength, -⟩
    · cases hreaps.symm.trans hcancels
    · cases hclaims.symm.trans hcancels
    · cases hcompletes.symm.trans hcancels
    · exact ⟨hlength, hcancels⟩
  · obtain ⟨found, hfound, hother⟩ :=
      h.not_cancel_of_cancel_waits hdb hsession hcancelling hwaits
    cases hblocker.symm.trans hfound
    refine .inr (.inr ⟨dagId, ⟨session, hsession, hcancelling⟩, ?_⟩)
    rcases hblocks with hreaping | ⟨otherId, hreleasing⟩ | ⟨otherId, -, hcancels⟩
    · exact .inl ⟨blocker, hblocker, hreaping⟩
    · exact .inr ⟨otherId, blocker, hblocker, hreleasing⟩
    · exact absurd hcancels (hother otherId)

/-- A circle without a cancellation consists of reaps. -/
theorem Interleaved.reaps_or_cancels (hdb : db.Submitted) (h : Interleaved db allowed system)
    (id : ℕ) :
    (∀ other, system.SameCircle id other → Finds system Reaping other) ∨
      ∃ other dagId, system.SameCircle id other ∧ Finds system (Cancelling dagId) other := by
  by_contra! hneither
  obtain ⟨⟨other, hcircle, hother⟩, hnone⟩ := hneither
  obtain ⟨next, -, -, hwaits, hnext, -⟩ := (hcircle.symm.trans hcircle).waits
  rcases h.circle_cases hdb hwaits hnext with hreaping | ⟨dagId, -, hcancels⟩ |
    ⟨dagId, hcancels, -⟩
  · exact hother hreaping
  · exact hnone next dagId (hcircle.trans hnext) hcancels
  · exact hnone other dagId hcircle hcancels

end

/-- An open transaction goes on or waits for another one.  When none goes on, some of
them wait for each other in a circle, which lasts until one of them is aborted.  In a
circle everybody ends expired leases, releases children, and then waits for a
cancellation of the same graph, or cancels jobs, and then waits for one of the former:
so a circle consists of reaps, or it has a cancellation in it. -/
theorem deadlocks_classified {db : Database} (hdb : db.Submitted) {system : StoreSystem}
    (hrun : Interleaved db anyAction system) :
    (∀ id session, system.sessions.get? id = some session →
        system.CanMove (command db.dependencies.keys) id ∨ ∃ other, system.Waits id other) ∧
      (system.sessions.entries ≠ [] →
        (∀ id session, system.sessions.get? id = some session →
          ¬system.CanMove (command db.dependencies.keys) id) → ∃ id, system.SameCircle id id) ∧
      (∀ id other action next, system.SameCircle id other →
        system.step (command db.dependencies.keys) action = some next →
        (∀ member, system.SameCircle id member → action ≠ .abort member) →
          next.SameCircle id other) ∧
      (∀ id other, system.Waits id other → system.SameCircle id other →
        Finds system Reaping id ∨
          (∃ dagId, Finds system (Releasing dagId) id ∧ Finds system (Cancelling dagId) other) ∨
          ∃ dagId, Finds system (Cancelling dagId) id ∧
            (Finds system Reaping other ∨
              ∃ otherId, Finds system (Releasing otherId) other)) ∧
      ∀ id, (∀ other, system.SameCircle id other → Finds system Reaping other) ∨
        ∃ other dagId, system.SameCircle id other ∧ Finds system (Cancelling dagId) other := by
  have hmoves : ∀ id session, system.sessions.get? id = some session →
      system.CanMove (command db.dependencies.keys) id ∨ ∃ other, system.Waits id other :=
    fun id session => System.canMove_or_waits _
  refine ⟨hmoves, fun hopen hstuck => ?_,
    fun id other action next hcircle hstep => hcircle.step hstep,
    fun id other => hrun.circle_cases hdb, hrun.reaps_or_cancels hdb⟩
  obtain ⟨id, hcircle⟩ := System.exists_circle hopen fun id session hsession =>
    (hmoves id session hsession).resolve_left (hstuck id session hsession)
  exact ⟨id, hcircle, hcircle⟩

/-- Two leases have expired, and two workers ask for work. -/
def expiredActions : List StoreAction :=
  [.start 0 (.claim "first" 7 1000 10), .execute 0, .finish 0, .execute 0,
    .visit 0 (.job "join" "left"), .finish 0, .commit 0,
    .start 1 (.claim "second" 8 1000 10), .execute 1, .finish 1, .execute 1,
    .visit 1 (.job "join" "right"), .finish 1, .commit 1,
    .start 2 (.claim "third" 9 1000 2000000), .execute 2,
    .start 3 (.claim "fourth" 10 1000 2000000), .execute 3,
    .visit 2 (.job "join" "left"), .visit 3 (.job "join" "right")]

/-- Each has ended one of the leases, and waits for the other one. -/
theorem deadlocks_classified_expired :
    (joinDatabase.systemAfter expiredActions).SameCircle 2 3 ∧
      ∀ id, (joinDatabase.systemAfter expiredActions).SameCircle 2 id →
        Finds (joinDatabase.systemAfter expiredActions) Reaping id := by
  have hrun := interleaved_systemAfter (show ((System.new joinDatabase.stored).run
    (command joinDatabase.dependencies.keys) expiredActions).isSome = true by decide)
  have hprograms : (joinDatabase.systemAfter expiredActions).sessions.entries.map
      (fun entry => entry.2.program) =
        [.claim "third" 9 1000 2000000, .claim "fourth" 10 1000 2000000] := rfl
  generalize hsystem : joinDatabase.systemAfter expiredActions = system at hrun hprograms ⊢
  have hthird : system.Waits 2 3 := hsystem ▸
    ⟨by decide, _, _, _, .job "join" "right", rfl, rfl, rfl, by decide, rfl, by decide⟩
  have hfourth : system.Waits 3 2 := hsystem ▸
    ⟨by decide, _, _, _, .job "join" "left", rfl, rfl, rfl, by decide, rfl, by decide⟩
  obtain ⟨-, -, -, -, hkinds⟩ := deadlocks_classified (.submit _ 0 .empty) hrun
  refine ⟨⟨.single hthird, .single hfourth⟩, (hkinds 2).resolve_right ?_⟩
  -- nobody cancels
  rintro ⟨other, dagId, -, session, hsession, -, hcancels⟩
  have hprogram := List.mem_map_of_mem (f := fun entry => entry.2.program)
    (Table.mem_entries.mpr hsession)
  rw [hprograms, hcancels] at hprogram
  simp at hprogram

end JobOrchestrator
