import JobOrchestrator.Store.Effects
import JobOrchestrator.Store.Submit

/-!
# The event log as evidence

`job_events` is written by `claim`, `complete` and `fail`, each in the
transaction that changes the row.  `reap_in_transaction` changes rows and writes
nothing, although it moves an exhausted job to the dead-letter state just as
`fail` does.

`RowMove` says what a transaction without reaping does to one row and to the
events about its job.  It keeps `Recorded`: the claims are numbered from one to
`attempts`, a success has its event, and a dead-letter event belongs to a
dead-lettered job.  It also keeps the jobs that are `Unrecorded`, dead-lettered
without an event; only reaping adds to them.  `event_log_complete_iff` is the
resulting account of whole runs.
-/

namespace JobOrchestrator

/-! ## Serial runs -/

/-- A call of the store. -/
inductive StoreCall
  | submit (spec : DagSpec)
  | claim (owner : String) (leaseMs : ℤ) (token : Uuid)
  | heartbeat (dagId jobId owner : String) (token : Uuid) (leaseMs : ℤ)
  | complete (dagId jobId owner : String) (token : Uuid) (result : String)
  | fail (dagId jobId owner : String) (token : Uuid)
  | reap
  | cancel (dagId : String)

/-- The committed database after a call. -/
def StoreCall.perform (db : Database) (now : ℤ) : StoreCall → Database
  | .submit spec => (PostgresStore.submit db spec now).2
  | .claim owner leaseMs token => (PostgresStore.claim db owner leaseMs token now).2
  | .heartbeat dagId jobId owner token leaseMs =>
      (PostgresStore.heartbeat db dagId jobId owner token leaseMs now).2
  | .complete dagId jobId owner token result =>
      (PostgresStore.complete db dagId jobId owner token result now).2
  | .fail dagId jobId owner token => (PostgresStore.fail db dagId jobId owner token now).2
  | .reap => (PostgresStore.reap db now).2
  | .cancel dagId => (PostgresStore.cancel db dagId).2

namespace Database

/-- The database after calls one after the other, each at its own time. -/
def performAll : Database → List (ℤ × StoreCall) → Database
  | db, [] => db
  | db, (now, call) :: rest => performAll (call.perform db now) rest

/-! ## The events about a job -/

/-- Type and attempt of the events about a job, in sequence order. -/
def eventsOf (db : Database) (dagId jobId : String) : List (String × ℕ) :=
  (db.events.filter fun event => event.dagId = dagId ∧ event.jobId = jobId).map
    fun event => (event.eventType, event.attempt)

end Database

/-- The attempts that the events of a type carry. -/
def attemptsOf (eventType : String) (history : List (String × ℕ)) : List ℕ :=
  (history.filter fun entry => entry.1 = eventType).map Prod.snd

@[simp] theorem attemptsOf_nil (eventType : String) : attemptsOf eventType [] = [] := rfl

@[simp] theorem attemptsOf_append (eventType added : String) (attempt : ℕ)
    (history : List (String × ℕ)) :
    attemptsOf eventType (history ++ [(added, attempt)]) =
      attemptsOf eventType history ++ if added = eventType then [attempt] else [] := by
  unfold attemptsOf
  rw [List.filter_append, List.map_append]
  by_cases hsame : added = eventType <;> simp [hsame]

theorem Database.eventsOf_of_append {before after : Database} {dagId jobId eventType owner : String}
    {attempt : ℕ}
    (hevents : after.events = before.events ++ [⟨dagId, jobId, eventType, attempt, owner⟩])
    (dagId' jobId' : String) :
    after.eventsOf dagId' jobId' = before.eventsOf dagId' jobId' ++
      if dagId = dagId' ∧ jobId = jobId' then [(eventType, attempt)] else [] := by
  unfold Database.eventsOf
  rw [hevents, List.filter_append, List.map_append]
  by_cases hsame : dagId = dagId' ∧ jobId = jobId' <;> simp [hsame]

/-- The log is complete evidence: the claims of every job carry its attempts in
sequence, and a terminal outcome has exactly one event, of the final attempt. -/
def Database.Evidenced (db : Database) : Prop :=
  ∀ dagId jobId row, db.jobs.get? (dagId, jobId) = some row →
    attemptsOf "claimed" (db.eventsOf dagId jobId) = List.range' 1 row.attempts ∧
    (row.state = .succeeded →
      attemptsOf "succeeded" (db.eventsOf dagId jobId) = [row.attempts]) ∧
    (row.state = .deadLettered →
      attemptsOf "dead_lettered" (db.eventsOf dagId jobId) = [row.attempts])

/-! ## One row and its events -/

/-- What a transaction does to a row and to the events about its job, apart from reaping. -/
inductive RowMove : JobRow → List (String × ℕ) → JobRow → List (String × ℕ) → Prop
  | keep (row : JobRow) (history : List (String × ℕ)) : RowMove row history row history
  | extend (row : JobRow) (history : List (String × ℕ)) (expires : ℤ) :
      RowMove row history { row with leaseExpiresAt := some expires } history
  | grant (row : JobRow) (history : List (String × ℕ)) (owner : String) (token : Uuid)
      (leaseMs now : ℤ) : row.state = .ready ∨ row.state = .retryWait →
      RowMove row history (grantLease owner token leaseMs now row)
        (history ++ [("claimed", row.attempts + 1)])
  | succeed (row : JobRow) (history : List (String × ℕ)) (result : String) :
      row.state = .leased →
      RowMove row history (succeededRow result row) (history ++ [("succeeded", row.attempts)])
  | release (row : JobRow) (history : List (String × ℕ)) (now : ℤ) : row.state = .pending →
      RowMove row history (releasedRow now row) history
  | fail (row : JobRow) (history : List (String × ℕ)) (now : ℤ) : row.state = .leased →
      RowMove row history (retryRow now row)
        (history ++ [(PostgresStore.stateName (retryRow now row).state, row.attempts)])
  | cancel (row : JobRow) (history : List (String × ℕ)) :
      row.state ≠ .succeeded → row.state ≠ .deadLettered →
      RowMove row history { row.unleased with state := .cancelled } history

/-- What the events about a job say of its row, whoever ended its leases. -/
structure Recorded (row : JobRow) (history : List (String × ℕ)) : Prop where
  claimed : attemptsOf "claimed" history = List.range' 1 row.attempts
  succeeded : attemptsOf "succeeded" history =
    if row.state = .succeeded then [row.attempts] else []
  deadLettered : attemptsOf "dead_lettered" history = [] ∨
    row.state = .deadLettered ∧ attemptsOf "dead_lettered" history = [row.attempts]

/-- Dead-lettered without an event. -/
def Unrecorded (row : JobRow) (history : List (String × ℕ)) : Prop :=
  row.state = .deadLettered ∧ attemptsOf "dead_lettered" history = []

theorem Recorded.deadLettered_eq_nil {row : JobRow} {history : List (String × ℕ)}
    (h : Recorded row history) (hstate : row.state ≠ .deadLettered) :
    attemptsOf "dead_lettered" history = [] := by
  rcases h.deadLettered with hnil | ⟨hdead, -⟩
  · exact hnil
  · exact absurd hdead hstate

/-- A row that enters no terminal state with an event keeps what was recorded. -/
theorem Recorded.transfer {row row' : JobRow} {history : List (String × ℕ)}
    (h : Recorded row history) (hattempts : row'.attempts = row.attempts)
    (hbefore : row.state ≠ .succeeded ∧ row.state ≠ .deadLettered)
    (hafter : row'.state ≠ .succeeded) : Recorded row' history where
  claimed := hattempts ▸ h.claimed
  succeeded := by rw [h.succeeded, if_neg hbefore.1, if_neg hafter]
  deadLettered := .inl (h.deadLettered_eq_nil hbefore.2)

/-- A failure ends the attempt, and records the death of an exhausted job. -/
theorem Recorded.failed {row : JobRow} {history : List (String × ℕ)} (h : Recorded row history)
    (hleased : row.state = .leased) (now : ℤ) :
    Recorded (retryRow now row)
        (history ++ [(PostgresStore.stateName (retryRow now row).state, row.attempts)]) ∧
      ¬Unrecorded (retryRow now row)
        (history ++ [(PostgresStore.stateName (retryRow now row).state, row.attempts)]) := by
  have hnone := h.deadLettered_eq_nil (by simp [hleased])
  have hsucceeded := h.succeeded
  rw [hleased, if_neg (by simp)] at hsucceeded
  by_cases hexhausted : row.maxAttempts ≤ row.attempts
  · have hstate : (retryRow now row).state = .deadLettered := if_pos hexhausted
    have hevent : attemptsOf "dead_lettered"
        (history ++ [(PostgresStore.stateName (retryRow now row).state, row.attempts)]) =
          [row.attempts] := by
      rw [attemptsOf_append, hnone, hstate]
      rfl
    refine ⟨⟨?_, ?_, .inr ⟨hstate, hevent⟩⟩, fun hun => ?_⟩
    · rw [attemptsOf_append, h.claimed, hstate]
      exact List.append_nil _
    · rw [attemptsOf_append, hsucceeded, hstate]
      rfl
    · exact List.cons_ne_nil _ _ (hevent.symm.trans hun.2)
  · -- the event of a retry counts neither as a claim nor as an end of the job
    have hstate : (retryRow now row).state = .retryWait := if_neg hexhausted
    refine ⟨⟨?_, ?_, .inl ?_⟩, fun hun => ?_⟩
    · rw [attemptsOf_append, h.claimed, hstate]
      exact List.append_nil _
    · rw [attemptsOf_append, hsucceeded, hstate]
      rfl
    · rw [attemptsOf_append, hnone, hstate]
      rfl
    · cases hstate.symm.trans hun.1

/-- A move keeps the record, and neither adds nor removes an unrecorded job. -/
theorem RowMove.recorded {row row' : JobRow} {history history' : List (String × ℕ)}
    (hmove : RowMove row history row' history') (h : Recorded row history) :
    Recorded row' history' ∧ (Unrecorded row' history' ↔ Unrecorded row history) := by
  have hopen : ∀ {state : JobState}, row.state = state → state ≠ .deadLettered →
      ¬Unrecorded row history := fun hstate hne hun => hne (hstate ▸ hun.1)
  cases hmove with
  | keep => exact ⟨h, Iff.rfl⟩
  | extend expires => exact ⟨⟨h.claimed, h.succeeded, h.deadLettered⟩, Iff.rfl⟩
  | grant owner token leaseMs now hstate =>
      -- the attempts of the claims are 1, 2, … up to the counter, and the grant adds the next
      have hsucceeded : row.state ≠ .succeeded := by rcases hstate with h | h <;> simp [h]
      have hdead : row.state ≠ .deadLettered := by rcases hstate with h | h <;> simp [h]
      refine ⟨⟨?_, ?_, ?_⟩, iff_of_false (fun hun => nomatch hun.1) fun hun => hdead hun.1⟩
      · show _ = List.range' 1 (row.attempts + 1)
        rw [attemptsOf_append, if_pos rfl, h.claimed, List.range'_1_concat, Nat.add_comm 1]
      · rw [attemptsOf_append, h.succeeded, if_neg hsucceeded]
        rfl
      · refine .inl ?_
        rw [attemptsOf_append, h.deadLettered_eq_nil hdead]
        rfl
  | succeed result hleased =>
      refine ⟨⟨?_, ?_, ?_⟩, iff_of_false (fun hun => nomatch hun.1) (hopen hleased (by simp))⟩
      · rw [attemptsOf_append, h.claimed]
        exact List.append_nil _
      · rw [attemptsOf_append, h.succeeded, hleased]
        rfl
      · refine .inl ?_
        rw [attemptsOf_append, h.deadLettered_eq_nil (by simp [hleased])]
        rfl
  | release now hpending =>
      exact ⟨h.transfer rfl (by simp [hpending]) (by simp [releasedRow]),
        iff_of_false (fun hun => nomatch hun.1) (hopen hpending (by simp))⟩
  | fail now hleased =>
      obtain ⟨hrecorded, hun⟩ := h.failed hleased now
      exact ⟨hrecorded, iff_of_false hun (hopen hleased (by simp))⟩
  | cancel hsucceeded hdead =>
      exact ⟨h.transfer rfl ⟨hsucceeded, hdead⟩ (by simp),
        iff_of_false (fun hun => nomatch hun.1) fun hun => hdead hun.1⟩

/-- Reaping a lease writes no event, so that an exhausted job ends unrecorded. -/
theorem Recorded.reaped {row : JobRow} {history : List (String × ℕ)} (h : Recorded row history)
    (hleased : row.state = .leased) (now : ℤ) :
    Recorded (retryRow now row) history ∧
      (Unrecorded (retryRow now row) history ↔ row.maxAttempts ≤ row.attempts) := by
  have hnone := h.deadLettered_eq_nil (by simp [hleased])
  have hstate : (retryRow now row).state =
      if row.maxAttempts ≤ row.attempts then .deadLettered else .retryWait := rfl
  refine ⟨h.transfer rfl (by simp [hleased]) (by rw [hstate]; split <;> simp), ?_⟩
  unfold Unrecorded
  rw [hstate, hnone]
  by_cases hexhausted : row.maxAttempts ≤ row.attempts <;> simp [hexhausted]

/-! ## All rows -/

namespace Database

/-- Every job is recorded, and there is no event about a job that does not exist. -/
structure AllRecorded (db : Database) : Prop where
  recorded : ∀ dagId jobId row, db.jobs.get? (dagId, jobId) = some row →
    Recorded row (db.eventsOf dagId jobId)
  absent : ∀ dagId jobId, db.jobs.get? (dagId, jobId) = none → db.eventsOf dagId jobId = []

/-- Some job was dead-lettered without an event. -/
def HasUnrecorded (db : Database) : Prop :=
  ∃ dagId jobId row, db.jobs.get? (dagId, jobId) = some row ∧
    Unrecorded row (db.eventsOf dagId jobId)

/-- A transaction without reaping: the rows move, and new rows are untouched jobs. -/
structure Moved (before after : Database) : Prop where
  move : ∀ dagId jobId row, before.jobs.get? (dagId, jobId) = some row →
    ∃ row', after.jobs.get? (dagId, jobId) = some row' ∧
      RowMove row (before.eventsOf dagId jobId) row' (after.eventsOf dagId jobId)
  create : ∀ dagId jobId, before.jobs.get? (dagId, jobId) = none →
    after.eventsOf dagId jobId = before.eventsOf dagId jobId ∧
      ∀ row, after.jobs.get? (dagId, jobId) = some row →
        row.attempts = 0 ∧ (row.state = .ready ∨ row.state = .pending)

theorem Moved.refl (db : Database) : Moved db db where
  move _ _ row hrow := ⟨row, hrow, .keep _ _⟩
  create _ _ hnone := ⟨rfl, fun _ hrow => nomatch hnone.symm.trans hrow⟩

theorem Moved.allRecorded {before after : Database} (hmoved : Moved before after)
    (h : before.AllRecorded) :
    after.AllRecorded ∧ (after.HasUnrecorded ↔ before.HasUnrecorded) := by
  -- a row that was not there before is neither terminal nor claimed
  have hnew : ∀ dagId jobId row, before.jobs.get? (dagId, jobId) = none →
      after.jobs.get? (dagId, jobId) = some row →
      Recorded row (after.eventsOf dagId jobId) ∧ row.state ≠ .deadLettered := by
    intro dagId jobId row hnone hrow
    obtain ⟨hsame, hcreate⟩ := hmoved.create dagId jobId hnone
    obtain ⟨hattempts, hstate⟩ := hcreate row hrow
    rw [hsame, h.absent dagId jobId hnone]
    refine ⟨⟨by rw [hattempts]; rfl, ?_, .inl rfl⟩, ?_⟩ <;>
      rcases hstate with hstate | hstate <;> simp [hstate]
  refine ⟨⟨fun dagId jobId row hrow => ?_, fun dagId jobId hnone => ?_⟩, ?_, ?_⟩
  · cases hbefore : before.jobs.get? (dagId, jobId) with
    | none => exact (hnew dagId jobId row hbefore hrow).1
    | some old =>
        obtain ⟨row', hrow', hmove⟩ := hmoved.move dagId jobId old hbefore
        cases hrow.symm.trans hrow'
        exact (hmove.recorded (h.recorded dagId jobId old hbefore)).1
  · cases hbefore : before.jobs.get? (dagId, jobId) with
    | none => rw [(hmoved.create dagId jobId hbefore).1, h.absent dagId jobId hbefore]
    | some old =>
        obtain ⟨row', hrow', -⟩ := hmoved.move dagId jobId old hbefore
        cases hnone.symm.trans hrow'
  · rintro ⟨dagId, jobId, row, hrow, hun⟩
    cases hbefore : before.jobs.get? (dagId, jobId) with
    | none => exact absurd hun.1 (hnew dagId jobId row hbefore hrow).2
    | some old =>
        obtain ⟨row', hrow', hmove⟩ := hmoved.move dagId jobId old hbefore
        cases hrow.symm.trans hrow'
        exact ⟨dagId, jobId, old, hbefore,
          (hmove.recorded (h.recorded dagId jobId old hbefore)).2.mp hun⟩
  · rintro ⟨dagId, jobId, row, hrow, hun⟩
    obtain ⟨row', hrow', hmove⟩ := hmoved.move dagId jobId row hrow
    exact ⟨dagId, jobId, row', hrow',
      (hmove.recorded (h.recorded dagId jobId row hrow)).2.mpr hun⟩

theorem Moved.execute {db after : Database} {statement : JobUpdate}
    (happlies : ∀ dagId jobId row history,
      statement.applies db.snapshot dagId jobId row = true →
      RowMove row history (statement.set row) history)
    (hjobs : after.jobs = (db.execute statement).2.jobs) (hevents : after.events = db.events) :
    Moved db after := by
  have hsame : ∀ dagId jobId, after.eventsOf dagId jobId = db.eventsOf dagId jobId := by
    intro dagId jobId
    unfold eventsOf
    rw [hevents]
  refine ⟨fun dagId jobId row hrow => ?_, fun dagId jobId hnone => ⟨hsame dagId jobId, ?_⟩⟩
  · rw [hjobs, get?_execute, hrow, hsame]
    refine ⟨_, rfl, ?_⟩
    dsimp only
    by_cases hhit : statement.applies db.snapshot dagId jobId row = true
    · rw [if_pos hhit]
      exact happlies dagId jobId row _ hhit
    · rw [if_neg hhit]
      exact .keep row _
  · intro row hrow
    rw [hjobs, get?_execute, hnone] at hrow
    cases hrow

theorem Moved.withEvent {before after : Database} {dagId jobId eventType owner : String}
    {attempt : ℕ} {row row' : JobRow} (hrow : before.jobs.get? (dagId, jobId) = some row)
    (hrow' : after.jobs.get? (dagId, jobId) = some row')
    (hmove : ∀ history, RowMove row history row' (history ++ [(eventType, attempt)]))
    (hothers : ∀ dagId' jobId', ¬(dagId = dagId' ∧ jobId = jobId') →
      Option.Rel (fun old new => ∀ history, RowMove old history new history)
        (before.jobs.get? (dagId', jobId')) (after.jobs.get? (dagId', jobId')))
    (hevents : after.events = before.events ++ [⟨dagId, jobId, eventType, attempt, owner⟩]) :
    Moved before after := by
  have hlog := eventsOf_of_append hevents
  refine ⟨fun dagId' jobId' old hold => ?_, fun dagId' jobId' hnone => ?_⟩
  · by_cases hsame : dagId = dagId' ∧ jobId = jobId'
    · obtain ⟨rfl, rfl⟩ := hsame
      cases hrow.symm.trans hold
      refine ⟨row', hrow', ?_⟩
      rw [hlog, if_pos ⟨rfl, rfl⟩]
      exact hmove _
    · have hrel := hothers dagId' jobId' hsame
      rw [hold] at hrel
      cases hnew : after.jobs.get? (dagId', jobId') with
      | none =>
          rw [hnew] at hrel
          cases hrel
      | some new =>
          rw [hnew] at hrel
          cases hrel with
          | some hother =>
              refine ⟨new, rfl, ?_⟩
              rw [hlog, if_neg hsame, List.append_nil]
              exact hother _
  · have hne : ¬(dagId = dagId' ∧ jobId = jobId') := by
      rintro ⟨rfl, rfl⟩
      cases hnone.symm.trans hrow
    have hrel := hothers dagId' jobId' hne
    rw [hnone] at hrel
    refine ⟨by rw [hlog, if_neg hne, List.append_nil], fun new hnew => ?_⟩
    rw [hnew] at hrel
    cases hrel

end Database

/-! ## The transactions -/

namespace PostgresStore

open Database

/-- A failed transaction changes nothing, so that only the successful one counts. -/
theorem moved_transaction {α : Type} {db : Database} {outcome : Except StoreError (α × Database)}
    (h : ∀ value after, outcome = .ok (value, after) → Moved db after) :
    Moved db (transaction db outcome).2 := by
  cases outcome with
  | error error => exact .refl db
  | ok result => exact h result.1 result.2 rfl

theorem submit_moved (db : Database) (spec : DagSpec) (now : ℤ) :
    Moved db (submit db spec now).2 := by
  rcases inserted_or_unchanged db spec now with hsame | ⟨order, -, hinserted⟩
  · rw [hsame]
    exact .refl db
  generalize (submit db spec now).2 = after at hinserted
  have hlog : ∀ dagId jobId, after.eventsOf dagId jobId = db.eventsOf dagId jobId := by
    intro dagId jobId
    unfold eventsOf
    rw [hinserted.events]
  refine ⟨fun dagId jobId row hrow => ?_, fun dagId jobId hnone => ⟨hlog dagId jobId, ?_⟩⟩
  · rcases hinserted.job (dagId, jobId) with hsame | ⟨hnone, -⟩
    · exact ⟨row, hsame.trans hrow, hlog dagId jobId ▸ .keep row _⟩
    · cases hnone.symm.trans hrow
  · intro row hrow
    rcases hinserted.job (dagId, jobId) with hsame | ⟨-, job, -, -, hnew⟩
    · cases (hsame.symm.trans hrow).symm.trans hnone
    · cases hrow.symm.trans hnew
      refine ⟨rfl, ?_⟩
      unfold DagSpec.persistedRow
      dsimp only
      split
      · exact .inr rfl
      · exact .inl rfl

theorem heartbeat_moved (db : Database) (dagId jobId owner : String) (token : Uuid)
    (leaseMs now : ℤ) : Moved db (heartbeat db dagId jobId owner token leaseMs now).2 := by
  refine moved_transaction fun value after hok => ?_
  obtain ⟨_, -, hok⟩ := except_bind_eq_ok.mp hok
  obtain ⟨_, -, hok⟩ := except_bind_eq_ok.mp hok
  obtain ⟨_, -, hok⟩ := except_bind_eq_ok.mp hok
  cases hok
  exact .execute (fun _ _ row history _ => .extend row history _) rfl rfl

theorem cancel_moved (db : Database) (dagId : String) : Moved db (cancel db dagId).2 := by
  refine moved_transaction fun value after hok => ?_
  obtain ⟨_, -, hok⟩ := except_bind_eq_ok.mp hok
  split at hok
  · cases hok
  · cases hok
    have hcancels : ∀ dagId' jobId' row history,
        (cancelStatement dagId).applies db.snapshot dagId' jobId' row = true →
          RowMove row history ((cancelStatement dagId).set row) history := by
      intro dagId' jobId' row history hhit
      simp only [cancelStatement, Bool.and_eq_true, Bool.not_eq_true', Bool.or_eq_false_iff,
        decide_eq_false_iff_not] at hhit
      exact .cancel row history hhit.2.1.1 hhit.2.1.2
    exact .execute hcancels rfl rfl

theorem events_insertEvent {db : Database} {dagId jobId : String} {row : JobRow}
    (hrow : db.jobs.get? (dagId, jobId) = some row) (eventType owner : String) :
    (db.insertEvent dagId jobId eventType owner).events =
      db.events ++ [⟨dagId, jobId, eventType, row.attempts, owner⟩] := by
  unfold Database.insertEvent
  rw [hrow]

theorem get?_execute_of_ne {db : Database} {statement : JobUpdate} {dagId jobId owner : String}
    {token : Uuid} {now : ℤ}
    (happlies : ∀ snapshot, statement.applies snapshot = leaseMatches dagId jobId owner token now)
    {dagId' jobId' : String} (hne : ¬(dagId = dagId' ∧ jobId = jobId')) :
    (db.execute statement).2.jobs.get? (dagId', jobId') = db.jobs.get? (dagId', jobId') := by
  rw [get?_execute]
  cases hrow : db.jobs.get? (dagId', jobId') with
  | none => rfl
  | some row =>
      have hmiss : ¬statement.applies db.snapshot dagId' jobId' row = true := by
        rw [happlies]
        intro hmatches
        obtain ⟨hdag, hjob, -⟩ := leaseMatches_cases hmatches
        exact hne ⟨hdag.symm, hjob.symm⟩
      rw [Option.map_some, if_neg hmiss]

theorem complete_moved (db : Database) (dagId jobId owner : String) (token : Uuid)
    (result : String) (now : ℤ) :
    Moved db (complete db dagId jobId owner token result now).2 := by
  by_cases hsize : maxPayloadBytes < result.utf8ByteSize
  · rw [complete, if_pos hsize]
    exact .refl db
  rcases bindTexts_cases [dagId, jobId, owner, result] with htexts | htexts
  · rcases complete_cases db (not_lt.mp hsize) htexts token now with
      ⟨⟨row, hrow, hmatches⟩, hdone⟩ | ⟨-, hrefused⟩
    · rw [hdone]
      have hleased := (leaseMatches_cases hmatches).2.2.1
      generalize hsucceeded : (db.execute (completeStatement dagId jobId owner token result now)).2
        = succeeded
      have hdoneRow : succeeded.jobs.get? (dagId, jobId) = some (succeededRow result row) := by
        rw [← hsucceeded, get?_execute, hrow, Option.map_some]
        exact congrArg some (if_pos hmatches)
      -- the second statement takes pending rows, and the completed job has succeeded
      have hreleasedRow : ((succeeded.execute (releaseStatement dagId jobId now)).2).jobs.get?
          (dagId, jobId) = some (succeededRow result row) := by
        rw [get?_execute, hdoneRow, Option.map_some,
          if_neg (by simp [releaseStatement, succeededRow])]
      have hothers : ∀ dagId' jobId', ¬(dagId = dagId' ∧ jobId = jobId') →
          succeeded.jobs.get? (dagId', jobId') = db.jobs.get? (dagId', jobId') := by
        intro dagId' jobId' hne
        rw [← hsucceeded]
        exact get?_execute_of_ne (fun _ => rfl) hne
      have hevents : succeeded.events = db.events := by
        rw [← hsucceeded]
        rfl
      have hevent := events_insertEvent hreleasedRow "succeeded" owner
      rw [show (succeeded.execute (releaseStatement dagId jobId now)).2.events = db.events
        from hevents] at hevent
      rw [← jobs_insertEvent _ dagId jobId "succeeded" owner] at hreleasedRow
      refine .withEvent hrow hreleasedRow (fun history => .succeed row history result hleased)
        (fun dagId' jobId' hne => ?_) hevent
      rw [jobs_insertEvent, get?_execute, hothers dagId' jobId' hne]
      cases db.jobs.get? (dagId', jobId') with
      | none => exact .none
      | some other =>
          refine .some fun history => ?_
          dsimp only
          split
          next hhit =>
            simp only [releaseStatement, Bool.and_eq_true, decide_eq_true_eq] at hhit
            exact .release other history now hhit.1.1.2
          next => exact .keep other history
    · rw [hrefused]
      exact .refl db
  · rw [complete, if_neg hsize, htexts]
    exact .refl db

theorem fail_moved (db : Database) (dagId jobId owner : String) (token : Uuid) (now : ℤ) :
    Moved db (fail db dagId jobId owner token now).2 := by
  rcases bindTexts_cases [dagId, jobId, owner] with htexts | htexts
  · rcases fail_cases db htexts token now with ⟨row, hrow, hmatches, hdone⟩ | ⟨-, hrefused⟩
    · rw [hdone]
      have hleased := (leaseMatches_cases hmatches).2.2.1
      have hretried : (db.execute (failStatement dagId jobId owner token now)).2.jobs.get?
          (dagId, jobId) = some (retryRow now row) := by
        rw [get?_execute, hrow, Option.map_some]
        exact congrArg some (if_pos hmatches)
      have hevent := events_insertEvent hretried
        (stateName (retryRow now row).state) owner
      rw [← jobs_insertEvent _ dagId jobId (stateName (retryRow now row).state) owner] at hretried
      refine .withEvent hrow hretried (fun history => .fail row history now hleased)
        (fun dagId' jobId' hne => ?_) hevent
      have hother : (db.execute (failStatement dagId jobId owner token now)).2.jobs.get?
          (dagId', jobId') = db.jobs.get? (dagId', jobId') :=
        get?_execute_of_ne (fun _ => rfl) hne
      rw [jobs_insertEvent, hother]
      cases db.jobs.get? (dagId', jobId') with
      | none => exact .none
      | some other => exact .some fun history => .keep other history
    · rw [hrefused]
      exact .refl db
  · rw [fail, htexts]
    exact .refl db

theorem grantCandidate_moved {db : Database} {now : ℤ} {key : String × String} {row : JobRow}
    (hpicks : db.Picks now key row) (owner : String) (token : Uuid) (leaseMs : ℤ) :
    Moved db (grantCandidate db key row owner token leaseMs now).2 := by
  obtain ⟨dagId, jobId⟩ := key
  have hstate : row.state = .ready ∨ row.state = .retryWait := by
    have hcandidate := hpicks.candidate
    simp only [claimCandidate, Bool.and_eq_true, decide_eq_true_eq] at hcandidate
    exact hcandidate.1.1.2
  have hgranted : (grantCandidate db (dagId, jobId) row owner token leaseMs now).2.jobs.get?
      (dagId, jobId) = some (grantLease owner token leaseMs now row) := by
    rw [grantCandidate]
    simp only [Table.get?_modify_self, hpicks.stored]
    rfl
  refine .withEvent hpicks.stored hgranted
    (fun history => .grant row history owner token leaseMs now hstate)
    (fun dagId' jobId' hne => ?_) rfl
  have hkey : (dagId', jobId') ≠ (dagId, jobId) := by
    intro hsame
    cases hsame
    exact hne ⟨rfl, rfl⟩
  rw [grantCandidate]
  simp only [Table.get?_modify_of_ne _ _ hkey]
  cases db.jobs.get? (dagId', jobId') with
  | none => exact .none
  | some other => exact .some fun history => .keep other history

end PostgresStore

/-! ## Reaping -/

namespace Database

/-- There is an expired lease on the last attempt of its job. -/
def HasExhausted (db : Database) (now : ℤ) : Prop :=
  ∃ dagId jobId row expires, db.jobs.get? (dagId, jobId) = some row ∧ row.state = .leased ∧
    row.leaseExpiresAt = some expires ∧ expires ≤ now ∧ row.maxAttempts ≤ row.attempts

theorem AllRecorded.reap {db : Database} (h : db.AllRecorded) (now : ℤ) :
    (PostgresStore.reapInTransaction db now).2.AllRecorded ∧
      ((PostgresStore.reapInTransaction db now).2.HasUnrecorded ↔
        db.HasUnrecorded ∨ db.HasExhausted now) := by
  have hget : ∀ dagId jobId,
      (PostgresStore.reapInTransaction db now).2.jobs.get? (dagId, jobId) =
        (db.jobs.get? (dagId, jobId)).map fun row =>
          if (reapStatement now).applies db.snapshot dagId jobId row then retryRow now row
          else row := fun dagId jobId => db.get?_execute (reapStatement now) dagId jobId
  have hlog : ∀ dagId jobId, (PostgresStore.reapInTransaction db now).2.eventsOf dagId jobId =
      db.eventsOf dagId jobId := fun _ _ => rfl
  refine ⟨⟨fun dagId jobId row hrow => ?_, fun dagId jobId hnone => ?_⟩, ?_, ?_⟩
  · rw [hget] at hrow
    obtain ⟨old, hold, rfl⟩ := Option.map_eq_some_iff.mp hrow
    have hrecorded := h.recorded dagId jobId old hold
    rw [hlog]
    split
    next hhit => exact (hrecorded.reaped (reapStatement_applies_iff.mp hhit).1 now).1
    next => exact hrecorded
  · rw [hget, Option.map_eq_none_iff] at hnone
    exact h.absent dagId jobId hnone
  · rintro ⟨dagId, jobId, row, hrow, hun⟩
    rw [hget] at hrow
    rw [hlog] at hun
    obtain ⟨old, hold, rfl⟩ := Option.map_eq_some_iff.mp hrow
    have hrecorded := h.recorded dagId jobId old hold
    split at hun
    next hhit =>
      obtain ⟨hleased, expires, hexpires, hle⟩ := reapStatement_applies_iff.mp hhit
      exact .inr ⟨dagId, jobId, old, expires, hold, hleased, hexpires, hle,
        (hrecorded.reaped hleased now).2.mp hun⟩
    next => exact .inl ⟨dagId, jobId, old, hold, hun⟩
  · rintro (⟨dagId, jobId, old, hold, hun⟩ |
      ⟨dagId, jobId, old, expires, hold, hleased, hexpires, hle, hexhausted⟩)
    · have hmiss : ¬(reapStatement now).applies db.snapshot dagId jobId old = true := by
        intro hhit
        cases hun.1.symm.trans (reapStatement_applies_iff.mp hhit).1
      refine ⟨dagId, jobId, old, ?_, hun⟩
      rw [hget, hold, Option.map_some, if_neg hmiss]
    · have hhit : (reapStatement now).applies db.snapshot dagId jobId old = true :=
        reapStatement_applies_iff.mpr ⟨hleased, expires, hexpires, hle⟩
      refine ⟨dagId, jobId, retryRow now old, ?_,
        ((h.recorded dagId jobId old hold).reaped hleased now).2.mpr hexhausted⟩
      rw [hget, hold, Option.map_some, if_pos hhit]

end Database

/-! ## Runs -/

/-- The call reaps, by itself or inside a claim that is not refused, while there
is an expired lease on the last attempt of its job. -/
def StoreCall.Buries (db : Database) (now : ℤ) : StoreCall → Prop
  | .reap => db.HasExhausted now
  | .claim owner leaseMs _ =>
      PostgresStore.validateOwnerAndLease owner leaseMs = .ok () ∧ hasNul owner = false ∧
        db.HasExhausted now
  | _ => False

/-- One call: only one that buries a job adds an unrecorded one. -/
theorem StoreCall.perform_recorded {db : Database} (h : db.AllRecorded) (now : ℤ)
    (call : StoreCall) :
    (call.perform db now).AllRecorded ∧
      ((call.perform db now).HasUnrecorded ↔ db.HasUnrecorded ∨ call.Buries db now) := by
  have hquiet : ∀ {after : Database}, db.Moved after →
      after.AllRecorded ∧ (after.HasUnrecorded ↔ db.HasUnrecorded ∨ False) := fun hmoved => by
    rw [or_false]
    exact hmoved.allRecorded h
  cases call with
  | submit spec => exact hquiet (PostgresStore.submit_moved db spec now)
  | claim owner leaseMs token =>
      by_cases hallowed : PostgresStore.validateOwnerAndLease owner leaseMs = .ok () ∧
          hasNul owner = false
      · obtain ⟨hvalid, hnul⟩ := hallowed
        obtain ⟨hreaped, hburied⟩ := h.reap now
        have hiff : (db.HasUnrecorded ∨ db.HasExhausted now) ↔
            db.HasUnrecorded ∨ StoreCall.Buries db now (.claim owner leaseMs token) := by
          simp only [StoreCall.Buries, hvalid, hnul, true_and]
        rw [← hiff, ← hburied]
        simp only [StoreCall.perform]
        rcases PostgresStore.claim_cases db hvalid hnul token now with
          ⟨key, row, hpicks, hgranted⟩ | ⟨-, hnone⟩
        · rw [hgranted]
          exact (PostgresStore.grantCandidate_moved hpicks owner token leaseMs).allRecorded hreaped
        · rw [hnone]
          exact ⟨hreaped, Iff.rfl⟩
      · have hsame : StoreCall.perform db now (.claim owner leaseMs token) = db := by
          show (PostgresStore.claim db owner leaseMs token now).2 = db
          unfold PostgresStore.claim
          rcases PostgresStore.validateOwnerAndLease_cases owner leaseMs with hvalid | hinvalid
          · have hnul : PostgresStore.bindTexts [owner] = .error (.database .invalidText) := by
              refine (PostgresStore.bindTexts_cases [owner]).resolve_left fun htexts => ?_
              exact hallowed ⟨hvalid, by simpa using PostgresStore.bindTexts_eq_ok_iff.mp htexts⟩
            rw [hvalid, hnul]
            rfl
          · rw [hinvalid]
            rfl
        have hnever : ¬StoreCall.Buries db now (.claim owner leaseMs token) :=
          fun hburies => hallowed ⟨hburies.1, hburies.2.1⟩
        rw [hsame]
        exact ⟨h, by simp only [hnever, or_false]⟩
  | heartbeat dagId jobId owner token leaseMs =>
      exact hquiet (PostgresStore.heartbeat_moved db dagId jobId owner token leaseMs now)
  | complete dagId jobId owner token result =>
      exact hquiet (PostgresStore.complete_moved db dagId jobId owner token result now)
  | fail dagId jobId owner token =>
      exact hquiet (PostgresStore.fail_moved db dagId jobId owner token now)
  | reap => exact h.reap now
  | cancel dagId => exact hquiet (PostgresStore.cancel_moved db dagId)

namespace Database

/-- Some call of a run buries a job. -/
def SomeCallBuries : Database → List (ℤ × StoreCall) → Prop
  | _, [] => False
  | db, (now, call) :: rest => call.Buries db now ∨ SomeCallBuries (call.perform db now) rest

theorem performAll_recorded {db : Database} (h : db.AllRecorded) (calls : List (ℤ × StoreCall)) :
    (db.performAll calls).AllRecorded ∧
      ((db.performAll calls).HasUnrecorded ↔ db.HasUnrecorded ∨ db.SomeCallBuries calls) := by
  induction calls generalizing db with
  | nil => exact ⟨h, by simp only [performAll, SomeCallBuries, or_false]⟩
  | cons first rest ih =>
      obtain ⟨now, call⟩ := first
      obtain ⟨hstep, hburied⟩ := call.perform_recorded h now
      obtain ⟨hrest, hrestBuried⟩ := ih hstep
      refine ⟨hrest, ?_⟩
      show ((call.perform db now).performAll rest).HasUnrecorded ↔ _
      rw [hrestBuried, hburied, or_assoc]
      rfl

/-- With the record kept, the log is complete when no job is unrecorded. -/
theorem AllRecorded.evidenced_iff {db : Database} (h : db.AllRecorded) :
    db.Evidenced ↔ ¬db.HasUnrecorded := by
  constructor
  · rintro hevidenced ⟨dagId, jobId, row, hrow, hdead, hnone⟩
    have hevent := (hevidenced dagId jobId row hrow).2.2 hdead
    rw [hnone] at hevent
    cases hevent
  · intro hall dagId jobId row hrow
    have hrecorded := h.recorded dagId jobId row hrow
    refine ⟨hrecorded.claimed, fun hstate => ?_, fun hstate => ?_⟩
    · rw [hrecorded.succeeded, if_pos hstate]
    · rcases hrecorded.deadLettered with hnone | ⟨-, hevent⟩
      · exact absurd ⟨dagId, jobId, row, hrow, hstate, hnone⟩ hall
      · exact hevent

theorem allRecorded_empty : Database.empty.AllRecorded where
  recorded _ _ _ h := nomatch h
  absent _ _ _ := rfl

end Database

/-- In every serial run the event log is complete evidence in the end exactly
when no call of the run has reaped an expired lease on the last attempt of its job. -/
theorem event_log_complete_iff (calls : List (ℤ × StoreCall)) :
    (Database.empty.performAll calls).Evidenced ↔ ¬Database.empty.SomeCallBuries calls := by
  obtain ⟨hrecorded, hburied⟩ := Database.performAll_recorded Database.allRecorded_empty calls
  have hclean : ¬Database.empty.HasUnrecorded := fun ⟨_, _, _, hrow, _⟩ => nomatch hrow
  rw [hrecorded.evidenced_iff, hburied, or_iff_right hclean]

/-! ## A lease that expires on the only attempt -/

/-- One job with one attempt is claimed for a second and reaped two seconds later. -/
def buriedCalls : List (ℤ × StoreCall) :=
  [(0, .submit ⟨"solo", [⟨"job", .uppercase, "", 1, 0⟩], []⟩),
    (0, .claim "worker" 1000 7),
    (2000000, .reap)]

/-- The job is dead-lettered, and no event says so. -/
theorem buried_job_has_no_event : ¬(Database.empty.performAll buriedCalls).Evidenced := by
  intro hevidenced
  have hrow : (Database.empty.performAll buriedCalls).jobs.get? ("solo", "job") =
      some ⟨.uppercase, "", 1, 1, 0, .deadLettered, 0, none, none, none, none⟩ := by decide
  have hnone : attemptsOf "dead_lettered"
      ((Database.empty.performAll buriedCalls).eventsOf "solo" "job") = [] := by decide
  have hevent := (hevidenced "solo" "job" _ hrow).2.2 rfl
  rw [hnone] at hevent
  cases hevent

end JobOrchestrator
