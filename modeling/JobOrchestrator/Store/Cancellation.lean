import JobOrchestrator.Store.Concurrent

/-!
# Cancellation is final

The second statement of `cancel` sweeps the jobs of its graph: it applies to
every job that is not terminal and makes it terminal, and no statement applies to
a terminal job.  The rules for such statements in the library then leave no room
for a claim, a release, a retry or a result beside it: whatever an open
transaction has written is waited for and checked again, and whatever comes later
finds the terminal row.
-/

namespace JobOrchestrator

open ReadCommitted

/-- The keys of the jobs of a graph. -/
def JobOf (dagId : String) (key : StoreKey) : Prop := ∃ jobId, key = .job dagId jobId

/-- The second statement of `cancel` makes the jobs of its graph terminal. -/
theorem sweeps_cancel (dependencies : List DependencyRow) (dagId : String) :
    Sweeps (command dependencies) StoredTerminal (.cancel dagId) 1 (JobOf dagId) := by
  intro counts statement hlength hscript
  have hexecutes := executes_of_command hscript
  rw [hlength] at hexecutes
  cases hexecutes with
  | cancelJobs =>
      refine ⟨rfl, ?_⟩
      rintro snapshot _ stored ⟨jobId, rfl⟩ hopen
      cases stored with
      | dag state => exact absurd trivial hopen
      | job row =>
          refine ⟨?_, .inr (.inr rfl)⟩
          simp only [StoredTerminal, JobRow.Terminal, not_or] at hopen
          simp [JobUpdate.statement, cancelStatement, hopen]

/-- `cancel` commits after both of its statements. -/
theorem lt_of_cancel_commits (dependencies : List DependencyRow) (dagId : String)
    (counts : List ℕ) (hcommit : command dependencies (.cancel dagId) counts = .commit) :
    1 < counts.length := by
  match counts with
  | [] =>
      simp only [command, unlessError] at hcommit
      split at hcommit <;> cases hcommit
  | [changed] =>
      simp only [command] at hcommit
      split at hcommit <;> cases hcommit
  | _ :: _ :: _ => simp

/-- Once `cancel` has committed, every job of the graph is terminal without a
lease, no later commit touches a job of the graph, and every job stays as it is. -/
theorem cancellation_final {db : Database} (hdb : db.Submitted) {system : StoreSystem}
    (hrun : Interleaved db anyAction system) {before after : List StoreCommit}
    {cancelled : StoreCommit} (hhistory : system.history = before ++ cancelled :: after)
    {dagId : String} (hcancel : cancelled.program = .cancel dagId) :
    (∀ jobId, db.jobs.contains (dagId, jobId) = true →
      ∃ row, (db.after (before ++ [cancelled])).get? (.job dagId jobId) = some (.job row) ∧
        (row.state = .succeeded ∨ row.state = .deadLettered ∨ row.state = .cancelled) ∧
        row.leaseOwner = none ∧ row.leaseToken = none ∧ row.leaseExpiresAt = none ∧
        system.committed.get? (.job dagId jobId) = some (.job row)) ∧
      ∀ later ∈ after, ∀ change ∈ later.changes, ∀ jobId, change.key ≠ .job dagId jobId := by
  have hsplit : system.history = (before ++ [cancelled]) ++ after := by
    rw [hhistory, List.append_assoc, List.singleton_append]
  have hswept := hrun.swept (final_storedTerminal _) (sweeps_cancel _ dagId)
    (lt_of_cancel_commits _ dagId)
  have hterminal : ∀ jobId stored,
      (db.after (before ++ [cancelled])).get? (.job dagId jobId) = some stored →
      StoredTerminal (.job dagId jobId) stored := fun jobId stored hstored =>
    hswept.history before cancelled after hhistory hcancel _ ⟨jobId, rfl⟩ stored hstored
  have hstays := fun jobId =>
    hrun.sound.final (final_storedTerminal _) hsplit (hterminal jobId)
  constructor
  · intro jobId hjob
    obtain ⟨row, hrow, hregular⟩ := hrun.exists_row hdb hsplit hjob
    have hdone : row.Terminal := hterminal jobId (.job row) hrow
    obtain ⟨howner, htoken, hexpires⟩ := hregular.unleased (by
      rcases hdone with h | h | h <;> simp [h])
    exact ⟨row, hrow, hdone, howner, htoken, hexpires, (hstays jobId).2.trans hrow⟩
  · intro later hlater change hchange jobId
    exact (hstays jobId).1 later hlater change hchange

/-! ## A completion and a cancellation at once -/

def racedDatabase : Database :=
  (PostgresStore.submit .empty
    ⟨"race", [⟨"first", .uppercase, "", 1, 0⟩, ⟨"second", .uppercase, "", 1, 0⟩],
      [⟨"first", "second"⟩]⟩ 0).2

/-- The first job is claimed.  Its completion has written the result and is about
to release the second job when the cancellation takes its snapshot of both.  Then
the completion commits, and the cancellation finds one row succeeded and the other
one ready.  A later claim finds nothing. -/
def racingActions : List StoreAction :=
  [.start 0 (.claim "worker" 7 1000 10), .execute 0, .finish 0, .execute 0,
    .visit 0 (.job "race" "first"), .finish 0, .commit 0,
    .start 1 (.complete "race" "first" "worker" 7 "done" 20), .execute 1,
    .visit 1 (.job "race" "first"), .finish 1, .execute 1,
    .start 2 (.cancel "race"), .execute 2, .visit 2 (.dag "race"), .finish 2, .execute 2,
    .visit 1 (.job "race" "second"), .finish 1, .commit 1,
    .visit 2 (.job "race" "first"), .visit 2 (.job "race" "second"), .finish 2, .commit 2,
    .start 3 (.claim "worker" 8 1000 30), .execute 3, .finish 3, .execute 3, .finish 3, .commit 3]

def racedSystem : StoreSystem := racedDatabase.systemAfter racingActions

theorem interleaved_racedSystem : Interleaved racedDatabase anyAction racedSystem :=
  interleaved_systemAfter (by decide)

/-- The four transactions commit in this order, and in the end both jobs are terminal. -/
theorem cancellation_final_race :
    racedSystem.history.map Commit.program =
      [.claim "worker" 7 1000 10, .complete "race" "first" "worker" 7 "done" 20,
        .cancel "race", .claim "worker" 8 1000 30] ∧
    ∀ jobId ∈ ["first", "second"], ∃ row,
      racedSystem.committed.get? (.job "race" jobId) = some (.job row) ∧
        (row.state = .succeeded ∨ row.state = .deadLettered ∨ row.state = .cancelled) := by
  have hthird : racedSystem.history[2]?.map Commit.program = some (.cancel "race") := by decide
  obtain ⟨cancelled, hcancelled, hprogram⟩ := Option.map_eq_some_iff.mp hthird
  obtain ⟨hlength, hcancelled⟩ := List.getElem?_eq_some_iff.mp hcancelled
  have hhistory : racedSystem.history =
      racedSystem.history.take 2 ++ cancelled :: racedSystem.history.drop 3 := by
    rw [← hcancelled, ← List.drop_eq_getElem_cons hlength, List.take_append_drop]
  obtain ⟨hjobs, -⟩ := cancellation_final (.submit _ 0 .empty) interleaved_racedSystem hhistory
    hprogram
  refine ⟨by decide, fun jobId hjobId => ?_⟩
  have hjob : racedDatabase.jobs.contains ("race", jobId) = true := by
    rcases List.mem_pair.mp hjobId with rfl | rfl <;> decide
  obtain ⟨row, -, hterminal, -, -, -, hrow⟩ := hjobs jobId hjob
  exact ⟨row, hrow, hterminal⟩

end JobOrchestrator
