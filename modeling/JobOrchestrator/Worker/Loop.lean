import JobOrchestrator.Store.Audit

/-!
# The loop of the worker process

`orchestrator_worker` claims a job, executes it, and reports the result or the
failure, until one of the calls returns an error: every error leaves the loop
through the same `?`.  Between a claim and its report the other clients do what
they like, and any time may pass.

A report that finds its lease lost is refused with `LeaseConflict`.  This is an
answer that cancellation and expiry produce by design, and the process ends on
it.  `worker_survives_iff` says exactly which runs the process survives.
-/

namespace JobOrchestrator

namespace Worker

/-! ## Executing a job -/

inductive WorkerError
  | validation (error : ValidationError)
  | invalidPayload
  | resultTooLarge
deriving DecidableEq, Repr

/-- The operations of the allowlist that compute on the payload: the hexadecimal
SHA-256 digest, and the Unicode uppercase. -/
structure Operations where
  checksum : String → String
  uppercase : String → String

/-- The output of an operation before its size is checked. -/
def output (operations : Operations) : JobKind → String → Except WorkerError String
  | .delay, payload => match parseU64 payload with
      | none => .error .invalidPayload
      | some milliseconds => .ok ("slept:" ++ toString milliseconds ++ "ms")
  | .checksum, payload => .ok (operations.checksum payload)
  | .uppercase, payload => .ok (operations.uppercase payload)

/-- Executes one harmless operation and returns a bounded UTF-8 result. -/
def execute (operations : Operations) (kind : JobKind) (payload : String) :
    Except WorkerError String :=
  match kind.validatePayload payload with
  | .error error => .error (.validation error)
  | .ok () => do
      let output ← output operations kind payload
      if maxPayloadBytes < output.utf8ByteSize then .error .resultTooLarge else .ok output

theorem size_le_of_execute {operations : Operations} {kind : JobKind} {payload result : String}
    (h : execute operations kind payload = .ok result) :
    result.utf8ByteSize ≤ maxPayloadBytes := by
  unfold execute at h
  split at h
  · cases h
  · obtain ⟨output, -, h⟩ := except_bind_eq_ok.mp h
    split at h
    · cases h
    next hsize =>
      cases h
      exact not_lt.mp hsize

/-! ## The loop -/

/-- What `main` has read from the environment; `parse_bounded` has checked the
bounds, and nothing has checked the identifier. -/
structure WorkerConfig where
  workerId : String
  leaseMs : ℤ
  pollMs : ℤ
  lease_bounded : 1 ≤ leaseMs ∧ leaseMs ≤ 60000
  poll_bounded : 10 ≤ pollMs ∧ pollMs ≤ 10000

/-- The errors that `main` returns from the loop. -/
inductive WorkerEnd
  | store (error : StoreError)
  | invalidToken
  | invalidPollInterval
deriving DecidableEq

/-- Where the loop is: at its head, between a claim and the report, or left. -/
inductive Phase
  | polling
  | executing (claim : StoreClaim) (token : Uuid)
  | ended (error : WorkerEnd)
deriving DecidableEq

structure LoopState where
  db : Database
  phase : Phase

/-- `.await?` at the end of an iteration. -/
def afterReport {α : Type} : Except StoreError α × Database → LoopState
  | (.ok _, db) => ⟨db, .polling⟩
  | (.error error, db) => ⟨db, .ended (.store error)⟩

/-- The next call that the process makes to the store, with what it does before
and after; `reparse` writes a token as text and parses it again. -/
def act (operations : Operations) (reparse : Uuid → Option Uuid) (config : WorkerConfig)
    (state : LoopState) (now : ℤ) (fresh : Uuid) : LoopState :=
  match state.phase with
  | .polling =>
      match PostgresStore.claim state.db config.workerId config.leaseMs fresh now with
      | (.error error, db) => ⟨db, .ended (.store error)⟩
      | (.ok none, db) =>
          -- `u64::try_from(poll_ms)?`
          if config.pollMs < 0 then ⟨db, .ended .invalidPollInterval⟩ else ⟨db, .polling⟩
      | (.ok (some claim), db) =>
          match reparse claim.leaseToken with
          | none => ⟨db, .ended .invalidToken⟩
          | some token => ⟨db, .executing claim token⟩
  | .executing claim token =>
      match execute operations claim.kind claim.payload with
      | .ok result => afterReport
          (PostgresStore.complete state.db claim.dagId claim.jobId config.workerId token result now)
      | .error _ => afterReport
          (PostgresStore.fail state.db claim.dagId claim.jobId config.workerId token now)
  | .ended _ => state

/-- The process makes its next call, with a fresh token if it is a claim, or
another client makes one. -/
inductive LoopEvent
  | worker (now : ℤ) (fresh : Uuid)
  | other (now : ℤ) (call : StoreCall)

def step (operations : Operations) (reparse : Uuid → Option Uuid) (config : WorkerConfig)
    (state : LoopState) : LoopEvent → LoopState
  | .worker now fresh => act operations reparse config state now fresh
  | .other now call => { state with db := call.perform state.db now }

def run (operations : Operations) (reparse : Uuid → Option Uuid) (config : WorkerConfig) :
    LoopState → List LoopEvent → LoopState
  | state, [] => state
  | state, event :: rest =>
      run operations reparse config (step operations reparse config state event) rest

/-- The process claims under a valid identifier, and reports only while it holds the lease. -/
def Safe (config : WorkerConfig) (state : LoopState) : LoopEvent → Prop
  | .other _ _ => True
  | .worker now _ => match state.phase with
      | .polling => config.workerId.isEmpty = false ∧ config.workerId.utf8ByteSize ≤ 64
      | .executing claim token =>
          state.db.Holds claim.dagId claim.jobId config.workerId token now
      | .ended _ => True

/-- Every event of a run is safe. -/
def SafeRun (operations : Operations) (reparse : Uuid → Option Uuid) (config : WorkerConfig) :
    LoopState → List LoopEvent → Prop
  | _, [] => True
  | state, event :: rest => Safe config state event ∧
      SafeRun operations reparse config (step operations reparse config state event) rest

/-! ## One call -/

section

variable {operations : Operations} {reparse : Uuid → Option Uuid} {config : WorkerConfig}
  {state : LoopState}

/-- The process goes on. -/
def LoopState.Alive (state : LoopState) : Prop := ∀ error, state.phase ≠ .ended error

/-- A statement of the process has failed. -/
def LoopState.SqlFailed (state : LoopState) : Prop :=
  ∃ error, state.phase = .ended (.store (.database error))

/-- What becomes of a state, by a condition: a statement has failed, or the
condition holds and the process goes on, or it does not hold and the process ends. -/
def LoopState.AliveIff (state : LoopState) (condition : Prop) : Prop :=
  state.SqlFailed ∨ (condition ∧ state.Alive) ∨
    (¬condition ∧ ∃ error, state.phase = .ended error)

theorem afterReport_ok {α : Type} {condition : Prop} (h : condition) (value : α)
    (db : Database) : (afterReport (.ok value, db)).AliveIff condition :=
  .inr (.inl ⟨h, fun _ => Phase.noConfusion⟩)

theorem afterReport_conflict {α : Type} {condition : Prop} (h : ¬condition) (db : Database) :
    (afterReport ((.error .leaseConflict : Except StoreError α), db)).AliveIff condition :=
  .inr (.inr ⟨h, .store .leaseConflict, rfl⟩)

theorem afterReport_database {α : Type} (condition : Prop) (error : SqlError) (db : Database) :
    (afterReport ((.error (.database error) : Except StoreError α), db)).AliveIff condition :=
  .inl ⟨error, rfl⟩

theorem afterReport_complete (db : Database) (dagId jobId owner : String) (token : Uuid)
    {result : String} (hsize : result.utf8ByteSize ≤ maxPayloadBytes) (now : ℤ) :
    (afterReport (PostgresStore.complete db dagId jobId owner token result now)).AliveIff
      (db.Holds dagId jobId owner token now) := by
  rcases PostgresStore.bindTexts_cases [dagId, jobId, owner, result] with htexts | htexts
  · rcases PostgresStore.complete_cases db hsize htexts token now with
      ⟨hholds, hcomplete⟩ | ⟨hlost, hcomplete⟩
    · rw [hcomplete]
      exact afterReport_ok hholds _ _
    · rw [hcomplete]
      exact afterReport_conflict hlost _
  · unfold PostgresStore.complete
    rw [if_neg (not_lt.mpr hsize), htexts]
    exact afterReport_database _ .invalidText db

theorem afterReport_fail (db : Database) (dagId jobId owner : String) (token : Uuid) (now : ℤ) :
    (afterReport (PostgresStore.fail db dagId jobId owner token now)).AliveIff
      (db.Holds dagId jobId owner token now) := by
  rcases PostgresStore.bindTexts_cases [dagId, jobId, owner] with htexts | htexts
  · rcases PostgresStore.fail_cases db htexts token now with
      ⟨row, hrow, hmatches, hfail⟩ | ⟨hlost, hfail⟩
    · rw [hfail]
      exact afterReport_ok ⟨row, hrow, hmatches⟩ _ _
    · rw [hfail]
      exact afterReport_conflict hlost _
  · unfold PostgresStore.fail
    rw [htexts]
    exact afterReport_database _ .invalidText db

/-- A call of the process is safe, or it ends the process. -/
theorem act_cases (hreparse : ∀ token, reparse token = some token) (halive : state.Alive)
    (now : ℤ) (fresh : Uuid) :
    (act operations reparse config state now fresh).AliveIff
      (Safe config state (.worker now fresh)) := by
  cases hphase : state.phase with
  | ended error => exact absurd hphase (halive error)
  | polling =>
      simp only [act, Safe, hphase]
      rcases PostgresStore.validateOwnerAndLease_cases config.workerId config.leaseMs with
        hvalid | hinvalid
      · have hsafe := PostgresStore.validateOwnerAndLease_eq_ok_iff.mp hvalid
        rcases PostgresStore.bindTexts_cases [config.workerId] with htexts | htexts
        · have hnul : hasNul config.workerId = false :=
            PostgresStore.bindTexts_eq_ok_iff.mp htexts _ (List.mem_singleton_self _)
          refine .inr (.inl ⟨⟨hsafe.1, hsafe.2.1⟩, fun error => ?_⟩)
          rcases PostgresStore.claim_cases state.db hvalid hnul fresh now with
            ⟨key, row, -, hclaim⟩ | ⟨-, hclaim⟩
          · rw [hclaim]
            simp only [hreparse]
            exact Phase.noConfusion
          · rw [hclaim]
            have hpoll : ¬config.pollMs < 0 := by
              have hlow := config.poll_bounded.1
              omega
            simp only [if_neg hpoll]
            exact Phase.noConfusion
        · unfold PostgresStore.claim
          rw [hvalid, htexts]
          exact .inl ⟨.invalidText, rfl⟩
      · refine .inr (.inr ⟨fun hsafe => ?_, .store .invalidConfiguration, ?_⟩)
        · have hvalid := PostgresStore.validateOwnerAndLease_eq_ok_iff.mpr
            ⟨hsafe.1, hsafe.2, config.lease_bounded⟩
          cases hvalid.symm.trans hinvalid
        · unfold PostgresStore.claim
          rw [hinvalid]
          rfl
  | executing claim token =>
      simp only [act, Safe, hphase]
      cases hresult : execute operations claim.kind claim.payload with
      | ok result => exact afterReport_complete _ _ _ _ _ (size_le_of_execute hresult) _
      | error error => exact afterReport_fail _ _ _ _ _ _

/-- The calls of other clients do not concern the process itself. -/
theorem step_cases (hreparse : ∀ token, reparse token = some token) (halive : state.Alive)
    (event : LoopEvent) :
    (step operations reparse config state event).AliveIff (Safe config state event) := by
  cases event with
  | worker now fresh => exact act_cases hreparse halive now fresh
  | other now call => exact .inr (.inl ⟨trivial, halive⟩)

theorem run_of_ended {error : WorkerEnd} (hended : state.phase = .ended error)
    (events : List LoopEvent) :
    (run operations reparse config state events).phase = .ended error := by
  induction events generalizing state with
  | nil => exact hended
  | cons event rest ih =>
      refine ih ?_
      cases event with
      | worker now fresh => simp only [step, act, hended]
      | other now call => exact hended

/-! ## Whole runs -/

theorem alive_run_iff (hreparse : ∀ token, reparse token = some token) (halive : state.Alive)
    (events : List LoopEvent) (hsql : ¬(run operations reparse config state events).SqlFailed) :
    (run operations reparse config state events).Alive ↔
      SafeRun operations reparse config state events := by
  induction events generalizing state with
  | nil => exact iff_of_true halive trivial
  | cons event rest ih =>
      rcases step_cases hreparse halive event with
        ⟨error, hfailed⟩ | ⟨hsafe, halive'⟩ | ⟨hexposed, error, hended⟩
      · exact absurd ⟨error, run_of_ended hfailed rest⟩ hsql
      · rw [SafeRun, and_iff_right hsafe]
        exact ih halive' hsql
      · refine iff_of_false (fun hall => hall error (run_of_ended hended rest)) fun hall => ?_
        exact hexposed hall.1

end

/-- As long as no statement of the process fails, the process is alive after a run
if and only if it has claimed under a valid identifier and has held the lease at
every report. -/
theorem worker_survives_iff (operations : Operations) {reparse : Uuid → Option Uuid}
    (hreparse : ∀ token, reparse token = some token) (config : WorkerConfig) (db : Database)
    (events : List LoopEvent)
    (hsql : ∀ error, (run operations reparse config ⟨db, .polling⟩ events).phase ≠
      .ended (.store (.database error))) :
    (∀ error, (run operations reparse config ⟨db, .polling⟩ events).phase ≠ .ended error) ↔
      SafeRun operations reparse config ⟨db, .polling⟩ events :=
  alive_run_iff hreparse (fun _ => Phase.noConfusion) events fun ⟨error, hfailed⟩ =>
    hsql error hfailed

/-! ## One job and a cancellation -/

def sameOperations : Operations := ⟨id, id⟩

def soleConfig : WorkerConfig := ⟨"worker", 15000, 500, by decide, by decide⟩

def submitSole : LoopEvent := .other 0 (.submit ⟨"sole", [⟨"job", .uppercase, "", 2, 0⟩], []⟩)

/-- The lease is held at the report; then there is nothing left to claim. -/
def keptEvents : List LoopEvent :=
  [submitSole, .worker 10 7, .other 20 .reap, .worker 30 8, .other 40 (.cancel "sole"),
    .worker 50 9]

/-- The graph is cancelled between the claim and the report. -/
def cancelledEvents : List LoopEvent :=
  [submitSole, .worker 10 7, .other 20 (.cancel "sole"), .worker 30 8]

theorem worker_survives_kept :
    SafeRun sameOperations some soleConfig ⟨.empty, .polling⟩ keptEvents := by
  have hpolling : (run sameOperations some soleConfig ⟨.empty, .polling⟩ keptEvents).phase =
      .polling := by decide
  refine (worker_survives_iff sameOperations (fun _ => rfl) soleConfig .empty keptEvents ?_).mp ?_
  · exact fun error => by rw [hpolling]; exact Phase.noConfusion
  · exact fun error => by rw [hpolling]; exact Phase.noConfusion

/-- The conflict ends the process. -/
theorem conflict_ends_worker :
    ¬∀ (operations : Operations) (reparse : Uuid → Option Uuid),
      (∀ token, reparse token = some token) → ∀ (config : WorkerConfig) (db : Database)
        (events : List LoopEvent),
      (∀ error, (run operations reparse config ⟨db, .polling⟩ events).phase ≠
        .ended (.store (.database error))) →
      ∀ error, (run operations reparse config ⟨db, .polling⟩ events).phase ≠ .ended error := by
  intro hclaim
  have hended : (run sameOperations some soleConfig ⟨.empty, .polling⟩ cancelledEvents).phase =
      .ended (.store .leaseConflict) := by decide
  refine hclaim sameOperations some (fun _ => rfl) soleConfig .empty cancelledEvents ?_ _ hended
  intro error hfailed
  cases hended.symm.trans hfailed

end Worker

end JobOrchestrator
