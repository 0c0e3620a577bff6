import JobOrchestrator.Store.DependencyOrder
import JobOrchestrator.Worker.Loop

/-!
# A fleet of workers

Any number of `orchestrator_worker` processes over one store, whose graphs have been
submitted before.  Every call of a
process is a transaction of the store, interleaved with all the others at the level
of single rows; a process may crash at any point and start again, and leaves its
open transaction behind.  Other clients submit no results, but else they do what
they like: they claim, extend, fail, reap and cancel.

A fleet is a store system (`FleetRun.interleaved`), in which every completion that
is ever started carries the output of its job.  From this and the order of the
commits follows `fleet_results`: what a process executes is a submitted job whose
ancestors have all succeeded, and every success holds the output of its own job.
-/

namespace JobOrchestrator

namespace Worker

open ReadCommitted

/-! ## The system -/

/-- Where a process is: at the head of its loop, waiting for a claim, executing a
job, waiting for a report, or out of the loop. -/
inductive Station
  | idle
  | claiming (id : ℕ)
  | executing (claim : StoreClaim)
  | reporting (id : ℕ)
  | ended
deriving DecidableEq

/-- The `ClaimedJob` from the row that a claim has returned. -/
def claimOf (change : StoreChange) : Option StoreClaim :=
  match change.label, change.key, change.new with
  | .claim, .job dagId jobId, .job row => some {
      dagId := dagId
      jobId := jobId
      kind := row.kind
      payload := row.payload
      attempt := row.attempts
      leaseToken := row.leaseToken.getD 0
      leaseExpiresAtMs := PostgresStore.unixMillis (row.leaseExpiresAt.getD 0) }
  | _, _, _ => none

/-- The answer to a claim that commits. -/
def claimed (system : StoreSystem) (id : ℕ) : Option StoreClaim :=
  (system.sessions.get? id).bind fun session => session.changes.findSome? claimOf

/-- What a process learns from an action of the store. -/
def Station.after (station : Station) (system : StoreSystem) (action : StoreAction) : Station :=
  match action, station with
  | .commit id, .claiming own =>
      if own = id then
        match claimed system id with
        | some claim => .executing claim
        | none => .idle
      else station
  | .commit id, .reporting own => if own = id then .idle else station
  | .abort id, .claiming own => if own = id then .ended else station
  | .abort id, .reporting own => if own = id then .ended else station
  | _, _ => station

/-- The call that reports a job. -/
def report (operations : Operations) (config : WorkerConfig) (claim : StoreClaim) (now : ℤ) :
    Transaction :=
  match execute operations claim.kind claim.payload with
  | .ok result =>
      .complete claim.dagId claim.jobId config.workerId claim.leaseToken result now
  | .error _ => .fail claim.dagId claim.jobId config.workerId claim.leaseToken now

/-- The action starts a completion. -/
def startsCompletion : StoreAction → Bool
  | .start _ (.complete _ _ _ _ _ _) => true
  | _ => false

structure Fleet where
  system : StoreSystem
  station : ℕ → Station

/-- What happens next: a process starts a call, or crashes and starts again, or the
store goes on and other clients start theirs. -/
inductive FleetAction
  | poll (worker id : ℕ) (now : ℤ) (fresh : Uuid)
  | report (worker id : ℕ) (now : ℤ)
  | crash (worker : ℕ)
  | act (action : StoreAction)

namespace Fleet

/-- A process starts a transaction and waits for it. -/
def start (dependencies : List DependencyRow) (fleet : Fleet) (worker id : ℕ)
    (program : Transaction) (station : Station) : Option Fleet :=
  (fleet.system.step (command dependencies) (.start id program)).map fun system =>
    ⟨system, Function.update fleet.station worker station⟩

/-- The fleet after an action, if it is possible. -/
def step (operations : Operations) (config : ℕ → WorkerConfig)
    (dependencies : List DependencyRow) (fleet : Fleet) : FleetAction → Option Fleet
  | .poll worker id now fresh => match fleet.station worker with
      | .idle => fleet.start dependencies worker id
          (.claim (config worker).workerId fresh (config worker).leaseMs now) (.claiming id)
      | _ => none
  | .report worker id now => match fleet.station worker with
      | .executing claim => fleet.start dependencies worker id
          (Worker.report operations (config worker) claim now) (.reporting id)
      | _ => none
  | .crash worker => some { fleet with station := Function.update fleet.station worker .idle }
  | .act action =>
      if startsCompletion action then none
      else (fleet.system.step (command dependencies) action).map fun system =>
        ⟨system, fun worker => (fleet.station worker).after fleet.system action⟩

/-- All processes are at the head of their loops. -/
def new (rows : Table StoreKey StoredRow) : Fleet := ⟨.new rows, fun _ => .idle⟩

/-- The fleet after a sequence of actions. -/
def run (operations : Operations) (config : ℕ → WorkerConfig)
    (dependencies : List DependencyRow) : Fleet → List FleetAction → Option Fleet
  | fleet, [] => some fleet
  | fleet, action :: rest => (fleet.step operations config dependencies action).bind fun next =>
      next.run operations config dependencies rest

end Fleet

/-- The fleets that any actions lead to over a submitted database. -/
inductive FleetRun (operations : Operations) (config : ℕ → WorkerConfig) (db : Database) :
    Fleet → Prop
  | new : FleetRun operations config db (.new db.stored)
  | step {fleet next : Fleet} (action : FleetAction) :
      FleetRun operations config db fleet →
      fleet.step operations config db.dependencies.keys action = some next →
      FleetRun operations config db next

/-! ## Honest completions -/

/-- The result is the output of the job under the key. -/
def Computed (operations : Operations) (db : Database) (dagId jobId result : String) : Prop :=
  ∃ row, db.jobs.get? (dagId, jobId) = some row ∧
    execute operations row.kind row.payload = .ok result

/-- A completion carries the output of its job. -/
def Honest (operations : Operations) (db : Database) (program : Transaction) : Prop :=
  ∀ dagId jobId owner token result now,
    program = .complete dagId jobId owner token result now →
    Computed operations db dagId jobId result

/-- Only honest completions are started. -/
def HonestStart (operations : Operations) (db : Database) (_ : StoreSystem)
    (action : StoreAction) : Prop :=
  ∀ id program, action = .start id program → Honest operations db program

/-- The claim was made by a committed transaction. -/
def Granted (system : StoreSystem) (claim : StoreClaim) : Prop :=
  ∃ commit ∈ system.history, ∃ change ∈ commit.changes, claimOf change = some claim

theorem claimOf_eq_some {change : StoreChange} {claim : StoreClaim}
    (h : claimOf change = some claim) :
    change.label = .claim ∧ change.key = .job claim.dagId claim.jobId ∧
      ∃ row, change.new = .job row ∧ row.kind = claim.kind ∧ row.payload = claim.payload := by
  unfold claimOf at h
  split at h
  next dagId jobId row hlabel hkey hnew =>
    cases h
    exact ⟨hlabel, hkey, row, hnew, rfl, rfl⟩
  · cases h

theorem honest_of_not_completes (operations : Operations) (db : Database) {action : StoreAction}
    (h : startsCompletion action = false) (system : StoreSystem) :
    HonestStart operations db system action := by
  rintro id program rfl dagId jobId owner token result now rfl
  cases h

section

variable {db : Database} {system next : StoreSystem} {action : StoreAction}

theorem Granted.step {claim : StoreClaim} (h : Granted system claim)
    (hstep : system.step (command db.dependencies.keys) action = some next) :
    Granted next claim := by
  obtain ⟨commit, hcommit, hgrants⟩ := h
  refine ⟨commit, ?_, hgrants⟩
  rcases System.history_cases hstep with hsame | ⟨_, _, -, -, hnext⟩
  · exact hsame ▸ hcommit
  · exact hnext ▸ List.mem_append_left _ hcommit

theorem granted_of_after {station : Station} {claim : StoreClaim}
    (hstep : system.step (command db.dependencies.keys) action = some next)
    (h : station.after system action = .executing claim) :
    station = .executing claim ∨ Granted next claim := by
  unfold Station.after at h
  split at h
  next id own =>
    split at h
    next hown =>
      split at h
      next found hfound =>
        cases h
        obtain ⟨session, hsession, hfirst⟩ := Option.bind_eq_some_iff.mp hfound
        obtain ⟨change, hchange, hclaim⟩ := List.exists_of_findSome?_eq_some hfirst
        obtain ⟨session', hsession', -, -, rfl⟩ := System.step_cases hstep
        cases hsession.symm.trans hsession'
        exact .inr ⟨_, List.mem_append_right _ (List.mem_singleton_self _), change, hchange, hclaim⟩
      · cases h
    · cases h
  next =>
    split at h
    · cases h
    · cases h
  next =>
    split at h
    · cases h
    · cases h
  next =>
    split at h
    · cases h
    · cases h
  next => exact .inl h

end

theorem Granted.work {db : Database} {allowed : StoreSystem → StoreAction → Prop}
    {system : StoreSystem} (h : Interleaved db allowed system) {claim : StoreClaim}
    (hgranted : Granted system claim) :
    ∃ row, db.jobs.get? (claim.dagId, claim.jobId) = some row ∧ row.kind = claim.kind ∧
      row.payload = claim.payload := by
  obtain ⟨commit, hcommit, change, hchange, hclaim⟩ := hgranted
  obtain ⟨-, hkey, row, hnew, hkind, hpayload⟩ := claimOf_eq_some hclaim
  obtain ⟨first, old, new, hfirst, hprecedes, hsame, hmove⟩ :=
    committed_rowChange h hcommit hchange hkey
  cases hnew.symm.trans hsame
  obtain ⟨hsameKind, hsamePayload⟩ := (hprecedes.trans hmove.precedes).work
  exact ⟨first, hfirst, hsameKind.symm.trans hkind, hsamePayload.symm.trans hpayload⟩

section

variable {operations : Operations} {config : ℕ → WorkerConfig} {db : Database} {fleet : Fleet}

theorem honest_report {allowed : StoreSystem → StoreAction → Prop}
    (h : Interleaved db allowed fleet.system) {claim : StoreClaim}
    (hgranted : Granted fleet.system claim) (config : WorkerConfig) (now : ℤ) :
    Honest operations db (report operations config claim now) := by
  intro dagId jobId owner token result now' hreport
  unfold report at hreport
  split at hreport
  next output houtput =>
    cases hreport
    obtain ⟨row, hrow, hkind, hpayload⟩ := hgranted.work h
    exact ⟨row, hrow, by rw [hkind, hpayload, houtput]⟩
  · cases hreport

/-- A fleet is a store system with honest completions, and what its processes
execute was granted to them. -/
theorem FleetRun.interleaved (h : FleetRun operations config db fleet) :
    Interleaved db (HonestStart operations db) fleet.system ∧
      ∀ worker claim, fleet.station worker = .executing claim → Granted fleet.system claim := by
  induction h with
  | new => exact ⟨.new, fun worker claim hexecuting => by cases hexecuting⟩
  | @step fleet next action _ hstep ih =>
      obtain ⟨hinterleaved, hexecuting⟩ := ih
      -- the start of a call of a process itself
      have hstarts : ∀ worker id program station,
          Honest operations db program → (∀ claim, station ≠ .executing claim) →
          fleet.start db.dependencies.keys worker id program station = some next →
          Interleaved db (HonestStart operations db) next.system ∧
            ∀ worker claim, next.station worker = .executing claim →
              Granted next.system claim := by
        intro worker id program station hhonest hstation hstart
        obtain ⟨system, hsystem, rfl⟩ := Option.map_eq_some_iff.mp hstart
        refine ⟨hinterleaved.step _ ?_ hsystem, fun other claim hother => ?_⟩
        · rintro id' program' hsame
          cases hsame
          exact hhonest
        · by_cases hworker : other = worker
          · subst hworker
            simp only [Function.update_self] at hother
            exact absurd hother (hstation claim)
          · simp only [Function.update_of_ne hworker] at hother
            exact (hexecuting other claim hother).step hsystem
      cases action with
      | poll worker id now fresh =>
          simp only [Fleet.step] at hstep
          split at hstep
          · refine hstarts worker id _ _ ?_ (fun _ => Station.noConfusion) hstep
            rintro dagId jobId owner token result now' hsame
            cases hsame
          · cases hstep
      | report worker id now =>
          simp only [Fleet.step] at hstep
          split at hstep
          next claim hclaim =>
            exact hstarts worker id _ _ (honest_report hinterleaved
              (hexecuting worker claim hclaim) _ now) (fun _ => Station.noConfusion) hstep
          · cases hstep
      | crash worker =>
          cases hstep
          refine ⟨hinterleaved, fun other claim hother => ?_⟩
          by_cases hworker : other = worker
          · subst hworker
            simp at hother
          · simp only [Function.update_of_ne hworker] at hother
            exact hexecuting other claim hother
      | act action =>
          simp only [Fleet.step] at hstep
          split at hstep
          · cases hstep
          next hother =>
            obtain ⟨system, hsystem, rfl⟩ := Option.map_eq_some_iff.mp hstep
            have hhonest := honest_of_not_completes operations db (by simpa using hother)
              fleet.system
            refine ⟨hinterleaved.step action hhonest hsystem, fun worker claim hafter => ?_⟩
            rcases granted_of_after hsystem hafter with hbefore | hgranted
            · exact (hexecuting worker claim hbefore).step hsystem
            · exact hgranted

end

/-! ## What the fleet does -/

/-- The last version of a job that has succeeded was written by a completion of it. -/
theorem exists_completion_program {db : Database} (hdb : db.Submitted)
    {allowed : StoreSystem → StoreAction → Prop} {system : StoreSystem}
    (h : Interleaved db allowed system) {dagId jobId : String} {row : JobRow}
    (hrow : system.committed.get? (.job dagId jobId) = some (.job row))
    (hsucceeded : row.state = .succeeded) :
    ∃ commit ∈ system.history, ∃ owner token result now,
      commit.program = .complete dagId jobId owner token result now ∧ row.result = some result := by
  rw [h.sound.committed] at hrow
  rcases get?_install_cases db.stored system.log (.job dagId jobId) with
    ⟨-, hsame⟩ | ⟨change, hchange, hkey, hwritten⟩
  · -- a submitted job has not succeeded
    obtain ⟨first, hfirst, hstored⟩ :=
      (get?_stored_job db dagId jobId (.job row)).mp (hsame.symm.trans hrow)
    cases hstored
    rcases (hdb.untouched hfirst).waiting with hready | ⟨hpending, -⟩
    · cases hready.symm.trans hsucceeded
    · cases hpending.symm.trans hsucceeded
  · obtain ⟨commit, hcommit, hmem⟩ := List.mem_flatMap.mp hchange
    obtain ⟨_, old, new, -, -, hnew, hmove⟩ := committed_rowChange h hcommit hmem hkey
    rw [hnew] at hwritten
    cases hwritten.symm.trans hrow
    exact ⟨commit, hcommit, (hmove.completes hsucceeded).2⟩

theorem Granted.ancestor_succeeded {db : Database} (hdb : db.Submitted)
    {allowed : StoreSystem → StoreAction → Prop} {system : StoreSystem}
    (h : Interleaved db allowed system) {claim : StoreClaim} (hgranted : Granted system claim)
    {ancestorId : String} (hbefore : db.Before claim.dagId ancestorId claim.jobId) :
    ∃ ancestor, system.committed.get? (.job claim.dagId ancestorId) = some (.job ancestor) ∧
      ancestor.state = .succeeded := by
  obtain ⟨commit, hcommit, change, hchange, hclaim⟩ := hgranted
  obtain ⟨hlabel, hkey, -⟩ := claimOf_eq_some hclaim
  obtain ⟨before, after, hhistory⟩ := List.append_of_mem hcommit
  have hlog : change ∈ jobLog [commit] claim.dagId claim.jobId := by
    unfold jobLog
    rw [List.flatMap_singleton]
    exact List.mem_filter.mpr ⟨hchange, by simpa using hkey⟩
  obtain ⟨ancestor, hancestor, hsucceeded⟩ :=
    h.ancestor_of_claim hdb hhistory hbefore ⟨change, hlog, hlabel⟩
  -- a succeeded row is final
  have hfinal := (h.sound.final (final_storedTerminal _) hhistory fun stored hstored => by
    cases hancestor.symm.trans hstored
    exact .inl hsucceeded).2
  exact ⟨ancestor, hfinal.trans hancestor, hsucceeded⟩

/-- However many processes claim, execute, crash and report at once, beside other
clients that complete nothing: a process only ever executes a submitted job, with
its own kind and payload, whose ancestors have all succeeded; and every job that
has succeeded holds the output of its own kind and payload. -/
theorem fleet_results (operations : Operations) (config : ℕ → WorkerConfig) {db : Database}
    (hdb : db.Submitted) {fleet : Fleet} (hrun : FleetRun operations config db fleet) :
    (∀ worker claim, fleet.station worker = .executing claim →
      ∃ spec now job, spec.id = claim.dagId ∧ db.HoldsGraph spec now ∧ job ∈ spec.jobs ∧
        job.id = claim.jobId ∧ job.kind = claim.kind ∧ job.payload = claim.payload ∧
        ∀ ancestorId, db.Before spec.id ancestorId job.id → ∃ ancestor,
          fleet.system.committed.get? (.job spec.id ancestorId) = some (.job ancestor) ∧
            ancestor.state = .succeeded) ∧
    (∀ dagId jobId row, fleet.system.committed.get? (.job dagId jobId) = some (.job row) →
      row.state = .succeeded →
      ∃ spec now job result, spec.id = dagId ∧ db.HoldsGraph spec now ∧ job ∈ spec.jobs ∧
        job.id = jobId ∧ row.result = some result ∧
        execute operations job.kind job.payload = .ok result) := by
  obtain ⟨hinterleaved, hgranted⟩ := hrun.interleaved
  constructor
  · intro worker claim hexecuting
    have hclaim := hgranted worker claim hexecuting
    obtain ⟨row, hrow, hkind, hpayload⟩ := hclaim.work hinterleaved
    obtain ⟨spec, now, job, hdag, hholds, hjob, hid, -, rfl⟩ := hdb.exists_spec hrow
    refine ⟨spec, now, job, hdag, hholds, hjob, hid, hkind, hpayload, fun ancestorId hbefore => ?_⟩
    rw [hdag] at hbefore ⊢
    rw [hid] at hbefore
    exact hclaim.ancestor_succeeded hdb hinterleaved hbefore
  · intro dagId jobId row hrow hsucceeded
    obtain ⟨commit, hcommit, owner, token, result, now, hprogram, hresult⟩ :=
      exists_completion_program hdb hinterleaved hrow hsucceeded
    have hhonest : ∀ commit ∈ fleet.system.history, Honest operations db commit.program :=
      (hinterleaved.programs fun _ id program hstart => hstart id program rfl).2
    obtain ⟨first, hfirst, hexecute⟩ := hhonest commit hcommit dagId jobId owner token result now
      hprogram
    obtain ⟨spec, now, job, hdag, hholds, hjob, hid, -, rfl⟩ := hdb.exists_spec hfirst
    exact ⟨spec, now, job, result, hdag, hholds, hjob, hid, hresult, hexecute⟩

/-! ## Two workers and a join -/

theorem FleetRun.run {operations : Operations} {config : ℕ → WorkerConfig} {db : Database}
    {fleet last : Fleet} (h : FleetRun operations config db fleet) {actions : List FleetAction}
    (hrun : fleet.run operations config db.dependencies.keys actions = some last) :
    FleetRun operations config db last := by
  induction actions generalizing fleet with
  | nil =>
      cases hrun
      exact h
  | cons action rest ih =>
      obtain ⟨next, hstep, hrest⟩ := Option.bind_eq_some_iff.mp hrun
      exact ih (h.step action hstep) hrest

/-- An iteration of a process: it claims the job under the key. -/
def claimActions (worker id : ℕ) (now : ℤ) (fresh : Uuid) (key : StoreKey) : List FleetAction :=
  [.poll worker id now fresh, .act (.execute id), .act (.finish id), .act (.execute id),
    .act (.visit id key), .act (.finish id), .act (.commit id)]

/-- The end of an iteration: it reports the job and releases the children under the keys. -/
def reportActions (worker id : ℕ) (now : ℤ) (key : StoreKey) (children : List StoreKey) :
    List FleetAction :=
  [.report worker id now, .act (.execute id), .act (.visit id key), .act (.finish id),
    .act (.execute id)] ++ children.map (fun child => .act (.visit id child)) ++
    [.act (.finish id), .act (.commit id)]

/-- Two processes execute the parents, one of them crashes and comes back for the child. -/
def fleetActions : List FleetAction :=
  claimActions 0 0 10 7 (.job "join" "left") ++ claimActions 1 1 10 8 (.job "join" "right") ++
    reportActions 0 2 20 (.job "join" "left") [] ++
    reportActions 1 3 20 (.job "join" "right") [.job "join" "child"] ++ [.crash 0] ++
    claimActions 0 4 30 9 (.job "join" "child")

def joinedFleet : Fleet :=
  ((Fleet.new joinDatabase.stored).run sameOperations (fun _ => soleConfig)
    joinDatabase.dependencies.keys fleetActions).getD (.new .empty)

theorem fleetRun_joined :
    FleetRun sameOperations (fun _ => soleConfig) joinDatabase joinedFleet := by
  have hpossible : ((Fleet.new joinDatabase.stored).run sameOperations (fun _ => soleConfig)
      joinDatabase.dependencies.keys fleetActions).isSome = true := by decide
  obtain ⟨last, hlast⟩ := Option.isSome_iff_exists.mp hpossible
  have hfleet : joinedFleet = last := by
    rw [joinedFleet, hlast]
    rfl
  rw [hfleet]
  exact FleetRun.new.run hlast

/-- A process executes the child, and its parents have succeeded with their outputs. -/
theorem fleet_results_join :
    (∃ claim, joinedFleet.station 0 = .executing claim ∧ claim.jobId = "child" ∧
      claim.attempt = 1) ∧
    ∃ (parent : JobRow) (job : JobSpec) (result : String),
      joinedFleet.system.committed.get? (.job "join" "left") = some (.job parent) ∧
      job.id = "left" ∧ parent.result = some result ∧
      execute sameOperations job.kind job.payload = .ok result := by
  have hjoin : joinDatabase.Submitted := .submit _ 0 .empty
  have hexecuting : joinedFleet.station 0 = .executing
      ⟨"join", "child", .uppercase, "", 1, 9, 15000⟩ := by decide
  obtain ⟨hstations, hresults⟩ :=
    fleet_results sameOperations (fun _ => soleConfig) hjoin fleetRun_joined
  refine ⟨⟨_, hexecuting, rfl, rfl⟩, ?_⟩
  obtain ⟨spec, now, job, hdag, -, -, hid, -, -, hancestors⟩ := hstations 0 _ hexecuting
  have hedge : (⟨"join", "left", "child"⟩ : DependencyRow) ∈ joinDatabase.dependencies.keys := by
    decide
  rw [hdag, hid] at hancestors
  obtain ⟨parent, hparent, hsucceeded⟩ := hancestors "left" (Relation.TransGen.single hedge)
  obtain ⟨_, _, job, result, -, -, -, hleft, hresult, hexecute⟩ :=
    hresults "join" "left" parent hparent hsucceeded
  exact ⟨parent, job, result, hparent, hleft, hresult, hexecute⟩

end Worker

end JobOrchestrator
