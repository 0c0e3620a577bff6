import JobOrchestrator.Domain.Spec
import JobOrchestrator.Library.MachineInt
import JobOrchestrator.Library.MinHeap

/-!
# The reference scheduler

The state machine of `scheduler.rs`.  A method with a mutable receiver becomes a
function that returns its result together with the new state, also when the
result is an error: `complete` changes the state before its last error exits.
The heap of `Reverse<ReadyKey>` is a `MinHeap ReadyKey`.  A job is read by
`job?` and written by `modifyJob`; every operation below is one of these, a
`pushReady`, or a loop over them.
-/

namespace JobOrchestrator

structure SchedulerConfig where
  maxDags : ℕ
  maxReadyJobs : ℕ
  maxLeaseMs : ℤ
  baseRetryMs : ℤ
  maxRetryMs : ℤ
deriving DecidableEq, Repr

/-- `SchedulerConfig::default` -/
def SchedulerConfig.default : SchedulerConfig := ⟨100, 10000, 60000, 1000, 60000⟩

structure ClaimedJob where
  dagId : String
  jobId : String
  kind : JobKind
  payload : String
  attempt : ℕ
  leaseToken : String
  leaseExpiresAtMs : ℤ
deriving DecidableEq, Repr

structure Lease where
  owner : String
  token : String
  expiresAtMs : ℤ
deriving DecidableEq, Repr

structure JobRecord where
  spec : JobSpec
  state : JobState
  attempts : ℕ
  availableAtMs : ℤ
  remainingDependencies : ℕ
  lease : Option Lease
  result : Option String
deriving DecidableEq, Repr

structure DagRecord where
  jobs : Table String JobRecord
  dependents : Table String (List String)
deriving DecidableEq

/-- The heap key; keys are compared field by field in this order. -/
structure ReadyKey where
  availableAtMs : ℤ
  priorityRank : ℤ
  dagId : String
  jobId : String
deriving DecidableEq, Repr

namespace ReadyKey

/-- The fields as a lexicographically ordered tuple. -/
def fields (key : ReadyKey) : ℤ ×ₗ ℤ ×ₗ String ×ₗ String :=
  toLex (key.availableAtMs, toLex (key.priorityRank, toLex (key.dagId, key.jobId)))

theorem fields_injective : Function.Injective fields := by
  rintro ⟨_, _, _, _⟩ ⟨_, _, _, _⟩ h
  simp only [fields, EmbeddingLike.apply_eq_iff_eq, Prod.mk.injEq] at h
  obtain ⟨rfl, rfl, rfl, rfl⟩ := h
  rfl

instance : LinearOrder ReadyKey := LinearOrder.lift' fields fields_injective

theorem le_iff {first second : ReadyKey} : first ≤ second ↔ first.fields ≤ second.fields := Iff.rfl

/-- The availability time is compared first. -/
theorem availableAtMs_le {first second : ReadyKey} (h : first ≤ second) :
    first.availableAtMs ≤ second.availableAtMs :=
  (Prod.Lex.le_iff'.mp (le_iff.mp h)).1

end ReadyKey

inductive SchedulerError
  | validation (error : ValidationError)
  | dagAlreadyExists
  | dagNotFound
  | jobNotFound
  | overloaded
  | invalidLease
  | leaseConflict
  | resultTooLarge
deriving DecidableEq, Repr

structure Scheduler where
  config : SchedulerConfig
  dags : Table String DagRecord
  ready : MinHeap ReadyKey
  sequence : ℕ
deriving DecidableEq

/-- The heap key of a job that becomes available at a time. -/
def readyKey (dagId : String) (job : JobSpec) (availableAtMs : ℤ) : ReadyKey :=
  ⟨availableAtMs, I16.saturatingSub 100 job.priority, dagId, job.id⟩

/-- The wrapping hash of the identifier's bytes, reduced below the ceiling. -/
def deterministicJitter (jobId : String) (ceiling : ℤ) : ℤ :=
  if ceiling ≤ 0 then 0
  else
    let hash := (bytes jobId).foldl
      (fun value byte => U64.wrappingAdd (U64.wrappingMul value 31) byte.toNat) 0
    let modulus := if 0 ≤ ceiling then ceiling.toNat else 1
    let remainder : ℤ := (hash % modulus : ℕ)
    if remainder ≤ I64.max then remainder else 0

/-- `format!("lease-{}-{}-{}", …)` -/
def leaseToken (dagId jobId : String) (sequence : ℕ) : String :=
  "lease-" ++ dagId ++ "-" ++ jobId ++ "-" ++ toString sequence

namespace JobRecord

/-- The states from which `claim` takes a job. -/
def isReady (job : JobRecord) : Bool := job.state = .ready ∨ job.state = .retryWait

/-- The states that `cancel` leaves alone. -/
def isTerminal (job : JobRecord) : Bool :=
  job.state = .succeeded ∨ job.state = .deadLettered ∨ job.state = .cancelled

/-- The lease has run out at a time. -/
def leaseExpired (job : JobRecord) (nowMs : ℤ) : Bool :=
  match job.lease with
  | none => false
  | some lease => job.state = .leased ∧ lease.expiresAtMs ≤ nowMs

/-- The lease is the caller's and has not run out. -/
def holdsLease (job : JobRecord) (owner token : String) (nowMs : ℤ) : Bool :=
  match job.lease with
  | none => false
  | some lease =>
      job.state = .leased ∧ lease.owner = owner ∧ lease.token = token ∧ nowMs < lease.expiresAtMs

end JobRecord

namespace Scheduler

/-- Creates an empty scheduler with explicit admission and timing limits. -/
def new (config : SchedulerConfig) : Scheduler := ⟨config, .empty, .empty, 0⟩

/-- The record of a job, if the graph and the job exist. -/
def job? (scheduler : Scheduler) (dagId jobId : String) : Option JobRecord :=
  (scheduler.dags.get? dagId).bind fun dag => dag.jobs.get? jobId

/-- `job_mut`, as a lookup. -/
def jobMut (scheduler : Scheduler) (dagId jobId : String) : Except SchedulerError JobRecord :=
  match scheduler.dags.get? dagId with
  | none => .error .dagNotFound
  | some dag =>
      match dag.jobs.get? jobId with
      | none => .error .jobNotFound
      | some job => .ok job

/-- Writes through the reference that `job_mut` returns. -/
def modifyJob (scheduler : Scheduler) (dagId jobId : String) (f : JobRecord → JobRecord) :
    Scheduler :=
  { scheduler with
    dags := scheduler.dags.modify dagId fun dag => { dag with jobs := dag.jobs.modify jobId f } }

def pushReady (scheduler : Scheduler) (dagId : String) (job : JobSpec) (availableAtMs : ℤ) :
    Scheduler :=
  { scheduler with ready := scheduler.ready.push (readyKey dagId job availableAtMs) }

/-- The scheduler with another heap. -/
def withReady (scheduler : Scheduler) (ready : MinHeap ReadyKey) : Scheduler :=
  { scheduler with ready := ready }

/-! ## Admission -/

/-- The loop over the edges: dependency counts and dependents. -/
def countEdges : List Dependency → Table String ℕ → Table String (List String) →
    Table String ℕ × Table String (List String)
  | [], counts, dependents => (counts, dependents)
  | edge :: rest, counts, dependents =>
      countEdges rest (counts.modify edge.toId (· + 1)) (pushAt dependents edge.fromId edge.toId)

/-- The dependency counts before the loop. -/
def zeroCounts (jobs : List JobSpec) : Table String ℕ :=
  jobs.foldl (fun counts job => counts.insert job.id 0) .empty

/-- The record of a freshly admitted job. -/
def admittedRecord (counts : Table String ℕ) (nowMs : ℤ) (job : JobSpec) : JobRecord :=
  let remainingDependencies := (counts.get? job.id).getD 0
  { spec := job
    state := if remainingDependencies = 0 then .ready else .pending
    attempts := 0
    availableAtMs := nowMs
    remainingDependencies
    lease := none
    result := none }

/-- The loop over the jobs: records, and heap entries of the jobs that are ready at once. -/
def admitJobs (dagId : String) (counts : Table String ℕ) (nowMs : ℤ) :
    List JobSpec → Table String JobRecord → MinHeap ReadyKey →
      Table String JobRecord × MinHeap ReadyKey
  | [], jobs, ready => (jobs, ready)
  | job :: rest, jobs, ready =>
      let record := admittedRecord counts nowMs job
      admitJobs dagId counts nowMs rest (jobs.insert job.id record)
        (if record.state = .ready then ready.push (readyKey dagId job nowMs) else ready)

/-- Validates and admits a DAG, initializing zero-dependency jobs as ready. -/
def submit (scheduler : Scheduler) (spec : DagSpec) (nowMs : ℤ) :
    Except SchedulerError Unit × Scheduler :=
  match spec.validate with
  | .error error => (.error (.validation error), scheduler)
  | .ok _ =>
      if scheduler.dags.contains spec.id then (.error .dagAlreadyExists, scheduler)
      else if scheduler.config.maxDags ≤ scheduler.dags.size then (.error .overloaded, scheduler)
      else
        let (counts, dependents) := countEdges spec.dependencies (zeroCounts spec.jobs) .empty
        let dependents := dependents.mapValues fun _ values => sortIds values
        let readyCount := counts.countValues fun _ count => count = 0
        if scheduler.config.maxReadyJobs < scheduler.ready.size + readyCount then
          (.error .overloaded, scheduler)
        else
          let (jobs, ready) := admitJobs spec.id counts nowMs spec.jobs .empty scheduler.ready
          (.ok (), { scheduler with
            dags := scheduler.dags.insert spec.id ⟨jobs, dependents⟩
            ready := ready })

/-! ## Retry and expiry -/

/-- The availability time of a retry: bounded exponential backoff with jitter. -/
def retryAtMs (config : SchedulerConfig) (jobId : String) (attempts : ℕ) (nowMs : ℤ) : ℤ :=
  let exponent := min (attempts - 1) 16
  let base := I64.saturatingMul config.baseRetryMs (2 ^ exponent)
  let bounded := min base config.maxRetryMs
  let jitter := deterministicJitter jobId (bounded.tdiv 5)
  I64.saturatingAdd (I64.saturatingAdd nowMs bounded) jitter

def retryOrDeadLetter (scheduler : Scheduler) (dagId jobId : String) (nowMs : ℤ) :
    Except SchedulerError JobState × Scheduler :=
  match scheduler.jobMut dagId jobId with
  | .error error => (.error error, scheduler)
  | .ok job =>
      if job.spec.maxAttempts ≤ job.attempts then
        (.ok .deadLettered, scheduler.modifyJob dagId jobId fun job =>
          { job with lease := none, state := .deadLettered })
      else
        let availableAtMs := retryAtMs scheduler.config jobId job.attempts nowMs
        let retried := scheduler.modifyJob dagId jobId fun job =>
          { job with lease := none, availableAtMs := availableAtMs, state := .retryWait }
        (.ok .retryWait, retried.pushReady dagId job.spec availableAtMs)

/-- The keys of the expired leases in iteration order. -/
def expiredLeases (scheduler : Scheduler) (nowMs : ℤ) : List (String × String) :=
  scheduler.dags.entries.flatMap fun (dagId, dag) =>
    dag.jobs.entries.filterMap fun (jobId, job) =>
      if job.leaseExpired nowMs then some (dagId, jobId) else none

/-- Reclaims expired leases.  Late workers cannot commit after this transition. -/
def reap (scheduler : Scheduler) (nowMs : ℤ) : ℕ × Scheduler :=
  let expired := scheduler.expiredLeases nowMs
  (expired.length, expired.foldl
    (fun current key => (current.retryOrDeadLetter key.1 key.2 nowMs).2) scheduler)

/-! ## Claims -/

/-- The claim of a live heap entry, which has been popped. -/
def grant (scheduler : Scheduler) (key : ReadyKey) (job : JobRecord) (owner : String)
    (nowMs leaseMs : ℤ) : ClaimedJob × Scheduler :=
  let sequence := U64.saturatingAdd scheduler.sequence 1
  let token := leaseToken key.dagId key.jobId sequence
  let expiresAtMs := I64.saturatingAdd nowMs leaseMs
  let attempts := U16.saturatingAdd job.attempts 1
  let granted := scheduler.modifyJob key.dagId key.jobId fun job =>
    { job with attempts := attempts, state := .leased, lease := some ⟨owner, token, expiresAtMs⟩ }
  (⟨key.dagId, key.jobId, job.spec.kind, job.spec.payload, attempts, token, expiresAtMs⟩,
    { granted with sequence := sequence })

/-- The loop of `claim`.  Every iteration that does not return pops an entry, so
that the size of the heap is enough fuel. -/
def claimLoop (owner : String) (nowMs leaseMs : ℤ) : ℕ → Scheduler →
    Except SchedulerError (Option ClaimedJob) × Scheduler
  | 0, scheduler => (.ok none, scheduler)
  | fuel + 1, scheduler =>
      match scheduler.ready.peek? with
      | none => (.ok none, scheduler)
      | some key =>
          if nowMs < key.availableAtMs then (.ok none, scheduler)
          else
            let popped := scheduler.withReady scheduler.ready.pop
            match popped.job? key.dagId key.jobId with
            | none => claimLoop owner nowMs leaseMs fuel popped
            | some job =>
                if !job.isReady ∨ job.availableAtMs ≠ key.availableAtMs then
                  claimLoop owner nowMs leaseMs fuel popped
                else
                  let (claimed, granted) := popped.grant key job owner nowMs leaseMs
                  (.ok (some claimed), granted)

/-- The owner and duration that `claim` accepts. -/
def validLease (config : SchedulerConfig) (owner : String) (leaseMs : ℤ) : Bool :=
  !(owner.isEmpty || decide (64 < owner.utf8ByteSize) || decide (leaseMs ≤ 0) ||
    decide (config.maxLeaseMs < leaseMs))

/-- Claims the highest-priority ready job whose availability time has passed. -/
def claim (scheduler : Scheduler) (owner : String) (nowMs leaseMs : ℤ) :
    Except SchedulerError (Option ClaimedJob) × Scheduler :=
  if !validLease scheduler.config owner leaseMs then (.error .invalidLease, scheduler)
  else
    let reaped := (scheduler.reap nowMs).2
    claimLoop owner nowMs leaseMs reaped.ready.size reaped

/-! ## Reports of a lease holder -/

def assertLease (scheduler : Scheduler) (dagId jobId owner token : String) (nowMs : ℤ) :
    Except SchedulerError Unit :=
  match scheduler.jobMut dagId jobId with
  | .error error => .error error
  | .ok job => if job.holdsLease owner token nowMs then .ok () else .error .leaseConflict

/-- Extends a live lease only when both its owner and token match. -/
def heartbeat (scheduler : Scheduler) (dagId jobId owner token : String) (nowMs leaseMs : ℤ) :
    Except SchedulerError ℤ × Scheduler :=
  if leaseMs ≤ 0 ∨ scheduler.config.maxLeaseMs < leaseMs then (.error .invalidLease, scheduler)
  else match scheduler.jobMut dagId jobId with
    | .error error => (.error error, scheduler)
    | .ok job =>
        if !job.holdsLease owner token nowMs then (.error .leaseConflict, scheduler)
        else
          let expiresAtMs := I64.saturatingAdd nowMs leaseMs
          (.ok expiresAtMs, scheduler.modifyJob dagId jobId fun job =>
            { job with lease := job.lease.map fun lease => { lease with expiresAtMs } })

/-- The loop of `complete` over the dependents of a succeeded job. -/
def releaseDependents (dagId : String) (nowMs : ℤ) : List String → Scheduler →
    Except SchedulerError Unit × Scheduler
  | [], scheduler => (.ok (), scheduler)
  | dependent :: rest, scheduler =>
      match scheduler.jobMut dagId dependent with
      | .error error => (.error error, scheduler)
      | .ok job =>
          let remainingDependencies := job.remainingDependencies - 1
          if remainingDependencies = 0 ∧ job.state = .pending then
            let released := scheduler.modifyJob dagId dependent fun job =>
              { job with remainingDependencies, state := .ready, availableAtMs := nowMs }
            releaseDependents dagId nowMs rest (released.pushReady dagId job.spec nowMs)
          else
            releaseDependents dagId nowMs rest
              (scheduler.modifyJob dagId dependent fun job => { job with remainingDependencies })

/-- Commits a success using compare-and-set lease semantics and releases dependents. -/
def complete (scheduler : Scheduler) (dagId jobId owner token result : String) (nowMs : ℤ) :
    Except SchedulerError Unit × Scheduler :=
  if maxPayloadBytes < result.utf8ByteSize then (.error .resultTooLarge, scheduler)
  else match scheduler.assertLease dagId jobId owner token nowMs with
    | .error error => (.error error, scheduler)
    | .ok () =>
        match scheduler.dags.get? dagId with
        | none => (.error .dagNotFound, scheduler)
        | some dag =>
            match dag.jobs.get? jobId with
            | none => (.error .jobNotFound, scheduler)
            | some _ =>
                let succeeded := scheduler.modifyJob dagId jobId fun job =>
                  { job with state := .succeeded, lease := none, result := some result }
                releaseDependents dagId nowMs (listAt dag.dependents jobId) succeeded

/-- Records a failure and either applies bounded backoff or dead-letters the job. -/
def fail (scheduler : Scheduler) (dagId jobId owner token : String) (nowMs : ℤ) :
    Except SchedulerError JobState × Scheduler :=
  match scheduler.assertLease dagId jobId owner token nowMs with
  | .error error => (.error error, scheduler)
  | .ok () => scheduler.retryOrDeadLetter dagId jobId nowMs

/-! ## Cancellation -/

/-- What `cancel` makes of one job. -/
def cancelled (job : JobRecord) : JobRecord :=
  if job.isTerminal then job else { job with state := .cancelled, lease := none }

/-- Cancels every non-terminal job in a DAG and invalidates active leases. -/
def cancel (scheduler : Scheduler) (dagId : String) : Except SchedulerError ℕ × Scheduler :=
  match scheduler.dags.get? dagId with
  | none => (.error .dagNotFound, scheduler)
  | some dag =>
      (.ok (dag.jobs.countValues fun _ job => !job.isTerminal),
        { scheduler with dags := scheduler.dags.modify dagId fun dag =>
          { dag with jobs := dag.jobs.mapValues fun _ job => cancelled job } })

end Scheduler

end JobOrchestrator
