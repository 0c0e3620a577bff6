import JobOrchestrator.Library.Table

/-!
# Job graphs and their validation

The value objects of `domain.rs` and `DagSpec::validate`.  A hash map is a
`Table`, whose entry order is the iteration order; the identifiers it yields are
sorted before the order can matter.  Counters and lengths are natural numbers;
the in-degree of the Kahn loop is decremented with the wrap-around of an
unsigned 64-bit integer, which `Domain/Kahn.lean` shows never to happen.
-/

namespace JobOrchestrator

/-- `MAX_DAG_ID_BYTES` -/
def maxDagIdBytes : ℕ := 64

/-- `MAX_JOB_ID_BYTES` -/
def maxJobIdBytes : ℕ := 64

/-- `MAX_JOBS_PER_DAG` -/
def maxJobsPerDag : ℕ := 1000

/-- `MAX_DEPENDENCIES_PER_DAG` -/
def maxDependenciesPerDag : ℕ := 10000

/-- `MAX_PAYLOAD_BYTES` -/
def maxPayloadBytes : ℕ := 4096

/-- Fixed, harmless worker operations. -/
inductive JobKind
  | delay
  | checksum
  | uppercase
deriving DecidableEq, Repr

inductive ValidationError
  | invalidIdentifier (value : String)
  | invalidJobCount
  | invalidDependencyCount
  | duplicateJob (id : String)
  | unknownJob (id : String)
  | cycle
  | payloadTooLarge
  | invalidDelay
  | invalidPolicy
deriving DecidableEq, Repr

/-- The text shown for a validation error. -/
def ValidationError.message : ValidationError → String
  | .invalidIdentifier value =>
      "identifier must contain 1..=64 ASCII letters, numbers, dashes, or underscores: " ++ value
  | .invalidJobCount => "DAG must contain 1..=1000 jobs"
  | .invalidDependencyCount => "DAG must contain at most 10000 dependencies"
  | .duplicateJob id => "duplicate job identifier: " ++ id
  | .unknownJob id => "dependency references unknown job: " ++ id
  | .cycle => "dependency graph contains a cycle"
  | .payloadTooLarge => "payload exceeds 4096 bytes"
  | .invalidDelay => "delay payload must be an integer from 0 through 5000 milliseconds"
  | .invalidPolicy => "attempts must be 1..=20 and priority must be -100..=100"

/-- `default_attempts` -/
def defaultAttempts : ℕ := 3

/-- Declarative unit of bounded work. -/
structure JobSpec where
  id : String
  kind : JobKind
  payload : String
  maxAttempts : ℕ := defaultAttempts
  priority : ℤ := 0
deriving DecidableEq, Repr

/-- Directed edge where `fromId` must succeed before `toId` can run. -/
structure Dependency where
  fromId : String
  toId : String
deriving DecidableEq, Repr

/-- Complete user-submitted directed acyclic graph. -/
structure DagSpec where
  id : String
  jobs : List JobSpec
  dependencies : List Dependency := []
deriving DecidableEq, Repr

/-- The edge list of a graph, repeated edges included. -/
def DagSpec.edges (spec : DagSpec) : List (String × String) :=
  spec.dependencies.map fun edge => (edge.fromId, edge.toId)

/-- The job identifiers in the order of the submission. -/
def DagSpec.jobIds (spec : DagSpec) : List String := spec.jobs.map JobSpec.id

inductive JobState
  | pending
  | ready
  | retryWait
  | leased
  | succeeded
  | deadLettered
  | cancelled
deriving DecidableEq, Repr

/-! ## Identifiers and payloads -/

/-- `u8::is_ascii_alphanumeric` -/
def isAsciiAlphanumeric (byte : UInt8) : Bool :=
  (48 ≤ byte && byte ≤ 57) || (65 ≤ byte && byte ≤ 90) || (97 ≤ byte && byte ≤ 122)

/-- The UTF-8 bytes of a text. -/
def bytes (value : String) : List UInt8 := value.toUTF8.data.toList

def validateIdentifier (value : String) (maxBytes : ℕ) : Except ValidationError Unit :=
  let valid := !value.isEmpty && decide (value.utf8ByteSize ≤ maxBytes) &&
    (bytes value).all fun byte => isAsciiAlphanumeric byte || byte == 45 || byte == 95
  if valid then .ok () else .error (.invalidIdentifier value)

/-- `str::parse::<u64>`: an optional plus sign, then at least one decimal digit. -/
def parseU64 (text : String) : Option ℕ :=
  let digits := match text.toList with
    | '+' :: rest => rest
    | characters => characters
  if digits.isEmpty || !digits.all Char.isDigit then none
  else
    let value := digits.foldl (fun total digit => total * 10 + (digit.toNat - '0'.toNat)) 0
    if value < 2 ^ 64 then some value else none

/-- Checks operation-specific payload limits before work enters the queue. -/
def JobKind.validatePayload (kind : JobKind) (payload : String) : Except ValidationError Unit :=
  if maxPayloadBytes < payload.utf8ByteSize then .error .payloadTooLarge
  else if kind = .delay then
    match parseU64 payload with
    | none => .error .invalidDelay
    | some milliseconds => if 5000 < milliseconds then .error .invalidDelay else .ok ()
  else .ok ()

/-! ## The two passes over the submission -/

/-- The loop over the jobs: every job is checked and enters the in-degree map with zero. -/
def checkJobs : List JobSpec → Table String ℕ → Except ValidationError (Table String ℕ)
  | [], indegree => .ok indegree
  | job :: rest, indegree => do
      validateIdentifier job.id maxJobIdBytes
      job.kind.validatePayload job.payload
      if job.maxAttempts = 0 ∨ 20 < job.maxAttempts ∨ ¬(-100 ≤ job.priority ∧ job.priority ≤ 100)
      then .error .invalidPolicy
      else if indegree.contains job.id then .error (.duplicateJob job.id)
      else checkJobs rest (indegree.insert job.id 0)

/-- The list stored under a key, empty if there is none. -/
def listAt (table : Table String (List String)) (key : String) : List String :=
  (table.get? key).getD []

/-- `entry(key).or_default().push(value)` -/
def pushAt (table : Table String (List String)) (key value : String) :
    Table String (List String) :=
  table.insert key (listAt table key ++ [value])

/-- The loop over the edges: in-degrees and outgoing adjacency. -/
def linkEdges : List Dependency → Table String ℕ → Table String (List String) →
    Except ValidationError (Table String ℕ × Table String (List String))
  | [], indegree, outgoing => .ok (indegree, outgoing)
  | edge :: rest, indegree, outgoing =>
      if edge.fromId = edge.toId then .error .cycle
      else if !indegree.contains edge.fromId then .error (.unknownJob edge.fromId)
      else match indegree.get? edge.toId with
        | none => .error (.unknownJob edge.toId)
        | some targetDegree =>
            linkEdges rest (indegree.insert edge.toId (targetDegree + 1))
              (pushAt outgoing edge.fromId edge.toId)

/-! ## Kahn's loop -/

/-- The variables of the loop. -/
structure KahnState where
  indegree : Table String ℕ
  queue : List String
  order : List String

/-- `*count -= 1` on an unsigned counter. -/
def decrement (count : ℕ) : ℕ := if count = 0 then 2 ^ 64 - 1 else count - 1

/-- The inner loop over the children of a popped job. -/
def consumeEdges : List String → Table String ℕ → List String → Table String ℕ × List String
  | [], indegree, newlyReady => (indegree, newlyReady)
  | child :: rest, indegree, newlyReady =>
      match indegree.get? child with
      | none => consumeEdges rest indegree newlyReady
      | some count =>
          consumeEdges rest (indegree.insert child (decrement count))
            (if decrement count = 0 then newlyReady ++ [child] else newlyReady)

/-- `sort_unstable` on identifiers. -/
def sortIds (ids : List String) : List String := ids.insertionSort (· ≤ ·)

/-- One iteration of the loop: the front of the queue is popped and its edges
are consumed.  There is none when the queue is empty. -/
def KahnState.popFront (outgoing : Table String (List String)) (state : KahnState) :
    Option KahnState :=
  match state.queue with
  | [] => none
  | id :: rest =>
      let (indegree, newlyReady) := consumeEdges (listAt outgoing id) state.indegree []
      some ⟨indegree, rest ++ sortIds newlyReady, state.order ++ [id]⟩

/-- At most `fuel` iterations of the loop. -/
def kahnLoop (outgoing : Table String (List String)) : ℕ → KahnState → KahnState
  | 0, state => state
  | fuel + 1, state =>
      match state.popFront outgoing with
      | none => state
      | some next => kahnLoop outgoing fuel next

/-- The identifiers whose in-degree is zero, in iteration order. -/
def zeroIds (indegree : Table String ℕ) : List String :=
  indegree.entries.filterMap fun entry => if entry.2 = 0 then some entry.1 else none

def initialKahnState (indegree : Table String ℕ) : KahnState :=
  ⟨indegree, sortIds (zeroIds indegree), []⟩

/-- Validates identifiers, payloads, edge endpoints, and acyclicity.  Every job
is popped at most once, so that the loop ends within `jobs.length` iterations. -/
def DagSpec.validate (spec : DagSpec) : Except ValidationError (List String) := do
  validateIdentifier spec.id maxDagIdBytes
  if spec.jobs.isEmpty ∨ maxJobsPerDag < spec.jobs.length then .error .invalidJobCount
  else if maxDependenciesPerDag < spec.dependencies.length then .error .invalidDependencyCount
  else
    let checked ← checkJobs spec.jobs .empty
    let (indegree, outgoing) ← linkEdges spec.dependencies checked .empty
    let final := kahnLoop outgoing spec.jobs.length (initialKahnState indegree)
    if final.order.length ≠ spec.jobs.length then .error .cycle else .ok final.order

/-- The example of the source: a stable order of a two-parent join. -/
example :
    (DagSpec.mk "release"
      [⟨"c", .uppercase, "safe", 3, 0⟩, ⟨"b", .uppercase, "safe", 3, 0⟩,
        ⟨"a", .uppercase, "safe", 3, 0⟩]
      [⟨"a", "c"⟩, ⟨"b", "c"⟩]).validate = .ok ["a", "b", "c"] := by
  decide

end JobOrchestrator
