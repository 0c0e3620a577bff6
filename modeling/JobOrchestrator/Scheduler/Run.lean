import JobOrchestrator.Scheduler.Basic

/-!
# Runs of the reference scheduler

An operation with its arguments, the event that a call leaves behind (the
arguments together with the result), and the runs from `Scheduler.new`.  The
history of a run lists its events with the latest first.  What the history says
about the present is computed from it by recursion: the specs admitted so far
(`admittedSpec`) and, in `Scheduler/LeaseHistory.lean`, the current leases.
-/

namespace JobOrchestrator

/-- The public operations of the scheduler that change its state. -/
inductive Operation
  | submit (spec : DagSpec) (nowMs : ℤ)
  | claim (owner : String) (nowMs leaseMs : ℤ)
  | heartbeat (dagId jobId owner token : String) (nowMs leaseMs : ℤ)
  | complete (dagId jobId owner token result : String) (nowMs : ℤ)
  | fail (dagId jobId owner token : String) (nowMs : ℤ)
  | reap (nowMs : ℤ)
  | cancel (dagId : String)

/-- A call with its result. -/
inductive Event
  | submit (spec : DagSpec) (nowMs : ℤ) (result : Except SchedulerError Unit)
  | claim (owner : String) (nowMs leaseMs : ℤ)
      (result : Except SchedulerError (Option ClaimedJob))
  | heartbeat (dagId jobId owner token : String) (nowMs leaseMs : ℤ)
      (result : Except SchedulerError ℤ)
  | complete (dagId jobId owner token output : String) (nowMs : ℤ)
      (result : Except SchedulerError Unit)
  | fail (dagId jobId owner token : String) (nowMs : ℤ)
      (result : Except SchedulerError JobState)
  | reap (nowMs : ℤ) (result : ℕ)
  | cancel (dagId : String) (result : Except SchedulerError ℕ)

/-- Calls the operation. -/
def Operation.perform (scheduler : Scheduler) : Operation → Event × Scheduler
  | .submit spec nowMs =>
      let called := scheduler.submit spec nowMs
      (.submit spec nowMs called.1, called.2)
  | .claim owner nowMs leaseMs =>
      let called := scheduler.claim owner nowMs leaseMs
      (.claim owner nowMs leaseMs called.1, called.2)
  | .heartbeat dagId jobId owner token nowMs leaseMs =>
      let called := scheduler.heartbeat dagId jobId owner token nowMs leaseMs
      (.heartbeat dagId jobId owner token nowMs leaseMs called.1, called.2)
  | .complete dagId jobId owner token result nowMs =>
      let called := scheduler.complete dagId jobId owner token result nowMs
      (.complete dagId jobId owner token result nowMs called.1, called.2)
  | .fail dagId jobId owner token nowMs =>
      let called := scheduler.fail dagId jobId owner token nowMs
      (.fail dagId jobId owner token nowMs called.1, called.2)
  | .reap nowMs =>
      let called := scheduler.reap nowMs
      (.reap nowMs called.1, called.2)
  | .cancel dagId =>
      let called := scheduler.cancel dagId
      (.cancel dagId called.1, called.2)

/-- The runs from a fresh scheduler, with any operations, arguments and clock values. -/
inductive Run (config : SchedulerConfig) : List Event → Scheduler → Prop
  | new : Run config [] (Scheduler.new config)
  | step {history : List Event} {scheduler : Scheduler} (operation : Operation) :
      Run config history scheduler →
      Run config ((operation.perform scheduler).1 :: history) (operation.perform scheduler).2

/-- The spec under which a graph identifier has been admitted. -/
def admittedSpec : List Event → String → Option DagSpec
  | [], _ => none
  | .submit spec _ (.ok ()) :: rest, dagId =>
      if spec.id = dagId then some spec else admittedSpec rest dagId
  | _ :: rest, dagId => admittedSpec rest dagId

theorem admittedSpec_cons_of_not_submit {event : Event} {history : List Event}
    (h : ∀ spec nowMs, event ≠ .submit spec nowMs (.ok ())) :
    admittedSpec (event :: history) = admittedSpec history := by
  funext dagId
  cases event with
  | submit spec nowMs result =>
      cases result with
      | error error => rfl
      | ok => exact absurd rfl (h spec nowMs)
  | _ => rfl

end JobOrchestrator
