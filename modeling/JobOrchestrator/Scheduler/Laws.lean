import JobOrchestrator.Scheduler.Tokens

/-!
# The lifecycle law

`lifecycle_law`: along any run, and from any state of a run along any further
operations, a job only makes the moves of `JobState.Moves`, a terminal job keeps
its record, no graph and no job disappears, and a cancelled graph is never
touched again.  A claim makes two steps, the reap in front of it and the
selection.

A terminal record could be reached again in one way only, by the release of its
graph's dependents.  What excludes it is the consistency of the graph: a
succeeded or buried job has no open edges left, and a graph with a cancelled job
has no leased one.
-/

namespace JobOrchestrator

open Scheduler

/-- The moves of a job. -/
inductive JobState.Moves : JobState → JobState → Prop
  | release : Moves .pending .ready
  | claim : Moves .ready .leased
  | reclaim : Moves .retryWait .leased
  | succeed : Moves .leased .succeeded
  | retry : Moves .leased .retryWait
  | deadLetter : Moves .leased .deadLettered
  | cancel {state : JobState} : state ≠ .succeeded → state ≠ .deadLettered →
      state ≠ .cancelled → Moves state .cancelled

/-- At most one move. -/
def JobState.Follows (before after : JobState) : Prop := after = before ∨ before.Moves after

/-- The state in which an operation takes its decision: a claim reaps first. -/
def Operation.afterReap (scheduler : Scheduler) : Operation → Scheduler
  | .claim owner nowMs leaseMs =>
      if validLease scheduler.config owner leaseMs then (scheduler.reap nowMs).2 else scheduler
  | _ => scheduler

/-- What the reap in front of an accepted claim makes of a record. -/
def Event.recordReaped (before : Scheduler) (jobId : String) (job : JobRecord) :
    Event → JobRecord
  | .claim _ nowMs _ (.ok _) => reaped before.config nowMs jobId job
  | _ => job

/-- Calls the operations one after the other. -/
def performAll (scheduler : Scheduler) : List Operation → List Event × Scheduler
  | [] => ([], scheduler)
  | operation :: rest =>
      let called := operation.perform scheduler
      let later := performAll called.2 rest
      (called.1 :: later.1, later.2)

/-! ## Moves -/

theorem follows_retried (config : SchedulerConfig) (nowMs : ℤ) (jobId : String) {job : JobRecord}
    (hleased : job.state = .leased) :
    job.state.Follows (retried config nowMs jobId job).state := by
  unfold retried
  rw [hleased]
  split
  · exact .inr .deadLetter
  · exact .inr .retry

theorem follows_reaped (config : SchedulerConfig) (nowMs : ℤ) (jobId : String) (job : JobRecord) :
    job.state.Follows (reaped config nowMs jobId job).state := by
  unfold reaped
  split
  next hexpired => exact follows_retried config nowMs jobId (state_of_leaseExpired hexpired)
  next => exact .inl rfl

theorem follows_released (nowMs : ℤ) (edges : ℕ) (job : JobRecord) :
    job.state.Follows (released nowMs edges job).state := by
  rw [state_released]
  split
  next hpending =>
    rw [hpending.2.2]
    exact .inr .release
  next => exact .inl rfl

theorem follows_cancelled (job : JobRecord) : job.state.Follows (cancelled job).state := by
  unfold cancelled
  split
  next => exact .inl rfl
  next hlive =>
    simp only [JobRecord.isTerminal, Bool.decide_or, Bool.or_eq_true, decide_eq_true_eq,
      not_or] at hlive
    exact .inr (.cancel hlive.1 hlive.2.1 hlive.2.2)

theorem follows_atJob {scheduler : Scheduler} {dagId jobId : String} {stored : JobRecord}
    (hstored : scheduler.job? dagId jobId = some stored) {f : JobRecord → JobRecord}
    (hmove : stored.state.Follows (f stored).state) {dagId' jobId' : String} {job : JobRecord}
    (hjob : scheduler.job? dagId' jobId' = some job) :
    job.state.Follows (atJob dagId jobId f dagId' jobId' job).state := by
  rcases job?_eq_or_ne hstored hjob with ⟨rfl, rfl, rfl⟩ | hkey
  · rwa [atJob_self]
  · rw [atJob_of_ne hkey]
    exact .inl rfl

theorem follows_completedRecord {holder : JobRecord} (hleased : holder.state = .leased)
    (nowMs : ℤ) (result jobId : String) (dependents : List String) {jobId' : String}
    {job : JobRecord} (hsame : jobId' = jobId → job = holder) :
    job.state.Follows (completedRecord nowMs result jobId dependents jobId' job).state := by
  by_cases hself : jobId' = jobId
  · rw [hsame hself, hleased, hself, state_completedRecord_self]
    exact .inr .succeed
  · rw [completedRecord_of_ne _ _ _ _ hself]
    exact follows_released ..

/-- A call makes at most one move of a job after its reap. -/
theorem Event.follows_recordAfter {before : Scheduler} {event : Event}
    (h : event.Justified before) {dagId jobId : String} {job : JobRecord}
    (hjob : before.job? dagId jobId = some job) :
    (event.recordReaped before jobId job).state.Follows
      (event.recordAfter before dagId jobId job).state := by
  unfold Event.recordAfter
  split
  · obtain ⟨_, _, _, taken, heligible, _⟩ := h
    refine follows_atJob heligible.1 ?_ (job?_reap _ hjob)
    have hready := heligible.2.1
    simp only [JobRecord.isReady, Bool.decide_or, Bool.or_eq_true, decide_eq_true_eq] at hready
    rcases hready with hstate | hstate
    · rw [hstate]
      exact .inr .claim
    · rw [hstate]
      exact .inr .reclaim
  · exact .inl rfl
  · obtain ⟨_, _, holder, hholder, _⟩ := h
    exact follows_atJob hholder (.inl rfl) hjob
  · obtain ⟨holder, hholder, hholds⟩ := h
    show job.state.Follows _
    split
    next hdag =>
      subst hdag
      refine follows_completedRecord (state_of_holdsLease hholds) _ _ _ _ fun hsame => ?_
      subst hsame
      exact Option.some_injective _ (hjob.symm.trans hholder)
    next => exact .inl rfl
  · obtain ⟨holder, hholder, hholds, _⟩ := h
    exact follows_atJob hholder (follows_retried _ _ _ (state_of_holdsLease hholds)) hjob
  · exact follows_reaped ..
  · show job.state.Follows _
    split
    · exact follows_cancelled job
    · exact .inl rfl
  next hgranted hempty _ _ _ _ _ =>
    -- only an accepted claim reaps, and its two results have been treated
    unfold Event.recordReaped
    split
    next owner nowMs leaseMs result _ _ _ _ _ =>
      cases result with
      | none => exact absurd rfl (hempty owner nowMs leaseMs)
      | some claimed => exact absurd rfl (hgranted owner nowMs leaseMs claimed)
    next => exact .inl rfl

theorem job?_afterReap {specs : String → Option DagSpec} {scheduler : Scheduler}
    (h : scheduler.Invariant specs) (operation : Operation) {dagId jobId : String}
    {job : JobRecord} (hjob : scheduler.job? dagId jobId = some job) :
    (operation.afterReap scheduler).job? dagId jobId =
      some ((operation.perform scheduler).1.recordReaped scheduler jobId job) := by
  cases operation with
  | claim owner nowMs leaseMs =>
      have hreap := job?_reap nowMs hjob
      rcases claim_cases h.heap h.ownIds owner nowMs leaseMs with
        ⟨hvalid, hclaim⟩ | ⟨hvalid, ready, ⟨_, hclaim, _⟩ | ⟨_, _, _, hclaim, _⟩⟩
      · simpa [Operation.afterReap, hvalid, Operation.perform, hclaim, Event.recordReaped]
      · simpa [Operation.afterReap, hvalid, Operation.perform, hclaim, Event.recordReaped]
      · simpa [Operation.afterReap, hvalid, Operation.perform, hclaim, Event.recordReaped]
  | _ => exact hjob

/-- Every job makes at most one move in the reap of a claim, and at most one in
any other operation or in the rest of the claim. -/
theorem perform_follows {specs : String → Option DagSpec} {scheduler : Scheduler}
    (h : scheduler.Invariant specs) (operation : Operation) {dagId jobId : String}
    {before : JobRecord} (hbefore : scheduler.job? dagId jobId = some before) :
    ∃ middle after, (operation.afterReap scheduler).job? dagId jobId = some middle ∧
      (operation.perform scheduler).2.job? dagId jobId = some after ∧
      before.state.Follows middle.state ∧ middle.state.Follows after.state := by
  refine ⟨_, _, job?_afterReap h operation hbefore, perform_record h operation hbefore, ?_,
    Event.follows_recordAfter (perform_justified h operation) hbefore⟩
  unfold Event.recordReaped
  split
  · exact follows_reaped ..
  · exact .inl rfl

namespace Scheduler

/-! ## Terminal jobs -/

theorem not_leased_of_isTerminal {job : JobRecord} (hterminal : job.isTerminal = true) :
    job.state ≠ .leased := by
  intro hleased
  simp [JobRecord.isTerminal, hleased] at hterminal

theorem not_isReady_of_isTerminal {job : JobRecord} (hterminal : job.isTerminal = true) :
    job.isReady = false := by
  simp only [JobRecord.isTerminal, Bool.decide_or, Bool.or_eq_true, decide_eq_true_eq]
    at hterminal
  rcases hterminal with hstate | hstate | hstate <;> simp [JobRecord.isReady, hstate]

theorem reaped_of_isTerminal (config : SchedulerConfig) (nowMs : ℤ) (jobId : String)
    {job : JobRecord} (hterminal : job.isTerminal = true) :
    reaped config nowMs jobId job = job :=
  if_neg fun hexpired => not_leased_of_isTerminal hterminal (state_of_leaseExpired hexpired)

/-- Rewriting a job that is not terminal leaves the terminal jobs alone. -/
theorem atJob_of_isTerminal {scheduler : Scheduler} {dagId jobId : String} {stored : JobRecord}
    (hstored : scheduler.job? dagId jobId = some stored) (hlive : stored.isTerminal = false)
    (f : JobRecord → JobRecord) {dagId' jobId' : String} {job : JobRecord}
    (hjob : scheduler.job? dagId' jobId' = some job) (hterminal : job.isTerminal = true) :
    atJob dagId jobId f dagId' jobId' job = job := by
  refine atJob_of_ne (fun hkey => ?_) f job
  obtain ⟨rfl, rfl⟩ := hkey
  rw [hstored] at hjob
  cases hjob
  rw [hlive] at hterminal
  cases hterminal

theorem not_isTerminal_of_holdsLease {job : JobRecord} {owner token : String} {nowMs : ℤ}
    (hholds : job.holdsLease owner token nowMs = true) : job.isTerminal = false := by
  simp [JobRecord.isTerminal, state_of_holdsLease hholds]

/-- A release takes nothing from a terminal job of a graph that still has a leased one. -/
theorem Invariant.released_of_isTerminal {specs : String → Option DagSpec}
    {scheduler : Scheduler} (h : scheduler.Invariant specs) {dagId jobId jobId' : String}
    {holder job : JobRecord} (hholder : scheduler.job? dagId jobId' = some holder)
    (hleased : holder.state = .leased) (hjob : scheduler.job? dagId jobId = some job)
    (hterminal : job.isTerminal = true) (nowMs : ℤ) (edges : ℕ) :
    released nowMs edges job = job := by
  obtain ⟨dag, _, hdag, hlookup, _, _, _, hconsistent⟩ := h.exists_dag hjob
  have hlookup' := get?_jobs_of_job? hdag hholder
  have hnotCancelled : job.state ≠ .cancelled := by
    intro hcancelled
    have := hconsistent.cancelled_whole jobId job hlookup hcancelled jobId' holder hlookup'
    exact not_leased_of_isTerminal this hleased
  have hnotPending : job.state ≠ .pending := by
    intro hpending
    simp [JobRecord.isTerminal, hpending] at hterminal
  have hzero := hconsistent.remaining_eq_zero hlookup hnotPending hnotCancelled
  unfold released
  simp only [hnotPending, and_false, if_false, hzero, Nat.zero_sub]
  split
  · rfl
  · rw [← hzero]

theorem Invariant.recordAfter_of_isTerminal {specs : String → Option DagSpec}
    {scheduler : Scheduler} (h : scheduler.Invariant specs) {event : Event}
    (hjustified : event.Justified scheduler) {dagId jobId : String} {job : JobRecord}
    (hjob : scheduler.job? dagId jobId = some job) (hterminal : job.isTerminal = true) :
    event.recordAfter scheduler dagId jobId job = job := by
  have hreaped := fun nowMs => reaped_of_isTerminal scheduler.config nowMs jobId hterminal
  unfold Event.recordAfter
  split
  next _ nowMs _ _ =>
    obtain ⟨_, _, _, taken, heligible, _⟩ := hjustified
    have hlive : taken.isTerminal = false := by
      by_contra hbad
      have := not_isReady_of_isTerminal (eq_true_of_ne_false hbad)
      rw [heligible.2.1] at this
      cases this
    rw [hreaped]
    refine atJob_of_isTerminal heligible.1 hlive _ ?_ hterminal
    rw [job?_reap nowMs hjob, hreaped]
  next => exact hreaped _
  next =>
    obtain ⟨_, _, holder, hholder, hholds⟩ := hjustified
    exact atJob_of_isTerminal hholder (not_isTerminal_of_holdsLease hholds) _ hjob hterminal
  next =>
    obtain ⟨holder, hholder, hholds⟩ := hjustified
    split
    next hdag =>
      subst hdag
      have hleased := state_of_holdsLease hholds
      rw [completedRecord_of_ne]
      · exact h.released_of_isTerminal hholder hleased hjob hterminal _ _
      · intro hsame
        subst hsame
        rw [hholder] at hjob
        cases hjob
        exact not_leased_of_isTerminal hterminal hleased
    next => rfl
  next =>
    obtain ⟨holder, hholder, hholds, _⟩ := hjustified
    exact atJob_of_isTerminal hholder (not_isTerminal_of_holdsLease hholds) _ hjob hterminal
  next => exact hreaped _
  next =>
    split
    · exact if_pos hterminal
    · rfl
  next => rfl

theorem Invariant.perform_of_isTerminal {specs : String → Option DagSpec}
    {scheduler : Scheduler} (h : scheduler.Invariant specs) (operation : Operation)
    {dagId jobId : String} {job : JobRecord} (hjob : scheduler.job? dagId jobId = some job)
    (hterminal : job.isTerminal = true) :
    (operation.perform scheduler).2.job? dagId jobId = some job := by
  rw [perform_record h operation hjob,
    h.recordAfter_of_isTerminal (perform_justified h operation) hjob hterminal]

theorem performAll_of_isTerminal {config : SchedulerConfig} (operations : List Operation)
    {history : List Event} {scheduler : Scheduler} (hrun : Run config history scheduler)
    {dagId jobId : String} {job : JobRecord} (hjob : scheduler.job? dagId jobId = some job)
    (hterminal : job.isTerminal = true) :
    (performAll scheduler operations).2.job? dagId jobId = some job := by
  induction operations generalizing history scheduler with
  | nil => exact hjob
  | cons operation rest ih =>
      exact ih (hrun.step operation)
        ((run_invariant hrun).perform_of_isTerminal operation hjob hterminal)

theorem performAll_keys {config : SchedulerConfig} (operations : List Operation)
    {history : List Event} {scheduler : Scheduler} (hrun : Run config history scheduler)
    {dagId : String} {dag : DagRecord} (hdag : scheduler.dags.get? dagId = some dag) :
    ∃ later, (performAll scheduler operations).2.dags.get? dagId = some later ∧
      later.jobs.keys = dag.jobs.keys := by
  induction operations generalizing history scheduler dag with
  | nil => exact ⟨dag, hdag, rfl⟩
  | cons operation rest ih =>
      have hstep := perform_dag (run_invariant hrun) operation hdag
      obtain ⟨later, hlater, hkeys⟩ := ih (hrun.step operation) hstep
      refine ⟨later, hlater, ?_⟩
      calc later.jobs.keys = _ := hkeys
        _ = dag.jobs.keys := Table.keys_mapValues ..

/-! ## Cancelled graphs -/

/-- The graph exists and its jobs are all terminal. -/
def Closed (scheduler : Scheduler) (dagId : String) : Prop :=
  ∃ dag, scheduler.dags.get? dagId = some dag ∧
    ∀ jobId job, dag.jobs.get? jobId = some job → job.isTerminal = true

theorem closed_cancel {scheduler : Scheduler} {dagId : String} {count : ℕ}
    (hcancel : (scheduler.cancel dagId).1 = .ok count) :
    Closed (scheduler.cancel dagId).2 dagId := by
  rcases cancel_cases scheduler dagId with ⟨dag, hdag, _, _⟩ | ⟨_, herror⟩
  · refine ⟨dag.rewrite fun _ job => if dagId = dagId then cancelled job else job, ?_,
      fun jobId job hjob => ?_⟩
    · rw [dags_cancel hcancel, mapJobs, Table.get?_mapValues, hdag, Option.map_some]
    rw [DagRecord.get?_rewrite, Option.map_eq_some_iff] at hjob
    obtain ⟨old, _, rfl⟩ := hjob
    rw [if_pos rfl]
    exact isTerminal_cancelled old
  · rw [herror] at hcancel
    cases hcancel

/-- An operation leaves a closed graph closed and as it is, and does not claim from it. -/
theorem Closed.perform {specs : String → Option DagSpec} {scheduler : Scheduler} {dagId : String}
    (hclosed : Closed scheduler dagId) (h : scheduler.Invariant specs) (operation : Operation) :
    (operation.perform scheduler).2.dags.get? dagId = scheduler.dags.get? dagId ∧
      ∀ owner nowMs leaseMs claimed, (operation.perform scheduler).1 =
        .claim owner nowMs leaseMs (.ok (some claimed)) → claimed.dagId ≠ dagId := by
  obtain ⟨dag, hdag, hterminal⟩ := hclosed
  have hjustified := perform_justified h operation
  have hsame : ∀ jobId job, dag.jobs.get? jobId = some job →
      (operation.perform scheduler).1.recordAfter scheduler dagId jobId job = job :=
    fun jobId job hjob => h.recordAfter_of_isTerminal hjustified
      (job?_eq_some_iff.mpr ⟨dag, hdag, hjob⟩) (hterminal jobId job hjob)
  refine ⟨?_, fun owner nowMs leaseMs claimed hevent hclaimed => ?_⟩
  · rw [perform_dag h operation hdag, hdag, Option.some.injEq, DagRecord.rewrite,
      Table.mapValues_congr hsame, Table.mapValues_id]
  · -- the claimed job would be ready in the state after the reap, but reaping changed nothing
    rw [hevent] at hjustified
    obtain ⟨_, _, _, taken, ⟨htaken, hready, _⟩, _⟩ := hjustified
    subst hclaimed
    rw [job?_of_dags_eq_mapJobs (dags_reap scheduler nowMs), Option.map_eq_some_iff] at htaken
    obtain ⟨old, hold, rfl⟩ := htaken
    have hold := hterminal _ old (get?_jobs_of_job? hdag hold)
    rw [reaped_of_isTerminal _ _ _ hold, not_isReady_of_isTerminal hold] at hready
    cases hready

theorem Closed.performAll_eq {config : SchedulerConfig} (operations : List Operation)
    {history : List Event} {scheduler : Scheduler} {dagId : String}
    (hclosed : Closed scheduler dagId) (hrun : Run config history scheduler) :
    (performAll scheduler operations).2.dags.get? dagId = scheduler.dags.get? dagId ∧
      ∀ owner nowMs leaseMs claimed,
        Event.claim owner nowMs leaseMs (.ok (some claimed)) ∈
          (performAll scheduler operations).1 → claimed.dagId ≠ dagId := by
  induction operations generalizing history scheduler with
  | nil => exact ⟨rfl, fun _ _ _ _ hmem => nomatch hmem⟩
  | cons operation rest ih =>
      obtain ⟨hsame, hnot⟩ := hclosed.perform (run_invariant hrun) operation
      have hstill : Closed (operation.perform scheduler).2 dagId := by
        unfold Closed
        rwa [hsame]
      obtain ⟨hlater, hclaims⟩ := ih hstill (hrun.step operation)
      refine ⟨hlater.trans hsame, fun owner nowMs leaseMs claimed hmem => ?_⟩
      rcases List.mem_cons.mp hmem with hnow | hlater
      · exact hnot owner nowMs leaseMs claimed hnow.symm
      · exact hclaims owner nowMs leaseMs claimed hlater

theorem Closed.cancel {scheduler : Scheduler} {dagId : String} (hclosed : Closed scheduler dagId) :
    (scheduler.cancel dagId).1 = .ok 0 := by
  obtain ⟨dag, hdag, hterminal⟩ := hclosed
  rcases cancel_cases scheduler dagId with ⟨dag', hdag', hok, _⟩ | ⟨hnone, _⟩
  · rw [hdag] at hdag'
    cases hdag'
    have hcount : (dag.jobs.countValues fun _ job => !job.isTerminal) =
        ([] : List String).length := by
      refine Table.countValues_eq_length List.nodup_nil fun jobId => ?_
      simp only [List.not_mem_nil, false_iff, not_exists, not_and]
      intro job hjob
      simp [hterminal jobId job hjob]
    rw [hok, hcount]
    rfl
  · rw [hdag] at hnone
    cases hnone

end Scheduler

/-! ## The law -/

/-- In every reachable state: every operation makes only the moves of the
lifecycle; a terminal job keeps its record, and every graph and job stays, along
any further operations; after an accepted cancellation nothing in the graph
changes, nothing of it is claimed, and cancelling it again finds no job. -/
theorem lifecycle_law {config : SchedulerConfig} {history : List Event} {scheduler : Scheduler}
    (hrun : Run config history scheduler) :
    (∀ (operation : Operation) dagId jobId before, scheduler.job? dagId jobId = some before →
      ∃ middle after, (operation.afterReap scheduler).job? dagId jobId = some middle ∧
        (operation.perform scheduler).2.job? dagId jobId = some after ∧
        before.state.Follows middle.state ∧ middle.state.Follows after.state) ∧
    (∀ operations dagId jobId job, scheduler.job? dagId jobId = some job →
      job.isTerminal = true →
      (performAll scheduler operations).2.job? dagId jobId = some job) ∧
    (∀ operations dagId dag, scheduler.dags.get? dagId = some dag →
      ∃ later, (performAll scheduler operations).2.dags.get? dagId = some later ∧
        later.jobs.keys = dag.jobs.keys) ∧
    ∀ operations dagId count, (scheduler.cancel dagId).1 = .ok count →
      let cancelled := (scheduler.cancel dagId).2
      let later := performAll cancelled operations
      later.2.dags.get? dagId = cancelled.dags.get? dagId ∧
      (∀ owner nowMs leaseMs claimed,
        Event.claim owner nowMs leaseMs (.ok (some claimed)) ∈ later.1 →
          claimed.dagId ≠ dagId) ∧
      (later.2.cancel dagId).1 = .ok 0 := by
  refine ⟨fun operation dagId jobId before hbefore =>
      perform_follows (run_invariant hrun) operation hbefore,
    fun operations dagId jobId job hjob hterminal =>
      performAll_of_isTerminal operations hrun hjob hterminal,
    fun operations dagId dag hdag => performAll_keys operations hrun hdag, ?_⟩
  intro operations dagId count hcancel cancelled later
  have hclosed : Closed cancelled dagId := closed_cancel hcancel
  have hcancelled : Run config _ cancelled := hrun.step (.cancel dagId)
  obtain ⟨hsame, hclaims⟩ := hclosed.performAll_eq operations hcancelled
  refine ⟨hsame, hclaims, Closed.cancel ?_⟩
  unfold Closed
  rwa [hsame]

/-- The graph of a leased job is cancelled: the job is counted once, and whatever
is called later, it stays cancelled and is not handed out again. -/
theorem lifecycle_law_reclaimed :
    (reclaimedRun.2.cancel "d").1 = .ok 1 ∧
    ∀ operations, let later := performAll (reclaimedRun.2.cancel "d").2 operations
      (later.2.job? "d" "j").map JobRecord.state = some .cancelled ∧
      (later.2.cancel "d").1 = .ok 0 := by
  have hcancel : (reclaimedRun.2.cancel "d").1 = .ok 1 := by decide
  refine ⟨hcancel, fun operations => ?_⟩
  obtain ⟨hsame, _, hagain⟩ :=
    (lifecycle_law run_reclaimedRun).2.2.2 operations "d" 1 hcancel
  have hstate : ((reclaimedRun.2.cancel "d").2.job? "d" "j").map JobRecord.state =
      some .cancelled := by decide
  refine ⟨?_, hagain⟩
  rw [← hstate]
  unfold Scheduler.job?
  rw [hsame]

/-! ## Failed calls -/

/-- The call has returned an error. -/
def Event.Failed : Event → Prop
  | .submit _ _ (.error _) => True
  | .claim _ _ _ (.error _) => True
  | .heartbeat _ _ _ _ _ _ (.error _) => True
  | .complete _ _ _ _ _ _ (.error _) => True
  | .fail _ _ _ _ _ (.error _) => True
  | .cancel _ (.error _) => True
  | _ => False

/-- A failed call leaves the whole state as it was. -/
theorem Scheduler.Invariant.perform_of_failed {specs : String → Option DagSpec}
    {scheduler : Scheduler} (h : scheduler.Invariant specs) (operation : Operation)
    (hfailed : (operation.perform scheduler).1.Failed) :
    (operation.perform scheduler).2 = scheduler := by
  cases operation with
  | submit spec nowMs =>
      rcases submit_cases scheduler spec nowMs with ⟨_, _, _, hok, _⟩ | ⟨error, herror⟩
      · simp only [Operation.perform, hok, Event.Failed] at hfailed
      · simp only [Operation.perform, herror]
  | claim owner nowMs leaseMs =>
      rcases claim_cases h.heap h.ownIds owner nowMs leaseMs with
        ⟨_, hclaim⟩ | ⟨_, _, ⟨_, hclaim, _⟩ | ⟨_, _, _, hclaim, _⟩⟩
      · simp only [Operation.perform, hclaim]
      · simp only [Operation.perform, hclaim, Event.Failed] at hfailed
      · simp only [Operation.perform, hclaim, Event.Failed] at hfailed
  | heartbeat dagId jobId owner token nowMs leaseMs =>
      rcases heartbeat_cases scheduler dagId jobId owner token nowMs leaseMs with
        ⟨_, _, _, _, _, hok⟩ | ⟨_, error, herror⟩
      · simp only [Operation.perform, hok, Event.Failed] at hfailed
      · simp only [Operation.perform, herror]
  | complete dagId jobId owner token result nowMs =>
      rcases complete_cases scheduler dagId jobId owner token result nowMs with
        ⟨_, _, _, _, hrelease⟩ | ⟨_, error, herror⟩
      · have hok := (dags_complete nowMs result (h.exists_dependent dagId jobId)).1
        simp only [Operation.perform, hrelease, hok, Event.Failed] at hfailed
      · simp only [Operation.perform, herror]
  | fail dagId jobId owner token nowMs =>
      rcases fail_cases scheduler dagId jobId owner token nowMs with
        ⟨_, hjob, _, hretry⟩ | ⟨_, error, herror⟩
      · have hok := congrArg Prod.fst (retryOrDeadLetter_of_job? hjob nowMs)
        simp only [Operation.perform, hretry, hok, Event.Failed] at hfailed
      · simp only [Operation.perform, herror]
  | reap nowMs => exact hfailed.elim
  | cancel dagId =>
      rcases cancel_cases scheduler dagId with ⟨_, _, hok, _⟩ | ⟨_, herror⟩
      · simp only [Operation.perform, hok, Event.Failed] at hfailed
      · simp only [Operation.perform, herror]

theorem Scheduler.exists_job?_retryAll {scheduler : Scheduler} {nowMs : ℤ}
    {earlier rest : List (String × String)} {dagId jobId : String}
    (hexpired : scheduler.expiredLeases nowMs = earlier ++ (dagId, jobId) :: rest) :
    ∃ job, (retryAll nowMs earlier scheduler).job? dagId jobId = some job := by
  have hjob : ∀ key ∈ scheduler.expiredLeases nowMs,
      ∃ job, scheduler.job? key.1 key.2 = some job := fun key hkey => by
    obtain ⟨job, hjob, _⟩ := mem_expiredLeases.mp hkey
    exact ⟨job, hjob⟩
  have hnodup := nodup_expiredLeases scheduler nowMs
  rw [hexpired] at hnodup hjob
  refine exists_job?_of_dags_eq_mapJobs (dags_retryAll nowMs (List.nodup_append.mp hnodup).1
    fun key hkey => hjob key (List.mem_append_left _ hkey)) ?_
  exact hjob (dagId, jobId) (List.mem_append_right _ List.mem_cons_self)

/-- In every reachable state a call that fails changes nothing; a completion that
passes its check does not fail in its loop, and no retry fails, neither that of a
failure report that passes its check nor any of a reap. -/
theorem failed_calls_change_nothing {config : SchedulerConfig} {history : List Event}
    {scheduler : Scheduler} (hrun : Run config history scheduler) :
    (∀ operation : Operation, (operation.perform scheduler).1.Failed →
      (operation.perform scheduler).2 = scheduler) ∧
    (∀ dagId jobId owner token (result : String) nowMs,
      result.utf8ByteSize ≤ maxPayloadBytes →
      scheduler.assertLease dagId jobId owner token nowMs = .ok () →
      (scheduler.complete dagId jobId owner token result nowMs).1 = .ok ()) ∧
    (∀ dagId jobId owner token nowMs,
      scheduler.assertLease dagId jobId owner token nowMs = .ok () →
      ∃ state, (scheduler.retryOrDeadLetter dagId jobId nowMs).1 = .ok state) ∧
    ∀ nowMs earlier dagId jobId rest,
      scheduler.expiredLeases nowMs = earlier ++ (dagId, jobId) :: rest →
      ∃ state, ((retryAll nowMs earlier scheduler).retryOrDeadLetter dagId jobId nowMs).1 =
        .ok state := by
  have h := run_invariant hrun
  refine ⟨fun operation hfailed => h.perform_of_failed operation hfailed, ?_, ?_, ?_⟩
  · intro dagId jobId owner token result nowMs hsize hassert
    obtain ⟨job, hjob, hholds⟩ := assertLease_eq_ok_iff.mp hassert
    rcases complete_cases scheduler dagId jobId owner token result nowMs with
      ⟨_, _, _, _, hrelease⟩ | ⟨hnot, _, _⟩
    · rw [hrelease]
      exact (dags_complete nowMs result (h.exists_dependent dagId jobId)).1
    · exact absurd hsize (hnot job hjob hholds)
  · intro dagId jobId owner token nowMs hassert
    obtain ⟨job, hjob, _⟩ := assertLease_eq_ok_iff.mp hassert
    exact ⟨_, congrArg Prod.fst (retryOrDeadLetter_of_job? hjob nowMs)⟩
  · intro nowMs earlier dagId jobId rest hexpired
    obtain ⟨job, hjob⟩ := exists_job?_retryAll hexpired
    exact ⟨_, congrArg Prod.fst (retryOrDeadLetter_of_job? hjob nowMs)⟩

/-- The first worker of the example comes late: its report changes nothing. -/
theorem failed_calls_change_nothing_late :
    (reclaimedRun.2.complete "d" "j" "slow" "lease-d-j-1" "done" 5500).1 =
        .error .leaseConflict ∧
      (reclaimedRun.2.complete "d" "j" "slow" "lease-d-j-1" "done" 5500).2 = reclaimedRun.2 ∧
      (reclaimedRun.2.complete "d" "j" "fast" "lease-d-j-2" "done" 5500).1 = .ok () := by
  have hlate : (reclaimedRun.2.complete "d" "j" "slow" "lease-d-j-1" "done" 5500).1 =
      .error .leaseConflict := by decide
  have hsafe := failed_calls_change_nothing run_reclaimedRun
  refine ⟨hlate, ?_, hsafe.2.1 "d" "j" "fast" "lease-d-j-2" "done" 5500 (by decide) (by decide)⟩
  refine hsafe.1 (.complete "d" "j" "slow" "lease-d-j-1" "done" 5500) ?_
  simp only [Operation.perform, hlate, Event.Failed]

end JobOrchestrator
