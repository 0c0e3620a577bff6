import JobOrchestrator.Scheduler.Invariant

/-!
# How an operation changes one job record

`Event.recordAfter` says what a call makes of a record that was there before, and
`Event.Justified` what must have held for the call to have its result.  Both
are read off the event, so that `perform_dags` and `perform_justified` are the
only places where the operations are taken apart: a fact about single records
follows from them by cases on the event.  `RecordStep` lists the elementary
changes of a record, of which every operation makes a chain (`perform_steps`).
-/

namespace JobOrchestrator

open Scheduler

/-- What a call makes of the record of a job. -/
def Event.recordAfter (before : Scheduler) (dagId jobId : String) (job : JobRecord) :
    Event → JobRecord
  | .claim owner nowMs _ (.ok (some claimed)) =>
      atJob claimed.dagId claimed.jobId (leased owner claimed.leaseToken claimed.leaseExpiresAtMs)
        dagId jobId (reaped before.config nowMs jobId job)
  | .claim _ nowMs _ (.ok none) => reaped before.config nowMs jobId job
  | .heartbeat dagId' jobId' _ _ _ _ (.ok expiresAtMs) =>
      atJob dagId' jobId' (extended expiresAtMs) dagId jobId job
  | .complete dagId' jobId' _ _ output nowMs (.ok ()) =>
      if dagId = dagId' then
        completedRecord nowMs output jobId' (before.dependentsOf dagId' jobId') jobId job
      else job
  | .fail dagId' jobId' _ _ nowMs (.ok _) =>
      atJob dagId' jobId' (retried before.config nowMs jobId') dagId jobId job
  | .reap nowMs _ => reaped before.config nowMs jobId job
  | .cancel dagId' (.ok _) => if dagId = dagId' then cancelled job else job
  | _ => job

/-- What a call has found when it returns its result. -/
def Event.Justified (before : Scheduler) : Event → Prop
  | .claim owner nowMs leaseMs (.ok (some claimed)) =>
      validLease before.config owner leaseMs = true ∧
      claimed.leaseExpiresAtMs = I64.saturatingAdd nowMs leaseMs ∧
      claimed.leaseToken = before.nextToken claimed.dagId claimed.jobId ∧
      ∃ job, (before.reap nowMs).2.Eligible nowMs claimed.dagId claimed.jobId job ∧
        claimed.attempt = U16.saturatingAdd job.attempts 1
  | .claim owner _ leaseMs (.ok none) => validLease before.config owner leaseMs = true
  | .heartbeat dagId jobId owner token nowMs leaseMs (.ok expiresAtMs) =>
      expiresAtMs = I64.saturatingAdd nowMs leaseMs ∧ 0 < leaseMs ∧
      ∃ job, before.job? dagId jobId = some job ∧ job.holdsLease owner token nowMs = true
  | .complete dagId jobId owner token _ nowMs (.ok ()) =>
      ∃ job, before.job? dagId jobId = some job ∧ job.holdsLease owner token nowMs = true
  | .fail dagId jobId owner token nowMs (.ok state) =>
      ∃ job, before.job? dagId jobId = some job ∧ job.holdsLease owner token nowMs = true ∧
        state = (retried before.config nowMs jobId job).state
  | _ => True

namespace Scheduler

theorem job?_reap {scheduler : Scheduler} (nowMs : ℤ) {dagId jobId : String}
    {job : JobRecord} (hjob : scheduler.job? dagId jobId = some job) :
    (scheduler.reap nowMs).2.job? dagId jobId =
      some (reaped scheduler.config nowMs jobId job) := by
  rw [job?_of_dags_eq_mapJobs (dags_reap scheduler nowMs), hjob, Option.map_some]

/-- An operation admits a graph, or rewrites the records as its event says. -/
theorem perform_dags {specs : String → Option DagSpec} {scheduler : Scheduler}
    (h : scheduler.Invariant specs) (operation : Operation) :
    (∃ spec nowMs dag, (operation.perform scheduler).1 = .submit spec nowMs (.ok ()) ∧
      (∃ order, spec.validate = .ok order) ∧
      Admitted spec nowMs scheduler (operation.perform scheduler).2 dag) ∨
    (operation.perform scheduler).2.dags =
      mapJobs (fun dagId jobId job =>
        (operation.perform scheduler).1.recordAfter scheduler dagId jobId job)
        scheduler.dags := by
  have hsame : scheduler.dags = mapJobs (fun _ _ job => job) scheduler.dags := by
    simp [mapJobs]
  cases operation with
  | submit spec nowMs =>
      rcases submit_cases scheduler spec nowMs with
        ⟨order, dag, hvalid, hok, hadmitted⟩ | ⟨error, herror⟩
      · exact .inl ⟨spec, nowMs, dag, by rw [Operation.perform, hok], ⟨order, hvalid⟩, hadmitted⟩
      · right
        simpa only [Operation.perform, herror, Event.recordAfter] using hsame
  | claim owner nowMs leaseMs =>
      right
      rcases claim_cases h.heap h.ownIds owner nowMs leaseMs with
        ⟨_, hclaim⟩ | ⟨_, ready, ⟨_, hclaim, _⟩ | ⟨key, taken, hselects, hclaim, _⟩⟩
      · simpa only [Operation.perform, hclaim, Event.recordAfter] using hsame
      · simp only [Operation.perform, hclaim, Event.recordAfter, dags_withReady]
        exact dags_reap scheduler nowMs
      · simp only [Operation.perform, hclaim, claimed_grant, Event.recordAfter]
        rw [dags_grant hselects.eligible.1, dags_reap, mapJobs_mapJobs]
  | heartbeat dagId jobId owner token nowMs leaseMs =>
      right
      rcases heartbeat_cases scheduler dagId jobId owner token nowMs leaseMs with
        ⟨_, _, _, _, _, hok⟩ | ⟨_, error, herror⟩
      · simp only [Operation.perform, hok, Event.recordAfter]
        exact dags_modifyJob ..
      · simpa only [Operation.perform, herror, Event.recordAfter] using hsame
  | complete dagId jobId owner token result nowMs =>
      right
      rcases complete_cases scheduler dagId jobId owner token result nowMs with
        ⟨_, _, _, _, hrelease⟩ | ⟨_, error, herror⟩
      · obtain ⟨hok, hdags⟩ := dags_complete nowMs result (h.exists_dependent dagId jobId)
        simp only [Operation.perform, hrelease, hok, Event.recordAfter]
        exact hdags
      · simpa only [Operation.perform, herror, Event.recordAfter] using hsame
  | fail dagId jobId owner token nowMs =>
      right
      rcases fail_cases scheduler dagId jobId owner token nowMs with
        ⟨job, hjob, _, hretry⟩ | ⟨_, error, herror⟩
      · have hresult := congrArg Prod.fst (retryOrDeadLetter_of_job? hjob nowMs)
        simp only [Operation.perform, hretry, hresult, Event.recordAfter]
        exact dags_retryOrDeadLetter ⟨job, hjob⟩ nowMs
      · simpa only [Operation.perform, herror, Event.recordAfter] using hsame
  | reap nowMs => exact .inr (dags_reap scheduler nowMs)
  | cancel dagId =>
      right
      rcases cancel_cases scheduler dagId with ⟨_, _, hok, _⟩ | ⟨_, herror⟩
      · simp only [Operation.perform, hok, Event.recordAfter]
        exact dags_cancel hok
      · simpa only [Operation.perform, herror, Event.recordAfter] using hsame

theorem perform_dag {specs : String → Option DagSpec} {scheduler : Scheduler}
    (h : scheduler.Invariant specs) (operation : Operation) {dagId : String} {dag : DagRecord}
    (hdag : scheduler.dags.get? dagId = some dag) :
    (operation.perform scheduler).2.dags.get? dagId =
      some (dag.rewrite fun jobId job =>
        (operation.perform scheduler).1.recordAfter scheduler dagId jobId job) := by
  rcases perform_dags h operation with ⟨spec, nowMs, admitted, hevent, _, hadmitted⟩ | hdags
  · have hne : dagId ≠ spec.id := by
      intro hid
      rw [hid, hadmitted.fresh] at hdag
      cases hdag
    rw [hevent, hadmitted.dags, Table.get?_insert_of_ne _ _ hne, hdag]
    exact congrArg some dag.rewrite_id.symm
  · rw [hdags, mapJobs, Table.get?_mapValues, hdag, Option.map_some]

theorem perform_record {specs : String → Option DagSpec} {scheduler : Scheduler}
    (h : scheduler.Invariant specs) (operation : Operation) {dagId jobId : String}
    {job : JobRecord} (hjob : scheduler.job? dagId jobId = some job) :
    (operation.perform scheduler).2.job? dagId jobId =
      some ((operation.perform scheduler).1.recordAfter scheduler dagId jobId job) := by
  obtain ⟨dag, hdag, hlookup⟩ := job?_eq_some_iff.mp hjob
  refine job?_eq_some_iff.mpr ⟨_, perform_dag h operation hdag, ?_⟩
  rw [DagRecord.get?_rewrite, hlookup, Option.map_some]

theorem perform_origin {specs : String → Option DagSpec} {scheduler : Scheduler}
    (h : scheduler.Invariant specs) (operation : Operation) {dagId jobId : String}
    {after : JobRecord} (hafter : (operation.perform scheduler).2.job? dagId jobId = some after) :
    (∃ before, scheduler.job? dagId jobId = some before ∧
      after = (operation.perform scheduler).1.recordAfter scheduler dagId jobId before) ∨
    scheduler.job? dagId jobId = none ∧ ∃ spec nowMs,
      (operation.perform scheduler).1 = .submit spec nowMs (.ok ()) ∧
        after = spec.initialRecord nowMs after.spec := by
  cases hbefore : scheduler.job? dagId jobId with
  | some before =>
      have hsame := (perform_record h operation hbefore).symm.trans hafter
      exact .inl ⟨before, rfl, (Option.some.inj hsame).symm⟩
  | none =>
      refine .inr ⟨rfl, ?_⟩
      rcases perform_dags h operation with ⟨spec, nowMs, dag, hevent, _, hadmitted⟩ | hdags
      · obtain ⟨dag', hdag', hlookup⟩ := job?_eq_some_iff.mp hafter
        rw [hadmitted.dags, Table.get?_insert] at hdag'
        split at hdag'
        · cases hdag'
          exact ⟨spec, nowMs, hevent, hadmitted.records jobId after hlookup⟩
        · rw [job?_eq_some_iff.mpr ⟨dag', hdag', hlookup⟩] at hbefore
          cases hbefore
      · rw [job?_of_dags_eq_mapJobs hdags, hbefore] at hafter
        cases hafter

/-- Every call has found what its result says. -/
theorem perform_justified {specs : String → Option DagSpec} {scheduler : Scheduler}
    (h : scheduler.Invariant specs) (operation : Operation) :
    (operation.perform scheduler).1.Justified scheduler := by
  cases operation with
  | submit spec nowMs => trivial
  | claim owner nowMs leaseMs =>
      rcases claim_cases h.heap h.ownIds owner nowMs leaseMs with
        ⟨_, hclaim⟩ | ⟨hvalid, ready, ⟨_, hclaim, _⟩ | ⟨key, job, hselects, hclaim, _⟩⟩
      · simp only [Operation.perform, hclaim, Event.Justified]
      · simpa only [Operation.perform, hclaim, Event.Justified] using hvalid
      · simp only [Operation.perform, hclaim, claimed_grant, Event.Justified]
        refine ⟨hvalid, trivial, ?_, job, hselects.eligible, rfl⟩
        rw [nextToken, nextToken, sequence_reap]
  | heartbeat dagId jobId owner token nowMs leaseMs =>
      rcases heartbeat_cases scheduler dagId jobId owner token nowMs leaseMs with
        ⟨job, hjob, hholds, hpos, _, hok⟩ | ⟨_, error, herror⟩
      · simp only [Operation.perform, hok, Event.Justified]
        exact ⟨trivial, hpos, job, hjob, hholds⟩
      · simp only [Operation.perform, herror, Event.Justified]
  | complete dagId jobId owner token result nowMs =>
      rcases complete_cases scheduler dagId jobId owner token result nowMs with
        ⟨job, hjob, hholds, _, hrelease⟩ | ⟨_, error, herror⟩
      · have hok := (dags_complete nowMs result (h.exists_dependent dagId jobId)).1
        simp only [Operation.perform, hrelease, hok, Event.Justified]
        exact ⟨job, hjob, hholds⟩
      · simp only [Operation.perform, herror, Event.Justified]
  | fail dagId jobId owner token nowMs =>
      rcases fail_cases scheduler dagId jobId owner token nowMs with
        ⟨job, hjob, hholds, hretry⟩ | ⟨_, error, herror⟩
      · have hresult := congrArg Prod.fst (retryOrDeadLetter_of_job? hjob nowMs)
        simp only [Operation.perform, hretry, hresult, Event.Justified]
        exact ⟨job, hjob, hholds, rfl⟩
      · simp only [Operation.perform, herror, Event.Justified]
  | reap nowMs => trivial
  | cancel dagId => simp only [Operation.perform, Event.Justified]

/-! ## Elementary changes -/

/-- An elementary change of a job record, with the state it starts from. -/
inductive RecordStep (config : SchedulerConfig) (jobId : String) : JobRecord → JobRecord → Prop
  | released (nowMs : ℤ) (edges : ℕ) (job : JobRecord) :
      RecordStep config jobId job (released nowMs edges job)
  | leased (owner token : String) (expiresAtMs : ℤ) {job : JobRecord} :
      job.isReady = true → RecordStep config jobId job (leased owner token expiresAtMs job)
  | extended (expiresAtMs : ℤ) {job : JobRecord} :
      job.state = .leased → RecordStep config jobId job (extended expiresAtMs job)
  | succeeded (result : String) {job : JobRecord} :
      job.state = .leased → RecordStep config jobId job (succeeded result job)
  | retried (nowMs : ℤ) {job : JobRecord} :
      job.state = .leased → RecordStep config jobId job (retried config nowMs jobId job)
  | cancelled (job : JobRecord) : RecordStep config jobId job (cancelled job)

/-- The chains of elementary changes. -/
def RecordSteps (config : SchedulerConfig) (jobId : String) : JobRecord → JobRecord → Prop :=
  Relation.ReflTransGen (RecordStep config jobId)

theorem recordSteps_reaped (config : SchedulerConfig) (nowMs : ℤ) (jobId : String)
    (job : JobRecord) : RecordSteps config jobId job (reaped config nowMs jobId job) := by
  unfold reaped
  split
  next hexpired => exact .single (.retried nowMs (state_of_leaseExpired hexpired))
  next => exact .refl

theorem recordSteps_atJob {config : SchedulerConfig} {scheduler : Scheduler}
    {dagId jobId : String} {job : JobRecord}
    (hjob : scheduler.job? dagId jobId = some job) {f : JobRecord → JobRecord}
    (hstep : RecordStep config jobId job (f job)) {dagId' jobId' : String}
    {job' : JobRecord} (hjob' : scheduler.job? dagId' jobId' = some job') :
    RecordSteps config jobId' job' (atJob dagId jobId f dagId' jobId' job') := by
  rcases job?_eq_or_ne hjob hjob' with ⟨rfl, rfl, rfl⟩ | hkey
  · rw [atJob_self]
    exact .single hstep
  · rw [atJob_of_ne hkey]
    exact .refl

theorem recordSteps_recordAfter {before : Scheduler} {event : Event}
    (h : event.Justified before) {dagId jobId : String} {job : JobRecord}
    (hjob : before.job? dagId jobId = some job) :
    RecordSteps before.config jobId job (event.recordAfter before dagId jobId job) := by
  unfold Event.recordAfter
  split
  · obtain ⟨_, _, _, taken, heligible, _⟩ := h
    exact (recordSteps_reaped before.config _ jobId job).trans
      (recordSteps_atJob heligible.1 (.leased _ _ _ heligible.2.1)
        (job?_reap _ hjob))
  · exact recordSteps_reaped ..
  · obtain ⟨_, _, holder, hholder, hholds⟩ := h
    exact recordSteps_atJob hholder (.extended _ (state_of_holdsLease hholds)) hjob
  · obtain ⟨holder, hholder, hholds⟩ := h
    split
    next hdag =>
      subst hdag
      unfold completedRecord
      split
      next hsame =>
        subst hsame
        rw [hjob] at hholder
        cases hholder
        exact .tail (.single (.succeeded _ (state_of_holdsLease hholds))) (.released _ _ _)
      next => exact .single (.released _ _ _)
    next => exact .refl
  · obtain ⟨holder, hholder, hholds, _⟩ := h
    exact recordSteps_atJob hholder (.retried _ (state_of_holdsLease hholds)) hjob
  · exact recordSteps_reaped ..
  · split
    · exact .single (.cancelled job)
    · exact .refl
  · exact .refl

/-- Every record survives every operation, changed by elementary changes only. -/
theorem perform_steps {specs : String → Option DagSpec} {scheduler : Scheduler}
    (h : scheduler.Invariant specs) (operation : Operation) {dagId jobId : String}
    {before : JobRecord} (hbefore : scheduler.job? dagId jobId = some before) :
    ∃ after, (operation.perform scheduler).2.job? dagId jobId = some after ∧
      RecordSteps scheduler.config jobId before after :=
  ⟨_, perform_record h operation hbefore,
    recordSteps_recordAfter (perform_justified h operation) hbefore⟩

/-- A job never becomes pending, and becomes ready only from pending. -/
theorem RecordStep.state {config : SchedulerConfig} {jobId : String} {before after : JobRecord}
    (h : RecordStep config jobId before after) :
    (after.state = .pending → before.state = .pending) ∧
      (after.state = .ready → before.state = .ready ∨ before.state = .pending) := by
  cases h with
  | released nowMs edges =>
      rw [state_released]
      split
      next hpending => simp [hpending.2.2]
      next => exact ⟨id, .inl⟩
  | leased owner token expiresAtMs hready => simp [Scheduler.leased]
  | extended expiresAtMs hleased => simp [Scheduler.extended, hleased]
  | succeeded result hleased => simp [Scheduler.succeeded]
  | retried nowMs hleased =>
      unfold Scheduler.retried
      split <;> simp
  | cancelled =>
      unfold Scheduler.cancelled
      split
      · exact ⟨id, .inl⟩
      · simp

theorem RecordSteps.state {config : SchedulerConfig} {jobId : String} {before after : JobRecord}
    (h : RecordSteps config jobId before after) :
    (after.state = .pending → before.state = .pending) ∧
      (after.state = .ready → before.state = .ready ∨ before.state = .pending) := by
  induction h with
  | refl => exact ⟨id, .inl⟩
  | tail _ hstep ih =>
      refine ⟨fun hpending => ih.1 (hstep.state.1 hpending), fun hready => ?_⟩
      rcases hstep.state.2 hready with hready | hpending
      · exact ih.2 hready
      · exact .inr (ih.1 hpending)

theorem Invariant.config_perform {specs : String → Option DagSpec} {scheduler : Scheduler}
    (h : scheduler.Invariant specs) (operation : Operation) :
    (operation.perform scheduler).2.config = scheduler.config := by
  cases operation with
  | claim owner nowMs leaseMs =>
      rcases claim_cases h.heap h.ownIds owner nowMs leaseMs with
        ⟨_, hclaim⟩ | ⟨_, ready, ⟨_, hclaim, _⟩ | ⟨key, job, hselects, hclaim, _⟩⟩ <;>
        simp [Operation.perform, hclaim, withReady]
      rfl
  | submit spec nowMs =>
      rcases submit_cases scheduler spec nowMs with ⟨_, _, _, _, hadmitted⟩ | ⟨_, herror⟩
      · exact hadmitted.config
      · simp [Operation.perform, herror]
  | heartbeat dagId jobId owner token nowMs leaseMs =>
      rcases heartbeat_cases scheduler dagId jobId owner token nowMs leaseMs with
        ⟨_, _, _, _, _, hok⟩ | ⟨_, _, herror⟩
      · simp [Operation.perform, hok]
      · simp [Operation.perform, herror]
  | complete dagId jobId owner token result nowMs =>
      rcases complete_cases scheduler dagId jobId owner token result nowMs with
        ⟨_, _, _, _, hrelease⟩ | ⟨_, _, herror⟩
      · simp [Operation.perform, hrelease, config_releaseDependents]
      · simp [Operation.perform, herror]
  | fail dagId jobId owner token nowMs =>
      rcases fail_cases scheduler dagId jobId owner token nowMs with
        ⟨_, _, _, hretry⟩ | ⟨_, _, herror⟩
      · simp [Operation.perform, hretry]
      · simp [Operation.perform, herror]
  | reap nowMs => exact config_reap scheduler nowMs
  | cancel dagId =>
      rcases cancel_cases scheduler dagId with ⟨_, _, _, hcancel⟩ | ⟨_, herror⟩
      · simp [Operation.perform, hcancel]
      · simp [Operation.perform, herror]

end Scheduler

theorem run_config {config : SchedulerConfig} {history : List Event} {scheduler : Scheduler}
    (hrun : Run config history scheduler) : scheduler.config = config := by
  induction hrun with
  | new => rfl
  | step operation hrun ih => rw [(run_invariant hrun).config_perform, ih]

end JobOrchestrator
