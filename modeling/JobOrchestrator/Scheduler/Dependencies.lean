import JobOrchestrator.Scheduler.Lifecycle

/-!
# Dependency accounting and progress

`dependency_accounting` restates the graph part of the invariant in terms of the
submitted spec and the current states: a counter is the number of edges whose
source has not succeeded, and a job is pending exactly while it is positive.
`pending_has_active_ancestor` follows the edges backwards from a pending job:
since the graph is acyclic, they end at a job that still has to move, or at a
dead letter.
-/

namespace JobOrchestrator

open Digraph

namespace Scheduler

/-- The job has succeeded. -/
def hasSucceeded (scheduler : Scheduler) (dagId jobId : String) : Bool :=
  match scheduler.job? dagId jobId with
  | none => false
  | some job => job.state = .succeeded

/-- The number of edges of a spec, repeated edges counted, that enter a job and
whose source has not succeeded. -/
def openDependencies (scheduler : Scheduler) (spec : DagSpec) (jobId : String) : ℕ :=
  spec.dependencies.countP fun edge =>
    edge.toId == jobId && !scheduler.hasSucceeded spec.id edge.fromId

/-- All sources of the edges into a job have succeeded. -/
def ParentsSucceeded (scheduler : Scheduler) (spec : DagSpec) (jobId : String) : Prop :=
  ∀ edge ∈ spec.dependencies, edge.toId = jobId →
    scheduler.hasSucceeded spec.id edge.fromId = true

theorem not_hasSucceeded {scheduler : Scheduler} {dagId : String} {dag : DagRecord}
    (hdag : scheduler.dags.get? dagId = some dag) (jobId : String) :
    (!scheduler.hasSucceeded dagId jobId) = dag.isOpen jobId := by
  unfold hasSucceeded job? DagRecord.isOpen
  rw [hdag, Option.bind_some]
  cases dag.jobs.get? jobId with
  | none => rfl
  | some job => simp

theorem openDependencies_eq {scheduler : Scheduler} {spec : DagSpec} {dag : DagRecord}
    (hdag : scheduler.dags.get? spec.id = some dag) (jobId : String) :
    scheduler.openDependencies spec jobId = openInDegree spec.edges dag.isOpen jobId := by
  unfold openDependencies openInDegree DagSpec.edges
  rw [List.countP_map]
  refine List.countP_congr fun edge _ => ?_
  simp only [Function.comp_apply, not_hasSucceeded hdag]

theorem openDependencies_eq_zero_iff {scheduler : Scheduler} {spec : DagSpec} {jobId : String} :
    scheduler.openDependencies spec jobId = 0 ↔ scheduler.ParentsSucceeded spec jobId := by
  unfold openDependencies ParentsSucceeded
  rw [List.countP_eq_zero]
  refine forall₂_congr fun edge _ => ?_
  by_cases htarget : edge.toId = jobId <;> simp [htarget]

variable {specs : String → Option DagSpec} {scheduler : Scheduler}

theorem Invariant.accounted (h : scheduler.Invariant specs) {dagId : String} {spec : DagSpec}
    (hspec : specs dagId = some spec) {jobId : String} {job : JobRecord}
    (hjob : scheduler.job? dagId jobId = some job) :
    job.remainingDependencies = scheduler.openDependencies spec jobId ∧
      (job.state ≠ .cancelled → (job.state = .pending ↔ 0 < job.remainingDependencies)) := by
  obtain ⟨dag, spec', hdag, hlookup, hspec', hid, _, hconsistent⟩ := h.exists_dag hjob
  rw [hspec] at hspec'
  cases hspec'
  subst hid
  refine ⟨?_, hconsistent.pending_iff jobId job hlookup⟩
  rw [openDependencies_eq hdag]
  exact hconsistent.remaining jobId job hlookup

theorem Invariant.parentsSucceeded (h : scheduler.Invariant specs) {dagId : String}
    {spec : DagSpec} (hspec : specs dagId = some spec) {jobId : String} {job : JobRecord}
    (hjob : scheduler.job? dagId jobId = some job) (hpending : job.state ≠ .pending)
    (hcancelled : job.state ≠ .cancelled) : scheduler.ParentsSucceeded spec jobId := by
  obtain ⟨hremaining, hiff⟩ := h.accounted hspec hjob
  rw [← openDependencies_eq_zero_iff, ← hremaining]
  have := (hiff hcancelled).not.mp hpending
  omega

theorem hasSucceeded_reap (scheduler : Scheduler) (nowMs : ℤ) (dagId jobId : String) :
    (scheduler.reap nowMs).2.hasSucceeded dagId jobId = scheduler.hasSucceeded dagId jobId := by
  unfold hasSucceeded
  rw [job?_of_dags_eq_mapJobs (dags_reap scheduler nowMs)]
  cases scheduler.job? dagId jobId with
  | none => rfl
  | some job =>
      simp only [Option.map_some]
      unfold reaped
      split
      next hexpired =>
        have hquiet := quiet_retried scheduler.config nowMs jobId (state_of_leaseExpired hexpired)
        simp [hquiet.1.succeeded]
      next => rfl

theorem Invariant.selects_of_claim (h : scheduler.Invariant specs) {owner : String}
    {nowMs leaseMs : ℤ} {claimed : ClaimedJob}
    (hclaim : (scheduler.claim owner nowMs leaseMs).1 = .ok (some claimed)) :
    ∃ key job, (scheduler.reap nowMs).2.Selects nowMs key job ∧ claimed.dagId = key.dagId ∧
      claimed.jobId = key.jobId := by
  rcases claim_cases h.heap h.ownIds owner nowMs leaseMs with
    ⟨_, herror⟩ | ⟨_, ready, ⟨_, hnone, _⟩ | ⟨key, job, hselects, hsome, _⟩⟩
  · simp [herror] at hclaim
  · simp [hnone] at hclaim
  · rw [hsome] at hclaim
    simp only [Except.ok.injEq, Option.some.injEq] at hclaim
    subst hclaim
    exact ⟨key, job, hselects, rfl, rfl⟩

end Scheduler

open Scheduler

/-- What the dependency counters and the pending state mean in a state that has
been reached with a history. -/
structure DependenciesAccounted (history : List Event) (scheduler : Scheduler) : Prop where
  /-- Every job of an admitted spec has a record, which counts its open edges. -/
  counted : ∀ dagId spec, admittedSpec history dagId = some spec → ∀ jobSpec ∈ spec.jobs,
    ∃ job, scheduler.job? dagId jobSpec.id = some job ∧ job.spec = jobSpec ∧
      job.remainingDependencies = scheduler.openDependencies spec jobSpec.id
  pending_iff : ∀ dagId jobId job, scheduler.job? dagId jobId = some job →
    job.state ≠ .cancelled → (job.state = .pending ↔ 0 < job.remainingDependencies)
  /-- A claim returns only jobs whose parents have all succeeded. -/
  claimed : ∀ owner nowMs leaseMs claimed,
    (scheduler.claim owner nowMs leaseMs).1 = .ok (some claimed) →
    ∃ spec, admittedSpec history claimed.dagId = some spec ∧
      scheduler.ParentsSucceeded spec claimed.jobId
  not_early : ∀ dagId spec jobId job, admittedSpec history dagId = some spec →
    scheduler.job? dagId jobId = some job → job.state ≠ .pending → job.state ≠ .cancelled →
    scheduler.ParentsSucceeded spec jobId
  /-- No later operation makes a job pending again, or ready unless it was pending. -/
  not_twice : ∀ operation dagId jobId before after,
    scheduler.job? dagId jobId = some before →
    (Operation.perform scheduler operation).2.job? dagId jobId = some after →
    (after.state = .pending → before.state = .pending) ∧
      (after.state = .ready → before.state = .ready ∨ before.state = .pending)
  not_forgotten : ∀ dagId spec jobId job, admittedSpec history dagId = some spec →
    scheduler.job? dagId jobId = some job → scheduler.ParentsSucceeded spec jobId →
    job.state ≠ .pending

/-- The dependency accounting holds in every reachable state. -/
theorem dependency_accounting {config : SchedulerConfig} {history : List Event}
    {scheduler : Scheduler} (hrun : Run config history scheduler) :
    DependenciesAccounted history scheduler := by
  have h := run_invariant hrun
  refine ⟨fun dagId spec hspec jobSpec hmem => ?_, fun dagId jobId job hjob => ?_,
    fun owner nowMs leaseMs claimed hclaim => ?_, fun dagId spec jobId job hspec hjob => ?_,
    fun operation dagId jobId before after hbefore hafter => ?_,
    fun dagId spec jobId job hspec hjob hparents hpending => ?_⟩
  · obtain ⟨dag, hdag⟩ := h.present dagId spec hspec
    obtain ⟨spec', hspec', _, _, hconsistent⟩ := h.graph dagId dag hdag
    rw [hspec] at hspec'
    cases hspec'
    obtain ⟨job, hlookup, hsame⟩ := hconsistent.exists_record hmem
    have hjob := job?_eq_some_iff.mpr ⟨dag, hdag, hlookup⟩
    exact ⟨job, hjob, hsame, (h.accounted hspec hjob).1⟩
  · obtain ⟨_, spec, _, _, hspec, _, _, _⟩ := h.exists_dag hjob
    exact (h.accounted hspec hjob).2
  · obtain ⟨key, job, hselects, hdagId, hjobId⟩ := h.selects_of_claim hclaim
    have hreap := h.reap nowMs
    obtain ⟨_, spec, _, _, hspec, _, _, _⟩ := hreap.exists_dag hselects.eligible.1
    have hready := hselects.eligible.2.1
    simp only [JobRecord.isReady, Bool.decide_or, Bool.or_eq_true, decide_eq_true_eq] at hready
    have hparents := hreap.parentsSucceeded hspec hselects.eligible.1
      (by rcases hready with hstate | hstate <;> simp [hstate])
      (by rcases hready with hstate | hstate <;> simp [hstate])
    rw [hdagId, hjobId]
    refine ⟨spec, hspec, fun edge hedge htarget => ?_⟩
    rw [← hasSucceeded_reap scheduler nowMs]
    exact hparents edge hedge htarget
  · exact h.parentsSucceeded hspec hjob
  · obtain ⟨changed, hchanged, hsteps⟩ := perform_steps h operation hbefore
    rw [hafter] at hchanged
    cases hchanged
    exact hsteps.state
  · obtain ⟨hremaining, hiff⟩ := h.accounted hspec hjob
    rw [openDependencies_eq_zero_iff.mpr hparents] at hremaining
    have := (hiff (by simp [hpending])).mp hpending
    omega

/-- A diamond with a repeated edge. -/
def diamondSpec : DagSpec where
  id := "diamond"
  jobs := [⟨"top", .uppercase, "", 1, 0⟩, ⟨"left", .uppercase, "", 1, 0⟩,
    ⟨"right", .uppercase, "", 1, 0⟩, ⟨"bottom", .uppercase, "", 1, 0⟩]
  dependencies := [⟨"top", "left"⟩, ⟨"top", "right"⟩, ⟨"left", "bottom"⟩, ⟨"right", "bottom"⟩,
    ⟨"left", "bottom"⟩]

/-- The scheduler right after the diamond has been submitted. -/
def diamondScheduler : Scheduler := ((Scheduler.new .default).submit diamondSpec 0).2

theorem run_diamondScheduler :
    Run .default [.submit diamondSpec 0 (.ok ())] diamondScheduler :=
  Run.step (.submit diamondSpec 0) Run.new

/-- The bottom of the diamond waits for all three edges. -/
theorem dependency_accounting_diamond :
    ((diamondScheduler.job? "diamond" "bottom").map fun job =>
      (job.state, job.remainingDependencies)) = some (.pending, 3) ∧
    DependenciesAccounted [.submit diamondSpec 0 (.ok ())] diamondScheduler :=
  ⟨by decide, dependency_accounting run_diamondScheduler⟩

/-! ## Progress -/

/-- A job that will move, or that holds up its descendants as a dead letter. -/
def JobRecord.isActive (job : JobRecord) : Bool :=
  job.state = .ready ∨ job.state = .retryWait ∨ job.state = .leased ∨ job.state = .deadLettered

/-- A pending job is held back by a source that is pending itself or active. -/
theorem DagRecord.Consistent.exists_source {spec : DagSpec} {dag : DagRecord}
    (h : dag.Consistent spec) (htotal : ∀ a b, (a, b) ∈ spec.edges → a ∈ dag.jobs.keys)
    {jobId : String} {job : JobRecord} (hjob : dag.jobs.get? jobId = some job)
    (hpending : job.state = .pending) :
    ∃ source record, (source, jobId) ∈ spec.edges ∧ dag.jobs.get? source = some record ∧
      (record.state = .pending ∨ record.isActive = true) := by
  have hpos := (h.pending_iff jobId job hjob (by simp [hpending])).mp hpending
  rw [h.remaining jobId job hjob, openInDegree_pos_iff] at hpos
  obtain ⟨source, hedge, hopen⟩ := hpos
  obtain ⟨record, hrecord⟩ := Table.mem_keys.mp (htotal source jobId hedge)
  refine ⟨source, record, hedge, hrecord, ?_⟩
  have hsucceeded : record.state ≠ .succeeded := by
    simpa [DagRecord.isOpen, hrecord] using hopen
  -- cancellation would have taken the pending job along
  have hcancelled : record.state ≠ .cancelled := fun hcancelled => by
    have := h.cancelled_whole source record hrecord hcancelled jobId job hjob
    simp [JobRecord.isTerminal, hpending] at this
  unfold JobRecord.isActive
  cases hstate : record.state <;> simp_all

/-- A pending job has an active ancestor: the edges cannot be followed back forever. -/
theorem Scheduler.Invariant.exists_active_ancestor {specs : String → Option DagSpec}
    {scheduler : Scheduler} (h : scheduler.Invariant specs) {dagId jobId : String}
    {job : JobRecord} (hjob : scheduler.job? dagId jobId = some job)
    (hpending : job.state = .pending) :
    ∃ spec, specs dagId = some spec ∧ ∃ ancestorId ancestor,
      Ancestor spec.edges ancestorId jobId ∧ scheduler.job? dagId ancestorId = some ancestor ∧
      ancestor.isActive = true := by
  obtain ⟨dag, spec, hdag, hlookup, hspec, rfl, ⟨order, hvalid⟩, hconsistent⟩ :=
    h.exists_dag hjob
  have accepted := accepted_of_validate hvalid
  have hkeys : ∀ id, id ∈ dag.jobs.keys ↔ id ∈ order := fun id => by
    rw [hconsistent.keys, accepted.order_perm.mem_iff]
  have hsource : ∀ id ∈ order,
      (∃ record, dag.jobs.get? id = some record ∧ record.state = .pending) →
      ∃ source, (source, id) ∈ spec.edges ∧
        ((∃ record, dag.jobs.get? source = some record ∧ record.state = .pending) ∨
          ∃ record, dag.jobs.get? source = some record ∧ record.isActive = true) := by
    rintro id hid ⟨record, hrecord, hstate⟩
    obtain ⟨source, found, hedge, hfound, hcase⟩ := hconsistent.exists_source
      (fun a b hedge => by
        obtain ⟨edge, hmem, hpair⟩ := List.mem_map.mp hedge
        cases hpair
        rw [hconsistent.keys]
        exact (accepted.endpoints edge hmem).2.1) hrecord hstate
    exact ⟨source, hedge, hcase.imp (fun h => ⟨found, hfound, h⟩) fun h => ⟨found, hfound, h⟩⟩
  obtain ⟨ancestorId, hpath, ancestor, hfound, hactive⟩ :=
    accepted.topological.exists_ancestor hsource jobId
      ((hkeys jobId).mp (Table.mem_keys.mpr ⟨job, hlookup⟩)) ⟨job, hlookup, hpending⟩
  exact ⟨spec, hspec, ancestorId, ancestor, hpath,
    job?_eq_some_iff.mpr ⟨dag, hdag, hfound⟩, hactive⟩

/-- Behind every pending job stands an ancestor that is ready, waiting for a
retry, leased or dead-lettered. -/
theorem pending_has_active_ancestor {config : SchedulerConfig} {history : List Event}
    {scheduler : Scheduler} (hrun : Run config history scheduler) :
    (∀ dagId jobId job, scheduler.job? dagId jobId = some job → job.state = .pending →
      ∃ spec, admittedSpec history dagId = some spec ∧ ∃ ancestorId ancestor,
        Ancestor spec.edges ancestorId jobId ∧ scheduler.job? dagId ancestorId = some ancestor ∧
        ancestor.isActive = true) ∧
    ∀ dagId, (∀ jobId job, scheduler.job? dagId jobId = some job → job.isActive = false) →
      ∀ jobId job, scheduler.job? dagId jobId = some job →
        job.state = .succeeded ∨ job.state = .cancelled := by
  have h := run_invariant hrun
  refine ⟨fun dagId jobId job hjob hpending => h.exists_active_ancestor hjob hpending,
    fun dagId hquiet jobId job hjob => ?_⟩
  have hpending : job.state ≠ .pending := fun hpending => by
    obtain ⟨_, _, ancestorId, ancestor, _, hfound, hactive⟩ :=
      h.exists_active_ancestor hjob hpending
    rw [hquiet ancestorId ancestor hfound] at hactive
    cases hactive
  have hactive := hquiet jobId job hjob
  unfold JobRecord.isActive at hactive
  cases hstate : job.state <;> simp_all

/-- The bottom of the fresh diamond waits, two levels up, for its top. -/
theorem pending_has_active_ancestor_diamond :
    (∃ job, diamondScheduler.job? "diamond" "bottom" = some job ∧ job.state = .pending) ∧
    ∃ ancestorId ancestor, Ancestor diamondSpec.edges ancestorId "bottom" ∧
      diamondScheduler.job? "diamond" ancestorId = some ancestor ∧ ancestor.isActive = true := by
  obtain ⟨job, hjob⟩ : ∃ job, diamondScheduler.job? "diamond" "bottom" = some job :=
    Option.isSome_iff_exists.mp (by decide)
  have hpending : job.state = .pending := by
    have hstate : (diamondScheduler.job? "diamond" "bottom").map JobRecord.state =
        some .pending := by decide
    simpa [hjob] using hstate
  obtain ⟨spec, hspec, hancestor⟩ :=
    (pending_has_active_ancestor run_diamondScheduler).1 "diamond" "bottom" job hjob hpending
  have hsame : spec = diamondSpec := by
    simpa [admittedSpec, diamondSpec] using hspec.symm
  exact ⟨⟨job, hjob, hpending⟩, hsame ▸ hancestor⟩

end JobOrchestrator
