import JobOrchestrator.Scheduler.Heap

/-!
# One graph and its spec

`DagRecord.Consistent` ties a graph record to the spec it was admitted with: the
dependency counters are the numbers of open incoming edges, a job is pending
exactly while its counter is positive, and cancellation takes a whole graph.

An operation that neither finishes nor cancels a job, nor touches a counter, is
*quiet* (`Quiet`); claims, heartbeats, failures and reaps are, so that only
admission, completion and cancellation need an argument of their own.
-/

namespace JobOrchestrator

open Digraph

/-- The source of an edge still holds its target back. -/
def DagRecord.isOpen (dag : DagRecord) (jobId : String) : Bool :=
  match dag.jobs.get? jobId with
  | none => true
  | some job => job.state ≠ .succeeded

/-- A graph record agrees with its spec. -/
structure DagRecord.Consistent (spec : DagSpec) (dag : DagRecord) : Prop
    extends DagRecord.Built spec dag where
  remaining : ∀ jobId job, dag.jobs.get? jobId = some job →
    job.remainingDependencies = openInDegree spec.edges dag.isOpen jobId
  pending_iff : ∀ jobId job, dag.jobs.get? jobId = some job → job.state ≠ .cancelled →
    (job.state = .pending ↔ 0 < job.remainingDependencies)
  cancelled_whole : ∀ jobId job, dag.jobs.get? jobId = some job → job.state = .cancelled →
    ∀ jobId' job', dag.jobs.get? jobId' = some job' → job'.isTerminal = true

theorem DagRecord.Consistent.remaining_eq_zero {spec : DagSpec} {dag : DagRecord}
    (h : dag.Consistent spec) {jobId : String} {job : JobRecord}
    (hjob : dag.jobs.get? jobId = some job) (hpending : job.state ≠ .pending)
    (hcancelled : job.state ≠ .cancelled) : job.remainingDependencies = 0 := by
  have hpos := (h.pending_iff jobId job hjob hcancelled).not.mp hpending
  omega

/-- The record changes in no way that the rest of its graph can see. -/
structure Quiet (before after : JobRecord) : Prop where
  spec : after.spec = before.spec
  remaining : after.remainingDependencies = before.remainingDependencies
  pending : after.state = .pending ↔ before.state = .pending
  succeeded : after.state = .succeeded ↔ before.state = .succeeded
  cancelled : after.state = .cancelled ↔ before.state = .cancelled
  terminal : before.isTerminal = true → after.isTerminal = true

theorem Quiet.refl (job : JobRecord) : Quiet job job :=
  ⟨rfl, rfl, Iff.rfl, Iff.rfl, Iff.rfl, id⟩

theorem DagRecord.Built.mapValues {spec : DagSpec} {dag : DagRecord} (h : dag.Built spec)
    {f : String → JobRecord → JobRecord}
    (hf : ∀ jobId job, dag.jobs.get? jobId = some job → (f jobId job).spec = job.spec) :
    DagRecord.Built spec (dag.rewrite f) := by
  refine ⟨(Table.keys_mapValues ..).trans h.keys, fun jobId job hjob => ?_, h.dependents⟩
  rw [DagRecord.get?_rewrite, Option.map_eq_some_iff] at hjob
  obtain ⟨old, hold, rfl⟩ := hjob
  rw [hf jobId old hold]
  exact h.record jobId old hold

theorem DagRecord.isOpen_mapValues {dag : DagRecord} {f : String → JobRecord → JobRecord}
    (jobId : String) (hf : ∀ job, dag.jobs.get? jobId = some job →
      ((f jobId job).state = .succeeded ↔ job.state = .succeeded)) :
    DagRecord.isOpen (dag.rewrite f) jobId = dag.isOpen jobId := by
  unfold DagRecord.isOpen
  rw [DagRecord.get?_rewrite]
  cases hjob : dag.jobs.get? jobId with
  | none => rfl
  | some job => simp [hf job hjob]

theorem DagRecord.Consistent.quiet {spec : DagSpec} {dag : DagRecord} (h : dag.Consistent spec)
    {f : String → JobRecord → JobRecord}
    (hf : ∀ jobId job, dag.jobs.get? jobId = some job → Quiet job (f jobId job)) :
    DagRecord.Consistent spec (dag.rewrite f) := by
  refine ⟨h.toBuilt.mapValues fun jobId job hjob => (hf jobId job hjob).spec, ?_, ?_, ?_⟩
  all_goals
    intro jobId job hjob
    rw [DagRecord.get?_rewrite, Option.map_eq_some_iff] at hjob
    obtain ⟨old, hold, rfl⟩ := hjob
    have hquiet := hf jobId old hold
  · rw [hquiet.remaining, h.remaining jobId old hold]
    exact openInDegree_congr fun a _ => (DagRecord.isOpen_mapValues a fun job hjob =>
      (hf a job hjob).succeeded).symm
  · intro hnot
    rw [hquiet.pending, hquiet.remaining]
    exact h.pending_iff jobId old hold (hquiet.cancelled.not.mp hnot)
  · intro hcancelled jobId' job' hjob'
    rw [DagRecord.get?_rewrite, Option.map_eq_some_iff] at hjob'
    obtain ⟨old', hold', rfl⟩ := hjob'
    exact (hf jobId' old' hold').terminal
      (h.cancelled_whole jobId old hold (hquiet.cancelled.mp hcancelled) jobId' old' hold')

theorem DagRecord.Consistent.admitted {spec : DagSpec} {dag : DagRecord} {nowMs : ℤ}
    (hbuilt : dag.Built spec) (hrecords : ∀ jobId record, dag.jobs.get? jobId = some record →
      record = spec.initialRecord nowMs record.spec) : dag.Consistent spec := by
  have hopen : ∀ a, dag.isOpen a = true := by
    intro a
    unfold DagRecord.isOpen
    cases hjob : dag.jobs.get? a with
    | none => rfl
    | some job =>
        rw [hrecords a job hjob, DagSpec.initialRecord]
        by_cases hzero : spec.inDegree job.spec.id = 0 <;> simp [hzero]
  refine ⟨hbuilt, fun jobId job hjob => ?_, fun jobId job hjob _ => ?_,
    fun jobId job hjob hcancelled => ?_⟩
  · rw [hrecords jobId job hjob, ← (hbuilt.record jobId job hjob).2]
    exact openInDegree_congr fun a _ => (hopen a).symm
  · rw [hrecords jobId job hjob, DagSpec.initialRecord]
    by_cases hzero : spec.inDegree job.spec.id = 0
    · simp [hzero]
    · simp [hzero, Nat.pos_of_ne_zero hzero]
  · rw [hrecords jobId job hjob, DagSpec.initialRecord] at hcancelled
    by_cases hzero : spec.inDegree job.spec.id = 0 <;> simp [hzero] at hcancelled

/-- What a success makes of the records of its graph. -/
def completedRecord (nowMs : ℤ) (result jobId : String) (dependents : List String)
    (jobId' : String) (job : JobRecord) : JobRecord :=
  Scheduler.released nowMs (dependents.count jobId')
    (if jobId' = jobId then Scheduler.succeeded result job else job)

section Completed

variable (nowMs : ℤ) (result jobId : String) (dependents : List String)

theorem completedRecord_of_ne {jobId' : String} (hne : jobId' ≠ jobId) (job : JobRecord) :
    completedRecord nowMs result jobId dependents jobId' job =
      Scheduler.released nowMs (dependents.count jobId') job := by
  rw [completedRecord, if_neg hne]

@[simp] theorem state_completedRecord_self (job : JobRecord) :
    (completedRecord nowMs result jobId dependents jobId job).state = .succeeded := by
  rw [completedRecord, if_pos rfl, Scheduler.state_released]
  simp [Scheduler.succeeded]

theorem state_completedRecord_of_ne {jobId' : String} (hne : jobId' ≠ jobId) (job : JobRecord) :
    (completedRecord nowMs result jobId dependents jobId' job).state =
      if dependents.count jobId' ≠ 0 ∧ job.remainingDependencies ≤ dependents.count jobId' ∧
        job.state = .pending then .ready else job.state := by
  rw [completedRecord_of_ne _ _ _ _ hne, Scheduler.state_released]

@[simp] theorem remaining_completedRecord (jobId' : String) (job : JobRecord) :
    (completedRecord nowMs result jobId dependents jobId' job).remainingDependencies =
      job.remainingDependencies - dependents.count jobId' := by
  rw [completedRecord, Scheduler.remaining_released]
  split <;> rfl

@[simp] theorem spec_completedRecord (jobId' : String) (job : JobRecord) :
    (completedRecord nowMs result jobId dependents jobId' job).spec = job.spec := by
  rw [completedRecord, Scheduler.spec_released]
  split <;> rfl

end Completed

/-- A success consumes the edges out of its job. -/
theorem DagRecord.Consistent.close {spec : DagSpec} {dag : DagRecord}
    (h : dag.Consistent spec) {jobId : String} {job : JobRecord}
    (hjob : dag.jobs.get? jobId = some job) (hleased : job.state = .leased) (nowMs : ℤ)
    (result b : String) :
    openInDegree spec.edges (DagRecord.isOpen (dag.rewrite
        (completedRecord nowMs result jobId (listAt dag.dependents jobId)))) b +
      (listAt dag.dependents jobId).count b = openInDegree spec.edges dag.isOpen b := by
  rw [(h.dependents jobId).count_eq, count_childrenOf]
  refine openInDegree_close spec.edges ?_ ?_ ?_ b
  · simp [DagRecord.isOpen, hjob, hleased]
  · simp [DagRecord.isOpen, hjob]
  · intro a hne
    -- a release does not make a job succeed
    refine DagRecord.isOpen_mapValues a fun job' hjob' => ?_
    rw [state_completedRecord_of_ne _ _ _ _ hne]
    split
    next hpending => simp [hpending.2.2]
    next => rfl

/-- A success closes the edges out of its job, and releases the jobs whose last
open edge it closes. -/
theorem DagRecord.Consistent.complete {spec : DagSpec} {dag : DagRecord}
    (h : dag.Consistent spec) {jobId : String} {job : JobRecord}
    (hjob : dag.jobs.get? jobId = some job) (hleased : job.state = .leased) (nowMs : ℤ)
    (result : String) :
    DagRecord.Consistent spec (dag.rewrite
      (completedRecord nowMs result jobId (listAt dag.dependents jobId))) := by
  have hlive : ∀ jobId' job', dag.jobs.get? jobId' = some job' → job'.state ≠ .cancelled := by
    intro jobId' job' hjob' hcancelled
    have hterminal := h.cancelled_whole jobId' job' hjob' hcancelled jobId job hjob
    simp [JobRecord.isTerminal, hleased] at hterminal
  refine ⟨h.toBuilt.mapValues fun jobId' job' _ => spec_completedRecord .., ?_, ?_, ?_⟩
  all_goals
    intro jobId' job' hjob'
    rw [DagRecord.get?_rewrite, Option.map_eq_some_iff] at hjob'
    obtain ⟨old, hold, rfl⟩ := hjob'
  · have hsum := h.close hjob hleased nowMs result jobId'
    rw [remaining_completedRecord, h.remaining jobId' old hold]
    omega
  · intro _
    rw [remaining_completedRecord]
    by_cases hsame : jobId' = jobId
    · subst hsame
      rw [hjob] at hold
      cases hold
      have hzero := h.remaining_eq_zero hjob (by simp [hleased]) (hlive jobId' job hjob)
      rw [state_completedRecord_self]
      simp only [reduceCtorEq, false_iff]
      omega
    · have hiff := h.pending_iff jobId' old hold (hlive jobId' old hold)
      rw [state_completedRecord_of_ne _ _ _ _ hsame]
      by_cases hpending : old.state = .pending
      · have hpos := hiff.mp hpending
        by_cases hlast : old.remainingDependencies ≤ (listAt dag.dependents jobId).count jobId'
        · rw [if_pos ⟨by omega, hlast, hpending⟩]
          simp only [reduceCtorEq, false_iff]
          omega
        · rw [if_neg fun hcase => hlast hcase.2.1]
          simp only [hpending, true_iff]
          omega
      · rw [if_neg fun hcase => hpending hcase.2.2]
        have := hiff.not.mp hpending
        simp only [hpending, false_iff]
        omega
  · intro hcancelled
    exfalso
    by_cases hsame : jobId' = jobId
    · subst hsame
      rw [state_completedRecord_self] at hcancelled
      cases hcancelled
    · rw [state_completedRecord_of_ne _ _ _ _ hsame] at hcancelled
      split at hcancelled
      · cases hcancelled
      · exact hlive jobId' old hold hcancelled

theorem isTerminal_cancelled (job : JobRecord) :
    (Scheduler.cancelled job).isTerminal = true := by
  unfold Scheduler.cancelled
  split
  next hterminal => exact hterminal
  next => simp [JobRecord.isTerminal]

theorem DagRecord.Consistent.cancel {spec : DagSpec} {dag : DagRecord} (h : dag.Consistent spec) :
    DagRecord.Consistent spec
      (dag.rewrite fun _ job => Scheduler.cancelled job) := by
  refine ⟨h.toBuilt.mapValues fun jobId job _ => ?_, ?_, ?_, ?_⟩
  · unfold Scheduler.cancelled
    split <;> rfl
  all_goals
    intro jobId job hjob
    rw [DagRecord.get?_rewrite, Option.map_eq_some_iff] at hjob
    obtain ⟨old, hold, rfl⟩ := hjob
  · have hsame : (Scheduler.cancelled old).remainingDependencies = old.remainingDependencies := by
      unfold Scheduler.cancelled
      split <;> rfl
    rw [hsame, h.remaining jobId old hold]
    refine openInDegree_congr fun a _ => (DagRecord.isOpen_mapValues a fun job _ => ?_).symm
    unfold Scheduler.cancelled
    split
    next => rfl
    next hlive =>
      simp only [JobRecord.isTerminal, Bool.decide_or, Bool.or_eq_true, decide_eq_true_eq,
        not_or] at hlive
      simp [hlive.1]
  · intro hnot
    by_cases hterminal : old.isTerminal = true
    · rw [Scheduler.cancelled, if_pos hterminal] at hnot ⊢
      exact h.pending_iff jobId old hold hnot
    · rw [Scheduler.cancelled, if_neg hterminal] at hnot
      exact absurd rfl hnot
  · intro _ jobId' job' hjob'
    rw [DagRecord.get?_rewrite, Option.map_eq_some_iff] at hjob'
    obtain ⟨old', _, rfl⟩ := hjob'
    exact isTerminal_cancelled old'

end JobOrchestrator
