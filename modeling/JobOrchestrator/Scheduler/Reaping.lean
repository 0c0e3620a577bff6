import JobOrchestrator.Scheduler.Tokens

/-!
# Reaping is exact

`reap` first collects the expired leases, in the iteration order of the maps,
and then retries them one by one while records and heap change under it.  Since
the collected keys are distinct, every record is rewritten once
(`dags_retryAll`) and every key pushed is computed from the record as it was
collected (`ready_retryAll`); neither depends on the order of the keys.

`Reordered` relates two schedulers that differ in the iteration order of their
maps only.
-/

namespace JobOrchestrator

/-- Leased, with a deadline that has been reached. -/
def JobRecord.Overdue (job : JobRecord) (nowMs : ℤ) : Prop :=
  job.state = .leased ∧ ∃ lease, job.lease = some lease ∧ lease.expiresAtMs ≤ nowMs

/-- The same graph record, with its maps iterated in another order. -/
structure DagRecord.Reordered (first second : DagRecord) : Prop where
  jobs : first.jobs.entries.Perm second.jobs.entries
  dependents : first.dependents.entries.Perm second.dependents.entries

/-- Rewriting the records in place keeps the iteration order. -/
theorem DagRecord.Reordered.rewrite {first second : DagRecord} (h : first.Reordered second)
    (f : String → JobRecord → JobRecord) : (first.rewrite f).Reordered (second.rewrite f) :=
  ⟨h.jobs.map _, h.dependents⟩

namespace Scheduler

/-- The same scheduler, with its maps iterated in another order. -/
structure Reordered (first second : Scheduler) : Prop where
  config : first.config = second.config
  sequence : first.sequence = second.sequence
  ready : first.ready.entries.Perm second.ready.entries
  dags : ∀ dagId, Option.Rel DagRecord.Reordered (first.dags.get? dagId) (second.dags.get? dagId)

/-! ## The heap of a reap -/

/-- The heap entry under which a job is retried, if it has attempts left. -/
def retryKey? (scheduler : Scheduler) (nowMs : ℤ) (key : String × String) : Option ReadyKey :=
  (scheduler.job? key.1 key.2).bind fun job =>
    if job.spec.maxAttempts ≤ job.attempts then none
    else some (readyKey key.1 job.spec (retryAtMs scheduler.config key.2 job.attempts nowMs))

theorem retryKey?_eq_some_iff {scheduler : Scheduler} {nowMs : ℤ} {dagId jobId : String}
    {key : ReadyKey} : scheduler.retryKey? nowMs (dagId, jobId) = some key ↔
      ∃ job, scheduler.job? dagId jobId = some job ∧ job.attempts < job.spec.maxAttempts ∧
        key = readyKey dagId job.spec
          (retryAtMs scheduler.config jobId job.attempts nowMs) := by
  simp only [retryKey?, Option.bind_eq_some_iff, Option.ite_none_left_eq_some, not_le,
    Option.some.injEq]
  constructor
  · rintro ⟨job, hjob, hleft, hkey⟩
    exact ⟨job, hjob, hleft, hkey.symm⟩
  · rintro ⟨job, hjob, hleft, hkey⟩
    exact ⟨job, hjob, hleft, hkey.symm⟩

theorem ready_retryOrDeadLetter {scheduler : Scheduler} {dagId jobId : String} {job : JobRecord}
    (hjob : scheduler.job? dagId jobId = some job) (nowMs : ℤ) :
    (scheduler.retryOrDeadLetter dagId jobId nowMs).2.ready =
      scheduler.ready.pushAll (scheduler.retryKey? nowMs (dagId, jobId)).toList := by
  rw [retryOrDeadLetter_of_job? hjob]
  simp only [retryKey?, hjob, Option.bind_some]
  split
  next hspent => rfl
  next hleft => rfl

/-- Retrying distinct jobs one after the other pushes the keys that the jobs
have at the beginning. -/
theorem ready_retryAll (nowMs : ℤ) {keys : List (String × String)} (hnodup : keys.Nodup)
    {scheduler : Scheduler} (hjobs : ∀ key ∈ keys, ∃ job, scheduler.job? key.1 key.2 = some job) :
    (retryAll nowMs keys scheduler).ready =
      scheduler.ready.pushAll (keys.filterMap (scheduler.retryKey? nowMs)) := by
  induction keys generalizing scheduler with
  | nil => rfl
  | cons key rest ih =>
      obtain ⟨dagId, jobId⟩ := key
      obtain ⟨hfresh, hrest⟩ := List.nodup_cons.mp hnodup
      have hjob := hjobs (dagId, jobId) List.mem_cons_self
      have hdags := dags_retryOrDeadLetter hjob nowMs
      have hlater := ih hrest fun other hother => exists_job?_of_dags_eq_mapJobs hdags
        (hjobs other (List.mem_cons_of_mem _ hother))
      -- the first retry touches none of the other records
      have hsame : ∀ other ∈ rest,
          (scheduler.retryOrDeadLetter dagId jobId nowMs).2.retryKey? nowMs other =
            scheduler.retryKey? nowMs other := by
        intro other hother
        have hlookup : (scheduler.retryOrDeadLetter dagId jobId nowMs).2.job? other.1 other.2 =
            scheduler.job? other.1 other.2 := by
          rw [job?_of_dags_eq_mapJobs hdags]
          have hne : ¬(other.1 = dagId ∧ other.2 = jobId) := fun h =>
            hfresh ((Prod.ext h.1 h.2 : other = (dagId, jobId)) ▸ hother)
          cases scheduler.job? other.1 other.2 with
          | none => rfl
          | some job => rw [Option.map_some, atJob_of_ne hne]
        rw [retryKey?, retryKey?, hlookup, config_retryOrDeadLetter]
      obtain ⟨job, hjob⟩ := hjob
      rw [retryAll_cons, hlater, ready_retryOrDeadLetter hjob, ← MinHeap.pushAll_append,
        List.filterMap_congr hsame]
      congr 1
      cases hkey : scheduler.retryKey? nowMs (dagId, jobId) with
      | none => simp [hkey]
      | some key => simp [hkey]

theorem ready_reap (scheduler : Scheduler) (nowMs : ℤ) :
    (scheduler.reap nowMs).2.ready = scheduler.ready.pushAll
      ((scheduler.expiredLeases nowMs).filterMap (scheduler.retryKey? nowMs)) := by
  refine ready_retryAll nowMs (nodup_expiredLeases scheduler nowMs) fun key hkey => ?_
  obtain ⟨job, hjob, -⟩ := mem_expiredLeases.mp hkey
  exact ⟨job, hjob⟩

theorem OwnIds.key_of_retryKey? {scheduler : Scheduler} (hids : OwnIds scheduler) {nowMs : ℤ}
    {job : String × String} {key : ReadyKey} (h : scheduler.retryKey? nowMs job = some key) :
    (key.dagId, key.jobId) = job := by
  obtain ⟨record, hrecord, -, rfl⟩ := retryKey?_eq_some_iff.mp h
  exact Prod.ext rfl (hids _ _ record hrecord)

theorem OwnIds.retryKeys_sublist {scheduler : Scheduler} (hids : OwnIds scheduler) (nowMs : ℤ)
    (jobs : List (String × String)) :
    ((jobs.filterMap (scheduler.retryKey? nowMs)).map fun key => (key.dagId, key.jobId)).Sublist
      jobs := by
  induction jobs with
  | nil => exact List.Sublist.refl _
  | cons job rest ih =>
      cases hkey : scheduler.retryKey? nowMs job with
      | none =>
          rw [List.filterMap_cons_none hkey]
          exact ih.cons job
      | some key =>
          rw [List.filterMap_cons_some hkey, List.map_cons, hids.key_of_retryKey? hkey]
          exact ih.cons_cons job

/-! ## Other iteration orders -/

variable {first second : Scheduler}

theorem Reordered.job?_eq (h : first.Reordered second) (dagId jobId : String) :
    first.job? dagId jobId = second.job? dagId jobId := by
  have hdag := h.dags dagId
  unfold job?
  generalize first.dags.get? dagId = found at hdag ⊢
  generalize second.dags.get? dagId = other at hdag ⊢
  cases hdag with
  | none => rfl
  | some hdag => exact Table.get?_eq_of_perm hdag.jobs jobId

theorem Reordered.expiredLeases_perm (h : first.Reordered second) (nowMs : ℤ) :
    (first.expiredLeases nowMs).Perm (second.expiredLeases nowMs) := by
  rw [List.perm_ext_iff_of_nodup (nodup_expiredLeases ..) (nodup_expiredLeases ..)]
  rintro ⟨dagId, jobId⟩
  rw [mem_expiredLeases, mem_expiredLeases, h.job?_eq]

theorem Reordered.mapJobs (h : first.Reordered second)
    (f : String → String → JobRecord → JobRecord) (dagId : String) :
    Option.Rel DagRecord.Reordered ((mapJobs f first.dags).get? dagId)
      ((mapJobs f second.dags).get? dagId) := by
  have hdag := h.dags dagId
  simp only [JobOrchestrator.mapJobs, Table.get?_mapValues]
  generalize first.dags.get? dagId = found at hdag ⊢
  generalize second.dags.get? dagId = other at hdag ⊢
  cases hdag with
  | none => exact .none
  | some hdag => exact .some (hdag.rewrite (f dagId))

theorem Reordered.reap (h : first.Reordered second) (nowMs : ℤ) :
    (first.reap nowMs).1 = (second.reap nowMs).1 ∧
      (first.reap nowMs).2.Reordered (second.reap nowMs).2 := by
  have hperm := h.expiredLeases_perm nowMs
  have hkeys : first.retryKey? nowMs = second.retryKey? nowMs := by
    funext key
    rw [retryKey?, retryKey?, h.job?_eq, h.config]
  refine ⟨hperm.length_eq, ?_, ?_, ?_, fun dagId => ?_⟩
  · rw [config_reap, config_reap, h.config]
  · rw [sequence_reap, sequence_reap, h.sequence]
  · rw [ready_reap, ready_reap, hkeys, MinHeap.ext_of_perm h.ready,
      MinHeap.pushAll_perm _ (hperm.filterMap _)]
  · rw [dags_reap, dags_reap, ← h.config]
    exact h.mapJobs _ dagId

/-! ## What a reap does -/

theorem leaseExpired_iff_overdue {job : JobRecord} {nowMs : ℤ} :
    job.leaseExpired nowMs = true ↔ job.Overdue nowMs := by
  unfold JobRecord.leaseExpired JobRecord.Overdue
  cases job.lease with
  | none => simp
  | some lease => simp

/-- The jobs that are overdue. -/
def overdueJobs (scheduler : Scheduler) (nowMs : ℤ) : Set (String × String) :=
  {key | ∃ job, scheduler.job? key.1 key.2 = some job ∧ job.Overdue nowMs}

theorem overdueJobs_eq (scheduler : Scheduler) (nowMs : ℤ) :
    scheduler.overdueJobs nowMs = ↑(scheduler.expiredLeases nowMs).toFinset := by
  ext ⟨dagId, jobId⟩
  rw [Finset.mem_coe, List.mem_toFinset, mem_expiredLeases]
  simp only [leaseExpired_iff_overdue]
  rfl

theorem not_leaseExpired_reaped (config : SchedulerConfig) (nowMs : ℤ) (jobId : String)
    (job : JobRecord) : ¬(reaped config nowMs jobId job).leaseExpired nowMs = true := by
  unfold reaped
  split
  next hexpired => simp [JobRecord.leaseExpired, lease_retried]
  next hlive => exact hlive

/-- After a reap there is nothing left to reap. -/
theorem expiredLeases_reap (scheduler : Scheduler) (nowMs : ℤ) :
    (scheduler.reap nowMs).2.expiredLeases nowMs = [] := by
  apply List.eq_nil_iff_forall_not_mem.mpr
  rintro ⟨dagId, jobId⟩ hmem
  obtain ⟨after, hafter, hexpired⟩ := mem_expiredLeases.mp hmem
  rw [job?_of_dags_eq_mapJobs (dags_reap scheduler nowMs), Option.map_eq_some_iff] at hafter
  obtain ⟨job, -, rfl⟩ := hafter
  exact not_leaseExpired_reaped _ _ _ _ hexpired

/-- What a reap returns and what it leaves behind. -/
structure ReapsExactly (scheduler : Scheduler) (nowMs : ℤ) : Prop where
  count : (scheduler.reap nowMs).1 = (scheduler.overdueJobs nowMs).ncard
  retried : ∀ dagId jobId job, scheduler.job? dagId jobId = some job → job.Overdue nowMs →
    job.attempts < job.spec.maxAttempts →
    (scheduler.reap nowMs).2.job? dagId jobId = some { job with
      lease := none
      availableAtMs := retryAtMs scheduler.config jobId job.attempts nowMs
      state := .retryWait }
  buried : ∀ dagId jobId job, scheduler.job? dagId jobId = some job → job.Overdue nowMs →
    job.spec.maxAttempts ≤ job.attempts →
    (scheduler.reap nowMs).2.job? dagId jobId =
      some { job with lease := none, state := .deadLettered }
  untouched : ∀ dagId jobId job, scheduler.job? dagId jobId = some job → ¬job.Overdue nowMs →
    (scheduler.reap nowMs).2.job? dagId jobId = some job
  absent : ∀ dagId jobId, scheduler.job? dagId jobId = none →
    (scheduler.reap nowMs).2.job? dagId jobId = none
  /-- The heap gains one entry for each job that is retried, and loses none. -/
  pushed : ∃ added : List ReadyKey,
    (scheduler.reap nowMs).2.ready.entries.Perm (added ++ scheduler.ready.entries) ∧
    (added.map fun key => (key.dagId, key.jobId)).Nodup ∧
    ∀ key, key ∈ added ↔ ∃ job, scheduler.job? key.dagId key.jobId = some job ∧
      job.Overdue nowMs ∧ job.attempts < job.spec.maxAttempts ∧
      key = readyKey key.dagId job.spec
        (retryAtMs scheduler.config key.jobId job.attempts nowMs)
  none_left : ∀ dagId jobId job, (scheduler.reap nowMs).2.job? dagId jobId = some job →
    ¬job.Overdue nowMs
  /-- Any iteration order of the maps gives the same count, records and heap. -/
  order_free : ∀ other, scheduler.Reordered other →
    (other.reap nowMs).1 = (scheduler.reap nowMs).1 ∧
      (scheduler.reap nowMs).2.Reordered (other.reap nowMs).2
  idempotent : (scheduler.reap nowMs).2.reap nowMs = (0, (scheduler.reap nowMs).2)

end Scheduler

open Scheduler

/-- In every reachable state, at any time, a reap is exact. -/
theorem reap_exact {config : SchedulerConfig} {history : List Event} {scheduler : Scheduler}
    (hrun : Run config history scheduler) (nowMs : ℤ) : scheduler.ReapsExactly nowMs where
  count := by
    rw [overdueJobs_eq, Set.ncard_coe_finset,
      List.toFinset_card_of_nodup (nodup_expiredLeases scheduler nowMs)]
    rfl
  retried := by
    intro dagId jobId job hjob hoverdue hleft
    rw [job?_reap nowMs hjob, reaped, if_pos (leaseExpired_iff_overdue.mpr hoverdue),
      Scheduler.retried, if_neg (not_le.mpr hleft)]
  buried := by
    intro dagId jobId job hjob hoverdue hspent
    rw [job?_reap nowMs hjob, reaped, if_pos (leaseExpired_iff_overdue.mpr hoverdue),
      Scheduler.retried, if_pos hspent]
  untouched := by
    intro dagId jobId job hjob hlive
    rw [job?_reap nowMs hjob, reaped, if_neg (leaseExpired_iff_overdue.not.mpr hlive)]
  absent := by
    intro dagId jobId hnone
    rw [job?_of_dags_eq_mapJobs (dags_reap scheduler nowMs), hnone, Option.map_none]
  pushed := by
    -- one key for each expired lease with attempts left, in the order of the loop
    have hids := (run_invariant hrun).ownIds
    refine ⟨(scheduler.expiredLeases nowMs).filterMap (scheduler.retryKey? nowMs), ?_, ?_, ?_⟩
    · rw [ready_reap]
      exact MinHeap.entries_pushAll_perm _ _
    · exact (hids.retryKeys_sublist nowMs _).nodup (nodup_expiredLeases scheduler nowMs)
    · intro key
      rw [List.mem_filterMap]
      constructor
      · rintro ⟨⟨dagId, jobId⟩, hmem, hkey⟩
        obtain ⟨rfl, rfl⟩ := Prod.mk.inj (hids.key_of_retryKey? hkey)
        obtain ⟨job, hjob, hleft, heq⟩ := retryKey?_eq_some_iff.mp hkey
        obtain ⟨stored, hstored, hexpired⟩ := mem_expiredLeases.mp hmem
        rw [hjob] at hstored
        cases hstored
        exact ⟨job, hjob, leaseExpired_iff_overdue.mp hexpired, hleft, heq⟩
      · rintro ⟨job, hjob, hoverdue, hleft, heq⟩
        refine ⟨(key.dagId, key.jobId), ?_, retryKey?_eq_some_iff.mpr ⟨job, hjob, hleft, heq⟩⟩
        exact mem_expiredLeases.mpr ⟨job, hjob, leaseExpired_iff_overdue.mpr hoverdue⟩
  none_left := by
    intro dagId jobId job hjob hoverdue
    have hmem := mem_expiredLeases.mpr ⟨job, hjob, leaseExpired_iff_overdue.mpr hoverdue⟩
    rw [expiredLeases_reap] at hmem
    cases hmem
  order_free := by
    intro other hother
    obtain ⟨hcount, hreordered⟩ := hother.reap nowMs
    exact ⟨hcount.symm, hreordered⟩
  idempotent := by
    rw [reap_eq, expiredLeases_reap]
    rfl

/-- After two claims of one job its second lease is overdue at its deadline. -/
theorem reap_exact_reclaimed :
    (reclaimedRun.2.reap 6000).1 = 1 ∧
      ∃ job, (reclaimedRun.2.reap 6000).2.job? "d" "j" = some job ∧ job.state = .retryWait := by
  have hexact := reap_exact run_reclaimedRun 6000
  have hjob : reclaimedRun.2.job? "d" "j" = some ⟨⟨"j", .uppercase, "", 3, 0⟩, .leased, 2,
      2106, 0, some ⟨"fast", "lease-d-j-2", 6000⟩, none⟩ := by decide
  refine ⟨by decide, _, hexact.retried "d" "j" _ hjob ⟨rfl, _, rfl, ?_⟩ ?_, rfl⟩
  · exact le_refl 6000
  · decide

end JobOrchestrator
