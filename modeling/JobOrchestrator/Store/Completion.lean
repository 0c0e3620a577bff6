import JobOrchestrator.Store.Related

/-!
# Completion on both sides

The scheduler decrements the counters of the dependents and releases those that
reach zero; the store joins over the parents of every pending child.  Both
release the same children: after the first statement of the store has marked the
job as succeeded, its join finds only succeeded parents exactly when the counter
after the decrements of the scheduler is zero.
-/

namespace JobOrchestrator

theorem InStep.releasedIf {names : List (String × Uuid)} {job : JobRecord} {row : JobRow}
    (h : InStep names job row) (nowMs : ℤ) (edges : ℕ) {applies : Bool}
    (happlies : applies = true ↔
      edges ≠ 0 ∧ job.remainingDependencies ≤ edges ∧ job.state = .pending) :
    InStep names (Scheduler.released nowMs edges job)
      (if applies then releasedRow (milliseconds nowMs) row else row) := by
  unfold Scheduler.released
  by_cases hedges : edges = 0
  · rw [if_pos hedges, if_neg fun htrue => (happlies.mp htrue).1 hedges]
    exact h
  · rw [if_neg hedges]
    by_cases hlast : job.remainingDependencies ≤ edges ∧ job.state = .pending
    · rw [if_pos hlast, if_pos (happlies.mpr ⟨hedges, hlast⟩)]
      exact h.released hlast.2 nowMs _
    · rw [if_neg hlast, if_neg fun htrue => hlast (happlies.mp htrue).2]
      exact h.counted _

namespace Related

variable {sides : Sides}

theorem get?_completeStatement (h : Related sides) {token : String} {uuid : Uuid}
    (hcorresponds : Corresponds sides.names token uuid) {dagId jobId owner : String} {nowMs : ℤ}
    {job : JobRecord} (hjob : sides.scheduler.job? dagId jobId = some job)
    (hholds : job.holdsLease owner token nowMs = true) (result : String) (dagId' jobId' : String) :
    (sides.db.execute (completeStatement dagId jobId owner uuid result
        (milliseconds nowMs))).2.jobs.get? (dagId', jobId') =
      (sides.db.jobs.get? (dagId', jobId')).map fun row => if dagId' = dagId ∧ jobId' = jobId then
        succeededRow result row else row := by
  rw [Database.get?_execute]
  cases hrow : sides.db.jobs.get? (dagId', jobId') with
  | none => rfl
  | some row =>
      refine congrArg some ?_
      dsimp only
      by_cases hkey : dagId' = dagId ∧ jobId' = jobId
      · obtain ⟨rfl, rfl⟩ := hkey
        rw [if_pos (c := dagId' = dagId' ∧ jobId' = jobId') ⟨rfl, rfl⟩, if_pos]
        · rfl
        · exact ((h.inStep _ _ job row hjob hrow).leaseMatches_iff h.names hcorresponds ..).mpr
            hholds
      · rw [if_neg hkey, if_neg]
        intro hmatches
        simp only [completeStatement, leaseMatches, Bool.and_eq_true, decide_eq_true_eq] at hmatches
        exact hkey ⟨hmatches.1.1.1.1.1, hmatches.1.1.1.1.2⟩

/-- The release statement takes the dependents whose counter reaches zero. -/
theorem releaseStatement_iff (h : Related sides) {dagId jobId : String} {job : JobRecord}
    (hjob : sides.scheduler.job? dagId jobId = some job) (hleased : job.state = .leased)
    (nowMs : ℤ) (result : String) {snapshot : Snapshot}
    (hdependencies : snapshot.dependencies = sides.db.dependencies.keys)
    (hrows : ∀ parentId, snapshot.job? dagId parentId =
      (sides.db.jobs.get? (dagId, parentId)).map fun row => if parentId = jobId then
        succeededRow result row else row)
    {childId : String} {child : JobRecord} {row : JobRow}
    (hchild : sides.scheduler.job? dagId childId = some child) :
    (releaseStatement dagId jobId (milliseconds nowMs)).applies snapshot dagId childId row = true ↔
      (sides.scheduler.dependentsOf dagId jobId).count childId ≠ 0 ∧
      child.remainingDependencies ≤ (sides.scheduler.dependentsOf dagId jobId).count childId ∧
      row.state = .pending := by
  obtain ⟨specs, hinvariant⟩ := h.invariant
  obtain ⟨dag, spec, hdag, hlookup, _, _, hvalid, hconsistent⟩ := hinvariant.exists_dag hjob
  have hchildLookup := Scheduler.get?_jobs_of_job? hdag hchild
  have hdependents : sides.scheduler.dependentsOf dagId jobId = listAt dag.dependents jobId := by
    simp [Scheduler.dependentsOf, hdag]
  have hcompleted := hconsistent.complete hlookup hleased nowMs result
  have hedge : ∀ parentId childId, ⟨dagId, parentId, childId⟩ ∈ snapshot.dependencies ↔
      childId ∈ listAt dag.dependents parentId := by
    intro parentId childId
    rw [hdependencies]
    exact h.mirrors.dependency_iff hdag parentId childId
  have hparents : ∀ parentId parent, (dag.rewrite (completedRecord nowMs result jobId
        (listAt dag.dependents jobId))).jobs.get? parentId = some parent →
      ∃ row, snapshot.job? dagId parentId = some row ∧
        (row.state = .succeeded ↔ parent.state = .succeeded) := by
    intro parentId parent hparent
    rw [DagRecord.get?_rewrite, Option.map_eq_some_iff] at hparent
    obtain ⟨old, hold, rfl⟩ := hparent
    obtain ⟨stored, hstored, hsame⟩ := h.mirrors.exists_row
      (Scheduler.job?_eq_some_iff.mpr ⟨dag, hdag, hold⟩)
    refine ⟨_, by rw [hrows, hstored, Option.map_some], ?_⟩
    by_cases hself : parentId = jobId
    · simp [hself, succeededRow]
    · rw [if_neg hself, state_completedRecord_of_ne _ _ _ _ hself, hsame.state]
      split
      next hpending => simp [hpending.2.2]
      next => rfl
  have hchildAfter : (dag.rewrite (completedRecord nowMs result jobId
      (listAt dag.dependents jobId))).jobs.get? childId =
        some (completedRecord nowMs result jobId (listAt dag.dependents jobId) childId child) := by
    rw [DagRecord.get?_rewrite, hchildLookup, Option.map_some]
  have hjoin := Snapshot.parentsSucceeded_iff_remaining hcompleted hvalid hchildAfter
    (fun parentId => hedge parentId childId) hparents
  have hlisted : (snapshot.dependencies.any fun edge =>
      decide (edge = ⟨dagId, jobId, childId⟩)) = true ↔
        (listAt dag.dependents jobId).count childId ≠ 0 := by
    rw [ne_eq, List.count_eq_zero, not_not, ← hedge jobId childId, List.any_eq_true]
    simp
  rw [hdependents]
  simp only [releaseStatement, Bool.and_eq_true, decide_eq_true_eq, true_and, hlisted, hjoin,
    remaining_completedRecord, Nat.sub_eq_zero_iff_le]
  tauto

/-- The two statements of a completion rewrite the rows as the scheduler rewrites
the records. -/
theorem completed (h : Related sides) {token : String} {uuid : Uuid}
    (hcorresponds : Corresponds sides.names token uuid) {dagId jobId owner : String} {nowMs : ℤ}
    {job : JobRecord} (hjob : sides.scheduler.job? dagId jobId = some job)
    (hholds : job.holdsLease owner token nowMs = true) {result : String} {after : Scheduler}
    (hdags : after.dags = mapJobs (fun dagId' jobId' job => if dagId' = dagId then
      completedRecord nowMs result jobId (sides.scheduler.dependentsOf dagId jobId) jobId' job
      else job) sides.scheduler.dags)
    (hinvariant : ∃ specs, after.Invariant specs) (hconfig : after.config = .default)
    (hsequence : after.sequence = sides.scheduler.sequence) :
    Related ⟨sides.names, after, ((sides.db.execute (completeStatement dagId jobId owner uuid
      result (milliseconds nowMs))).2.execute (releaseStatement dagId jobId
      (milliseconds nowMs))).2.insertEvent dagId jobId "succeeded" owner⟩ := by
  have hleased := Scheduler.state_of_holdsLease hholds
  generalize hmarked : (sides.db.execute (completeStatement dagId jobId owner uuid result
    (milliseconds nowMs))).2 = marked
  have hmarkedRows := h.get?_completeStatement hcorresponds hjob hholds result
  rw [hmarked] at hmarkedRows
  have hrows : ∀ dagId' jobId', ((marked.execute (releaseStatement dagId jobId
      (milliseconds nowMs))).2.insertEvent dagId jobId "succeeded" owner).jobs.get?
        (dagId', jobId') = (sides.db.jobs.get? (dagId', jobId')).map fun row =>
      let row := if dagId' = dagId ∧ jobId' = jobId then succeededRow result row else row
      if (releaseStatement dagId jobId (milliseconds nowMs)).applies marked.snapshot dagId'
        jobId' row then releasedRow (milliseconds nowMs) row else row := by
    intro dagId' jobId'
    rw [Database.jobs_insertEvent, Database.get?_execute, hmarkedRows, Option.map_map]
    rfl
  refine h.rewrite hdags hrows (fun dagId' jobId' job' row hjob' hrow hinStep => ?_)
    (fun _ => ?_) (fun dagId' jobId' job' hcancelled hjob' => ?_) ?_ hinvariant hconfig hsequence
  · by_cases hsame : dagId' = dagId
    · subst hsame
      rw [if_pos rfl, completedRecord]
      -- first the job itself is marked on both sides
      have hfirst : InStep sides.names
          (if jobId' = jobId then Scheduler.succeeded result job' else job')
          (if dagId' = dagId' ∧ jobId' = jobId then succeededRow result row else row) := by
        by_cases hself : jobId' = jobId
        · rw [if_pos hself, if_pos ⟨rfl, hself⟩]
          exact hinStep.finished (by simp) (by simp) (by simp) (by simp) (some result)
        · rw [if_neg hself, if_neg fun hkey => hself hkey.2]
          exact hinStep
      -- then it is a dependent like any other
      refine hfirst.releasedIf nowMs _ ?_
      rw [h.releaseStatement_iff hjob hleased nowMs result (by rw [← hmarked]; rfl)
        (fun parentId => ?_) hjob', hfirst.state]
      · split <;> rfl
      · refine (hmarkedRows dagId' parentId).trans ?_
        simp
    · rw [if_neg hsame]
      simp only [hsame, false_and, if_false]
      rw [if_neg]
      · exact hinStep
      · simp [releaseStatement, hsame]
  · rw [Database.dags_insertEvent, Database.dags_execute, ← hmarked, Database.dags_execute]
  · rw [Database.dags_insertEvent, Database.dags_execute, ← hmarked,
      Database.dags_execute] at hcancelled
    have hterminal := h.mirrors.cancelled dagId' jobId' job' hcancelled hjob'
    by_cases hsame : dagId' = dagId
    · -- the graph of a leased job is not cancelled
      subst hsame
      have hclosed := h.mirrors.cancelled dagId' jobId job hcancelled hjob
      rw [JobRecord.isTerminal, hleased] at hclosed
      cases hclosed
    · rw [if_neg hsame]
      exact hterminal
  · rw [Database.dependencies_insertEvent, Database.dependencies_execute, ← hmarked,
      Database.dependencies_execute]

/-- A completion succeeds on both sides or on neither, and releases the same children. -/
theorem complete (h : Related sides) {dagId jobId owner token result : String} {uuid : Uuid}
    (hcorresponds : Corresponds sides.names token uuid)
    (htexts : PostgresStore.bindTexts [dagId, jobId, owner, result] = .ok ()) (nowMs : ℤ) :
    report (fun _ => .done) (PostgresStore.complete sides.db dagId jobId owner uuid result
        (milliseconds nowMs)).1 =
      report (fun _ => .done)
        (sides.scheduler.complete dagId jobId owner token result nowMs).1 ∧
    Related ⟨sides.names, (sides.scheduler.complete dagId jobId owner token result nowMs).2,
      (PostgresStore.complete sides.db dagId jobId owner uuid result (milliseconds nowMs)).2⟩ := by
  obtain ⟨specs, hinvariant⟩ := h.invariant
  have hafter := hinvariant.complete dagId jobId owner token result nowMs
  have hiff := h.holds_iff hcorresponds dagId jobId owner nowMs
  rcases Scheduler.complete_cases sides.scheduler dagId jobId owner token result nowMs with
    ⟨job, hjob, hholds, hsize, hcalled⟩ | ⟨hnot, error, hcalled⟩
  · rcases PostgresStore.complete_cases sides.db hsize htexts uuid (milliseconds nowMs) with
      ⟨_, hstored⟩ | ⟨hnone, _⟩
    · obtain ⟨hok, hdags⟩ := Scheduler.dags_complete nowMs result
        (hinvariant.exists_dependent dagId jobId)
      rw [hcalled] at hafter ⊢
      rw [hstored, hok]
      exact ⟨rfl, h.completed hcorresponds hjob hholds hdags ⟨specs, hafter⟩
        ((Scheduler.config_releaseDependents ..).trans h.config)
        (Scheduler.sequence_releaseDependents ..)⟩
    · exact absurd (hiff.mpr ⟨job, hjob, hholds⟩) hnone
  · have hrefused : ∃ error, PostgresStore.complete sides.db dagId jobId owner uuid result
        (milliseconds nowMs) = (.error error, sides.db) := by
      by_cases hsize : result.utf8ByteSize ≤ maxPayloadBytes
      · rcases PostgresStore.complete_cases sides.db hsize htexts uuid (milliseconds nowMs) with
          ⟨hholds, _⟩ | ⟨_, hstored⟩
        · obtain ⟨job, hjob, hholds⟩ := hiff.mp hholds
          exact absurd hsize (hnot job hjob hholds)
        · exact ⟨_, hstored⟩
      · unfold PostgresStore.complete
        rw [if_pos (not_le.mp hsize)]
        exact ⟨_, rfl⟩
    obtain ⟨_, hstored⟩ := hrefused
    rw [hcalled, hstored]
    exact ⟨rfl, h⟩

end Related

end JobOrchestrator
