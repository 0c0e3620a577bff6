import JobOrchestrator.Http.Pagination
import JobOrchestrator.Store.Encoding
import JobOrchestrator.Store.Refinement

/-!
# Reading a graph

`PostgresStore::snapshot` makes two statements outside a transaction: one asks
whether the graph exists, the other one selects its jobs, and each sees the rows
committed at its own moment.  `snapshots_agree` extends the refinement to readers:
along serial runs the store shows of every graph what the reference scheduler
shows, although other requests may come between the two statements.
-/

namespace JobOrchestrator

/-! ## The two statements -/

/-- The rows of a graph with their identifiers. -/
def rowsOf (dagId : String) (jobs : List ((String × String) × JobRow)) :
    List (String × JobRow) :=
  jobs.filterMap fun entry => if entry.1.1 = dagId then some (entry.1.2, entry.2) else none

/-- `SELECT … FROM jobs WHERE dag_id = $1 ORDER BY id` -/
def selectJobs (collation : Collation) (dagId : String)
    (jobs : List ((String × String) × JobRow)) : List SelectedJob :=
  (Sorting.sortBy collation.lt Prod.fst (rowsOf dagId jobs)).map fun row => row.2.selected row.1

/-- The answer from what the two statements have found. -/
def answerSnapshot (collation : Collation) (dagId : String) (known : Bool)
    (jobs : List ((String × String) × JobRow)) : Except StoreError DagSnapshot :=
  if !known then .error .notFound
  else do
    let jobs ← (selectJobs collation dagId jobs).mapM SelectedJob.decode
    .ok ⟨dagId, jobs⟩

/-- Reads one DAG and its jobs in stable order; `second` is what the second
statement sees. -/
def PostgresStore.snapshot (collation : Collation) (first second : Database) (dagId : String) :
    Except StoreError DagSnapshot := do
  bindTexts [dagId]
  answerSnapshot collation dagId (first.dags.contains dagId) second.jobs.entries

theorem mem_rowsOf {dagId jobId : String} {row : JobRow}
    {jobs : List ((String × String) × JobRow)} :
    (jobId, row) ∈ rowsOf dagId jobs ↔ ((dagId, jobId), row) ∈ jobs := by
  simp only [rowsOf, List.mem_filterMap]
  constructor
  · rintro ⟨entry, hentry, hsome⟩
    split at hsome
    next hdag =>
      cases hsome
      subst hdag
      exact hentry
    · cases hsome
  · exact fun hentry => ⟨_, hentry, by simp⟩

theorem nodup_rowsOf {dagId : String} {jobs : List ((String × String) × JobRow)}
    (hkeys : (jobs.map Prod.fst).Nodup) : ((rowsOf dagId jobs).map Prod.fst).Nodup := by
  induction jobs with
  | nil => exact List.nodup_nil
  | cons entry rest ih =>
      rw [List.map_cons, List.nodup_cons] at hkeys
      have hrest := ih hkeys.2
      unfold rowsOf
      rw [List.filterMap_cons]
      split
      next hnone => exact hrest
      next row hrow =>
        split at hrow
        next hdag =>
          cases hrow
          refine List.nodup_cons.mpr ⟨fun hmem => hkeys.1 ?_, hrest⟩
          obtain ⟨other, hother, hid⟩ := List.mem_map.mp hmem
          have hlisted := mem_rowsOf.mp (show (other.1, other.2) ∈ rowsOf dagId rest from hother)
          have hkey : (dagId, other.1) = entry.1 := Prod.ext hdag.symm hid
          exact hkey ▸ List.mem_map_of_mem (f := Prod.fst) hlisted
        · cases hrow

theorem mapM_eq_ok {ε α β : Type} {f : α → Except ε β} {g : α → β} {items : List α}
    (h : ∀ item ∈ items, f item = .ok (g item)) : items.mapM f = .ok (items.map g) := by
  induction items with
  | nil => rfl
  | cons item rest ih =>
      rw [List.mapM_cons, h item List.mem_cons_self,
        ih fun other hother => h other (List.mem_cons_of_mem _ hother)]
      rfl

/-- Rows with counters in range are read as they are, each once and in ascending order. -/
theorem answerSnapshot_known (collation : Collation) (dagId : String)
    {jobs : List ((String × String) × JobRow)} (hkeys : (jobs.map Prod.fst).Nodup)
    (hcounts : ∀ jobId row, ((dagId, jobId), row) ∈ jobs →
      row.attempts < 2 ^ 16 ∧ row.maxAttempts < 2 ^ 16) :
    ∃ items, answerSnapshot collation dagId true jobs = .ok ⟨dagId, items⟩ ∧
      items.Pairwise (fun first second => collation.lt first.id second.id) ∧
      ∀ item, item ∈ items ↔ ∃ jobId row, ((dagId, jobId), row) ∈ jobs ∧
        item = row.snapshot jobId := by
  let sorted := Sorting.sortBy collation.lt Prod.fst (rowsOf dagId jobs)
  have hdecode : ∀ row ∈ sorted,
      (row.2.selected row.1).decode = .ok (row.2.snapshot row.1) := by
    intro row hrow
    obtain ⟨hattempts, hmax⟩ :=
      hcounts row.1 row.2 (mem_rowsOf.mp (Sorting.mem_sortBy.mp hrow))
    exact JobRow.decode_selected hattempts hmax row.1
  refine ⟨sorted.map fun row => row.2.snapshot row.1, ?_, ?_, fun item => ?_⟩
  · have hread : (selectJobs collation dagId jobs).mapM SelectedJob.decode =
        .ok (sorted.map fun row => row.2.snapshot row.1) := by
      unfold selectJobs
      rw [List.mapM_map]
      exact mapM_eq_ok hdecode
    simp only [answerSnapshot, hread, Bool.not_true, Bool.false_eq_true, if_false]
    rfl
  · exact List.pairwise_map.mpr (Sorting.pairwise_sortBy (nodup_rowsOf hkeys))
  · simp only [sorted, List.mem_map, Sorting.mem_sortBy, Prod.exists, mem_rowsOf]
    constructor
    · rintro ⟨jobId, row, hrow, rfl⟩
      exact ⟨jobId, row, hrow, rfl⟩
    · rintro ⟨jobId, row, hrow, rfl⟩
      exact ⟨jobId, row, hrow, rfl⟩

/-! ## Both sides -/

/-- What both sides know of an item: its numbers as the `i64` that they are, and the
time of availability while it is settled; only the scheduler adds jitter to a retry. -/
def JobSnapshot.shared (item : JobSnapshot) : JobSnapshot :=
  { item with
    availableAtMs :=
      if item.state = .pending ∨ item.state = .ready then I64.clamp item.availableAtMs else 0
    leaseExpiresAtMs := item.leaseExpiresAtMs.map I64.clamp }

theorem unixMillis_milliseconds (time : ℤ) :
    PostgresStore.unixMillis (milliseconds time) = I64.clamp time := by
  have hexact : (milliseconds time * 1000).tdiv 1000000 = time := by
    rw [show milliseconds time * 1000 = time * 1000000 by unfold milliseconds; ring]
    exact Int.mul_tdiv_cancel time (by decide)
  rw [PostgresStore.unixMillis, hexact]

theorem InStep.shared_eq {names : List (String × Uuid)} {job : JobRecord} {row : JobRow}
    (h : InStep names job row) :
    (row.snapshot job.spec.id).shared = job.snapshot.shared := by
  have hclamp : ∀ time, I64.clamp (I64.clamp time) = I64.clamp time := fun time =>
    I64.clamp_of_inRange ⟨by unfold I64.clamp; exact le_max_left _ _, by
      unfold I64.clamp
      exact max_le (by decide) (min_le_left _ _)⟩
  have havailable : (if row.state = .pending ∨ row.state = .ready then
        I64.clamp (PostgresStore.unixMillis row.availableAt) else 0) =
      if job.state = .pending ∨ job.state = .ready then I64.clamp job.availableAtMs else 0 := by
    rw [h.state]
    by_cases hopen : job.state = .pending ∨ job.state = .ready
    · rw [if_pos hopen, if_pos hopen, h.available hopen, unixMillis_milliseconds, hclamp]
    · rw [if_neg hopen, if_neg hopen]
  have hexpires : (row.leaseExpiresAt.map PostgresStore.unixMillis).map I64.clamp =
      (job.lease.map Lease.expiresAtMs).map I64.clamp := by
    rw [h.leaseExpiresAt]
    cases job.lease with
    | none => rfl
    | some lease =>
        simp only [Option.map_some, unixMillis_milliseconds, hclamp]
  unfold JobSnapshot.shared JobRow.snapshot JobRecord.snapshot
  simp only
  rw [havailable, hexpires, h.state, h.attempts, h.maxAttempts, h.leaseOwner, h.result]

/-- The call of the scheduler as an operation. -/
def Request.operation (nowMs : ℤ) : Request → Operation
  | .submit spec => .submit spec nowMs
  | .claim owner leaseMs _ => .claim owner nowMs leaseMs
  | .heartbeat dagId jobId owner token _ leaseMs => .heartbeat dagId jobId owner token nowMs leaseMs
  | .complete dagId jobId owner token _ result => .complete dagId jobId owner token result nowMs
  | .fail dagId jobId owner token _ => .fail dagId jobId owner token nowMs
  | .reap => .reap nowMs
  | .cancel dagId => .cancel dagId

theorem Request.onScheduler_eq_perform (scheduler : Scheduler) (nowMs : ℤ) (request : Request) :
    (request.onScheduler scheduler nowMs).2 = ((request.operation nowMs).perform scheduler).2 := by
  cases request <;> rfl

theorem SerialRun.known {start sides : Sides} (hrun : SerialRun start sides)
    (hstart : Related start) {dagId : String}
    (hknown : start.scheduler.dags.contains dagId = true) :
    sides.scheduler.dags.contains dagId = true := by
  induction hrun with
  | start => exact hknown
  | step nowMs request hrun _ ih =>
      obtain ⟨specs, hinvariant⟩ := (hrun.related hstart).invariant
      obtain ⟨dag, hdag⟩ := Option.isSome_iff_exists.mp ih
      simp only [Sides.after, Request.onScheduler_eq_perform, Table.contains,
        Scheduler.perform_dag hinvariant _ hdag, Option.isSome_some]

theorem Related.shared_perm {sides : Sides} (h : Related sides) {dagId : String}
    {viewed stored : List JobSnapshot}
    (hviewed : viewed.Pairwise fun first second => first.id < second.id)
    (hviewedMem : ∀ item, item ∈ viewed ↔ ∃ jobId job,
      sides.scheduler.job? dagId jobId = some job ∧ item = job.snapshot ∧ item.id = jobId)
    {lt : String → String → Prop} [IsStrictTotalOrder String lt]
    (hstored : stored.Pairwise fun first second => lt first.id second.id)
    (hstoredMem : ∀ item, item ∈ stored ↔ ∃ jobId row,
      ((dagId, jobId), row) ∈ sides.db.jobs.entries ∧ item = row.snapshot jobId) :
    (stored.map JobSnapshot.shared).Perm (viewed.map JobSnapshot.shared) := by
  have hnodup : ∀ {items : List JobSnapshot} {r : String → String → Prop},
      (∀ id, ¬r id id) → items.Pairwise (fun first second => r first.id second.id) →
      (items.map JobSnapshot.shared).Nodup := by
    intro items r hirrefl hitems
    refine List.pairwise_map.mpr (hitems.imp fun {first second} hlt hsame => ?_)
    have hshared : first.shared.id = second.shared.id := congrArg JobSnapshot.id hsame
    have hid : first.id = second.id := hshared
    exact hirrefl second.id (hid ▸ hlt)
  rw [List.perm_ext_iff_of_nodup (hnodup (irrefl_of lt) hstored) (hnodup lt_irrefl hviewed)]
  intro shown
  simp only [List.mem_map, hstoredMem, hviewedMem, Table.mem_entries]
  constructor
  · rintro ⟨_, ⟨jobId, row, hrow, rfl⟩, rfl⟩
    obtain ⟨job, hjob, -⟩ := h.mirrors.exists_record hrow
    obtain ⟨specs, hinvariant⟩ := h.invariant
    have hid := (hinvariant.valid_spec hjob).2
    refine ⟨job.snapshot, ⟨jobId, job, hjob, rfl, hid⟩, ?_⟩
    rw [← (h.inStep _ _ _ _ hjob hrow).shared_eq, hid]
  · rintro ⟨_, ⟨jobId, job, hjob, rfl, hid⟩, rfl⟩
    obtain ⟨row, hrow, -⟩ := h.mirrors.exists_row hjob
    have hid : job.spec.id = jobId := hid
    exact ⟨row.snapshot jobId, ⟨jobId, row, hrow, rfl⟩, by
      rw [← (h.inStep _ _ _ _ hjob hrow).shared_eq, hid]⟩

/-- Readers cannot tell the store from the reference scheduler.  Along serial runs
from related sides, let the first statement of the snapshot see the database at one
moment and the second one at a later moment: the answer is that the graph is not
found, if the scheduler did not know it at the first moment, and otherwise it shows
the items that the scheduler shows at the second moment, in ascending order under
the collation of the database; by code points it is the same list. -/
theorem snapshots_agree {start : Sides} (hstart : Related start) {before sides : Sides}
    (hbefore : SerialRun start before) (hrun : SerialRun before sides) (collation : Collation)
    {dagId : String} (hnul : hasNul dagId = false) :
    (before.scheduler.snapshot dagId = .error .dagNotFound ∧
      PostgresStore.snapshot collation before.db sides.db dagId = .error .notFound) ∨
    ∃ viewed stored, sides.scheduler.snapshot dagId = .ok ⟨dagId, viewed⟩ ∧
      PostgresStore.snapshot collation before.db sides.db dagId = .ok ⟨dagId, stored⟩ ∧
      stored.Pairwise (fun first second => collation.lt first.id second.id) ∧
      (stored.map JobSnapshot.shared).Perm (viewed.map JobSnapshot.shared) ∧
      (collation = .codePoints →
        stored.map JobSnapshot.shared = viewed.map JobSnapshot.shared) := by
  have hrelatedBefore := hbefore.related hstart
  have hrelated := hrun.related hrelatedBefore
  have hbind : PostgresStore.bindTexts [dagId] = .ok () :=
    PostgresStore.bindTexts_eq_ok_iff.mpr (List.forall_mem_singleton.mpr hnul)
  have hstore : PostgresStore.snapshot collation before.db sides.db dagId =
      answerSnapshot collation dagId (before.scheduler.dags.contains dagId)
        sides.db.jobs.entries := by
    rw [PostgresStore.snapshot, hbind, hrelatedBefore.mirrors.dag]
    rfl
  rw [hstore]
  obtain ⟨specsBefore, hinvariantBefore⟩ := hrelatedBefore.invariant
  obtain ⟨specs, hinvariant⟩ := hrelated.invariant
  by_cases hknown : before.scheduler.dags.contains dagId = true
  · right
    rw [hknown]
    have hcounts : ∀ jobId row, ((dagId, jobId), row) ∈ sides.db.jobs.entries →
        row.attempts < 2 ^ 16 ∧ row.maxAttempts < 2 ^ 16 := by
      intro jobId row hrow
      have hlookup := Table.mem_entries.mp hrow
      obtain ⟨job, hjob, -⟩ := hrelated.mirrors.exists_record hlookup
      have hstep := hrelated.inStep _ _ _ _ hjob hlookup
      have hle := hstep.attempts_le
      have hbudget := hstep.budget
      rw [hstep.attempts, hstep.maxAttempts]
      omega
    obtain ⟨stored, hanswer, hascending, hstoredMem⟩ :=
      answerSnapshot_known collation dagId sides.db.jobs.nodupKeys hcounts
    rcases Scheduler.snapshot_cases hinvariant dagId with
      ⟨hnone, -⟩ | ⟨viewed, -, hview, hviewed, hviewedMem⟩
    · -- a graph that was known is known
      have hstill := hrun.known hrelatedBefore hknown
      rw [Table.contains, hnone] at hstill
      cases hstill
    · have hperm := hrelated.shared_perm hviewed hviewedMem hascending hstoredMem
      refine ⟨viewed, stored, hview, hanswer, hascending, hperm, ?_⟩
      rintro rfl
      have hshared : ∀ {items : List JobSnapshot},
          items.Pairwise (fun first second => first.id < second.id) →
          (items.map JobSnapshot.shared).Pairwise fun first second => first.id < second.id :=
        fun hitems => List.pairwise_map.mpr hitems
      exact Sorting.eq_of_ascending (hshared hascending) (hshared hviewed) hperm
  · left
    rcases Scheduler.snapshot_cases hinvariantBefore dagId with
      ⟨-, hnotFound⟩ | ⟨_, hcontains, -⟩
    · refine ⟨hnotFound, ?_⟩
      rw [Bool.not_eq_true] at hknown
      rw [hknown]
      rfl
    · exact absurd hcontains hknown

/-- After the claim both sides show the first job leased and the second one pending. -/
theorem snapshots_agree_chain : ∃ viewed stored,
    claimedSides.scheduler.snapshot "chain" = .ok ⟨"chain", viewed⟩ ∧
    PostgresStore.snapshot .codePoints claimedSides.db claimedSides.db "chain" =
      .ok ⟨"chain", stored⟩ ∧
    stored.map JobSnapshot.shared = viewed.map JobSnapshot.shared ∧
    viewed.map JobSnapshot.state = [.leased, .pending] := by
  rcases snapshots_agree Related.new run_claimedSides .start .codePoints
    (show hasNul "chain" = false by decide) with
    ⟨hnotFound, -⟩ | ⟨viewed, stored, hviewed, hstored, -, -, hsame⟩
  · have hshown : (claimedSides.scheduler.snapshot "chain").isOk = true := by decide
    rw [hnotFound] at hshown
    cases hshown
  · refine ⟨viewed, stored, hviewed, hstored, hsame rfl, ?_⟩
    have hstates : (claimedSides.scheduler.snapshot "chain").toOption.map
        (fun view => view.jobs.map JobSnapshot.state) = some [.leased, .pending] := by decide
    rw [hviewed] at hstates
    exact Option.some.inj hstates

end JobOrchestrator
