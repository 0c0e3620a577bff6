import JobOrchestrator.Store.Completion

/-!
# The durable store refines the reference scheduler

A request is sent to both sides, in terms that both understand: a report of a
lease holder carries the token of either side, and a claim the token that the
store will make up.  `store_refines_scheduler`: along every serial run from
related sides, both sides give the same answer to the next admissible request,
release the same jobs, and are related again.
-/

namespace JobOrchestrator

/-- A request to both sides. -/
inductive Request
  | submit (spec : DagSpec)
  | claim (owner : String) (leaseMs : ℤ) (uuid : Uuid)
  | heartbeat (dagId jobId owner token : String) (uuid : Uuid) (leaseMs : ℤ)
  | complete (dagId jobId owner token : String) (uuid : Uuid) (result : String)
  | fail (dagId jobId owner token : String) (uuid : Uuid)
  | reap
  | cancel (dagId : String)

namespace Request

/-- The call of the scheduler. -/
def onScheduler (scheduler : Scheduler) (nowMs : ℤ) : Request → Report × Scheduler
  | .submit spec => (scheduler.submit spec nowMs).map (report fun _ => .done) id
  | .claim owner leaseMs _ => (scheduler.claim owner nowMs leaseMs).map
      (report fun claimed => .claimed (claimed.map ClaimedJob.grant)) id
  | .heartbeat dagId jobId owner token _ leaseMs =>
      (scheduler.heartbeat dagId jobId owner token nowMs leaseMs).map (report fun _ => .done) id
  | .complete dagId jobId owner token _ result =>
      (scheduler.complete dagId jobId owner token result nowMs).map (report fun _ => .done) id
  | .fail dagId jobId owner token _ =>
      (scheduler.fail dagId jobId owner token nowMs).map (report .moved) id
  | .reap => (scheduler.reap nowMs).map .counted id
  | .cancel dagId => (scheduler.cancel dagId).map (report .counted) id

/-- The transaction of the store. -/
def onStore (db : Database) (nowMs : ℤ) : Request → Report × Database
  | .submit spec =>
      (PostgresStore.submit db spec (milliseconds nowMs)).map (report fun _ => .done) id
  | .claim owner leaseMs uuid =>
      (PostgresStore.claim db owner leaseMs uuid (milliseconds nowMs)).map
        (report fun claimed => .claimed (claimed.map StoreClaim.grant)) id
  | .heartbeat dagId jobId owner _ uuid leaseMs =>
      (PostgresStore.heartbeat db dagId jobId owner uuid leaseMs (milliseconds nowMs)).map
        (report fun _ => .done) id
  | .complete dagId jobId owner _ uuid result =>
      (PostgresStore.complete db dagId jobId owner uuid result (milliseconds nowMs)).map
        (report fun _ => .done) id
  | .fail dagId jobId owner _ uuid =>
      (PostgresStore.fail db dagId jobId owner uuid (milliseconds nowMs)).map (report .moved) id
  | .reap => (PostgresStore.reap db (milliseconds nowMs)).map (report .counted) id
  | .cancel dagId => (PostgresStore.cancel db dagId).map (report .counted) id

/-- The tokens after a request: a claim adds the pair that it has issued. -/
def names (sides : Sides) (nowMs : ℤ) : Request → List (String × Uuid)
  | .claim owner leaseMs uuid =>
      namesAfterClaim sides.names uuid (sides.scheduler.claim owner nowMs leaseMs).1
  | _ => sides.names

/-- The texts have no NUL, the times do not saturate, and the sides do not
differ for one of the known reasons: repeated edges, the admission limits that
only the scheduler has, and the order of claims. -/
def Admissible (sides : Sides) (nowMs : ℤ) : Request → Prop
  | .submit spec => (∀ job ∈ spec.jobs, hasNul job.payload = false) ∧ spec.dependencies.Nodup ∧
      (sides.scheduler.submit spec nowMs).1 ≠ .error .overloaded
  | .claim owner leaseMs uuid => hasNul owner = false ∧ I64.InRange (nowMs + leaseMs) ∧
      sides.scheduler.sequence < 2 ^ 64 - 1 ∧ (∀ token, (token, uuid) ∉ sides.names) ∧
      ∀ first second, (sides.scheduler.claim owner nowMs leaseMs).1 = .ok first →
        (PostgresStore.claim sides.db owner leaseMs uuid (milliseconds nowMs)).1 = .ok second →
        first.map (fun claimed => (claimed.dagId, claimed.jobId)) =
          second.map fun claimed => (claimed.dagId, claimed.jobId)
  | .heartbeat dagId jobId owner token uuid leaseMs => Corresponds sides.names token uuid ∧
      (∀ text ∈ [dagId, jobId, owner], hasNul text = false) ∧ I64.InRange (nowMs + leaseMs)
  | .complete dagId jobId owner token uuid result => Corresponds sides.names token uuid ∧
      ∀ text ∈ [dagId, jobId, owner, result], hasNul text = false
  | .fail dagId jobId owner token uuid => Corresponds sides.names token uuid ∧
      ∀ text ∈ [dagId, jobId, owner], hasNul text = false
  | .reap => True
  | .cancel dagId => hasNul dagId = false

end Request

/-- Both sides after a request. -/
def Sides.after (sides : Sides) (nowMs : ℤ) (request : Request) : Sides where
  names := request.names sides nowMs
  scheduler := (request.onScheduler sides.scheduler nowMs).2
  db := (request.onStore sides.db nowMs).2

/-- Admissible requests, one after the other, at any times. -/
inductive SerialRun (start : Sides) : Sides → Prop
  | start : SerialRun start start
  | step {sides : Sides} (nowMs : ℤ) (request : Request) : SerialRun start sides →
      request.Admissible sides nowMs → SerialRun start (sides.after nowMs request)

/-- One request to related sides. -/
theorem Related.step {sides : Sides} (h : Related sides) {nowMs : ℤ} {request : Request}
    (hadmissible : request.Admissible sides nowMs) :
    (request.onStore sides.db nowMs).1 = (request.onScheduler sides.scheduler nowMs).1 ∧
      Related (sides.after nowMs request) := by
  cases request with
  | submit spec =>
      obtain ⟨hnul, hnodup, hroom⟩ := hadmissible
      exact h.submit hnul hnodup hroom
  | claim owner leaseMs uuid =>
      obtain ⟨hnul, hrange, hsequence, hfresh, hsame⟩ := hadmissible
      exact h.claim hnul hrange hsequence hfresh hsame
  | heartbeat dagId jobId owner token uuid leaseMs =>
      obtain ⟨hcorresponds, hnul, hrange⟩ := hadmissible
      exact h.heartbeat hcorresponds (PostgresStore.bindTexts_eq_ok_iff.mpr hnul) hrange
  | complete dagId jobId owner token uuid result =>
      obtain ⟨hcorresponds, hnul⟩ := hadmissible
      exact h.complete hcorresponds (PostgresStore.bindTexts_eq_ok_iff.mpr hnul) nowMs
  | fail dagId jobId owner token uuid =>
      obtain ⟨hcorresponds, hnul⟩ := hadmissible
      exact h.fail hcorresponds (PostgresStore.bindTexts_eq_ok_iff.mpr hnul) nowMs
  | reap =>
      obtain ⟨hcount, hrelated⟩ := h.reap nowMs
      exact ⟨congrArg Report.counted hcount, hrelated⟩
  | cancel dagId => exact h.cancel hadmissible

/-- The jobs that go from pending to ready, on the side of the scheduler. -/
def Scheduler.Releases (before after : Scheduler) (dagId jobId : String) : Prop :=
  (before.job? dagId jobId).map JobRecord.state = some .pending ∧
    (after.job? dagId jobId).map JobRecord.state = some .ready

/-- The jobs that go from pending to ready, on the side of the store. -/
def Database.Releases (before after : Database) (dagId jobId : String) : Prop :=
  (before.jobs.get? (dagId, jobId)).map JobRow.state = some .pending ∧
    (after.jobs.get? (dagId, jobId)).map JobRow.state = some .ready

theorem Mirrors.state_eq {names : List (String × Uuid)} {scheduler : Scheduler} {db : Database}
    (h : Mirrors names scheduler db) (dagId jobId : String) :
    (db.jobs.get? (dagId, jobId)).map JobRow.state =
      (scheduler.job? dagId jobId).map JobRecord.state := by
  have hrel := h.job dagId jobId
  generalize scheduler.job? dagId jobId = job? at hrel ⊢
  generalize db.jobs.get? (dagId, jobId) = row? at hrel ⊢
  cases hrel with
  | none => rfl
  | some hsame => exact congrArg some hsame.state

theorem SerialRun.related {start sides : Sides} (hrun : SerialRun start sides)
    (hstart : Related start) : Related sides := by
  induction hrun with
  | start => exact hstart
  | step nowMs request _ hadmissible ih => exact (ih.step hadmissible).2

/-- The durable store refines the reference scheduler on serial runs: from
related sides on, an admissible request is answered alike, releases the same
jobs, and leads to related sides. -/
theorem store_refines_scheduler {start : Sides} (hstart : Related start) {sides : Sides}
    (hrun : SerialRun start sides) :
    Related sides ∧ ∀ nowMs (request : Request), request.Admissible sides nowMs →
      (request.onStore sides.db nowMs).1 = (request.onScheduler sides.scheduler nowMs).1 ∧
      (∀ dagId jobId, sides.db.Releases (request.onStore sides.db nowMs).2 dagId jobId ↔
        sides.scheduler.Releases (request.onScheduler sides.scheduler nowMs).2 dagId jobId) ∧
      Related (sides.after nowMs request) := by
  have hrelated := hrun.related hstart
  refine ⟨hrelated, fun nowMs request hadmissible => ?_⟩
  obtain ⟨hreport, hafter⟩ := hrelated.step hadmissible
  refine ⟨hreport, fun dagId jobId => ?_, hafter⟩
  have hbefore := hrelated.mirrors.state_eq dagId jobId
  have hstate := hafter.mirrors.state_eq dagId jobId
  unfold Sides.after at hstate
  unfold Database.Releases Scheduler.Releases
  rw [hbefore, hstate]

/-! ## A chain of two jobs -/

def chainSpec : DagSpec where
  id := "chain"
  jobs := [⟨"first", .uppercase, "", 1, 0⟩, ⟨"second", .uppercase, "", 1, 0⟩]
  dependencies := [⟨"first", "second"⟩]

/-- Both sides hold the chain. -/
def submittedSides : Sides :=
  Sides.after ⟨[], Scheduler.new .default, .empty⟩ 0 (.submit chainSpec)

/-- And a worker has claimed its first job. -/
def claimedSides : Sides := submittedSides.after 10 (.claim "worker" 1000 7)

theorem run_claimedSides : SerialRun ⟨[], Scheduler.new .default, .empty⟩ claimedSides := by
  refine .step 10 (.claim "worker" 1000 7) (.step 0 (.submit chainSpec) .start
    ⟨by decide, by decide, by decide⟩)
    ⟨by decide, by decide, by decide, fun _ h => (by cases h),
      fun first second hfirst hsecond => ?_⟩
  have hcalled : (submittedSides.scheduler.claim "worker" 10 1000).1 =
      .ok (some ⟨"chain", "first", .uppercase, "", 1, "lease-chain-first-1", 1010⟩) := by decide
  have hstored : (PostgresStore.claim submittedSides.db "worker" 1000 7 (milliseconds 10)).1 =
      .ok (some ⟨"chain", "first", .uppercase, "", 1, 7, 1010⟩) := by decide
  cases hfirst.symm.trans hcalled
  cases hsecond.symm.trans hstored
  rfl

/-- The completion of the first job releases the second one on both sides. -/
theorem store_refines_scheduler_chain :
    (Request.onStore claimedSides.db 500
      (.complete "chain" "first" "worker" "lease-chain-first-1" 7 "done")).1 = .done ∧
    claimedSides.db.Releases (Request.onStore claimedSides.db 500
      (.complete "chain" "first" "worker" "lease-chain-first-1" 7 "done")).2 "chain" "second" := by
  have hnamed : claimedSides.names = [("lease-chain-first-1", 7)] := by decide
  obtain ⟨hreport, hreleases, _⟩ := (store_refines_scheduler Related.new run_claimedSides).2 500
    (.complete "chain" "first" "worker" "lease-chain-first-1" 7 "done")
    ⟨.inl (by rw [hnamed]; exact List.mem_singleton_self _), by decide⟩
  rw [hreport, hreleases]
  exact ⟨by decide, by decide, by decide⟩

end JobOrchestrator
