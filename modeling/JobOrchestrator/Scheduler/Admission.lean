import JobOrchestrator.Domain.Kahn
import JobOrchestrator.Scheduler.Effects

/-!
# What `submit` admits

`submit_cases`: a submission is rejected without any change, or it inserts one
graph record that is `Built` from the spec, in which every job carries its
in-degree and is ready exactly when the in-degree is zero, and pushes one heap
entry for each ready job.
-/

namespace JobOrchestrator

open Digraph

/-- What every graph record keeps of the spec it was built from. -/
structure DagRecord.Built (spec : DagSpec) (dag : DagRecord) : Prop where
  keys : dag.jobs.keys = spec.jobIds
  record : ∀ jobId job, dag.jobs.get? jobId = some job → job.spec ∈ spec.jobs ∧ job.spec.id = jobId
  dependents : ∀ jobId, (listAt dag.dependents jobId).Perm (childrenOf spec.edges jobId)

theorem DagRecord.Built.jobIds_nodup {spec : DagSpec} {dag : DagRecord} (h : dag.Built spec) :
    spec.jobIds.Nodup := by
  rw [← h.keys]
  exact dag.jobs.nodupKeys

theorem DagRecord.Built.exists_record {spec : DagSpec} {dag : DagRecord} (h : dag.Built spec)
    {job : JobSpec} (hjob : job ∈ spec.jobs) :
    ∃ record, dag.jobs.get? job.id = some record ∧ record.spec = job := by
  have hkey : job.id ∈ dag.jobs.keys := by
    rw [h.keys]
    exact List.mem_map_of_mem hjob
  obtain ⟨record, hlookup⟩ := Table.mem_keys.mp hkey
  obtain ⟨hmem, hid⟩ := h.record job.id record hlookup
  exact ⟨record, hlookup, List.inj_on_of_nodup_map h.jobIds_nodup hmem hjob hid⟩

/-- The in-degree of a job in its spec, repeated edges counted. -/
def DagSpec.inDegree (spec : DagSpec) (jobId : String) : ℕ :=
  openInDegree spec.edges (fun _ => true) jobId

/-- The record of a job right after admission. -/
def DagSpec.initialRecord (spec : DagSpec) (nowMs : ℤ) (job : JobSpec) : JobRecord where
  spec := job
  state := if spec.inDegree job.id = 0 then .ready else .pending
  attempts := 0
  availableAtMs := nowMs
  remainingDependencies := spec.inDegree job.id
  lease := none
  result := none

namespace Scheduler

theorem countEdges_get? (dependencies : List Dependency) (counts : Table String ℕ)
    (dependents : Table String (List String)) (key : String) :
    (countEdges dependencies counts dependents).1.get? key =
      (counts.get? key).map (· + dependencies.countP fun edge => edge.toId == key) := by
  induction dependencies generalizing counts dependents with
  | nil => simp [countEdges]
  | cons edge rest ih =>
      rw [countEdges, ih, Table.get?_modify, List.countP_cons]
      by_cases hkey : key = edge.toId
      · subst hkey
        simp only [if_true, Option.map_map, beq_self_eq_true]
        congr 1
        funext count
        simp only [Function.comp_apply]
        omega
      · simp [hkey, Ne.symm hkey]

theorem listAt_countEdges (dependencies : List Dependency) (counts : Table String ℕ)
    (dependents : Table String (List String)) (key : String) :
    listAt (countEdges dependencies counts dependents).2 key = listAt dependents key ++
      childrenOf (dependencies.map fun edge => (edge.fromId, edge.toId)) key := by
  induction dependencies generalizing counts dependents with
  | nil => simp [countEdges, childrenOf]
  | cons edge rest ih =>
      rw [countEdges, ih, listAt_pushAt]
      by_cases hkey : key = edge.fromId
      · subst hkey
        simp [childrenOf]
      · simp [childrenOf, hkey, Ne.symm hkey]

theorem zeroCounts_get? (jobs : List JobSpec) (key : String) :
    (zeroCounts jobs).get? key = if key ∈ jobs.map JobSpec.id then some 0 else none := by
  suffices ∀ counts : Table String ℕ,
      (jobs.foldl (fun counts job => counts.insert job.id 0) counts).get? key =
        if key ∈ jobs.map JobSpec.id then some 0 else counts.get? key from this .empty
  induction jobs with
  | nil => simp
  | cons job rest ih =>
      intro counts
      rw [List.foldl_cons, ih, Table.get?_insert]
      by_cases hrest : key ∈ rest.map JobSpec.id
      · simp only [List.map_cons, List.mem_cons, hrest, or_true, if_true]
      · by_cases hkey : key = job.id <;> simp [hrest, hkey]

theorem counts_get? {spec : DagSpec} {job : JobSpec} (hjob : job ∈ spec.jobs) :
    (countEdges spec.dependencies (zeroCounts spec.jobs) .empty).1.get? job.id =
      some (spec.inDegree job.id) := by
  rw [countEdges_get?, zeroCounts_get?, if_pos (List.mem_map_of_mem hjob), Option.map_some,
    Nat.zero_add, DagSpec.inDegree, openInDegree, DagSpec.edges, List.countP_map]
  congr 2
  funext edge
  simp

theorem listAt_mapValues_sortIds (table : Table String (List String)) (key : String) :
    listAt (table.mapValues fun _ values => sortIds values) key = sortIds (listAt table key) := by
  unfold listAt
  rw [Table.get?_mapValues]
  cases table.get? key <;> rfl

/-- The loop over the jobs enters one record for each of them. -/
theorem admitJobs_get? (dagId : String) (counts : Table String ℕ) (nowMs : ℤ)
    {jobs : List JobSpec} (hnodup : (jobs.map JobSpec.id).Nodup) (table : Table String JobRecord)
    (ready : MinHeap ReadyKey) (hfresh : ∀ job ∈ jobs, table.get? job.id = none) :
    (admitJobs dagId counts nowMs jobs table ready).1.keys =
        table.keys ++ jobs.map JobSpec.id ∧
      ∀ key record, (admitJobs dagId counts nowMs jobs table ready).1.get? key = some record ↔
        table.get? key = some record ∨
          ∃ job ∈ jobs, job.id = key ∧ record = admittedRecord counts nowMs job := by
  induction jobs generalizing table ready with
  | nil => simp [admitJobs]
  | cons job rest ih =>
      obtain ⟨hnew, hrest⟩ := List.nodup_cons.mp hnodup
      have habsent := hfresh job List.mem_cons_self
      have hne : ∀ other ∈ rest, other.id ≠ job.id := fun other hother hid =>
        hnew (hid ▸ List.mem_map_of_mem (f := JobSpec.id) hother)
      obtain ⟨hkeys, hget⟩ := ih hrest (table.insert job.id (admittedRecord counts nowMs job))
        (if (admittedRecord counts nowMs job).state = .ready then
          ready.push (readyKey dagId job nowMs) else ready)
        (fun other hother => by
          rw [Table.get?_insert_of_ne _ _ (hne other hother)]
          exact hfresh other (List.mem_cons_of_mem _ hother))
      rw [admitJobs]
      refine ⟨by simp [hkeys, Table.keys_insert_of_get?_eq_none _ _ habsent], fun key record => ?_⟩
      rw [hget, Table.get?_insert]
      by_cases hkey : key = job.id
      · subst hkey
        simp [habsent, eq_comm]
      · simp [hkey, Ne.symm hkey]

theorem admitJobs_ready (dagId : String) (counts : Table String ℕ) (nowMs : ℤ)
    (jobs : List JobSpec) (table : Table String JobRecord) (ready : MinHeap ReadyKey) :
    (admitJobs dagId counts nowMs jobs table ready).2.entries.Perm
      (((jobs.filter fun job => (admittedRecord counts nowMs job).state = .ready).map
        fun job => readyKey dagId job nowMs) ++ ready.entries) := by
  induction jobs generalizing table ready with
  | nil => simp [admitJobs]
  | cons job rest ih =>
      rw [admitJobs]
      by_cases hready : (admittedRecord counts nowMs job).state = .ready
      · refine (ih _ _).trans ?_
        simp only [hready, if_true, decide_true, List.filter_cons_of_pos, List.map_cons,
          List.cons_append]
        refine ((MinHeap.entries_push_perm ready _).append_left _).trans ?_
        exact List.perm_middle
      · refine (ih _ _).trans ?_
        simp [hready]

theorem admittedRecord_eq {spec : DagSpec} {job : JobSpec} (hjob : job ∈ spec.jobs) (nowMs : ℤ) :
    admittedRecord (countEdges spec.dependencies (zeroCounts spec.jobs) .empty).1 nowMs job =
      spec.initialRecord nowMs job := by
  simp only [admittedRecord, counts_get? hjob, Option.getD_some, DagSpec.initialRecord]

/-- What an accepted submission adds. -/
structure Admitted (spec : DagSpec) (nowMs : ℤ) (before after : Scheduler) (dag : DagRecord) :
    Prop where
  fresh : before.dags.get? spec.id = none
  dags : after.dags = before.dags.insert spec.id dag
  config : after.config = before.config
  sequence : after.sequence = before.sequence
  built : dag.Built spec
  records : ∀ jobId record, dag.jobs.get? jobId = some record →
    record = spec.initialRecord nowMs record.spec
  ready : after.ready.entries.Perm
    (((spec.jobs.filter fun job => spec.inDegree job.id = 0).map
      fun job => readyKey spec.id job nowMs) ++ before.ready.entries)

/-- A submission either admits a valid spec under a new identifier or changes nothing. -/
theorem submit_cases (scheduler : Scheduler) (spec : DagSpec) (nowMs : ℤ) :
    (∃ order dag, spec.validate = .ok order ∧ (scheduler.submit spec nowMs).1 = .ok () ∧
      Admitted spec nowMs scheduler (scheduler.submit spec nowMs).2 dag) ∨
    ∃ error, scheduler.submit spec nowMs = (.error error, scheduler) := by
  unfold submit
  cases hvalidate : spec.validate with
  | error error => exact .inr ⟨_, rfl⟩
  | ok order =>
      have accepted := accepted_of_validate hvalidate
      dsimp only
      split
      · exact .inr ⟨_, rfl⟩
      next hfresh =>
        split
        · exact .inr ⟨_, rfl⟩
        · split
          · exact .inr ⟨_, rfl⟩
          · obtain ⟨hkeys, hget⟩ := admitJobs_get? spec.id
              (countEdges spec.dependencies (zeroCounts spec.jobs) .empty).1 nowMs
              accepted.jobIds_nodup .empty scheduler.ready (fun _ _ => rfl)
            have hrecord : ∀ jobId record,
                (admitJobs spec.id (countEdges spec.dependencies (zeroCounts spec.jobs) .empty).1
                  nowMs spec.jobs .empty scheduler.ready).1.get? jobId = some record →
                record.spec ∈ spec.jobs ∧ record.spec.id = jobId ∧
                  record = spec.initialRecord nowMs record.spec := by
              intro jobId record hlookup
              rcases (hget jobId record).mp hlookup with hnone | ⟨job, hjob, hid, hrecord⟩
              · simp at hnone
              · rw [admittedRecord_eq hjob] at hrecord
                subst hrecord
                exact ⟨hjob, hid, rfl⟩
            refine .inl ⟨order, _, rfl, rfl, ⟨Table.not_contains_iff.mp hfresh, rfl, rfl, rfl,
              ⟨hkeys, ?_, ?_⟩, ?_, ?_⟩⟩
            · exact fun jobId record hlookup =>
                ⟨(hrecord jobId record hlookup).1, (hrecord jobId record hlookup).2.1⟩
            · intro jobId
              rw [listAt_mapValues_sortIds, listAt_countEdges]
              exact sortIds_perm _
            · exact fun jobId record hlookup => (hrecord jobId record hlookup).2.2
            · refine (admitJobs_ready ..).trans ?_
              rw [List.filter_congr fun job hjob => ?_]
              rw [admittedRecord_eq hjob, DagSpec.initialRecord]
              by_cases hzero : spec.inDegree job.id = 0 <;> simp [hzero]

end Scheduler

end JobOrchestrator
