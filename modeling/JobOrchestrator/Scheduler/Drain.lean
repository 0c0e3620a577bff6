import JobOrchestrator.Scheduler.Dependencies

/-!
# One healthy worker drains the scheduler

A worker that claims and completes at once, at times that never go back, takes
every job exactly once, each after its parents (`worker_drains`).  While it
works, a job is pending, ready and due, or succeeded (`Draining`); a round either
moves one more job to the succeeded ones or finds all of them there
(`Draining.round`).
-/

namespace JobOrchestrator

open Digraph Scheduler

/-! ## The worker -/

/-- Submits specs one after the other, all of which have to be accepted. -/
def submitAll : List (DagSpec × ℤ) → Scheduler → Except SchedulerError Scheduler
  | [], scheduler => .ok scheduler
  | (spec, nowMs) :: rest, scheduler =>
      match scheduler.submit spec nowMs with
      | (.error error, _) => .error error
      | (.ok (), submitted) => submitAll rest submitted

/-- The results of a claim and of the completion of what it returned. -/
structure Round where
  claimed : Except SchedulerError (Option ClaimedJob)
  completed : Option (Except SchedulerError Unit)
deriving DecidableEq

/-- A claim at a time, followed by the completion of the returned job at that time. -/
def workRound (owner : String) (leaseMs : ℤ) (work : ClaimedJob → String) (nowMs : ℤ)
    (scheduler : Scheduler) : Round × Scheduler :=
  match scheduler.claim owner nowMs leaseMs with
  | (.ok (some claimed), granted) =>
      let completed := granted.complete claimed.dagId claimed.jobId owner claimed.leaseToken
        (work claimed) nowMs
      (⟨.ok (some claimed), some completed.1⟩, completed.2)
  | (result, unchanged) => (⟨result, none⟩, unchanged)

/-- One round at each of the times. -/
def workRounds (owner : String) (leaseMs : ℤ) (work : ClaimedJob → String) :
    List ℤ → Scheduler → List Round × Scheduler
  | [], scheduler => ([], scheduler)
  | nowMs :: rest, scheduler =>
      let first := workRound owner leaseMs work nowMs scheduler
      let others := workRounds owner leaseMs work rest first.2
      (first.1 :: others.1, others.2)

/-- The keys of all submitted jobs. -/
def jobKeys (submissions : List (DagSpec × ℤ)) : List (String × String) :=
  submissions.flatMap fun submission => submission.1.jobIds.map fun id => (submission.1.id, id)

/-! ## Submission -/

/-- Nothing but the submissions has happened. -/
structure Submitted (submissions : List (DagSpec × ℤ)) (specs : String → Option DagSpec)
    (scheduler : Scheduler) : Prop where
  invariant : scheduler.Invariant specs
  specs_iff : ∀ dagId spec, specs dagId = some spec ↔
    spec ∈ submissions.map Prod.fst ∧ spec.id = dagId
  nodup : (jobKeys submissions).Nodup
  fresh : ∀ dagId jobId job, scheduler.job? dagId jobId = some job → job.state = .pending ∨
    job.state = .ready ∧ ∃ submission ∈ submissions, job.availableAtMs = submission.2

theorem Submitted.new (config : SchedulerConfig) :
    Submitted [] (fun _ => none) (Scheduler.new config) :=
  ⟨Invariant.new config, by simp, List.nodup_nil, by simp [Scheduler.new, job?]⟩

theorem Submitted.exists_job_iff {submissions : List (DagSpec × ℤ)}
    {specs : String → Option DagSpec} {scheduler : Scheduler}
    (h : Submitted submissions specs scheduler) {dagId jobId : String} :
    (∃ job, scheduler.job? dagId jobId = some job) ↔ (dagId, jobId) ∈ jobKeys submissions := by
  simp only [jobKeys, List.mem_flatMap, List.mem_map, Prod.mk.injEq]
  constructor
  · rintro ⟨job, hjob⟩
    obtain ⟨dag, spec, _, hlookup, hspec, hid, _, hconsistent⟩ := h.invariant.exists_dag hjob
    obtain ⟨hmem, _⟩ := (h.specs_iff dagId spec).mp hspec
    obtain ⟨submission, hsubmission, rfl⟩ := List.mem_map.mp hmem
    refine ⟨submission, hsubmission, jobId, ?_, hid, rfl⟩
    rw [← hconsistent.keys, Table.mem_keys]
    exact ⟨job, hlookup⟩
  · rintro ⟨submission, hsubmission, _, hmem, rfl, rfl⟩
    have hspec := (h.specs_iff submission.1.id submission.1).mpr
      ⟨List.mem_map_of_mem hsubmission, rfl⟩
    obtain ⟨dag, hdag⟩ := h.invariant.present _ _ hspec
    obtain ⟨spec, hspec', _, _, hconsistent⟩ := h.invariant.graph _ dag hdag
    rw [hspec] at hspec'
    cases hspec'
    rw [← hconsistent.keys, Table.mem_keys] at hmem
    obtain ⟨job, hlookup⟩ := hmem
    exact ⟨job, job?_eq_some_iff.mpr ⟨dag, hdag, hlookup⟩⟩

theorem Submitted.submit {submissions : List (DagSpec × ℤ)} {specs : String → Option DagSpec}
    {before after : Scheduler} (h : Submitted submissions specs before) {spec : DagSpec}
    {nowMs : ℤ} {order : List String} (hvalid : spec.validate = .ok order) {dag : DagRecord}
    (hadmitted : Admitted spec nowMs before after dag) :
    Submitted (submissions ++ [(spec, nowMs)])
      (fun dagId => if spec.id = dagId then some spec else specs dagId) after := by
  -- the earlier graphs are all there, and the identifier is free
  have hnew : ∀ other ∈ submissions.map Prod.fst, other.id ≠ spec.id := by
    intro other hother hid
    obtain ⟨dag', hdag⟩ := h.invariant.present spec.id other
      ((h.specs_iff spec.id other).mpr ⟨hother, hid⟩)
    rw [hadmitted.fresh] at hdag
    cases hdag
  refine ⟨h.invariant.submit hvalid hadmitted, fun dagId other => ?_, ?_,
    fun dagId jobId job hjob => ?_⟩
  · by_cases hsame : spec.id = dagId
    · rw [if_pos hsame]
      simp only [Option.some.injEq, List.map_append, List.map_cons, List.map_nil,
        List.mem_append, List.mem_singleton]
      constructor
      · rintro rfl
        exact ⟨.inr rfl, hsame⟩
      · rintro ⟨hold | rfl, hid⟩
        · exact absurd (hid.trans hsame.symm) (hnew other hold)
        · rfl
    · rw [if_neg hsame, h.specs_iff]
      simp only [List.map_append, List.map_cons, List.map_nil, List.mem_append,
        List.mem_singleton]
      refine and_congr_left fun hid => ⟨.inl, fun hcase => hcase.resolve_right ?_⟩
      rintro rfl
      exact hsame hid
  · have hkeys : jobKeys (submissions ++ [(spec, nowMs)]) =
        jobKeys submissions ++ spec.jobIds.map fun id => (spec.id, id) := by
      simp [jobKeys]
    rw [hkeys, List.nodup_append]
    refine ⟨h.nodup, hadmitted.built.jobIds_nodup.map fun _ _ heq => (Prod.mk.inj heq).2, ?_⟩
    rintro first hfirst second hsecond rfl
    obtain ⟨_, _, rfl⟩ := List.mem_map.mp hsecond
    simp only [jobKeys, List.mem_flatMap, List.mem_map, Prod.mk.injEq] at hfirst
    obtain ⟨submission, hsubmission, _, _, hid, _⟩ := hfirst
    exact hnew submission.1 (List.mem_map_of_mem hsubmission) hid
  · obtain ⟨dag', hdag, hlookup⟩ := job?_eq_some_iff.mp hjob
    rw [hadmitted.dags, Table.get?_insert] at hdag
    by_cases hsame : dagId = spec.id
    · rw [if_pos hsame, Option.some.injEq] at hdag
      subst hdag
      rw [hadmitted.records jobId job hlookup, DagSpec.initialRecord]
      by_cases hzero : spec.inDegree job.spec.id = 0
      · exact .inr ⟨by simp [hzero], (spec, nowMs), by simp, rfl⟩
      · exact .inl (by simp [hzero])
    · rw [if_neg hsame] at hdag
      refine (h.fresh dagId jobId job (job?_eq_some_iff.mpr ⟨dag', hdag, hlookup⟩)).imp_right ?_
      rintro ⟨hready, submission, hmem, htime⟩
      exact ⟨hready, submission, List.mem_append_left _ hmem, htime⟩

theorem Submitted.submitAll {submissions rest : List (DagSpec × ℤ)}
    {specs : String → Option DagSpec} {before after : Scheduler}
    (h : Submitted submissions specs before)
    (hsubmit : JobOrchestrator.submitAll rest before = .ok after) :
    ∃ specs, Submitted (submissions ++ rest) specs after ∧ after.config = before.config := by
  induction rest generalizing submissions specs before with
  | nil =>
      simp only [JobOrchestrator.submitAll, Except.ok.injEq] at hsubmit
      subst hsubmit
      exact ⟨specs, by rwa [List.append_nil], rfl⟩
  | cons submission rest ih =>
      obtain ⟨spec, nowMs⟩ := submission
      rw [JobOrchestrator.submitAll] at hsubmit
      rcases submit_cases before spec nowMs with
        ⟨order, dag, hvalid, hok, hadmitted⟩ | ⟨error, herror⟩
      · have hpair : before.submit spec nowMs = (.ok (), (before.submit spec nowMs).2) :=
          Prod.ext hok rfl
        rw [hpair] at hsubmit
        obtain ⟨specs', hsubmitted, hconfig⟩ := ih (h.submit hvalid hadmitted) hsubmit
        rw [List.append_assoc, List.singleton_append] at hsubmitted
        exact ⟨specs', hsubmitted, hconfig.trans hadmitted.config⟩
      · rw [herror] at hsubmit
        cases hsubmit

/-! ## Rounds -/

/-- In a list of job keys every job stands after its parents. -/
def ParentsFirst (specs : String → Option DagSpec) (done : List (String × String)) : Prop :=
  ∀ before dagId jobId after, done = before ++ (dagId, jobId) :: after →
    ∀ spec, specs dagId = some spec → ∀ a, (a, jobId) ∈ spec.edges → (dagId, a) ∈ before

/-- The worker has completed the jobs `done`, in this order, and the others are
pending, or ready since `bound` at the latest. -/
structure Draining (specs : String → Option DagSpec) (bound : ℤ) (done : List (String × String))
    (scheduler : Scheduler) : Prop where
  invariant : scheduler.Invariant specs
  states : ∀ dagId jobId job, scheduler.job? dagId jobId = some job → job.state = .succeeded ∨
    job.state = .pending ∨ job.state = .ready ∧ job.availableAtMs ≤ bound
  succeeded_iff : ∀ dagId jobId job, scheduler.job? dagId jobId = some job →
    (job.state = .succeeded ↔ (dagId, jobId) ∈ done)
  nodup : done.Nodup
  exists_job : ∀ key ∈ done, ∃ job, scheduler.job? key.1 key.2 = some job
  parents_before : ParentsFirst specs done

theorem Draining.of_submitted {submissions : List (DagSpec × ℤ)}
    {specs : String → Option DagSpec} {scheduler : Scheduler}
    (h : Submitted submissions specs scheduler) {bound : ℤ}
    (hbound : ∀ submission ∈ submissions, submission.2 ≤ bound) :
    Draining specs bound [] scheduler := by
  refine ⟨h.invariant, fun dagId jobId job hjob => ?_, fun dagId jobId job hjob => ?_,
    List.nodup_nil, by simp, by simp [ParentsFirst]⟩
  · rcases h.fresh dagId jobId job hjob with hpending | ⟨hready, submission, hmem, htime⟩
    · exact .inr (.inl hpending)
    · exact .inr (.inr ⟨hready, htime ▸ hbound submission hmem⟩)
  · rcases h.fresh dagId jobId job hjob with hpending | ⟨hready, _⟩
    · simp [hpending]
    · simp [hready]

theorem Draining.reap_eq {specs : String → Option DagSpec} {bound : ℤ}
    {done : List (String × String)} {scheduler : Scheduler}
    (h : Draining specs bound done scheduler) (nowMs : ℤ) :
    (scheduler.reap nowMs).2 = scheduler := by
  have hnone : scheduler.expiredLeases nowMs = [] := by
    rw [List.eq_nil_iff_forall_not_mem]
    rintro ⟨dagId, jobId⟩ hmem
    obtain ⟨job, hjob, hexpired⟩ := mem_expiredLeases.mp hmem
    have hleased := state_of_leaseExpired hexpired
    rcases h.states dagId jobId job hjob with hstate | hstate | ⟨hstate, _⟩ <;>
      simp [hleased] at hstate
  rw [Scheduler.reap_eq, hnone]
  rfl

/-- When no job is ready, all have succeeded: a pending job would have a ready ancestor. -/
theorem Draining.all_succeeded {specs : String → Option DagSpec} {bound : ℤ}
    {done : List (String × String)} {scheduler : Scheduler}
    (h : Draining specs bound done scheduler)
    (hnone : ∀ dagId jobId job, scheduler.job? dagId jobId = some job → job.state ≠ .ready) :
    ∀ dagId jobId job, scheduler.job? dagId jobId = some job → job.state = .succeeded := by
  intro dagId jobId job hjob
  rcases h.states dagId jobId job hjob with hstate | hpending | ⟨hready, _⟩
  · exact hstate
  · obtain ⟨_, _, ancestorId, ancestor, _, hancestor, hactive⟩ :=
      h.invariant.exists_active_ancestor hjob hpending
    have hready := hnone dagId ancestorId ancestor hancestor
    rcases h.states dagId ancestorId ancestor hancestor with hstate | hstate | ⟨hstate, _⟩
    · simp [JobRecord.isActive, hstate] at hactive
    · simp [JobRecord.isActive, hstate] at hactive
    · exact absurd hstate hready
  · exact absurd hready (hnone dagId jobId job hjob)

theorem Draining.parents_mem_done {specs : String → Option DagSpec} {bound : ℤ}
    {done : List (String × String)} {scheduler : Scheduler}
    (h : Draining specs bound done scheduler) {dagId jobId : String} {job : JobRecord}
    (hjob : scheduler.job? dagId jobId = some job) (hready : job.state = .ready) {spec : DagSpec}
    (hspec : specs dagId = some spec) {parentId : String} (hedge : (parentId, jobId) ∈ spec.edges) :
    (dagId, parentId) ∈ done := by
  have hparents := h.invariant.parentsSucceeded hspec hjob (by simp [hready]) (by simp [hready])
  obtain ⟨edge, hmem, hpair⟩ := List.mem_map.mp hedge
  cases hpair
  have hsucceeded := hparents edge hmem rfl
  obtain ⟨_, _, _, _, hspec', hid, _, _⟩ := h.invariant.exists_dag hjob
  rw [hspec] at hspec'
  cases hspec'
  unfold hasSucceeded at hsucceeded
  split at hsucceeded
  · cases hsucceeded
  next parent hparent =>
    rw [hid] at hparent
    exact (h.succeeded_iff _ _ parent hparent).mp (by simpa using hsucceeded)

/-- What one round makes of the records: the claimed job succeeds and its
dependents are released. -/
theorem workRound_granted {specs : String → Option DagSpec} {scheduler : Scheduler}
    (h : scheduler.Invariant specs) {key : ReadyKey} {job : JobRecord} {ready : MinHeap ReadyKey}
    {owner : String} {leaseMs nowMs : ℤ} {work : ClaimedJob → String}
    (hjob : scheduler.job? key.dagId key.jobId = some job)
    (hclaim : scheduler.claim owner nowMs leaseMs =
      (let granted := (scheduler.withReady ready).grant key job owner nowMs leaseMs
      (.ok (some granted.1), granted.2)))
    (hpos : 0 < leaseMs) (hnow : nowMs < I64.max)
    (hwork : ∀ claimed, (work claimed).utf8ByteSize ≤ maxPayloadBytes) :
    ∃ claimed result, claimed.dagId = key.dagId ∧ claimed.jobId = key.jobId ∧
      (workRound owner leaseMs work nowMs scheduler).1 =
        ⟨.ok (some claimed), some (.ok ())⟩ ∧
      (workRound owner leaseMs work nowMs scheduler).2.Invariant specs ∧
      (workRound owner leaseMs work nowMs scheduler).2.dags =
        mapJobs (fun dagId jobId record => if dagId = key.dagId then
          completedRecord nowMs result key.jobId (scheduler.dependentsOf key.dagId key.jobId) jobId
            (atJob key.dagId key.jobId (leased owner (scheduler.nextToken key.dagId key.jobId)
              (I64.saturatingAdd nowMs leaseMs)) dagId jobId record)
          else record) scheduler.dags := by
  have hinvariant := h.claim owner nowMs leaseMs
  rw [hclaim] at hinvariant
  have hdags := dags_grant hjob ready owner nowMs leaseMs
  have hclaimed := claimed_grant scheduler ready key job owner nowMs leaseMs
  generalize hgranted : (scheduler.withReady ready).grant key job owner nowMs leaseMs = granted
    at hclaim hinvariant hdags hclaimed
  obtain ⟨claimed, after⟩ := granted
  simp only at hclaim hinvariant hdags hclaimed
  have hround : workRound owner leaseMs work nowMs scheduler =
      (let completed := after.complete claimed.dagId claimed.jobId owner claimed.leaseToken
        (work claimed) nowMs
      (⟨.ok (some claimed), some completed.1⟩, completed.2)) := by
    rw [workRound, hclaim]
  have hdependents : after.dependentsOf key.dagId key.jobId =
      scheduler.dependentsOf key.dagId key.jobId := by
    unfold dependentsOf
    rw [hdags, mapJobs, Table.get?_mapValues]
    cases scheduler.dags.get? key.dagId <;> rfl
  -- the claimed lease is live at the time of the claim
  have hholds : ∀ record, after.job? key.dagId key.jobId = some record →
      record.holdsLease owner claimed.leaseToken nowMs = true := by
    intro record hrecord
    rw [job?_of_dags_eq_mapJobs hdags, hjob, Option.map_some, atJob_self,
      Option.some.injEq] at hrecord
    subst hrecord
    simp [JobRecord.holdsLease, leased, hclaimed, I64.lt_saturatingAdd hpos hnow]
  have hafter : ∃ record, after.job? key.dagId key.jobId = some record :=
    exists_job?_of_dags_eq_mapJobs hdags ⟨job, hjob⟩
  have hdagId : claimed.dagId = key.dagId := by rw [hclaimed]
  have hjobId : claimed.jobId = key.jobId := by rw [hclaimed]
  rw [hdagId, hjobId] at hround
  rcases complete_cases after key.dagId key.jobId owner claimed.leaseToken (work claimed) nowMs with
    ⟨_, _, _, _, hrelease⟩ | ⟨hnot, _⟩
  · obtain ⟨hok, hreleased⟩ := dags_complete nowMs (work claimed)
      (hinvariant.exists_dependent key.dagId key.jobId)
    have hkept := hinvariant.complete key.dagId key.jobId owner claimed.leaseToken (work claimed)
      nowMs
    refine ⟨claimed, work claimed, hdagId, hjobId, ?_, ?_, ?_⟩
    · rw [hround, hrelease]
      dsimp only
      rw [hok]
    · rw [hround]
      exact hkept
    · rw [hround, hrelease]
      dsimp only
      rw [hreleased, hdags, mapJobs_mapJobs, hdependents]
      refine mapJobs_congr fun dagId jobId record _ => ?_
      by_cases hsame : dagId = key.dagId
      · rw [if_pos hsame, if_pos hsame]
      · rw [if_neg hsame, if_neg hsame, atJob_of_ne fun hkey => hsame hkey.1]
  · obtain ⟨record, hrecord⟩ := hafter
    exact absurd (hwork claimed) (hnot record hrecord (hholds record hrecord))

/-- A release leaves a job that is not pending as it is, and makes a pending one
ready at the time of the release if at all. -/
theorem released_cases (nowMs : ℤ) (edges : ℕ) (job : JobRecord) :
    ((released nowMs edges job).state = job.state ∧
      (released nowMs edges job).availableAtMs = job.availableAtMs) ∨
    (job.state = .pending ∧ (released nowMs edges job).state = .ready ∧
      (released nowMs edges job).availableAtMs = nowMs) := by
  unfold released
  split
  · exact .inl ⟨rfl, rfl⟩
  · split
    next hlast => exact .inr ⟨hlast.2, rfl, rfl⟩
    next => exact .inl ⟨rfl, rfl⟩

theorem Draining.granted {specs : String → Option DagSpec} {bound nowMs : ℤ}
    {done : List (String × String)} {before after : Scheduler}
    (h : Draining specs bound done before) (hbound : bound ≤ nowMs) {dagId jobId : String}
    {job : JobRecord} (hjob : before.job? dagId jobId = some job) (hready : job.state = .ready)
    (hafter : after.Invariant specs) {result owner token : String} {expiresAtMs : ℤ}
    {dependents : List String}
    (hdags : after.dags = mapJobs (fun dagId' jobId' record => if dagId' = dagId then
      completedRecord nowMs result jobId dependents jobId'
        (atJob dagId jobId (leased owner token expiresAtMs) dagId' jobId' record)
      else record) before.dags) :
    Draining specs nowMs (done ++ [(dagId, jobId)]) after := by
  have hlookup := job?_of_dags_eq_mapJobs hdags
  have hfresh : (dagId, jobId) ∉ done := by
    rw [← h.succeeded_iff dagId jobId job hjob, hready]
    simp
  -- the record of the claimed job, and of any other job
  have hself : ∀ job', after.job? dagId jobId = some job' → job'.state = .succeeded := by
    intro job' hjob'
    rw [hlookup, hjob, Option.map_some, if_pos rfl, atJob_self, Option.some.injEq] at hjob'
    rw [← hjob', state_completedRecord_self]
  have hother : ∀ dagId' jobId' job', ¬(dagId' = dagId ∧ jobId' = jobId) →
      after.job? dagId' jobId' = some job' → ∃ old, before.job? dagId' jobId' = some old ∧
        ((job'.state = old.state ∧ job'.availableAtMs = old.availableAtMs) ∨
          (old.state = .pending ∧ job'.state = .ready ∧ job'.availableAtMs = nowMs)) := by
    intro dagId' jobId' job' hkey hjob'
    rw [hlookup, Option.map_eq_some_iff] at hjob'
    obtain ⟨old, hold, rfl⟩ := hjob'
    refine ⟨old, hold, ?_⟩
    by_cases hdag : dagId' = dagId
    · have hne : jobId' ≠ jobId := fun hsame => hkey ⟨hdag, hsame⟩
      rw [if_pos hdag, atJob_of_ne hkey, completedRecord_of_ne _ _ _ _ hne]
      exact released_cases ..
    · rw [if_neg hdag]
      exact .inl ⟨rfl, rfl⟩
  refine ⟨hafter, fun dagId' jobId' job' hjob' => ?_, fun dagId' jobId' job' hjob' => ?_, ?_,
    fun key hkey => ?_, fun earlier dagId' jobId' later hsplit spec hspec a hedge => ?_⟩
  · by_cases hkey : dagId' = dagId ∧ jobId' = jobId
    · obtain ⟨rfl, rfl⟩ := hkey
      exact .inl (hself job' hjob')
    · obtain ⟨old, hold, ⟨hstate, htime⟩ | ⟨_, hstate, htime⟩⟩ := hother _ _ _ hkey hjob'
      · rw [hstate, htime]
        exact (h.states dagId' jobId' old hold).imp_right fun hcase =>
          hcase.imp_right fun hdue => ⟨hdue.1, hdue.2.trans hbound⟩
      · exact .inr (.inr ⟨hstate, htime.le⟩)
  · rw [List.mem_append, List.mem_singleton, Prod.mk.injEq]
    by_cases hkey : dagId' = dagId ∧ jobId' = jobId
    · obtain ⟨rfl, rfl⟩ := hkey
      simp [hself job' hjob']
    · obtain ⟨old, hold, ⟨hstate, _⟩ | ⟨hpending, hstate, _⟩⟩ := hother _ _ _ hkey hjob'
      · rw [hstate, h.succeeded_iff dagId' jobId' old hold]
        simp [hkey]
      · have hnot := (h.succeeded_iff dagId' jobId' old hold).not.mp (by simp [hpending])
        simp [hstate, hkey, hnot]
  · rw [List.nodup_append]
    refine ⟨h.nodup, List.nodup_singleton _, ?_⟩
    rintro key hkey _ hsingle rfl
    exact hfresh (List.mem_singleton.mp hsingle ▸ hkey)
  · refine exists_job?_of_dags_eq_mapJobs hdags ?_
    rcases List.mem_append.mp hkey with hdone | hnew
    · exact h.exists_job key hdone
    · rw [List.mem_singleton.mp hnew]
      exact ⟨job, hjob⟩
  · -- the claimed job stands last, so its parents have been completed before
    rcases List.split_append_singleton hsplit with ⟨rfl, hlast, -⟩ | ⟨later, hsplit⟩
    · obtain ⟨rfl, rfl⟩ := Prod.mk.inj hlast
      exact h.parents_mem_done hjob hready hspec hedge
    · exact h.parents_before earlier dagId' jobId' later hsplit spec hspec a hedge

theorem Draining.round {specs : String → Option DagSpec} {bound : ℤ}
    {done : List (String × String)} {scheduler : Scheduler}
    (h : Draining specs bound done scheduler) {owner : String} {leaseMs nowMs : ℤ}
    {work : ClaimedJob → String} (hvalid : validLease scheduler.config owner leaseMs = true)
    (hbound : bound ≤ nowMs) (hnow : nowMs < I64.max)
    (hwork : ∀ claimed, (work claimed).utf8ByteSize ≤ maxPayloadBytes) :
    (∃ f, (workRound owner leaseMs work nowMs scheduler).2.dags = mapJobs f scheduler.dags) ∧
    (((workRound owner leaseMs work nowMs scheduler).1 = ⟨.ok none, none⟩ ∧
        (∀ dagId jobId job, scheduler.job? dagId jobId = some job → job.state = .succeeded) ∧
        ∃ ready, (workRound owner leaseMs work nowMs scheduler).2 = scheduler.withReady ready) ∨
      ∃ claimed : ClaimedJob, (workRound owner leaseMs work nowMs scheduler).1 =
          ⟨.ok (some claimed), some (.ok ())⟩ ∧
        Draining specs nowMs (done ++ [(claimed.dagId, claimed.jobId)])
          (workRound owner leaseMs work nowMs scheduler).2) := by
  have hreap := h.reap_eq nowMs
  rcases claim_cases h.invariant.heap h.invariant.ownIds owner nowMs leaseMs with
    ⟨hinvalid, _⟩ | ⟨_, ready, ⟨hnone, hclaim, _⟩ | ⟨key, job, hselects, hclaim, _⟩⟩
  · rw [hvalid] at hinvalid
    cases hinvalid
  · rw [hreap] at hnone hclaim
    have hround : workRound owner leaseMs work nowMs scheduler =
        (⟨.ok none, none⟩, scheduler.withReady ready) := by
      rw [workRound, hclaim]
    rw [hround]
    refine ⟨⟨fun _ _ job => job, by simp [mapJobs]⟩, .inl ⟨rfl, h.all_succeeded ?_, ready, rfl⟩⟩
    intro dagId jobId job hjob hready
    rcases h.states dagId jobId job hjob with hstate | hstate | ⟨_, hdue⟩
    · simp [hready] at hstate
    · simp [hready] at hstate
    · exact hnone dagId jobId job ⟨hjob, by simp [JobRecord.isReady, hready], hdue.trans hbound⟩
  · rw [hreap] at hselects hclaim
    have hjob := hselects.eligible.1
    have hready : job.state = .ready := by
      have hisReady := hselects.eligible.2.1
      rcases h.states _ _ job hjob with hstate | hstate | ⟨hstate, _⟩
      · simp [JobRecord.isReady, hstate] at hisReady
      · simp [JobRecord.isReady, hstate] at hisReady
      · exact hstate
    obtain ⟨claimed, result, hdagId, hjobId, hround, hafter, hdags⟩ :=
      workRound_granted h.invariant hjob hclaim (pos_of_validLease hvalid) hnow hwork
    refine ⟨⟨_, hdags⟩, .inr ⟨claimed, hround, ?_⟩⟩
    rw [hdagId, hjobId]
    exact h.granted hbound hjob hready hafter hdags

theorem config_workRound {specs : String → Option DagSpec} {scheduler : Scheduler}
    (h : scheduler.Invariant specs) (owner : String) (leaseMs : ℤ) (work : ClaimedJob → String)
    (nowMs : ℤ) : (workRound owner leaseMs work nowMs scheduler).2.config = scheduler.config := by
  have hclaim : (scheduler.claim owner nowMs leaseMs).2.config = scheduler.config :=
    h.config_perform (.claim owner nowMs leaseMs)
  have hafter := h.claim owner nowMs leaseMs
  unfold workRound
  split
  next claimed granted heq =>
    rw [heq] at hclaim hafter
    have hcomplete : (granted.complete claimed.dagId claimed.jobId owner claimed.leaseToken
        (work claimed) nowMs).2.config = granted.config :=
      hafter.config_perform (.complete claimed.dagId claimed.jobId owner claimed.leaseToken
        (work claimed) nowMs)
    exact hcomplete.trans hclaim
  next heq =>
    rw [heq] at hclaim
    exact hclaim

/-- The key of a claimed job. -/
def ClaimedJob.key (claimed : ClaimedJob) : String × String := (claimed.dagId, claimed.jobId)

/-- With one round more than there are jobs left, the worker completes them all
and then finds nothing to claim. -/
theorem Draining.rounds {specs : String → Option DagSpec} {owner : String} {leaseMs : ℤ}
    {work : ClaimedJob → String} (hwork : ∀ claimed, (work claimed).utf8ByteSize ≤ maxPayloadBytes)
    {keys : List (String × String)} (hnodup : keys.Nodup) {config : SchedulerConfig}
    (hvalid : validLease config owner leaseMs = true) :
    ∀ (times : List ℤ) {bound : ℤ} {done : List (String × String)} {scheduler : Scheduler},
      Draining specs bound done scheduler → scheduler.config = config →
      (∀ dagId jobId, (∃ job, scheduler.job? dagId jobId = some job) ↔ (dagId, jobId) ∈ keys) →
      times.length + done.length = keys.length + 1 → (bound :: times).Pairwise (· ≤ ·) →
      (∀ nowMs ∈ times, nowMs < I64.max) →
      ∃ claimed : List ClaimedJob,
        (workRounds owner leaseMs work times scheduler).1 =
          claimed.map (fun job => ⟨.ok (some job), some (.ok ())⟩) ++ [⟨.ok none, none⟩] ∧
        (done ++ claimed.map ClaimedJob.key).Perm keys ∧
        ParentsFirst specs (done ++ claimed.map ClaimedJob.key) ∧
        ∀ key ∈ keys, ∃ job, (workRounds owner leaseMs work times scheduler).2.job? key.1 key.2 =
          some job ∧ job.state = .succeeded := by
  intro times
  induction times with
  | nil =>
      intro bound done scheduler h _ hkeys hlength _ _
      -- there is one round more than there are jobs left, so that one is to come
      have hsub : done ⊆ keys := fun key hkey => (hkeys key.1 key.2).mp (h.exists_job key hkey)
      have hle := (List.subperm_of_subset h.nodup hsub).length_le
      simp only [List.length_nil] at hlength
      omega
  | cons nowMs rest ih =>
      intro bound done scheduler h hconfig hkeys hlength hsorted hmax
      obtain ⟨hbound, hsorted⟩ := List.pairwise_cons.mp hsorted
      have hsub : done ⊆ keys := fun key hkey => (hkeys key.1 key.2).mp (h.exists_job key hkey)
      obtain ⟨⟨f, hdags⟩, hround⟩ := h.round (hconfig ▸ hvalid) (hbound nowMs List.mem_cons_self)
        (hmax nowMs List.mem_cons_self) hwork
      rcases hround with ⟨hnone, hall, ready, hafter⟩ | ⟨claimed, hsome, hafter⟩
      · -- every job has succeeded, so that this was the last round
        have hsup : keys ⊆ done := by
          intro key hkey
          obtain ⟨job, hjob⟩ := (hkeys key.1 key.2).mpr hkey
          exact (h.succeeded_iff key.1 key.2 job hjob).mp (hall key.1 key.2 job hjob)
        have hperm : done.Perm keys := (List.perm_ext_iff_of_nodup h.nodup hnodup).mpr
          fun key => ⟨fun hkey => hsub hkey, fun hkey => hsup hkey⟩
        have hrest : rest = [] := by
          have := hperm.length_eq
          simp only [List.length_cons] at hlength
          exact List.length_eq_zero_iff.mp (by omega)
        subst hrest
        refine ⟨[], by simp [workRounds, hnone], by simpa using hperm, by
          simpa using h.parents_before, fun key hkey => ?_⟩
        obtain ⟨job, hjob⟩ := (hkeys key.1 key.2).mpr hkey
        refine ⟨job, ?_, hall key.1 key.2 job hjob⟩
        simpa only [workRounds, hafter, job?_withReady] using hjob
      · obtain ⟨others, hrounds, hperm, hparents, hfinal⟩ := ih hafter
          ((config_workRound h.invariant ..).trans hconfig)
          (fun dagId jobId => by
            rw [job?_of_dags_eq_mapJobs hdags, ← hkeys dagId jobId]
            simp)
          (by simp only [List.length_append, List.length_cons, List.length_nil] at hlength ⊢; omega)
          hsorted fun later hlater => hmax later (List.mem_cons_of_mem _ hlater)
        refine ⟨claimed :: others, ?_, ?_, ?_, hfinal⟩
        · simp only [workRounds, hsome, hrounds, List.map_cons, List.cons_append]
        · simpa [ClaimedJob.key] using hperm
        · simpa [ClaimedJob.key] using hparents

/-! ## The whole run -/

/-- The identifiers that a list of job keys has in one graph, in its order. -/
def idsIn (dagId : String) (keys : List (String × String)) : List String :=
  keys.filterMap fun key => if key.1 = dagId then some key.2 else none

theorem mem_idsIn {dagId id : String} {keys : List (String × String)} :
    id ∈ idsIn dagId keys ↔ (dagId, id) ∈ keys := by
  simp only [idsIn, List.mem_filterMap, Option.ite_none_right_eq_some, Option.some.injEq]
  constructor
  · rintro ⟨key, hkey, rfl, rfl⟩
    exact hkey
  · exact fun hkey => ⟨(dagId, id), hkey, rfl, rfl⟩

theorem nodup_idsIn (dagId : String) {keys : List (String × String)} (h : keys.Nodup) :
    (idsIn dagId keys).Nodup := by
  refine h.filterMap fun first second id hfirst hsecond => ?_
  simp only [Option.mem_def, Option.ite_none_right_eq_some, Option.some.injEq] at hfirst hsecond
  exact Prod.ext (hfirst.1.trans hsecond.1.symm) (hfirst.2.trans hsecond.2.symm)

/-- A list of keys with parents first contains a topological order of every graph. -/
theorem ParentsFirst.topologicalOrder {specs : String → Option DagSpec}
    {keys : List (String × String)} (h : ParentsFirst specs keys) (hnodup : keys.Nodup)
    {spec : DagSpec} (hspec : specs spec.id = some spec) :
    TopologicalOrder spec.edges (idsIn spec.id keys) := by
  refine ⟨nodup_idsIn spec.id hnodup, fun before b after hsplit a hedge => ?_⟩
  obtain ⟨first, rest, hkeys, hfirst, hrest⟩ := List.filterMap_eq_append_iff.mp hsplit
  obtain ⟨skipped, key, last, hskip, hskipped, hkey, _⟩ := List.filterMap_eq_cons_iff.mp hrest
  simp only [Option.ite_none_right_eq_some, Option.some.injEq] at hkey
  obtain ⟨hdag, rfl⟩ := hkey
  have hkeys' : keys = (first ++ skipped) ++ (spec.id, key.2) :: last := by
    rw [hkeys, hskip, List.append_assoc, ← hdag]
  have hmem := h _ _ _ _ hkeys' spec hspec a hedge
  rw [← hfirst]
  refine mem_idsIn.mpr ((List.mem_append.mp hmem).resolve_right fun hmem => ?_)
  simpa using hskipped _ hmem

/-- A single healthy worker completes every job once, parents first. -/
theorem worker_drains {config : SchedulerConfig} {submissions : List (DagSpec × ℤ)}
    {scheduler : Scheduler} (hsubmit : submitAll submissions (Scheduler.new config) = .ok scheduler)
    {owner : String} {leaseMs : ℤ} (hvalid : validLease config owner leaseMs = true)
    {work : ClaimedJob → String} (hwork : ∀ claimed, (work claimed).utf8ByteSize ≤ maxPayloadBytes)
    {times : List ℤ}
    (hlength : times.length = (submissions.map fun entry => entry.1.jobs.length).sum + 1)
    (hmono : times.Pairwise (· ≤ ·))
    (hlater : ∀ submission ∈ submissions, ∀ nowMs ∈ times, submission.2 ≤ nowMs)
    (hmax : ∀ nowMs ∈ times, nowMs < I64.max) :
    ∃ claimed : List ClaimedJob,
      (workRounds owner leaseMs work times scheduler).1 =
        claimed.map (fun job => ⟨.ok (some job), some (.ok ())⟩) ++ [⟨.ok none, none⟩] ∧
      (claimed.map ClaimedJob.key).Nodup ∧
      (claimed.map ClaimedJob.key).Perm (jobKeys submissions) ∧
      (∀ key ∈ jobKeys submissions,
        ∃ job, (workRounds owner leaseMs work times scheduler).2.job? key.1 key.2 = some job ∧
          job.state = .succeeded) ∧
      ∀ submission ∈ submissions,
        TopologicalOrder submission.1.edges
          (idsIn submission.1.id (claimed.map ClaimedJob.key)) ∧
        (idsIn submission.1.id (claimed.map ClaimedJob.key)).Perm submission.1.jobIds := by
  obtain ⟨specs, hsubmitted, hconfig⟩ := (Submitted.new config).submitAll hsubmit
  rw [List.nil_append] at hsubmitted
  have hlengthKeys : (jobKeys submissions).length =
      (submissions.map fun entry => entry.1.jobs.length).sum := by
    simp [jobKeys, List.length_flatMap, DagSpec.jobIds]
  obtain ⟨first, rest, rfl⟩ := List.exists_cons_of_length_eq_add_one hlength
  have hdraining := Draining.of_submitted hsubmitted
    fun submission hmem => hlater submission hmem first List.mem_cons_self
  have hsorted : (first :: first :: rest).Pairwise (· ≤ ·) := by
    refine List.pairwise_cons.mpr ⟨fun later hmem => ?_, hmono⟩
    rcases List.mem_cons.mp hmem with rfl | hmem
    · exact le_rfl
    · exact (List.pairwise_cons.mp hmono).1 later hmem
  obtain ⟨claimed, hrounds, hperm, hparents, hfinal⟩ := Draining.rounds hwork
    hsubmitted.nodup hvalid (first :: rest) hdraining hconfig
    (fun _ _ => hsubmitted.exists_job_iff) (by rw [hlength, hlengthKeys]; rfl) hsorted hmax
  rw [List.nil_append] at hperm hparents
  have hnodup := hperm.nodup_iff.mpr hsubmitted.nodup
  refine ⟨claimed, hrounds, hnodup, hperm, hfinal, fun submission hmem => ?_⟩
  have hspec := (hsubmitted.specs_iff submission.1.id submission.1).mpr
    ⟨List.mem_map_of_mem hmem, rfl⟩
  obtain ⟨dag, hdag⟩ := hsubmitted.invariant.present _ _ hspec
  obtain ⟨spec, hspec', _, _, hconsistent⟩ := hsubmitted.invariant.graph _ dag hdag
  rw [hspec] at hspec'
  cases hspec'
  refine ⟨hparents.topologicalOrder hnodup hspec, (List.perm_ext_iff_of_nodup
    (nodup_idsIn _ hnodup) hconsistent.jobIds_nodup).mpr fun id => ?_⟩
  rw [mem_idsIn, hperm.mem_iff, ← hsubmitted.exists_job_iff, ← hconsistent.keys, Table.mem_keys]
  simp only [job?, hdag, Option.bind_some]

/-- Two graphs that share the heap: a chain of two jobs and a single urgent job. -/
def sharedSubmissions : List (DagSpec × ℤ) :=
  [(⟨"chain", [⟨"b", .uppercase, "", 1, 0⟩, ⟨"a", .uppercase, "", 1, 0⟩], [⟨"a", "b"⟩]⟩, 0),
    (⟨"urgent", [⟨"c", .uppercase, "", 1, 100⟩], []⟩, 0)]

/-- The scheduler that holds both graphs. -/
def sharedScheduler : Scheduler :=
  sharedSubmissions.foldl (fun scheduler entry => (scheduler.submit entry.1 entry.2).2)
    (Scheduler.new .default)

/-- The key of the job that a round has claimed. -/
def Round.key? (round : Round) : Option (String × String) :=
  match round.claimed with
  | .ok (some claimed) => some claimed.key
  | _ => none

/-- The three jobs are claimed by priority, and the chain in its order. -/
theorem worker_drains_shared :
    (workRounds "w" 1000 (fun _ => "") [5, 5, 7, 7] sharedScheduler).1.filterMap Round.key? =
      [("urgent", "c"), ("chain", "a"), ("chain", "b")] ∧
    ∃ claimed : List ClaimedJob, claimed.length = 3 ∧
      (workRounds "w" 1000 (fun _ => "") [5, 5, 7, 7] sharedScheduler).1 =
        claimed.map (fun job => ⟨.ok (some job), some (.ok ())⟩) ++ [⟨.ok none, none⟩] := by
  refine ⟨by decide, ?_⟩
  obtain ⟨claimed, hrounds, _, hperm, _⟩ := worker_drains
    (rfl : submitAll sharedSubmissions (Scheduler.new .default) = .ok sharedScheduler)
    (by decide : validLease .default "w" 1000 = true)
    (fun _ => by decide : ∀ _ : ClaimedJob, ("" : String).utf8ByteSize ≤ maxPayloadBytes)
    (by decide : ([5, 5, 7, 7] : List ℤ).length = _) (by decide) (by decide) (by decide)
  refine ⟨claimed, ?_, hrounds⟩
  have hlength := hperm.length_eq
  rw [List.length_map] at hlength
  exact hlength

end JobOrchestrator
