import JobOrchestrator.Store.InStep

/-!
# The simulation relation, and what every operation makes of it

`Related` holds between a scheduler and a database that have the same graphs and
whose jobs are in step.  For each operation one lemma says that both sides grant
the request or both refuse it, with the same count or state, and that the
relation holds again.
-/

namespace JobOrchestrator

/-- What a granted claim returns, but for the token. -/
structure Grant where
  dagId : String
  jobId : String
  kind : JobKind
  payload : String
  attempt : ℕ
  leaseExpiresAtMs : ℤ
deriving DecidableEq

def ClaimedJob.grant (claimed : ClaimedJob) : Grant :=
  ⟨claimed.dagId, claimed.jobId, claimed.kind, claimed.payload, claimed.attempt,
    claimed.leaseExpiresAtMs⟩

def StoreClaim.grant (claimed : StoreClaim) : Grant :=
  ⟨claimed.dagId, claimed.jobId, claimed.kind, claimed.payload, claimed.attempt,
    claimed.leaseExpiresAtMs⟩

/-- An answer in the terms that both sides share. -/
inductive Report
  | refused
  | done
  | claimed (grant : Option Grant)
  | moved (state : JobState)
  | counted (count : ℕ)
deriving DecidableEq

/-- The two sides word their errors differently. -/
def report {ε α : Type} (describe : α → Report) : Except ε α → Report
  | .error _ => .refused
  | .ok value => describe value

/-- A scheduler, a database, and the tokens that stand for the same leases. -/
structure Sides where
  names : List (String × Uuid)
  scheduler : Scheduler
  db : Database

/-- The tokens of a claim stand for the same lease. -/
def namesAfterClaim (names : List (String × Uuid)) (uuid : Uuid)
    (result : Except SchedulerError (Option ClaimedJob)) : List (String × Uuid) :=
  match result with
  | .ok (some claimed) => (claimed.leaseToken, uuid) :: names
  | _ => names

/-- Both sides hold the same graphs, and the scheduler is consistent in itself. -/
structure Related (sides : Sides) : Prop where
  config : sides.scheduler.config = .default
  invariant : ∃ specs, sides.scheduler.Invariant specs
  mirrors : Mirrors sides.names sides.scheduler sides.db
  inStep : ∀ dagId jobId job row, sides.scheduler.job? dagId jobId = some job →
    sides.db.jobs.get? (dagId, jobId) = some row → InStep sides.names job row
  names : OneToOne sides.names
  issued : ∀ pair ∈ sides.names, ∃ dagId jobId n, n ≤ sides.scheduler.sequence ∧
    pair.1 = leaseToken dagId jobId n

theorem Related.new : Related ⟨[], Scheduler.new .default, .empty⟩ where
  config := rfl
  invariant := ⟨_, Scheduler.Invariant.new .default⟩
  mirrors := Mirrors.new .default
  inStep _ _ _ _ h := by cases h
  names := ⟨fun _ _ _ h => (by cases h), fun _ _ _ h => (by cases h)⟩
  issued _ h := by cases h

namespace Related

variable {sides : Sides}

/-- Rewriting the records and the rows in step, possibly under a new pair of tokens. -/
theorem rewriteNamed (h : Related sides) {names : List (String × Uuid)} {after : Scheduler}
    {db : Database} {f : String → String → JobRecord → JobRecord}
    {g : String → String → JobRow → JobRow}
    (hrecords : after.dags = mapJobs f sides.scheduler.dags)
    (hrows : ∀ dagId jobId,
      db.jobs.get? (dagId, jobId) = (sides.db.jobs.get? (dagId, jobId)).map (g dagId jobId))
    (hinStep : ∀ dagId jobId job row, sides.scheduler.job? dagId jobId = some job →
      sides.db.jobs.get? (dagId, jobId) = some row → InStep sides.names job row →
      InStep names (f dagId jobId job) (g dagId jobId row))
    (hdags : ∀ dagId, db.dags.contains dagId = sides.db.dags.contains dagId)
    (hcancelled : ∀ dagId jobId job, db.dags.get? dagId = some .cancelled →
      sides.scheduler.job? dagId jobId = some job → (f dagId jobId job).isTerminal = true)
    (hdependencies : db.dependencies = sides.db.dependencies)
    (hinvariant : ∃ specs, after.Invariant specs) (hconfig : after.config = .default)
    (hnames : OneToOne names) (hissued : ∀ pair ∈ names, ∃ dagId jobId n, n ≤ after.sequence ∧
      pair.1 = leaseToken dagId jobId n) :
    Related ⟨names, after, db⟩ := by
  have hjob : ∀ dagId jobId, after.job? dagId jobId =
      (sides.scheduler.job? dagId jobId).map (f dagId jobId) :=
    Scheduler.job?_of_dags_eq_mapJobs hrecords
  have hstep : ∀ dagId jobId job row, after.job? dagId jobId = some job →
      db.jobs.get? (dagId, jobId) = some row → InStep names job row := by
    intro dagId jobId job row hafter hrow
    rw [hjob, Option.map_eq_some_iff] at hafter
    rw [hrows, Option.map_eq_some_iff] at hrow
    obtain ⟨old, hold, rfl⟩ := hafter
    obtain ⟨oldRow, holdRow, rfl⟩ := hrow
    exact hinStep dagId jobId old oldRow hold holdRow (h.inStep dagId jobId old oldRow hold holdRow)
  have hcontains : ∀ dagId, after.dags.contains dagId = sides.scheduler.dags.contains dagId := by
    intro dagId
    rw [hrecords, mapJobs, Table.contains, Table.get?_mapValues, Option.isSome_map]
    rfl
  refine ⟨hconfig, hinvariant, ⟨fun dagId => ?_, fun dagId jobId => ?_, fun row => ?_,
    fun dagId jobId job hdag hlookup => ?_⟩, hstep, hnames, hissued⟩
  · rw [hdags, hcontains]
    exact h.mirrors.dag dagId
  · cases hold : sides.scheduler.job? dagId jobId with
    | none =>
        have hrel := h.mirrors.job dagId jobId
        rw [hold] at hrel
        cases holdRow : sides.db.jobs.get? (dagId, jobId) with
        | none =>
            rw [hjob, hrows, hold, holdRow]
            exact Option.Rel.none
        | some row => rw [holdRow] at hrel; cases hrel
    | some job =>
        obtain ⟨row, hrow, _⟩ := h.mirrors.exists_row hold
        have hnew := hjob dagId jobId
        have hnewRow := hrows dagId jobId
        rw [hold, Option.map_some] at hnew
        rw [hrow, Option.map_some] at hnewRow
        simp only
        rw [hnew, hnewRow]
        exact Option.Rel.some (hstep dagId jobId _ _ hnew hnewRow).toSameJob
  · simp only
    rw [hdependencies, h.mirrors.dependency, Scheduler.dependentsOf_of_dags_eq_mapJobs hrecords]
  · simp only at hlookup
    rw [hjob, Option.map_eq_some_iff] at hlookup
    obtain ⟨old, hold, rfl⟩ := hlookup
    exact hcancelled dagId jobId old hdag hold

theorem rewrite (h : Related sides) {after : Scheduler} {db : Database}
    {f : String → String → JobRecord → JobRecord} {g : String → String → JobRow → JobRow}
    (hrecords : after.dags = mapJobs f sides.scheduler.dags)
    (hrows : ∀ dagId jobId,
      db.jobs.get? (dagId, jobId) = (sides.db.jobs.get? (dagId, jobId)).map (g dagId jobId))
    (hinStep : ∀ dagId jobId job row, sides.scheduler.job? dagId jobId = some job →
      sides.db.jobs.get? (dagId, jobId) = some row → InStep sides.names job row →
      InStep sides.names (f dagId jobId job) (g dagId jobId row))
    (hdags : ∀ dagId, db.dags.contains dagId = sides.db.dags.contains dagId)
    (hcancelled : ∀ dagId jobId job, db.dags.get? dagId = some .cancelled →
      sides.scheduler.job? dagId jobId = some job → (f dagId jobId job).isTerminal = true)
    (hdependencies : db.dependencies = sides.db.dependencies)
    (hinvariant : ∃ specs, after.Invariant specs) (hconfig : after.config = .default)
    (hsequence : after.sequence = sides.scheduler.sequence) :
    Related ⟨sides.names, after, db⟩ :=
  h.rewriteNamed hrecords hrows hinStep hdags hcancelled hdependencies hinvariant hconfig h.names
    (by rw [hsequence]; exact h.issued)

theorem withReady (h : Related sides) (ready : MinHeap ReadyKey)
    (hinvariant : ∃ specs, (sides.scheduler.withReady ready).Invariant specs) :
    Related ⟨sides.names, sides.scheduler.withReady ready, sides.db⟩ where
  config := h.config
  invariant := hinvariant
  mirrors := ⟨h.mirrors.dag, h.mirrors.job, h.mirrors.dependency, h.mirrors.cancelled⟩
  inStep := h.inStep
  names := h.names
  issued := h.issued

/-- A rewriting that leaves finished jobs finished respects cancelled graphs. -/
theorem terminal (h : Related sides) {f : String → String → JobRecord → JobRecord}
    (hf : ∀ dagId jobId job, sides.scheduler.job? dagId jobId = some job →
      job.isTerminal = true → (f dagId jobId job).isTerminal = true) (dagId jobId : String)
    (job : JobRecord) (hdag : sides.db.dags.get? dagId = some .cancelled)
    (hjob : sides.scheduler.job? dagId jobId = some job) :
    (f dagId jobId job).isTerminal = true :=
  hf dagId jobId job hjob (h.mirrors.cancelled dagId jobId job hdag hjob)

/-! ## Expired leases -/

theorem reap (h : Related sides) (nowMs : ℤ) :
    (PostgresStore.reapInTransaction sides.db (milliseconds nowMs)).1 =
      (sides.scheduler.reap nowMs).1 ∧
    Related ⟨sides.names, (sides.scheduler.reap nowMs).2,
      (PostgresStore.reapInTransaction sides.db (milliseconds nowMs)).2⟩ := by
  constructor
  · rw [Scheduler.reap_eq, PostgresStore.reapInTransaction, Database.rowsAffected_execute]
    refine Table.countValues_eq_length (Scheduler.nodup_expiredLeases sides.scheduler nowMs)
      fun key => ?_
    obtain ⟨dagId, jobId⟩ := key
    rw [Scheduler.mem_expiredLeases]
    constructor
    · rintro ⟨job, hjob, hexpired⟩
      obtain ⟨row, hrow, _⟩ := h.mirrors.exists_row hjob
      exact ⟨row, hrow,
        ((h.inStep dagId jobId job row hjob hrow).reapStatement_iff ..).mpr hexpired⟩
    · rintro ⟨row, hrow, happlies⟩
      obtain ⟨job, hjob, _⟩ := h.mirrors.exists_record hrow
      exact ⟨job, hjob,
        ((h.inStep dagId jobId job row hjob hrow).reapStatement_iff ..).mp happlies⟩
  · obtain ⟨specs, hinvariant⟩ := h.invariant
    refine h.rewrite (Scheduler.dags_reap ..) (Database.get?_execute sides.db _)
      (fun dagId jobId job row hjob hrow hinStep => ?_) (fun _ => rfl) (h.terminal ?_) rfl
      ⟨specs, hinvariant.reap nowMs⟩ ((Scheduler.config_reap ..).trans h.config)
      (Scheduler.sequence_reap ..)
    · unfold Scheduler.reaped
      by_cases hexpired : job.leaseExpired nowMs = true
      · rw [if_pos hexpired, if_pos ((hinStep.reapStatement_iff ..).mpr hexpired)]
        exact hinStep.retried ..
      · rw [if_neg hexpired, if_neg ((hinStep.reapStatement_iff ..).not.mpr hexpired)]
        exact hinStep
    · intro dagId jobId job _ hterminal
      have hlive : ¬job.leaseExpired nowMs = true := by
        intro hexpired
        rw [JobRecord.isTerminal, Scheduler.state_of_leaseExpired hexpired] at hterminal
        cases hterminal
      rw [Scheduler.reaped, if_neg hlive]
      exact hterminal

/-! ## Compare-and-set on a lease -/

/-- The caller holds the lease on both sides or on neither. -/
theorem holds_iff (h : Related sides) {token : String} {uuid : Uuid}
    (hcorresponds : Corresponds sides.names token uuid) (dagId jobId owner : String) (nowMs : ℤ) :
    sides.db.Holds dagId jobId owner uuid (milliseconds nowMs) ↔
      ∃ job, sides.scheduler.job? dagId jobId = some job ∧
        job.holdsLease owner token nowMs = true := by
  constructor
  · rintro ⟨row, hrow, hmatches⟩
    obtain ⟨job, hjob, _⟩ := h.mirrors.exists_record hrow
    exact ⟨job, hjob, ((h.inStep dagId jobId job row hjob hrow).leaseMatches_iff h.names
      hcorresponds ..).mp hmatches⟩
  · rintro ⟨job, hjob, hholds⟩
    obtain ⟨row, hrow, _⟩ := h.mirrors.exists_row hjob
    exact ⟨row, hrow, ((h.inStep dagId jobId job row hjob hrow).leaseMatches_iff h.names
      hcorresponds ..).mpr hholds⟩

theorem compareAndSet (h : Related sides) (statement : JobUpdate) {token : String} {uuid : Uuid}
    (hcorresponds : Corresponds sides.names token uuid) {dagId jobId owner : String} {nowMs : ℤ}
    (happlies : ∀ snapshot, statement.applies snapshot =
      leaseMatches dagId jobId owner uuid (milliseconds nowMs))
    {f : JobRecord → JobRecord} {after : Scheduler} {db : Database}
    (hrecords : after.dags = mapJobs (atJob dagId jobId f) sides.scheduler.dags)
    (hdb : db.jobs = (sides.db.execute statement).2.jobs) (hdags : db.dags = sides.db.dags)
    (hdependencies : db.dependencies = sides.db.dependencies)
    (hholds : ∃ job, sides.scheduler.job? dagId jobId = some job ∧
      job.holdsLease owner token nowMs = true)
    (hinStep : ∀ job row, sides.scheduler.job? dagId jobId = some job → job.state = .leased →
      InStep sides.names job row → InStep sides.names (f job) (statement.set row))
    (hinvariant : ∃ specs, after.Invariant specs) (hconfig : after.config = .default)
    (hsequence : after.sequence = sides.scheduler.sequence) :
    Related ⟨sides.names, after, db⟩ := by
  obtain ⟨held, hheld, hholds⟩ := hholds
  have hleased := Scheduler.state_of_holdsLease hholds
  refine h.rewrite hrecords (fun dagId' jobId' => by
      rw [hdb]
      exact Database.get?_execute sides.db statement dagId' jobId')
    (fun dagId' jobId' job row hjob hrow hold => ?_) (fun _ => by rw [hdags])
    (fun dagId' jobId' job hcancelled hjob => ?_) hdependencies hinvariant hconfig hsequence
  · rw [happlies]
    rcases Scheduler.job?_eq_or_ne hheld hjob with ⟨rfl, rfl, rfl⟩ | hkey
    · rw [atJob_self, if_pos ((hold.leaseMatches_iff h.names hcorresponds ..).mpr hholds)]
      exact hinStep held row hheld hleased hold
    · -- the statement names its job, so that no other row matches
      have hother : ¬leaseMatches dagId jobId owner uuid (milliseconds nowMs) dagId' jobId' row =
          true := by
        intro hmatches
        simp only [leaseMatches, Bool.and_eq_true, decide_eq_true_eq] at hmatches
        exact hkey ⟨hmatches.1.1.1.1.1, hmatches.1.1.1.1.2⟩
      rw [atJob_of_ne hkey, if_neg hother]
      exact hold
  · rw [hdags] at hcancelled
    have hterminal := h.mirrors.cancelled dagId' jobId' job hcancelled hjob
    rcases Scheduler.job?_eq_or_ne hheld hjob with ⟨rfl, rfl, rfl⟩ | hkey
    · rw [JobRecord.isTerminal, hleased] at hterminal
      cases hterminal
    · rw [atJob_of_ne hkey]
      exact hterminal

theorem heartbeat (h : Related sides) {dagId jobId owner token : String} {uuid : Uuid}
    (hcorresponds : Corresponds sides.names token uuid)
    (htexts : PostgresStore.bindTexts [dagId, jobId, owner] = .ok ()) {nowMs leaseMs : ℤ}
    (hrange : I64.InRange (nowMs + leaseMs)) :
    report (fun _ => .done) (PostgresStore.heartbeat sides.db dagId jobId owner uuid leaseMs
        (milliseconds nowMs)).1 =
      report (fun _ => .done)
        (sides.scheduler.heartbeat dagId jobId owner token nowMs leaseMs).1 ∧
    Related ⟨sides.names, (sides.scheduler.heartbeat dagId jobId owner token nowMs leaseMs).2,
      (PostgresStore.heartbeat sides.db dagId jobId owner uuid leaseMs
        (milliseconds nowMs)).2⟩ := by
  obtain ⟨specs, hinvariant⟩ := h.invariant
  have hafter := hinvariant.heartbeat dagId jobId owner token nowMs leaseMs
  have hiff := h.holds_iff hcorresponds dagId jobId owner nowMs
  rcases Scheduler.heartbeat_cases sides.scheduler dagId jobId owner token nowMs leaseMs with
    ⟨job, hjob, hholds, hlow, hhigh, hcalled⟩ | ⟨hnot, error, hcalled⟩
  · obtain ⟨row, hrow, _⟩ := h.mirrors.exists_row hjob
    -- the holder passed the validation of its claim
    have howner : owner.isEmpty = false ∧ owner.utf8ByteSize ≤ 64 := by
      unfold JobRecord.holdsLease at hholds
      cases hlease : job.lease with
      | none => simp [hlease] at hholds
      | some lease =>
          simp only [hlease, Bool.decide_and, Bool.and_eq_true, decide_eq_true_eq] at hholds
          exact hholds.2.1 ▸ (h.inStep dagId jobId job row hjob hrow).owner lease hlease
    have hvalid := PostgresStore.validateOwnerAndLease_eq_ok_iff.mpr
      ⟨howner.1, howner.2, hlow, by simpa [h.config, SchedulerConfig.default] using hhigh⟩
    rcases PostgresStore.heartbeat_cases sides.db hvalid htexts uuid (milliseconds nowMs) with
      ⟨_, hstored⟩ | ⟨hnone, _⟩
    · rw [hcalled] at hafter ⊢
      rw [hstored]
      refine ⟨rfl, h.compareAndSet (heartbeatStatement ..) hcorresponds (fun _ => rfl)
        (Scheduler.dags_modifyJob ..) rfl rfl rfl ⟨job, hjob, hholds⟩
        (fun job row _ hleased hinStep => hinStep.extended hleased hrange) ⟨specs, hafter⟩
        h.config rfl⟩
    · exact absurd (hiff.mpr ⟨job, hjob, hholds⟩) hnone
  · -- the store refuses the lease length, or finds no lease of the caller
    rw [hcalled]
    have hrefused : ∃ error, PostgresStore.heartbeat sides.db dagId jobId owner uuid leaseMs
        (milliseconds nowMs) = (.error error, sides.db) := by
      rcases PostgresStore.validateOwnerAndLease_cases owner leaseMs with hvalid | hinvalid
      · rcases PostgresStore.heartbeat_cases sides.db hvalid htexts uuid (milliseconds nowMs) with
          ⟨hholds, _⟩ | ⟨_, hstored⟩
        · obtain ⟨job, hjob, hholds⟩ := hiff.mp hholds
          obtain ⟨_, _, hlow, hhigh⟩ := PostgresStore.validateOwnerAndLease_eq_ok_iff.mp hvalid
          exact absurd ⟨hlow, by simpa [h.config, SchedulerConfig.default] using hhigh⟩
            (hnot job hjob hholds)
        · exact ⟨_, hstored⟩
      · unfold PostgresStore.heartbeat
        rw [hinvalid]
        exact ⟨_, rfl⟩
    obtain ⟨_, hstored⟩ := hrefused
    rw [hstored]
    exact ⟨rfl, h⟩

theorem fail (h : Related sides) {dagId jobId owner token : String} {uuid : Uuid}
    (hcorresponds : Corresponds sides.names token uuid)
    (htexts : PostgresStore.bindTexts [dagId, jobId, owner] = .ok ()) (nowMs : ℤ) :
    report .moved (PostgresStore.fail sides.db dagId jobId owner uuid (milliseconds nowMs)).1 =
      report .moved (sides.scheduler.fail dagId jobId owner token nowMs).1 ∧
    Related ⟨sides.names, (sides.scheduler.fail dagId jobId owner token nowMs).2,
      (PostgresStore.fail sides.db dagId jobId owner uuid (milliseconds nowMs)).2⟩ := by
  obtain ⟨specs, hinvariant⟩ := h.invariant
  have hafter := hinvariant.fail dagId jobId owner token nowMs
  have hiff := h.holds_iff hcorresponds dagId jobId owner nowMs
  rcases Scheduler.fail_cases sides.scheduler dagId jobId owner token nowMs with
    ⟨job, hjob, hholds, hcalled⟩ | ⟨hnot, error, hcalled⟩
  · rcases PostgresStore.fail_cases sides.db htexts uuid (milliseconds nowMs) with
      ⟨row, hrow, hmatches, hstored⟩ | ⟨hnone, _⟩
    · have hinStep := h.inStep dagId jobId job row hjob hrow
      rw [hcalled] at hafter ⊢
      rw [hstored]
      refine ⟨?_, h.compareAndSet (failStatement dagId jobId owner uuid (milliseconds nowMs))
        hcorresponds (fun _ => rfl)
        (Scheduler.dags_retryOrDeadLetter ⟨job, hjob⟩ nowMs) (by simp) (by simp) (by simp)
        ⟨job, hjob, hholds⟩ (fun job row _ _ hinStep => hinStep.retried ..)
        ⟨specs, hafter⟩ (by simpa using h.config) (by simp)⟩
      rw [Scheduler.retryOrDeadLetter_of_job? hjob]
      exact congrArg Report.moved
        (hinStep.retried sides.scheduler.config nowMs (milliseconds nowMs) jobId).state
    · exact absurd (hiff.mpr ⟨job, hjob, hholds⟩) hnone
  · rcases PostgresStore.fail_cases sides.db htexts uuid (milliseconds nowMs) with
      ⟨row, hrow, hmatches, _⟩ | ⟨_, hstored⟩
    · obtain ⟨job, hjob, hholds⟩ := hiff.mp ⟨row, hrow, hmatches⟩
      rw [hnot job hjob] at hholds
      cases hholds
    · rw [hcalled, hstored]
      exact ⟨rfl, h⟩

/-! ## Cancellation -/

theorem rowsAffected_cancel (h : Related sides) {dagId : String} {dag : DagRecord}
    (hdag : sides.scheduler.dags.get? dagId = some dag) :
    (sides.db.execute (cancelStatement dagId)).1 =
      dag.jobs.countValues fun _ job => !job.isTerminal := by
  -- the open jobs, under the keys that their rows have in the table of all jobs
  have hnodup : ((dag.jobs.entries.filter fun entry => !entry.2.isTerminal).map
      fun entry => (dagId, entry.1)).Nodup := by
    have hkeys := dag.jobs.nodupKeys.sublist
      ((List.filter_sublist (p := fun entry => !entry.2.isTerminal)).map Prod.fst)
    rw [List.nodup_map_iff_inj_on (hkeys.of_map _)]
    intro first hfirst second hsecond hsame
    exact List.inj_on_of_nodup_map hkeys hfirst hsecond (Prod.mk.inj hsame).2
  rw [Database.rowsAffected_execute, Table.countValues_eq_length hnodup, List.length_map,
    ← List.countP_eq_length_filter]
  · rfl
  · intro key
    obtain ⟨dagId', jobId⟩ := key
    simp only [List.mem_map, List.mem_filter, Prod.exists, Prod.mk.injEq, Table.mem_entries]
    constructor
    · rintro ⟨_, job, ⟨hlookup, hlive⟩, hsameDag, hsameJob⟩
      subst hsameDag hsameJob
      have hjob := Scheduler.job?_eq_some_iff.mpr ⟨dag, hdag, hlookup⟩
      obtain ⟨row, hrow, _⟩ := h.mirrors.exists_row hjob
      exact ⟨row, hrow, ((h.inStep _ _ job row hjob hrow).cancelStatement_iff ..).mpr
        ⟨rfl, by simpa using hlive⟩⟩
    · rintro ⟨row, hrow, happlies⟩
      obtain ⟨job, hjob, _⟩ := h.mirrors.exists_record hrow
      obtain ⟨hsame, hlive⟩ :=
        ((h.inStep _ _ job row hjob hrow).cancelStatement_iff ..).mp happlies
      subst hsame
      have hlookup := Scheduler.get?_jobs_of_job? hdag hjob
      exact ⟨jobId, job, ⟨hlookup, by simpa using hlive⟩, rfl, rfl⟩

theorem cancel (h : Related sides) {dagId : String} (hnul : hasNul dagId = false) :
    report .counted (PostgresStore.cancel sides.db dagId).1 =
      report .counted (sides.scheduler.cancel dagId).1 ∧
    Related ⟨sides.names, (sides.scheduler.cancel dagId).2,
      (PostgresStore.cancel sides.db dagId).2⟩ := by
  obtain ⟨specs, hinvariant⟩ := h.invariant
  have hafter := hinvariant.cancel dagId
  rcases Scheduler.cancel_cases sides.scheduler dagId with
    ⟨dag, hdag, hcount, hcalled⟩ | ⟨habsent, hcalled⟩
  · rcases PostgresStore.cancel_cases sides.db hnul with ⟨_, hstored⟩ | ⟨hnone, _⟩
    · rw [hcount, hstored]
      refine ⟨congrArg Report.counted (h.rowsAffected_cancel hdag),
        h.rewrite (Scheduler.dags_cancel hcount)
        (Database.get?_execute sides.db (cancelStatement dagId))
        (fun dagId' jobId job row _ _ hinStep => ?_) (fun dagId' => ?_)
        (fun dagId' jobId job hmarked hjob => ?_) rfl ⟨specs, hafter⟩
        (by rw [hcalled]; exact h.config) (by rw [hcalled])⟩
      · exact hinStep.cancelled ..
      · simp only
        unfold Table.contains
        rw [Table.get?_modify]
        split <;> simp
      · simp only at hmarked
        rw [Table.get?_modify] at hmarked
        by_cases hsame : dagId' = dagId
        · rw [if_pos hsame]
          exact isTerminal_cancelled job
        · rw [if_neg hsame] at hmarked ⊢
          exact h.mirrors.cancelled dagId' jobId job hmarked hjob
    · rw [h.mirrors.dag, Table.contains, hdag] at hnone
      cases hnone
  · rcases PostgresStore.cancel_cases sides.db hnul with ⟨hpresent, _⟩ | ⟨_, hstored⟩
    · rw [h.mirrors.dag, Table.contains, habsent] at hpresent
      cases hpresent
    · rw [hcalled, hstored]
      exact ⟨rfl, h⟩

/-! ## Admission -/

theorem submit (h : Related sides) {spec : DagSpec} {nowMs : ℤ}
    (hnul : ∀ job ∈ spec.jobs, hasNul job.payload = false) (hnodup : spec.dependencies.Nodup)
    (hadmissible : (sides.scheduler.submit spec nowMs).1 ≠ .error .overloaded) :
    report (fun _ => .done) (PostgresStore.submit sides.db spec (milliseconds nowMs)).1 =
      report (fun _ => .done) (sides.scheduler.submit spec nowMs).1 ∧
    Related ⟨sides.names, (sides.scheduler.submit spec nowMs).2,
      (PostgresStore.submit sides.db spec (milliseconds nowMs)).2⟩ := by
  obtain ⟨specs, hinvariant⟩ := h.invariant
  rcases h.mirrors.submit_cases hnul hnodup hadmissible with
    ⟨hcalled, hstored, ⟨dag, hadmitted⟩, hpersisted⟩ | ⟨⟨_, hcalled⟩, _, hstored⟩
  · obtain ⟨order, hvalid⟩ : ∃ order, spec.validate = .ok order := by
      unfold Scheduler.submit at hcalled
      cases hvalid : spec.validate with
      | error error => rw [hvalid] at hcalled; cases hcalled
      | ok order => exact ⟨order, rfl⟩
    rw [hcalled, hstored]
    refine ⟨rfl, hadmitted.config.trans h.config, ⟨_, hinvariant.submit hvalid hadmitted⟩,
      h.mirrors.submit hadmitted hpersisted, fun dagId jobId job row hjob hrow => ?_, h.names,
      fun pair hpair => ?_⟩
    · unfold Scheduler.job? at hjob
      simp only [hadmitted.dags, Table.get?_insert] at hjob
      by_cases hsame : dagId = spec.id
      · rw [if_pos hsame, Option.bind_some] at hjob
        rcases (hpersisted.job dagId jobId row).mp hrow with
          ⟨hne, _⟩ | ⟨_, stored, hmem, hid, hfresh⟩
        · exact absurd hsame hne
        · obtain ⟨record, hrecord, hspec⟩ := hadmitted.built.exists_record hmem
          rw [hid, hjob] at hrecord
          cases hrecord
          rw [hfresh, hadmitted.records jobId job hjob, ← hspec]
          exact InStep.initial _ _
            ((accepted_of_validate hvalid).jobs_valid _ (hspec ▸ hmem)) nowMs
      · rw [if_neg hsame] at hjob
        simp only [hpersisted.get?_jobs_of_ne hsame] at hrow
        exact h.inStep dagId jobId job row hjob hrow
    · simp only [hadmitted.sequence]
      exact h.issued pair hpair
  · rw [hcalled, hstored]
    exact ⟨rfl, h⟩

/-! ## Claims -/

/-- A token of the next number is new. -/
theorem oneToOne_cons (h : Related sides) {uuid : Uuid}
    (hfresh : ∀ token, (token, uuid) ∉ sides.names) {dagId jobId : String} {n : ℕ}
    (hnumber : sides.scheduler.sequence < n) :
    OneToOne ((leaseToken dagId jobId n, uuid) :: sides.names) := by
  have hnew : ∀ uuid', (leaseToken dagId jobId n, uuid') ∉ sides.names := by
    intro uuid' hpair
    obtain ⟨_, _, m, hle, htoken⟩ := h.issued _ hpair
    have := leaseToken_injective htoken
    omega
  constructor
  · intro token first second hfirst hsecond
    rcases List.mem_cons.mp hfirst with hfirst | hfirst
    · cases hfirst
      rcases List.mem_cons.mp hsecond with hsecond | hsecond
      · cases hsecond
        rfl
      · exact absurd hsecond (hnew _)
    · rcases List.mem_cons.mp hsecond with hsecond | hsecond
      · cases hsecond
        exact absurd hfirst (hnew _)
      · exact h.names.left token _ _ hfirst hsecond
  · intro first second token hfirst hsecond
    rcases List.mem_cons.mp hfirst with hfirst | hfirst
    · cases hfirst
      rcases List.mem_cons.mp hsecond with hsecond | hsecond
      · cases hsecond
        rfl
      · exact absurd hsecond (hfresh _)
    · rcases List.mem_cons.mp hsecond with hsecond | hsecond
      · cases hsecond
        exact absurd hfirst (hfresh _)
      · exact h.names.right _ _ token hfirst hsecond

theorem unixMillis_deadline (nowMs leaseMs : ℤ) :
    PostgresStore.unixMillis (milliseconds nowMs + milliseconds leaseMs) =
      I64.saturatingAdd nowMs leaseMs := by
  have hscale : (milliseconds nowMs + milliseconds leaseMs) * 1000 =
      (nowMs + leaseMs) * 1000000 := by
    unfold milliseconds
    ring
  rw [PostgresStore.unixMillis, hscale, Int.mul_tdiv_cancel _ (by decide)]
  rfl

theorem grant (h : Related sides) {owner : String} {uuid : Uuid} {nowMs leaseMs : ℤ}
    (howner : owner.isEmpty = false ∧ owner.utf8ByteSize ≤ 64)
    (hrange : I64.InRange (nowMs + leaseMs)) (hsequence : sides.scheduler.sequence < 2 ^ 64 - 1)
    (hfresh : ∀ token, (token, uuid) ∉ sides.names) {key : ReadyKey} {job : JobRecord}
    {row : JobRow} (hjob : sides.scheduler.job? key.dagId key.jobId = some job)
    (hready : job.isReady = true) (hrow : sides.db.jobs.get? (key.dagId, key.jobId) = some row)
    (ready : MinHeap ReadyKey) (hinvariant : ∃ specs,
      ((sides.scheduler.withReady ready).grant key job owner nowMs leaseMs).2.Invariant specs) :
    let granted := (sides.scheduler.withReady ready).grant key job owner nowMs leaseMs
    let stored := PostgresStore.grantCandidate sides.db (key.dagId, key.jobId) row owner uuid
      leaseMs (milliseconds nowMs)
    stored.1.grant = granted.1.grant ∧
      Related ⟨(granted.1.leaseToken, uuid) :: sides.names, granted.2, stored.2⟩ := by
  intro granted stored
  have hinStep := h.inStep _ _ job row hjob hrow
  have hattempts : U16.saturatingAdd job.attempts 1 = job.attempts + 1 := by
    have hlt := hinStep.attempts_lt (.inr hready)
    have hbudget := hinStep.budget
    exact U16.saturatingAdd_eq (by omega)
  have hnext : U64.saturatingAdd sides.scheduler.sequence 1 = sides.scheduler.sequence + 1 :=
    U64.saturatingAdd_eq (by omega)
  have hnumber : sides.scheduler.sequence < U64.saturatingAdd sides.scheduler.sequence 1 := by
    omega
  have hnotTerminal : ¬job.isTerminal = true := by
    intro hterminal
    simp only [JobRecord.isReady, JobRecord.isTerminal, decide_eq_true_eq] at hready hterminal
    rcases hready with hstate | hstate <;> simp [hstate] at hterminal
  constructor
  · show StoreClaim.grant ⟨key.dagId, key.jobId, row.kind, row.payload, row.attempts + 1, uuid, _⟩ =
      ClaimedJob.grant ⟨key.dagId, key.jobId, job.spec.kind, job.spec.payload, _, _, _⟩
    unfold StoreClaim.grant ClaimedJob.grant
    simp only [hinStep.kind, hinStep.payload, hinStep.attempts, hattempts, unixMillis_deadline]
  · -- the update of the candidate, as a rewriting of all rows
    have hrows : ∀ dagId jobId, stored.2.jobs.get? (dagId, jobId) =
        (sides.db.jobs.get? (dagId, jobId)).map fun row =>
          if dagId = key.dagId ∧ jobId = key.jobId then
            grantLease owner uuid leaseMs (milliseconds nowMs) row else row := by
      intro dagId jobId
      refine (Table.get?_modify sides.db.jobs (key.dagId, key.jobId) _ (dagId, jobId)).trans ?_
      by_cases hkey : dagId = key.dagId ∧ jobId = key.jobId
      · rw [if_pos (Prod.ext hkey.1 hkey.2)]
        simp only [if_pos hkey]
        rfl
      · rw [if_neg fun hsame => hkey (Prod.mk.inj hsame)]
        simp [hkey]
    refine h.rewriteNamed (Scheduler.dags_grant hjob ready owner nowMs leaseMs) hrows
      (fun dagId jobId job' row' hjob' hrow' hold => ?_) (fun _ => rfl)
      (h.terminal fun dagId jobId job' hjob' hterminal => ?_) rfl hinvariant h.config
      (h.oneToOne_cons hfresh hnumber) fun pair hpair => ?_
    · rcases Scheduler.job?_eq_or_ne hjob hjob' with ⟨rfl, rfl, rfl⟩ | hkey
      · rw [atJob_self, if_pos ⟨rfl, rfl⟩]
        exact (hold.mono fun pair hpair => List.mem_cons_of_mem _ hpair).granted hready howner
          hrange List.mem_cons_self
      · rw [atJob_of_ne hkey, if_neg hkey]
        exact hold.mono fun pair hpair => List.mem_cons_of_mem _ hpair
    · rcases Scheduler.job?_eq_or_ne hjob hjob' with ⟨rfl, rfl, rfl⟩ | hkey
      · exact absurd hterminal hnotTerminal
      · rw [atJob_of_ne hkey]
        exact hterminal
    · rw [Scheduler.sequence_grant, hnext]
      rcases List.mem_cons.mp hpair with hnew | hold
      · rw [hnew]
        exact ⟨_, _, _, hnext.le, rfl⟩
      · obtain ⟨dagId, jobId, n, hle, htoken⟩ := h.issued pair hold
        exact ⟨dagId, jobId, n, by omega, htoken⟩

theorem validLease_iff {owner : String} {leaseMs : ℤ} :
    Scheduler.validLease .default owner leaseMs = true ↔
      PostgresStore.validateOwnerAndLease owner leaseMs = .ok () := by
  rw [PostgresStore.validateOwnerAndLease_eq_ok_iff]
  unfold Scheduler.validLease SchedulerConfig.default
  simp only [Bool.not_eq_eq_eq_not, Bool.not_true, Bool.or_eq_false_iff, decide_eq_false_iff_not,
    not_lt, not_le, and_assoc]
  rfl

theorem claim (h : Related sides) {owner : String} {uuid : Uuid} {nowMs leaseMs : ℤ}
    (hnul : hasNul owner = false) (hrange : I64.InRange (nowMs + leaseMs))
    (hsequence : sides.scheduler.sequence < 2 ^ 64 - 1)
    (hfresh : ∀ token, (token, uuid) ∉ sides.names)
    (hsame : ∀ first second, (sides.scheduler.claim owner nowMs leaseMs).1 = .ok first →
      (PostgresStore.claim sides.db owner leaseMs uuid (milliseconds nowMs)).1 = .ok second →
      first.map (fun claimed => (claimed.dagId, claimed.jobId)) =
        second.map fun claimed => (claimed.dagId, claimed.jobId)) :
    report (fun claimed => .claimed (claimed.map StoreClaim.grant))
        (PostgresStore.claim sides.db owner leaseMs uuid (milliseconds nowMs)).1 =
      report (fun claimed => .claimed (claimed.map ClaimedJob.grant))
        (sides.scheduler.claim owner nowMs leaseMs).1 ∧
    Related ⟨namesAfterClaim sides.names uuid (sides.scheduler.claim owner nowMs leaseMs).1,
      (sides.scheduler.claim owner nowMs leaseMs).2,
      (PostgresStore.claim sides.db owner leaseMs uuid (milliseconds nowMs)).2⟩ := by
  obtain ⟨specs, hinvariant⟩ := h.invariant
  have hafter := hinvariant.claim owner nowMs leaseMs
  have hreaped := (h.reap nowMs).2
  rcases Scheduler.claim_cases hinvariant.heap hinvariant.ownIds owner nowMs leaseMs with
    ⟨hinvalid, hcalled⟩ | ⟨hvalid, ready, ⟨_, hcalled, _⟩ | ⟨key, job, hselects, hcalled, _⟩⟩
  · rw [hcalled]
    rw [h.config] at hinvalid
    have hrefused : PostgresStore.claim sides.db owner leaseMs uuid (milliseconds nowMs) =
        (.error .invalidConfiguration, sides.db) := by
      rcases PostgresStore.validateOwnerAndLease_cases owner leaseMs with hvalid | hstored
      · rw [validLease_iff.mpr hvalid] at hinvalid
        cases hinvalid
      · unfold PostgresStore.claim
        rw [hstored]
        rfl
    rw [hrefused]
    exact ⟨rfl, h⟩
  all_goals
    rw [h.config] at hvalid
    have hstoreValid := validLease_iff.mp hvalid
    rcases PostgresStore.claim_cases sides.db hstoreValid hnul uuid (milliseconds nowMs) with
      ⟨⟨dagId, jobId⟩, row, hpicks, hstored⟩ | ⟨_, hstored⟩
    all_goals
      have hpick := hsame _ _ (congrArg Prod.fst hcalled) (congrArg Prod.fst hstored)
      rw [hcalled] at hafter
      rw [hcalled, hstored]
  · cases hpick
  · exact ⟨rfl, hreaped.withReady ready ⟨specs, hafter⟩⟩
  · cases hpick
    obtain ⟨hempty, hsize, _⟩ := PostgresStore.validateOwnerAndLease_eq_ok_iff.mp hstoreValid
    obtain ⟨hgrant, hrelated⟩ := hreaped.grant ⟨hempty, hsize⟩ hrange
      ((Scheduler.sequence_reap ..).trans_lt hsequence) hfresh hselects.eligible.1
      hselects.eligible.2.1 hpicks.stored ready ⟨specs, hafter⟩
    exact ⟨congrArg (fun grant => Report.claimed (some grant)) hgrant, hrelated⟩
  · cases hpick

end Related

end JobOrchestrator
