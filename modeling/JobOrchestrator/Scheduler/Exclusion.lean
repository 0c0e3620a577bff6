import JobOrchestrator.Scheduler.Laws

/-!
# Mutual exclusion in time

A claim gives its caller a lease with a deadline, and every later heartbeat with
the token of the lease gives another.  `latestDeadline` reads the last of them
off the events.  As long as nobody has reported a failure with the token, the
job is in one of three situations (`Guarded`): it is finished for good, its
current lease is this one with exactly that deadline, or the deadline has passed
at some time that the run has seen.  A claim of the job ends the last of them
only, which under a clock that never goes back gives `mutual_exclusion`.
-/

namespace JobOrchestrator

open Scheduler

/-- The clock value of a call. -/
def Event.nowMs? : Event → Option ℤ
  | .submit _ nowMs _ => some nowMs
  | .claim _ nowMs _ _ => some nowMs
  | .heartbeat _ _ _ _ nowMs _ _ => some nowMs
  | .complete _ _ _ _ _ nowMs _ => some nowMs
  | .fail _ _ _ _ nowMs _ => some nowMs
  | .reap nowMs _ => some nowMs
  | .cancel _ _ => none

/-- The clock values of a history, the latest first. -/
def clock (history : List Event) : List ℤ := history.filterMap Event.nowMs?

/-- The clock values of the run never decrease. -/
def NeverBack (history : List Event) : Prop := (clock history).Pairwise fun later earlier =>
  earlier ≤ later

/-- The deadline of a lease after an event: a heartbeat with its token moves it. -/
def Event.deadlineAfter (dagId jobId token : String) (deadline : ℤ) : Event → ℤ
  | .heartbeat dagId' jobId' _ token' _ _ (.ok expiresAtMs) =>
      if dagId' = dagId ∧ jobId' = jobId ∧ token' = token then expiresAtMs else deadline
  | _ => deadline

/-- The last deadline granted for a lease by its claim and the events after it. -/
def latestDeadline (dagId jobId token : String) (granted : ℤ) : List Event → ℤ
  | [] => granted
  | event :: rest =>
      event.deadlineAfter dagId jobId token (latestDeadline dagId jobId token granted rest)

/-- The event is an accepted failure report with the token. -/
def Event.GivesUp (dagId jobId token : String) : Event → Prop
  | .fail dagId' jobId' _ token' _ (.ok _) =>
      dagId' = dagId ∧ jobId' = jobId ∧ token' = token
  | _ => False

/-- The job is finished, or leased under the token until the deadline, or the
deadline has passed. -/
def Scheduler.Guarded (scheduler : Scheduler) (history : List Event) (dagId jobId token : String)
    (deadline : ℤ) : Prop :=
  ∃ job, scheduler.job? dagId jobId = some job ∧
    (job.isTerminal = true ∨
      (∃ lease, job.lease = some lease ∧ lease.token = token ∧ lease.expiresAtMs = deadline) ∨
      ∃ time ∈ clock history, deadline ≤ time)

theorem mem_clock_cons {event : Event} {history : List Event} {time : ℤ} :
    time ∈ clock (event :: history) ↔ event.nowMs? = some time ∨ time ∈ clock history := by
  unfold clock
  cases hevent : event.nowMs? with
  | none => simp [hevent]
  | some nowMs => simp [hevent, eq_comm]

theorem token_of_holdsLease {job : JobRecord} {owner token : String} {nowMs : ℤ}
    (h : job.holdsLease owner token nowMs = true) :
    ∃ lease, job.lease = some lease ∧ lease.token = token ∧ nowMs < lease.expiresAtMs := by
  unfold JobRecord.holdsLease at h
  split at h
  · cases h
  next lease hlease =>
    simp only [decide_eq_true_eq] at h
    exact ⟨lease, hlease, h.2.2.1, h.2.2.2⟩

theorem reaped_of_lt {job : JobRecord} {lease : Lease} (hlease : job.lease = some lease)
    {nowMs : ℤ} (hlt : nowMs < lease.expiresAtMs) (config : SchedulerConfig) (jobId : String) :
    reaped config nowMs jobId job = job := by
  unfold reaped
  rw [if_neg]
  simp [JobRecord.leaseExpired, hlease, hlt]

/-- What one event does to the lease under a token: it finishes the job, moves the
deadline, comes at or after the deadline, or leaves the lease alone. -/
theorem Event.lease_recordAfter {before : Scheduler} {event : Event}
    (hjustified : event.Justified before) {dagId jobId : String} {job : JobRecord}
    (hjob : before.job? dagId jobId = some job) {lease : Lease} (hlease : job.lease = some lease)
    (hstate : job.state = .leased) (hkeeps : ¬event.GivesUp dagId jobId lease.token) :
    (event.recordAfter before dagId jobId job).isTerminal = true ∨
      (∃ after, (event.recordAfter before dagId jobId job).lease = some after ∧
        after.token = lease.token ∧
        after.expiresAtMs =
          event.deadlineAfter dagId jobId lease.token lease.expiresAtMs) ∨
      event.deadlineAfter dagId jobId lease.token lease.expiresAtMs = lease.expiresAtMs ∧
        ∃ nowMs, event.nowMs? = some nowMs ∧ lease.expiresAtMs ≤ nowMs := by
  -- a reap either comes too late or leaves the record as it is
  have hreap : ∀ nowMs, lease.expiresAtMs ≤ nowMs ∨ reaped before.config nowMs jobId job = job :=
    fun nowMs => (le_or_gt lease.expiresAtMs nowMs).imp_right fun hlt =>
      reaped_of_lt hlease hlt before.config jobId
  have hkept : ∀ after : JobRecord, after.lease = job.lease → ∃ kept, after.lease = some kept ∧
      kept.token = lease.token ∧ kept.expiresAtMs = lease.expiresAtMs :=
    fun after hafter => ⟨lease, hafter.trans hlease, rfl, rfl⟩
  unfold Event.recordAfter
  split
  next owner nowMs leaseMs claimed =>
    rcases hreap nowMs with hlate | hsame
    · exact .inr (.inr ⟨rfl, nowMs, rfl, hlate⟩)
    · obtain ⟨_, _, _, taken, ⟨htaken, hready, _⟩, _⟩ := hjustified
      have hne : ¬(dagId = claimed.dagId ∧ jobId = claimed.jobId) := by
        intro hkey
        obtain ⟨rfl, rfl⟩ := hkey
        rw [job?_reap nowMs hjob, hsame, Option.some.injEq] at htaken
        subst htaken
        simp [JobRecord.isReady, hstate] at hready
      rw [atJob_of_ne hne, hsame]
      exact .inr (.inl (hkept job rfl))
  next owner nowMs leaseMs =>
    rcases hreap nowMs with hlate | hsame
    · exact .inr (.inr ⟨rfl, nowMs, rfl, hlate⟩)
    · rw [hsame]
      exact .inr (.inl (hkept job rfl))
  next dagId' jobId' owner token nowMs leaseMs expiresAtMs =>
    obtain ⟨_, _, holder, hholder, hholds⟩ := hjustified
    refine .inr (.inl ?_)
    by_cases hkey : dagId = dagId' ∧ jobId = jobId'
    · obtain ⟨rfl, rfl⟩ := hkey
      rw [hjob] at hholder
      cases hholder
      obtain ⟨held, hheld, htoken, _⟩ := token_of_holdsLease hholds
      rw [hlease] at hheld
      cases hheld
      rw [atJob_self]
      refine ⟨{ lease with expiresAtMs }, by rw [extended, hlease, Option.map_some], rfl, ?_⟩
      exact (if_pos ⟨rfl, rfl, htoken.symm⟩).symm
    · have hnot : ¬(dagId' = dagId ∧ jobId' = jobId ∧ token = lease.token) := fun hsame =>
        hkey ⟨hsame.1.symm, hsame.2.1.symm⟩
      rw [atJob_of_ne hkey]
      simp only [Event.deadlineAfter, hnot, if_false]
      exact hkept job rfl
  next dagId' jobId' owner token output nowMs =>
    split
    next hdag =>
      by_cases hsame : jobId = jobId'
      · subst hsame
        exact .inl (by simp [JobRecord.isTerminal])
      · rw [completedRecord_of_ne _ _ _ _ hsame]
        exact .inr (.inl (hkept _ (lease_released ..)))
    next => exact .inr (.inl (hkept job rfl))
  next dagId' jobId' owner token nowMs state =>
    obtain ⟨holder, hholder, hholds, _⟩ := hjustified
    by_cases hkey : dagId = dagId' ∧ jobId = jobId'
    · -- a failure of this job would be reported with the token of its lease
      obtain ⟨rfl, rfl⟩ := hkey
      rw [hjob] at hholder
      cases hholder
      obtain ⟨held, hheld, htoken, _⟩ := token_of_holdsLease hholds
      rw [hlease] at hheld
      cases hheld
      exact absurd ⟨rfl, rfl, htoken.symm⟩ hkeeps
    · rw [atJob_of_ne hkey]
      exact .inr (.inl (hkept job rfl))
  next nowMs _ =>
    rcases hreap nowMs with hlate | hsame
    · exact .inr (.inr ⟨rfl, nowMs, rfl, hlate⟩)
    · rw [hsame]
      exact .inr (.inl (hkept job rfl))
  next =>
    split
    · exact .inl (isTerminal_cancelled job)
    · exact .inr (.inl (hkept job rfl))
  next _ _ hheartbeat _ _ _ _ =>
    have hsame : event.deadlineAfter dagId jobId lease.token lease.expiresAtMs =
        lease.expiresAtMs := by
      unfold Event.deadlineAfter
      split
      · exact absurd rfl (hheartbeat _ _ _ _ _ _ _)
      · rfl
    rw [hsame]
    exact .inr (.inl (hkept job rfl))

/-- An event that moves the deadline under a token finds the job leased under it
and leaves it so. -/
theorem Event.deadlineAfter_cases {before : Scheduler} {event : Event}
    (hjustified : event.Justified before) (dagId jobId token : String) (deadline : ℤ) :
    event.deadlineAfter dagId jobId token deadline = deadline ∨
      ∃ job held lease, before.job? dagId jobId = some job ∧ job.lease = some held ∧
        held.token = token ∧ (event.recordAfter before dagId jobId job).lease = some lease ∧
        lease.token = token ∧
        lease.expiresAtMs = event.deadlineAfter dagId jobId token deadline := by
  unfold Event.deadlineAfter
  split
  next dagId' jobId' owner token' nowMs leaseMs expiresAtMs =>
    split
    next hkey =>
      obtain ⟨rfl, rfl, rfl⟩ := hkey
      obtain ⟨_, _, holder, hholder, hholds⟩ := hjustified
      obtain ⟨held, hheld, htoken, _⟩ := token_of_holdsLease hholds
      refine .inr ⟨holder, held, { held with expiresAtMs }, hholder, hheld, htoken, ?_, htoken,
        rfl⟩
      show (atJob _ _ (extended expiresAtMs) _ _ holder).lease = _
      rw [atJob_self, extended, hheld, Option.map_some]
    next => exact .inl rfl
  next => exact .inl rfl

theorem Scheduler.Guarded.perform {config : SchedulerConfig} {history : List Event}
    {scheduler : Scheduler} (hrun : Run config history scheduler) {dagId jobId token : String}
    {deadline : ℤ} (h : scheduler.Guarded history dagId jobId token deadline)
    (operation : Operation)
    (hkeeps : ¬(operation.perform scheduler).1.GivesUp dagId jobId token) :
    (operation.perform scheduler).2.Guarded ((operation.perform scheduler).1 :: history)
      dagId jobId token
      ((operation.perform scheduler).1.deadlineAfter dagId jobId token deadline) := by
  have hinvariant := run_invariant hrun
  have hjustified := perform_justified hinvariant operation
  obtain ⟨job, hjob, hcase⟩ := h
  refine ⟨_, perform_record hinvariant operation hjob, ?_⟩
  rcases hcase with hterminal | ⟨lease, hlease, rfl, rfl⟩ | ⟨time, htime, hpassed⟩
  · rw [hinvariant.recordAfter_of_isTerminal hjustified hjob hterminal]
    exact .inl hterminal
  · have hstate := (hinvariant.lease dagId jobId job hjob).mp (by rw [hlease]; rfl)
    rcases Event.lease_recordAfter hjustified hjob hlease hstate hkeeps with
      hterminal | hkept | ⟨hsame, nowMs, hnow, hlate⟩
    · exact .inl hterminal
    · exact .inr (.inl hkept)
    · rw [hsame]
      exact .inr (.inr ⟨nowMs, mem_clock_cons.mpr (.inl hnow), hlate⟩)
  · rcases Event.deadlineAfter_cases hjustified dagId jobId token deadline with
      hsame | ⟨_, _, lease, hstored, _, _, hlease, htoken, hexpires⟩
    · rw [hsame]
      exact .inr (.inr ⟨time, mem_clock_cons.mpr (.inr htime), hpassed⟩)
    · rw [hjob] at hstored
      cases hstored
      exact .inr (.inl ⟨lease, hlease, htoken, hexpires⟩)

/-! ## Runs -/

theorem run_cons {config : SchedulerConfig} {event : Event} {history : List Event}
    {scheduler : Scheduler} (hrun : Run config (event :: history) scheduler) :
    ∃ before, ∃ operation : Operation, Run config history before ∧
      (operation.perform before).1 = event ∧ (operation.perform before).2 = scheduler := by
  cases hrun with
  | step operation hearlier => exact ⟨_, operation, hearlier, rfl, rfl⟩

theorem run_append {config : SchedulerConfig} {later earlier : List Event}
    {scheduler : Scheduler} (hrun : Run config (later ++ earlier) scheduler) :
    ∃ before, Run config earlier before := by
  induction later generalizing scheduler with
  | nil => exact ⟨scheduler, hrun⟩
  | cons event rest ih =>
      obtain ⟨before, _, hbefore, _, _⟩ := run_cons hrun
      exact ih hbefore

theorem lease?_of_claimed {config : SchedulerConfig} {history : List Event}
    {scheduler : Scheduler} (hrun : Run config history scheduler) {owner : String}
    {nowMs leaseMs : ℤ} {claimed : ClaimedJob} {earlier : List Event}
    (hhistory : history = .claim owner nowMs leaseMs (.ok (some claimed)) :: earlier) :
    scheduler.lease? claimed.dagId claimed.jobId =
      some ⟨owner, claimed.leaseToken, claimed.leaseExpiresAtMs⟩ := by
  rw [run_leases hrun, hhistory]
  exact if_pos ⟨rfl, rfl⟩

/-- From its claim on, as long as nobody gives it up, a lease guards its job. -/
theorem guarded_of_claimed {config : SchedulerConfig} {owner : String} {nowMs leaseMs : ℤ}
    {claimed : ClaimedJob} {earlier : List Event} (between : List Event) {scheduler : Scheduler}
    (hrun : Run config
      (between ++ .claim owner nowMs leaseMs (.ok (some claimed)) :: earlier) scheduler)
    (hkeeps : ∀ event ∈ between,
      ¬event.GivesUp claimed.dagId claimed.jobId claimed.leaseToken) :
    scheduler.Guarded (between ++ .claim owner nowMs leaseMs (.ok (some claimed)) :: earlier)
      claimed.dagId claimed.jobId claimed.leaseToken
      (latestDeadline claimed.dagId claimed.jobId claimed.leaseToken
        claimed.leaseExpiresAtMs between) := by
  induction between generalizing scheduler with
  | nil =>
      obtain ⟨job, hjob, hlease⟩ := Option.bind_eq_some_iff.mp (lease?_of_claimed hrun rfl)
      exact ⟨job, hjob, .inr (.inl ⟨_, hlease, rfl, rfl⟩)⟩
  | cons event rest ih =>
      obtain ⟨before, operation, hbefore, rfl, rfl⟩ := run_cons hrun
      have hguarded := ih hbefore fun other hother => hkeeps other (List.mem_cons_of_mem _ hother)
      exact hguarded.perform hbefore operation (hkeeps _ List.mem_cons_self)

theorem Scheduler.Guarded.le_of_claimed {config : SchedulerConfig} {history : List Event}
    {before : Scheduler} (hrun : Run config history before) {dagId jobId token : String}
    {deadline : ℤ} (h : before.Guarded history dagId jobId token deadline) {owner : String}
    {nowMs leaseMs : ℤ} {claimed : ClaimedJob} {operation : Operation}
    (hclaim : (operation.perform before).1 = .claim owner nowMs leaseMs (.ok (some claimed)))
    (hdag : claimed.dagId = dagId) (hjobId : claimed.jobId = jobId)
    (hclock : ∀ time ∈ clock history, time ≤ nowMs) : deadline ≤ nowMs := by
  have hjustified := perform_justified (run_invariant hrun) operation
  rw [hclaim] at hjustified
  obtain ⟨_, _, _, taken, ⟨htaken, hready, _⟩, _⟩ := hjustified
  obtain ⟨job, hjob, hcase⟩ := h
  rw [hdag, hjobId, job?_reap nowMs hjob, Option.some.injEq] at htaken
  rcases hcase with hterminal | ⟨lease, hlease, rfl, rfl⟩ | ⟨time, htime, hpassed⟩
  · rw [← htaken, reaped_of_isTerminal _ _ _ hterminal,
      not_isReady_of_isTerminal hterminal] at hready
    cases hready
  · by_contra hearly
    have hstate := ((run_invariant hrun).lease _ _ job hjob).mp (by rw [hlease]; rfl)
    rw [← htaken, reaped_of_lt hlease (not_le.mp hearly)] at hready
    simp [JobRecord.isReady, hstate] at hready
  · exact hpassed.trans (hclock time htime)

theorem le_of_neverBack {event : Event} {history : List Event} {nowMs : ℤ}
    (h : NeverBack (event :: history)) (hnow : event.nowMs? = some nowMs) :
    ∀ time ∈ clock history, time ≤ nowMs := by
  unfold NeverBack clock at h
  rw [List.filterMap_cons_some hnow, List.pairwise_cons] at h
  exact h.1

theorem NeverBack.append {later earlier : List Event} (h : NeverBack (later ++ earlier)) :
    NeverBack earlier := by
  unfold NeverBack clock at h
  rw [List.filterMap_append, List.pairwise_append] at h
  exact h.2.1

/-! ## Stale tokens -/

/-- The token carries a number from `n` upwards. -/
def NumberedFrom (n : ℕ) (token : String) : Prop :=
  ∃ dagId jobId m, n ≤ m ∧ token = leaseToken dagId jobId m

/-- The number of a claim bounds the sequence, and those of all later leases of the job. -/
theorem numbers_of_claimed {config : SchedulerConfig} {owner : String} {nowMs leaseMs : ℤ}
    {claimed : ClaimedJob} {earlier : List Event} (later : List Event) {scheduler : Scheduler}
    (hrun : Run config
      (later ++ .claim owner nowMs leaseMs (.ok (some claimed)) :: earlier) scheduler) :
    ∃ n, claimed.leaseToken = leaseToken claimed.dagId claimed.jobId n ∧ n ≤ 2 ^ 64 - 1 ∧
      n ≤ scheduler.sequence ∧ ∀ lease,
        scheduler.lease? claimed.dagId claimed.jobId = some lease →
          NumberedFrom n lease.token := by
  induction later generalizing scheduler with
  | nil =>
      have hlease := lease?_of_claimed hrun rfl
      obtain ⟨before, operation, hbefore, hevent, rfl⟩ := run_cons hrun
      have hjustified := perform_justified (run_invariant hbefore) operation
      have hsequence := (run_invariant hbefore).sequence_perform operation
      rw [hevent] at hjustified hsequence
      obtain ⟨_, _, htoken, _⟩ := hjustified
      have hnext : (operation.perform before).2.sequence =
          U64.saturatingAdd before.sequence 1 := by
        rcases hsequence with ⟨hnone, _⟩ | ⟨_, _, _, hnext⟩
        · cases hnone
        · exact hnext
      refine ⟨U64.saturatingAdd before.sequence 1, htoken, min_le_left _ _, hnext.ge,
        fun lease hsome => ?_⟩
      rw [hlease] at hsome
      cases hsome
      exact ⟨_, _, _, le_rfl, htoken⟩
  | cons event rest ih =>
      obtain ⟨before, operation, hbefore, rfl, rfl⟩ := run_cons hrun
      obtain ⟨n, htoken, hbound, hsequence, hleases⟩ := ih hbefore
      have hinvariant := run_invariant hbefore
      refine ⟨n, htoken, hbound, ?_, fun lease hlease => ?_⟩
      · rcases hinvariant.sequence_perform operation with ⟨_, hsame⟩ | ⟨_, _, _, hnext⟩
        · rwa [hsame]
        · rw [hnext]
          exact le_min hbound (by omega)
      · -- the lease is as old as the token, or it was issued just now
        rw [hinvariant.lease?_perform operation] at hlease
        rcases Event.token_of_leaseAfter hlease with hissues | ⟨old, hold, hsame⟩
        · rcases hinvariant.sequence_perform operation with ⟨hnone, _⟩ | ⟨_, _, hsome, _⟩
          · rw [hnone] at hissues
            cases hissues
          · rw [hsome, Option.some.injEq] at hissues
            exact ⟨_, _, _, le_min hbound (by omega), hissues.symm⟩
        · rw [← hsame]
          exact hleases old hold

theorem latestDeadline_of_stale {config : SchedulerConfig} {owner : String} {nowMs leaseMs : ℤ}
    {claimed : ClaimedJob} {earlier : List Event} {token : String}
    (hstale : ∀ n, claimed.leaseToken = leaseToken claimed.dagId claimed.jobId n →
      ¬NumberedFrom n token) (deadline : ℤ) (later : List Event) {scheduler : Scheduler}
    (hrun : Run config
      (later ++ .claim owner nowMs leaseMs (.ok (some claimed)) :: earlier) scheduler) :
    latestDeadline claimed.dagId claimed.jobId token deadline later = deadline := by
  induction later generalizing scheduler with
  | nil => rfl
  | cons event rest ih =>
      obtain ⟨before, operation, hbefore, rfl, rfl⟩ := run_cons hrun
      obtain ⟨n, htoken, _, _, hleases⟩ := numbers_of_claimed rest hbefore
      rw [latestDeadline, ih hbefore]
      rcases Event.deadlineAfter_cases (perform_justified (run_invariant hbefore) operation)
        claimed.dagId claimed.jobId token deadline with
        hsame | ⟨job, held, _, hjob, hheld, hheldToken, _⟩
      · exact hsame
      · -- what moves the deadline finds the job leased under a token of that claim or later
        refine absurd ?_ (hstale n htoken)
        rw [← hheldToken]
        exact hleases held (by rw [Scheduler.lease?, hjob, Option.bind_some, hheld])

theorem latestDeadline_append (dagId jobId token : String) (granted : ℤ)
    (later earlier : List Event) :
    latestDeadline dagId jobId token granted (later ++ earlier) =
      latestDeadline dagId jobId token
        (latestDeadline dagId jobId token granted earlier) later := by
  induction later with
  | nil => rfl
  | cons event rest ih => rw [List.cons_append, latestDeadline, ih, latestDeadline]

/-! ## Mutual exclusion -/

/-- The worker that was given the token has not given the job up, and the last
deadline that it was granted is still to come. -/
def HoldsUnexpired (history : List Event) (dagId jobId token : String) (now : ℤ) : Prop :=
  ∃ later owner nowMs leaseMs claimed earlier,
    history = later ++ .claim owner nowMs leaseMs (.ok (some claimed)) :: earlier ∧
    claimed.dagId = dagId ∧ claimed.jobId = jobId ∧ claimed.leaseToken = token ∧
    (∀ event ∈ later, ¬event.GivesUp dagId jobId token) ∧
    now < latestDeadline dagId jobId token claimed.leaseExpiresAtMs later

/-- Between two claims of a job the deadline of the first has passed, unless it
was given up. -/
theorem deadline_le_of_reclaimed {config : SchedulerConfig} {scheduler : Scheduler}
    {newer between older : List Event} {owner owner' : String} {nowMs nowMs' leaseMs leaseMs' : ℤ}
    {first second : ClaimedJob}
    (hrun : Run config (newer ++ .claim owner' nowMs' leaseMs' (.ok (some second)) ::
      (between ++ .claim owner nowMs leaseMs (.ok (some first)) :: older)) scheduler)
    (hclock : NeverBack (newer ++ .claim owner' nowMs' leaseMs' (.ok (some second)) ::
      (between ++ .claim owner nowMs leaseMs (.ok (some first)) :: older)))
    (hdag : second.dagId = first.dagId) (hjob : second.jobId = first.jobId)
    (hkeeps : ∀ event ∈ between,
      ¬event.GivesUp first.dagId first.jobId first.leaseToken) :
    latestDeadline first.dagId first.jobId first.leaseToken first.leaseExpiresAtMs between ≤
      nowMs' := by
  obtain ⟨_, hsuffix⟩ := run_append hrun
  obtain ⟨before, operation, hbefore, hevent, rfl⟩ := run_cons hsuffix
  exact (guarded_of_claimed between hbefore hkeeps).le_of_claimed hbefore hevent hdag hjob
    (le_of_neverBack hclock.append rfl)

/-- A worker whose job has been handed out again under another token holds no
unexpired lease. -/
theorem not_unexpired_of_reclaimed {config : SchedulerConfig} {scheduler : Scheduler}
    {newer between older : List Event} {owner owner' : String} {nowMs nowMs' leaseMs leaseMs' : ℤ}
    {first second : ClaimedJob}
    (hrun : Run config (newer ++ .claim owner' nowMs' leaseMs' (.ok (some second)) ::
      (between ++ .claim owner nowMs leaseMs (.ok (some first)) :: older)) scheduler)
    (hclock : NeverBack (newer ++ .claim owner' nowMs' leaseMs' (.ok (some second)) ::
      (between ++ .claim owner nowMs leaseMs (.ok (some first)) :: older)))
    (hdag : second.dagId = first.dagId) (hjob : second.jobId = first.jobId)
    (hne : first.leaseToken ≠ second.leaseToken)
    (hkeeps : ∀ event ∈ between,
      ¬event.GivesUp first.dagId first.jobId first.leaseToken) :
    latestDeadline first.dagId first.jobId first.leaseToken first.leaseExpiresAtMs
      (newer ++ .claim owner' nowMs' leaseMs' (.ok (some second)) :: between) ≤ nowMs' := by
  have hpassed := deadline_le_of_reclaimed hrun hclock hdag hjob hkeeps
  -- the first token carries a smaller number than the second
  have hstale : ∀ n, second.leaseToken = leaseToken second.dagId second.jobId n →
      ¬NumberedFrom n first.leaseToken := by
    intro n hsecond hnumbered
    obtain ⟨_, hsuffix⟩ := run_append hrun
    obtain ⟨before, operation, hbefore, hevent, _⟩ := run_cons hsuffix
    obtain ⟨k, hfirst, hbound, hsequence, _⟩ := numbers_of_claimed between hbefore
    obtain ⟨_, _, m, hnm, hm⟩ := hnumbered
    have hkm : k = m := leaseToken_injective (hfirst.symm.trans hm)
    have hjustified := perform_justified (run_invariant hbefore) operation
    rw [hevent] at hjustified
    obtain ⟨_, _, htoken, _⟩ := hjustified
    have hn : n = U64.saturatingAdd before.sequence 1 :=
      leaseToken_injective (hsecond.symm.trans htoken)
    have hkn : k ≤ n := by
      rw [hn]
      exact le_min hbound (by omega)
    have hsame : k = n := by omega
    refine hne ?_
    rw [hfirst, hsecond, hdag, hjob, hsame]
  rw [latestDeadline_append, latestDeadline]
  have hskip : Event.deadlineAfter first.dagId first.jobId first.leaseToken
      (latestDeadline first.dagId first.jobId first.leaseToken first.leaseExpiresAtMs between)
      (.claim owner' nowMs' leaseMs' (.ok (some second))) =
      latestDeadline first.dagId first.jobId first.leaseToken first.leaseExpiresAtMs between := rfl
  rw [hskip, ← hdag, ← hjob, latestDeadline_of_stale hstale _ newer hrun, hdag, hjob]
  exact hpassed

theorem mem_clock_append {later earlier : List Event} {event : Event} {nowMs : ℤ}
    (hnow : event.nowMs? = some nowMs) : nowMs ∈ clock (later ++ event :: earlier) := by
  unfold clock
  rw [List.filterMap_append, List.filterMap_cons_some hnow]
  exact List.mem_append_right _ List.mem_cons_self

/-- The holder of the earlier of two claims of a job holds it under the token of the later. -/
theorem token_eq_of_reclaimed {config : SchedulerConfig} {scheduler : Scheduler}
    {newer between older : List Event} {owner owner' : String} {nowMs nowMs' leaseMs leaseMs' : ℤ}
    {first second : ClaimedJob}
    (hrun : Run config (newer ++ .claim owner' nowMs' leaseMs' (.ok (some second)) ::
      (between ++ .claim owner nowMs leaseMs (.ok (some first)) :: older)) scheduler)
    (hclock : NeverBack (newer ++ .claim owner' nowMs' leaseMs' (.ok (some second)) ::
      (between ++ .claim owner nowMs leaseMs (.ok (some first)) :: older)))
    (hdag : second.dagId = first.dagId) (hjob : second.jobId = first.jobId) {now : ℤ}
    (hnow : nowMs' ≤ now)
    (hkeeps : ∀ event ∈ newer ++ .claim owner' nowMs' leaseMs' (.ok (some second)) :: between,
      ¬event.GivesUp first.dagId first.jobId first.leaseToken)
    (hlive : now < latestDeadline first.dagId first.jobId first.leaseToken
      first.leaseExpiresAtMs
        (newer ++ .claim owner' nowMs' leaseMs' (.ok (some second)) :: between)) :
    first.leaseToken = second.leaseToken := by
  by_contra hne
  have hpassed := not_unexpired_of_reclaimed hrun hclock hdag hjob hne fun event hevent =>
    hkeeps event (List.mem_append_right _ (List.mem_cons_of_mem _ hevent))
  omega

/-- Under a clock that never goes back, a job that a claim has returned is not
returned again before the last deadline granted for that lease, unless a failure
was reported with its token; and two workers never hold unexpired leases on one
job. -/
theorem mutual_exclusion {config : SchedulerConfig} {history : List Event}
    {scheduler : Scheduler} (hrun : Run config history scheduler) (hclock : NeverBack history) :
    (∀ newer between older owner owner' nowMs nowMs' leaseMs leaseMs' first second,
      history = newer ++ .claim owner' nowMs' leaseMs' (.ok (some second)) ::
        (between ++ .claim owner nowMs leaseMs (.ok (some first)) :: older) →
      second.dagId = first.dagId → second.jobId = first.jobId →
      (∀ event ∈ between, ¬event.GivesUp first.dagId first.jobId first.leaseToken) →
      latestDeadline first.dagId first.jobId first.leaseToken first.leaseExpiresAtMs between ≤
        nowMs') ∧
    ∀ dagId jobId token token' now, (∀ time ∈ clock history, time ≤ now) →
      HoldsUnexpired history dagId jobId token now →
      HoldsUnexpired history dagId jobId token' now → token = token' := by
  refine ⟨?_, ?_⟩
  · intro newer between older owner owner' nowMs nowMs' leaseMs leaseMs' first second hhistory
      hdag hjob hkeeps
    subst hhistory
    exact deadline_le_of_reclaimed hrun hclock hdag hjob hkeeps
  · intro dagId jobId token token' now hnow hfirst hsecond
    obtain ⟨later, owner, nowMs, leaseMs, claimed, earlier, hhistory, hdag, hjob, rfl, hkeeps,
      hlive⟩ := hfirst
    obtain ⟨later', owner', nowMs', leaseMs', claimed', earlier', hhistory', hdag', hjob', rfl,
      hkeeps', hlive'⟩ := hsecond
    have htime : nowMs ≤ now := hnow nowMs (by rw [hhistory]; exact mem_clock_append rfl)
    have htime' : nowMs' ≤ now := hnow nowMs' (by rw [hhistory']; exact mem_clock_append rfl)
    subst hdag hjob
    -- the two claims are one, or one of them comes later
    rcases List.append_eq_append_iff.mp (hhistory.symm.trans hhistory') with
      ⟨between, rfl, hsplit⟩ | ⟨between, rfl, hsplit⟩
    · cases between with
      | nil =>
          rw [List.nil_append, List.cons.injEq] at hsplit
          cases hsplit.1
          rfl
      | cons event rest =>
          rw [List.cons_append, List.cons.injEq] at hsplit
          obtain ⟨rfl, rfl⟩ := hsplit
          rw [hhistory] at hrun hclock
          rw [← hdag', ← hjob'] at hkeeps' hlive'
          exact (token_eq_of_reclaimed hrun hclock hdag'.symm hjob'.symm htime hkeeps'
            hlive').symm
    · cases between with
      | nil =>
          rw [List.nil_append, List.cons.injEq] at hsplit
          cases hsplit.1
          rfl
      | cons event rest =>
          rw [List.cons_append, List.cons.injEq] at hsplit
          obtain ⟨rfl, rfl⟩ := hsplit
          rw [hhistory'] at hrun hclock
          exact token_eq_of_reclaimed hrun hclock hdag' hjob' htime' hkeeps hlive

/-- In the example of the slow worker the clock goes forward.  After the second
claim the fast worker alone holds an unexpired lease. -/
theorem mutual_exclusion_reclaimed :
    HoldsUnexpired reclaimedRun.1 "d" "j" "lease-d-j-2" 5500 ∧
    ∀ token, HoldsUnexpired reclaimedRun.1 "d" "j" token 5500 → token = "lease-d-j-2" := by
  have hclock : NeverBack reclaimedRun.1 := by
    unfold NeverBack
    decide
  have hfast : HoldsUnexpired reclaimedRun.1 "d" "j" "lease-d-j-2" 5500 := by
    refine ⟨[], "fast", 5000, 1000, ⟨"d", "j", .uppercase, "", 2, "lease-d-j-2", 6000⟩, _, rfl,
      rfl, rfl, rfl, (fun _ hmem => nomatch hmem), ?_⟩
    decide
  refine ⟨hfast, fun token htoken => ?_⟩
  exact (mutual_exclusion run_reclaimedRun hclock).2 "d" "j" token "lease-d-j-2" 5500
    (by decide) htoken hfast

end JobOrchestrator
