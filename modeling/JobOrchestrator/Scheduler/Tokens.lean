import JobOrchestrator.Scheduler.LeaseHistory
import JobOrchestrator.Scheduler.Lifecycle

/-!
# Tokens, and who is heard

A token ends in the sequence number of the claim that issued it, which makes the
tokens of a run distinct as long as the counter has not saturated (`run_tokens`).
Together with the leases of the history this says when a report is accepted
(`lease_compare_and_set`), without mentioning the state of the scheduler.
-/

namespace JobOrchestrator

/-- The token that an event issues. -/
def Event.token? : Event → Option String
  | .claim _ _ _ (.ok (some claimed)) => some claimed.leaseToken
  | _ => none

/-- The tokens that a history has issued, the latest first. -/
def issuedTokens (history : List Event) : List String := history.filterMap Event.token?

private theorem eq_of_append_dash {first second digits digits' : List Char}
    (h : first ++ '-' :: digits = second ++ '-' :: digits') (hdigits : '-' ∉ digits)
    (hdigits' : '-' ∉ digits') : digits = digits' := by
  induction first generalizing second with
  | nil =>
      cases second with
      | nil => simpa using h
      | cons c rest =>
          simp only [List.nil_append, List.cons_append, List.cons.injEq] at h
          exact absurd (h.2 ▸ List.mem_append_right rest List.mem_cons_self) hdigits
  | cons c rest ih =>
      cases second with
      | nil =>
          simp only [List.nil_append, List.cons_append, List.cons.injEq] at h
          exact absurd (h.2 ▸ List.mem_append_right rest List.mem_cons_self) hdigits'
      | cons c' rest' =>
          simp only [List.cons_append, List.cons.injEq] at h
          exact ih h.2

/-- The sequence number can be read off a token: its digits follow the last dash. -/
theorem leaseToken_injective {dagId jobId dagId' jobId' : String} {m n : ℕ}
    (h : leaseToken dagId jobId m = leaseToken dagId' jobId' n) : m = n := by
  have hdash : ∀ k : ℕ, '-' ∉ Nat.toDigits 10 k := fun k hmem => by
    have := Nat.isDigit_of_mem_toDigits (by omega) (by omega) hmem
    simp at this
  have htoList : ∀ (d j : String) (k : ℕ), (leaseToken d j k).toList =
      (("lease-" ++ d ++ "-" ++ j).toList) ++ '-' :: Nat.toDigits 10 k := fun d j k => by
    simp [leaseToken, Nat.toList_repr]
  have hchars := htoList dagId jobId m
  rw [h, htoList] at hchars
  have hdigits := eq_of_append_dash hchars (hdash n) (hdash m)
  calc m = Nat.ofDigitChars 10 (Nat.toDigits 10 m) 0 := Nat.ofDigitChars_ten_toDigits.symm
    _ = Nat.ofDigitChars 10 (Nat.toDigits 10 n) 0 := by rw [hdigits]
    _ = n := Nat.ofDigitChars_ten_toDigits

/-- The tokens carry the sequence numbers from one upwards. -/
def Numbered : List String → Prop
  | [] => True
  | token :: rest =>
      (∃ dagId jobId, token = leaseToken dagId jobId (rest.length + 1)) ∧ Numbered rest

theorem Numbered.exists_number {tokens : List String} (h : Numbered tokens) {token : String}
    (hmem : token ∈ tokens) :
    ∃ dagId jobId n, n ≤ tokens.length ∧ token = leaseToken dagId jobId n := by
  induction tokens with
  | nil => cases hmem
  | cons first rest ih =>
      obtain ⟨⟨dagId, jobId, hfirst⟩, hrest⟩ := h
      rcases List.mem_cons.mp hmem with rfl | hmem
      · exact ⟨dagId, jobId, rest.length + 1, le_rfl, hfirst⟩
      · obtain ⟨dagId', jobId', n, hn, htoken⟩ := ih hrest hmem
        exact ⟨dagId', jobId', n, hn.trans (by simp), htoken⟩

theorem Numbered.nodup {tokens : List String} (h : Numbered tokens) : tokens.Nodup := by
  induction tokens with
  | nil => exact List.nodup_nil
  | cons first rest ih =>
      obtain ⟨⟨dagId, jobId, hfirst⟩, hrest⟩ := h
      refine List.nodup_cons.mpr ⟨fun hmem => ?_, ih hrest⟩
      obtain ⟨dagId', jobId', n, hn, htoken⟩ := hrest.exists_number hmem
      have := leaseToken_injective (hfirst.symm.trans htoken)
      omega

namespace Scheduler

/-- Only a granting claim issues a token and advances the sequence. -/
theorem Invariant.sequence_perform {specs : String → Option DagSpec} {scheduler : Scheduler}
    (h : scheduler.Invariant specs) (operation : Operation) :
    ((operation.perform scheduler).1.token? = none ∧
      (operation.perform scheduler).2.sequence = scheduler.sequence) ∨
    ∃ dagId jobId, (operation.perform scheduler).1.token? =
        some (leaseToken dagId jobId (U64.saturatingAdd scheduler.sequence 1)) ∧
      (operation.perform scheduler).2.sequence = U64.saturatingAdd scheduler.sequence 1 := by
  cases operation with
  | claim owner nowMs leaseMs =>
      rcases claim_cases h.heap h.ownIds owner nowMs leaseMs with
        ⟨_, hclaim⟩ | ⟨_, ready, ⟨_, hclaim, _⟩ | ⟨key, job, hselects, hclaim, _⟩⟩
      · exact .inl ⟨by simp [Operation.perform, hclaim, Event.token?],
          by simp [Operation.perform, hclaim]⟩
      · exact .inl ⟨by simp [Operation.perform, hclaim, Event.token?],
          by simp [Operation.perform, hclaim, withReady]⟩
      · refine .inr ⟨key.dagId, key.jobId, ?_, ?_⟩
        · simp [Operation.perform, hclaim, Event.token?, claimed_grant, nextToken]
        · simp [Operation.perform, hclaim]
  | submit spec nowMs =>
      refine .inl ⟨rfl, ?_⟩
      rcases submit_cases scheduler spec nowMs with ⟨_, _, _, _, hadmitted⟩ | ⟨_, herror⟩
      · exact hadmitted.sequence
      · simp [Operation.perform, herror]
  | heartbeat dagId jobId owner token nowMs leaseMs =>
      refine .inl ⟨rfl, ?_⟩
      rcases heartbeat_cases scheduler dagId jobId owner token nowMs leaseMs with
        ⟨_, _, _, _, _, hok⟩ | ⟨_, _, herror⟩
      · simp [Operation.perform, hok]
      · simp [Operation.perform, herror]
  | complete dagId jobId owner token result nowMs =>
      refine .inl ⟨rfl, ?_⟩
      rcases complete_cases scheduler dagId jobId owner token result nowMs with
        ⟨_, _, _, _, hrelease⟩ | ⟨_, _, herror⟩
      · simp [Operation.perform, hrelease, sequence_releaseDependents]
      · simp [Operation.perform, herror]
  | fail dagId jobId owner token nowMs =>
      refine .inl ⟨rfl, ?_⟩
      rcases fail_cases scheduler dagId jobId owner token nowMs with
        ⟨_, _, _, hretry⟩ | ⟨_, _, herror⟩
      · simp [Operation.perform, hretry]
      · simp [Operation.perform, herror]
  | reap nowMs => exact .inl ⟨rfl, sequence_reap scheduler nowMs⟩
  | cancel dagId =>
      refine .inl ⟨rfl, ?_⟩
      rcases cancel_cases scheduler dagId with ⟨_, _, _, hcancel⟩ | ⟨_, herror⟩
      · simp [Operation.perform, hcancel]
      · simp [Operation.perform, herror]

end Scheduler

theorem issuedTokens_cons (event : Event) (history : List Event) :
    issuedTokens (event :: history) = event.token?.toList ++ issuedTokens history := by
  unfold issuedTokens
  cases htoken : event.token? <;> simp [htoken]

/-- As long as the sequence has not saturated, it counts the granting claims,
and their tokens are numbered. -/
theorem run_tokens {config : SchedulerConfig} {history : List Event} {scheduler : Scheduler}
    (hrun : Run config history scheduler) (hfew : (issuedTokens history).length ≤ 2 ^ 64 - 1) :
    scheduler.sequence = (issuedTokens history).length ∧ Numbered (issuedTokens history) := by
  induction hrun with
  | new => exact ⟨rfl, trivial⟩
  | @step earlier before operation hrun ih =>
      rw [issuedTokens_cons] at hfew ⊢
      rcases (run_invariant hrun).sequence_perform operation with
        ⟨hnone, hsequence⟩ | ⟨dagId, jobId, hsome, hsequence⟩
      · rw [hnone] at hfew ⊢
        rw [hsequence]
        exact ih hfew
      · rw [hsome, Option.toList_some, List.singleton_append, List.length_cons] at hfew
        obtain ⟨hcount, hnumbered⟩ := ih (by omega)
        have hnext : U64.saturatingAdd before.sequence 1 = (issuedTokens earlier).length + 1 := by
          rw [hcount]
          exact min_eq_right hfew
        rw [hsome, hsequence, hnext]
        exact ⟨rfl, ⟨dagId, jobId, rfl⟩, hnumbered⟩

/-! ## Compare and set -/

open Scheduler

/-- The history leaves the caller a lease on the job that has not run out. -/
def HoldsLease (history : List Event) (dagId jobId owner token : String) (nowMs : ℤ) : Prop :=
  ∃ lease, leaseOf history dagId jobId = some lease ∧ lease.owner = owner ∧
    lease.token = token ∧ nowMs < lease.expiresAtMs

/-- The check of the code against the current record is the check against the history. -/
theorem holdsLease_iff {config : SchedulerConfig} {history : List Event} {scheduler : Scheduler}
    (hrun : Run config history scheduler) (dagId jobId owner token : String) (nowMs : ℤ) :
    (∃ job, scheduler.job? dagId jobId = some job ∧ job.holdsLease owner token nowMs = true) ↔
      HoldsLease history dagId jobId owner token nowMs := by
  unfold HoldsLease
  rw [← run_leases hrun, lease?]
  constructor
  · rintro ⟨job, hjob, hholds⟩
    unfold JobRecord.holdsLease at hholds
    split at hholds
    · cases hholds
    next lease hlease =>
      simp only [decide_eq_true_eq] at hholds
      exact ⟨lease, by rw [hjob, Option.bind_some, hlease], hholds.2⟩
  · rintro ⟨lease, hlease, hmatch⟩
    obtain ⟨job, hjob, hlease⟩ := Option.bind_eq_some_iff.mp hlease
    have hstate := ((run_invariant hrun).lease dagId jobId job hjob).mp (by simp [hlease])
    exact ⟨job, hjob, by simp [JobRecord.holdsLease, hlease, hstate, hmatch]⟩

theorem heartbeat_ok_iff {config : SchedulerConfig} {history : List Event} {scheduler : Scheduler}
    (hrun : Run config history scheduler) (dagId jobId owner token : String) (nowMs : ℤ)
    {leaseMs : ℤ} (hpos : 0 < leaseMs) (hmax : leaseMs ≤ config.maxLeaseMs) :
    (∃ expiresAtMs, (scheduler.heartbeat dagId jobId owner token nowMs leaseMs).1 =
        .ok expiresAtMs) ↔ HoldsLease history dagId jobId owner token nowMs := by
  rw [← holdsLease_iff hrun]
  rcases heartbeat_cases scheduler dagId jobId owner token nowMs leaseMs with
    ⟨job, hjob, hholds, _, _, hok⟩ | ⟨hnot, error, herror⟩
  · exact iff_of_true ⟨_, by rw [hok]⟩ ⟨job, hjob, hholds⟩
  · refine iff_of_false (by simp [herror]) ?_
    rintro ⟨job, hjob, hholds⟩
    exact hnot job hjob hholds ⟨hpos, by rwa [run_config hrun]⟩

theorem complete_ok_iff {config : SchedulerConfig} {history : List Event} {scheduler : Scheduler}
    (hrun : Run config history scheduler) (dagId jobId owner token : String) (nowMs : ℤ)
    {result : String} (hsize : result.utf8ByteSize ≤ maxPayloadBytes) :
    (scheduler.complete dagId jobId owner token result nowMs).1 = .ok () ↔
      HoldsLease history dagId jobId owner token nowMs := by
  rw [← holdsLease_iff hrun]
  rcases complete_cases scheduler dagId jobId owner token result nowMs with
    ⟨job, hjob, hholds, _, hrelease⟩ | ⟨hnot, error, herror⟩
  · refine iff_of_true ?_ ⟨job, hjob, hholds⟩
    rw [hrelease]
    exact (dags_complete nowMs result ((run_invariant hrun).exists_dependent dagId jobId)).1
  · refine iff_of_false (by simp [herror]) ?_
    rintro ⟨job, hjob, hholds⟩
    exact hnot job hjob hholds hsize

theorem fail_ok_iff {config : SchedulerConfig} {history : List Event} {scheduler : Scheduler}
    (hrun : Run config history scheduler) (dagId jobId owner token : String) (nowMs : ℤ) :
    (∃ state, (scheduler.fail dagId jobId owner token nowMs).1 = .ok state) ↔
      HoldsLease history dagId jobId owner token nowMs := by
  rw [← holdsLease_iff hrun]
  rcases fail_cases scheduler dagId jobId owner token nowMs with
    ⟨job, hjob, hholds, hretry⟩ | ⟨hnot, error, herror⟩
  · exact iff_of_true ⟨_, by rw [hretry, retryOrDeadLetter_of_job? hjob]⟩ ⟨job, hjob, hholds⟩
  · refine iff_of_false (by simp [herror]) ?_
    rintro ⟨job, hjob, hholds⟩
    rw [hnot job hjob] at hholds
    cases hholds

theorem Event.token_of_leaseAfter {event : Event} {dagId jobId : String} {before : Option Lease}
    {lease : Lease} (h : event.leaseAfter dagId jobId before = some lease) :
    event.token? = some lease.token ∨ ∃ old, before = some old ∧ old.token = lease.token := by
  have hreap : ∀ nowMs, reapLease nowMs before = some lease →
      ∃ old, before = some old ∧ old.token = lease.token := fun nowMs hfilter =>
    ⟨lease, (Option.filter_eq_some_iff.mp hfilter).1, rfl⟩
  unfold Event.leaseAfter at h
  split at h
  · split at h
    · cases h
      exact .inl rfl
    · exact .inr (hreap _ h)
  · exact .inr (hreap _ h)
  · exact .inr (hreap _ h)
  · split at h
    · obtain ⟨old, hold, rfl⟩ := Option.map_eq_some_iff.mp h
      exact .inr ⟨old, hold, rfl⟩
    · exact .inr ⟨lease, h, rfl⟩
  · split at h
    · cases h
    · exact .inr ⟨lease, h, rfl⟩
  · split at h
    · cases h
    · exact .inr ⟨lease, h, rfl⟩
  · split at h
    · cases h
    · exact .inr ⟨lease, h, rfl⟩
  · exact .inr ⟨lease, h, rfl⟩

/-- A token that has been issued and belongs to no current lease stays dead. -/
theorem stale_token {token : String} (later : List Event) {earlier : List Event}
    (hnodup : (issuedTokens (later ++ earlier)).Nodup) (hissued : token ∈ issuedTokens earlier)
    (hstale : ∀ dagId jobId lease, leaseOf earlier dagId jobId = some lease →
      lease.token ≠ token) :
    ∀ dagId jobId lease, leaseOf (later ++ earlier) dagId jobId = some lease →
      lease.token ≠ token := by
  induction later with
  | nil => exact hstale
  | cons event rest ih =>
      rw [List.cons_append, issuedTokens_cons, List.nodup_append] at hnodup
      intro dagId jobId lease hlease htoken
      rcases Event.token_of_leaseAfter hlease with hissues | ⟨old, hold, hsame⟩
      · -- a new claim would repeat the token
        refine hnodup.2.2 token ?_ token ?_ rfl
        · rw [hissues, htoken]
          exact List.mem_singleton_self token
        · unfold issuedTokens at hissued ⊢
          rw [List.filterMap_append]
          exact List.mem_append_right _ hissued
      · exact ih hnodup.2.1 dagId jobId old hold (hsame.trans htoken)

/-- Reports are accepted exactly from the holder of the lease that the history
leaves, tokens are issued once, and a stale token is never accepted again. -/
theorem lease_compare_and_set {config : SchedulerConfig} {history : List Event}
    {scheduler : Scheduler} (hrun : Run config history scheduler)
    (hfew : (issuedTokens history).length < 2 ^ 64 - 1) :
    (∀ dagId jobId owner token nowMs,
      (∀ leaseMs, 0 < leaseMs → leaseMs ≤ config.maxLeaseMs →
        ((∃ expiresAtMs, (scheduler.heartbeat dagId jobId owner token nowMs leaseMs).1 =
          .ok expiresAtMs) ↔ HoldsLease history dagId jobId owner token nowMs)) ∧
      (∀ result : String, result.utf8ByteSize ≤ maxPayloadBytes →
        ((scheduler.complete dagId jobId owner token result nowMs).1 = .ok () ↔
          HoldsLease history dagId jobId owner token nowMs)) ∧
      ((∃ state, (scheduler.fail dagId jobId owner token nowMs).1 = .ok state) ↔
        HoldsLease history dagId jobId owner token nowMs)) ∧
    (issuedTokens history).Nodup ∧
    ∀ later earlier token, history = later ++ earlier → token ∈ issuedTokens earlier →
      (∀ dagId jobId lease, leaseOf earlier dagId jobId = some lease → lease.token ≠ token) →
      ∀ dagId jobId owner nowMs, ¬HoldsLease history dagId jobId owner token nowMs := by
  have hnodup := (run_tokens hrun hfew.le).2.nodup
  refine ⟨fun dagId jobId owner token nowMs => ⟨fun leaseMs hpos hmax => ?_,
    fun result hsize => ?_, fail_ok_iff hrun dagId jobId owner token nowMs⟩, hnodup, ?_⟩
  · exact heartbeat_ok_iff hrun dagId jobId owner token nowMs hpos hmax
  · exact complete_ok_iff hrun dagId jobId owner token nowMs hsize
  · rintro later earlier token rfl hissued hstale dagId jobId owner nowMs
      ⟨lease, hlease, _, htoken, _⟩
    exact stale_token later hnodup hissued hstale dagId jobId lease hlease htoken

/-- One job that is claimed, expires, and is claimed again. -/
def reclaimedSpec : DagSpec := ⟨"d", [⟨"j", .uppercase, "", 3, 0⟩], []⟩

/-- Two claims of one job, the second after the first lease has expired. -/
def reclaimedRun : List Event × Scheduler :=
  let submitted := (Operation.submit reclaimedSpec 0).perform (Scheduler.new .default)
  let first := (Operation.claim "slow" 0 1000).perform submitted.2
  let reaped := (Operation.reap 1000).perform first.2
  let second := (Operation.claim "fast" 5000 1000).perform reaped.2
  ([second.1, reaped.1, first.1, submitted.1], second.2)

theorem run_reclaimedRun : Run .default reclaimedRun.1 reclaimedRun.2 :=
  Run.step (.claim "fast" 5000 1000) (Run.step (.reap 1000)
    (Run.step (.claim "slow" 0 1000) (Run.step (.submit reclaimedSpec 0) Run.new)))

/-- The first token is dead, the second is accepted until its deadline. -/
theorem lease_compare_and_set_reclaimed :
    issuedTokens reclaimedRun.1 = ["lease-d-j-2", "lease-d-j-1"] ∧
    (∀ nowMs, (∃ state, (reclaimedRun.2.fail "d" "j" "fast" "lease-d-j-2" nowMs).1 = .ok state) ↔
      nowMs < 6000) ∧
    ∀ nowMs, ¬HoldsLease reclaimedRun.1 "d" "j" "slow" "lease-d-j-1" nowMs := by
  have htokens : issuedTokens reclaimedRun.1 = ["lease-d-j-2", "lease-d-j-1"] := by decide
  have hlease : leaseOf reclaimedRun.1 "d" "j" = some ⟨"fast", "lease-d-j-2", 6000⟩ := by decide
  have hsafe := lease_compare_and_set run_reclaimedRun (by rw [htokens]; decide)
  refine ⟨htokens, fun nowMs => ?_, fun nowMs => ?_⟩
  · rw [(hsafe.1 "d" "j" "fast" "lease-d-j-2" nowMs).2.2, HoldsLease, hlease]
    simp
  · rw [HoldsLease, hlease]
    simp

end JobOrchestrator
