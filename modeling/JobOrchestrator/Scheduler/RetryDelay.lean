import JobOrchestrator.Scheduler.Tokens

/-!
# The retry delay

The delay is computed with saturating operations, a shift and a hash that is
reduced below a ceiling.  `retry_delay_exact`: with nonnegative settings it is
the one of the integers, clamped once at the end.

`delaySteps?` computes the two parts of the delay like `retryAtMs`, but has no
value where a shift, a conversion or a remainder would fail.
-/

namespace JobOrchestrator

namespace Scheduler

/-- The backoff before jitter, over the integers. -/
def backoffMs (config : SchedulerConfig) (attempts : ℕ) : ℤ :=
  min config.maxRetryMs (config.baseRetryMs * 2 ^ min (attempts - 1) 16)

/-- `deterministic_jitter` without its fallbacks. -/
def jitterSteps? (jobId : String) (ceiling : ℤ) : Option ℤ :=
  if ceiling ≤ 0 then some 0
  else do
    let hash := (bytes jobId).foldl
      (fun value byte => U64.wrappingAdd (U64.wrappingMul value 31) byte.toNat) 0
    let modulus ← U64.tryFrom ceiling
    let remainder ← U64.rem? hash modulus
    I64.tryFrom remainder

/-- The bounded delay and the jitter. -/
def delaySteps? (config : SchedulerConfig) (jobId : String) (attempts : ℕ) : Option (ℤ × ℤ) := do
  let factor ← I64.shiftLeft? 1 (min (attempts - 1) 16)
  let bounded := min (I64.saturatingMul config.baseRetryMs factor) config.maxRetryMs
  let jitter ← jitterSteps? jobId (bounded.tdiv 5)
  some (bounded, jitter)

/-! ## The jitter -/

theorem deterministicJitter_of_nonpos (jobId : String) {ceiling : ℤ} (h : ceiling ≤ 0) :
    deterministicJitter jobId ceiling = 0 := if_pos h

/-- Below a ceiling in range no step of the hash reduction fails. -/
theorem jitterSteps?_eq (jobId : String) {ceiling : ℤ} (hceiling : ceiling ≤ I64.max) :
    jitterSteps? jobId ceiling = some (deterministicJitter jobId ceiling) ∧
      (0 < ceiling → 0 ≤ deterministicJitter jobId ceiling ∧
        deterministicJitter jobId ceiling < ceiling) := by
  have hmax : I64.max < 2 ^ 64 := by decide
  by_cases hzero : ceiling ≤ 0
  · rw [jitterSteps?, if_pos hzero, deterministicJitter_of_nonpos jobId hzero]
    exact ⟨rfl, fun hpos => by omega⟩
  · obtain ⟨modulus, rfl⟩ := Int.eq_ofNat_of_zero_le (le_of_lt (not_le.mp hzero))
    unfold jitterSteps? deterministicJitter
    simp only [if_neg hzero]
    generalize (bytes jobId).foldl
      (fun value byte => U64.wrappingAdd (U64.wrappingMul value 31) byte.toNat) 0 = hash
    have hpos : 0 < modulus := by omega
    have hlt : hash % modulus < modulus := Nat.mod_lt _ hpos
    have hfits : ((hash % modulus : ℕ) : ℤ) ≤ I64.max := by omega
    have hconvert : U64.tryFrom (modulus : ℤ) = some modulus := by
      rw [U64.tryFrom, if_pos ⟨by omega, by omega⟩, Int.toNat_natCast]
    have hrem : U64.rem? hash modulus = some (hash % modulus) := if_neg (by omega)
    have hback : I64.tryFrom (hash % modulus) = some ((hash % modulus : ℕ) : ℤ) := if_pos hfits
    have hvalue : (if 0 ≤ (modulus : ℤ) then (modulus : ℤ).toNat else 1) = modulus := by
      rw [if_pos (by omega), Int.toNat_natCast]
    simp only [hconvert, Option.bind_eq_bind, Option.bind_some, hrem, hback, hvalue,
      if_pos hfits]
    exact ⟨trivial, fun _ => by omega⟩

/-! ## The delay -/

variable {config : SchedulerConfig}

theorem shift_factor (attempts : ℕ) :
    I64.shiftLeft? 1 (min (attempts - 1) 16) = some (2 ^ min (attempts - 1) 16) := by
  have hle : min (attempts - 1) 16 ≤ 16 := min_le_right _ _
  generalize min (attempts - 1) 16 = exponent at hle
  have hpow : (2 : ℤ) ^ exponent ≤ 2 ^ 16 := pow_le_pow_right₀ (by decide) hle
  have hpos : (0 : ℤ) < 2 ^ exponent := by positivity
  rw [I64.shiftLeft?, one_mul, if_pos]
  refine ⟨by omega, ?_, ?_⟩
  · exact le_trans (by decide) hpos.le
  · exact hpow.trans (by decide)

/-- The two saturating steps before the jitter leave the exact backoff. -/
theorem bounded_eq_backoffMs (hbase : 0 ≤ config.baseRetryMs)
    (hmax : config.maxRetryMs ≤ I64.max) (attempts : ℕ) :
    min (I64.saturatingMul config.baseRetryMs (2 ^ min (attempts - 1) 16)) config.maxRetryMs =
      backoffMs config attempts :=
  I64.min_saturatingMul hbase (by positivity) hmax

theorem backoffMs_nonneg (hbase : 0 ≤ config.baseRetryMs) (hmax : 0 ≤ config.maxRetryMs)
    (attempts : ℕ) : 0 ≤ backoffMs config attempts :=
  le_min hmax (mul_nonneg hbase (by positivity))

/-- The availability time of a retry is clamped once, at the end. -/
theorem retryAtMs_eq (hbase : 0 ≤ config.baseRetryMs) (hnonneg : 0 ≤ config.maxRetryMs)
    (hmax : config.maxRetryMs ≤ I64.max) (jobId : String) (attempts : ℕ) {nowMs : ℤ}
    (hnow : I64.InRange nowMs) :
    retryAtMs config jobId attempts nowMs = min I64.max (nowMs + backoffMs config attempts +
      deterministicJitter jobId (backoffMs config attempts / 5)) := by
  have hbackoff := backoffMs_nonneg hbase hnonneg attempts
  have hle : backoffMs config attempts ≤ config.maxRetryMs := min_le_left _ _
  unfold retryAtMs
  simp only [bounded_eq_backoffMs hbase hmax]
  generalize backoffMs config attempts = backoff at hbackoff hle ⊢
  have hjitter : 0 ≤ deterministicJitter jobId (backoff / 5) := by
    by_cases hceiling : backoff / 5 ≤ 0
    · rw [deterministicJitter_of_nonpos jobId hceiling]
    · exact ((jitterSteps?_eq jobId (by omega)).2 (not_le.mp hceiling)).1
  have hlow := hnow.1
  calc I64.saturatingAdd (I64.saturatingAdd nowMs backoff)
          (deterministicJitter jobId (backoff.tdiv 5))
      = I64.saturatingAdd (min I64.max (nowMs + backoff))
          (deterministicJitter jobId (backoff / 5)) := by
        rw [Int.tdiv_eq_ediv_of_nonneg hbackoff, I64.saturatingAdd, I64.saturatingAdd,
          I64.clamp_eq_min (a := nowMs + backoff) (by omega)]
        rfl
    _ = min I64.max (nowMs + backoff + deterministicJitter jobId (backoff / 5)) :=
        I64.saturatingAdd_clamped (by omega) hjitter

end Scheduler

open Scheduler

/-- Retrying a job (leased, in the calls of the code) with attempts left makes it
available, in its record and in the heap, at the exact sum of time, backoff and
jitter unless that exceeds the range; the jitter is a function of the identifier
and the backoff, zero for a backoff below five and otherwise below a fifth of it.
No shift, conversion or remainder on the way fails. -/
theorem retry_delay_exact {scheduler : Scheduler} {dagId jobId : String} {job : JobRecord}
    (hjob : scheduler.job? dagId jobId = some job)
    (hleft : job.attempts < job.spec.maxAttempts)
    (hbase : 0 ≤ scheduler.config.baseRetryMs) (hnonneg : 0 ≤ scheduler.config.maxRetryMs)
    (hmax : scheduler.config.maxRetryMs ≤ I64.max) {nowMs : ℤ} (hnow : I64.InRange nowMs) :
    let backoff := backoffMs scheduler.config job.attempts
    let jitter := deterministicJitter jobId (backoff / 5)
    let availableAtMs := min I64.max (nowMs + backoff + jitter)
    (scheduler.retryOrDeadLetter dagId jobId nowMs).1 = .ok .retryWait ∧
      (scheduler.retryOrDeadLetter dagId jobId nowMs).2.job? dagId jobId = some { job with
        lease := none, availableAtMs := availableAtMs, state := .retryWait } ∧
      (scheduler.retryOrDeadLetter dagId jobId nowMs).2.ready =
        scheduler.ready.push (readyKey dagId job.spec availableAtMs) ∧
      (backoff < 5 → jitter = 0) ∧ (5 ≤ backoff → 0 ≤ jitter ∧ jitter < backoff / 5) ∧
      delaySteps? scheduler.config jobId job.attempts = some (backoff, jitter) := by
  have hbackoff := backoffMs_nonneg hbase hnonneg job.attempts
  have hle : backoffMs scheduler.config job.attempts ≤ scheduler.config.maxRetryMs :=
    min_le_left _ _
  have hbounded := bounded_eq_backoffMs hbase hmax job.attempts
  have htime := retryAtMs_eq hbase hnonneg hmax jobId job.attempts hnow
  have hretry := retryOrDeadLetter_of_job? hjob nowMs
  have hrecord : retried scheduler.config nowMs jobId job = { job with
      lease := none
      availableAtMs := retryAtMs scheduler.config jobId job.attempts nowMs
      state := .retryWait } := if_neg (not_le.mpr hleft)
  rw [hrecord, if_neg (not_le.mpr hleft)] at hretry
  intro backoff jitter availableAtMs
  have hceiling : backoff / 5 ≤ I64.max := by omega
  obtain ⟨hsteps, hjitter⟩ := jitterSteps?_eq jobId hceiling
  refine ⟨by rw [hretry], ?_, ?_, fun hsmall => ?_, fun hlarge => ?_, ?_⟩
  · rw [job?_of_dags_eq_mapJobs (dags_retryOrDeadLetter ⟨job, hjob⟩ nowMs), hjob,
      Option.map_some, atJob_self, hrecord, htime]
  · rw [hretry, ready_pushReady, ready_modifyJob, htime]
  · apply deterministicJitter_of_nonpos
    omega
  · apply hjitter
    omega
  · have hceiling : backoff.tdiv 5 = backoff / 5 := Int.tdiv_eq_ediv_of_nonneg hbackoff
    simp only [delaySteps?, shift_factor, Option.bind_eq_bind, Option.bind_some, hbounded]
    show (jitterSteps? jobId (backoff.tdiv 5)).bind _ = _
    rw [hceiling, hsteps, Option.bind_some]

/-- The second failure of a job waits for two seconds and a jitter of 106 ms. -/
theorem retry_delay_exact_reclaimed :
    ∃ job, (reclaimedRun.2.retryOrDeadLetter "d" "j" 5500).2.job? "d" "j" = some job ∧
      job.availableAtMs = 5500 + 2000 + 106 := by
  have hjob : reclaimedRun.2.job? "d" "j" = some ⟨⟨"j", .uppercase, "", 3, 0⟩, .leased, 2,
      2106, 0, some ⟨"fast", "lease-d-j-2", 6000⟩, none⟩ := by decide
  have hconfig : reclaimedRun.2.config = .default := by decide
  obtain ⟨-, hafter, -⟩ := retry_delay_exact hjob (by decide) (by rw [hconfig]; decide)
    (by rw [hconfig]; decide) (by rw [hconfig]; decide)
    (show I64.InRange 5500 by decide)
  refine ⟨_, hafter, ?_⟩
  rw [hconfig]
  decide

end JobOrchestrator
