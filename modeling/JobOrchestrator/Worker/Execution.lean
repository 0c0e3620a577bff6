import JobOrchestrator.Domain.Validation
import JobOrchestrator.Library.Utf8
import JobOrchestrator.Worker.Loop

/-!
# Which admitted jobs the worker can execute

Submission bounds the payload, the worker bounds the result, and the two bounds
are independent of each other.  Between them stands the operation: a delay and a
digest are short whatever the payload, but the upper-case mapping of a character
may take more bytes than the character.  `execute_admitted` says for which
payloads the result is too large.
-/

namespace JobOrchestrator

namespace Worker

/-- `str::to_uppercase`, with the upper-case mapping of the characters as a parameter. -/
def toUppercase (mapping : Char → List Char) (payload : String) : String :=
  String.ofList (payload.toList.flatMap mapping)

/-- The operations by the digest and by the upper-case mapping of characters. -/
def operationsOf (checksum : String → String) (mapping : Char → List Char) : Operations :=
  ⟨checksum, toUppercase mapping⟩

/-- The payload is to be mapped to upper case, and its mapping is longer than a
result may be. -/
def Outgrows (mapping : Char → List Char) (kind : JobKind) (payload : String) : Prop :=
  kind = .uppercase ∧
    maxPayloadBytes < (payload.toList.map fun c => ((mapping c).map Char.utf8Size).sum).sum

/-! ## The size of the output -/

theorem size_slept_le {milliseconds : ℕ} (h : milliseconds ≤ 5000) :
    ("slept:" ++ toString milliseconds ++ "ms").utf8ByteSize ≤ maxPayloadBytes := by
  have hdigits : (toString milliseconds).length ≤ 4 := by
    show (Nat.repr milliseconds).length ≤ 4
    exact Nat.repr_length milliseconds 4 (by omega) (by omega)
  have hbytes := Utf8.utf8ByteSize_le_length (toString milliseconds)
  have hprefix : ("slept:" : String).utf8ByteSize = 6 := by decide
  have hsuffix : ("ms" : String).utf8ByteSize = 2 := by decide
  rw [String.utf8ByteSize_append, String.utf8ByteSize_append, hprefix, hsuffix,
    show maxPayloadBytes = 4096 from rfl]
  omega

/-- An admitted payload has an output, which is within the limit unless it outgrows it. -/
theorem output_admitted {checksum : String → String}
    (hchecksum : ∀ payload, (checksum payload).length = 64) (mapping : Char → List Char)
    {kind : JobKind} {payload : String} (hadmitted : kind.validatePayload payload = .ok ()) :
    ∃ text, output (operationsOf checksum mapping) kind payload = .ok text ∧
      (maxPayloadBytes < text.utf8ByteSize ↔ Outgrows mapping kind payload) := by
  cases kind with
  | delay =>
      obtain ⟨milliseconds, hparse, hle⟩ := (validatePayload_iff.mp hadmitted).2 rfl
      refine ⟨"slept:" ++ toString milliseconds ++ "ms", by simp only [output, hparse], ?_⟩
      refine iff_of_false (not_lt.mpr (size_slept_le hle)) fun h => ?_
      cases h.1
  | checksum =>
      refine ⟨checksum payload, rfl, ?_⟩
      have hbytes := Utf8.utf8ByteSize_le_length (checksum payload)
      rw [hchecksum] at hbytes
      refine iff_of_false (not_lt.mpr ?_) fun h => ?_
      · exact hbytes.trans (by decide)
      · cases h.1
  | uppercase =>
      refine ⟨toUppercase mapping payload, rfl, ?_⟩
      rw [toUppercase, Utf8.utf8ByteSize_flatMap]
      exact ⟨fun h => ⟨rfl, h⟩, fun h => h.2⟩

/-! ## Executing and reporting -/

/-- A result within the limit passes the check of its size, and is accepted from
the holder of the lease. -/
theorem complete_within (db : Database) (dagId jobId owner : String) (token : Uuid)
    {result : String} (hsize : result.utf8ByteSize ≤ maxPayloadBytes) (now : ℤ) :
    (PostgresStore.complete db dagId jobId owner token result now).1 ≠
        .error .invalidConfiguration ∧
      (db.Holds dagId jobId owner token now →
        PostgresStore.bindTexts [dagId, jobId, owner, result] = .ok () →
        (PostgresStore.complete db dagId jobId owner token result now).1 = .ok ()) := by
  rcases PostgresStore.bindTexts_cases [dagId, jobId, owner, result] with htexts | htexts
  · rcases PostgresStore.complete_cases db hsize htexts token now with
      ⟨-, hcomplete⟩ | ⟨hlost, hcomplete⟩
    · rw [hcomplete]
      exact ⟨fun h => (nomatch h), fun _ _ => rfl⟩
    · rw [hcomplete]
      exact ⟨fun h => (nomatch h), fun hholds => absurd hholds hlost⟩
  · refine ⟨?_, fun _ hok => by cases hok.symm.trans htexts⟩
    unfold PostgresStore.complete
    rw [if_neg (not_lt.mpr hsize), htexts]
    exact fun h => (nomatch h)

/-- The process has claimed this work and executes it. -/
def LoopState.Executes (state : LoopState) (kind : JobKind) (payload : String) (claim : StoreClaim)
    (token : Uuid) : Prop :=
  state.phase = .executing claim token ∧ claim.kind = kind ∧ claim.payload = payload

/-- The work is done: it has a result within the limit, which every attempt
reports and the store does not find too large. -/
def Executable (operations : Operations) (kind : JobKind) (payload : String) : Prop :=
  ∃ result, execute operations kind payload = .ok result ∧
    result.utf8ByteSize ≤ maxPayloadBytes ∧
    (∀ reparse config state claim token now fresh, state.Executes kind payload claim token →
      act operations reparse config state now fresh = afterReport (PostgresStore.complete state.db
        claim.dagId claim.jobId config.workerId token result now)) ∧
    ∀ db dagId jobId owner token now,
      (PostgresStore.complete db dagId jobId owner token result now).1 ≠
          .error .invalidConfiguration ∧
        (db.Holds dagId jobId owner token now →
          PostgresStore.bindTexts [dagId, jobId, owner, result] = .ok () →
          (PostgresStore.complete db dagId jobId owner token result now).1 = .ok ())

/-- The work cannot be done: its result is too large, and every attempt reports a failure. -/
def FailsAlways (operations : Operations) (kind : JobKind) (payload : String) : Prop :=
  execute operations kind payload = .error .resultTooLarge ∧
    ∀ reparse config state claim token now fresh, state.Executes kind payload claim token →
      act operations reparse config state now fresh = afterReport (PostgresStore.fail state.db
        claim.dagId claim.jobId config.workerId token now)

theorem executable_of_execute {operations : Operations} {kind : JobKind} {payload result : String}
    (h : execute operations kind payload = .ok result) : Executable operations kind payload := by
  have hsize := size_le_of_execute h
  refine ⟨result, h, hsize, ?_, fun db dagId jobId owner token now =>
    complete_within db dagId jobId owner token hsize now⟩
  rintro reparse config state claim token now fresh ⟨hphase, rfl, rfl⟩
  simp only [act, hphase, h]

theorem failsAlways_of_execute {operations : Operations} {kind : JobKind} {payload : String}
    (h : execute operations kind payload = .error .resultTooLarge) :
    FailsAlways operations kind payload := by
  refine ⟨h, ?_⟩
  rintro reparse config state claim token now fresh ⟨hphase, rfl, rfl⟩
  simp only [act, hphase, h]

/-- Admitted work can be executed unless it is to be mapped to upper case and
outgrows the limit; then every attempt at it fails. -/
theorem execute_admitted {checksum : String → String}
    (hchecksum : ∀ payload, (checksum payload).length = 64) (mapping : Char → List Char)
    {kind : JobKind} {payload : String} (hadmitted : kind.validatePayload payload = .ok ()) :
    (¬Outgrows mapping kind payload → Executable (operationsOf checksum mapping) kind payload) ∧
      (Outgrows mapping kind payload →
        FailsAlways (operationsOf checksum mapping) kind payload) := by
  obtain ⟨text, houtput, hlong⟩ := output_admitted hchecksum mapping hadmitted
  have hexecute : execute (operationsOf checksum mapping) kind payload =
      if maxPayloadBytes < text.utf8ByteSize then .error .resultTooLarge else .ok text := by
    rw [execute, hadmitted]
    simp only [houtput, except_ok_bind]
  constructor
  · intro hshort
    apply executable_of_execute
    rw [hexecute, if_neg fun h => hshort (hlong.mp h)]
  · intro houtgrows
    apply failsAlways_of_execute
    rw [hexecute, if_pos (hlong.mpr houtgrows)]

/-! ## A character of two bytes whose mapping has six -/

/-- The upper-case mapping on ASCII and on the small iota with dialytika and
tonos, which becomes a capital iota with two combining marks. -/
def upperMapping (c : Char) : List Char :=
  if c = Char.ofNat 0x390 then [Char.ofNat 0x399, Char.ofNat 0x308, Char.ofNat 0x301]
  else [c.toUpper]

/-- A digest of the right length. -/
def zeroDigest (_payload : String) : String := String.ofList (List.replicate 64 '0')

/-- 1366 bytes, in upper case 4098. -/
def iotas : String := String.ofList (List.replicate 683 (Char.ofNat 0x390))

theorem length_zeroDigest (payload : String) : (zeroDigest payload).length = 64 := by
  unfold zeroDigest
  rw [String.length_ofList, List.length_replicate]

theorem toList_iotas : iotas.toList = List.replicate 683 (Char.ofNat 0x390) :=
  String.toList_ofList

theorem iotas_admitted : JobKind.uppercase.validatePayload iotas = .ok () := by
  have hsize : iotas.utf8ByteSize = 1366 := by
    rw [Utf8.utf8ByteSize_eq_sum, toList_iotas, List.map_replicate, List.sum_replicate]
    rfl
  rw [JobKind.validatePayload, hsize]
  rfl

theorem iotas_outgrow : Outgrows upperMapping .uppercase iotas := by
  refine ⟨rfl, ?_⟩
  rw [toList_iotas, List.map_replicate, List.sum_replicate]
  decide

/-- Not all admitted work can be executed. -/
theorem execute_admitted_iotas :
    JobKind.uppercase.validatePayload iotas = .ok () ∧
      execute (operationsOf zeroDigest upperMapping) .uppercase iotas = .error .resultTooLarge ∧
      ¬∀ kind payload, JobKind.validatePayload kind payload = .ok () →
        ∃ result, execute (operationsOf zeroDigest upperMapping) kind payload = .ok result ∧
          result.utf8ByteSize ≤ maxPayloadBytes := by
  obtain ⟨text, houtput, hlong⟩ := output_admitted length_zeroDigest upperMapping iotas_admitted
  have hexecute : execute (operationsOf zeroDigest upperMapping) .uppercase iotas =
      .error .resultTooLarge := by
    rw [execute, iotas_admitted]
    simp only [houtput, except_ok_bind]
    exact if_pos (hlong.mpr iotas_outgrow)
  refine ⟨iotas_admitted, hexecute, fun hall => ?_⟩
  obtain ⟨result, hok, -⟩ := hall .uppercase iotas iotas_admitted
  cases hexecute.symm.trans hok

/-- A short payload is executed, and the long one fails at every attempt. -/
theorem execute_admitted_cases :
    Executable (operationsOf zeroDigest upperMapping) .uppercase "safe job" ∧
      FailsAlways (operationsOf zeroDigest upperMapping) .uppercase iotas := by
  have hshort : JobKind.uppercase.validatePayload "safe job" = .ok () := by decide
  have hsize : ¬Outgrows upperMapping .uppercase "safe job" := by
    rintro ⟨-, hlong⟩
    exact absurd hlong (by decide)
  exact ⟨(execute_admitted length_zeroDigest upperMapping hshort).1 hsize,
    (execute_admitted length_zeroDigest upperMapping iotas_admitted).2 iotas_outgrow⟩

end Worker

end JobOrchestrator
