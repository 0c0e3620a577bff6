import JobOrchestrator.Http.Snapshot
import JobOrchestrator.Store.Integrity

/-!
# The control-plane API

The handlers of `http.rs` on a database that can be reached, one request at a
time.  They see a request once the router and the extractors have accepted it; a
body over the size limit, and a body or a query that does not parse, never get to
them.  `ApiRequest.refusal` is the contract: which requests the handlers refuse, and
how.  It speaks of limits, of names that are taken or unknown and of leases that are
held, and of no statement.  `api_contract` says that on every database which such
requests lead to the handlers answer by it, and that a refused request changes
nothing.

Two lines of the contract are not in the documentation: a text with a NUL that gets
past the limits is an internal error, and an edge that is given twice is reported
as a name that is taken.
-/

namespace JobOrchestrator

/-! ## Requests and replies -/

/-- `default_lease_ms` -/
def defaultLeaseMs : ℤ := 15000

structure ClaimRequest where
  owner : String
  leaseMs : ℤ := defaultLeaseMs

structure LeaseRequest where
  dagId : String
  jobId : String
  owner : String
  leaseToken : Uuid
  leaseMs : ℤ := defaultLeaseMs

structure CompleteRequest where
  dagId : String
  jobId : String
  owner : String
  leaseToken : Uuid
  result : String

inductive ApiRequest
  | submit (spec : DagSpec)
  | listDags (query : ListQuery)
  | snapshot (dagId : String)
  | cancel (dagId : String)
  | claim (request : ClaimRequest)
  | heartbeat (request : LeaseRequest)
  | complete (request : CompleteRequest)
  | fail (request : LeaseRequest)

/-- The bodies of the answers; an error comes with its status. -/
inductive ApiReply
  | created (dagId : String)
  | page (page : DagPage)
  | dag (snapshot : DagSnapshot)
  | cancelled (dagId : String) (cancelledJobs : ℕ)
  | job (claim : Option StoreClaim)
  | status (name : String)
  | error (response : ErrorResponse)

namespace ApiReply

def statusCode : ApiReply → ℕ
  | .created _ => 201
  | .error response => response.status
  | _ => 200

def error? : ApiReply → Option ErrorResponse
  | .error response => some response
  | _ => none

end ApiReply

/-! ## The handlers -/

namespace Http

/-- `?` on a call of the store. -/
def answer {α : Type} (describe : α → ApiReply) :
    Except StoreError α × Database → ApiReply × Database
  | (.ok value, db) => (describe value, db)
  | (.error error, db) => (.error (ApiError.store error).intoResponse, db)

def submit (db : Database) (spec : DagSpec) (now : ℤ) : ApiReply × Database :=
  match postDag db spec now with
  | (.ok dagId, after) => (.created dagId, after)
  | (.error response, after) => (.error response, after)

def list (collation : Collation) (db : Database) (query : ListQuery) : ApiReply :=
  match listDags collation db query with
  | .ok page => .page page
  | .error response => .error response

def snapshot (collation : Collation) (db : Database) (dagId : String) : ApiReply × Database :=
  answer .dag (PostgresStore.snapshot collation db db dagId, db)

def cancel (db : Database) (dagId : String) : ApiReply × Database :=
  answer (.cancelled dagId) (PostgresStore.cancel db dagId)

def claim (db : Database) (request : ClaimRequest) (token : Uuid) (now : ℤ) :
    ApiReply × Database :=
  answer .job (PostgresStore.claim db request.owner request.leaseMs token now)

def heartbeat (db : Database) (request : LeaseRequest) (now : ℤ) : ApiReply × Database :=
  answer (fun _ => .status "extended") (PostgresStore.heartbeat db request.dagId request.jobId
    request.owner request.leaseToken request.leaseMs now)

def complete (db : Database) (request : CompleteRequest) (now : ℤ) : ApiReply × Database :=
  answer (fun _ => .status "succeeded") (PostgresStore.complete db request.dagId request.jobId
    request.owner request.leaseToken request.result now)

/-- The duration of the request is not looked at. -/
def fail (db : Database) (request : LeaseRequest) (now : ℤ) : ApiReply × Database :=
  answer (fun state => .status (PostgresStore.stateName state))
    (PostgresStore.fail db request.dagId request.jobId request.owner request.leaseToken now)

/-- The handler of a request that the extractors have accepted; `token` is what
`Uuid::new_v4` gives. -/
def handle (collation : Collation) (db : Database) (now : ℤ) (token : Uuid) :
    ApiRequest → ApiReply × Database
  | .submit spec => submit db spec now
  | .listDags query => (list collation db query, db)
  | .snapshot dagId => snapshot collation db dagId
  | .cancel dagId => cancel db dagId
  | .claim request => claim db request token now
  | .heartbeat request => heartbeat db request now
  | .complete request => complete db request now
  | .fail request => fail db request now

end Http

/-- The databases that requests lead to. -/
inductive Database.Served (collation : Collation) : Database → Prop
  | empty : Served collation .empty
  | handle {db : Database} (now : ℤ) (token : Uuid) (request : ApiRequest) :
      Served collation db → Served collation (Http.handle collation db now token request).2

/-! ## The contract -/

/-- The answer to a request outside the limits. -/
def invalidRequest : ErrorResponse :=
  ⟨400, "invalid_request", "request is outside supported limits"⟩

def leaseConflict : ErrorResponse :=
  ⟨409, "lease_conflict", "lease is stale or owned by another worker"⟩

def notFound : ErrorResponse := ⟨404, "not_found", "resource not found"⟩

def internalError : ErrorResponse := ⟨500, "internal", "internal control-plane error"⟩

namespace ApiRequest

/-- The limits on an owner and the duration of its lease. -/
def leaseError (owner : String) (leaseMs : ℤ) : Option ErrorResponse :=
  if owner ≠ "" ∧ owner.utf8ByteSize ≤ 64 ∧ 1 ≤ leaseMs ∧ leaseMs ≤ 60000 then none
  else some invalidRequest

/-- Limits that do not depend on what is stored. -/
def limitError : ApiRequest → Option ErrorResponse
  | .submit spec => match spec.validate with
      | .ok _ => none
      | .error error => some ⟨422, "invalid_dag", error.message⟩
  | .listDags query =>
      if 1 ≤ query.limit ∧ query.limit ≤ 100 then none else some invalidRequest
  | .claim request => leaseError request.owner request.leaseMs
  | .heartbeat request => leaseError request.owner request.leaseMs
  | .complete request =>
      if request.result.utf8ByteSize ≤ maxPayloadBytes then none else some invalidRequest
  | .snapshot _ | .cancel _ | .fail _ => none

/-- The texts that the database stores or compares; valid identifiers apart. -/
def texts : ApiRequest → List String
  | .submit spec => spec.jobs.map JobSpec.payload
  | .listDags query => query.after.toList
  | .snapshot dagId | .cancel dagId => [dagId]
  | .claim request => [request.owner]
  | .heartbeat request | .fail request => [request.dagId, request.jobId, request.owner]
  | .complete request => [request.dagId, request.jobId, request.owner, request.result]

/-- The request creates a graph under a name that exists. -/
def Taken (db : Database) : ApiRequest → Prop
  | .submit spec => db.dags.contains spec.id = true
  | _ => False

/-- The request creates a graph with an edge that is given twice. -/
def Repeats : ApiRequest → Prop
  | .submit spec => ¬spec.dependencies.Nodup
  | _ => False

/-- The request is about a graph that does not exist. -/
def Unknown (db : Database) : ApiRequest → Prop
  | .snapshot dagId | .cancel dagId => db.dags.contains dagId = false
  | _ => False

/-- The request reports about a lease that its sender does not hold. -/
def Lost (db : Database) (now : ℤ) : ApiRequest → Prop
  | .heartbeat request | .fail request =>
      ¬db.Holds request.dagId request.jobId request.owner request.leaseToken now
  | .complete request =>
      ¬db.Holds request.dagId request.jobId request.owner request.leaseToken now
  | _ => False

/-- The status of the answer to a request that is accepted. -/
def acceptedStatus : ApiRequest → ℕ
  | .submit _ => 201
  | _ => 200

open Classical in
/-- How a request is refused, if it is. -/
noncomputable def refusal (db : Database) (now : ℤ) (request : ApiRequest) :
    Option ErrorResponse :=
  match request.limitError with
  | some response => some response
  | none =>
      if request.Taken db then some alreadyExists
      else if ∃ text ∈ request.texts, hasNul text = true then some internalError
      else if request.Repeats then some alreadyExists
      else if request.Unknown db then some notFound
      else if request.Lost db now then some leaseConflict
      else none

end ApiRequest

/-! ## The handlers keep the contract -/

namespace ApiRequest

variable {db : Database} {now : ℤ} {request : ApiRequest}

theorem refusal_of_limit {response : ErrorResponse} (hlimit : request.limitError = some response) :
    request.refusal db now = some response := by
  simp [refusal, hlimit]

theorem refusal_of_taken (hlimit : request.limitError = none) (htaken : request.Taken db) :
    request.refusal db now = some alreadyExists := by
  simp [refusal, hlimit, htaken]

theorem refusal_of_hasNul (hlimit : request.limitError = none) (hfree : ¬request.Taken db)
    (hnul : ∃ text ∈ request.texts, hasNul text = true) :
    request.refusal db now = some internalError := by
  simp only [refusal, hlimit, if_neg hfree, if_pos hnul]

open Classical in
theorem refusal_of_texts (hlimit : request.limitError = none) (hfree : ¬request.Taken db)
    (htexts : ¬∃ text ∈ request.texts, hasNul text = true) :
    request.refusal db now =
      if request.Repeats then some alreadyExists
      else if request.Unknown db then some notFound
      else if request.Lost db now then some leaseConflict
      else none := by
  simp only [refusal, hlimit, if_neg hfree, if_neg htexts]

/-- A page size or a duration that is left to its default is within the limits. -/
theorem limitError_defaults (after : Option String) {owner : String} (hne : owner ≠ "")
    (hsize : owner.utf8ByteSize ≤ 64) (dagId jobId : String) (token : Uuid) :
    (listDags { after }).limitError = none ∧ (claim { owner }).limitError = none ∧
      (heartbeat { dagId, jobId, owner, leaseToken := token }).limitError = none := by
  have hpage : (listDags { after }).limitError = none := by
    rw [limitError, if_pos defaultPageSize_le]
  have hlease : leaseError owner defaultLeaseMs = none := if_pos ⟨hne, hsize, by decide⟩
  exact ⟨hpage, hlease, hlease⟩

end ApiRequest

/-- The answer and the database afterwards are those that the contract promises. -/
structure Complies (db : Database) (now : ℤ) (request : ApiRequest)
    (outcome : ApiReply × Database) : Prop where
  refusal : outcome.1.error? = request.refusal db now
  unchanged : outcome.1.error? ≠ none → outcome.2 = db

namespace Complies

variable {db : Database} {now : ℤ} {request : ApiRequest} {outcome : ApiReply × Database}

theorem of_refused (response : ErrorResponse) (houtcome : outcome = (.error response, db))
    (hrefusal : request.refusal db now = some response) : Complies db now request outcome := by
  subst houtcome
  exact ⟨hrefusal.symm, fun _ => rfl⟩

theorem of_accepted (hreply : outcome.1.error? = none) (hrefusal : request.refusal db now = none) :
    Complies db now request outcome :=
  ⟨hreply.trans hrefusal.symm, fun hne => absurd hreply hne⟩

end Complies

/-- The limits on an owner and a duration are those of the store. -/
theorem leaseError_cases (owner : String) (leaseMs : ℤ) :
    (PostgresStore.validateOwnerAndLease owner leaseMs = .ok () ∧
      ApiRequest.leaseError owner leaseMs = none) ∨
    (PostgresStore.validateOwnerAndLease owner leaseMs = .error .invalidConfiguration ∧
      ApiRequest.leaseError owner leaseMs = some invalidRequest) := by
  have hiff : PostgresStore.validateOwnerAndLease owner leaseMs = .ok () ↔
      owner ≠ "" ∧ owner.utf8ByteSize ≤ 64 ∧ 1 ≤ leaseMs ∧ leaseMs ≤ 60000 := by
    rw [PostgresStore.validateOwnerAndLease_eq_ok_iff, ← Bool.not_eq_true, String.isEmpty_iff]
  unfold ApiRequest.leaseError
  rcases PostgresStore.validateOwnerAndLease_cases owner leaseMs with hvalid | hvalid
  · exact .inl ⟨hvalid, if_pos (hiff.mp hvalid)⟩
  · refine .inr ⟨hvalid, if_neg fun hwithin => ?_⟩
    cases hvalid.symm.trans (hiff.mpr hwithin)

/-- Texts are bound, or one of them has a NUL. -/
theorem bindTexts_hasNul (texts : List String) :
    (PostgresStore.bindTexts texts = .ok () ∧ ¬∃ text ∈ texts, hasNul text = true) ∨
    (PostgresStore.bindTexts texts = .error (.database .invalidText) ∧
      ∃ text ∈ texts, hasNul text = true) := by
  unfold PostgresStore.bindTexts
  by_cases hnul : texts.any hasNul = true
  · exact .inr ⟨if_pos hnul, List.any_eq_true.mp hnul⟩
  · exact .inl ⟨if_neg hnul, fun hsome => hnul (List.any_eq_true.mpr hsome)⟩

theorem submit_complies {db : Database} (hdb : db.Intact) (spec : DagSpec) (now : ℤ) :
    Complies db now (.submit spec) (Http.submit db spec now) := by
  cases hvalid : spec.validate with
  | error error =>
      refine .of_refused ⟨422, "invalid_dag", error.message⟩ ?_ (ApiRequest.refusal_of_limit ?_)
      · simp [Http.submit, postDag, PostgresStore.submit, hvalid, ApiError.intoResponse]
      · simp [ApiRequest.limitError, hvalid]
  | ok order =>
      have hlimit : (ApiRequest.submit spec).limitError = none := by
        simp [ApiRequest.limitError, hvalid]
      by_cases htaken : db.dags.contains spec.id = true
      · refine .of_refused alreadyExists ?_ (ApiRequest.refusal_of_taken hlimit htaken)
        rw [Http.submit, postDag, submit_of_taken hvalid htaken]
        rfl
      have hunused := hdb.keys.unused (Table.not_contains_iff.mp htaken)
      by_cases hnul : ∃ text ∈ (ApiRequest.submit spec).texts, hasNul text = true
      · refine .of_refused internalError ?_ (ApiRequest.refusal_of_hasNul hlimit htaken hnul)
        rw [Http.submit, postDag, submit_of_hasNul hvalid (by simpa [ApiRequest.texts] using hnul)
          hunused]
        rfl
      have hnone : ∀ job ∈ spec.jobs, hasNul job.payload = false := by
        simpa [ApiRequest.texts] using hnul
      have hrefusal : (ApiRequest.submit spec).refusal db now = _ :=
        ApiRequest.refusal_of_texts hlimit htaken hnul
      rcases persist_cases hvalid hnone hunused now with
        ⟨hnodup, after, hsubmit, -⟩ | ⟨hrepeated, hsubmit⟩
      · refine .of_accepted ?_ ?_
        · rw [Http.submit, postDag, hsubmit]
          rfl
        · rw [hrefusal]
          simp [ApiRequest.Repeats, hnodup, ApiRequest.Unknown, ApiRequest.Lost]
      · refine .of_refused alreadyExists ?_ (hrefusal.trans (if_pos hrepeated))
        rw [Http.submit, postDag, hsubmit]
        rfl

theorem claim_complies (db : Database) (request : ClaimRequest) (token : Uuid) (now : ℤ) :
    Complies db now (.claim request) (Http.claim db request token now) := by
  rcases leaseError_cases request.owner request.leaseMs with ⟨hvalid, hlimit⟩ | ⟨hvalid, hlimit⟩
  · rcases bindTexts_hasNul [request.owner] with ⟨htexts, hnul⟩ | ⟨htexts, hnul⟩
    · have hwithin : (ApiRequest.claim request).limitError = none := hlimit
      have hrefusal : (ApiRequest.claim request).refusal db now = none := by
        rw [ApiRequest.refusal_of_texts hwithin id hnul]
        simp [ApiRequest.Repeats, ApiRequest.Unknown, ApiRequest.Lost]
      have howner : hasNul request.owner = false := by simpa using hnul
      rcases PostgresStore.claim_cases db hvalid howner token now with
        ⟨key, row, -, hclaim⟩ | ⟨-, hclaim⟩
      · exact .of_accepted (by rw [Http.claim, hclaim]; rfl) hrefusal
      · exact .of_accepted (by rw [Http.claim, hclaim]; rfl) hrefusal
    · refine .of_refused internalError ?_ (ApiRequest.refusal_of_hasNul hlimit id hnul)
      rw [Http.claim, PostgresStore.claim, hvalid, htexts]
      rfl
  · refine .of_refused invalidRequest ?_ (ApiRequest.refusal_of_limit hlimit)
    rw [Http.claim, PostgresStore.claim, hvalid]
    rfl

/-- A report about a lease complies if it is accepted from the holder alone. -/
theorem report_complies {db : Database} {now : ℤ} {request : ApiRequest}
    {outcome : ApiReply × Database} (hlimit : request.limitError = none)
    (hfree : ¬request.Taken db) (htexts : ¬∃ text ∈ request.texts, hasNul text = true)
    (hnew : ¬request.Repeats) (hknown : ¬request.Unknown db)
    (hreport : ¬request.Lost db now ∧ outcome.1.error? = none ∨
      request.Lost db now ∧ outcome = (.error leaseConflict, db)) :
    Complies db now request outcome := by
  have hrefusal : request.refusal db now = _ := ApiRequest.refusal_of_texts hlimit hfree htexts
  rw [if_neg hnew, if_neg hknown] at hrefusal
  rcases hreport with ⟨hheld, hreply⟩ | ⟨hlost, houtcome⟩
  · exact .of_accepted hreply (hrefusal.trans (if_neg hheld))
  · exact .of_refused leaseConflict houtcome (hrefusal.trans (if_pos hlost))

theorem heartbeat_complies (db : Database) (request : LeaseRequest) (now : ℤ) :
    Complies db now (.heartbeat request) (Http.heartbeat db request now) := by
  rcases leaseError_cases request.owner request.leaseMs with ⟨hvalid, hlimit⟩ | ⟨hvalid, hlimit⟩
  · rcases bindTexts_hasNul [request.dagId, request.jobId, request.owner] with
      ⟨htexts, hnul⟩ | ⟨htexts, hnul⟩
    · refine report_complies hlimit id hnul id id ?_
      rcases PostgresStore.heartbeat_cases db hvalid htexts request.leaseToken now with
        ⟨hholds, hcall⟩ | ⟨hlost, hcall⟩
      · exact .inl ⟨not_not.mpr hholds, by rw [Http.heartbeat, hcall]; rfl⟩
      · exact .inr ⟨hlost, by rw [Http.heartbeat, hcall]; rfl⟩
    · refine .of_refused internalError ?_ (ApiRequest.refusal_of_hasNul hlimit id hnul)
      rw [Http.heartbeat, PostgresStore.heartbeat, hvalid, htexts]
      rfl
  · refine .of_refused invalidRequest ?_ (ApiRequest.refusal_of_limit hlimit)
    rw [Http.heartbeat, PostgresStore.heartbeat, hvalid]
    rfl

theorem complete_complies (db : Database) (request : CompleteRequest) (now : ℤ) :
    Complies db now (.complete request) (Http.complete db request now) := by
  by_cases hsize : request.result.utf8ByteSize ≤ maxPayloadBytes
  · have hlimit : (ApiRequest.complete request).limitError = none := if_pos hsize
    rcases bindTexts_hasNul [request.dagId, request.jobId, request.owner, request.result] with
      ⟨htexts, hnul⟩ | ⟨htexts, hnul⟩
    · refine report_complies hlimit id hnul id id ?_
      rcases PostgresStore.complete_cases db hsize htexts request.leaseToken now with
        ⟨hholds, hcall⟩ | ⟨hlost, hcall⟩
      · exact .inl ⟨not_not.mpr hholds, by rw [Http.complete, hcall]; rfl⟩
      · exact .inr ⟨hlost, by rw [Http.complete, hcall]; rfl⟩
    · refine .of_refused internalError ?_ (ApiRequest.refusal_of_hasNul hlimit id hnul)
      rw [Http.complete, PostgresStore.complete, if_neg (not_lt.mpr hsize), htexts]
      rfl
  · refine .of_refused invalidRequest ?_ (ApiRequest.refusal_of_limit (if_neg hsize))
    rw [Http.complete, PostgresStore.complete, if_pos (not_le.mp hsize)]
    rfl

theorem fail_complies (db : Database) (request : LeaseRequest) (now : ℤ) :
    Complies db now (.fail request) (Http.fail db request now) := by
  rcases bindTexts_hasNul [request.dagId, request.jobId, request.owner] with
    ⟨htexts, hnul⟩ | ⟨htexts, hnul⟩
  · refine report_complies rfl id hnul id id ?_
    rcases PostgresStore.fail_cases db htexts request.leaseToken now with
      ⟨row, hrow, hmatches, hcall⟩ | ⟨hlost, hcall⟩
    · exact .inl ⟨not_not.mpr ⟨row, hrow, hmatches⟩, by rw [Http.fail, hcall]; rfl⟩
    · exact .inr ⟨hlost, by rw [Http.fail, hcall]; rfl⟩
  · refine .of_refused internalError ?_ (ApiRequest.refusal_of_hasNul rfl id hnul)
    rw [Http.fail, PostgresStore.fail, htexts]
    rfl

theorem cancel_complies (db : Database) (dagId : String) (now : ℤ) :
    Complies db now (.cancel dagId) (Http.cancel db dagId) := by
  rcases bindTexts_hasNul [dagId] with ⟨htexts, hnul⟩ | ⟨htexts, hnul⟩
  · have hrefusal : (ApiRequest.cancel dagId).refusal db now = _ :=
      ApiRequest.refusal_of_texts rfl id hnul
    rcases PostgresStore.cancel_cases db (show hasNul dagId = false by simpa using hnul) with
      ⟨hknown, hcall⟩ | ⟨hunknown, hcall⟩
    · refine .of_accepted (by rw [Http.cancel, hcall]; rfl) (hrefusal.trans ?_)
      simp [ApiRequest.Repeats, ApiRequest.Unknown, hknown, ApiRequest.Lost]
    · refine .of_refused notFound (by rw [Http.cancel, hcall]; rfl) (hrefusal.trans ?_)
      simp [ApiRequest.Repeats, ApiRequest.Unknown, hunknown]
  · refine .of_refused internalError ?_ (ApiRequest.refusal_of_hasNul rfl id hnul)
    rw [Http.cancel, PostgresStore.cancel, htexts]
    rfl

theorem list_complies (collation : Collation) (db : Database) (query : ListQuery) (now : ℤ) :
    Complies db now (.listDags query) (Http.list collation db query, db) := by
  by_cases hrange : 1 ≤ query.limit ∧ query.limit ≤ 100
  · have hlimit : (ApiRequest.listDags query).limitError = none := if_pos hrange
    rcases bindTexts_hasNul query.after.toList with ⟨htexts, hnul⟩ | ⟨htexts, hnul⟩
    · refine .of_accepted ?_ ((ApiRequest.refusal_of_texts hlimit id hnul).trans ?_)
      · simp [Http.list, listDags, PostgresStore.listDags, hrange, htexts, bind, Except.bind,
          ApiReply.error?]
      · simp [ApiRequest.Repeats, ApiRequest.Unknown, ApiRequest.Lost]
    · refine .of_refused internalError ?_ (ApiRequest.refusal_of_hasNul hlimit id hnul)
      rw [Http.list, listDags, PostgresStore.listDags, if_neg (not_not.mpr hrange), htexts]
      rfl
  · refine .of_refused invalidRequest ?_ (ApiRequest.refusal_of_limit (if_neg hrange))
    rw [Http.list, listDags_error collation db hrange]
    rfl

/-- Every row can be read back. -/
theorem snapshot_complies (collation : Collation) {db : Database} (hdb : db.Intact)
    (dagId : String) (now : ℤ) :
    Complies db now (.snapshot dagId) (Http.snapshot collation db dagId) := by
  rcases bindTexts_hasNul [dagId] with ⟨htexts, hnul⟩ | ⟨htexts, hnul⟩
  · have hrefusal : (ApiRequest.snapshot dagId).refusal db now = _ :=
      ApiRequest.refusal_of_texts rfl id hnul
    cases hknown : db.dags.contains dagId with
    | false =>
        refine .of_refused notFound ?_ (hrefusal.trans ?_)
        · rw [Http.snapshot, PostgresStore.snapshot, htexts, hknown]
          rfl
        · simp [ApiRequest.Repeats, ApiRequest.Unknown, hknown]
    | true =>
        obtain ⟨items, hitems, -, -⟩ := answerSnapshot_known collation dagId db.jobs.nodupKeys
          fun jobId row hrow => by
            have hstored := (get?_stored_job db dagId jobId (.job row)).mpr
              ⟨row, Table.mem_entries.mp hrow, rfl⟩
            obtain ⟨-, hstorable⟩ := hdb.rows _ _ hstored
            have hle := hstorable.consistent.attempts_le
            have hbudget := hstorable.consistent.budget
            omega
        refine .of_accepted ?_ (hrefusal.trans ?_)
        · rw [Http.snapshot, PostgresStore.snapshot, htexts, hknown]
          dsimp only [bind, Except.bind]
          rw [hitems]
          rfl
        · simp [ApiRequest.Repeats, ApiRequest.Unknown, hknown, ApiRequest.Lost]
  · refine .of_refused internalError ?_ (ApiRequest.refusal_of_hasNul rfl id hnul)
    rw [Http.snapshot, PostgresStore.snapshot, htexts]
    rfl

theorem handle_complies (collation : Collation) {db : Database} (hdb : db.Intact) (now : ℤ)
    (token : Uuid) (request : ApiRequest) :
    Complies db now request (Http.handle collation db now token request) := by
  cases request with
  | submit spec => exact submit_complies hdb spec now
  | listDags query => exact list_complies collation db query now
  | snapshot dagId => exact snapshot_complies collation hdb dagId now
  | cancel dagId => exact cancel_complies db dagId now
  | claim request => exact claim_complies db request token now
  | heartbeat request => exact heartbeat_complies db request now
  | complete request => exact complete_complies db request now
  | fail request => exact fail_complies db request now

theorem Http.statusCode_answer {α : Type} {describe : α → ApiReply}
    (hdescribe : ∀ value, (describe value).statusCode = 200)
    {outcome : Except StoreError α × Database}
    (haccepted : (answer describe outcome).1.error? = none) :
    (answer describe outcome).1.statusCode = 200 := by
  obtain ⟨_ | value, db⟩ := outcome
  · cases haccepted
  · exact hdescribe value

/-- The status of an answer is that of the error in the contract, or else 201 for a
graph that is created and 200 for everything else. -/
theorem statusCode_handle (collation : Collation) {db : Database} (hdb : db.Intact) (now : ℤ)
    (token : Uuid) (request : ApiRequest) :
    (Http.handle collation db now token request).1.statusCode =
      ((request.refusal db now).map ErrorResponse.status).getD request.acceptedStatus := by
  rw [← (handle_complies collation hdb now token request).refusal]
  cases herror : (Http.handle collation db now token request).1.error? with
  | some response =>
      cases hreply : (Http.handle collation db now token request).1 with
      | error response' =>
          rw [hreply] at herror
          cases herror
          rfl
      | _ => rw [hreply] at herror; cases herror
  | none =>
      cases request with
      | submit spec =>
          rw [Http.handle, Http.submit] at herror ⊢
          cases hpost : postDag db spec now with
          | mk result after =>
              rw [hpost] at herror
              cases result with
              | error response => cases herror
              | ok dagId => rfl
      | listDags query =>
          rw [Http.handle, Http.list] at herror ⊢
          cases hpage : listDags collation db query with
          | error response =>
              rw [hpage] at herror
              cases herror
          | ok page => rfl
      | snapshot dagId => exact Http.statusCode_answer (fun _ => rfl) herror
      | cancel dagId => exact Http.statusCode_answer (fun _ => rfl) herror
      | claim request => exact Http.statusCode_answer (fun _ => rfl) herror
      | heartbeat request => exact Http.statusCode_answer (fun _ => rfl) herror
      | complete request => exact Http.statusCode_answer (fun _ => rfl) herror
      | fail request => exact Http.statusCode_answer (fun _ => rfl) herror

/-! ## Every run -/

/-- An accepted call is one of the serial store, and a refused one changes nothing. -/
theorem intact_answer {α : Type} {db : Database} (hdb : db.Intact) {now : ℤ}
    {request : ApiRequest} (call : Transaction) {describe : α → ApiReply}
    {outcome : Except StoreError α × Database} (hcall : call.perform db = committed outcome)
    (hcomplies : Complies db now request (Http.answer describe outcome)) :
    (Http.answer describe outcome).2.Intact := by
  obtain ⟨result, after⟩ := outcome
  cases result with
  | ok value => exact hdb.perform hcall
  | error error =>
      rw [hcomplies.unchanged (Option.some_ne_none _)]
      exact hdb

theorem Http.submit_snd (db : Database) (spec : DagSpec) (now : ℤ) :
    (Http.submit db spec now).2 = (PostgresStore.submit db spec now).2 := by
  unfold Http.submit postDag
  cases PostgresStore.submit db spec now with
  | mk result after => cases result <;> rfl

theorem Database.Served.intact {collation : Collation} {db : Database}
    (h : db.Served collation) : db.Intact := by
  induction h with
  | empty => exact .empty
  | @handle db now token request _ ih =>
      have hcomplies := handle_complies collation ih now token request
      cases request with
      | submit spec =>
          rw [Http.handle, Http.submit_snd]
          exact ih.submit spec now
      | listDags query => exact ih
      | snapshot dagId =>
          rw [Http.handle, Http.snapshot]
          cases PostgresStore.snapshot collation db db dagId <;> exact ih
      | cancel dagId => exact intact_answer ih (.cancel dagId) rfl hcomplies
      | claim request =>
          exact intact_answer ih (.claim request.owner token request.leaseMs now) rfl hcomplies
      | heartbeat request =>
          exact intact_answer ih (.heartbeat request.dagId request.jobId request.owner
            request.leaseToken request.leaseMs now) rfl hcomplies
      | complete request =>
          exact intact_answer ih (.complete request.dagId request.jobId request.owner
            request.leaseToken request.result now) rfl hcomplies
      | fail request =>
          exact intact_answer ih (.fail request.dagId request.jobId request.owner
            request.leaseToken now) rfl hcomplies

/-- In every run of requests that the extractors have accepted, the handlers refuse a
request as the contract says, or they accept it; and a refused request leaves the
database as it was. -/
theorem api_contract {collation : Collation} {db : Database} (hserved : db.Served collation)
    (now : ℤ) (token : Uuid) (request : ApiRequest) :
    (Http.handle collation db now token request).1.error? = request.refusal db now ∧
      (request.refusal db now ≠ none → (Http.handle collation db now token request).2 = db) := by
  obtain ⟨hrefusal, hunchanged⟩ := handle_complies collation hserved.intact now token request
  exact ⟨hrefusal, fun hrefused => hunchanged (hrefusal ▸ hrefused)⟩

/-- A worker has claimed the only job. -/
def leasedDatabase : Database :=
  (Http.handle .codePoints
    (Http.handle .codePoints .empty 0 0
      (.submit ⟨"solo", [⟨"job", .uppercase, "", 2, 0⟩], []⟩)).2
    10 7 (.claim { owner := "worker" })).2

/-- A report with a stale token is refused, and changes nothing. -/
theorem api_contract_stale :
    (ApiRequest.complete ⟨"solo", "job", "worker", 8, "done"⟩).refusal leasedDatabase 20 =
      some leaseConflict ∧
    (Http.handle .codePoints leasedDatabase 20 0
      (.complete ⟨"solo", "job", "worker", 8, "done"⟩)).2 = leasedDatabase := by
  have hserved : leasedDatabase.Served .codePoints := .handle 10 7 _ (.handle 0 0 _ .empty)
  obtain ⟨hreply, hunchanged⟩ :=
    api_contract hserved 20 0 (.complete ⟨"solo", "job", "worker", 8, "done"⟩)
  have hconflict : (Http.handle .codePoints leasedDatabase 20 0
      (.complete ⟨"solo", "job", "worker", 8, "done"⟩)).1.error? = some leaseConflict := by
    decide
  have hrefusal := hreply.symm.trans hconflict
  exact ⟨hrefusal, hunchanged (hrefusal ▸ Option.some_ne_none _)⟩

end JobOrchestrator
