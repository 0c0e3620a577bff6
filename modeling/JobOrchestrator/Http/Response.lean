import JobOrchestrator.Store.Postgres

/-!
# What the HTTP layer answers

The error mapping of `http.rs`: `ApiError::into_response` with
`is_unique_violation`, and the answer to a submission.
-/

namespace JobOrchestrator

inductive ApiError
  | store (error : StoreError)
  | unavailable
deriving DecidableEq

/-- The status with the code and the message of the body. -/
structure ErrorResponse where
  status : ℕ
  code : String
  message : String
deriving DecidableEq, Repr

/-- `SQLSTATE` 23505 -/
def isUniqueViolation (error : SqlError) : Bool := error.code == "23505"

def ApiError.intoResponse : ApiError → ErrorResponse
  | .unavailable => ⟨503, "unavailable", "database is not ready"⟩
  | .store .notFound => ⟨404, "not_found", "resource not found"⟩
  | .store .leaseConflict =>
      ⟨409, "lease_conflict", "lease is stale or owned by another worker"⟩
  | .store (.validation error) => ⟨422, "invalid_dag", error.message⟩
  | .store .invalidConfiguration =>
      ⟨400, "invalid_request", "request is outside supported limits"⟩
  | .store (.database error) =>
      if isUniqueViolation error then ⟨409, "already_exists", "resource already exists"⟩
      else ⟨500, "internal", "internal control-plane error"⟩
  | .store .corruptData => ⟨500, "internal", "internal control-plane error"⟩

/-- `POST /v1/dags`: the error answer, or the identifier of the created graph. -/
def postDag (db : Database) (spec : DagSpec) (now : ℤ) :
    Except ErrorResponse String × Database :=
  match PostgresStore.submit db spec now with
  | (.error error, after) => (.error (ApiError.store error).intoResponse, after)
  | (.ok (), after) => (.ok spec.id, after)

end JobOrchestrator
