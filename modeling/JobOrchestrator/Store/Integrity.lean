import JobOrchestrator.Store.Constraints
import JobOrchestrator.Store.Encoding
import JobOrchestrator.Store.Isolation

/-!
# Integrity along serial runs

What the schema demands holds of every database that calls of the store lead to:
the foreign keys, with those of the event log, and the constraints on the rows.
A submission inserts accepted graphs; every other call is an execution of its
program, so that it keeps the keys and whatever the statements keep of a row.
-/

namespace JobOrchestrator

open ReadCommitted

/-- The foreign keys hold and every row is storable. -/
structure Database.Intact (db : Database) : Prop where
  keys : db.ForeignKeys
  rows : ∀ key stored, db.stored.get? key = some stored → StoredStorable key stored

theorem Database.Intact.empty : Database.empty.Intact where
  keys := .empty
  rows key stored hstored := by
    cases key with
    | dag id => cases hstored
    | job dagId jobId => cases hstored

/-! ## Submissions -/

theorem Database.Intact.submit {db : Database} (h : db.Intact) (spec : DagSpec) (now : ℤ) :
    (PostgresStore.submit db spec now).2.Intact := by
  rcases persisted_or_unchanged h.keys spec now with hsame | ⟨order, hvalid, hfree, hpersisted⟩
  · rw [hsame]
    exact h
  have haccepted := accepted_of_validate hvalid
  refine ⟨hpersisted.foreignKeys hvalid h.keys hfree, fun key stored hstored => ?_⟩
  cases key with
  | dag id =>
      obtain ⟨state, hstate, rfl⟩ := (get?_stored_dag _ id stored).mp hstored
      rcases (hpersisted.dag id state).mp hstate with ⟨-, hbefore⟩ | ⟨rfl, -⟩
      · exact h.rows (.dag id) _ ((get?_stored_dag db id _).mpr ⟨state, hbefore, rfl⟩)
      · exact (matchesIdentifierPattern_of_validate (by decide) haccepted.identifier).1
  | job dagId jobId =>
      obtain ⟨row, hrow, rfl⟩ := (get?_stored_job _ dagId jobId stored).mp hstored
      rcases (hpersisted.job dagId jobId row).mp hrow with ⟨-, hbefore⟩ | ⟨-, job, hjob, rfl, rfl⟩
      · exact h.rows (.job dagId jobId) _
          ((get?_stored_job db dagId jobId _).mpr ⟨row, hbefore, rfl⟩)
      · have hjobValid := haccepted.jobs_valid job hjob
        exact ⟨(matchesIdentifierPattern_of_validate (by decide) hjobValid.identifier).1,
          spec.persistedRow_storable now hjobValid⟩

/-! ## Other calls -/

/-- A call that succeeds is an execution of its program. -/
theorem Transaction.performs {db after : Database} {call : Transaction}
    (h : call.perform db = some after) : ∃ counts,
      Performs (command db.dependencies.keys) call db.stored counts after.stored := by
  have hcommits := (commits_iff db call after.stored).mpr (by rw [h]; rfl)
  obtain ⟨counts, hperforms, -⟩ := hcommits
  exact ⟨counts, hperforms⟩

theorem Transaction.contains_perform {db after : Database} {call : Transaction}
    (h : call.perform db = some after) :
    (∀ dagId, after.dags.contains dagId = db.dags.contains dagId) ∧
      ∀ key, after.jobs.contains key = db.jobs.contains key := by
  obtain ⟨counts, hperforms⟩ := call.performs h
  have hstored := fun key => Table.contains_eq_of_keys_eq hperforms.keys key
  refine ⟨fun dagId => ?_, fun key => ?_⟩
  · rw [← contains_stored_dag, ← contains_stored_dag, hstored]
  · rw [← contains_stored_job after key.1 key.2, ← contains_stored_job db key.1 key.2, hstored]

theorem Database.Intact.perform {db after : Database} (h : db.Intact) {call : Transaction}
    (hafter : call.perform db = some after) : after.Intact := by
  obtain ⟨counts, hperforms⟩ := call.performs hafter
  have hframe := call.perform_frame hafter
  obtain ⟨hdag, hjob⟩ := call.contains_perform hafter
  refine ⟨⟨fun dagId jobId row hrow => ?_, fun row hrow => ?_, fun event hevent => ?_⟩,
    hperforms.keeps (kept_storedStorable _ _) h.rows⟩
  · have hbefore : db.jobs.contains (dagId, jobId) = true := by
      rw [← hjob, Table.contains, hrow]
      rfl
    obtain ⟨old, hold⟩ := Option.isSome_iff_exists.mp hbefore
    rw [hdag]
    exact h.keys.job dagId jobId old hold
  · rw [hjob, hjob]
    exact h.keys.dependency row (hframe.dependencies ▸ hrow)
  · rcases hframe.events event hevent with hbefore | hexists
    · rw [hjob]
      exact h.keys.event event hbefore
    · exact hexists

/-! ## Claims -/

theorem PostgresStore.exists_granted {db after : Database} {owner : String} {leaseMs : ℤ}
    {token : Uuid} {now : ℤ} {claimed : StoreClaim}
    (hclaim : claim db owner leaseMs token now = (.ok (some claimed), after)) :
    ∃ key row, (reapInTransaction db now).2.Picks now key row ∧
      grantCandidate (reapInTransaction db now).2 key row owner token leaseMs now =
        (claimed, after) := by
  rcases validateOwnerAndLease_cases owner leaseMs with hvalid | hinvalid
  · rcases bindTexts_cases [owner] with htexts | htexts
    · have howner : hasNul owner = false := by simpa using bindTexts_eq_ok_iff.mp htexts
      rcases claim_cases db hvalid howner token now with ⟨key, row, hpicks, hgranted⟩ | ⟨-, hnone⟩
      · obtain ⟨hsome, rfl⟩ := Prod.mk.inj (hclaim.symm.trans hgranted)
        cases hsome
        exact ⟨key, row, hpicks, rfl⟩
      · cases (Prod.mk.inj (hclaim.symm.trans hnone)).1
    · rw [claim, hvalid, htexts] at hclaim
      cases (Prod.mk.inj hclaim).1
  · rw [claim, hinvalid] at hclaim
    cases (Prod.mk.inj hclaim).1

/-- What a claim answers is what the decoders make of the row that it has granted; on
an intact database they never fail. -/
theorem Database.Intact.claim_decoded {db after : Database} (h : db.Intact) {owner : String}
    {leaseMs : ℤ} {token : Uuid} {now : ℤ} {claimed : StoreClaim}
    (hclaim : PostgresStore.claim db owner leaseMs token now = (.ok (some claimed), after)) :
    ∃ row expiresAt, after.jobs.get? (claimed.dagId, claimed.jobId) = some row ∧
      row.leaseExpiresAt = some expiresAt ∧
      (row.returned (claimed.dagId, claimed.jobId) expiresAt).decode token = .ok claimed := by
  have hperform : (Transaction.claim owner token leaseMs now).perform db = some after := by
    simp [Transaction.perform, committed, hclaim]
  obtain ⟨key, row, hpicks, hgranted⟩ := PostgresStore.exists_granted hclaim
  obtain ⟨rfl, rfl⟩ := Prod.mk.inj hgranted
  have hrow : (PostgresStore.grantCandidate (PostgresStore.reapInTransaction db now).2 key row
      owner token leaseMs now).2.jobs.get? key =
        some (grantLease owner token leaseMs now row) := by
    simp only [PostgresStore.grantCandidate, Table.get?_modify_self, hpicks.stored]
    rfl
  refine ⟨_, _, hrow, rfl, ReturnedJob.decode_eq_ok_iff.mpr
    ⟨rfl, ⟨rfl, ?_⟩, rfl, rfl, rfl, rfl, rfl⟩⟩
  -- the granted row is storable, so that its counter is small
  obtain ⟨-, hstorable⟩ := (h.perform hperform).rows _ _
    ((get?_stored_job _ key.1 key.2 (.job _)).mpr ⟨_, hrow, rfl⟩)
  have hle := hstorable.consistent.attempts_le
  have hbudget := hstorable.consistent.budget
  show (grantLease owner token leaseMs now row).attempts < 2 ^ 16
  omega

end JobOrchestrator
