import JobOrchestrator.Library.Machine
import JobOrchestrator.Store.Quiescence

/-!
# Recovery after overlap

Two completions that overlap may lose the release of a common child.  This module says
what comes of it once the calls run one at a time: claims, heartbeats, reports, reaps
and cancellations, and no submission.  The lost job stays where it is,
since only a completion of one of its parents would release it and they all have
succeeded; everything else goes on.  With more late claims than there are changes
ahead, every job is finished, except the lost ones, those behind them, and those
behind a dead letter (`settles_after_overlap`).
-/

namespace JobOrchestrator

open ReadCommitted

/-! ## What one call makes of a row -/

/-- The call reports a result. -/
def Transaction.IsCompletion : Transaction → Prop
  | .complete .. => True
  | _ => False

/-- The row of a job before and after a call. -/
structure JobRow.Advances (call : Transaction) (earlier later : JobRow) : Prop where
  consistent : later.Consistent
  precedes : earlier.Precedes later
  changesAhead_le : later.changesAhead ≤ earlier.changesAhead
  succeeds : later.state = .succeeded → earlier.state = .succeeded ∨ call.IsCompletion
  leaves : earlier.state = .pending →
    later = earlier ∨ later.state = .cancelled ∨ call.IsCompletion

theorem JobRow.Advances.refl {row : JobRow} (h : row.Consistent) (call : Transaction) :
    row.Advances call row :=
  ⟨h, .refl row, le_rfl, .inl, fun _ => .inl rfl⟩

section

variable {dagId jobId : String} {call : Transaction} {index : ℕ} {label : StatementLabel}
  {first old new : JobRow}

theorem RowChange.of_pending (h : RowChange dagId jobId call index label old new)
    (hpending : old.state = .pending) : new.state = .cancelled ∨ call.IsCompletion := by
  have hnot : ∀ {owner token now}, ¬leaseMatches dagId jobId owner token now dagId jobId old :=
    fun hmatches => by cases hpending.symm.trans (leaseMatches_cases hmatches).2.2.1
  cases h with
  | reapFirst owner token leaseMs now hstate => cases hpending.symm.trans hstate
  | claim owner token leaseMs now hstate =>
      rcases hstate with hstate | hstate <;> cases hpending.symm.trans hstate
  | heartbeat owner token leaseMs now hmatches => exact absurd hmatches hnot
  | complete owner token result now hmatches => exact .inr trivial
  | release parentId owner token result now hstate => exact .inr trivial
  | fail owner token now hmatches => exact absurd hmatches hnot
  | reap now hstate => cases hpending.symm.trans hstate
  | cancel hopen => exact .inl rfl

/-- A statement of the call carries on what those before it have done. -/
theorem JobRow.Advances.rowChange (h : first.Advances call old)
    (hchange : RowChange dagId jobId call index label old new) : first.Advances call new where
  consistent := hchange.consistent h.consistent
  precedes := h.precedes.trans hchange.precedes
  changesAhead_le := by
    have hpaid := hchange.changesAhead h.consistent
    have hbefore := h.changesAhead_le
    omega
  succeeds hsucceeded := by
    obtain ⟨-, owner, token, result, now, rfl, -⟩ := hchange.completes hsucceeded
    exact .inr trivial
  leaves hpending := by
    rcases h.leaves hpending with rfl | hcancelled | hcompletes
    · exact .inr (hchange.of_pending hpending)
    · exact absurd (.inr (.inr hcancelled)) hchange.not_terminal
    · exact .inr (.inr hcompletes)

end

/-- Every row of the database is consistent. -/
def Database.Consistent (db : Database) : Prop :=
  ∀ dagId jobId row, db.jobs.get? (dagId, jobId) = some row → row.Consistent

/-- The stored row has come out of the row in the database. -/
def StoredAdvances (db : Database) (call : Transaction) : StoreKey → StoredRow → Prop
  | .job dagId jobId, .job later => ∃ earlier, db.jobs.get? (dagId, jobId) = some earlier ∧
      earlier.Advances call later
  | .job _ _, .dag _ => False
  | .dag _, _ => True

theorem Transaction.advances {db after : Database} (hdb : db.Consistent) {call : Transaction}
    (h : call.perform db = some after) {dagId jobId : String} {later : JobRow}
    (hlater : after.jobs.get? (dagId, jobId) = some later) :
    ∃ earlier, db.jobs.get? (dagId, jobId) = some earlier ∧ earlier.Advances call later := by
  obtain ⟨counts, hperforms⟩ := call.performs h
  have hstored := (get?_stored_job after dagId jobId (.job later)).mpr ⟨later, hlater, rfl⟩
  refine hperforms.keeps (P := StoredAdvances db call) ?_ ?_ _ _ hstored
  · intro counts statement snapshot key stored hscript happlies hold
    cases key with
    | dag id => trivial
    | job dagId jobId =>
        cases stored with
        | dag state => exact hold.elim
        | job row =>
            obtain ⟨earlier, hearlier, hadvances⟩ := hold
            obtain ⟨new, hset, hchange⟩ := rowChange_of_applies hscript happlies
            rw [hset]
            exact ⟨earlier, hearlier, hadvances.rowChange hchange⟩
  · intro key stored hstored
    cases key with
    | dag id => trivial
    | job dagId jobId =>
        obtain ⟨row, hrow, rfl⟩ := (get?_stored_job db dagId jobId stored).mp hstored
        exact ⟨row, hrow, .refl (hdb dagId jobId row hrow) call⟩

theorem Transaction.exists_later {db after : Database} (hdb : db.Consistent) {call : Transaction}
    (h : call.perform db = some after) {dagId jobId : String} {row : JobRow}
    (hrow : db.jobs.get? (dagId, jobId) = some row) :
    ∃ later, after.jobs.get? (dagId, jobId) = some later ∧ row.Advances call later := by
  obtain ⟨later, hlater⟩ : ∃ later, after.jobs.get? (dagId, jobId) = some later := by
    refine Option.isSome_iff_exists.mp ?_
    rw [← Table.contains, (call.contains_perform h).2, Table.contains, hrow]
    rfl
  obtain ⟨earlier, hearlier, hadvances⟩ := call.advances hdb h hlater
  cases hrow.symm.trans hearlier
  exact ⟨later, hlater, hadvances⟩

/-! ## Completions -/

/-- The database between the two statements of a completion. -/
def Database.completed (db : Database) (dagId jobId owner : String) (token : Uuid)
    (result : String) (now : ℤ) : Database :=
  (db.execute (completeStatement dagId jobId owner token result now)).2

/-- A completion is of a leased job, and it releases what waits for nothing else. -/
theorem Transaction.perform_complete {db after : Database} {dagId jobId owner : String}
    {token : Uuid} {result : String} {now : ℤ}
    (h : (Transaction.complete dagId jobId owner token result now).perform db = some after) :
    (∃ row, db.jobs.get? (dagId, jobId) = some row ∧ row.state = .leased) ∧
    ∀ dagId' jobId', after.jobs.get? (dagId', jobId') =
      ((db.completed dagId jobId owner token result now).jobs.get? (dagId', jobId')).map fun row =>
        if (releaseStatement dagId jobId now).applies
          (db.completed dagId jobId owner token result now).snapshot dagId' jobId' row
        then releasedRow now row else row := by
  have hsize : result.utf8ByteSize ≤ maxPayloadBytes := by
    by_contra hlarge
    simp [Transaction.perform, PostgresStore.complete, not_le.mp hlarge, committed] at h
  have htexts : PostgresStore.bindTexts [dagId, jobId, owner, result] = .ok () := by
    refine (PostgresStore.bindTexts_cases _).resolve_right fun hnul => ?_
    simp [Transaction.perform, PostgresStore.complete, not_lt.mpr hsize, hnul,
      PostgresStore.transaction, bind, Except.bind, committed] at h
  rcases PostgresStore.complete_cases db hsize htexts token now with
    ⟨⟨row, hrow, hmatches⟩, hcall⟩ | ⟨-, hcall⟩
  · rw [Transaction.perform, hcall] at h
    cases h
    refine ⟨⟨row, hrow, (leaseMatches_cases hmatches).2.2.1⟩, fun dagId' jobId' => ?_⟩
    rw [Database.jobs_insertEvent, Database.get?_execute]
    rfl
  · rw [Transaction.perform, hcall] at h
    cases h

theorem Database.get?_completed {db : Database} {dagId jobId owner : String} {token : Uuid}
    {result : String} {now : ℤ} {dagId' jobId' : String} {row : JobRow}
    (hrow : db.jobs.get? (dagId', jobId') = some row)
    (hother : row.state ≠ .leased ∨ dagId' ≠ dagId ∨ jobId' ≠ jobId) :
    (db.completed dagId jobId owner token result now).jobs.get? (dagId', jobId') = some row := by
  rw [Database.completed, Database.get?_execute, hrow, Option.map_some]
  refine congrArg some (if_neg fun hmatches => ?_)
  obtain ⟨hdag, hjob, hleased, -⟩ := leaseMatches_cases hmatches
  rcases hother with h | h | h
  · exact h hleased
  · exact h hdag
  · exact h hjob

theorem releaseStatement_applies_iff {snapshot : Snapshot} {dagId parentId : String} {now : ℤ}
    {dagId' jobId' : String} {row : JobRow} :
    (releaseStatement dagId parentId now).applies snapshot dagId' jobId' row = true ↔
      dagId' = dagId ∧ row.state = .pending ∧ ⟨dagId', parentId, jobId'⟩ ∈ snapshot.dependencies ∧
        snapshot.parentsSucceeded dagId' jobId' = true := by
  simp [releaseStatement, and_assoc]

/-! ## Lost releases -/

/-- A pending job whose parents have all succeeded: its release has been lost. -/
def Database.Stranded (db : Database) (dagId jobId : String) : Prop :=
  ∃ row, db.jobs.get? (dagId, jobId) = some row ∧ row.state = .pending ∧
    db.snapshot.parentsSucceeded dagId jobId = true

theorem Database.parentsSucceeded_iff {db : Database} {dagId jobId : String} :
    db.snapshot.parentsSucceeded dagId jobId = true ↔
      ∀ parentId, ⟨dagId, parentId, jobId⟩ ∈ db.dependencies.keys →
        ∀ parent, db.jobs.get? (dagId, parentId) = some parent → parent.state = .succeeded := by
  rw [Snapshot.parentsSucceeded_iff]
  constructor
  · intro h parentId hedge parent hparent
    exact h _ hedge rfl rfl parent hparent
  · rintro h ⟨_, parentId, _⟩ hedge rfl rfl parent hparent
    exact h parentId hedge parent hparent

section

variable {db after : Database} {call : Transaction} {dagId jobId : String}

theorem Transaction.keeps_parentsSucceeded (hdb : db.Consistent)
    (h : call.perform db = some after)
    (hparents : db.snapshot.parentsSucceeded dagId jobId = true) :
    after.snapshot.parentsSucceeded dagId jobId = true := by
  rw [Database.parentsSucceeded_iff] at hparents ⊢
  rw [(call.perform_frame h).dependencies]
  intro parentId hedge later hlater
  obtain ⟨earlier, hearlier, hadvances⟩ := call.advances hdb h hlater
  have hsucceeded := hparents parentId hedge earlier hearlier
  rw [hadvances.precedes.terminal (.inl hsucceeded)]
  exact hsucceeded

theorem Database.Stranded.perform (hstranded : db.Stranded dagId jobId) (hdb : db.Consistent)
    (h : call.perform db = some after) : after.Stranded dagId jobId ∨
      ∃ row, after.jobs.get? (dagId, jobId) = some row ∧ row.state = .cancelled := by
  obtain ⟨row, hrow, hpending, hparents⟩ := hstranded
  have hkept := call.keeps_parentsSucceeded hdb h hparents
  obtain ⟨later, hlater, hadvances⟩ := call.exists_later hdb h hrow
  rcases hadvances.leaves hpending with rfl | hcancelled | hcompletes
  · exact .inl ⟨later, hlater, hpending, hkept⟩
  · exact .inr ⟨later, hlater, hcancelled⟩
  · cases call with
    | complete dagId' parentId owner token result now =>
        obtain ⟨⟨parent, hparent, hleased⟩, hrows⟩ := Transaction.perform_complete h
        have hopen : row.state ≠ .leased := by simp [hpending]
        have hsame : later = row := by
          rw [hrows, Database.get?_completed hrow (.inl hopen), Option.map_some] at hlater
          refine (Option.some.inj hlater).symm.trans (if_neg fun hreleases => ?_)
          obtain ⟨rfl, -, hedge, -⟩ := releaseStatement_applies_iff.mp hreleases
          -- the completed job was leased, so that it is no parent of the stranded one
          have hsucceeded := Database.parentsSucceeded_iff.mp hparents parentId hedge parent hparent
          cases hleased.symm.trans hsucceeded
        exact .inl ⟨later, hlater, hsame ▸ hpending, hkept⟩
    | _ => exact hcompletes.elim

/-- A completion leaves no child pending that waits for nothing else. -/
theorem parentsSucceeded_of_complete {dagId' parentId owner result : String} {token : Uuid}
    {now : ℤ} {row : JobRow}
    (h : (Transaction.complete dagId' parentId owner token result now).perform db = some after)
    (hrow : db.jobs.get? (dagId, jobId) = some row) (hpending : row.state = .pending)
    (hafter : after.jobs.get? (dagId, jobId) = some row)
    (hparents : after.snapshot.parentsSucceeded dagId jobId = true) :
    db.snapshot.parentsSucceeded dagId jobId = true := by
  obtain ⟨-, hrows⟩ := Transaction.perform_complete h
  rw [Database.parentsSucceeded_iff, (Transaction.perform_frame h).dependencies] at hparents
  -- a release makes no job succeeded, so that the parents had succeeded before it
  have hmiddle : (db.completed dagId' parentId owner token result now).snapshot.parentsSucceeded
      dagId jobId = true := by
    refine Database.parentsSucceeded_iff.mpr fun otherId hedge parent hparent => ?_
    have hlater := hrows dagId otherId
    rw [hparent, Option.map_some] at hlater
    have hsucceeded := hparents otherId hedge _ hlater
    split at hsucceeded
    · cases hsucceeded
    · exact hsucceeded
  have hopen : row.state ≠ .leased := by simp [hpending]
  -- it did not apply to the child
  have hnone : ¬(dagId = dagId' ∧ ⟨dagId, parentId, jobId⟩ ∈ db.dependencies.keys) := by
    rintro ⟨hdag, hedge⟩
    have hreleases : (releaseStatement dagId' parentId now).applies
        (db.completed dagId' parentId owner token result now).snapshot dagId jobId row = true :=
      releaseStatement_applies_iff.mpr ⟨hdag, hpending, hedge, hmiddle⟩
    rw [hrows, Database.get?_completed hrow (.inl hopen), Option.map_some, if_pos hreleases]
      at hafter
    have hready : row.state = .ready := by
      rw [← Option.some.inj hafter]
      rfl
    cases hpending.symm.trans hready
  refine Database.parentsSucceeded_iff.mpr fun otherId hedge parent hparent => ?_
  refine Database.parentsSucceeded_iff.mp hmiddle otherId hedge parent ?_
  refine Database.get?_completed hparent (.inr ?_)
  by_cases hdag : dagId = dagId'
  · exact .inr fun hsame => hnone ⟨hdag, hsame ▸ hedge⟩
  · exact .inl hdag

theorem Database.Stranded.of_perform (hstranded : after.Stranded dagId jobId) (hdb : db.Consistent)
    (h : call.perform db = some after) : db.Stranded dagId jobId := by
  obtain ⟨later, hlater, hpending, hparents⟩ := hstranded
  obtain ⟨row, hrow, hadvances⟩ := call.advances hdb h hlater
  obtain rfl : later = row := hadvances.precedes.pending hpending
  refine ⟨later, hrow, hpending, ?_⟩
  cases call with
  | complete dagId' parentId owner token result now =>
      exact parentsSucceeded_of_complete h hrow hpending hlater hparents
  | _ =>
      rw [Database.parentsSucceeded_iff, (Transaction.perform_frame h).dependencies] at hparents
      refine Database.parentsSucceeded_iff.mpr fun parentId hedge parent hparent => ?_
      obtain ⟨laterParent, hlaterParent, hparentAdvances⟩ :=
        Transaction.exists_later hdb h hparent
      have hsucceeded := hparents parentId hedge laterParent hlaterParent
      exact (hparentAdvances.succeeds hsucceeded).resolve_right fun hcompletes => hcompletes

end

/-! ## Late claims -/

/-- The database after a call; a call that fails changes nothing. -/
def Database.next (db : Database) (call : Transaction) : Database := (call.perform db).getD db

/-- The changes that are still to come, heartbeats apart. -/
def Database.changesLeft (db : Database) : ℕ := db.jobs.total fun _ row => row.changesAhead

/-- A row that can be claimed is due, and so is the end of a lease. -/
def JobRow.isDue (now : ℤ) (row : JobRow) : Bool :=
  (!decide (row.state = .ready ∨ row.state = .retryWait) || decide (row.availableAt ≤ now)) &&
    row.leaseExpiresAt.all fun expires => decide (expires ≤ now)

def Database.allDue (db : Database) (now : ℤ) : Bool :=
  db.jobs.entries.all fun entry => entry.2.isDue now

/-- One for a valid claim that comes when everything is due. -/
def Database.lateClaimAt (db : Database) : Transaction → ℕ
  | .claim owner _ leaseMs now =>
      if PostgresStore.validateOwnerAndLease owner leaseMs = .ok () ∧ hasNul owner = false ∧
        db.allDue now = true then 1 else 0
  | _ => 0

/-- No job is ready, waits for a retry or is leased. -/
def Database.Settled (db : Database) : Prop :=
  ∀ dagId jobId row, db.jobs.get? (dagId, jobId) = some row → row.state = .pending ∨ row.Terminal

section

variable {db after : Database} {call : Transaction}

theorem Transaction.changesLeft_le (hdb : db.Consistent) (h : call.perform db = some after) :
    after.changesLeft ≤ db.changesLeft := by
  refine Table.total_le_of_contains_eq (call.contains_perform h).2 ?_
  rintro ⟨dagId, jobId⟩ row later hrow hlater
  obtain ⟨earlier, hearlier, hadvances⟩ := call.advances hdb h hlater
  cases hrow.symm.trans hearlier
  exact hadvances.changesAhead_le

/-- A call that takes a change of some row lowers the number of those that are left. -/
theorem Transaction.changesLeft_lt (hdb : db.Consistent) (h : call.perform db = some after)
    {dagId jobId : String} {row later : JobRow} (hrow : db.jobs.get? (dagId, jobId) = some row)
    (hlater : after.jobs.get? (dagId, jobId) = some later)
    (hlt : later.changesAhead < row.changesAhead) : after.changesLeft < db.changesLeft := by
  let only : String × String → JobRow → ℕ := fun key _ => if key = (dagId, jobId) then 1 else 0
  have hone : after.jobs.total only = 1 := by
    rw [Table.total_eq_of_key hlater fun key stored hne => if_neg hne]
    exact if_pos rfl
  have hle : (after.jobs.total fun key row => only key row + row.changesAhead) ≤
      db.jobs.total fun _ row => row.changesAhead := by
    refine Table.total_le_of_contains_eq (call.contains_perform h).2 ?_
    rintro ⟨dagId', jobId'⟩ earlier found hearlier hfound
    obtain ⟨before, hbefore, hadvances⟩ := call.advances hdb h hfound
    cases hearlier.symm.trans hbefore
    by_cases hkey : (dagId', jobId') = (dagId, jobId)
    · cases hkey
      cases hrow.symm.trans hearlier
      cases hlater.symm.trans hfound
      simp only [only, if_true]
      omega
    · simp only [only, if_neg hkey, Nat.zero_add]
      exact hadvances.changesAhead_le
  rw [Table.total_add, hone] at hle
  exact Nat.lt_of_succ_le (by rw [Nat.succ_eq_one_add]; exact hle)

theorem Database.Settled.perform (hsettled : db.Settled) (hdb : db.Consistent)
    (h : call.perform db = some after) : after.Settled := by
  intro dagId jobId later hlater
  obtain ⟨row, hrow, hadvances⟩ := call.advances hdb h hlater
  rcases hsettled dagId jobId row hrow with hpending | hterminal
  · rcases hadvances.leaves hpending with rfl | hcancelled | hcompletes
    · exact .inl hpending
    · exact .inr (.inr (.inr hcancelled))
    · -- nobody holds a lease that a completion could end
      cases call with
      | complete dagId' jobId' owner token result now =>
          obtain ⟨⟨held, hheld, hleased⟩, -⟩ := Transaction.perform_complete h
          rcases hsettled dagId' jobId' held hheld with hstate | hstate | hstate | hstate <;>
            cases hleased.symm.trans hstate
      | _ => exact hcompletes.elim
  · rw [hadvances.precedes.terminal hterminal]
    exact .inr hterminal

end

/-! ## What a late claim achieves -/

theorem Database.isDue_of_allDue {db : Database} {now : ℤ} (h : db.allDue now = true)
    {dagId jobId : String} {row : JobRow} (hrow : db.jobs.get? (dagId, jobId) = some row) :
    ((row.state = .ready ∨ row.state = .retryWait) → row.availableAt ≤ now) ∧
      ∀ expires, row.leaseExpiresAt = some expires → expires ≤ now := by
  have hdue := List.all_eq_true.mp h _ (Table.mem_entries.mpr hrow)
  simp only [JobRow.isDue, Bool.and_eq_true, Bool.or_eq_true, Bool.not_eq_true',
    decide_eq_false_iff_not, decide_eq_true_eq, Option.all_eq_true] at hdue
  exact ⟨fun hstate => hdue.1.resolve_left fun hnot => hnot hstate, hdue.2⟩

section

variable {db current : Database} {now : ℤ}

theorem Database.Rests.allConsistent (hdb : db.Submitted) (h : db.Rests current) :
    current.Consistent :=
  fun _ _ _ hrow => h.consistent hdb hrow

theorem changesAhead_reap {dagId jobId : String} {row : JobRow} (hconsistent : row.Consistent)
    (hrow : current.jobs.get? (dagId, jobId) = some row) (hleased : row.state = .leased)
    (hdue : current.allDue now = true) :
    ∃ later, (current.execute (reapStatement now)).2.jobs.get? (dagId, jobId) = some later ∧
      later.changesAhead < row.changesAhead := by
  obtain ⟨expires, hexpires⟩ := Option.isSome_iff_exists.mp (hconsistent.leased hleased).2.2
  have hpassed := (Database.isDue_of_allDue hdue hrow).2 expires hexpires
  have happlies : (reapStatement now).applies current.snapshot dagId jobId row = true :=
    reapStatement_applies_iff.mpr ⟨hleased, expires, hexpires, hpassed⟩
  refine ⟨retryRow now row, ?_, Nat.lt_of_succ_le (retryRow_changesAhead hleased now)⟩
  rw [Database.get?_execute, hrow, Option.map_some]
  exact congrArg some (if_pos happlies)

/-- What is ready and due at rest is a candidate, also after the reap. -/
theorem Database.Rests.candidate (hdb : db.Submitted) (h : db.Rests current)
    {dagId jobId : String} {row : JobRow} (hrow : current.jobs.get? (dagId, jobId) = some row)
    (hstate : row.state = .ready ∨ row.state = .retryWait) (hdue : current.allDue now = true) :
    (PostgresStore.reapInTransaction current now).2.jobs.get? (dagId, jobId) = some row ∧
      claimCandidate now (PostgresStore.reapInTransaction current now).2.snapshot dagId jobId row =
        true := by
  have hconsistent := h.allConsistent hdb
  have hreap : (Transaction.reap now).perform current =
      some (PostgresStore.reapInTransaction current now).2 := rfl
  have hopen : ¬row.Terminal := by
    rintro (hterminal | hterminal | hterminal) <;> rcases hstate with hstate | hstate <;>
      cases hterminal.symm.trans hstate
  have hreleased : row.Released := by rcases hstate with hstate | hstate <;>
    simp [JobRow.Released, hstate]
  have hkept : (PostgresStore.reapInTransaction current now).2.jobs.get? (dagId, jobId) =
      some row := by
    rw [PostgresStore.reapInTransaction, Database.get?_execute, hrow, Option.map_some]
    refine congrArg some (if_neg fun hreaps => ?_)
    have hleased := (reapStatement_applies_iff.mp hreaps).1
    rcases hstate with hstate | hstate <;> cases hleased.symm.trans hstate
  have hparents : current.snapshot.parentsSucceeded dagId jobId = true := by
    refine Database.parentsSucceeded_iff.mpr fun parentId hedge parent hparent => ?_
    obtain ⟨found, hfound, hsucceeded⟩ :=
      h.parent_succeeded hdb hrow hreleased (h.dependencies ▸ hedge)
    cases hparent.symm.trans hfound
    exact hsucceeded
  refine ⟨hkept, ?_⟩
  have hrunning := h.running hdb hrow hopen
  simp only [claimCandidate, Bool.and_eq_true, decide_eq_true_eq]
  exact ⟨⟨⟨hrunning, hstate⟩, (Database.isDue_of_allDue hdue hrow).1 hstate⟩,
    Transaction.keeps_parentsSucceeded hconsistent hreap hparents⟩

/-- A late claim takes one of the changes that are left, unless nothing is left to do. -/
theorem Database.Rests.lateClaim (hdb : db.Submitted) (h : db.Rests current) {owner : String}
    {leaseMs : ℤ} (hvalid : PostgresStore.validateOwnerAndLease owner leaseMs = .ok ())
    (hnul : hasNul owner = false) (hdue : current.allDue now = true)
    (hunsettled : ¬current.Settled) (token : Uuid) :
    ∃ after, (Transaction.claim owner token leaseMs now).perform current = some after ∧
      after.changesLeft < current.changesLeft := by
  have hconsistent := h.allConsistent hdb
  have hreap : (Transaction.reap now).perform current =
      some (PostgresStore.reapInTransaction current now).2 := rfl
  rcases PostgresStore.claim_cases current hvalid hnul token now with
    ⟨⟨dagId, jobId⟩, row, hpicks, hclaim⟩ | ⟨hnone, hclaim⟩
  · have hperform : (Transaction.claim owner token leaseMs now).perform current =
        some (PostgresStore.grantCandidate (PostgresStore.reapInTransaction current now).2
          (dagId, jobId) row owner token leaseMs now).2 := by
      rw [Transaction.perform, hclaim]
      rfl
    refine ⟨_, hperform, ?_⟩
    obtain ⟨earlier, hearlier, hadvances⟩ :=
      Transaction.advances hconsistent hreap hpicks.stored
    have hgranted : (PostgresStore.grantCandidate (PostgresStore.reapInTransaction current now).2
        (dagId, jobId) row owner token leaseMs now).2.jobs.get? (dagId, jobId) =
          some (grantLease owner token leaseMs now row) := by
      rw [PostgresStore.grantCandidate, Table.get?_modify_self, hpicks.stored]
      rfl
    have hstate : row.state = .ready ∨ row.state = .retryWait := by
      have hcandidate := hpicks.candidate
      simp only [claimCandidate, Bool.and_eq_true, decide_eq_true_eq] at hcandidate
      exact hcandidate.1.1.2
    have hclaims : RowChange dagId jobId (.claim owner token leaseMs now) 1 .claim row
        (grantLease owner token leaseMs now row) := .claim owner token leaseMs now hstate
    -- the attempt is taken from what the reap has left of the row
    have hpaid := hclaims.changesAhead hadvances.consistent
    have hreaped := hadvances.changesAhead_le
    rw [if_neg (by simp)] at hpaid
    exact Transaction.changesLeft_lt hconsistent hperform hearlier hgranted (by omega)
  · have hperform : (Transaction.claim owner token leaseMs now).perform current =
        some (PostgresStore.reapInTransaction current now).2 := by
      rw [Transaction.perform, hclaim]
      rfl
    refine ⟨_, hperform, ?_⟩
    simp only [Database.Settled, not_forall] at hunsettled
    obtain ⟨dagId, jobId, row, hrow, hopen⟩ := hunsettled
    rw [not_or] at hopen
    -- what is not leased would have been a candidate
    have hleased : row.state = .leased := by
      by_contra hnot
      have hstate : row.state = .ready ∨ row.state = .retryWait := by
        simp only [JobRow.Terminal, not_or] at hopen
        cases hstate : row.state <;> simp_all
      obtain ⟨hkept, hcandidate⟩ := h.candidate hdb hrow hstate hdue
      cases (hnone (dagId, jobId) row hkept).symm.trans hcandidate
    obtain ⟨later, hlater, hlt⟩ :=
      changesAhead_reap (hconsistent dagId jobId row hrow) hrow hleased hdue
    exact Transaction.changesLeft_lt hconsistent hperform hrow hlater hlt

/-! ## What is left in the end -/

/-- At rest, when nothing is left to do, a pending job is behind a stranded one or a
dead letter, or it is stranded itself. -/
theorem Database.Rests.exists_blocker (hdb : db.Submitted) (h : db.Rests current)
    (hsettled : current.Settled) {dagId jobId : String} {row : JobRow}
    (hrow : current.jobs.get? (dagId, jobId) = some row) (hpending : row.state = .pending) :
    ∃ blockerId, (blockerId = jobId ∨ db.Before dagId blockerId jobId) ∧
      (current.Stranded dagId blockerId ∨
        ∃ blocker, current.jobs.get? (dagId, blockerId) = some blocker ∧
          blocker.state = .deadLettered) := by
  obtain ⟨first, hfirst⟩ : ∃ first, db.jobs.get? (dagId, jobId) = some first := by
    refine Option.isSome_iff_exists.mp ?_
    rw [← Table.contains, ← h.contains_job, Table.contains, hrow]
    rfl
  obtain ⟨spec, now, job, rfl, hholds, hjob, rfl, -, -⟩ := hdb.exists_spec hfirst
  obtain ⟨order, haccepted⟩ := hholds.accepted
  have hlisted : job.id ∈ order :=
    haccepted.order_perm.mem_iff.mpr (List.mem_map_of_mem (f := JobSpec.id) hjob)
  clear hfirst hjob
  generalize job.id = jobId at hrow hlisted ⊢
  -- the induction goes up the edges of the graph
  refine haccepted.topological.induction (P := fun jobId => ∀ row,
    current.jobs.get? (spec.id, jobId) = some row → row.state = .pending →
      ∃ blockerId, (blockerId = jobId ∨ db.Before spec.id blockerId jobId) ∧
        (current.Stranded spec.id blockerId ∨
          ∃ blocker, current.jobs.get? (spec.id, blockerId) = some blocker ∧
            blocker.state = .deadLettered)) ?_ jobId hlisted row hrow hpending
  intro childId _ ih child hchild hwaits
  by_cases hparents : current.snapshot.parentsSucceeded spec.id childId = true
  · exact ⟨childId, .inl rfl, .inl ⟨child, hchild, hwaits, hparents⟩⟩
  · simp only [Database.parentsSucceeded_iff, not_forall] at hparents
    obtain ⟨parentId, hedge, parent, hparent, hunfinished⟩ := hparents
    rw [h.dependencies] at hedge
    have hbefore : db.Before spec.id parentId childId := .single hedge
    rcases hsettled spec.id parentId parent hparent with hstate | hstate | hstate | hstate
    · have hmem : (⟨parentId, childId⟩ : Dependency) ∈ spec.dependencies :=
        (hholds.dependency ⟨spec.id, parentId, childId⟩ rfl).mp (Table.contains_iff.mpr hedge)
      obtain ⟨blockerId, habove, hblocks⟩ :=
        ih parentId (List.mem_map.mpr ⟨_, hmem, rfl⟩) parent hparent hstate
      refine ⟨blockerId, .inr ?_, hblocks⟩
      rcases habove with rfl | habove
      · exact hbefore
      · exact habove.trans hbefore
    · exact absurd hstate hunfinished
    · exact ⟨parentId, .inr hbefore, .inr ⟨parent, hparent, hstate⟩⟩
    · rcases h.terminal_of_cancelled hdb hchild hparent hstate with hdone | hdone | hdone <;>
        cases hwaits.symm.trans hdone

/-! ## Runs -/

theorem Database.Rests.next (h : db.Rests current) (call : Transaction) :
    db.Rests (current.next call) := by
  unfold Database.next
  cases hafter : call.perform current with
  | none => exact h
  | some after => exact h.perform hafter

theorem Database.Rests.lateClaimAt_add_changesLeft_le (hdb : db.Submitted) (h : db.Rests current)
    (call : Transaction) (hunsettled : ¬current.Settled) :
    current.lateClaimAt call + (current.next call).changesLeft ≤ current.changesLeft := by
  have hconsistent := h.allConsistent hdb
  have hle : (current.next call).changesLeft ≤ current.changesLeft := by
    unfold Database.next
    cases hafter : call.perform current with
    | none => exact le_rfl
    | some after => exact call.changesLeft_le hconsistent hafter
  cases call with
  | claim owner token leaseMs now =>
      rw [Database.lateClaimAt]
      split
      next hlate =>
        obtain ⟨after, hafter, hlt⟩ :=
          h.lateClaim hdb hlate.1 hlate.2.1 hlate.2.2 hunsettled token
        rw [Database.next, hafter, Option.getD_some]
        omega
      next => rwa [Nat.zero_add]
  | _ => exact (Nat.zero_add _).le.trans hle

theorem Database.Rests.stranded_of_after (hdb : db.Submitted) (h : db.Rests current)
    {dagId jobId : String} (calls : List Transaction)
    (hstranded : (Machine.after Database.next current calls).Stranded dagId jobId) :
    current.Stranded dagId jobId := by
  induction calls generalizing current with
  | nil => exact hstranded
  | cons call rest ih =>
      have hnext := ih (h.next call) hstranded
      unfold Database.next at hnext
      cases hafter : call.perform current with
      | none => simpa [hafter] using hnext
      | some after =>
          rw [hafter, Option.getD_some] at hnext
          exact hnext.of_perform (h.allConsistent hdb) hafter

/-- The job is stranded, or it has been cancelled. -/
def Database.LeftBehind (db : Database) (dagId jobId : String) : Prop :=
  db.Stranded dagId jobId ∨
    ∃ row, db.jobs.get? (dagId, jobId) = some row ∧ row.state = .cancelled

theorem Database.LeftBehind.next {dagId jobId : String} (hleft : current.LeftBehind dagId jobId)
    (hconsistent : current.Consistent) (call : Transaction) :
    (current.next call).LeftBehind dagId jobId := by
  unfold Database.next
  cases hafter : call.perform current with
  | none => exact hleft
  | some after =>
      rw [Option.getD_some]
      rcases hleft with hstranded | ⟨row, hrow, hcancelled⟩
      · exact hstranded.perform hconsistent hafter
      · obtain ⟨later, hlater, hadvances⟩ := call.exists_later hconsistent hafter hrow
        have hsame := hadvances.precedes.terminal (.inr (.inr hcancelled))
        exact .inr ⟨later, hlater, hsame ▸ hcancelled⟩

end

/-- What overlapping calls leave behind.  Let calls interleave in any way, and let then
calls come one at a time, of any kind but submissions and from any client, failures
and crashes included.  With more late claims among them than there are changes left, every job
is finished in the end, or it is pending: stranded by a release that was lost in the
overlap, or behind such a job or a dead letter.  And no call repairs a lost release:
every stranded job stays pending, unless it is cancelled. -/
theorem settles_after_overlap {db : Database} (hdb : db.Submitted) {system : StoreSystem}
    (hrun : Interleaved db anyAction system) (hidle : ∀ id, system.sessions.get? id = none)
    {calls : List Transaction}
    (hlate : (db.withRows system.committed).changesLeft <
      Machine.tally Database.next Database.lateClaimAt (db.withRows system.committed) calls) :
    let settled := Machine.after Database.next (db.withRows system.committed) calls
    (∀ dagId jobId row, settled.jobs.get? (dagId, jobId) = some row →
      row.state = .succeeded ∨ row.state = .deadLettered ∨ row.state = .cancelled ∨
      row.state = .pending ∧ ∃ blockerId,
        (blockerId = jobId ∨ db.Before dagId blockerId jobId) ∧
        ((db.withRows system.committed).Stranded dagId blockerId ∨
          ∃ blocker, settled.jobs.get? (dagId, blockerId) = some blocker ∧
            blocker.state = .deadLettered)) ∧
    ∀ dagId jobId, (db.withRows system.committed).Stranded dagId jobId →
      ∃ row, settled.jobs.get? (dagId, jobId) = some row ∧
        (row.state = .pending ∨ row.state = .cancelled) := by
  have hrests := hrun.rests hdb hidle
  generalize db.withRows system.committed = current at hrests hlate ⊢
  have halong : Machine.Along Database.next (fun _ _ => True) current calls :=
    Machine.along_of_forall fun _ _ => trivial
  have hkept : ∀ state call, db.Rests state → True → db.Rests (state.next call) :=
    fun state call h _ => h.next call
  have hsettled : (Machine.after Database.next current calls).Settled := by
    refine Machine.finished_of_lt_tally hkept ?_ ?_ hrests halong hlate
    · intro state call h _ hsettled
      unfold Database.next
      cases hafter : call.perform state with
      | none => exact hsettled
      | some after => exact hsettled.perform (h.allConsistent hdb) hafter
    · intro state call h _ hunsettled
      exact h.lateClaimAt_add_changesLeft_le hdb call hunsettled
  have hlast := Machine.after_induction hkept hrests halong
  constructor
  · intro dagId jobId row hrow
    rcases hsettled dagId jobId row hrow with hpending | hdone | hdone | hdone
    · obtain ⟨blockerId, habove, hblocks⟩ := hlast.exists_blocker hdb hsettled hrow hpending
      refine .inr (.inr (.inr ⟨hpending, blockerId, habove, hblocks.imp_left ?_⟩))
      exact hrests.stranded_of_after hdb calls
    · exact .inl hdone
    · exact .inr (.inl hdone)
    · exact .inr (.inr (.inl hdone))
  · intro dagId jobId hstranded
    have hboth : ∀ state call, db.Rests state ∧ state.LeftBehind dagId jobId → True →
        db.Rests (state.next call) ∧ (state.next call).LeftBehind dagId jobId :=
      fun state call h _ => ⟨h.1.next call, h.2.next (h.1.allConsistent hdb) call⟩
    rcases (Machine.after_induction hboth ⟨hrests, .inl hstranded⟩ halong).2 with
      ⟨row, hrow, hpending, -⟩ | ⟨row, hrow, hcancelled⟩
    · exact ⟨row, hrow, .inl hpending⟩
    · exact ⟨row, hrow, .inr hcancelled⟩

/-- The rows after two completions that have overlapped. -/
def overlappedDatabase : Database :=
  joinDatabase.withRows (joinDatabase.systemAfter overlappingActions).committed

/-- A worker that goes on asking for work. -/
def patientClaims : List Transaction := List.replicate 4 (.claim "third" 9 1000 30)

/-- The child of the two jobs waits for ever. -/
theorem settles_after_overlap_join : ∃ row,
    (Machine.after Database.next overlappedDatabase patientClaims).jobs.get? ("join", "child") =
      some row ∧ (row.state = .pending ∨ row.state = .cancelled) := by
  have hstranded : overlappedDatabase.Stranded "join" "child" :=
    ⟨⟨.uppercase, "", 1, 0, 0, .pending, 0, none, none, none, none⟩, by decide, rfl, by decide⟩
  have hlate : overlappedDatabase.changesLeft <
      Machine.tally Database.next Database.lateClaimAt overlappedDatabase patientClaims := by
    decide
  exact (settles_after_overlap (.submit _ 0 .empty) (interleaved_systemAfter (by decide))
    (idle_of_keys (by decide)) hlate).2 "join" "child" hstranded

end JobOrchestrator
