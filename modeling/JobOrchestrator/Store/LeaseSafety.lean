import JobOrchestrator.Store.Concurrent

/-!
# Leases of the durable store under concurrency

The committed changes of the row of a job form a chain: each starts from the
version that the one before has left (`Linked.follows`), and each is a
`RowChange`.  The claims about leases are facts about such chains, whatever the
interleaving was: a leased row goes back to a claimable state only through `fail`
or a reap, a report applies only to the row that the last claim has leased, a
terminal row ends the chain, and every claim counts one attempt.
-/

namespace JobOrchestrator

open ReadCommitted

/-- A change of a stored row. -/
abbrev StoreChange := Change StoreKey StoredRow StatementLabel

/-- The committed changes of the row of a job, in the order of the commits. -/
def jobLog (commits : List StoreCommit) (dagId jobId : String) : List StoreChange :=
  (commits.flatMap Commit.changes).filter fun change => change.key = .job dagId jobId

/-- Owner and token of the lease of a row. -/
def StoredRow.holder : StoredRow → Option String × Option Uuid
  | .job row => (row.leaseOwner, row.leaseToken)
  | .dag _ => (none, none)

/-- A change as one of the changes of a job. -/
def Moves (dagId jobId : String) (change : StoreChange) : Prop :=
  ∀ old, change.old = .job old → ∃ new program index, change.new = .job new ∧
    RowChange dagId jobId program index change.label old new

/-! ## One change -/

section

variable {dagId jobId : String} {program : Transaction} {index : ℕ} {label : StatementLabel}
  {old new : JobRow}

theorem RowChange.attempts (h : RowChange dagId jobId program index label old new) :
    new.attempts = old.attempts + if label = .claim then 1 else 0 := by
  cases h <;> rfl

theorem retryRow_not_leased (now : ℤ) (row : JobRow) : (retryRow now row).state ≠ .leased := by
  rcases retryRow_state now row with hdead | hwaiting
  · simp [hdead]
  · simp [hwaiting]

/-- A leased row keeps its lease, or the lease is ended by `fail` or a reap, or
the job becomes terminal. -/
theorem RowChange.of_leased (h : RowChange dagId jobId program index label old new)
    (hleased : old.state = .leased) :
    (label = .heartbeat ∧ new.state = .leased ∧ new.leaseOwner = old.leaseOwner ∧
        new.leaseToken = old.leaseToken) ∨
      (label = .fail ∨ label = .reap) ∨ new.Terminal := by
  cases h with
  | reapFirst owner token leaseMs now hstate => exact .inr (.inl (.inr rfl))
  | claim owner token leaseMs now hstate => rcases hstate with h | h <;> simp [h] at hleased
  | heartbeat owner token leaseMs now hmatches => exact .inl ⟨rfl, hleased, rfl, rfl⟩
  | complete owner token result now hmatches => exact .inr (.inr (.inl rfl))
  | release parentId owner token result now hstate => simp [hstate] at hleased
  | fail owner token now hmatches => exact .inr (.inl (.inl rfl))
  | reap now hstate => exact .inr (.inl (.inr rfl))
  | cancel hopen => exact .inr (.inr (.inr (.inr rfl)))

/-- A row is leased after a claim, or was leased before and still has that lease. -/
theorem RowChange.to_leased (h : RowChange dagId jobId program index label old new)
    (hleased : new.state = .leased) : label = .claim ∨
      label = .heartbeat ∧ old.state = .leased ∧ new.leaseOwner = old.leaseOwner ∧
        new.leaseToken = old.leaseToken := by
  cases h with
  | reapFirst owner token leaseMs now hstate => exact absurd hleased (retryRow_not_leased now old)
  | claim owner token leaseMs now hstate => exact .inl rfl
  | heartbeat owner token leaseMs now hmatches =>
      exact .inr ⟨rfl, (leaseMatches_cases hmatches).2.2.1, rfl, rfl⟩
  | complete owner token result now hmatches => cases hleased
  | release parentId owner token result now hstate => cases hleased
  | fail owner token now hmatches => exact absurd hleased (retryRow_not_leased now old)
  | reap now hstate => exact absurd hleased (retryRow_not_leased now old)
  | cancel hopen => cases hleased

theorem RowChange.claims (h : RowChange dagId jobId program index .claim old new) :
    (old.state = .ready ∨ old.state = .retryWait) ∧ new.state = .leased := by
  cases h with
  | claim owner token leaseMs now hstate => exact ⟨hstate, rfl⟩

end

/-! ## Chains of changes -/

section

variable {dagId jobId : String}

theorem exists_row_of_follows {changes : List StoreChange} {row : JobRow} {last : StoredRow}
    (h : Follows (.job row) changes last) (hmoves : ∀ change ∈ changes, Moves dagId jobId change) :
    ∃ row', last = .job row' := by
  induction changes generalizing row with
  | nil => exact ⟨row, Eq.symm h⟩
  | cons change rest ih =>
      obtain ⟨hold, hrest⟩ := h
      obtain ⟨new, -, -, hnew, -⟩ := hmoves change List.mem_cons_self row hold
      exact ih (hnew ▸ hrest) fun other hother => hmoves other (List.mem_cons_of_mem _ hother)

theorem attempts_of_follows {changes : List StoreChange} {row row' : JobRow}
    (h : Follows (.job row) changes (.job row'))
    (hmoves : ∀ change ∈ changes, Moves dagId jobId change) :
    row'.attempts = row.attempts + changes.countP fun change => change.label = .claim := by
  induction changes generalizing row with
  | nil =>
      cases h
      rfl
  | cons change rest ih =>
      obtain ⟨hold, hrest⟩ := h
      obtain ⟨new, _, _, hnew, hchange⟩ := hmoves change List.mem_cons_self row hold
      have hlater := ih (hnew ▸ hrest) fun other hother =>
        hmoves other (List.mem_cons_of_mem _ hother)
      rw [hlater, hchange.attempts, List.countP_cons]
      simp only [decide_eq_true_eq]
      omega

theorem eq_nil_of_terminal {changes : List StoreChange} {row : JobRow}
    {last : StoredRow} (h : Follows (.job row) changes last)
    (hmoves : ∀ change ∈ changes, Moves dagId jobId change) (hterminal : row.Terminal) :
    changes = [] := by
  cases changes with
  | nil => rfl
  | cons change rest =>
      obtain ⟨_, _, _, _, hchange⟩ := hmoves change List.mem_cons_self row h.1
      exact absurd hterminal hchange.not_terminal

/-- From a leased row on: the lease is ended by `fail` or a reap, or it is still
there, or the job is terminal. -/
theorem follows_of_leased {changes : List StoreChange} {row row' : JobRow}
    (h : Follows (.job row) changes (.job row'))
    (hmoves : ∀ change ∈ changes, Moves dagId jobId change) (hleased : row.state = .leased) :
    (∃ ended ∈ changes, (ended.label = .fail ∨ ended.label = .reap) ∧
        ended.old.holder = (row.leaseOwner, row.leaseToken)) ∨
      row'.state = .leased ∨ row'.Terminal := by
  induction changes generalizing row with
  | nil =>
      cases h
      exact .inr (.inl hleased)
  | cons change rest ih =>
      obtain ⟨hold, hrest⟩ := h
      have hmoves' := fun other hother => hmoves other (List.mem_cons_of_mem _ hother)
      obtain ⟨new, _, _, hnew, hchange⟩ := hmoves change List.mem_cons_self row hold
      rw [hnew] at hrest
      rcases hchange.of_leased hleased with ⟨-, hstill, howner, htoken⟩ | hended | hterminal
      · refine (ih hrest hmoves' hstill).imp_left ?_
        rintro ⟨ended, hmem, hlabel, hholder⟩
        exact ⟨ended, List.mem_cons_of_mem _ hmem, hlabel, by rw [hholder, howner, htoken]⟩
      · exact .inl ⟨change, List.mem_cons_self, hended, by rw [hold]; rfl⟩
      · cases eq_nil_of_terminal hrest hmoves' hterminal
        cases hrest
        exact .inr (.inr hterminal)

/-- A row that is leased in the end has the lease of the last claim, and there
have only been heartbeats since. -/
theorem traced_of_follows {changes : List StoreChange} {row row' : JobRow}
    (h : Follows (.job row) changes (.job row'))
    (hmoves : ∀ change ∈ changes, Moves dagId jobId change) (hstart : row.state ≠ .leased)
    (hleased : row'.state = .leased) :
    ∃ earlier claim later, changes = earlier ++ claim :: later ∧ claim.label = .claim ∧
      claim.new.holder = (row'.leaseOwner, row'.leaseToken) ∧
      ∀ change ∈ later, change.label = .heartbeat := by
  induction changes using List.reverseRecOn generalizing row' with
  | nil =>
      cases h
      exact absurd hleased hstart
  | append_singleton changes change ih =>
      obtain ⟨middle, hfirst, hold, hnew⟩ := follows_append.mp h
      have hmoves' := fun other hother => hmoves other (List.mem_append_left _ hother)
      obtain ⟨old, rfl⟩ := exists_row_of_follows hfirst hmoves'
      obtain ⟨new, _, _, hnew', hchange⟩ := hmoves change
        (List.mem_append_right _ (List.mem_singleton_self _)) old hold
      cases hnew'.symm.trans hnew
      rcases hchange.to_leased hleased with hclaim | ⟨hheartbeat, hbefore, howner, htoken⟩
      · exact ⟨changes, change, [], rfl, hclaim, by rw [hnew']; rfl, fun _ hnone => nomatch hnone⟩
      · obtain ⟨earlier, claim, later, rfl, hclaim, hholder, honly⟩ :=
          ih hfirst hmoves' hbefore
        refine ⟨earlier, claim, later ++ [change], by simp, hclaim, ?_, ?_⟩
        · rw [hholder, howner, htoken]
        · exact List.forall_mem_append.mpr ⟨honly, List.forall_mem_singleton.mpr hheartbeat⟩

end

/-! ## The log of a job -/

section

variable {db : Database} {allowed : StoreSystem → StoreAction → Prop} {system : StoreSystem}

/-- The log of a job leads from its submitted row to the committed one. -/
theorem Interleaved.follows (hdb : db.Submitted) (h : Interleaved db allowed system)
    {before after : List StoreCommit} (hhistory : system.history = before ++ after)
    {dagId jobId : String} (hjob : db.jobs.contains (dagId, jobId) = true) :
    ∃ first row, first.Untouched db dagId jobId ∧
      (db.after before).get? (.job dagId jobId) = some (.job row) ∧ row.Regular ∧
      Follows (.job first) (jobLog before dagId jobId) (.job row) := by
  obtain ⟨row, hrow, hregular⟩ := h.exists_row hdb hhistory hjob
  obtain ⟨first, hfirst⟩ := Option.isSome_iff_exists.mp hjob
  have hlog : system.log = before.flatMap Commit.changes ++ after.flatMap Commit.changes := by
    rw [System.log, hhistory, List.flatMap_append]
  have hlinked := (linked_append.mp (hlog ▸ h.sound.linked)).1
  obtain ⟨last, hlast, hfollows⟩ := hlinked.follows
    ((get?_stored_job db dagId jobId (.job first)).mpr ⟨first, hfirst, rfl⟩)
  cases hlast.symm.trans hrow
  exact ⟨first, row, hdb.untouched hfirst, hrow, hregular, hfollows⟩

theorem Interleaved.moves (h : Interleaved db allowed system) (dagId jobId : String) :
    ∀ change ∈ jobLog system.history dagId jobId, Moves dagId jobId change := by
  intro change hchange old hold
  obtain ⟨hmem, hkey⟩ := List.mem_filter.mp hchange
  obtain ⟨program, counts, hjustified⟩ := h.sound.justified change hmem
  obtain ⟨new, hnew, hmove⟩ := rowChange_of_justified hjustified (by simpa using hkey) hold
  exact ⟨new, program, change.index, hnew, hmove⟩

theorem jobLog_append (first second : List StoreCommit) (dagId jobId : String) :
    jobLog (first ++ second) dagId jobId =
      jobLog first dagId jobId ++ jobLog second dagId jobId := by
  simp only [jobLog, List.flatMap_append, List.filter_append]

end

/-! ## Reports -/

/-- A heartbeat, a completion or a failure of a job, by an owner with a token. -/
def Transaction.Reports (dagId jobId owner : String) (token : Uuid) : Transaction → Prop
  | .heartbeat dagId' jobId' owner' token' _ _ =>
      dagId' = dagId ∧ jobId' = jobId ∧ owner' = owner ∧ token' = token
  | .complete dagId' jobId' owner' token' _ _ =>
      dagId' = dagId ∧ jobId' = jobId ∧ owner' = owner ∧ token' = token
  | .fail dagId' jobId' owner' token' _ =>
      dagId' = dagId ∧ jobId' = jobId ∧ owner' = owner ∧ token' = token
  | _ => False

section

variable {dependencies : List DependencyRow} {dagId jobId owner : String} {token : Uuid}
  {program : Transaction}

theorem Transaction.Reports.statement (h : program.Reports dagId jobId owner token)
    {statement : Statement StoreKey StoredRow StatementLabel}
    (hscript : command dependencies program [] = .execute statement) :
    ∃ (update : JobUpdate) (label : StatementLabel) (now : ℤ),
      statement = update.statement dependencies label .every ∧
        ∀ snapshot, update.applies snapshot = leaseMatches dagId jobId owner token now := by
  cases executes_of_command hscript with
  | reapFirst => exact h.elim
  | reap => exact h.elim
  | markDag => exact h.elim
  | heartbeat dagId' jobId' owner' token' leaseMs now =>
      obtain ⟨rfl, rfl, rfl, rfl⟩ := h
      exact ⟨_, _, now, rfl, fun _ => rfl⟩
  | complete dagId' jobId' owner' token' result now =>
      obtain ⟨rfl, rfl, rfl, rfl⟩ := h
      exact ⟨_, _, now, rfl, fun _ => rfl⟩
  | fail dagId' jobId' owner' token' now =>
      obtain ⟨rfl, rfl, rfl, rfl⟩ := h
      exact ⟨_, _, now, rfl, fun _ => rfl⟩

theorem unlessError_eq_commit {α : Type} {check : Except StoreError α}
    {next : Command StoreKey StoredRow StatementLabel}
    (h : unlessError check next = .commit) : (∃ value, check = .ok value) ∧ next = .commit := by
  unfold unlessError at h
  split at h
  next value => exact ⟨⟨value, rfl⟩, h⟩
  · cases h

theorem of_ensureCompareAndSet {changed : ℕ}
    (h : PostgresStore.ensureCompareAndSet changed = .ok ()) : changed = 1 := by
  unfold PostgresStore.ensureCompareAndSet at h
  split at h
  · assumption
  · cases h

theorem Transaction.Reports.counts_ne_zero (h : program.Reports dagId jobId owner token)
    {counts : List ℕ} (hended : command dependencies program counts = .commit)
    (hexecuted : 1 < counts.length →
      ∃ statement, command dependencies program (counts.take 1) = .execute statement) :
    ∃ changed rest, counts = changed :: rest ∧ changed ≠ 0 := by
  cases program with
  | claim => exact h.elim
  | reap => exact h.elim
  | cancel => exact h.elim
  | heartbeat dagId' jobId' owner' token' leaseMs now =>
      obtain ⟨-, hended⟩ := unlessError_eq_commit hended
      cases counts with
      | nil => cases (unlessError_eq_commit hended).2
      | cons changed rest =>
          obtain ⟨⟨⟨⟩, hone⟩, -⟩ := unlessError_eq_commit hended
          exact ⟨changed, rest, rfl, by rw [of_ensureCompareAndSet hone]; exact one_ne_zero⟩
  | complete dagId' jobId' owner' token' result now =>
      simp only [command] at hended hexecuted
      split at hended
      · cases hended
      next hsize =>
        rcases counts with _ | ⟨changed, _ | ⟨second, rest⟩⟩
        · cases (unlessError_eq_commit hended).2
        · cases (unlessError_eq_commit hended).2
        · -- the second statement was reached
          obtain ⟨statement, hstatement⟩ := hexecuted (by simp)
          rw [if_neg hsize] at hstatement
          refine ⟨changed, second :: rest, rfl, ?_⟩
          rintro rfl
          cases hstatement
  | fail dagId' jobId' owner' token' now =>
      cases counts with
      | nil => cases (unlessError_eq_commit hended).2
      | cons changed rest =>
          simp only [command] at hended
          split at hended
          · cases hended
          next hne => exact ⟨changed, rest, rfl, hne⟩

/-- A report that has changed a row with its first statement has changed the row of
its job, while it was leased to the reporter. -/
theorem Transaction.Reports.exists_change (h : program.Reports dagId jobId owner token)
    {counts : List ℕ} {changes : List StoreChange}
    (hjustified : ∀ change ∈ changes, Justified (command dependencies) program counts change)
    (hcount : countOf changes 0 ≠ 0) :
    ∃ change ∈ changes, change.key = .job dagId jobId ∧
      ∃ old, change.old = .job old ∧ old.state = .leased ∧ old.leaseOwner = some owner ∧
        old.leaseToken = some token := by
  obtain ⟨change, hmem, hindex⟩ := List.countP_pos_iff.mp (Nat.pos_of_ne_zero hcount)
  have hindex : change.index = 0 := by simpa using hindex
  obtain ⟨statement, snapshot, -, hscript, -, happlies, -⟩ := hjustified change hmem
  rw [hindex, List.take_zero] at hscript
  obtain ⟨update, label, now, rfl, hmatches⟩ := h.statement hscript
  refine ⟨change, hmem, ?_⟩
  generalize change.key = key at happlies ⊢
  generalize change.old = old at happlies ⊢
  cases key with
  | dag id => simp [JobUpdate.statement] at happlies
  | job dagId' jobId' =>
      cases old with
      | dag state => simp [JobUpdate.statement] at happlies
      | job old =>
          simp only [JobUpdate.statement, hmatches] at happlies
          obtain ⟨rfl, rfl, hleased, howner, htoken⟩ := leaseMatches_cases happlies
          exact ⟨rfl, old, rfl, hleased, howner, htoken⟩

theorem Transaction.Reports.label_ne (h : program.Reports dagId jobId owner token) {index : ℕ}
    {label : StatementLabel} {dagId' jobId' : String} {old new : JobRow}
    (hchange : RowChange dagId' jobId' program index label old new) : label ≠ .claim := by
  rintro rfl
  cases hchange
  exact h

end

/-! ## Lease safety -/

/-- Before a committed report, the last claim of the job gave the lease to the
reporter, and there have only been heartbeats since. -/
theorem Interleaved.reports {db : Database} (hdb : db.Submitted)
    {allowed : StoreSystem → StoreAction → Prop} {system : StoreSystem}
    (h : Interleaved db allowed system) {dagId jobId : String}
    (hjob : db.jobs.contains (dagId, jobId) = true) {before after : List StoreCommit}
    {commit : StoreCommit} (hhistory : system.history = before ++ commit :: after)
    {owner : String} {token : Uuid} (hreports : commit.program.Reports dagId jobId owner token) :
    ∃ earlier claim later, jobLog before dagId jobId = earlier ++ claim :: later ∧
      claim.label = .claim ∧ claim.new.holder = (some owner, some token) ∧
      ∀ change ∈ later, change.label = .heartbeat := by
  have hsound := h.sound
  have hmember : commit ∈ system.history := by simp [hhistory]
  have hcommit := hsound.commits commit hmember
  obtain ⟨changed, rest, hcounts, hchanged⟩ :=
    hreports.counts_ne_zero hcommit.ended (hcommit.executed 1)
  -- the report has changed a row in its first statement, while the reporter held it
  have hcounted := hcommit.counted 0 (by rw [hcounts]; simp)
  rw [hcounts, List.getElem?_cons_zero, Option.some.injEq] at hcounted
  obtain ⟨change, hchange, hkey, old, hold, hleased, howner, htoken⟩ :=
    hreports.exists_change hcommit.justified (hcounted ▸ hchanged)
  have hown : change ∈ jobLog [commit] dagId jobId := by
    unfold jobLog
    rw [List.flatMap_singleton]
    exact List.mem_filter.mpr ⟨hchange, by simpa using hkey⟩
  obtain ⟨pre, post, hsplit⟩ := List.append_of_mem hown
  obtain ⟨first, row, huntouched, -, -, hfollows⟩ :=
    h.follows hdb (List.append_nil system.history).symm hjob
  have hmoves := h.moves dagId jobId
  have hlog : jobLog system.history dagId jobId = (jobLog before dagId jobId ++ pre) ++
      (change :: post ++ jobLog after dagId jobId) := by
    rw [hhistory, ← List.singleton_append, jobLog_append, jobLog_append, hsplit]
    simp
  rw [hlog] at hfollows hmoves
  obtain ⟨middle, hbefore, hmiddle, -⟩ := follows_append.mp hfollows
  rw [← hmiddle, hold] at hbefore
  have hstart : first.state ≠ .leased := by
    rcases huntouched.waiting with hready | ⟨hpending, -⟩
    · simp [hready]
    · simp [hpending]
  obtain ⟨earlier, claim, later, hsplit', hclaim, hholder, honly⟩ := traced_of_follows hbefore
    (fun other hother => hmoves other (List.mem_append_left _ hother)) hstart hleased
  rw [howner, htoken] at hholder
  -- the claim is not one of the reporting transaction
  have hnotOwn : claim ∉ pre := by
    intro hpre
    have hmem : claim ∈ jobLog [commit] dagId jobId := by simp [hsplit, hpre]
    unfold jobLog at hmem
    rw [List.flatMap_singleton] at hmem
    obtain ⟨hmem, hclaimKey⟩ := List.mem_filter.mp hmem
    have hclaimKey : claim.key = .job dagId jobId := by simpa using hclaimKey
    have hregular := (hsound.versions (kept_storedRegular _) hdb.storedRegular).1 claim
      (List.mem_flatMap.mpr ⟨commit, hmember, hmem⟩)
    rw [hclaimKey] at hregular
    cases hclaimOld : claim.old with
    | dag state =>
        rw [hclaimOld] at hregular
        exact hregular
    | job row =>
        obtain ⟨new, -, hmove⟩ :=
          rowChange_of_justified (hcommit.justified claim hmem) hclaimKey hclaimOld
        exact hreports.label_ne hmove hclaim
  rcases List.append_eq_append_iff.mp hsplit' with ⟨rest, -, hpre⟩ | ⟨rest, hlogBefore, hrest⟩
  · exact absurd (hpre ▸ List.mem_append_right _ List.mem_cons_self) hnotOwn
  · cases rest with
    | nil =>
        rw [List.nil_append] at hrest
        exact absurd (hrest ▸ List.mem_cons_self) hnotOwn
    | cons last between =>
        obtain ⟨rfl, rfl⟩ := List.cons.inj hrest
        exact ⟨earlier, claim, between, hlogBefore, hclaim, hholder, fun other hother =>
          honly other (List.mem_append_left _ hother)⟩

/-- Lease safety of one job, in every committed state of every interleaving:
between two claims the first lease was ended by `fail` or a reap; a report commits
only for the lease of the last claim, with nothing but heartbeats since; a success
is the last change of the row; every claim counts one attempt, within the budget. -/
theorem lease_safety {db : Database} (hdb : db.Submitted) {system : StoreSystem}
    (hrun : Interleaved db anyAction system) {dagId jobId : String}
    (hjob : db.jobs.contains (dagId, jobId) = true) :
    (∀ (before between after : List StoreChange) (first second : StoreChange),
      jobLog system.history dagId jobId = before ++ first :: between ++ second :: after →
      first.label = .claim → second.label = .claim →
      ∃ ended ∈ between, (ended.label = .fail ∨ ended.label = .reap) ∧
        ended.old.holder = first.new.holder) ∧
    (∀ (before after : List StoreCommit) (commit : StoreCommit),
      system.history = before ++ commit :: after → ∀ owner token,
      commit.program.Reports dagId jobId owner token →
      ∃ earlier claim later, jobLog before dagId jobId = earlier ++ claim :: later ∧
        claim.label = .claim ∧ claim.new.holder = (some owner, some token) ∧
        ∀ change ∈ later, change.label = .heartbeat) ∧
    (∀ (before after : List StoreChange) (change : StoreChange) (row : JobRow),
      jobLog system.history dagId jobId = before ++ change :: after →
      change.new = .job row → row.state = .succeeded →
      after = [] ∧ system.committed.get? (.job dagId jobId) = some (.job row)) ∧
    ∃ row, system.committed.get? (.job dagId jobId) = some (.job row) ∧
      row.attempts =
        (jobLog system.history dagId jobId).countP (fun change => change.label = .claim) ∧
      row.attempts ≤ row.maxAttempts := by
  obtain ⟨first, last, huntouched, hlast, hregular, hfollows⟩ :=
    hrun.follows hdb (List.append_nil system.history).symm hjob
  have hmoves := hrun.moves dagId jobId
  have hcommitted : system.committed.get? (.job dagId jobId) = some (.job last) := by
    rw [hrun.sound.committed]
    exact hlast
  refine ⟨fun before between after claim second hlog hclaim hsecond => ?_,
    fun before after commit hhistory owner token hreports =>
      hrun.reports hdb hjob hhistory hreports,
    fun before after change row hlog hnew hsucceeded => ?_, last, hcommitted, ?_,
    hregular.attempts_le⟩
  · -- the row is leased after the first claim and claimable before the second
    rw [hlog] at hfollows hmoves
    obtain ⟨unclaimed, hupto, hold, -⟩ := follows_append.mp hfollows
    obtain ⟨start, hbefore, hclaimOld, hbetween⟩ := follows_append.mp hupto
    have hmovesBefore : ∀ change ∈ before, Moves dagId jobId change := fun change hchange =>
      hmoves change (List.mem_append_left _ (List.mem_append_left _ hchange))
    have hmovesBetween : ∀ change ∈ between, Moves dagId jobId change := fun change hchange =>
      hmoves change (List.mem_append_left _
        (List.mem_append_right _ (List.mem_cons_of_mem _ hchange)))
    obtain ⟨unleased, rfl⟩ := exists_row_of_follows hbefore hmovesBefore
    obtain ⟨leased, _, _, hleased, hmove⟩ := hmoves claim (by simp) unleased hclaimOld
    rw [hclaim] at hmove
    rw [hleased] at hbetween ⊢
    obtain ⟨claimable, rfl⟩ := exists_row_of_follows hbetween hmovesBetween
    obtain ⟨_, _, _, -, hmoveSecond⟩ := hmoves second (by simp) claimable hold
    rw [hsecond] at hmoveSecond
    rcases follows_of_leased hbetween hmovesBetween hmove.claims.2 with hended | hstill | hterminal
    · exact hended
    · rcases hmoveSecond.claims.1 with h | h <;> cases h.symm.trans hstill
    · exact absurd hterminal hmoveSecond.not_terminal
  · -- nothing starts from a succeeded row
    rw [hlog] at hfollows hmoves
    obtain ⟨_, -, -, hafter⟩ := follows_append.mp hfollows
    rw [hnew] at hafter
    have hnil := eq_nil_of_terminal hafter (fun other hother =>
      hmoves other (List.mem_append_right _ (List.mem_cons_of_mem _ hother))) (.inl hsucceeded)
    subst hnil
    cases hafter
    exact ⟨rfl, hcommitted⟩
  · rw [attempts_of_follows hfollows hmoves, huntouched.attempts, Nat.zero_add]

/-! ## Two workers and one job -/

def soloDatabase : Database :=
  (PostgresStore.submit .empty ⟨"solo", [⟨"job", .uppercase, "", 2, 0⟩], []⟩ 0).2

/-- Two claims see the job at once; the second one finds it locked and takes
nothing.  The first worker fails, and the second one claims again and completes. -/
def contestedActions : List StoreAction :=
  [.start 0 (.claim "first" 7 1000 10), .execute 0, .finish 0, .execute 0,
    .start 1 (.claim "second" 8 1000 10), .execute 1, .finish 1, .execute 1,
    .visit 0 (.job "solo" "job"), .visit 1 (.job "solo" "job"), .finish 1, .commit 1,
    .finish 0, .commit 0,
    .start 2 (.fail "solo" "job" "first" 7 20), .execute 2, .visit 2 (.job "solo" "job"),
    .finish 2, .commit 2,
    .start 3 (.claim "second" 9 1000 2000000), .execute 3, .finish 3, .execute 3,
    .visit 3 (.job "solo" "job"), .finish 3, .commit 3,
    .start 4 (.complete "solo" "job" "second" 9 "done" 2000010), .execute 4,
    .visit 4 (.job "solo" "job"), .finish 4, .execute 4, .finish 4, .commit 4]

theorem interleaved_contested :
    Interleaved soloDatabase anyAction (soloDatabase.systemAfter contestedActions) :=
  interleaved_systemAfter (by decide)

/-- The job has two claims in its log, which is its whole budget. -/
theorem lease_safety_contested :
    ((jobLog (soloDatabase.systemAfter contestedActions).history "solo" "job").map
      Change.label = [.claim, .fail, .claim, .complete]) ∧
    ∃ row, (soloDatabase.systemAfter contestedActions).committed.get? (.job "solo" "job") =
        some (.job row) ∧ row.attempts = 2 ∧ row.attempts ≤ row.maxAttempts := by
  obtain ⟨-, -, -, row, hrow, hattempts, hle⟩ :=
    lease_safety (.submit _ 0 .empty) interleaved_contested
      (show soloDatabase.jobs.contains ("solo", "job") = true by decide)
  have hlabels : (jobLog (soloDatabase.systemAfter contestedActions).history "solo" "job").map
      Change.label = [.claim, .fail, .claim, .complete] := by decide
  have hclaims : ∀ changes : List StoreChange,
      changes.map Change.label = [.claim, .fail, .claim, .complete] →
      changes.countP (fun change => change.label = .claim) = 2 := by
    intro changes hchanges
    have hcount := congrArg (List.countP fun label => label = StatementLabel.claim) hchanges
    rwa [List.countP_map] at hcount
  exact ⟨hlabels, row, hrow, by rw [hattempts, hclaims _ hlabels], hle⟩

end JobOrchestrator
