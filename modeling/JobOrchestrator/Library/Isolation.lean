import JobOrchestrator.Library.FinalRows

/-!
# Transactions that run alone

A serial execution performs programs one after the other: every statement works
on the rows as the statement before it has left them.  The schedules in which no
transaction starts while another one is open are exactly the serial executions
(`isolated_iff_serial`).  The order in which a statement visits its candidates does
not matter then, no condition fails when it is checked again, and an aborted
transaction leaves no trace.
-/

namespace ReadCommitted

variable {Key Row Label Program : Type} [DecidableEq Key]

/-! ## Serial executions -/

namespace Statement

/-- The rows that a statement writes with nothing beside it. -/
def writes (statement : Statement Key Row Label) (rows : Table Key Row) : List Key :=
  match statement.scan with
  | .every => candidates statement rows
  | .first _ => (candidates statement rows).take 1

/-- The rows after the statement. -/
def perform (statement : Statement Key Row Label) (rows : Table Key Row) : Table Key Row :=
  rows.mapValues fun key row => if key ∈ statement.writes rows then statement.set row else row

end Statement

omit [DecidableEq Key] in
theorem mem_candidates_of_writes {statement : Statement Key Row Label} {rows : Table Key Row}
    {key : Key} (h : key ∈ statement.writes rows) : key ∈ candidates statement rows := by
  unfold Statement.writes at h
  split at h
  · exact h
  · exact List.mem_of_mem_take h

/-- The counts and the rows that the statements of a program lead to. -/
inductive Performs (script : Script Key Row Label Program) (program : Program)
    (rows : Table Key Row) : List ℕ → Table Key Row → Prop
  | start : Performs script program rows [] rows
  | execute {counts : List ℕ} {current : Table Key Row} (statement : Statement Key Row Label) :
      Performs script program rows counts current →
      script program counts = .execute statement →
      Performs script program rows (counts ++ [(statement.writes current).length])
        (statement.perform current)

/-- No statement adds or removes a row. -/
theorem Performs.keys {script : Script Key Row Label Program} {program : Program}
    {rows current : Table Key Row} {counts : List ℕ}
    (h : Performs script program rows counts current) : current.keys = rows.keys := by
  induction h with
  | start => rfl
  | execute statement _ _ ih =>
      rw [Statement.perform, Table.keys_mapValues]
      exact ih

/-- What every statement of the program keeps of a row is kept by an execution. -/
theorem Performs.keeps {script : Script Key Row Label Program} {program : Program}
    {rows current : Table Key Row} {counts : List ℕ}
    (h : Performs script program rows counts current) {P : Key → Row → Prop}
    (hkept : ∀ counts statement snapshot key row, script program counts = .execute statement →
      statement.applies snapshot key row = true → P key row → P key (statement.set row))
    (hrows : ∀ key row, rows.get? key = some row → P key row) :
    ∀ key row, current.get? key = some row → P key row := by
  induction h with
  | start => exact hrows
  | @execute counts current statement _ hscript ih =>
      intro key row hrow
      rw [Statement.perform, Table.get?_mapValues, Option.map_eq_some_iff] at hrow
      obtain ⟨old, hold, rfl⟩ := hrow
      split
      next hwritten =>
        obtain ⟨old', hold', happlies⟩ := mem_candidates.mp (mem_candidates_of_writes hwritten)
        cases hold.symm.trans hold'
        exact hkept counts statement current key old hscript happlies (ih key old hold)
      · exact ih key old hold

/-- The program ends with a commit. -/
def Commits (script : Script Key Row Label Program) (program : Program)
    (rows after : Table Key Row) : Prop :=
  ∃ counts, Performs script program rows counts after ∧ script program counts = .commit

/-- The rows after programs that commit one after the other. -/
inductive Serial (script : Script Key Row Label Program) (rows : Table Key Row) :
    List Program → Table Key Row → Prop
  | nil : Serial script rows [] rows
  | snoc {programs : List Program} {current after : Table Key Row} (program : Program) :
      Serial script rows programs current → Commits script program current after →
      Serial script rows (programs ++ [program]) after

/-- The counts so far determine a program. -/
theorem Performs.unique {script : Script Key Row Label Program} {program : Program}
    {rows first second : Table Key Row} {counts counts' : List ℕ}
    (h : Performs script program rows counts first)
    (h' : Performs script program rows counts' second) (hlength : counts.length = counts'.length) :
    counts = counts' ∧ first = second := by
  induction h generalizing counts' second with
  | start =>
      cases h' with
      | start => exact ⟨rfl, rfl⟩
      | execute => simp at hlength
  | execute statement hbefore hscript ih =>
      cases h' with
      | start => simp at hlength
      | execute statement' hbefore' hscript' =>
          obtain ⟨rfl, rfl⟩ := ih hbefore' (by simpa using hlength)
          cases hscript.symm.trans hscript'
          exact ⟨rfl, rfl⟩

/-- Before the last statement of an execution there is another statement to execute. -/
theorem Performs.continues {script : Script Key Row Label Program} {program : Program}
    {rows first second : Table Key Row} {counts counts' : List ℕ}
    (h : Performs script program rows counts first)
    (h' : Performs script program rows counts' second) (hless : counts.length < counts'.length) :
    ∃ statement, script program counts = .execute statement := by
  induction h' with
  | start => cases hless
  | execute statement hbefore hscript ih =>
      rw [List.length_append, List.length_singleton] at hless
      rcases Nat.lt_succ_iff_lt_or_eq.mp hless with hearlier | hlast
      · exact ih hearlier
      · obtain ⟨rfl, -⟩ := h.unique hbefore hlast
        exact ⟨statement, hscript⟩

/-- An execution that has come to a commit is the only one. -/
theorem Performs.commits_iff {script : Script Key Row Label Program} {program : Program}
    {rows current after : Table Key Row} {counts : List ℕ}
    (h : Performs script program rows counts current) (hcommit : script program counts = .commit) :
    Commits script program rows after ↔ after = current := by
  refine ⟨fun ⟨counts', h', hcommit'⟩ => ?_, fun hafter => ⟨counts, hafter ▸ h, hcommit⟩⟩
  rcases Nat.lt_trichotomy counts.length counts'.length with hless | hsame | hless
  · obtain ⟨statement, hscript⟩ := h.continues h' hless
    cases hcommit.symm.trans hscript
  · exact (h'.unique h hsame.symm).2
  · obtain ⟨statement, hscript⟩ := h'.continues h hless
    cases hcommit'.symm.trans hscript

/-- A program that rolls back does not commit. -/
theorem Performs.not_commits {script : Script Key Row Label Program} {program : Program}
    {rows current after : Table Key Row} {counts : List ℕ}
    (h : Performs script program rows counts current)
    (hrollback : script program counts = .rollback) : ¬Commits script program rows after := by
  rintro ⟨counts', h', hcommit'⟩
  rcases Nat.lt_trichotomy counts.length counts'.length with hless | hsame | hless
  · obtain ⟨statement, hscript⟩ := h.continues h' hless
    cases hrollback.symm.trans hscript
  · obtain ⟨rfl, -⟩ := h.unique h' hsame
    cases hrollback.symm.trans hcommit'
  · obtain ⟨statement, hscript⟩ := h'.continues h hless
    cases hcommit'.symm.trans hscript

/-! ## A statement on its way -/

namespace Running

/-- The candidates that a statement with nothing beside it has still to write. -/
def remaining (running : Running Key Row Label) : List Key :=
  match running.statement.scan with
  | .every => running.todo
  | .first _ => running.todo.take 1

omit [DecidableEq Key] in
theorem remaining_start (statement : Statement Key Row Label) (rows : Table Key Row) :
    (start statement rows).remaining = statement.writes rows := rfl

omit [DecidableEq Key] in
theorem remaining_of_every {running : Running Key Row Label}
    (hscan : running.statement.scan = .every) : running.remaining = running.todo := by
  unfold remaining
  rw [hscan]

omit [DecidableEq Key] in
theorem remaining_of_first {running : Running Key Row Label} {le : Key × Row → Key × Row → Bool}
    (hscan : running.statement.scan = .first le) : running.remaining = running.todo.take 1 := by
  unfold remaining
  rw [hscan]

omit [DecidableEq Key] in
theorem remaining_eq_nil_iff {running : Running Key Row Label} :
    running.remaining = [] ↔ running.todo = [] := by
  cases hscan : running.statement.scan with
  | every => rw [remaining_of_every hscan]
  | first le => simp [remaining_of_first hscan]

theorem reaches_iff {running : Running Key Row Label} {key : Key} :
    running.reaches key = true ↔ key ∈ running.remaining := by
  unfold reaches
  cases hscan : running.statement.scan with
  | every => simp [remaining_of_every hscan]
  | first le =>
      rw [remaining_of_first hscan]
      cases running.todo with
      | nil => simp
      | cons first rest => simp [eq_comm]

theorem remaining_take {running : Running Key Row Label} {key : Key}
    (hreaches : key ∈ running.remaining) :
    (running.take key).remaining = running.remaining.erase key := by
  have hsame : (running.take key).statement = running.statement := rfl
  cases hscan : running.statement.scan with
  | every =>
      rw [remaining_of_every hscan, remaining_of_every (hsame ▸ hscan)]
      simp [take, hscan]
  | first le =>
      rw [remaining_of_first hscan] at hreaches ⊢
      rw [remaining_of_first (hsame ▸ hscan)]
      -- the candidate that is reached is the only one that remains
      cases htodo : running.todo with
      | nil => simp [htodo] at hreaches
      | cons first rest =>
          obtain rfl : key = first := by simpa [htodo] using hreaches
          simp [take, hscan]

end Running

omit [DecidableEq Key] in
theorem nodup_candidates (statement : Statement Key Row Label) (rows : Table Key Row) :
    (candidates statement rows).Nodup := by
  have hhits : ((rows.entries.filter fun entry =>
      statement.applies rows entry.1 entry.2).map Prod.fst).Nodup :=
    (List.filter_sublist.map Prod.fst).nodup rows.nodupKeys
  unfold candidates
  dsimp only
  split
  · exact hhits
  · exact ((List.perm_insertionSort _ _).map Prod.fst).nodup_iff.mpr hhits

omit [DecidableEq Key] in
theorem nodup_writes (statement : Statement Key Row Label) (rows : Table Key Row) :
    (statement.writes rows).Nodup := by
  unfold Statement.writes
  split
  · exact nodup_candidates statement rows
  · exact (List.take_sublist _ _).nodup (nodup_candidates statement rows)

omit [DecidableEq Key] in
theorem writes_of_every {statement : Statement Key Row Label} (hscan : statement.scan = .every)
    (rows : Table Key Row) : statement.writes rows = candidates statement rows := by
  unfold Statement.writes
  rw [hscan]

omit [DecidableEq Key] in
theorem writes_of_first {statement : Statement Key Row Label}
    {le : Key × Row → Key × Row → Bool} (hscan : statement.scan = .first le)
    (rows : Table Key Row) : statement.writes rows = (candidates statement rows).take 1 := by
  unfold Statement.writes
  rw [hscan]

/-- The rows of which a part has been written. -/
def writtenRows (statement : Statement Key Row Label) (current : Table Key Row)
    (done : List Key) : Table Key Row :=
  current.mapValues fun key row => if key ∈ done then statement.set row else row

@[simp] theorem writtenRows_nil (statement : Statement Key Row Label) (current : Table Key Row) :
    writtenRows statement current [] = current := by
  simp [writtenRows]

theorem writtenRows_eq_perform {statement : Statement Key Row Label} {current : Table Key Row}
    {done : List Key} (hdone : done.Perm (statement.writes current)) :
    writtenRows statement current done = statement.perform current := by
  refine Table.mapValues_congr fun key row _ => ?_
  simp only [hdone.mem_iff]

theorem get?_writtenRows_of_not_mem {statement : Statement Key Row Label}
    {current : Table Key Row} {done : List Key} {key : Key} (hfresh : key ∉ done) :
    (writtenRows statement current done).get? key = current.get? key := by
  rw [writtenRows, Table.get?_mapValues]
  simp [hfresh]

/-- Writing one more row. -/
theorem writtenRows_insert {statement : Statement Key Row Label} {current : Table Key Row}
    {done : List Key} {key : Key} {row : Row} (hrow : current.get? key = some row)
    (hfresh : key ∉ done) :
    (writtenRows statement current done).insert key (statement.set row) =
      writtenRows statement current (done ++ [key]) := by
  have hmem : key ∈ (writtenRows statement current done).keys := by
    rw [writtenRows, Table.keys_mapValues]
    exact Table.mem_keys.mpr ⟨row, hrow⟩
  rw [Table.insert_of_mem _ _ hmem, Table.modify, writtenRows, Table.mapValues_mapValues]
  refine Table.mapValues_congr fun other value hvalue => ?_
  by_cases hother : other = key
  · subst hother
    cases hrow.symm.trans hvalue
    simp
  · simp [hother]

/-! ## One transaction -/

/-- A transaction with nothing beside it has brought its rows this far. -/
structure Session.Solo (script : Script Key Row Label Program) (committed : Table Key Row)
    (session : Session Key Row Label Program) (current : Table Key Row) : Prop where
  performs : Performs script session.program committed session.counts current
  idle : session.running = none → install committed session.changes = current
  running : ∀ running, session.running = some running →
    script session.program session.counts = .execute running.statement ∧
      running.snapshot = current ∧
      ∃ done, (done ++ running.remaining).Perm (running.statement.writes current) ∧
        running.count = done.length ∧
        install committed session.changes = writtenRows running.statement current done

section

variable {script : Script Key Row Label Program} {committed current : Table Key Row}
  {session : Session Key Row Label Program}

theorem Session.Solo.fresh (committed : Table Key Row) (program : Program) :
    (⟨program, [], none, []⟩ : Session Key Row Label Program).Solo script committed committed where
  performs := .start
  idle _ := rfl
  running _ hrunning := by cases hrunning

theorem Session.Solo.execute (h : session.Solo script committed current)
    (hidle : session.running = none) {statement : Statement Key Row Label}
    (hscript : script session.program session.counts = .execute statement) :
    { session with
      running := some (.start statement (install committed session.changes)) }.Solo script
        committed current where
  performs := h.performs
  idle hnone := by cases hnone
  running running hrunning := by
    cases hrunning
    have hview := h.idle hidle
    refine ⟨hscript, hview, [], ?_, rfl, ?_⟩
    · rw [Running.remaining_start, hview]
      exact .refl _
    · rw [writtenRows_nil]
      exact hview

/-- A candidate that remains has the row on which the statement was found to apply. -/
theorem Session.Solo.applies (h : session.Solo script committed current)
    {running : Running Key Row Label} (hrunning : session.running = some running) {key : Key}
    (hreaches : key ∈ running.remaining) :
    ∃ row, (install committed session.changes).get? key = some row ∧
      current.get? key = some row ∧
      running.statement.applies running.snapshot key row = true := by
  obtain ⟨-, hsnapshot, done, hperm, -, hview⟩ := h.running running hrunning
  have hnodup : (done ++ running.remaining).Nodup :=
    hperm.nodup_iff.mpr (nodup_writes running.statement current)
  have hfresh : key ∉ done := fun hdone => (List.nodup_append.mp hnodup).2.2 _ hdone _ hreaches rfl
  have hcandidate := mem_candidates_of_writes
    (hperm.mem_iff.mp (List.mem_append_right done hreaches))
  obtain ⟨row, hrow, happlies⟩ := mem_candidates.mp hcandidate
  refine ⟨row, ?_, hrow, ?_⟩
  · rw [hview, get?_writtenRows_of_not_mem hfresh, hrow]
  · rw [hsnapshot]
    exact happlies

theorem Session.Solo.write (h : session.Solo script committed current)
    {running : Running Key Row Label} (hrunning : session.running = some running) {key : Key}
    (hreaches : key ∈ running.remaining) {row : Row}
    (hrow : (install committed session.changes).get? key = some row) :
    (session.write running key row).Solo script committed current where
  performs := h.performs
  idle hnone := by cases hnone
  running running' hrunning' := by
    cases hrunning'
    obtain ⟨row', hrow', hcurrent, -⟩ := h.applies hrunning hreaches
    cases hrow.symm.trans hrow'
    obtain ⟨hscript, hsnapshot, done, hperm, hcount, hview⟩ := h.running running hrunning
    have hnodup : (done ++ running.remaining).Nodup :=
      hperm.nodup_iff.mpr (nodup_writes running.statement current)
    have hfresh : key ∉ done :=
      fun hdone => (List.nodup_append.mp hnodup).2.2 _ hdone _ hreaches rfl
    refine ⟨hscript, hsnapshot, done ++ [key], ?_, ?_, ?_⟩
    · rw [Running.remaining_take hreaches, List.append_assoc]
      exact ((List.perm_cons_erase hreaches).symm.append_left done).trans hperm
    · rw [List.length_append, ← hcount]
      rfl
    · rw [Session.write, install_append, hview]
      exact writtenRows_insert hcurrent hfresh

theorem Session.Solo.finish (h : session.Solo script committed current)
    {running : Running Key Row Label} (hrunning : session.running = some running)
    (hdone : running.todo = []) :
    { session with running := none, counts := session.counts ++ [running.count] }.Solo script
      committed (running.statement.perform current) where
  performs := by
    obtain ⟨hscript, -, done, hperm, hcount, -⟩ := h.running running hrunning
    rw [Running.remaining_eq_nil_iff.mpr hdone, List.append_nil] at hperm
    rw [hcount, hperm.length_eq]
    exact h.performs.execute running.statement hscript
  idle _ := by
    obtain ⟨-, -, done, hperm, -, hview⟩ := h.running running hrunning
    rw [Running.remaining_eq_nil_iff.mpr hdone, List.append_nil] at hperm
    exact hview.trans (writtenRows_eq_perform hperm)
  running _ hnone := by cases hnone

end

/-! ## Schedules without overlap -/

/-- No transaction starts while another one is open. -/
def oneAtATime (system : System Key Row Label Program) : Action Key Program → Prop
  | .start _ _ => system.sessions.entries = []
  | _ => True

/-- The committed rows are those of a serial execution, and at most one transaction is open. -/
structure Isolated (script : Script Key Row Label Program) (rows : Table Key Row)
    (system : System Key Row Label Program) : Prop where
  serial : Serial script rows (system.history.map Commit.program) system.committed
  solo : system.sessions.entries = [] ∨ ∃ id session current,
    system.sessions.entries = [(id, session)] ∧ session.Solo script system.committed current

section

variable {script : Script Key Row Label Program} {rows : Table Key Row}
  {system next : System Key Row Label Program} {id : ℕ}
  {session : Session Key Row Label Program}

omit [DecidableEq Key] in
theorem eq_of_entries_singleton {other : ℕ} {found : Session Key Row Label Program}
    (hopen : system.sessions.entries = [(id, session)])
    (hfound : system.sessions.get? other = some found) : other = id ∧ found = session := by
  rw [← Table.mem_entries, hopen, List.mem_singleton] at hfound
  exact ⟨congrArg Prod.fst hfound, congrArg Prod.snd hfound⟩

omit [DecidableEq Key] in
theorem get?_of_entries_singleton (hopen : system.sessions.entries = [(id, session)]) :
    system.sessions.get? id = some session := by
  rw [← Table.mem_entries, hopen]
  exact List.mem_singleton_self _

theorem locked_of_entries_singleton (hopen : system.sessions.entries = [(id, session)])
    (key : Key) : system.locked id key = false := by
  simp [System.locked, hopen]

omit [DecidableEq Key] in
theorem entries_put_of_nil (hfree : system.sessions.entries = []) (id : ℕ)
    (session : Session Key Row Label Program) :
    (system.put id session).sessions.entries = [(id, session)] := by
  have hnone : system.sessions.get? id = none := by
    refine Table.get?_eq_none_iff.mpr ?_
    simp [Table.keys, hfree]
  rw [System.put, Table.entries_insert_of_get?_eq_none _ _ hnone, hfree]
  rfl

omit [DecidableEq Key] in
theorem entries_put_of_singleton (hopen : system.sessions.entries = [(id, session)])
    (other : Session Key Row Label Program) :
    (system.put id other).sessions.entries = [(id, other)] := by
  have hmem : id ∈ system.sessions.keys := by simp [Table.keys, hopen]
  rw [System.put, Table.insert_of_mem _ _ hmem]
  simp [Table.modify, Table.mapValues, hopen]

omit [DecidableEq Key] in
theorem entries_erase_of_singleton (hopen : system.sessions.entries = [(id, session)]) :
    (system.sessions.erase id).entries = [] := by
  simp [Table.erase, hopen]

/-- The open transaction goes on. -/
theorem Isolated.put (h : Isolated script rows system)
    (hopen : system.sessions.entries = [(id, session)])
    {other : Session Key Row Label Program} {current : Table Key Row}
    (hsolo : other.Solo script system.committed current) :
    Isolated script rows (system.put id other) where
  serial := h.serial
  solo := .inr ⟨id, other, current, entries_put_of_singleton hopen other, hsolo⟩

/-- The open transaction, if an action belongs to one. -/
theorem Isolated.solo_of_get? (h : Isolated script rows system)
    (hsession : system.sessions.get? id = some session) :
    system.sessions.entries = [(id, session)] ∧
      ∃ current, session.Solo script system.committed current := by
  rcases h.solo with hfree | ⟨other, found, current, hopen, hsolo⟩
  · rw [← Table.mem_entries, hfree] at hsession
    cases hsession
  · obtain ⟨rfl, rfl⟩ := eq_of_entries_singleton hopen hsession
    exact ⟨hopen, current, hsolo⟩

theorem Isolated.step (h : Isolated script rows system) {action : Action Key Program}
    (hallowed : oneAtATime system action) (hstep : system.step script action = some next) :
    Isolated script rows next := by
  have hsteps := System.step_cases hstep
  cases action with
  | start id program =>
      obtain ⟨-, rfl⟩ := hsteps
      exact ⟨h.serial, .inr ⟨id, _, _, entries_put_of_nil hallowed id _, .fresh _ program⟩⟩
  | execute id =>
      obtain ⟨session, statement, hsession, hidle, hscript, rfl⟩ := hsteps
      obtain ⟨hopen, current, hsolo⟩ := h.solo_of_get? hsession
      exact h.put hopen (hsolo.execute hidle hscript)
  | visit id key =>
      obtain ⟨session, running, hsession, hrunning, hreaches, hcases⟩ := hsteps
      obtain ⟨hopen, current, hsolo⟩ := h.solo_of_get? hsession
      have hremains := Running.reaches_iff.mp hreaches
      obtain ⟨row, hrow, -, happlies⟩ := hsolo.applies hrunning hremains
      rcases hcases with ⟨-, hskipped | hskipped⟩ | ⟨row', -, hrow', -, rfl⟩
      · cases (locked_of_entries_singleton hopen key).symm.trans hskipped.1
      · cases happlies.symm.trans (hskipped.2 row hrow)
      · exact h.put hopen (hsolo.write hrunning hremains hrow')
  | finish id =>
      obtain ⟨session, running, hsession, hrunning, hdone, rfl⟩ := hsteps
      obtain ⟨hopen, current, hsolo⟩ := h.solo_of_get? hsession
      exact h.put hopen (hsolo.finish hrunning hdone)
  | commit id =>
      obtain ⟨session, hsession, hidle, hscript, rfl⟩ := hsteps
      obtain ⟨hopen, current, hsolo⟩ := h.solo_of_get? hsession
      have hcommits : Commits script session.program system.committed (system.view session) := by
        rw [System.view, hsolo.idle hidle]
        exact ⟨session.counts, hsolo.performs, hscript⟩
      refine ⟨?_, .inl (entries_erase_of_singleton hopen)⟩
      rw [List.map_append]
      exact h.serial.snoc session.program hcommits
  | abort id =>
      obtain ⟨session, hsession, rfl⟩ := hsteps
      obtain ⟨hopen, -⟩ := h.solo_of_get? hsession
      exact ⟨h.serial, .inl (entries_erase_of_singleton hopen)⟩

theorem Reachable.isolated (h : Reachable script oneAtATime rows system) :
    Isolated script rows system := by
  induction h with
  | new => exact ⟨.nil, .inl rfl⟩
  | step action _ hallowed hstep ih => exact ih.step hallowed hstep

/-! ## Every serial execution is a schedule -/

/-- A statement under execution can be brought to its end. -/
theorem Reachable.exists_finish (h : Reachable script oneAtATime rows system)
    {running : Running Key Row Label} (hopen : system.sessions.entries = [(id, session)])
    (hrunning : session.running = some running) :
    ∃ next changes count, Reachable script oneAtATime rows next ∧
      next.committed = system.committed ∧ next.history = system.history ∧
      next.sessions.entries =
        [(id, ⟨session.program, session.counts ++ [count], none, changes⟩)] := by
  have hsession := get?_of_entries_singleton hopen
  induction hremaining : running.remaining.length generalizing system session running with
  | zero =>
      have hdone := Running.remaining_eq_nil_iff.mp (List.length_eq_zero_iff.mp hremaining)
      have hstep : system.step script (.finish id) = some (system.put id
          { session with running := none, counts := session.counts ++ [running.count] }) := by
        simp [System.step, hsession, hrunning, hdone]
      exact ⟨_, _, _, h.step (.finish id) trivial hstep, rfl, rfl,
        entries_put_of_singleton hopen _⟩
  | succ n ih =>
      obtain ⟨key, rest, hcons⟩ := List.exists_cons_of_length_eq_add_one hremaining
      have hmem : key ∈ running.remaining := by simp [hcons]
      obtain ⟨-, current, hsolo⟩ := h.isolated.solo_of_get? hsession
      obtain ⟨row, hrow, -, happlies⟩ := hsolo.applies hrunning hmem
      have hstep : system.step script (.visit id key) =
          some (system.put id (session.write running key row)) := by
        have hview : (system.view session).get? key = some row := hrow
        simp [System.step, System.visit, hsession, hrunning, Running.reaches_iff.mpr hmem,
          locked_of_entries_singleton hopen, hview, happlies]
      have hopen' := entries_put_of_singleton hopen (session.write running key row)
      have hless : (running.take key).remaining.length = n := by
        rw [Running.remaining_take hmem, hcons, List.erase_cons_head]
        simpa [hcons] using hremaining
      have hwritten := h.step (.visit id key) trivial hstep
      obtain ⟨next, hnext⟩ := ih hwritten hopen' rfl (get?_of_entries_singleton hopen') hless
      exact ⟨next, hnext⟩

/-- A program can be brought to any point of its execution. -/
theorem Reachable.exists_performs (h : Reachable script oneAtATime rows system)
    (hfree : system.sessions.entries = []) {program : Program} {counts : List ℕ}
    {current : Table Key Row}
    (hperforms : Performs script program system.committed counts current) :
    ∃ next changes, Reachable script oneAtATime rows next ∧
      next.committed = system.committed ∧ next.history = system.history ∧
      next.sessions.entries = [(0, ⟨program, counts, none, changes⟩)] := by
  induction hperforms with
  | start =>
      have hnone : system.sessions.get? 0 = none := by
        refine Table.get?_eq_none_iff.mpr ?_
        simp [Table.keys, hfree]
      have hstep : system.step script (.start 0 program) =
          some (system.put 0 ⟨program, [], none, []⟩) := by
        simp [System.step, hnone]
      exact ⟨_, [], h.step (.start 0 program) hfree hstep, rfl, rfl, entries_put_of_nil hfree 0 _⟩
  | @execute counts current statement hbefore hscript ih =>
      obtain ⟨middle, changes, hmiddle, hcommitted, hhistory, hopen⟩ := ih
      have hsession := get?_of_entries_singleton hopen
      have hstep : middle.step script (.execute 0) = some (middle.put 0
          ⟨program, counts, some (.start statement (install middle.committed changes)),
            changes⟩) := by
        simp [System.step, hsession, hscript, System.view]
      obtain ⟨next, changes', count, hnext, hcommitted', hhistory', hopen'⟩ :=
        (hmiddle.step (.execute 0) trivial hstep).exists_finish
          (entries_put_of_singleton hopen _) rfl
      -- the counts are those of the serial execution, since there is only one
      obtain ⟨-, current', hsolo⟩ :=
        hnext.isolated.solo_of_get? (get?_of_entries_singleton hopen')
      have hperforms := hsolo.performs
      rw [hcommitted'] at hperforms
      obtain ⟨hcounts, -⟩ := Performs.unique (hcommitted ▸ hperforms)
        (hbefore.execute statement hscript) (by simp)
      refine ⟨next, changes', hnext, hcommitted'.trans hcommitted, hhistory'.trans hhistory, ?_⟩
      rw [hopen']
      exact congrArg (fun counts => [((0 : ℕ), Session.mk program counts none changes')]) hcounts

theorem Serial.exists_schedule {programs : List Program} {after : Table Key Row}
    (h : Serial script rows programs after) :
    ∃ system, Reachable script oneAtATime rows system ∧ system.sessions.entries = [] ∧
      system.history.map Commit.program = programs ∧ system.committed = after := by
  induction h with
  | nil => exact ⟨.new rows, .new, rfl, rfl, rfl⟩
  | snoc program _ hcommits ih =>
      obtain ⟨system, hrun, hfree, rfl, rfl⟩ := ih
      obtain ⟨counts, hperforms, hcommit⟩ := hcommits
      obtain ⟨next, changes, hnext, hcommitted, hhistory, hopen⟩ :=
        hrun.exists_performs hfree hperforms
      have hsession := get?_of_entries_singleton hopen
      obtain ⟨-, current, hsolo⟩ := hnext.isolated.solo_of_get? hsession
      have hstep : next.step script (.commit 0) = some
          { committed := install next.committed changes
            sessions := next.sessions.erase 0
            history := next.history ++ [⟨program, counts, changes⟩] } := by
        simp [System.step, hsession, hcommit, System.view]
      refine ⟨_, hnext.step (.commit 0) trivial hstep, entries_erase_of_singleton hopen, ?_, ?_⟩
      · simp [hhistory]
      · have hcurrent := hsolo.performs
        rw [hcommitted] at hcurrent
        exact (hsolo.idle rfl).trans (hcurrent.unique hperforms rfl).2

/-- The schedules without overlap are the serial executions. -/
theorem isolated_iff_serial {programs : List Program} {after : Table Key Row} :
    (∃ system, Reachable script oneAtATime rows system ∧ system.sessions.entries = [] ∧
      system.history.map Commit.program = programs ∧ system.committed = after) ↔
    Serial script rows programs after := by
  constructor
  · rintro ⟨system, hrun, -, rfl, rfl⟩
    exact hrun.isolated.serial
  · exact Serial.exists_schedule

/-! ## Going on from where others have stopped -/

/-- The system with commits before its own. -/
def System.withHistory (system : System Key Row Label Program)
    (earlier : List (Commit Key Row Label Program)) : System Key Row Label Program :=
  { system with history := earlier ++ system.history }

section

variable (earlier : List (Commit Key Row Label Program))

omit [DecidableEq Key] in
@[simp] theorem System.sessions_withHistory (system : System Key Row Label Program) :
    (system.withHistory earlier).sessions = system.sessions := rfl

@[simp] theorem System.view_withHistory (system : System Key Row Label Program)
    (session : Session Key Row Label Program) :
    (system.withHistory earlier).view session = system.view session := rfl

@[simp] theorem System.locked_withHistory (system : System Key Row Label Program) (id : ℕ)
    (key : Key) : (system.withHistory earlier).locked id key = system.locked id key := rfl

omit [DecidableEq Key] in
@[simp] theorem System.put_withHistory (system : System Key Row Label Program) (id : ℕ)
    (session : Session Key Row Label Program) :
    (system.withHistory earlier).put id session = (system.put id session).withHistory earlier :=
  rfl

/-- No step depends on the history. -/
theorem System.step_withHistory (action : Action Key Program)
    (hstep : system.step script action = some next) :
    (system.withHistory earlier).step script action = some (next.withHistory earlier) := by
  have hsteps := System.step_cases hstep
  cases action with
  | start id program =>
      obtain ⟨hfree, rfl⟩ := hsteps
      simp [System.step, hfree]
  | execute id =>
      obtain ⟨session, statement, hsession, hidle, hscript, rfl⟩ := hsteps
      simp [System.step, hsession, hidle, hscript]
  | visit id key =>
      obtain ⟨session, running, hsession, hrunning, -, -⟩ := hsteps
      have hvisit : system.visit id key session running = some next := by
        simpa [System.step, hsession, hrunning] using hstep
      have hvisit' : (system.withHistory earlier).visit id key session running =
          some (next.withHistory earlier) := by
        obtain ⟨hreaches, ⟨rfl, ⟨hlocked, hskips⟩ | ⟨hfree, hfails⟩⟩ |
          ⟨row, hfree, hrow, happlies, rfl⟩⟩ := System.visit_cases hvisit
        · simp [System.visit, hreaches, hlocked, hskips]
        · cases hrow : (system.view session).get? key with
          | none => simp [System.visit, hreaches, hfree, hrow]
          | some row => simp [System.visit, hreaches, hfree, hrow, hfails row hrow]
        · simp [System.visit, hreaches, hfree, hrow, happlies]
      simp [System.step, hsession, hrunning, hvisit']
  | finish id =>
      obtain ⟨session, running, hsession, hrunning, hdone, rfl⟩ := hsteps
      simp [System.step, hsession, hrunning, hdone]
  | commit id =>
      obtain ⟨session, hsession, hidle, hscript, rfl⟩ := hsteps
      simp [System.step, System.withHistory, System.view, hsession, hidle, hscript]
  | abort id =>
      obtain ⟨session, hsession, rfl⟩ := hsteps
      simp [System.step, System.withHistory, hsession]

end

/-- A schedule on the committed rows continues a schedule that has ended. -/
theorem Reachable.resume {allowed : System Key Row Label Program → Action Key Program → Prop}
    (h : Reachable script anyAction rows system) (hfree : system.sessions.entries = [])
    {later : System Key Row Label Program}
    (hlater : Reachable script allowed system.committed later) :
    Reachable script anyAction rows (later.withHistory system.history) := by
  induction hlater with
  | new =>
      have hsame : (System.new system.committed).withHistory system.history = system := by
        have hsessions : (Table.empty : Table ℕ (Session Key Row Label Program)) =
            system.sessions := Table.eq_of_entries_eq hfree.symm
        simp [System.withHistory, System.new, hsessions]
      rw [hsame]
      exact h
  | step action _ _ hstep ih =>
      exact ih.step action trivial (System.step_withHistory _ action hstep)

/-- Once no transaction is open, programs may go on serially. -/
theorem Reachable.exists_serial (h : Reachable script anyAction rows system)
    (hfree : system.sessions.entries = []) {programs : List Program} {after : Table Key Row}
    (hserial : Serial script system.committed programs after) :
    ∃ next, Reachable script anyAction rows next ∧ next.sessions.entries = [] ∧
      next.committed = after := by
  obtain ⟨later, hlater, hfree', -, hafter⟩ := hserial.exists_schedule
  exact ⟨_, h.resume hfree hlater, hfree', hafter⟩

end

end ReadCommitted
