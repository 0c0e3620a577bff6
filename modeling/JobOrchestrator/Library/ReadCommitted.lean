import JobOrchestrator.Library.Table

/-!
# Transactions under read committed isolation

A database is a table of rows, and a transaction runs a program: a script that
says, from the counts of rows that its earlier statements have changed, which
statement to execute next, or whether to commit.  Any number of transactions are
interleaved at the level of single rows.

* A statement starts with a snapshot: the committed rows, under the rows that its
  own transaction has written.  The rows that satisfy its condition there are its
  candidates.
* A candidate that another open transaction has written is locked: an update waits
  for it, a statement that skips locked rows leaves it out.
* Otherwise the condition is checked once more, on the newest version of the row
  and with the snapshot of the statement for everything else it reads, and the row
  is written or left out.  The lock is held until the transaction ends.
* A commit publishes the written rows; an abort, which can happen at any time,
  leaves no trace.

`Sound` collects what holds in every reachable system: the committed rows are the
initial ones under the changes of the history, every change starts from the
version that the previous change of its row has left, and every change was made by
a statement of its transaction whose condition held.
-/

namespace ReadCommitted

variable {Key Row Label Program : Type} [DecidableEq Key]

/-! ## Statements and programs -/

/-- How a statement goes through its candidates: an update takes all of them, in
any order; a query with `FOR UPDATE SKIP LOCKED LIMIT 1` tries them in its own
order until it has locked one. -/
inductive Scan (Key Row : Type)
  | every
  | first (le : Key × Row → Key × Row → Bool)

/-- A statement; its label says which one it is in the change it makes. -/
structure Statement (Key Row Label : Type) where
  label : Label
  applies : Table Key Row → Key → Row → Bool
  set : Row → Row
  scan : Scan Key Row

/-- What a program does next. -/
inductive Command (Key Row Label : Type)
  | execute (statement : Statement Key Row Label)
  | commit
  | rollback

/-- The next command of a program, from the counts of its finished statements. -/
abbrev Script (Key Row Label Program : Type) := Program → List ℕ → Command Key Row Label

/-! ## The system -/

/-- A written row: by which statement of the transaction, and from which version. -/
structure Change (Key Row Label : Type) where
  index : ℕ
  label : Label
  key : Key
  old : Row
  new : Row

/-- A statement under execution. -/
structure Running (Key Row Label : Type) where
  statement : Statement Key Row Label
  snapshot : Table Key Row
  todo : List Key
  count : ℕ

/-- An open transaction, with its changes in the order in which it has made them. -/
structure Session (Key Row Label Program : Type) where
  program : Program
  counts : List ℕ
  running : Option (Running Key Row Label)
  changes : List (Change Key Row Label)

/-- A committed transaction. -/
structure Commit (Key Row Label Program : Type) where
  program : Program
  counts : List ℕ
  changes : List (Change Key Row Label)

/-- The committed rows, the open transactions, and the committed ones in order. -/
structure System (Key Row Label Program : Type) where
  committed : Table Key Row
  sessions : Table ℕ (Session Key Row Label Program)
  history : List (Commit Key Row Label Program)

/-- The rows under changes. -/
def install (rows : Table Key Row) (changes : List (Change Key Row Label)) : Table Key Row :=
  changes.foldl (fun rows change => rows.insert change.key change.new) rows

/-- The keys of the rows that satisfy a statement, in the order of its scan. -/
def candidates (statement : Statement Key Row Label) (rows : Table Key Row) : List Key :=
  let hits := rows.entries.filter fun entry => statement.applies rows entry.1 entry.2
  match statement.scan with
  | .every => hits.map Prod.fst
  | .first le => (hits.insertionSort fun first second => le first second).map Prod.fst

namespace Running

def start (statement : Statement Key Row Label) (rows : Table Key Row) : Running Key Row Label :=
  ⟨statement, rows, candidates statement rows, 0⟩

/-- The candidate may be visited next. -/
def reaches (running : Running Key Row Label) (key : Key) : Bool :=
  match running.statement.scan with
  | .every => running.todo.contains key
  | .first _ => running.todo.head? = some key

def skipsLocked (running : Running Key Row Label) : Bool :=
  match running.statement.scan with
  | .every => false
  | .first _ => true

/-- The candidate is left out. -/
def skip (running : Running Key Row Label) (key : Key) : Running Key Row Label :=
  { running with todo := running.todo.erase key }

/-- The candidate is written; `LIMIT 1` ends the scan. -/
def take (running : Running Key Row Label) (key : Key) : Running Key Row Label :=
  { running with
    todo := match running.statement.scan with
      | .every => running.todo.erase key
      | .first _ => []
    count := running.count + 1 }

end Running

namespace Session

/-- The transaction leaves a candidate out. -/
def skip (session : Session Key Row Label Program) (running : Running Key Row Label) (key : Key) :
    Session Key Row Label Program :=
  { session with running := some (running.skip key) }

/-- The transaction writes a candidate. -/
def write (session : Session Key Row Label Program) (running : Running Key Row Label) (key : Key)
    (row : Row) : Session Key Row Label Program :=
  { session with
    running := some (running.take key)
    changes := session.changes ++
      [⟨session.counts.length, running.statement.label, key, row, running.statement.set row⟩] }

/-- The transaction has written the row. -/
def wrote (session : Session Key Row Label Program) (key : Key) : Bool :=
  session.changes.any fun change => change.key = key

end Session

namespace System

/-- The rows as a transaction sees them. -/
def view (system : System Key Row Label Program) (session : Session Key Row Label Program) :
    Table Key Row :=
  install system.committed session.changes

def put (system : System Key Row Label Program) (id : ℕ) (session : Session Key Row Label Program) :
    System Key Row Label Program :=
  { system with sessions := system.sessions.insert id session }

/-- Another open transaction has written the row. -/
def locked (system : System Key Row Label Program) (id : ℕ) (key : Key) : Bool :=
  system.sessions.entries.any fun entry => entry.1 != id && entry.2.wrote key

end System

/-! ## Steps -/

/-- What happens next, and in which transaction. -/
inductive Action (Key Program : Type)
  | start (id : ℕ) (program : Program)
  | execute (id : ℕ)
  | visit (id : ℕ) (key : Key)
  | finish (id : ℕ)
  | commit (id : ℕ)
  | abort (id : ℕ)

namespace System

/-- A transaction tries the next candidate; there is no such step while it waits for a lock. -/
def visit (system : System Key Row Label Program) (id : ℕ) (key : Key)
    (session : Session Key Row Label Program) (running : Running Key Row Label) :
    Option (System Key Row Label Program) :=
  if !running.reaches key then none
  else if system.locked id key then
    if running.skipsLocked then some (system.put id (session.skip running key)) else none
  else match (system.view session).get? key with
    | none => some (system.put id (session.skip running key))
    | some row =>
        if running.statement.applies running.snapshot key row
        then some (system.put id (session.write running key row))
        else some (system.put id (session.skip running key))

/-- The system after an action, if it is possible. -/
def step (script : Script Key Row Label Program) (system : System Key Row Label Program) :
    Action Key Program → Option (System Key Row Label Program)
  | .start id program =>
      match system.sessions.get? id with
      | some _ => none
      | none => some (system.put id ⟨program, [], none, []⟩)
  | .execute id =>
      match system.sessions.get? id with
      | none => none
      | some session =>
          match session.running, script session.program session.counts with
          | none, .execute statement => some (system.put id
              { session with running := some (.start statement (system.view session)) })
          | _, _ => none
  | .visit id key =>
      match system.sessions.get? id with
      | none => none
      | some session =>
          match session.running with
          | none => none
          | some running => system.visit id key session running
  | .finish id =>
      match system.sessions.get? id with
      | none => none
      | some session =>
          match session.running with
          | none => none
          | some running =>
              if running.todo.isEmpty then some (system.put id
                { session with running := none, counts := session.counts ++ [running.count] })
              else none
  | .commit id =>
      match system.sessions.get? id with
      | none => none
      | some session =>
          match session.running, script session.program session.counts with
          | none, .commit => some
              { committed := system.view session
                sessions := system.sessions.erase id
                history :=
                  system.history ++ [⟨session.program, session.counts, session.changes⟩] }
          | _, _ => none
  | .abort id =>
      match system.sessions.get? id with
      | none => none
      | some _ => some { system with sessions := system.sessions.erase id }

/-- A system before the first transaction. -/
def new (rows : Table Key Row) : System Key Row Label Program := ⟨rows, .empty, []⟩

/-- The system after a sequence of actions. -/
def run (script : Script Key Row Label Program) (system : System Key Row Label Program) :
    List (Action Key Program) → Option (System Key Row Label Program)
  | [] => some system
  | action :: rest => (system.step script action).bind fun next => next.run script rest

/-- The committed changes in the order of the commits. -/
def log (system : System Key Row Label Program) : List (Change Key Row Label) :=
  system.history.flatMap Commit.changes

end System

/-- The systems that allowed actions lead to. -/
inductive Reachable (script : Script Key Row Label Program)
    (allowed : System Key Row Label Program → Action Key Program → Prop) (rows : Table Key Row) :
    System Key Row Label Program → Prop
  | new : Reachable script allowed rows (.new rows)
  | step {system next : System Key Row Label Program} (action : Action Key Program) :
      Reachable script allowed rows system → allowed system action →
      system.step script action = some next → Reachable script allowed rows next

/-- Every action is allowed. -/
def anyAction : System Key Row Label Program → Action Key Program → Prop := fun _ _ => True

theorem Reachable.run {script : Script Key Row Label Program} {rows : Table Key Row}
    {system last : System Key Row Label Program} (h : Reachable script anyAction rows system)
    {actions : List (Action Key Program)} (hrun : system.run script actions = some last) :
    Reachable script anyAction rows last := by
  induction actions generalizing system with
  | nil =>
      cases hrun
      exact h
  | cons action rest ih =>
      obtain ⟨next, hstep, hrest⟩ := Option.bind_eq_some_iff.mp hrun
      exact ih (h.step action trivial hstep) hrest

/-- The system after a sequence of actions that pass a check before they happen. -/
def System.runChecked (script : Script Key Row Label Program)
    (check : System Key Row Label Program → Action Key Program → Bool)
    (system : System Key Row Label Program) :
    List (Action Key Program) → Option (System Key Row Label Program)
  | [] => some system
  | action :: rest =>
      if check system action
      then (system.step script action).bind fun next => next.runChecked script check rest
      else none

theorem Reachable.runChecked {script : Script Key Row Label Program} {rows : Table Key Row}
    {check : System Key Row Label Program → Action Key Program → Bool}
    {system last : System Key Row Label Program}
    (h : Reachable script (fun system action => check system action = true) rows system)
    {actions : List (Action Key Program)}
    (hrun : system.runChecked script check actions = some last) :
    Reachable script (fun system action => check system action = true) rows last := by
  induction actions generalizing system with
  | nil =>
      cases hrun
      exact h
  | cons action rest ih =>
      rw [System.runChecked] at hrun
      split at hrun
      next hcheck =>
        obtain ⟨next, hstep, hrest⟩ := Option.bind_eq_some_iff.mp hrun
        exact ih (h.step action hcheck hstep) hrest
      · cases hrun

theorem System.run_of_runChecked {script : Script Key Row Label Program}
    {check : System Key Row Label Program → Action Key Program → Bool}
    {system last : System Key Row Label Program} {actions : List (Action Key Program)}
    (hrun : system.runChecked script check actions = some last) :
    system.run script actions = some last := by
  induction actions generalizing system with
  | nil => exact hrun
  | cons action rest ih =>
      rw [runChecked] at hrun
      split at hrun
      · obtain ⟨next, hstep, hrest⟩ := Option.bind_eq_some_iff.mp hrun
        exact Option.bind_eq_some_iff.mpr ⟨next, hstep, ih hrest⟩
      · cases hrun

/-- What an action does, and when it is possible. -/
def System.Steps (script : Script Key Row Label Program)
    (system next : System Key Row Label Program) : Action Key Program → Prop
  | .start id program => system.sessions.get? id = none ∧
      next = system.put id ⟨program, [], none, []⟩
  | .execute id => ∃ session statement, system.sessions.get? id = some session ∧
      session.running = none ∧ script session.program session.counts = .execute statement ∧
      next = system.put id
        { session with running := some (.start statement (system.view session)) }
  | .visit id key => ∃ session running, system.sessions.get? id = some session ∧
      session.running = some running ∧ running.reaches key = true ∧
      ((next = system.put id (session.skip running key) ∧
          (system.locked id key = true ∧ running.skipsLocked = true ∨
            system.locked id key = false ∧ ∀ row, (system.view session).get? key = some row →
              running.statement.applies running.snapshot key row = false)) ∨
        ∃ row, system.locked id key = false ∧ (system.view session).get? key = some row ∧
          running.statement.applies running.snapshot key row = true ∧
          next = system.put id (session.write running key row))
  | .finish id => ∃ session running, system.sessions.get? id = some session ∧
      session.running = some running ∧ running.todo = [] ∧
      next = system.put id
        { session with running := none, counts := session.counts ++ [running.count] }
  | .commit id => ∃ session, system.sessions.get? id = some session ∧
      session.running = none ∧ script session.program session.counts = .commit ∧
      next =
        { committed := system.view session
          sessions := system.sessions.erase id
          history := system.history ++ [⟨session.program, session.counts, session.changes⟩] }
  | .abort id => ∃ session, system.sessions.get? id = some session ∧
      next = { system with sessions := system.sessions.erase id }

/-- A transaction that tries a candidate passes over it or writes its row. -/
theorem System.visit_cases {system next : System Key Row Label Program} {id : ℕ} {key : Key}
    {session : Session Key Row Label Program} {running : Running Key Row Label}
    (h : system.visit id key session running = some next) :
    running.reaches key = true ∧
      ((next = system.put id (session.skip running key) ∧
          (system.locked id key = true ∧ running.skipsLocked = true ∨
            system.locked id key = false ∧ ∀ row, (system.view session).get? key = some row →
              running.statement.applies running.snapshot key row = false)) ∨
        ∃ row, system.locked id key = false ∧ (system.view session).get? key = some row ∧
          running.statement.applies running.snapshot key row = true ∧
          next = system.put id (session.write running key row)) := by
  unfold visit at h
  split at h
  · cases h
  next hreaches =>
    have hreaches : running.reaches key = true := by simpa using hreaches
    refine ⟨hreaches, ?_⟩
    split at h
    next hlocked =>
      -- a locked row is passed over or waited for, and waiting is no step
      split at h
      next hskips =>
        cases h
        exact .inl ⟨rfl, .inl ⟨hlocked, hskips⟩⟩
      · cases h
    next hfree =>
      have hfree : system.locked id key = false := by simpa using hfree
      split at h
      next hnone =>
        cases h
        refine .inl ⟨rfl, .inr ⟨hfree, fun row hrow => ?_⟩⟩
        cases hnone.symm.trans hrow
      next row hrow =>
        split at h
        next happlies =>
          cases h
          exact .inr ⟨row, hfree, hrow, happlies, rfl⟩
        next hfails =>
          cases h
          refine .inl ⟨rfl, .inr ⟨hfree, fun other hother => ?_⟩⟩
          cases hrow.symm.trans hother
          simpa using hfails

theorem System.step_cases {script : Script Key Row Label Program}
    {system next : System Key Row Label Program} {action : Action Key Program}
    (h : system.step script action = some next) : system.Steps script next action := by
  cases action with
  | start id program =>
      simp only [step] at h
      split at h
      · cases h
      next hfree =>
        cases h
        exact ⟨hfree, rfl⟩
  | execute id =>
      simp only [step] at h
      split at h
      · cases h
      next session hsession =>
        split at h
        next statement hidle hcommand =>
          cases h
          exact ⟨session, statement, hsession, hidle, hcommand, rfl⟩
        · cases h
  | visit id key =>
      simp only [step] at h
      split at h
      · cases h
      next session hsession =>
        split at h
        · cases h
        next running hrunning =>
          exact ⟨session, running, hsession, hrunning, visit_cases h⟩
  | finish id =>
      simp only [step] at h
      split at h
      · cases h
      next session hsession =>
        split at h
        · cases h
        next running hrunning =>
          split at h
          next hdone =>
            cases h
            exact ⟨session, running, hsession, hrunning, List.isEmpty_iff.mp hdone, rfl⟩
          · cases h
  | commit id =>
      simp only [step] at h
      split at h
      · cases h
      next session hsession =>
        split at h
        next hidle hcommand =>
          cases h
          exact ⟨session, hsession, hidle, hcommand, rfl⟩
        · cases h
  | abort id =>
      simp only [step] at h
      split at h
      · cases h
      next session hsession =>
        cases h
        exact ⟨session, hsession, rfl⟩

/-! ## Changes -/

@[simp] theorem install_nil (rows : Table Key Row) :
    install rows ([] : List (Change Key Row Label)) = rows := rfl

theorem install_cons (rows : Table Key Row) (change : Change Key Row Label)
    (rest : List (Change Key Row Label)) :
    install rows (change :: rest) = install (rows.insert change.key change.new) rest := rfl

theorem install_append (rows : Table Key Row) (first second : List (Change Key Row Label)) :
    install rows (first ++ second) = install (install rows first) second :=
  List.foldl_append ..

/-- A row that no change concerns stays. -/
theorem get?_install_of_ne {changes : List (Change Key Row Label)} {key : Key}
    (hkey : ∀ change ∈ changes, change.key ≠ key) (rows : Table Key Row) :
    (install rows changes).get? key = rows.get? key := by
  induction changes generalizing rows with
  | nil => rfl
  | cons change rest ih =>
      rw [install_cons, ih fun other hother => hkey other (List.mem_cons_of_mem _ hother)]
      exact Table.get?_insert_of_ne _ _ (hkey change List.mem_cons_self).symm

/-- A row is the one before the changes, or the last change of it has written it. -/
theorem get?_install_cases (rows : Table Key Row) (changes : List (Change Key Row Label))
    (key : Key) :
    (∀ change ∈ changes, change.key ≠ key) ∧ (install rows changes).get? key = rows.get? key ∨
      ∃ change ∈ changes, change.key = key ∧
        (install rows changes).get? key = some change.new := by
  induction changes generalizing rows with
  | nil => exact .inl ⟨fun _ hnone => (nomatch hnone), rfl⟩
  | cons first rest ih =>
      rw [install_cons]
      rcases ih (rows.insert first.key first.new) with ⟨hrest, hrow⟩ | ⟨change, hmem, hkey, hrow⟩
      · by_cases hfirst : first.key = key
        · refine .inr ⟨first, List.mem_cons_self, hfirst, ?_⟩
          rw [hrow, ← hfirst, Table.get?_insert_self]
        · refine .inl ⟨List.forall_mem_cons.mpr ⟨hfirst, hrest⟩, ?_⟩
          rw [hrow, Table.get?_insert_of_ne _ _ (Ne.symm hfirst)]
      · exact .inr ⟨change, List.mem_cons_of_mem _ hmem, hkey, hrow⟩

/-- Changes hide the differences between the rows that they concern. -/
theorem get?_install_congr {first second : Table Key Row} {key : Key}
    (hsame : first.get? key = second.get? key) (changes : List (Change Key Row Label)) :
    (install first changes).get? key = (install second changes).get? key := by
  induction changes generalizing first second with
  | nil => exact hsame
  | cons change rest ih =>
      refine ih ?_
      rw [Table.get?_insert, Table.get?_insert, hsame]

/-- Every change starts from the version that the changes before it have left. -/
def Linked : Table Key Row → List (Change Key Row Label) → Prop
  | _, [] => True
  | rows, change :: rest =>
      rows.get? change.key = some change.old ∧ Linked (rows.insert change.key change.new) rest

theorem linked_append {rows : Table Key Row} {first second : List (Change Key Row Label)} :
    Linked rows (first ++ second) ↔ Linked rows first ∧ Linked (install rows first) second := by
  induction first generalizing rows with
  | nil => exact ⟨fun h => ⟨trivial, h⟩, fun h => h.2⟩
  | cons change rest ih =>
      rw [List.cons_append, Linked, Linked, ih, install_cons, and_assoc]

theorem Linked.congr {first second : Table Key Row} {changes : List (Change Key Row Label)}
    (h : Linked first changes)
    (hsame : ∀ change ∈ changes, first.get? change.key = second.get? change.key) :
    Linked second changes := by
  induction changes generalizing first second with
  | nil => trivial
  | cons change rest ih =>
      obtain ⟨hold, hrest⟩ := h
      refine ⟨(hsame change List.mem_cons_self).symm.trans hold, ih hrest fun other hother => ?_⟩
      rw [Table.get?_insert, Table.get?_insert, hsame other (List.mem_cons_of_mem _ hother)]

/-- A property of rows that every change keeps holds of all versions. -/
theorem Linked.keeps {P : Key → Row → Prop} {rows : Table Key Row}
    {changes : List (Change Key Row Label)} (h : Linked rows changes)
    (hrows : ∀ key row, rows.get? key = some row → P key row)
    (hkeep : ∀ change ∈ changes, P change.key change.old → P change.key change.new) :
    (∀ change ∈ changes, P change.key change.old) ∧
      ∀ key row, (install rows changes).get? key = some row → P key row := by
  induction changes generalizing rows with
  | nil => exact ⟨fun _ hnone => (nomatch hnone), hrows⟩
  | cons change rest ih =>
      obtain ⟨hold, hrest⟩ := h
      have hfirst := hrows change.key change.old hold
      have hnew := hkeep change List.mem_cons_self hfirst
      have hinsert : ∀ key row, (rows.insert change.key change.new).get? key = some row →
          P key row := by
        intro key row hrow
        rw [Table.get?_insert] at hrow
        split at hrow
        next hkey =>
          cases hrow
          exact hkey ▸ hnew
        next => exact hrows key row hrow
      obtain ⟨holds, hfinal⟩ := ih hrest hinsert fun other hother =>
        hkeep other (List.mem_cons_of_mem _ hother)
      exact ⟨List.forall_mem_cons.mpr ⟨hfirst, holds⟩, hfinal⟩

/-- A version from which no change starts is the last one. -/
theorem Linked.untouched {rows : Table Key Row} {changes : List (Change Key Row Label)}
    (h : Linked rows changes) {key : Key}
    (hlast : ∀ change ∈ changes, change.key = key → rows.get? key ≠ some change.old) :
    ∀ change ∈ changes, change.key ≠ key := by
  induction changes generalizing rows with
  | nil => exact fun _ hnone => nomatch hnone
  | cons change rest ih =>
      obtain ⟨hold, hrest⟩ := h
      have hne : change.key ≠ key := by
        intro hkey
        exact hlast change List.mem_cons_self hkey (hkey ▸ hold)
      refine List.forall_mem_cons.mpr ⟨hne, ih hrest fun other hother => ?_⟩
      rw [Table.get?_insert_of_ne _ _ hne.symm]
      exact hlast other (List.mem_cons_of_mem _ hother)

/-! ## The versions of one row -/

/-- Changes of one row that lead from one version to another. -/
def Follows : Row → List (Change Key Row Label) → Row → Prop
  | row, [], last => row = last
  | row, change :: rest, last => change.old = row ∧ Follows change.new rest last

omit [DecidableEq Key] in
theorem follows_append {row last : Row} {first second : List (Change Key Row Label)} :
    Follows row (first ++ second) last ↔
      ∃ middle, Follows row first middle ∧ Follows middle second last := by
  induction first generalizing row with
  | nil => exact ⟨fun h => ⟨row, rfl, h⟩, fun ⟨_, heq, h⟩ => by cases heq; exact h⟩
  | cons change rest ih =>
      rw [List.cons_append, Follows, ih]
      constructor
      · rintro ⟨hold, middle, hrest, hlast⟩
        exact ⟨middle, ⟨hold, hrest⟩, hlast⟩
      · rintro ⟨middle, ⟨hold, hrest⟩, hlast⟩
        exact ⟨hold, middle, hrest, hlast⟩

/-- The changes of a row in linked changes. -/
theorem Linked.follows {rows : Table Key Row} {changes : List (Change Key Row Label)}
    (h : Linked rows changes) {key : Key} {row : Row} (hrow : rows.get? key = some row) :
    ∃ last, (install rows changes).get? key = some last ∧
      Follows row (changes.filter fun change => change.key = key) last := by
  induction changes generalizing rows row with
  | nil => exact ⟨row, hrow, rfl⟩
  | cons change rest ih =>
      obtain ⟨hold, hrest⟩ := h
      by_cases hkey : change.key = key
      · subst hkey
        cases hrow.symm.trans hold
        obtain ⟨last, hlast, hfollows⟩ := ih hrest (Table.get?_insert_self ..)
        refine ⟨last, hlast, ?_⟩
        rw [List.filter_cons_of_pos (by simp)]
        exact ⟨rfl, hfollows⟩
      · have hother : (rows.insert change.key change.new).get? key = some row := by
          rw [Table.get?_insert_of_ne _ _ (Ne.symm hkey), hrow]
        rw [List.filter_cons_of_neg (by simpa using hkey)]
        exact ih hrest hother

/-! ## Soundness -/

/-- How many rows a statement of the transaction has changed. -/
def countOf (changes : List (Change Key Row Label)) (index : ℕ) : ℕ :=
  changes.countP fun change => change.index = index

/-- The change was made by a statement of the program whose condition held of the row. -/
def Justified (script : Script Key Row Label Program) (program : Program) (counts : List ℕ)
    (change : Change Key Row Label) : Prop :=
  ∃ statement snapshot, change.index ≤ counts.length ∧
    script program (counts.take change.index) = .execute statement ∧
    change.label = statement.label ∧
    statement.applies snapshot change.key change.old = true ∧
    change.new = statement.set change.old

/-- An open transaction. -/
structure Session.Sound (script : Script Key Row Label Program) (committed : Table Key Row)
    (session : Session Key Row Label Program) : Prop where
  linked : Linked committed session.changes
  justified : ∀ change ∈ session.changes,
    Justified script session.program session.counts change
  executed : ∀ index < session.counts.length,
    ∃ statement, script session.program (session.counts.take index) = .execute statement
  counted : ∀ index < session.counts.length,
    session.counts[index]? = some (countOf session.changes index)
  running : ∀ running, session.running = some running →
    script session.program session.counts = .execute running.statement ∧
      running.count = countOf session.changes session.counts.length
  idle : session.running = none → countOf session.changes session.counts.length = 0

/-- A committed transaction. -/
structure Commit.Sound (script : Script Key Row Label Program)
    (commit : Commit Key Row Label Program) : Prop where
  ended : script commit.program commit.counts = .commit
  justified : ∀ change ∈ commit.changes, Justified script commit.program commit.counts change
  executed : ∀ index < commit.counts.length,
    ∃ statement, script commit.program (commit.counts.take index) = .execute statement
  counted : ∀ index < commit.counts.length,
    commit.counts[index]? = some (countOf commit.changes index)

/-- What holds in every reachable system. -/
structure Sound (script : Script Key Row Label Program) (rows : Table Key Row)
    (system : System Key Row Label Program) : Prop where
  committed : system.committed = install rows system.log
  linked : Linked rows system.log
  commits : ∀ commit ∈ system.history, commit.Sound script
  sessions : ∀ id session, system.sessions.get? id = some session →
    session.Sound script system.committed
  exclusive : ∀ id session, system.sessions.get? id = some session →
    ∀ change ∈ session.changes, system.locked id change.key = false

theorem Session.wrote_eq_false {session : Session Key Row Label Program} {key : Key} :
    session.wrote key = false ↔ ∀ change ∈ session.changes, change.key ≠ key := by
  simp [Session.wrote]

namespace System

theorem locked_eq_false {system : System Key Row Label Program} {id : ℕ} {key : Key} :
    system.locked id key = false ↔ ∀ other session, system.sessions.get? other = some session →
      other ≠ id → ∀ change ∈ session.changes, change.key ≠ key := by
  simp only [locked, List.any_eq_false, Bool.and_eq_true, bne_iff_ne, not_and, Prod.forall,
    Table.mem_entries, Bool.not_eq_true, Session.wrote_eq_false]

omit [DecidableEq Key] in
theorem get?_put (system : System Key Row Label Program) (id other : ℕ)
    (session : Session Key Row Label Program) :
    (system.put id session).sessions.get? other =
      if other = id then some session else system.sessions.get? other :=
  Table.get?_insert ..

end System

/-- After a write a transaction sees the written row. -/
theorem System.get?_view_write (system : System Key Row Label Program)
    (session : Session Key Row Label Program) (running : Running Key Row Label) (key : Key)
    (row : Row) (other : Key) :
    (system.view (session.write running key row)).get? other =
      if other = key then some (running.statement.set row)
      else (system.view session).get? other := by
  show (install system.committed (session.changes ++ [_])).get? other = _
  rw [install_append]
  exact Table.get?_insert ..

omit [DecidableEq Key] in
/-- Counts of later statements do not touch the justification. -/
theorem Justified.mono {script : Script Key Row Label Program} {program : Program}
    {counts : List ℕ} {change : Change Key Row Label}
    (h : Justified script program counts change) (count : ℕ) :
    Justified script program (counts ++ [count]) change := by
  obtain ⟨statement, snapshot, hindex, hscript, hrest⟩ := h
  refine ⟨statement, snapshot, ?_, ?_, hrest⟩
  · rw [List.length_append]
    omega
  · rwa [List.take_append_of_le_length hindex]

omit [DecidableEq Key] in
theorem countOf_append (changes : List (Change Key Row Label)) (change : Change Key Row Label)
    (index : ℕ) : countOf (changes ++ [change]) index =
      countOf changes index + if change.index = index then 1 else 0 := by
  unfold countOf
  rw [List.countP_append, List.countP_singleton]
  simp only [decide_eq_true_eq]

section Sound

variable {script : Script Key Row Label Program} {rows : Table Key Row}
  {system : System Key Row Label Program}

theorem Session.Sound.countOf_eq_zero {committed : Table Key Row}
    {session : Session Key Row Label Program} (h : session.Sound script committed) {index : ℕ}
    (hindex : session.counts.length < index) : countOf session.changes index = 0 := by
  refine List.countP_eq_zero.mpr fun change hchange => ?_
  obtain ⟨_, _, hle, _⟩ := h.justified change hchange
  simp only [decide_eq_true_eq]
  omega

theorem Session.Sound.fresh (committed : Table Key Row) (program : Program) :
    Session.Sound script committed
      (⟨program, [], none, []⟩ : Session Key Row Label Program) where
  linked := trivial
  justified := fun _ hnone => nomatch hnone
  executed := fun _ hlt => absurd hlt (Nat.not_lt_zero _)
  counted := fun _ hlt => absurd hlt (Nat.not_lt_zero _)
  running := fun _ hnone => nomatch hnone
  idle := fun _ => rfl

/-- A session that changes nothing but its place among its candidates. -/
theorem Session.Sound.rerun {committed : Table Key Row} {session : Session Key Row Label Program}
    (h : session.Sound script committed) {running next : Running Key Row Label}
    (hrunning : session.running = some running) (hstatement : next.statement = running.statement)
    (hcount : next.count = running.count) :
    Session.Sound script committed { session with running := some next } where
  linked := h.linked
  justified := h.justified
  executed := h.executed
  counted := h.counted
  running := by
    rintro _ ⟨⟩
    rw [hstatement, hcount]
    exact h.running running hrunning
  idle := fun hnone => nomatch hnone

theorem Session.Sound.execute {committed : Table Key Row}
    {session : Session Key Row Label Program} (h : session.Sound script committed)
    (hidle : session.running = none) {statement : Statement Key Row Label}
    (hscript : script session.program session.counts = .execute statement)
    (snapshot : Table Key Row) : Session.Sound script committed
      { session with running := some (.start statement snapshot) } where
  linked := h.linked
  justified := h.justified
  executed := h.executed
  counted := h.counted
  running := by
    rintro _ ⟨⟩
    exact ⟨hscript, (h.idle hidle).symm⟩
  idle := fun hnone => nomatch hnone

theorem Session.Sound.write {committed : Table Key Row} {session : Session Key Row Label Program}
    (h : session.Sound script committed) {running : Running Key Row Label}
    (hrunning : session.running = some running) {key : Key} {row : Row}
    (hrow : (install committed session.changes).get? key = some row)
    (happlies : running.statement.applies running.snapshot key row = true) :
    (session.write running key row).Sound script committed := by
  obtain ⟨hscript, hcount⟩ := h.running running hrunning
  refine ⟨?_, ?_, h.executed, ?_, ?_, fun hnone => nomatch hnone⟩
  · exact linked_append.mpr ⟨h.linked, hrow, trivial⟩
  · refine List.forall_mem_append.mpr ⟨h.justified, List.forall_mem_singleton.mpr ?_⟩
    refine ⟨running.statement, running.snapshot, le_rfl, ?_, rfl, happlies, rfl⟩
    show script session.program (session.counts.take session.counts.length) = _
    rw [List.take_length, hscript]
  · intro index hindex
    have hlt : index < session.counts.length := hindex
    show session.counts[index]? = some (countOf (session.changes ++ [_]) index)
    rw [countOf_append, if_neg (by dsimp only; omega), Nat.add_zero, h.counted index hlt]
  · rintro _ ⟨⟩
    refine ⟨hscript, ?_⟩
    show running.count + 1 = countOf (session.changes ++ [_]) session.counts.length
    rw [countOf_append, if_pos rfl, hcount]

theorem Session.Sound.finish {committed : Table Key Row} {session : Session Key Row Label Program}
    (h : session.Sound script committed) {running : Running Key Row Label}
    (hrunning : session.running = some running) : Session.Sound script committed
      { session with running := none, counts := session.counts ++ [running.count] } where
  linked := h.linked
  justified := fun change hchange => (h.justified change hchange).mono running.count
  executed := by
    intro index hindex
    have hlt : index < session.counts.length + 1 := by simpa using hindex
    show ∃ statement, script session.program ((session.counts ++ [running.count]).take index) =
      .execute statement
    rw [List.take_append_of_le_length (by omega)]
    by_cases hlast : index = session.counts.length
    · rw [hlast, List.take_length]
      exact ⟨running.statement, (h.running running hrunning).1⟩
    · exact h.executed index (by omega)
  counted := by
    intro index hindex
    have hlt : index < session.counts.length + 1 := by simpa using hindex
    show (session.counts ++ [running.count])[index]? = some (countOf session.changes index)
    by_cases hlast : index = session.counts.length
    · subst hlast
      rw [List.getElem?_concat_length, (h.running running hrunning).2]
    · rw [List.getElem?_append_left (by omega), h.counted index (by omega)]
  running := fun _ hnone => nomatch hnone
  idle := fun _ => h.countOf_eq_zero (by simp)

/-- Committing other rows leaves an open transaction sound. -/
theorem Session.Sound.commit {committed : Table Key Row} {session : Session Key Row Label Program}
    (h : session.Sound script committed) {changes : List (Change Key Row Label)}
    (hother : ∀ own ∈ session.changes, ∀ change ∈ changes, change.key ≠ own.key) :
    session.Sound script (install committed changes) where
  linked := h.linked.congr fun own hown => (get?_install_of_ne (hother own hown) committed).symm
  justified := h.justified
  executed := h.executed
  counted := h.counted
  running := h.running
  idle := h.idle

/-- One session moves on, without writing a row that another one has written. -/
theorem Sound.put (h : Sound script rows system) {id : ℕ}
    {session : Session Key Row Label Program}
    (hsession : session.Sound script system.committed)
    (hfree : ∀ change ∈ session.changes, system.locked id change.key = false) :
    Sound script rows (system.put id session) where
  committed := h.committed
  linked := h.linked
  commits := h.commits
  sessions := by
    intro other found hfound
    rw [System.get?_put] at hfound
    split at hfound
    · cases hfound
      exact hsession
    · exact h.sessions other found hfound
  exclusive := by
    intro first found hfound change hchange
    rw [System.locked_eq_false]
    intro second found' hfound' hne change' hchange'
    rw [System.get?_put] at hfound hfound'
    split at hfound
    next hfirst =>
      cases hfound
      rw [if_neg (hfirst ▸ hne)] at hfound'
      exact System.locked_eq_false.mp (hfree change hchange) second found' hfound'
        (hfirst ▸ hne) change' hchange'
    next hfirst =>
      split at hfound'
      next hsecond =>
        cases hfound'
        exact (System.locked_eq_false.mp (hfree change' hchange') first found hfound hfirst
          change hchange).symm
      next =>
        exact System.locked_eq_false.mp (h.exclusive first found hfound change hchange)
          second found' hfound' hne change' hchange'

theorem Sound.close (h : Sound script rows system) (id : ℕ) :
    Sound script rows { system with sessions := system.sessions.erase id } where
  committed := h.committed
  linked := h.linked
  commits := h.commits
  sessions := fun other session hsession =>
    h.sessions other session (Table.get?_erase_eq_some.mp hsession).2
  exclusive := by
    intro other session hsession change hchange
    rw [System.locked_eq_false]
    intro second found hfound hne
    exact System.locked_eq_false.mp
      (h.exclusive other session (Table.get?_erase_eq_some.mp hsession).2 change hchange)
      second found (Table.get?_erase_eq_some.mp hfound).2 hne

theorem Sound.commit (h : Sound script rows system) {id : ℕ}
    {session : Session Key Row Label Program} (hsession : system.sessions.get? id = some session)
    (hcommand : script session.program session.counts = .commit) :
    Sound script rows
      { committed := system.view session
        sessions := system.sessions.erase id
        history :=
          system.history ++ [⟨session.program, session.counts, session.changes⟩] } := by
  have hsound := h.sessions id session hsession
  have hlog : ∀ commit : Commit Key Row Label Program, commit.changes = session.changes →
      (system.history ++ [commit]).flatMap Commit.changes = system.log ++ session.changes := by
    intro commit hchanges
    rw [List.flatMap_append, List.flatMap_singleton, hchanges]
    rfl
  have hclosed := h.close id
  refine ⟨?_, ?_, ?_, fun other found hfound => ?_, fun other found hfound => ?_⟩
  · show install system.committed session.changes = install rows (List.flatMap _ _)
    rw [hlog _ rfl, install_append, ← h.committed]
  · show Linked rows (List.flatMap _ _)
    rw [hlog _ rfl, linked_append, ← h.committed]
    exact ⟨h.linked, hsound.linked⟩
  · refine List.forall_mem_append.mpr ⟨h.commits, List.forall_mem_singleton.mpr ?_⟩
    exact ⟨hcommand, hsound.justified, hsound.executed, hsound.counted⟩
  · obtain ⟨hne, hold⟩ := Table.get?_erase_eq_some.mp hfound
    refine (h.sessions other found hold).commit fun own hown change hchange => ?_
    exact System.locked_eq_false.mp (h.exclusive other found hold own hown) id session hsession
      (Ne.symm hne) change hchange
  · exact hclosed.exclusive other found hfound

/-- Every step keeps soundness. -/
theorem Sound.step (h : Sound script rows system) {next : System Key Row Label Program}
    {action : Action Key Program} (hstep : system.step script action = some next) :
    Sound script rows next := by
  have hcases := System.step_cases hstep
  cases action with
  | start id program =>
      obtain ⟨-, rfl⟩ := hcases
      exact h.put (.fresh system.committed program) fun _ hnone => nomatch hnone
  | execute id =>
      obtain ⟨session, statement, hsession, hidle, hcommand, rfl⟩ := hcases
      exact h.put ((h.sessions id session hsession).execute hidle hcommand _)
        (h.exclusive id session hsession)
  | visit id key =>
      obtain ⟨session, running, hsession, hrunning, -, hcase⟩ := hcases
      have hsound := h.sessions id session hsession
      rcases hcase with ⟨rfl, -⟩ | ⟨row, hfree, hrow, happlies, rfl⟩
      · exact h.put (hsound.rerun hrunning rfl rfl) (h.exclusive id session hsession)
      · refine h.put (hsound.write hrunning hrow happlies) ?_
        exact List.forall_mem_append.mpr
          ⟨h.exclusive id session hsession, List.forall_mem_singleton.mpr hfree⟩
  | finish id =>
      obtain ⟨session, running, hsession, hrunning, -, rfl⟩ := hcases
      exact h.put ((h.sessions id session hsession).finish hrunning)
        (h.exclusive id session hsession)
  | commit id =>
      obtain ⟨session, hsession, -, hcommand, rfl⟩ := hcases
      exact h.commit hsession hcommand
  | abort id =>
      obtain ⟨session, -, rfl⟩ := hcases
      exact h.close id

theorem Reachable.sound {allowed : System Key Row Label Program → Action Key Program → Prop}
    (h : Reachable script allowed rows system) : Sound script rows system := by
  induction h with
  | new =>
      exact ⟨rfl, trivial, fun _ hnone => (nomatch hnone), fun _ _ hnone => (nomatch hnone),
        fun _ _ hnone => (nomatch hnone)⟩
  | step action _ _ hstep ih => exact ih.step hstep

end Sound

end ReadCommitted
