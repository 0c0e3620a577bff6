import JobOrchestrator.Library.FinalRows

/-!
# Guards under read committed isolation

Let a statement give a row a property `Q` only where its snapshot shows a guard, a
condition on other rows.  The statement reads these rows without a lock, so when the
transaction commits they may have changed.  If the guard names final rows only,
they have not: final versions last, from the snapshot to the view of the
transaction and from there to every committed table.  Hence every table that is
ever committed shows the guard of each of its rows with `Q` (`Reachable.guarded_at`).
-/

namespace ReadCommitted

variable {Key Row Label Program : Type} [DecidableEq Key]
variable {script : Script Key Row Label Program} {P Q : Key → Row → Prop}
  {G : Table Key Row → Key → Prop}

/-- The second table has every final version of the first one. -/
def Retains (P : Key → Row → Prop) (first second : Table Key Row) : Prop :=
  ∀ key row, first.get? key = some row → P key row → second.get? key = some row

/-- The second table has a row under every key of the first one. -/
def Covers (first second : Table Key Row) : Prop :=
  ∀ key, first.contains key = true → second.contains key = true

/-- The table shows the guards of all its rows with `Q`. -/
def Guarded (G : Table Key Row → Key → Prop) (Q : Key → Row → Prop) (rows : Table Key Row) :
    Prop :=
  ∀ key row, rows.get? key = some row → Q key row → G rows key

/-- A guard names final rows only, and who gives a row `Q` has seen its guard. -/
structure Guards (script : Script Key Row Label Program) (rows : Table Key Row)
    (P : Key → Row → Prop) (G : Table Key Row → Key → Prop) (Q : Key → Row → Prop) : Prop where
  final : Final script P
  lasts : ∀ first second key, Retains P first second → G first key → G second key
  seen : ∀ program counts statement snapshot key row,
    script program counts = .execute statement → Covers rows snapshot →
    statement.applies snapshot key row = true → Q key (statement.set row) →
    Q key row ∨ G snapshot key

/-! ## Tables -/

theorem Retains.refl (P : Key → Row → Prop) (rows : Table Key Row) : Retains P rows rows :=
  fun _ _ hrow _ => hrow

theorem Retains.trans {first second third : Table Key Row} (h : Retains P first second)
    (h' : Retains P second third) : Retains P first third :=
  fun key row hrow hfinal => h' key row (h key row hrow hfinal) hfinal

theorem Covers.install {first second : Table Key Row} (h : Covers first second)
    (changes : List (Change Key Row Label)) : Covers first (install second changes) := by
  intro key hkey
  rcases get?_install_cases second changes key with ⟨-, hsame⟩ | ⟨change, -, -, hnew⟩
  · rw [Table.contains, hsame]
    exact h key hkey
  · rw [Table.contains, hnew]
    rfl

theorem Linked.keys {rows : Table Key Row} {changes : List (Change Key Row Label)}
    (h : Linked rows changes) : (install rows changes).keys = rows.keys := by
  induction changes generalizing rows with
  | nil => rfl
  | cons change rest ih =>
      obtain ⟨hold, hrest⟩ := h
      have hmem := Table.mem_keys.mpr ⟨_, hold⟩
      rw [install_cons, ih hrest, Table.insert_of_mem _ _ hmem, Table.keys_modify]

/-- The changes of an open transaction leave the final rows alone. -/
theorem Session.Sound.retains {committed : Table Key Row}
    {session : Session Key Row Label Program} (h : session.Sound script committed)
    (hfinal : Final script P) : Retains P committed (install committed session.changes) := by
  intro key row hrow hP
  have huntouched : ∀ change ∈ session.changes, change.key ≠ key :=
    h.untouched hfinal fun other hother => by
      cases hrow.symm.trans hother
      exact hP
  rw [get?_install_of_ne huntouched]
  exact hrow

/-! ## The invariant -/

variable {rows : Table Key Row} {system : System Key Row Label Program}

/-- Every table that somebody sees is guarded, and what a statement has seen final
its transaction still sees. -/
structure GuardedSystem (rows : Table Key Row) (P : Key → Row → Prop)
    (G : Table Key Row → Key → Prop) (Q : Key → Row → Prop)
    (system : System Key Row Label Program) : Prop where
  committed : Guarded G Q system.committed
  views : ∀ id session, system.sessions.get? id = some session →
    Guarded G Q (system.view session)
  snapshots : ∀ id session running, system.sessions.get? id = some session →
    session.running = some running →
    Covers rows running.snapshot ∧ Retains P running.snapshot (system.view session)

theorem GuardedSystem.put (h : GuardedSystem rows P G Q system) {id : ℕ}
    {session : Session Key Row Label Program} (hview : Guarded G Q (system.view session))
    (hsnapshot : ∀ running, session.running = some running →
      Covers rows running.snapshot ∧ Retains P running.snapshot (system.view session)) :
    GuardedSystem rows P G Q (system.put id session) where
  committed := h.committed
  views := by
    intro other found hfound
    rw [System.get?_put] at hfound
    split at hfound
    · cases hfound
      exact hview
    · exact h.views other found hfound
  snapshots := by
    intro other found running hfound hrunning
    rw [System.get?_put] at hfound
    split at hfound
    · cases hfound
      exact hsnapshot running hrunning
    · exact h.snapshots other found running hfound hrunning

theorem GuardedSystem.write (h : GuardedSystem rows P G Q system)
    (hguards : Guards script rows P G Q) (hsound : Sound script rows system) {id : ℕ}
    {session : Session Key Row Label Program} {running : Running Key Row Label} {key : Key}
    {row : Row} (hsession : system.sessions.get? id = some session)
    (hrunning : session.running = some running) (hrow : (system.view session).get? key = some row)
    (happlies : running.statement.applies running.snapshot key row = true) :
    GuardedSystem rows P G Q (system.put id (session.write running key row)) := by
  obtain ⟨hcovers, hretains⟩ := h.snapshots id session running hsession hrunning
  have hscript := ((hsound.sessions id session hsession).running running hrunning).1
  have hwritten : Retains P (system.view session)
      (system.view (session.write running key row)) := by
    intro other stored hstored hfinal
    rw [System.get?_view_write]
    split
    next hsame =>
      subst hsame
      cases hrow.symm.trans hstored
      rw [hguards.final _ _ _ _ _ _ hscript hfinal] at happlies
      cases happlies
    next => exact hstored
  refine h.put (fun other stored hstored hQ => ?_) fun found hfound => ?_
  · rw [System.get?_view_write] at hstored
    split at hstored
    next hsame =>
      subst hsame
      cases hstored
      rcases hguards.seen _ _ _ _ _ _ hscript hcovers happlies hQ with hbefore | hguard
      · exact hguards.lasts _ _ _ hwritten (h.views id session hsession _ _ hrow hbefore)
      · exact hguards.lasts _ _ _ (hretains.trans hwritten) hguard
    next => exact hguards.lasts _ _ _ hwritten (h.views id session hsession _ _ hstored hQ)
  · cases hfound
    exact ⟨hcovers, hretains.trans hwritten⟩

/-- A commit takes no final version away from another transaction. -/
theorem Sound.retains_commit (hsound : Sound script rows system) (hfinal : Final script P)
    {id other : ℕ} {session found : Session Key Row Label Program}
    (hsession : system.sessions.get? id = some session)
    (hfound : system.sessions.get? other = some found) (hne : other ≠ id) :
    Retains P (system.view found) (install (system.view session) found.changes) := by
  intro key row hrow hP
  rcases get?_install_cases system.committed found.changes key with
    ⟨hothers, hsame⟩ | ⟨change, hchange, hkey, -⟩
  · -- the row is the committed one, and it is final
    rw [get?_install_of_ne hothers]
    exact (hsound.sessions id session hsession).retains hfinal key row (hsame.symm.trans hrow) hP
  · -- the row is locked, so that the committing transaction has not written it
    subst hkey
    have hfree := System.locked_eq_false.mp (hsound.exclusive other found hfound change hchange)
      id session hsession hne.symm
    rw [← hrow]
    exact get?_install_congr (get?_install_of_ne hfree _) _

theorem GuardedSystem.commit (h : GuardedSystem rows P G Q system)
    (hguards : Guards script rows P G Q) (hsound : Sound script rows system) {id : ℕ}
    {session : Session Key Row Label Program} (hsession : system.sessions.get? id = some session)
    (hcommand : script session.program session.counts = .commit)
    (history : List (Commit Key Row Label Program)) :
    GuardedSystem rows P G Q
      { committed := system.view session
        sessions := system.sessions.erase id
        history := history } where
  committed := h.views id session hsession
  views := by
    intro other found hfound key row hrow hQ
    obtain ⟨hne, hold⟩ := Table.get?_erase_eq_some.mp hfound
    replace hrow : (install (system.view session) found.changes).get? key = some row := hrow
    rcases get?_install_cases (system.view session) found.changes key with
      ⟨-, hsame⟩ | ⟨change, hchange, hkey, -⟩
    · -- a row of the commit, whose guard the other transaction has not written
      have hsoundFound := (hsound.commit hsession hcommand).sessions other found hfound
      refine hguards.lasts _ _ _ (hsoundFound.retains hguards.final) ?_
      exact h.views id session hsession key row (hsame.symm.trans hrow) hQ
    · subst hkey
      have hfree := System.locked_eq_false.mp (hsound.exclusive other found hold change hchange)
        id session hsession hne.symm
      have hbefore : (system.view found).get? change.key = some row := by
        rw [← hrow]
        exact get?_install_congr (get?_install_of_ne hfree _).symm _
      exact hguards.lasts _ _ _ (hsound.retains_commit hguards.final hsession hold hne)
        (h.views other found hold _ _ hbefore hQ)
  snapshots := by
    intro other found running hfound hrunning
    obtain ⟨hne, hold⟩ := Table.get?_erase_eq_some.mp hfound
    obtain ⟨hcovers, hretains⟩ := h.snapshots other found running hold hrunning
    exact ⟨hcovers, hretains.trans (hsound.retains_commit hguards.final hsession hold hne)⟩

theorem GuardedSystem.step (h : GuardedSystem rows P G Q system)
    (hguards : Guards script rows P G Q) (hsound : Sound script rows system)
    {next : System Key Row Label Program} {action : Action Key Program}
    (hstep : system.step script action = some next) : GuardedSystem rows P G Q next := by
  have hcases := System.step_cases hstep
  cases action with
  | start id program =>
      obtain ⟨-, rfl⟩ := hcases
      exact h.put h.committed fun running hnone => by cases hnone
  | execute id =>
      obtain ⟨session, statement, hsession, -, -, rfl⟩ := hcases
      refine h.put (h.views id session hsession) fun running hrunning => ?_
      cases hrunning
      have hcovers : Covers rows system.committed := by
        rw [hsound.committed]
        exact Covers.install (fun _ hkey => hkey) _
      exact ⟨hcovers.install _, .refl P _⟩
  | visit id key =>
      obtain ⟨session, running, hsession, hrunning, -, hcase⟩ := hcases
      rcases hcase with ⟨rfl, -⟩ | ⟨row, -, hrow, happlies, rfl⟩
      · refine h.put (h.views id session hsession) fun found hfound => ?_
        cases hfound
        exact h.snapshots id session running hsession hrunning
      · exact h.write hguards hsound hsession hrunning hrow happlies
  | finish id =>
      obtain ⟨session, running, hsession, -, -, rfl⟩ := hcases
      exact h.put (h.views id session hsession) fun found hnone => by cases hnone
  | commit id =>
      obtain ⟨session, hsession, -, hcommand, rfl⟩ := hcases
      exact h.commit hguards hsound hsession hcommand _
  | abort id =>
      obtain ⟨session, -, rfl⟩ := hcases
      exact ⟨h.committed, fun other found hfound => h.views other found
        (Table.get?_erase_eq_some.mp hfound).2, fun other found running hfound =>
        h.snapshots other found running (Table.get?_erase_eq_some.mp hfound).2⟩

theorem Reachable.guarded {allowed : System Key Row Label Program → Action Key Program → Prop}
    (h : Reachable script allowed rows system) (hguards : Guards script rows P G Q)
    (hrows : Guarded G Q rows) : GuardedSystem rows P G Q system := by
  induction h with
  | new =>
      refine ⟨hrows, fun _ _ hnone => ?_, fun _ _ _ hnone => ?_⟩
      · cases hnone
      · cases hnone
  | step action hreachable _ hstep ih => exact ih.step hguards hreachable.sound hstep

/-! ## Moments of the history -/

theorem System.history_cases {script : Script Key Row Label Program}
    {system next : System Key Row Label Program} {action : Action Key Program}
    (hstep : system.step script action = some next) :
    next.history = system.history ∨ ∃ id session, action = .commit id ∧
      system.sessions.get? id = some session ∧
      next.history = system.history ++ [⟨session.program, session.counts, session.changes⟩] := by
  have hcases := System.step_cases hstep
  cases action with
  | start id program =>
      obtain ⟨-, rfl⟩ := hcases
      exact .inl rfl
  | execute id =>
      obtain ⟨_, _, -, -, -, rfl⟩ := hcases
      exact .inl rfl
  | visit id key =>
      obtain ⟨_, _, -, -, -, ⟨rfl, -⟩ | ⟨_, -, -, -, rfl⟩⟩ := hcases
      · exact .inl rfl
      · exact .inl rfl
  | finish id =>
      obtain ⟨_, _, -, -, -, rfl⟩ := hcases
      exact .inl rfl
  | commit id =>
      obtain ⟨session, hsession, -, -, rfl⟩ := hcases
      exact .inr ⟨id, session, rfl, hsession, rfl⟩
  | abort id =>
      obtain ⟨_, -, rfl⟩ := hcases
      exact .inl rfl

/-- Every prefix of the history was the history once. -/
theorem Reachable.moment {allowed : System Key Row Label Program → Action Key Program → Prop}
    (h : Reachable script allowed rows system) {before after : List (Commit Key Row Label Program)}
    (hhistory : system.history = before ++ after) :
    ∃ earlier, Reachable script allowed rows earlier ∧ earlier.history = before := by
  induction h generalizing after with
  | new =>
      obtain ⟨rfl, -⟩ := List.append_eq_nil_iff.mp hhistory.symm
      exact ⟨_, .new, rfl⟩
  | @step system next action hreachable hallowed hstep ih =>
      rcases System.history_cases hstep with hsame | ⟨id, session, -, -, hnext⟩
      · exact ih (hsame.symm.trans hhistory)
      -- the last commit is the one of this step, or the prefix is the whole history
      · cases after using List.reverseRecOn with
        | nil =>
            rw [List.append_nil] at hhistory
            exact ⟨next, hreachable.step _ hallowed hstep, hhistory⟩
        | append_singleton rest last =>
            rw [hnext, ← List.append_assoc] at hhistory
            exact ih (List.append_inj_left' hhistory rfl)

/-- What holds of every program that is started holds of all programs of the system. -/
theorem Reachable.programs {allowed : System Key Row Label Program → Action Key Program → Prop}
    {H : Program → Prop} (h : Reachable script allowed rows system)
    (hallowed : ∀ system id program, allowed system (.start id program) → H program) :
    (∀ id session, system.sessions.get? id = some session → H session.program) ∧
      ∀ commit ∈ system.history, H commit.program := by
  induction h with
  | new =>
      refine ⟨fun _ _ hnone => ?_, fun _ hnone => ?_⟩
      · cases hnone
      · cases hnone
  | @step system next action _ hstart hstep ih =>
      obtain ⟨hsessions, hhistory⟩ := ih
      -- one session is replaced by one with the same program
      have hput : ∀ (id : ℕ) (session : Session Key Row Label Program), H session.program →
          (∀ other found, (system.put id session).sessions.get? other = some found →
            H found.program) ∧ ∀ commit ∈ (system.put id session).history, H commit.program := by
        intro id session hprogram
        refine ⟨fun other found hfound => ?_, hhistory⟩
        rw [System.get?_put] at hfound
        split at hfound
        · cases hfound
          exact hprogram
        · exact hsessions other found hfound
      have hcases := System.step_cases hstep
      cases action with
      | start id program =>
          obtain ⟨-, rfl⟩ := hcases
          exact hput id _ (hallowed system id program hstart)
      | execute id =>
          obtain ⟨session, _, hsession, -, -, rfl⟩ := hcases
          exact hput id _ (hsessions id session hsession)
      | visit id key =>
          obtain ⟨session, _, hsession, -, -, ⟨rfl, -⟩ | ⟨_, -, -, -, rfl⟩⟩ := hcases
          · exact hput id _ (hsessions id session hsession)
          · exact hput id _ (hsessions id session hsession)
      | finish id =>
          obtain ⟨session, _, hsession, -, -, rfl⟩ := hcases
          exact hput id _ (hsessions id session hsession)
      | commit id =>
          obtain ⟨session, hsession, -, -, rfl⟩ := hcases
          refine ⟨fun other found hfound => ?_, List.forall_mem_append.mpr ⟨hhistory, ?_⟩⟩
          · exact hsessions other found (Table.get?_erase_eq_some.mp hfound).2
          · exact List.forall_mem_singleton.mpr (hsessions id session hsession)
      | abort id =>
          obtain ⟨_, -, rfl⟩ := hcases
          exact ⟨fun other found hfound => hsessions other found
            (Table.get?_erase_eq_some.mp hfound).2, hhistory⟩

theorem Reachable.guarded_at {allowed : System Key Row Label Program → Action Key Program → Prop}
    (h : Reachable script allowed rows system) (hguards : Guards script rows P G Q)
    (hrows : Guarded G Q rows) {before after : List (Commit Key Row Label Program)}
    (hhistory : system.history = before ++ after) :
    Guarded G Q (install rows (before.flatMap Commit.changes)) := by
  obtain ⟨earlier, hearlier, rfl⟩ := h.moment hhistory
  have hcommitted := (hearlier.guarded hguards hrows).committed
  rwa [hearlier.sound.committed] at hcommitted

end ReadCommitted
