import JobOrchestrator.Library.ReadCommitted

/-!
# Final rows under read committed isolation

Three rules about the versions of rows in interleaved transactions.

* `Sound.versions`: a property that every statement keeps holds of all versions.
* `Sound.final`: a version that no statement applies to is never replaced.
* `Reachable.swept`: let a statement of a program apply to all rows of a set that
  are not final, and make them final.  Then all rows of the set are final once the
  program has committed, although the statement works on a snapshot: a row that
  another transaction has changed since is checked again when it is visited, and a
  final row cannot be changed behind its back.
-/

namespace ReadCommitted

variable {Key Row Label Program : Type} [DecidableEq Key]
variable {script : Script Key Row Label Program} {P : Key → Row → Prop}

/-- Every statement keeps the property of a row that it applies to. -/
def Kept (script : Script Key Row Label Program) (P : Key → Row → Prop) : Prop :=
  ∀ program counts statement snapshot key row, script program counts = .execute statement →
    statement.applies snapshot key row = true → P key row → P key (statement.set row)

/-- No statement applies to a row with the property. -/
def Final (script : Script Key Row Label Program) (P : Key → Row → Prop) : Prop :=
  ∀ program counts statement snapshot key row, script program counts = .execute statement →
    P key row → statement.applies snapshot key row = false

/-- The statement after `index` others applies to the rows of a set without the
property, all of them, and gives them the property. -/
def Sweeps (script : Script Key Row Label Program) (P : Key → Row → Prop) (program : Program)
    (index : ℕ) (K : Key → Prop) : Prop :=
  ∀ counts statement, counts.length = index → script program counts = .execute statement →
    statement.scan = .every ∧ ∀ snapshot key row, K key → ¬P key row →
      statement.applies snapshot key row = true ∧ P key (statement.set row)

omit [DecidableEq Key] in
theorem Justified.keeps {program : Program} {counts : List ℕ} {change : Change Key Row Label}
    (h : Justified script program counts change) (hkept : Kept script P)
    (hold : P change.key change.old) : P change.key change.new := by
  obtain ⟨statement, snapshot, -, hscript, -, happlies, hnew⟩ := h
  rw [hnew]
  exact hkept _ _ statement snapshot _ _ hscript happlies hold

omit [DecidableEq Key] in
theorem Justified.not_final {program : Program} {counts : List ℕ}
    {change : Change Key Row Label} (h : Justified script program counts change)
    (hfinal : Final script P) : ¬P change.key change.old := by
  obtain ⟨statement, snapshot, -, hscript, -, happlies, -⟩ := h
  intro hold
  rw [hfinal _ _ statement snapshot _ _ hscript hold] at happlies
  cases happlies

section

variable {rows : Table Key Row} {system : System Key Row Label Program}

theorem Sound.justified (h : Sound script rows system) :
    ∀ change ∈ system.log, ∃ program counts, Justified script program counts change := by
  intro change hchange
  obtain ⟨commit, hcommit, hmem⟩ := List.mem_flatMap.mp hchange
  exact ⟨commit.program, commit.counts, (h.commits commit hcommit).justified change hmem⟩

/-- All versions have a property that the initial rows have and every statement keeps. -/
theorem Sound.versions (h : Sound script rows system) (hkept : Kept script P)
    (hrows : ∀ key row, rows.get? key = some row → P key row) :
    (∀ change ∈ system.log, P change.key change.old) ∧
      (∀ key row, system.committed.get? key = some row → P key row) ∧
      ∀ id session, system.sessions.get? id = some session →
        (∀ change ∈ session.changes, P change.key change.old) ∧
          ∀ key row, (system.view session).get? key = some row → P key row := by
  obtain ⟨hlog, hcommitted⟩ := h.linked.keeps hrows fun change hchange hold => by
    obtain ⟨program, counts, hjustified⟩ := h.justified change hchange
    exact hjustified.keeps hkept hold
  rw [← h.committed] at hcommitted
  refine ⟨hlog, hcommitted, fun id session hsession => ?_⟩
  have hsound := h.sessions id session hsession
  exact hsound.linked.keeps hcommitted fun change hchange =>
    (hsound.justified change hchange).keeps hkept

/-- An open transaction writes no row that is final for the others. -/
theorem Session.Sound.untouched {committed : Table Key Row}
    {session : Session Key Row Label Program} (h : session.Sound script committed)
    (hfinal : Final script P) {key : Key}
    (hP : ∀ row, committed.get? key = some row → P key row) :
    ∀ change ∈ session.changes, change.key ≠ key := by
  refine h.linked.untouched fun change hchange hkey hold => ?_
  refine (h.justified change hchange).not_final hfinal ?_
  rw [hkey]
  exact hP change.old hold

/-- Once committed, a final version is never replaced. -/
theorem Sound.final (h : Sound script rows system) (hfinal : Final script P)
    {before after : List (Commit Key Row Label Program)}
    (hsplit : system.history = before ++ after) {key : Key}
    (hP : ∀ row, (install rows (before.flatMap Commit.changes)).get? key = some row → P key row) :
    (∀ commit ∈ after, ∀ change ∈ commit.changes, change.key ≠ key) ∧
      system.committed.get? key = (install rows (before.flatMap Commit.changes)).get? key := by
  have hlog : system.log = before.flatMap Commit.changes ++ after.flatMap Commit.changes := by
    rw [System.log, hsplit, List.flatMap_append]
  have hlinked := h.linked
  rw [hlog, linked_append] at hlinked
  have huntouched := hlinked.2.untouched fun change hchange hkey hold => by
    obtain ⟨program, counts, hjustified⟩ := h.justified change
      (hlog ▸ List.mem_append_right _ hchange)
    refine hjustified.not_final hfinal ?_
    rw [hkey]
    exact hP change.old hold
  refine ⟨fun commit hcommit change hchange =>
    huntouched change (List.mem_flatMap.mpr ⟨commit, hcommit, hchange⟩), ?_⟩
  rw [h.committed, hlog, install_append, get?_install_of_ne huntouched]

end

/-! ## Sweeping statements -/

theorem mem_candidates {statement : Statement Key Row Label} {rows : Table Key Row} {key : Key} :
    key ∈ candidates statement rows ↔
      ∃ row, rows.get? key = some row ∧ statement.applies rows key row = true := by
  have hhits : key ∈ (rows.entries.filter fun entry =>
      statement.applies rows entry.1 entry.2).map Prod.fst ↔
        ∃ row, rows.get? key = some row ∧ statement.applies rows key row = true := by
    simp only [List.mem_map, List.mem_filter, Prod.exists, exists_and_right, exists_eq_right,
      Table.mem_entries]
  unfold candidates
  dsimp only
  split
  · exact hhits
  · rw [← hhits]
    exact ((List.perm_insertionSort _ _).map Prod.fst).mem_iff

/-- The rows of the set are final for the transaction, apart from those that its
sweeping statement has yet to visit. -/
structure Swept (P : Key → Row → Prop) (index : ℕ) (K : Key → Prop)
    (system : System Key Row Label Program) (session : Session Key Row Label Program) : Prop where
  done : index < session.counts.length → ∀ key, K key → ∀ row,
    (system.view session).get? key = some row → P key row
  left : ∀ running, session.running = some running → session.counts.length = index →
    ∀ key, K key → ∀ row, (system.view session).get? key = some row →
      P key row ∨ key ∈ running.todo

section

variable {rows : Table Key Row} {system : System Key Row Label Program} {program : Program}
  {index : ℕ} {K : Key → Prop}

theorem Swept.fresh (system : System Key Row Label Program) (program : Program) :
    Swept P index K system ⟨program, [], none, []⟩ where
  done := fun hlt => absurd hlt (Nat.not_lt_zero _)
  left := fun _ hnone => nomatch hnone

/-- At its start the sweeping statement has all other rows among its candidates. -/
theorem Swept.execute {session : Session Key Row Label Program}
    (h : Swept P index K system session) (hsweeps : Sweeps script P session.program index K)
    {statement : Statement Key Row Label}
    (hscript : script session.program session.counts = .execute statement) :
    Swept P index K system
      { session with running := some (.start statement (system.view session)) } where
  done := h.done
  left := by
    rintro _ ⟨⟩ hindex key hkey row hrow
    by_cases hP : P key row
    · exact .inl hP
    · have happlies := ((hsweeps session.counts statement hindex hscript).2
        (system.view session) key row hkey hP).1
      exact .inr (mem_candidates.mpr ⟨row, hrow, happlies⟩)

theorem Swept.skip {session : Session Key Row Label Program}
    (h : Swept P index K system session) (hsweeps : Sweeps script P session.program index K)
    {running : Running Key Row Label} (hrunning : session.running = some running)
    (hscript : script session.program session.counts = .execute running.statement) {key : Key}
    (hskip : running.skipsLocked = true ∨ ∀ row, (system.view session).get? key = some row →
      running.statement.applies running.snapshot key row = false) :
    Swept P index K system (session.skip running key) where
  done := h.done
  left := by
    rintro _ ⟨⟩ hindex other hother row hrow
    obtain ⟨hscan, hsweep⟩ := hsweeps session.counts running.statement hindex hscript
    rcases h.left running hrunning hindex other hother row hrow with hP | htodo
    · exact .inl hP
    · by_cases hkey : other = key
      · subst hkey
        rcases hskip with hskips | hfails
        · simp [Running.skipsLocked, hscan] at hskips
        · refine .inl ?_
          by_contra hP
          have happlies := (hsweep running.snapshot other row hother hP).1
          rw [hfails row hrow] at happlies
          cases happlies
      · exact .inr ((List.mem_erase_of_ne hkey).mpr htodo)

theorem Swept.write {session : Session Key Row Label Program}
    (h : Swept P index K system session) (hsweeps : Sweeps script P session.program index K)
    (hfinal : Final script P) {running : Running Key Row Label}
    (hrunning : session.running = some running)
    (hscript : script session.program session.counts = .execute running.statement) {key : Key}
    {row : Row} (hrow : (system.view session).get? key = some row)
    (happlies : running.statement.applies running.snapshot key row = true) :
    Swept P index K system (session.write running key row) := by
  have hnot : ¬P key row := fun hP => by
    rw [hfinal _ _ _ _ _ _ hscript hP] at happlies
    cases happlies
  have hview := system.get?_view_write session running key row
  refine ⟨fun hindex other hother found hfound => ?_, ?_⟩
  · rw [hview] at hfound
    split at hfound
    next hkey => exact absurd (h.done hindex key (hkey ▸ hother) row hrow) hnot
    next => exact h.done hindex other hother found hfound
  · rintro _ ⟨⟩ hindex other hother found hfound
    obtain ⟨hscan, hsweep⟩ := hsweeps session.counts running.statement hindex hscript
    rw [hview] at hfound
    split at hfound
    next hkey =>
      subst hkey
      cases hfound
      exact .inl (hsweep running.snapshot other row hother hnot).2
    next hkey =>
      rcases h.left running hrunning hindex other hother found hfound with hP | htodo
      · exact .inl hP
      · refine .inr ?_
        simp only [Running.take, hscan]
        exact (List.mem_erase_of_ne hkey).mpr htodo

theorem Swept.finish {session : Session Key Row Label Program}
    (h : Swept P index K system session) {running : Running Key Row Label}
    (hrunning : session.running = some running) (hdone : running.todo = []) :
    Swept P index K system
      { session with running := none, counts := session.counts ++ [running.count] } where
  done := by
    intro hindex key hkey row hrow
    have hindex : index < (session.counts ++ [running.count]).length := hindex
    rw [List.length_append, List.length_singleton] at hindex
    by_cases hlast : session.counts.length = index
    · rcases h.left running hrunning hlast key hkey row hrow with hP | htodo
      · exact hP
      · rw [hdone] at htodo
        cases htodo
    · exact h.done (by omega) key hkey row hrow
  left := fun _ hnone => nomatch hnone

/-- Rows that another transaction commits were not final before. -/
theorem Swept.commit {session other : Session Key Row Label Program}
    (h : Swept P index K system session) (hfinal : Final script P)
    (hother : other.Sound script system.committed)
    (hdisjoint : ∀ own ∈ session.changes, ∀ change ∈ other.changes, change.key ≠ own.key)
    {next : System Key Row Label Program} (hnext : next.committed = system.view other) :
    Swept P index K next session := by
  -- a final row in the view keeps its place, since no change of the other concerns it
  have hkeep : ∀ key, (∀ row, (system.view session).get? key = some row → P key row) →
      (next.view session).get? key = (system.view session).get? key := by
    intro key hP
    by_cases hown : ∃ own ∈ session.changes, own.key = key
    · obtain ⟨own, hown, rfl⟩ := hown
      refine get?_install_congr ?_ session.changes
      rw [hnext]
      exact get?_install_of_ne (hdisjoint own hown) _
    · push Not at hown
      have hview : (system.view session).get? key = system.committed.get? key :=
        get?_install_of_ne hown _
      have hviewNext : (next.view session).get? key = next.committed.get? key :=
        get?_install_of_ne hown _
      have huntouched := hother.untouched hfinal fun row hrow => hP row (hview.trans hrow)
      rw [hviewNext, hview, hnext, System.view, get?_install_of_ne huntouched]
  refine ⟨fun hindex key hkey row hrow => ?_, fun running hrunning hindex key hkey row hrow => ?_⟩
  · rw [hkeep key (h.done hindex key hkey)] at hrow
    exact h.done hindex key hkey row hrow
  · by_cases htodo : key ∈ running.todo
    · exact .inr htodo
    · have hall : ∀ row, (system.view session).get? key = some row → P key row := fun row hrow =>
        (h.left running hrunning hindex key hkey row hrow).resolve_right htodo
      rw [hkeep key hall] at hrow
      exact .inl (hall row hrow)

/-- The sweeping program in a whole system: swept while it is open, and once it
has committed all rows of the set are final. -/
structure SweptBy (P : Key → Row → Prop) (program : Program) (index : ℕ) (K : Key → Prop)
    (rows : Table Key Row) (system : System Key Row Label Program) : Prop where
  sessions : ∀ id session, system.sessions.get? id = some session →
    session.program = program → Swept P index K system session
  history : ∀ before commit after, system.history = before ++ commit :: after →
    commit.program = program → ∀ key, K key → ∀ row,
      (install rows ((before ++ [commit]).flatMap Commit.changes)).get? key = some row → P key row

theorem SweptBy.put (h : SweptBy P program index K rows system) {id : ℕ}
    {session : Session Key Row Label Program}
    (hsession : session.program = program → Swept P index K system session) :
    SweptBy P program index K rows (system.put id session) where
  history := h.history
  sessions := by
    intro other found hfound hprogram
    rw [System.get?_put] at hfound
    have hswept : Swept P index K system found := by
      split at hfound
      · cases hfound
        exact hsession hprogram
      · exact h.sessions other found hfound hprogram
    exact ⟨hswept.done, hswept.left⟩

theorem SweptBy.step (h : SweptBy P program index K rows system) (hsound : Sound script rows system)
    (hfinal : Final script P) (hsweeps : Sweeps script P program index K)
    (hcommits : ∀ counts, script program counts = .commit → index < counts.length)
    {next : System Key Row Label Program} {action : Action Key Program}
    (hstep : system.step script action = some next) : SweptBy P program index K rows next := by
  have hcases := System.step_cases hstep
  cases action with
  | start id started =>
      obtain ⟨-, rfl⟩ := hcases
      exact h.put fun _ => .fresh system started
  | execute id =>
      obtain ⟨session, statement, hsession, -, hcommand, rfl⟩ := hcases
      refine h.put fun hprogram => ?_
      have hprogram : session.program = program := hprogram
      exact (h.sessions id session hsession hprogram).execute (hprogram ▸ hsweeps) hcommand
  | visit id key =>
      obtain ⟨session, running, hsession, hrunning, -, hcase⟩ := hcases
      have hscript := ((hsound.sessions id session hsession).running running hrunning).1
      rcases hcase with ⟨rfl, hskip⟩ | ⟨row, -, hrow, happlies, rfl⟩
      · refine h.put fun hprogram => ?_
        have hprogram : session.program = program := hprogram
        exact (h.sessions id session hsession hprogram).skip (hprogram ▸ hsweeps) hrunning hscript
          (hskip.imp And.right And.right)
      · refine h.put fun hprogram => ?_
        have hprogram : session.program = program := hprogram
        exact (h.sessions id session hsession hprogram).write (hprogram ▸ hsweeps) hfinal hrunning
          hscript hrow happlies
  | finish id =>
      obtain ⟨session, running, hsession, hrunning, hdone, rfl⟩ := hcases
      exact h.put fun hprogram => (h.sessions id session hsession hprogram).finish hrunning hdone
  | commit id =>
      obtain ⟨session, hsession, -, hcommand, rfl⟩ := hcases
      have hown := hsound.sessions id session hsession
      refine ⟨fun other found hfound hprogram => ?_, fun before commit after hsplit hprogram => ?_⟩
      · obtain ⟨hne, hold⟩ := Table.get?_erase_eq_some.mp hfound
        refine (h.sessions other found hold hprogram).commit hfinal hown ?_ rfl
        intro own hmem change hchange
        exact System.locked_eq_false.mp (hsound.exclusive other found hold own hmem) id session
          hsession (Ne.symm hne) change hchange
      · rcases List.split_append_singleton hsplit with ⟨rfl, rfl, -⟩ | ⟨shorter, hsplit⟩
        · -- the commit of this step
          intro key hkey row hrow
          have hprogram : session.program = program := hprogram
          rw [List.flatMap_append, List.flatMap_singleton, install_append] at hrow
          have hview : (system.view session).get? key = some row := by
            rw [System.view, hsound.committed]
            exact hrow
          exact (h.sessions id session hsession hprogram).done
            (hcommits session.counts (hprogram ▸ hcommand)) key hkey row hview
        · exact h.history before commit shorter hsplit hprogram
  | abort id =>
      obtain ⟨session, -, rfl⟩ := hcases
      refine ⟨fun other found hfound hprogram => ?_, h.history⟩
      have hswept := h.sessions other found (Table.get?_erase_eq_some.mp hfound).2 hprogram
      exact ⟨hswept.done, hswept.left⟩

theorem Reachable.swept {allowed : System Key Row Label Program → Action Key Program → Prop}
    (h : Reachable script allowed rows system) (hfinal : Final script P)
    (hsweeps : Sweeps script P program index K)
    (hcommits : ∀ counts, script program counts = .commit → index < counts.length) :
    SweptBy P program index K rows system := by
  induction h with
  | new =>
      refine ⟨fun _ _ hnone => (nomatch hnone), fun before _ _ hsplit => ?_⟩
      cases before <;> cases hsplit
  | step action hreachable _ hstep ih =>
      exact ih.step hreachable.sound hfinal hsweeps hcommits hstep

end

end ReadCommitted
