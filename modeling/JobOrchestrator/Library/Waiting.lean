import JobOrchestrator.Library.Digraph
import JobOrchestrator.Library.Isolation

/-!
# Transactions that wait for each other

A statement that does not skip locked rows waits until the writer of a row has ended.
An open transaction can go on by itself, or it waits for another open one
(`System.canMove_or_waits`).  If every open transaction waits, then some of them wait
for each other in a circle (`System.exists_circle`), which only an abort breaks
(`System.SameCircle.step`).

Who may be in such a circle is decided by what a transaction still visits while it
holds locks.  A statement never visits a row twice (`Reachable.tidy`), so that a first
statement on a single row, which holds this row already, visits nothing any more
(`Session.Tidy.todo_eq_nil`).
-/

namespace ReadCommitted

variable {Key Row Label Program : Type} [DecidableEq Key]

/-! ## Waiting -/

namespace System

/-- A row that the statement may visit next has been written by another transaction,
and the statement does not pass over it. -/
def Waits (system : System Key Row Label Program) (id other : ℕ) : Prop :=
  other ≠ id ∧ ∃ session running blocker key, system.sessions.get? id = some session ∧
    session.running = some running ∧ running.skipsLocked = false ∧ running.reaches key = true ∧
    system.sessions.get? other = some blocker ∧ blocker.wrote key = true

/-- The transaction can go on by itself, if only by a rollback. -/
def CanMove (script : Script Key Row Label Program) (system : System Key Row Label Program)
    (id : ℕ) : Prop :=
  (∃ action, (action = .execute id ∨ (∃ key, action = .visit id key) ∨ action = .finish id ∨
      action = .commit id) ∧ (system.step script action).isSome = true) ∨
  ∃ session, system.sessions.get? id = some session ∧ session.running = none ∧
    script session.program session.counts = .rollback

end System

theorem System.locked_eq_true {system : System Key Row Label Program} {id : ℕ} {key : Key} :
    system.locked id key = true ↔ ∃ other session, system.sessions.get? other = some session ∧
      other ≠ id ∧ session.wrote key = true := by
  simp only [locked, List.any_eq_true, Bool.and_eq_true, bne_iff_ne, Prod.exists,
    Table.mem_entries]

theorem Running.mem_todo {running : Running Key Row Label} {key : Key}
    (hreaches : running.reaches key = true) : key ∈ running.todo := by
  unfold reaches at hreaches
  split at hreaches
  · simpa using hreaches
  · exact List.mem_of_mem_head? (by simpa using hreaches)

/-- An open transaction goes on, or it waits. -/
theorem System.canMove_or_waits (script : Script Key Row Label Program)
    {system : System Key Row Label Program} {id : ℕ} {session : Session Key Row Label Program}
    (hsession : system.sessions.get? id = some session) :
    system.CanMove script id ∨ ∃ other, system.Waits id other := by
  cases hrunning : session.running with
  | none =>
      left
      cases hscript : script session.program session.counts with
      | execute statement =>
          exact .inl ⟨.execute id, .inl rfl, by simp [step, hsession, hrunning, hscript]⟩
      | commit =>
          exact .inl ⟨.commit id, .inr (.inr (.inr rfl)),
            by simp [step, hsession, hrunning, hscript]⟩
      | rollback => exact .inr ⟨session, hsession, hrunning, hscript⟩
  | some running =>
      cases hremaining : running.remaining with
      | nil =>
          have hdone := Running.remaining_eq_nil_iff.mp hremaining
          exact .inl (.inl ⟨.finish id, .inr (.inr (.inl rfl)),
            by simp [step, hsession, hrunning, hdone]⟩)
      | cons key rest =>
          have hreaches : running.reaches key = true :=
            Running.reaches_iff.mpr (by simp [hremaining])
          -- the first row that is left is locked, or it is visited
          by_cases hwaits : system.locked id key = true ∧ running.skipsLocked = false
          · obtain ⟨other, blocker, hblocker, hne, hwrote⟩ := locked_eq_true.mp hwaits.1
            exact .inr ⟨other, hne, session, running, blocker, key, hsession, hrunning, hwaits.2,
              hreaches, hblocker, hwrote⟩
          · have hvisit : (system.visit id key session running).isSome = true := by
              unfold visit
              rw [if_neg (by simp [hreaches])]
              split
              next hlocked =>
                have hskips : running.skipsLocked = true := by
                  simpa [hlocked] using hwaits
                simp [hskips]
              next =>
                split
                · rfl
                · split <;> rfl
            exact .inl (.inl ⟨.visit id key, .inr (.inl ⟨key, rfl⟩),
              by simpa [step, hsession, hrunning] using hvisit⟩)

/-- If every open transaction waits, some of them wait for each other in a circle. -/
theorem System.exists_circle {system : System Key Row Label Program}
    (hopen : system.sessions.entries ≠ [])
    (hstuck : ∀ id session, system.sessions.get? id = some session →
      ∃ other, system.Waits id other) :
    ∃ id, Relation.TransGen system.Waits id id := by
  classical
  by_contra hnone
  let edges := (system.sessions.keys ×ˢ system.sessions.keys).filter fun edge =>
    decide (system.Waits edge.2 edge.1)
  have hedge : ∀ {other id}, (other, id) ∈ edges ↔
      (other ∈ system.sessions.keys ∧ id ∈ system.sessions.keys) ∧ system.Waits id other := by
    simp [edges, List.mem_filter]
  have hacyclic : ∀ id ∈ system.sessions.keys, ¬Digraph.Ancestor edges id id := by
    intro id _ hcircle
    have hswapped : Relation.TransGen (Function.swap system.Waits) id id :=
      Relation.TransGen.mono (fun _ _ hnext => (hedge.mp hnext).2) id id hcircle
    exact hnone ⟨id, Relation.transGen_swap.mp hswapped⟩
  have hne : system.sessions.keys ≠ [] := by simpa [Table.keys] using hopen
  -- nobody in the circle-free graph waits for the source
  obtain ⟨id, hid, hsource⟩ := Digraph.exists_source hne hacyclic
  obtain ⟨session, hsession⟩ := Table.mem_keys.mp hid
  obtain ⟨other, hwaits⟩ := hstuck id session hsession
  have hblocked := hwaits
  obtain ⟨-, -, -, blocker, -, -, -, -, -, hblocker, -⟩ := hblocked
  have hother : other ∈ system.sessions.keys := Table.mem_keys.mpr ⟨blocker, hblocker⟩
  exact hsource other (hedge.mpr ⟨⟨hother, hid⟩, hwaits⟩) hother

/-- Both wait for each other, directly or through others. -/
def System.SameCircle (system : System Key Row Label Program) (id other : ℕ) : Prop :=
  Relation.TransGen system.Waits id other ∧ Relation.TransGen system.Waits other id

theorem System.SameCircle.trans {system : System Key Row Label Program} {id other third : ℕ}
    (h : system.SameCircle id other) (h' : system.SameCircle other third) :
    system.SameCircle id third :=
  ⟨h.1.trans h'.1, h'.2.trans h.2⟩

theorem System.SameCircle.symm {system : System Key Row Label Program} {id other : ℕ}
    (h : system.SameCircle id other) : system.SameCircle other id :=
  ⟨h.2, h.1⟩

/-- Who is in a circle waits for another one there, while it holds a lock itself. -/
theorem System.SameCircle.waits {system : System Key Row Label Program} {id : ℕ}
    (h : system.SameCircle id id) :
    ∃ other session key, system.Waits id other ∧ system.SameCircle id other ∧
      system.sessions.get? id = some session ∧ session.wrote key = true := by
  obtain ⟨other, hwaits, hback⟩ := Relation.TransGen.head'_iff.mp h.1
  obtain ⟨before, -, hbefore⟩ := Relation.TransGen.tail'_iff.mp h.1
  obtain ⟨-, -, -, session, key, -, -, -, -, hsession, hwrote⟩ := hbefore
  have hcircle : Relation.TransGen system.Waits other id := by
    rcases Relation.reflTransGen_iff_eq_or_transGen.mp hback with rfl | hpath
    · exact h.1
    · exact hpath
  exact ⟨other, session, key, hwaits, ⟨.single hwaits, hcircle⟩, hsession, hwrote⟩

/-! ## A circle lasts -/

theorem Running.reaches_iff_mem {running : Running Key Row Label}
    (hskips : running.skipsLocked = false) {key : Key} :
    running.reaches key = true ↔ key ∈ running.todo := by
  unfold skipsLocked at hskips
  unfold reaches
  split at hskips
  · exact List.contains_iff_mem
  · cases hskips

theorem Running.todo_take {running : Running Key Row Label} (hskips : running.skipsLocked = false)
    (key : Key) : (running.take key).todo = running.todo.erase key := by
  unfold skipsLocked at hskips
  unfold take
  split at hskips
  · rfl
  · cases hskips

theorem Running.reaches_skip {running : Running Key Row Label}
    (hskips : running.skipsLocked = false) {key visited : Key}
    (hreaches : running.reaches key = true) (hne : key ≠ visited) : (running.skip visited).reaches key = true := by
  have hpasses : (running.skip visited).skipsLocked = false := hskips
  rw [reaches_iff_mem hskips] at hreaches
  rw [reaches_iff_mem hpasses]
  exact (List.mem_erase_of_ne hne).mpr hreaches

theorem Running.reaches_take {running : Running Key Row Label}
    (hskips : running.skipsLocked = false) {key visited : Key}
    (hreaches : running.reaches key = true) (hne : key ≠ visited) : (running.take visited).reaches key = true := by
  have hpasses : (running.take visited).skipsLocked = false := hskips
  rw [reaches_iff_mem hskips] at hreaches
  rw [reaches_iff_mem hpasses, todo_take hskips]
  exact (List.mem_erase_of_ne hne).mpr hreaches

theorem Session.wrote_write {session : Session Key Row Label Program}
    {running : Running Key Row Label} {key other : Key} {row : Row}
    (hwrote : session.wrote other = true) : (session.write running key row).wrote other = true := by
  rw [wrote, write, List.any_append, Bool.or_eq_true]
  exact .inl hwrote

/-- Whoever waits for a row goes on to wait for it, and keeps its locks, whatever
happens, short of its own abort. -/
theorem System.step_of_waits {script : Script Key Row Label Program}
    {system next : System Key Row Label Program} {action : Action Key Program}
    (hstep : system.step script action = some next) {id : ℕ}
    {session : Session Key Row Label Program} (hsession : system.sessions.get? id = some session)
    {running : Running Key Row Label} (hrunning : session.running = some running)
    (hskips : running.skipsLocked = false) {key : Key} (hreaches : running.reaches key = true)
    (hlocked : system.locked id key = true) (habort : action ≠ .abort id) :
    ∃ session' running', next.sessions.get? id = some session' ∧
      session'.running = some running' ∧ running'.skipsLocked = false ∧
      running'.reaches key = true ∧
      ∀ row, session.wrote row = true → session'.wrote row = true := by
  have hstays : next.sessions.get? id = some session → ∃ session' running',
      next.sessions.get? id = some session' ∧ session'.running = some running' ∧
        running'.skipsLocked = false ∧ running'.reaches key = true ∧
        ∀ row, session.wrote row = true → session'.wrote row = true :=
    fun hnext => ⟨session, running, hnext, hrunning, hskips, hreaches, fun _ hwrote => hwrote⟩
  have hput : ∀ {other : ℕ} (session' : Session Key Row Label Program), other ≠ id →
      (system.put other session').sessions.get? id = some session := by
    intro other session' hne
    rw [get?_put, if_neg hne.symm, hsession]
  have hsteps := step_cases hstep
  cases action with
  | start other program =>
      obtain ⟨hfree, rfl⟩ := hsteps
      have hne : other ≠ id := by
        rintro rfl
        cases hfree.symm.trans hsession
      exact hstays (hput _ hne)
  | execute other =>
      obtain ⟨found, statement, hfound, hidle, -, rfl⟩ := hsteps
      have hne : other ≠ id := by
        rintro rfl
        cases hfound.symm.trans hsession
        cases hidle.symm.trans hrunning
      exact hstays (hput _ hne)
  | visit other visited =>
      obtain ⟨found, going, hfound, hgoing, -, hvisit⟩ := hsteps
      by_cases hne : other = id
      · subst hne
        cases hfound.symm.trans hsession
        cases hgoing.symm.trans hrunning
        have hself : ∀ session' : Session Key Row Label Program,
            (system.put other session').sessions.get? other = some session' := by
          intro session'
          rw [get?_put, if_pos rfl]
        have hne : system.locked other visited = false → key ≠ visited := by
          rintro hfree rfl
          cases hfree.symm.trans hlocked
        rcases hvisit with ⟨rfl, ⟨-, hpasses⟩ | ⟨hfree, -⟩⟩ | ⟨row, hfree, -, -, rfl⟩
        · cases hskips.symm.trans hpasses
        · exact ⟨_, running.skip visited, hself _, rfl, hskips,
            running.reaches_skip hskips hreaches (hne hfree), fun _ hwrote => hwrote⟩
        · exact ⟨_, running.take visited, hself _, rfl, hskips,
            running.reaches_take hskips hreaches (hne hfree), fun _ => Session.wrote_write⟩
      · rcases hvisit with ⟨rfl, -⟩ | ⟨row, -, -, -, rfl⟩
        · exact hstays (hput _ hne)
        · exact hstays (hput _ hne)
  | finish other =>
      obtain ⟨found, going, hfound, hgoing, hdone, rfl⟩ := hsteps
      have hne : other ≠ id := by
        rintro rfl
        cases hfound.symm.trans hsession
        cases hgoing.symm.trans hrunning
        rw [Running.reaches_iff_mem hskips, hdone] at hreaches
        cases hreaches
      exact hstays (hput _ hne)
  | commit other =>
      obtain ⟨found, hfound, hidle, -, rfl⟩ := hsteps
      have hne : id ≠ other := by
        rintro rfl
        cases hfound.symm.trans hsession
        cases hidle.symm.trans hrunning
      exact hstays (Table.get?_erase_eq_some.mpr ⟨hne, hsession⟩)
  | abort other =>
      obtain ⟨found, hfound, rfl⟩ := hsteps
      have hne : id ≠ other := fun hsame => habort (hsame ▸ rfl)
      exact hstays (Table.get?_erase_eq_some.mpr ⟨hne, hsession⟩)

theorem System.Waits.step {script : Script Key Row Label Program}
    {system next : System Key Row Label Program} {action : Action Key Program}
    (hstep : system.step script action = some next) {id other third : ℕ}
    (h : system.Waits id other) (hnext : system.Waits other third)
    (hid : action ≠ .abort id) (hother : action ≠ .abort other) : next.Waits id other := by
  obtain ⟨hne, session, running, blocker, key, hsession, hrunning, hskips, hreaches, hblocker,
    hwrote⟩ := h
  obtain ⟨hne', found, going, holder, row, hfound, hgoing, hskips', hreaches', hholder, hheld⟩ :=
    hnext
  cases hblocker.symm.trans hfound
  have hlocked : system.locked id key = true :=
    locked_eq_true.mpr ⟨other, blocker, hblocker, hne, hwrote⟩
  have hlocked' : system.locked other row = true :=
    locked_eq_true.mpr ⟨third, holder, hholder, hne', hheld⟩
  obtain ⟨session', running', hsession', hrunning', hpasses, hleft, -⟩ :=
    step_of_waits hstep hsession hrunning hskips hreaches hlocked hid
  obtain ⟨blocker', -, hblocker', -, -, -, hkeeps⟩ :=
    step_of_waits hstep hblocker hgoing hskips' hreaches' hlocked' hother
  exact ⟨hne, session', running', blocker', key, hsession', hrunning', hpasses, hleft, hblocker',
    hkeeps key hwrote⟩

/-- Only the abort of one of its transactions breaks a circle. -/
theorem System.SameCircle.step {script : Script Key Row Label Program}
    {system next : System Key Row Label Program} {action : Action Key Program}
    (hstep : system.step script action = some next) {id other : ℕ}
    (h : system.SameCircle id other)
    (habort : ∀ member, system.SameCircle id member → action ≠ .abort member) :
    next.SameCircle id other := by
  have hpath : ∀ {first last : ℕ}, Relation.TransGen system.Waits first last →
      system.SameCircle id first → system.SameCircle id last →
      Relation.TransGen next.Waits first last := by
    intro first last hpath hfirst hlast
    induction hpath using Relation.TransGen.head_induction_on with
    | single hwaits =>
        obtain ⟨third, -, -, hnext, -⟩ := (hlast.symm.trans hlast).waits
        exact .single (hwaits.step hstep hnext (habort _ hfirst) (habort _ hlast))
    | @head first second hwaits hrest ih =>
        have hsecond : system.SameCircle id second :=
          ⟨hfirst.1.tail hwaits, hrest.trans hlast.2⟩
        obtain ⟨third, -, -, hnext, -⟩ := (hsecond.symm.trans hsecond).waits
        exact .head (hwaits.step hstep hnext (habort _ hfirst) (habort _ hsecond)) (ih hsecond)
  exact ⟨hpath h.1 (h.trans h.symm) h, hpath h.2 h (h.trans h.symm)⟩

/-! ## Rows that have been visited -/

/-- A statement under execution has still to visit candidates of its own, each once,
and none that it has written. -/
structure Session.Tidy (session : Session Key Row Label Program) : Prop where
  nodup : ∀ running, session.running = some running → running.todo.Nodup
  candidate : ∀ running, session.running = some running → ∀ key ∈ running.todo,
    ∃ row, running.snapshot.get? key = some row ∧
      running.statement.applies running.snapshot key row = true
  written : ∀ running, session.running = some running → ∀ change ∈ session.changes,
    change.index = session.counts.length → change.key ∉ running.todo

section

variable {script : Script Key Row Label Program} {rows committed : Table Key Row}
  {session : Session Key Row Label Program}

theorem Session.Tidy.idle (hidle : session.running = none) : session.Tidy where
  nodup running hrunning := by cases hidle.symm.trans hrunning
  candidate running hrunning := by cases hidle.symm.trans hrunning
  written running hrunning := by cases hidle.symm.trans hrunning

/-- A statement starts with all of its candidates. -/
theorem Session.Tidy.execute (hsound : session.Sound script committed)
    (hidle : session.running = none) (statement : Statement Key Row Label)
    (view : Table Key Row) :
    { session with running := some (.start statement view) }.Tidy where
  nodup running hrunning := by
    cases hrunning
    exact nodup_candidates statement view
  candidate running hrunning key hkey := by
    cases hrunning
    exact mem_candidates.mp hkey
  written running _ change hchange hindex := by
    -- the statement has not written anything yet
    have hnone := List.countP_eq_zero.mp (hsound.idle hidle) change hchange
    simp [hindex] at hnone

theorem Session.Tidy.skip (h : session.Tidy) {running : Running Key Row Label}
    (hrunning : session.running = some running) (key : Key) : (session.skip running key).Tidy where
  nodup next hnext := by
    cases hnext
    exact (h.nodup running hrunning).erase key
  candidate next hnext other hother := by
    cases hnext
    exact h.candidate running hrunning other (List.mem_of_mem_erase hother)
  written next hnext change hchange hindex hleft := by
    cases hnext
    exact h.written running hrunning change hchange hindex (List.mem_of_mem_erase hleft)

theorem Running.sublist_take (running : Running Key Row Label) (key : Key) :
    (running.take key).todo.Sublist (running.todo.erase key) := by
  unfold take
  dsimp only
  split
  · exact .refl _
  · exact List.nil_sublist _

theorem Session.Tidy.write (h : session.Tidy) {running : Running Key Row Label}
    (hrunning : session.running = some running) (key : Key) (row : Row) :
    (session.write running key row).Tidy where
  nodup next hnext := by
    cases hnext
    exact (running.sublist_take key).nodup ((h.nodup running hrunning).erase key)
  candidate next hnext other hother := by
    cases hnext
    exact h.candidate running hrunning other
      (List.mem_of_mem_erase ((running.sublist_take key).subset hother))
  written next hnext change hchange hindex hleft := by
    cases hnext
    have hleft := (running.sublist_take key).subset hleft
    rcases List.mem_append.mp hchange with hbefore | hnew
    · exact h.written running hrunning change hbefore hindex (List.mem_of_mem_erase hleft)
    · rw [List.mem_singleton.mp hnew, (h.nodup running hrunning).mem_erase_iff] at hleft
      exact hleft.1 rfl

/-- In a reachable system all transactions are tidy. -/
theorem Reachable.tidy {allowed : System Key Row Label Program → Action Key Program → Prop}
    {system : System Key Row Label Program} (h : Reachable script allowed rows system) :
    ∀ id session, system.sessions.get? id = some session → session.Tidy := by
  induction h with
  | new => exact fun _ _ hnone => by cases hnone
  | @step system next action hreachable _ hstep ih =>
      have hput : ∀ {id : ℕ} {session : Session Key Row Label Program}, session.Tidy →
          ∀ other found, (system.put id session).sessions.get? other = some found →
            found.Tidy := by
        intro id session htidy other found hfound
        rw [System.get?_put] at hfound
        split at hfound
        · cases hfound
          exact htidy
        · exact ih other found hfound
      have hsteps := System.step_cases hstep
      cases action with
      | start id program =>
          obtain ⟨-, rfl⟩ := hsteps
          exact hput (.idle rfl)
      | execute id =>
          obtain ⟨session, statement, hsession, hidle, -, rfl⟩ := hsteps
          exact hput (.execute (hreachable.sound.sessions id session hsession) hidle statement _)
      | visit id key =>
          obtain ⟨session, running, hsession, hrunning, -, ⟨rfl, -⟩ | ⟨row, -, -, -, rfl⟩⟩ :=
            hsteps
          · exact hput ((ih id session hsession).skip hrunning key)
          · exact hput ((ih id session hsession).write hrunning key row)
      | finish id =>
          obtain ⟨session, running, -, -, -, rfl⟩ := hsteps
          exact hput (.idle rfl)
      | commit id =>
          obtain ⟨session, -, -, -, rfl⟩ := hsteps
          exact fun other found hfound => ih other found (Table.get?_erase_eq_some.mp hfound).2
      | abort id =>
          obtain ⟨session, -, rfl⟩ := hsteps
          exact fun other found hfound => ih other found (Table.get?_erase_eq_some.mp hfound).2

/-- A first statement that concerns one row only has nothing left to visit once it has
written that row. -/
theorem Session.Tidy.todo_eq_nil (h : session.Tidy) (hsound : session.Sound script committed)
    {running : Running Key Row Label} (hrunning : session.running = some running)
    (hfirst : session.counts = []) {only : Key}
    (honly : ∀ snapshot key row, running.statement.applies snapshot key row = true → key = only)
    {key : Key} (hwrote : session.wrote key = true) : running.todo = [] := by
  obtain ⟨hscript, -⟩ := hsound.running running hrunning
  obtain ⟨change, hchange, -⟩ := List.any_eq_true.mp hwrote
  obtain ⟨statement, snapshot, hindex, hearlier, -, happlies, -⟩ := hsound.justified change hchange
  -- the change has been made by the statement itself
  have hzero : change.index = session.counts.length := by
    rw [hfirst] at hindex ⊢
    exact Nat.le_zero.mp hindex
  rw [hzero, List.take_length, hscript] at hearlier
  cases hearlier
  have hleft := h.written running hrunning change hchange hzero
  rw [honly _ _ _ happlies] at hleft
  refine List.eq_nil_iff_forall_not_mem.mpr fun other hother => hleft ?_
  obtain ⟨row, -, hcandidate⟩ := h.candidate running hrunning other hother
  rwa [← honly _ _ _ hcandidate]

end

end ReadCommitted
