import JobOrchestrator.Library.Table

/-!
# Runs of a machine, and what a potential says about them

A machine is a function that takes a state and an operation to the next state.
A run is a list of operations; it may be restricted by a condition on every
operation in the state that it meets (`Along`).  Weights of steps are summed over
a run by `tally`.

A potential is a natural number attached to every state.  `tally_add_le` is the
amortised bound: if every step pays its cost out of the potential, so does the
run; `tally_add_eq` is the exact account, in which steps may also be credited.
`finished_of_lt_tally` is the bound on attempts: if every attempt lowers the
potential of an unfinished state, then more attempts than the potential of the
first state lead to a finished one.

`Table.total` sums a weight over the entries of a table; it is the potential of a
state that is made of many parts.
-/

namespace Machine

variable {State Op : Type*}

/-- The state after a list of operations. -/
def after (next : State → Op → State) (state : State) (ops : List Op) : State :=
  ops.foldl next state

/-- A condition holds for every operation in the state that it meets. -/
def Along (next : State → Op → State) (condition : State → Op → Prop) : State → List Op → Prop
  | _, [] => True
  | state, op :: rest => condition state op ∧ Along next condition (next state op) rest

/-- The weights of the steps of a run, added up. -/
def tally (next : State → Op → State) (weight : State → Op → ℕ) : State → List Op → ℕ
  | _, [] => 0
  | state, op :: rest => weight state op + tally next weight (next state op) rest

variable {next : State → Op → State} {condition : State → Op → Prop}

@[simp] theorem after_nil (state : State) : after next state [] = state := rfl

@[simp] theorem after_cons (state : State) (op : Op) (rest : List Op) :
    after next state (op :: rest) = after next (next state op) rest := rfl

theorem along_of_forall {p : Op → Prop} {state : State} {ops : List Op} (h : ∀ op ∈ ops, p op) :
    Along next (fun _ op => p op) state ops := by
  induction ops generalizing state with
  | nil => trivial
  | cons op rest ih =>
      exact ⟨h op List.mem_cons_self,
        ih fun other hother => h other (List.mem_cons_of_mem _ hother)⟩

theorem Along.mono {weaker : State → Op → Prop} (himp : ∀ state op, condition state op →
    weaker state op) {state : State} {ops : List Op} (h : Along next condition state ops) :
    Along next weaker state ops := by
  induction ops generalizing state with
  | nil => trivial
  | cons op rest ih => exact ⟨himp state op h.1, ih h.2⟩

/-- A run that does not keep to a condition has a first operation that breaks it. -/
theorem exists_of_not_along {state : State} {ops : List Op}
    (h : ¬Along next condition state ops) :
    ∃ before op rest, ops = before ++ op :: rest ∧ Along next condition state before ∧
      ¬condition (after next state before) op := by
  induction ops generalizing state with
  | nil => exact absurd trivial h
  | cons op rest ih =>
      by_cases hfirst : condition state op
      · obtain ⟨before, broken, later, rfl, hbefore, hbroken⟩ := ih fun hrest => h ⟨hfirst, hrest⟩
        exact ⟨op :: before, broken, later, rfl, ⟨hfirst, hbefore⟩, hbroken⟩
      · exact ⟨[], op, rest, rfl, trivial, hfirst⟩

/-- What every step keeps holds after the run. -/
theorem after_induction {invariant : State → Prop}
    (hstep : ∀ state op, invariant state → condition state op → invariant (next state op))
    {state : State} (h : invariant state) {ops : List Op}
    (halong : Along next condition state ops) : invariant (after next state ops) := by
  induction ops generalizing state with
  | nil => exact h
  | cons op rest ih => exact ih (hstep state op h halong.1) halong.2

/-- A run pays its costs out of the potential. -/
theorem tally_add_le {invariant : State → Prop} (cost : State → Op → ℕ) (potential : State → ℕ)
    (hinvariant : ∀ state op, invariant state → condition state op → invariant (next state op))
    (hstep : ∀ state op, invariant state → condition state op →
      cost state op + potential (next state op) ≤ potential state)
    {state : State} (h : invariant state) {ops : List Op}
    (halong : Along next condition state ops) :
    tally next cost state ops + potential (after next state ops) ≤ potential state := by
  induction ops generalizing state with
  | nil => simp [tally]
  | cons op rest ih =>
      have hfirst := hstep state op h halong.1
      have hrest := ih (hinvariant state op h halong.1) halong.2
      rw [tally, after_cons]
      omega

/-- An exact account: what a run costs is taken from the potential and from its credit. -/
theorem tally_add_eq {invariant : State → Prop} {cost credit : State → Op → ℕ}
    {potential : State → ℕ}
    (hinvariant : ∀ state op, invariant state → condition state op → invariant (next state op))
    (hstep : ∀ state op, invariant state → condition state op →
      cost state op + potential (next state op) = potential state + credit state op)
    {state : State} (h : invariant state) {ops : List Op}
    (halong : Along next condition state ops) :
    tally next cost state ops + potential (after next state ops) =
      potential state + tally next credit state ops := by
  induction ops generalizing state with
  | nil => simp [tally]
  | cons op rest ih =>
      have hfirst := hstep state op h halong.1
      have hrest := ih (hinvariant state op h halong.1) halong.2
      rw [tally, tally, after_cons]
      omega

/-- If an unfinished state pays for every attempt out of its potential, then more
attempts than that lead to a finished state. -/
theorem finished_of_lt_tally {invariant finished : State → Prop} {attempt : State → Op → ℕ}
    {potential : State → ℕ}
    (hinvariant : ∀ state op, invariant state → condition state op → invariant (next state op))
    (hstable : ∀ state op, invariant state → condition state op → finished state →
      finished (next state op))
    (hstep : ∀ state op, invariant state → condition state op → ¬finished state →
      attempt state op + potential (next state op) ≤ potential state)
    {state : State} (h : invariant state) {ops : List Op}
    (halong : Along next condition state ops)
    (hlt : potential state < tally next attempt state ops) : finished (after next state ops) := by
  induction ops generalizing state with
  | nil => simp [tally] at hlt
  | cons op rest ih =>
      have hnext := hinvariant state op h halong.1
      rw [after_cons]
      by_cases hfinished : finished state
      · have hkept : invariant (after next (next state op) rest) ∧
            finished (after next (next state op) rest) := by
          have hboth : ∀ state op, invariant state ∧ finished state → condition state op →
              invariant (next state op) ∧ finished (next state op) := by
            intro state op hkept hallowed
            exact ⟨hinvariant state op hkept.1 hallowed,
              hstable state op hkept.1 hallowed hkept.2⟩
          exact after_induction hboth ⟨hnext, hstable state op h halong.1 hfinished⟩ halong.2
        exact hkept.2
      · have hpaid := hstep state op h halong.1 hfinished
        rw [tally] at hlt
        exact ih hnext halong.2 (by omega)

end Machine

namespace Table

variable {K V W : Type*}

/-- The sum of a weight over the entries. -/
def total (table : Table K V) (weight : K → V → ℕ) : ℕ :=
  (table.entries.map fun entry => weight entry.1 entry.2).sum

@[simp] theorem total_mapValues (table : Table K V) (f : K → V → W) (weight : K → W → ℕ) :
    (table.mapValues f).total weight = table.total fun key value => weight key (f key value) := by
  simp only [total, mapValues, List.map_map]
  rfl

theorem total_add (table : Table K V) (first second : K → V → ℕ) :
    (table.total fun key value => first key value + second key value) =
      table.total first + table.total second :=
  List.sum_map_add

variable [DecidableEq K]

theorem total_le_total {table : Table K V} {first second : K → V → ℕ}
    (h : ∀ key value, table.get? key = some value → first key value ≤ second key value) :
    table.total first ≤ table.total second :=
  List.sum_le_sum fun entry hentry => h entry.1 entry.2 (mem_entries.mp hentry)

theorem total_eq_sum_keys (table : Table K V) (weight : K → V → ℕ) :
    table.total weight =
      (table.keys.map fun key => ((table.get? key).map (weight key)).getD 0).sum := by
  rw [total, keys, List.map_map]
  congr 1
  refine List.map_congr_left fun entry hentry => ?_
  simp [mem_entries.mp hentry]

theorem total_le_of_contains_eq {first second : Table K V}
    (hkeys : ∀ key, second.contains key = first.contains key) {weight weight' : K → V → ℕ}
    (h : ∀ key value value', first.get? key = some value → second.get? key = some value' →
      weight' key value' ≤ weight key value) :
    second.total weight' ≤ first.total weight := by
  have hperm : second.keys.Perm first.keys := by
    refine (List.perm_ext_iff_of_nodup second.nodupKeys first.nodupKeys).mpr fun key => ?_
    rw [← keys, ← keys, ← contains_iff, ← contains_iff, hkeys]
  rw [total_eq_sum_keys, total_eq_sum_keys, (hperm.map _).sum_eq]
  refine List.sum_le_sum fun key hkey => ?_
  obtain ⟨value, hvalue⟩ := mem_keys.mp hkey
  obtain ⟨value', hvalue'⟩ := mem_keys.mp (hperm.mem_iff.mpr hkey)
  simpa [hvalue, hvalue'] using h key value value' hvalue hvalue'

theorem le_total {table : Table K V} {key : K} {value : V} (h : table.get? key = some value)
    (weight : K → V → ℕ) : weight key value ≤ table.total weight :=
  List.le_sum_of_mem (List.mem_map_of_mem (f := fun entry : K × V => weight entry.1 entry.2)
    (mem_entries.mpr h))

theorem total_insert_of_get?_eq_none {table : Table K V} {key : K} (value : V)
    (habsent : table.get? key = none) (weight : K → V → ℕ) :
    (table.insert key value).total weight = table.total weight + weight key value := by
  simp [total, entries_insert_of_get?_eq_none table value habsent]

omit [DecidableEq K] in
private theorem sum_eq_of_key {entries : List (K × V)} (hnodup : (entries.map Prod.fst).Nodup)
    {key : K} {value : V} (hmem : (key, value) ∈ entries) {weight : K → V → ℕ}
    (hzero : ∀ other stored, other ≠ key → weight other stored = 0) :
    (entries.map fun entry => weight entry.1 entry.2).sum = weight key value := by
  induction entries with
  | nil => cases hmem
  | cons entry rest ih =>
      simp only [List.map_cons, List.nodup_cons] at hnodup
      rw [List.map_cons, List.sum_cons]
      rcases List.mem_cons.mp hmem with rfl | hrest
      · have hothers : (rest.map fun entry => weight entry.1 entry.2).sum = 0 := by
          apply List.sum_eq_zero
          intro count hcount
          obtain ⟨other, hother, rfl⟩ := List.mem_map.mp hcount
          have hlisted : other.1 ∈ rest.map Prod.fst := List.mem_map_of_mem hother
          refine hzero other.1 other.2 fun hsame => hnodup.1 ?_
          rwa [hsame] at hlisted
        rw [hothers, Nat.add_zero]
      · have hne : entry.1 ≠ key := fun hsame => hnodup.1 <| by
          rw [hsame]
          exact List.mem_map_of_mem (f := Prod.fst) hrest
        rw [hzero entry.1 entry.2 hne, Nat.zero_add]
        exact ih hnodup.2 hrest

/-- A weight that vanishes at all keys but one. -/
theorem total_eq_of_key {table : Table K V} {key : K} {value : V}
    (hvalue : table.get? key = some value) {weight : K → V → ℕ}
    (hzero : ∀ other stored, other ≠ key → weight other stored = 0) :
    table.total weight = weight key value :=
  sum_eq_of_key table.nodupKeys (mem_entries.mpr hvalue) hzero

end Table
