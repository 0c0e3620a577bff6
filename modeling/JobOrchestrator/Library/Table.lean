import Mathlib

/-!
# Tables with a unique key

A table is a list of entries in which no key occurs twice; the uniqueness is a
field, so that a table with a repeated key cannot be built.  The order of the
entries is the order in which the table is iterated.  Both a hash map and a
relation with a primary key are tables in this sense.

Everything a client needs about a table is said through `get?`: one lemma for
each operation, and `mem_entries` for what an iteration visits.
-/

/-- A finite map as a list of entries with pairwise distinct keys. -/
structure Table (K V : Type*) where
  entries : List (K × V)
  nodupKeys : (entries.map Prod.fst).Nodup

namespace Table

variable {K V W : Type*} [DecidableEq K]

instance [DecidableEq V] : DecidableEq (Table K V) := fun first second =>
  decidable_of_iff (first.entries = second.entries)
    ⟨fun h => by cases first; cases second; cases h; rfl, fun h => by rw [h]⟩

/-- The table without entries. -/
def empty : Table K V := ⟨[], List.nodup_nil⟩

/-- The keys in iteration order. -/
def keys (table : Table K V) : List K := table.entries.map Prod.fst

/-- The number of entries. -/
def size (table : Table K V) : ℕ := table.entries.length

/-- The value stored under a key. -/
def get? (table : Table K V) (key : K) : Option V := table.entries.lookup key

/-- Whether a key is present. -/
def contains (table : Table K V) (key : K) : Bool := (table.get? key).isSome

omit [DecidableEq K] in
private theorem keys_map_entries (entries : List (K × V)) (f : K → V → W) :
    (entries.map fun entry => (entry.1, f entry.1 entry.2)).map Prod.fst =
      entries.map Prod.fst := by
  rw [List.map_map]
  rfl

/-- Replaces every value by a function of its key and itself. -/
def mapValues (table : Table K V) (f : K → V → W) : Table K W where
  entries := table.entries.map fun entry => (entry.1, f entry.1 entry.2)
  nodupKeys := by
    rw [keys_map_entries]
    exact table.nodupKeys

/-- Replaces the value under one key, if there is one. -/
def modify (table : Table K V) (key : K) (f : V → V) : Table K V :=
  table.mapValues fun other value => if other = key then f value else value

/-! ## Looking up -/

private theorem lookup_eq_some_iff {entries : List (K × V)}
    (hnodup : (entries.map Prod.fst).Nodup) {key : K} {value : V} :
    entries.lookup key = some value ↔ (key, value) ∈ entries := by
  induction entries with
  | nil => simp
  | cons entry rest ih =>
      obtain ⟨first, stored⟩ := entry
      simp only [List.map_cons, List.nodup_cons] at hnodup
      by_cases hkey : key = first
      · subst hkey
        have habsent : (key, value) ∉ rest := fun hmem =>
          hnodup.1 (List.mem_map_of_mem (f := Prod.fst) hmem)
        simp [habsent, eq_comm]
      · have hne : (key == first) = false := by simpa using hkey
        simp [List.lookup_cons, hne, ih hnodup.2, hkey]

/-- An iteration visits exactly the pairs that `get?` finds. -/
theorem mem_entries {table : Table K V} {key : K} {value : V} :
    (key, value) ∈ table.entries ↔ table.get? key = some value :=
  (lookup_eq_some_iff table.nodupKeys).symm

theorem mem_keys {table : Table K V} {key : K} :
    key ∈ table.keys ↔ ∃ value, table.get? key = some value := by
  simp [keys, ← mem_entries]

theorem get?_eq_none_iff {table : Table K V} {key : K} :
    table.get? key = none ↔ key ∉ table.keys := by
  rw [mem_keys, Option.eq_none_iff_forall_ne_some, not_exists]

theorem contains_iff {table : Table K V} {key : K} :
    table.contains key = true ↔ key ∈ table.keys := by
  rw [contains, Option.isSome_iff_exists, mem_keys]

theorem not_contains_iff {table : Table K V} {key : K} :
    ¬table.contains key = true ↔ table.get? key = none := by
  rw [contains_iff, get?_eq_none_iff]

/-- The iteration order does not matter to a lookup. -/
theorem get?_eq_of_perm {first second : Table K V} (hperm : first.entries.Perm second.entries)
    (key : K) : first.get? key = second.get? key := by
  ext value
  rw [← mem_entries, ← mem_entries, hperm.mem_iff]

@[simp] theorem get?_empty (key : K) : (empty : Table K V).get? key = none := rfl

@[simp] theorem get?_mapValues (table : Table K V) (f : K → V → W) (key : K) :
    (table.mapValues f).get? key = (table.get? key).map (f key) := by
  ext value
  simp only [← mem_entries, mapValues, List.mem_map, Prod.mk.injEq, Option.map_eq_some_iff]
  constructor
  · rintro ⟨⟨first, stored⟩, hmem, rfl, rfl⟩
    exact ⟨stored, hmem, rfl⟩
  · rintro ⟨stored, hstored, rfl⟩
    exact ⟨(key, stored), hstored, rfl, rfl⟩

theorem get?_modify (table : Table K V) (key : K) (f : V → V) (other : K) :
    (table.modify key f).get? other =
      if other = key then (table.get? other).map f else table.get? other := by
  unfold modify
  rw [get?_mapValues]
  split
  · rfl
  · simp

@[simp] theorem get?_modify_self (table : Table K V) (key : K) (f : V → V) :
    (table.modify key f).get? key = (table.get? key).map f := by
  rw [get?_modify, if_pos rfl]

theorem get?_modify_of_ne (table : Table K V) {key other : K} (f : V → V) (hne : other ≠ key) :
    (table.modify key f).get? other = table.get? other := by
  rw [get?_modify, if_neg hne]

omit [DecidableEq K] in
@[simp] theorem keys_mapValues (table : Table K V) (f : K → V → W) :
    (table.mapValues f).keys = table.keys :=
  keys_map_entries table.entries f

@[simp] theorem keys_modify (table : Table K V) (key : K) (f : V → V) :
    (table.modify key f).keys = table.keys := by
  simp [modify]

omit [DecidableEq K] in
@[simp] theorem size_mapValues (table : Table K V) (f : K → V → W) :
    (table.mapValues f).size = table.size := by
  simp [mapValues, size]

@[simp] theorem size_modify (table : Table K V) (key : K) (f : V → V) :
    (table.modify key f).size = table.size := by
  simp [modify]

omit [DecidableEq K] in
theorem eq_of_entries_eq {first second : Table K V}
    (h : first.entries = second.entries) : first = second := by
  cases first
  cases second
  cases h
  rfl

theorem contains_eq_of_keys_eq {first : Table K V} {second : Table K W}
    (hkeys : first.keys = second.keys) (key : K) : first.contains key = second.contains key := by
  rw [Bool.eq_iff_iff, contains_iff, contains_iff, hkeys]

/-- Tables with the same keys in the same order, where the one has the values of the other. -/
theorem eq_of_keys_eq {first second : Table K V} (hkeys : first.keys = second.keys)
    (h : ∀ key value, second.get? key = some value → first.get? key = some value) :
    first = second := by
  have hentries : ∀ table : Table K V, table.entries =
      table.keys.filterMap fun key => (table.get? key).map (Prod.mk key) := by
    intro table
    rw [keys, List.filterMap_map]
    symm
    rw [List.filterMap_congr (g := some)]
    · exact List.filterMap_some
    · rintro ⟨key, value⟩ hentry
      simp [mem_entries.mp hentry]
  apply eq_of_entries_eq
  rw [hentries first, hentries second, hkeys]
  refine List.filterMap_congr fun key hkey => ?_
  obtain ⟨value, hvalue⟩ := mem_keys.mp hkey
  rw [h key value hvalue, hvalue]

/-- Only the values at the keys that are present matter. -/
theorem mapValues_congr {table : Table K V} {f g : K → V → W}
    (h : ∀ key value, table.get? key = some value → f key value = g key value) :
    table.mapValues f = table.mapValues g :=
  eq_of_entries_eq <| List.map_congr_left fun entry hentry => by
    rw [h entry.1 entry.2 (mem_entries.mp hentry)]

omit [DecidableEq K] in
@[simp] theorem mapValues_id (table : Table K V) : (table.mapValues fun _ value => value) = table :=
  eq_of_entries_eq (List.map_id table.entries)

omit [DecidableEq K] in
theorem mapValues_mapValues {X : Type*} (table : Table K V) (f : K → V → W) (g : K → W → X) :
    (table.mapValues f).mapValues g = table.mapValues fun key value => g key (f key value) :=
  eq_of_entries_eq (List.map_map ..)

/-! ## Inserting -/

/-- Stores a value under a key: in the key's place if it is present, as a new
last entry otherwise. -/
def insert (table : Table K V) (key : K) (value : V) : Table K V :=
  if h : key ∈ table.keys then table.modify key fun _ => value
  else ⟨table.entries ++ [(key, value)], by
    rw [List.map_append, List.nodup_append]
    refine ⟨table.nodupKeys, by simp, ?_⟩
    rintro first hfirst second hsecond rfl
    simp only [List.map_cons, List.map_nil, List.mem_singleton] at hsecond
    subst hsecond
    exact h hfirst⟩

theorem get?_insert (table : Table K V) (key : K) (value : V) (other : K) :
    (table.insert key value).get? other =
      if other = key then some value else table.get? other := by
  unfold insert
  split
  · next hmem =>
    obtain ⟨stored, hstored⟩ := mem_keys.mp hmem
    rw [get?_modify]
    by_cases hother : other = key
    · subst hother
      simp [hstored]
    · simp [hother]
  · next habsent =>
    ext found
    rw [← mem_entries]
    simp only [List.mem_append, mem_entries, List.mem_singleton, Prod.mk.injEq]
    have hnone := get?_eq_none_iff.mpr habsent
    by_cases hother : other = key
    · subst hother
      simp [hnone, eq_comm]
    · simp [hother]

@[simp] theorem get?_insert_self (table : Table K V) (key : K) (value : V) :
    (table.insert key value).get? key = some value := by
  rw [get?_insert, if_pos rfl]

theorem get?_insert_of_ne (table : Table K V) {key other : K} (value : V) (hne : other ≠ key) :
    (table.insert key value).get? other = table.get? other := by
  rw [get?_insert, if_neg hne]

theorem insert_of_mem (table : Table K V) {key : K} (value : V) (hmem : key ∈ table.keys) :
    table.insert key value = table.modify key fun _ => value := by
  unfold insert
  rw [dif_pos hmem]

theorem entries_insert_of_get?_eq_none (table : Table K V) {key : K} (value : V)
    (habsent : table.get? key = none) :
    (table.insert key value).entries = table.entries ++ [(key, value)] := by
  unfold insert
  rw [dif_neg (get?_eq_none_iff.mp habsent)]

theorem keys_insert_of_get?_eq_none (table : Table K V) {key : K} (value : V)
    (habsent : table.get? key = none) :
    (table.insert key value).keys = table.keys ++ [key] := by
  simp [keys, entries_insert_of_get?_eq_none table value habsent]

/-! ## Erasing -/

/-- Removes the entry under a key. -/
def erase (table : Table K V) (key : K) : Table K V where
  entries := table.entries.filter fun entry => entry.1 ≠ key
  nodupKeys := ((List.filter_sublist).map Prod.fst).nodup table.nodupKeys

theorem get?_erase (table : Table K V) (key other : K) :
    (table.erase key).get? other = if other = key then none else table.get? other := by
  ext value
  rw [← mem_entries]
  unfold erase
  rw [List.mem_filter, mem_entries]
  by_cases hother : other = key <;> simp [hother]

theorem get?_erase_eq_some {table : Table K V} {key other : K} {value : V} :
    (table.erase key).get? other = some value ↔ other ≠ key ∧ table.get? other = some value := by
  rw [get?_erase]
  by_cases hother : other = key <;> simp [hother]

/-! ## Counting -/

/-- The number of entries that satisfy a predicate. -/
def countValues (table : Table K V) (p : K → V → Bool) : ℕ :=
  table.entries.countP fun entry => p entry.1 entry.2

/-- The count is the length of any list of the keys counted. -/
theorem countValues_eq_length {table : Table K V} {p : K → V → Bool} {keys : List K}
    (hnodup : keys.Nodup)
    (hmem : ∀ key, key ∈ keys ↔ ∃ value, table.get? key = some value ∧ p key value = true) :
    table.countValues p = keys.length := by
  have hsub : ((table.entries.filter fun entry => p entry.1 entry.2).map Prod.fst).Nodup :=
    table.nodupKeys.sublist (List.filter_sublist.map Prod.fst)
  have hperm : ((table.entries.filter fun entry => p entry.1 entry.2).map Prod.fst).Perm keys := by
    rw [List.perm_ext_iff_of_nodup hsub hnodup]
    intro key
    simp [hmem, mem_entries]
  rw [← hperm.length_eq, List.length_map, ← List.countP_eq_length_filter]
  rfl

private theorem countP_eq_of_key {entries : List (K × V)} (hnodup : (entries.map Prod.fst).Nodup)
    {p : K → V → Bool} {key : K}
    (h : ∀ other value, (other, value) ∈ entries → p other value = true → other = key) :
    entries.countP (fun entry => p entry.1 entry.2) =
      if (entries.lookup key).any (p key) then 1 else 0 := by
  induction entries with
  | nil => rfl
  | cons entry rest ih =>
      obtain ⟨first, stored⟩ := entry
      simp only [List.map_cons, List.nodup_cons] at hnodup
      have hrest := ih hnodup.2 fun other value hmem => h other value (List.mem_cons_of_mem _ hmem)
      rw [List.countP_cons, hrest, List.lookup_cons]
      by_cases hkey : key = first
      · subst hkey
        have habsent : rest.lookup key = none := by
          rw [Option.eq_none_iff_forall_ne_some]
          intro value hvalue
          exact hnodup.1 (List.mem_map_of_mem (f := Prod.fst)
            ((lookup_eq_some_iff hnodup.2).mp hvalue))
        simp [habsent]
      · have hne : (key == first) = false := by simpa using hkey
        have hfalse : p first stored = false := by
          by_contra htrue
          exact hkey (h first stored List.mem_cons_self (by simpa using htrue)).symm
        simp [hne, hfalse]

/-- A predicate that can hold under one key only is counted at most once. -/
theorem countValues_eq_of_key {table : Table K V} {p : K → V → Bool} (key : K)
    (h : ∀ other value, table.get? other = some value → p other value = true → other = key) :
    table.countValues p = if (table.get? key).any (p key) then 1 else 0 :=
  countP_eq_of_key table.nodupKeys fun other value hmem => h other value (mem_entries.mp hmem)

end Table

/-- A list with one entry more is split at that entry, or as the list is. -/
theorem List.split_append_singleton {α : Type*} {list before after : List α} {last x : α}
    (h : list ++ [last] = before ++ x :: after) :
    (list = before ∧ last = x ∧ after = []) ∨ ∃ shorter, list = before ++ x :: shorter := by
  rcases List.eq_nil_or_concat after with rfl | ⟨shorter, final, rfl⟩
  · obtain ⟨hbefore, hlast⟩ := List.append_inj' h rfl
    exact .inl ⟨hbefore, List.singleton_injective hlast, rfl⟩
  · rw [List.concat_eq_append, ← List.cons_append, ← List.append_assoc] at h
    exact .inr ⟨shorter, (List.append_inj' h rfl).1⟩
