import Mathlib

/-!
# Keyset pagination

Rows are read page by page in ascending order; each request asks for rows behind
the last one of the page before, until a page is empty.  Between two requests
rows may be added anywhere.

`collect_spec` says what has been read when the walk ends, whatever was added
meanwhile; `exists_collect` that it ends when finitely many rows were added.
The order is any strict total order.
-/

namespace Keyset

variable {α : Type} (lt : α → α → Prop) [DecidableRel lt]

/-- The rows behind the cursor in ascending order. -/
def remaining (rows : List α) (cursor : α) : List α :=
  (rows.filter fun row => decide (lt cursor row)).insertionSort fun first second => ¬lt second first

/-- The first `limit` rows behind the cursor. -/
def page (limit : ℕ) (rows : List α) (cursor : α) : List α := (remaining lt rows cursor).take limit

/-- Reads page after page, the request with number `n` from `rows n`; `none` if
the requests have been used up before an empty page. -/
def collect (limit : ℕ) (rows : ℕ → List α) : ℕ → ℕ → α → Option (List α)
  | 0, _, _ => none
  | requests + 1, n, cursor =>
      match (page lt limit (rows n) cursor).getLast? with
      | none => some []
      | some next =>
          (collect limit rows requests (n + 1) next).map (page lt limit (rows n) cursor ++ ·)

variable {lt} {limit : ℕ} {rows : ℕ → List α}

theorem mem_remaining {rows : List α} {cursor row : α} :
    row ∈ remaining lt rows cursor ↔ row ∈ rows ∧ lt cursor row := by
  simp [remaining]

theorem mem_of_mem_page {rows : List α} {cursor row : α} (h : row ∈ page lt limit rows cursor) :
    row ∈ rows ∧ lt cursor row :=
  mem_remaining.mp (List.mem_of_mem_take h)

theorem collect_of_le {requests more n : ℕ} {cursor : α} {items : List α}
    (h : collect lt limit rows requests n cursor = some items) (hle : requests ≤ more) :
    collect lt limit rows more n cursor = some items := by
  induction requests generalizing more n cursor items with
  | zero => cases h
  | succ requests ih =>
      obtain ⟨more, rfl⟩ : ∃ k, more = k + 1 := ⟨more - 1, by omega⟩
      rw [collect] at h ⊢
      cases hnext : (page lt limit (rows n) cursor).getLast? with
      | none =>
          rw [hnext] at h
          exact h
      | some next =>
          rw [hnext] at h
          obtain ⟨rest, hrest, rfl⟩ := Option.map_eq_some_iff.mp h
          exact Option.map_eq_some_iff.mpr ⟨rest, ih hrest (by omega), rfl⟩

omit [DecidableRel lt] in
theorem eq_or_lt_of_getLast? {items : List α} (hitems : items.Pairwise lt) {next row : α}
    (hnext : items.getLast? = some next) (hrow : row ∈ items) : row = next ∨ lt row next := by
  obtain ⟨before, rfl⟩ := List.getLast?_eq_some_iff.mp hnext
  rcases List.mem_append.mp hrow with hbefore | hlast
  · exact .inr ((List.pairwise_append.mp hitems).2.2 row hbefore next List.mem_cons_self)
  · exact .inl (List.mem_singleton.mp hlast)

section StrictTotal

variable [IsStrictTotalOrder α lt]

/-! ## One page -/

omit [DecidableRel lt] in
theorem lt_of_not_lt_of_ne {a b : α} (hle : ¬lt b a) (hne : a ≠ b) : lt a b := by
  rcases trichotomous_of lt a b with hlt | heq | hgt
  · exact hlt
  · exact absurd heq hne
  · exact absurd hgt hle

theorem pairwise_remaining {rows : List α} (hrows : rows.Nodup) (cursor : α) :
    (remaining lt rows cursor).Pairwise lt := by
  have htotal : Std.Total fun first second : α => ¬lt second first := by
    refine ⟨fun a b => ?_⟩
    by_cases hlt : lt b a
    · exact .inr (asymm_of lt hlt)
    · exact .inl hlt
  have htrans : IsTrans α fun first second : α => ¬lt second first := by
    refine ⟨fun a b c hab hbc hca => ?_⟩
    by_cases heq : b = c
    · exact hab (heq ▸ hca)
    · exact hab (trans_of lt (lt_of_not_lt_of_ne hbc heq) hca)
  have hsorted := List.pairwise_insertionSort (fun first second : α => ¬lt second first)
    (rows.filter fun row => decide (lt cursor row))
  have hnodup : (remaining lt rows cursor).Nodup :=
    (List.perm_insertionSort _ _).nodup_iff.mpr (hrows.filter _)
  exact (hsorted.and hnodup).imp fun h => lt_of_not_lt_of_ne h.1 h.2

theorem pairwise_page {rows : List α} (hrows : rows.Nodup) (cursor : α) :
    (page lt limit rows cursor).Pairwise lt :=
  (pairwise_remaining hrows cursor).sublist (List.take_sublist _ _)

theorem mem_page_or_behind (hlimit : 0 < limit) {rows : List α} (hrows : rows.Nodup)
    {cursor row : α} (hrow : row ∈ rows) (hbehind : lt cursor row) :
    row ∈ page lt limit rows cursor ∨
      ∃ next, (page lt limit rows cursor).getLast? = some next ∧ lt next row := by
  have hmem : row ∈ remaining lt rows cursor := mem_remaining.mpr ⟨hrow, hbehind⟩
  have hsorted : (remaining lt rows cursor).Pairwise lt := pairwise_remaining hrows cursor
  unfold page
  rw [← List.take_append_drop limit (remaining lt rows cursor)] at hmem hsorted
  rcases List.mem_append.mp hmem with hon | hoff
  · exact .inl hon
  · -- something was dropped, so that the page is full
    obtain ⟨next, hnext⟩ :
        ∃ next, ((remaining lt rows cursor).take limit).getLast? = some next := by
      rw [← Option.isSome_iff_exists, List.getLast?_isSome, ne_eq, List.take_eq_nil_iff]
      rintro (hzero | hnil)
      · omega
      · simp [hnil] at hoff
    refine .inr ⟨next, hnext, ?_⟩
    exact (List.pairwise_append.mp hsorted).2.2 next (List.mem_of_getLast? hnext) row hoff

/-! ## All pages -/

/-- What has been read is ascending, was in the table when it was read, and
contains every row behind the cursor that was there at the beginning. -/
theorem collect_spec (hlimit : 0 < limit) (hnodup : ∀ n, (rows n).Nodup)
    (hkept : ∀ n, rows n ⊆ rows (n + 1)) {requests n : ℕ} {cursor : α} {items : List α}
    (h : collect lt limit rows requests n cursor = some items) :
    items.Pairwise lt ∧ (∀ row ∈ items, lt cursor row ∧ ∃ m, row ∈ rows m) ∧
      ∀ row ∈ rows n, lt cursor row → row ∈ items := by
  induction requests generalizing n cursor items with
  | zero => cases h
  | succ requests ih =>
      rw [collect] at h
      cases hnext : (page lt limit (rows n) cursor).getLast? with
      | none =>
          rw [hnext] at h
          -- a page without rows has none behind the cursor
          obtain rfl := Option.some.inj h
          refine ⟨.nil, fun row hrow => absurd hrow List.not_mem_nil, fun row hrow hbehind => ?_⟩
          rcases mem_page_or_behind hlimit (hnodup n) hrow hbehind with hon | ⟨next, hsome, -⟩
          · rwa [List.getLast?_eq_none_iff.mp hnext] at hon
          · rw [hnext] at hsome
            cases hsome
      | some next =>
          rw [hnext] at h
          obtain ⟨rest, hrest, rfl⟩ := Option.map_eq_some_iff.mp h
          obtain ⟨hascending, hread, hall⟩ := ih hrest
          have hpage : (page lt limit (rows n) cursor).Pairwise lt :=
            pairwise_page (hnodup n) cursor
          have hcursor : lt cursor next := (mem_of_mem_page (List.mem_of_getLast? hnext)).2
          refine ⟨List.pairwise_append.mpr ⟨hpage, hascending, fun row hrow later hlater => ?_⟩,
            fun row hrow => ?_, fun row hrow hbehind => ?_⟩
          · -- the rest is behind the last row of this page
            rcases eq_or_lt_of_getLast? hpage hnext hrow with rfl | hlt
            · exact (hread later hlater).1
            · exact trans_of lt hlt (hread later hlater).1
          · rcases List.mem_append.mp hrow with hon | hlater
            · exact ⟨(mem_of_mem_page hon).2, n, (mem_of_mem_page hon).1⟩
            · exact ⟨trans_of lt hcursor (hread row hlater).1, (hread row hlater).2⟩
          · rw [List.mem_append]
            rcases mem_page_or_behind hlimit (hnodup n) hrow hbehind with hon | ⟨other, hother, hlt⟩
            · exact .inl hon
            · rw [hnext, Option.some.injEq] at hother
              exact .inr (hall row (hkept n hrow) (hother ▸ hlt))

/-- Every page that is not empty leaves fewer rows behind the cursor. -/
theorem length_behind_lt {all : List α} {cursor next : α} (hnext : next ∈ all)
    (hbehind : lt cursor next) :
    (all.filter fun row => decide (lt next row)).length <
      (all.filter fun row => decide (lt cursor row)).length := by
  have hfilter : (all.filter fun row => decide (lt next row)) =
      (all.filter fun row => decide (lt cursor row)).filter fun row => decide (lt next row) := by
    rw [List.filter_filter]
    refine List.filter_congr fun row _ => ?_
    by_cases hlt : lt next row
    · simp [hlt, trans_of lt hbehind hlt]
    · simp [hlt]
  rw [hfilter, List.length_filter_lt_length_iff_exists]
  refine ⟨next, List.mem_filter.mpr ⟨hnext, by simpa using hbehind⟩, ?_⟩
  simpa using irrefl_of lt next

/-- The walk ends when all rows ever added are among `all`. -/
theorem exists_collect {all : List α} (hall : ∀ n, rows n ⊆ all) {requests n : ℕ} {cursor : α}
    (hrequests : (all.filter fun row => decide (lt cursor row)).length < requests) :
    ∃ items, collect lt limit rows requests n cursor = some items := by
  induction requests generalizing n cursor with
  | zero => omega
  | succ requests ih =>
      rw [collect]
      cases hnext : (page lt limit (rows n) cursor).getLast? with
      | none => exact ⟨[], rfl⟩
      | some next =>
          obtain ⟨hrow, hbehind⟩ := mem_of_mem_page (List.mem_of_getLast? hnext)
          have hfewer := length_behind_lt (hall n hrow) hbehind
          have hends : ∃ rest, collect lt limit rows requests (n + 1) next = some rest :=
            ih (by omega)
          obtain ⟨rest, hrest⟩ := hends
          exact ⟨_, Option.map_eq_some_iff.mpr ⟨rest, hrest, rfl⟩⟩

end StrictTotal

end Keyset
