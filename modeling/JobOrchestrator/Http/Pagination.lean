import JobOrchestrator.Http.Response
import JobOrchestrator.Library.Keyset

/-!
# The list of graphs, page by page

`GET /v1/dags` and `list_dags`: one page is read by a single statement, which
sees the committed rows of its own moment.  A client follows `next_cursor` until
it is null; between its requests other clients may insert graphs anywhere in the
order.  `followCursor_eq_collect` reduces the walk to `Keyset.collect`.

How the database compares texts is a parameter, of which only the properties in
`Collation` are used.
-/

namespace JobOrchestrator

/-- A comparison of texts: a strict total order with the empty text at the bottom. -/
structure Collation where
  lt : String → String → Prop
  decidable : DecidableRel lt
  strictTotal : IsStrictTotalOrder String lt
  empty_least : ∀ text, text ≠ "" → lt "" text

attribute [instance] Collation.decidable Collation.strictTotal

/-- The comparison by code points. -/
def Collation.codePoints : Collation where
  lt first second := first < second
  decidable := inferInstance
  strictTotal := inferInstance
  empty_least text htext := by
    rw [String.lt_iff_toList_lt]
    cases hcharacters : text.toList with
    | nil => exact absurd (String.toList_eq_nil_iff.mp hcharacters) htext
    | cons c rest => exact List.Lex.nil

/-! ## One request -/

/-- `SELECT id FROM dags WHERE id > COALESCE($1, '') ORDER BY id LIMIT $2` -/
def Database.selectDags (db : Database) (collation : Collation) (after : Option String)
    (limit : ℕ) : List String :=
  ((db.dags.keys.filter fun id => decide (collation.lt (after.getD "") id)).insertionSort
    fun first second => ¬collation.lt second first).take limit

/-- Lists DAG identifiers with keyset pagination and a hard page-size cap. -/
def PostgresStore.listDags (collation : Collation) (db : Database) (after : Option String)
    (limit : ℕ) : Except StoreError (List String) :=
  if ¬(1 ≤ limit ∧ limit ≤ 100) then .error .invalidConfiguration
  else do
    bindTexts after.toList
    .ok (db.selectDags collation after limit)

/-- `default_page_size` -/
def defaultPageSize : ℕ := 25

structure ListQuery where
  after : Option String
  limit : ℕ := defaultPageSize

structure DagPage where
  items : List String
  nextCursor : Option String
deriving DecidableEq

/-- `GET /v1/dags` -/
def listDags (collation : Collation) (db : Database) (query : ListQuery) :
    Except ErrorResponse DagPage :=
  match PostgresStore.listDags collation db query.after query.limit with
  | .error error => .error (ApiError.store error).intoResponse
  | .ok dags => .ok ⟨dags, dags.getLast?⟩

/-- A page that is not named has a size within the cap. -/
theorem defaultPageSize_le : 1 ≤ defaultPageSize ∧ defaultPageSize ≤ 100 := by
  decide

theorem Database.selectDags_eq (db : Database) (collation : Collation) (after : Option String)
    (limit : ℕ) :
    db.selectDags collation after limit =
      Keyset.page collation.lt limit db.dags.keys (after.getD "") := rfl

/-- The cursor is accepted as a parameter of the statement. -/
def bindable (after : Option String) : Bool := after.all fun text => !hasNul text

theorem listDags_ok (collation : Collation) (db : Database) {limit : ℕ}
    (hlimit : 1 ≤ limit ∧ limit ≤ 100) {after : Option String} (hafter : bindable after = true) :
    listDags collation db ⟨after, limit⟩ =
      let items := Keyset.page collation.lt limit db.dags.keys (after.getD "")
      .ok ⟨items, items.getLast?⟩ := by
  have hbind : PostgresStore.bindTexts after.toList = .ok () := by
    cases after with
    | none => rfl
    | some text =>
        have htext : hasNul text = false := by simpa [bindable] using hafter
        simp [PostgresStore.bindTexts, htext]
  have hstore : PostgresStore.listDags collation db after limit =
      .ok (db.selectDags collation after limit) := by
    rw [PostgresStore.listDags, if_neg (not_not.mpr hlimit), hbind]
    rfl
  rw [listDags, hstore, Database.selectDags_eq]

theorem listDags_error (collation : Collation) (db : Database) {query : ListQuery}
    (hlimit : ¬(1 ≤ query.limit ∧ query.limit ≤ 100)) :
    listDags collation db query =
      .error ⟨400, "invalid_request", "request is outside supported limits"⟩ := by
  rw [listDags, PostgresStore.listDags, if_pos hlimit]
  rfl

/-! ## All pages -/

/-- What a client gets that follows the cursor until it is null, where request
`n` is answered from `db n`; `none` if it gives up before that, after `requests`
requests or at an error. -/
def followCursor (collation : Collation) (db : ℕ → Database) (limit : ℕ) :
    ℕ → ℕ → Option String → Option (List String)
  | 0, _, _ => none
  | requests + 1, n, after =>
      match listDags collation (db n) ⟨after, limit⟩ with
      | .error _ => none
      | .ok page =>
          match page.nextCursor with
          | none => some page.items
          | some cursor =>
              (followCursor collation db limit requests (n + 1) (some cursor)).map
                (page.items ++ ·)

/-- The client walks through the rows as `Keyset.collect` does. -/
theorem followCursor_eq_collect (collation : Collation) {db : ℕ → Database} {limit : ℕ}
    (hlimit : 1 ≤ limit ∧ limit ≤ 100) (hids : ∀ n, ∀ id ∈ (db n).dags.keys, hasNul id = false)
    (requests n : ℕ) {after : Option String} (hafter : bindable after = true) :
    followCursor collation db limit requests n after =
      Keyset.collect collation.lt limit (fun k => (db k).dags.keys) requests n
        (after.getD "") := by
  induction requests generalizing n after with
  | zero => rfl
  | succ requests ih =>
      rw [followCursor, Keyset.collect, listDags_ok collation (db n) hlimit hafter]
      simp only
      cases hnext : (Keyset.page collation.lt limit (db n).dags.keys (after.getD "")).getLast? with
      | none =>
          rw [List.getLast?_eq_none_iff] at hnext
          simp only [hnext]
      | some cursor =>
          have hrow := (Keyset.mem_of_mem_page (List.mem_of_getLast? hnext)).1
          have hcursor : bindable (some cursor) = true := by
            simp [bindable, hids n cursor hrow]
          simp only [ih (n + 1) hcursor, Option.getD_some]

/-- Following the cursor ends, within one request more than there are graphs in
the end; it gives every graph that was there at the first request exactly once,
and no graph twice, in ascending order, whatever is inserted between the requests.
The stored identifiers are texts: not empty, and without the character that no
`TEXT` can hold. -/
theorem follow_cursor_exact (collation : Collation) {db : ℕ → Database} {limit : ℕ}
    (hlimit : 1 ≤ limit ∧ limit ≤ 100)
    (hids : ∀ n, ∀ id ∈ (db n).dags.keys, id ≠ "" ∧ hasNul id = false)
    (hkept : ∀ n, (db n).dags.keys ⊆ (db (n + 1)).dags.keys) {last : ℕ}
    (hlast : ∀ n, last ≤ n → (db n).dags.keys ⊆ (db last).dags.keys) :
    ∃ items, (∀ requests, (db last).dags.keys.length < requests →
        followCursor collation db limit requests 0 none = some items) ∧
      items.Pairwise collation.lt ∧
      (∀ id ∈ (db 0).dags.keys, items.count id = 1) ∧
      (∀ id, items.count id ≤ 1) ∧
      (∀ id ∈ items, ∃ n, id ∈ (db n).dags.keys) ∧
      ((∀ n, (db n).dags.keys ⊆ (db 0).dags.keys) → items.Perm (db 0).dags.keys) := by
  -- every request sees graphs of the last state only, which bounds the number of pages
  have hall : ∀ n, (db n).dags.keys ⊆ (db last).dags.keys := by
    intro n
    rcases Nat.le_total last n with hle | hle
    · exact hlast n hle
    · exact Nat.le_induction (fun _ h => h) (fun k _ ih id hid => hkept k (ih hid)) last hle
  have hkeys : ∀ n, (db n).dags.keys.Nodup := fun n => (db n).dags.nodupKeys
  have hcollect : ∀ requests, followCursor collation db limit requests 0 none =
      Keyset.collect collation.lt limit (fun k => (db k).dags.keys) requests 0 "" :=
    fun requests => followCursor_eq_collect collation hlimit (fun n id hid => (hids n id hid).2)
      requests 0 rfl
  have hends : ∃ items, Keyset.collect collation.lt limit (fun k => (db k).dags.keys)
      ((db last).dags.keys.length + 1) 0 "" = some items := by
    apply Keyset.exists_collect hall
    exact Nat.lt_succ_of_le (List.length_filter_le _ _)
  obtain ⟨items, hitems⟩ := hends
  obtain ⟨hascending, hread, hcomplete⟩ :=
    Keyset.collect_spec hlimit.1 hkeys hkept hitems
  have hnodup : items.Nodup := by
    refine hascending.imp ?_
    rintro id other hlt rfl
    exact irrefl_of collation.lt id hlt
  -- without a cursor the walk starts behind the empty text
  have hfirst : ∀ id ∈ (db 0).dags.keys, id ∈ items :=
    fun id hid => hcomplete id hid (collation.empty_least id (hids 0 id hid).1)
  refine ⟨items, fun requests hrequests => ?_, hascending, fun id hid => ?_,
    List.nodup_iff_count_le_one.mp hnodup, fun id hid => (hread id hid).2, fun hsame => ?_⟩
  · rw [hcollect]
    exact Keyset.collect_of_le hitems hrequests
  · exact List.count_eq_one_of_mem hnodup (hfirst id hid)
  · rw [List.perm_ext_iff_of_nodup hnodup (hkeys 0)]
    intro id
    constructor
    · intro hid
      obtain ⟨n, hn⟩ := (hread id hid).2
      exact hsame n hn
    · exact hfirst id

/-- Two graphs at the first request, and five from the second one on. -/
def growingDatabase : ℕ → Database
  | 0 => { Database.empty with
      dags := ⟨[("d", .running), ("b", .cancelled)], by decide⟩ }
  | _ + 1 => { Database.empty with
      dags := ⟨[("d", .running), ("b", .cancelled), ("e", .running), ("a", .running),
        ("c", .running)], by decide⟩ }

/-- Of the graphs inserted after the first page, the one in front of the cursor is not returned. -/
theorem follow_cursor_exact_growing : ∃ items,
    followCursor .codePoints growingDatabase 1 6 0 none = some items ∧
      items = ["b", "c", "d", "e"] ∧ (∀ id ∈ ["d", "b"], items.count id = 1) ∧
      items.Pairwise (· < ·) := by
  have hids : ∀ n, ∀ id ∈ (growingDatabase n).dags.keys, id ≠ "" ∧ hasNul id = false := by
    intro n
    cases n with
    | zero => decide
    | succ n =>
        exact (by decide : ∀ id ∈ (growingDatabase 1).dags.keys, id ≠ "" ∧ hasNul id = false)
  have hkept : ∀ n, (growingDatabase n).dags.keys ⊆ (growingDatabase (n + 1)).dags.keys := by
    intro n
    cases n with
    | zero => exact (by decide : (growingDatabase 0).dags.keys ⊆ (growingDatabase 1).dags.keys)
    | succ n => exact fun id hid => hid
  have hlast : ∀ n, 1 ≤ n → (growingDatabase n).dags.keys ⊆ (growingDatabase 1).dags.keys := by
    intro n hn
    obtain ⟨k, rfl⟩ : ∃ k, n = k + 1 := ⟨n - 1, by omega⟩
    exact fun id hid => hid
  obtain ⟨items, hends, hascending, hfirst, -⟩ :=
    follow_cursor_exact .codePoints (by decide : 1 ≤ 1 ∧ 1 ≤ 100) hids hkept hlast
  have hitems : followCursor .codePoints growingDatabase 1 6 0 none = some items :=
    hends 6 (by decide)
  have hrun : followCursor .codePoints growingDatabase 1 6 0 none = some ["b", "c", "d", "e"] := by
    decide
  refine ⟨items, hitems, ?_, hfirst, hascending⟩
  exact Option.some.inj (hitems.symm.trans hrun)

end JobOrchestrator
