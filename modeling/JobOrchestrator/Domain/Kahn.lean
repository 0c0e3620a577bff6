import JobOrchestrator.Domain.Spec
import JobOrchestrator.Library.Digraph

/-!
# What an accepted graph satisfies

`accepted_of_validate`: the list returned by `DagSpec::validate` is a topological
order of the submitted edges and a permutation of the job identifiers.  The proof
follows the code: `checkJobs_ok` and `linkEdges_ok` say what the two passes leave in
the maps, `consumeEdges_get?` and `mem_consumeEdges` what the inner loop does to them,
and `KahnInvariant` is what holds at the head of every iteration of the outer loop.
-/

namespace JobOrchestrator

open Digraph

theorem except_bind_eq_ok {ε α β : Type} {first : Except ε α} {next : α → Except ε β} {b : β} :
    (first >>= next) = .ok b ↔ ∃ a, first = .ok a ∧ next a = .ok b := by
  cases first with
  | error e => exact ⟨fun h => (nomatch h), fun ⟨_, h, _⟩ => (nomatch h)⟩
  | ok a => exact ⟨fun h => ⟨a, rfl, h⟩, fun ⟨_, h, hb⟩ => by cases h; exact hb⟩

/-! ## The two passes -/

/-- The checks that every job of an accepted graph has passed. -/
structure JobSpec.Valid (job : JobSpec) : Prop where
  identifier : validateIdentifier job.id maxJobIdBytes = .ok ()
  payload : job.kind.validatePayload job.payload = .ok ()
  attempts_pos : 0 < job.maxAttempts
  attempts_le : job.maxAttempts ≤ 20
  priority_ge : -100 ≤ job.priority
  priority_le : job.priority ≤ 100

/-- An accepted pass over the jobs enters every identifier once, with in-degree zero. -/
theorem checkJobs_ok {jobs : List JobSpec} {indegree checked : Table String ℕ}
    (h : checkJobs jobs indegree = .ok checked) :
    (∀ job ∈ jobs, job.Valid) ∧ checked.keys = indegree.keys ++ jobs.map JobSpec.id ∧
      ∀ key, checked.get? key =
        if key ∈ jobs.map JobSpec.id then some 0 else indegree.get? key := by
  induction jobs generalizing indegree with
  | nil =>
      simp only [checkJobs, Except.ok.injEq] at h
      subst h
      simp
  | cons job rest ih =>
      simp only [checkJobs, except_bind_eq_ok] at h
      obtain ⟨_, hidentifier, _, hpayload, h⟩ := h
      split at h
      · cases h
      next hpolicy =>
        split at h
        · cases h
        next hnew =>
          obtain ⟨hvalid, hkeys, hget⟩ := ih h
          have habsent : indegree.get? job.id = none := Table.not_contains_iff.mp hnew
          refine ⟨?_, ?_, ?_⟩
          · refine List.forall_mem_cons.mpr ⟨⟨hidentifier, hpayload, ?_, ?_, ?_, ?_⟩, hvalid⟩ <;>
              omega
          · rw [hkeys, Table.keys_insert_of_get?_eq_none _ _ habsent]
            simp
          · intro key
            rw [hget, Table.get?_insert]
            by_cases hrest : key ∈ rest.map JobSpec.id
            · simp only [List.map_cons, List.mem_cons, hrest, if_true, or_true]
            · by_cases hkey : key = job.id <;> simp [hrest, hkey]

@[simp] theorem listAt_empty (key : String) : listAt .empty key = [] := rfl

theorem listAt_pushAt (table : Table String (List String)) (key value other : String) :
    listAt (pushAt table key value) other =
      if other = key then listAt table other ++ [value] else listAt table other := by
  unfold pushAt
  rw [listAt, Table.get?_insert]
  split
  · next hother =>
    subst hother
    rfl
  · rfl

/-- The targets of the edges out of a job, in the order of the submission. -/
def childrenOf (edges : List (String × String)) (id : String) : List String :=
  (edges.filter fun edge => edge.1 == id).map Prod.snd

theorem count_childrenOf (edges : List (String × String)) (id child : String) :
    (childrenOf edges id).count child = edges.count (id, child) := by
  unfold childrenOf
  induction edges with
  | nil => rfl
  | cons edge rest ih =>
      obtain ⟨source, target⟩ := edge
      by_cases hsource : source = id
      · subst hsource
        simpa [List.count_cons] using ih
      · simpa [List.count_cons, hsource] using ih

theorem mem_childrenOf {edges : List (String × String)} {id child : String} :
    child ∈ childrenOf edges id ↔ (id, child) ∈ edges := by
  simp [childrenOf]

/-- What an accepted pass over the edges leaves in the two maps. -/
structure Linked (dependencies : List Dependency) (indegree linked : Table String ℕ)
    (outgoing links : Table String (List String)) : Prop where
  endpoints : ∀ edge ∈ dependencies, edge.fromId ≠ edge.toId ∧
    edge.fromId ∈ indegree.keys ∧ edge.toId ∈ indegree.keys
  keys : linked.keys = indegree.keys
  get? : ∀ key, linked.get? key =
    (indegree.get? key).map (· + dependencies.countP fun edge => edge.toId == key)
  listAt : ∀ key, listAt links key = listAt outgoing key ++
    childrenOf (dependencies.map fun edge => (edge.fromId, edge.toId)) key

theorem linkEdges_ok {dependencies : List Dependency} {indegree linked : Table String ℕ}
    {outgoing links : Table String (List String)}
    (h : linkEdges dependencies indegree outgoing = .ok (linked, links)) :
    Linked dependencies indegree linked outgoing links := by
  induction dependencies generalizing indegree outgoing with
  | nil =>
      simp only [linkEdges, Except.ok.injEq, Prod.mk.injEq] at h
      obtain ⟨rfl, rfl⟩ := h
      exact ⟨by simp, rfl, by simp, by simp [childrenOf]⟩
  | cons edge rest ih =>
      simp only [linkEdges] at h
      split at h
      · cases h
      next hself =>
        split at h
        · cases h
        next hsource =>
          cases htarget : indegree.get? edge.toId with
          | none => simp [htarget] at h
          | some targetDegree =>
              simp only [htarget] at h
              have hkeys : (indegree.insert edge.toId (targetDegree + 1)).keys = indegree.keys := by
                unfold Table.insert
                rw [dif_pos (Table.mem_keys.mpr ⟨_, htarget⟩), Table.keys_modify]
              -- the rest is linked from the counters that this edge leaves
              have linked := ih h
              have hfrom : edge.fromId ∈ indegree.keys :=
                Table.contains_iff.mp (by simpa using hsource)
              refine ⟨?_, linked.keys.trans hkeys, ?_, ?_⟩
              · refine List.forall_mem_cons.mpr
                  ⟨⟨hself, hfrom, Table.mem_keys.mpr ⟨_, htarget⟩⟩, ?_⟩
                simpa only [hkeys] using linked.endpoints
              · intro key
                rw [linked.get?, Table.get?_insert, List.countP_cons]
                by_cases hkey : key = edge.toId
                · subst hkey
                  simp [htarget]
                  omega
                · simp [hkey, Ne.symm hkey]
              · intro key
                rw [linked.listAt, listAt_pushAt]
                by_cases hkey : key = edge.fromId
                · subst hkey
                  simp [childrenOf]
                · simp [childrenOf, hkey, Ne.symm hkey]

/-! ## The inner loop -/

theorem decrement_succ (count : ℕ) : decrement (count + 1) = count := by
  simp [decrement]

/-- The first of the edges to children with covering counters is decremented
from a positive counter, and the rest is covered afterwards. -/
theorem cover_tail {child : String} {rest : List String} {indegree : Table String ℕ}
    (hcover : ∀ key ∈ child :: rest,
      ∃ n, indegree.get? key = some n ∧ (child :: rest).count key ≤ n) :
    ∃ left, indegree.get? child = some (left + 1) ∧ rest.count child ≤ left ∧
      ∀ key ∈ rest, ∃ n, (indegree.insert child left).get? key = some n ∧ rest.count key ≤ n := by
  obtain ⟨n, hn, hle⟩ := hcover child List.mem_cons_self
  rw [List.count_cons_self] at hle
  obtain ⟨left, rfl⟩ : ∃ left, n = left + 1 := ⟨n - 1, by omega⟩
  refine ⟨left, hn, by omega, fun other hother => ?_⟩
  by_cases hsame : other = child
  · subst hsame
    exact ⟨left, by simp, by omega⟩
  · obtain ⟨m, hm, hcount⟩ := hcover other (List.mem_cons_of_mem _ hother)
    rw [List.count_cons_of_ne (Ne.symm hsame)] at hcount
    exact ⟨m, by rw [Table.get?_insert_of_ne _ _ hsame, hm], hcount⟩

theorem consumeEdges_get? (children : List String) (indegree : Table String ℕ)
    (newlyReady : List String)
    (hcover : ∀ key ∈ children, ∃ n, indegree.get? key = some n ∧ children.count key ≤ n)
    (key : String) :
    (consumeEdges children indegree newlyReady).1.get? key =
      (indegree.get? key).map (· - children.count key) := by
  induction children generalizing indegree newlyReady with
  | nil => simp [consumeEdges]
  | cons child rest ih =>
      obtain ⟨left, hn, -, hcover'⟩ := cover_tail hcover
      simp only [consumeEdges, hn, decrement_succ]
      rw [ih _ _ hcover', Table.get?_insert, List.count_cons]
      by_cases hkey : key = child
      · subst hkey
        simp [hn]
      · simp [hkey, Ne.symm hkey]

/-- The inner loop collects, each once, the children whose last open edge it consumes. -/
theorem mem_consumeEdges (children : List String) (indegree : Table String ℕ)
    (newlyReady : List String)
    (hcover : ∀ key ∈ children, ∃ n, indegree.get? key = some n ∧ children.count key ≤ n)
    (hnodup : newlyReady.Nodup) (hzero : ∀ key ∈ newlyReady, indegree.get? key = some 0) :
    (consumeEdges children indegree newlyReady).2.Nodup ∧
      ∀ key, key ∈ (consumeEdges children indegree newlyReady).2 ↔
        key ∈ newlyReady ∨ key ∈ children ∧ indegree.get? key = some (children.count key) := by
  induction children generalizing indegree newlyReady with
  | nil => simpa [consumeEdges] using hnodup
  | cons child rest ih =>
      obtain ⟨left, hn, hle, hcover'⟩ := cover_tail hcover
      have hchildNew : child ∉ newlyReady := fun hmem => by
        have := hzero child hmem
        simp [hn] at this
      have hkeep : ∀ key ∈ newlyReady, (indegree.insert child left).get? key = some 0 := by
        intro key hkey
        rw [Table.get?_insert_of_ne _ _ (by rintro rfl; exact hchildNew hkey)]
        exact hzero key hkey
      simp only [consumeEdges, hn, decrement_succ]
      by_cases hleft : left = 0
      · -- this was the last edge to the child, which is collected and does not return
        subst hleft
        have hrest : child ∉ rest := fun hmem => by
          have := List.count_pos_iff.mpr hmem
          omega
        rw [if_pos rfl]
        obtain ⟨hnodup', hmem⟩ := ih (indegree.insert child 0) (newlyReady ++ [child]) hcover'
          (by
            rw [List.nodup_append]
            exact ⟨hnodup, List.nodup_singleton _, fun a ha b hb hab =>
              hchildNew (by rw [List.mem_singleton] at hb; rwa [← hb, ← hab])⟩)
          (by
            intro key hkey
            rcases List.mem_append.mp hkey with hold | hnew
            · exact hkeep key hold
            · rw [List.mem_singleton.mp hnew, Table.get?_insert_self])
        refine ⟨hnodup', fun key => ?_⟩
        rw [hmem, List.mem_append, List.mem_singleton, List.mem_cons, List.count_cons]
        by_cases hkey : key = child
        · subst hkey
          simp [hn, List.count_eq_zero_of_not_mem hrest]
        · simp [hkey, Ne.symm hkey, Table.get?_insert_of_ne]
      · rw [if_neg hleft]
        obtain ⟨hnodup', hmem⟩ := ih (indegree.insert child left) newlyReady hcover' hnodup hkeep
        refine ⟨hnodup', fun key => ?_⟩
        rw [hmem, List.mem_cons, List.count_cons]
        by_cases hkey : key = child
        · subst hkey
          simp only [Table.get?_insert_self, Option.some.injEq, hn, beq_self_eq_true, if_true]
          constructor
          · rintro (hold | ⟨hrest, hcount⟩)
            · exact .inl hold
            · exact .inr ⟨.inl trivial, by omega⟩
          · rintro (hold | ⟨_, hcount⟩)
            · exact .inl hold
            · refine .inr ⟨List.count_pos_iff.mp (by omega), by omega⟩
        · simp [hkey, Ne.symm hkey, Table.get?_insert_of_ne]

theorem sortIds_perm (ids : List String) : (sortIds ids).Perm ids :=
  List.perm_insertionSort _ ids

/-! ## The outer loop -/

/-- What holds at the head of every iteration: a job's counter is the number of
its incoming edges whose source has not been popped, and the queued and popped
jobs are exactly those whose counter is zero, each once. -/
structure KahnInvariant (edges : List (String × String)) (ids : List String)
    (state : KahnState) : Prop where
  nodup : (state.order ++ state.queue).Nodup
  subset : ∀ id ∈ state.order ++ state.queue, id ∈ ids
  indegree : ∀ id ∈ ids, state.indegree.get? id =
    some (openInDegree edges (fun a => decide (a ∉ state.order)) id)
  listed_iff : ∀ id ∈ ids, id ∈ state.order ++ state.queue ↔
    openInDegree edges (fun a => decide (a ∉ state.order)) id = 0
  sources_before : ∀ before b after, state.order = before ++ b :: after →
    ∀ a, (a, b) ∈ edges → a ∈ before

theorem KahnInvariant.close {edges : List (String × String)} {ids : List String}
    {outgoing : Table String (List String)} {state : KahnState}
    (hinv : KahnInvariant edges ids state)
    (hlinks : ∀ id, listAt outgoing id = childrenOf edges id) {id : String} {rest : List String}
    (hqueue : state.queue = id :: rest) (b : String) :
    openInDegree edges (fun a => decide (a ∉ state.order ++ [id])) b +
        (listAt outgoing id).count b =
      openInDegree edges (fun a => decide (a ∉ state.order)) b := by
  have hfresh : id ∉ state.order := by
    have hnodup := hinv.nodup
    rw [hqueue, List.nodup_append] at hnodup
    exact fun hmem => hnodup.2.2 id hmem id List.mem_cons_self rfl
  rw [hlinks, count_childrenOf]
  refine openInDegree_close edges (by simpa using hfresh) (by simp) ?_ b
  intro a ha
  simp [ha]

/-- The counters of the children of the front cover the edges that it has to them. -/
theorem KahnInvariant.cover {edges : List (String × String)} {ids : List String}
    {outgoing : Table String (List String)} {state : KahnState}
    (hinv : KahnInvariant edges ids state)
    (hlinks : ∀ id, listAt outgoing id = childrenOf edges id)
    (htargets : ∀ edge ∈ edges, edge.2 ∈ ids) {id : String} {rest : List String}
    (hqueue : state.queue = id :: rest) : ∀ key ∈ listAt outgoing id,
      ∃ n, state.indegree.get? key = some n ∧ (listAt outgoing id).count key ≤ n := by
  intro key hkey
  have hkeyIds : key ∈ ids := htargets (id, key) (mem_childrenOf.mp (hlinks id ▸ hkey))
  have hclose := hinv.close hlinks hqueue key
  exact ⟨_, hinv.indegree key hkeyIds, by omega⟩

theorem KahnInvariant.popFront {edges : List (String × String)} {ids : List String}
    {outgoing : Table String (List String)} {state next : KahnState}
    (hinv : KahnInvariant edges ids state)
    (hlinks : ∀ id, listAt outgoing id = childrenOf edges id)
    (htargets : ∀ edge ∈ edges, edge.2 ∈ ids)
    (hpop : state.popFront outgoing = some next) :
    KahnInvariant edges ids next ∧ next.order.length = state.order.length + 1 := by
  unfold KahnState.popFront at hpop
  cases hqueue : state.queue with
  | nil => simp [hqueue] at hpop
  | cons id rest =>
      simp only [hqueue, Option.some.injEq] at hpop
      have hid : id ∈ state.order ++ state.queue := by simp [hqueue]
      have hidIds : id ∈ ids := hinv.subset id hid
      have hclose := hinv.close hlinks hqueue
      have hcover := hinv.cover hlinks htargets hqueue
      have hget := consumeEdges_get? (listAt outgoing id) state.indegree [] hcover
      obtain ⟨hnewNodup, hnew⟩ :=
        mem_consumeEdges (listAt outgoing id) state.indegree [] hcover List.nodup_nil (by simp)
      generalize consumeEdges (listAt outgoing id) state.indegree [] = consumed at *
      subst hpop
      -- a newly ready job had open edges before and has none now
      have hnewIff : ∀ key ∈ ids, key ∈ consumed.2 ↔
          0 < openInDegree edges (fun a => decide (a ∉ state.order)) key ∧
            openInDegree edges (fun a => decide (a ∉ state.order ++ [id])) key = 0 := by
        intro key hkey
        have hsum := hclose key
        simp only [hnew, List.not_mem_nil, false_or]
        rw [hinv.indegree key hkey, Option.some.injEq, ← List.count_pos_iff]
        omega
      have hnewIds : ∀ key ∈ consumed.2, key ∈ ids := by
        intro key hkey
        have hchild : key ∈ listAt outgoing id := by
          have := (hnew key).mp hkey
          simp only [List.not_mem_nil, false_or] at this
          exact this.1
        exact htargets (id, key) (mem_childrenOf.mp (hlinks id ▸ hchild))
      have hperm : (state.order ++ [id] ++ (rest ++ sortIds consumed.2)).Perm
          (state.order ++ state.queue ++ consumed.2) := by
        rw [hqueue]
        simpa using ((sortIds_perm consumed.2).append_left rest).cons id |>.append_left state.order
      have hnotNew : ∀ key ∈ state.order ++ state.queue, key ∉ consumed.2 := by
        intro key hkey hmem
        have hzero := (hinv.listed_iff key (hinv.subset key hkey)).mp hkey
        have := ((hnewIff key (hinv.subset key hkey)).mp hmem).1
        omega
      have hlistedMem : ∀ key, key ∈ state.order ++ [id] ++ (rest ++ sortIds consumed.2) ↔
          key ∈ state.order ++ state.queue ∨ key ∈ consumed.2 := by
        intro key
        rw [hperm.mem_iff, List.mem_append]
      refine ⟨⟨?_, ?_, ?_, ?_, ?_⟩, by simp⟩
      · rw [hperm.nodup_iff, List.nodup_append]
        exact ⟨hinv.nodup, hnewNodup, fun a ha b hb hab => hnotNew a ha (hab ▸ hb)⟩
      · intro key hkey
        rcases (hlistedMem key).mp hkey with hold | hmem
        · exact hinv.subset key hold
        · exact hnewIds key hmem
      · intro key hkey
        rw [hget, hinv.indegree key hkey, Option.map_some, ← hclose key, Nat.add_sub_cancel]
      · intro key hkey
        have hsum := hclose key
        rw [hlistedMem, hinv.listed_iff key hkey, hnewIff key hkey]
        simp only
        omega
      · intro before b after hsplit a hedge
        rcases List.split_append_singleton hsplit with ⟨rfl, rfl, -⟩ | ⟨shorter, hsplit⟩
        · -- `b` is the popped job: all its sources were popped before
          have hzero := (hinv.listed_iff id hidIds).mp hid
          simpa using openInDegree_eq_zero_iff.mp hzero a hedge
        · exact hinv.sources_before before b shorter hsplit a hedge

theorem KahnInvariant.kahnLoop {edges : List (String × String)} {ids : List String}
    {outgoing : Table String (List String)}
    (hlinks : ∀ id, listAt outgoing id = childrenOf edges id)
    (htargets : ∀ edge ∈ edges, edge.2 ∈ ids) (fuel : ℕ) {state : KahnState}
    (hinv : KahnInvariant edges ids state) :
    KahnInvariant edges ids (JobOrchestrator.kahnLoop outgoing fuel state) := by
  induction fuel generalizing state with
  | zero => exact hinv
  | succ fuel ih =>
      rw [JobOrchestrator.kahnLoop]
      cases hpop : state.popFront outgoing with
      | none => exact hinv
      | some next => exact ih (hinv.popFront hlinks htargets hpop).1

theorem mem_zeroIds {indegree : Table String ℕ} {id : String} :
    id ∈ zeroIds indegree ↔ indegree.get? id = some 0 := by
  simp [zeroIds, ← Table.mem_entries]

theorem nodup_zeroIds (indegree : Table String ℕ) : (zeroIds indegree).Nodup := by
  have hsub : (zeroIds indegree).Sublist indegree.keys := by
    unfold zeroIds Table.keys
    induction indegree.entries with
    | nil => simp
    | cons entry rest ih =>
        by_cases hzero : entry.2 = 0
        · simpa [hzero] using ih
        · simpa [hzero] using ih.cons entry.1
  exact hsub.nodup indegree.nodupKeys

/-! ## Submissions that reach the loop -/

/-- The submission has passed everything in front of the loop, and the two
passes have left these maps. -/
structure DagSpec.ReachesLoop (spec : DagSpec) (indegree : Table String ℕ)
    (outgoing : Table String (List String)) : Prop where
  identifier : validateIdentifier spec.id maxDagIdBytes = .ok ()
  job_count : ¬(spec.jobs.isEmpty ∨ maxJobsPerDag < spec.jobs.length)
  dependency_count : ¬maxDependenciesPerDag < spec.dependencies.length
  passes : ∃ checked, checkJobs spec.jobs .empty = .ok checked ∧
    linkEdges spec.dependencies checked .empty = .ok (indegree, outgoing)

theorem DagSpec.exists_reachesLoop {spec : DagSpec} {order : List String}
    (h : spec.validate = .ok order) : ∃ indegree outgoing, spec.ReachesLoop indegree outgoing := by
  simp only [DagSpec.validate, except_bind_eq_ok] at h
  obtain ⟨_, hidentifier, h⟩ := h
  split at h
  · cases h
  next hjobs =>
    split at h
    · cases h
    next hdependencies =>
      simp only [except_bind_eq_ok] at h
      obtain ⟨checked, hchecked, ⟨indegree, outgoing⟩, hlinked, -⟩ := h
      exact ⟨indegree, outgoing, hidentifier, hjobs, hdependencies, checked, hchecked, hlinked⟩

/-- `validate` goes by the order that the loop leaves. -/
theorem DagSpec.ReachesLoop.validate_eq {spec : DagSpec} {indegree : Table String ℕ}
    {outgoing : Table String (List String)} (h : spec.ReachesLoop indegree outgoing) :
    spec.validate =
      let final := kahnLoop outgoing spec.jobs.length (initialKahnState indegree)
      if final.order.length ≠ spec.jobs.length then .error .cycle else .ok final.order := by
  obtain ⟨checked, hchecked, hlinked⟩ := h.passes
  rw [DagSpec.validate, h.identifier]
  show (if _ then _ else _) = _
  rw [if_neg h.job_count, if_neg h.dependency_count, hchecked]
  show (linkEdges spec.dependencies checked .empty >>= _) = _
  rw [hlinked]
  rfl

theorem initial_kahnInvariant {spec : DagSpec} {indegree linked : Table String ℕ}
    {outgoing links : Table String (List String)}
    (hzero : ∀ id ∈ spec.jobIds, indegree.get? id = some 0)
    (hkeys : indegree.keys = spec.jobIds)
    (hlinked : Linked spec.dependencies indegree linked outgoing links) :
    KahnInvariant spec.edges spec.jobIds (initialKahnState linked) := by
  have hget : ∀ id ∈ spec.jobIds, linked.get? id =
      some (openInDegree spec.edges (fun a => decide (a ∉ ([] : List String))) id) := by
    intro id hid
    rw [hlinked.get?, hzero id hid, Option.map_some, Nat.zero_add, openInDegree, DagSpec.edges,
      List.countP_map]
    congr 2
    funext edge
    simp
  have hmem : ∀ id, id ∈ sortIds (zeroIds linked) ↔ linked.get? id = some 0 := fun id => by
    rw [(sortIds_perm _).mem_iff, mem_zeroIds]
  refine ⟨?_, ?_, hget, ?_, ?_⟩
  · simpa [initialKahnState] using (sortIds_perm _).nodup_iff.mpr (nodup_zeroIds linked)
  · intro id hid
    rw [← hkeys, ← hlinked.keys, Table.mem_keys]
    exact ⟨0, (hmem id).mp (by simpa [initialKahnState] using hid)⟩
  · intro id hid
    rw [initialKahnState, List.nil_append, hmem, hget id hid, Option.some.injEq]
  · intro before b after hsplit
    simp [initialKahnState] at hsplit

/-- The edges of a submission that reaches the loop connect its jobs, and the
maps are as Kahn's invariant needs them. -/
theorem DagSpec.ReachesLoop.start {spec : DagSpec} {indegree : Table String ℕ}
    {outgoing : Table String (List String)} (h : spec.ReachesLoop indegree outgoing) :
    KahnInvariant spec.edges spec.jobIds (initialKahnState indegree) ∧
      (∀ id, listAt outgoing id = childrenOf spec.edges id) ∧ spec.jobIds.Nodup ∧
      ∀ edge ∈ spec.edges, edge.1 ∈ spec.jobIds ∧ edge.2 ∈ spec.jobIds := by
  obtain ⟨checked, hchecked, hlinked⟩ := h.passes
  obtain ⟨-, hkeys, hget⟩ := checkJobs_ok hchecked
  have hkeys : checked.keys = spec.jobIds := hkeys
  have hlinked := linkEdges_ok hlinked
  have hzero : ∀ id ∈ spec.jobIds, checked.get? id = some 0 := by
    intro id hid
    rw [hget]
    exact if_pos hid
  refine ⟨initial_kahnInvariant hzero hkeys hlinked, hlinked.listAt, hkeys ▸ checked.nodupKeys, ?_⟩
  intro edge hedge
  obtain ⟨dependency, hdependency, rfl⟩ := List.mem_map.mp hedge
  rw [← hkeys]
  exact (hlinked.endpoints dependency hdependency).2

/-! ## Accepted graphs -/

/-- The parts of a successful validation. -/
structure Accepted (spec : DagSpec) (order : List String) : Prop where
  identifier : validateIdentifier spec.id maxDagIdBytes = .ok ()
  jobs_ne_nil : spec.jobs ≠ []
  jobs_le : spec.jobs.length ≤ maxJobsPerDag
  dependencies_le : spec.dependencies.length ≤ maxDependenciesPerDag
  jobs_valid : ∀ job ∈ spec.jobs, job.Valid
  jobIds_nodup : spec.jobIds.Nodup
  endpoints : ∀ edge ∈ spec.dependencies, edge.fromId ≠ edge.toId ∧
    edge.fromId ∈ spec.jobIds ∧ edge.toId ∈ spec.jobIds
  topological : TopologicalOrder spec.edges order
  order_perm : order.Perm spec.jobIds

/-- An accepted graph has passed every check, and the returned list is a
topological order of all its jobs. -/
theorem accepted_of_validate {spec : DagSpec} {order : List String}
    (h : spec.validate = .ok order) : Accepted spec order := by
  obtain ⟨indegree, outgoing, hreaches⟩ := DagSpec.exists_reachesLoop h
  obtain ⟨hstart, hlinks, hnodup, hendpoints⟩ := hreaches.start
  rw [hreaches.validate_eq] at h
  simp only [ne_eq, ite_not] at h
  split at h
  next hlength =>
    simp only [Except.ok.injEq] at h
    have hinv := hstart.kahnLoop hlinks (fun edge hedge => (hendpoints edge hedge).2)
      spec.jobs.length
    have horderNodup : order.Nodup := h ▸ (List.nodup_append.mp hinv.nodup).1
    have hsubset : order ⊆ spec.jobIds := fun id hid =>
      hinv.subset id (List.mem_append_left _ (by rwa [h]))
    obtain ⟨hidentifier, hjobs, hdependencies, checked, hchecked, hlinked⟩ := hreaches
    obtain ⟨hvalid, hkeys, -⟩ := checkJobs_ok hchecked
    have hkeys : checked.keys = spec.jobIds := hkeys
    rw [not_or, not_lt] at hjobs
    exact {
      identifier := hidentifier
      jobs_ne_nil := fun hnil => hjobs.1 (List.isEmpty_iff.mpr hnil)
      jobs_le := hjobs.2
      dependencies_le := not_lt.mp hdependencies
      jobs_valid := hvalid
      jobIds_nodup := hnodup
      endpoints := hkeys ▸ (linkEdges_ok hlinked).endpoints
      topological := ⟨horderNodup, h ▸ hinv.sources_before⟩
      order_perm := (List.subperm_of_subset horderNodup hsubset).perm_of_length_le
        (by simp [← h, hlength, DagSpec.jobIds]) }
  · cases h

end JobOrchestrator
