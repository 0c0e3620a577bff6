import JobOrchestrator.Domain.Validation

/-!
# Kahn's loop on any submission

`Domain/Kahn.lean` and `Domain/Validation.lean` follow the loop where the graph
is accepted.  Here it is followed on every submission that reaches it, with
cycles and repeated edges: what is put into the queue, which edges are consumed,
which counters are decremented, and what is left when the queue is empty.

The state at the head of the iteration with number `n` is
`kahnLoop outgoing n start`; a loop that has ended stays where it is.
-/

namespace JobOrchestrator

open Digraph

/-! ## What an iteration does -/

namespace KahnState

/-- The identifiers that the next iteration puts into the queue. -/
def enqueued (outgoing : Table String (List String)) (state : KahnState) : List String :=
  match state.queue with
  | [] => []
  | id :: _ => sortIds (consumeEdges (listAt outgoing id) state.indegree []).2

/-- The edges that the inner loop of the next iteration runs through. -/
def consumed (outgoing : Table String (List String)) (state : KahnState) :
    List (String × String) :=
  match state.queue with
  | [] => []
  | id :: _ => (listAt outgoing id).map fun child => (id, child)

end KahnState

/-- The inner loop decrements positive counters only. -/
def PositiveCounts : List String → Table String ℕ → Prop
  | [], _ => True
  | child :: rest, indegree =>
      match indegree.get? child with
      | none => PositiveCounts rest indegree
      | some count => 0 < count ∧ PositiveCounts rest (indegree.insert child (decrement count))

theorem kahnLoop_succ (outgoing : Table String (List String)) (n : ℕ) (start : KahnState) :
    kahnLoop outgoing (n + 1) start =
      ((kahnLoop outgoing n start).popFront outgoing).getD (kahnLoop outgoing n start) := by
  induction n generalizing start with
  | zero =>
      rw [kahnLoop]
      cases hpop : start.popFront outgoing with
      | none => simp [kahnLoop, hpop]
      | some next => simp [kahnLoop, hpop]
  | succ n ih =>
      rw [kahnLoop]
      cases hpop : start.popFront outgoing with
      | none => simp [kahnLoop, hpop]
      | some next =>
          show kahnLoop outgoing (n + 1) next = _
          rw [ih next]
          simp [kahnLoop, hpop]

/-- An iteration moves the front of the queue to the order, puts the newly ready
jobs into the queue, and has consumed the edges of the front. -/
theorem kahnLoop_step (outgoing : Table String (List String)) (n : ℕ) (start : KahnState) :
    (kahnLoop outgoing (n + 1) start).order ++ (kahnLoop outgoing (n + 1) start).queue =
        (kahnLoop outgoing n start).order ++ (kahnLoop outgoing n start).queue ++
          (kahnLoop outgoing n start).enqueued outgoing ∧
      ((kahnLoop outgoing (n + 1) start).order.flatMap fun id =>
          (listAt outgoing id).map fun child => (id, child)) =
        ((kahnLoop outgoing n start).order.flatMap fun id =>
          (listAt outgoing id).map fun child => (id, child)) ++
            (kahnLoop outgoing n start).consumed outgoing := by
  rw [kahnLoop_succ]
  generalize kahnLoop outgoing n start = state
  unfold KahnState.popFront KahnState.enqueued KahnState.consumed
  cases hqueue : state.queue with
  | nil => simp [hqueue]
  | cons id rest => simp

theorem enqueued_eq (outgoing : Table String (List String)) (start : KahnState) (n : ℕ) :
    start.order ++ start.queue ++ (List.range n).flatMap (fun k =>
        (kahnLoop outgoing k start).enqueued outgoing) =
      (kahnLoop outgoing n start).order ++ (kahnLoop outgoing n start).queue := by
  induction n with
  | zero => simp [kahnLoop]
  | succ n ih =>
      rw [List.range_succ, List.flatMap_append, List.flatMap_singleton, ← List.append_assoc, ih]
      exact (kahnLoop_step outgoing n start).1.symm

theorem consumed_eq (outgoing : Table String (List String)) {start : KahnState}
    (hstart : start.order = []) (n : ℕ) :
    (List.range n).flatMap (fun k => (kahnLoop outgoing k start).consumed outgoing) =
      (kahnLoop outgoing n start).order.flatMap fun id =>
        (listAt outgoing id).map fun child => (id, child) := by
  induction n with
  | zero => simp [kahnLoop, hstart]
  | succ n ih =>
      rw [List.range_succ, List.flatMap_append, List.flatMap_singleton, ih]
      exact (kahnLoop_step outgoing n start).2.symm

theorem positiveCounts_of_cover (children : List String) (indegree : Table String ℕ)
    (hcover : ∀ key ∈ children, ∃ n, indegree.get? key = some n ∧ children.count key ≤ n) :
    PositiveCounts children indegree := by
  induction children generalizing indegree with
  | nil => trivial
  | cons child rest ih =>
      obtain ⟨left, hn, -, hcover'⟩ := cover_tail hcover
      simp only [PositiveCounts, hn, decrement_succ]
      exact ⟨Nat.succ_pos left, ih _ hcover'⟩

theorem edges_of_popped_subperm {edges : List (String × String)} {order : List String}
    (hnodup : order.Nodup) {outgoing : Table String (List String)}
    (hlinks : ∀ id, listAt outgoing id = childrenOf edges id) :
    (order.flatMap fun id => (listAt outgoing id).map fun child => (id, child)).Subperm edges := by
  rw [List.subperm_ext_iff]
  rintro ⟨source, target⟩ -
  have hother : ∀ order : List String, source ∉ order →
      (order.flatMap fun id => (listAt outgoing id).map fun child => (id, child)).count
        (source, target) = 0 := by
    intro order hsource
    rw [List.count_eq_zero]
    intro hmem
    obtain ⟨id, hid, hpair⟩ := List.mem_flatMap.mp hmem
    obtain ⟨child, -, heq⟩ := List.mem_map.mp hpair
    exact hsource ((Prod.mk.inj heq).1 ▸ hid)
  by_cases hsource : source ∈ order
  · -- the source is popped once, and then gives each of its edges
    obtain ⟨before, after, rfl⟩ := List.append_of_mem hsource
    rw [List.nodup_append, List.nodup_cons] at hnodup
    have hbefore : source ∉ before := fun h =>
      hnodup.2.2 source h source List.mem_cons_self rfl
    rw [List.flatMap_append, List.flatMap_cons, List.count_append, List.count_append,
      hother before hbefore, hother after hnodup.2.1.1, Nat.zero_add, Nat.add_zero,
      List.count_map_of_injective _ _ (fun _ _ h => (Prod.mk.inj h).2), hlinks,
      count_childrenOf]
  · rw [hother order hsource]
    exact Nat.zero_le _

/-! ## The loop -/

/-- Every job left unpopped by an empty queue is behind a cycle. -/
theorem KahnInvariant.behindCycle_iff {edges : List (String × String)} {ids : List String}
    {state : KahnState} (hinv : KahnInvariant edges ids state)
    (hsources : ∀ edge ∈ edges, edge.1 ∈ ids) (hempty : state.queue = []) {id : String}
    (hid : id ∈ ids) : id ∉ state.order ↔ BehindCycle edges id := by
  have htopological : TopologicalOrder edges state.order :=
    ⟨(List.nodup_append.mp hinv.nodup).1, hinv.sources_before⟩
  refine ⟨fun hleft => ?_, fun hbehind hpopped => htopological.not_behindCycle hpopped hbehind⟩
  have hmem : ∀ b, b ∈ ids.filter (fun a => decide (a ∉ state.order)) ↔
      b ∈ ids ∧ b ∉ state.order := by
    intro b
    simp
  refine behindCycle_of_sources (fun b hb => ?_) ((hmem id).mpr ⟨hid, hleft⟩)
  obtain ⟨hbIds, hbLeft⟩ := (hmem b).mp hb
  -- an unpopped job is not listed, so that it has an open edge
  have hopen : 0 < openInDegree edges (fun a => decide (a ∉ state.order)) b := by
    apply Nat.pos_of_ne_zero
    intro hzero
    have hlisted := (hinv.listed_iff b hbIds).mpr hzero
    rw [hempty, List.append_nil] at hlisted
    exact hbLeft hlisted
  obtain ⟨a, hedge, ha⟩ := openInDegree_pos_iff.mp hopen
  exact ⟨a, (hmem a).mpr ⟨hsources (a, b) hedge, by simpa using ha⟩, hedge⟩

/-- What holds of the loop on a submission that reaches it. -/
structure KahnLoopSafe (spec : DagSpec) (start : KahnState)
    (outgoing : Table String (List String)) : Prop where
  /-- No identifier is put into the queue twice. -/
  enqueued_once : ∀ n, (start.queue ++ (List.range n).flatMap fun k =>
    (kahnLoop outgoing k start).enqueued outgoing).Nodup
  /-- No edge of the submission is consumed twice. -/
  consumed_once : ∀ n, ((List.range n).flatMap fun k =>
    (kahnLoop outgoing k start).consumed outgoing).Subperm spec.edges
  no_underflow : ∀ n id rest, (kahnLoop outgoing n start).queue = id :: rest →
    PositiveCounts (listAt outgoing id) (kahnLoop outgoing n start).indegree
  /-- A counter is the number of edges from jobs that have not been popped. -/
  counted : ∀ n, ∀ id ∈ spec.jobIds, (kahnLoop outgoing n start).indegree.get? id =
    some (spec.dependencies.countP fun edge =>
      edge.toId == id && decide (edge.fromId ∉ (kahnLoop outgoing n start).order))
  pops_le : ∀ n, (kahnLoop outgoing n start).order.length ≤ spec.jobs.length
  /-- After as many iterations as there are jobs the queue is empty. -/
  ends : (kahnLoop outgoing spec.jobs.length start).queue = []
  unpopped_iff : ∀ id ∈ spec.jobIds,
    id ∉ (kahnLoop outgoing spec.jobs.length start).order ↔ BehindCycle spec.edges id

/-- Kahn's loop is safe and ends on every submission that reaches it, whatever
cycles and repeated edges it has. -/
theorem kahn_loop_safe {spec : DagSpec} {indegree : Table String ℕ}
    {outgoing : Table String (List String)} (h : spec.ReachesLoop indegree outgoing) :
    KahnLoopSafe spec (initialKahnState indegree) outgoing := by
  obtain ⟨hstart, hlinks, hdistinct, hendpoints⟩ := h.start
  have htargets : ∀ edge ∈ spec.edges, edge.2 ∈ spec.jobIds :=
    fun edge hedge => (hendpoints edge hedge).2
  have hinv : ∀ n, KahnInvariant spec.edges spec.jobIds
      (kahnLoop outgoing n (initialKahnState indegree)) :=
    fun n => hstart.kahnLoop hlinks htargets n
  have hlength : ∀ n, ((kahnLoop outgoing n (initialKahnState indegree)).order ++
      (kahnLoop outgoing n (initialKahnState indegree)).queue).length ≤ spec.jobs.length := by
    intro n
    have hsub := List.subperm_of_subset (hinv n).nodup (hinv n).subset
    simpa [DagSpec.jobIds] using hsub.length_le
  have hends : (kahnLoop outgoing spec.jobs.length (initialKahnState indegree)).queue = [] := by
    rcases kahnLoop_queue outgoing spec.jobs.length (initialKahnState indegree) with
      hempty | hfull
    · exact hempty
    · -- all jobs have been popped, and there is no room for a queue
      have hle := hlength spec.jobs.length
      rw [List.length_append, hfull] at hle
      apply List.length_eq_zero_iff.mp
      omega
  refine ⟨fun n => ?_, fun n => ?_, fun n id rest hqueue => ?_, fun n id hid => ?_, fun n => ?_,
    hends, fun id hid => ?_⟩
  · have hall := enqueued_eq outgoing (initialKahnState indegree) n
    rw [show (initialKahnState indegree).order = [] from rfl, List.nil_append] at hall
    rw [hall]
    exact (hinv n).nodup
  · rw [consumed_eq outgoing (by rfl) n]
    exact edges_of_popped_subperm (List.nodup_append.mp (hinv n).nodup).1 hlinks
  · exact positiveCounts_of_cover _ _ ((hinv n).cover hlinks htargets hqueue)
  · rw [(hinv n).indegree id hid, openInDegree, DagSpec.edges, List.countP_map]
    rfl
  · have hle := hlength n
    rw [List.length_append] at hle
    omega
  · exact (hinv _).behindCycle_iff (fun edge hedge => (hendpoints edge hedge).1) hends hid

/-- Two jobs on a cycle, one behind it with a repeated edge, and one before that. -/
def cyclicSpec : DagSpec where
  id := "cyclic"
  jobs := [⟨"a", .uppercase, "", 1, 0⟩, ⟨"b", .uppercase, "", 1, 0⟩,
    ⟨"c", .uppercase, "", 1, 0⟩, ⟨"d", .uppercase, "", 1, 0⟩]
  dependencies := [⟨"a", "b"⟩, ⟨"b", "a"⟩, ⟨"b", "c"⟩, ⟨"d", "c"⟩, ⟨"d", "c"⟩]

/-- The loop pops the one job that is not behind the cycle. -/
theorem kahn_loop_safe_cyclic : ∃ indegree outgoing,
    KahnLoopSafe cyclicSpec (initialKahnState indegree) outgoing ∧
      (kahnLoop outgoing 4 (initialKahnState indegree)).order = ["d"] := by
  let indegree : Table String ℕ := ⟨[("a", 1), ("b", 1), ("c", 3), ("d", 0)], by decide⟩
  let outgoing : Table String (List String) :=
    ⟨[("a", ["b"]), ("b", ["a", "c"]), ("d", ["c", "c"])], by decide⟩
  have hreaches : cyclicSpec.ReachesLoop indegree outgoing :=
    ⟨by decide, by decide, by decide,
      ⟨[("a", 0), ("b", 0), ("c", 0), ("d", 0)], by decide⟩, by decide, by decide⟩
  exact ⟨indegree, outgoing, kahn_loop_safe hreaches, by decide⟩

end JobOrchestrator
