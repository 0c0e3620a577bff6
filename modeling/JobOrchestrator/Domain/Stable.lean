import JobOrchestrator.Domain.KahnLoop

/-!
# The order does not depend on how the graph is written down

Two submissions with the same jobs and the same edges, each listed in any order,
lead Kahn's loop through states that agree on queue, order and all counters
(`KahnState.Agrees`): the lists of children are permutations of each other, so
that the inner loop subtracts the same numbers and makes the same jobs ready,
and sorting removes the rest of the difference.  The only place where a map is
iterated, the collection of the jobs without incoming edges, is sorted too.
-/

namespace JobOrchestrator

open Digraph

/-- `validate` with the entries of the in-degree map visited in another order. -/
def DagSpec.validateVisiting (visit : List (String × ℕ) → List (String × ℕ)) (spec : DagSpec) :
    Except ValidationError (List String) := do
  validateIdentifier spec.id maxDagIdBytes
  if spec.jobs.isEmpty ∨ maxJobsPerDag < spec.jobs.length then .error .invalidJobCount
  else if maxDependenciesPerDag < spec.dependencies.length then .error .invalidDependencyCount
  else
    let checked ← checkJobs spec.jobs .empty
    let (indegree, outgoing) ← linkEdges spec.dependencies checked .empty
    let zero := (visit indegree.entries).filterMap fun entry =>
      if entry.2 = 0 then some entry.1 else none
    let final := kahnLoop outgoing spec.jobs.length ⟨indegree, sortIds zero, []⟩
    if final.order.length ≠ spec.jobs.length then .error .cycle else .ok final.order

theorem sortIds_eq_of_perm {first second : List String} (h : first.Perm second) :
    sortIds first = sortIds second := by
  apply List.Perm.eq_of_pairwise' (r := (· ≤ ·))
  · exact List.pairwise_insertionSort _ first
  · exact List.pairwise_insertionSort _ second
  · exact ((sortIds_perm first).trans h).trans (sortIds_perm second).symm

/-- The iteration order of the in-degree map makes no difference. -/
theorem validateVisiting_eq {visit : List (String × ℕ) → List (String × ℕ)}
    (hvisit : ∀ entries, (visit entries).Perm entries) (spec : DagSpec) :
    spec.validateVisiting visit = spec.validate := by
  have hzero : ∀ indegree : Table String ℕ, sortIds ((visit indegree.entries).filterMap
      fun entry => if entry.2 = 0 then some entry.1 else none) = sortIds (zeroIds indegree) :=
    fun indegree => sortIds_eq_of_perm ((hvisit indegree.entries).filterMap _)
  simp only [DagSpec.validateVisiting, hzero]
  rfl

/-! ## Agreeing states -/

/-- The states differ at most in the order in which their counters are stored. -/
structure KahnState.Agrees (first second : KahnState) : Prop where
  indegree : ∀ key, first.indegree.get? key = second.indegree.get? key
  queue : first.queue = second.queue
  order : first.order = second.order

section Loop

variable {edges : List (String × String)} {ids : List String}
  {outgoing outgoing' : Table String (List String)} {first second : KahnState}

theorem KahnState.Agrees.popFront (h : first.Agrees second)
    (hinv : KahnInvariant edges ids first)
    (hlinks : ∀ id, listAt outgoing id = childrenOf edges id)
    (htargets : ∀ edge ∈ edges, edge.2 ∈ ids)
    (hperm : ∀ id, (listAt outgoing id).Perm (listAt outgoing' id)) :
    Option.Rel KahnState.Agrees (first.popFront outgoing) (second.popFront outgoing') := by
  unfold KahnState.popFront
  cases hqueue : first.queue with
  | nil =>
      rw [← h.queue, hqueue]
      exact .none
  | cons id rest =>
      rw [← h.queue, hqueue]
      have hcover := hinv.cover hlinks htargets hqueue
      have hcover' : ∀ key ∈ listAt outgoing' id, ∃ n,
          second.indegree.get? key = some n ∧ (listAt outgoing' id).count key ≤ n := by
        intro key hkey
        rw [← h.indegree, ← (hperm id).count_eq]
        exact hcover key ((hperm id).mem_iff.mpr hkey)
      have hcounts := consumeEdges_get? _ _ [] hcover
      have hcounts' := consumeEdges_get? _ _ [] hcover'
      obtain ⟨hnodup, hready⟩ := mem_consumeEdges _ _ [] hcover List.nodup_nil (by simp)
      obtain ⟨hnodup', hready'⟩ := mem_consumeEdges _ _ [] hcover' List.nodup_nil (by simp)
      refine .some ⟨fun key => ?_, ?_, by rw [h.order]⟩
      · show (consumeEdges (listAt outgoing id) first.indegree []).1.get? key =
          (consumeEdges (listAt outgoing' id) second.indegree []).1.get? key
        rw [hcounts, hcounts', h.indegree, (hperm id).count_eq]
      · -- the same jobs have become ready
        show rest ++ sortIds (consumeEdges (listAt outgoing id) first.indegree []).2 =
          rest ++ sortIds (consumeEdges (listAt outgoing' id) second.indegree []).2
        congr 1
        apply sortIds_eq_of_perm
        rw [List.perm_ext_iff_of_nodup hnodup hnodup']
        intro key
        rw [hready, hready', h.indegree, (hperm id).count_eq, (hperm id).mem_iff]

theorem KahnState.Agrees.kahnLoop (hlinks : ∀ id, listAt outgoing id = childrenOf edges id)
    (htargets : ∀ edge ∈ edges, edge.2 ∈ ids)
    (hperm : ∀ id, (listAt outgoing id).Perm (listAt outgoing' id)) (fuel : ℕ)
    {first second : KahnState} (h : first.Agrees second) (hinv : KahnInvariant edges ids first) :
    (JobOrchestrator.kahnLoop outgoing fuel first).Agrees
      (JobOrchestrator.kahnLoop outgoing' fuel second) := by
  induction fuel generalizing first second with
  | zero => exact h
  | succ fuel ih =>
      rw [JobOrchestrator.kahnLoop, JobOrchestrator.kahnLoop]
      have hstep := h.popFront hinv hlinks htargets hperm
      cases hfirst : first.popFront outgoing with
      | none =>
          rw [hfirst] at hstep
          cases hsecond : second.popFront outgoing' with
          | none => exact h
          | some next =>
              rw [hsecond] at hstep
              cases hstep
      | some next =>
          rw [hfirst] at hstep
          cases hsecond : second.popFront outgoing' with
          | none =>
              rw [hsecond] at hstep
              cases hstep
          | some next' =>
              rw [hsecond, Option.rel_some_some] at hstep
              exact ih hstep (hinv.popFront hlinks htargets hfirst).1

end Loop

/-! ## Two ways to write down one graph -/

/-- The submissions differ at most in the order of their jobs and of their edges. -/
structure DagSpec.SameGraph (first second : DagSpec) : Prop where
  id : first.id = second.id
  jobs : first.jobs.Perm second.jobs
  dependencies : first.dependencies.Perm second.dependencies

theorem DagSpec.SameGraph.symm {first second : DagSpec} (h : first.SameGraph second) :
    second.SameGraph first :=
  ⟨h.id.symm, h.jobs.symm, h.dependencies.symm⟩

theorem DagSpec.WellFormed.of_sameGraph {first second : DagSpec} (h : first.WellFormed)
    (hsame : first.SameGraph second) : second.WellFormed := by
  have hids : first.jobIds.Perm second.jobIds := hsame.jobs.map _
  refine ⟨hsame.id ▸ h.identifier, hsame.jobs.length_eq ▸ h.job_count,
    hsame.dependencies.length_eq ▸ h.dependency_count, fun job hjob => ?_,
    hids.nodup_iff.mp h.distinct, fun edge hedge => ?_⟩
  · exact h.jobs job (hsame.jobs.mem_iff.mpr hjob)
  · rw [← hids.mem_iff, ← hids.mem_iff]
    exact h.endpoints edge (hsame.dependencies.mem_iff.mpr hedge)

/-- Both submissions enter the loop in agreeing states, with permuted lists of children. -/
theorem DagSpec.ReachesLoop.agrees {first second : DagSpec} {indegree indegree' : Table String ℕ}
    {outgoing outgoing' : Table String (List String)} (h : first.ReachesLoop indegree outgoing)
    (h' : second.ReachesLoop indegree' outgoing') (hsame : first.SameGraph second) :
    (initialKahnState indegree).Agrees (initialKahnState indegree') ∧
      ∀ id, (listAt outgoing id).Perm (listAt outgoing' id) := by
  have hedges : first.edges.Perm second.edges := hsame.dependencies.map _
  have hids : first.jobIds.Perm second.jobIds := hsame.jobs.map _
  have hget : ∀ key, indegree.get? key = indegree'.get? key := by
    obtain ⟨checked, hchecked, hlinked⟩ := h.passes
    obtain ⟨checked', hchecked', hlinked'⟩ := h'.passes
    intro key
    rw [(linkEdges_ok hlinked).get?, (linkEdges_ok hlinked').get?, (checkJobs_ok hchecked).2.2,
      (checkJobs_ok hchecked').2.2, hsame.dependencies.countP_eq]
    simp only [show key ∈ first.jobs.map JobSpec.id ↔ key ∈ second.jobs.map JobSpec.id from
      hids.mem_iff]
  refine ⟨⟨hget, ?_, rfl⟩, fun id => ?_⟩
  · apply sortIds_eq_of_perm
    rw [List.perm_ext_iff_of_nodup (nodup_zeroIds _) (nodup_zeroIds _)]
    intro id
    rw [mem_zeroIds, mem_zeroIds, hget]
  · rw [h.start.2.1, h'.start.2.1]
    exact (hedges.filter _).map _

theorem DagSpec.SameGraph.validate_ok {first second : DagSpec} (hsame : first.SameGraph second)
    {order : List String} (hok : first.validate = .ok order) : second.validate = .ok order := by
  have haccepted := accepted_of_validate hok
  obtain ⟨indegree, outgoing, h⟩ := DagSpec.exists_reachesLoop hok
  rcases (haccepted.wellFormed.of_sameGraph hsame).reachesLoop with
    ⟨indegree', outgoing', h'⟩ | ⟨-, edge, hedge, hself⟩
  · obtain ⟨hagrees, hperm⟩ := h.agrees h' hsame
    obtain ⟨hinv, hlinks, -, hendpoints⟩ := h.start
    have hloop := hagrees.kahnLoop hlinks (fun edge hedge => (hendpoints edge hedge).2) hperm
      first.jobs.length hinv
    rw [h.validate_eq] at hok
    rw [h'.validate_eq, ← hok, ← hsame.jobs.length_eq]
    simp only [hloop.order]
  · -- an accepted graph has no edge from a job to itself
    exact absurd hself (haccepted.endpoints edge (hsame.dependencies.mem_iff.mpr hedge)).1

/-- The order that `validate` returns depends on the graph alone: not on the
order in which its jobs and edges are listed, nor on the order in which the hash
map is iterated in either run. -/
theorem validate_stable {first second : DagSpec}
    {visit visit' : List (String × ℕ) → List (String × ℕ)}
    (hvisit : ∀ entries, (visit entries).Perm entries)
    (hvisit' : ∀ entries, (visit' entries).Perm entries) (hid : first.id = second.id)
    (hjobs : first.jobs.Perm second.jobs)
    (hdependencies : first.dependencies.Perm second.dependencies) :
    first.validateVisiting visit = first.validate ∧ ∀ order,
      first.validateVisiting visit = .ok order ↔ second.validateVisiting visit' = .ok order := by
  have hsame : first.SameGraph second := ⟨hid, hjobs, hdependencies⟩
  refine ⟨validateVisiting_eq hvisit first, fun order => ?_⟩
  rw [validateVisiting_eq hvisit, validateVisiting_eq hvisit']
  exact ⟨hsame.validate_ok, hsame.symm.validate_ok⟩

/-- Two sources of one join, with a repeated edge. -/
def joinSpec : DagSpec where
  id := "join"
  jobs := [⟨"a", .uppercase, "", 1, 0⟩, ⟨"b", .uppercase, "", 1, 0⟩, ⟨"c", .uppercase, "", 1, 0⟩]
  dependencies := [⟨"a", "c"⟩, ⟨"b", "c"⟩, ⟨"b", "c"⟩]

/-- The same graph written down backwards. -/
def joinSpecReversed : DagSpec :=
  ⟨joinSpec.id, joinSpec.jobs.reverse, joinSpec.dependencies.reverse⟩

/-- Both ways give one order, also with the maps iterated in opposite directions. -/
theorem validate_stable_reversed :
    joinSpec.validateVisiting (fun entries => entries) = .ok ["a", "b", "c"] ∧
      joinSpecReversed.validateVisiting List.reverse = .ok ["a", "b", "c"] := by
  have hstable : joinSpec.validateVisiting (fun entries => entries) = joinSpec.validate ∧
      ∀ order, joinSpec.validateVisiting (fun entries => entries) = .ok order ↔
        joinSpecReversed.validateVisiting List.reverse = .ok order :=
    validate_stable (fun entries => List.Perm.refl entries) List.reverse_perm rfl
      (List.reverse_perm _).symm (List.reverse_perm _).symm
  have hfirst : joinSpec.validate = .ok ["a", "b", "c"] := by decide
  have hvisiting := hstable.1.trans hfirst
  exact ⟨hvisiting, (hstable.2 _).mp hvisiting⟩

end JobOrchestrator
