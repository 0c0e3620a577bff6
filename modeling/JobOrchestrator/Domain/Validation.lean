import JobOrchestrator.Domain.Kahn

/-!
# Which graphs `validate` accepts

`Domain/Kahn.lean` follows a successful validation.  Here is the other
direction: a well-formed graph passes every check, and Kahn's loop pops all its
jobs unless there is a cycle.  `WellFormed` states the conditions on the
submission in its own terms (bytes, lengths, ranges), apart from acyclicity;
`validate_characterized` is the resulting characterization.

Completeness of the loop: the unpopped jobs of an acyclic graph contain one
without an unpopped source (`Acyclic.exists_source`), its counter is zero, and
the invariant keeps it in the queue.  An empty queue therefore leaves no job
unpopped, and a loop that uses all its iterations has popped one job in each.
-/

namespace JobOrchestrator

open Digraph

/-! ## Well-formed submissions -/

/-- An ASCII letter, a digit, a dash or an underscore. -/
def IsIdentifierByte (byte : UInt8) : Prop :=
  (97 ≤ byte ∧ byte ≤ 122) ∨ (65 ≤ byte ∧ byte ≤ 90) ∨ (48 ≤ byte ∧ byte ≤ 57) ∨
    byte = 45 ∨ byte = 95

/-- One to `maxBytes` bytes, each allowed in an identifier. -/
structure IsIdentifier (value : String) (maxBytes : ℕ) : Prop where
  length_pos : 1 ≤ (bytes value).length
  length_le : (bytes value).length ≤ maxBytes
  allowed : ∀ byte ∈ bytes value, IsIdentifierByte byte

/-- The conditions on a single job. -/
structure JobSpec.WellFormed (job : JobSpec) : Prop where
  identifier : IsIdentifier job.id 64
  payload_le : (bytes job.payload).length ≤ 4096
  delay : job.kind = .delay →
    ∃ milliseconds, parseU64 job.payload = some milliseconds ∧ milliseconds ≤ 5000
  attempts : 1 ≤ job.maxAttempts ∧ job.maxAttempts ≤ 20
  priority : -100 ≤ job.priority ∧ job.priority ≤ 100

/-- All conditions on a submission other than acyclicity. -/
structure DagSpec.WellFormed (spec : DagSpec) : Prop where
  identifier : IsIdentifier spec.id 64
  job_count : 1 ≤ spec.jobs.length ∧ spec.jobs.length ≤ 1000
  dependency_count : spec.dependencies.length ≤ 10000
  jobs : ∀ job ∈ spec.jobs, job.WellFormed
  distinct : spec.jobIds.Nodup
  endpoints : ∀ edge ∈ spec.dependencies, edge.fromId ∈ spec.jobIds ∧ edge.toId ∈ spec.jobIds

theorem except_ok_bind {ε α β : Type} (a : α) (next : α → Except ε β) :
    (Except.ok a >>= next) = next a := rfl

theorem length_bytes (value : String) : (bytes value).length = value.utf8ByteSize := by
  simp [bytes]

theorem isIdentifierByte_iff {byte : UInt8} : IsIdentifierByte byte ↔
    (isAsciiAlphanumeric byte || byte == 45 || byte == 95) = true := by
  simp only [IsIdentifierByte, isAsciiAlphanumeric, Bool.or_eq_true, Bool.and_eq_true,
    decide_eq_true_eq, beq_iff_eq]
  tauto

theorem validateIdentifier_iff {value : String} {maxBytes : ℕ} :
    validateIdentifier value maxBytes = .ok () ↔ IsIdentifier value maxBytes := by
  have hempty : value.isEmpty = false ↔ 1 ≤ (bytes value).length := by
    rw [length_bytes, show value.isEmpty = (value.utf8ByteSize == 0) from rfl]
    simp only [beq_eq_false_iff_ne]
    omega
  have hvalid : (!value.isEmpty && decide (value.utf8ByteSize ≤ maxBytes) &&
      (bytes value).all fun byte => isAsciiAlphanumeric byte || byte == 45 || byte == 95) = true ↔
        IsIdentifier value maxBytes := by
    rw [Bool.and_eq_true, Bool.and_eq_true, Bool.not_eq_true', hempty, decide_eq_true_eq,
      List.all_eq_true, ← length_bytes]
    constructor
    · rintro ⟨⟨hpos, hle⟩, hall⟩
      exact ⟨hpos, hle, fun byte hbyte => isIdentifierByte_iff.mpr (hall byte hbyte)⟩
    · intro h
      exact ⟨⟨h.length_pos, h.length_le⟩,
        fun byte hbyte => isIdentifierByte_iff.mp (h.allowed byte hbyte)⟩
  rw [← hvalid]
  unfold validateIdentifier
  simp only
  split
  next h => exact ⟨fun _ => h, fun _ => rfl⟩
  next h => exact ⟨fun hok => (nomatch hok), fun hok => absurd hok h⟩

theorem validatePayload_iff {kind : JobKind} {payload : String} :
    kind.validatePayload payload = .ok () ↔ (bytes payload).length ≤ 4096 ∧
      (kind = .delay →
        ∃ milliseconds, parseU64 payload = some milliseconds ∧ milliseconds ≤ 5000) := by
  unfold JobKind.validatePayload
  rw [length_bytes, show maxPayloadBytes = 4096 from rfl]
  split
  next hlong => exact ⟨fun h => (nomatch h), fun h => absurd h.1 (not_le.mpr hlong)⟩
  next hshort =>
    have hshort := not_lt.mp hshort
    split
    next hdelay =>
      cases hparse : parseU64 payload with
      | none => simp [hdelay]
      | some milliseconds =>
          simp only
          split
          next hlarge =>
            refine ⟨fun h => (nomatch h), fun h => ?_⟩
            obtain ⟨found, hfound, hle⟩ := h.2 hdelay
            cases hfound
            omega
          next hsmall =>
            exact ⟨fun _ => ⟨hshort, fun _ => ⟨_, rfl, not_lt.mp hsmall⟩⟩, fun _ => rfl⟩
    next hdelay => exact ⟨fun _ => ⟨hshort, fun h => absurd h hdelay⟩, fun _ => rfl⟩

/-- The checks of the loop over the jobs are the conditions on a job. -/
theorem JobSpec.valid_iff {job : JobSpec} : job.Valid ↔ job.WellFormed := by
  constructor
  · intro h
    obtain ⟨hpayload, hdelay⟩ := validatePayload_iff.mp h.payload
    exact ⟨validateIdentifier_iff.mp h.identifier, hpayload, hdelay,
      ⟨h.attempts_pos, h.attempts_le⟩, ⟨h.priority_ge, h.priority_le⟩⟩
  · intro h
    exact ⟨validateIdentifier_iff.mpr h.identifier,
      validatePayload_iff.mpr ⟨h.payload_le, h.delay⟩, h.attempts.1, h.attempts.2,
      h.priority.1, h.priority.2⟩

/-- A policy that is left to its defaults is within the limits. -/
theorem JobSpec.wellFormed_default {id payload : String} {kind : JobKind}
    (hid : IsIdentifier id 64) (hpayload : kind.validatePayload payload = .ok ()) :
    JobSpec.WellFormed { id, kind, payload } := by
  obtain ⟨hsize, hdelay⟩ := validatePayload_iff.mp hpayload
  have hattempts : 1 ≤ defaultAttempts ∧ defaultAttempts ≤ 20 := by decide
  have hpriority : (-100 : ℤ) ≤ 0 ∧ (0 : ℤ) ≤ 100 := by decide
  exact ⟨hid, hsize, hdelay, hattempts, hpriority⟩

/-! ## The two passes succeed -/

theorem exists_checkJobs {jobs : List JobSpec} {indegree : Table String ℕ}
    (hvalid : ∀ job ∈ jobs, job.Valid) (hdistinct : (jobs.map JobSpec.id).Nodup)
    (hfresh : ∀ job ∈ jobs, job.id ∉ indegree.keys) :
    ∃ checked, checkJobs jobs indegree = .ok checked := by
  induction jobs generalizing indegree with
  | nil => exact ⟨indegree, rfl⟩
  | cons job rest ih =>
      have hjob := hvalid job List.mem_cons_self
      have hnew : indegree.contains job.id = false := by
        rw [← Bool.not_eq_true, Table.contains_iff]
        exact hfresh job List.mem_cons_self
      have hpolicy : ¬(job.maxAttempts = 0 ∨ 20 < job.maxAttempts ∨
          ¬(-100 ≤ job.priority ∧ job.priority ≤ 100)) := by
        have hpos := hjob.attempts_pos
        have hle := hjob.attempts_le
        have hge := hjob.priority_ge
        have hpriority := hjob.priority_le
        omega
      rw [List.map_cons, List.nodup_cons] at hdistinct
      obtain ⟨hrest, hdistinct⟩ := hdistinct
      have hfresh' : ∀ other ∈ rest, other.id ∉ (indegree.insert job.id 0).keys := by
        intro other hother hmem
        rw [Table.keys_insert_of_get?_eq_none _ _ (Table.not_contains_iff.mp (by simp [hnew])),
          List.mem_append, List.mem_singleton] at hmem
        rcases hmem with hold | hsame
        · exact hfresh other (List.mem_cons_of_mem _ hother) hold
        · exact hrest (hsame ▸ List.mem_map_of_mem hother)
      obtain ⟨checked, hchecked⟩ := ih
        (fun other hother => hvalid other (List.mem_cons_of_mem _ hother)) hdistinct hfresh'
      refine ⟨checked, ?_⟩
      rw [checkJobs, hjob.identifier, hjob.payload]
      show (if _ then _ else _) = _
      rw [if_neg hpolicy, hnew]
      exact hchecked

/-- With known endpoints the second loop only rejects a self-edge. -/
theorem linkEdges_of_endpoints {dependencies : List Dependency} {indegree : Table String ℕ}
    {outgoing : Table String (List String)}
    (hknown : ∀ edge ∈ dependencies, edge.fromId ∈ indegree.keys ∧ edge.toId ∈ indegree.keys) :
    (∃ linked, linkEdges dependencies indegree outgoing = .ok linked) ∨
      linkEdges dependencies indegree outgoing = .error .cycle ∧
        ∃ edge ∈ dependencies, edge.fromId = edge.toId := by
  induction dependencies generalizing indegree outgoing with
  | nil => exact .inl ⟨(indegree, outgoing), rfl⟩
  | cons edge rest ih =>
      obtain ⟨hfrom, hto⟩ := hknown edge List.mem_cons_self
      obtain ⟨degree, hdegree⟩ := Table.mem_keys.mp hto
      have hsource : indegree.contains edge.fromId = true := Table.contains_iff.mpr hfrom
      have hkeys : (indegree.insert edge.toId (degree + 1)).keys = indegree.keys := by
        unfold Table.insert
        rw [dif_pos hto, Table.keys_modify]
      by_cases hself : edge.fromId = edge.toId
      · exact .inr ⟨by rw [linkEdges, if_pos hself], edge, List.mem_cons_self, hself⟩
      · have hstep : linkEdges (edge :: rest) indegree outgoing =
            linkEdges rest (indegree.insert edge.toId (degree + 1))
              (pushAt outgoing edge.fromId edge.toId) := by
          rw [linkEdges, if_neg hself, hsource]
          simp [hdegree]
        rw [hstep]
        have hknown' : ∀ other ∈ rest,
            other.fromId ∈ (indegree.insert edge.toId (degree + 1)).keys ∧
              other.toId ∈ (indegree.insert edge.toId (degree + 1)).keys := by
          intro other hother
          rw [hkeys]
          exact hknown other (List.mem_cons_of_mem _ hother)
        rcases ih hknown' with hok | ⟨herror, other, hother, hloop⟩
        · exact .inl hok
        · exact .inr ⟨herror, other, List.mem_cons_of_mem _ hother, hloop⟩

/-! ## Completeness of Kahn's loop -/

/-- A loop that stops early has emptied its queue; otherwise each iteration has popped a job. -/
theorem kahnLoop_queue (outgoing : Table String (List String)) (fuel : ℕ) (state : KahnState) :
    (kahnLoop outgoing fuel state).queue = [] ∨
      (kahnLoop outgoing fuel state).order.length = state.order.length + fuel := by
  induction fuel generalizing state with
  | zero => exact .inr rfl
  | succ fuel ih =>
      rw [kahnLoop]
      cases hqueue : state.queue with
      | nil =>
          have hpop : state.popFront outgoing = none := by simp [KahnState.popFront, hqueue]
          rw [hpop]
          exact .inl hqueue
      | cons id rest =>
          have hpop : ∃ next, state.popFront outgoing = some next ∧
              next.order = state.order ++ [id] := by simp [KahnState.popFront, hqueue]
          obtain ⟨next, hnext, horder⟩ := hpop
          rw [hnext]
          rcases ih next with hempty | hlength
          · exact .inl hempty
          · refine .inr ?_
            show (kahnLoop outgoing fuel next).order.length = _
            rw [hlength, horder, List.length_append, List.length_singleton]
            omega

theorem KahnInvariant.popped_of_empty {edges : List (String × String)} {ids : List String}
    {state : KahnState} (hinv : KahnInvariant edges ids state) (hacyclic : Acyclic edges)
    (hsources : ∀ edge ∈ edges, edge.1 ∈ ids) (hempty : state.queue = []) :
    ∀ id ∈ ids, id ∈ state.order := by
  by_contra hleft
  push Not at hleft
  obtain ⟨id, hid, hunpopped⟩ := hleft
  have hne : ids.filter (fun a => decide (a ∉ state.order)) ≠ [] :=
    List.ne_nil_of_mem (List.mem_filter.mpr ⟨hid, by simpa using hunpopped⟩)
  obtain ⟨b, hb, hsourceless⟩ := hacyclic.exists_source hne
  obtain ⟨hbIds, hbUnpopped⟩ := List.mem_filter.mp hb
  have hbUnpopped : b ∉ state.order := by simpa using hbUnpopped
  -- `b` has no open edge, so the invariant lists it, and nothing is queued
  have hclosed : openInDegree edges (fun a => decide (a ∉ state.order)) b = 0 := by
    rw [openInDegree_eq_zero_iff]
    intro a hedge
    by_contra hopen
    exact hsourceless a hedge
      (List.mem_filter.mpr ⟨hsources (a, b) hedge, by simpa using hopen⟩)
  have hlisted := (hinv.listed_iff b hbIds).mpr hclosed
  rw [hempty, List.append_nil] at hlisted
  exact hbUnpopped hlisted

/-! ## The characterization -/

theorem not_acyclic_of_self {spec : DagSpec} {edge : Dependency}
    (hedge : edge ∈ spec.dependencies) (hself : edge.fromId = edge.toId) :
    ¬Acyclic spec.edges := by
  intro hacyclic
  refine hacyclic edge.fromId (Relation.TransGen.single ?_)
  show (edge.fromId, edge.fromId) ∈ spec.edges
  exact List.mem_map.mpr ⟨edge, hedge, by rw [hself]⟩

theorem DagSpec.WellFormed.reachesLoop {spec : DagSpec} (h : spec.WellFormed) :
    (∃ indegree outgoing, spec.ReachesLoop indegree outgoing) ∨
      spec.validate = .error .cycle ∧ ∃ edge ∈ spec.dependencies, edge.fromId = edge.toId := by
  have hidentifier : validateIdentifier spec.id maxDagIdBytes = .ok () :=
    validateIdentifier_iff.mpr h.identifier
  have hjobCount : ¬(spec.jobs.isEmpty ∨ maxJobsPerDag < spec.jobs.length) := by
    have hcount := h.job_count
    rw [List.isEmpty_iff_length_eq_zero, show maxJobsPerDag = 1000 from rfl]
    omega
  have hdependencyCount : ¬maxDependenciesPerDag < spec.dependencies.length :=
    not_lt.mpr h.dependency_count
  have hvalid : ∀ job ∈ spec.jobs, job.Valid := fun job hjob =>
    JobSpec.valid_iff.mpr (h.jobs job hjob)
  have hfresh : ∀ job ∈ spec.jobs, job.id ∉ (Table.empty : Table String ℕ).keys :=
    fun _ _ => List.not_mem_nil
  obtain ⟨checked, hchecked⟩ := exists_checkJobs hvalid h.distinct hfresh
  have hkeys : checked.keys = spec.jobIds := (checkJobs_ok hchecked).2.1
  have hpass : (∃ linked, linkEdges spec.dependencies checked .empty = .ok linked) ∨ _ :=
    linkEdges_of_endpoints (hkeys ▸ h.endpoints)
  rcases hpass with ⟨⟨indegree, outgoing⟩, hlinked⟩ | ⟨herror, hself⟩
  · exact .inl ⟨indegree, outgoing, hidentifier, hjobCount, hdependencyCount, checked, hchecked,
      hlinked⟩
  · refine .inr ⟨?_, hself⟩
    rw [DagSpec.validate, hidentifier]
    show (if _ then _ else _) = _
    rw [if_neg hjobCount, if_neg hdependencyCount, hchecked]
    show (linkEdges spec.dependencies checked .empty >>= _) = _
    rw [herror]
    rfl

/-- A well-formed graph is accepted if it has no cycle and reported as cyclic otherwise. -/
theorem DagSpec.WellFormed.validate_cases {spec : DagSpec} (h : spec.WellFormed) :
    Acyclic spec.edges ∧ (∃ order, spec.validate = .ok order) ∨
      ¬Acyclic spec.edges ∧ spec.validate = .error .cycle := by
  rcases h.reachesLoop with ⟨indegree, outgoing, hreaches⟩ | ⟨herror, edge, hedge, hself⟩
  · obtain ⟨hstart, hlinks, -, hendpoints⟩ := hreaches.start
    have hinv := hstart.kahnLoop hlinks (fun edge hedge => (hendpoints edge hedge).2)
      spec.jobs.length
    have hqueue := kahnLoop_queue outgoing spec.jobs.length (initialKahnState indegree)
    rw [hreaches.validate_eq]
    simp only
    generalize kahnLoop outgoing spec.jobs.length (initialKahnState indegree) = final at *
    have hnodup : final.order.Nodup := (List.nodup_append.mp hinv.nodup).1
    have hsubset : final.order ⊆ spec.jobIds := fun id hid =>
      hinv.subset id (List.mem_append_left _ hid)
    have hids : spec.jobIds.length = spec.jobs.length := List.length_map _
    by_cases hacyclic : Acyclic spec.edges
    · refine .inl ⟨hacyclic, final.order, if_neg (not_not.mpr ?_)⟩
      rcases hqueue with hempty | hlength
      · have hall := hinv.popped_of_empty hacyclic (fun edge hedge => (hendpoints edge hedge).1)
          hempty
        have hge := (List.subperm_of_subset h.distinct hall).length_le
        have hle := (List.subperm_of_subset hnodup hsubset).length_le
        omega
      · simpa [initialKahnState] using hlength
    · refine .inr ⟨hacyclic, if_pos fun hlength => hacyclic ?_⟩
      have hperm : final.order.Perm spec.jobIds :=
        (List.subperm_of_subset hnodup hsubset).perm_of_length_le (by rw [hids, hlength])
      have htopological : TopologicalOrder spec.edges final.order :=
        ⟨hnodup, hinv.sources_before⟩
      exact htopological.acyclic fun edge hedge =>
        hperm.mem_iff.mpr (hendpoints edge hedge).2
  · exact .inr ⟨not_acyclic_of_self hedge hself, herror⟩

theorem Accepted.wellFormed {spec : DagSpec} {order : List String}
    (h : Accepted spec order) : spec.WellFormed where
  identifier := validateIdentifier_iff.mp h.identifier
  job_count := ⟨List.length_pos_iff.mpr h.jobs_ne_nil, h.jobs_le⟩
  dependency_count := h.dependencies_le
  jobs := fun job hjob => JobSpec.valid_iff.mp (h.jobs_valid job hjob)
  distinct := h.jobIds_nodup
  endpoints := fun edge hedge => (h.endpoints edge hedge).2

/-- `validate` accepts exactly the well-formed acyclic graphs, with a
permutation of the job identifiers that puts the source of every edge before its
target; on a well-formed graph it answers `Cycle` exactly when there is one. -/
theorem validate_characterized (spec : DagSpec) :
    ((∃ order, spec.validate = .ok order) ↔ spec.WellFormed ∧ Acyclic spec.edges) ∧
      (∀ order, spec.validate = .ok order → order.Perm spec.jobIds ∧
        ∀ edge ∈ spec.dependencies, order.idxOf edge.fromId < order.idxOf edge.toId) ∧
      (spec.WellFormed → (spec.validate = .error .cycle ↔ ¬Acyclic spec.edges)) := by
  have hordered : ∀ order, spec.validate = .ok order → order.Perm spec.jobIds ∧
      ∀ edge ∈ spec.dependencies, order.idxOf edge.fromId < order.idxOf edge.toId := by
    intro order hok
    have haccepted := accepted_of_validate hok
    refine ⟨haccepted.order_perm, fun edge hedge => ?_⟩
    have htarget := haccepted.order_perm.mem_iff.mpr (haccepted.endpoints edge hedge).2.2
    exact haccepted.topological.idxOf_lt (List.mem_map.mpr ⟨edge, hedge, rfl⟩) htarget
  refine ⟨⟨?_, ?_⟩, hordered, ?_⟩
  · rintro ⟨order, hok⟩
    have haccepted := accepted_of_validate hok
    refine ⟨haccepted.wellFormed, haccepted.topological.acyclic fun edge hedge => ?_⟩
    obtain ⟨dependency, hdependency, rfl⟩ := List.mem_map.mp hedge
    exact haccepted.order_perm.mem_iff.mpr (haccepted.endpoints dependency hdependency).2.2
  · rintro ⟨hwellFormed, hacyclic⟩
    rcases hwellFormed.validate_cases with ⟨-, hok⟩ | ⟨hcyclic, -⟩
    · exact hok
    · exact absurd hacyclic hcyclic
  · intro hwellFormed
    rcases hwellFormed.validate_cases with ⟨hacyclic, order, hok⟩ | ⟨hcyclic, herror⟩
    · rw [hok]
      exact ⟨fun h => (nomatch h), fun h => absurd hacyclic h⟩
    · exact ⟨fun _ => hcyclic, fun _ => herror⟩

end JobOrchestrator
