import Mathlib

/-!
# Directed multigraphs and topological orders

A multigraph is the list of its edges, so that an edge may be repeated.  A list
of vertices is a topological order when no vertex is repeated and every edge
goes from an earlier vertex to a later one.  Such an order makes the ancestor
relation well founded (`TopologicalOrder.acyclic`) and supports induction along
the edges (`TopologicalOrder.induction`); `exists_ancestor` is the form in which
progress arguments use it.

`openInDegree` counts, with multiplicity, the edges into a vertex whose source
satisfies a predicate: the quantity that both Kahn's algorithm and a dependency
counter keep.
-/

namespace Digraph

variable {α : Type*}

/-- There is an edge from `a` to `b`. -/
def Edge (edges : List (α × α)) (a b : α) : Prop := (a, b) ∈ edges

/-- There is a directed path of at least one edge from `a` to `b`. -/
def Ancestor (edges : List (α × α)) : α → α → Prop := Relation.TransGen (Edge edges)

/-- No vertex is its own ancestor. -/
def Acyclic (edges : List (α × α)) : Prop := ∀ a, ¬ Ancestor edges a a

/-- Every vertex stands after the sources of its incoming edges. -/
structure TopologicalOrder (edges : List (α × α)) (order : List α) : Prop where
  nodup : order.Nodup
  sources_before : ∀ before b after, order = before ++ b :: after →
    ∀ a, (a, b) ∈ edges → a ∈ before

/-- Among finitely many vertices of which none is on a cycle, some vertex has no
source: the ancestor relation on them is well founded. -/
theorem exists_source {edges : List (α × α)} {vertices : List α} (hne : vertices ≠ [])
    (hcycle : ∀ a ∈ vertices, ¬Ancestor edges a a) :
    ∃ b ∈ vertices, ∀ a, (a, b) ∈ edges → a ∉ vertices := by
  let ancestor : {a // a ∈ vertices} → {a // a ∈ vertices} → Prop :=
    fun a b => Ancestor edges a.1 b.1
  have : Finite {a // a ∈ vertices} := (List.finite_toSet vertices).to_subtype
  have : IsTrans _ ancestor := ⟨fun _ _ _ hab hbc => Relation.TransGen.trans hab hbc⟩
  have : Std.Irrefl ancestor := ⟨fun a => hcycle a.1 a.2⟩
  have hwf : WellFounded ancestor := Finite.wellFounded_of_trans_of_irrefl ancestor
  obtain ⟨first, hfirst⟩ := List.exists_mem_of_ne_nil vertices hne
  obtain ⟨least, -, hleast⟩ := hwf.has_min Set.univ ⟨⟨first, hfirst⟩, trivial⟩
  refine ⟨least.1, least.2, fun a hedge ha => ?_⟩
  exact hleast ⟨a, ha⟩ trivial (Relation.TransGen.single hedge)

theorem Acyclic.exists_source {edges : List (α × α)} (hacyclic : Acyclic edges)
    {vertices : List α} (hne : vertices ≠ []) :
    ∃ b ∈ vertices, ∀ a, (a, b) ∈ edges → a ∉ vertices :=
  Digraph.exists_source hne fun a _ => hacyclic a

/-- The vertex is on a directed cycle or behind one. -/
def BehindCycle (edges : List (α × α)) (b : α) : Prop :=
  ∃ c, Ancestor edges c c ∧ (c = b ∨ Ancestor edges c b)

/-- Finitely many vertices that all have a source among them are behind cycles:
from any of them the edges cannot be followed back forever without a repetition. -/
theorem behindCycle_of_sources {edges : List (α × α)} {vertices : List α}
    (hsources : ∀ b ∈ vertices, ∃ a ∈ vertices, (a, b) ∈ edges) {b : α} (hb : b ∈ vertices) :
    BehindCycle edges b := by
  classical
  by_contra hbehind
  have hcycle : ∀ c, c = b ∨ Ancestor edges c b → ¬Ancestor edges c c :=
    fun c hc hself => hbehind ⟨c, hself, hc⟩
  let above := vertices.filter fun a => a = b ∨ Ancestor edges a b
  have hmem : ∀ a, a ∈ above ↔ a ∈ vertices ∧ (a = b ∨ Ancestor edges a b) := by
    intro a
    simp [above]
  obtain ⟨first, hfirst, hnone⟩ := exists_source
    (List.ne_nil_of_mem ((hmem b).mpr ⟨hb, .inl rfl⟩))
    fun a ha => hcycle a ((hmem a).mp ha).2
  obtain ⟨hfirstVertex, hfirstAbove⟩ := (hmem first).mp hfirst
  obtain ⟨a, ha, hedge⟩ := hsources first hfirstVertex
  refine hnone a hedge ((hmem a).mpr ⟨ha, .inr ?_⟩)
  rcases hfirstAbove with rfl | hfirstAbove
  · exact Relation.TransGen.single hedge
  · exact Relation.TransGen.head hedge hfirstAbove

section Order

variable [DecidableEq α] {edges : List (α × α)} {order : List α}

theorem TopologicalOrder.idxOf_lt (h : TopologicalOrder edges order) {a b : α}
    (hedge : (a, b) ∈ edges) (hb : b ∈ order) : order.idxOf a < order.idxOf b := by
  obtain ⟨before, after, hsplit⟩ := List.append_of_mem hb
  have ha : a ∈ before := h.sources_before before b after hsplit a hedge
  have hnot : b ∉ before := by
    have hnodup := h.nodup
    rw [hsplit, List.nodup_append] at hnodup
    exact fun hmem => hnodup.2.2 b hmem b List.mem_cons_self rfl
  rw [hsplit, List.idxOf_append_of_mem ha, List.idxOf_append_of_notMem hnot,
    List.idxOf_cons_self]
  have := List.idxOf_lt_length_of_mem ha
  omega

omit [DecidableEq α] in
theorem TopologicalOrder.mem_of_edge (h : TopologicalOrder edges order) {a b : α}
    (hedge : (a, b) ∈ edges) (hb : b ∈ order) : a ∈ order := by
  obtain ⟨before, after, hsplit⟩ := List.append_of_mem hb
  rw [hsplit]
  exact List.mem_append_left _ (h.sources_before before b after hsplit a hedge)

theorem TopologicalOrder.idxOf_lt_of_ancestor (h : TopologicalOrder edges order) {a b : α}
    (hancestor : Ancestor edges a b) (hb : b ∈ order) :
    a ∈ order ∧ order.idxOf a < order.idxOf b := by
  induction hancestor with
  | single hedge => exact ⟨h.mem_of_edge hedge hb, h.idxOf_lt hedge hb⟩
  | tail _ hedge ih =>
      obtain ⟨hmem, hlt⟩ := ih (h.mem_of_edge hedge hb)
      exact ⟨hmem, hlt.trans (h.idxOf_lt hedge hb)⟩

theorem TopologicalOrder.not_behindCycle (h : TopologicalOrder edges order) {b : α}
    (hb : b ∈ order) : ¬BehindCycle edges b := by
  rintro ⟨c, hcycle, rfl | hbehind⟩
  · exact lt_irrefl _ (h.idxOf_lt_of_ancestor hcycle hb).2
  · have hc := (h.idxOf_lt_of_ancestor hbehind hb).1
    exact lt_irrefl _ (h.idxOf_lt_of_ancestor hcycle hc).2

theorem TopologicalOrder.acyclic (h : TopologicalOrder edges order)
    (htargets : ∀ edge ∈ edges, edge.2 ∈ order) : Acyclic edges := by
  intro a hcycle
  have ha : a ∈ order := by
    obtain ⟨b, _, hedge⟩ := Relation.TransGen.tail'_iff.mp hcycle
    exact htargets (b, a) hedge
  exact lt_irrefl _ (h.idxOf_lt_of_ancestor hcycle ha).2

/-- Induction along the edges: a property that passes from all sources of a
vertex to the vertex holds of every listed vertex. -/
theorem TopologicalOrder.induction (h : TopologicalOrder edges order) {P : α → Prop}
    (step : ∀ b ∈ order, (∀ a, (a, b) ∈ edges → P a) → P b) : ∀ b ∈ order, P b := by
  suffices ∀ n b, b ∈ order → order.idxOf b = n → P b from fun b hb => this _ b hb rfl
  intro n
  induction n using Nat.strong_induction_on with
  | h n ih =>
      intro b hb hn
      refine step b hb fun a hedge => ?_
      exact ih _ (hn ▸ h.idxOf_lt hedge hb) a (h.mem_of_edge hedge hb) rfl

/-- If every blocked vertex has a source that is blocked or holds it up, then
every blocked vertex has an ancestor that holds it up. -/
theorem TopologicalOrder.exists_ancestor (h : TopologicalOrder edges order)
    {Blocked Holds : α → Prop}
    (hsource : ∀ b ∈ order, Blocked b → ∃ a, (a, b) ∈ edges ∧ (Blocked a ∨ Holds a)) :
    ∀ b ∈ order, Blocked b → ∃ a, Ancestor edges a b ∧ Holds a := by
  refine h.induction fun b hb ih hblocked => ?_
  obtain ⟨a, hedge, hcase⟩ := hsource b hb hblocked
  rcases hcase with hblockedSource | hholds
  · obtain ⟨first, hancestor, hholds⟩ := ih a hedge hblockedSource
    exact ⟨first, hancestor.tail hedge, hholds⟩
  · exact ⟨a, Relation.TransGen.single hedge, hholds⟩

end Order

/-! ## Counting open edges -/

section OpenInDegree

variable [DecidableEq α]

/-- The number of edges into `b`, with multiplicity, whose source is open. -/
def openInDegree (edges : List (α × α)) (isOpen : α → Bool) (b : α) : ℕ :=
  edges.countP fun edge => edge.2 == b && isOpen edge.1

theorem openInDegree_pos_iff {edges : List (α × α)} {isOpen : α → Bool} {b : α} :
    0 < openInDegree edges isOpen b ↔ ∃ a, (a, b) ∈ edges ∧ isOpen a = true := by
  simp only [openInDegree, List.countP_pos_iff, Bool.and_eq_true, beq_iff_eq, Prod.exists]
  constructor
  · rintro ⟨a, target, hmem, rfl, hopen⟩
    exact ⟨a, hmem, hopen⟩
  · rintro ⟨a, hmem, hopen⟩
    exact ⟨a, b, hmem, rfl, hopen⟩

theorem openInDegree_eq_zero_iff {edges : List (α × α)} {isOpen : α → Bool} {b : α} :
    openInDegree edges isOpen b = 0 ↔ ∀ a, (a, b) ∈ edges → isOpen a = false := by
  rw [← not_iff_not, ← ne_eq, ← Nat.pos_iff_ne_zero, openInDegree_pos_iff]
  simp

theorem openInDegree_congr {edges : List (α × α)} {first second : α → Bool} {b : α}
    (h : ∀ a, (a, b) ∈ edges → first a = second a) :
    openInDegree edges first b = openInDegree edges second b := by
  refine List.countP_congr fun edge hedge => ?_
  by_cases htarget : edge.2 = b
  · rw [h edge.1 (by rw [← htarget]; exact hedge)]
  · simp [htarget]

/-- Closing an open vertex lowers the count by the number of its edges. -/
theorem openInDegree_close (edges : List (α × α)) {before after : α → Bool} {closed : α}
    (hopen : before closed = true) (hclosed : after closed = false)
    (hframe : ∀ a, a ≠ closed → after a = before a) (b : α) :
    openInDegree edges after b + edges.count (closed, b) = openInDegree edges before b := by
  induction edges with
  | nil => rfl
  | cons edge rest ih =>
      obtain ⟨source, target⟩ := edge
      simp only [openInDegree, List.countP_cons, List.count_cons] at ih ⊢
      by_cases hsource : source = closed
      · subst hsource
        by_cases htarget : target = b <;> simp [hopen, hclosed, htarget] <;> omega
      · have hframe' := hframe source hsource
        simp only [hframe', Prod.mk.injEq, beq_iff_eq, hsource, false_and, if_false]
        omega

end OpenInDegree

end Digraph
