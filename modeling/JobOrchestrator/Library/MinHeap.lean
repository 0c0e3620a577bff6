import Mathlib

/-!
# A priority queue of values

A heap over a linear order is known to its clients only through the multiset of
its entries: `peek` shows a least entry and `pop` removes it.  It is kept here
as the sorted list of its entries, with sortedness as a field, so that two heaps
with the same multiset of entries are equal (`ext_of_perm`).
-/

/-- A priority queue whose least entry comes out first. -/
structure MinHeap (α : Type*) [LinearOrder α] where
  entries : List α
  sorted : entries.Pairwise (· ≤ ·)

namespace MinHeap

variable {α : Type*} [LinearOrder α]

instance : DecidableEq (MinHeap α) := fun first second =>
  decidable_of_iff (first.entries = second.entries)
    ⟨fun h => by cases first; cases second; cases h; rfl, fun h => by rw [h]⟩

instance : Membership α (MinHeap α) := ⟨fun heap a => a ∈ heap.entries⟩

theorem mem_iff {heap : MinHeap α} {a : α} : a ∈ heap ↔ a ∈ heap.entries := Iff.rfl

/-- The heap without entries. -/
def empty : MinHeap α := ⟨[], List.Pairwise.nil⟩

/-- The number of entries. -/
def size (heap : MinHeap α) : ℕ := heap.entries.length

/-- Adds one entry. -/
def push (heap : MinHeap α) (a : α) : MinHeap α :=
  ⟨heap.entries.orderedInsert (· ≤ ·) a, heap.sorted.orderedInsert a⟩

/-- Adds several entries. -/
def pushAll (heap : MinHeap α) (added : List α) : MinHeap α := added.foldl push heap

/-- A least entry. -/
def peek? (heap : MinHeap α) : Option α := heap.entries.head?

/-- The heap without its least entry. -/
def pop (heap : MinHeap α) : MinHeap α := ⟨heap.entries.tail, heap.sorted.tail⟩

/-- Heaps are determined by the multiset of their entries. -/
theorem ext_of_perm {first second : MinHeap α} (hperm : first.entries.Perm second.entries) :
    first = second := by
  have hentries : first.entries = second.entries :=
    hperm.eq_of_pairwise' first.sorted second.sorted
  cases first
  cases second
  cases hentries
  rfl

@[simp] theorem entries_empty : (empty : MinHeap α).entries = [] := rfl

@[simp] theorem notMem_empty (a : α) : a ∉ (empty : MinHeap α) := by
  simp [mem_iff]

theorem entries_push_perm (heap : MinHeap α) (a : α) :
    (heap.push a).entries.Perm (a :: heap.entries) :=
  List.perm_orderedInsert _ a heap.entries

@[simp] theorem mem_push {heap : MinHeap α} {a b : α} : b ∈ heap.push a ↔ b = a ∨ b ∈ heap := by
  rw [mem_iff, (heap.entries_push_perm a).mem_iff, List.mem_cons, mem_iff]

@[simp] theorem size_push (heap : MinHeap α) (a : α) : (heap.push a).size = heap.size + 1 := by
  simpa [size] using (heap.entries_push_perm a).length_eq

@[simp] theorem pushAll_nil (heap : MinHeap α) : heap.pushAll [] = heap := rfl

@[simp] theorem pushAll_cons (heap : MinHeap α) (a : α) (rest : List α) :
    heap.pushAll (a :: rest) = (heap.push a).pushAll rest := rfl

theorem pushAll_append (heap : MinHeap α) (first second : List α) :
    heap.pushAll (first ++ second) = (heap.pushAll first).pushAll second :=
  List.foldl_append

theorem entries_pushAll_perm (heap : MinHeap α) (added : List α) :
    (heap.pushAll added).entries.Perm (added ++ heap.entries) := by
  induction added generalizing heap with
  | nil => exact List.Perm.refl _
  | cons a rest ih =>
      calc List.Perm (heap.pushAll (a :: rest)).entries (rest ++ (heap.push a).entries) :=
            ih (heap.push a)
        List.Perm _ (rest ++ a :: heap.entries) := (heap.entries_push_perm a).append_left rest
        List.Perm _ (a :: rest ++ heap.entries) := List.perm_middle

/-- The order in which entries are added does not matter. -/
theorem pushAll_perm (heap : MinHeap α) {added other : List α} (hperm : added.Perm other) :
    heap.pushAll added = heap.pushAll other := by
  apply ext_of_perm
  exact (heap.entries_pushAll_perm added).trans
    ((hperm.append_right heap.entries).trans (heap.entries_pushAll_perm other).symm)

theorem peek?_eq_none_iff {heap : MinHeap α} : heap.peek? = none ↔ ∀ a, a ∉ heap := by
  simp [peek?, mem_iff, List.eq_nil_iff_forall_not_mem]

theorem entries_of_peek?_eq_some {heap : MinHeap α} {a : α} (hpeek : heap.peek? = some a) :
    heap.entries = a :: heap.pop.entries :=
  List.eq_cons_of_mem_head? hpeek

theorem mem_of_peek?_eq_some {heap : MinHeap α} {a : α} (hpeek : heap.peek? = some a) :
    a ∈ heap := by
  rw [mem_iff, entries_of_peek?_eq_some hpeek]
  exact List.mem_cons_self

/-- The peeked entry is least. -/
theorem peek?_le {heap : MinHeap α} {a b : α} (hpeek : heap.peek? = some a) (hb : b ∈ heap) :
    a ≤ b := by
  have hsorted := heap.sorted
  rw [mem_iff, entries_of_peek?_eq_some hpeek] at hb
  rw [entries_of_peek?_eq_some hpeek, List.pairwise_cons] at hsorted
  rcases List.mem_cons.mp hb with rfl | hrest
  · exact le_rfl
  · exact hsorted.1 b hrest

theorem size_pop_of_peek?_eq_some {heap : MinHeap α} {a : α} (hpeek : heap.peek? = some a) :
    heap.size = heap.pop.size + 1 := by
  unfold size
  rw [entries_of_peek?_eq_some hpeek, List.length_cons]

theorem mem_of_mem_pop {heap : MinHeap α} {a : α} (ha : a ∈ heap.pop) : a ∈ heap :=
  List.mem_of_mem_tail ha

end MinHeap
