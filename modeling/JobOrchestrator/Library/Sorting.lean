import Mathlib

/-!
# Sorting by a key

Lists sorted by a key under a strict total order.  With distinct keys the sorted
list is strictly ascending, and an ascending list is determined by its elements:
two sides that sort the same elements, read in any order, get the same list.
-/

namespace Sorting

variable {α β κ : Type*} (lt : κ → κ → Prop) [DecidableRel lt] (key : α → κ)

/-- A stable sort by a key. -/
def sortBy (items : List α) : List α :=
  items.insertionSort fun first second => ¬lt (key second) (key first)

variable {lt key}

theorem sortBy_perm (items : List α) : (sortBy lt key items).Perm items :=
  List.perm_insertionSort _ items

@[simp] theorem mem_sortBy {items : List α} {item : α} :
    item ∈ sortBy lt key items ↔ item ∈ items :=
  (sortBy_perm items).mem_iff

section StrictTotal

variable [IsStrictTotalOrder κ lt]

omit [DecidableRel lt] in
theorem lt_of_not_lt_of_ne {a b : κ} (hle : ¬lt b a) (hne : a ≠ b) : lt a b := by
  rcases trichotomous_of lt a b with hlt | heq | hgt
  · exact hlt
  · exact absurd heq hne
  · exact absurd hgt hle

theorem pairwise_sortBy {items : List α} (hkeys : (items.map key).Nodup) :
    (sortBy lt key items).Pairwise fun first second => lt (key first) (key second) := by
  have htotal : Std.Total fun first second : α => ¬lt (key second) (key first) := by
    refine ⟨fun a b => ?_⟩
    by_cases hlt : lt (key b) (key a)
    · exact .inr (asymm_of lt hlt)
    · exact .inl hlt
  have htrans : IsTrans α fun first second : α => ¬lt (key second) (key first) := by
    refine ⟨fun a b c hab hbc hca => ?_⟩
    by_cases heq : key b = key c
    · exact hab (heq ▸ hca)
    · exact hab (trans_of lt (lt_of_not_lt_of_ne hbc heq) hca)
  have hsorted := List.pairwise_insertionSort
    (fun first second : α => ¬lt (key second) (key first)) items
  have hdistinct : (sortBy lt key items).Pairwise fun first second => key first ≠ key second :=
    List.pairwise_map.mp (((sortBy_perm items).map key).nodup_iff.mpr hkeys)
  exact (hsorted.and hdistinct).imp fun h => lt_of_not_lt_of_ne h.1 h.2

omit [DecidableRel lt] in
theorem eq_of_ascending {first second : List α}
    (hfirst : first.Pairwise fun a b => lt (key a) (key b))
    (hsecond : second.Pairwise fun a b => lt (key a) (key b)) (hperm : first.Perm second) :
    first = second :=
  hperm.eq_of_pairwise (fun _ _ _ _ hlt hgt => absurd hgt (asymm_of lt hlt)) hfirst hsecond

end StrictTotal

/-- Lists with the same keys, position by position, are related as their keys demand. -/
theorem forall₂_of_map_eq {R : α → β → Prop} {key : α → κ} {key' : β → κ} {first : List α}
    {second : List β} (hkeys : first.map key = second.map key')
    (h : ∀ a ∈ first, ∀ b ∈ second, key a = key' b → R a b) : List.Forall₂ R first second := by
  induction first generalizing second with
  | nil =>
      cases second with
      | nil => exact .nil
      | cons b rest => cases hkeys
  | cons a rest ih =>
      cases second with
      | nil => cases hkeys
      | cons b others =>
          obtain ⟨hkey, hrest⟩ := List.cons.inj hkeys
          exact .cons (h a List.mem_cons_self b List.mem_cons_self hkey) (ih hrest
            fun a ha b hb => h a (List.mem_cons_of_mem _ ha) b (List.mem_cons_of_mem _ hb))

end Sorting
