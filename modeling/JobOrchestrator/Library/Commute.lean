import Mathlib

/-!
# Steps that may be taken in any order

Steps need not commute in every state, nor need every step stay possible after
every other.  `Independent step Pending` says what suffices: `Pending s steps`
is kept by taking the first of the steps, does not depend on their order, and
makes the first two exchangeable.  Then all orders of the steps end in the same
state (`Independent.foldl_perm`).
-/

/-- The pending steps of a state are independent of each other. -/
structure Independent {σ α : Type*} (step : σ → α → σ) (Pending : σ → List α → Prop) : Prop where
  perm : ∀ {s : σ} {steps other : List α}, Pending s steps → steps.Perm other → Pending s other
  take : ∀ {s : σ} {a : α} {rest : List α}, Pending s (a :: rest) → Pending (step s a) rest
  exchange : ∀ {s : σ} {a b : α} {rest : List α}, Pending s (a :: b :: rest) →
    step (step s a) b = step (step s b) a

namespace Independent

variable {σ α : Type*} {step : σ → α → σ} {Pending : σ → List α → Prop}

theorem pending_foldl (h : Independent step Pending) {s : σ} {taken rest : List α}
    (hpending : Pending s (taken ++ rest)) : Pending (taken.foldl step s) rest := by
  induction taken generalizing s with
  | nil => exact hpending
  | cons a taken ih => exact ih (h.take hpending)

/-- Independent steps may be taken in any order. -/
theorem foldl_perm (h : Independent step Pending) {s : σ} {steps other : List α}
    (hpending : Pending s steps) (hperm : steps.Perm other) :
    steps.foldl step s = other.foldl step s := by
  induction hperm generalizing s with
  | nil => rfl
  | cons a _ ih => exact ih (h.take hpending)
  | swap a b rest =>
      simp only [List.foldl_cons]
      rw [h.exchange hpending]
  | trans hfirst _ ih ih' =>
      calc List.foldl step s _
          = List.foldl step s _ := ih hpending
        _ = List.foldl step s _ := ih' (h.perm hpending hfirst)

end Independent
