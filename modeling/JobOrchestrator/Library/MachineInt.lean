import Mathlib

/-!
# Saturating machine integers

Machine integers are kept as unbounded ones; only the operations that saturate
or wrap mention the width.
-/

/-- The least value of a signed 64-bit integer. -/
def I64.min : ℤ := -2 ^ 63

/-- The greatest value of a signed 64-bit integer. -/
def I64.max : ℤ := 2 ^ 63 - 1

/-- The values of a signed 64-bit integer. -/
def I64.InRange (a : ℤ) : Prop := I64.min ≤ a ∧ a ≤ I64.max

instance (a : ℤ) : Decidable (I64.InRange a) := inferInstanceAs (Decidable (_ ∧ _))

/-- The nearest value of a signed 64-bit integer. -/
def I64.clamp (a : ℤ) : ℤ := Max.max I64.min (Min.min I64.max a)

def I64.saturatingAdd (a b : ℤ) : ℤ := I64.clamp (a + b)

def I64.saturatingMul (a b : ℤ) : ℤ := I64.clamp (a * b)

/-- The nearest value of a signed 16-bit integer to the difference. -/
def I16.saturatingSub (a b : ℤ) : ℤ := Max.max (-2 ^ 15) (Min.min (2 ^ 15 - 1) (a - b))

def U16.saturatingAdd (a b : ℕ) : ℕ := Min.min (2 ^ 16 - 1) (a + b)

def U64.saturatingAdd (a b : ℕ) : ℕ := Min.min (2 ^ 64 - 1) (a + b)

def U64.wrappingAdd (a b : ℕ) : ℕ := (a + b) % 2 ^ 64

def U64.wrappingMul (a b : ℕ) : ℕ := (a * b) % 2 ^ 64

/-- `a << n` on signed 64-bit integers, if it loses no bit. -/
def I64.shiftLeft? (a : ℤ) (n : ℕ) : Option ℤ :=
  if n < 64 ∧ I64.InRange (a * 2 ^ n) then some (a * 2 ^ n) else none

/-- The conversion from an unsigned to a signed 64-bit integer. -/
def I64.tryFrom (a : ℕ) : Option ℤ := if (a : ℤ) ≤ I64.max then some a else none

/-- The conversion from a signed to an unsigned 64-bit integer. -/
def U64.tryFrom (a : ℤ) : Option ℕ := if 0 ≤ a ∧ a < 2 ^ 64 then some a.toNat else none

/-- `a % b`, if there is one. -/
def U64.rem? (a b : ℕ) : Option ℕ := if b = 0 then none else some (a % b)

theorem I64.clamp_of_inRange {a : ℤ} (h : I64.InRange a) : I64.clamp a = a := by
  obtain ⟨hlow, hhigh⟩ := h
  rw [I64.clamp, min_eq_right hhigh, max_eq_right hlow]

theorem U16.saturatingAdd_eq {a b : ℕ} (h : a + b < 2 ^ 16) : U16.saturatingAdd a b = a + b :=
  min_eq_right (Nat.le_sub_one_of_lt h)

theorem U64.saturatingAdd_eq {a b : ℕ} (h : a + b < 2 ^ 64) : U64.saturatingAdd a b = a + b :=
  min_eq_right (Nat.le_sub_one_of_lt h)

theorem I64.saturatingAdd_eq {a b : ℤ} (h : I64.InRange (a + b)) : I64.saturatingAdd a b = a + b :=
  I64.clamp_of_inRange h

theorem I64.lt_saturatingAdd {a b : ℤ} (hb : 0 < b) (ha : a < I64.max) :
    a < I64.saturatingAdd a b := by
  unfold I64.saturatingAdd I64.clamp
  exact lt_max_of_lt_right (lt_min ha (by omega))

theorem I64.clamp_eq_min {a : ℤ} (h : I64.min ≤ a) : I64.clamp a = Min.min I64.max a := by
  have hbounds : I64.min ≤ I64.max := by decide
  exact max_eq_right (le_min hbounds h)

/-- Clamping a nonnegative summand first makes no difference. -/
theorem I64.saturatingAdd_clamped {a b : ℤ} (ha : I64.min ≤ a) (hb : 0 ≤ b) :
    I64.saturatingAdd (Min.min I64.max a) b = Min.min I64.max (a + b) := by
  have hbounds : I64.min ≤ I64.max := by decide
  have hlow : I64.min ≤ Min.min I64.max a := le_min hbounds ha
  rw [I64.saturatingAdd, I64.clamp_eq_min (by omega)]
  omega

/-- A product that is bounded in range afterwards may be clamped. -/
theorem I64.min_saturatingMul {a b c : ℤ} (ha : 0 ≤ a) (hb : 0 ≤ b) (hc : c ≤ I64.max) :
    Min.min (I64.saturatingMul a b) c = Min.min c (a * b) := by
  have hlow : I64.min ≤ a * b := by
    have hzero : I64.min ≤ 0 := by decide
    exact hzero.trans (mul_nonneg ha hb)
  rw [I64.saturatingMul, I64.clamp_eq_min hlow]
  omega
