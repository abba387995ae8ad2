import Mathlib.Algebra.Order.Ring.Int
import Mathlib.Data.Nat.Notation

/-!
# Signed integers of a width

A `SignedInt w` is an integer that `w` bits hold. The operators written without a check
stop the computation when the exact result does not fit, `checkedAdd` answers `none`
there, and a cast keeps the low bits. All of them are exact where the exact result fits,
which is how computations with them are followed in integers.
-/

set_option autoImplicit false

namespace Mekong.Computation

/-- The integers that `w` bits hold. -/
def Fits (w : ℕ) (v : ℤ) : Prop := -2 ^ (w - 1) ≤ v ∧ v < 2 ^ (w - 1)

instance (w : ℕ) (v : ℤ) : Decidable (Fits w v) := by
  unfold Fits
  infer_instance

abbrev SignedInt (w : ℕ) := { v : ℤ // Fits w v }

/-- An operation whose exact result does not fit. -/
inductive Overflow
  | overflow
  deriving DecidableEq

namespace SignedInt

variable {w : ℕ}

/-- `max_value()`. -/
def maxValue (w : ℕ) : ℤ := 2 ^ (w - 1) - 1

/-- `v`, if it fits. -/
def ofInt? (w : ℕ) (v : ℤ) : Option (SignedInt w) := if h : Fits w v then some ⟨v, h⟩ else none

/-- `a.checked_add(b)`. -/
def checkedAdd (a b : SignedInt w) : Option (SignedInt w) := ofInt? w (a.val + b.val)

/-- `a + b`. -/
def add (a b : SignedInt w) : Except Overflow (SignedInt w) :=
  (ofInt? w (a.val + b.val)).elim (.error .overflow) .ok

/-- `a - b`. -/
def sub (a b : SignedInt w) : Except Overflow (SignedInt w) :=
  (ofInt? w (a.val - b.val)).elim (.error .overflow) .ok

/-- A word has twice the values of its positive half. -/
theorem two_pow_eq (w : ℕ) [NeZero w] : 2 ^ w = 2 * 2 ^ (w - 1) := by
  rw [← Nat.pow_succ', Nat.succ_eq_add_one, Nat.sub_add_cancel (Nat.pos_of_neZero w)]

/-- `v as iw`. -/
def cast (w : ℕ) [NeZero w] (v : ℤ) : SignedInt w :=
  ⟨v.bmod (2 ^ w), by
    have hw := two_pow_eq w
    have hpos : 0 < 2 ^ w := Nat.two_pow_pos w
    have hlo := Int.le_bmod (x := v) hpos
    have hhi := Int.bmod_lt (x := v) hpos
    rw [hw] at hlo hhi ⊢
    push_cast at hlo hhi
    constructor <;> omega⟩

/-! ## Exact results -/

/-- An integer that fits is held. -/
theorem ofInt?_of_fits {v : ℤ} (h : Fits w v) : ofInt? w v = some ⟨v, h⟩ := dif_pos h

/-- Only an integer that does not fit is lost. -/
theorem ofInt?_eq_none_iff {v : ℤ} : ofInt? w v = none ↔ ¬ Fits w v := by
  unfold ofInt?
  split <;> simp_all

/-- A sum that fits is exact. -/
theorem add_of_fits {a b : SignedInt w} (h : Fits w (a.val + b.val)) : add a b = .ok ⟨_, h⟩ := by
  rw [add, ofInt?_of_fits h]
  rfl

/-- A difference that fits is exact. -/
theorem sub_of_fits {a b : SignedInt w} (h : Fits w (a.val - b.val)) : sub a b = .ok ⟨_, h⟩ := by
  rw [sub, ofInt?_of_fits h]
  rfl

/-- A cast of what fits. -/
theorem cast_val [NeZero w] {v : ℤ} (h : Fits w v) : (cast w v).val = v := by
  have hw := two_pow_eq w
  obtain ⟨hlo, hhi⟩ := h
  apply Int.bmod_eq_of_le_mul_two
  · rw [hw]
    push_cast
    omega
  · rw [hw]
    push_cast
    omega

end SignedInt

end Mekong.Computation
