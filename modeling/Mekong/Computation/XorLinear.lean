import Mathlib.Data.Nat.Bitwise
import Mathlib.Data.Nat.Prime.Basic
import Mathlib.Dynamics.PeriodicPts.Defs

/-!
# Maps of bits that respect exclusive or

A map of the words of `w` bits that respects exclusive or is known by the images of the
`w` powers of two, its columns. A list of columns is applied to a number by `combine`, and
columns are composed as lists, so that `iterateFast` iterates the map by squaring.
`minimalPeriod_eq_of_prime` reads the period of an orbit off such iterations.
-/

set_option autoImplicit false

namespace Mekong.Computation.XorLinear

/-- The exclusive or of the columns that the bits of `x` select, lowest bit first. -/
def combine : List ℕ → ℕ → ℕ
  | [], _ => 0
  | c :: cs, x => Nat.xor (c * (x % 2)) (combine cs (x / 2))

/-- The images of `2 ^ i` and the following `k` powers of two. -/
def columns (f : ℕ → ℕ) : ℕ → ℕ → List ℕ
  | _, 0 => []
  | i, k + 1 => f (2 ^ i) :: columns f (i + 1) k

/-- The columns of the composition. -/
def compose (a b : List ℕ) : List ℕ := b.map (combine a)

/-- `n` iterations, where `n` has at most `k` bits. -/
def iterateFast : List ℕ → ℕ → ℕ → ℕ → ℕ
  | _, 0, _, x => x
  | a, k + 1, n, x => iterateFast (compose a a) k (n / 2) (if n % 2 = 1 then combine a x else x)

section Bits

variable (a : List ℕ) (c x y : ℕ)

/-- The lowest bit of an exclusive or selects column by column. -/
theorem mul_bit_xor : c * ((x ^^^ y) % 2) = (c * (x % 2)) ^^^ (c * (y % 2)) := by
  rw [Nat.xor_mod_two_eq]
  rcases Nat.mod_two_eq_zero_or_one x with hx | hx <;>
    rcases Nat.mod_two_eq_zero_or_one y with hy | hy <;> simp [Nat.add_mod, hx, hy]

/-- The first column is selected by the lowest bit. -/
theorem combine_cons (cs : List ℕ) :
    combine (c :: cs) x = (c * (x % 2)) ^^^ combine cs (x / 2) := rfl

@[simp] theorem combine_zero : combine a 0 = 0 := by
  induction a with
  | nil => rfl
  | cons c cs ih => simp [combine_cons, ih]

/-- The map is linear. -/
theorem combine_xor : combine a (x ^^^ y) = combine a x ^^^ combine a y := by
  induction a generalizing x y with
  | nil => exact (Nat.xor_self 0).symm
  | cons c cs ih =>
    rw [combine_cons, combine_cons, combine_cons, mul_bit_xor, Nat.xor_div_two, ih]
    ac_rfl

/-- A column that a bit selects is mapped first and selected then. -/
theorem combine_mul_bit : combine a (c * (x % 2)) = combine a c * (x % 2) := by
  rcases Nat.mod_two_eq_zero_or_one x with hx | hx <;> simp [hx]

/-- The columns of a composition are those of the map applied to columns. -/
theorem combine_compose (b : List ℕ) : combine (compose a b) x = combine a (combine b x) := by
  induction b generalizing x with
  | nil => simp [compose, combine]
  | cons c cs ih =>
    rw [combine_cons, combine_xor, combine_mul_bit, ← ih]
    rfl

end Bits

/-- The lowest bit and the others. -/
theorem lowest_bit_xor (n i : ℕ) :
    n * 2 ^ i = (n % 2 * 2 ^ i) ^^^ (n / 2 * 2 ^ (i + 1)) := by
  have hsplit : n = (n % 2) ^^^ (n / 2) <<< 1 := by
    refine Nat.eq_of_testBit_eq fun j => ?_
    cases j with
    | zero => simp [Nat.shiftLeft_eq, Nat.add_mod]
    | succ j =>
      have hsmall : (n % 2) / 2 = 0 := Nat.div_eq_of_lt (Nat.mod_lt n Nat.two_pos)
      rw [Nat.testBit_xor, Nat.testBit_shiftLeft, Nat.testBit_succ (n % 2), hsmall,
        Nat.testBit_succ]
      simp
  rw [← Nat.shiftLeft_eq, ← Nat.shiftLeft_eq, ← Nat.shiftLeft_eq]
  calc n <<< i = ((n % 2) ^^^ (n / 2) <<< 1) <<< i := by rw [← hsplit]
    _ = (n % 2) <<< i ^^^ (n / 2) <<< (i + 1) := by
      rw [Nat.shiftLeft_xor_distrib, ← Nat.shiftLeft_add, Nat.add_comm]

section Columns

variable {f : ℕ → ℕ}

/-- A map that respects exclusive or is what its columns say. -/
theorem combine_columns (hf : ∀ x y, f (x ^^^ y) = f x ^^^ f y) (i k : ℕ) {n : ℕ}
    (hn : n < 2 ^ k) : combine (columns f i k) n = f (n * 2 ^ i) := by
  have hzero : f 0 = 0 := by simpa using hf 0 0
  induction k generalizing i n with
  | zero =>
    obtain rfl : n = 0 := by simpa using hn
    simp [hzero]
  | succ k ih =>
    have hhalf : n / 2 < 2 ^ k := by
      rw [pow_succ] at hn
      omega
    rw [columns, combine_cons, ih _ hhalf, lowest_bit_xor n i, hf]
    congr 1
    rcases Nat.mod_two_eq_zero_or_one n with hbit | hbit <;> simp [hbit, hzero]

end Columns

/-- The fast iteration is the iteration. -/
theorem iterateFast_eq (a : List ℕ) (k : ℕ) {n : ℕ} (hn : n < 2 ^ k) (x : ℕ) :
    iterateFast a k n x = (combine a)^[n] x := by
  induction k generalizing a n x with
  | zero =>
    obtain rfl : n = 0 := by simpa using hn
    rfl
  | succ k ih =>
    have hhalf : n / 2 < 2 ^ k := by
      rw [pow_succ] at hn
      omega
    have hsquare : combine (compose a a) = (combine a)^[2] := funext fun x => combine_compose a x a
    rw [iterateFast, ih _ hhalf, hsquare, ← Function.iterate_mul]
    rcases Nat.mod_two_eq_zero_or_one n with hbit | hbit
    · rw [if_neg (by omega), show 2 * (n / 2) = n by omega]
    · rw [if_pos hbit, ← Function.iterate_succ_apply, show (2 * (n / 2)).succ = n by omega]

/-- A period that no prime divides out is the minimal one. -/
theorem minimalPeriod_eq_of_prime {α : Type} {f : α → α} {x : α} {n : ℕ}
    (hx : f^[n] x = x) (hprime : ∀ p, p.Prime → p ∣ n → f^[n / p] x ≠ x) :
    Function.minimalPeriod f x = n := by
  have hdvd : Function.minimalPeriod f x ∣ n := Function.IsPeriodicPt.minimalPeriod_dvd hx
  obtain ⟨k, hk⟩ := hdvd
  by_contra hne
  have hk1 : k ≠ 1 := by
    rintro rfl
    exact hne (by rw [hk, Nat.mul_one])
  obtain ⟨p, hp, l, rfl⟩ := Nat.exists_prime_and_dvd hk1
  refine hprime p hp ⟨Function.minimalPeriod f x * l, by rw [hk, Nat.mul_left_comm]⟩ ?_
  -- the quotient is still a multiple of the minimal period
  have hquot : n / p = Function.minimalPeriod f x * l := by
    rw [hk, Nat.mul_left_comm, Nat.mul_div_cancel_left _ hp.pos]
  rw [hquot]
  exact (Function.isPeriodicPt_minimalPeriod f x).mul_const l

end Mekong.Computation.XorLinear
