import Mekong.Computation.XorLinear
import Mekong.Program.FairTimeout
import Mathlib.Tactic.NormNum.Prime

/-!
# The period of `gen_u32`

The three shifts of `gen_u32` respect exclusive or, so its powers are computed from its 32
columns. The power `2^32 - 1` is the identity. For every prime divisor `p` of `2^32 - 1`
the power `(2^32 - 1) / p` moves every word but zero: with the identity added, it has a
power that is the identity. So the words other than zero are one orbit, and the state zero
is never left.
-/

set_option autoImplicit false

namespace Mekong.Analysis.GenU32

open Mekong.Computation Mekong.Computation.XorLinear Mekong.Model Mekong.Program
  Mekong.Program.FairTimeout

/-- A step with a left shift is linear. -/
theorem xor_shiftLeft_xor (k : ℕ) (x y : BitVec 32) :
    (x ^^^ y) ^^^ ((x ^^^ y) <<< k) = (x ^^^ (x <<< k)) ^^^ (y ^^^ (y <<< k)) := by
  rw [BitVec.shiftLeft_xor_distrib]
  generalize x <<< k = x', y <<< k = y'
  ac_rfl

/-- A step with a right shift is linear. -/
theorem xor_ushiftRight_xor (k : ℕ) (x y : BitVec 32) :
    (x ^^^ y) ^^^ ((x ^^^ y) >>> k) = (x ^^^ (x >>> k)) ^^^ (y ^^^ (y >>> k)) := by
  rw [BitVec.ushiftRight_xor_distrib]
  generalize x >>> k = x', y >>> k = y'
  ac_rfl

/-- The generator is linear. -/
theorem genU32_xor (x y : U32) : genU32 (x ^^^ y) = genU32 x ^^^ genU32 y := by
  simp only [genU32]
  rw [xor_shiftLeft_xor 13, xor_ushiftRight_xor 17, xor_shiftLeft_xor 5]

/-- Zero is a fixed point. -/
theorem genU32_zero : genU32 0 = 0 := by decide

/-- `gen_u32` on numbers. -/
def genNat (n : ℕ) : ℕ := (genU32 (BitVec.ofNat 32 n)).toNat

/-- The generator on naturals is linear. -/
theorem genNat_xor (x y : ℕ) : genNat (x ^^^ y) = genNat x ^^^ genNat y := by
  rw [genNat, BitVec.ofNat_xor, genU32_xor, BitVec.toNat_xor, genNat, genNat]

/-- The columns of `gen_u32`. -/
def genColumns : List ℕ := columns genNat 0 32

/-- The generator combines its columns. -/
theorem combine_genColumns (seed : U32) : combine genColumns seed.toNat = (genU32 seed).toNat := by
  rw [genColumns, combine_columns genNat_xor 0 32 seed.isLt, pow_zero, Nat.mul_one, genNat,
    BitVec.ofNat_toNat, BitVec.setWidth_eq]

/-- The iterates of the generator are those of the combination. -/
theorem toNat_iterate (n : ℕ) (seed : U32) :
    (genU32^[n] seed).toNat = (combine genColumns)^[n] seed.toNat := by
  induction n generalizing seed with
  | zero => rfl
  | succ n ih => rw [Function.iterate_succ_apply, Function.iterate_succ_apply, ih,
      combine_genColumns]

/-- The number of words other than zero. -/
def period : ℕ := 2 ^ 32 - 1

/-- Iterations from one, by squaring. -/
theorem toNat_iterate_one {n : ℕ} (hn : n < 2 ^ 32) :
    (genU32^[n] 1).toNat = iterateFast genColumns 32 n 1 := by
  rw [toNat_iterate, iterateFast_eq _ _ hn]
  rfl

/-- One comes back after the period. -/
theorem iterate_period_one : genU32^[period] 1 = 1 := by
  apply BitVec.eq_of_toNat_eq
  rw [toNat_iterate_one (by decide)]
  decide +kernel

/-- The iterations that would show a smaller period. -/
theorem iterate_one_ne {n : ℕ} (hn : n < 2 ^ 32) (hne : iterateFast genColumns 32 n 1 ≠ 1) :
    genU32^[n] 1 ≠ 1 := by
  intro h
  rw [← toNat_iterate_one hn, h] at hne
  exact hne rfl

/-- The prime factors of the period. -/
theorem prime_dvd_period {p : ℕ} (hp : p.Prime) (hdvd : p ∣ period) :
    p = 3 ∨ p = 5 ∨ p = 17 ∨ p = 257 ∨ p = 65537 := by
  rw [show period = 3 * 5 * 17 * 257 * 65537 by rfl] at hdvd
  have hprime : ∀ q : ℕ, q.Prime → p ∣ q → p = q :=
    fun q hq h => (Nat.prime_dvd_prime_iff_eq hp hq).mp h
  rcases hp.dvd_mul.mp hdvd with hdvd | hdvd
  · rcases hp.dvd_mul.mp hdvd with hdvd | hdvd
    · rcases hp.dvd_mul.mp hdvd with hdvd | hdvd
      · rcases hp.dvd_mul.mp hdvd with hdvd | hdvd
        · exact .inl (hprime 3 (by norm_num) hdvd)
        · exact .inr (.inl (hprime 5 (by norm_num) hdvd))
      · exact .inr (.inr (.inl (hprime 17 (by norm_num) hdvd)))
    · exact .inr (.inr (.inr (.inl (hprime 257 (by norm_num) hdvd))))
  · exact .inr (.inr (.inr (.inr (hprime 65537 (by norm_num) hdvd))))

/-- One comes back no earlier. -/
theorem minimalPeriod_one : Function.minimalPeriod genU32 1 = period := by
  refine minimalPeriod_eq_of_prime iterate_period_one fun p hp hdvd => ?_
  rcases prime_dvd_period hp hdvd with rfl | rfl | rfl | rfl | rfl <;>
    exact iterate_one_ne (by decide) (by decide +kernel)

/-! ## The orbit -/

/-- Zero is never left, so it is not on the way back to one. -/
theorem iterate_one_ne_zero (n : ℕ) : genU32^[n] 1 ≠ 0 := by
  intro h
  have hback : genU32^[period * n] 1 = 1 :=
    Function.IsPeriodicPt.mul_const (f := genU32) (x := 1) iterate_period_one n
  have hsplit : period * n = (period - 1) * n + n := by
    rw [← Nat.succ_mul]
    rfl
  rw [hsplit, Function.iterate_add_apply, h, Function.iterate_fixed genU32_zero] at hback
  exact absurd hback (by decide)

/-- An orbit of this period that avoids zero takes every other value. -/
theorem exists_iterate {x y : U32} (hx : Function.minimalPeriod genU32 x = period)
    (hne : ∀ n, genU32^[n] x ≠ 0) (hy : y ≠ 0) : ∃ n, n < period ∧ genU32^[n] x = y := by
  have hpos : ∀ {z : U32}, z ≠ 0 → 0 < z.toNat ∧ z.toNat - 1 < period := by
    intro z hz
    have hz' : z.toNat ≠ 0 := fun h => hz (BitVec.eq_of_toNat_eq h)
    have hlt : z.toNat < period + 1 := z.isLt
    omega
  let place (n : Fin period) : Fin period := ⟨(genU32^[n.val] x).toNat - 1, (hpos (hne n)).2⟩
  have hinj : Function.Injective place := by
    intro m n h
    have hval : (genU32^[m.val] x).toNat - 1 = (genU32^[n.val] x).toNat - 1 :=
      congrArg Fin.val h
    have heq : (genU32^[m.val] x).toNat = (genU32^[n.val] x).toNat := by
      have hm := (hpos (hne m)).1
      have hn := (hpos (hne n)).1
      omega
    refine Fin.eq_of_val_eq ?_
    have hlt : ∀ k : Fin period, k.val < Function.minimalPeriod genU32 x := fun k =>
      k.isLt.trans_eq hx.symm
    rw [← Function.iterate_eq_iterate_iff_of_lt_minimalPeriod (hlt m) (hlt n)]
    exact BitVec.eq_of_toNat_eq heq
  obtain ⟨n, hn⟩ := Finite.injective_iff_surjective.mp hinj ⟨y.toNat - 1, (hpos hy).2⟩
  have hval : (genU32^[n.val] x).toNat - 1 = y.toNat - 1 := congrArg Fin.val hn
  refine ⟨n.val, n.isLt, BitVec.eq_of_toNat_eq ?_⟩
  have hn' := (hpos (hne n)).1
  have hy' := (hpos hy).1
  omega

/-- Every state but zero is on the orbit of one. -/
theorem minimalPeriod_of_ne_zero {seed : U32} (hseed : seed ≠ 0) :
    Function.minimalPeriod genU32 seed = period ∧ ∀ n, genU32^[n] seed ≠ 0 := by
  obtain ⟨k, -, rfl⟩ := exists_iterate minimalPeriod_one iterate_one_ne_zero hseed
  constructor
  · rw [Function.minimalPeriod_apply_iterate, minimalPeriod_one]
    exact Function.minimalPeriod_pos_iff_mem_periodicPts.mp (by rw [minimalPeriod_one]; decide)
  · intro n
    rw [← Function.iterate_add_apply]
    exact iterate_one_ne_zero (n + k)

/-- **`gen_u32` has the full period.** From every seed but zero the results of the calls
repeat after `2^32 - 1` calls, are never zero, and take every other value once before that. -/
theorem gen_u32_full_period {seed : U32} (hseed : seed ≠ 0) :
    (∀ n, genU32^[n + (2 ^ 32 - 1)] seed = genU32^[n] seed) ∧ (∀ n, genU32^[n] seed ≠ 0) ∧
      ∀ y : U32, y ≠ 0 → ∃! n, n < 2 ^ 32 - 1 ∧ genU32^[n + 1] seed = y := by
  obtain ⟨hmin, hne⟩ := minimalPeriod_of_ne_zero hseed
  refine ⟨fun n => ?_, hne, fun y hy => ?_⟩
  · have hback : genU32^[period] seed = seed := by
      rw [← hmin]
      exact Function.iterate_minimalPeriod
    change genU32^[n + period] seed = genU32^[n] seed
    rw [Function.iterate_add_apply, hback]
  · -- the results are the orbit of the first of them
    obtain ⟨hfirst, hnext⟩ := minimalPeriod_of_ne_zero (hne 1)
    obtain ⟨n, hn, heq⟩ := exists_iterate hfirst hnext hy
    refine ⟨n, ⟨hn, heq⟩, ?_⟩
    rintro m ⟨hm, hm'⟩
    exact (Function.iterate_eq_iterate_iff_of_lt_minimalPeriod (hm.trans_eq hfirst.symm)
      (hn.trans_eq hfirst.symm)).mp
      (hm'.trans heq.symm)

/-- The seed one has the full period. -/
theorem gen_u32_full_period_one :
    (∀ n, genU32^[n + (2 ^ 32 - 1)] 1 = genU32^[n] 1) ∧ (∀ n, genU32^[n] 1 ≠ 0) ∧
      ∀ y : U32, y ≠ 0 → ∃! n, n < 2 ^ 32 - 1 ∧ genU32^[n + 1] 1 = y :=
  gen_u32_full_period (by decide)

end Mekong.Analysis.GenU32
