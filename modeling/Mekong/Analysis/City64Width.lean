import Mekong.Program.City
import Mekong.Computation.WordBijections

/-!
# `hash64` on two pointer widths

The arithmetic of `hash64` on lengths is that of `usize`. For slices of a 32-bit target it
does not wrap, whatever the width, and the mask of the loop clears the same bits; so the
two widths agree, but for the inputs of 4 to 7 bytes. There the code adds the length to a
word of the data times eight, after a cast to `usize`, and the cast loses the high bits on
32 bits. All that follows is a bijection, and so the hashes differ whenever the sums do.
-/

set_option autoImplicit false

namespace Mekong.Analysis.City64Width

open Mekong.Computation Mekong.Model Mekong.Program Mekong.Program.City
open Mekong.Computation.WordBijections

/-! ## Arithmetic of both widths -/

section Usize

variable (width : PointerWidth)

/-- A `usize` has at least 32 bits. -/
theorem two_pow_bits_ge : 2 ^ 32 ≤ 2 ^ width.bits := by
  cases width <;> decide

/-- Twice the length of a short input does not wrap. -/
theorem usizeWrappingMul_two {len : ℕ} (h : len ≤ 64) : usizeWrappingMul width len 2 = len * 2 := by
  have hwidth := two_pow_bits_ge width
  exact Nat.mod_eq_of_lt (by omega)

/-- The mask of the loop. -/
theorem usizeAndNot_63 {len : ℕ} (h : len < 2 ^ 32) :
    usizeAndNot width (len - 1) 63 = 64 * ((len - 1) / 64) := by
  have hwidth := two_pow_bits_ge width
  exact usizeAndNot_two_pow (k := 6) (by cases width <;> decide) (by omega)

/-- `len.wrapping_add((a << 3) as usize)`. -/
def lengthAndWord (len : ℕ) (a : U32) : ℕ :=
  usizeWrappingAdd width len (asUsize width (a.setWidth 64 <<< 3))

/-- The summand of 4 to 7 bytes is a sum modulo the width of a `usize`. -/
theorem lengthAndWord_eq (len : ℕ) (a : U32) :
    lengthAndWord width len a = (len + 8 * a.toNat) % 2 ^ width.bits := by
  have ha := a.isLt
  have hshift : (a.setWidth 64 <<< 3).toNat = 8 * a.toNat := by
    rw [BitVec.toNat_shiftLeft, BitVec.toNat_setWidth, Nat.mod_eq_of_lt (by omega),
      Nat.shiftLeft_eq, Nat.mod_eq_of_lt (by omega), Nat.mul_comm]
  rw [lengthAndWord, usizeWrappingAdd, asUsize, hshift, Nat.add_mod_mod]

end Usize

/-- The sums of the two widths agree while the exact sum fits 32 bits. -/
theorem lengthAndWord_eq_iff {len : ℕ} (h : len < 2 ^ 32) (a : U32) :
    BitVec.ofNat 64 (lengthAndWord .bits32 len a) = BitVec.ofNat 64 (lengthAndWord .bits64 len a) ↔
      len + 8 * a.toNat < 2 ^ 32 := by
  have ha := a.isLt
  rw [lengthAndWord_eq, lengthAndWord_eq]
  simp only [PointerWidth.bits]
  constructor
  · intro heq
    have hnat := congrArg BitVec.toNat heq
    simp only [BitVec.toNat_ofNat] at hnat
    omega
  · intro hlt
    rw [Nat.mod_eq_of_lt hlt, Nat.mod_eq_of_lt (by omega)]

/-! ## The mixing of 16 bytes -/

/-- The mixing loses nothing of its first word. -/
theorem hash64Len16_injective {mul inverse : U64} (h : mul * inverse = 1) (v : U64) :
    Function.Injective fun u => hash64Len16 u v mul :=
  have hshift := xor_ushiftRight (w := 64) (show 0 < 47 by decide)
  have hfirst := hshift.comp ((mul_const h).comp (xor_const v))
  have hsecond := hshift.comp ((mul_const h).comp ((const_xor v).comp hfirst))
  ((mul_const h).comp hsecond).1

/-- The default multiplier has an inverse. -/
theorem defaultMul_mul : defaultMul * 0xdc56e6f5090b32d9 = 1 := by decide

/-! ## The classes of lengths -/

section Classes

variable {endian : Endian} {data : Bytes}

/-- The multiplier of the inputs of up to 64 bytes. -/
def lengthMul (len : ℕ) : U64 := k2 + BitVec.ofNat 64 (len * 2)

/-- The multipliers of 4 to 7 bytes have inverses. -/
theorem lengthMul_unit : ∀ len, 4 ≤ len → len ≤ 7 →
    ∃ inverse, lengthMul len * inverse = 1 := by
  intro len h4 h7
  obtain rfl | rfl | rfl | rfl : len = 4 ∨ len = 5 ∨ len = 6 ∨ len = 7 := by omega
  · exact ⟨0xb6f1051da064ab67, by decide⟩
  · exact ⟨0xc3d6bcd2fd2b07e9, by decide⟩
  · exact ⟨0xf088f01bfef2efd3, by decide⟩
  · exact ⟨0x02d2e813222193f5, by decide⟩

/-- The inputs of 4 to 7 bytes. -/
theorem hash64_val_of_4_to_7 (width : PointerWidth) (h4 : 4 ≤ data.length)
    (h7 : data.length ≤ 7) :
    (City.hash64 width endian data).val = hash64Len16
      (BitVec.ofNat 64 (lengthAndWord width data.length (fetch32 endian data).val))
      ((fetch32 endian (data.drop (data.length - 4))).val.setWidth 64)
      (lengthMul data.length) := by
  unfold City.hash64 hash64Len0To16
  simp only [if_pos (show data.length ≤ 32 by omega), if_pos (show data.length ≤ 16 by omega),
    if_neg (show ¬ data.length ≥ 8 by omega), if_pos (show data.length ≥ 4 from h4),
    usizeWrappingMul_two width (show data.length ≤ 64 by omega)]
  rfl

/-- The other classes do not see the width. -/
theorem hash64_val_eq (h : ¬ (4 ≤ data.length ∧ data.length ≤ 7)) (hdata : data.length < 2 ^ 32) :
    (City.hash64 .bits32 endian data).val = (City.hash64 .bits64 endian data).val := by
  unfold City.hash64
  by_cases h64 : data.length ≤ 64
  · have hmul := fun width => usizeWrappingMul_two width h64
    by_cases h32 : data.length ≤ 32
    · by_cases h16 : data.length ≤ 16
      · simp only [if_pos h32, if_pos h16, hash64Len0To16, hmul]
        by_cases h8 : data.length ≥ 8
        · simp only [if_pos h8]
        · simp only [if_neg h8, if_neg (show ¬ data.length ≥ 4 by omega)]
      · simp only [if_pos h32, if_neg h16, hash64Len17To32, hmul]
    · simp only [if_neg h32, if_pos h64, hash64Len33To64, hmul]
  · simp only [if_neg (show ¬ data.length ≤ 32 by omega), if_neg h64, Traced.val_bind,
      Traced.val_pure, val_usizeSub, usizeAndNot_63 _ hdata]

end Classes

/-- The inputs that `hash64` hashes otherwise with a 32-bit `usize`: of 4 to 7 bytes, where
the length and eight times the first word do not fit it.
SOURCE: city.rs:153-162 -/
def Truncated (endian : Endian) (data : Bytes) : Prop :=
  4 ≤ data.length ∧ data.length ≤ 7 ∧
    2 ^ 32 ≤ data.length + 8 * (fetch32 endian data).val.toNat

/-- **`hash64` does not see the pointer width but for the truncated inputs.** -/
theorem hash64_width_independent (endian : Endian) (data : Slice .bits32) :
    ((City.hash64 .bits32 endian data.val).val = (City.hash64 .bits64 endian data.val).val ↔
        ¬ Truncated endian data.val) ∧
      (∀ seed, (hash64WithSeed .bits32 endian data.val seed).val =
          (hash64WithSeed .bits64 endian data.val seed).val ↔ ¬ Truncated endian data.val) ∧
      ∀ seed0 seed1, (hash64WithSeeds .bits32 endian data.val seed0 seed1).val =
          (hash64WithSeeds .bits64 endian data.val seed0 seed1).val ↔
            ¬ Truncated endian data.val := by
  have hhash : (City.hash64 .bits32 endian data.val).val =
      (City.hash64 .bits64 endian data.val).val ↔ ¬ Truncated endian data.val := by
    have hdata : data.val.length < 2 ^ 32 := data.property
    by_cases h : 4 ≤ data.val.length ∧ data.val.length ≤ 7
    · obtain ⟨inverse, hinverse⟩ := lengthMul_unit _ h.1 h.2
      rw [hash64_val_of_4_to_7 .bits32 h.1 h.2, hash64_val_of_4_to_7 .bits64 h.1 h.2,
        (hash64Len16_injective hinverse _).eq_iff, lengthAndWord_eq_iff hdata]
      simp only [Truncated, h, true_and, not_le]
    · refine iff_of_true (hash64_val_eq h hdata) ?_
      rintro ⟨h4, h7, _⟩
      exact h ⟨h4, h7⟩
  have hseeds : ∀ seed0 seed1, (hash64WithSeeds .bits32 endian data.val seed0 seed1).val =
      (hash64WithSeeds .bits64 endian data.val seed0 seed1).val ↔ ¬ Truncated endian data.val := by
    intro seed0 seed1
    simp only [hash64WithSeeds, Traced.val_bind, Traced.val_pure]
    rw [(hash64Len16_injective defaultMul_mul seed1).eq_iff, sub_left_inj]
    exact hhash
  exact ⟨hhash, fun seed => hseeds k2 seed, hseeds⟩

/-- Four bytes that spell 2^29. -/
theorem hash64_width_independent_fails :
    ¬ ∀ (endian : Endian) (data : Slice .bits32),
      (City.hash64 .bits32 endian data.val).val = (City.hash64 .bits64 endian data.val).val := by
  intro hall
  exact absurd (hall .little ⟨[0, 0, 0, 0x20], by decide⟩) (by decide +kernel)

end Mekong.Analysis.City64Width
