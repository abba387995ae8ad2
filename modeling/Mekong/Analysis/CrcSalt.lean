import Mekong.Program.LowLevel

/-!
# The salt of the CRC path

The last multiplication of the CRC path has `mul - crcs.0` and `crcs.1 - mul` as its
multiplicands. A CRC is below 2^32 and the salt `mul` is not, for every length up to 32
and every middle byte, so that neither difference is zero once an accumulator has gone
through a CRC. The empty input goes through none: `crcs.0` is zero and `crcs.1` is the
state with its bytes reversed, which is the salt for one state.
-/

set_option autoImplicit false

namespace Mekong.Analysis.CrcSalt

open Mekong.Computation Mekong.Model Mekong.Program Mekong.Program.LowLevel

/-- The multiplicands of the last `mix` of the CRC path.
SOURCE: low_level.rs:94-154 -/
def crcMultiplicands (cpu : X86Intrinsics) (state : U64) (first : Bytes) : U64 × U64 :=
  let s := (crcAbsorb cpu (crcInit state first.length) first).val
  (s.mul - s.crcs0, s.crcs1 - s.mul)

/-- `_mm_crc32_u64` returns a value below 2^32. -/
def CrcsBelow (cpu : X86Intrinsics) : Prop := ∀ a v, (cpu.mmCrc32U64 a v).toNat < 2 ^ 32

/-- The salt is above every CRC, also with a byte added to it. -/
structure Salted (s : CrcState) : Prop where
  mul_ge : 2 ^ 32 ≤ s.mul.toNat
  crcs0_lt : s.crcs0.toNat < 2 ^ 32
  crcs1_lt : s.crcs1.toNat < 2 ^ 32

/-- The two multiplicands of a salted state are not zero. -/
theorem Salted.sub_ne_zero {s : CrcState} (h : Salted s) :
    s.mul - s.crcs0 ≠ 0 ∧ s.crcs1 - s.mul ≠ 0 := by
  obtain ⟨hmul, h0, h1⟩ := h
  constructor
  · rw [Ne, sub_eq_zero]
    intro heq
    rw [heq] at hmul
    omega
  · rw [Ne, sub_eq_zero]
    intro heq
    rw [heq] at h1
    omega

/-! ## The salt -/

/-- The salt of a short input does not fit into 32 bits. -/
theorem salt_ge : ∀ len ≤ 32, 2 ^ 32 ≤ (kMul.rotateRight len).toNat := by
  decide +kernel

/-- A byte added to the salt does not wrap it around. -/
theorem salt_lt : ∀ len ≤ 32, (kMul.rotateRight len).toNat < 2 ^ 64 - 2 ^ 8 := by
  decide +kernel

/-- The salt of a short input with a byte added does not fit into 32 bits. -/
theorem salt_add_byte_ge {len : ℕ} (h : len ≤ 32) (byte : U8) :
    2 ^ 32 ≤ (kMul.rotateRight len + byte.setWidth 64).toNat := by
  have hge := salt_ge len h
  have hlt := salt_lt len h
  have hbyte := byte.isLt
  rw [BitVec.toNat_add, BitVec.toNat_setWidth, Nat.mod_eq_of_lt (by omega : byte.toNat < 2 ^ 64),
    Nat.mod_eq_of_lt (by omega)]
  omega

/-! ## The accumulators -/

section Absorb

variable {cpu : X86Intrinsics} {state : U64} {first : Bytes}

/-- A CRC fits into 32 bits. -/
theorem setWidth_lt (crc : U32) : (crc.setWidth 64 : U64).toNat < 2 ^ 32 := by
  rw [BitVec.toNat_setWidth]
  exact (Nat.mod_le _ _).trans_lt crc.isLt

variable (state) in
/-- Every input that is not empty goes through a CRC on both sides. -/
theorem crcAbsorb_salted (hcpu : CrcsBelow cpu) (hne : first ≠ []) (hlen : first.length ≤ 32) :
    Salted (crcAbsorb cpu (crcInit state first.length) first).val := by
  have hpos : first.length ≥ 1 := List.length_pos_iff.mpr hne
  have hmul := salt_ge first.length hlen
  by_cases h8 : first.length > 8
  · by_cases h16 : first.length > 16
    · simp only [crcAbsorb, if_pos h8, if_pos h16, Traced.val_bind, Traced.val_pure]
      exact ⟨hmul, hcpu _ _, hcpu _ _⟩
    · simp only [crcAbsorb, if_pos h8, if_neg h16, Traced.val_bind, Traced.val_pure]
      exact ⟨hmul, hcpu _ _, hcpu _ _⟩
  · by_cases h4 : first.length ≥ 4
    · simp only [crcAbsorb, if_neg h8, if_pos h4, Traced.val_bind, Traced.val_pure]
      exact ⟨hmul, setWidth_lt _, setWidth_lt _⟩
    · simp only [crcAbsorb, if_neg h8, if_neg h4, if_pos hpos, Traced.val_bind, Traced.val_pure]
      exact ⟨salt_add_byte_ge hlen _, setWidth_lt _, setWidth_lt _⟩

/-- The empty input leaves the accumulators as they are. -/
theorem crcMultiplicands_nil :
    crcMultiplicands cpu state [] = (kMul, swapBytes64 state - kMul) := by
  have hmul : kMul.rotateRight 0 = kMul := by decide
  have hcrcs0 : (state + 8) * BitVec.ofNat 64 0 = 0 := BitVec.mul_zero
  simp only [crcMultiplicands, crcAbsorb, crcInit, List.length_nil, gt_iff_lt, ge_iff_le,
    Nat.not_lt_zero, Nat.reduceLeDiff, if_false, Traced.val_pure, hmul, hcrcs0, sub_zero]

/-- The CRC path is a `mix` of the multiplicands. -/
theorem combineContiguousCrc_val :
    (combineContiguousCrc cpu state first).val =
      mix (crcMultiplicands cpu state first).1 (crcMultiplicands cpu state first).2 := rfl

end Absorb

/-- **The multiplicands of the CRC path are not zero**, but for the empty input in one
state. -/
theorem crc_multiplicands_ne_zero (cpu : X86Intrinsics) (hcpu : CrcsBelow cpu)
    (hsse : cpu.sse42 = true) (state : U64) (first : Bytes) (hlen : first.length ≤ 32) :
    (combineContiguousOn64bit (.x86_64 cpu) state first).val =
        mix (crcMultiplicands cpu state first).1 (crcMultiplicands cpu state first).2 ∧
      ((crcMultiplicands cpu state first).1 ≠ 0 ∧ (crcMultiplicands cpu state first).2 ≠ 0 ↔
        ¬ (first = [] ∧ state = swapBytes64 kMul)) := by
  constructor
  · have hcrc : Target.crc (.x86_64 cpu) = some cpu := if_pos hsse
    rw [combineContiguousOn64bit, hcrc]
    simp only [if_neg (Nat.not_lt_of_le hlen), gt_iff_lt]
    exact combineContiguousCrc_val
  · by_cases hne : first = []
    · subst hne
      have hmul : kMul ≠ 0 := by decide
      have hswap : swapBytes64 state - kMul = 0 ↔ state = swapBytes64 kMul := by
        rw [sub_eq_zero]
        constructor
        · intro heq
          rw [← heq, swapBytes64_swapBytes64]
        · intro heq
          rw [heq, swapBytes64_swapBytes64]
      simp only [crcMultiplicands_nil, true_and, ne_eq, hmul, not_false_eq_true, hswap]
    · have hsalted := (crcAbsorb_salted state hcpu hne hlen).sub_ne_zero
      simp only [crcMultiplicands, hne, false_and, not_false_eq_true, iff_true]
      exact hsalted

/-! ## A processor -/

/-- One bit of the CRC-32C of the `crc32` instructions. -/
def crcShift (crc : U32) : U32 :=
  if crc.getLsbD 0 then crc >>> 1 ^^^ 0x82f63b78 else crc >>> 1

/-- `_mm_crc32_u8`. -/
def crc32cByte (crc : U32) (v : U8) : U32 :=
  (List.range 8).foldl (fun crc _ => crcShift crc) (crc ^^^ v.setWidth 32)

/-- The CRC of the low `n` bytes of a word. -/
def crc32c (n : ℕ) (crc : U32) (v : U64) : U32 :=
  (List.range n).foldl (fun crc k => crc32cByte crc (v.extractLsb' (8 * k) 8)) crc

/-- The CRC instructions. Inputs of at most 32 bytes use no other instruction. -/
def crcCpu : X86Intrinsics where
  mmCrc32U8 := crc32cByte
  mmCrc32U32 crc v := crc32c 4 crc (v.setWidth 64)
  mmCrc32U64 crc v := (crc32c 8 (crc.setWidth 32) v).setWidth 64
  mmAesencSi128 a _ := a
  mmAesdecSi128 a _ := a
  sse42 := true

/-- Nine bytes in the state that is bad for none. -/
theorem crc_multiplicands_ne_zero_nine :
    (crcMultiplicands crcCpu (swapBytes64 kMul) [1, 2, 3, 4, 5, 6, 7, 8, 9]).2 ≠ 0 :=
  ((crc_multiplicands_ne_zero crcCpu (fun _ _ => setWidth_lt _) rfl (swapBytes64 kMul)
    [1, 2, 3, 4, 5, 6, 7, 8, 9] (by decide)).2.mpr (by decide)).2

/-- No bytes in that state. -/
theorem crc_multiplicands_ne_zero_fails :
    ¬ ∀ (cpu : X86Intrinsics), CrcsBelow cpu → cpu.sse42 = true →
      ∀ (state : U64) (first : Bytes), first.length ≤ 32 →
        (crcMultiplicands cpu state first).1 ≠ 0 ∧ (crcMultiplicands cpu state first).2 ≠ 0 := by
  intro hall
  have hpair := hall crcCpu (fun _ _ => setWidth_lt _) rfl 0xf58c1edee0f9d579 [] (by decide)
  exact hpair.2 (by decide)

end Mekong.Analysis.CrcSalt
