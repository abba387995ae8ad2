import Mekong.Program.Hash
import Mathlib.Data.Nat.ModEq
import Mathlib.Data.Nat.Prime.Basic

/-!
# What a write keeps of the hasher's state

A write mixes its argument into the state. Before the first multiplication the state must
still be there: two states that are distinct before the write should be distinct in what
goes into the multiplication, and so should two arguments.

Nine of the ten integer methods with one multiplication pass a value that depends on the
argument alone, and the exclusive or with it keeps the state. `write_usize` passes a value
that begins with the state itself, and two states that differ in the top bit become one.
The two methods for 128 bits pass one word after the other. The CRC path splits the state
into its halves and multiplies the lower one by the length of the input, which loses a bit
when the length is even.
-/

set_option autoImplicit false

namespace Mekong.Analysis.StateKept

open Mekong.Computation Mekong.Model Mekong.Program Mekong.Program.LowLevel

/-! ## Words -/

section Words

variable {n m : ℕ}

/-- Zero extension tells words apart. -/
theorem setWidth_injective (h : n ≤ m) :
    Function.Injective fun x : BitVec n => x.setWidth m := by
  intro x y hxy
  have hlt : ∀ z : BitVec n, z.toNat % 2 ^ m = z.toNat := fun z =>
    Nat.mod_eq_of_lt (z.isLt.trans_le (Nat.pow_le_pow_right (by decide) h))
  have hnat := congrArg BitVec.toNat hxy
  simp only [BitVec.toNat_setWidth, hlt] at hnat
  exact BitVec.eq_of_toNat_eq hnat

/-- Sign extension tells words apart. -/
theorem signExtend_injective (h : n ≤ m) :
    Function.Injective fun x : BitVec n => x.signExtend m := by
  intro x y hxy
  have hint := congrArg BitVec.toInt hxy
  simp only [BitVec.toInt_signExtend_of_le h] at hint
  exact BitVec.eq_of_toInt_eq hint

/-- Adding the top bit flips it. -/
theorem add_topBit (x : U64) : x + 0x8000000000000000 = x ^^^ 0x8000000000000000 := by
  refine BitVec.eq_of_getLsbD_eq fun i hi => ?_
  have htop : (0x8000000000000000 : U64) = BitVec.ofNat 64 (2 ^ 63) := by decide
  have hsum : (x + 0x8000000000000000).getLsbD i = (2 ^ 63 + x.toNat).testBit i := by
    rw [htop, BitVec.getLsbD, BitVec.toNat_add, BitVec.toNat_ofNat, Nat.testBit_mod_two_pow,
      Nat.mod_eq_of_lt (by decide), Nat.add_comm]
    simp [hi]
  rw [hsum, BitVec.getLsbD_xor, htop, BitVec.getLsbD_ofNat, Nat.testBit_two_pow]
  rcases Nat.lt_or_ge i 63 with hlt | hge
  · rw [Nat.testBit_two_pow_add_gt hlt]
    simp [BitVec.getLsbD, Nat.ne_of_gt hlt]
  · obtain rfl : i = 63 := by omega
    rw [Nat.testBit_two_pow_add_eq]
    simp [BitVec.getLsbD]

/-- Exclusive or with a word that is the state and a constant forgets the top bit. -/
theorem xor_add_topBit (s c : U64) :
    (s + 0x8000000000000000) ^^^ (s + 0x8000000000000000 + c) = s ^^^ (s + c) := by
  rw [show s + 0x8000000000000000 + c = s + c + 0x8000000000000000 by
    rw [BitVec.add_assoc, BitVec.add_comm 0x8000000000000000 c, ← BitVec.add_assoc]]
  rw [add_topBit, add_topBit, BitVec.xor_assoc, BitVec.xor_comm (s + c), ← BitVec.xor_assoc _ _ (s + c),
    BitVec.xor_self, BitVec.zero_xor]

end Words

/-! ## Integer writes -/

section Integers

variable (width : PointerWidth) (endian : Endian)

/-- The value that a method passes to `combine_raw`. -/
def value (state : U64) : (method : IntMethod) → BitVec (method.bits width) → U64
  | .u8, i =>
    let byte : U8 := i
    if byte = 1 then (BitVec.allOnes width.bits).setWidth 64 else byte.setWidth 64
  | .u16, i | .u32, i | .i16, i | .i32, i => i.setWidth 64
  | .u64, i | .i64, i => i
  | .usize, i => state + 0x57 + i.setWidth 64
  | .i8, i => i.signExtend 64
  | .isize, i =>
    if width = .bits32 then (i.signExtend 32).setWidth 64 else i.signExtend 64

/-- No method takes an integer of more than 64 bits. -/
theorem bits_le (method : IntMethod) : method.bits width ≤ 64 := by
  cases method <;> cases width <;> decide

/-- A method calls `combine_raw` once, with its value. -/
theorem write_eq_combineRaw (hasher : MixingHasher) (method : IntMethod)
    (i : BitVec (method.bits width)) :
    method.write width endian hasher i =
      hasher.combineRaw (value width hasher.state method i) := by
  cases method with
  | u8 =>
    simp only [IntMethod.write, MixingHasher.writeU8, value]
    split <;> rfl
  | isize =>
    simp only [IntMethod.write, MixingHasher.writeIsize, MixingHasher.writeI32,
      MixingHasher.writeI64, value, loadOwn_eq endian 4 rfl, loadOwn_eq endian 8 rfl]
    split <;> rfl
  | i8 => rfl
  | u16 | i16 =>
    exact congrArg (fun v : BitVec 16 => hasher.combineRaw (v.setWidth 64))
      (loadOwn_eq endian 2 rfl i)
  | u32 | i32 =>
    exact congrArg (fun v : BitVec 32 => hasher.combineRaw (v.setWidth 64))
      (loadOwn_eq endian 4 rfl i)
  | u64 | i64 =>
    exact congrArg (fun v : BitVec 64 => hasher.combineRaw v) (loadOwn_eq endian 8 rfl i)
  | usize =>
    exact congrArg (fun v : BitVec 64 => hasher.combineRaw v) (loadOwn_eq endian 8 rfl _)

/-- A method makes one plain operation. -/
theorem write_log (hasher : MixingHasher) (method : IntMethod) (i : BitVec (method.bits width)) :
    (method.write width endian hasher i).log = [hasher.state ^^^ value width hasher.state method i] := by
  rw [write_eq_combineRaw]
  rfl

/-- The value `true` is written as is the value of no other byte. -/
theorem u8_value_injective (state : U64) : Function.Injective (value width state .u8) := by
  have htrue : ∀ i : U8, i ≠ 1 →
      i.setWidth 64 ≠ (BitVec.allOnes width.bits).setWidth 64 := by
    intro i _ h
    have hlt := i.isLt
    have hnat := congrArg BitVec.toNat h
    cases width <;> simp only [PointerWidth.bits, BitVec.toNat_setWidth, BitVec.toNat_allOnes] at hnat <;>
      omega
  intro i j h
  simp only [value] at h
  split at h <;> rename_i hi <;> split at h <;> rename_i hj
  · exact hi.trans hj.symm
  · exact absurd h.symm (htrue j hj)
  · exact absurd h (htrue i hi)
  · exact setWidth_injective (bits_le width .u8) h

/-- Distinct arguments are passed on as distinct values. -/
theorem value_injective (state : U64) (method : IntMethod) :
    Function.Injective (value width state method) := by
  have hle := bits_le width method
  cases method with
  | u8 => exact u8_value_injective width state
  | usize =>
    intro i j h
    exact setWidth_injective hle (BitVec.add_right_inj _ |>.mp h)
  | i8 => exact signExtend_injective hle
  | isize =>
    intro i j h
    cases width with
    | bits32 =>
      have hword : (i.signExtend 32) = j.signExtend 32 :=
        setWidth_injective (show 32 ≤ 64 by decide) h
      exact signExtend_injective (show 32 ≤ 32 by decide) hword
    | bits64 => exact signExtend_injective hle h
  | _ => exact setWidth_injective hle

/-- **Integer writes keep the state, but for `write_usize`.** Each method calls `mix` once;
for a fixed argument its first multiplicand tells two states apart exactly when the method
is not `write_usize`, and for a fixed state it tells two arguments apart. -/
theorem int_writes_keep_state (method : IntMethod) (i : BitVec (method.bits width)) :
    (∀ hasher : MixingHasher, (method.write width endian hasher i).log.length = 1) ∧
      ((∀ h₁ h₂ : MixingHasher, h₁ ≠ h₂ →
        (method.write width endian h₁ i).log ≠ (method.write width endian h₂ i).log) ↔
          method ≠ .usize) ∧
      ∀ hasher : MixingHasher,
        Function.Injective fun j => (method.write width endian hasher j).log := by
  refine ⟨fun hasher => by rw [write_log]; rfl, ⟨fun hkeep => ?_, fun hmethod h₁ h₂ hne => ?_⟩, ?_⟩
  · rintro rfl
    -- any state and the one with the other top bit
    refine hkeep ⟨0⟩ ⟨0 + 0x8000000000000000⟩ (by decide) ?_
    rw [write_log, write_log]
    simp only [value, BitVec.add_assoc _ (0x57 : U64)]
    rw [xor_add_topBit]
  · rw [write_log, write_log]
    have hvalue : value width h₁.state method i = value width h₂.state method i := by
      cases method <;> first | rfl | exact absurd rfl hmethod
    rw [hvalue]
    intro h
    have hstate : h₁.state = h₂.state := (BitVec.xor_left_inj _).mp (List.cons.inj h).1
    exact hne (congrArg MixingHasher.mk hstate)
  · intro hasher j k h
    simp only [write_log] at h
    exact value_injective width _ method ((BitVec.xor_right_inj _).mp (List.cons.inj h).1)

/-- The empty state and the one with the top bit, before `write_usize(0)`. -/
theorem int_writes_keep_state_fails :
    ¬ ∀ width endian (method : IntMethod) (i : BitVec (method.bits width)) (h₁ h₂ : MixingHasher),
      h₁ ≠ h₂ →
        (method.write width endian h₁ i).log ≠ (method.write width endian h₂ i).log := by
  intro hall
  exact hall .bits64 .little .usize (0 : BitVec 64) ⟨0⟩ ⟨0x8000000000000000⟩ (by decide) (by decide)

end Integers

/-! ## Writes of 128 bits -/

section Wide

variable (endian : Endian)

/-- The signed and the unsigned method write the same words. -/
theorem writeI128_eq (hasher : MixingHasher) (i : BitVec 128) :
    hasher.writeI128 endian i = hasher.writeU128 endian i := by
  have hhigh : (i.sshiftRight 64).setWidth 64 = (i >>> 64).setWidth 64 := by
    refine BitVec.eq_of_getLsbD_eq fun k hk => ?_
    rw [BitVec.getLsbD_setWidth, BitVec.getLsbD_setWidth, BitVec.getLsbD_sshiftRight,
      BitVec.getLsbD_ushiftRight]
    simp [show 64 + k < 128 by omega, show ¬ 128 ≤ k by omega]
  rw [MixingHasher.writeI128, MixingHasher.writeU128, hhigh]

/-- The low word goes into the state, and the high word into the state after it. -/
theorem writeU128_log (hasher : MixingHasher) (i : U128) :
    (hasher.writeU128 endian i).log = [hasher.state ^^^ i.setWidth 64,
      combineRaw hasher.state (i.setWidth 64) ^^^ (i >>> 64).setWidth 64] := by
  have hwrite : ∀ (h : MixingHasher) (v : U64), h.writeU64 endian v = h.combineRaw v := by
    intro h v
    exact congrArg h.combineRaw (loadOwn_eq endian 8 rfl v)
  rw [MixingHasher.writeU128]
  simp only [hwrite]
  rfl

/-- **Writes of 128 bits keep the state.** What they multiply tells two states apart for a
fixed argument, and two arguments for a fixed state, whatever the sign of the type. -/
theorem wide_writes_keep_state (i : U128) :
    (∀ h₁ h₂ : MixingHasher, h₁ ≠ h₂ →
      (h₁.writeU128 endian i).log ≠ (h₂.writeU128 endian i).log) ∧
      ∀ hasher : MixingHasher, hasher.writeI128 endian i = hasher.writeU128 endian i ∧
        Function.Injective fun j => (hasher.writeU128 endian j).log := by
  refine ⟨fun h₁ h₂ hne h => ?_, fun hasher => ⟨writeI128_eq endian hasher i, fun j k h => ?_⟩⟩
  · rw [writeU128_log, writeU128_log] at h
    exact hne (congrArg MixingHasher.mk ((BitVec.xor_left_inj _).mp (List.cons.inj h).1))
  · simp only [writeU128_log] at h
    obtain ⟨hlow, h⟩ := List.cons.inj h
    have hlow := (BitVec.xor_right_inj _).mp hlow
    rw [hlow] at h
    have hhigh := (BitVec.xor_right_inj _).mp (List.cons.inj h).1
    refine BitVec.eq_of_getLsbD_eq fun n hn => ?_
    by_cases h64 : n < 64
    · have hbit := congrArg (fun v => v.getLsbD n) hlow
      simpa [h64] using hbit
    · have hbit := congrArg (fun v => v.getLsbD (n - 64)) hhigh
      simpa [show n - 64 < 64 by omega, show 64 + (n - 64) = n by omega] using hbit

end Wide

/-! ## The CRC path -/

section Crc

/-- The low half of a product, in integers. -/
theorem mul_low (s c : U64) (len : ℕ) :
    (((s + c) * BitVec.ofNat 64 len).setWidth 32).toNat = (s.toNat + c.toNat) * len % 2 ^ 32 := by
  simp only [BitVec.toNat_setWidth, BitVec.toNat_mul, BitVec.toNat_add, BitVec.toNat_ofNat]
  rw [Nat.mod_mod_of_dvd _ (by decide), Nat.mul_mod, Nat.mod_mod_of_dvd _ (by decide),
    Nat.mod_mod_of_dvd _ (by decide), ← Nat.mul_mod]

/-- Multiplying the low half by an odd length keeps it. -/
theorem eq_of_mul_odd {a b len : ℕ} (hodd : len % 2 = 1)
    (h : (a + 8) * len % 2 ^ 32 = (b + 8) * len % 2 ^ 32) : a % 2 ^ 32 = b % 2 ^ 32 := by
  have hcop : Nat.gcd (2 ^ 32) len = 1 :=
    Nat.Coprime.pow_left 32 (Nat.coprime_two_left.mpr (Nat.odd_iff.mpr hodd))
  exact Nat.ModEq.add_right_cancel' 8 (Nat.ModEq.cancel_right_of_coprime hcop h)

/-- What the CRC instructions read of the pair that the path starts with. -/
def crcStart (state : U64) (len : ℕ) : U32 × U32 :=
  ((crcInit state len).crcs0.setWidth 32, (crcInit state len).crcs1.setWidth 32)

/-- **The CRC path starts from the whole state exactly for odd lengths.** -/
theorem crc_start_keeps_state (len : ℕ) :
    (∀ s₁ s₂ : U64, s₁ ≠ s₂ → crcStart s₁ len ≠ crcStart s₂ len) ↔ len % 2 = 1 := by
  have hlow : ∀ s : U64, ((crcInit s len).crcs0.setWidth 32).toNat =
      (s.toNat + 8) * len % 2 ^ 32 := fun s => mul_low s 8 len
  constructor
  · intro hkeep
    by_contra hodd
    obtain ⟨k, rfl⟩ : ∃ k, len = 2 * k := ⟨len / 2, by omega⟩
    -- bit 31 is multiplied out of the low half
    have hhigh : (swapBytes64 0).setWidth 32 = (swapBytes64 0x80000000).setWidth 32 := by decide
    refine hkeep 0 0x80000000 (by decide) (Prod.ext (BitVec.eq_of_toNat_eq ?_) hhigh)
    rw [crcStart, crcStart, hlow, hlow, show (0 : U64).toNat = 0 from rfl,
      show (0x80000000 : U64).toNat = 2147483648 from rfl]
    omega
  · intro hodd s₁ s₂ hne heq
    obtain ⟨h₀, h₁⟩ := Prod.mk.inj heq
    refine hne (eq_of_halves ?_ ?_)
    · have hswap := (swapBytes64_low s₁).symm.trans (h₁.trans (swapBytes64_low s₂))
      rw [← swapBytes32_swapBytes32 (s₁.extractLsb' 32 32), hswap, swapBytes32_swapBytes32]
    · have hnat := congrArg BitVec.toNat h₀
      rw [hlow, hlow] at hnat
      exact BitVec.eq_of_toNat_eq (eq_of_mul_odd hodd hnat)

/-- Two states that differ in bit 31, before an input of two bytes. -/
theorem crc_start_keeps_state_fails :
    ¬ ∀ (len : ℕ), 1 ≤ len → len ≤ 32 → ∀ s₁ s₂ : U64, s₁ ≠ s₂ →
      crcStart s₁ len ≠ crcStart s₂ len :=
  fun hall => hall 2 (by decide) (by decide) 0 0x80000000 (by decide) (by decide)

end Crc

end Mekong.Analysis.StateKept
