import Mekong.Analysis.StateKept

/-!
# One integer, two types

An integer that two types can hold is hashed alike through both as long as both methods
pass the same 64-bit word to `combine_raw`. Of an integer that is not negative that is
the integer itself, whatever the type, with one exception: `write_u8` takes the value 1
for `true` and passes `usize::MAX`. Of a negative integer it is the sign-extended word for
the types that extend the sign.
-/

set_option autoImplicit false

namespace Mekong.Analysis.IntegerTypes

open Mekong.Computation Mekong.Model Mekong.Program Mekong.Program.LowLevel
open Mekong.Analysis.StateKept

/-! ## Words of integers -/

section Words

variable {n m : ℕ} {v : ℤ}

/-- A value that fits is kept by an unsigned type. -/
theorem toNat_ofInt_of_lt (h : 0 ≤ v) (hn : v < 2 ^ n) : ((BitVec.ofInt n v).toNat : ℤ) = v := by
  obtain ⟨k, rfl⟩ := Int.eq_ofNat_of_zero_le h
  have hk : k < 2 ^ n := by exact_mod_cast hn
  rw [BitVec.ofInt_natCast, BitVec.toNat_ofNat, Nat.mod_eq_of_lt hk]

/-- A value that fits is kept by a signed type. -/
theorem toInt_ofInt_of_le (hlo : -(2 ^ n : ℤ) ≤ 2 * v) (hhi : 2 * v < 2 ^ n) :
    (BitVec.ofInt n v).toInt = v := by
  rw [BitVec.toInt_ofInt]
  apply Int.bmod_eq_of_le_mul_two
  · push_cast
    omega
  · push_cast
    omega

/-- Zeros in front of the word of an integer that is not negative. -/
theorem setWidth_ofInt (h : 0 ≤ v) (hn : v < 2 ^ n) (hnm : n ≤ m) :
    (BitVec.ofInt n v).setWidth m = BitVec.ofInt m v := by
  have hpow : (2 ^ n : ℤ) ≤ 2 ^ m := by exact_mod_cast Nat.pow_le_pow_right (by decide) hnm
  have hnat : (BitVec.ofInt n v).toNat = (BitVec.ofInt m v).toNat := by
    have hv := toNat_ofInt_of_lt h hn
    have hv' := toNat_ofInt_of_lt h (hn.trans_le hpow)
    omega
  apply BitVec.eq_of_toNat_eq
  rw [BitVec.toNat_setWidth, hnat, Nat.mod_eq_of_lt (BitVec.isLt _)]

/-- Copies of the sign in front of the word of an integer. -/
theorem signExtend_ofInt (hlo : -(2 ^ n : ℤ) ≤ 2 * v) (hhi : 2 * v < 2 ^ n) (hnm : n ≤ m) :
    (BitVec.ofInt n v).signExtend m = BitVec.ofInt m v := by
  have hpow : (2 ^ n : ℤ) ≤ 2 ^ m := by exact_mod_cast Nat.pow_le_pow_right (by decide) hnm
  apply BitVec.eq_of_toInt_eq
  rw [BitVec.toInt_signExtend_of_le hnm, toInt_ofInt_of_le hlo hhi]
  exact (toInt_ofInt_of_le (by omega) (by omega)).symm

end Words

/-! ## Types -/

/-- The integer types of at most 64 bits whose width is the same on every target. -/
inductive IntType
  | u8
  | u16
  | u32
  | u64
  | i8
  | i16
  | i32
  | i64
  deriving DecidableEq

namespace IntType

/-- The method of `Hasher` for a type. -/
def method : IntType → IntMethod
  | u8 => .u8
  | u16 => .u16
  | u32 => .u32
  | u64 => .u64
  | i8 => .i8
  | i16 => .i16
  | i32 => .i32
  | i64 => .i64

def signed : IntType → Bool
  | u8 | u16 | u32 | u64 => false
  | i8 | i16 | i32 | i64 => true

def bits : IntType → ℕ
  | u8 | i8 => 8
  | u16 | i16 => 16
  | u32 | i32 => 32
  | u64 | i64 => 64

/-- `v` is a value of the type. -/
def Holds (type : IntType) (v : ℤ) : Prop :=
  if type.signed then -(2 ^ type.bits : ℤ) ≤ 2 * v ∧ 2 * v < 2 ^ type.bits
  else 0 ≤ v ∧ v < 2 ^ type.bits

instance (type : IntType) (v : ℤ) : Decidable (type.Holds v) := by
  unfold Holds
  infer_instance

/-- The methods of these two types extend their argument by zeros, also a negative one. -/
def ZeroExtended (type : IntType) : Prop := type = i16 ∨ type = i32

instance (type : IntType) : Decidable type.ZeroExtended := by
  unfold ZeroExtended
  infer_instance

variable (width : PointerWidth) (endian : Endian) (hasher : MixingHasher)

/-- The hasher after the value `v` of a type. -/
def write (type : IntType) (v : ℤ) : MixingHasher :=
  (type.method.write width endian hasher (BitVec.ofInt _ v)).val

end IntType

section Agreement

variable (width : PointerWidth) {type type' : IntType} {v : ℤ}

/-- The word that a value is passed on as. -/
theorem value_eq (state : U64) (hv : type.Holds v) (htrue : ¬ (type = .u8 ∧ v = 1))
    (hneg : v < 0 → ¬ type.ZeroExtended) :
    value width state type.method (BitVec.ofInt _ v) = BitVec.ofInt 64 v := by
  cases type with
  | u64 | i64 => rfl
  | u16 => exact setWidth_ofInt hv.1 hv.2 (bits_le width .u16)
  | u32 => exact setWidth_ofInt hv.1 hv.2 (bits_le width .u32)
  | i8 => exact signExtend_ofInt hv.1 hv.2 (bits_le width .i8)
  | u8 =>
    have hbyte : BitVec.ofInt 8 v ≠ 1 := by
      intro hone
      have hnat := toNat_ofInt_of_lt hv.1 hv.2
      exact htrue ⟨rfl, hnat.symm.trans (congrArg (fun b : U8 => (b.toNat : ℤ)) hone)⟩
    exact (if_neg hbyte).trans (setWidth_ofInt hv.1 hv.2 (bits_le width .u8))
  | i16 =>
    have hpos : 0 ≤ v := not_lt.mp fun h => hneg h (Or.inl rfl)
    have hhi : 2 * v < 2 ^ 16 := hv.2
    have hlt : v < 2 ^ 16 := by omega
    exact setWidth_ofInt hpos hlt (bits_le width .i16)
  | i32 =>
    have hpos : 0 ≤ v := not_lt.mp fun h => hneg h (Or.inr rfl)
    have hhi : 2 * v < 2 ^ 32 := hv.2
    have hlt : v < 2 ^ 32 := by omega
    exact setWidth_ofInt hpos hlt (bits_le width .i32)

/-- **An integer is hashed alike through every type that holds it**, but for the 1 of `u8`,
which is hashed as `usize::MAX`; of a negative integer, through the types that extend its
sign. -/
theorem int_writes_agree (endian : Endian) (hasher : MixingHasher) (hv : type.Holds v)
    (hv' : type'.Holds v) (htrue : v = 1 → (type = .u8 ↔ type' = .u8))
    (hneg : v < 0 → type = type' ∨ ¬ type.ZeroExtended ∧ ¬ type'.ZeroExtended) :
    type.write width endian hasher v = type'.write width endian hasher v ∧
      IntType.u8.write width endian hasher 1 =
        IntType.u64.write width endian hasher (2 ^ width.bits - 1) := by
  have hword : ∀ t : IntType, t.Holds v → ¬ (t = .u8 ∧ v = 1) → (v < 0 → ¬ t.ZeroExtended) →
      t.write width endian hasher v = ⟨LowLevel.combineRaw hasher.state (BitVec.ofInt 64 v)⟩ := by
    intro t hv htrue hneg
    unfold IntType.write
    rw [write_eq_combineRaw, value_eq width hasher.state hv htrue hneg]
    rfl
  constructor
  · by_cases heq : type = type'
    · rw [heq]
    have hboth : ¬ (type = .u8 ∧ v = 1) ∧ ¬ (type' = .u8 ∧ v = 1) := by
      constructor
      · rintro ⟨htype, hone⟩
        exact heq (htype.trans ((htrue hone).mp htype).symm)
      · rintro ⟨htype', hone⟩
        exact heq (((htrue hone).mpr htype').trans htype'.symm)
    rw [hword type hv hboth.1 fun h => ((hneg h).resolve_left heq).1,
      hword type' hv' hboth.2 fun h => ((hneg h).resolve_left heq).2]
  · unfold IntType.write
    rw [write_eq_combineRaw, write_eq_combineRaw]
    cases width <;> rfl

/-- The value 2 as `u8` and as `i32`. -/
theorem int_writes_agree_two :
    IntType.u8.write .bits32 .little ⟨7⟩ 2 = IntType.i32.write .bits32 .little ⟨7⟩ 2 :=
  (int_writes_agree .bits32 .little ⟨7⟩ (by decide) (by decide) (by decide) (by decide)).1

/-- The value 1 as `u8`, which is `true`, and as `u16`. -/
theorem int_writes_agree_fails :
    ¬ ∀ (width : PointerWidth) (endian : Endian) (hasher : MixingHasher) (type type' : IntType)
      (v : ℤ), type.Holds v → type'.Holds v →
        type.write width endian hasher v = type'.write width endian hasher v := by
  intro hall
  exact absurd (hall .bits64 .little ⟨0⟩ .u8 .u16 1 (by decide) (by decide)) (by decide +kernel)

end Agreement

end Mekong.Analysis.IntegerTypes
