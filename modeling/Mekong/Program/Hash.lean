import Mekong.Program.LowLevel

/-!
# `hash.rs`: the hasher

A `MixingHasher` is one 64-bit state; `write` feeds it a byte slice through the function
for the target's pointer width. The methods for integers go through `combine_raw`, once or
twice; what they report is the first multiplicand of each call of `mix` on the way.
-/

set_option autoImplicit false

namespace Mekong.Program

open Mekong.Computation Mekong.Model Mekong.Program.LowLevel

/-- SOURCE: hash.rs:30-33 -/
structure MixingHasher where
  state : U64
  deriving DecidableEq

/-- SOURCE: hash.rs:55-65 -/
def MixingHasher.write (width : PointerWidth) (t : Target) (hasher : MixingHasher)
    (bytes : Bytes) : MixingHasher :=
  match width with
  | .bits64 => ⟨(combineContiguousOn64bit t hasher.state bytes).val⟩
  | .bits32 => ⟨(combineContiguousOn32bit t hasher.state bytes).val⟩

/-! ## Integers -/

/-- `self.state = combine_raw(self.state, value)`. -/
def MixingHasher.combineRaw (hasher : MixingHasher) (value : U64) : Traced U64 MixingHasher :=
  Traced.report (hasher.state ^^^ value) ⟨LowLevel.combineRaw hasher.state value⟩

section Integers

variable (width : PointerWidth) (endian : Endian) (hasher : MixingHasher)

/-- SOURCE: hash.rs:67-75 -/
def MixingHasher.writeU8 (i : U8) : Traced U64 MixingHasher :=
  if i = 1 then hasher.combineRaw ((BitVec.allOnes width.bits).setWidth 64)
  else hasher.combineRaw (i.setWidth 64)

/-- SOURCE: hash.rs:77-81 -/
def MixingHasher.writeU16 (i : BitVec 16) : Traced U64 MixingHasher :=
  hasher.combineRaw ((loadOwn endian 2 i).setWidth 64)

/-- SOURCE: hash.rs:83-87 -/
def MixingHasher.writeU32 (i : U32) : Traced U64 MixingHasher :=
  hasher.combineRaw ((loadOwn endian 4 i).setWidth 64)

/-- SOURCE: hash.rs:89-93 -/
def MixingHasher.writeU64 (i : U64) : Traced U64 MixingHasher :=
  hasher.combineRaw (loadOwn endian 8 i)

/-- SOURCE: hash.rs:95-99 -/
def MixingHasher.writeU128 (i : U128) : Traced U64 MixingHasher := do
  let hasher ← hasher.writeU64 endian (i.setWidth 64)
  hasher.writeU64 endian ((i >>> 64).setWidth 64)

/-- SOURCE: hash.rs:101-104 -/
def MixingHasher.writeUsize (i : BitVec width.bits) : Traced U64 MixingHasher :=
  hasher.writeU64 endian (hasher.state + 0x57 + i.setWidth 64)

/-- SOURCE: hash.rs:106-109 -/
def MixingHasher.writeI8 (i : BitVec 8) : Traced U64 MixingHasher :=
  hasher.combineRaw (i.signExtend 64)

/-- SOURCE: hash.rs:111-115 -/
def MixingHasher.writeI16 (i : BitVec 16) : Traced U64 MixingHasher :=
  hasher.combineRaw ((loadOwn endian 2 i).setWidth 64)

/-- SOURCE: hash.rs:117-121 -/
def MixingHasher.writeI32 (i : BitVec 32) : Traced U64 MixingHasher :=
  hasher.combineRaw ((loadOwn endian 4 i).setWidth 64)

/-- SOURCE: hash.rs:123-127 -/
def MixingHasher.writeI64 (i : BitVec 64) : Traced U64 MixingHasher :=
  hasher.combineRaw (loadOwn endian 8 i)

/-- SOURCE: hash.rs:129-133 -/
def MixingHasher.writeI128 (i : BitVec 128) : Traced U64 MixingHasher := do
  let hasher ← hasher.writeU64 endian (i.setWidth 64)
  hasher.writeU64 endian ((i.sshiftRight 64).setWidth 64)

/-- SOURCE: hash.rs:135-142 -/
def MixingHasher.writeIsize (i : BitVec width.bits) : Traced U64 MixingHasher :=
  if width = .bits32 then hasher.writeI32 endian (i.signExtend 32)
  else hasher.writeI64 endian (i.signExtend 64)

end Integers

/-- The methods for integers that call `combine_raw` once. -/
inductive IntMethod
  | u8
  | u16
  | u32
  | u64
  | usize
  | i8
  | i16
  | i32
  | i64
  | isize
  deriving DecidableEq

/-- The width of a method's argument. -/
def IntMethod.bits (width : PointerWidth) : IntMethod → ℕ
  | .u8 | .i8 => 8
  | .u16 | .i16 => 16
  | .u32 | .i32 => 32
  | .u64 | .i64 => 64
  | .usize | .isize => width.bits

/-- The method called on a hasher. -/
def IntMethod.write (width : PointerWidth) (endian : Endian) (hasher : MixingHasher) :
    (method : IntMethod) → BitVec (method.bits width) → Traced U64 MixingHasher
  | .u8 => hasher.writeU8 width
  | .u16 => hasher.writeU16 endian
  | .u32 => hasher.writeU32 endian
  | .u64 => hasher.writeU64 endian
  | .usize => hasher.writeUsize width endian
  | .i8 => hasher.writeI8
  | .i16 => hasher.writeI16 endian
  | .i32 => hasher.writeI32 endian
  | .i64 => hasher.writeI64 endian
  | .isize => hasher.writeIsize width endian

end Mekong.Program
