import Mekong.Program.City

/-!
# `low_level.rs`: hashing a byte slice into a 64-bit state

`combineContiguousOn32bit` and `combineContiguousOn64bit` with everything they call. The
64-bit function exists in two versions, for `x86_64` processors with vector and CRC
instructions and for all other targets; `Target` says which one is compiled and carries
what it depends on. Inputs longer than a chunk are hashed chunk by chunk, and the
remainder of less than a chunk goes back to the entry function.
-/

set_option autoImplicit false

namespace Mekong.Program.LowLevel

open Mekong.Computation Mekong.Model

/-! ## Targets -/

/-- The instructions that the `x86_64` version relies on, and the answer of
`is_x86_feature_detected!("sse4.2")`. -/
structure X86Intrinsics where
  mmCrc32U8 : U32 → U8 → U32
  mmCrc32U32 : U32 → U32 → U32
  mmCrc32U64 : U64 → U64 → U64
  mmAesencSi128 : U128 → U128 → U128
  mmAesdecSi128 : U128 → U128 → U128
  sse42 : Bool

/-- What the code is compiled for. -/
inductive Target
  | portable (endian : Endian) (powerpc64 : Bool)
  | x86_64 (cpu : X86Intrinsics)

def Target.endian : Target → Endian
  | .portable endian _ => endian
  | .x86_64 _ => .little

/-- SOURCE: low_level.rs:34-55, low_level.rs:58 -/
def Target.cachelineSize : Target → ℕ
  | .portable _ true => 128
  | .portable _ false => 64
  | .x86_64 _ => 64

/-- The instructions to hash short inputs with, where the processor has them. -/
def Target.crc : Target → Option X86Intrinsics
  | .portable .. => none
  | .x86_64 cpu => if cpu.sse42 then some cpu else none

/-! ## Constants and words -/

/-- SOURCE: low_level.rs:57 -/
def kMul : U64 := 0x79d5f9e0de1e8cf5

/-- SOURCE: low_level.rs:59 -/
def piecewiseChunkSize : ℕ := 1024

instance : NeZero piecewiseChunkSize := ⟨by decide⟩

/-- SOURCE: low_level.rs:61-67 -/
def kStaticRandomData : Vector U64 5 := #v[
  0x243f6a8885a308d3,
  0x13198a2e03707344,
  0xa4093822299f31d0,
  0x082efa98ec4e6c89,
  0x452821e638d01377]

/-- The bytes of a word in memory. -/
def toNeBytes (endian : Endian) (w : U64) : Bytes :=
  let bytes := (List.range 8).map fun i => w.extractLsb' (8 * i) 8
  match endian with
  | .little => bytes
  | .big => bytes.reverse

/-- A word of the table. -/
def staticRandomWord (i : ℕ) : U64 := kStaticRandomData.toList.getD i 0

/-- The table holds the words of the static data. -/
theorem kStaticRandomData_getElem {i : ℕ} (h : i < 5) :
    kStaticRandomData[i] = staticRandomWord i := by
  simp [staticRandomWord, List.getD_eq_getElem?_getD, h]

/-- The table as bytes in memory. -/
def staticRandomBytes (endian : Endian) : Bytes :=
  kStaticRandomData.toList.flatMap (toNeBytes endian)

/-- SOURCE: low_level.rs:202-207 -/
def mix (lhs rhs : U64) : U64 :=
  let m : U128 := lhs.setWidth 128
  let m := m * rhs.setWidth 128
  (m &&& 0xFFFFFFFFFFFFFFFF).setWidth 64 ^^^ (m >>> 64).setWidth 64

/-- SOURCE: low_level.rs:302-305 -/
def combineRaw (state value : U64) : U64 := mix (state ^^^ value) kMul

/-- The prefetch itself has no result.
SOURCE: low_level.rs:193-200 -/
def prefetchFutureDataToLocalCache (t : Target) (ptr : Bytes) : Traced Access Unit := do
  let dist := 5 * t.cachelineSize
  if ptr.length < dist then
    return
  let _ ← sliceFrom ptr (5 * t.cachelineSize)

section Read

variable (t : Target) (p : Bytes)

/-- SOURCE: low_level.rs:236-241 -/
def read4 : Traced Access U32 := unalignedLoad32 t.endian .input p

/-- SOURCE: low_level.rs:243-246 -/
def read8 : Traced Access U64 := unalignedLoad64 t.endian .input p

@[simp]
theorem all_read4 {P : Access → Prop} : (read4 t p).All P ↔
    P (.load .input p.length 4 (fromNeBytes t.endian (p.take 4))) :=
  all_unalignedLoad32 ..

@[simp]
theorem all_read8 {P : Access → Prop} : (read8 t p).All P ↔
    P (.load .input p.length 8 (fromNeBytes t.endian (p.take 8))) :=
  all_unalignedLoad64 ..

@[simp]
theorem found_read4 {γ : Type} {f : Access → Option γ} : (read4 t p).found f =
    (f (.load .input p.length 4 (fromNeBytes t.endian (p.take 4)))).toList :=
  found_unalignedLoad32 ..

@[simp]
theorem found_read8 {γ : Type} {f : Access → Option γ} : (read8 t p).found f =
    (f (.load .input p.length 8 (fromNeBytes t.endian (p.take 8)))).toList :=
  found_unalignedLoad64 ..

/-- SOURCE: low_level.rs:251-254 -/
def read9To16 : Traced Access (U64 × U64) := do
  return (← read8 t p, ← read8 t (← sliceFrom p (← usizeSub p.length 8)))

/-- SOURCE: low_level.rs:258-274 -/
def read4To8 : Traced Access U64 := do
  let mostSignificant : U64 := (← unalignedLoad32 t.endian .input p).setWidth 64 <<< 32
  let tail ← sliceFrom p (← usizeSub p.length 4)
  let leastSignificant : U64 := (← unalignedLoad32 t.endian .input tail).setWidth 64
  return mostSignificant ||| leastSignificant

/-- SOURCE: low_level.rs:277-290 -/
def read1To3 : Traced Access U32 := do
  let first ← index p 0
  let last ← index p (← usizeSub p.length 1)
  let mem0 : U32 := first.setWidth 32 <<< 16 ||| last.setWidth 32
  let mem1 : U32 := (← index p (p.length / 2)).setWidth 32 <<< 8
  return mem0 ||| mem1

end Read

/-! ## Inputs of at most 32 bytes -/

section Short

variable (t : Target) (state : U64) (first : Bytes)

/-- SOURCE: low_level.rs:295-300 -/
def precombineLengthMix (len : ℕ) : Traced Access U64 := do
  debugAssert ((← usizeAdd len 8) ≤ 40)
  let data ← unalignedLoad64 t.endian .table ((staticRandomBytes t.endian).drop len)
  return state ^^^ data

/-- SOURCE: low_level.rs:307-320 -/
def combineSmallContiguous : Traced Access U64 := do
  let len := first.length
  debugAssert (len ≤ 8)
  let v ←
    if len ≥ 4 then
      read4To8 t first
    else if len > 0 then
      let word ← read1To3 first
      pure (word.setWidth 64)
    else
      pure (0x57 : U64)
  return combineRaw state v

/-- SOURCE: low_level.rs:322-334 -/
def combineContiguous9To16 : Traced Access U64 := do
  let len := first.length
  debugAssert (len ≥ 9)
  debugAssert (len ≤ 16)
  let (first, second) ← read9To16 t first
  return mix (state ^^^ first) (kMul ^^^ second)

/-- SOURCE: low_level.rs:336-354 -/
def combineContiguous17To32 : Traced Access U64 := do
  let len := first.length
  debugAssert (len ≥ 17)
  debugAssert (len ≤ 32)
  let m0 := mix
    ((← read8 t first) ^^^ kStaticRandomData[1])
    ((← read8 t (← sliceFrom first 8)) ^^^ state)
  let tail16b ← sliceFrom first (← usizeSub len 16)
  let m1 := mix
    ((← read8 t tail16b) ^^^ kStaticRandomData[3])
    ((← read8 t (← sliceFrom tail16b 8)) ^^^ state)
  return m0 ^^^ m1

end Short

/-- The salt `mul` and the pair `crcs` of the CRC path. -/
structure CrcState where
  mul : U64
  crcs0 : U64
  crcs1 : U64

/-- SOURCE: low_level.rs:97-107 -/
def crcInit (state : U64) (len : ℕ) : CrcState where
  mul := kMul.rotateRight len
  crcs0 := (state + 8) * BitVec.ofNat 64 len
  crcs1 := swapBytes64 state

/-- What the CRC path reads of an input of at most 32 bytes.
SOURCE: low_level.rs:115-150 -/
def crcAbsorb (cpu : X86Intrinsics) (s : CrcState) (first : Bytes) :
    Traced Access CrcState := do
  let t := Target.x86_64 cpu
  let len := first.length
  if len > 8 then
    let crcs0 := cpu.mmCrc32U64 s.crcs0 (← read8 t first)
    let crcs1 := cpu.mmCrc32U64 s.crcs1 (← read8 t (← sliceFrom first (← usizeSub len 8)))
    if len > 16 then
      let crcs0' :=
        cpu.mmCrc32U64 crcs0 (← read8 t (← sliceFrom first (← usizeSub len 16)))
      let crcs1' := cpu.mmCrc32U64 crcs1 (← read8 t (← sliceFrom first 8))
      return { s with crcs0 := crcs0', crcs1 := crcs1' }
    return { s with crcs0 := crcs0, crcs1 := crcs1 }
  if len ≥ 4 then
    let crcs0 := cpu.mmCrc32U32 (s.crcs0.setWidth 32) (← read4 t first)
    let tail ← sliceFrom first (← usizeSub len 4)
    let crcs1 := cpu.mmCrc32U32 (s.crcs1.setWidth 32) (← read4 t tail)
    return { s with crcs0 := crcs0.setWidth 64, crcs1 := crcs1.setWidth 64 }
  if len ≥ 1 then
    let crcs0 := cpu.mmCrc32U8 (s.crcs0.setWidth 32) (← index first 0)
    let last ← index first (← usizeSub len 1)
    let crcs1 := cpu.mmCrc32U8 (s.crcs1.setWidth 32) last
    let middle ← index first (len / 2)
    return ⟨s.mul + middle.setWidth 64, crcs0.setWidth 64, crcs1.setWidth 64⟩
  return s

/-- SOURCE: low_level.rs:94-154 -/
def combineContiguousCrc (cpu : X86Intrinsics) (state : U64) (first : Bytes) :
    Traced Access U64 := do
  let s ← crcAbsorb cpu (crcInit state first.length) first
  return mix (s.mul - s.crcs0) (s.crcs1 - s.mul)

/-! ## Inputs longer than 32 bytes, portable version -/

section Portable

variable (t : Target)

/-- SOURCE: low_level.rs:209-219 -/
def mix32Bytes (ptr : Bytes) (currentState : U64) : Traced Access U64 := do
  let a ← unalignedLoad64 t.endian .input ptr
  let b ← unalignedLoad64 t.endian .input (← sliceFrom ptr 8)
  let c ← unalignedLoad64 t.endian .input (← sliceFrom ptr 16)
  let d ← unalignedLoad64 t.endian .input (← sliceFrom ptr 24)
  let cs0 := mix (a ^^^ kStaticRandomData[1]) (b ^^^ currentState)
  let cs1 := mix (c ^^^ kStaticRandomData[2]) (d ^^^ currentState)
  return cs0 ^^^ cs1

/-- SOURCE: low_level.rs:460-469 -/
def lowLevelHash33To64Portable (seed : U64) (ptr : Bytes) : Traced Access U64 := do
  let len := ptr.length
  debugAssert (len > 32)
  debugAssert (len ≤ 64)
  let currentState := seed ^^^ kStaticRandomData[0] ^^^ BitVec.ofNat 64 len
  let last32Ptr ← sliceFrom ptr (← usizeSub len 32)
  mix32Bytes t last32Ptr (← mix32Bytes t ptr currentState)

/-- `current_state` and the three `duplicated_state` of the loop. -/
structure Quad where
  currentState : U64
  duplicatedState0 : U64
  duplicatedState1 : U64
  duplicatedState2 : U64

/-- SOURCE: low_level.rs:487-510 -/
def lowLevelHashLoopPortable (s : Quad) (c : Cursor) : Traced Access (Quad × Cursor) := do
  prefetchFutureDataToLocalCache t c.ptr
  let a ← unalignedLoad64 t.endian .input c.ptr
  let b ← unalignedLoad64 t.endian .input (← sliceFrom c.ptr 8)
  let c' ← unalignedLoad64 t.endian .input (← sliceFrom c.ptr 16)
  let d ← unalignedLoad64 t.endian .input (← sliceFrom c.ptr 24)
  let e ← unalignedLoad64 t.endian .input (← sliceFrom c.ptr 32)
  let f ← unalignedLoad64 t.endian .input (← sliceFrom c.ptr 40)
  let g ← unalignedLoad64 t.endian .input (← sliceFrom c.ptr 48)
  let h ← unalignedLoad64 t.endian .input (← sliceFrom c.ptr 56)
  let s : Quad :=
    { currentState := mix (a ^^^ kStaticRandomData[1]) (b ^^^ s.currentState)
      duplicatedState0 := mix (c' ^^^ kStaticRandomData[2]) (d ^^^ s.duplicatedState0)
      duplicatedState1 := mix (e ^^^ kStaticRandomData[3]) (f ^^^ s.duplicatedState1)
      duplicatedState2 := mix (g ^^^ kStaticRandomData[4]) (h ^^^ s.duplicatedState2) }
  c.checkAdvance 64
  if (c.advance 64).len ≤ 64 then
    return (s, c.advance 64)
  lowLevelHashLoopPortable s (c.advance 64)
termination_by c.len
decreasing_by
  simp only [Cursor.advance] at *
  omega

/-- SOURCE: low_level.rs:471-525 -/
def lowLevelHashLenGt64Portable (seed : U64) (data : Bytes) : Traced Access U64 := do
  let len := data.length
  debugAssert (len > 64)
  let last32 ← sliceFrom data (← usizeSub len 32)
  let currentState := seed ^^^ kStaticRandomData[0] ^^^ BitVec.ofNat 64 len
  let (s, c) ← lowLevelHashLoopPortable t
    ⟨currentState, currentState, currentState, currentState⟩ (Cursor.start data)
  let currentState :=
    (s.currentState ^^^ s.duplicatedState0) ^^^ (s.duplicatedState1 + s.duplicatedState2)
  let currentState ← if c.len > 32 then mix32Bytes t c.ptr currentState else pure currentState
  mix32Bytes t last32 currentState

end Portable

/-! ## Inputs longer than 32 bytes, `x86_64` version -/

/-- `_mm_set_epi64x`. -/
def mmSetEpi64x (e1 e0 : U64) : U128 := e1 ++ e0

/-- `_mm_extract_epi64`; `_mm_cvtsi128_si64` is lane 0. -/
def mmExtractEpi64 (a : U128) (lane : ℕ) : U64 := a.extractLsb' (64 * lane) 64

/-- `_mm_add_epi64`. -/
def mmAddEpi64 (a b : U128) : U128 :=
  mmSetEpi64x (mmExtractEpi64 a 1 + mmExtractEpi64 b 1)
    (mmExtractEpi64 a 0 + mmExtractEpi64 b 0)

/-- `_mm_sub_epi64`. -/
def mmSubEpi64 (a b : U128) : U128 :=
  mmSetEpi64x (mmExtractEpi64 a 1 - mmExtractEpi64 b 1)
    (mmExtractEpi64 a 0 - mmExtractEpi64 b 0)

/-- `_mm_loadu_si128`. -/
def mmLoaduSi128 (p : Bytes) : Traced Access U128 := do
  return BitVec.ofNat 128 (← readUnaligned .little .input p 16)

@[simp]
theorem all_mmLoaduSi128 {P : Access → Prop} (p : Bytes) : (mmLoaduSi128 p).All P ↔
    P (.load .input p.length 16 (fromNeBytes .little (p.take 16))) := by
  simp [mmLoaduSi128]

@[simp]
theorem found_mmLoaduSi128 {γ : Type} {f : Access → Option γ} (p : Bytes) :
    (mmLoaduSi128 p).found f =
      (f (.load .input p.length 16 (fromNeBytes .little (p.take 16)))).toList := by
  simp [mmLoaduSi128]

section X86

variable (cpu : X86Intrinsics)

/-- SOURCE: low_level.rs:221-234 -/
def mix4x16Vectors (a b c d : U128) : U64 :=
  let res128 := mmAddEpi64
    (cpu.mmAesencSi128 (mmAddEpi64 a c) d)
    (cpu.mmAesdecSi128 (mmSubEpi64 b d) a)
  let x64 := mmExtractEpi64 res128 0
  let y64 := mmExtractEpi64 res128 1
  x64 ^^^ y64

/-- SOURCE: low_level.rs:356-387 -/
def lowLevelHash33To64X86 (seed : U64) (ptr : Bytes) : Traced Access U64 := do
  let len := ptr.length
  debugAssert (len > 32)
  debugAssert (len ≤ 64)
  let state := mmSetEpi64x seed (BitVec.ofNat 64 len)
  let a ← mmLoaduSi128 ptr
  let b ← mmLoaduSi128 (ptr.drop 16)
  let last32Ptr := ptr.drop (← usizeSub len 32)
  let c ← mmLoaduSi128 last32Ptr
  let d ← mmLoaduSi128 (last32Ptr.drop 16)
  let na := cpu.mmAesdecSi128 (mmAddEpi64 state a) state
  let nb := cpu.mmAesdecSi128 (mmSubEpi64 state b) state
  let nc := cpu.mmAesencSi128 (mmAddEpi64 state c) state
  let nd := cpu.mmAesencSi128 (mmSubEpi64 state d) state
  return mix4x16Vectors cpu na nb nc nd

/-- `state0` to `state3` of the loop. -/
structure Vectors where
  state0 : U128
  state1 : U128
  state2 : U128
  state3 : U128

/-- SOURCE: low_level.rs:414-425 -/
def mixAb (s : Vectors) (p : Bytes) : Traced Access Vectors := do
  debugAssert (p.length ≥ 16)
  let a ← mmLoaduSi128 p
  let b ← mmLoaduSi128 (p.drop 16)
  return { s with
    state0 := cpu.mmAesdecSi128 (mmAddEpi64 s.state0 a) s.state0
    state1 := cpu.mmAesdecSi128 (mmSubEpi64 s.state1 b) s.state1 }

/-- SOURCE: low_level.rs:427-436 -/
def mixCd (s : Vectors) (p : Bytes) : Traced Access Vectors := do
  let c ← mmLoaduSi128 p
  let d ← mmLoaduSi128 (p.drop 16)
  return { s with
    state2 := cpu.mmAesencSi128 (mmAddEpi64 s.state2 c) s.state2
    state3 := cpu.mmAesencSi128 (mmSubEpi64 s.state3 d) s.state3 }

/-- SOURCE: low_level.rs:438-449 -/
def lowLevelHashLoopX86 (s : Vectors) (c : Cursor) : Traced Access (Vectors × Cursor) := do
  prefetchFutureDataToLocalCache (.x86_64 cpu) c.ptr
  let s ← mixAb cpu s c.ptr
  let s ← mixCd cpu s (← sliceFrom c.ptr 32)
  c.checkAdvance 64
  if (c.advance 64).len ≤ 64 then
    return (s, c.advance 64)
  lowLevelHashLoopX86 s (c.advance 64)
termination_by c.len
decreasing_by
  simp only [Cursor.advance] at *
  omega

/-- SOURCE: low_level.rs:389-458 -/
def lowLevelHashLenGt64X86 (seed : U64) (data : Bytes) : Traced Access U64 := do
  let len := data.length
  debugAssert (len > 64)
  let last32 ← sliceFrom data (← usizeSub len 32)
  let state0 := mmSetEpi64x seed (BitVec.ofNat 64 len)
  let (s, c) ← lowLevelHashLoopX86 cpu ⟨state0, state0, state0, state0⟩ (Cursor.start data)
  let s ← if c.len > 32 then mixAb cpu s c.ptr else pure s
  let s ← mixCd cpu s last32
  return mix4x16Vectors cpu s.state0 s.state1 s.state2 s.state3

end X86

/-! ## Blocks and chunks -/

/-- SOURCE: low_level.rs:356-387, low_level.rs:460-469 -/
def lowLevelHash33To64 (t : Target) (seed : U64) (ptr : Bytes) : Traced Access U64 :=
  match t with
  | .x86_64 cpu => lowLevelHash33To64X86 cpu seed ptr
  | .portable .. => lowLevelHash33To64Portable t seed ptr

/-- SOURCE: low_level.rs:389-458, low_level.rs:471-525 -/
def lowLevelHashLenGt64 (t : Target) (seed : U64) (data : Bytes) : Traced Access U64 :=
  match t with
  | .x86_64 cpu => lowLevelHashLenGt64X86 cpu seed data
  | .portable .. => lowLevelHashLenGt64Portable t seed data

/-- SOURCE: low_level.rs:527-535 -/
def lowLevelHashLenGt32 (t : Target) (seed : U64) (data : Bytes) : Traced Access U64 := do
  let len := data.length
  debugAssert (len > 32)
  if len > 64 then lowLevelHashLenGt64 t seed data else lowLevelHash33To64 t seed data

/-- SOURCE: low_level.rs:537-542 -/
def hashBlockOn32bit (t : Target) (state : U64) (data : Bytes) : Traced Access U64 := do
  let len := data.length
  let state ← u64Add state (BitVec.ofNat 64 len)
  return combineRaw state ((← City.hash32 t.endian data).setWidth 64)

/-- SOURCE: low_level.rs:544-547 -/
def hashBlockOn64bit (t : Target) (state : U64) (data : Bytes) : Traced Access U64 :=
  lowLevelHashLenGt32 t state data

/-- What a chunked loop leaves: less than a chunk. -/
abbrev Remainder := { rest : Bytes // rest.length < piecewiseChunkSize }

/-- The `while` loop of the two `split_and_combine` functions.
SOURCE: low_level.rs:552-556, low_level.rs:569-573 -/
def splitLoop (hashBlock : U64 → Bytes → Traced Access U64) (state : U64) (c : Cursor) :
    Traced Access (U64 × Remainder) :=
  if h : c.len ≥ piecewiseChunkSize then do
    let state ← hashBlock state (← slice c.ptr 0 piecewiseChunkSize)
    c.checkAdvance piecewiseChunkSize
    splitLoop hashBlock state (c.advance piecewiseChunkSize)
  else
    pure (state, ⟨c.ptr, by rw [← c.len_eq]; omega⟩)
termination_by c.len
decreasing_by
  simp only [Cursor.advance, piecewiseChunkSize] at *
  omega

/-- The two `split_and_combine` functions differ in the functions that hash a block and
combine the remainder.
SOURCE: low_level.rs:549-564, low_level.rs:566-581 -/
def splitAndCombine (hashBlock : U64 → Bytes → Traced Access U64)
    (combineContiguous : U64 → Remainder → Traced Access U64) (state : U64) (first : Bytes) :
    Traced Access U64 := do
  let (state, ptr) ← splitLoop hashBlock state (Cursor.start first)
  if ptr.val.length = 0 then
    return state
  combineContiguous state ptr

mutual

/-- SOURCE: low_level.rs:73-82 -/
def combineContiguousOn32bit (t : Target) (state : U64) (first : Bytes) :
    Traced Access U64 := do
  let len := first.length
  if len ≤ 8 then
    combineSmallContiguous t (← precombineLengthMix t state len) first
  else
    combineLargeContiguousOn32bitLengthGt8 t state first
termination_by if first.length > piecewiseChunkSize then 4 else 1
decreasing_by all_goals split <;> omega

/-- SOURCE: low_level.rs:583-591 -/
def combineLargeContiguousOn32bitLengthGt8 (t : Target) (state : U64) (first : Bytes) :
    Traced Access U64 := do
  let len := first.length
  debugAssert (len > 8)
  if len ≤ piecewiseChunkSize then
    hashBlockOn32bit t state first
  else
    splitAndCombineOn32bit t state first
termination_by if first.length > piecewiseChunkSize then 3 else 0
decreasing_by
  rw [if_pos (by omega)]
  decide

/-- SOURCE: low_level.rs:549-564 -/
def splitAndCombineOn32bit (t : Target) (state : U64) (first : Bytes) : Traced Access U64 :=
  splitAndCombine (hashBlockOn32bit t)
    (fun state ptr => combineContiguousOn32bit t state ptr.val) state first
termination_by 2
decreasing_by
  rw [if_neg (Nat.not_lt_of_gt ptr.property)]
  decide

end

mutual

/-- With sse4.2 an `x86_64` processor hashes short inputs by CRC; without it the code is
that of the other targets.
SOURCE: low_level.rs:84-171, low_level.rs:173-191 -/
def combineContiguousOn64bit (t : Target) (state : U64) (first : Bytes) :
    Traced Access U64 := do
  let len := first.length
  match t.crc with
  | some cpu =>
      if len > 32 then
        combineLargeContiguousOn64bitLengthGt32 t state first
      else
        combineContiguousCrc cpu state first
  | none =>
      if len ≤ 8 then
        combineSmallContiguous t (← precombineLengthMix t state len) first
      else if len ≤ 16 then
        combineContiguous9To16 t (← precombineLengthMix t state len) first
      else if len ≤ 32 then
        combineContiguous17To32 t (← precombineLengthMix t state len) first
      else
        combineLargeContiguousOn64bitLengthGt32 t state first
termination_by if first.length > piecewiseChunkSize then 4 else 1
decreasing_by all_goals split <;> omega

/-- SOURCE: low_level.rs:593-601 -/
def combineLargeContiguousOn64bitLengthGt32 (t : Target) (state : U64) (first : Bytes) :
    Traced Access U64 := do
  let len := first.length
  debugAssert (len > 32)
  if len ≤ piecewiseChunkSize then
    hashBlockOn64bit t state first
  else
    splitAndCombineOn64bit t state first
termination_by if first.length > piecewiseChunkSize then 3 else 0
decreasing_by
  rw [if_pos (by omega)]
  decide

/-- SOURCE: low_level.rs:566-581 -/
def splitAndCombineOn64bit (t : Target) (state : U64) (first : Bytes) : Traced Access U64 :=
  splitAndCombine (hashBlockOn64bit t)
    (fun state ptr => combineContiguousOn64bit t state ptr.val) state first
termination_by 2
decreasing_by
  rw [if_neg (Nat.not_lt_of_gt ptr.property)]
  decide

end

end Mekong.Program.LowLevel
