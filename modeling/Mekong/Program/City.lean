import Mekong.Model.Bytes

/-!
# `city.rs`: CityHash

`hash32`, which hashes the blocks of a 32-bit target, with one function for each class
of lengths and a loop over chunks of 20 bytes for the inputs longer than 24; and `hash64`,
with its own classes and a loop over chunks of 64 bytes. The arithmetic of `hash64` on
lengths is that of the target's `usize`, which `PointerWidth` gives.
-/

set_option autoImplicit false

namespace Mekong.Program

open Mekong.Computation Mekong.Model

/-! ## `usize` -/

/-- `target_pointer_width`. -/
inductive PointerWidth
  | bits32
  | bits64
  deriving DecidableEq

/-- `usize::BITS`. -/
def PointerWidth.bits : PointerWidth → ℕ
  | .bits32 => 32
  | .bits64 => 64

/-- A slice on a target: its length is a `usize`. -/
abbrev Slice (width : PointerWidth) := { data : Bytes // data.length < 2 ^ width.bits }

section Usize

variable (width : PointerWidth)

/-- `a.wrapping_add(b)`. -/
def usizeWrappingAdd (a b : ℕ) : ℕ := (a + b) % 2 ^ width.bits

/-- `a.wrapping_mul(b)`. -/
def usizeWrappingMul (a b : ℕ) : ℕ := a * b % 2 ^ width.bits

/-- `a & !b`. -/
def usizeAndNot (a b : ℕ) : ℕ := a &&& (2 ^ width.bits - 1 - b)

/-- `v as usize`. -/
def asUsize (v : U64) : ℕ := v.toNat % 2 ^ width.bits

variable {width}

/-- Masking with `!(2^k - 1)` clears the low `k` bits. -/
theorem usizeAndNot_two_pow {a k : ℕ} (hk : k ≤ width.bits) (ha : a < 2 ^ width.bits) :
    usizeAndNot width a (2 ^ k - 1) = 2 ^ k * (a / 2 ^ k) := by
  have hpos := Nat.two_pow_pos k
  have hle : 2 ^ k ≤ 2 ^ width.bits := Nat.pow_le_pow_right (by decide) hk
  refine Nat.eq_of_testBit_eq fun i => ?_
  have hmask : (2 ^ width.bits - 1 - (2 ^ k - 1)).testBit i =
      (decide (i < width.bits) && !decide (i < k)) := by
    rw [Nat.sub_sub, Nat.add_comm, Nat.testBit_two_pow_sub_succ (by omega),
      Nat.testBit_two_pow_sub_one]
  have hmul : (2 ^ k * (a / 2 ^ k)).testBit i = (decide (k ≤ i) && a.testBit i) := by
    rw [Nat.testBit_two_pow_mul, Nat.testBit_div_two_pow]
    by_cases hi : k ≤ i
    · rw [Nat.sub_add_cancel hi]
    · simp [hi]
  rw [usizeAndNot, Nat.testBit_and, hmask, hmul]
  by_cases hi : i < width.bits
  · by_cases hki : i < k <;> simp [hi, hki, Nat.not_le_of_lt, Nat.le_of_not_lt]
  · have hzero : a.testBit i = false :=
      Nat.testBit_lt_two_pow (ha.trans_le (Nat.pow_le_pow_right (by decide) (by omega)))
    simp [hzero]

end Usize

namespace City

/-! ## `hash32` -/

/-- SOURCE: city.rs:28 -/
def c1 : U32 := 0xcc9e2d51

/-- SOURCE: city.rs:29 -/
def c2 : U32 := 0x1b873593

/-- SOURCE: city.rs:40-44, city.rs:52-56 -/
def u32InExpectedOrder (endian : Endian) (v : U32) : U32 :=
  match endian with
  | .little => v
  | .big => swapBytes32 v

/-- SOURCE: city.rs:69-72 -/
def fetch32 (endian : Endian) (p : Bytes) : Traced Access U32 := do
  return u32InExpectedOrder endian (← unalignedLoad32 endian .input p)

@[simp]
theorem all_fetch32 {P : Access → Prop} (endian : Endian) (p : Bytes) : (fetch32 endian p).All P ↔
    P (.load .input p.length 4 (fromNeBytes endian (p.take 4))) := by
  simp [fetch32]

@[simp]
theorem found_fetch32 {γ : Type} {f : Access → Option γ} (endian : Endian) (p : Bytes) :
    (fetch32 endian p).found f =
      (f (.load .input p.length 4 (fromNeBytes endian (p.take 4)))).toList := by
  simp [fetch32]

/-- SOURCE: city.rs:85-92 -/
def rotate32 (val : U32) (shift : ℕ) : U32 :=
  if shift = 0 then val else val.rotateRight shift

/-- SOURCE: city.rs:94-103 -/
def mur (a h : U32) : U32 :=
  let a := a * c1
  let a := rotate32 a 17
  let a := a * c2
  let h := h ^^^ a
  let h := rotate32 h 19
  h * 5 + 0xe6546b64

/-- SOURCE: city.rs:105-113 -/
def fmix (h : U32) : U32 :=
  let h := h ^^^ h >>> 16
  let h := h * 0x85ebca6b
  let h := h ^^^ h >>> 13
  let h := h * 0xc2b2ae35
  h ^^^ h >>> 16

section Short

variable (endian : Endian) (data : Bytes)

/-- SOURCE: city.rs:130-140 -/
def hash32Len0To4 : Traced Access U32 := do
  let len := data.length
  let (b, c) ← (List.range len).foldlM (fun ((b, c) : U32 × U32) i => do
    let v ← index data i
    let b := b * c1 + v.signExtend 32
    return (b, c ^^^ b)) (0, 9)
  return fmix (mur b (mur (BitVec.ofNat 32 len) c))

/-- SOURCE: city.rs:175-186 -/
def hash32Len5To12 : Traced Access U32 := do
  let len := data.length
  let a := BitVec.ofNat 32 len
  let b := a * 5
  let c : U32 := 9
  let d := b
  let a := a + (← fetch32 endian data)
  let b := b + (← fetch32 endian (← sliceFrom data (← usizeSub len 4)))
  let c := c + (← fetch32 endian (← sliceFrom data ((len >>> 1) &&& 4)))
  return fmix (mur c (mur b (mur a d)))

/-- SOURCE: city.rs:208-219 -/
def hash32Len13To24 : Traced Access U32 := do
  let len := data.length
  let a ← fetch32 endian (← sliceFrom data (← usizeSub (len >>> 1) 4))
  let b ← fetch32 endian (← sliceFrom data 4)
  let c ← fetch32 endian (← sliceFrom data (← usizeSub len 8))
  let d ← fetch32 endian (← sliceFrom data (len >>> 1))
  let e ← fetch32 endian data
  let f ← fetch32 endian (← sliceFrom data (← usizeSub len 4))
  let h := BitVec.ofNat 32 len
  return fmix (mur f (mur e (mur d (mur c (mur b (mur a h))))))

end Short

/-- The words that the loop of `hash32` carries. -/
structure Lanes where
  f : U32
  g : U32
  h : U32
  deriving DecidableEq

/-- SOURCE: city.rs:33-38, at its use `permute3!(f, h, g)` -/
def Lanes.permute3 (s : Lanes) : Lanes := ⟨s.g, s.h, s.f⟩

/-- One iteration of the loop of `hash32` on the words of a chunk.
SOURCE: city.rs:343-360 -/
def Lanes.absorb (s : Lanes) (b0 b1 b2 b3 b4 : U32) : Lanes :=
  let f := s.f
  let g := s.g
  let h := s.h
  let h := h ^^^ b0
  let h := rotate32 h 18
  let h := h * 5 + 0xe6546b64
  let f := f + b1
  let f := rotate32 f 19
  let f := f * c1
  let g := g + b2
  let g := rotate32 g 18
  let g := g * 5 + 0xe6546b64
  let h := h ^^^ (b3 + b1)
  let h := rotate32 h 19
  let h := h * 5 + 0xe6546b64
  let g := g ^^^ b4
  let g := swapBytes32 g * 5
  let h := h + b4 * 5
  let h := swapBytes32 h
  let f := f + b0
  Lanes.permute3 ⟨f, g, h⟩

/-- SOURCE: city.rs:336-367 -/
def hash32Loop (endian : Endian) (data : Bytes) (iters seek : ℕ) (s : Lanes) :
    Traced Access Lanes := do
  let b0 := rotate32 ((← fetch32 endian (← sliceFrom data seek)) * c1) 17 * c2
  let b1 ← fetch32 endian (← sliceFrom data (← usizeAdd seek 4))
  let b2 := rotate32 ((← fetch32 endian (← sliceFrom data (← usizeAdd seek 8))) * c1) 17 * c2
  let b3 := rotate32 ((← fetch32 endian (← sliceFrom data (← usizeAdd seek 12))) * c1) 17 * c2
  let b4 ← fetch32 endian (← sliceFrom data (← usizeAdd seek 16))
  let s := s.absorb b0 b1 b2 b3 b4
  let seek ← usizeAdd seek 20
  let _ ← usizeSub iters 1
  if iters - 1 = 0 then
    return s
  hash32Loop endian data (iters - 1) seek s
termination_by iters

/-- SOURCE: city.rs:291-379 -/
def hash32 (endian : Endian) (data : Bytes) : Traced Access U32 := do
  let len := data.length
  if len ≤ 24 then
    if len ≤ 12 then
      if len ≤ 4 then hash32Len0To4 data else hash32Len5To12 endian data
    else hash32Len13To24 endian data
  else
    let h := BitVec.ofNat 32 len
    let g := c1 * h
    let f := g
    let a0 := rotate32 ((← fetch32 endian (← sliceFrom data (← usizeSub len 4))) * c1) 17 * c2
    let a1 := rotate32 ((← fetch32 endian (← sliceFrom data (← usizeSub len 8))) * c1) 17 * c2
    let a2 := rotate32 ((← fetch32 endian (← sliceFrom data (← usizeSub len 16))) * c1) 17 * c2
    let a3 := rotate32 ((← fetch32 endian (← sliceFrom data (← usizeSub len 12))) * c1) 17 * c2
    let a4 := rotate32 ((← fetch32 endian (← sliceFrom data (← usizeSub len 20))) * c1) 17 * c2
    let h := h ^^^ a0
    let h := rotate32 h 19
    let h := h * 5 + 0xe6546b64
    let h := h ^^^ a2
    let h := rotate32 h 19
    let h := h * 5 + 0xe6546b64
    let g := g ^^^ a1
    let g := rotate32 g 19
    let g := g * 5 + 0xe6546b64
    let g := g ^^^ a3
    let g := rotate32 g 19
    let g := g * 5 + 0xe6546b64
    let f := f + a4
    let f := rotate32 f 19
    let f := f * 5 + 0xe6546b64
    let iters := (← usizeSub len 1) / 20
    let s ← hash32Loop endian data iters 0 ⟨f, g, h⟩
    let g := rotate32 s.g 11 * c1
    let g := rotate32 g 17 * c1
    let f := rotate32 s.f 11 * c1
    let f := rotate32 f 17 * c1
    let h := rotate32 (s.h + g) 19
    let h := h * 5 + 0xe6546b64
    let h := rotate32 h 17 * c1
    let h := rotate32 (h + f) 19
    let h := h * 5 + 0xe6546b64
    let h := rotate32 h 17 * c1
    return h

/-! ## `hash64` -/

/-- SOURCE: city.rs:23 -/
def k0 : U64 := 0xc3a5c85c97cb3127

/-- SOURCE: city.rs:24 -/
def k1 : U64 := 0xb492b66fbe98f273

/-- SOURCE: city.rs:25 -/
def k2 : U64 := 0x9ae16a3b2f90404f

/-- `MUL`.
SOURCE: city.rs:31 -/
def defaultMul : U64 := 0x9ddfea08eb382d69

/-- SOURCE: city.rs:46-50, city.rs:58-62 -/
def u64InExpectedOrder (endian : Endian) (v : U64) : U64 :=
  match endian with
  | .little => v
  | .big => swapBytes64 v

/-- SOURCE: city.rs:64-67 -/
def fetch64 (endian : Endian) (p : Bytes) : Traced Access U64 := do
  return u64InExpectedOrder endian (← unalignedLoad64 endian .input p)

@[simp]
theorem all_fetch64 {P : Access → Prop} (endian : Endian) (p : Bytes) : (fetch64 endian p).All P ↔
    P (.load .input p.length 8 (fromNeBytes endian (p.take 8))) := by
  simp [fetch64]

@[simp]
theorem found_fetch64 {γ : Type} {f : Access → Option γ} (endian : Endian) (p : Bytes) :
    (fetch64 endian p).found f =
      (f (.load .input p.length 8 (fromNeBytes endian (p.take 8)))).toList := by
  simp [fetch64]

/-- SOURCE: city.rs:76-83 -/
def rotate64 (val : U64) (shift : ℕ) : U64 :=
  if shift = 0 then val else val.rotateRight shift

/-- SOURCE: city.rs:115-118 -/
def shiftMix (val : U64) : U64 := val ^^^ val >>> 47

/-- SOURCE: city.rs:120-128 -/
def hash64Len16 (u v mul : U64) : U64 :=
  let a := (u ^^^ v) * mul
  let a := a ^^^ a >>> 47
  let b := (v ^^^ a) * mul
  let b := b ^^^ b >>> 47
  b * mul

section Classes

variable (width : PointerWidth) (endian : Endian) (data : Bytes)

/-- SOURCE: city.rs:142-173 -/
def hash64Len0To16 : Traced Access U64 := do
  let len := data.length
  if len ≥ 8 then
    let mul := k2 + BitVec.ofNat 64 (usizeWrappingMul width len 2)
    let a := (← fetch64 endian data) + k2
    let b ← fetch64 endian (← sliceFrom data (← usizeSub len 8))
    let c := rotate64 b 37 * mul + a
    let d := (rotate64 a 25 + b) * mul
    return hash64Len16 c d mul
  if len ≥ 4 then
    let mul := k2 + BitVec.ofNat 64 (usizeWrappingMul width len 2)
    let a : U64 := (← fetch32 endian data).setWidth 64
    let tail ← fetch32 endian (← sliceFrom data (← usizeSub len 4))
    let v := hash64Len16
      (BitVec.ofNat 64 (usizeWrappingAdd width len (asUsize width (a <<< 3))))
      (tail.setWidth 64) mul
    return v
  if len > 0 then
    let a ← index data 0
    let b ← index data (len >>> 1)
    let c ← index data (← usizeSub len 1)
    let y : U32 := a.setWidth 32 + b.setWidth 32 <<< 8
    let z : U32 := BitVec.ofNat 32 len + c.setWidth 32 <<< 2
    let k : U64 := y.setWidth 64 * k2 ^^^ z.setWidth 64 * k0
    return shiftMix k * k2
  return k2

/-- SOURCE: city.rs:188-206 -/
def hash64Len17To32 : Traced Access U64 := do
  let len := data.length
  let mul := k2 + BitVec.ofNat 64 (usizeWrappingMul width len 2)
  let a := (← fetch64 endian data) * k1
  let b ← fetch64 endian (← sliceFrom data 8)
  let c := (← fetch64 endian (← sliceFrom data (← usizeSub len 8))) * mul
  let d := (← fetch64 endian (← sliceFrom data (← usizeSub len 16))) * k2
  return hash64Len16 (rotate64 (a + b) 43 + rotate64 c 30 + d)
    (a + rotate64 (b + k2) 18 + c) mul

/-- SOURCE: city.rs:221-272 -/
def hash64Len33To64 : Traced Access U64 := do
  let len := data.length
  let mul := k2 + BitVec.ofNat 64 (usizeWrappingMul width len 2)
  let a := (← fetch64 endian data) * k2
  let b ← fetch64 endian (← sliceFrom data 8)
  let c ← fetch64 endian (← sliceFrom data (← usizeSub len 24))
  let d ← fetch64 endian (← sliceFrom data (← usizeSub len 32))
  let e := (← fetch64 endian (← sliceFrom data 16)) * k2
  let f := (← fetch64 endian (← sliceFrom data 24)) * 9
  let g ← fetch64 endian (← sliceFrom data (← usizeSub len 8))
  let h := (← fetch64 endian (← sliceFrom data (← usizeSub len 16))) * mul
  let q := (rotate64 b 30 + c) * 9
  let u := rotate64 (a + g) 43 + q
  let v := ((a + g) ^^^ d) + f + 1
  let w := swapBytes64 ((u + v) * mul) + h
  let x := rotate64 (e + f) 42 + c
  let y := (swapBytes64 ((v + w) * mul) + g) * mul
  let z := e + f + c
  let a := swapBytes64 ((x + z) * mul + y) + b
  let q := (z + a) * mul + d + h
  return shiftMix q * mul + x

/-- SOURCE: city.rs:274-289 -/
def weakHash64Len32WithSeeds (a b : U64) : Traced Access (U64 × U64) := do
  let w ← fetch64 endian data
  let x ← fetch64 endian (← sliceFrom data 8)
  let y ← fetch64 endian (← sliceFrom data 16)
  let z ← fetch64 endian (← sliceFrom data 24)
  let aa := a + w
  let bb := rotate64 (b + aa + z) 21
  let c := aa
  let aa := aa + x
  let aa := aa + y
  let bb := bb + rotate64 aa 44
  return (aa + z, bb + c)

end Classes

/-- The words that the loop of `hash64` carries. -/
structure State56 where
  v : U64 × U64
  w : U64 × U64
  x : U64
  y : U64
  z : U64
  deriving DecidableEq

/-- One iteration of the loop of `hash64` on the chunk at `seek`.
SOURCE: city.rs:411-435 -/
def hash64Chunk (endian : Endian) (data : Bytes) (seek : ℕ) (s : State56) :
    Traced Access State56 := do
  let t := s.x + s.y + s.v.1 + (← fetch64 endian (← sliceFrom data (← usizeAdd seek 8)))
  let x := rotate64 t 37 * k1
  let x := x ^^^ s.w.2
  let t := s.y + s.v.2 + (← fetch64 endian (← sliceFrom data (← usizeAdd seek 48)))
  let y := rotate64 t 42 * k1
  let t := s.v.1 + (← fetch64 endian (← sliceFrom data (← usizeAdd seek 40)))
  let y := y + t
  let z := rotate64 (s.z + s.w.1) 33 * k1
  let v ← weakHash64Len32WithSeeds endian (← sliceFrom data seek) (s.v.2 * k1) (x + s.w.1)
  let second ← sliceFrom data (← usizeAdd seek 32)
  let b := y + (← fetch64 endian (← sliceFrom data (← usizeAdd seek 16)))
  let w ← weakHash64Len32WithSeeds endian second (z + s.w.2) b
  return ⟨v, w, z, y, x⟩

/-- SOURCE: city.rs:409-442 -/
def hash64Loop (endian : Endian) (data : Bytes) (len seek : ℕ) (s : State56) :
    Traced Access State56 := do
  let s ← hash64Chunk endian data seek s
  let seek ← usizeAdd seek 64
  let _ ← usizeSub len 64
  if len - 64 = 0 then
    return s
  hash64Loop endian data (len - 64) seek s
termination_by len

/-- SOURCE: city.rs:381-449 -/
def hash64 (width : PointerWidth) (endian : Endian) (data : Bytes) : Traced Access U64 := do
  let len := data.length
  if len ≤ 32 then
    if len ≤ 16 then hash64Len0To16 width endian data else hash64Len17To32 width endian data
  else if len ≤ 64 then
    hash64Len33To64 width endian data
  else
    let x ← fetch64 endian (← sliceFrom data (← usizeSub len 40))
    let y := (← fetch64 endian (← sliceFrom data (← usizeSub len 16))) +
      (← fetch64 endian (← sliceFrom data (← usizeSub len 56)))
    let z := hash64Len16
      ((← fetch64 endian (← sliceFrom data (← usizeSub len 48))) + BitVec.ofNat 64 len)
      (← fetch64 endian (← sliceFrom data (← usizeSub len 24))) defaultMul
    let v ← weakHash64Len32WithSeeds endian (← sliceFrom data (← usizeSub len 64))
      (BitVec.ofNat 64 len) z
    let w ← weakHash64Len32WithSeeds endian (← sliceFrom data (← usizeSub len 32)) (y + k1) x
    let x := x * k1 + (← fetch64 endian data)
    let len := usizeAndNot width (← usizeSub len 1) 63
    let s ← hash64Loop endian data len 0 ⟨v, w, x, y, z⟩
    return hash64Len16
      (hash64Len16 s.v.1 s.w.1 defaultMul + (shiftMix s.y * k1 + s.z))
      (hash64Len16 s.v.2 s.w.2 defaultMul + s.x)
      defaultMul

/-- SOURCE: city.rs:456-459 -/
def hash64WithSeeds (width : PointerWidth) (endian : Endian) (data : Bytes) (seed0 seed1 : U64) :
    Traced Access U64 := do
  return hash64Len16 ((← hash64 width endian data) - seed0) seed1 defaultMul

/-- SOURCE: city.rs:451-454 -/
def hash64WithSeed (width : PointerWidth) (endian : Endian) (data : Bytes) (seed : U64) :
    Traced Access U64 :=
  hash64WithSeeds width endian data k2 seed

end City

end Mekong.Program
