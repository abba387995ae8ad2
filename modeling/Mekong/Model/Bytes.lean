import Mekong.Model.Word
import Mekong.Computation.Traced
import Mathlib.Data.List.Basic

/-!
# Byte slices and the ways the hash code reads them

A `&[u8]` is the list of its bytes. The hash code reads it in three ways: raw unaligned
loads of 4, 8 or 16 bytes, which the code does not check, indexing, and slicing. Each
read, each subtraction of lengths and each assertion reports an event with all it was
given, so that bounds are a property of the log; a read past the end has the value of
the bytes that are there.
-/

set_option autoImplicit false

namespace Mekong.Model

open Mekong.Computation

abbrev Bytes := List U8

/-- `target_endian`. -/
inductive Endian
  | little
  | big
  deriving DecidableEq

/-- The slice a raw load goes to: the input, or `K_STATIC_RANDOM_DATA`. -/
inductive Region
  | input
  | table
  deriving DecidableEq

/-- What a hash computation reports. -/
inductive Access
  /-- A raw load of `width` bytes from the start of a slice of `size` bytes. -/
  | load (region : Region) (size width word : ℕ)
  /-- `p[i]` on a slice of `size` bytes. -/
  | index (size i : ℕ) (byte : U8)
  /-- `&p[lo..hi]` on a slice of `size` bytes. -/
  | range (size lo hi : ℕ)
  /-- `a - b` on `usize`. -/
  | sub (a b : ℕ)
  /-- `a + b` on `usize`. -/
  | usizeAdd (a b : ℕ)
  /-- `a + b` on `u64`. -/
  | add (a b : U64)
  /-- `assert!` or `debug_assert!`. -/
  | assert (holds : Bool)
  deriving DecidableEq

/-- The number that bytes spell, least significant byte first. -/
def fromLeBytes (p : Bytes) : ℕ := p.foldr (fun b acc => b.toNat + 256 * acc) 0

/-- The number that bytes spell in the target's byte order. -/
def fromNeBytes (endian : Endian) (p : Bytes) : ℕ :=
  match endian with
  | .little => fromLeBytes p
  | .big => fromLeBytes p.reverse

section Load

variable (endian : Endian) (region : Region) (p : Bytes)

/-- `ptr::read_unaligned` of a word of `width` bytes at the start of `p`. -/
def readUnaligned (width : ℕ) : Traced Access ℕ :=
  let word := fromNeBytes endian (p.take width)
  Traced.report (.load region p.length width word) word

/-- SOURCE: unaligned_access.rs:27-30 -/
def unalignedLoad32 : Traced Access U32 := do
  return BitVec.ofNat 32 (← readUnaligned endian region p 4)

/-- SOURCE: unaligned_access.rs:32-35 -/
def unalignedLoad64 : Traced Access U64 := do
  return BitVec.ofNat 64 (← readUnaligned endian region p 8)

end Load

section Own

/-- The bytes of an integer of `n` bytes in memory. -/
def neBytes (endian : Endian) (n : ℕ) {w : ℕ} (i : BitVec w) : Bytes :=
  let bytes := (List.range n).map fun k => i.extractLsb' (8 * k) 8
  match endian with
  | .little => bytes
  | .big => bytes.reverse

/-- An unaligned load of `n` bytes from the address of the integer `i`.
SOURCE: unaligned_access.rs:22-35 -/
def loadOwn (endian : Endian) (n : ℕ) {w : ℕ} (i : BitVec w) : BitVec w :=
  BitVec.ofNat w (fromNeBytes endian (neBytes endian n i))

/-- The bytes of an integer from `lo` on give those bits of it. -/
theorem fromLeBytes_range (n : ℕ) {w : ℕ} (i : BitVec w) (lo : ℕ) :
    fromLeBytes ((List.range n).map fun k => i.extractLsb' (8 * (lo + k)) 8) =
      i.toNat / 2 ^ (8 * lo) % 2 ^ (8 * n) := by
  induction n generalizing lo with
  | zero => simp [fromLeBytes, Nat.mod_one]
  | succ n ih =>
    rw [List.range_succ_eq_map, List.map_cons, List.map_map]
    have hrest := ih (lo + 1)
    simp only [fromLeBytes, List.foldr_cons] at hrest ⊢
    have hshift : (fun k => i.extractLsb' (8 * (lo + k)) 8) ∘ Nat.succ =
        fun k => i.extractLsb' (8 * (lo + 1 + k)) 8 := by
      funext k
      simp only [Function.comp_apply, Nat.succ_eq_add_one, show lo + (k + 1) = lo + 1 + k by omega]
    rw [hshift, hrest, Nat.add_zero, BitVec.extractLsb'_toNat, Nat.shiftRight_eq_div_pow]
    have hdiv : i.toNat / 2 ^ (8 * (lo + 1)) = i.toNat / 2 ^ (8 * lo) / 256 := by
      rw [Nat.div_div_eq_div_mul, show 8 * (lo + 1) = 8 * lo + 8 by omega, Nat.pow_add]
    rw [hdiv, show 8 * (n + 1) = 8 + 8 * n by omega, Nat.pow_add, Nat.mod_mul]

/-- Loading an integer back from its own bytes gives the integer. -/
theorem loadOwn_eq (endian : Endian) (n : ℕ) {w : ℕ} (hw : w = 8 * n) (i : BitVec w) :
    loadOwn endian n i = i := by
  have h := fromLeBytes_range n i 0
  simp only [Nat.zero_add, Nat.mul_zero, pow_zero, Nat.div_one, ← hw,
    Nat.mod_eq_of_lt i.isLt] at h
  unfold loadOwn
  cases endian with
  | little => simp only [fromNeBytes, neBytes, h, BitVec.ofNat_toNat, BitVec.setWidth_eq]
  | big => simp only [fromNeBytes, neBytes, List.reverse_reverse, h, BitVec.ofNat_toNat,
      BitVec.setWidth_eq]

end Own

section Slice

variable (p : Bytes)

/-- `p[i]`. -/
def index (i : ℕ) : Traced Access U8 :=
  Traced.report (.index p.length i (p.getD i 0)) (p.getD i 0)

/-- `&p[lo..hi]`. -/
def slice (lo hi : ℕ) : Traced Access Bytes :=
  Traced.report (.range p.length lo hi) ((p.take hi).drop lo)

/-- `&p[lo..]`. -/
def sliceFrom (lo : ℕ) : Traced Access Bytes :=
  Traced.report (.range p.length lo p.length) (p.drop lo)

@[simp]
theorem val_index (i : ℕ) : (index p i).val = p.getD i 0 := rfl

@[simp]
theorem val_slice (lo hi : ℕ) : (slice p lo hi).val = (p.take hi).drop lo := rfl

@[simp]
theorem val_sliceFrom (lo : ℕ) : (sliceFrom p lo).val = p.drop lo := rfl

end Slice

/-- `a - b` on `usize`. -/
def usizeSub (a b : ℕ) : Traced Access ℕ := Traced.report (.sub a b) (a - b)

@[simp]
theorem val_usizeSub (a b : ℕ) : (usizeSub a b).val = a - b := rfl

/-- `a + b` on `usize`. -/
def usizeAdd (a b : ℕ) : Traced Access ℕ := Traced.report (.usizeAdd a b) (a + b)

@[simp]
theorem val_usizeAdd (a b : ℕ) : (usizeAdd a b).val = a + b := rfl

/-- `a + b` on `u64`, as it is where overflow is not checked. -/
def u64Add (a b : U64) : Traced Access U64 := Traced.report (.add a b) (a + b)

@[simp]
theorem val_u64Add (a b : U64) : (u64Add a b).val = a + b := rfl

/-- `debug_assert!` and `assert!`. -/
def debugAssert (holds : Bool) : Traced Access Unit := Traced.emit (.assert holds)

/-- The variables `ptr` and `len` of a chunked loop: the rest of the input and its
length. -/
structure Cursor where
  ptr : Bytes
  len : ℕ
  len_eq : len = ptr.length

/-- `let mut len = p.len(); let mut ptr = p;` -/
def Cursor.start (p : Bytes) : Cursor := ⟨p, p.length, rfl⟩

/-- `ptr = &ptr[n..]; len -= n;` -/
def Cursor.advance (c : Cursor) (n : ℕ) : Cursor :=
  ⟨c.ptr.drop n, c.len - n, by rw [c.len_eq, List.length_drop]⟩

@[simp]
theorem Cursor.advance_len (c : Cursor) (n : ℕ) : (c.advance n).len = c.len - n := rfl

@[simp]
theorem Cursor.advance_ptr (c : Cursor) (n : ℕ) : (c.advance n).ptr = c.ptr.drop n := rfl

/-- The checks of the two assignments of `advance`. -/
def Cursor.checkAdvance (c : Cursor) (n : ℕ) : Traced Access Unit := do
  let _ ← sliceFrom c.ptr n
  let _ ← usizeSub c.len n

/-! ## What each access reports -/

section Reports

open Traced

variable {P : Access → Prop} {γ : Type} {f : Access → Option γ}
variable (endian : Endian) (region : Region) (p : Bytes)

@[simp]
theorem all_index (i : ℕ) : (index p i).All P ↔ P (.index p.length i (p.getD i 0)) :=
  all_report _ _

@[simp]
theorem all_slice (lo hi : ℕ) : (slice p lo hi).All P ↔ P (.range p.length lo hi) :=
  all_report _ _

@[simp]
theorem all_sliceFrom (lo : ℕ) : (sliceFrom p lo).All P ↔ P (.range p.length lo p.length) :=
  all_report _ _

@[simp]
theorem all_usizeSub (a b : ℕ) : (usizeSub a b).All P ↔ P (.sub a b) := all_report _ _

@[simp]
theorem all_usizeAdd (a b : ℕ) : (usizeAdd a b).All P ↔ P (.usizeAdd a b) := all_report _ _

@[simp]
theorem all_u64Add (a b : U64) : (u64Add a b).All P ↔ P (.add a b) := all_report _ _

@[simp]
theorem all_debugAssert (holds : Bool) : (debugAssert holds).All P ↔ P (.assert holds) :=
  all_emit _

@[simp]
theorem all_readUnaligned (width : ℕ) : (readUnaligned endian region p width).All P ↔
    P (.load region p.length width (fromNeBytes endian (p.take width))) :=
  all_report _ _

@[simp]
theorem all_unalignedLoad32 : (unalignedLoad32 endian region p).All P ↔
    P (.load region p.length 4 (fromNeBytes endian (p.take 4))) := by
  simp [unalignedLoad32]

@[simp]
theorem all_unalignedLoad64 : (unalignedLoad64 endian region p).All P ↔
    P (.load region p.length 8 (fromNeBytes endian (p.take 8))) := by
  simp [unalignedLoad64]

@[simp]
theorem all_checkAdvance (c : Cursor) (n : ℕ) : (c.checkAdvance n).All P ↔
    P (.range c.ptr.length n c.ptr.length) ∧ P (.sub c.len n) := by
  simp [Cursor.checkAdvance]

@[simp]
theorem found_index (i : ℕ) :
    (index p i).found f = (f (.index p.length i (p.getD i 0))).toList :=
  found_report _ _

@[simp]
theorem found_slice (lo hi : ℕ) : (slice p lo hi).found f = (f (.range p.length lo hi)).toList :=
  found_report _ _

@[simp]
theorem found_sliceFrom (lo : ℕ) :
    (sliceFrom p lo).found f = (f (.range p.length lo p.length)).toList :=
  found_report _ _

@[simp]
theorem found_usizeSub (a b : ℕ) : (usizeSub a b).found f = (f (.sub a b)).toList :=
  found_report _ _

@[simp]
theorem found_usizeAdd (a b : ℕ) : (usizeAdd a b).found f = (f (.usizeAdd a b)).toList :=
  found_report _ _

@[simp]
theorem found_u64Add (a b : U64) : (u64Add a b).found f = (f (.add a b)).toList :=
  found_report _ _

@[simp]
theorem found_debugAssert (holds : Bool) :
    (debugAssert holds).found f = (f (.assert holds)).toList :=
  found_emit _

@[simp]
theorem found_readUnaligned (width : ℕ) : (readUnaligned endian region p width).found f =
    (f (.load region p.length width (fromNeBytes endian (p.take width)))).toList :=
  found_report _ _

@[simp]
theorem found_unalignedLoad32 : (unalignedLoad32 endian region p).found f =
    (f (.load region p.length 4 (fromNeBytes endian (p.take 4)))).toList := by
  simp [unalignedLoad32]

@[simp]
theorem found_unalignedLoad64 : (unalignedLoad64 endian region p).found f =
    (f (.load region p.length 8 (fromNeBytes endian (p.take 8)))).toList := by
  simp [unalignedLoad64]

@[simp]
theorem found_checkAdvance (c : Cursor) (n : ℕ) : (c.checkAdvance n).found f =
    (f (.range c.ptr.length n c.ptr.length)).toList ++ (f (.sub c.len n)).toList := by
  simp [Cursor.checkAdvance]

end Reports

end Mekong.Model
