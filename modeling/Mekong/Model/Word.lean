import Mathlib.Data.BitVec

/-!
# Machine words

The unsigned integers of the source are bit vectors of their width.
-/

set_option autoImplicit false

namespace Mekong.Model

abbrev U8 := BitVec 8

abbrev U32 := BitVec 32

/-- A `u64`, and a `usize` where it holds flags or a pointer. -/
abbrev U64 := BitVec 64

abbrev U128 := BitVec 128

/-- `u32::swap_bytes`. -/
def swapBytes32 (v : U32) : U32 :=
  v.extractLsb' 0 8 ++ v.extractLsb' 8 8 ++ v.extractLsb' 16 8 ++ v.extractLsb' 24 8

/-- `u64::swap_bytes`. -/
def swapBytes64 (v : U64) : U64 :=
  swapBytes32 (v.extractLsb' 0 32) ++ swapBytes32 (v.extractLsb' 32 32)

/-! ## Reversing the bytes -/

/-- The four bytes are reversed. -/
theorem swapBytes32_append (a b c d : U8) :
    swapBytes32 (a ++ b ++ c ++ d) = d ++ c ++ b ++ a := by
  simp (disch := decide) only [swapBytes32, BitVec.extractLsb'_append_eq_of_add_le,
    BitVec.extractLsb'_append_eq_of_le, BitVec.extractLsb'_eq_self, Nat.reduceSub]

/-- A word is its bytes. -/
theorem append_bytes (v : U32) :
    v.extractLsb' 24 8 ++ v.extractLsb' 16 8 ++ v.extractLsb' 8 8 ++ v.extractLsb' 0 8 = v := by
  rw [BitVec.extractLsb'_append_extractLsb'_eq_extractLsb' (show 24 = 16 + 8 from rfl),
    BitVec.extractLsb'_append_extractLsb'_eq_extractLsb' (show 16 = 8 + 8 from rfl),
    BitVec.extractLsb'_append_extractLsb'_eq_extractLsb' (show 8 = 0 + 8 from rfl)]
  exact BitVec.extractLsb'_eq_self

/-- Two swaps undo each other. -/
theorem swapBytes32_swapBytes32 (v : U32) : swapBytes32 (swapBytes32 v) = v := by
  have h := swapBytes32_append (v.extractLsb' 0 8) (v.extractLsb' 8 8) (v.extractLsb' 16 8)
    (v.extractLsb' 24 8)
  exact h.trans (append_bytes v)

/-- The low half of a swapped word is the high half, swapped. -/
theorem swapBytes64_low (v : U64) :
    (swapBytes64 v).setWidth 32 = swapBytes32 (v.extractLsb' 32 32) := by
  rw [swapBytes64, BitVec.setWidth_append, dif_pos (by decide), BitVec.setWidth_eq]

/-- The high half is the low half, swapped. -/
theorem swapBytes64_high (v : U64) :
    (swapBytes64 v).extractLsb' 32 32 = swapBytes32 (v.setWidth 32) := by
  rw [swapBytes64, BitVec.extractLsb'_append_eq_left, BitVec.setWidth_eq_extractLsb' (by decide)]

/-- A word is its two halves. -/
theorem eq_of_halves {v w : U64} (hhi : v.extractLsb' 32 32 = w.extractLsb' 32 32)
    (hlo : v.setWidth 32 = w.setWidth 32) : v = w := by
  have hv : ∀ x : U64, x.extractLsb' 32 32 ++ x.setWidth 32 = x := by
    intro x
    rw [BitVec.setWidth_eq_extractLsb' (by decide),
      BitVec.extractLsb'_append_extractLsb'_eq_extractLsb' (show 32 = 0 + 32 from rfl)]
    exact BitVec.extractLsb'_eq_self
  rw [← hv v, ← hv w, hhi, hlo]

/-- Two swaps undo each other. -/
theorem swapBytes64_swapBytes64 (v : U64) : swapBytes64 (swapBytes64 v) = v := by
  apply eq_of_halves
  · rw [swapBytes64_high, swapBytes64_low, swapBytes32_swapBytes32]
  · rw [swapBytes64_low, swapBytes64_high, swapBytes32_swapBytes32]

end Mekong.Model
