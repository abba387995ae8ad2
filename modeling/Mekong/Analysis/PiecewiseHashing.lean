import Mekong.Program.Hash
import Mekong.Computation.Chunks

/-!
# Hashing in pieces

Inputs of more than a chunk are hashed chunk by chunk, and the remainder goes through the
entry function again, so an input may be handed over in pieces that end at chunk
boundaries. The loop of `split_and_combine` is `foldChunks` over the results of the block
hash; whole chunks leave its state alone, and a nonempty remainder is hashed as an input
of its own. An input of one chunk does not go through the loop, but its one block is what
the loop would hash.
-/

set_option autoImplicit false

namespace Mekong.Analysis.PiecewiseHashing

open Mekong.Computation Mekong.Model Mekong.Program Mekong.Program.LowLevel

/-! ## The loop over chunks -/

section Loop

variable (hashBlock : U64 → Bytes → Traced Access U64)

/-- The loop returns the state after the whole chunks and what is left of the input. -/
theorem splitLoop_val (state : U64) (c : Cursor) :
    ((splitLoop hashBlock state c).val.1, (splitLoop hashBlock state c).val.2.val) =
      foldChunks piecewiseChunkSize (fun s p => (hashBlock s p).val) state c.ptr := by
  fun_induction splitLoop hashBlock state c with
  | case1 state c h ih =>
      rw [foldChunks_of_le (by rw [← c.len_eq]; exact h)]
      simpa [Cursor.advance] using ih (hashBlock state (c.ptr.take piecewiseChunkSize)).val
  | case2 state c h =>
      rw [foldChunks_of_lt (by rw [← c.len_eq]; omega)]
      rfl

variable (combineContiguous : U64 → Bytes → Traced Access U64)

/-- Chunks, then the remainder unless it is empty. -/
theorem splitAndCombine_val (state : U64) (first : Bytes) :
    (splitAndCombine hashBlock (fun s ptr => combineContiguous s ptr.val) state first).val =
      foldPieces piecewiseChunkSize (fun s p => (hashBlock s p).val)
        (fun s p => (combineContiguous s p).val) state first := by
  have h := splitLoop_val hashBlock state (Cursor.start first)
  rw [show (Cursor.start first).ptr = first from rfl] at h
  simp only [foldPieces, ← h, splitAndCombine, Traced.val_bind, List.length_eq_zero_iff]
  split <;> rfl

/-- A function that hashes a single chunk as a block, and splits what is longer, works
piecewise. What it does to shorter inputs does not matter. -/
theorem val_eq_foldPieces
    (hblock : ∀ s p, p.length = piecewiseChunkSize →
      (combineContiguous s p).val = (hashBlock s p).val)
    (hsplit : ∀ s p, piecewiseChunkSize < p.length → (combineContiguous s p).val =
      (splitAndCombine hashBlock (fun s ptr => combineContiguous s ptr.val) s p).val)
    (state : U64) (first : Bytes) (hfirst : first ≠ []) :
    (combineContiguous state first).val =
      foldPieces piecewiseChunkSize (fun s p => (hashBlock s p).val)
        (fun s p => (combineContiguous s p).val) state first := by
  obtain hlt | heq | hgt := Nat.lt_trichotomy first.length piecewiseChunkSize
  · rw [foldPieces_of_lt hlt hfirst]
  · rw [foldPieces_of_eq heq, hblock state first heq]
  · rw [hsplit state first hgt, splitAndCombine_val]

end Loop

/-! ## The entry functions -/

section Entry

variable (t : Target) (state : U64) (first : Bytes)

/-- A full chunk is one block on a 32-bit target. -/
theorem combineContiguousOn32bit_block (h : first.length = piecewiseChunkSize) :
    (combineContiguousOn32bit t state first).val = (hashBlockOn32bit t state first).val := by
  have hlong : ¬ first.length ≤ 8 := by
    rw [h]
    decide
  rw [combineContiguousOn32bit, if_neg hlong, combineLargeContiguousOn32bitLengthGt8]
  simp only [Traced.val_bind, if_pos h.le]

/-- A longer input goes chunk by chunk on a 32-bit target. -/
theorem combineContiguousOn32bit_split (h : piecewiseChunkSize < first.length) :
    (combineContiguousOn32bit t state first).val =
      (splitAndCombine (hashBlockOn32bit t)
        (fun s ptr => combineContiguousOn32bit t s ptr.val) state first).val := by
  have hlong : ¬ first.length ≤ 8 := by
    rw [piecewiseChunkSize] at h
    omega
  rw [combineContiguousOn32bit, if_neg hlong, combineLargeContiguousOn32bitLengthGt8]
  simp only [Traced.val_bind, if_neg (Nat.not_le_of_gt h), splitAndCombineOn32bit]

/-- An input of more than 32 bytes takes the same path on every target. -/
theorem combineContiguousOn64bit_of_gt (h : 32 < first.length) :
    combineContiguousOn64bit t state first =
      combineLargeContiguousOn64bitLengthGt32 t state first := by
  rw [combineContiguousOn64bit]
  cases t.crc with
  | some cpu => exact if_pos h
  | none =>
      simp only [if_neg (show ¬ first.length ≤ 8 by omega),
        if_neg (show ¬ first.length ≤ 16 by omega), if_neg (show ¬ first.length ≤ 32 by omega)]

/-- A full chunk is one block on a 64-bit target. -/
theorem combineContiguousOn64bit_block (h : first.length = piecewiseChunkSize) :
    (combineContiguousOn64bit t state first).val = (hashBlockOn64bit t state first).val := by
  have hlong : 32 < first.length := by
    rw [h]
    decide
  rw [combineContiguousOn64bit_of_gt t state first hlong,
    combineLargeContiguousOn64bitLengthGt32]
  simp only [Traced.val_bind, if_pos h.le]

/-- A longer input goes chunk by chunk on a 64-bit target. -/
theorem combineContiguousOn64bit_split (h : piecewiseChunkSize < first.length) :
    (combineContiguousOn64bit t state first).val =
      (splitAndCombine (hashBlockOn64bit t)
        (fun s ptr => combineContiguousOn64bit t s ptr.val) state first).val := by
  have hlong : 32 < first.length := by
    rw [piecewiseChunkSize] at h
    omega
  rw [combineContiguousOn64bit_of_gt t state first hlong,
    combineLargeContiguousOn64bitLengthGt32]
  simp only [Traced.val_bind, if_neg (Nat.not_le_of_gt h), splitAndCombineOn64bit]

end Entry

/-! ## Writing in pieces -/

section Append

variable {x y : Bytes}

/-- A cut between chunks changes nothing on a 32-bit target. -/
theorem combineContiguousOn32bit_append (t : Target) (state : U64)
    (hdvd : piecewiseChunkSize ∣ x.length) (hx : x ≠ []) (hy : y ≠ []) :
    (combineContiguousOn32bit t state (x ++ y)).val =
      (combineContiguousOn32bit t (combineContiguousOn32bit t state x).val y).val :=
  append_of_foldPieces (g := fun s p => (combineContiguousOn32bit t s p).val)
    (val_eq_foldPieces (hashBlockOn32bit t) (combineContiguousOn32bit t)
      (combineContiguousOn32bit_block t) (combineContiguousOn32bit_split t)) hdvd hx hy state

/-- A cut between chunks changes nothing on a 64-bit target. -/
theorem combineContiguousOn64bit_append (t : Target) (state : U64)
    (hdvd : piecewiseChunkSize ∣ x.length) (hx : x ≠ []) (hy : y ≠ []) :
    (combineContiguousOn64bit t state (x ++ y)).val =
      (combineContiguousOn64bit t (combineContiguousOn64bit t state x).val y).val :=
  append_of_foldPieces (g := fun s p => (combineContiguousOn64bit t s p).val)
    (val_eq_foldPieces (hashBlockOn64bit t) (combineContiguousOn64bit t)
      (combineContiguousOn64bit_block t) (combineContiguousOn64bit_split t)) hdvd hx hy state

/-- Hashing whole chunks and then a nonempty rest is hashing both at once, for each of
the functions and for the hasher on every target. -/
theorem write_append (hdvd : piecewiseChunkSize ∣ x.length) (hx : 0 < x.length)
    (hy : y ≠ []) :
    (∀ t state, (combineContiguousOn32bit t state (x ++ y)).val =
      (combineContiguousOn32bit t (combineContiguousOn32bit t state x).val y).val) ∧
    (∀ t state, (combineContiguousOn64bit t state (x ++ y)).val =
      (combineContiguousOn64bit t (combineContiguousOn64bit t state x).val y).val) ∧
    ∀ width t (hasher : MixingHasher),
      hasher.write width t (x ++ y) = (hasher.write width t x).write width t y := by
  have hx' : x ≠ [] := List.ne_nil_of_length_pos hx
  refine ⟨fun t state => combineContiguousOn32bit_append t state hdvd hx' hy,
    fun t state => combineContiguousOn64bit_append t state hdvd hx' hy, ?_⟩
  intro width t hasher
  cases width with
  | bits32 =>
      simp only [MixingHasher.write, combineContiguousOn32bit_append t _ hdvd hx' hy]
  | bits64 =>
      simp only [MixingHasher.write, combineContiguousOn64bit_append t _ hdvd hx' hy]

/-- Two chunks of zeros followed by one byte. -/
theorem write_append_two_chunks :
    MixingHasher.write .bits64 (.portable .little false) ⟨0⟩ (List.replicate 2048 0 ++ [1]) =
      MixingHasher.write .bits64 (.portable .little false)
        (MixingHasher.write .bits64 (.portable .little false) ⟨0⟩ (List.replicate 2048 0))
        [1] :=
  (write_append (by rw [List.length_replicate]; decide) (by rw [List.length_replicate]; decide)
    (by decide)).2.2 _ _ _

end Append

end Mekong.Analysis.PiecewiseHashing
