import Mekong.Analysis.HashBounds
import Mekong.Analysis.PiecewiseHashing

/-!
# Overflow on a 32-bit target

Everything that the 32-bit path computes with plain operators fits its type, with one
exception: `hash_block_on32bit` adds the length of its block to the state, and the state
is any word. What has to be shown of a run over many blocks is that this is the only
place, so that a run is free of overflow exactly when each block starts from a state that
leaves room for its length.
-/

set_option autoImplicit false

namespace Mekong.Analysis.Block32Overflow

open Mekong.Computation Mekong.Model Mekong.Program Mekong.Program.LowLevel Mekong.Program.City
open Mekong.Analysis.HashBounds

/-- An operation on integers of a 32-bit target does not overflow. -/
@[simp]
def NoOverflow : Access → Prop
  | .sub a b => b ≤ a
  | .usizeAdd a b => a + b < 2 ^ 32
  | .add a b => a.toNat + b.toNat < 2 ^ 64
  | .load .. | .index .. | .range .. | .assert _ => True

/-- The additions alone. -/
@[simp]
def AddsFit : Access → Prop
  | .usizeAdd a b => a + b < 2 ^ 32
  | .add a b => a.toNat + b.toNat < 2 ^ 64
  | .sub .. | .load .. | .index .. | .range .. | .assert _ => True

/-- The subtractions of a computation that is in bounds do not overflow. -/
theorem noOverflow_of_addsFit {α : Type} {x : Traced Access α} (hx : x.All InBounds)
    (h : x.All AddsFit) : x.All NoOverflow := by
  refine Traced.All.imp₂ (fun e he hfit => ?_) hx h
  cases e with
  | sub a b => exact he
  | usizeAdd a b => exact hfit
  | add a b => exact hfit
  | _ => trivial

/-! ## `hash32` -/

section Hash32

variable {endian : Endian} {data : Bytes}

/-- No position of the loop overflows if the last one does not. -/
theorem hash32Loop_addsFit (iters seek : ℕ) (s : Lanes) (hiters : 0 < iters)
    (hseek : seek + 20 * iters < 2 ^ 32) :
    (hash32Loop endian data iters seek s).All AddsFit := by
  induction iters generalizing seek s with
  | zero => exact absurd hiters (by decide)
  | succ k ih =>
    have hrest : ∀ s, k ≠ 0 → (hash32Loop endian data k (seek + 20) s).All AddsFit := by
      intro s hk
      exact ih _ _ (by omega) (by omega)
    rw [hash32Loop]
    simp +contextual [hrest]
    omega

/-- The one addition of `hash32` that is not wrapping moves the loop forward. -/
theorem hash32_addsFit (hdata : data.length < 2 ^ 32) :
    (City.hash32 endian data).All AddsFit := by
  have hloop : 24 < data.length →
      ∀ s, (hash32Loop endian data ((data.length - 1) / 20) 0 s).All AddsFit := by
    intro h24 s
    exact hash32Loop_addsFit _ _ _ (by omega) (by omega)
  have hbytes : (hash32Len0To4 data).All AddsFit := by
    simp only [hash32Len0To4, Traced.all_bind, Traced.all_pure, and_true]
    apply Traced.all_foldlM
    intro b i _
    simp
  unfold City.hash32
  simp +contextual [hash32Len5To12, hash32Len13To24, hbytes, hloop]

end Hash32

/-! ## Blocks -/

section Blocks

variable {t : Target} {state : U64} {data : Bytes}

/-- A block overflows in the addition of its length or nowhere. -/
theorem hashBlockOn32bit_noOverflow_iff (hdata : data.length < 2 ^ 32) :
    (hashBlockOn32bit t state data).All NoOverflow ↔ state.toNat + data.length < 2 ^ 64 := by
  have hhash : (City.hash32 t.endian data).All NoOverflow :=
    noOverflow_of_addsFit (hash32_inBounds t.endian data) (hash32_addsFit hdata)
  have hlen : (BitVec.ofNat 64 data.length).toNat = data.length := by
    rw [BitVec.toNat_ofNat]
    exact Nat.mod_eq_of_lt (by omega)
  simp only [hashBlockOn32bit, Traced.all_bind, Traced.all_pure, all_u64Add, NoOverflow, hlen,
    hhash, and_true]

/-- Up to a chunk there is one block, or none. -/
theorem combineContiguousOn32bit_noOverflow_iff_of_le (hdata : data.length ≤ piecewiseChunkSize) :
    (combineContiguousOn32bit t state data).All NoOverflow ↔
      (8 < data.length → state.toNat + data.length < 2 ^ 64) := by
  have hchunk : piecewiseChunkSize < 2 ^ 32 := by decide
  rw [combineContiguousOn32bit]
  by_cases h8 : data.length ≤ 8
  · have hmix : (precombineLengthMix t state data.length).All AddsFit := by
      simp [precombineLengthMix]
      omega
    have hsmall : ∀ state, (combineSmallContiguous t state data).All AddsFit := by
      intro state
      simp [combineSmallContiguous, read4To8, read1To3]
    have hfit := noOverflow_of_addsFit
      (precombineLengthMix_inBounds (t := t) state (show data.length ≤ 32 by omega)) hmix
    have hfit' : ∀ state, (combineSmallContiguous t state data).All NoOverflow := fun state =>
      noOverflow_of_addsFit (combineSmallContiguous_inBounds state h8) (hsmall state)
    simp [h8, hfit, hfit', Nat.not_lt_of_le h8]
  · simp only [if_neg h8]
    rw [combineLargeContiguousOn32bitLengthGt8]
    simp [hdata, hashBlockOn32bit_noOverflow_iff (hdata.trans_lt hchunk), Nat.lt_of_not_le h8]

/-- The blocks of an input: its chunks, and the remainder. -/
def block (data : Bytes) (k : ℕ) : Bytes :=
  (data.drop (piecewiseChunkSize * k)).take piecewiseChunkSize

/-- The state that block `k` starts from. -/
def stateBefore (t : Target) : U64 → Bytes → ℕ → U64
  | state, _, 0 => state
  | state, data, k + 1 =>
    stateBefore t (hashBlockOn32bit t state (data.take piecewiseChunkSize)).val
      (data.drop piecewiseChunkSize) k

/-- The state before each block that `hash_block_on32bit` hashes leaves room for its
length. -/
def BlocksFit (t : Target) (state : U64) (data : Bytes) : Prop :=
  ∀ k, 8 < (block data k).length →
    (stateBefore t state data k).toNat + (block data k).length < 2 ^ 64

/-- The blocks after the first are those of the rest. -/
theorem block_succ (k : ℕ) : block data (k + 1) = block (data.drop piecewiseChunkSize) k := by
  rw [block, block, List.drop_drop, Nat.mul_succ, Nat.add_comm]

/-- The first chunk, and the rest from the state that it leads to. -/
theorem blocksFit_of_ge (hdata : piecewiseChunkSize ≤ data.length) :
    BlocksFit t state data ↔
      state.toNat + piecewiseChunkSize < 2 ^ 64 ∧
        BlocksFit t (hashBlockOn32bit t state (data.take piecewiseChunkSize)).val
          (data.drop piecewiseChunkSize) := by
  have hzero : (block data 0).length = piecewiseChunkSize := by
    rw [block, Nat.mul_zero, List.drop_zero, List.length_take, min_eq_left hdata]
  constructor
  · intro h
    constructor
    · have hfirst := h 0 (by rw [hzero]; decide)
      rwa [hzero] at hfirst
    · intro k hk
      rw [← block_succ] at hk ⊢
      exact h (k + 1) hk
  · rintro ⟨hfirst, hrest⟩ k hk
    cases k with
    | zero =>
      rw [hzero]
      exact hfirst
    | succ k =>
      rw [block_succ] at hk ⊢
      exact hrest k hk

/-- Up to a chunk the input is one block. -/
theorem blocksFit_of_le (hdata : data.length ≤ piecewiseChunkSize) :
    BlocksFit t state data ↔ (8 < data.length → state.toNat + data.length < 2 ^ 64) := by
  have hzero : block data 0 = data := by
    rw [block, Nat.mul_zero, List.drop_zero, List.take_of_length_le hdata]
  constructor
  · intro h hlen
    have hfirst := h 0 (by rwa [hzero])
    rwa [hzero] at hfirst
  · intro h k hk
    cases k with
    | zero =>
      rw [hzero] at hk ⊢
      exact h hk
    | succ k =>
      have hnil : (block data (k + 1)).length = 0 := by
        rw [block_succ, block, List.drop_drop, List.length_take, List.length_drop]
        omega
      omega

end Blocks

/-! ## Runs over many blocks -/

section Runs

variable {t : Target}

/-- What is left of the input after the chunks goes through the entry function, unless it
is empty. -/
theorem splitLoop_noOverflow_iff (n : ℕ) (state : U64) (c : Cursor) (hn : c.len = n)
    (hlen : n < 2 ^ 32) :
    ((splitLoop (hashBlockOn32bit t) state c).All NoOverflow ∧
      ((splitLoop (hashBlockOn32bit t) state c).val.2.val.length ≠ 0 →
        (combineContiguousOn32bit t (splitLoop (hashBlockOn32bit t) state c).val.1
          (splitLoop (hashBlockOn32bit t) state c).val.2.val).All NoOverflow)) ↔
      BlocksFit t state c.ptr := by
  induction n using Nat.strong_induction_on generalizing state c with
  | h n ih =>
    have hptr := c.len_eq
    unfold splitLoop
    split
    · rename_i hge
      have hpos : 0 < piecewiseChunkSize := by decide
      have hblock : (hashBlockOn32bit t state (c.ptr.take piecewiseChunkSize)).All NoOverflow ↔
          state.toNat + piecewiseChunkSize < 2 ^ 64 := by
        have htake : (c.ptr.take piecewiseChunkSize).length = piecewiseChunkSize := by
          rw [List.length_take]
          omega
        rw [hashBlockOn32bit_noOverflow_iff (by rw [htake]; decide), htake]
      have hrest := ih (c.len - piecewiseChunkSize) (by omega)
        (hashBlockOn32bit t state (c.ptr.take piecewiseChunkSize)).val
        (c.advance piecewiseChunkSize) rfl (by omega)
      rw [Cursor.advance_ptr] at hrest
      rw [blocksFit_of_ge (by omega), ← hrest, ← hblock]
      simp only [Traced.all_bind, Traced.val_bind, all_slice, val_slice, all_checkAdvance,
        NoOverflow, List.drop_zero, true_and, and_assoc]
      have hsub : piecewiseChunkSize ≤ c.len := hge
      simp only [hsub, true_and]
    · rename_i hlt
      have hsmall : c.ptr.length < piecewiseChunkSize := by omega
      rw [blocksFit_of_le hsmall.le]
      simp only [Traced.all_pure, Traced.val_pure, true_and,
        combineContiguousOn32bit_noOverflow_iff_of_le hsmall.le]
      constructor
      · intro h h8
        exact h (by omega) h8
      · intro h _ h8
        exact h h8

/-- An input is hashed without overflow exactly if its blocks fit. -/
theorem combineContiguousOn32bit_noOverflow_iff (state : U64) {data : Bytes}
    (hdata : data.length < 2 ^ 32) :
    (combineContiguousOn32bit t state data).All NoOverflow ↔ BlocksFit t state data := by
  by_cases h : data.length ≤ piecewiseChunkSize
  · rw [combineContiguousOn32bit_noOverflow_iff_of_le h, blocksFit_of_le h]
  · have hchunk : 8 < piecewiseChunkSize := by decide
    have h8 : ¬ data.length ≤ 8 := by omega
    have hloop := splitLoop_noOverflow_iff (t := t) data.length state (Cursor.start data) rfl hdata
    rw [show (Cursor.start data).ptr = data from rfl] at hloop
    rw [← hloop, combineContiguousOn32bit]
    simp only [if_neg h8]
    rw [combineLargeContiguousOn32bitLengthGt8]
    simp only [Traced.all_bind, all_debugAssert, NoOverflow, true_and, if_neg h,
      splitAndCombineOn32bit, splitAndCombine, Traced.all_ite, Traced.all_pure, implies_true, ne_eq]

end Runs

/-- **The 32-bit path overflows in the addition of a block's length or nowhere.** -/
theorem on32bit_no_overflow (t : Target) (state : U64) (data : Slice .bits32) :
    (combineContiguousOn32bit t state data.val).All NoOverflow ↔ BlocksFit t state data.val :=
  combineContiguousOn32bit_noOverflow_iff state data.property

/-- Nine bytes in the last state. -/
theorem on32bit_no_overflow_fails :
    ¬ ∀ (t : Target) (state : U64) (data : Slice .bits32),
      (combineContiguousOn32bit t state data.val).All NoOverflow := by
  intro hall
  have hrun := hall (.portable .little false) 0xffffffffffffffff
    ⟨[0, 0, 0, 0, 0, 0, 0, 0, 0], by decide⟩
  have hfit := (combineContiguousOn32bit_noOverflow_iff_of_le (by decide)).mp hrun
  exact absurd (hfit (by decide)) (by decide)

end Mekong.Analysis.Block32Overflow
