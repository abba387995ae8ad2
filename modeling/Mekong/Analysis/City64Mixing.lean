import Mekong.Program.City
import Mekong.Computation.WordBijections

/-!
# What the loop of `hash64` keeps of its state and of a chunk

Of the seven words that the loop carries, an iteration keeps six. `x`, `y` and the first
word of `v` enter it in two sums only, so that whichever value the first word of `v` had,
there is one state with it that leaves the iteration alike; all other words are recovered,
since what they pass through are bijections. Of the eight words of the chunk none can
change alone without a change of the state.
-/

set_option autoImplicit false

namespace Mekong.Analysis.City64Mixing

open Mekong.Computation Mekong.Model Mekong.Program Mekong.Program.City
open Mekong.Computation.WordBijections

/-! ## One iteration -/

section Iteration

/-- The inverse of a multiplier modulo 2^64. -/
theorem k1_mul : k1 * 0x1ec3fe17279602bb = 1 := by decide

/-- A rotation loses nothing. -/
theorem rotate64_bijective (shift : ℕ) : Function.Bijective fun x => rotate64 x shift := by
  unfold rotate64
  by_cases h : shift = 0
  · simp only [if_pos h]
    exact Function.bijective_id
  · simp only [if_neg h]
    exact rotateRight_const shift

/-- A word that is rotated and multiplied, as all three of `x`, `y` and `z` are. -/
theorem rotate_mul_bijective (shift : ℕ) : Function.Bijective fun x => rotate64 x shift * k1 :=
  (mul_const k1_mul).comp (rotate64_bijective shift)

/-- `weak_hash64_len32_with_seeds` on the words that it loads.
SOURCE: city.rs:274-289 -/
def weakMix (w x y z a b : U64) : U64 × U64 :=
  (a + w + x + y + z, rotate64 (b + (a + w) + z) 21 + rotate64 (a + w + x + y) 44 + (a + w))

/-- It loses nothing of its seeds. -/
theorem weakMix_injective {w x y z a b a' b' : U64}
    (h : weakMix w x y z a b = weakMix w x y z a' b') : a = a' ∧ b = b' := by
  obtain ⟨hfirst, hsecond⟩ := Prod.mk.inj h
  obtain rfl : a = a' := by
    simpa only [add_left_inj] using hfirst
  have hrotated : rotate64 (b + (a + w) + z) 21 = rotate64 (b' + (a + w) + z) 21 := by
    simpa only [add_left_inj] using hsecond
  refine ⟨rfl, ?_⟩
  simpa only [add_left_inj] using (rotate64_bijective 21).1 hrotated

/-- The new `x`, before it is swapped with `z`. -/
def nextX (c : Fin 8 → U64) (s : State56) : U64 :=
  rotate64 (s.x + s.y + s.v.1 + c 1) 37 * k1 ^^^ s.w.2

def nextY (c : Fin 8 → U64) (s : State56) : U64 :=
  rotate64 (s.y + s.v.2 + c 6) 42 * k1 + (s.v.1 + c 5)

def nextZ (s : State56) : U64 := rotate64 (s.z + s.w.1) 33 * k1

/-- An iteration on the words of a chunk.
SOURCE: city.rs:411-435 -/
def mixChunk (c : Fin 8 → U64) (s : State56) : State56 :=
  ⟨weakMix (c 0) (c 1) (c 2) (c 3) (s.v.2 * k1) (nextX c s + s.w.1),
    weakMix (c 4) (c 5) (c 6) (c 7) (nextZ s + s.w.2) (nextY c s + c 2), nextZ s, nextY c s,
    nextX c s⟩

/-- The words of the chunk at `seek`. -/
def chunkWord (endian : Endian) (data : Bytes) (seek : ℕ) (i : Fin 8) : U64 :=
  (fetch64 endian (data.drop (seek + 8 * i))).val

/-- An iteration mixes the words of its chunk into the state. -/
theorem hash64Chunk_val (endian : Endian) (data : Bytes) (seek : ℕ) (s : State56) :
    (hash64Chunk endian data seek s).val = mixChunk (chunkWord endian data seek) s := by
  simp only [hash64Chunk, weakHash64Len32WithSeeds, Traced.val_bind, Traced.val_pure,
    val_sliceFrom, val_usizeAdd, List.drop_drop, Nat.add_assoc, Nat.reduceAdd]
  rfl

end Iteration

/-! ## The states that an iteration does not tell apart -/

section Collisions

variable {c c' : Fin 8 → U64} {s s' : State56}

/-- What an iteration keeps of the new words. -/
theorem mixChunk_inj (h : mixChunk c s' = mixChunk c s) :
    s'.v.2 = s.v.2 ∧ s'.w = s.w ∧ s'.z = s.z ∧ s'.x + s'.y + s'.v.1 = s.x + s.y + s.v.1 ∧
      nextY c s' = nextY c s := by
  obtain ⟨hv, hw, hz, hy, hx⟩ := State56.mk.inj h
  obtain ⟨hv2, hw1⟩ := weakMix_injective hv
  obtain ⟨hw2, -⟩ := weakMix_injective hw
  rw [hx, add_right_inj] at hw1
  rw [hz, add_right_inj] at hw2
  have hz' : s'.z + s'.w.1 = s.z + s.w.1 := by
    rw [nextZ, nextZ] at hz
    exact (rotate_mul_bijective 33).1 hz
  rw [hw1, add_left_inj] at hz'
  have hx' : rotate64 (s'.x + s'.y + s'.v.1 + c 1) 37 * k1 =
      rotate64 (s.x + s.y + s.v.1 + c 1) 37 * k1 := by
    rw [nextX, nextX, hw2] at hx
    exact (xor_const s.w.2).1 hx
  have hsum := (rotate_mul_bijective 37).1 hx'
  exact ⟨(mul_const k1_mul).1 hv2, Prod.ext hw1 hw2, hz', (add_left_inj _).mp hsum, hy⟩

/-- Two states go the same way exactly when they agree on these. -/
theorem mixChunk_eq_iff : mixChunk c s' = mixChunk c s ↔
    s'.v.2 = s.v.2 ∧ s'.w = s.w ∧ s'.z = s.z ∧ s'.x + s'.y + s'.v.1 = s.x + s.y + s.v.1 ∧
      nextY c s' = nextY c s := by
  refine ⟨mixChunk_inj, ?_⟩
  rintro ⟨hv2, hw, hz, hsum, hy⟩
  have hx : nextX c s' = nextX c s := by rw [nextX, nextX, hsum, hw]
  have hz' : nextZ s' = nextZ s := by rw [nextZ, nextZ, hz, hw]
  rw [mixChunk, mixChunk, hv2, hx, hw, hz', hy]

/-- The new `y` determines the old one from the other words. -/
theorem nextY_bijective (c : Fin 8 → U64) (first second : U64) :
    Function.Bijective fun y => rotate64 (y + second + c 6) 42 * k1 + (first + c 5) :=
  (add_const _).comp ((rotate_mul_bijective 42).comp ((add_const (c 6)).comp (add_const second)))

/-- For each first word of `v` one state goes the same way. -/
theorem mixChunk_fibre (c : Fin 8 → U64) (s : State56) (first : U64) :
    ∃! s', s'.v.1 = first ∧ mixChunk c s' = mixChunk c s := by
  obtain ⟨y, hy⟩ := (nextY_bijective c first s.v.2).2 (nextY c s)
  refine ⟨⟨(first, s.v.2), s.w, s.x + s.y + s.v.1 - first - y, y, s.z⟩, ⟨rfl, ?_⟩, ?_⟩
  · refine mixChunk_eq_iff.mpr ⟨rfl, rfl, rfl, ?_, hy⟩
    rw [sub_add_cancel, sub_add_cancel]
  · rintro ⟨⟨v1, v2⟩, w, x, y', z⟩ ⟨rfl, hsame⟩
    obtain ⟨rfl, rfl, rfl, hsum, hy'⟩ := mixChunk_inj hsame
    obtain rfl : y' = y := (nextY_bijective c v1 s.v.2).1 (hy'.trans hy.symm)
    have hx : x = s.x + s.y + s.v.1 - v1 - y' := by
      rw [← hsum, add_sub_cancel_right, add_sub_cancel_right]
    exact congrArg (State56.mk (v1, s.v.2) s.w · y' s.z) hx

/-- The loop is one iteration and the loop over what is left. -/
theorem hash64Loop_val (endian : Endian) (data : Bytes) (len seek : ℕ) (s : State56) :
    (hash64Loop endian data len seek s).val =
      if len - 64 = 0 then (hash64Chunk endian data seek s).val
      else (hash64Loop endian data (len - 64) (seek + 64)
        (hash64Chunk endian data seek s).val).val := by
  conv_lhs => unfold hash64Loop
  simp only [Traced.val_bind]
  split
  · rfl
  · rfl

/-- States that one iteration does not tell apart, no later one does. -/
theorem hash64Loop_congr {endian : Endian} {data : Bytes} {seek : ℕ}
    (h : (hash64Chunk endian data seek s').val = (hash64Chunk endian data seek s).val) (len : ℕ) :
    (hash64Loop endian data len seek s').val = (hash64Loop endian data len seek s).val := by
  rw [hash64Loop_val, hash64Loop_val endian data len seek s, h]

end Collisions

/-! ## Changes of a chunk -/

section Words

variable {c c' : Fin 8 → U64} {s : State56}

/-- The words that `weak_hash64_len32_with_seeds` adds up. -/
theorem weakMix_sum {w x y z w' x' y' z' a b b' : U64}
    (h : weakMix w x y z a b = weakMix w' x' y' z' a b') : w + x + y + z = w' + x' + y' + z' := by
  have hsum := (Prod.mk.inj h).1
  simpa only [add_assoc, add_right_inj] using hsum

/-- What an iteration keeps of the words of the chunk. -/
theorem mixChunk_words (h : mixChunk c s = mixChunk c' s) :
    c 1 = c' 1 ∧ c 0 + c 1 + c 2 + c 3 = c' 0 + c' 1 + c' 2 + c' 3 ∧
      c 4 + c 5 + c 6 + c 7 = c' 4 + c' 5 + c' 6 + c' 7 ∧ nextY c s = nextY c' s := by
  obtain ⟨hv, hw, -, hy, hx⟩ := State56.mk.inj h
  have hx' := (rotate_mul_bijective 37).1 ((xor_const s.w.2).1 hx)
  exact ⟨(add_right_inj _).mp hx', weakMix_sum hv, weakMix_sum hw, hy⟩

/-- No word of a chunk changes alone. -/
theorem mixChunk_one_word (h : mixChunk c s = mixChunk c' s) :
    ∀ j, (∀ i, i ≠ j → c i = c' i) → c j = c' j := by
  obtain ⟨h1, hfirst, hsecond, hy⟩ := mixChunk_words h
  rw [nextY, nextY] at hy
  intro j hsame
  match j with
  | 0 =>
    rwa [h1, hsame 2 (by decide), hsame 3 (by decide), add_left_inj, add_left_inj,
      add_left_inj] at hfirst
  | 1 => exact h1
  | 2 =>
    rwa [h1, hsame 0 (by decide), hsame 3 (by decide), add_left_inj, add_right_inj] at hfirst
  | 3 =>
    rwa [h1, hsame 0 (by decide), hsame 2 (by decide), add_right_inj] at hfirst
  | 4 =>
    rwa [hsame 5 (by decide), hsame 6 (by decide), hsame 7 (by decide), add_left_inj,
      add_left_inj, add_left_inj] at hsecond
  | 5 =>
    rwa [hsame 6 (by decide), add_right_inj, add_right_inj] at hy
  | 6 =>
    rw [hsame 5 (by decide), add_left_inj] at hy
    exact (add_right_inj _).mp ((rotate_mul_bijective 42).1 hy)
  | 7 =>
    rwa [hsame 4 (by decide), hsame 5 (by decide), hsame 6 (by decide), add_right_inj] at hsecond

end Words

/-- **What the loop of `hash64` forgets.** Whatever the chunk and the state, for each of the
2^64 values of the first word of `v` there is exactly one state with it that the iteration
does not tell apart, and no number of further iterations tells it apart. Of the chunk, no
one of the eight words changes without a change of the state. -/
theorem hash64_loop_mixing (endian : Endian) (data : Bytes) (seek : ℕ) (s : State56) :
    (∀ first, ∃! s', s'.v.1 = first ∧
      (hash64Chunk endian data seek s').val = (hash64Chunk endian data seek s).val) ∧
    (∀ first, ∃ s', s'.v.1 = first ∧ ∀ len,
      (hash64Loop endian data len seek s').val = (hash64Loop endian data len seek s).val) ∧
    ∀ (data' : Bytes) (j : Fin 8),
      (∀ i, i ≠ j → chunkWord endian data seek i = chunkWord endian data' seek i) →
      chunkWord endian data seek j ≠ chunkWord endian data' seek j →
        (hash64Chunk endian data seek s).val ≠ (hash64Chunk endian data' seek s).val := by
  simp only [hash64Chunk_val]
  refine ⟨mixChunk_fibre _ s, fun first => ?_, fun data' j hsame hne heq =>
    hne (mixChunk_one_word heq j hsame)⟩
  obtain ⟨s', hfirst, hsame⟩ := (mixChunk_fibre (chunkWord endian data seek) s first).exists
  refine ⟨s', hfirst, hash64Loop_congr ?_⟩
  rw [hash64Chunk_val, hash64Chunk_val, hsame]

/-- Two chunks that differ in their last byte. -/
theorem hash64_loop_mixing_last :
    (hash64Chunk .little (List.replicate 64 0) 0 ⟨(1, 2), (3, 4), 5, 6, 7⟩).val ≠
      (hash64Chunk .little (List.replicate 63 0 ++ [1]) 0 ⟨(1, 2), (3, 4), 5, 6, 7⟩).val :=
  (hash64_loop_mixing .little (List.replicate 64 0) 0 _).2.2 (List.replicate 63 0 ++ [1]) 7
    (by decide) (by decide)

end Mekong.Analysis.City64Mixing
