import Mekong.Program.Hash

/-!
# The reads of the hash functions are in bounds

The hash code loads words from raw pointers, at offsets it computes from the length of
the input. What a function reports is in order when each load lies inside the slice it is
taken from, each index and each subtraction is in range and each assertion holds. Every
class of lengths is a straight line of reads, and what has to be shown of it is a few
inequalities; of the loops, that what is left of the input is enough for one more round.

The functions of the model are total, and as long as no subtraction goes below zero their
recursion is that of the loops of the code.
-/

set_option autoImplicit false

namespace Mekong.Analysis.HashBounds

open Mekong.Computation Mekong.Model Mekong.Program Mekong.Program.LowLevel Mekong.Program.City

/-- An access is in order. -/
@[simp]
def InBounds : Access → Prop
  | .load _ size width _ => width ≤ size
  | .index size i _ => i < size
  | .range size lo hi => lo ≤ hi ∧ hi ≤ size
  | .sub a b => b ≤ a
  | .usizeAdd _ _ => True
  | .add _ _ => True
  | .assert holds => holds = true

/-! ## `hash32` -/

section Hash32

variable {endian : Endian} {data : Bytes}

/-- Up to 4 bytes `hash32` reads within its input. -/
theorem hash32Len0To4_inBounds : (hash32Len0To4 data).All InBounds := by
  simp only [hash32Len0To4, Traced.all_bind, Traced.all_pure, and_true]
  apply Traced.all_foldlM
  intro b i hi
  simpa using List.mem_range.mp hi

/-- The middle word of `hash32_len5_to12` lies in the input. -/
theorem middle_word_le : ∀ len ≤ 12, 4 < len → (len >>> 1 &&& 4) + 4 ≤ len := by
  decide

/-- From 5 to 12 bytes `hash32` reads within its input. -/
theorem hash32Len5To12_inBounds (h : 4 < data.length) (h' : data.length ≤ 12) :
    (hash32Len5To12 endian data).All InBounds := by
  have hmiddle := middle_word_le data.length h' h
  simp [hash32Len5To12]
  omega

/-- From 13 to 24 bytes `hash32` reads within its input. -/
theorem hash32Len13To24_inBounds (h : 12 < data.length) :
    (hash32Len13To24 endian data).All InBounds := by
  simp [hash32Len13To24, Nat.shiftRight_one]
  omega

/-- The loop reads 20 bytes for each iteration that is left. -/
theorem hash32Loop_inBounds (iters seek : ℕ) (s : Lanes) (hiters : 0 < iters)
    (hseek : seek + 20 * iters ≤ data.length) :
    (hash32Loop endian data iters seek s).All InBounds := by
  induction iters generalizing seek s with
  | zero => exact absurd hiters (by decide)
  | succ k ih =>
    have hrest : ∀ s, (if k = 0 then pure s else hash32Loop endian data k (seek + 20) s).All
        InBounds := by
      intro s
      split
      · exact Traced.all_pure s
      · exact ih _ _ (by omega) (by omega)
    rw [hash32Loop]
    simp [hrest]
    omega

/-- `hash32` reads within its input. -/
theorem hash32_inBounds (endian : Endian) (data : Bytes) :
    (hash32 endian data).All InBounds := by
  unfold hash32
  by_cases h24 : data.length ≤ 24
  · by_cases h12 : data.length ≤ 12
    · by_cases h4 : data.length ≤ 4
      · simpa only [if_pos h24, if_pos h12, if_pos h4] using hash32Len0To4_inBounds
      · simpa only [if_pos h24, if_pos h12, if_neg h4] using
          hash32Len5To12_inBounds (by omega) h12
    · simpa only [if_pos h24, if_neg h12] using hash32Len13To24_inBounds (by omega)
  · have hloop : ∀ s, (hash32Loop endian data ((data.length - 1) / 20) 0 s).All InBounds := by
      intro s
      exact hash32Loop_inBounds _ _ _ (by omega) (by omega)
    simp only [if_neg h24]
    simp [hloop]
    omega

end Hash32

/-! ## `hash64` -/

section Hash64

variable {width : PointerWidth} {endian : Endian} {data : Bytes}

/-- Up to 16 bytes `hash64` reads within its input. -/
theorem hash64Len0To16_inBounds : (hash64Len0To16 width endian data).All InBounds := by
  unfold hash64Len0To16
  by_cases h8 : data.length ≥ 8
  · simp only [if_pos h8]
    simp
    omega
  by_cases h4 : data.length ≥ 4
  · simp only [if_neg h8, if_pos h4]
    simp
    omega
  by_cases h0 : data.length > 0
  · simp only [if_neg h8, if_neg h4, if_pos h0]
    simp [Nat.shiftRight_one]
    omega
  · simp only [if_neg h8, if_neg h4, if_neg h0]
    simp

/-- From 17 to 32 bytes `hash64` reads within its input. -/
theorem hash64Len17To32_inBounds (h : 16 < data.length) :
    (hash64Len17To32 width endian data).All InBounds := by
  simp [hash64Len17To32]
  omega

/-- From 33 to 64 bytes `hash64` reads within its input. -/
theorem hash64Len33To64_inBounds (h : 32 < data.length) :
    (hash64Len33To64 width endian data).All InBounds := by
  simp [hash64Len33To64]
  omega

/-- The weak hash reads 32 bytes. -/
theorem weakHash64Len32WithSeeds_inBounds (h : 32 ≤ data.length) (a b : U64) :
    (weakHash64Len32WithSeeds endian data a b).All InBounds := by
  simp [weakHash64Len32WithSeeds]
  omega

/-- An iteration of `hash64` reads its chunk. -/
theorem hash64Chunk_inBounds (seek : ℕ) (s : State56) (hseek : seek + 64 ≤ data.length) :
    (hash64Chunk endian data seek s).All InBounds := by
  have hfirst : ∀ a b, (weakHash64Len32WithSeeds endian (data.drop seek) a b).All InBounds :=
    weakHash64Len32WithSeeds_inBounds (by rw [List.length_drop]; omega)
  have hsecond : ∀ a b,
      (weakHash64Len32WithSeeds endian (data.drop (seek + 32)) a b).All InBounds :=
    weakHash64Len32WithSeeds_inBounds (by rw [List.length_drop]; omega)
  simp [hash64Chunk, hfirst, hsecond]
  omega

/-- The loop reads what is left of the whole chunks. -/
theorem hash64Loop_inBounds (len seek : ℕ) (s : State56) (hlen : 0 < len) (hdvd : 64 ∣ len)
    (hseek : seek + len ≤ data.length) : (hash64Loop endian data len seek s).All InBounds := by
  induction len using Nat.strong_induction_on generalizing seek s with
  | h len ih =>
    have hchunk : (hash64Chunk endian data seek s).All InBounds :=
      hash64Chunk_inBounds seek s (by omega)
    have hrest : ∀ s, (if len - 64 = 0 then pure s else
        hash64Loop endian data (len - 64) (seek + 64) s).All InBounds := by
      intro s
      split
      · exact Traced.all_pure s
      · exact ih _ (by omega) _ _ (by omega) (by omega) (by omega)
    unfold hash64Loop
    simp [hchunk, hrest]
    omega

/-- `hash64` reads within its input. -/
theorem hash64_inBounds (endian : Endian) (data : Slice width) :
    (City.hash64 width endian data.val).All InBounds := by
  unfold City.hash64
  by_cases h32 : data.val.length ≤ 32
  · by_cases h16 : data.val.length ≤ 16
    · simpa only [if_pos h32, if_pos h16] using hash64Len0To16_inBounds
    · simpa only [if_pos h32, if_neg h16] using hash64Len17To32_inBounds (by omega)
  by_cases h64 : data.val.length ≤ 64
  · simpa only [if_neg h32, if_pos h64] using hash64Len33To64_inBounds (by omega)
  · have hlen := data.property
    have hloop : ∀ s, (hash64Loop endian data.val
        (usizeAndNot width (data.val.length - 1) 63) 0 s).All InBounds := by
      intro s
      have hbits : 6 ≤ width.bits := by cases width <;> decide
      rw [show 63 = 2 ^ 6 - 1 from rfl, usizeAndNot_two_pow hbits (by omega)]
      exact hash64Loop_inBounds _ _ _ (by omega) (dvd_mul_right ..) (by omega)
    have htail : ∀ k, 32 ≤ k → k ≤ 64 → ∀ a b, (weakHash64Len32WithSeeds endian
        (data.val.drop (data.val.length - k)) a b).All InBounds := by
      intro k hk hk' a b
      exact weakHash64Len32WithSeeds_inBounds (by rw [List.length_drop]; omega) a b
    simp only [if_neg h32, if_neg h64]
    simp [hloop, htail]
    omega

end Hash64

/-! ## Inputs of at most 32 bytes -/

section Short

variable {t : Target} {first : Bytes}

/-- The table has 40 bytes. -/
@[simp]
theorem staticRandomBytes_length (endian : Endian) : (staticRandomBytes endian).length = 40 := by
  cases endian <;> rfl

/-- The word of a length is within the table. -/
theorem precombineLengthMix_inBounds (state : U64) {len : ℕ} (h : len ≤ 32) :
    (precombineLengthMix t state len).All InBounds := by
  simp [precombineLengthMix]
  omega

/-- Up to 8 bytes the portable path reads within its input. -/
theorem combineSmallContiguous_inBounds (state : U64) (h : first.length ≤ 8) :
    (combineSmallContiguous t state first).All InBounds := by
  unfold combineSmallContiguous
  by_cases h4 : first.length ≥ 4
  · simp only [if_pos h4]
    simp [read4To8, h]
    omega
  by_cases h0 : first.length > 0
  · simp only [if_neg h4, if_pos h0]
    simp [read1To3, h]
    omega
  · simp only [if_neg h4, if_neg h0]
    simp [h]

/-- From 9 to 16 bytes the portable path reads within its input. -/
theorem combineContiguous9To16_inBounds (state : U64) (h : 9 ≤ first.length)
    (h' : first.length ≤ 16) : (combineContiguous9To16 t state first).All InBounds := by
  simp [combineContiguous9To16, read9To16]
  omega

/-- From 17 to 32 bytes the portable path reads within its input. -/
theorem combineContiguous17To32_inBounds (state : U64) (h : 17 ≤ first.length)
    (h' : first.length ≤ 32) : (combineContiguous17To32 t state first).All InBounds := by
  simp [combineContiguous17To32]
  omega

/-- The CRC instructions read within the input. -/
theorem crcAbsorb_inBounds (cpu : X86Intrinsics) (s : CrcState) :
    (crcAbsorb cpu s first).All InBounds := by
  unfold crcAbsorb
  by_cases h8 : first.length > 8
  · by_cases h16 : first.length > 16
    · simp only [if_pos h8, if_pos h16]
      simp
      omega
    · simp only [if_pos h8, if_neg h16]
      simp
      omega
  by_cases h4 : first.length ≥ 4
  · simp only [if_neg h8, if_pos h4]
    simp
    omega
  by_cases h1 : first.length ≥ 1
  · simp only [if_neg h8, if_neg h4, if_pos h1]
    simp
    omega
  · simp only [if_neg h8, if_neg h4, if_neg h1]
    simp

/-- The CRC path reads within its input. -/
theorem combineContiguousCrc_inBounds (cpu : X86Intrinsics) (state : U64) :
    (combineContiguousCrc cpu state first).All InBounds := by
  simp [combineContiguousCrc, crcAbsorb_inBounds]

end Short

/-! ## Inputs of more than 32 bytes -/

section Long

variable {t : Target} {data : Bytes}

@[simp]
theorem prefetchFutureDataToLocalCache_inBounds (t : Target) (ptr : Bytes) :
    (prefetchFutureDataToLocalCache t ptr).All InBounds := by
  unfold prefetchFutureDataToLocalCache
  by_cases h : ptr.length < 5 * t.cachelineSize
  · simp only [if_pos h]
    simp
  · simp only [if_neg h]
    simp
    omega

/-- `mix_32_bytes` reads 32 bytes. -/
theorem mix32Bytes_inBounds {ptr : Bytes} (h : 32 ≤ ptr.length) (currentState : U64) :
    (mix32Bytes t ptr currentState).All InBounds := by
  simp [mix32Bytes]
  omega

/-- From 33 to 64 bytes the portable version reads within its input. -/
theorem lowLevelHash33To64Portable_inBounds (seed : U64) (h : 32 < data.length)
    (h' : data.length ≤ 64) : (lowLevelHash33To64Portable t seed data).All InBounds := by
  have hfirst : ∀ s, (mix32Bytes t data s).All InBounds := mix32Bytes_inBounds (by omega)
  have hlast : ∀ s, (mix32Bytes t (data.drop (data.length - 32)) s).All InBounds :=
    mix32Bytes_inBounds (by rw [List.length_drop]; omega)
  simp [lowLevelHash33To64Portable, hfirst, hlast]
  omega

/-- From 33 to 64 bytes the vector version reads within its input. -/
theorem lowLevelHash33To64X86_inBounds (cpu : X86Intrinsics) (seed : U64) (h : 32 < data.length)
    (h' : data.length ≤ 64) : (lowLevelHash33To64X86 cpu seed data).All InBounds := by
  simp [lowLevelHash33To64X86]
  omega


/-- Each round of the loop has more than a chunk before it. -/
theorem lowLevelHashLoopPortable_inBounds (n : ℕ) (s : Quad) (c : Cursor) (hn : c.len = n)
    (h : 64 < n) : (lowLevelHashLoopPortable t s c).All InBounds := by
  induction n using Nat.strong_induction_on generalizing s c with
  | h n ih =>
    have hptr := c.len_eq
    have hrest : ∀ s, 128 < c.len →
        (lowLevelHashLoopPortable t s (c.advance 64)).All InBounds := by
      intro s hlen
      exact ih (c.len - 64) (by omega) s _ rfl (by omega)
    unfold lowLevelHashLoopPortable
    simp +contextual [hrest]
    omega

/-- Above 64 bytes the portable version reads within its input. -/
theorem lowLevelHashLenGt64Portable_inBounds (seed : U64) (h : 64 < data.length) :
    (lowLevelHashLenGt64Portable t seed data).All InBounds := by
  have hloop : ∀ s, (lowLevelHashLoopPortable t s (Cursor.start data)).All InBounds := by
    intro s
    exact lowLevelHashLoopPortable_inBounds _ s _ rfl h
  have hmiddle : ∀ (c : Cursor) s, 32 < c.len → (mix32Bytes t c.ptr s).All InBounds := by
    intro c s hc
    exact mix32Bytes_inBounds (by rw [← c.len_eq]; omega) s
  have hlast : ∀ s, (mix32Bytes t (data.drop (data.length - 32)) s).All InBounds :=
    mix32Bytes_inBounds (by rw [List.length_drop]; omega)
  simp +contextual [lowLevelHashLenGt64Portable, hloop, hmiddle, hlast]
  omega

/-- The first mix of vectors reads 32 bytes. -/
theorem mixAb_inBounds (cpu : X86Intrinsics) (s : Vectors) {p : Bytes} (h : 32 ≤ p.length) :
    (mixAb cpu s p).All InBounds := by
  simp [mixAb]
  omega

/-- The second mix of vectors reads 32 bytes. -/
theorem mixCd_inBounds (cpu : X86Intrinsics) (s : Vectors) {p : Bytes} (h : 32 ≤ p.length) :
    (mixCd cpu s p).All InBounds := by
  simp [mixCd]
  omega

/-- Each round of the loop has more than a chunk before it. -/
theorem lowLevelHashLoopX86_inBounds (cpu : X86Intrinsics) (n : ℕ) (s : Vectors) (c : Cursor)
    (hn : c.len = n) (h : 64 < n) : (lowLevelHashLoopX86 cpu s c).All InBounds := by
  induction n using Nat.strong_induction_on generalizing s c with
  | h n ih =>
    have hptr := c.len_eq
    have hrest : ∀ s, 128 < c.len →
        (lowLevelHashLoopX86 cpu s (c.advance 64)).All InBounds := by
      intro s hlen
      exact ih (c.len - 64) (by omega) s _ rfl (by omega)
    have hab : ∀ s, (mixAb cpu s c.ptr).All InBounds := by
      intro s
      exact mixAb_inBounds cpu s (by omega)
    have hcd : ∀ s, (mixCd cpu s (c.ptr.drop 32)).All InBounds := by
      intro s
      exact mixCd_inBounds cpu s (by rw [List.length_drop]; omega)
    unfold lowLevelHashLoopX86
    simp +contextual [hrest, hab, hcd]
    omega

/-- Above 64 bytes the vector version reads within its input. -/
theorem lowLevelHashLenGt64X86_inBounds (cpu : X86Intrinsics) (seed : U64)
    (h : 64 < data.length) : (lowLevelHashLenGt64X86 cpu seed data).All InBounds := by
  have hloop : ∀ s, (lowLevelHashLoopX86 cpu s (Cursor.start data)).All InBounds := by
    intro s
    exact lowLevelHashLoopX86_inBounds cpu _ s _ rfl h
  have hmiddle : ∀ (c : Cursor) s, 32 < c.len → (mixAb cpu s c.ptr).All InBounds := by
    intro c s hc
    exact mixAb_inBounds cpu s (by rw [← c.len_eq]; omega)
  have hlast : ∀ s, (mixCd cpu s (data.drop (data.length - 32))).All InBounds := by
    intro s
    exact mixCd_inBounds cpu s (by rw [List.length_drop]; omega)
  simp +contextual [lowLevelHashLenGt64X86, hloop, hmiddle, hlast]
  omega

/-- Above 32 bytes both versions read within their input. -/
theorem lowLevelHashLenGt32_inBounds (t : Target) (seed : U64) (h : 32 < data.length) :
    (lowLevelHashLenGt32 t seed data).All InBounds := by
  unfold lowLevelHashLenGt32
  by_cases h64 : data.length > 64
  · have hhash : (lowLevelHashLenGt64 t seed data).All InBounds := by
      cases t with
      | portable endian powerpc64 => exact lowLevelHashLenGt64Portable_inBounds seed h64
      | x86_64 cpu => exact lowLevelHashLenGt64X86_inBounds cpu seed h64
    simp only [if_pos h64]
    simp [h, hhash]
  · have hhash : (lowLevelHash33To64 t seed data).All InBounds := by
      cases t with
      | portable endian powerpc64 => exact lowLevelHash33To64Portable_inBounds seed h (by omega)
      | x86_64 cpu => exact lowLevelHash33To64X86_inBounds cpu seed h (by omega)
    simp only [if_neg h64]
    simp [h, hhash]

/-- The hash of a block on 32 bits reads within the block. -/
theorem hashBlockOn32bit_inBounds (t : Target) (state : U64) (data : Bytes) :
    (hashBlockOn32bit t state data).All InBounds := by
  simp [hashBlockOn32bit, hash32_inBounds]

/-- The hash of a block on 64 bits reads within the block. -/
theorem hashBlockOn64bit_inBounds (t : Target) (state : U64) (h : 32 < data.length) :
    (hashBlockOn64bit t state data).All InBounds :=
  lowLevelHashLenGt32_inBounds t state h

/-! ## Chunks -/

section Chunks

variable {hashBlock : U64 → Bytes → Traced Access U64}

/-- Each block that the loop hashes is a whole chunk. -/
theorem splitLoop_inBounds
    (hblock : ∀ state data, data.length = piecewiseChunkSize →
      (hashBlock state data).All InBounds)
    (n : ℕ) (state : U64) (c : Cursor) (hn : c.len = n) :
    (splitLoop hashBlock state c).All InBounds := by
  induction n using Nat.strong_induction_on generalizing state c with
  | h n ih =>
    unfold splitLoop
    split
    · have hptr := c.len_eq
      have hfirst : ∀ state,
          (hashBlock state ((c.ptr.take piecewiseChunkSize).drop 0)).All InBounds := by
        intro state
        apply hblock
        rw [List.length_drop, List.length_take]
        omega
      have hrest : ∀ state,
          (splitLoop hashBlock state (c.advance piecewiseChunkSize)).All InBounds := by
        intro state
        exact ih (c.len - piecewiseChunkSize) (by simp only [piecewiseChunkSize] at *; omega) state _ rfl
      simp [hrest] at hfirst ⊢
      exact ⟨by omega, hfirst _, by omega⟩
    · exact Traced.all_pure _

/-- The pieces of an input are hashed within it if a block and a remainder are. -/
theorem splitAndCombine_inBounds
    {combineContiguous : U64 → Remainder → Traced Access U64}
    (hblock : ∀ state data, data.length = piecewiseChunkSize →
      (hashBlock state data).All InBounds)
    (hcombine : ∀ state ptr, (combineContiguous state ptr).All InBounds)
    (state : U64) (first : Bytes) :
    (splitAndCombine hashBlock combineContiguous state first).All InBounds := by
  have hloop : (splitLoop hashBlock state (Cursor.start first)).All InBounds :=
    splitLoop_inBounds hblock _ state _ rfl
  simp [splitAndCombine, hloop, hcombine]

end Chunks

/-! ## The entry functions -/

/-- Up to a chunk the recursion of the entry function is of depth one. -/
theorem combineContiguousOn32bit_inBounds_of_le (t : Target) (state : U64)
    (h : data.length ≤ piecewiseChunkSize) :
    (combineContiguousOn32bit t state data).All InBounds := by
  rw [combineContiguousOn32bit]
  by_cases h8 : data.length ≤ 8
  · have hmix : (precombineLengthMix t state data.length).All InBounds :=
      precombineLengthMix_inBounds state (by omega)
    have hsmall : ∀ state, (combineSmallContiguous t state data).All InBounds := by
      intro state
      exact combineSmallContiguous_inBounds state h8
    simp [h8, hmix, hsmall]
  · simp only [if_neg h8]
    rw [combineLargeContiguousOn32bitLengthGt8]
    simp [h, hashBlockOn32bit_inBounds]
    omega

/-- The entry function on 32 bits reads within its input. -/
theorem combineContiguousOn32bit_inBounds (t : Target) (state : U64) (data : Bytes) :
    (combineContiguousOn32bit t state data).All InBounds := by
  by_cases h : data.length ≤ piecewiseChunkSize
  · exact combineContiguousOn32bit_inBounds_of_le t state h
  · have hchunk : 8 < piecewiseChunkSize := by decide
    have hsplit : (splitAndCombineOn32bit t state data).All InBounds := by
      rw [splitAndCombineOn32bit]
      apply splitAndCombine_inBounds
      · intro state data _
        exact hashBlockOn32bit_inBounds t state data
      · intro state ptr
        exact combineContiguousOn32bit_inBounds_of_le t state ptr.property.le
    rw [combineContiguousOn32bit]
    simp only [if_neg (show ¬ data.length ≤ 8 by omega)]
    rw [combineLargeContiguousOn32bitLengthGt8]
    simp [h, hsplit]
    omega

/-- The large inputs of the 64-bit function, up to a chunk. -/
theorem combineLargeContiguousOn64bitLengthGt32_inBounds_of_le (t : Target) (state : U64)
    (h : 32 < data.length) (h' : data.length ≤ piecewiseChunkSize) :
    (combineLargeContiguousOn64bitLengthGt32 t state data).All InBounds := by
  rw [combineLargeContiguousOn64bitLengthGt32]
  simp [h, h', hashBlockOn64bit_inBounds]

/-- The 64-bit function is in bounds where its large inputs are. -/
theorem combineContiguousOn64bit_inBounds_of_large (t : Target) (state : U64)
    (hlarge : 32 < data.length →
      (combineLargeContiguousOn64bitLengthGt32 t state data).All InBounds) :
    (combineContiguousOn64bit t state data).All InBounds := by
  rw [combineContiguousOn64bit]
  by_cases h32 : 32 < data.length
  · cases t.crc with
    | some cpu => simp [h32, hlarge]
    | none =>
      simp only [if_neg (show ¬ data.length ≤ 8 by omega),
        if_neg (show ¬ data.length ≤ 16 by omega), if_neg (show ¬ data.length ≤ 32 by omega)]
      exact hlarge h32
  · cases t.crc with
    | some cpu => simp [h32, combineContiguousCrc_inBounds]
    | none =>
      have hmix : (precombineLengthMix t state data.length).All InBounds :=
        precombineLengthMix_inBounds state (by omega)
      by_cases h8 : data.length ≤ 8
      · simp [h8, hmix, combineSmallContiguous_inBounds]
      by_cases h16 : data.length ≤ 16
      · have h9 : 9 ≤ data.length := by omega
        simp [h8, h16, hmix, combineContiguous9To16_inBounds, h9]
      · have h17 : 17 ≤ data.length := by omega
        have h32' : data.length ≤ 32 := by omega
        simp [h8, h16, h32', hmix, combineContiguous17To32_inBounds, h17]

/-- The entry function on 64 bits reads within its input. -/
theorem combineContiguousOn64bit_inBounds (t : Target) (state : U64) (data : Bytes) :
    (combineContiguousOn64bit t state data).All InBounds := by
  apply combineContiguousOn64bit_inBounds_of_large
  intro h32
  by_cases h : data.length ≤ piecewiseChunkSize
  · exact combineLargeContiguousOn64bitLengthGt32_inBounds_of_le t state h32 h
  · have hsplit : (splitAndCombineOn64bit t state data).All InBounds := by
      rw [splitAndCombineOn64bit]
      apply splitAndCombine_inBounds
      · intro state data hdata
        exact hashBlockOn64bit_inBounds t state (by rw [hdata]; decide)
      · intro state ptr
        apply combineContiguousOn64bit_inBounds_of_large
        intro h32
        exact combineLargeContiguousOn64bitLengthGt32_inBounds_of_le t state h32 ptr.property.le
    rw [combineLargeContiguousOn64bitLengthGt32]
    simp [h, h32, hsplit]

end Long

/-- Every read of the hash functions is in bounds, and so is every length they compute. -/
theorem hash_reads_in_bounds (width : PointerWidth) (endian : Endian) (t : Target)
    (state seed seed' : U64) (data : Slice width) :
    (City.hash32 endian data.val).All InBounds ∧
      (City.hash64 width endian data.val).All InBounds ∧
      (hash64WithSeed width endian data.val seed).All InBounds ∧
      (hash64WithSeeds width endian data.val seed seed').All InBounds ∧
      (combineContiguousOn32bit t state data.val).All InBounds ∧
      (combineContiguousOn64bit t state data.val).All InBounds := by
  have hwith : ∀ seed0 seed1,
      (hash64WithSeeds width endian data.val seed0 seed1).All InBounds := by
    intro seed0 seed1
    simp [hash64WithSeeds, hash64_inBounds]
  exact ⟨hash32_inBounds endian data.val, hash64_inBounds endian data, hwith _ _, hwith _ _,
    combineContiguousOn32bit_inBounds t state data.val,
    combineContiguousOn64bit_inBounds t state data.val⟩

end Mekong.Analysis.HashBounds
