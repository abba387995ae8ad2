import Mekong.Analysis.HashCoverage
import Mekong.Computation.WordBijections

/-!
# The mixing of `hash32` loses nothing

`fmix` and `mur` are compositions of bijections on words, and so is each of the three lanes
of the loop. A short input is hashed by a chain of `mur` over its words, which therefore
tells apart inputs that differ in one of them; of a long input, the loop over any chunks is
injective in the lanes that it starts from.
-/

set_option autoImplicit false

namespace Mekong.Analysis.City32Mixing

open Mekong.Computation Mekong.Model Mekong.Program Mekong.Program.City
open Mekong.Computation.WordBijections
open Mekong.Analysis.HashCoverage

/-! ## The steps -/

section Steps

/-- The inverse of a multiplier modulo 2^32. -/
theorem c1_mul : c1 * 0xdee13bb1 = 1 := by decide

/-- `C2` has an inverse. -/
theorem c2_mul : c2 * 0x56ed309b = 1 := by decide

/-- Five has an inverse. -/
theorem five_mul : (5 : U32) * 0xcccccccd = 1 := by decide

/-- A rotation loses nothing. -/
theorem rotate32_bijective (shift : ℕ) : Function.Bijective fun x => rotate32 x shift := by
  unfold rotate32
  by_cases h : shift = 0
  · simp only [if_pos h]
    exact Function.bijective_id
  · simp only [if_neg h]
    exact rotateRight_const shift

/-- A swap of the bytes loses nothing. -/
theorem swapBytes32_bijective : Function.Bijective swapBytes32 := by
  have hinv : Function.Involutive swapBytes32 := swapBytes32_swapBytes32
  exact hinv.bijective

/-- The last step of `mur`, and of each update of `g` and `h`. -/
theorem times_five_plus_bijective (c : U32) : Function.Bijective fun x : U32 => x * 5 + c :=
  (add_const c).comp (mul_const five_mul)

/-- The finalizer loses nothing. -/
theorem fmix_bijective : Function.Bijective fmix :=
  have hfirst := (mul_const (show (0x85ebca6b : U32) * 0xa5cb9243 = 1 by decide)).comp
    (xor_ushiftRight (w := 32) (show 0 < 16 by decide))
  have hsecond := (mul_const (show (0xc2b2ae35 : U32) * 0x7ed1b41d = 1 by decide)).comp
    ((xor_ushiftRight (show 0 < 13 by decide)).comp hfirst)
  (xor_ushiftRight (show 0 < 16 by decide)).comp hsecond

/-- `mur` loses nothing of its first argument. -/
theorem mur_bijective_left (h : U32) : Function.Bijective fun a => mur a h :=
  have hword := (mul_const c2_mul).comp ((rotate32_bijective 17).comp (mul_const c1_mul))
  (times_five_plus_bijective _).comp ((rotate32_bijective 19).comp ((const_xor h).comp hword))

/-- `mur` loses nothing of its second argument. -/
theorem mur_bijective_right (a : U32) : Function.Bijective (mur a) :=
  (times_five_plus_bijective _).comp ((rotate32_bijective 19).comp (xor_const _))

end Steps

/-! ## The loop -/

section Loop

variable (b0 b1 b2 b3 b4 : U32)

/-- The lane that leaves a round as `h`. -/
theorem lane_f_bijective : Function.Bijective fun f => rotate32 (f + b1) 19 * c1 + b0 :=
  (add_const b0).comp ((mul_const c1_mul).comp ((rotate32_bijective 19).comp (add_const b1)))

/-- The lane that leaves a round as `f`. -/
theorem lane_g_bijective : Function.Bijective fun g =>
    swapBytes32 (rotate32 (g + b2) 18 * 5 + 0xe6546b64 ^^^ b4) * 5 :=
  have hsum := (rotate32_bijective 18).comp (add_const b2)
  (mul_const five_mul).comp (swapBytes32_bijective.comp
    ((xor_const b4).comp ((times_five_plus_bijective _).comp hsum)))

/-- The lane that leaves a round as `g`. -/
theorem lane_h_bijective : Function.Bijective fun h =>
    swapBytes32 (rotate32 (rotate32 (h ^^^ b0) 18 * 5 + 0xe6546b64 ^^^ (b3 + b1)) 19 * 5 +
      0xe6546b64 + b4 * 5) :=
  have hfirst := (times_five_plus_bijective 0xe6546b64).comp
    ((rotate32_bijective 18).comp (xor_const b0))
  have hsecond := (times_five_plus_bijective 0xe6546b64).comp
    ((rotate32_bijective 19).comp ((xor_const (b3 + b1)).comp hfirst))
  swapBytes32_bijective.comp ((add_const (b4 * 5)).comp hsecond)

/-- A round updates the three lanes apart and moves each to the next place. -/
theorem absorb_bijective : Function.Bijective fun s : Lanes => s.absorb b0 b1 b2 b3 b4 := by
  constructor
  · rintro ⟨f, g, h⟩ ⟨f', g', h'⟩ heq
    obtain ⟨hg, hh, hf⟩ := Lanes.mk.inj heq
    obtain rfl := (lane_f_bijective b0 b1).1 hf
    obtain rfl := (lane_g_bijective b2 b4).1 hg
    obtain rfl := (lane_h_bijective b0 b1 b3 b4).1 hh
    rfl
  · rintro ⟨f, g, h⟩
    obtain ⟨f', hf⟩ := (lane_f_bijective b0 b1).2 h
    obtain ⟨g', hg⟩ := (lane_g_bijective b2 b4).2 f
    obtain ⟨h', hh⟩ := (lane_h_bijective b0 b1 b3 b4).2 g
    exact ⟨⟨f', g', h'⟩, (Lanes.mk.injEq ..).mpr ⟨hg, hh, hf⟩⟩

end Loop

section Rounds

variable (endian : Endian) (data : Bytes)

/-- One iteration of the loop, on the chunk of 20 bytes at `seek`.
SOURCE: city.rs:336-360 -/
def absorbChunk (seek : ℕ) (s : Lanes) : Lanes :=
  let word (offset : ℕ) : U32 := (fetch32 endian (data.drop offset)).val
  let spread (v : U32) : U32 := rotate32 (v * c1) 17 * c2
  s.absorb (spread (word seek)) (word (seek + 4)) (spread (word (seek + 8)))
    (spread (word (seek + 12))) (word (seek + 16))

/-- A round of the loop loses nothing of the lanes. -/
theorem absorbChunk_bijective (seek : ℕ) : Function.Bijective (absorbChunk endian data seek) :=
  absorb_bijective ..

/-- The loop is one round and the loop from the next position. -/
theorem hash32Loop_val (iters seek : ℕ) (s : Lanes) : (hash32Loop endian data iters seek s).val =
    if iters - 1 = 0 then absorbChunk endian data seek s
    else (hash32Loop endian data (iters - 1) (seek + 20) (absorbChunk endian data seek s)).val := by
  conv_lhs => unfold hash32Loop
  simp only [Traced.val_bind]
  split
  · rfl
  · rfl

/-- Rounds over fixed chunks. -/
theorem hash32Loop_injective (iters seek : ℕ) :
    Function.Injective fun s => (hash32Loop endian data iters seek s).val := by
  induction iters using Nat.strong_induction_on generalizing seek with
  | h iters ih =>
    intro s s' heq
    simp only [hash32Loop_val endian data iters seek] at heq
    by_cases hlast : iters - 1 = 0
    · rw [if_pos hlast, if_pos hlast] at heq
      exact (absorbChunk_bijective endian data seek).1 heq
    · rw [if_neg hlast, if_neg hlast] at heq
      exact (absorbChunk_bijective endian data seek).1
        (ih (iters - 1) (by omega) (seek + 20) heq)

end Rounds

/-! ## Short inputs -/

section Short

variable {endian : Endian} {data data' : Bytes}

/-- `mur` over words, in the order in which they are taken in. -/
def murChain (h : U32) (words : List U32) : U32 := words.foldl (fun h a => mur a h) h

/-- Two chains that differ in one word have distinct hashes. -/
theorem murChain_ne {l l' : List U32} (h : DifferInOne l l') (state : U32) :
    fmix (murChain state l) ≠ fmix (murChain state l') := by
  intro heq
  exact foldl_ne_of_differInOne (fun a => (mur_bijective_right a).1)
    (fun h => (mur_bijective_left h).1) h state (fmix_bijective.1 heq)

/-- The value of a word that `fetch32` loads. -/
def fetched (endian : Endian) (word : ℕ) : U32 := u32InExpectedOrder endian (BitVec.ofNat 32 word)

/-- A fetched word determines the word in memory. -/
theorem fetched_injOn {word word' : ℕ} (hword : word < 2 ^ 32) (hword' : word' < 2 ^ 32)
    (h : fetched endian word = fetched endian word') : word = word' := by
  have hnat : BitVec.ofNat 32 word = BitVec.ofNat 32 word' := by
    cases endian with
    | little => exact h
    | big => exact swapBytes32_bijective.1 h
  have hmod := congrArg BitVec.toNat hnat
  rwa [BitVec.toNat_ofNat, BitVec.toNat_ofNat, Nat.mod_eq_of_lt hword,
    Nat.mod_eq_of_lt hword'] at hmod

/-- Words that differ in one place are taken in as words that do. -/
theorem differInOne_fetched {ws : List Window}
    (h : DifferInOne (ws.map (Window.word endian data)) (ws.map (Window.word endian data')))
    (hws : ∀ w ∈ ws, w.size = 4) :
    DifferInOne ((ws.map (Window.word endian data)).map (fetched endian))
      ((ws.map (Window.word endian data')).map (fetched endian)) := by
  have hlt : ∀ data, ∀ word ∈ ws.map (Window.word endian data), word < 2 ^ 32 := by
    intro data word hword
    obtain ⟨w, hw, rfl⟩ := List.mem_map.mp hword
    have hbound : Window.word endian data w < 256 ^ w.size := Window.word_lt data w
    rwa [hws w hw] at hbound
  exact h.map fun word hword word' hword' heq =>
    fetched_injOn (hlt data word hword) (hlt data' word' hword') heq

/-- The hash of 5 to 12 bytes is a chain over words with constants added. -/
theorem hash32Len5To12_val : (hash32Len5To12 endian data).val =
    fmix (murChain (BitVec.ofNat 32 data.length * 5)
      (List.zipWith (· + ·)
        [BitVec.ofNat 32 data.length, BitVec.ofNat 32 data.length * 5, 9]
        (((windows5To12 data.length).map (Window.word endian data)).map (fetched endian)))) := rfl

/-- The hash of 13 to 24 bytes is a chain over words. -/
theorem hash32Len13To24_val : (hash32Len13To24 endian data).val =
    fmix (murChain (BitVec.ofNat 32 data.length)
      (((windows13To24 data.length).map (Window.word endian data)).map (fetched endian))) := rfl

/-- Inputs of one length from 5 to 24 that differ in one of the loaded words. -/
theorem hash32_ne (hlen : data.length = data'.length) (h5 : 5 ≤ data.length)
    (h24 : data.length ≤ 24)
    (h : DifferInOne (loads (City.hash32 endian data)) (loads (City.hash32 endian data'))) :
    (City.hash32 endian data).val ≠ (City.hash32 endian data').val := by
  unfold City.hash32 at h ⊢
  rw [← hlen] at h ⊢
  by_cases h12 : data.length ≤ 12
  · simp only [if_pos h24, if_pos h12, if_neg (show ¬ data.length ≤ 4 by omega),
      hash32Len5To12_loads, ← hlen] at h
    simp only [if_pos h24, if_pos h12, if_neg (show ¬ data.length ≤ 4 by omega),
      hash32Len5To12_val, ← hlen]
    have hwords := differInOne_fetched h (by simp [windows5To12])
    have hsums := hwords.zipWith (fun c => (const_add c).1)
      [BitVec.ofNat 32 data.length, BitVec.ofNat 32 data.length * 5, 9] (by simp [windows5To12])
    exact murChain_ne hsums _
  · simp only [if_pos h24, if_neg h12, hash32Len13To24_loads, ← hlen] at h
    simp only [if_pos h24, if_neg h12, hash32Len13To24_val, ← hlen]
    exact murChain_ne (differInOne_fetched h (by simp [windows13To24])) _

end Short

/-- **The mixing of `hash32` loses nothing**: neither its steps, nor the chain of a short
input in one of the words that it loads, nor the rounds of the loop in the lanes. -/
theorem hash32_mixing :
    Function.Bijective fmix ∧
      (∀ h, Function.Bijective fun a => mur a h) ∧
      (∀ a, Function.Bijective (mur a)) ∧
      (∀ (endian : Endian) (data data' : Bytes), data.length = data'.length →
        5 ≤ data.length → data.length ≤ 24 →
          DifferInOne (loads (City.hash32 endian data)) (loads (City.hash32 endian data')) →
            (City.hash32 endian data).val ≠ (City.hash32 endian data').val) ∧
      (∀ (endian : Endian) (data : Bytes) (seek : ℕ),
        Function.Bijective (absorbChunk endian data seek)) ∧
      ∀ (endian : Endian) (data : Bytes) (iters seek : ℕ),
        (∀ s, (hash32Loop endian data iters seek s).val =
          if iters - 1 = 0 then absorbChunk endian data seek s
          else (hash32Loop endian data (iters - 1) (seek + 20)
            (absorbChunk endian data seek s)).val) ∧
        Function.Injective fun s => (hash32Loop endian data iters seek s).val :=
  ⟨fmix_bijective, mur_bijective_left, mur_bijective_right,
    fun _ _ _ hlen h5 h24 h => hash32_ne hlen h5 h24 h, absorbChunk_bijective,
    fun endian data iters seek =>
      ⟨hash32Loop_val endian data iters seek, hash32Loop_injective endian data iters seek⟩⟩

/-- Two inputs of nine bytes whose first words differ. -/
theorem hash32_mixing_nine :
    (City.hash32 .little [1, 2, 3, 4, 5, 6, 7, 8, 9]).val ≠
      (City.hash32 .little [0, 2, 3, 4, 5, 6, 7, 8, 9]).val := by
  refine hash32_mixing.2.2.2.1 .little [1, 2, 3, 4, 5, 6, 7, 8, 9] [0, 2, 3, 4, 5, 6, 7, 8, 9]
    rfl (by decide) (by decide) ?_
  exact ⟨[], 0x04030201, 0x04030200, [0x09080706, 0x08070605], by decide, by decide, by decide⟩

end Mekong.Analysis.City32Mixing
