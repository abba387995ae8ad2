import Mekong.Analysis.PiecewiseHashing
import Mekong.Analysis.StateKept
import Mekong.Model.Windows

/-!
# No byte is skipped

What a hash function loads of an input of a given length are the words of a list of
windows that does not depend on the bytes, nor on the state. Each class of lengths has its
list; of a loop it is found by induction. The windows cover the input: the words from both
ends of a class overlap, and the last chunk of a loop ends within reach of the words that
are loaded from the tail.
-/

set_option autoImplicit false

namespace Mekong.Analysis.HashCoverage

open Mekong.Computation Mekong.Model Mekong.Program Mekong.Program.LowLevel Mekong.Program.City

/-- What a computation loads of its input. -/
abbrev loads {α : Type} (x : Traced Access α) : List ℕ := x.found Access.loaded

/-- From inputs of length `n`, whatever the argument, the same windows are loaded, and
they cover the input from `lo` up to `hi`. -/
def LoadsCover {σ α : Type} (endian : Endian) (n lo hi : ℕ) (f : σ → Bytes → Traced Access α) :
    Prop :=
  ∃ ws, Covers ws lo hi ∧
    ∀ s data, data.length = n → loads (f s data) = ws.map (Window.word endian data)

/-! ## `hash32` -/

section Hash32

variable {endian : Endian} {data : Bytes}

/-- The words of `hash32_len5_to12`. -/
def windows5To12 (n : ℕ) : List Window := [⟨0, 4⟩, ⟨n - 4, 4⟩, ⟨n >>> 1 &&& 4, 4⟩]

/-- The loads of `hash32` from 5 to 12 bytes. -/
theorem hash32Len5To12_loads : loads (hash32Len5To12 endian data) =
    (windows5To12 data.length).map (Window.word endian data) := by
  simp [hash32Len5To12, windows5To12, Access.loaded, Window.word]

/-- The words of `hash32_len13_to24`. -/
def windows13To24 (n : ℕ) : List Window :=
  [⟨(n >>> 1) - 4, 4⟩, ⟨4, 4⟩, ⟨n - 8, 4⟩, ⟨n >>> 1, 4⟩, ⟨0, 4⟩, ⟨n - 4, 4⟩]

/-- The loads of `hash32` from 13 to 24 bytes. -/
theorem hash32Len13To24_loads : loads (hash32Len13To24 endian data) =
    (windows13To24 data.length).map (Window.word endian data) := by
  simp [hash32Len13To24, windows13To24, Access.loaded, Window.word]

/-- The middle word begins where the first one ends, unless the last one reaches it. -/
theorem middle_word_offset : ∀ n ≤ 12, 8 < n → n >>> 1 &&& 4 = 4 := by
  decide

/-- The loads from 5 to 12 bytes cover the input. -/
theorem windows5To12_covers {n : ℕ} (h : 4 < n) (h' : n ≤ 12) : Covers (windows5To12 n) 0 n := by
  intro i _ hi
  by_cases h8 : n ≤ 8
  · simp [windows5To12]
    omega
  · have hmiddle := middle_word_offset n h' (by omega)
    simp [windows5To12, hmiddle]
    omega

/-- The loads from 13 to 24 bytes cover the input. -/
theorem windows13To24_covers {n : ℕ} (h : 12 < n) (h' : n ≤ 24) :
    Covers (windows13To24 n) 0 n := by
  intro i _ hi
  simp [windows13To24, Nat.shiftRight_one]
  omega

/-- Single bytes. -/
def windowsOfBytes (n : ℕ) : List Window := (List.range n).map fun i => ⟨i, 1⟩

/-- Single bytes cover the input. -/
theorem windowsOfBytes_covers (n : ℕ) : Covers (windowsOfBytes n) 0 n := by
  intro i _ hi
  exact ⟨⟨i, 1⟩, List.mem_map.mpr ⟨i, List.mem_range.mpr hi, rfl⟩, le_rfl, Nat.lt_succ_self i⟩

/-- The loads of `hash32` up to 4 bytes. -/
theorem hash32Len0To4_loads : loads (hash32Len0To4 data) =
    (windowsOfBytes data.length).map (Window.word endian data) := by
  have hbytes : ∀ l : List ℕ, (l.flatMap fun i => [(data.getD i 0).toNat]) =
      (l.map fun i => (⟨i, 1⟩ : Window)).map (Window.word endian data) := by
    intro l
    rw [List.map_map, ← List.map_eq_flatMap]
    exact List.map_congr_left fun i _ => (Window.word_byte i).symm
  rw [windowsOfBytes, ← hbytes]
  simp only [hash32Len0To4, loads, Traced.found_bind, Traced.found_pure, List.append_nil]
  apply Traced.found_foldlM
  intro b i
  simp [Access.loaded]

/-- A round of the loop loads its chunk of 20 bytes. -/
theorem hash32Loop_loads (endian : Endian) (iters seek : ℕ) (hiters : 0 < iters) :
    ∃ ws, Covers ws seek (seek + 20 * iters) ∧
      ∀ s data, loads (hash32Loop endian data iters seek s) =
        ws.map (Window.word endian data) := by
  induction iters generalizing seek with
  | zero => exact absurd hiters (by decide)
  | succ k ih =>
    let chunk : List Window :=
      [⟨seek, 4⟩, ⟨seek + 4, 4⟩, ⟨seek + 8, 4⟩, ⟨seek + 12, 4⟩, ⟨seek + 16, 4⟩]
    have hchunk : Covers chunk seek (seek + 20) := by
      intro i _ hi
      simp [chunk]
      omega
    by_cases hk : k = 0
    · refine ⟨chunk, by rwa [hk], fun s data => ?_⟩
      rw [hash32Loop]
      simp [hk, chunk, Access.loaded, Window.word]
    · obtain ⟨ws, hcovers, hws⟩ := ih (seek + 20) (by omega)
      refine ⟨chunk ++ ws, ?_, fun s data => ?_⟩
      · rw [Nat.mul_succ, Nat.add_comm (20 * k), ← Nat.add_assoc]
        exact hchunk.append hcovers le_rfl
      · rw [hash32Loop]
        simp [hk, chunk, Access.loaded, Window.word, hws]

/-- The words from the tail, and those of the loop. -/
theorem hash32_loadsCover (endian : Endian) (n : ℕ) :
    LoadsCover endian n 0 n fun (_ : Unit) data => City.hash32 endian data := by
  by_cases h24 : n ≤ 24
  · by_cases h12 : n ≤ 12
    · by_cases h4 : n ≤ 4
      · refine ⟨windowsOfBytes n, windowsOfBytes_covers n, ?_⟩
        rintro _ data rfl
        simp only [City.hash32, if_pos h24, if_pos h12, if_pos h4]
        exact hash32Len0To4_loads
      · refine ⟨windows5To12 n, windows5To12_covers (by omega) h12, ?_⟩
        rintro _ data rfl
        simp only [City.hash32, if_pos h24, if_pos h12, if_neg h4]
        exact hash32Len5To12_loads
    · refine ⟨windows13To24 n, windows13To24_covers (by omega) h24, ?_⟩
      rintro _ data rfl
      simp only [City.hash32, if_pos h24, if_neg h12]
      exact hash32Len13To24_loads
  · obtain ⟨ws, hcovers, hws⟩ := hash32Loop_loads endian ((n - 1) / 20) 0 (by omega)
    let tail : List Window :=
      [⟨n - 4, 4⟩, ⟨n - 8, 4⟩, ⟨n - 16, 4⟩, ⟨n - 12, 4⟩, ⟨n - 20, 4⟩]
    have htail : Covers tail (n - 20) n := by
      intro i _ hi
      simp [tail]
      omega
    refine ⟨tail ++ ws, (hcovers.append htail (by omega)).append_comm, ?_⟩
    rintro _ data rfl
    simp only [City.hash32, if_neg h24]
    simp [hws, tail, Access.loaded, Window.word]

end Hash32

/-! ## `hash64` -/

section Hash64

variable {width : PointerWidth} {endian : Endian} {data : Bytes}

/-- The words of the classes of `hash64`. -/
def windows64 (n : ℕ) : List Window :=
  if n ≥ 33 then
    [⟨0, 8⟩, ⟨8, 8⟩, ⟨n - 24, 8⟩, ⟨n - 32, 8⟩, ⟨16, 8⟩, ⟨24, 8⟩, ⟨n - 8, 8⟩, ⟨n - 16, 8⟩]
  else if n ≥ 17 then [⟨0, 8⟩, ⟨8, 8⟩, ⟨n - 8, 8⟩, ⟨n - 16, 8⟩]
  else if n ≥ 8 then [⟨0, 8⟩, ⟨n - 8, 8⟩]
  else if n ≥ 4 then [⟨0, 4⟩, ⟨n - 4, 4⟩]
  else if n > 0 then [⟨0, 1⟩, ⟨n >>> 1, 1⟩, ⟨n - 1, 1⟩]
  else []

/-- The loads of `hash64` up to 64 bytes cover the input. -/
theorem windows64_covers {n : ℕ} (h : n ≤ 64) : Covers (windows64 n) 0 n := by
  intro i _ hi
  unfold windows64
  split_ifs
  all_goals simp [Nat.shiftRight_one]
  all_goals omega

/-- The loads of `hash64` up to 64 bytes. -/
theorem hash64_loads_of_le (h : data.length ≤ 64) : loads (City.hash64 width endian data) =
    (windows64 data.length).map (Window.word endian data) := by
  unfold City.hash64 windows64
  by_cases h33 : data.length ≥ 33
  · simp only [if_neg (show ¬ data.length ≤ 32 by omega), if_pos h, if_pos h33]
    simp [hash64Len33To64, Access.loaded, Window.word]
  by_cases h17 : data.length ≥ 17
  · simp only [if_pos (show data.length ≤ 32 by omega), if_neg (show ¬ data.length ≤ 16 by omega),
      if_neg h33, if_pos h17]
    simp [hash64Len17To32, Access.loaded, Window.word]
  simp only [if_pos (show data.length ≤ 32 by omega), if_pos (show data.length ≤ 16 by omega),
    if_neg h33, if_neg h17, hash64Len0To16]
  by_cases h8 : data.length ≥ 8
  · simp only [if_pos h8]
    simp [Access.loaded, Window.word]
  by_cases h4 : data.length ≥ 4
  · simp only [if_neg h8, if_pos h4]
    simp [Access.loaded, Window.word]
  by_cases h0 : data.length > 0
  · simp only [if_neg h8, if_neg h4, if_pos h0]
    simp [Access.loaded, Window.word_byte]
  · simp only [if_neg h8, if_neg h4, if_neg h0]
    simp

/-- Four words in a row. -/
def windows32Bytes (offset : ℕ) : List Window :=
  [⟨offset, 8⟩, ⟨offset + 8, 8⟩, ⟨offset + 16, 8⟩, ⟨offset + 24, 8⟩]

/-- Four words cover 32 bytes. -/
theorem windows32Bytes_covers (offset : ℕ) :
    Covers (windows32Bytes offset) offset (offset + 32) := by
  intro i _ hi
  simp [windows32Bytes]
  omega

/-- The weak hash loads four words. -/
theorem weakHash64Len32WithSeeds_loads (offset : ℕ) (a b : U64) :
    loads (weakHash64Len32WithSeeds endian (data.drop offset) a b) =
      (windows32Bytes offset).map (Window.word endian data) := by
  simp [weakHash64Len32WithSeeds, windows32Bytes, Access.loaded, Window.word]

/-- A chunk of 64 bytes. -/
def windowsOfChunk (seek : ℕ) : List Window :=
  [⟨seek + 8, 8⟩, ⟨seek + 48, 8⟩, ⟨seek + 40, 8⟩] ++ windows32Bytes seek ++ [⟨seek + 16, 8⟩] ++
    windows32Bytes (seek + 32)

/-- The loads of an iteration cover its chunk. -/
theorem windowsOfChunk_covers (seek : ℕ) : Covers (windowsOfChunk seek) seek (seek + 64) := by
  have h := (windows32Bytes_covers seek).append (windows32Bytes_covers (seek + 32)) le_rfl
  refine h.mono fun w hw => ?_
  simp only [windowsOfChunk, List.mem_append] at hw ⊢
  tauto

/-- The loads of an iteration of `hash64`. -/
theorem hash64Chunk_loads (seek : ℕ) (s : State56) : loads (hash64Chunk endian data seek s) =
    (windowsOfChunk seek).map (Window.word endian data) := by
  simp [hash64Chunk, windowsOfChunk, weakHash64Len32WithSeeds_loads, Access.loaded, Window.word]

/-- The loop loads what is left of the whole chunks. -/
theorem hash64Loop_loads (endian : Endian) (len seek : ℕ) (hlen : 0 < len) (hdvd : 64 ∣ len) :
    ∃ ws, Covers ws seek (seek + len) ∧
      ∀ s data, loads (hash64Loop endian data len seek s) =
        ws.map (Window.word endian data) := by
  induction len using Nat.strong_induction_on generalizing seek with
  | h len ih =>
    by_cases hlast : len - 64 = 0
    · refine ⟨windowsOfChunk seek, ?_, fun s data => ?_⟩
      · rw [show len = 64 by omega]
        exact windowsOfChunk_covers seek
      · unfold hash64Loop
        simp [hlast, hash64Chunk_loads, Access.loaded]
    · obtain ⟨ws, hcovers, hws⟩ := ih (len - 64) (by omega) (seek + 64) (by omega) (by omega)
      refine ⟨windowsOfChunk seek ++ ws, ?_, fun s data => ?_⟩
      · rw [show seek + len = seek + 64 + (len - 64) by omega]
        exact (windowsOfChunk_covers seek).append hcovers le_rfl
      · unfold hash64Loop
        simp [hlast, hash64Chunk_loads, hws, Access.loaded]

/-- The loads of `hash64` cover every input. -/
theorem hash64_loadsCover (width : PointerWidth) (endian : Endian) {n : ℕ}
    (hn : n < 2 ^ width.bits) :
    LoadsCover endian n 0 n fun (_ : Unit) data => City.hash64 width endian data := by
  by_cases h64 : n ≤ 64
  · refine ⟨windows64 n, windows64_covers h64, ?_⟩
    rintro _ data rfl
    exact hash64_loads_of_le h64
  · have hbits : 6 ≤ width.bits := by cases width <;> decide
    have hmask : usizeAndNot width (n - 1) 63 = 64 * ((n - 1) / 64) :=
      usizeAndNot_two_pow (k := 6) hbits (by omega)
    obtain ⟨ws, hcovers, hws⟩ := hash64Loop_loads endian (64 * ((n - 1) / 64)) 0 (by omega)
      (dvd_mul_right ..)
    let ends : List Window := [⟨n - 40, 8⟩, ⟨n - 16, 8⟩, ⟨n - 56, 8⟩, ⟨n - 48, 8⟩, ⟨n - 24, 8⟩]
    let tail : List Window := windows32Bytes (n - 64) ++ windows32Bytes (n - 32)
    have htail : Covers tail (n - 64) n := by
      have h := (windows32Bytes_covers (n - 64)).append (windows32Bytes_covers (n - 32))
        (by omega)
      rwa [show n - 32 + 32 = n by omega] at h
    refine ⟨ends ++ tail ++ [⟨0, 8⟩] ++ ws, ?_, ?_⟩
    · refine (hcovers.append htail (by omega)).mono fun w hw => ?_
      simp only [List.mem_append] at hw ⊢
      tauto
    · rintro _ data rfl
      simp only [City.hash64, if_neg h64, if_neg (show ¬ data.length ≤ 32 by omega)]
      simp [hmask, hws, ends, tail, weakHash64Len32WithSeeds_loads, Access.loaded, Window.word]

end Hash64

/-! ## Inputs of at most 32 bytes -/

section Short

variable {t : Target} {first : Bytes}

/-- The words of `combine_small_contiguous`. -/
def windowsSmall (n : ℕ) : List Window :=
  if n ≥ 4 then [⟨0, 4⟩, ⟨n - 4, 4⟩]
  else if n > 0 then [⟨0, 1⟩, ⟨n - 1, 1⟩, ⟨n / 2, 1⟩]
  else []

/-- The loads up to 8 bytes cover the input. -/
theorem windowsSmall_covers {n : ℕ} (h : n ≤ 8) : Covers (windowsSmall n) 0 n := by
  intro i _ hi
  unfold windowsSmall
  split_ifs
  all_goals simp
  all_goals omega

/-- The loads of the portable path up to 8 bytes. -/
theorem combineSmallContiguous_loads (state : U64) : loads (combineSmallContiguous t state first) =
    (windowsSmall first.length).map (Window.word t.endian first) := by
  unfold combineSmallContiguous windowsSmall
  by_cases h4 : first.length ≥ 4
  · simp only [if_pos h4]
    simp [read4To8, Access.loaded, Window.word]
  by_cases h0 : first.length > 0
  · simp only [if_neg h4, if_pos h0]
    simp [read1To3, Access.loaded, Window.word_byte]
  · simp only [if_neg h4, if_neg h0]
    simp [Access.loaded]

/-- The table is not the input. -/
theorem precombineLengthMix_loads (state : U64) (len : ℕ) :
    loads (precombineLengthMix t state len) = [] := by
  simp [precombineLengthMix, Access.loaded]

/-- The words of the classes from 9 to 32 bytes, and of the CRC path in its order. -/
def windowsTo32 (crc : Bool) (n : ℕ) : List Window :=
  if n ≤ 8 then windowsSmall n
  else if n ≤ 16 then [⟨0, 8⟩, ⟨n - 8, 8⟩]
  else if crc then [⟨0, 8⟩, ⟨n - 8, 8⟩, ⟨n - 16, 8⟩, ⟨8, 8⟩]
  else [⟨0, 8⟩, ⟨8, 8⟩, ⟨n - 16, 8⟩, ⟨n - 16 + 8, 8⟩]

/-- The loads up to 32 bytes cover the input. -/
theorem windowsTo32_covers (crc : Bool) {n : ℕ} (h : n ≤ 32) : Covers (windowsTo32 crc n) 0 n := by
  unfold windowsTo32
  by_cases h8 : n ≤ 8
  · rw [if_pos h8]
    exact windowsSmall_covers h8
  · rw [if_neg h8]
    intro i _ hi
    split_ifs
    all_goals simp
    all_goals omega

/-- The loads of the CRC path. -/
theorem combineContiguousCrc_loads (cpu : X86Intrinsics) (state : U64) :
    loads (combineContiguousCrc cpu state first) =
      (windowsTo32 true first.length).map (Window.word .little first) := by
  have hendian : (Target.x86_64 cpu).endian = .little := rfl
  unfold combineContiguousCrc crcAbsorb windowsTo32 windowsSmall
  by_cases h8 : first.length > 8
  · by_cases h16 : first.length > 16
    · simp only [if_pos h8, if_pos h16, if_neg (not_le.mpr h8), if_neg (not_le.mpr h16), if_true]
      simp [hendian, Access.loaded, Window.word]
    · simp only [if_pos h8, if_neg h16, if_neg (not_le.mpr h8), if_pos (not_lt.mp h16)]
      simp [hendian, Access.loaded, Window.word]
  by_cases h4 : first.length ≥ 4
  · simp only [if_neg h8, if_pos h4, if_pos (not_lt.mp h8)]
    simp [hendian, Access.loaded, Window.word]
  by_cases h1 : first.length ≥ 1
  · simp only [if_neg h8, if_neg h4, if_pos h1, if_pos (not_lt.mp h8), gt_iff_lt,
      if_pos (Nat.lt_of_succ_le h1)]
    simp [Access.loaded, Window.word_byte]
  · simp only [if_neg h8, if_neg h4, if_neg h1, if_pos (not_lt.mp h8), gt_iff_lt,
      if_neg (show ¬ 0 < first.length by omega)]
    simp

/-- The loads of the entry function up to 32 bytes. -/
theorem combineContiguousOn64bit_loads_of_le (state : U64) (h : first.length ≤ 32) :
    loads (combineContiguousOn64bit t state first) =
      (windowsTo32 t.crc.isSome first.length).map (Window.word t.endian first) := by
  rw [combineContiguousOn64bit]
  cases hcrc : t.crc with
  | some cpu =>
    have hendian : t.endian = .little := by
      cases t with
      | portable endian powerpc64 => cases hcrc
      | x86_64 cpu => rfl
    simp only [gt_iff_lt, if_neg (not_lt.mpr h), hendian]
    exact combineContiguousCrc_loads cpu state
  | none =>
    unfold windowsTo32
    by_cases h8 : first.length ≤ 8
    · simp only [if_pos h8]
      simp [precombineLengthMix_loads, combineSmallContiguous_loads]
    by_cases h16 : first.length ≤ 16
    · simp only [if_neg h8, if_pos h16]
      simp [precombineLengthMix_loads, combineContiguous9To16, read9To16, Access.loaded,
        Window.word]
    · simp only [if_neg h8, if_neg h16, if_pos h]
      simp [precombineLengthMix_loads, combineContiguous17To32, Access.loaded, Window.word]

end Short

/-! ## Inputs of more than 32 bytes -/

section Long

/-- Two vectors in a row. -/
def windowsOfVectors (offset : ℕ) : List Window := [⟨offset, 16⟩, ⟨offset + 16, 16⟩]

/-- What a target loads of 32 bytes. -/
def windowsOf32 (t : Target) (offset : ℕ) : List Window :=
  match t with
  | .portable .. => windows32Bytes offset
  | .x86_64 _ => windowsOfVectors offset

/-- The loads of 32 bytes cover them on every target. -/
theorem windowsOf32_covers (t : Target) (offset : ℕ) :
    Covers (windowsOf32 t offset) offset (offset + 32) := by
  cases t with
  | portable endian powerpc64 => exact windows32Bytes_covers offset
  | x86_64 cpu =>
    intro i _ hi
    simp [windowsOf32, windowsOfVectors]
    omega

variable {t : Target} {data : Bytes}

variable (data) in
/-- The loads of `mix_32_bytes`. -/
theorem mix32Bytes_loads (offset : ℕ) (currentState : U64) :
    loads (mix32Bytes t (data.drop offset) currentState) =
      (windows32Bytes offset).map (Window.word t.endian data) := by
  simp [mix32Bytes, windows32Bytes, Access.loaded, Window.word]

variable (data) in
/-- The loads of the first mix of vectors. -/
theorem mixAb_loads (cpu : X86Intrinsics) (offset : ℕ) (s : Vectors) :
    loads (mixAb cpu s (data.drop offset)) =
      (windowsOfVectors offset).map (Window.word .little data) := by
  simp [mixAb, windowsOfVectors, Access.loaded, Window.word]

/-- The loads of the second mix of vectors. -/
theorem mixCd_loads (cpu : X86Intrinsics) (offset : ℕ) (s : Vectors) :
    loads (mixCd cpu s (data.drop offset)) =
      (windowsOfVectors offset).map (Window.word .little data) := by
  simp [mixCd, windowsOfVectors, Access.loaded, Window.word]

/-- The first 32 bytes and the last. -/
theorem lowLevelHash33To64_loads (seed : U64) :
    loads (lowLevelHash33To64 t seed data) =
      (windowsOf32 t 0 ++ windowsOf32 t (data.length - 32)).map (Window.word t.endian data) := by
  cases t with
  | portable endian powerpc64 =>
    have hfirst := mix32Bytes_loads (t := .portable endian powerpc64) data 0
    rw [List.drop_zero] at hfirst
    simp [lowLevelHash33To64, lowLevelHash33To64Portable, hfirst, mix32Bytes_loads, windowsOf32,
      Access.loaded]
  | x86_64 cpu =>
    simp [lowLevelHash33To64, lowLevelHash33To64X86, windowsOf32, windowsOfVectors, Access.loaded,
      Window.word, Target.endian]

/-- The prefetch loads nothing. -/
theorem prefetchFutureDataToLocalCache_loads (ptr : Bytes) :
    loads (prefetchFutureDataToLocalCache t ptr) = [] := by
  simp [prefetchFutureDataToLocalCache, Traced.found_ite, Access.loaded]

/-- A chunk of 64 bytes. -/
def windowsOf64 (t : Target) : List Window := windowsOf32 t 0 ++ windowsOf32 t 32

/-- The loads of a turn of the loop cover 64 bytes. -/
theorem windowsOf64_covers (t : Target) : Covers (windowsOf64 t) 0 64 :=
  (windowsOf32_covers t 0).append (windowsOf32_covers t 32) le_rfl

/-- A loop over chunks of 64 bytes, that goes on while more than a chunk is left. -/
def LoadsChunks {σ : Type} (t : Target) (loop : σ → Cursor → Traced Access (σ × Cursor)) : Prop :=
  ∀ s c, ∃ s',
    (loads (loop s c) = (windowsOf64 t).map (Window.word t.endian c.ptr) ++
      if c.len - 64 ≤ 64 then [] else loads (loop s' (c.advance 64))) ∧
    (loop s c).val.2 =
      if c.len - 64 ≤ 64 then c.advance 64 else (loop s' (c.advance 64)).val.2

/-- Such a loop loads whole chunks and leaves from 1 to 64 bytes. -/
theorem LoadsChunks.loads {σ : Type} {t : Target} {loop : σ → Cursor → Traced Access (σ × Cursor)}
    (hloop : LoadsChunks t loop) (n : ℕ) (hn : 64 < n) :
    ∃ ws k, k < n ∧ n ≤ k + 64 ∧ Covers ws 0 k ∧ ∀ s c, c.len = n →
      loads (loop s c) = ws.map (Window.word t.endian c.ptr) ∧
        (loop s c).val.2.ptr = c.ptr.drop k := by
  induction n using Nat.strong_induction_on with
  | h n ih =>
    by_cases hlast : n - 64 ≤ 64
    · refine ⟨windowsOf64 t, 64, hn, by omega, windowsOf64_covers t, ?_⟩
      rintro s c rfl
      obtain ⟨s', hloads, hval⟩ := hloop s c
      rw [hloads, hval, if_pos hlast, if_pos hlast, List.append_nil]
      exact ⟨rfl, rfl⟩
    · obtain ⟨ws, k, hk, hk', hcovers, hws⟩ := ih (n - 64) (by omega) (by omega)
      have hshift := hcovers.shift 64
      refine ⟨windowsOf64 t ++ ws.map (Window.shift 64), 64 + k, by omega, by omega,
        (windowsOf64_covers t).append hshift le_rfl, ?_⟩
      rintro s c rfl
      obtain ⟨s', hloads, hval⟩ := hloop s c
      obtain ⟨hrest, hptr⟩ := hws s' (c.advance 64) rfl
      rw [Cursor.advance_ptr] at hrest hptr
      rw [hloads, hval, if_neg hlast, if_neg hlast, hrest, hptr, Window.map_word_drop,
        List.map_append, List.drop_drop]
      exact ⟨rfl, rfl⟩

/-- The words of the portable loop after a chunk. -/
def quadAfter (t : Target) (s : Quad) (ptr : Bytes) : Quad :=
  let word (offset : ℕ) : U64 := (unalignedLoad64 t.endian .input (ptr.drop offset)).val
  { currentState := mix (word 0 ^^^ staticRandomWord 1) (word 8 ^^^ s.currentState)
    duplicatedState0 := mix (word 16 ^^^ staticRandomWord 2) (word 24 ^^^ s.duplicatedState0)
    duplicatedState1 := mix (word 32 ^^^ staticRandomWord 3) (word 40 ^^^ s.duplicatedState1)
    duplicatedState2 := mix (word 48 ^^^ staticRandomWord 4) (word 56 ^^^ s.duplicatedState2) }

/-- The portable loop loads its input chunk by chunk. -/
theorem lowLevelHashLoopPortable_loadsChunks (endian : Endian) (powerpc64 : Bool) :
    LoadsChunks (.portable endian powerpc64)
      (lowLevelHashLoopPortable (.portable endian powerpc64)) := by
  intro s c
  refine ⟨quadAfter (.portable endian powerpc64) s c.ptr, ?_, ?_⟩
  · conv_lhs => unfold lowLevelHashLoopPortable
    simp [prefetchFutureDataToLocalCache_loads, Traced.found_ite, Access.loaded, windowsOf64,
      windowsOf32, windows32Bytes, Window.word, quadAfter, kStaticRandomData_getElem]
  · conv_lhs => unfold lowLevelHashLoopPortable
    simp [quadAfter, kStaticRandomData_getElem]
    split <;> rfl

/-- The words of the loop with vectors after a chunk. -/
def vectorsAfter (cpu : X86Intrinsics) (s : Vectors) (ptr : Bytes) : Vectors :=
  (mixCd cpu (mixAb cpu s ptr).val (ptr.drop 32)).val

/-- The vector loop loads its input chunk by chunk. -/
theorem lowLevelHashLoopX86_loadsChunks (cpu : X86Intrinsics) :
    LoadsChunks (.x86_64 cpu) (lowLevelHashLoopX86 cpu) := by
  intro s c
  have hab := fun s => mixAb_loads c.ptr cpu 0 s
  simp only [List.drop_zero] at hab
  refine ⟨vectorsAfter cpu s c.ptr, ?_, ?_⟩
  · conv_lhs => unfold lowLevelHashLoopX86
    simp [prefetchFutureDataToLocalCache_loads, Traced.found_ite, Access.loaded, windowsOf64,
      windowsOf32, hab, mixCd_loads, vectorsAfter, Target.endian]
  · conv_lhs => unfold lowLevelHashLoopX86
    simp [vectorsAfter]
    split <;> rfl

/-- The chunks, what they leave if it is more than 32 bytes, and the last 32 bytes. -/
def windowsGt64 (t : Target) (ws : List Window) (k n : ℕ) : List Window :=
  ws ++ (if n - k > 32 then windowsOf32 t k else []) ++ windowsOf32 t (n - 32)

/-- The loads of the loop and those after it cover the input. -/
theorem windowsGt64_covers (t : Target) {ws : List Window} {k n : ℕ} (hcovers : Covers ws 0 k)
    (hn : 64 < n) (hk : n ≤ k + 64) : Covers (windowsGt64 t ws k n) 0 n := by
  have hlast := windowsOf32_covers t (n - 32)
  rw [show n - 32 + 32 = n by omega] at hlast
  unfold windowsGt64
  by_cases hrest : n - k > 32
  · rw [if_pos hrest]
    exact (hcovers.append (windowsOf32_covers t k) le_rfl).append hlast (by omega)
  · rw [if_neg hrest, List.append_nil]
    exact hcovers.append hlast (by omega)

/-- The loads of the hash of more than 64 bytes cover the input. -/
theorem lowLevelHashLenGt64_loadsCover (t : Target) {n : ℕ} (hn : 64 < n) :
    LoadsCover t.endian n 0 n (lowLevelHashLenGt64 t) := by
  cases t with
  | portable endian powerpc64 =>
    obtain ⟨ws, k, hk, hk', hcovers, hws⟩ :=
      (lowLevelHashLoopPortable_loadsChunks endian powerpc64).loads n hn
    refine ⟨_, windowsGt64_covers (.portable endian powerpc64) hcovers hn hk', ?_⟩
    rintro seed data rfl
    have hloop := fun s => (hws s (Cursor.start data) rfl).1
    have hptr := fun s => (hws s (Cursor.start data) rfl).2
    rw [show (Cursor.start data).ptr = data from rfl] at hloop hptr
    simp only [lowLevelHashLenGt64, lowLevelHashLenGt64Portable]
    simp [hloop, hptr, Cursor.len_eq, Traced.found_ite, mix32Bytes_loads, windowsGt64, windowsOf32,
      Access.loaded]
    split <;> simp
  | x86_64 cpu =>
    obtain ⟨ws, k, hk, hk', hcovers, hws⟩ := (lowLevelHashLoopX86_loadsChunks cpu).loads n hn
    refine ⟨_, windowsGt64_covers (.x86_64 cpu) hcovers hn hk', ?_⟩
    rintro seed data rfl
    have hloop := fun s => (hws s (Cursor.start data) rfl).1
    have hptr := fun s => (hws s (Cursor.start data) rfl).2
    rw [show (Cursor.start data).ptr = data from rfl] at hloop hptr
    simp only [lowLevelHashLenGt64, lowLevelHashLenGt64X86]
    simp [hloop, hptr, Cursor.len_eq, Traced.found_ite, mixAb_loads, mixCd_loads, windowsGt64,
      windowsOf32, Access.loaded, Target.endian]
    split <;> simp

/-- The loads of the hash of a block on 64 bits cover the block. -/
theorem hashBlockOn64bit_loadsCover (t : Target) {n : ℕ} (hn : 32 < n) :
    LoadsCover t.endian n 0 n (hashBlockOn64bit t) := by
  by_cases h64 : n > 64
  · obtain ⟨ws, hcovers, hws⟩ := lowLevelHashLenGt64_loadsCover t h64
    refine ⟨ws, hcovers, ?_⟩
    rintro seed data rfl
    simp only [hashBlockOn64bit, lowLevelHashLenGt32, if_pos h64]
    simp [hws, Access.loaded]
  · have hlast := windowsOf32_covers t (n - 32)
    rw [show n - 32 + 32 = n by omega] at hlast
    refine ⟨_, (windowsOf32_covers t 0).append hlast (by omega), ?_⟩
    rintro seed data rfl
    simp only [hashBlockOn64bit, lowLevelHashLenGt32, if_neg h64]
    simp [lowLevelHash33To64_loads, Access.loaded]

end Long

/-! ## Two runs -/

/-- From inputs of length `n` a function loads equally many words, and they tell the inputs
apart. -/
def Determines {σ α : Type} (n : ℕ) (f : σ → Bytes → Traced Access α) : Prop :=
  ∀ s s' data data', data.length = n → data'.length = n →
    (loads (f s data)).length = (loads (f s' data')).length ∧
      (loads (f s data) = loads (f s' data') → data = data')

/-- Loads that cover the input determine it. -/
theorem LoadsCover.determines {σ α : Type} {endian : Endian} {n : ℕ}
    {f : σ → Bytes → Traced Access α} (h : LoadsCover endian n 0 n f) : Determines n f := by
  obtain ⟨ws, hcovers, hws⟩ := h
  intro s s' data data' hdata hdata'
  rw [hws s data hdata, hws s' data' hdata']
  refine ⟨by rw [List.length_map, List.length_map], fun heq => ?_⟩
  exact eq_of_covers (by rwa [hdata]) (hdata.trans hdata'.symm) heq

section Chunks

variable (hashBlock : U64 → Bytes → Traced Access U64)
variable (combineContiguous : U64 → Bytes → Traced Access U64)

/-- What `split_and_combine` loads, from the place of a cursor on. -/
def loadsFrom (state : U64) (c : Cursor) : List ℕ :=
  let r := splitLoop hashBlock state c
  loads r ++ if r.val.2.val.length = 0 then [] else loads (combineContiguous r.val.1 r.val.2.val)

/-- The loads of the hash of an input in pieces. -/
theorem splitAndCombine_loads (state : U64) (first : Bytes) :
    loads (splitAndCombine hashBlock (fun s ptr => combineContiguous s ptr.val) state first) =
      loadsFrom hashBlock combineContiguous state (Cursor.start first) := by
  simp only [splitAndCombine, loadsFrom, loads, Traced.found_bind, Traced.found_ite,
    Traced.found_pure]

/-- A whole chunk is loaded before what follows it. -/
theorem loadsFrom_of_ge (state : U64) (c : Cursor) (h : c.len ≥ piecewiseChunkSize) :
    loadsFrom hashBlock combineContiguous state c =
      loads (hashBlock state (c.ptr.take piecewiseChunkSize)) ++
        loadsFrom hashBlock combineContiguous
          (hashBlock state (c.ptr.take piecewiseChunkSize)).val (c.advance piecewiseChunkSize) := by
  unfold loadsFrom
  conv_lhs => unfold splitLoop
  simp [h, Access.loaded]

/-- A remainder is loaded unless it is empty. -/
theorem loadsFrom_of_lt (state : U64) (c : Cursor) (h : c.len < piecewiseChunkSize) :
    loadsFrom hashBlock combineContiguous state c =
      if c.ptr.length = 0 then [] else loads (combineContiguous state c.ptr) := by
  unfold loadsFrom
  conv_lhs => unfold splitLoop
  simp [not_le.mpr h]

variable {hashBlock combineContiguous}

/-- Chunks that are told apart, and a remainder that is. -/
theorem loadsFrom_determines (hblock : Determines piecewiseChunkSize hashBlock)
    (hcombine : ∀ n, n < piecewiseChunkSize → Determines n combineContiguous) (n : ℕ) :
    ∀ s s' c c', c.len = n → c'.len = n →
      (loadsFrom hashBlock combineContiguous s c).length =
          (loadsFrom hashBlock combineContiguous s' c').length ∧
        (loadsFrom hashBlock combineContiguous s c = loadsFrom hashBlock combineContiguous s' c' →
          c.ptr = c'.ptr) := by
  induction n using Nat.strong_induction_on with
  | h n ih =>
    intro s s' c c' hc hc'
    have hptr := c.len_eq
    have hptr' := c'.len_eq
    have hpos : 0 < piecewiseChunkSize := by decide
    by_cases hn : piecewiseChunkSize ≤ n
    · rw [loadsFrom_of_ge _ _ s c (by omega), loadsFrom_of_ge _ _ s' c' (by omega)]
      have hchunk := hblock s s' (c.ptr.take piecewiseChunkSize) (c'.ptr.take piecewiseChunkSize)
        (by rw [List.length_take]; omega) (by rw [List.length_take]; omega)
      have hrest := ih (n - piecewiseChunkSize) (by omega)
        (hashBlock s (c.ptr.take piecewiseChunkSize)).val
        (hashBlock s' (c'.ptr.take piecewiseChunkSize)).val
        (c.advance piecewiseChunkSize) (c'.advance piecewiseChunkSize)
        (by rw [Cursor.advance_len, hc]) (by rw [Cursor.advance_len, hc'])
      refine ⟨by rw [List.length_append, List.length_append, hchunk.1, hrest.1], fun heq => ?_⟩
      obtain ⟨hfirst, hsecond⟩ := List.append_inj heq hchunk.1
      have htake := hchunk.2 hfirst
      have hdrop := hrest.2 hsecond
      rw [Cursor.advance_ptr, Cursor.advance_ptr] at hdrop
      rw [← List.take_append_drop piecewiseChunkSize c.ptr, htake, hdrop, List.take_append_drop]
    · rw [loadsFrom_of_lt _ _ s c (by omega), loadsFrom_of_lt _ _ s' c' (by omega)]
      by_cases hzero : n = 0
      · rw [if_pos (by omega), if_pos (by omega)]
        refine ⟨rfl, fun _ => ?_⟩
        rw [List.length_eq_zero_iff.mp (show c.ptr.length = 0 by omega),
          List.length_eq_zero_iff.mp (show c'.ptr.length = 0 by omega)]
      · rw [if_neg (by omega), if_neg (by omega)]
        exact hcombine n (by omega) s s' c.ptr c'.ptr (by omega) (by omega)

end Chunks

/-! ## The entry function -/

section Entry

variable (t : Target) {n : ℕ}

/-- Up to a chunk the loads on 64 bits determine the input. -/
theorem combineContiguousOn64bit_determines_of_le (hn : n ≤ piecewiseChunkSize) :
    Determines n (combineContiguousOn64bit t) := by
  by_cases h32 : n ≤ 32
  · have hcover : LoadsCover t.endian n 0 n (combineContiguousOn64bit t) := by
      refine ⟨_, windowsTo32_covers t.crc.isSome h32, ?_⟩
      rintro state first rfl
      exact combineContiguousOn64bit_loads_of_le state h32
    exact hcover.determines
  · obtain ⟨ws, hcovers, hws⟩ := hashBlockOn64bit_loadsCover t (not_le.mp h32)
    have hcover : LoadsCover t.endian n 0 n (combineContiguousOn64bit t) := by
      refine ⟨ws, hcovers, ?_⟩
      rintro state first rfl
      rw [PiecewiseHashing.combineContiguousOn64bit_of_gt t state first (not_le.mp h32),
        combineLargeContiguousOn64bitLengthGt32]
      simp only [if_pos hn]
      simp [hws, Access.loaded]
    exact hcover.determines

/-- The loads on 64 bits determine the input. -/
theorem combineContiguousOn64bit_determines (n : ℕ) :
    Determines n (combineContiguousOn64bit t) := by
  by_cases hn : n ≤ piecewiseChunkSize
  · exact combineContiguousOn64bit_determines_of_le t hn
  · have hchunk : 32 < piecewiseChunkSize := by decide
    have hblock := (hashBlockOn64bit_loadsCover t hchunk).determines
    have hsplit : ∀ state first, first.length = n → loads (combineContiguousOn64bit t state first) =
        loadsFrom (hashBlockOn64bit t) (combineContiguousOn64bit t) state (Cursor.start first) := by
      rintro state first rfl
      rw [PiecewiseHashing.combineContiguousOn64bit_of_gt t state first (by omega),
        combineLargeContiguousOn64bitLengthGt32]
      simp only [if_neg hn]
      simp [splitAndCombineOn64bit, splitAndCombine_loads, Access.loaded]
    intro s s' data data' hdata hdata'
    rw [hsplit s data hdata, hsplit s' data' hdata']
    exact loadsFrom_determines hblock
      (fun m hm => combineContiguousOn64bit_determines_of_le t hm.le) n s s' (Cursor.start data)
      (Cursor.start data') hdata hdata'

end Entry

/-! ## One word for at most 8 bytes -/

section SmallWord

variable {t : Target}

/-- The word that `combine_small_contiguous` passes to `combine_raw`.
SOURCE: low_level.rs:307-320 -/
def smallWord (t : Target) (first : Bytes) : U64 :=
  if first.length ≥ 4 then (read4To8 t first).val
  else if first.length > 0 then (read1To3 first).val.setWidth 64
  else 0x57

/-- Up to 8 bytes the hash depends on one word. -/
theorem combineSmallContiguous_val (state : U64) (first : Bytes) :
    (combineSmallContiguous t state first).val = combineRaw state (smallWord t first) := by
  unfold combineSmallContiguous smallWord
  by_cases h4 : first.length ≥ 4
  · simp only [if_pos h4]
    rfl
  by_cases h0 : first.length > 0
  · simp only [if_neg h4, if_pos h0]
    rfl
  · simp only [if_neg h4, if_neg h0]
    rfl

/-- Words side by side are known by the whole. -/
theorem append_inj {n m : ℕ} {a b : BitVec n} {c d : BitVec m} (h : a ++ c = b ++ d) :
    a = b ∧ c = d := by
  constructor
  · rw [← BitVec.extractLsb'_append_eq_left (a := a) (b := c), h,
      BitVec.extractLsb'_append_eq_left]
  · rw [← BitVec.extractLsb'_append_eq_right (a := a) (b := c), h,
      BitVec.extractLsb'_append_eq_right]

/-- `read4to8` sets its two words side by side. -/
theorem read4To8_val (first : Bytes) : (read4To8 t first).val =
    (unalignedLoad32 t.endian .input first).val ++
      (unalignedLoad32 t.endian .input (first.drop (first.length - 4))).val := by
  rw [BitVec.append_def, BitVec.shiftLeftZeroExtend_eq]
  rfl

/-- Three bytes of a word, side by side below a byte of zeros. -/
theorem three_bytes (a m l : U8) :
    (a.setWidth 32 <<< 16 ||| l.setWidth 32) ||| m.setWidth 32 <<< 8 =
      ((0 : U8) ++ a ++ (m ++ l) : U32) := by
  have hzero : ∀ (b : U8) (j : ℕ), 8 ≤ j → b.getLsbD j = false := fun b j hj =>
    BitVec.getLsbD_of_ge b j hj
  refine BitVec.eq_of_getLsbD_eq fun i hi => ?_
  simp only [BitVec.getLsbD_or, BitVec.getLsbD_shiftLeft, BitVec.getLsbD_setWidth,
    BitVec.getLsbD_append, hi, decide_true, Bool.true_and]
  rcases Nat.lt_or_ge i 8 with h8 | h8
  · simp [h8, show i < 16 by omega]
  rcases Nat.lt_or_ge i 16 with h16 | h16
  · simp [h8, h16, show i - 8 < 32 by omega]
  have hi8 : i - 8 < 32 := by omega
  rcases Nat.lt_or_ge i 24 with h24 | h24
  · simp [h8, hi8, hzero m (i - 8) (by omega), show i - 16 < 32 by omega,
      show i - 16 < 8 by omega]
  · simp [h8, hzero m (i - 8) (by omega), hzero a (i - 16) (by omega),
      show ¬ i - 16 < 8 by omega]

/-- `read1to3` sets its three bytes side by side. -/
theorem read1To3_val (first : Bytes) : (read1To3 first).val =
    (0 : U8) ++ first.getD 0 0 ++
      (first.getD (first.length / 2) 0 ++ first.getD (first.length - 1) 0) :=
  three_bytes ..

/-- A word that is loaded, back in naturals. -/
theorem unalignedLoad32_word (endian : Endian) (data : Bytes) (offset : ℕ) :
    (unalignedLoad32 endian .input (data.drop offset)).val.toNat =
      Window.word endian data ⟨offset, 4⟩ :=
  (BitVec.toNat_ofNat _ _).trans (Nat.mod_eq_of_lt (Window.word_lt data ⟨offset, 4⟩))

/-- Of a length up to 8, the word tells inputs apart. -/
theorem smallWord_inj {first first' : Bytes} (h8 : first.length ≤ 8)
    (hlen : first.length = first'.length) (h : smallWord t first = smallWord t first') :
    first = first' := by
  suffices hwords : (windowsSmall first.length).map (Window.word t.endian first) =
      (windowsSmall first.length).map (Window.word t.endian first') from
    eq_of_covers (windowsSmall_covers h8) hlen hwords
  unfold smallWord at h
  unfold windowsSmall
  rw [← hlen] at h
  by_cases h4 : first.length ≥ 4
  · rw [if_pos h4, if_pos h4, read4To8_val, read4To8_val, ← hlen] at h
    obtain ⟨hfirst, hlast⟩ := append_inj h
    have hword := congrArg BitVec.toNat hfirst
    have hword' := congrArg BitVec.toNat hlast
    rw [← List.drop_zero (l := first), ← List.drop_zero (l := first'), unalignedLoad32_word,
      unalignedLoad32_word] at hword
    rw [unalignedLoad32_word, unalignedLoad32_word] at hword'
    rw [if_pos h4]
    simp only [List.map_cons, List.map_nil, hword, hword']
  by_cases h0 : first.length > 0
  · rw [if_neg h4, if_neg h4, if_pos h0, if_pos h0] at h
    have hword := StateKept.setWidth_injective (show 32 ≤ 64 by decide) h
    rw [read1To3_val, read1To3_val, ← hlen] at hword
    obtain ⟨hupper, hlower⟩ := append_inj hword
    obtain ⟨_, hfirst⟩ := append_inj hupper
    obtain ⟨hmiddle, hlast⟩ := append_inj hlower
    rw [if_neg h4, if_pos h0]
    simp only [List.map_cons, List.map_nil, Window.word_byte, hfirst, hmiddle, hlast]
  · rw [if_neg h4, if_neg h0]
    rfl

end SmallWord

/-- **No byte is skipped.** Inputs of one length that a hash function loads the same words
from are the same; of at most 8 bytes, so are inputs with the same word for `combine_raw`. -/
theorem no_byte_skipped (width : PointerWidth) (endian : Endian) (t : Target)
    (data data' : Slice width) (hlen : data.val.length = data'.val.length) :
    (loads (City.hash32 endian data.val) = loads (City.hash32 endian data'.val) →
        data = data') ∧
      (loads (City.hash64 width endian data.val) = loads (City.hash64 width endian data'.val) →
        data = data') ∧
      (∀ state state', loads (combineContiguousOn64bit t state data.val) =
        loads (combineContiguousOn64bit t state' data'.val) → data = data') ∧
      (data.val.length ≤ 8 → (∀ state,
          (combineSmallContiguous t state data.val).val = combineRaw state (smallWord t data.val)) ∧
        (smallWord t data.val = smallWord t data'.val → data = data')) := by
  refine ⟨fun h => ?_, fun h => ?_, fun state state' h => ?_, fun h8 => ⟨fun state => ?_, fun h => ?_⟩⟩
  · exact Subtype.ext (((hash32_loadsCover endian _).determines () () _ _ rfl hlen.symm).2 h)
  · exact Subtype.ext
      (((hash64_loadsCover width endian data.property).determines () () _ _ rfl hlen.symm).2 h)
  · exact Subtype.ext
      ((combineContiguousOn64bit_determines t _ state state' _ _ rfl hlen.symm).2 h)
  · exact combineSmallContiguous_val state data.val
  · exact Subtype.ext (smallWord_inj h8 hlen h)

/-- Two inputs of nine bytes that differ in the last one. -/
theorem no_byte_skipped_nine :
    loads (combineContiguousOn64bit (.portable .little false) 0 [1, 2, 3, 4, 5, 6, 7, 8, 9]) ≠
      loads (combineContiguousOn64bit (.portable .little false) 5 [1, 2, 3, 4, 5, 6, 7, 8, 0]) := by
  intro h
  have heq := (no_byte_skipped .bits64 .little (.portable .little false)
    ⟨[1, 2, 3, 4, 5, 6, 7, 8, 9], by decide⟩ ⟨[1, 2, 3, 4, 5, 6, 7, 8, 0], by decide⟩ rfl).2.2.1
    0 5 h
  exact absurd heq (by decide)

end Mekong.Analysis.HashCoverage
