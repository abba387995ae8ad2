import Mekong.Model.Bytes
import Mathlib.Data.List.GetD

/-!
# Windows of a byte slice

A load sees a window of the slice. The word it gives determines the bytes of the window,
so that words from windows that cover the slice determine the slice.
-/

set_option autoImplicit false

namespace Mekong.Model

open Mekong.Computation

/-! ## Bytes of a word -/

section Digits

/-- The first byte is the lowest. -/
theorem fromLeBytes_cons (b : U8) (p : Bytes) :
    fromLeBytes (b :: p) = b.toNat + 256 * fromLeBytes p := rfl

/-- A number of bytes is below their power of 256. -/
theorem fromLeBytes_lt (p : Bytes) : fromLeBytes p < 256 ^ p.length := by
  induction p with
  | nil => decide
  | cons b p ih =>
    have hb := b.isLt
    rw [fromLeBytes_cons, List.length_cons, Nat.pow_succ]
    omega

/-- A number of bytes is below their power of 256, in either order. -/
theorem fromNeBytes_lt (endian : Endian) (p : Bytes) : fromNeBytes endian p < 256 ^ p.length := by
  cases endian with
  | little => exact fromLeBytes_lt p
  | big =>
    have h := fromLeBytes_lt p.reverse
    rwa [List.length_reverse] at h

/-- Bytes are the digits of the number that they spell. -/
theorem fromLeBytes_inj {p q : Bytes} (hlen : p.length = q.length)
    (h : fromLeBytes p = fromLeBytes q) : p = q := by
  induction p generalizing q with
  | nil => exact (List.length_eq_zero_iff.mp hlen.symm).symm
  | cons b p ih =>
    cases q with
    | nil => cases hlen
    | cons c q =>
      have hb := b.isLt
      have hc := c.isLt
      rw [fromLeBytes_cons, fromLeBytes_cons] at h
      have hbyte : b = c := BitVec.eq_of_toNat_eq (by omega)
      rw [hbyte, ih (Nat.succ.inj hlen) (by omega)]

/-- Bytes are known by their number. -/
theorem fromNeBytes_inj {endian : Endian} {p q : Bytes} (hlen : p.length = q.length)
    (h : fromNeBytes endian p = fromNeBytes endian q) : p = q := by
  cases endian with
  | little => exact fromLeBytes_inj hlen h
  | big =>
    refine List.reverse_injective (fromLeBytes_inj ?_ h)
    rw [List.length_reverse, List.length_reverse, hlen]

end Digits

/-! ## Windows -/

/-- The word or the byte of the input that an access loads. -/
def Access.loaded : Access → Option ℕ
  | .load .input _ _ word => some word
  | .index _ _ byte => some byte.toNat
  | .load .table .. | .range .. | .sub .. | .usizeAdd .. | .add .. | .assert _ => none

/-- A place in a slice and how many bytes are loaded there. -/
structure Window where
  offset : ℕ
  size : ℕ

namespace Window

/-- The same window of a slice that begins `n` bytes earlier. -/
def shift (n : ℕ) (w : Window) : Window := ⟨n + w.offset, w.size⟩

/-- What a load of the window gives. -/
def word (endian : Endian) (data : Bytes) (w : Window) : ℕ :=
  fromNeBytes endian ((data.drop w.offset).take w.size)

variable {endian : Endian} {data data' : Bytes} {w : Window}

/-- A window of one byte gives that byte. -/
theorem word_byte (i : ℕ) : word endian data ⟨i, 1⟩ = (data.getD i 0).toNat := by
  have hbyte : ∀ b : U8, fromNeBytes endian [b] = b.toNat := by
    intro b
    cases endian <;> simp [fromNeBytes, fromLeBytes]
  unfold word
  by_cases h : i < data.length
  · rw [List.drop_eq_getElem_cons h, List.take_succ_cons, List.take_zero, hbyte,
      List.getD_eq_getElem _ _ h]
  · rw [List.drop_eq_nil_of_le (not_lt.mp h), List.getD_eq_default _ _ (not_lt.mp h)]
    cases endian <;> rfl

/-- A window of what is left after `n` bytes. -/
theorem word_drop (n : ℕ) : word endian (data.drop n) w = word endian data (w.shift n) := by
  rw [word, word, shift, List.drop_drop]

/-- Windows of what is left after `n` bytes. -/
theorem map_word_drop (n : ℕ) (ws : List Window) :
    ws.map (word endian (data.drop n)) = (ws.map (shift n)).map (word endian data) := by
  rw [List.map_map]
  exact List.map_congr_left fun w _ => word_drop n

/-- A window of some bytes gives a number of that size. -/
theorem word_lt (data : Bytes) (w : Window) : word endian data w < 256 ^ w.size := by
  refine (fromNeBytes_lt endian _).trans_le (Nat.pow_le_pow_right (by decide) ?_)
  rw [List.length_take]
  exact min_le_left ..

/-- A word determines the bytes of its window. -/
theorem getElem?_eq_of_word (hlen : data.length = data'.length)
    (h : word endian data w = word endian data' w) {i : ℕ} (hlo : w.offset ≤ i)
    (hhi : i < w.offset + w.size) : data[i]? = data'[i]? := by
  have hbytes : (data.drop w.offset).take w.size = (data'.drop w.offset).take w.size := by
    apply fromNeBytes_inj _ h
    rw [List.length_take, List.length_take, List.length_drop, List.length_drop, hlen]
  have hget := congrArg (fun p : Bytes => p[i - w.offset]?) hbytes
  simpa [List.getElem?_take, List.getElem?_drop, show i - w.offset < w.size by omega,
    Nat.add_sub_cancel' hlo] using hget

end Window

/-- Each index from `lo` up to `hi` is in a window. -/
def Covers (ws : List Window) (lo hi : ℕ) : Prop :=
  ∀ i, lo ≤ i → i < hi → ∃ w ∈ ws, w.offset ≤ i ∧ i < w.offset + w.size

section Covers

variable {ws ws' : List Window} {lo mid hi : ℕ}

/-- More windows cover what fewer do. -/
theorem Covers.mono (h : Covers ws lo hi) (hsub : ∀ w ∈ ws, w ∈ ws') : Covers ws' lo hi := by
  intro i hlo hhi
  obtain ⟨w, hw, hwi⟩ := h i hlo hhi
  exact ⟨w, hsub w hw, hwi⟩

/-- Windows of two stretches that meet. -/
theorem Covers.append {mid' : ℕ} (h : Covers ws lo mid) (h' : Covers ws' mid' hi)
    (hmid : mid' ≤ mid) : Covers (ws ++ ws') lo hi := by
  intro i hlo hhi
  by_cases hi' : i < mid
  · exact (h.mono fun w hw => List.mem_append_left _ hw) i hlo hi'
  · exact (h'.mono fun w hw => List.mem_append_right _ hw) i (by omega) hhi

/-- The order of the windows does not matter. -/
theorem Covers.append_comm (h : Covers (ws ++ ws') lo hi) : Covers (ws' ++ ws) lo hi :=
  h.mono fun _ hw => List.mem_append.mpr (List.mem_append.mp hw).symm

/-- Shifted windows cover the shifted range. -/
theorem Covers.shift (n : ℕ) (h : Covers ws lo hi) :
    Covers (ws.map (Window.shift n)) (n + lo) (n + hi) := by
  intro i hlo hhi
  obtain ⟨w, hw, hwlo, hwhi⟩ := h (i - n) (by omega) (by omega)
  exact ⟨w.shift n, List.mem_map_of_mem hw, by simp only [Window.shift]; omega,
    by simp only [Window.shift]; omega⟩

/-- Slices with the same words in windows that cover them are the same. -/
theorem eq_of_covers {endian : Endian} {data data' : Bytes} (hcovers : Covers ws 0 data.length)
    (hlen : data.length = data'.length)
    (h : ws.map (Window.word endian data) = ws.map (Window.word endian data')) : data = data' := by
  apply List.ext_getElem?
  intro i
  by_cases hi : i < data.length
  · obtain ⟨w, hw, hlo, hhi⟩ := hcovers i (Nat.zero_le i) hi
    exact Window.getElem?_eq_of_word hlen (List.map_inj_left.mp h w hw) hlo hhi
  · rw [List.getElem?_eq_none (not_lt.mp hi), List.getElem?_eq_none (by omega)]

end Covers

end Mekong.Model
