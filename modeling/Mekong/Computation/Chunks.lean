import Mathlib.Data.Nat.Notation
import Mathlib.Tactic.Ring

/-!
# Folding a list by whole chunks

`foldChunks n f s l` feeds the leading chunks of exactly `n` elements of `l` to `f` and
returns the state reached with the elements left over. Cutting the list at a multiple of
`n` cuts the fold at the same place.

`foldPieces` goes on with what is left over. A function that agrees with `foldPieces` on
its own remainder may be applied to a list piece by piece.
-/

set_option autoImplicit false

namespace Mekong.Computation

section Chunks

variable {σ α : Type}

/-- The state after the whole chunks of `l`, and the rest of `l`. -/
def foldChunks (n : ℕ) [NeZero n] (f : σ → List α → σ) (s : σ) (l : List α) : σ × List α :=
  if n ≤ l.length then foldChunks n f (f s (l.take n)) (l.drop n) else (s, l)
termination_by l.length
decreasing_by
  have := Nat.pos_of_neZero n
  simp only [List.length_drop]
  omega

variable {n : ℕ} [NeZero n] {f : σ → List α → σ} {s : σ} {l : List α}

/-- A list shorter than a chunk is the rest. -/
theorem foldChunks_of_lt (h : l.length < n) : foldChunks n f s l = (s, l) := by
  rw [foldChunks, if_neg (by omega)]

/-- The first chunk is folded first. -/
theorem foldChunks_of_le (h : n ≤ l.length) :
    foldChunks n f s l = foldChunks n f (f s (l.take n)) (l.drop n) := by
  rw [foldChunks, if_pos h]

/-- A fold that starts with whole chunks is the fold of what follows them from the state
they lead to. -/
theorem foldChunks_append (k : ℕ) (x y : List α) (hx : x.length = k * n) (s : σ) :
    foldChunks n f s (x ++ y) = foldChunks n f (foldChunks n f s x).1 y := by
  induction k generalizing s x with
  | zero =>
      have hnil : x = [] := List.length_eq_zero_iff.mp (by simpa using hx)
      rw [hnil, List.nil_append, foldChunks_of_lt (l := []) (Nat.pos_of_neZero n)]
  | succ k ih =>
      have hle : n ≤ x.length := by
        rw [hx, Nat.succ_mul]
        exact Nat.le_add_left ..
      have hrest : (x.drop n).length = k * n := by
        rw [List.length_drop, hx, Nat.succ_mul, Nat.add_sub_cancel]
      rw [foldChunks_of_le (by rw [List.length_append]; omega), foldChunks_of_le hle,
        List.take_append_of_le_length hle, List.drop_append_of_le_length hle]
      exact ih (x.drop n) hrest _

/-- Nothing is left over of whole chunks. -/
theorem foldChunks_rest_eq_nil (k : ℕ) (hl : l.length = k * n) (s : σ) :
    (foldChunks n f s l).2 = [] := by
  have h := foldChunks_append (f := f) k l [] hl s
  rw [List.append_nil, foldChunks_of_lt (l := []) (Nat.pos_of_neZero n)] at h
  rw [h]

/-- Fold the whole chunks and give what is left over, if anything is, to `g`. -/
def foldPieces (n : ℕ) [NeZero n] (f g : σ → List α → σ) (s : σ) (l : List α) : σ :=
  let r := foldChunks n f s l
  if r.2 = [] then r.1 else g r.1 r.2

/-- Less than a chunk is all left over. -/
theorem foldPieces_of_lt {g : σ → List α → σ} (h : l.length < n) (hl : l ≠ []) :
    foldPieces n f g s l = g s l := by
  simp only [foldPieces, foldChunks_of_lt h, if_neg hl]

/-- One chunk is folded, and nothing is left over. -/
theorem foldPieces_of_eq {g : σ → List α → σ} (h : l.length = n) :
    foldPieces n f g s l = f s l := by
  have hfold : foldChunks n f s l = (f s l, []) := by
    rw [foldChunks_of_le (by omega), List.take_of_length_le (by omega),
      List.drop_eq_nil_of_le (by omega), foldChunks_of_lt (l := []) (Nat.pos_of_neZero n)]
  simp only [foldPieces, hfold, if_pos]

/-- A function that works piecewise may be applied in pieces that end at chunk boundaries. -/
theorem append_of_foldPieces {g : σ → List α → σ}
    (hg : ∀ s l, l ≠ [] → g s l = foldPieces n f g s l) {x y : List α} (hdvd : n ∣ x.length)
    (hx : x ≠ []) (hy : y ≠ []) (s : σ) :
    g s (x ++ y) = g (g s x) y := by
  obtain ⟨k, hk⟩ := hdvd
  rw [Nat.mul_comm] at hk
  have hchunks : g s x = (foldChunks n f s x).1 := by
    rw [hg s x hx, foldPieces, if_pos (foldChunks_rest_eq_nil k hk s)]
  calc g s (x ++ y)
      = foldPieces n f g s (x ++ y) := hg s _ (List.append_ne_nil_of_left_ne_nil hx y)
    _ = foldPieces n f g (foldChunks n f s x).1 y := by
        simp only [foldPieces, foldChunks_append k x y hk]
    _ = foldPieces n f g (g s x) y := by rw [hchunks]
    _ = g (g s x) y := (hg _ y hy).symm

end Chunks

end Mekong.Computation
