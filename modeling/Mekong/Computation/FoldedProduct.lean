import Mathlib.Data.Nat.Bitwise
import Mathlib.Data.Nat.Factorization.Basic
import Mathlib.Tactic.Ring
import Mathlib.Tactic.Linarith

/-!
# Folding the halves of a product

Multiplicative hash functions multiply two words to a double word and combine its halves
by an exclusive or. The fold of a product is zero where a factor is, so that a zero factor
hides the other one. Where two folds of one word are combined, the word is hidden only if
the folds cancel: `cancels_iff` says when they do.

The word of ones and the words with all bits set above some place are the ones to look at.
The first shows that no carry joins the halves of a product with the shift `d`, and the
others compare the two multipliers. A common factor of two does not matter, so that one
multiplier may be taken to be odd.
-/

set_option autoImplicit false

namespace Mekong.Computation

namespace FoldedProduct

/-! ## Exclusive or and arithmetic -/

section Xor

variable {n w : ℕ}

end Xor

/-! ## The fold -/

/-- The halves of the product of two words of `w` bits, folded by an exclusive or. -/
def fold (w a x : ℕ) : ℕ := a * x % 2 ^ w ^^^ a * x / 2 ^ w

section Fold

variable {w a c d x h l : ℕ}

end Fold

/-! ## Folds of one word that cancel -/

/-- The folds of a word by `a` and of its exclusive or with `d` by `c` differ by a constant. -/
def Cancels (w a c d : ℕ) : Prop :=
  ∃ k, ∀ s < 2 ^ w, fold w a s ^^^ fold w c (s ^^^ d) = k

section Cancels

variable {w a c d h l : ℕ}

/-- The two factors may be exchanged. -/
theorem Cancels.symm (hcancel : Cancels w a c d) (hd : d < 2 ^ w) : Cancels w c a d := by
  obtain ⟨k, hk⟩ := hcancel
  refine ⟨k, fun s hs => ?_⟩
  have hs' := hk (s ^^^ d) (Nat.xor_lt_two_pow hs hd)
  rwa [Nat.xor_xor_cancel_right, Nat.xor_comm] at hs'

end Cancels

/-! ## Every multiplier -/

section Even

variable {w a c d x y : ℕ}

end Even

end FoldedProduct

end Mekong.Computation
