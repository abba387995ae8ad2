import Mathlib.Data.BitVec
import Mathlib.Data.Fintype.EquivFin
import Mathlib.Algebra.Group.Units.Basic
import Mathlib.Algebra.Group.Equiv.Basic

/-!
# Operations on words that lose nothing

Adding a word, multiplying by a unit, an exclusive or with a word, a rotation and the
exclusive or with a proper shift of itself are bijections on the words of any width, and
so is every composition of them. Hash functions are built from such steps.

A chain of steps that are bijections in the carried word and injective in the word they
take in tells apart two lists of words that differ in one place.
-/

set_option autoImplicit false

namespace Mekong.Computation

namespace WordBijections

variable {w : ℕ}

/-- Words are finite. -/
theorem bijective_of_injective {f : BitVec w → BitVec w} (h : Function.Injective f) :
    Function.Bijective f := by
  have hfinite : Finite (BitVec w) := Finite.of_equiv _ BitVec.equivFin.symm.toEquiv
  exact Finite.injective_iff_bijective.mp h

/-- Addition of a constant on the right is a bijection. -/
theorem add_const (c : BitVec w) : Function.Bijective fun x => x + c :=
  (Equiv.addRight c).bijective

/-- Addition of a constant on the left is a bijection. -/
theorem const_add (c : BitVec w) : Function.Bijective fun x => c + x :=
  (Equiv.addLeft c).bijective

/-- Multiplication by a unit is a bijection. -/
theorem mul_const {c d : BitVec w} (h : c * d = 1) : Function.Bijective fun x => x * c := by
  have hunit : IsUnit c := IsUnit.of_mul_eq_one d h
  exact IsUnit.isUnit_iff_mulRight_bijective.mp hunit

/-- An exclusive or with a constant on the right is a bijection. -/
theorem xor_const (c : BitVec w) : Function.Bijective fun x => x ^^^ c := by
  have hinv : Function.Involutive fun x : BitVec w => x ^^^ c := by
    intro x
    simp only [BitVec.xor_assoc, BitVec.xor_self, BitVec.xor_zero]
  exact hinv.bijective

/-- An exclusive or with a constant on the left is a bijection. -/
theorem const_xor (c : BitVec w) : Function.Bijective fun x => c ^^^ x := by
  simp only [BitVec.xor_comm c]
  exact xor_const c

/-- A rotation is a bijection. -/
theorem rotateRight_const (k : ℕ) : Function.Bijective fun x : BitVec w => x.rotateRight k := by
  apply bijective_of_injective
  intro x y h
  refine BitVec.eq_of_getLsbD_eq fun i hi => ?_
  -- bit i goes to the place that is read from it
  have hbit : ∀ z : BitVec w, z.getLsbD i = (z.rotateRight k).getLsbD ((i + (w - k % w)) % w) := by
    intro z
    have hk : k % w < w := Nat.mod_lt _ (by omega)
    rw [BitVec.getLsbD_rotateRight]
    by_cases hlt : i < k % w
    · rw [Nat.mod_eq_of_lt (by omega)]
      simp only [show ¬ i + (w - k % w) < w - k % w by omega, cond_false, Nat.add_sub_cancel,
        show i + (w - k % w) < w by omega, decide_true, Bool.true_and, decide_false]
    · have hmod : (i + (w - k % w)) % w = i - k % w := by
        rw [show i + (w - k % w) = (i - k % w) + w by omega, Nat.add_mod_right,
          Nat.mod_eq_of_lt (by omega)]
      rw [hmod]
      simp only [show i - k % w < w - k % w by omega, decide_true, cond_true,
        show k % w + (i - k % w) = i by omega]
  rw [hbit x, hbit y]
  exact congrArg (fun z : BitVec w => z.getLsbD ((i + (w - k % w)) % w)) h

/-- Each bit is recovered from the bits above it. -/
theorem xor_ushiftRight {k : ℕ} (hk : 0 < k) : Function.Bijective fun x : BitVec w => x ^^^ x >>> k := by
  apply bijective_of_injective
  intro x y h
  have hbits : ∀ n i, w ≤ i + n → x.getLsbD i = y.getLsbD i := by
    intro n
    induction n with
    | zero =>
      intro i hi
      have hge : w ≤ i := hi
      rw [BitVec.getLsbD_of_ge _ _ hge, BitVec.getLsbD_of_ge _ _ hge]
    | succ n ih =>
      intro i hi
      have hbit := congrArg (fun z : BitVec w => z.getLsbD i) h
      simp only [BitVec.getLsbD_xor, BitVec.getLsbD_ushiftRight, ih (k + i) (by omega)] at hbit
      exact (Bool.xor_left_inj).mp hbit
  exact BitVec.eq_of_getLsbD_eq fun i _ => hbits w i (by omega)

end WordBijections

/-! ## Chains -/

section Chains

variable {α β γ : Type}

/-- The lists are alike but for one place. -/
def DifferInOne (l l' : List α) : Prop :=
  ∃ p x y s, l = p ++ x :: s ∧ l' = p ++ y :: s ∧ x ≠ y

/-- Such lists differ. -/
theorem DifferInOne.ne {l l' : List α} (h : DifferInOne l l') : l ≠ l' := by
  obtain ⟨p, x, y, s, rfl, rfl, hne⟩ := h
  intro heq
  exact hne (List.cons.inj (List.append_cancel_left heq)).1

/-- A map that tells the elements apart keeps the difference. -/
theorem DifferInOne.map {l l' : List α} (h : DifferInOne l l') {f : α → β}
    (hf : ∀ x ∈ l, ∀ y ∈ l', f x = f y → x = y) : DifferInOne (l.map f) (l'.map f) := by
  obtain ⟨p, x, y, s, rfl, rfl, hne⟩ := h
  refine ⟨p.map f, f x, f y, s.map f, ?_, ?_, ?_⟩
  · rw [List.map_append, List.map_cons]
  · rw [List.map_append, List.map_cons]
  · intro heq
    exact hne (hf x (by simp) y (by simp) heq)

/-- A zip that tells the elements apart keeps the difference. -/
theorem DifferInOne.zipWith {l l' : List α} (h : DifferInOne l l') {g : γ → α → β}
    (hg : ∀ c, Function.Injective (g c)) (cs : List γ) (hlen : l.length ≤ cs.length) :
    DifferInOne (List.zipWith g cs l) (List.zipWith g cs l') := by
  obtain ⟨p, x, y, s, rfl, rfl, hne⟩ := h
  rw [List.length_append, List.length_cons] at hlen
  have hlt : p.length < cs.length := by omega
  have htake : (cs.take p.length).length = p.length := by
    rw [List.length_take]
    omega
  have hsplit : cs = cs.take p.length ++ cs[p.length] :: cs.drop (p.length + 1) := by
    rw [← List.drop_eq_getElem_cons hlt, List.take_append_drop]
  refine ⟨List.zipWith g (cs.take p.length) p, g cs[p.length] x, g cs[p.length] y,
    List.zipWith g (cs.drop (p.length + 1)) s, ?_, ?_, fun heq => hne (hg _ heq)⟩
  · conv_lhs => rw [hsplit, List.zipWith_append htake, List.zipWith_cons_cons]
  · conv_lhs => rw [hsplit, List.zipWith_append htake, List.zipWith_cons_cons]

/-- A chain of steps that lose neither the carried value nor the value they take in. -/
theorem foldl_ne_of_differInOne {f : β → α → β} (hcarry : ∀ a, Function.Injective fun b => f b a)
    (htake : ∀ b, Function.Injective (f b)) {l l' : List α} (h : DifferInOne l l') (b : β) :
    l.foldl f b ≠ l'.foldl f b := by
  have htail : ∀ (s : List α) (c d : β), c ≠ d → s.foldl f c ≠ s.foldl f d := by
    intro s
    induction s with
    | nil =>
      intro c d hne
      exact hne
    | cons a s ih =>
      intro c d hne
      exact ih _ _ fun heq => hne (hcarry a heq)
  obtain ⟨p, x, y, s, rfl, rfl, hne⟩ := h
  rw [List.foldl_append, List.foldl_append, List.foldl_cons, List.foldl_cons]
  exact htail s _ _ fun heq => hne (htake _ heq)

end Chains

end Mekong.Computation
