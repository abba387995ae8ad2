import Mekong.Analysis.PiecewiseHashing
import Mekong.Analysis.HashCoverage
import Mekong.Computation.FoldedProduct
import Mathlib.Data.LawfulXor.Basic

/-!
# Inputs that erase the state

The state goes into the hash of an input as one side of a multiplication, and the other
side is a word of the input, xored with a constant or not. An input that makes the other
side zero leaves nothing of the state in the product, and so nothing of the seed and of
what was hashed before.

With at most 8 bytes the other side is a constant. From 9 to 16 bytes it is zero for one
last word. From 17 to 32 bytes there are two products with one state, and they have to
cancel; so they have in the last 32 bytes of every longer input, and 32 bytes with the words
of the table make both zero.

Above 32 bytes a step may also map the states it is left with to one, and no condition on
the last 32 bytes says when. But if they do not cancel, then whatever the other bytes are,
the first words of the chunks of 64 bytes can be chosen so that the state gets through: the
state that equals the second word of a chunk makes its first product zero, the next state
makes it equal to the first word, and so the product takes every value.
-/

set_option autoImplicit false

namespace Mekong.Analysis.StateErased

open Mekong.Computation Mekong.Model Mekong.Program Mekong.Program.LowLevel
open Mekong.Analysis.HashCoverage (quadAfter smallWord combineSmallContiguous_val)

/-! ## `mix` -/

/-- The function tells two states apart. -/
def Varies (f : U64 → U64) : Prop := ∃ s s', f s ≠ f s'

/-- The state cancels out of the two products. -/
def ProductsCancel (left x right y : U64) : Prop :=
  left = right ∧ (x = y ∨ left = 0 ∨ ∃ i, left.toNat = 2 ^ i)

section TwoMixes

variable {left x right y : U64}

end TwoMixes

/-! ## At most 32 bytes -/

/-- The word of eight bytes at `offset`. -/
def wordAt (endian : Endian) (first : Bytes) (offset : ℕ) : U64 :=
  BitVec.ofNat 64 (fromNeBytes endian ((first.drop offset).take 8))

/-- Two states tell the input apart from one that erases the state.
SOURCE: low_level.rs:173-191 -/
def Keeps (t : Target) (first : Bytes) : Prop :=
  ∃ s s', (combineContiguousOn64bit t s first).val ≠ (combineContiguousOn64bit t s' first).val

section Short

variable (endian : Endian) (powerpc64 : Bool) {first : Bytes}

/-- The two sides of the first product that the state is not in, for 17 to 32 bytes. -/
def leftFactor (first : Bytes) : U64 :=
  wordAt endian first 0 ^^^ staticRandomWord 1

/-- The one of the second product. -/
def rightFactor (first : Bytes) : U64 :=
  wordAt endian first (first.length - 16) ^^^ staticRandomWord 3

end Short

/-! ## Words in a row -/

section Words

variable (endian : Endian)

end Words

/-! ## More than 32 bytes -/

section Long

variable (endian : Endian) (powerpc64 : Bool)

/-- The state cancels out of `mix_32_bytes`.
SOURCE: low_level.rs:209-219 -/
def Cancels32 (ptr : Bytes) : Prop :=
  ProductsCancel (wordAt endian ptr 0 ^^^ staticRandomWord 1) (wordAt endian ptr 8)
    (wordAt endian ptr 16 ^^^ staticRandomWord 2) (wordAt endian ptr 24)

/-- The state that the hash of a block starts from. -/
def startState (state : U64) (len : ℕ) : U64 :=
  state ^^^ staticRandomWord 0 ^^^ BitVec.ofNat 64 len

/-- The last 32 bytes. -/
def last32 (first : Bytes) : Bytes := first.drop (first.length - 32)

/-- The inputs agree in the last 32 bytes and outside the first words of the chunks of 64
bytes. -/
structure SameOff (first first' : Bytes) : Prop where
  length : first'.length = first.length
  byte : ∀ i, 8 ≤ i % 64 ∨ first.length ≤ i + 32 → first'[i]? = first[i]?

/-- An input agrees with itself. -/
theorem SameOff.refl (first : Bytes) : SameOff first first := ⟨rfl, fun _ _ => rfl⟩

/-- Two inputs that agree with a third agree. -/
theorem SameOff.trans {x y z : Bytes} (h : SameOff x y) (h' : SameOff y z) : SameOff x z where
  length := h'.length.trans h.length
  byte i hi := (h'.byte i (by rwa [h.length])).trans (h.byte i hi)

/-- What is done to the state after the loop, which leaves the bytes `rest`. -/
def finish (rest last : Bytes) (state : U64) : U64 :=
  let t := Target.portable endian powerpc64
  (mix32Bytes t last (if rest.length > 32 then (mix32Bytes t rest state).val else state)).val

/-- The states that a block starts from are all states. -/
theorem startState_startState (state : U64) (len : ℕ) :
    startState (startState state len) len = state := by
  calc startState (startState state len) len
    _ = state ^^^ (staticRandomWord 0 ^^^ staticRandomWord 0) ^^^
        (BitVec.ofNat 64 len ^^^ BitVec.ofNat 64 len) := by
      rw [startState, startState]
      ac_rfl
    _ = state := by rw [BitVec.xor_self, BitVec.xor_self, BitVec.xor_zero, BitVec.xor_zero]

/-- The start of a block tells states apart. -/
theorem Varies.startState {f : U64 → U64} (h : Varies f) (len : ℕ) :
    Varies fun state => f (StateErased.startState state len) := by
  obtain ⟨s, s', hne⟩ := h
  refine ⟨StateErased.startState s len, StateErased.startState s' len, ?_⟩
  simp only [startState_startState]
  exact hne

end Long

/-! ## Every length -/

/-- Which inputs keep the state, and which erase it. -/
structure StateKept (endian : Endian) (powerpc64 : Bool) : Prop where
  upTo8 : ∀ first : Bytes, first.length ≤ 8 → Keeps (.portable endian powerpc64) first
  from9To15 : ∀ first : Bytes, 9 ≤ first.length → first.length ≤ 15 →
    wordAt endian first (first.length - 8) ≠ kMul → Keeps (.portable endian powerpc64) first
  /-- At 16 bytes the second word may make the other side of the product zero. -/
  of16 : ∀ first : Bytes, first.length = 16 →
    (Keeps (.portable endian powerpc64) first ↔ wordAt endian first 8 ≠ kMul)
  from17To32 : ∀ first : Bytes, 17 ≤ first.length → first.length ≤ 32 →
    (Keeps (.portable endian powerpc64) first ↔
      ¬ ProductsCancel (leftFactor endian first) (wordAt endian first 8)
        (rightFactor endian first) (wordAt endian first (first.length - 8)))
  /-- The last 32 bytes may erase the state. -/
  from33To1024 : ∀ first : Bytes, 32 < first.length → first.length ≤ piecewiseChunkSize →
    Keeps (.portable endian powerpc64) first → ¬ Cancels32 endian (last32 first)
  /-- One input may lose the state although they do not. -/
  notAlone : ∃ first : Bytes, first.length = 64 ∧ ¬ Cancels32 endian first ∧
    ¬ Cancels32 endian (last32 first) ∧ ¬ Keeps (.portable endian powerpc64) first
  /-- But then some of the inputs with the same bytes off the first words of the chunks of
  64 bytes keep it. -/
  firstWords : ∀ first : Bytes, 32 < first.length → first.length ≤ piecewiseChunkSize →
    7 ≤ (first.length - 33) % 64 →
      ((∃ first', SameOff first first' ∧ Keeps (.portable endian powerpc64) first') ↔
        ¬ Cancels32 endian (last32 first))
  /-- Above a chunk, each part may erase it. -/
  parts : ∀ x y : Bytes, piecewiseChunkSize ∣ x.length → x ≠ [] → y ≠ [] →
    Keeps (.portable endian powerpc64) (x ++ y) →
      Keeps (.portable endian powerpc64) x ∧ Keeps (.portable endian powerpc64) y
  /-- If the rest does not, then some chunks before it keep it. -/
  chunks : ∀ (y : Bytes) (k : ℕ), y ≠ [] →
    ((∃ x : Bytes, x.length = piecewiseChunkSize * (k + 1) ∧
      Keeps (.portable endian powerpc64) (x ++ y)) ↔ Keeps (.portable endian powerpc64) y)
  everyLength : ∀ len, 32 < len →
    (∃ first : Bytes, first.length = len ∧ Keeps (.portable endian powerpc64) first) ∧
      ∃ first : Bytes, first.length = len ∧ ¬ Keeps (.portable endian powerpc64) first

end Mekong.Analysis.StateErased
