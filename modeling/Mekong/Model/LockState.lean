import Mekong.Model.Word

/-!
# The state word

`RawMutex` and `ParkingQueue` keep their whole state in one 64-bit word: three flag
bits and a pointer to the newest node of a list of waiting threads. This file holds the
constants and the accessors of `auxiliary.rs` for a 64-bit target, where a node's
address is a multiple of eight and the pointer fills the other 61 bits.

A word is read through four projections: `isLocked` (`QUEUE_CLEAR_BIT` for a
`ParkingQueue`, which gives bit 0 another name), `isQueueLocked`, `isTimeout` and
`queueHead`. Below each read-modify-write the code performs stands what it does to the
four, so that no later proof looks at bits again.
-/

set_option autoImplicit false

namespace Mekong.Model

/-- A `*const ThreadData`. -/
abbrev Ptr := BitVec 64

/-- SOURCE: auxiliary.rs:32 -/
def idle : U64 := 0

/-- SOURCE: auxiliary.rs:33 -/
def lockedBit : U64 := 1

/-- SOURCE: auxiliary.rs:34 -/
def queueLockedBit : U64 := 2

/-- SOURCE: auxiliary.rs:35 -/
def timeoutBit : U64 := 4

/-- SOURCE: auxiliary.rs:36 -/
def queueMask : U64 := ~~~7

/-- SOURCE: auxiliary.rs:461 -/
def queueClearBit : U64 := 1

/-- `ptr::null()`. -/
def null : Ptr := 0

/-- `state & LOCKED_BIT != 0`. -/
def isLocked (w : U64) : Bool := w &&& lockedBit != 0

/-- SOURCE: auxiliary.rs:46-49 -/
def isQueueLocked (w : U64) : Bool := w &&& queueLockedBit != 0

/-- `state & TIMEOUT_BIT != 0`. -/
def isTimeout (w : U64) : Bool := w &&& timeoutBit != 0

/-- `state & QUEUE_CLEAR_BIT != 0`: a `ParkingQueue` reads bit 0 so. -/
def isQueueClear (w : U64) : Bool := w &&& queueClearBit != 0

/-- SOURCE: auxiliary.rs:57-63 -/
def queueHead (w : U64) : Ptr := w &&& queueMask

/-- SOURCE: auxiliary.rs:73-79 -/
def setQueueHead (w : U64) (threadData : Ptr) : U64 := (w &&& ~~~queueMask) ||| threadData

/-- What the address of a `ThreadData` is: not null, and a multiple of eight. -/
structure IsNodeAddr (p : Ptr) : Prop where
  ne_null : p ≠ null
  aligned : p &&& queueMask = p

instance (p : Ptr) : Decidable (IsNodeAddr p) :=
  decidable_of_iff (p ≠ null ∧ p &&& queueMask = p)
    ⟨fun h => ⟨h.1, h.2⟩, fun h => ⟨h.ne_null, h.aligned⟩⟩

/-! ## The projections are bits and a mask -/

/-- `LOCKED_BIT` is bit 0. -/
theorem isLocked_eq (w : U64) : isLocked w = w.getLsbD 0 := by
  unfold isLocked lockedBit
  rw [show (1 : U64) = 1#64 from rfl, BitVec.and_one_eq_setWidth_ofBool_getLsbD]
  cases w.getLsbD 0 <;> rfl

/-- `QUEUE_LOCKED_BIT` is bit 1. -/
theorem isQueueLocked_eq (w : U64) : isQueueLocked w = w.getLsbD 1 := by
  unfold isQueueLocked queueLockedBit
  rw [show (2 : U64) = BitVec.twoPow 64 1 from rfl, BitVec.and_twoPow]
  cases w.getLsbD 1 <;> rfl

/-- `TIMEOUT_BIT` is bit 2. -/
theorem isTimeout_eq (w : U64) : isTimeout w = w.getLsbD 2 := by
  unfold isTimeout timeoutBit
  rw [show (4 : U64) = BitVec.twoPow 64 2 from rfl, BitVec.and_twoPow]
  cases w.getLsbD 2 <;> rfl

/-- Bit 0 under its two names. -/
theorem isQueueClear_eq_isLocked (w : U64) : isQueueClear w = isLocked w := rfl

/-- A word whose three flags and pointer are all clear is `IDLE`.
SOURCE: auxiliary.rs:32-36 -/
theorem eq_idle_of_projections {w : U64} (hl : isLocked w = false)
    (hq : isQueueLocked w = false) (ht : isTimeout w = false) (hh : queueHead w = null) :
    w = idle := by
  rw [isLocked_eq] at hl
  rw [isQueueLocked_eq] at hq
  rw [isTimeout_eq] at ht
  have hbits : ∀ i, (w &&& queueMask).getLsbD i = false := by
    intro i
    rw [show w &&& queueMask = null from hh]
    exact BitVec.getLsbD_zero
  apply BitVec.eq_of_getLsbD_eq
  intro i hi
  rw [show idle.getLsbD i = false from BitVec.getLsbD_zero]
  have hm := hbits i
  rw [BitVec.getLsbD_and] at hm
  match i, hi with
  | 0, _ => exact hl
  | 1, _ => exact hq
  | 2, _ => exact ht
  | i + 3, hi =>
    have hone : queueMask.getLsbD (i + 3) = true := by
      unfold queueMask
      rw [BitVec.getLsbD_not, show (7 : BitVec 64) = 7#64 from rfl, BitVec.getLsbD_ofNat]
      simp [Nat.testBit_succ, hi]
    rw [hone, Bool.and_true] at hm
    exact hm

/-! ## What the flag operations do to the projections -/

@[simp] theorem isLocked_or (v w : U64) : isLocked (v ||| w) = (isLocked v || isLocked w) := by
  simp only [isLocked_eq, BitVec.getLsbD_or]

@[simp] theorem isLocked_and (v w : U64) : isLocked (v &&& w) = (isLocked v && isLocked w) := by
  simp only [isLocked_eq, BitVec.getLsbD_and]

@[simp] theorem isQueueLocked_or (v w : U64) :
    isQueueLocked (v ||| w) = (isQueueLocked v || isQueueLocked w) := by
  simp only [isQueueLocked_eq, BitVec.getLsbD_or]

@[simp] theorem isQueueLocked_and (v w : U64) :
    isQueueLocked (v &&& w) = (isQueueLocked v && isQueueLocked w) := by
  simp only [isQueueLocked_eq, BitVec.getLsbD_and]

@[simp] theorem isTimeout_or (v w : U64) : isTimeout (v ||| w) = (isTimeout v || isTimeout w) := by
  simp only [isTimeout_eq, BitVec.getLsbD_or]

@[simp] theorem isTimeout_and (v w : U64) :
    isTimeout (v &&& w) = (isTimeout v && isTimeout w) := by
  simp only [isTimeout_eq, BitVec.getLsbD_and]

/-- Setting flag bits leaves the pointer. -/
theorem queueHead_or (w : U64) {b : U64} (hb : b &&& queueMask = 0) :
    queueHead (w ||| b) = queueHead w := by
  unfold queueHead
  rw [BitVec.and_comm, BitVec.and_or_distrib_left, BitVec.and_comm queueMask b, hb,
    BitVec.and_comm]
  exact BitVec.or_zero

/-- A mask that keeps every pointer bit leaves the pointer. -/
theorem queueHead_and (w : U64) {m : U64} (hm : m &&& queueMask = queueMask) :
    queueHead (w &&& m) = queueHead w := by
  unfold queueHead
  rw [BitVec.and_assoc, hm]

/-- A mask that keeps no pointer bit clears the pointer. -/
theorem queueHead_and_null (w : U64) {m : U64} (hm : m &&& queueMask = 0) :
    queueHead (w &&& m) = null := by
  unfold queueHead
  rw [BitVec.and_assoc, hm]
  exact BitVec.and_zero

/-- Taking 1 off a word whose bit 0 is set clears the bit and borrows from no other:
`fetch_sub(LOCKED_BIT)` by the owner.
SOURCE: auxiliary.rs:207 -/
theorem sub_lockedBit {w : U64} (h : isLocked w = true) :
    w - lockedBit = w &&& ~~~lockedBit := by
  have hset : w &&& lockedBit = lockedBit := by
    rw [isLocked_eq] at h
    unfold lockedBit
    rw [show (1 : U64) = 1#64 from rfl, BitVec.and_one_eq_setWidth_ofBool_getLsbD, h]
    rfl
  have hsplit : w = (w &&& ~~~lockedBit) ||| lockedBit := by
    calc w = w &&& BitVec.allOnes 64 := by rw [BitVec.and_allOnes]
      _ = w &&& (~~~lockedBit ||| lockedBit) := by rw [show ~~~lockedBit ||| lockedBit =
          BitVec.allOnes 64 by decide]
      _ = (w &&& ~~~lockedBit) ||| lockedBit := by rw [BitVec.and_or_distrib_left, hset]
  have hadd : (w &&& ~~~lockedBit) + lockedBit = (w &&& ~~~lockedBit) ||| lockedBit := by
    apply BitVec.add_eq_or_of_and_eq_zero
    rw [BitVec.and_assoc, BitVec.and_comm (~~~lockedBit), BitVec.and_not_self]
    exact BitVec.and_zero
  rw [← hadd] at hsplit
  calc w - lockedBit = (w &&& ~~~lockedBit) + lockedBit - lockedBit := by rw [← hsplit]
    _ = w &&& ~~~lockedBit := BitVec.add_sub_cancel _ _

@[simp] theorem isQueueClear_or (v w : U64) :
    isQueueClear (v ||| w) = (isQueueClear v || isQueueClear w) := isLocked_or v w

@[simp] theorem isQueueClear_and (v w : U64) :
    isQueueClear (v &&& w) = (isQueueClear v && isQueueClear w) := isLocked_and v w

section Values

/-! The flags of the constants, so that `simp` evaluates a projection of a word written
by one of the masks of the source. -/

@[simp] theorem isLocked_lockedBit : isLocked lockedBit = true := by decide
@[simp] theorem isLocked_queueLockedBit : isLocked queueLockedBit = false := by decide
@[simp] theorem isLocked_timeoutBit : isLocked timeoutBit = false := by decide
@[simp] theorem isLocked_queueMask : isLocked queueMask = false := by decide
@[simp] theorem isQueueLocked_lockedBit : isQueueLocked lockedBit = false := by decide
@[simp] theorem isQueueLocked_queueLockedBit : isQueueLocked queueLockedBit = true := by decide
@[simp] theorem isQueueLocked_timeoutBit : isQueueLocked timeoutBit = false := by decide
@[simp] theorem isQueueLocked_queueMask : isQueueLocked queueMask = false := by decide
@[simp] theorem isTimeout_lockedBit : isTimeout lockedBit = false := by decide
@[simp] theorem isTimeout_queueLockedBit : isTimeout queueLockedBit = false := by decide
@[simp] theorem isTimeout_timeoutBit : isTimeout timeoutBit = true := by decide
@[simp] theorem isTimeout_queueMask : isTimeout queueMask = false := by decide

@[simp] theorem isQueueClear_queueLockedBit : isQueueClear queueLockedBit = false := by decide

@[simp] theorem isLocked_not (w : U64) : isLocked (~~~w) = !isLocked w := by
  simp [isLocked_eq]

@[simp] theorem isQueueClear_not (w : U64) : isQueueClear (~~~w) = !isQueueClear w :=
  isLocked_not w

@[simp] theorem isQueueLocked_not (w : U64) : isQueueLocked (~~~w) = !isQueueLocked w := by
  simp [isQueueLocked_eq]

@[simp] theorem isTimeout_not (w : U64) : isTimeout (~~~w) = !isTimeout w := by
  simp [isTimeout_eq]

@[simp] theorem isLocked_idle : isLocked idle = false := by decide
@[simp] theorem isQueueLocked_idle : isQueueLocked idle = false := by decide
@[simp] theorem isTimeout_idle : isTimeout idle = false := by decide
@[simp] theorem queueHead_idle : queueHead idle = null := by decide
@[simp] theorem queueHead_lockedBit : queueHead lockedBit = null := by decide

@[simp] theorem isQueueClear_queueClearBit : isQueueClear queueClearBit = true := by decide
@[simp] theorem isQueueLocked_queueClearBit : isQueueLocked queueClearBit = false := by decide
@[simp] theorem queueHead_queueClearBit : queueHead queueClearBit = null := by decide

end Values

section Pointers

/-! The pointer after each of the source's read-modify-writes. -/

@[simp] theorem queueHead_or_lockedBit (w : U64) : queueHead (w ||| lockedBit) = queueHead w :=
  queueHead_or w (by decide)

@[simp] theorem queueHead_or_queueLockedBit (w : U64) :
    queueHead (w ||| queueLockedBit) = queueHead w :=
  queueHead_or w (by decide)

@[simp] theorem queueHead_or_timeoutBit (w : U64) :
    queueHead (w ||| timeoutBit) = queueHead w :=
  queueHead_or w (by decide)

@[simp] theorem queueHead_and_not_lockedBit (w : U64) :
    queueHead (w &&& ~~~lockedBit) = queueHead w :=
  queueHead_and w (by decide)

@[simp] theorem queueHead_and_not_locked_timeout (w : U64) :
    queueHead (w &&& ~~~(lockedBit ||| timeoutBit)) = queueHead w :=
  queueHead_and w (by decide)

@[simp] theorem queueHead_and_not_queueLockedBit (w : U64) :
    queueHead (w &&& ~~~queueLockedBit) = queueHead w :=
  queueHead_and w (by decide)

@[simp] theorem queueHead_and_not_queueLocked_timeout (w : U64) :
    queueHead (w &&& ~~~(queueLockedBit ||| timeoutBit)) = queueHead w :=
  queueHead_and w (by decide)

@[simp] theorem queueHead_and_not_queueClearBit (w : U64) :
    queueHead (w &&& ~~~queueClearBit) = queueHead w :=
  queueHead_and w (by decide)

@[simp] theorem queueHead_and_queueMask (w : U64) : queueHead (w &&& queueMask) = queueHead w :=
  queueHead_and w (by decide)

@[simp] theorem queueHead_and_lockedBit (w : U64) : queueHead (w &&& lockedBit) = null :=
  queueHead_and_null w (by decide)

@[simp] theorem queueHead_and_locked_timeout (w : U64) :
    queueHead (w &&& (lockedBit ||| timeoutBit)) = null :=
  queueHead_and_null w (by decide)

variable {p : Ptr}

/-- A node's address has no flag bits. -/
theorem IsNodeAddr.flags (hp : p &&& queueMask = p) :
    isLocked p = false ∧ isQueueLocked p = false ∧ isTimeout p = false := by
  rw [← hp]
  simp

/-- The pointer read back from a word is the pointer written, and the flags stay. -/
theorem setQueueHead_projections (w : U64) (hp : p &&& queueMask = p) :
    queueHead (setQueueHead w p) = p ∧ isLocked (setQueueHead w p) = isLocked w ∧
      isQueueLocked (setQueueHead w p) = isQueueLocked w ∧
      isTimeout (setQueueHead w p) = isTimeout w := by
  obtain ⟨hl, hq, ht⟩ := IsNodeAddr.flags hp
  refine ⟨?_, by simp [setQueueHead, hl], by simp [setQueueHead, hq], by simp [setQueueHead, ht]⟩
  unfold setQueueHead queueHead
  rw [BitVec.and_comm, BitVec.and_or_distrib_left, BitVec.and_comm queueMask p, hp,
    BitVec.and_comm queueMask, BitVec.and_assoc, BitVec.and_comm (~~~queueMask),
    BitVec.and_not_self]
  rw [show w &&& 0 = 0 from BitVec.and_zero]
  exact BitVec.zero_or

end Pointers

end Mekong.Model
