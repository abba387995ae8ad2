import Mekong.Analysis.RawMutexRuns

/-!
# What a thread's place says about its own events

`Phase` is where a thread is between acquiring the lock and losing it, coarsely enough
that every change of phase is reported by an event. `Control` is the inversion of a step:
which events a place can report and to which phase it leads. It needs no invariant, and
the accounts of the calls of a thread in a log are all read off it.
-/

set_option autoImplicit false

namespace Mekong.Analysis.RawMutex

open Mekong.Computation Mekong.Model Mekong.Program.RawMutex

/-- A thread between acquiring the lock and losing it. -/
inductive Phase
  /-- Without the lock, in or outside an operation. -/
  | free
  /-- Outside the operations, with the lock. -/
  | held
  /-- In `unlock` or `unlock_fair`, before the lock is released or a waiter is chosen. -/
  | unlocking
  /-- In `unlock_slow_fair`, before a node is removed. -/
  | slowFair
  /-- In `unlock_slow_fair`, with the node `p` removed. -/
  | removed (p : Ptr)
  /-- In `unlock_slow_fair`, with `TOKEN_HANDOFF` stored in the removed node `p`. -/
  | handed (p : Ptr)
  deriving DecidableEq

/-- The phase of a place. -/
def phase : Pc → Phase
  | .held => .held
  | .unlock | .unlockFair | .markTimeout | .clearBits _ => .unlocking
  | .setHandoff p => .removed p
  | .unpark .fair p => .handed p
  | pc => if inSlowFair pc = true then .slowFair else .free

/-- What a step of `t` from `pc` can report, and the phase it leads to. -/
inductive Control {τ : Type} (t : τ) (pc : Pc) : List (Event τ) → Pc → Prop
  | quiet {pc' : Pc} (h : phase pc' = phase pc) : Control t pc [] pc'
  | called {op : Op} {pc' : Pc} (hop : op = .lock ∨ op = .tryLock ∨ op = .isLocked)
      (h : phase pc = .free) (h' : phase pc' = .free) : Control t pc [.called t op] pc'
  | acquired {pc' : Pc} (h : phase pc = .free) (h' : phase pc' = .held) :
      Control t pc [.acquired t] pc'
  | probed {pc' : Pc} (h : phase pc = .free) (h' : phase pc' = .unlocking) :
      Control t pc [.acquired t, .called t .unlock] pc'
  | dropped {op : Op} {pc' : Pc} (hop : op = .unlock ∨ op = .unlockFair) (h : phase pc = .held)
      (h' : phase pc' = .unlocking) : Control t pc [.called t op] pc'
  | released {site : ReleaseSite} {w : U64} {pc' : Pc} (hs : site ≠ .unlockSlowFair)
      (h : phase pc = .unlocking) (h' : phase pc' = .free) :
      Control t pc [.released t site w] pc'
  | enteredSlowFair {pc' : Pc} (h : phase pc = .unlocking) (h' : phase pc' = .slowFair) :
      Control t pc [.enteredSlowFair t] pc'
  | releasedFair {w : U64} {pc' : Pc} (hpc : pc = .fairRelease) (h' : phase pc' = .free) :
      Control t pc [.released t .unlockSlowFair w, .leftSlowFair t] pc'
  | pushed {p : Ptr} {pc' : Pc} (h : phase pc = .free) (h' : phase pc' = .free) :
      Control t pc [.pushed t p] pc'
  | removedPlain {p : Ptr} {w : U64} {pc' : Pc} (h : phase pc = .free) (h' : phase pc' = .free) :
      Control t pc [.removed t .plain p w] pc'
  | removedFair {p : Ptr} {w : U64} {pc' : Pc} (h : phase pc = .slowFair)
      (h' : phase pc' = .removed p) : Control t pc [.removed t .fair p w] pc'
  | handedOff {p : Ptr} {pc' : Pc} (h : phase pc = .removed p) (h' : phase pc' = .handed p) :
      Control t pc [.handedOff t p] pc'
  | unparkedPlain {p : Ptr} {pc' : Pc} (h : phase pc = .free) (h' : phase pc' = .free) :
      Control t pc [.unparked t .plain p] pc'
  | unparkedFair {p : Ptr} {pc' : Pc} (h : phase pc = .handed p) (h' : phase pc' = .free) :
      Control t pc [.unparked t .fair p, .leftSlowFair t] pc'

/-! ## The phases of the computed places -/

@[simp] theorem phase_lockSlow (counter : ℕ) (state : U64) : phase (lockSlow counter state) = .free := by
  unfold lockSlow
  split
  · rfl
  · split <;> rfl

@[simp] theorem phase_unlockSlow (state : U64) : phase (unlockSlow state) = .free := by
  unfold unlockSlow
  split <;> rfl

@[simp] theorem phase_unlockSlowFair (counter : ℕ) (state : U64) :
    phase (unlockSlowFair counter state) = .slowFair := by
  unfold unlockSlowFair
  split <;> rfl

@[simp] theorem phase_afterRelease (w : U64) :
    phase (if isQueueLocked w = true ∨ queueHead w = null then .outside else .slowLoad) = .free := by
  split <;> rfl

/-- What follows the mark of the head is still the removal. -/
theorem phase_afterMark (mode : Mode) (state : U64) (queueTail : Ptr) :
    phase (afterMark mode state queueTail) = phase (.markHead mode state queueTail) := by
  unfold afterMark
  split
  · rename_i h
    rw [h.1]
    rfl
  · rfl

/-- A failed removal is tried again. -/
theorem phase_retryRemove (mode : Mode) (state state' : U64) (queueTail : Ptr) :
    phase (retryRemove mode state' queueTail) = phase (.removeLast mode state queueTail) := by
  unfold retryRemove
  split <;> rfl

section

variable {τ : Type} {t : τ} {c : Choice} {m m' : Mem τ} {pc pc' : Pc} {es : List (Event τ)}

/-- The inversion of a step. -/
theorem step_control (hr : threadStep t c m pc = some (m', pc', es)) : Control t pc es pc' := by
  cases pc with
  | outside =>
    simp only [threadStep] at hr
    split at hr <;> cases hr <;> exact .called (by simp) rfl rfl
  | held =>
    simp only [threadStep] at hr
    split at hr <;> cases hr <;> exact .dropped (by simp) rfl rfl
  | tryLock =>
    simp only [threadStep] at hr
    split at hr <;> cases hr
    · exact .acquired rfl rfl
    · exact .quiet rfl
  | isLocked =>
    simp only [threadStep] at hr
    split at hr <;> cases hr
    · exact .probed rfl rfl
    · exact .quiet rfl
  | lock =>
    simp only [threadStep] at hr
    split at hr <;> cases hr
    · exact .acquired rfl rfl
    · exact .quiet rfl
  | load counter =>
    simp only [threadStep] at hr
    cases hr
    exact .quiet (phase_lockSlow _ _)
  | grab counter state =>
    simp only [threadStep] at hr
    split at hr <;> cases hr
    · exact .acquired rfl rfl
    · exact .quiet (phase_lockSlow _ _)
  | withThreadData counter state =>
    simp only [threadStep] at hr
    split at hr <;> cases hr
    exact .quiet rfl
  | setToken counter state p =>
    simp only [threadStep] at hr
    cases hr
    exact .quiet rfl
  | setTail counter state p =>
    simp only [threadStep] at hr
    cases hr
    exact .quiet rfl
  | setPrev counter state p =>
    simp only [threadStep] at hr
    cases hr
    split <;> exact .quiet rfl
  | setNext counter state p =>
    simp only [threadStep] at hr
    cases hr
    exact .quiet rfl
  | push counter state p =>
    simp only [threadStep] at hr
    split at hr <;> cases hr
    · exact .pushed rfl rfl
    · exact .quiet (phase_lockSlow _ _)
  | park p =>
    simp only [threadStep] at hr
    split at hr <;> cases hr
    exact .quiet rfl
  | readToken p =>
    simp only [threadStep] at hr
    split at hr <;> cases hr
    · exact .acquired rfl rfl
    · exact .quiet rfl
  | unlock =>
    simp only [threadStep] at hr
    cases hr
    exact .released (by simp) rfl (phase_afterRelease _)
  | unlockFair =>
    simp only [threadStep] at hr
    cases hr
    split <;> exact .quiet rfl
  | markTimeout =>
    simp only [threadStep] at hr
    split at hr <;> cases hr
    · exact .enteredSlowFair rfl rfl
    · exact .quiet rfl
  | clearBits bit =>
    simp only [threadStep] at hr
    cases hr
    exact .released (by simp) rfl (phase_afterRelease _)
  | slowLoad =>
    simp only [threadStep] at hr
    cases hr
    exact .quiet (phase_unlockSlow _)
  | slowLock state =>
    simp only [threadStep] at hr
    split at hr <;> cases hr
    · exact .quiet rfl
    · exact .quiet (phase_unlockSlow _)
  | fairLoad counter =>
    simp only [threadStep] at hr
    cases hr
    exact .quiet (phase_unlockSlowFair _ _)
  | fairLock counter state =>
    simp only [threadStep] at hr
    split at hr <;> cases hr
    · split <;> exact .quiet rfl
    · exact .quiet (phase_unlockSlowFair _ _)
  | fairRelease =>
    simp only [threadStep] at hr
    cases hr
    exact .releasedFair rfl rfl
  | scanTail mode state current =>
    simp only [threadStep] at hr
    split at hr <;> cases hr <;> exact .quiet rfl
  | scanNext mode state current =>
    simp only [threadStep] at hr
    cases hr
    exact .quiet rfl
  | scanPrev mode state current next =>
    simp only [threadStep] at hr
    cases hr
    exact .quiet rfl
  | markHead mode state queueTail =>
    simp only [threadStep] at hr
    cases hr
    exact .quiet (phase_afterMark _ _ _)
  | giveUp state =>
    simp only [threadStep] at hr
    split at hr <;> cases hr <;> exact .quiet rfl
  | readPrev mode state queueTail =>
    simp only [threadStep] at hr
    split at hr <;> cases hr <;> exact .quiet rfl
  | removeLast mode state queueTail =>
    simp only [threadStep] at hr
    split at hr <;> cases hr
    · cases mode
      · exact .removedPlain rfl rfl
      · exact .removedFair rfl rfl
    · exact .quiet (phase_retryRemove _ _ _ _)
  | setNewTail mode state queueTail newTail =>
    simp only [threadStep] at hr
    cases hr
    exact .quiet rfl
  | unlockQueue mode queueTail =>
    simp only [threadStep] at hr
    cases hr
    cases mode
    · exact .removedPlain rfl rfl
    · exact .removedFair rfl rfl
  | setHandoff p =>
    simp only [threadStep] at hr
    cases hr
    exact .handedOff rfl rfl
  | unpark mode p =>
    simp only [threadStep] at hr
    cases hr
    cases mode
    · exact .unparkedPlain rfl rfl
    · exact .unparkedFair rfl rfl

end

end Mekong.Analysis.RawMutex
