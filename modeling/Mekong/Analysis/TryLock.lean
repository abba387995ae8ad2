import Mekong.Analysis.Residue

/-!
# What `try_lock` and `is_locked` answer

Both go through one compare-exchange from `IDLE`, so they answer for the whole word: they
take a lock with waiters, or with a queue that another thread is working on, for a lock
that is held. They are right about the lock exactly while it is held or the queue is empty
and unlocked.
-/

set_option autoImplicit false

namespace Mekong.Analysis.RawMutex

open Mekong.Computation Mekong.Model Mekong.Program.RawMutex

variable {τ : Type} [DecidableEq τ] {s : State τ} {t : τ} {m : Mem τ} {log : List (Event τ)}

/-- `t` runs alone from a place until its call returns, for at most `n` steps in which no
compare-exchange fails spuriously. -/
def alone (t : τ) : ℕ → Mem τ → Pc → Option (Mem τ × List (Event τ))
  | _, m, .outside | _, m, .held => some (m, [])
  | 0, _, _ => none
  | n + 1, m, pc => (threadStep t {} m pc).bind fun r =>
    (alone t n r.1 r.2.1).map fun r' => (r'.1, r.2.2 ++ r'.2)

/-- A call of `try_lock` by `t`, alone: its answer, and the memory after it. -/
def tryLockAlone (t : τ) (m : Mem τ) : Option (Bool × Mem τ) :=
  (alone t 1 m .tryLock).map fun r => (decide (.acquired t ∈ r.2), r.1)

/-- A call of `is_locked` by `t`, alone. -/
def isLockedAlone (t : τ) (m : Mem τ) : Option (Bool × Mem τ) :=
  (alone t 2 m .isLocked).map fun r => (decide (.acquired t ∉ r.2), r.1)

/-- Both answer for `LOCKED_BIT`, and `is_locked` leaves it as it is. -/
def AnswersForLock (t : τ) (m : Mem τ) : Prop :=
  (∃ m', tryLockAlone t m = some (!isLocked m.word, m')) ∧
    ∃ m', isLockedAlone t m = some (isLocked m.word, m') ∧ isLocked m'.word = isLocked m.word

/-- Alone on an idle word, `try_lock` succeeds and `is_locked` gives the lock back. -/
theorem alone_idle (hw : m.word = idle) :
    tryLockAlone t m = some (true, m.store lockedBit) ∧
      isLockedAlone t m = some (false, (m.store lockedBit).store (lockedBit - lockedBit)) := by
  constructor
  · simp [tryLockAlone, alone, threadStep, compareExchangeWeak, hw]
  · have hhead : queueHead lockedBit = null := by decide
    simp [isLockedAlone, alone, threadStep, compareExchangeWeak, hw, hhead]

/-- Alone on another word, both leave it as it is. -/
theorem alone_not_idle (hw : m.word ≠ idle) :
    tryLockAlone t m = some (false, m) ∧ isLockedAlone t m = some (true, m) := by
  constructor
  · simp [tryLockAlone, alone, threadStep, compareExchangeWeak, hw]
  · simp [isLockedAlone, alone, threadStep, compareExchangeWeak, hw]

/-- **`try_lock` and `is_locked` answer for the word.** In every reachable state they answer
for the lock exactly when it is held, or the queue is empty and unlocked. -/
theorem try_lock_answers (run : Runs (machine τ) s log) (t : τ) :
    AnswersForLock t s.mem ↔ isLocked s.mem.word = true ∨
      queueHead s.mem.word = null ∧ isQueueLocked s.mem.word = false := by
  obtain ⟨g, h⟩ := exec_inv run
  have hidle : s.mem.word = idle ↔ isLocked s.mem.word = false ∧
      queueHead s.mem.word = null ∧ isQueueLocked s.mem.word = false := by
    constructor
    · intro hw
      rw [hw]
      exact ⟨isLocked_idle, queueHead_idle, isQueueLocked_idle⟩
    · rintro ⟨hfree, hhead, hunlocked⟩
      refine eq_idle_of_projections hfree hunlocked (h.not_timeout ?_) hhead
      exact Option.not_isSome_iff_eq_none.mp (by rw [← h.locked, hfree]; decide)
  by_cases hw : s.mem.word = idle
  · obtain ⟨htry, his⟩ := alone_idle (t := t) hw
    have hfree := (hidle.mp hw).1
    refine iff_of_true ⟨⟨s.mem.store lockedBit, ?_⟩,
      (s.mem.store lockedBit).store (lockedBit - lockedBit), ?_, ?_⟩ (.inr (hidle.mp hw).2)
    · rw [htry, hfree]
      rfl
    · rw [his, hfree]
    · rw [hfree, Mem.store_word]
      decide
  · obtain ⟨htry, his⟩ := alone_not_idle (t := t) hw
    rw [AnswersForLock, htry, his]
    cases hlocked : isLocked s.mem.word with
    | true => exact iff_of_true ⟨⟨_, rfl⟩, _, rfl, hlocked⟩ (.inl rfl)
    | false =>
      refine iff_of_false ?_ ?_
      · rintro ⟨⟨m', h'⟩, -⟩
        cases h'
      · rintro (h' | h')
        · cases h'
        · exact hw (hidle.mpr ⟨hlocked, h'⟩)

/-- While a thread waits for the lock that another one holds, both answer for the lock. -/
theorem try_lock_answers_held : ∃ s : State Bool, isLocked s.mem.word = true ∧
    queueHead s.mem.word ≠ null ∧ AnswersForLock false s.mem := by
  obtain ⟨s, log, run, hend⟩ := exists_runs_of_run (machine Bool) rfl
    (steps false 2 ++ steps true 13 ++ [(true, { addr := 8 })] ++ steps true 4)
    (fun s _ => isLocked s.mem.word && decide (queueHead s.mem.word ≠ null)) (by decide +kernel)
  simp only [Bool.and_eq_true, decide_eq_true_eq] at hend
  exact ⟨s, hend.1, hend.2, (try_lock_answers run false).mpr (.inl hend.1)⟩

/-- Just after the lock was released with a thread in the queue, nobody owns it and neither
answers so. -/
theorem try_lock_answers_fails : ∃ (s : State (Fin 3)) (log : List (Event (Fin 3))),
    Runs (machine (Fin 3)) s log ∧ isLocked s.mem.word = false ∧ s.pc 2 = .outside ∧
      tryLockAlone 2 s.mem = some (false, s.mem) ∧ isLockedAlone 2 s.mem = some (true, s.mem) := by
  obtain ⟨s, log, run, hend⟩ := exists_runs_of_run (machine (Fin 3)) rfl
    (steps 0 2 ++ steps 1 13 ++ [(1, { addr := 8 })] ++ steps 1 4 ++
      [(0, { op := .unlock })] ++ steps 0 1)
    (fun s _ => decide (isLocked s.mem.word = false) && decide (s.pc 2 = .outside) &&
      decide (s.mem.word ≠ idle)) (by decide +kernel)
  simp only [Bool.and_eq_true, decide_eq_true_eq] at hend
  obtain ⟨htry, his⟩ := alone_not_idle (t := (2 : Fin 3)) hend.2
  exact ⟨s, log, run, hend.1.1, hend.1.2, htry, his⟩

end Mekong.Analysis.RawMutex
