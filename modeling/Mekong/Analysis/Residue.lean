import Mekong.Analysis.RawMutexRuns

/-!
# An idle mutex leaves no residue

Between the operations of all threads, with the lock free, the state word is `IDLE`:
each bit and the pointer of the word are accounted for by a thread or a node, and an
idle mutex has neither. `TIMEOUT_BIT` is the owner's mark inside `unlock_fair`.
-/

set_option autoImplicit false

namespace Mekong.Analysis.RawMutex

open Mekong.Computation Mekong.Model Mekong.Program.RawMutex

variable {τ : Type} [DecidableEq τ] {s : State τ} {g : Ghost τ} {log : List (Event τ)}

/-- The mark is set inside `unlock_fair`. -/
theorem marked_inUnlockFair {pc : Pc} (h : marked pc = true) : inUnlockFair pc = true := by
  cases pc <;> first | rfl | exact h

/-- A thread inside `unlock_fair` has the lock. -/
theorem inUnlockFair_ownsLock {pc : Pc} (h : inUnlockFair pc = true) : ownsLock pc = true := by
  cases pc <;> first | rfl | exact h

omit [DecidableEq τ] in
/-- With every thread outside and nobody holding the lock, the word is `IDLE`. -/
theorem Inv.word_idle (h : Inv s g) (hout : ∀ t, s.pc t = .outside) : s.mem.word = idle := by
  have howner : g.owner = none := by
    cases ho : g.owner with
    | none => rfl
    | some t =>
      have hown := (h.owner t).mpr ho
      rw [hout t] at hown
      cases hown
  have hholder : g.holder = none := by
    cases hh : g.holder with
    | none => rfl
    | some t =>
      have hhold := (h.holder t).mpr hh
      rw [hout t] at hhold
      cases hhold
  have hqueue : g.queue = [] := by
    refine List.eq_nil_iff_forall_not_mem.mpr fun p hp => ?_
    obtain ⟨u, hu, -⟩ := h.parked hp
    rw [hout u] at hu
    cases hu
  refine eq_idle_of_projections ?_ ?_ (h.not_timeout howner) (h.head_null_iff.mpr hqueue)
  · rw [h.locked, howner]
    rfl
  · rw [h.queueLocked, hholder]
    rfl

/-- A call of `lock` or `try_lock` whose compare-exchange does not fail spuriously takes
the fast path of an idle mutex. -/
theorem fastPath {t : τ} {op : Op} (hop : op = .lock ∨ op = .tryLock) (hpc : s.pc t = .outside)
    (hw : s.mem.word = idle) :
    ∃ s', (machine τ).run (fun _ _ _ => true) [(t, { op := op }), (t, {})] s log =
      some (s', log ++ [.called t op] ++ [.acquired t]) ∧ s'.pc t = .held := by
  rcases hop with rfl | rfl <;>
    simp [Machine.run, machine, hpc, threadStep, compareExchangeWeak, hw]

/-- **No residue.** In every reachable state in which no thread holds the lock and none is
inside an operation, the word is `IDLE` and the fast paths work; and `TIMEOUT_BIT` is set
only while the owner is inside `unlock_fair`. -/
theorem no_residue (run : Runs (machine τ) s log) :
    ((∀ t, s.pc t = .outside) → s.mem.word = idle ∧
      ∀ t op, op = .lock ∨ op = .tryLock →
        ∃ s', (machine τ).run (fun _ _ _ => true) [(t, { op := op }), (t, {})] s log =
          some (s', log ++ [.called t op] ++ [.acquired t]) ∧ s'.pc t = .held) ∧
      (isTimeout s.mem.word = true →
        ∃ t, ownsLock (s.pc t) = true ∧ inUnlockFair (s.pc t) = true) := by
  obtain ⟨g, h⟩ := exec_inv run
  refine ⟨fun hout => ?_, fun hw => ?_⟩
  · have hidle := h.word_idle hout
    exact ⟨hidle, fun t op hop => fastPath hop (hout t) hidle⟩
  · obtain ⟨t, -, hm⟩ := h.timeout hw
    exact ⟨t, inUnlockFair_ownsLock (marked_inUnlockFair hm), marked_inUnlockFair hm⟩

/-- A thread that locks and unlocks a mutex on which `unlock_fair` sets and clears
`TIMEOUT_BIT` leaves the word `IDLE`. -/
theorem no_residue_after_unlockFair :
    ∃ (s : State Unit) (log : List (Event Unit)), s.mem.word = idle ∧
      Event.called () .unlockFair ∈ log := by
  obtain ⟨s, log, run, hend⟩ := exists_runs_of_run (machine Unit) rfl
    [((), { op := .lock }), ((), {}), ((), { op := .unlockFair }), ((), { timeout := true }),
      ((), {}), ((), {})]
    (fun s log => decide (s.pc () = .outside) && decide (Event.called () .unlockFair ∈ log))
    (by decide +kernel)
  simp only [Bool.and_eq_true, decide_eq_true_eq] at hend
  exact ⟨s, log, ((no_residue run).1 fun _ => hend.1).1, hend.2⟩

end Mekong.Analysis.RawMutex
