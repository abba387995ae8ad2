import Mekong.Analysis.FairHandoff

/-!
# No waiter is stranded

A waiter in the queue of a free lock needs a thread that will look at the word again:
one on its way through `lock_slow` before its push, an unlocker that has not yet left the
queue to somebody else, the holder of the queue lock, or a woken waiter. `Covered` says
that there is such a thread, and every step that ends the responsibility of one thread
either takes the lock, leaves the queue empty, or passes the responsibility on.
-/

set_option autoImplicit false

namespace Mekong.Analysis.RawMutex

open Mekong.Computation Mekong.Model Mekong.Program.RawMutex

variable {τ : Type} [DecidableEq τ] {s : State τ} {g g' : Ghost τ} {t : τ}
  {log es : List (Event τ)} {c : Choice} {m' : Mem τ} {pc' : Pc}

/-- A thread at this place will look at the word again before it parks or leaves. -/
def Responsible (m : Mem τ) : Pc → Prop
  | .park p => (m.node p).parker = true
  | .outside | .held | .tryLock | .isLocked | .lock | .unlock | .unlockFair | .markTimeout
  | .clearBits _ => False
  | _ => True

/-- The queue of a free lock is some thread's responsibility. -/
def Covered (s : State τ) : Prop :=
  isLocked s.mem.word = false → queueHead s.mem.word ≠ null → ∃ u, Responsible s.mem (s.pc u)

/-- A thread is parked without a pending notification. -/
def Parked (s : State τ) (t : τ) : Prop := ∃ p, s.pc t = .park p ∧ (s.mem.node p).parker = false

section Places

omit [DecidableEq τ]

/-- A holder of the queue lock is responsible. -/
theorem responsible_of_holdsQueue {m : Mem τ} {pc : Pc} (h : holdsQueue pc = true) :
    Responsible m pc := by
  cases pc <;> first | exact trivial | exact absurd h Bool.false_ne_true

/-- A turn of `lock_slow` leads to a responsible place. -/
theorem responsible_lockSlow (m : Mem τ) (counter : ℕ) (state : U64) :
    Responsible m (lockSlow counter state) := by
  unfold lockSlow
  split
  · trivial
  · split <;> trivial

/-- A turn of `unlock_slow_fair` leads to a responsible place. -/
theorem responsible_unlockSlowFair (m : Mem τ) (counter : ℕ) (state : U64) :
    Responsible m (unlockSlowFair counter state) := by
  unfold unlockSlowFair
  split <;> trivial

/-- The mark of the head leads to a responsible place. -/
theorem responsible_afterMark (m : Mem τ) (mode : Mode) (state : U64) (queueTail : Ptr) :
    Responsible m (afterMark mode state queueTail) := by
  unfold afterMark
  split <;> trivial

/-- A failed removal leads to a responsible place. -/
theorem responsible_retryRemove (m : Mem τ) (mode : Mode) (state : U64) (queueTail : Ptr) :
    Responsible m (retryRemove mode state queueTail) := by
  unfold retryRemove
  split <;> trivial

/-- A removal leads to a responsible place. -/
theorem responsible_wake (m : Mem τ) (mode : Mode) (queueTail : Ptr) :
    Responsible m (wake mode queueTail) := by
  cases mode <;> trivial

end Places

/-- What becomes of the responsibility of `t` in a step that leaves a free lock with a
queue. -/
inductive Passed (s : State τ) (t : τ) (m' : Mem τ) (pc' : Pc) : Prop
  /-- It stays with `t`. -/
  | stays (h : Responsible m' pc')
  /-- It is left to the holder of the queue lock. -/
  | holder {u : τ} (hu : u ≠ t) (h : holdsQueue (s.pc u) = true)
  /-- It goes to a woken waiter. -/
  | woken {u : τ} {p : Ptr} (hu : u ≠ t) (hpc : s.pc u = .park p) (h : (m'.node p).parker = true)
  /-- `t` had none. -/
  | other (h : ¬ Responsible s.mem (s.pc t)) (hw : m'.word = s.mem.word)

section Step

omit [DecidableEq τ]

/-- An unlocker that meets the queue lock leaves the queue to its holder. -/
theorem Inv.leave_to_holder (h : Inv s g) (hpc : holdsQueue (s.pc t) = false)
    (hq : isQueueLocked s.mem.word = true) : Passed s t m' pc' := by
  rw [h.queueLocked, Option.isSome_iff_exists] at hq
  obtain ⟨u, hu⟩ := hq
  have hhold := (h.holder u).mpr hu
  refine .holder (u := u) ?_ hhold
  rintro rfl
  rw [hhold] at hpc
  cases hpc

/-- After the release, and at the head of `unlock_slow`. -/
theorem Inv.passed_unlock {w : U64} (h : Inv s g) (hpc : holdsQueue (s.pc t) = false)
    (hq : isQueueLocked w = isQueueLocked s.mem.word)
    (hout : isQueueLocked w = false → Responsible m' pc') : Passed s t m' pc' := by
  cases hl : isQueueLocked w with
  | false => exact .stays (hout hl)
  | true => exact h.leave_to_holder hpc (hq ▸ hl)

/-- Responsibility is passed on at a turn of `unlock_slow`. -/
theorem Inv.passed_unlockSlow (h : Inv s g) (hpc : holdsQueue (s.pc t) = false)
    (hne : queueHead s.mem.word ≠ null) : Passed s t m' (unlockSlow s.mem.word) := by
  refine h.passed_unlock (w := s.mem.word) hpc rfl fun hq => ?_
  rw [unlockSlow, if_neg (by simp [hq, hne])]
  trivial

/-- Responsibility is passed on at a release. -/
theorem Inv.passed_release {w : U64} (h : Inv s g) (hpc : holdsQueue (s.pc t) = false)
    (hhead : queueHead w = queueHead s.mem.word) (hne : queueHead w ≠ null) :
    Passed s t m'
      (if isQueueLocked s.mem.word = true ∨ queueHead s.mem.word = null then .outside
        else .slowLoad) := by
  rw [hhead] at hne
  refine h.passed_unlock (w := s.mem.word) hpc rfl fun hq => ?_
  rw [if_neg (by simp [hq, hne])]
  trivial

/-- The responsibility is never dropped. -/
theorem Inv.passed (h : Inv s g) (hr : threadStep t c s.mem (s.pc t) = some (m', pc', es))
    (hfree : isLocked m'.word = false) (hne : queueHead m'.word ≠ null) :
    Passed s t m' pc' := by
  have hlocked : Owns s.mem g (s.pc t) → isLocked s.mem.word = true :=
    fun ho => (h.owner_word ho).2.1
  have hst := h.state t
  have hnode := h.node t
  have hwalk := h.walk t
  cases hpc : s.pc t <;> rw [hpc] at hr hlocked hst hnode hwalk <;>
    simp only [threadStep] at hr
  case outside =>
    split at hr <;> cases hr <;> exact .other (by rw [hpc]; exact id) rfl
  case held => split at hr <;> cases hr <;> exact .other (by rw [hpc]; exact id) rfl
  case tryLock =>
    split at hr <;> cases hr
    · simp at hfree
    · exact .other (by rw [hpc]; exact id) rfl
  case isLocked =>
    split at hr <;> cases hr
    · simp at hfree
    · exact .other (by rw [hpc]; exact id) rfl
  case lock =>
    split at hr <;> cases hr
    · simp at hfree
    · exact .stays trivial
  case load =>
    cases hr
    exact .stays (responsible_lockSlow _ _ _)
  case grab =>
    split at hr <;> cases hr
    · simp at hfree
    · exact .stays (responsible_lockSlow _ _ _)
  case withThreadData =>
    split at hr <;> cases hr
    exact .stays trivial
  case setToken =>
    cases hr
    exact .stays trivial
  case setTail =>
    cases hr
    exact .stays trivial
  case setPrev =>
    cases hr
    refine .stays ?_
    split <;> trivial
  case setNext =>
    cases hr
    exact .stays trivial
  case push counter state p =>
    split at hr <;> cases hr
    · -- the push only succeeds on a locked word
      have hset := (setQueueHead_projections state hnode.1.addr.aligned).2.1
      rw [Mem.store_word, hset, show isLocked state = true from hst] at hfree
      cases hfree
    · exact .stays (responsible_lockSlow _ _ _)
  case park =>
    split at hr <;> cases hr
    exact .stays trivial
  case readToken =>
    split at hr <;> cases hr
    · exact absurd (hlocked (by assumption)) (by simpa using hfree)
    · exact .stays trivial
  case unlock =>
    cases hr
    rw [Mem.store_word, sub_lockedBit (hlocked rfl)] at hne
    exact h.passed_release (by rw [hpc]; rfl) (queueHead_and_not_lockedBit _) hne
  case unlockFair =>
    cases hr
    exact absurd (hlocked rfl) (by simpa using hfree)
  case markTimeout =>
    split at hr <;> cases hr <;> exact absurd (hlocked rfl) (by simpa using hfree)
  case clearBits bit =>
    cases hr
    refine h.passed_release (by rw [hpc]; rfl) ?_ hne
    rcases hst with rfl | rfl <;> simp
  case slowLoad =>
    cases hr
    exact h.passed_unlockSlow (by rw [hpc]; rfl) hne
  case slowLock =>
    split at hr <;> cases hr
    · exact .stays trivial
    · rename_i hcas
      rw [compareExchangeWeak_err hcas]
      exact h.passed_unlockSlow (by rw [hpc]; rfl) hne
  case fairLoad =>
    cases hr
    exact .stays (responsible_unlockSlowFair _ _ _)
  case fairLock =>
    split at hr <;> cases hr
    · refine .stays ?_
      split <;> trivial
    · exact .stays (responsible_unlockSlowFair _ _ _)
  case fairRelease => exact hwalk.elim
  case scanTail => split at hr <;> cases hr <;> exact .stays trivial
  case scanNext =>
    cases hr
    exact .stays trivial
  case scanPrev =>
    cases hr
    exact .stays trivial
  case markHead =>
    cases hr
    exact .stays (responsible_afterMark _ _ _ _)
  case giveUp state =>
    split at hr <;> cases hr
    · -- giving up only succeeds on a locked word
      simp [show isLocked state = true from hst] at hfree
    · exact .stays trivial
  case readPrev => split at hr <;> cases hr <;> exact .stays trivial
  case removeLast =>
    split at hr <;> cases hr
    · exact .stays (responsible_wake _ _ _)
    · exact .stays (responsible_retryRemove _ _ _ _)
  case setNewTail =>
    cases hr
    exact .stays trivial
  case unlockQueue =>
    cases hr
    exact .stays (responsible_wake _ _ _)
  case setHandoff =>
    cases hr
    exact .stays trivial
  case unpark mode p =>
    cases hr
    have hwake : wakes (s.pc t) = some (mode, p) := by rw [hpc]; rfl
    obtain ⟨-, u, hu, hup⟩ := h.removed_parked hwake
    exact .woken hu hup (by simp)

/-- A notification waits for its thread. -/
theorem Effect.woken_stays {w : U64} (h : Inv s g) (he : Effect g t w es g') {p : Ptr} {mode : Mode}
    (hg : g.status p = .woken mode) (hwait : (g'.status p).Waiting) :
    ∃ mode', g'.status p = .woken mode' := by
  cases he with
  | quiet hes hq hs =>
    have hl := hs p
    rw [hg] at hl
    cases hg' : g'.status p with
    | free => rw [hg'] at hwait; exact hwait.elim
    | inside => rw [hg'] at hwait; exact hwait.elim
    | queued => rw [hg'] at hl; cases hl
    | removed r m => rw [hg'] at hl; cases hl
    | woken m => exact ⟨m, rfl⟩
  | pushed hp =>
    rename_i q
    by_cases hpq : p = q
    · rw [hpq, hp] at hg
      cases hg
    · exact ⟨mode, (Ghost.setStatus_of_ne _ _ hpq).trans hg⟩
  | removed hq =>
    rename_i m q q' o _
    by_cases hpq : p = q
    · have hqueued := h.queued p (by simp [hq, hpq])
      rw [hg] at hqueued
      cases hqueued
    · exact ⟨mode, (Ghost.setStatus_of_ne _ _ hpq).trans hg⟩
  | unparked hp =>
    rename_i m q
    by_cases hpq : p = q
    · exact ⟨m, by rw [hpq, Ghost.setStatus_self]⟩
    · exact ⟨mode, (Ghost.setStatus_of_ne _ _ hpq).trans hg⟩

end Step

/-- A thread that is responsible stays so in the steps of the others. -/
theorem Inv.responsible_stays (h : Inv s g) (h' : Inv (s.moveTo t m' pc') g')
    (he : Effect g t m'.word es g') {u : τ} (hu : u ≠ t) (hr : Responsible s.mem (s.pc u)) :
    Responsible m' ((s.moveTo t m' pc').pc u) := by
  rw [Threads.moveTo_pc_of_ne _ _ _ hu]
  cases hpc : s.pc u <;> rw [hpc] at hr <;> first | exact hr | skip
  rename_i p
  obtain ⟨mode, hg⟩ := h.woken_of_parker hpc hr
  have hwait := h'.node u
  rw [Threads.moveTo_pc_of_ne _ _ _ hu, hpc] at hwait
  obtain ⟨mode', hg'⟩ := he.woken_stays h hg hwait.2.2
  have hs := h'.status p
  simp only [StatusInv, hg'] at hs
  exact hs.1

/-- Every step keeps the queue of a free lock covered. -/
theorem Covered.step (hcov : Covered s) (h : Inv s g)
    (hr : threadStep t c s.mem (s.pc t) = some (m', pc', es)) (h' : Inv (s.moveTo t m' pc') g')
    (he : Effect g t m'.word es g') : Covered (s.moveTo t m' pc') := by
  intro hfree hne
  have stays : ∀ {u : τ}, u ≠ t → Responsible s.mem (s.pc u) →
      ∃ u, Responsible (s.moveTo t m' pc').mem ((s.moveTo t m' pc').pc u) :=
    fun hu hresp => ⟨_, h.responsible_stays h' he hu hresp⟩
  rcases h.passed hr hfree hne with hresp | ⟨hu, hhold⟩ | ⟨hu, hpc, hpk⟩ | ⟨hnot, hw⟩
  · exact ⟨t, by rwa [Threads.moveTo_pc_self]⟩
  · exact stays hu (responsible_of_holdsQueue hhold)
  · rename_i u p
    exact ⟨u, by rw [Threads.moveTo_pc_of_ne _ _ _ hu, hpc]; exact hpk⟩
  · rw [Threads.moveTo_mem, hw] at hfree hne
    obtain ⟨u, hresp⟩ := hcov hfree hne
    refine stays (fun e => hnot ?_) hresp
    rwa [← e]

/-- **No stranded waiter.** No reachable state has a free lock, a thread parked without a
pending notification, and every thread outside the operations without the lock or parked
in the same way. -/
theorem no_stranded_waiter (run : Runs (machine τ) s log) :
    ¬ (isLocked s.mem.word = false ∧ (∃ t, Parked s t) ∧
      ∀ u, s.pc u = .outside ∨ Parked s u) := by
  obtain ⟨⟨g, h⟩, hcov⟩ : (∃ g, Inv s g) ∧ Covered s := by
    refine run.invariant (fun s _ => (∃ g, Inv s g) ∧ Covered s) ?_ ?_
    · rintro s rfl
      exact ⟨⟨_, inv_new⟩, fun _ hne => absurd queueHead_idle hne⟩
    · rintro s log ⟨t, c⟩ s' es ⟨⟨g, h⟩, hcov⟩ - hr
      obtain ⟨m', pc', hthread, rfl⟩ := machine_next hr
      obtain ⟨g', h', he⟩ := step_advance h hthread
      exact ⟨⟨g', h'⟩, hcov.step h hthread h' he⟩
  rintro ⟨hfree, ⟨t, p, hpc, hpk⟩, hall⟩
  -- the parked thread's node is queued: a remover would be neither outside nor parked
  have hqueued : p ∈ g.queue := by
    have hs := h.status p
    have hwait := h.node t
    rw [hpc] at hwait
    have hw := hwait.2.2
    unfold StatusInv at hs
    cases hg : g.status p with
    | free => rw [hg] at hw; exact hw.elim
    | inside => rw [hg] at hw; exact hw.elim
    | queued => simp only [hg] at hs; exact hs.1
    | removed r mode =>
      simp only [hg] at hs
      rcases hall r with hr | ⟨q, hr, -⟩ <;> rw [hr] at hs <;> cases hs.2.1
    | woken mode =>
      simp only [hg, hpk] at hs
      cases hs.1
  obtain ⟨u, hresp⟩ := hcov hfree fun e => List.ne_nil_of_mem hqueued (h.head_null_iff.mp e)
  rcases hall u with hu | ⟨q, hu, hq⟩ <;> rw [hu] at hresp
  · exact hresp
  · exact Bool.false_ne_true (hq.symm.trans hresp)

/-- A waiter of a lock that is just being released is not stranded. -/
theorem no_stranded_waiter_release :
    ∃ s : State Bool, isLocked s.mem.word = false ∧ Parked s true ∧
      ¬ (isLocked s.mem.word = false ∧ (∃ t, Parked s t) ∧
        ∀ u, s.pc u = .outside ∨ Parked s u) := by
  obtain ⟨s, log, run, hend⟩ := exists_runs_of_run (machine Bool) rfl
    (handoffSchedule.take 20 ++ [(false, { op := .unlock })] ++ steps false 4)
    (fun s _ => decide (isLocked s.mem.word = false) && decide (s.pc true = .park 8) &&
      decide ((s.mem.node 8).parker = false)) (by decide +kernel)
  simp only [Bool.and_eq_true, decide_eq_true_eq] at hend
  exact ⟨s, hend.1.1, ⟨8, hend.1.2, hend.2⟩, no_stranded_waiter run⟩

end Mekong.Analysis.RawMutex
