import Mekong.Analysis.FutexMutexRefines
import Mekong.Analysis.StrandedWaiter

/-!
# Runs of the mutex on futexes

Every run of the mutex on futexes is a run of `RawMutex` on parkers. What the contract of
the parkers hides is the kernel: a thread sleeps there on the word of its own node alone,
a notification that finds it asleep has its `wake_one` still to come, and the threads
asleep are never the only ones inside the operations.
-/

set_option autoImplicit false

namespace Mekong.Analysis.FutexMutex

open Mekong.Computation Mekong.Model Mekong.Program Mekong.Program.FutexMutex
  Mekong.Analysis.RawMutex

variable {τ : Type} [DecidableEq τ] {s s' : State τ} {t u : τ} {c : Choice} {p : Ptr}
  {log es : List (Event τ)}

omit [DecidableEq τ] in
/-- The mutex of the new state is new. -/
theorem mutexOf_new : mutexOf (State.new τ) = RawMutex.State.new τ := rfl

omit [DecidableEq τ] in
/-- No futex is waited on at the start. -/
theorem futexes_new : Futexes (State.new τ) where
  fits _ := ⟨by simp, by simp [State.new, ownNode], by simp [State.new]⟩
  nodup _ := List.nodup_nil
  waker _ h := absurd rfl h

/-- What holds in every state of a run, of the futexes and of the mutex they stand for. -/
theorem exec_futexes (run : Runs (FutexMutex.machine τ) s log) :
    Futexes s ∧ (∃ g, Inv (mutexOf s) g) ∧ Covered (mutexOf s) := by
  refine run.invariant (fun s _ => Futexes s ∧ (∃ g, Inv (mutexOf s) g) ∧ Covered (mutexOf s))
    ?_ ?_
  · rintro s rfl
    exact ⟨futexes_new, ⟨_, inv_new⟩, fun _ hne => absurd queueHead_idle hne⟩
  · rintro s log ⟨t, c⟩ s' es ⟨f, ⟨g, h⟩, hcov⟩ - hr
    obtain ⟨f', hstands⟩ := step_refines f h hr
    refine ⟨f', ?_⟩
    rcases hstands with ⟨hsame, -⟩ | ⟨c', hnext⟩
    · rw [hsame]
      exact ⟨⟨g, h⟩, hcov⟩
    · obtain ⟨m', pc', hthread, hs'⟩ := machine_next hnext
      obtain ⟨g', h', he⟩ := step_advance h hthread
      rw [hs']
      exact ⟨⟨g', h'⟩, hcov.step h hthread h' he⟩

/-- **The mutex on futexes refines the mutex on parkers.** Every run of the code of
`RawMutex` together with the code of its parkers is, with the futex words read as
notifications, a run of `RawMutex` on the contract of the parkers, with the same events. -/
theorem futex_mutex_refines (run : Runs (FutexMutex.machine τ) s log) :
    Runs (RawMutex.machine τ) (mutexOf s) (log.flatMap mutexEvents) := by
  refine run.project mutexOf mutexEvents ?_ ?_
  · rintro s rfl
    exact mutexOf_new
  · rintro s log ⟨t, c⟩ s' es run - hr
    obtain ⟨f, ⟨g, h⟩, -⟩ := exec_futexes run
    rcases (step_refines f h hr).2 with hsame | ⟨c', hnext⟩
    · exact .inl hsame
    · exact .inr ⟨_, trivial, hnext⟩

/-- **A sleeper is alone on its word and will be woken.** -/
theorem sleeper_woken (run : Runs (FutexMutex.machine τ) s log) (ht : t ∈ s.mem.sleepers p) :
    s.mem.sleepers p = [t] ∧ s.mem.raw.frame p = some t ∧
      (s.mem.word p = FutexParker.parked ∨
        s.mem.word p = FutexParker.notified ∧ ∃ u, s.pc u = .wake p) := by
  obtain ⟨f, ⟨g, h⟩, -⟩ := exec_futexes run
  have hframe := f.frame_of_sleeper h ht
  refine ⟨?_, hframe, ?_⟩
  · have honly : ∀ u ∈ s.mem.sleepers p, u = t := fun u hu => by
      have hfu := f.frame_of_sleeper h hu
      rw [hframe] at hfu
      exact (Option.some.inj hfu).symm
    obtain ⟨l, hl⟩ : ∃ l, s.mem.sleepers p = l := ⟨_, rfl⟩
    have hnodup := f.nodup p
    rw [hl] at ht honly hnodup ⊢
    match l, ht with
    | [u], _ => rw [honly u (by simp)]
    | u :: v :: l, _ =>
      have huv := (honly u (by simp)).trans (honly v (by simp)).symm
      exact absurd (List.nodup_cons.mp hnodup).1 (by simp [huv])
  · obtain ⟨call, hpc⟩ := f.sleeping ht
    have hfits := f.fits t
    rw [hpc] at hfits
    rcases hfits.2.1 with hword | hword
    · exact .inl hword
    · exact .inr ⟨hword, f.waker p (List.ne_nil_of_mem ht) hword⟩

/-- These steps of the mutex, and the kernel as it likes it. -/
def onFutexes (l : List (Bool × RawMutex.Choice)) : List (Bool × Choice) :=
  l.map fun i => (i.1, { toChoice := i.2 })

/-- A thread locks, a second one falls asleep behind it, and the first unlocks up to its
`wake_one`. -/
def sleepSchedule : List (Bool × Choice) :=
  onFutexes (handoffSchedule.take 20 ++ RawMutex.steps true 2 ++ [(false, { op := .unlock })] ++
    RawMutex.steps false 12)

/-- A thread is about to wake another one that sleeps in the kernel. -/
theorem futex_mutex_refines_sleep :
    ∃ (s : State Bool) (log : List (Event Bool)), s.pc false = .wake 8 ∧
      Runs (RawMutex.machine Bool) (mutexOf s) (log.flatMap mutexEvents) := by
  obtain ⟨s, log, run, hend⟩ := exists_runs_of_run (FutexMutex.machine Bool) rfl sleepSchedule
    (fun s _ => decide (s.pc false = .wake 8)) (by decide +kernel)
  exact ⟨s, log, of_decide_eq_true hend, futex_mutex_refines run⟩

/-- The sleeper's word is notified, and its waker on the way. -/
theorem sleeper_woken_sleep :
    ∃ s : State Bool, s.pc false = .wake 8 ∧ s.mem.sleepers 8 = [true] ∧
      s.mem.raw.frame 8 = some true ∧ (s.mem.word 8 = FutexParker.parked ∨
        s.mem.word 8 = FutexParker.notified ∧ ∃ u, s.pc u = .wake 8) := by
  obtain ⟨s, log, run, hend⟩ := exists_runs_of_run (FutexMutex.machine Bool) rfl sleepSchedule
    (fun s _ => decide (s.pc false = .wake 8) && decide (true ∈ s.mem.sleepers 8))
    (by decide +kernel)
  simp only [Bool.and_eq_true, decide_eq_true_eq] at hend
  exact ⟨s, hend.1, sleeper_woken run hend.2⟩

/-! ## Deadlock freedom -/

section Awake

omit [DecidableEq τ]

/-- Behind a parked thread there is one inside the operations that is not parked. -/
theorem someone_inside {m : RawMutex.State τ} {g : Ghost τ} (h : Inv m g) (hcov : Covered m)
    (ht : Parked m t) : ∃ u, m.pc u ≠ .outside ∧ ¬ Parked m u := by
  -- a remover that has not notified yet
  have remover : ∀ {r : τ} {mode : RawMutex.Mode} {p : Ptr}, wakes (m.pc r) = some (mode, p) →
      ∃ u, m.pc u ≠ .outside ∧ ¬ Parked m u := by
    intro r mode p hr
    refine ⟨r, fun hout => ?_, ?_⟩
    · rw [hout] at hr
      cases hr
    · rintro ⟨q, hq, -⟩
      rw [hq] at hr
      cases hr
  obtain ⟨p, hpc, hpk⟩ := ht
  have hwait := h.node t
  rw [hpc] at hwait
  have hw := hwait.2.2
  have hs := h.status p
  unfold StatusInv at hs
  cases hg : g.status p with
  | free => rw [hg] at hw; exact hw.elim
  | inside => rw [hg] at hw; exact hw.elim
  | woken mode =>
    simp only [hg, hpk] at hs
    cases hs.1
  | removed r mode =>
    simp only [hg] at hs
    exact remover hs.2.1
  | queued =>
    simp only [hg] at hs
    cases hfree : isLocked m.mem.word with
    | false =>
      -- the queue of a free lock is somebody's responsibility
      obtain ⟨u, hresp⟩ := hcov hfree fun e => List.ne_nil_of_mem hs.1 (h.head_null_iff.mp e)
      refine ⟨u, fun hout => ?_, ?_⟩
      · rw [hout] at hresp
        exact hresp
      · rintro ⟨q, hq, hqk⟩
        rw [hq] at hresp
        exact Bool.false_ne_true (hqk.symm.trans hresp)
    | true =>
      -- the owner, or who is handing the lock to it
      rw [h.locked, Option.isSome_iff_exists] at hfree
      obtain ⟨u, hu⟩ := hfree
      have howns := (h.owner u).mpr hu
      by_cases hupark : Parked m u
      · obtain ⟨q, hq, hqk⟩ := hupark
        rw [hq] at howns
        have hsq := h.status q
        unfold StatusInv at hsq
        have hhand : (g.status q).Handed := howns
        cases hgq : g.status q with
        | removed r mode =>
          simp only [hgq] at hsq
          exact remover hsq.2.1
        | woken mode =>
          simp only [hgq, hqk] at hsq
          cases hsq.1
        | _ => rw [hgq] at hhand; exact hhand.elim
      · refine ⟨u, fun hout => ?_, hupark⟩
        rw [hout] at howns
        cases howns

/-- A thread inside the operations that is not parked is awake, or about to be woken by one
that is. -/
theorem Futexes.someone_awake (f : Futexes s) (hin : (mutexOf s).pc u ≠ .outside)
    (hpark : ¬ Parked (mutexOf s) u) : ∃ v, s.pc v ≠ .raw .outside ∧ ∀ q, v ∉ s.mem.sleepers q := by
  by_cases hsleep : ∃ q, u ∈ s.mem.sleepers q
  · obtain ⟨q, hu⟩ := hsleep
    obtain ⟨call, hpc⟩ := f.sleeping hu
    have hfits := f.fits u
    rw [hpc] at hfits
    rcases hfits.2.1 with hword | hword
    · refine absurd ⟨q, by simp [mutexOf, hpc, place], ?_⟩ hpark
      simp [mutexOf, notifying, parkers, hword, FutexParker.parked_ne_notified]
    · obtain ⟨v, hv⟩ := f.waker q (List.ne_nil_of_mem hu) hword
      have hfv := f.fits v
      rw [hv] at hfv
      exact ⟨v, by simp [hv], hfv⟩
  · refine ⟨u, fun hout => hin ?_, fun q hq => hsleep ⟨q, hq⟩⟩
    simp [mutexOf, hout, place]

end Awake

omit [DecidableEq τ] in
/-- Only the allocation of a node waits for anything in the mutex's own code. -/
theorem rawStep_enabled {m : Mem τ} {pc : RawMutex.Pc} (hpark : ∀ q, pc ≠ .park q)
    (haddr : ∃ q, IsNodeAddr q ∧ m.frame q = none) :
    ∃ (c : RawMutex.Choice) (r : _),
      RawMutex.threadStep t { c with leftover := ThreadData.new } m pc = some r := by
  cases pc with
  | park q => exact absurd rfl (hpark q)
  | outside => exact ⟨{}, _, rfl⟩
  | held => exact ⟨{ op := .unlock }, _, rfl⟩
  | withThreadData counter state =>
    obtain ⟨q, hq, hfree⟩ := haddr
    exact ⟨{ addr := q }, _, if_pos ⟨hq, by rw [hfree]; rfl, rfl⟩⟩
  | _ =>
    refine ⟨{}, ?_⟩
    simp only [RawMutex.threadStep]
    try split
    all_goals exact ⟨_, rfl⟩

omit [DecidableEq τ] in
/-- No place inside `park` waits for anything; the kernel may always return. -/
theorem ownerStep_enabled (c : FutexParker.Choice) (word : BitVec 32) {pc : FutexParker.Pc}
    (hpc : InPark pc) :
    ∃ r : BitVec 32 × FutexParker.Pc × List (ParkEvent τ),
      FutexParker.ownerStep c word pc = some r := by
  cases pc with
  | fetchSub call | exchange call =>
    simp only [FutexParker.ownerStep]
    split <;> exact ⟨_, rfl⟩
  | wait call | asleep call => exact ⟨_, rfl⟩
  | _ => exact hpc.elim

/-- A thread has a step wherever the code takes it. -/
theorem enabled (f : Futexes s) (haddr : ∃ q, IsNodeAddr q ∧ s.mem.raw.frame q = none) :
    ∃ c r, step t c s = some r := by
  have hfits := f.fits t
  unfold step
  cases hpc : s.pc t with
  | wake p =>
    refine ⟨{}, ?_⟩
    simp only
    split <;> exact ⟨_, rfl⟩
  | parking p pc =>
    rw [hpc] at hfits
    obtain ⟨r, hr⟩ := ownerStep_enabled (τ := τ) { } (s.mem.word p) hfits.1
    exact ⟨{}, _, by simp only [hr]; rfl⟩
  | raw pc =>
    rw [hpc] at hfits
    obtain ⟨c, r, hr⟩ := rawStep_enabled (t := t) hfits.1 haddr
    cases pc with
    | unpark mode q => exact ⟨{}, _, rfl⟩
    | _ => exact ⟨⟨{ c with leftover := ThreadData.new }, true⟩, _, by simp only [hr]; rfl⟩

/-- **The mutex on futexes does not deadlock.** As long as a thread sleeps in the kernel,
some thread inside the operations, or with the lock, is awake and has a step. -/
theorem deadlock_free (run : Runs (FutexMutex.machine τ) s log) (ht : t ∈ s.mem.sleepers p)
    (haddr : ∃ q, IsNodeAddr q ∧ s.mem.raw.frame q = none) :
    ∃ u, s.pc u ≠ .raw .outside ∧ (∀ q, u ∉ s.mem.sleepers q) ∧
      ∃ c, ((FutexMutex.machine τ).next (u, c) s).isSome := by
  obtain ⟨f, ⟨g, h⟩, hcov⟩ := exec_futexes run
  obtain ⟨u, hin, hawake⟩ : ∃ u, s.pc u ≠ .raw .outside ∧ ∀ q, u ∉ s.mem.sleepers q := by
    obtain ⟨call, hpc⟩ := f.sleeping ht
    by_cases hpark : Parked (mutexOf s) t
    · obtain ⟨u, hin, hu⟩ := someone_inside h hcov hpark
      exact f.someone_awake hin hu
    · exact f.someone_awake (u := t) (by simp [mutexOf, hpc, place]) hpark
  obtain ⟨c, r, hr⟩ := enabled (t := u) f haddr
  exact ⟨u, hin, hawake, c, by simp [FutexMutex.machine, hr]⟩

/-- While one thread sleeps another one has a step. -/
theorem deadlock_free_sleep :
    ∃ s : State Bool, true ∈ s.mem.sleepers 8 ∧ ∃ u, s.pc u ≠ .raw .outside ∧
      (∀ q, u ∉ s.mem.sleepers q) ∧ ∃ c, ((FutexMutex.machine Bool).next (u, c) s).isSome := by
  obtain ⟨s, log, run, hend⟩ := exists_runs_of_run (FutexMutex.machine Bool) rfl sleepSchedule
    (fun s _ => decide (true ∈ s.mem.sleepers 8) && decide (IsNodeAddr 16) &&
      decide (s.mem.raw.frame 16 = none)) (by decide +kernel)
  simp only [Bool.and_eq_true, decide_eq_true_eq] at hend
  exact ⟨s, hend.1.1, deadlock_free run hend.1.1 ⟨16, hend.1.2, hend.2⟩⟩

end Mekong.Analysis.FutexMutex
