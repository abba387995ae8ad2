import Mekong.Analysis.RawMutexTrace

/-!
# How `unlock_slow_fair` ends

The events of one thread's calls of `unlock_slow_fair` are cut out of the log. Each
complete call either removes a queued node, leaves `LOCKED_BIT` set and wakes the node's
thread with `TOKEN_HANDOFF`, or releases the lock with no node queued. The second way
stays in the statement because the source has a branch for it; no run takes it, since
only the owner can remove the last node while the lock is taken.
-/

set_option autoImplicit false

namespace Mekong.Analysis.RawMutex

open Mekong.Computation Mekong.Model Mekong.Program.RawMutex

variable {τ : Type} [DecidableEq τ] {s : State τ} {g : Ghost τ} {t : τ} {log : List (Event τ)}

/-- The events of `t` inside `unlock_slow_fair`. -/
def ofSlowFair (t : τ) : Event τ → Bool
  | .enteredSlowFair u | .leftSlowFair u | .handedOff u _ => u = t
  | .removed u mode _ _ | .unparked u mode _ => u = t ∧ mode = .fair
  | .released u site _ => u = t ∧ site = .unlockSlowFair
  | _ => false

/-- A complete call of `unlock_slow_fair` by `t`. -/
inductive FairCall (t : τ) : List (Event τ) → Prop
  /-- The lock stays taken and goes to the thread of the removed node. -/
  | handOff {p : Ptr} {w : U64} (hw : isLocked w = true) :
      FairCall t [.enteredSlowFair t, .removed t .fair p w, .handedOff t p, .unparked t .fair p,
        .leftSlowFair t]
  /-- The lock is released and no node is queued. -/
  | release {w : U64} (hw : queueHead w = null) :
      FairCall t [.enteredSlowFair t, .released t .unlockSlowFair w, .leftSlowFair t]

/-- The events of the call of `unlock_slow_fair` that `t` is in, if any. -/
inductive OpenCall (t : τ) : Phase → List (Event τ) → Prop
  | free : OpenCall t .free []
  | held : OpenCall t .held []
  | unlocking : OpenCall t .unlocking []
  | slowFair : OpenCall t .slowFair [.enteredSlowFair t]
  | removed {p : Ptr} {w : U64} (hw : isLocked w = true) :
      OpenCall t (.removed p) [.enteredSlowFair t, .removed t .fair p w]
  | handed {p : Ptr} {w : U64} (hw : isLocked w = true) :
      OpenCall t (.handed p) [.enteredSlowFair t, .removed t .fair p w, .handedOff t p]

/-- The calls of `unlock_slow_fair` by `t` in `log`, the last one up to `pc`. -/
def FairCalls (t : τ) (log : List (Event τ)) (pc : Pc) : Prop :=
  ∃ (calls : List (List (Event τ))) (rest : List (Event τ)),
    log.filter (ofSlowFair t) = calls.flatten ++ rest ∧
    (∀ call ∈ calls, FairCall t call) ∧ OpenCall t (phase pc) rest

/-- The events of another thread's step are not `t`'s. -/
theorem filter_ofSlowFair_of_ne {u : τ} {pc pc' : Pc} {es : List (Event τ)}
    (h : Control u pc es pc') (hut : u ≠ t) : es.filter (ofSlowFair t) = [] := by
  cases h <;> simp [ofSlowFair, hut]

section Extend

variable {pc pc' : Pc} {es : List (Event τ)}

/-- Nothing of `unlock_slow_fair` happens outside it. -/
theorem FairCalls.skip (h : FairCalls t log pc) (hes : es.filter (ofSlowFair t) = [])
    (hpc : OpenCall t (phase pc) [] → OpenCall t (phase pc') [])
    (hrest : ∀ rest, OpenCall t (phase pc) rest → rest = []) : FairCalls t (log ++ es) pc' := by
  obtain ⟨calls, rest, hlog, hcalls, hopen⟩ := h
  obtain rfl := hrest rest hopen
  exact ⟨calls, [], by rw [List.filter_append, hlog, hes, List.append_nil], hcalls, hpc hopen⟩

/-- The call goes on. -/
theorem FairCalls.extend (h : FairCalls t log pc)
    (hopen : ∀ rest, OpenCall t (phase pc) rest →
      OpenCall t (phase pc') (rest ++ es.filter (ofSlowFair t))) :
    FairCalls t (log ++ es) pc' := by
  obtain ⟨calls, rest, hlog, hcalls, ho⟩ := h
  exact ⟨calls, _, by rw [List.filter_append, hlog, List.append_assoc], hcalls, hopen rest ho⟩

/-- The call ends. -/
theorem FairCalls.finish (h : FairCalls t log pc) (hpc' : phase pc' = .free)
    (hcall : ∀ rest, OpenCall t (phase pc) rest →
      FairCall t (rest ++ es.filter (ofSlowFair t))) :
    FairCalls t (log ++ es) pc' := by
  obtain ⟨calls, rest, hlog, hcalls, ho⟩ := h
  refine ⟨calls ++ [rest ++ es.filter (ofSlowFair t)], [], ?_, ?_, hpc' ▸ .free⟩
  · rw [List.filter_append, hlog]
    simp
  · intro call hcall'
    rcases List.mem_append.mp hcall' with hm | hm
    · exact hcalls call hm
    · rw [List.mem_singleton.mp hm]
      exact hcall rest ho

/-- A step of `t` that is in no call of `unlock_slow_fair` before and after it. -/
theorem FairCalls.skip_free (h : FairCalls t log pc) (hes : es.filter (ofSlowFair t) = [])
    (hpc : phase pc = .free ∨ phase pc = .held ∨ phase pc = .unlocking)
    (hpc' : phase pc' = .free ∨ phase pc' = .held ∨ phase pc' = .unlocking) :
    FairCalls t (log ++ es) pc' := by
  refine h.skip hes (fun _ => ?_) fun rest ho => ?_
  · rcases hpc' with hp | hp | hp <;> rw [hp]
    exacts [.free, .held, .unlocking]
  · rcases hpc with hp | hp | hp <;> rw [hp] at ho <;> cases ho <;> rfl

/-- A step of `t` itself. -/
theorem FairCalls.step (h : FairCalls t log pc) (hc : Control t pc es pc')
    (hpc : pc ≠ .fairRelease)
    (hremoved : ∀ p w, .removed t .fair p w ∈ es → isLocked w = true) :
    FairCalls t (log ++ es) pc' := by
  cases hc with
  | quiet hp => exact h.extend fun rest ho => by rw [hp]; simpa using ho
  | called hop hp hp' => exact h.skip_free (by simp [ofSlowFair]) (.inl hp) (.inl hp')
  | acquired hp hp' => exact h.skip_free (by simp [ofSlowFair]) (.inl hp) (.inr (.inl hp'))
  | probed hp hp' => exact h.skip_free (by simp [ofSlowFair]) (.inl hp) (.inr (.inr hp'))
  | dropped hop hp hp' =>
    exact h.skip_free (by simp [ofSlowFair]) (.inr (.inl hp)) (.inr (.inr hp'))
  | released hs hp hp' =>
    exact h.skip_free (by simp [ofSlowFair, hs]) (.inr (.inr hp)) (.inl hp')
  | enteredSlowFair hp hp' =>
    refine h.extend fun rest ho => ?_
    rw [hp] at ho
    cases ho
    rw [hp']
    simpa [ofSlowFair] using OpenCall.slowFair
  | releasedFair hp hp' => exact absurd hp hpc
  | pushed hp hp' => exact h.skip_free (by simp [ofSlowFair]) (.inl hp) (.inl hp')
  | removedPlain hp hp' => exact h.skip_free (by simp [ofSlowFair]) (.inl hp) (.inl hp')
  | removedFair hp hp' =>
    refine h.extend fun rest ho => ?_
    rw [hp] at ho
    cases ho
    rw [hp']
    simpa [ofSlowFair] using OpenCall.removed (hremoved _ _ (List.mem_singleton_self _))
  | handedOff hp hp' =>
    refine h.extend fun rest ho => ?_
    rw [hp] at ho
    cases ho with
    | removed hw =>
      rw [hp']
      simpa [ofSlowFair] using OpenCall.handed hw
  | unparkedPlain hp hp' => exact h.skip_free (by simp [ofSlowFair]) (.inl hp) (.inl hp')
  | unparkedFair hp hp' =>
    refine h.finish hp' fun rest ho => ?_
    rw [hp] at ho
    cases ho with
    | handed hw => simpa [ofSlowFair] using FairCall.handOff hw

end Extend

omit [DecidableEq τ] in
/-- The word a fair removal leaves is locked. -/
theorem Effect.removed_locked {w w' : U64} {es : List (Event τ)} {g' : Ghost τ} {p : Ptr}
    (h : Effect g t w es g') (hm : .removed t .fair p w' ∈ es) : isLocked w' = true := by
  cases h with
  | quiet hes => exact absurd (hes _ hm) (by simp [onQueue])
  | pushed => simp at hm
  | removed hq hw =>
    injection List.mem_singleton.mp hm with _ hmode _ hword
    exact hword ▸ hw hmode.symm
  | unparked => rename_i mode _ _; cases mode <;> simp [unparkEvents] at hm

/-- **Fair unlock never abandons the queue.** Every execution of `unlock_slow_fair` that
has ended handed the lock over or released it with nothing queued, and one that has not is
at a prefix of such an execution. From the removal to the wake-up the lock stays taken, the
removed thread is parked, and it is woken with `TOKEN_HANDOFF`. -/
theorem fair_unlock_ends (run : Runs (machine τ) s log) (t : τ) :
    FairCalls t log (s.pc t) ∧
      ∀ p, wakes (s.pc t) = some (.fair, p) →
        isLocked s.mem.word = true ∧ (∃ u, s.pc u = .park p) ∧
          (s.pc t = .unpark .fair p → (s.mem.node p).unparkToken = tokenHandoff) := by
  have hrun : (∃ g, Inv s g) ∧ FairCalls t log (s.pc t) := by
    refine run.invariant (fun s log => (∃ g, Inv s g) ∧ FairCalls t log (s.pc t)) ?_ ?_
    · rintro s rfl
      exact ⟨⟨_, inv_new⟩, [], [], rfl, by simp, .free⟩
    · rintro s log ⟨u, c⟩ s' es ⟨⟨g, h⟩, hcalls⟩ - hr
      obtain ⟨m', pc', hthread, rfl⟩ := machine_next hr
      obtain ⟨g', h', he⟩ := step_advance h hthread
      refine ⟨⟨g', h'⟩, ?_⟩
      have hcontrol := step_control hthread
      by_cases hut : u = t
      · subst hut
        rw [Threads.moveTo_pc_self]
        refine hcalls.step hcontrol (fun hpc => ?_) fun p w hm => he.removed_locked hm
        have hw := h.walk u
        rw [hpc] at hw
        exact hw
      · rw [Threads.moveTo_pc_of_ne _ _ _ (Ne.symm hut)]
        obtain ⟨calls, rest, hlog, hrest⟩ := hcalls
        exact ⟨calls, rest, by
          rw [List.filter_append, filter_ofSlowFair_of_ne hcontrol hut, List.append_nil, hlog],
          hrest⟩
  obtain ⟨⟨g, h⟩, hcalls⟩ := hrun
  refine ⟨hcalls, fun p hwake => ?_⟩
  obtain ⟨-, u, -, hu⟩ := h.removed_parked hwake
  have howner : g.owner = some u := by
    refine (h.owner u).mp ?_
    rw [hu]
    simp [Owns, (h.node t).removed hwake, Status.Handed]
  refine ⟨by rw [h.locked, howner]; rfl, ⟨u, hu⟩, fun hpc => ?_⟩
  have hn := h.node t
  rw [hpc] at hn
  exact hn.2

/-- A thread locks, a second one queues behind it, and the first unlocks fairly. -/
def handoffSchedule : List (Bool × Choice) :=
  steps false 2 ++ steps true 13 ++ [(true, { addr := 8 })] ++ steps true 4 ++
    [(false, { op := .unlockFair }), (false, { timeout := true })] ++ steps false 13

/-- A fair unlock wakes a waiter and returns. -/
theorem fair_unlock_ends_handoff :
    ∃ (s : State Bool) (log : List (Event Bool)), s.pc false = .outside ∧
      Event.unparked false .fair 8 ∈ log ∧ FairCalls false log (s.pc false) := by
  obtain ⟨s, log, run, hend⟩ := exists_runs_of_run (machine Bool) rfl handoffSchedule
    (fun s log => decide (s.pc false = .outside) &&
      decide (Event.unparked false .fair 8 ∈ log)) (by decide +kernel)
  simp only [Bool.and_eq_true, decide_eq_true_eq] at hend
  exact ⟨s, log, hend.1, hend.2, (fair_unlock_ends run false).1⟩

end Mekong.Analysis.RawMutex
