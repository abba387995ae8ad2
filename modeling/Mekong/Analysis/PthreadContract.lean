import Mekong.Program.PthreadParker

/-!
# What is left of the contract on the pthread parker

`should_park` was set by `prepare_park`, which is commented out: it is `false` for good,
and no call of `park` or `park_until` ever waits. The parker keeps its promise in the runs
in which it never has to, because an unpark has come before each test of `should_park`;
in every other run the return that follows the test breaks it.
-/

set_option autoImplicit false

namespace Mekong.Analysis.PthreadParker

open Mekong.Computation Mekong.Model Mekong.Program.PthreadParker

variable {τ : Type} [DecidableEq τ] {s : State τ} {log : List (ParkEvent τ)}

/-- The owner tests `should_park` only when an unpark has come since the last successful
return. -/
def unparkedBeforeTest (s : State τ) (log : List (ParkEvent τ)) (i : Input τ) : Bool :=
  match i, s.owner with
  | .owner _, .test _ => pending log
  | _, _ => true

/-- The contract: successful returns answer unparks, and an unpark that has come wakes the
owner. -/
def Contract (s : State τ) (log : List (ParkEvent τ)) : Prop :=
  Answered log ∧
    ¬ ((∃ call, s.owner = .asleep call) ∧ pending log = true ∧ ∀ u, s.unparker u ≠ .signal)

/-- The places of a parker whose `should_park` is `false`. -/
def neverWaits : Pc → Bool
  | .outside | .lock _ | .test _ | .unlock _ true => true
  | _ => false

/-- A signal leaves an owner that does not wait where it is. -/
theorem woken_of_neverWaits {pc : Pc} (h : neverWaits pc = true) : woken pc = pc := by
  cases pc <;> first | rfl | cases h

/-- `should_park` is never set, and nobody waits. -/
structure NeverSet (s : State τ) : Prop where
  shouldPark : s.shouldPark = false
  owner : neverWaits s.owner = true

/-- One step leaves `should_park` unset. -/
theorem NeverSet.step {i : Input τ} {s' : State τ} {es : List (ParkEvent τ)} (h : NeverSet s)
    (hr : (machine τ).next i s = some (s', es)) : NeverSet s' := by
  obtain ⟨hset, howner⟩ := h
  cases i with
  | owner c =>
    simp only [machine, ownerStep] at hr
    cases hpc : s.owner <;> rw [hpc] at hr howner <;> simp only [hset] at hr
    case outside => cases hr; exact ⟨rfl, rfl⟩
    case lock => split at hr <;> cases hr; exact ⟨rfl, rfl⟩
    case test => cases hr; exact ⟨rfl, rfl⟩
    case unlock => cases hr; exact ⟨rfl, rfl⟩
    all_goals cases howner
  | unparker u =>
    simp only [machine, unparkStep] at hr
    cases hu : s.unparker u <;> rw [hu] at hr <;> simp only [] at hr
    case outside => cases hr; exact ⟨hset, howner⟩
    case lock => split at hr <;> cases hr; exact ⟨hset, howner⟩
    case set => cases hr; exact ⟨rfl, howner⟩
    case signal =>
      cases hr
      exact ⟨hset, by rw [show woken s.owner = s.owner from woken_of_neverWaits howner]; exact howner⟩
    case unlock => cases hr; exact ⟨hset, howner⟩

/-- No run sets `should_park`. -/
theorem exec_neverSet {ok : Guard (State τ) (Input τ) (ParkEvent τ)}
    (run : Exec (machine τ) ok s log) : NeverSet s := by
  refine run.invariant (fun s _ => NeverSet s) ?_ fun s log i s' es h _ hr => h.step hr
  rintro s rfl
  exact ⟨rfl, rfl⟩

/-- From the test to the return a notification stays pending. -/
structure TestedPending (s : State τ) (log : List (ParkEvent τ)) : Prop where
  answered : Answered log
  unlock : ∀ call b, s.owner = .unlock call b → pending log = true

/-- One step keeps the notification pending. -/
theorem TestedPending.step {i : Input τ} {s' : State τ} {es : List (ParkEvent τ)}
    (h : TestedPending s log) (hn : NeverSet s) (hok : unparkedBeforeTest s log i = true)
    (hr : (machine τ).next i s = some (s', es)) : TestedPending s' (log ++ es) := by
  obtain ⟨hset, howner⟩ := hn
  cases i with
  | owner c =>
    simp only [machine, ownerStep] at hr
    cases hpc : s.owner <;> rw [hpc] at hr howner <;> simp only [hset] at hr
    case outside =>
      cases hr
      exact ⟨h.answered.append (.inl rfl), by simp⟩
    case lock =>
      split at hr <;> cases hr
      exact ⟨h.answered.append (.inl rfl), by simp⟩
    case test call =>
      cases hr
      rw [List.append_nil]
      simp only [unparkedBeforeTest, hpc] at hok
      exact ⟨h.answered, fun _ _ _ => hok⟩
    case unlock call b =>
      cases hr
      have hp := h.unlock call b hpc
      refine ⟨h.answered.append ?_, by simp⟩
      cases b with
      | false => cases howner
      | true => exact .inr (.inr (.inr ⟨call, rfl, hp⟩))
    all_goals cases howner
  | unparker u =>
    simp only [machine, unparkStep] at hr
    cases hu : s.unparker u <;> rw [hu] at hr <;> simp only [] at hr
    case outside =>
      cases hr
      rw [List.append_nil]
      exact ⟨h.answered, h.unlock⟩
    case lock =>
      split at hr <;> cases hr
      rw [List.append_nil]
      exact ⟨h.answered, h.unlock⟩
    case set =>
      cases hr
      exact ⟨h.answered.append (.inr (.inl ⟨u, rfl⟩)), fun _ _ _ => by
        rw [pending_append]; rfl⟩
    case signal =>
      cases hr
      rw [List.append_nil]
      refine ⟨h.answered, fun call b hu => h.unlock call b ?_⟩
      rwa [show woken s.owner = s.owner from woken_of_neverWaits howner] at hu
    case unlock =>
      cases hr
      rw [List.append_nil]
      exact ⟨h.answered, h.unlock⟩

/-- A test without a notification pending is followed by a return that breaks the
promise. -/
theorem NeverSet.breaks {call : ParkCall} (h : NeverSet s) (hpc : s.owner = .test call)
    (hp : pending log = false) :
    ∃ s', (machine τ).run (fun _ _ _ => true) [.owner {}, .owner {}] s log =
      some (s', log ++ [] ++ [.returned call true]) ∧ ¬ Contract s' (log ++ [.returned call true]) := by
  refine ⟨{ s with mutex := none, owner := .outside }, ?_, fun hc =>
    not_answered_of_not_pending hp hc.1⟩
  simp [Machine.run, machine, ownerStep, hpc, h.shouldPark]

/-- **The contract holds exactly while the parker has nothing to wait for.** In every run
in which each test of `should_park` comes after an unpark since the last successful
return, every state reached meets the contract; and a run in which a test comes without
one goes on, by the owner's next two steps, to break it. -/
theorem pthread_contract :
    (∀ (s : State τ) log, Exec (machine τ) (fun s log i => unparkedBeforeTest s log i = true) s log →
        Contract s log) ∧
      ∀ (s : State τ) log call, Runs (machine τ) s log → s.owner = .test call →
        pending log = false →
          ∃ s', (machine τ).run (fun _ _ _ => true) [.owner {}, .owner {}] s log =
            some (s', log ++ [] ++ [.returned call true]) ∧
              ¬ Contract s' (log ++ [.returned call true]) := by
  refine ⟨fun s log run => ?_, fun s log call run hpc hp => (exec_neverSet run).breaks hpc hp⟩
  have htested : TestedPending s log := by
    refine run.invariant_with (fun s _ => NeverSet s) TestedPending
      (fun s log run => exec_neverSet run) ?_ fun s log i s' es hn _ h hok hr => h.step hn hok hr
    rintro s rfl
    exact ⟨answered_nil, by simp [State.new]⟩
  refine ⟨htested.answered, ?_⟩
  rintro ⟨⟨call, hpc⟩, -⟩
  have hn := (exec_neverSet run).owner
  rw [hpc] at hn
  cases hn

/-- An unpark, and the park that answers it. -/
theorem pthread_contract_unparked :
    ∃ (s : State Unit) (log : List (ParkEvent Unit)),
      log = [.unparked (), .returned .park true] ∧ Contract s log := by
  obtain ⟨s, log, run, hend⟩ := exists_exec_of_run (machine Unit)
    (fun s log i => unparkedBeforeTest s log i = true) unparkedBeforeTest (fun _ _ _ => id) rfl
    [.unparker (), .unparker (), .unparker (), .unparker (), .unparker (), .owner {}, .owner {},
      .owner {}, .owner {}]
    (fun _ log => decide (log = [.unparked (), .returned .park true])) (by decide +kernel)
  simp only [decide_eq_true_eq] at hend
  exact ⟨s, log, hend, pthread_contract.1 s log run⟩

/-- A thread that parks on a new parker comes back although nobody has unparked it. -/
theorem pthread_contract_fails :
    ¬ ∀ (s : State Unit) log, Runs (machine Unit) s log → Contract s log := by
  intro hall
  obtain ⟨s, log, run, hend⟩ := exists_runs_of_run (machine Unit) rfl
    [.owner {}, .owner {}, .owner {}, .owner {}]
    (fun _ log => decide (log = [.returned .park true])) (by decide +kernel)
  simp only [decide_eq_true_eq] at hend
  subst hend
  have hnone : pending ([] : List (ParkEvent Unit)) = false := rfl
  exact not_answered_of_not_pending hnone (hall s _ run).1

end Mekong.Analysis.PthreadParker
