import Mekong.Analysis.SemaphoreToken

/-!
# What `park_until` of the semaphore parker reports

`Sound` says that a call answers `true` just when it consumed a notification, that it
leaves a clean parker, and that a call that consumed one is sure to return. It holds as
long as no step misses, and every step that misses can be followed to a state without it.
-/

set_option autoImplicit false

namespace Mekong.Analysis.SemaphoreParker

open Mekong.Computation Mekong.Model Mekong.Program.SemaphoreParker

section Property

variable {τ : Type}

def consumedAfter (b : Bool) : Event τ → Bool
  | .consumed => true
  | .parker (.returned ..) => false
  | _ => b

/-- The call that is under way has consumed a notification. -/
def consumedInCall (log : List (Event τ)) : Bool := log.foldl consumedAfter false

/-- A call answers `true` just when it consumed a notification, and what is consumed was
stored by an unpark since the previous consumption. -/
def Reports (log : List (Event τ)) : Event τ → Prop
  | .parker (.returned _ b) => b = true ↔ consumedInCall log = true
  | .consumed => ∃ a u b, log = a ++ .parker (.unparked u) :: b ∧ .consumed ∉ b
  | _ => True

/-- What `park_until` promises. -/
structure Sound (s : State τ) (log : List (Event τ)) : Prop where
  reports : Each Reports log
  clean : s.owner = .outside → (∀ u, s.unparker u ≠ .signal) →
    (s.state = empty ∨ s.state = notified) ∧ s.count = 0
  /-- A call that has consumed a notification waits for a signal that is there or on its
  way, and answers `true`. -/
  returns : consumedInCall log = true →
    (∃ timeout, s.owner = .waitSignal timeout) ∧ (0 < s.count ∨ ∃ u, s.unparker u = .signal)

variable (τ)

/-- The owner calls only `park_until`, and the clock does not go back. -/
def usage : Guard (State τ) (Input τ) (Event τ) := fun s log i => ∀ c, i = .owner c →
  (s.owner = .outside → ∃ timeout, c.call = .parkUntil timeout) ∧
    ∀ timeout, s.owner = .clock timeout → ∀ now, .read now ∈ log → now ≤ c.now

/-- Usage, with no step that misses. -/
def inTime : Guard (State τ) (Input τ) (Event τ) := fun s log i =>
  usage τ s log i ∧ ¬ Misses s i

end Property

section Log

variable {τ : Type} {log es : List (Event τ)}

/-- The rest of the log is read on from where the first part leaves off. -/
theorem consumedInCall_append (log es : List (Event τ)) :
    consumedInCall (log ++ es) = es.foldl consumedAfter (consumedInCall log) := by
  rw [consumedInCall, List.foldl_append]
  rfl

/-- What is stored was stored by an unpark of the log. -/
theorem exists_unparked_of_stored (h : stored log = true) :
    ∃ a u b, log = a ++ .parker (.unparked u) :: b ∧ .consumed ∉ b := by
  induction log using List.reverseRecOn with
  | nil => cases h
  | append_singleton log e ih =>
    rw [stored_append] at h
    have later : storedAfter (stored log) e = stored log → e ≠ .consumed →
        ∃ a u b, log ++ [e] = a ++ .parker (.unparked u) :: b ∧ .consumed ∉ b := by
      intro hkeep he
      obtain ⟨a, u, b, rfl, hb⟩ := ih (hkeep.symm.trans h)
      exact ⟨a, u, b ++ [e], by simp, by simpa using ⟨hb, fun e' => he e'.symm⟩⟩
    cases e with
    | parker e =>
      cases e with
      | unparked u => exact ⟨log, u, [], rfl, List.not_mem_nil⟩
      | returned call b => exact later rfl (by simp)
    | consumed => cases h
    | read now => exact later rfl (by simp)

end Log

/-! ## Runs in which no step misses -/

section Runs

variable {τ : Type} [DecidableEq τ] {s s' : State τ} {log es : List (Event τ)}

/-- What a run keeps in which no step misses. -/
structure UntilInv (s : State τ) (log : List (Event τ)) : Prop where
  inv : Inv s log
  consumed : consumedInCall log = true ↔ ∃ timeout, s.owner = .waitSignal timeout
  reports : Each Reports log

omit [DecidableEq τ] in
/-- A call that takes `NOTIFIED` away and returns at once has to answer `true`. -/
theorem UntilInv.take (h : UntilInv s log) (hstate : s.state = notified) (call : ParkCall) :
    consumedInCall (log ++ (takes s.state ++ [.parker (.returned call true)])) = false ∧
      Each Reports (log ++ (takes s.state ++ [.parker (.returned call true)])) := by
  rw [takes, if_pos hstate, ← List.append_assoc]
  have hconsume : Each Reports (log ++ [.consumed]) :=
    h.reports.concat (exists_unparked_of_stored (h.inv.stored.mpr hstate))
  refine ⟨?_, hconsume.concat (iff_of_true rfl ?_)⟩
  · rw [consumedInCall_append]
    rfl
  · rw [consumedInCall_append]
    rfl

omit [DecidableEq τ] in
/-- Between two places at which a call has consumed nothing, nothing is consumed. -/
theorem UntilInv.silent (h : UntilInv s log) {pc pc' : Pc} (hpc : s.owner = pc)
    (hbefore : ∀ timeout, pc ≠ .waitSignal timeout) (hafter : ∀ timeout, pc' ≠ .waitSignal timeout)
    (hes : es.foldl consumedAfter false = false) :
    consumedInCall (log ++ es) = true ↔ ∃ timeout, pc' = .waitSignal timeout := by
  subst hpc
  have hnot : consumedInCall log = false := by
    apply Bool.eq_false_iff.mpr
    intro hconsumed
    exact (h.consumed.mp hconsumed).elim hbefore
  rw [consumedInCall_append, hnot, hes]
  exact iff_of_false Bool.false_ne_true fun hex => hex.elim hafter

omit [DecidableEq τ] in
/-- A step of the owner that does not miss reports what it does. -/
theorem UntilInv.owner {c : Choice} {state' : BitVec 8} {count' : ℕ} {pc' : Pc}
    (h : UntilInv s log)
    (hr : ownerStep c s.state s.count s.owner = some (state', count', pc', es)) :
    (consumedInCall (log ++ es) = true ↔ ∃ timeout, pc' = .waitSignal timeout) ∧
      Each Reports (log ++ es) := by
  have hplace := h.inv.place
  have hcall := h.consumed
  cases hpc : s.owner with
  | outside =>
    rw [hpc] at hr
    simp only [ownerStep] at hr
    cases hr
    exact ⟨h.silent hpc (by simp) (by simp) rfl, by simpa using h.reports⟩
  | fetchSub call =>
    rw [hpc] at hr
    simp only [ownerStep] at hr
    split at hr <;> cases hr
    · rename_i hstate
      obtain ⟨hnot, heach⟩ := h.take hstate call
      exact ⟨iff_of_false (by rw [hnot]; decide) (by simp), heach⟩
    · refine ⟨h.silent hpc (by simp) ?_ rfl, by simpa using h.reports⟩
      cases call <;> simp [afterFetchSub]
  | wait =>
    rw [hpc] at hr
    simp only [ownerStep, Option.map_eq_some_iff] at hr
    obtain ⟨⟨count, isTimeout⟩, -, he⟩ := hr
    cases he
    refine ⟨h.silent hpc (by simp) ?_ rfl, by simpa using h.reports⟩
    split <;> simp
  | swap =>
    rw [hpc] at hr hplace
    simp only [ownerStep] at hr
    cases hr
    obtain ⟨hnot, heach⟩ := h.take hplace.1 .park
    exact ⟨iff_of_false (by rw [hnot]; decide) (by simp), heach⟩
  | clock timeout =>
    rw [hpc] at hr
    have hread : Each Reports (log ++ [.read c.now]) := h.reports.concat trivial
    simp only [ownerStep] at hr
    split at hr <;> cases hr
    · refine ⟨h.silent hpc (by simp) (by simp) rfl, ?_⟩
      rw [← List.singleton_append, ← List.append_assoc]
      refine hread.concat (iff_of_false Bool.false_ne_true ?_)
      rw [consumedInCall_append]
      exact fun hconsumed => by simpa [hpc] using hcall.mp hconsumed
    · exact ⟨h.silent hpc (by simp) (by simp) rfl, hread⟩
  | timedWait timeout =>
    rw [hpc] at hr
    simp only [ownerStep, Option.map_eq_some_iff] at hr
    obtain ⟨⟨count, isTimeout⟩, -, he⟩ := hr
    cases he
    exact ⟨h.silent hpc (by simp) (by simp) rfl, by simpa using h.reports⟩
  | swapUntil timeout isTimeout =>
    rw [hpc] at hr hplace
    obtain ⟨rfl, -⟩ := hplace
    simp only [ownerStep] at hr
    cases hr
    by_cases hstate : s.state = notified
    · rw [takes, if_pos hstate, if_pos ⟨hstate, trivial⟩]
      refine ⟨iff_of_true ?_ ⟨timeout, rfl⟩, ?_⟩
      · rw [consumedInCall_append]
        rfl
      · exact h.reports.concat (exists_unparked_of_stored (h.inv.stored.mpr hstate))
    · rw [takes, if_neg hstate, if_neg fun hfound => hstate hfound.1]
      exact ⟨h.silent hpc (by simp) (by simp) rfl, by simpa using h.reports⟩
  | waitSignal timeout =>
    rw [hpc] at hr
    have hconsumed := hcall.mpr ⟨timeout, hpc⟩
    simp only [ownerStep, Option.map_eq_some_iff] at hr
    obtain ⟨⟨count, isTimeout⟩, -, he⟩ := hr
    cases isTimeout <;> cases he
    · refine ⟨iff_of_false ?_ (by simp), h.reports.concat (iff_of_true rfl hconsumed)⟩
      rw [consumedInCall_append]
      exact Bool.false_ne_true
    · rw [List.append_nil]
      exact ⟨iff_of_true hconsumed ⟨timeout, rfl⟩, h.reports⟩

/-- An unparker leaves the owner where it is. -/
theorem unparkStep_owner (u : τ) : (unparkStep u s).1.owner = s.owner := by
  unfold unparkStep
  cases s.unparker u <;> rfl

/-- An unparker reports its unpark and nothing else. -/
theorem unparkStep_events (u : τ) :
    (unparkStep u s).2 = [] ∨ (unparkStep u s).2 = [.parker (.unparked u)] := by
  unfold unparkStep
  cases s.unparker u <;> simp

/-- Every run without a miss keeps the invariant. -/
theorem exec_untilInv (run : Exec (machine τ) (noMiss τ) s log) : UntilInv s log := by
  refine run.invariant UntilInv ?_ ?_
  · rintro s rfl
    exact ⟨inv_new, iff_of_false Bool.false_ne_true (by simp [State.new]), each_nil⟩
  · intro s log i s' es h hmiss hr
    have hinv := h.inv.step hmiss hr
    rcases machine_next hr with ⟨c, state', count', pc', rfl, hstep, rfl⟩ | ⟨u, rfl, rfl, rfl⟩
    · obtain ⟨hconsumed, heach⟩ := h.owner hstep
      exact ⟨hinv, hconsumed, heach⟩
    · refine ⟨hinv, ?_, ?_⟩
      · rw [unparkStep_owner, ← h.consumed, consumedInCall_append]
        rcases unparkStep_events (s := s) u with e | e <;> rw [e] <;> rfl
      · rcases unparkStep_events (s := s) u with e | e <;> rw [e]
        · rw [List.append_nil]
          exact h.reports
        · exact h.reports.concat trivial

omit [DecidableEq τ] in
/-- The invariant is enough for the promise. -/
theorem UntilInv.sound (h : UntilInv s log) : Sound s log := by
  have hplace := h.inv.place
  refine ⟨h.reports, fun hpc _ => ?_, fun hconsumed => ?_⟩
  · rw [hpc] at hplace
    exact ⟨hplace.1, hplace.2.count⟩
  · obtain ⟨timeout, hpc⟩ := h.consumed.mp hconsumed
    refine ⟨⟨timeout, hpc⟩, ?_⟩
    rw [hpc] at hplace
    cases hplace.2 with
    | stored hcount hnone => exact .inl (by omega)
    | coming u hcount hu honly => exact .inr ⟨u, hu⟩

end Runs

/-! ## A step that misses -/

section Missed

variable {τ : Type} [DecidableEq τ] {s s' : State τ} {log es : List (Event τ)} {i : Input τ}

/-- Calls of `park_until` lead on from `s` to a state that is not sound. -/
def Unsound (s : State τ) (log : List (Event τ)) : Prop :=
  ∃ s' log', Onward (machine τ) (usage τ) s log s' log' ∧ ¬ Sound s' log'

/-- A call that gives up with its announcement or a signal still out leaves it behind. -/
theorem UntilInv.late (h : UntilInv s log) {timeout : Instant} (hpc : s.owner = .clock timeout)
    (hout : s.state = parked ∨ ¬ NoSignal s.count s.unparker) (es : List (Event τ)) :
    Unsound { s with owner := .outside } (log ++ es) := by
  have hplace := h.inv.place
  rw [hpc] at hplace
  have harmed : Armed s := by
    refine hplace.resolve_right fun hclean => ?_
    rcases hout with hstate | hno
    · rcases hclean.1 with e | e <;> rw [e] at hstate <;> exact absurd hstate (by decide)
    · exact hno hclean.2
  rcases harmed with ⟨hstate, hno⟩ | ⟨-, hone⟩
  · refine ⟨_, _, .here, ?_⟩
    intro hsound
    have hclean := (hsound.clean rfl hno.coming).1
    rw [show s.state = parked from hstate] at hclean
    exact absurd hclean (by decide)
  cases hone with
  | stored hcount hnone =>
    refine ⟨_, _, .here, ?_⟩
    intro hsound
    have hzero : s.count = 0 := (hsound.clean rfl hnone).2
    omega
  | coming u hcount hu honly =>
    -- the signal comes after the return
    refine ⟨_, _, .step .here (i := .unparker u) (fun c e => by cases e) rfl, fun hsound => ?_⟩
    simp only [hu] at hsound
    have hzero : s.count + 1 = 0 := by
      refine (hsound.clean rfl fun v hv => ?_).2
      by_cases hvu : v = u
      · rw [hvu] at hv
        simp at hv
      · exact hvu (honly v (by simpa [hvu] using hv))
    omega

/-- A call whose timed wait takes the signal goes on to take the notification as well. -/
theorem UntilInv.signalled (h : UntilInv s log) {timeout : Instant} {count : ℕ}
    (hpc : s.owner = .timedWait timeout) (hcount : s.count = count + 1) :
    Unsound { s with count := count, owner := .swapUntil timeout false } log := by
  have hplace := h.inv.place
  rw [hpc] at hplace
  have hstate : s.state = notified := by
    rcases hplace with (⟨-, hno⟩ | ⟨hstate, -⟩) | hclean
    · exact absurd (hno.count.symm.trans hcount) (by omega)
    · exact hstate
    · exact absurd (hclean.2.count.symm.trans hcount) (by omega)
  refine ⟨_, _, .step .here (i := .owner {}) (fun c e => by cases e; simp) rfl, fun hsound => ?_⟩
  have hconsumed : consumedInCall (log ++ takes s.state) = true := by
    rw [takes, if_pos hstate, consumedInCall_append]
    rfl
  obtain ⟨⟨timeout', he⟩, -⟩ := hsound.returns hconsumed
  simp at he

/-- A step that misses can be followed to a state that is not sound. -/
theorem UntilInv.missed (h : UntilInv s log) (hmiss : Misses s i)
    (hr : (machine τ).next i s = some (s', es)) : Unsound s' (log ++ es) := by
  rcases machine_next hr with ⟨c, state', count', pc', rfl, hstep, rfl⟩ | ⟨u, rfl, -, -⟩
  swap
  · cases hmiss
  cases hmiss with
  | @late _ timeout hpc htime hout =>
    rw [hpc] at hstep
    simp only [ownerStep, if_pos htime] at hstep
    cases hstep
    exact h.late hpc hout _
  | @signalled _ timeout hpc htaken =>
    rw [hpc] at hstep
    simp only [ownerStep, Option.map_eq_some_iff] at hstep
    obtain ⟨⟨count, isTimeout⟩, hwait, he⟩ := hstep
    cases he
    rcases wait_cases hwait with ⟨hexpires, -⟩ | ⟨-, rfl, hcount⟩
    · rw [htaken] at hexpires
      cases hexpires
    · rw [List.append_nil]
      exact h.signalled hpc hcount
  | @unsignalled _ timeout hpc hstate hnone =>
    rw [hpc] at hstep
    simp only [ownerStep] at hstep
    cases hstep
    refine ⟨_, _, .here, ?_⟩
    intro hsound
    have hconsumed : consumedInCall (log ++ takes s.state) = true := by
      rw [takes, if_pos hstate, consumedInCall_append]
      rfl
    rcases (hsound.returns hconsumed).2 with hcount | ⟨u, hu⟩
    · exact absurd hnone.count (Nat.pos_iff_ne_zero.mp hcount)
    · exact hnone.coming u hu

/-- **`park_until` is sound exactly while no step misses.** In a run of `park_until` calls
in which no step misses, every state is sound; from the state after a step that misses,
calls of `park_until` lead on to a state that is not. -/
theorem park_until_sound (run : Exec (machine τ) (inTime τ) s log) :
    Sound s log ∧ ∀ i s' es, usage τ s log i → Misses s i →
      (machine τ).next i s = some (s', es) →
        ∃ s'' log', Onward (machine τ) (usage τ) s' (log ++ es) s'' log' ∧ ¬ Sound s'' log' := by
  have h : UntilInv s log := exec_untilInv (run.mono fun _ _ _ hok => hok.2)
  refine ⟨h.sound, ?_⟩
  intro i s' es _ hmiss hr
  exact h.missed hmiss hr

end Missed

/-! ## Two runs -/

/-- A test of the usage that a schedule can be run with. -/
def usageTest (log : List (Event Unit)) : Input Unit → Bool
  | .owner c => decide (c.call ≠ .park) && log.all fun e => match e with
    | .read now => decide (now ≤ c.now)
    | _ => true
  | .unparker _ => true

/-- The test of the usage is right. -/
theorem usage_of_usageTest {s : State Unit} {log : List (Event Unit)} {i : Input Unit}
    (h : usageTest log i = true) : usage Unit s log i := by
  rintro c rfl
  simp only [usageTest, Bool.and_eq_true, decide_eq_true_eq, List.all_eq_true] at h
  refine ⟨fun _ => ?_, fun timeout _ now hread => ?_⟩
  · cases hcall : c.call with
    | park => exact absurd hcall h.1
    | parkUntil timeout => exact ⟨timeout, rfl⟩
  · exact of_decide_eq_true (h.2 (.read now) hread)

/-- A test of all the conditions, for runs in which no signal is sent. -/
def inTimeTest (s : State Unit) (log : List (Event Unit)) (i : Input Unit) : Bool :=
  usageTest log i && match s.owner, i with
    | .clock timeout, .owner c => decide (c.now < timeout) || (decide (s.state = empty) &&
        decide (s.count = 0) && decide (s.unparker () = .outside))
    | .timedWait _, .owner c => c.expires
    | .swapUntil .., _ => decide (s.state ≠ notified)
    | _, _ => true

/-- The test of all the conditions is right. -/
theorem inTime_of_inTimeTest {s : State Unit} {log : List (Event Unit)} {i : Input Unit}
    (h : inTimeTest s log i = true) : inTime Unit s log i := by
  simp only [inTimeTest, Bool.and_eq_true] at h
  refine ⟨usage_of_usageTest h.1, fun hmiss => ?_⟩
  have hstep := h.2
  cases hmiss with
  | late hpc htime hout =>
    simp only [hpc, Bool.or_eq_true, Bool.and_eq_true, decide_eq_true_eq] at hstep
    rcases hstep with hlt | ⟨⟨hstate, hcount⟩, hnone⟩
    · exact absurd htime (Nat.not_le.mpr hlt)
    · rcases hout with hparked | hno
      · exact empty_ne_parked (hstate.symm.trans hparked)
      · exact hno ⟨hcount, fun u => by rw [show u = () from rfl, hnone]; decide⟩
  | signalled hpc htaken =>
    simp [hpc, htaken] at hstep
  | unsignalled hpc hstate hnone =>
    simp [hpc, hstate] at hstep

/-- A call that times out in its second round, and one that consumes a notification. -/
theorem park_until_sound_both :
    ∃ (s : State Unit) (log : List (Event Unit)), .parker (.returned (.parkUntil 3) false) ∈ log ∧
      .parker (.returned (.parkUntil 9) true) ∈ log ∧ Sound s log := by
  let next (timeout now : Instant) : Input Unit :=
    .owner { call := .parkUntil timeout, now := now, expires := true }
  obtain ⟨s, log, run, hend⟩ := exists_exec_of_run (machine Unit) (inTime Unit) inTimeTest
    (fun _ _ _ h => inTime_of_inTimeTest h) rfl
    [next 3 0, next 3 0, next 3 1, next 3 1, next 3 1, next 3 4, .unparker (), .unparker (),
      next 9 5, next 9 5]
    (fun s log => decide (.parker (.returned (.parkUntil 3) false) ∈ log) &&
      decide (.parker (.returned (.parkUntil 9) true) ∈ log)) (by decide +kernel)
  simp only [Bool.and_eq_true, decide_eq_true_eq] at hend
  exact ⟨s, log, hend.1, hend.2, (park_until_sound run).1⟩

/-- A deadline that has passed at the first reading of the clock leaves `PARKED` behind. -/
theorem park_until_sound_fails :
    ¬ ∀ (s : State Unit) (log : List (Event Unit)), Exec (machine Unit) (usage Unit) s log →
      Sound s log := by
  intro hall
  obtain ⟨s, log, run, hend⟩ := exists_exec_of_run (machine Unit) (usage Unit)
    (fun _ log i => usageTest log i) (fun _ _ _ h => usage_of_usageTest h) rfl
    (List.replicate 3 (.owner { call := .parkUntil 0 }))
    (fun s _ => decide (s.owner = .outside) && decide (s.unparker () = .outside) &&
      decide (s.state = parked)) (by decide +kernel)
  simp only [Bool.and_eq_true, decide_eq_true_eq] at hend
  obtain ⟨⟨hpc, hnone⟩, hstate⟩ := hend
  have hclean := ((hall s log run).clean hpc fun u => by rw [show u = () from rfl, hnone]; decide).1
  rw [hstate] at hclean
  exact absurd hclean (by decide)

end Mekong.Analysis.SemaphoreParker
