import Mekong.Analysis.FairHandoff
import Mekong.Program.Mutex

/-!
# Mutual exclusion

An owner is read off the log (a thread that got the lock and has not lost it) or off the
state (a dequeued thread the lock is being handed to). There is at most one, and
`LOCKED_BIT` says whether there is one. It follows that the critical sections of a
`Mutex` follow each other in the log without overlap, and that its value is what they
make of the initial one, one after the other.
-/

set_option autoImplicit false

namespace Mekong.Analysis.RawMutex

open Mekong.Computation Mekong.Model Mekong.Program.RawMutex

variable {τ : Type} [DecidableEq τ] {s : State τ} {g : Ghost τ} {t : τ} {log : List (Event τ)}

/-! ## Owners -/

/-- Whether `t` has the lock after an event, given whether it had it before: it gets it
with `lock` or `try_lock`, and loses it by releasing it or, in a fair unlock, by choosing
the thread to hand it to. -/
def holdsAfter (t : τ) (b : Bool) : Event τ → Bool
  | .acquired u => if u = t then true else b
  | .released u _ _ | .removed u .fair _ _ => if u = t then false else b
  | _ => b

/-- `t` has returned from `lock` or succeeded in `try_lock` and has not released since. -/
def Holds (log : List (Event τ)) (t : τ) : Prop := log.foldl (holdsAfter t) false = true

/-- The lock is being handed to `t`, which a fair unlock has dequeued: the remover has
still to wake it, or its notification comes with `TOKEN_HANDOFF`. -/
def BeingHanded (s : State τ) (t : τ) : Prop :=
  ∃ p, (s.pc t = .park p ∧ ((∃ r, wakes (s.pc r) = some (.fair, p)) ∨
      (s.mem.node p).parker = true ∧ (s.mem.node p).unparkToken = tokenHandoff)) ∨
    (s.pc t = .readToken p ∧ (s.mem.node p).unparkToken = tokenHandoff)

/-- The owners of the lock. -/
def Owner (s : State τ) (log : List (Event τ)) (t : τ) : Prop := Holds log t ∨ BeingHanded s t

/-- The phases with the lock. -/
def Phase.owns : Phase → Bool
  | .held | .unlocking | .slowFair => true
  | _ => false

/-- The owner is the thread whose phase says so. -/
theorem ownsLock_eq (pc : Pc) : ownsLock pc = (phase pc).owns := by
  cases pc with
  | unpark mode p => cases mode <;> rfl
  | scanTail mode => cases mode <;> rfl
  | scanNext mode => cases mode <;> rfl
  | scanPrev mode => cases mode <;> rfl
  | markHead mode => cases mode <;> rfl
  | readPrev mode => cases mode <;> rfl
  | removeLast mode => cases mode <;> rfl
  | setNewTail mode => cases mode <;> rfl
  | unlockQueue mode => cases mode <;> rfl
  | _ => rfl

/-- The events of another thread's step do not change what `t` has. -/
theorem holdsAfter_of_ne {u : τ} {pc pc' : Pc} {es : List (Event τ)} (h : Control u pc es pc')
    (hut : u ≠ t) (b : Bool) : es.foldl (holdsAfter t) b = b := by
  cases h <;> simp [holdsAfter, hut]

/-- What `t`'s own step reports agrees with its phase. -/
theorem holdsAfter_step {pc pc' : Pc} {es : List (Event τ)} (h : Control t pc es pc') :
    es.foldl (holdsAfter t) (phase pc).owns = (phase pc').owns := by
  cases h with
  | releasedFair hpc hp' => rw [hpc, hp']; simp [holdsAfter, Phase.owns]
  | quiet hp => simp [hp]
  | called hop hp hp' => simp [holdsAfter, hp, hp']
  | dropped hop hp hp' => simp [holdsAfter, hp, hp', Phase.owns]
  | released hs hp hp' => simp [holdsAfter, hp, hp', Phase.owns]
  | _ hp hp' => simp [holdsAfter, hp, hp', Phase.owns]

/-- A thread has the lock by the log exactly at the places that own it. -/
theorem holds_iff (run : Runs (machine τ) s log) (t : τ) : Holds log t ↔ ownsLock (s.pc t) = true := by
  have hrun : log.foldl (holdsAfter t) false = (phase (s.pc t)).owns := by
    refine run.invariant (fun s log => log.foldl (holdsAfter t) false = (phase (s.pc t)).owns) ?_ ?_
    · rintro s rfl
      rfl
    · rintro s log ⟨u, c⟩ s' es ih - hr
      obtain ⟨m', pc', hthread, rfl⟩ := machine_next hr
      have hcontrol := step_control hthread
      rw [List.foldl_append, ih]
      by_cases hut : u = t
      · subst hut
        rw [Threads.moveTo_pc_self]
        exact holdsAfter_step hcontrol
      · rw [Threads.moveTo_pc_of_ne _ _ _ (Ne.symm hut)]
        exact holdsAfter_of_ne hcontrol hut _
  rw [Holds, hrun, ownsLock_eq]

omit [DecidableEq τ] in
/-- A parked thread is being handed the lock exactly when its node says so. -/
theorem Inv.handed_iff (h : Inv s g) {p : Ptr} (hpc : s.pc t = .park p) :
    (g.status p).Handed ↔ (∃ r, wakes (s.pc r) = some (.fair, p)) ∨
      ((s.mem.node p).parker = true ∧ (s.mem.node p).unparkToken = tokenHandoff) := by
  have hn := h.node t
  rw [hpc] at hn
  have hwait := hn.2.2
  have hs := h.status p
  have hwake : ∀ r mode, wakes (s.pc r) = some (mode, p) → g.status p = .removed r mode :=
    fun r mode hr => (h.node r).removed hr
  unfold StatusInv at hs
  cases hg : g.status p with
  | free => rw [hg] at hwait; exact hwait.elim
  | inside => rw [hg] at hwait; exact hwait.elim
  | queued =>
    simp only [hg] at hs
    refine iff_of_false id ?_
    rintro (⟨r, hr⟩ | ⟨hpk, -⟩)
    · have := hwake r _ hr
      rw [hg] at this
      cases this
    · rw [hs.2.1] at hpk
      cases hpk
  | removed r mode =>
    simp only [hg] at hs
    constructor
    · rintro rfl
      exact .inl ⟨r, hs.2.1⟩
    · rintro (⟨r', hr⟩ | ⟨hpk, -⟩)
      · have := hwake r' _ hr
        rw [hg] at this
        injection this
      · rw [hs.1] at hpk
        cases hpk
  | woken mode =>
    simp only [hg] at hs
    constructor
    · rintro rfl
      exact .inr ⟨hs.1, hs.2.1⟩
    · rintro (⟨r, hr⟩ | ⟨-, htoken⟩)
      · have := hwake r _ hr
        rw [hg] at this
        cases this
      · rw [hs.2.1] at htoken
        cases mode with
        | plain => simp [token, tokenHandoff, timeoutBit] at htoken
        | fair => rfl

/-- The owners are the ghost's owner. -/
theorem owner_iff (run : Runs (machine τ) s log) (h : Inv s g) (t : τ) :
    Owner s log t ↔ g.owner = some t := by
  rw [← h.owner t, Owner, holds_iff run]
  cases hpc : s.pc t with
  | park p =>
    simp only [BeingHanded, hpc, Pc.park.injEq, reduceCtorEq, false_and, or_false, ownsLock,
      inSlowFair, Bool.false_eq_true, false_or, exists_eq_left', Owns]
    exact (h.handed_iff hpc).symm
  | readToken p =>
    simp [BeingHanded, hpc, Owns, ownsLock, inSlowFair]
  | _ => simp [BeingHanded, hpc, Owns]

/-- There is at most one owner, and `LOCKED_BIT` is set exactly when there is one. -/
theorem owner_unique (run : Runs (machine τ) s log) :
    (∀ t u, Owner s log t → Owner s log u → t = u) ∧
      (isLocked s.mem.word = true ↔ ∃ t, Owner s log t) := by
  obtain ⟨g, h⟩ := exec_inv run
  simp only [owner_iff run h]
  refine ⟨fun t u ht hu => Option.some.inj (ht.symm.trans hu), ?_⟩
  rw [h.locked, Option.isSome_iff_exists]

end Mekong.Analysis.RawMutex

namespace Mekong.Analysis.Mutex

open Mekong.Computation Mekong.Model Mekong.Program.Mutex Mekong.Analysis.RawMutex

variable {τ D : Type} [DecidableEq τ] {data : D} {s : State τ D} {log : List (Event τ D)}

/-! ## Critical sections -/

/-- One critical section: the guard's thread and its accesses, in order. -/
structure Section (τ D : Type) where
  thread : τ
  accesses : List (D → D)

/-- A log as far as guards and accesses go. -/
inductive SectionEvent (τ D : Type)
  /-- `lock` or `try_lock` gives `t` a guard. -/
  | entered (t : τ)
  | accessed (t : τ) (f : D → D)
  /-- `t`'s guard is dropped. -/
  | left (t : τ)

def sectionEvent : Event τ D → Option (SectionEvent τ D)
  | .raw (.acquired t) => some (.entered t)
  | .raw (.called t .unlock) | .raw (.called t .unlockFair) => some (.left t)
  | .accessed t f => some (.accessed t f)
  | _ => none

/-- The events of a section whose guard has not been dropped yet. -/
def Section.opened (x : Section τ D) : List (SectionEvent τ D) :=
  .entered x.thread :: x.accesses.map (.accessed x.thread)

/-- The events of a complete section. -/
def Section.events (x : Section τ D) : List (SectionEvent τ D) := x.opened ++ [.left x.thread]

/-- What a section makes of the value. -/
def Section.run (x : Section τ D) (d : D) : D := x.accesses.foldl (fun d f => f d) d

/-- `t`, at `pc`, has a guard exactly when the section still open is its own. -/
def GuardOf (current : Option (Section τ D)) (t : τ) (pc : Program.RawMutex.Pc) : Prop :=
  pc = .held ↔ ∃ x, current = some x ∧ x.thread = t

/-- The log is a sequence of complete sections, and one more if some thread has a guard;
the value is what these sections make of the initial one, in this order. -/
def Sequential (data : D) (s : State τ D) (log : List (Event τ D)) : Prop :=
  ∃ (done : List (Section τ D)) (current : Option (Section τ D)),
    log.filterMap sectionEvent = done.flatMap Section.events ++ current.elim [] Section.opened ∧
      (∀ t, GuardOf current t (s.raw.pc t)) ∧
      s.data = (done ++ current.toList).foldl (fun d x => x.run d) data

/-- A thread holds the lock exactly in the phase for it. -/
theorem held_iff_phase {pc : Program.RawMutex.Pc} : pc = .held ↔ phase pc = .held := by
  cases pc with
  | unpark mode p => cases mode <;> simp [phase, inSlowFair]
  | _ => simp only [phase, inSlowFair, decide_eq_true_eq, reduceCtorEq] <;> split <;> simp

/-- A run of the mutex is a run of its `RawMutex`. -/
theorem raw_runs (run : Runs (machine τ data) s log) :
    Runs (Program.RawMutex.machine τ) s.raw (log.flatMap rawEvent) := by
  refine run.project State.raw rawEvent (by rintro s rfl; rfl) ?_
  rintro s log i s' es - - hr
  cases i with
  | raw t c =>
    simp only [machine, Option.map_eq_some_iff, Prod.mk.injEq] at hr
    obtain ⟨⟨s₁, es₁⟩, hr, rfl, rfl⟩ := hr
    refine .inr ⟨(t, c), trivial, ?_⟩
    rw [hr]
    simp [List.flatMap_map, rawEvent]
  | access t f =>
    simp only [machine] at hr
    split at hr <;> cases hr
    exact .inl ⟨rfl, rfl⟩

section Steps

variable {t : τ} {d : D} {pc' : Program.RawMutex.Pc} {m' : Mem τ}

/-- A step of the `RawMutex` that opens and closes no section. -/
theorem Sequential.skip {es : List (Event τ D)} (h : Sequential data s log)
    (hes : es.filterMap sectionEvent = []) (hpc : s.raw.pc t = .held ↔ pc' = .held) :
    Sequential data ⟨s.raw.moveTo t m' pc', s.data⟩ (log ++ es) := by
  obtain ⟨done, current, hlog, hheld, hdata⟩ := h
  refine ⟨done, current, by rw [List.filterMap_append, hlog, hes, List.append_nil], ?_, hdata⟩
  refine Threads.forall_moveTo (GuardOf current) ?_ fun u _ => hheld u
  rw [GuardOf, ← hpc]
  exact hheld t

/-- A step after which `t` owns the lock comes when no other thread has a guard. -/
theorem Sequential.no_guard {g' : Ghost τ} (hpc : s.raw.pc t ≠ .held)
    (hinv : Inv (s.raw.moveTo t m' pc') g') (hown : (phase pc').owns = true) (u : τ) :
    s.raw.pc u ≠ .held := by
  intro hu
  have hut : u ≠ t := by
    rintro rfl
    exact hpc hu
  have h₁ := (hinv.owner u).mp (by rw [Threads.moveTo_pc_of_ne _ _ _ hut, hu]; rfl)
  have h₂ : g'.owner = some t := by
    refine (hinv.owner t).mp ?_
    rw [Threads.moveTo_pc_self]
    rw [← ownsLock_eq] at hown
    cases pc' <;> first | exact hown | cases hown
  rw [h₁] at h₂
  exact hut (Option.some.inj h₂)

/-- `t` gets a guard. -/
theorem Sequential.enter (h : Sequential data s log) (hnone : ∀ u, s.raw.pc u ≠ .held) :
    Sequential data ⟨s.raw.moveTo t m' .held, s.data⟩ (log ++ [.raw (.acquired t)]) := by
  obtain ⟨done, current, hlog, hheld, hdata⟩ := h
  obtain rfl : current = none := by
    cases current with
    | none => rfl
    | some x => exact absurd ((hheld x.thread).mpr ⟨x, rfl, rfl⟩) (hnone _)
  refine ⟨done, some ⟨t, []⟩, ?_, ?_, ?_⟩
  · simpa [sectionEvent, Section.opened] using hlog
  · exact Threads.forall_moveTo (GuardOf _) (by simp [GuardOf])
      fun u hu => by simp [GuardOf, hnone u, Ne.symm hu]
  · simpa [Section.run] using hdata

/-- `t` gets a guard and drops it at once, inside `is_locked`. -/
theorem Sequential.probe (h : Sequential data s log) (hnone : ∀ u, s.raw.pc u ≠ .held)
    (hpc' : pc' ≠ .held) :
    Sequential data ⟨s.raw.moveTo t m' pc', s.data⟩
      (log ++ [.raw (.acquired t), .raw (.called t .unlock)]) := by
  obtain ⟨done, current, hlog, hheld, hdata⟩ := h
  obtain rfl : current = none := by
    cases current with
    | none => rfl
    | some x => exact absurd ((hheld x.thread).mpr ⟨x, rfl, rfl⟩) (hnone _)
  refine ⟨done ++ [⟨t, []⟩], none, ?_, ?_, ?_⟩
  · simpa [sectionEvent, Section.events, Section.opened] using hlog
  · exact Threads.forall_moveTo (GuardOf _) (by simp [GuardOf, hpc']) fun u _ => hheld u
  · simpa [Section.run] using hdata

/-- `t` drops its guard. -/
theorem Sequential.leave {op : Program.RawMutex.Op} (h : Sequential data s log)
    (hpc : s.raw.pc t = .held) (hop : op = .unlock ∨ op = .unlockFair) (hpc' : pc' ≠ .held) :
    Sequential data ⟨s.raw.moveTo t m' pc', s.data⟩ (log ++ [.raw (.called t op)]) := by
  obtain ⟨done, current, hlog, hheld, hdata⟩ := h
  obtain ⟨x, rfl, rfl⟩ := (hheld t).mp hpc
  refine ⟨done ++ [x], none, ?_, ?_, by simpa using hdata⟩
  · rcases hop with rfl | rfl <;> simp [hlog, sectionEvent, Section.events]
  · refine Threads.forall_moveTo (GuardOf _) (by simp [GuardOf, hpc']) fun u hu => ?_
    have hguard := hheld u
    simpa [GuardOf, Ne.symm hu] using hguard

omit [DecidableEq τ] in
/-- `t` uses its guard. -/
theorem Sequential.access {f : D → D} (h : Sequential data s log) (hpc : s.raw.pc t = .held) :
    Sequential data ⟨s.raw, f s.data⟩ (log ++ [.accessed t f]) := by
  obtain ⟨done, current, hlog, hheld, hdata⟩ := h
  obtain ⟨x, rfl, rfl⟩ := (hheld t).mp hpc
  refine ⟨done, some ⟨x.thread, x.accesses ++ [f]⟩, ?_, fun u => ?_, ?_⟩
  · simp [hlog, sectionEvent, Section.opened]
  · simpa [GuardOf] using hheld u
  · simp [hdata, Section.run]

/-- A step of the `RawMutex`. -/
theorem Sequential.step {g' : Ghost τ} {es : List (Program.RawMutex.Event τ)}
    (h : Sequential data s log) (hc : Control t (s.raw.pc t) es pc')
    (hinv : Inv (s.raw.moveTo t m' pc') g') :
    Sequential data ⟨s.raw.moveTo t m' pc', s.data⟩ (log ++ es.map .raw) := by
  have hne : ∀ {pc : Program.RawMutex.Pc} {x : Phase}, phase pc = x → x ≠ .held → pc ≠ .held :=
    fun hp hx e => hx (hp ▸ held_iff_phase.mp e)
  have hneither : ∀ {x y : Phase}, phase (s.raw.pc t) = x → phase pc' = y → x ≠ .held → y ≠ .held →
      (s.raw.pc t = .held ↔ pc' = .held) :=
    fun hx hy hx' hy' => iff_of_false (hne hx hx') (hne hy hy')
  cases hc with
  | quiet hp => exact h.skip (by simp) (by rw [held_iff_phase, held_iff_phase, hp])
  | called hop hp hp' =>
    refine h.skip ?_ (hneither hp hp' (by simp) (by simp))
    rcases hop with rfl | rfl | rfl <;> simp [sectionEvent]
  | acquired hp hp' =>
    obtain rfl := held_iff_phase.mpr hp'
    exact h.enter (Sequential.no_guard (hne hp (by simp)) hinv rfl)
  | probed hp hp' =>
    exact h.probe (Sequential.no_guard (hne hp (by simp)) hinv (by rw [hp']; rfl))
      (hne hp' (by simp))
  | dropped hop hp hp' => exact h.leave (held_iff_phase.mpr hp) hop (hne hp' (by simp))
  | released hs hp hp' =>
    exact h.skip (by simp [sectionEvent]) (hneither hp hp' (by simp) (by simp))
  | releasedFair hpc hp' =>
    exact h.skip (by simp [sectionEvent]) (iff_of_false (by simp [hpc]) (hne hp' (by simp)))
  | _ hp hp' => exact h.skip (by simp [sectionEvent]) (hneither hp hp' (by simp) (by simp))

end Steps

/-- **Mutual exclusion.** In every reachable state there is at most one owner, `LOCKED_BIT`
is set exactly when there is one, and the critical sections so far do not overlap: the
value is their sequential composition. -/
theorem mutual_exclusion (run : Runs (machine τ data) s log) :
    (∀ t u, Owner s.raw (log.flatMap rawEvent) t → Owner s.raw (log.flatMap rawEvent) u → t = u) ∧
      (isLocked s.raw.mem.word = true ↔ ∃ t, Owner s.raw (log.flatMap rawEvent) t) ∧
      Sequential data s log := by
  obtain ⟨hunique, hlocked⟩ := owner_unique (raw_runs run)
  refine ⟨hunique, hlocked, ?_⟩
  refine run.invariant_with (fun s _ => ∃ g, Inv s.raw g) (Sequential data)
    (fun s log run => exec_inv (raw_runs run)) ?_ ?_
  · rintro s rfl
    exact ⟨[], none, rfl, by simp [GuardOf, Program.RawMutex.State.new], rfl⟩
  · rintro s log i s' es - ⟨g', h'⟩ hseq - hr
    cases i with
    | raw t c =>
      simp only [machine, Option.map_eq_some_iff, Prod.mk.injEq] at hr
      obtain ⟨⟨s₁, es₁⟩, hr, rfl, rfl⟩ := hr
      obtain ⟨m', pc', hthread, rfl⟩ := machine_next hr
      exact hseq.step (step_control hthread) h'
    | access t f =>
      simp only [machine] at hr
      split at hr <;> cases hr
      exact hseq.access (by assumption)

/-- Two threads increment a counter, the second after a fair hand-off. -/
def countingSchedule : List (Input Bool ℕ) :=
  (handoffSchedule.take 20).map (fun i => .raw i.1 i.2) ++ [.access false (· + 1)] ++
    (handoffSchedule.drop 20).map (fun i => .raw i.1 i.2) ++
    (Program.RawMutex.steps true 2).map (fun i => .raw i.1 i.2) ++ [.access true (· + 1)]

/-- Two threads count to two. -/
theorem mutual_exclusion_counting :
    ∃ (s : State Bool ℕ) (log : List (Event Bool ℕ)), s.data = 2 ∧ s.raw.pc true = .held ∧
      Sequential 0 s log := by
  obtain ⟨s, log, run, hend⟩ := exists_runs_of_run (machine Bool 0) rfl countingSchedule
    (fun s _ => decide (s.data = 2) && decide (s.raw.pc true = .held)) (by decide +kernel)
  simp only [Bool.and_eq_true, decide_eq_true_eq] at hend
  exact ⟨s, log, hend.1, hend.2, (mutual_exclusion run).2.2⟩

end Mekong.Analysis.Mutex
