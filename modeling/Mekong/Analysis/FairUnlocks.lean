import Mekong.Analysis.RawMutexTrace
import Mekong.Program.FairTimeout

/-!
# When `unlock_fair` is fair

`FairTimeout` is on a schedule that the log tells: the answer is yes for the first reading
of the clock later than the last yes by more than the wait drawn then, which is less than a
millisecond. So an `unlock_fair` that leaves the lock to whoever comes first was less than
a millisecond behind a fair one, or found nobody waiting.
-/

set_option autoImplicit false

namespace Mekong.Analysis.TimedMutex

open Mekong.Computation Mekong.Model Mekong.Program Mekong.Program.TimedMutex

variable {τ : Type} {start : Instant} {seed : U32} {log es : List (Event τ)} {t u : τ}

/-! ## The schedule -/

/-- When `unlock_fair` was told to be fair. -/
def fairTime : Event τ → Option Instant
  | .asked _ now true => some now
  | _ => none

def fairTimes (log : List (Event τ)) : List Instant := log.filterMap fairTime

/-- The last of these times, or the creation of the mutex. -/
def lastFair (start : Instant) (log : List (Event τ)) : Instant := (fairTimes log).getLastD start

/-- The nanoseconds drawn at the `n`-th of these times; the first timeout is the creation. -/
def wait (seed : U32) : ℕ → ℕ
  | 0 => 0
  | n + 1 => (FairTimeout.genU32^[n + 1] seed).toNat % 1000000

/-- The wait for the next fair unlock is less than a millisecond. -/
theorem wait_lt (seed : U32) (n : ℕ) : wait seed n < 1000000 := by
  cases n with
  | zero => exact Nat.succ_pos _
  | succ n => exact Nat.mod_lt _ (Nat.succ_pos _)

/-- When the next answer is due to be yes. -/
def due (start : Instant) (seed : U32) (log : List (Event τ)) : Instant :=
  lastFair start log + wait seed (fairTimes log).length

/-- The next fair unlock is due within a millisecond of the last. -/
theorem due_lt (start : Instant) (seed : U32) (log : List (Event τ)) :
    due start seed log < lastFair start log + 1000000 :=
  Nat.add_lt_add_left (wait_lt seed _) _

/-- The timeout after the events of the log. -/
def scheduled (start : Instant) (seed : U32) (log : List (Event τ)) : FairTimeout :=
  ⟨due start seed log, FairTimeout.genU32^[(fairTimes log).length] seed⟩

/-- Events without a fair answer. -/
theorem scheduled_append (h : fairTimes es = []) :
    scheduled start seed (log ++ es) = scheduled start seed log := by
  have hsame : fairTimes (log ++ es) = fairTimes log := by
    rw [fairTimes, List.filterMap_append]
    exact (congrArg _ h).trans (List.append_nil _)
  rw [scheduled, scheduled, due, due, lastFair, lastFair, hsame]

/-- The answer is the schedule's, and so is the timeout after it. -/
theorem scheduled_isTimeout (t : τ) (now : Instant) :
    (scheduled start seed log).isTimeout now =
      (decide (due start seed log < now),
        scheduled start seed (log ++ [.asked t now (decide (due start seed log < now))])) := by
  by_cases hlate : due start seed log < now
  · have htimes : fairTimes (log ++ [.asked t now true]) = fairTimes log ++ [now] := by
      simp [fairTimes, fairTime]
    rw [decide_eq_true hlate]
    refine (if_pos hlate).trans ?_
    simp only [scheduled, due, lastFair, htimes, List.length_append, List.length_singleton,
      List.getLastD_concat, wait, Function.iterate_succ_apply']
  · rw [decide_eq_false hlate, scheduled_append (by rfl)]
    exact if_neg hlate

/-- The events of the `RawMutex`. -/
def rawEvents : Event τ → List (RawMutex.Event τ)
  | .raw e => [e]
  | _ => []

/-- The mutex's events of a step are those it reported. -/
theorem rawEvents_map (l : List (RawMutex.Event τ)) :
    (l.map Event.raw).flatMap rawEvents = l := by
  induction l with
  | nil => rfl
  | cons e l ih => rw [List.map_cons, List.flatMap_cons, ih]; rfl

section Runs

variable [DecidableEq τ] {s s' : State τ} {c : Choice}

/-- Whatever the clock says, the run is one of `RawMutex`. -/
theorem runs_raw (run : Runs (TimedMutex.machine τ start seed) s log) :
    Runs (RawMutex.machine τ) s.raw (log.flatMap rawEvents) := by
  refine run.project State.raw rawEvents ?_ ?_
  · rintro s rfl
    rfl
  · rintro s log ⟨t, c⟩ s' es - - hr
    simp only [TimedMutex.machine, TimedMutex.step] at hr
    split at hr
    · split at hr
      · cases hr
      · obtain ⟨r, hnext, hs⟩ := Option.map_eq_some_iff.mp hr
        cases hs
        refine .inr ⟨_, trivial, hnext.trans ?_⟩
        rw [List.flatMap_cons, rawEvents_map]
        rfl
    · obtain ⟨r, hnext, hs⟩ := Option.map_eq_some_iff.mp hr
      cases hs
      refine .inr ⟨_, trivial, hnext.trans ?_⟩
      have hmarked : (markedEvents t s.raw).flatMap rawEvents = [] := by
        unfold markedEvents
        split <;> rfl
      rw [List.flatMap_append, hmarked, rawEvents_map]
      rfl

/-- The inversion of a step: `unlock_fair` asks, or the mutex goes on. -/
theorem step_cases (hr : step t c s = some (s', es)) :
    (s.raw.pc t = .unlockFair ∧ s'.fairTimeout = (s.fairTimeout.isTimeout c.now).2 ∧
        s'.raw = s.raw.moveTo t s.raw.mem (if (s.fairTimeout.isTimeout c.now).1 = true
          then .markTimeout else .clearBits lockedBit) ∧
        es = [.asked t c.now (s.fairTimeout.isTimeout c.now).1]) ∨
      (s.raw.pc t ≠ .unlockFair ∧ s'.fairTimeout = s.fairTimeout ∧
        ∃ r, RawMutex.threadStep t c.toChoice s.raw.mem (s.raw.pc t) = some r ∧
          s'.raw = s.raw.moveTo t r.1 r.2.1 ∧ es = markedEvents t s.raw ++ r.2.2.map .raw) := by
  unfold step at hr
  split at hr
  · rename_i hpc
    split at hr
    · cases hr
    · refine .inl ⟨hpc, ?_⟩
      simp only [RawMutex.machine, hpc, RawMutex.threadStep, Option.map_some,
        Option.some.injEq, Prod.mk.injEq] at hr
      obtain ⟨rfl, rfl⟩ := hr
      exact ⟨rfl, rfl, rfl⟩
  · rename_i hpc
    refine .inr ⟨hpc, ?_⟩
    rw [Option.map_eq_some_iff] at hr
    obtain ⟨r, hr, hs⟩ := hr
    cases hs
    simp only [RawMutex.machine, Option.map_eq_some_iff] at hr
    obtain ⟨r', hr', rfl⟩ := hr
    exact ⟨rfl, r', hr', rfl, rfl⟩

omit [DecidableEq τ] in
/-- The mutex's own events are no answers. -/
theorem not_asked_raw (t : τ) (s : RawMutex.State τ) (l : List (RawMutex.Event τ)) (u : τ)
    (now : Instant) (fair : Bool) : Event.asked u now fair ∉ markedEvents t s ++ l.map .raw := by
  intro he
  rcases List.mem_append.mp he with he | he
  · unfold markedEvents at he
    split at he
    · cases List.mem_singleton.mp he
    · cases he
  · obtain ⟨x, -, hx⟩ := List.mem_map.mp he
    cases hx

omit [DecidableEq τ] in
/-- The mutex's own steps tell no fair unlock. -/
theorem fairTimes_raw (s : RawMutex.State τ) (l : List (RawMutex.Event τ)) :
    fairTimes (markedEvents t s ++ l.map .raw) = [] := by
  rw [fairTimes, List.filterMap_eq_nil_iff]
  intro e he
  match e with
  | .asked u now fair => exact absurd he (not_asked_raw t s l u now fair)
  | .marked .. => rfl
  | .raw _ => rfl

/-- The timeout is the scheduled one. -/
theorem exec_scheduled (run : Runs (TimedMutex.machine τ start seed) s log) :
    s.fairTimeout = scheduled start seed log := by
  refine run.invariant (fun s log => s.fairTimeout = scheduled start seed log) ?_ ?_
  · rintro s rfl
    rfl
  · rintro s log ⟨t, c⟩ s' es htimeout - hr
    rcases step_cases hr with ⟨-, htimeout', -, rfl⟩ | ⟨-, htimeout', r, -, -, rfl⟩
    · rw [htimeout', htimeout, scheduled_isTimeout t]
    · rw [htimeout', htimeout, scheduled_append (fairTimes_raw s.raw r.2.2)]

/-- **`unlock_fair` is fair on a schedule.** In every run each call is told to be fair
exactly when the clock is past the last fair call, or the creation, by more than the wait
drawn then; and every wait is less than a millisecond. -/
theorem fair_on_schedule (run : Runs (TimedMutex.machine τ start seed) s log) :
    Each (fun pre e => ∀ t now fair, e = .asked t now fair →
      (fair = true ↔ lastFair start pre + wait seed (fairTimes pre).length < now) ∧
        (lastFair start pre + 1000000 ≤ now → fair = true)) log := by
  refine run.invariant_with (fun s log => s.fairTimeout = scheduled start seed log) _
    (fun _ _ run => exec_scheduled run) (fun _ _ => each_nil) ?_
  rintro s log ⟨t, c⟩ s' es htimeout - heach - hr
  rcases step_cases hr with ⟨-, -, -, rfl⟩ | ⟨-, -, r, -, -, rfl⟩
  · rw [htimeout, scheduled_isTimeout t]
    refine heach.concat ?_
    rintro u now fair ⟨⟩
    rw [decide_eq_true_iff]
    exact ⟨Iff.rfl, fun hlate => (due_lt start seed log).trans_le hlate⟩
  · refine heach.append ?_
    rintro pre e post heq u now fair rfl
    exact absurd (heq ▸ by simp) (not_asked_raw t s.raw r.2.2 u now fair)

end Runs

/-- These choices of one thread, with the clock at `now`. -/
def reading (now : Instant) (l : List RawMutex.Choice) : List (Bool × Choice) :=
  l.map fun c => (false, ⟨c, now⟩)

/-- Two locks with fair unlocks, at five nanoseconds after the creation and at six. -/
def twoUnlocks : List (Bool × Choice) :=
  reading 5 [{ op := .lock }, {}, { op := .unlockFair }, {}, {}, {}] ++
    reading 6 [{ op := .lock }, {}, { op := .unlockFair }, {}, {}]

/-- One answer is fair, and the next one is not due yet. -/
theorem fair_on_schedule_two :
    ∃ log : List (Event Bool), .asked false 5 true ∈ log ∧ .asked false 6 false ∈ log ∧
      Each (fun pre e => ∀ t now fair, e = .asked t now fair →
        (fair = true ↔ lastFair 0 pre + wait 1 (fairTimes pre).length < now) ∧
          (lastFair 0 pre + 1000000 ≤ now → fair = true)) log := by
  obtain ⟨s, log, run, hend⟩ := exists_runs_of_run (TimedMutex.machine Bool 0 1) rfl twoUnlocks
    (fun _ log => decide (.asked false 5 true ∈ log) && decide (.asked false 6 false ∈ log))
    (by decide +kernel)
  simp only [Bool.and_eq_true, decide_eq_true_eq] at hend
  exact ⟨log, hend.1, hend.2, fair_on_schedule run⟩

/-! ## What becomes of the answer -/

/-- The last answer for `t`: the log before it, its time, what it was, and the log since. -/
def Answered (log : List (Event τ)) (t : τ) (pre : List (Event τ)) (now : Instant) (fair : Bool)
    (post : List (Event τ)) : Prop :=
  log = pre ++ .asked t now fair :: post ∧ ∀ now' fair', Event.asked t now' fair' ∉ post

/-- `t` may leave the lock to whoever comes first: it was told that no fair unlock is due,
which is less than a millisecond after the last one, or it saw nobody waiting. -/
def MayBarge (start : Instant) (log : List (Event τ)) (t : τ) : Prop :=
  ∃ pre now fair post, Answered log t pre now fair post ∧
    (fair = false ∧ now < lastFair start pre + 1000000 ∨
      fair = true ∧ Event.marked t false ∈ post)

section Answers

variable {pre post : List (Event τ)} {now : Instant} {fair : Bool}

/-- An answer stands while the clock is not asked again. -/
theorem Answered.append (h : Answered log t pre now fair post)
    (hes : ∀ now fair, Event.asked t now fair ∉ es) :
    Answered (log ++ es) t pre now fair (post ++ es) := by
  refine ⟨by rw [h.1]; simp, fun now' fair' hmem => ?_⟩
  rcases List.mem_append.mp hmem with hmem | hmem
  · exact h.2 now' fair' hmem
  · exact hes now' fair' hmem

/-- A thread may barge while the clock is not asked again. -/
theorem MayBarge.append (h : MayBarge start log t) (hes : ∀ now fair, Event.asked t now fair ∉ es) :
    MayBarge start (log ++ es) t := by
  obtain ⟨pre, now, fair, post, ha, hwhy⟩ := h
  exact ⟨pre, now, fair, post ++ es, ha.append hes, hwhy.imp id fun ⟨hf, hm⟩ =>
    ⟨hf, List.mem_append_left _ hm⟩⟩

/-- The answer just given. -/
theorem answered_concat (log : List (Event τ)) (t : τ) (now : Instant) (fair : Bool) :
    Answered (log ++ [.asked t now fair]) t log now fair [] :=
  ⟨rfl, fun _ _ => List.not_mem_nil⟩

end Answers

section Places

open Mekong.Program.RawMutex

variable {c : RawMutex.Choice} {m : Mem τ} {pc : Pc} {r : Mem τ × Pc × List (RawMutex.Event τ)}

/-- A round of `lock_slow` is no place of `unlock_fair`. -/
theorem lockSlow_ne (counter : ℕ) (state : U64) :
    lockSlow counter state ≠ .markTimeout ∧ ∀ bit, lockSlow counter state ≠ .clearBits bit := by
  unfold lockSlow
  split <;> [skip; split] <;> simp

/-- Only `unlock_fair` itself leads to its `fetch_or` and its `fetch_and`. -/
theorem mark_of_step (hr : threadStep t c m pc = some r) (hpc : pc ≠ .unlockFair) :
    r.2.1 ≠ .markTimeout ∧
      ∀ bit, r.2.1 = .clearBits bit → pc = .markTimeout ∧ queueHead m.word = null := by
  cases pc
  case unlockFair => exact absurd rfl hpc
  case load | grab | push =>
    simp only [threadStep] at hr
    (repeat' split at hr) <;> cases hr <;> simp [lockSlow_ne]
  all_goals
    simp only [threadStep, unlockSlow, unlockSlowFair, outer, afterMark, retryRemove, wake] at hr
    (repeat' split at hr) <;> cases hr <;> simp_all

/-- Only its last `fetch_and`, for an empty queue, is a release of `unlock_slow_fair`. -/
theorem slowReleased_of_step {w : U64} (hr : threadStep t c m pc = some r)
    (hmem : RawMutex.Event.released u .unlockSlowFair w ∈ r.2.2) : pc = .fairRelease := by
  cases pc
  case fairRelease => rfl
  all_goals
    simp only [threadStep] at hr
    (repeat' split at hr) <;> cases hr <;> simp at hmem

/-- Only its `fetch_and` is a release of `unlock_fair`. -/
theorem released_of_step {w : U64} (hr : threadStep t c m pc = some r)
    (hmem : RawMutex.Event.released u .unlockFair w ∈ r.2.2) : u = t ∧ ∃ bit, pc = .clearBits bit := by
  cases pc
  case clearBits bit =>
    cases hr
    simp at hmem
    exact ⟨hmem.1, bit, rfl⟩
  all_goals
    simp only [threadStep] at hr
    (repeat' split at hr) <;> cases hr <;> simp at hmem

end Places

section Release

variable [DecidableEq τ] {s s' : State τ} {c : Choice}

/-- What a thread on its way through `unlock_fair` was told. -/
def Mind (start : Instant) (log : List (Event τ)) (t : τ) : RawMutex.Pc → Prop
  | .markTimeout => ∃ pre now post, Answered log t pre now true post
  | .clearBits _ => MayBarge start log t
  | _ => True

omit [DecidableEq τ] in
/-- What the thread has been answered stands while the clock is not asked again. -/
theorem Mind.append {pc : RawMutex.Pc} (h : Mind start log t pc)
    (hes : ∀ now fair, Event.asked t now fair ∉ es) : Mind start (log ++ es) t pc := by
  cases pc <;> try trivial
  case markTimeout =>
    obtain ⟨pre, now, post, ha⟩ := h
    exact ⟨pre, now, _, ha.append hes⟩
  case clearBits => exact MayBarge.append h hes

omit [DecidableEq τ] in
/-- The answer of the schedule. -/
theorem mind_asked (log : List (Event τ)) (t : τ) (now : Instant) :
    Mind start (log ++ [.asked t now (decide (due start seed log < now))]) t
      (if decide (due start seed log < now) = true then .markTimeout else .clearBits lockedBit) := by
  have hans := answered_concat log t now (decide (due start seed log < now))
  by_cases hlate : due start seed log < now
  · rw [decide_eq_true hlate] at hans ⊢
    exact ⟨_, _, _, hans⟩
  · rw [decide_eq_false hlate] at hans ⊢
    exact ⟨_, _, _, _, hans, .inl ⟨rfl, (not_lt.mp hlate).trans_lt (due_lt start seed log)⟩⟩

omit [DecidableEq τ] in
/-- The other steps of the mutex. -/
theorem mind_raw {c : RawMutex.Choice} {m : RawMutex.State τ}
    {r : Mem τ × RawMutex.Pc × List (RawMutex.Event τ)} (h : Mind start log t (m.pc t))
    (hr : RawMutex.threadStep t c m.mem (m.pc t) = some r) (hpc : m.pc t ≠ .unlockFair) :
    Mind start (log ++ (markedEvents t m ++ r.2.2.map .raw)) t r.2.1 := by
  obtain ⟨hmark, hclear⟩ := mark_of_step hr hpc
  -- no other step goes to the `fetch_or`
  cases hpc' : r.2.1 <;> try trivial
  case clearBits bit =>
    obtain ⟨hat, hempty⟩ := hclear bit hpc'
    rw [hat] at h
    obtain ⟨pre, now, post, ha⟩ := h
    refine ⟨pre, now, true, _, ha.append (not_asked_raw t m r.2.2 t), .inr ⟨rfl, ?_⟩⟩
    simp [markedEvents, hat, hempty]

/-- Every step keeps what the threads were told. -/
theorem minds_step (h : ∀ t, Mind start log t (s.raw.pc t))
    (htimeout : s.fairTimeout = scheduled start seed log)
    (hr : TimedMutex.step t c s = some (s', es)) :
    ∀ t, Mind start (log ++ es) t (s'.raw.pc t) := by
  rcases step_cases hr with ⟨-, -, hraw, rfl⟩ | ⟨hpc, -, r, hthread, hraw, rfl⟩
  · rw [hraw, htimeout, scheduled_isTimeout t]
    refine Threads.forall_moveTo (Mind start _) (mind_asked log t c.now) fun u hu =>
      (h u).append fun now fair hmem => ?_
    cases List.mem_singleton.mp hmem
    exact hu rfl
  · rw [hraw]
    exact Threads.forall_moveTo (Mind start _) (mind_raw (h t) hthread hpc) fun u _ =>
      (h u).append (not_asked_raw t s.raw r.2.2 u)

omit [DecidableEq τ] in
/-- A release among the events of a step is one of the mutex's own. -/
theorem mem_raw {m : RawMutex.State τ} {l : List (RawMutex.Event τ)} {e : RawMutex.Event τ}
    (he : Event.raw e ∈ markedEvents t m ++ l.map .raw) : e ∈ l := by
  rcases List.mem_append.mp he with he | he
  · unfold markedEvents at he
    split at he
    · cases List.mem_singleton.mp he
    · cases he
  · obtain ⟨x, hx, hxe⟩ := List.mem_map.mp he
    exact Event.raw.inj hxe ▸ hx

/-- What a step of a reachable state releases, and what its thread was told. -/
theorem release_step {ok : Guard (RawMutex.State τ) (τ × RawMutex.Choice) (RawMutex.Event τ)}
    {rawLog : List (RawMutex.Event τ)} (hraw : Exec (RawMutex.machine τ) ok s.raw rawLog)
    (h : ∀ t, Mind start log t (s.raw.pc t)) (hr : TimedMutex.step t c s = some (s', es))
    {site : RawMutex.ReleaseSite} {w : U64} (hmem : Event.raw (.released u site w) ∈ es) :
    (site = .unlockFair → MayBarge start log u ∧ ∀ now fair, Event.asked u now fair ∉ es) ∧
      site ≠ .unlockSlowFair := by
  rcases step_cases hr with ⟨-, -, -, rfl⟩ | ⟨-, -, r, hthread, -, rfl⟩
  · cases List.mem_singleton.mp hmem
  · have hevent := mem_raw hmem
    constructor
    · rintro rfl
      obtain ⟨rfl, bit, hpc⟩ := released_of_step hthread hevent
      have hbarge := h u
      rw [hpc] at hbarge
      exact ⟨hbarge, not_asked_raw u s.raw r.2.2 u⟩
    · rintro rfl
      -- a fair unlock that has the queue lock finds the queue nonempty
      obtain ⟨g, hinv⟩ := RawMutex.exec_inv hraw
      have hwalk := hinv.walk t
      rw [slowReleased_of_step hthread hevent] at hwalk
      exact hwalk

/-- **No barging past a due fair unlock.** In every run, whenever `unlock_fair` leaves the
lock to whoever comes first, its reading of the clock was less than a millisecond after the
last fair unlock, or it saw that nobody waited. It does so before `unlock_slow_fair` only,
which never releases the lock: it always hands it over. -/
theorem barging_excused (run : Runs (TimedMutex.machine τ start seed) s log) :
    Each (fun pre e => ∀ t w, (e = .raw (.released t .unlockFair w) → MayBarge start pre t) ∧
      e ≠ .raw (.released t .unlockSlowFair w)) log := by
  suffices h : (∀ t, Mind start log t (s.raw.pc t)) ∧ Each (fun pre e => ∀ t w,
      (e = .raw (.released t .unlockFair w) → MayBarge start pre t) ∧
        e ≠ .raw (.released t .unlockSlowFair w)) log from h.2
  refine run.invariant_with (fun s log => s.fairTimeout = scheduled start seed log ∧
      Runs (RawMutex.machine τ) s.raw (log.flatMap rawEvents))
    (fun s log => (∀ t, Mind start log t (s.raw.pc t)) ∧ Each (fun pre e => ∀ t w,
      (e = .raw (.released t .unlockFair w) → MayBarge start pre t) ∧
        e ≠ .raw (.released t .unlockSlowFair w)) log)
    (fun _ _ run => ⟨exec_scheduled run, runs_raw run⟩) ?_ ?_
  · rintro s rfl
    exact ⟨fun _ => trivial, each_nil⟩
  · rintro s log ⟨t, c⟩ s' es ⟨htimeout, hraw⟩ - ⟨h, heach⟩ - hr
    refine ⟨minds_step h htimeout hr, heach.append ?_⟩
    intro pre e post heq u w
    have hmem : e ∈ es := by
      rw [heq]
      simp
    constructor
    · rintro rfl
      obtain ⟨hbarge, hask⟩ := (release_step hraw h hr hmem).1 rfl
      exact hbarge.append fun now fair he => hask now fair (heq ▸ List.mem_append_left _ he)
    · rintro rfl
      exact (release_step hraw h hr hmem).2 rfl

end Release

/-- A release past a waiter follows an answer that was not due. -/
theorem barging_excused_two :
    ∃ log : List (Event Bool), .raw (.released false .unlockFair 0) ∈ log ∧
      Each (fun pre e => ∀ t w, (e = .raw (.released t .unlockFair w) → MayBarge 0 pre t) ∧
        e ≠ .raw (.released t .unlockSlowFair w)) log := by
  obtain ⟨s, log, run, hend⟩ := exists_runs_of_run (TimedMutex.machine Bool 0 1) rfl twoUnlocks
    (fun _ log => decide (.raw (.released false .unlockFair 0) ∈ log)) (by decide +kernel)
  exact ⟨log, of_decide_eq_true hend, barging_excused run⟩

end Mekong.Analysis.TimedMutex
