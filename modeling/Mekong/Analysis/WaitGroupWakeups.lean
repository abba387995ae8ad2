import Mekong.Analysis.ParkingQueueRuns
import Mekong.Program.WaitGroup

/-!
# Who wakes the waiters of a `WaitGroup`

A waiter that sleeps although the counter is zero needs a thread that will still look at
its list: one that is about to cut the word's list, or one that walks a list and cuts
again afterwards. `Covered` says that there is such a thread. A `done` that takes the
counter to zero is one. Two kinds of steps rely on other threads: an `unpark_all` that
returns because `QUEUE_CLEAR_BIT` is set, and an `add` whose sum is zero. They may do so
as long as another thread has a cut to come; where none has, the wakeup is lost.
-/

set_option autoImplicit false

namespace Mekong.Analysis.WaitGroup

open Mekong.Computation Mekong.Computation.NextChain Mekong.Model Mekong.Program.WaitGroup
open Mekong.Analysis.ParkingQueue (Inv ownNode linkedNode holdsClear)

/-! ## Classes of places -/

/-- The places inside `wait`. -/
def inWait : Program.ParkingQueue.Pc → Bool
  | .outside | .unparkAll _ | .cut .. | .walkNext _ | .walkUnpark .. | .reload | .recut _
  | .clear => false
  | _ => true

/-- The places of `unpark_all`, and so of `done`, after its first step. -/
def inDone : Program.ParkingQueue.Pc → Bool
  | .unparkAll _ | .cut .. | .walkNext _ | .walkUnpark .. | .reload | .recut _ | .clear => true
  | _ => false

/-- The places of `unpark_all` with a cut to come, or a list in hand. -/
def willCut : Program.ParkingQueue.Pc → Bool
  | .unparkAll _ | .cut .. | .walkNext _ | .walkUnpark .. | .reload | .recut _ => true
  | _ => false

section Property

variable {τ : Type}

/-- Thread `t` sleeps in its parker inside `wait`, with no notification pending. -/
def Asleep (s : State τ) (t : τ) : Prop :=
  ∃ n p, s.pc t = .park n p ∧ (s.mem.queue.node p).parker = false

/-- The counter is zero, no thread is inside `done`, and some thread sleeps. -/
def LostWakeup (s : State τ) : Prop :=
  s.mem.workers = 0 ∧ (∀ u, inDone (s.pc u) = false) ∧ ∃ t, Asleep s t

/-- While the counter is zero, a thread that sleeps is sure of another cut. -/
def Covered (s : State τ) : Prop :=
  s.mem.workers = 0 → (∃ t, Asleep s t) → ∃ u, willCut (s.pc u) = true

/-- While a thread sleeps, a thread other than `t` is sure of another cut. -/
def CoveredBesides (s : State τ) (t : τ) : Prop :=
  (∃ v, Asleep s v) → ∃ u, u ≠ t ∧ willCut (s.pc u) = true

/-- The next step of `i.1` leaves the counter at zero and the sleepers to other threads:
it is an `add` that takes the counter there, or an `unpark_all` that finds
`QUEUE_CLEAR_BIT` set and returns.
SOURCE: wait_group.rs:100-102, auxiliary.rs:552-554 -/
inductive Relies (s : State τ) (i : τ × Choice) : Prop
  | add {n : U64} (hpc : s.pc i.1 = .outside) (hop : i.2.op = .add n)
      (hzero : s.mem.workers + n = 0)
  | early (hpc : (∃ n, s.pc i.1 = .unparkAll n) ∨ ∃ n w, s.pc i.1 = .cut n w)
      (hclear : isQueueClear s.mem.queue.word = true) (hzero : s.mem.workers = 0)

/-- The state of the queue inside the `WaitGroup`. -/
def queueState (s : State τ) : Program.ParkingQueue.State τ := ⟨s.mem.queue, s.pc⟩

/-- The events of the queue. -/
def queueEvents : Event τ → List (Program.ParkingQueue.Event τ)
  | .queue e => [e]
  | _ => []

end Property

/-! ## Conditions on steps -/

section Guards

variable (τ : Type)

/-- The documented usage: no `done` beyond the adds, and an `add` at zero comes after all
earlier waits have returned and before the waits it concerns. `done` is asked for a counter
that is positive as a signed word: once adds have wrapped the counter this excludes a `done`
that is not beyond them.
SOURCE: wait_group.rs:60-68 -/
def usage : Guard (State τ) (τ × Choice) (Event τ) := fun s _ i =>
  i.2.queue.leftover = ThreadData.new ∧ (s.pc i.1 = .outside → match i.2.op with
    | .add _ => s.mem.workers = 0 → ∀ u, inWait (s.pc u) = false
    | .done => 1 ≤ s.mem.workers.toInt
    | .wait => True)

/-- Usage, with every step that relies on other threads and every abort in time. -/
def inTime : Guard (State τ) (τ × Choice) (Event τ) := fun s log i =>
  usage τ s log i ∧ (Relies s i → CoveredBesides s i.1) ∧
    ParkingQueue.abortInTime i.2.queue.spurious s.mem.queue (s.pc i.1) = true

end Guards

/-! ## The queue inside -/

section Project

variable {τ : Type} [DecidableEq τ] {s : State τ} {log : List (Event τ)}

/-- A step of the machine is a step of one thread. -/
theorem machine_next {s s' : State τ} {i : τ × Choice} {es : List (Event τ)}
    (h : (machine τ).next i s = some (s', es)) :
    ∃ m' pc', threadStep i.1 i.2 s.mem (s.pc i.1) = some (m', pc', es) ∧
      s' = s.moveTo i.1 m' pc' := by
  simp only [machine, Option.map_eq_some_iff] at h
  obtain ⟨⟨m', pc', es'⟩, hr, he⟩ := h
  cases he
  exact ⟨m', pc', hr, rfl⟩

/-- What a step of `t` can be: an `add`, a `done`, or a step of the queue inside with
the test of the counter as `retry`. -/
inductive StepCases (t : τ) (c : Choice) (m : Shared τ) (pc : Program.ParkingQueue.Pc) :
    Shared τ → Program.ParkingQueue.Pc → List (Event τ) → Prop
  | add {n : U64} (hpc : pc = .outside) (hop : c.op = .add n) :
      StepCases t c m pc { m with workers := m.workers + n } .outside [.added t n m.workers]
  | done {es : List (Event τ)} (hpc : pc = .outside) (hop : c.op = .done)
      (hne : m.workers.toInt < 1 ∨ m.workers ≠ 1) (hes : es.flatMap queueEvents = []) :
      StepCases t c m pc { m with workers := m.workers - 1 } .outside es
  | last {es : List (Event τ)} (hpc : pc = .outside) (hop : c.op = .done)
      (hone : m.workers = 1) (hes : es.flatMap queueEvents = [.called t .unparkAll]) :
      StepCases t c m pc { m with workers := m.workers - 1 } (.unparkAll 0) es
  | queue {c' : Program.ParkingQueue.Choice} {q : Mem τ} {pc' : Program.ParkingQueue.Pc}
      {es : List (Program.ParkingQueue.Event τ)} (hleft : c'.leftover = c.queue.leftover)
      (hspur : c'.spurious = c.queue.spurious) (hretry : c'.retry = retry m)
      (hstep : Program.ParkingQueue.threadStep t c' m.queue pc = some (q, pc', es)) :
      StepCases t c m pc { m with queue := q } pc' (es.map .queue)

omit [DecidableEq τ] in
/-- A step inside the queue is one of the cases. -/
theorem queueStep_cases {t : τ} {c : Choice} {c' : Program.ParkingQueue.Choice} {m m' : Shared τ}
    {pc pc' : Program.ParkingQueue.Pc} {es : List (Event τ)}
    (hleft : c'.leftover = c.queue.leftover) (hspur : c'.spurious = c.queue.spurious)
    (h : queueStep t c' m pc = some (m', pc', es)) : StepCases t c m pc m' pc' es := by
  simp only [queueStep, Option.map_eq_some_iff] at h
  obtain ⟨⟨q, pc'', es'⟩, hr, he⟩ := h
  cases he
  let c'' : Program.ParkingQueue.Choice := { c' with retry := retry m }
  exact .queue (show c''.leftover = c.queue.leftover from hleft) hspur rfl hr

omit [DecidableEq τ] in
/-- A step of a thread is one of the cases. -/
theorem threadStep_cases {t : τ} {c : Choice} {m m' : Shared τ} {pc pc' : Program.ParkingQueue.Pc}
    {es : List (Event τ)} (h : threadStep t c m pc = some (m', pc', es)) :
    StepCases t c m pc m' pc' es := by
  by_cases hpc : pc = .outside
  · subst hpc
    simp only [threadStep] at h
    split at h
    · rename_i n hop
      cases h
      exact .add rfl hop
    · rename_i hop
      split at h
      · rename_i hlt
        cases h
        exact .done rfl hop (.inl hlt) rfl
      split at h
      · rename_i hone
        cases h
        exact .last rfl hop hone rfl
      · rename_i hne
        cases h
        exact .done rfl hop (.inr hne) rfl
    · let c' : Program.ParkingQueue.Choice := { c.queue with op := .park }
      exact queueStep_cases (show c'.leftover = c.queue.leftover from rfl) rfl h
  · have hq : queueStep t c.queue m pc = some (m', pc', es) := by
      cases pc <;> first | exact absurd rfl hpc | exact h
    exact queueStep_cases rfl rfl hq

omit [DecidableEq τ] in
/-- The events of the queue read back. -/
theorem flatMap_queueEvents (es : List (Program.ParkingQueue.Event τ)) :
    (es.map Event.queue).flatMap queueEvents = es := by
  induction es with
  | nil => rfl
  | cons e es ih => rw [List.map_cons, List.flatMap_cons, ih]; rfl

/-- A step of `t` that leaves the queue and the thread outside it. -/
theorem queueState_stay {t : τ} {m' : Shared τ} (hpc : s.pc t = .outside)
    (hq : m'.queue = s.mem.queue) : queueState (s.moveTo t m' .outside) = queueState s := by
  simp only [queueState, Threads.moveTo, hq, ← hpc, Function.update_eq_self]

/-- The queue inside a `WaitGroup` runs as a `ParkingQueue`. -/
theorem exec_queue (run : Exec (machine τ) (inTime τ) s log) :
    Exec (Program.ParkingQueue.machine τ) (ParkingQueue.abortsInTime τ) (queueState s)
      (log.flatMap queueEvents) := by
  refine run.project queueState queueEvents ?_ ?_
  · rintro s ⟨n, rfl⟩
    rfl
  · rintro s log ⟨t, c⟩ s' es - ⟨⟨hfresh, -⟩, -, habort⟩ hr
    obtain ⟨m', pc', hthread, rfl⟩ := machine_next hr
    cases threadStep_cases hthread with
    | add hpc hop => exact .inl ⟨queueState_stay hpc rfl, rfl⟩
    | done hpc hop hne hes => exact .inl ⟨queueState_stay hpc rfl, hes⟩
    | last hpc hop hone hes =>
        refine .inr ⟨(t, { op := .unparkAll }), ⟨rfl, ?_⟩, ?_⟩
        · simp only [queueState, hpc, ParkingQueue.abortInTime]
        · simp only [Program.ParkingQueue.machine, queueState, hpc,
            Program.ParkingQueue.threadStep, Option.map_some, hes, Threads.moveTo]
    | @queue c' q pc' es hleft hspur hretry hstep =>
        refine .inr ⟨(t, c'), ⟨hleft.trans hfresh, ?_⟩, ?_⟩
        · rw [hspur]
          exact habort
        · rw [flatMap_queueEvents]
          simp only [Program.ParkingQueue.machine, queueState, hstep, Option.map_some,
            Threads.moveTo]

/-- Every run in time keeps the invariant of the queue. -/
theorem exec_inv (run : Exec (machine τ) (inTime τ) s log) : ∃ g, Inv (queueState s) g :=
  ParkingQueue.exec_inv (exec_queue run)

end Project

/-! ## Steps of the queue -/

section QueueSteps

variable {τ : Type} {t : τ} {c : Program.ParkingQueue.Choice} {m m' : Mem τ}
  {pc pc' : Program.ParkingQueue.Pc} {es : List (Program.ParkingQueue.Event τ)}

/-- A thread goes to sleep only when its second `retry` answers `false`. -/
theorem retry_of_park {n : ℕ} {p : Ptr}
    (hr : Program.ParkingQueue.threadStep t c m pc = some (m', pc', es))
    (hp : pc' = .park n p) : c.retry = false := by
  subst hp
  cases pc with
  | retryAgain counter q =>
      cases hretry : c.retry with
      | false => rfl
      | true =>
          rw [Program.ParkingQueue.threadStep, hretry] at hr
          cases hr
  | _ =>
      simp only [Program.ParkingQueue.threadStep, Program.ParkingQueue.outer,
        Program.ParkingQueue.visit, Program.ParkingQueue.unparkAllLoop,
        Program.ParkingQueue.afterCut, Program.ParkingQueue.walk] at hr
      (repeat' split at hr) <;>
        simp only [Option.some.injEq, Prod.mk.injEq, reduceCtorEq, false_and, and_false] at hr

/-- A thread with a cut to come keeps it, unless it relies on `QUEUE_CLEAR_BIT` or its
cut finds the queue empty. -/
theorem willCut_of_step (hr : Program.ParkingQueue.threadStep t c m pc = some (m', pc', es))
    (hw : willCut pc = true) :
    willCut pc' = true ∨
      (((∃ n, pc = .unparkAll n) ∨ ∃ n w, pc = .cut n w) ∧ isQueueClear m.word = true) ∨
      (((∃ n, pc = .cut n m.word) ∨ pc = .recut m.word) ∧ queueHead m.word = null) := by
  have loop : ∀ n w, isQueueClear w = true ∨
      willCut (Program.ParkingQueue.unparkAllLoop n w) = true := by
    intro n w
    unfold Program.ParkingQueue.unparkAllLoop
    (repeat' split) <;> first | exact .inr rfl | exact .inl ‹_›
  have after : ∀ w, queueHead w = null ∨
      willCut (Program.ParkingQueue.afterCut (queueHead w)) = true := by
    intro w
    unfold Program.ParkingQueue.afterCut
    split
    · exact .inl ‹_›
    · exact .inr rfl
  cases pc with
  | unparkAll n =>
      cases hr
      exact (loop n m.word).elim (fun hc => .inr (.inl ⟨.inl ⟨n, rfl⟩, hc⟩)) .inl
  | cut n w =>
      simp only [Program.ParkingQueue.threadStep] at hr
      split at hr <;> rename_i hcas <;> cases hr
      · obtain rfl := compareExchangeWeak_ok hcas
        exact (after _).elim (fun hn => .inr (.inr ⟨.inl ⟨n, rfl⟩, hn⟩)) .inl
      · obtain rfl := compareExchangeWeak_err hcas
        exact (loop n _).elim (fun hc => .inr (.inl ⟨.inr ⟨n, w, rfl⟩, hc⟩)) .inl
  | walkNext head =>
      cases hr
      exact .inl rfl
  | walkUnpark head new =>
      cases hr
      refine .inl ?_
      unfold Program.ParkingQueue.walk
      split <;> rfl
  | reload =>
      cases hr
      exact .inl rfl
  | recut w =>
      simp only [Program.ParkingQueue.threadStep] at hr
      split at hr <;> rename_i hcas <;> cases hr
      · obtain rfl := compareExchangeWeak_ok hcas
        exact (after _).elim (fun hn => .inr (.inr ⟨.inr rfl, hn⟩)) .inl
      · exact .inl rfl
  | _ => cases hw
end QueueSteps

/-! ## Runs -/

section Runs

variable {τ : Type} [DecidableEq τ] {s : State τ} {g : ParkingQueue.Ghost τ} {t : τ} {c : Choice}
  {log : List (Event τ)}

omit [DecidableEq τ] in
/-- A sleeping thread's node is in a list. -/
theorem linked_of_asleep (h : Inv (queueState s) g) {v : τ} (hv : Asleep s v) :
    ∃ p, g.Linked p := by
  obtain ⟨n, p, hpc, hparker⟩ := hv
  have ht := h.thread v
  rw [show (queueState s).pc v = .park n p from hpc] at ht
  refine ⟨p, ht.linked.resolve_right fun hp => ?_⟩
  rw [show ((queueState s).mem.node p).parker = false from hparker] at hp
  cases hp

/-- A thread asleep after a step inside the queue with the counter at zero was asleep
before it. -/
theorem Asleep.before {c' : Program.ParkingQueue.Choice} {q : Mem τ}
    {pc' : Program.ParkingQueue.Pc} {es : List (Program.ParkingQueue.Event τ)} {v : τ}
    (h : Inv (queueState s) g) (hzero : s.mem.workers = 0) (hretry : c'.retry = retry s.mem)
    (hr : Program.ParkingQueue.threadStep t c' s.mem.queue (s.pc t) = some (q, pc', es))
    (hv : Asleep (s.moveTo t { s.mem with queue := q } pc') v) : v ≠ t ∧ Asleep s v := by
  obtain ⟨n, p, hpc, hparker⟩ := hv
  have hvt : v ≠ t := by
    rintro rfl
    rw [Threads.moveTo_pc_self] at hpc
    have hfalse := retry_of_park hr hpc
    rw [hretry, retry, hzero] at hfalse
    cases hfalse
  rw [Threads.moveTo_pc_of_ne _ _ _ hvt] at hpc
  have hown : ownNode ((queueState s).pc v) = some p := by
    rw [show (queueState s).pc v = .park n p from hpc]
    rfl
  refine ⟨hvt, n, p, hpc, ParkingQueue.parker_of_step hr (fun ho => ?_) ?_ hparker⟩
  · exact hvt (h.own_unique (t := t) ho hown)
  · rw [show s.mem.queue.frame p = some v from ((h.thread v).framed hown).frame]
    exact nofun

/-- A step inside the queue leaves the sleepers covered. -/
theorem Covered.queueStep {c' : Program.ParkingQueue.Choice} {q : Mem τ}
    {pc' : Program.ParkingQueue.Pc} {es : List (Program.ParkingQueue.Event τ)}
    (hcov : Covered s) (h : Inv (queueState s) g) (hretry : c'.retry = retry s.mem)
    (hrely : Relies s (t, c) → CoveredBesides s t)
    (hr : Program.ParkingQueue.threadStep t c' s.mem.queue (s.pc t) = some (q, pc', es)) :
    Covered (s.moveTo t { s.mem with queue := q } pc') := by
  rintro hzero ⟨v, hv⟩
  obtain ⟨hvt, hasleep⟩ := hv.before h hzero hretry hr
  obtain ⟨u, hu⟩ := hcov hzero ⟨v, hasleep⟩
  by_cases hut : u ≠ t
  · exact ⟨u, by rwa [Threads.moveTo_pc_of_ne _ _ _ hut]⟩
  obtain rfl := not_not.mp hut
  rcases willCut_of_step hr hu with hw | ⟨hplace, hclear⟩ | ⟨hplace, hnull⟩
  · exact ⟨u, by rwa [Threads.moveTo_pc_self]⟩
  · obtain ⟨w, hwu, hw⟩ := hrely (.early hplace hclear hzero) ⟨v, hasleep⟩
    exact ⟨w, by rwa [Threads.moveTo_pc_of_ne _ _ _ hwu]⟩
  · -- the queue is empty and no list is cut off, so nobody sleeps
    obtain ⟨p, hp⟩ := linked_of_asleep h hasleep
    have hcut : g.cut = [] := by
      have ht := h.thread u
      rcases hplace with ⟨n, hpc⟩ | hpc
      · rw [show (queueState s).pc u = .cut n s.mem.queue.word from hpc] at ht
        exact h.uncut (h.clearer_none ht.1)
      · rw [show (queueState s).pc u = .recut s.mem.queue.word from hpc] at ht
        exact ht
    rw [ParkingQueue.Ghost.Linked, h.chain.eq_null_iff.mp hnull, hcut] at hp
    exact absurd hp (by simp)

omit [DecidableEq τ] in
/-- A thread outside `wait` is not a sleeper. -/
theorem Asleep.ne {v : τ} (hv : Asleep s v) (ht : inWait (s.pc t) = false) : v ≠ t := by
  obtain ⟨n, p, hpc, -⟩ := hv
  rintro rfl
  rw [hpc] at ht
  cases ht

/-- A step that leaves the queue changes nothing for the other sleepers. -/
theorem asleep_moveTo {m' : Shared τ} {pc' : Program.ParkingQueue.Pc} {v : τ}
    (hn : m'.queue.node = s.mem.queue.node) (hvt : v ≠ t) :
    Asleep (s.moveTo t m' pc') v ↔ Asleep s v := by
  simp only [Asleep, Threads.moveTo_mem, Threads.moveTo_pc_of_ne _ _ _ hvt, hn]

/-- Outside the queue, the counter decides: a step that leaves it at zero relies on other
threads, or is the `done` that goes on with `unpark_all`. -/
theorem Covered.outsideStep {m' : Shared τ} (hq : m'.queue = s.mem.queue)
    (hrely : m'.workers = 0 → CoveredBesides s t) : Covered (s.moveTo t m' .outside) := by
  rintro hw ⟨v, hv⟩
  have hvt : v ≠ t := hv.ne (by rw [Threads.moveTo_pc_self]; rfl)
  obtain ⟨u, hut, hu⟩ := hrely hw ⟨v, (asleep_moveTo (congrArg Mem.node hq) hvt).mp hv⟩
  exact ⟨u, by rwa [Threads.moveTo_pc_of_ne _ _ _ hut]⟩

/-- The sleepers are covered in every state of a run that meets the conditions. -/
theorem exec_covered (run : Exec (machine τ) (inTime τ) s log) : Covered s := by
  refine run.invariant_with (fun s _ => ∃ g, Inv (queueState s) g) (fun s _ => Covered s)
    (fun s log run => exec_inv run) ?_ ?_
  · rintro s ⟨n, rfl⟩ - ⟨v, m, p, hv, -⟩
    cases hv
  · rintro s log ⟨t, c⟩ s' es ⟨g, h⟩ - hcov ⟨⟨-, husage⟩, hrely, -⟩ hr
    obtain ⟨m', pc', hthread, rfl⟩ := machine_next hr
    cases threadStep_cases hthread with
    | add hpc hop => exact .outsideStep rfl fun hw => hrely (.add hpc hop hw)
    | done hpc hop hne hes =>
        have hpos := husage hpc
        rw [hop] at hpos
        refine .outsideStep rfl fun hw => ?_
        have hone : s.mem.workers = 1 := by
          change s.mem.workers - 1 = 0 at hw
          bv_omega
        rcases hne with hlt | hne
        · exact absurd hpos (Int.not_le.mpr hlt)
        · exact absurd hone hne
    | last hpc hop hone hes =>
        exact fun _ _ => ⟨t, by rw [Threads.moveTo_pc_self]; rfl⟩
    | queue hleft hspur hretry hstep => exact hcov.queueStep h hretry hrely hstep

end Runs

/-! ## A step that relies on nobody -/

section Uncovered

variable {τ : Type} [DecidableEq τ] {s : State τ} {log : List (Event τ)}

/-- A thread inside `done` has a cut before it, or only the bit to clear. -/
theorem inDone_iff {pc : Program.ParkingQueue.Pc} :
    inDone pc = true ↔ willCut pc = true ∨ pc = .clear := by
  constructor
  · intro h
    cases pc <;> first | exact .inl rfl | exact .inr rfl | cases h
  · rintro (h | rfl)
    · cases pc <;> first | rfl | cases h
    · rfl

/-- A wakeup is lost once the counter is zero, a thread sleeps and nobody has a cut to
come: a thread that still has `QUEUE_CLEAR_BIT` only clears it. -/
theorem lost_of_uncovered (run : Exec (machine τ) (usage τ) s log) (hzero : s.mem.workers = 0)
    (hasleep : ∃ v, Asleep s v) (hcut : ∀ u, willCut (s.pc u) = false)
    (hone : ∀ u u', s.pc u = .clear → s.pc u' = .clear → u = u') :
    ∃ s' log', Exec (machine τ) (usage τ) s' (log ++ log') ∧ LostWakeup s' := by
  have hdone : ∀ u, s.pc u ≠ .clear → inDone (s.pc u) = false := by
    intro u hu
    refine Bool.eq_false_iff.mpr fun hd => ?_
    rcases inDone_iff.mp hd with hw | hc
    · exact Bool.eq_false_iff.mp (hcut u) hw
    · exact hu hc
  by_cases hclear : ∃ u, s.pc u = .clear
  · obtain ⟨u, hu⟩ := hclear
    obtain ⟨v, hv⟩ := hasleep
    let m' : Shared τ :=
      { s.mem with queue := s.mem.queue.store (s.mem.queue.word &&& ~~~queueClearBit) }
    have hnext : (machine τ).next (u, {}) s = some (s.moveTo u m' .outside,
        [.queue (.cleared u), .queue (.returned u .unparkAll)]) := by
      simp only [machine, hu]
      rfl
    have husage : usage τ s log (u, {}) := by
      refine ⟨rfl, fun hpc => ?_⟩
      rw [hu] at hpc
      cases hpc
    refine ⟨_, _, .step run husage hnext, hzero, ?_, v, ?_⟩
    · refine Threads.forall_moveTo (fun _ pc => inDone pc = false) rfl fun w hw => ?_
      exact hdone w fun hc => hw (hone w u hc hu)
    · have hvu : v ≠ u := hv.ne (by rw [hu]; rfl)
      have hnode : m'.queue.node = s.mem.queue.node := rfl
      exact (asleep_moveTo hnode hvu).mpr hv
  · refine ⟨s, [], by rwa [List.append_nil], hzero, fun u => hdone u fun hu => hclear ⟨u, hu⟩, hasleep⟩

omit [DecidableEq τ] in
/-- A thread that relies on others is outside `wait`. -/
theorem Relies.inWait {i : τ × Choice} (h : Relies s i) : inWait (s.pc i.1) = false := by
  cases h with
  | add hpc hop hzero => rw [hpc]; rfl
  | early hplace hclear hzero => rcases hplace with ⟨n, hpc⟩ | ⟨n, w, hpc⟩ <;> rw [hpc] <;> rfl

/-- A step that relies on other threads leaves the queue, ends outside it and leaves the
counter at zero. -/
theorem Relies.step {i : τ × Choice} {s' : State τ} {es : List (Event τ)} {g : ParkingQueue.Ghost τ}
    (hrely : Relies s i) (h : Inv (queueState s) g) (hr : (machine τ).next i s = some (s', es)) :
    ∃ m' : Shared τ, m'.workers = 0 ∧ m'.queue = s.mem.queue ∧ s' = s.moveTo i.1 m' .outside := by
  obtain ⟨m', pc', hthread, rfl⟩ := machine_next hr
  cases hrely with
  | @add n hpc hop hzero =>
      simp only [hpc, threadStep, hop] at hthread
      cases hthread
      exact ⟨{ s.mem with workers := s.mem.workers + n }, hzero, rfl, rfl⟩
  | early hplace hclear hzero =>
      rcases hplace with ⟨n, hpc⟩ | ⟨n, w, hpc⟩
      · simp only [hpc, threadStep, queueStep, Program.ParkingQueue.threadStep,
          Program.ParkingQueue.unparkAllLoop, if_pos hclear] at hthread
        cases hthread
        exact ⟨_, hzero, rfl, rfl⟩
      · have hw := h.thread i.1
        rw [show (queueState s).pc i.1 = .cut n w from hpc] at hw
        simp only [hpc, threadStep, queueStep, Program.ParkingQueue.threadStep] at hthread
        split at hthread <;> rename_i hcas
        · obtain rfl := compareExchangeWeak_ok hcas
          exact absurd (hclear.symm.trans hw.1) (by decide)
        · obtain rfl := compareExchangeWeak_err hcas
          simp only [Program.ParkingQueue.unparkAllLoop, if_pos hclear] at hthread
          cases hthread
          exact ⟨_, hzero, rfl, rfl⟩

/-- **No wakeup is lost, exactly while the early returns are in time.** In a run that
meets the usage, whose aborts are in time and whose steps leave the sleepers at a zero
counter only to a thread with a cut to come, no state has the counter at zero, no thread
inside `done` and a thread asleep inside `wait`. The first step that leaves them to
nobody can be followed to such a state. -/
theorem no_lost_wakeup (run : Exec (machine τ) (inTime τ) s log) :
    ¬ LostWakeup s ∧
      ∀ i s' es, usage τ s log i → (machine τ).next i s = some (s', es) → Relies s i →
        ¬ CoveredBesides s i.1 →
        ∃ s'' log', Exec (machine τ) (usage τ) s'' (log ++ es ++ log') ∧ LostWakeup s'' := by
  constructor
  · rintro ⟨hzero, hdone, hasleep⟩
    obtain ⟨u, hu⟩ := exec_covered run hzero hasleep
    exact Bool.eq_false_iff.mp (hdone u) (inDone_iff.mpr (.inl hu))
  · rintro i s' es husage hr hrely hnot
    obtain ⟨g, h⟩ := exec_inv run
    simp only [CoveredBesides, not_forall, not_exists, not_and, Bool.not_eq_true] at hnot
    obtain ⟨⟨v, hv⟩, hothers⟩ := hnot
    obtain ⟨m', hzero, hq, rfl⟩ := hrely.step h hr
    refine lost_of_uncovered (.step (run.mono fun _ _ _ hok => hok.1) husage hr) hzero ⟨v, ?_⟩
      (Threads.forall_moveTo (fun _ pc => willCut pc = false) rfl hothers) ?_
    · exact (asleep_moveTo (congrArg Mem.node hq) (hv.ne hrely.inWait)).mpr hv
    · intro u u' hu hu'
      have hclearer : ∀ w, (s.moveTo i.1 m' .outside).pc w = .clear → g.clearer = some w := by
        intro w hw
        refine (h.clearer w).mp ?_
        by_cases hwt : w = i.1
        · rw [hwt, Threads.moveTo_pc_self] at hw
          cases hw
        · rw [Threads.moveTo_pc_of_ne _ _ _ hwt] at hw
          rw [show (queueState s).pc w = .clear from hw]
          rfl
      exact Option.some.inj ((hclearer u hu).symm.trans (hclearer u' hu'))

end Uncovered

/-! ## Two runs -/

/-- A test of the usage that a schedule of finitely many threads can be run with. -/
def usageTest {τ : Type} [Fintype τ] (s : State τ) (i : τ × Choice) : Bool :=
  decide (i.2.queue.leftover = ThreadData.new) && match i.2.op with
    | .add _ => decide (∀ u, inWait (s.pc u) = false)
    | .done => decide (1 ≤ s.mem.workers.toInt)
    | .wait => true

/-- The test of the usage is right. -/
theorem usage_of_usageTest {τ : Type} [Fintype τ] {s : State τ} {log : List (Event τ)}
    {i : τ × Choice} (h : usageTest s i = true) : usage τ s log i := by
  simp only [usageTest, Bool.and_eq_true, decide_eq_true_eq] at h
  obtain ⟨hfresh, hop⟩ := h
  refine ⟨hfresh, fun _ => ?_⟩
  cases hi : i.2.op with
  | add n =>
      rw [hi] at hop
      exact fun _ => of_decide_eq_true hop
  | done =>
      rw [hi] at hop
      exact of_decide_eq_true hop
  | wait => trivial

/-- A test of all the conditions for a run without `add` up to the first cut. -/
def inTimeTest {τ : Type} [Fintype τ] (s : State τ) (i : τ × Choice) : Bool :=
  usageTest s i && (match i.2.op with | .add _ => false | _ => true) &&
    !isQueueClear s.mem.queue.word &&
    ParkingQueue.abortInTime i.2.queue.spurious s.mem.queue (s.pc i.1)

/-- The test of all the conditions is right. -/
theorem inTime_of_inTimeTest {τ : Type} [Fintype τ] {s : State τ} {log : List (Event τ)}
    {i : τ × Choice} (h : inTimeTest s i = true) : inTime τ s log i := by
  simp only [inTimeTest, Bool.and_eq_true, Bool.not_eq_true'] at h
  obtain ⟨⟨⟨husage, hop⟩, hunset⟩, habort⟩ := h
  refine ⟨usage_of_usageTest husage, fun hrely => ?_, habort⟩
  cases hrely with
  | add hpc hadd hzero =>
      rw [hadd] at hop
      cases hop
  | early hplace hclear hzero =>
      rw [hunset] at hclear
      cases hclear

/-- `n` steps of `t` that go on with a call, or begin a `wait`. -/
def steps {τ : Type} (t : τ) (n : ℕ) : List (τ × Choice) := List.replicate n (t, {})

/-- A call of `wait` by `t` up to its sleep, on a queue with a null head and a counter
that is not zero, with the node at `p`. -/
def sleepSchedule {τ : Type} (t : τ) (p : Ptr) : List (τ × Choice) :=
  steps t 13 ++ [(t, { queue := { addr := p } })] ++ steps t 5

/-- A waiter asleep with the counter at zero, and the `done` that has cut its node off. -/
theorem no_lost_wakeup_done :
    ∃ s : State (Fin 4), s.mem.workers = 0 ∧ Asleep s 2 ∧ s.pc 3 = .walkNext 8 ∧
      ¬ LostWakeup s := by
  obtain ⟨s, log, run, hend⟩ := exists_exec_of_run (machine (Fin 4)) (inTime (Fin 4))
    (fun s _ i => inTimeTest s i) (fun _ _ _ h => inTime_of_inTimeTest h) ⟨1, rfl⟩
    (sleepSchedule 2 8 ++ [(3, { op := .done })] ++ steps 3 2)
    (fun s _ => decide (s.mem.workers = 0) && decide (s.pc 2 = .park 10 8) &&
      decide ((s.mem.queue.node 8).parker = false) && decide (s.pc 3 = .walkNext 8))
    (by decide +kernel)
  simp only [Bool.and_eq_true, decide_eq_true_eq] at hend
  exact ⟨s, hend.1.1.1, ⟨10, 8, hend.1.1.2, hend.1.2⟩, hend.2, (no_lost_wakeup run).1⟩

/-- **A lost wakeup.** The first `done` takes the counter to zero, cuts an empty queue and
stops before it clears `QUEUE_CLEAR_BIT`. The counter goes up again, a waiter goes to
sleep, and the second `done` returns because the bit is set. Then the first clears the
bit and returns too. -/
theorem no_lost_wakeup_fails :
    ¬ ∀ (s : State (Fin 4)) log, Exec (machine (Fin 4)) (usage (Fin 4)) s log →
      ¬ LostWakeup s := by
  intro hall
  obtain ⟨s, log, run, hend⟩ := exists_exec_of_run (machine (Fin 4)) (usage (Fin 4))
    (fun s _ i => usageTest s i) (fun _ _ _ h => usage_of_usageTest h)
    ⟨1, rfl⟩ ([(0, { op := .done })] ++ steps 0 2 ++ [(1, { op := .add 1 })] ++
      sleepSchedule 2 8 ++ [(3, { op := .done })] ++ steps 3 1 ++ steps 0 1)
    (fun s _ => decide (s.mem.workers = 0) && decide (∀ u, inDone (s.pc u) = false) &&
      decide (s.pc 2 = .park 10 8) && decide ((s.mem.queue.node 8).parker = false))
    (by decide +kernel)
  simp only [Bool.and_eq_true, decide_eq_true_eq] at hend
  exact hall s log run ⟨hend.1.1.1, hend.1.1.2, 2, 10, 8, hend.1.2, hend.2⟩

end Mekong.Analysis.WaitGroup
