import Mekong.Analysis.QueueMemoryOrderSteps

/-!
# The nodes of a `ParkingQueue` are free of data races

As for `RawMutex`, with the orderings the source asks for: a waiter's writes are published
by its push; `unpark_all` and `abort_self` acquire them with the list, and give them on by
notifying the waiter or by releasing the queue lock. The waiter takes its node back in
`park`. All this holds as long as aborts are in time: an `abort_self` that gives up leaves
without acquiring anything.
-/

set_option autoImplicit false

namespace Mekong.Analysis.QueueMemoryOrder

open Mekong.Computation Mekong.Computation.HappensBefore Mekong.Model Mekong.Program
  Mekong.Program.QueueMemoryOrder Mekong.Analysis.MemoryOrder Mekong.Analysis.ParkingQueue
open Mekong.Program.MemoryOrder (Loc Obj Objects)
open Mekong.Program.ParkingQueue (Pc Choice threadStep)

variable {τ : Type}

/-- The parker of the node at `p`, as a keeper. -/
def parkerOf (s : State τ) (p : Ptr) : Keeper τ Obj := .object (.parker p (s.life p))

/-- Who knows of which accesses, in a state that the ghost describes. -/
structure Ordered (s : State τ) (g : Ghost τ) (log : List (Entry τ Obj Loc)) : Prop where
  user : ∀ t p, s.queue.mem.frame p = some t → s.user p = some t
  unborn : Unborn s.toObjects log
  free : ∀ t p, s.queue.mem.frame p = none → s.user p = some t →
    (s.queue.mem.node p).parker = false → NodeKnown s.life log (.thread t) p
  apart : ∀ t p, Apart (s.queue.pc t) p → NodeKnown s.life log (.thread t) p
  queued : ∀ p ∈ g.queue, NodeKnown s.life log (.object .word) p ∨
    ∃ t, holdsQueue (s.queue.pc t) = true ∧ NodeKnown s.life log (.thread t) p
  reached : ∀ t p, Reached g.queue (s.queue.pc t) p → NodeKnown s.life log (.thread t) p
  cut : ∀ t p, holdsClear (s.queue.pc t) = true → p ∈ g.cut → NodeKnown s.life log (.thread t) p
  woken : ∀ t p, linkedNode (s.queue.pc t) = some p → (s.queue.mem.node p).parker = true →
    NodeKnown s.life log (parkerOf s p) p

section Touches

variable {s : ParkingQueue.State τ} {g : Ghost τ} {t u : τ} {p : Ptr}

/-- The nodes of the lists are apart for nobody. -/
theorem not_apart_linked (h : Inv s g) (hp : g.Linked p) : ¬ Apart (s.pc t) p :=
  fun ha => h.not_linked ha.1 (by rw [ha.2]; exact nofun) hp

/-- No node is both queued and cut off. -/
theorem not_queued_cut (h : Inv s g) (hq : p ∈ g.queue) (hc : p ∈ g.cut) : False :=
  (List.nodup_append.mp h.nodup).2.2 p hq p hc rfl

/-- The queue lock has one holder. -/
theorem holder_unique (h : Inv s g) (ht : holdsQueue (s.pc t) = true)
    (hu : holdsQueue (s.pc u) = true) : u = t := by
  have ht' := (h.locker t).mp ht
  rw [(h.locker u).mp hu] at ht'
  exact Option.some.inj ht'

/-- One thread at a time has the queue-clear bit. -/
theorem clearer_unique (h : Inv s g) (ht : holdsClear (s.pc t) = true)
    (hu : holdsClear (s.pc u) = true) : u = t := by
  have ht' := (h.clearer t).mp ht
  rw [(h.clearer u).mp hu] at ht'
  exact Option.some.inj ht'

/-- A thread touches no other thread's own node. -/
theorem not_touches_apart (h : Inv s g) (hut : u ≠ t) (hp : Apart (s.pc u) p) :
    ¬ Touches g (s.pc t) p := by
  rintro (ht | ht | ⟨-, ht⟩)
  · exact hut (h.own_unique ht.1 hp.1)
  · exact not_apart_linked h (.inl (mem_of_reached ht)) hp
  · exact not_apart_linked h (.inr ht) hp

/-- Without the queue lock a thread touches no queued node. -/
theorem not_touches_queued (h : Inv s g) (hp : p ∈ g.queue) (hhold : holdsQueue (s.pc t) = false) :
    ¬ Touches g (s.pc t) p := by
  rintro (ht | ht | ⟨-, ht⟩)
  · exact not_apart_linked h (.inl hp) ht
  · rw [holdsQueue_of_reached ht] at hhold
    cases hhold
  · exact not_queued_cut h hp ht

/-- Without the queue-clear bit a thread touches no node that is cut off. -/
theorem not_touches_cut (h : Inv s g) (hut : u ≠ t) (hu : holdsClear (s.pc u) = true)
    (hp : p ∈ g.cut) : ¬ Touches g (s.pc t) p := by
  rintro (ht | ht | ⟨hclear, -⟩)
  · exact not_apart_linked h (.inr hp) ht
  · exact not_queued_cut h (mem_of_reached ht) hp
  · exact hut (clearer_unique h hclear hu)

/-- No thread touches a node that has been woken. -/
theorem not_touches_woken (h : Inv s g) (hl : linkedNode (s.pc u) = some p)
    (hp : (s.mem.node p).parker = true) : ¬ Touches g (s.pc t) p := by
  have hnot := h.not_linked_of_parker hp
  rintro (ht | ht | ⟨-, ht⟩)
  · obtain rfl := h.own_unique ht.1 (ownNode_of_linkedNode hl)
    rw [ht.2] at hl
    cases hl
  · exact hnot (.inl (mem_of_reached ht))
  · exact hnot (.inr ht)

/-- No thread touches a node whose frame is gone. -/
theorem not_touches_free (h : Inv s g) (hp : s.mem.frame p = none) : ¬ Touches g (s.pc t) p := by
  intro ht
  obtain ⟨u, hf⟩ := touched_frame h ht
  rw [hp] at hf
  cases hf

end Touches

/-! ## One step -/

/-- The log after a step of `t`. -/
def after (log : List (Entry τ Obj Loc)) (t : τ) (c : Choice) (s : State τ) :
    List (Entry τ Obj Loc) :=
  log ++ entries t (actions s.life c s.queue.mem.word (s.queue.pc t))

/-- A step of `t` from `s` to `s'`, with the ghosts that describe them. -/
structure Moves [DecidableEq τ] (s : State τ) (g : Ghost τ) (t : τ) (c : Choice) (fresh : Bool)
    (r : Mem τ × Pc × List (ParkingQueue.Event τ)) (s' : State τ) (g' : Ghost τ) : Prop where
  inv : Inv s.queue g
  inv' : Inv s'.queue g'
  effect : Effect t (s.queue.pc t) g g' r.2.2
  step : threadStep t c s.queue.mem (s.queue.pc t) = some r
  queue : s'.queue = s.queue.moveTo t r.1 r.2.1
  objects : s'.toObjects = s.after (begins (s.queue.pc t)) t c.addr fresh
  allows : begins (s.queue.pc t) = true → s.Allows t c.addr fresh
  clean : begins (s.queue.pc t) = true → fresh = true ∨ (s.queue.mem.node c.addr).parker = false
  inTime : abortInTime c.spurious s.queue.mem (s.queue.pc t) = true

section Step

variable [DecidableEq τ] {s s' : State τ} {g g' : Ghost τ} {t u v : τ} {c : Choice} {fresh : Bool}
  {r : Mem τ × Pc × List (ParkingQueue.Event τ)} {log : List (Entry τ Obj Loc)} {p : Ptr}
  {k : Keeper τ Obj} (h : Moves s g t c fresh r s' g')
include h

/-- The memory after the step. -/
theorem Moves.mem : s'.queue.mem = r.1 := by rw [h.queue, Threads.moveTo_mem]

/-- Where the thread is after the step. -/
theorem Moves.pc_self : s'.queue.pc t = r.2.1 := by rw [h.queue, Threads.moveTo_pc_self]

/-- The other threads stay where they are. -/
theorem Moves.pc_of_ne (hu : u ≠ t) : s'.queue.pc u = s.queue.pc u := by
  rw [h.queue, Threads.moveTo_pc_of_ne _ _ _ hu]

/-- The invariant of the queue after the step. -/
theorem Moves.moved : Inv (s.queue.moveTo t r.1 r.2.1) g' := h.queue ▸ h.inv'

/-- `with_thread_data` begins at an address that no call uses. -/
theorem Moves.begin (hb : begins (s.queue.pc t) = true) :
    s.queue.mem.frame c.addr = none ∧ r.1.frame c.addr = some t := by
  have hr := h.step
  cases hpc : s.queue.pc t <;> rw [hpc] at hr hb <;> try cases hb
  simp only [threadStep] at hr
  split at hr <;> cases hr
  rename_i hc
  exact ⟨by simpa using hc.2, by simp⟩

/-- An object in a frame is the one it was. -/
theorem Moves.same_of_frame (hp : s.queue.mem.frame p = some u) :
    s'.life p = s.life p ∧ s'.user p = s.user p := by
  rw [h.objects]
  refine Objects.after_of_ne ?_
  rintro hb rfl
  rw [(h.begin hb).1] at hp
  cases hp

/-- A node that a thread may access is the object it was. -/
theorem Moves.life_of_touches (hp : Touches g (s.queue.pc u) p) : s'.life p = s.life p := by
  obtain ⟨v, hf⟩ := touched_frame h.inv hp
  exact (h.same_of_frame hf).1

/-- A node in one of the lists is the object it was. -/
theorem Moves.life_of_linked (hp : linkedNode (s.queue.pc u) = some p) : s'.life p = s.life p :=
  (h.same_of_frame ((h.inv.thread u).framed (ownNode_of_linkedNode hp)).frame).1

/-- The cells that a step accesses are those of the objects there now. -/
theorem Moves.life_of_access {n : ℕ} {f : Program.MemoryOrder.Field} {w : Bool}
    (ha : .access (.node p n f) w ∈ actions s.life c s.queue.mem.word (s.queue.pc t)) :
    n = s.life p ∧ Touches g (s.queue.pc t) p := by
  obtain ⟨q, f', hl, hq⟩ := access h.inv ha
  injection hl with hpq hn
  subst hpq
  exact ⟨hn, hq⟩

/-- What the step does not access stays known. -/
theorem Moves.keep (hk : NodeKnown s.life log k p) (hp : ¬ Touches g (s.queue.pc t) p)
    (hlife : s'.life p = s.life p) : NodeKnown s'.life (after log t c s) k p :=
  hk.keep hlife fun _ _ ha => hp (h.life_of_access ha).2

variable (o : Ordered s g log)
include o

omit h [DecidableEq τ] in
/-- A thread knows of every access of a node it may access. -/
theorem Ordered.touched (hp : Touches g (s.queue.pc t) p) : NodeKnown s.life log (.thread t) p := by
  rcases hp with hp | hp | ⟨hclear, hp⟩
  · exact o.apart t p hp
  · exact o.reached t p hp
  · exact o.cut t p hclear hp

/-- A node belongs to the thread whose frame holds it. -/
theorem user_step (hp : s'.queue.mem.frame p = some u) : s'.user p = some u := by
  rw [h.mem] at hp
  rcases frame_origin h.step hp with hf | ⟨hb, rfl, rfl⟩
  · rw [(h.same_of_frame hf).2]
    exact o.user u p hf
  · rw [h.objects, hb]
    exact Objects.after_user

/-- The log has no accesses of objects that are still to be built. -/
theorem unborn_step : Unborn s'.toObjects (after log t c s) := by
  rw [h.objects]
  exact o.unborn.after fun p n f w ha => (h.life_of_access ha).1

/-- The last user of a node whose frame is gone knows its accesses. -/
theorem free_step (hp : s'.queue.mem.frame p = none) (hv : s'.user p = some v)
    (hparker : (s'.queue.mem.node p).parker = false) :
    NodeKnown s'.life (after log t c s) (.thread v) p := by
  rw [h.mem] at hp hparker
  cases hf : s.queue.mem.frame p with
  | none =>
    have hne : begins (s.queue.pc t) = true → p ≠ c.addr := by
      rintro hb rfl
      rw [(h.begin hb).2] at hp
      cases hp
    have hsame : s'.life p = s.life p ∧ s'.user p = s.user p := by
      rw [h.objects]
      exact Objects.after_of_ne hne
    rw [hsame.2] at hv
    -- no thread has the node, so nobody writes its notification
    have hbefore : (s.queue.mem.node p).parker = false := by
      have framed : ∀ {w : τ}, ownNode (s.queue.pc w) = some p → False := by
        intro w hw
        have hw' := ((h.inv.thread w).framed hw).frame
        rw [hf] at hw'
        cases hw'
      rcases parker_origin (p := p) h.step with hsame | ⟨hb, hpa, -⟩ | ⟨n, hpc⟩ | ⟨n, hpc⟩ | ⟨q, hpc⟩
      · rwa [hsame] at hparker
      · exact absurd hpa (hne hb)
      · exact (framed (w := t) (by rw [hpc]; rfl)).elim
      · exact (framed (w := t) (by rw [hpc]; rfl)).elim
      · have ht := h.inv.thread t
        rw [hpc] at ht
        obtain ⟨u, hu⟩ := touched_frame h.inv (t := t) (p := p)
          (.inr (.inr ⟨by rw [hpc]; rfl, ht.2.1.reach_iff.mp (.here ht.1)⟩))
        rw [hf] at hu
        cases hu
    exact h.keep (o.free v p hf hv hbefore) (not_touches_free h.inv hf) hsame.1
  | some w =>
    have hown := (frame_end h.step hp).resolve_left (by simp [hf])
    have hframe := ((h.inv.thread t).framed hown).frame
    obtain ⟨hlife, huser⟩ := h.same_of_frame hframe
    rw [huser, o.user t p hframe] at hv
    obtain rfl := Option.some.inj hv
    rcases leave_origin h.step h.inTime hown hframe hp hparker with hapart | ⟨⟨n, hpc⟩, hpk⟩
    · exact (o.apart t p hapart).own hlife
    · exact (o.woken t p (by rw [hpc]; rfl) hpk).acquire (r := false) (by rw [hpc]; rfl) hlife

/-- A thread knows the accesses of its own node. -/
theorem apart_step (hp : Apart (s'.queue.pc u) p) :
    NodeKnown s'.life (after log t c s) (.thread u) p := by
  by_cases hut : u = t
  · subst hut
    rw [h.pc_self] at hp
    rcases apart_origin h.inv h.moved h.step hp with hp | ⟨hb, rfl, hf⟩ | hp
    · exact (o.apart u p hp).own (h.life_of_touches (.inl hp))
    · have hobjects := h.objects
      rw [hb] at hobjects
      cases hfresh : fresh with
      | false =>
        have huser := (h.allows hb).resolve_left (by simp [hfresh])
        have hparker := (h.clean hb).resolve_left (by simp [hfresh])
        refine (o.free u _ hf huser hparker).own ?_
        rw [hobjects, hfresh]
        exact Objects.after_again
      | true =>
        rw [hobjects, hfresh]
        exact o.unborn.known fun n f w ha => (h.life_of_access ha).1
    · exact (o.reached u p hp).own (h.life_of_touches (.inr (.inl hp)))
  · rw [h.pc_of_ne hut] at hp
    exact h.keep (o.apart u p hp) (not_touches_apart h.inv hut hp) (h.life_of_touches (.inl hp))

/-- The word, or the holder of the queue lock, knows the accesses of a queued node. -/
theorem queued_step (hp : p ∈ g'.queue) :
    NodeKnown s'.life (after log t c s) (.object .word) p ∨
      ∃ u, holdsQueue (s'.queue.pc u) = true ∧ NodeKnown s'.life (after log t c s) (.thread u) p := by
  rcases queue_of_effect h.effect hp with hq | hpush
  · obtain ⟨-, w, hw⟩ := h.inv.linked p (.inl hq)
    have hlife := h.life_of_linked hw
    by_cases hhold : holdsQueue (s.queue.pc t) = true
    · -- the holder goes on with the lock, or gives it back
      have given : NodeKnown s.life log (.thread t) p →
          NodeKnown s'.life (after log t c s) (.object .word) p ∨
            ∃ u, holdsQueue (s'.queue.pc u) = true ∧
              NodeKnown s'.life (after log t c s) (.thread u) p := by
        intro hk
        rcases release_origin s.life h.moved h.step hhold with hstay | ha
        · exact .inr ⟨t, by rw [h.pc_self]; exact hstay, hk.own hlife⟩
        · exact .inl (hk.release ha hlife)
      by_cases htouch : Touches g (s.queue.pc t) p
      · exact given (o.touched htouch)
      · rcases o.queued p hq with hk | ⟨u, hu, hk⟩
        · exact .inl (h.keep hk htouch hlife)
        · obtain rfl := holder_unique h.inv hhold hu
          exact given hk
    · have hnot := not_touches_queued h.inv hq (Bool.eq_false_iff.mpr hhold)
      refine (o.queued p hq).imp (fun hk => h.keep hk hnot hlife) ?_
      rintro ⟨u, hu, hk⟩
      have hut : u ≠ t := by
        rintro rfl
        exact hhold hu
      exact ⟨u, by rw [h.pc_of_ne hut]; exact hu, h.keep hk hnot hlife⟩
  · obtain ⟨hapart, ha⟩ := pushed_origin s.life h.step hpush
    exact .inl ((o.apart t p hapart).release ha (h.life_of_touches (.inl hapart)))

/-- The search knows the accesses of the nodes it has reached. -/
theorem reached_step (hp : Reached g'.queue (s'.queue.pc u) p) :
    NodeKnown s'.life (after log t c s) (.thread u) p := by
  by_cases hut : u = t
  · subst hut
    have hhold := holdsQueue_of_reached hp
    rw [h.pc_self] at hp
    rcases reached_origin s.life h.inv h.moved h.step hp with hp | ⟨hq, ha⟩
    · exact (o.reached u p hp).own (h.life_of_touches (.inr (.inl hp)))
    · obtain ⟨-, w, hw⟩ := h.inv.linked p (.inl hq)
      have hlife := h.life_of_linked hw
      rcases o.queued p hq with hk | ⟨v, hv, hk⟩
      · exact hk.acquire ha hlife
      · -- the holder before the step is the holder after it
        by_cases hvu : v = u
        · subst hvu
          exact hk.own hlife
        · exact absurd (holder_unique h.inv' hhold (by rw [h.pc_of_ne hvu]; exact hv)) hvu
  · rw [h.pc_of_ne hut] at hp
    have hhold := holdsQueue_of_reached hp
    have hnot : holdsQueue (s.queue.pc t) = false :=
      Bool.eq_false_iff.mpr fun ht => hut (holder_unique h.inv ht hhold)
    have hreached : Reached g.queue (s.queue.pc u) p := by
      rcases grown_of_effect h.effect hnot with hq | hq | ⟨x, hpush, hq⟩ <;> rw [hq] at hp
      · exact hp
      · exact absurd (mem_of_reached hp) List.not_mem_nil
      · obtain ⟨hapart, -⟩ := pushed_origin s.life h.step hpush
        exact reached_push h.inv (fun hx => not_apart_linked h.inv (.inl hx) hapart) hp
    exact h.keep (o.reached u p hreached)
      (not_touches_queued h.inv (mem_of_reached hreached) hnot)
      (h.life_of_touches (.inr (.inl hreached)))

/-- The holder of the queue-clear bit knows the accesses of the nodes cut off. -/
theorem cut_step (hu : holdsClear (s'.queue.pc u) = true) (hp : p ∈ g'.cut) :
    NodeKnown s'.life (after log t c s) (.thread u) p := by
  have hclearer := (h.inv'.clearer u).mp hu
  rcases cut_of_effect h.effect hp with ⟨hp, hsame⟩ | ⟨hq, hnew, head, hcut⟩
  · rw [hsame] at hclearer
    have hbefore := (h.inv.clearer u).mpr hclearer
    have hlife := h.life_of_touches (u := u) (.inr (.inr ⟨hbefore, hp⟩))
    by_cases hut : u = t
    · subst hut
      exact (o.cut u p hbefore hp).own hlife
    · exact h.keep (o.cut u p hbefore hp) (not_touches_cut h.inv hut hbefore hp) hlife
  · rw [hnew] at hclearer
    obtain rfl := Option.some.inj hclearer
    obtain ⟨-, w, hw⟩ := h.inv.linked p (.inl hq)
    obtain ⟨hnot, ha⟩ := cut_origin s.life h.step hcut
    rcases o.queued p hq with hk | ⟨v, hv, -⟩
    · exact hk.acquire ha (h.life_of_linked hw)
    · -- nobody has the queue lock while a list is cut off
      have hvt : v ≠ t := by
        rintro rfl
        rw [hnot] at hv
        cases hv
      have hlocker := (h.inv'.locker v).mp (by rw [h.pc_of_ne hvt]; exact hv)
      rcases h.inv'.exclusive with hn | hn
      · rw [hlocker] at hn
        cases hn
      · rw [hnew] at hn
        cases hn

/-- The parker of a woken node knows its accesses. -/
theorem woken_step (hl : linkedNode (s'.queue.pc u) = some p)
    (hp : (s'.queue.mem.node p).parker = true) :
    NodeKnown s'.life (after log t c s) (parkerOf s' p) p := by
  rw [h.mem] at hp
  have hbefore : linkedNode (s.queue.pc u) = some p := by
    by_cases hut : u = t
    · subst hut
      rw [h.pc_self] at hl
      refine (linked_origin h.inv h.step hl).resolve_right ?_
      rw [hp]
      exact nofun
    · rwa [h.pc_of_ne hut] at hl
  have hlife := h.life_of_linked hbefore
  have hframe := ((h.inv.thread u).framed (ownNode_of_linkedNode hbefore)).frame
  rw [parkerOf, hlife]
  rcases parker_origin (p := p) h.step with hsame | ⟨-, -, hf⟩ | ⟨n, hpc⟩ | ⟨n, hpc⟩ | ⟨q, hpc⟩
  · rw [hsame] at hp
    exact h.keep (o.woken u p hbefore hp) (not_touches_woken h.inv hbefore hp) hlife
  · rw [hframe] at hf
    cases hf
  · obtain rfl := h.inv.own_unique (ownNode_of_linkedNode hbefore) (t := u) (u := t) (by rw [hpc]; rfl)
    have hr := h.step
    rw [h.pc_self] at hl
    rw [hpc] at hr
    simp only [threadStep] at hr
    split at hr <;> cases hr
    cases hl
  · obtain rfl := h.inv.own_unique (ownNode_of_linkedNode hbefore) (t := u) (u := t) (by rw [hpc]; rfl)
    rw [hpc] at hbefore
    cases hbefore
  · have ht := h.inv.thread t
    rw [hpc] at ht
    have hcut : p ∈ g.cut := ht.2.1.reach_iff.mp (.here ht.1)
    exact (o.cut t p (by rw [hpc]; rfl) hcut).release (r := false) (by rw [hpc]; rfl) hlife

/-- Along a step, somebody knows of the accesses of each node. -/
theorem Ordered.step : Ordered s' g' (after log t c s) where
  user _ _ := user_step h o
  unborn := unborn_step h o
  free _ _ := free_step h o
  apart _ _ := apart_step h o
  queued _ := queued_step h o
  reached _ _ := reached_step h o
  cut _ _ := cut_step h o
  woken _ _ := woken_step h o

/-- A thread knows of all that conflicts with what it accesses. -/
theorem known_of_access {l : Loc} {w : Bool}
    (ha : .access l w ∈ actions s.life c s.queue.mem.word (s.queue.pc t)) :
    Known log (.thread t) (Conflicts l w) := by
  obtain ⟨p, f, rfl, hp⟩ := access h.inv ha
  exact (o.touched hp).conflicts f w

end Step

/-! ## Runs -/

section Runs

variable [DecidableEq τ] {s s' : State τ} {log es : List (Entry τ Obj Loc)}

/-- A node that is handed out again is clean, and aborts are in time. -/
def inTime (τ : Type) : Guard (State τ) (τ × Choice × Bool) (Entry τ Obj Loc) := fun s _ i =>
  (∀ counter state, s.queue.pc i.1 = .withThreadData counter state →
    Clean state (handedOut s i.2.1.addr i.2.2)) ∧
    abortInTime i.2.1.spurious s.queue.mem (s.queue.pc i.1) = true

/-- The inversion of a step; `c` is its choice with the node that is handed out. -/
theorem moves_of_step {i : τ × Choice × Bool} {g : Ghost τ} (h : Inv s.queue g)
    (hok : inTime τ s log i) (hr : (machine τ).next i s = some (s', es)) :
    ∃ c r g', Moves s g i.1 c i.2.2 r s' g' ∧
      es = entries i.1 (actions s.life c s.queue.mem.word (s.queue.pc i.1)) := by
  obtain ⟨t, c, fresh⟩ := i
  obtain ⟨hclean, hin⟩ := hok
  simp only [machine, step] at hr
  split at hr
  · cases hr
  · rename_i hallows
    simp only [Option.map_eq_some_iff, Prod.mk.injEq] at hr
    obtain ⟨⟨s₁, es₁⟩, hnext, rfl, rfl⟩ := hr
    obtain ⟨m', pc', hthread, rfl⟩ := machine_next hnext
    obtain ⟨g', h', he⟩ := step_advance (t := t) (c := { c with leftover := handedOut s c.addr fresh })
      h hclean hin hthread
    refine ⟨_, (m', pc', es₁), g', ⟨h, h', he, hthread, rfl, rfl, fun hb => ?_, fun hb => ?_, hin⟩, ?_⟩
    · by_contra hne
      exact hallows ⟨hb, hne⟩
    · -- the node kept between calls has no notification
      cases hfresh : fresh with
      | true => exact .inl rfl
      | false =>
        cases hpc : s.queue.pc t <;> rw [hpc] at hb <;> try cases hb
        have hparker := (hclean _ _ hpc).1
        rw [handedOut, hfresh, if_neg Bool.false_ne_true] at hparker
        exact .inr hparker
    · cases s.queue.pc t <;> rfl

omit [DecidableEq τ] in
/-- The invariant holds of a new queue. -/
theorem ordered_new : Ordered (State.new τ) (Ghost.new τ) [] where
  user t p hp := by cases hp
  unborn := unborn_nil _
  free _ _ _ _ _ := known_nil _ _
  apart t p hp := by cases hp.1
  queued p hp := by cases hp
  reached t p hp := hp.elim
  cut t p ht := by cases ht
  woken t p hp := by cases hp

/-- Every state of a run is described by some ghost, and somebody knows of each node. -/
theorem exec_ordered (run : Exec (machine τ) (inTime τ) s log) :
    ∃ g, Inv s.queue g ∧ Ordered s g log ∧ RaceFree log := by
  refine run.invariant (fun s log => ∃ g, Inv s.queue g ∧ Ordered s g log ∧ RaceFree log) ?_ ?_
  · rintro s rfl
    exact ⟨_, inv_new, ordered_new, fun i j t u l w w' hij hi => by simp at hi⟩
  · rintro s log i s' es ⟨g, h, o, hfree⟩ hok hr
    obtain ⟨c, r, g', hmoves, rfl⟩ := moves_of_step h hok hr
    exact ⟨g', hmoves.inv', o.step hmoves, hfree.extend fun l w ha => known_of_access hmoves o ha⟩

/-- **No data races in the queue.** In every run whose aborts are in time, and whose nodes
are new or handed out clean, two accesses of one cell of a node of which one is a write are
ordered by happens-before. -/
theorem queue_data_race_free (run : Exec (machine τ) (inTime τ) s log) : RaceFree log := by
  obtain ⟨g, -, -, hfree⟩ := exec_ordered run
  exact hfree

/-- These steps of the queue, on new nodes. -/
def onNew {ι : Type} (l : List (ι × Choice)) : List (ι × Choice × Bool) :=
  l.map fun i => (i.1, i.2, true)

/-- Two threads push their nodes, and a third cuts both off and wakes them. -/
theorem queue_data_race_free_two :
    ∃ log : List (Entry (Fin 3) Obj Loc), ⟨1, .access (.node 16 1 .next) true⟩ ∈ log ∧
      ⟨2, .access (.node 16 1 .next) false⟩ ∈ log ∧ RaceFree log := by
  obtain ⟨s, log, run, hend⟩ := exists_exec_of_run (machine (Fin 3)) (inTime (Fin 3))
    (fun s _ i => i.2.2 && abortInTime i.2.1.spurious s.queue.mem (s.queue.pc i.1))
    (by
      rintro s log ⟨t, c, fresh⟩ hcheck
      simp only [Bool.and_eq_true] at hcheck
      obtain ⟨rfl, hin⟩ := hcheck
      exact ⟨fun _ state _ => clean_new state, hin⟩)
    rfl (onNew (ParkingQueue.steps 0 13 false ++ [(0, { addr := 8 })] ++
      ParkingQueue.steps 0 5 false ++ ParkingQueue.steps 1 13 false ++ [(1, { addr := 16 })] ++
      ParkingQueue.steps 1 5 false ++ [(2, { op := .unparkAll })] ++
      ParkingQueue.steps 2 9 false))
    (fun _ log => decide (⟨1, .access (.node 16 1 .next) true⟩ ∈ log) &&
      decide (⟨2, .access (.node 16 1 .next) false⟩ ∈ log)) (by decide +kernel)
  simp only [Bool.and_eq_true, decide_eq_true_eq] at hend
  exact ⟨log, hend.1, hend.2, queue_data_race_free run⟩

end Runs

end Mekong.Analysis.QueueMemoryOrder
