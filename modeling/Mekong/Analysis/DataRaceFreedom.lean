import Mekong.Analysis.FairHandoff
import Mekong.Analysis.MemoryOrderSteps

/-!
# A `Mutex` is free of data races

Every plain access of a run is ordered with every conflicting one by happens-before, with
no more than the orderings the source asks for. `Ordered` says at every point of a run who
knows of the accesses of each location: the thread whose own a node is, the word or the holder
of the queue lock while it is queued, the thread that removed it, its parker once it is
notified; and for the cells behind the lock, the owner, the word of a free lock, the thread
that hands the lock over, and the parker of the thread it is handed to.
-/

set_option autoImplicit false

namespace Mekong.Analysis.MemoryOrder

open Mekong.Computation Mekong.Computation.HappensBefore Mekong.Model Mekong.Program
  Mekong.Program.MemoryOrder Mekong.Analysis.RawMutex
open Mekong.Program.RawMutex (Pc Mode Choice threadStep)

variable {τ : Type}

/-- `k` knows of every access of the cells behind the lock. -/
def LockKnown (log : List (Entry τ Obj Loc)) (k : Keeper τ Obj) : Prop :=
  Known log k (AccessOf Guarded)

/-- The parker of the node at `p`, as a keeper. -/
def parkerOf (s : State τ) (p : Ptr) : Keeper τ Obj := .object (.parker p (s.life p))

/-- Who knows of which accesses, in a state whose queue is `q`. -/
structure Ordered (s : State τ) (q : List Ptr) (log : List (Entry τ Obj Loc)) : Prop where
  user : ∀ t p, s.raw.mem.frame p = some t → s.user p = some t
  unborn : Unborn s.toObjects log
  free : ∀ t p, s.raw.mem.frame p = none → s.user p = some t →
    NodeKnown s.life log (.thread t) p
  own : ∀ t p, ownNode (s.raw.pc t) = some p → NodeKnown s.life log (.thread t) p
  queued : ∀ p ∈ q, NodeKnown s.life log (.object .word) p ∨
    ∃ t, holdsQueue (s.raw.pc t) = true ∧ NodeKnown s.life log (.thread t) p
  reached : ∀ t p, Reached q (s.raw.pc t) p → NodeKnown s.life log (.thread t) p
  removed : ∀ t mode p, wakes (s.raw.pc t) = some (mode, p) → NodeKnown s.life log (.thread t) p
  woken : ∀ t p, s.raw.pc t = .park p → (s.raw.mem.node p).parker = true →
    NodeKnown s.life log (parkerOf s p) p
  lockFree : isLocked s.raw.mem.word = false → LockKnown log (.object .word)
  lockOwned : ∀ t, ownsLock (s.raw.pc t) = true → LockKnown log (.thread t)
  lockRead : ∀ t p, s.raw.pc t = .readToken p →
    (s.raw.mem.node p).unparkToken = tokenHandoff → LockKnown log (.thread t)
  lockRemoved : ∀ t p, wakes (s.raw.pc t) = some (.fair, p) → LockKnown log (.thread t)
  lockWoken : ∀ t p, s.raw.pc t = .park p → (s.raw.mem.node p).parker = true →
    (s.raw.mem.node p).unparkToken = tokenHandoff → LockKnown log (parkerOf s p)

section Touches

variable {s : RawMutex.State τ} {g : Ghost τ} {t u : τ} {p : Ptr} {mode : Mode}

/-- Where the node a thread may access stands in its life. -/
theorem status_of_touches (h : Inv s g) (hp : Touches g.queue (s.pc t) p) :
    (g.status p = .inside ∧ s.mem.frame p = some t) ∨
      (g.status p = .queued ∧ holdsQueue (s.pc t) = true) ∨
      ∃ mode, g.status p = .removed t mode := by
  rcases hp with hp | hp | ⟨mode, hp⟩
  · have hin := (h.node t).inside hp
    exact .inl ⟨hin.status, hin.frame⟩
  · exact .inr (.inl ⟨h.queued p (h.reached_mem hp), holdsQueue_of_reached hp⟩)
  · exact .inr (.inr ⟨mode, (h.node t).removed hp⟩)

/-- No thread accesses another one's own node. -/
theorem not_touches_own (h : Inv s g) (hut : u ≠ t) (hp : ownNode (s.pc u) = some p) :
    ¬ Touches g.queue (s.pc t) p := by
  intro ht
  have hin := (h.node u).inside hp
  rcases status_of_touches h ht with ⟨-, hf⟩ | ⟨hq, -⟩ | ⟨mode, hr⟩
  · rw [hin.frame] at hf
    exact hut (Option.some.inj hf)
  · rw [hin.status] at hq
    cases hq
  · rw [hin.status] at hr
    cases hr

/-- No thread accesses a node that another one is about to wake. -/
theorem not_touches_removed (h : Inv s g) (hut : u ≠ t) (hp : wakes (s.pc u) = some (mode, p)) :
    ¬ Touches g.queue (s.pc t) p := by
  intro ht
  have hstatus := (h.node u).removed hp
  rcases status_of_touches h ht with ⟨hi, -⟩ | ⟨hq, -⟩ | ⟨mode', hr⟩
  · rw [hstatus] at hi
    cases hi
  · rw [hstatus] at hq
    cases hq
  · rw [hstatus] at hr
    injection hr with hr
    exact hut hr

/-- No other thread accesses a node with a notification. -/
theorem not_touches_woken (h : Inv s g) (hpc : s.pc u = .park p)
    (hp : (s.mem.node p).parker = true) : ¬ Touches g.queue (s.pc t) p := by
  intro ht
  obtain ⟨mode, hstatus⟩ := h.woken_of_parker hpc hp
  rcases status_of_touches h ht with ⟨hi, -⟩ | ⟨hq, -⟩ | ⟨mode', hr⟩
  · rw [hstatus] at hi
    cases hi
  · rw [hstatus] at hq
    cases hq
  · rw [hstatus] at hr
    cases hr

/-- Without the queue lock no thread accesses a queued node. -/
theorem not_touches_queued (h : Inv s g) (hp : p ∈ g.queue) (hhold : holdsQueue (s.pc t) = false) :
    ¬ Touches g.queue (s.pc t) p := by
  intro ht
  have hstatus := h.queued p hp
  rcases status_of_touches h ht with ⟨hi, -⟩ | ⟨-, hq⟩ | ⟨mode', hr⟩
  · rw [hstatus] at hi
    cases hi
  · rw [hhold] at hq
    cases hq
  · rw [hstatus] at hr
    cases hr

/-- No thread accesses a node in no frame. -/
theorem not_touches_free (h : Inv s g) (hp : s.mem.frame p = none) :
    ¬ Touches g.queue (s.pc t) p := by
  intro ht
  obtain ⟨u, hf, -⟩ := h.touched_frame ht
  rw [hp] at hf
  cases hf

/-- The queue lock has one holder. -/
theorem holder_unique (h : Inv s g) (ht : holdsQueue (s.pc t) = true)
    (hu : holdsQueue (s.pc u) = true) : u = t := by
  have ht' := (h.holder t).mp ht
  rw [(h.holder u).mp hu] at ht'
  exact Option.some.inj ht'

end Touches

section Keeps

variable {s : State τ} {t : τ} {c : Choice} {log : List (Entry τ Obj Loc)} {p : Ptr}

/-- The log after a step of `t`. -/
def after (log : List (Entry τ Obj Loc)) (t : τ) (c : Choice) (s : State τ) :
    List (Entry τ Obj Loc) :=
  log ++ entries t (actions s.life c s.raw.mem.word (s.raw.pc t))

/-- A thread knows of every access of a node it may access. -/
theorem Ordered.touched {q : List Ptr} (o : Ordered s q log) (hp : Touches q (s.raw.pc t) p) :
    NodeKnown s.life log (.thread t) p := by
  rcases hp with hp | hp | ⟨mode, hp⟩
  · exact o.own t p hp
  · exact o.reached t p hp
  · exact o.removed t mode p hp

end Keeps

/-! ## One step of the `RawMutex` -/

/-- A step of `t` from `s` to `s'`, with the ghosts that describe them. -/
structure Moves [DecidableEq τ] (s : State τ) (g : Ghost τ) (t : τ) (c : Choice) (fresh : Bool)
    (r : Mem τ × Pc × List (RawMutex.Event τ)) (s' : State τ) (g' : Ghost τ) : Prop where
  inv : Inv s.raw g
  inv' : Inv s'.raw g'
  effect : Effect g t r.1.word r.2.2 g'
  step : threadStep t c s.raw.mem (s.raw.pc t) = some r
  raw : s'.raw = s.raw.moveTo t r.1 r.2.1
  objects : s'.toObjects = s.after (begins (s.raw.pc t)) t c.addr fresh
  allows : begins (s.raw.pc t) = true → s.Allows t c.addr fresh

section Step

variable [DecidableEq τ] {s s' : State τ} {g g' : Ghost τ} {t u v : τ} {c : Choice} {fresh : Bool}
  {r : Mem τ × Pc × List (RawMutex.Event τ)} {log : List (Entry τ Obj Loc)} {p : Ptr} {mode : Mode}
  {k : Keeper τ Obj} (h : Moves s g t c fresh r s' g')
include h

/-- The step leaves this memory. -/
theorem Moves.mem : s'.raw.mem = r.1 := by rw [h.raw, Threads.moveTo_mem]

/-- The step leaves its thread here. -/
theorem Moves.pc_self : s'.raw.pc t = r.2.1 := by rw [h.raw, Threads.moveTo_pc_self]

/-- The step leaves the other threads where they were. -/
theorem Moves.pc_of_ne (hu : u ≠ t) : s'.raw.pc u = s.raw.pc u := by
  rw [h.raw, Threads.moveTo_pc_of_ne _ _ _ hu]

/-- `with_thread_data` begins at an address that no call uses. -/
theorem Moves.begin (hb : begins (s.raw.pc t) = true) :
    s.raw.mem.frame c.addr = none ∧ r.1.frame c.addr = some t := by
  have hr := h.step
  cases hpc : s.raw.pc t <;> rw [hpc] at hr hb <;> try cases hb
  simp only [threadStep] at hr
  split at hr <;> cases hr
  rename_i hc
  exact ⟨by simpa using hc.2.1, by simp⟩

/-- Elsewhere the objects stay the same. -/
theorem Moves.same (hp : begins (s.raw.pc t) = true → p ≠ c.addr) :
    s'.life p = s.life p ∧ s'.user p = s.user p := by
  rw [h.objects]
  exact Objects.after_of_ne hp

/-- A node in a frame stays the same object with the same user. -/
theorem Moves.same_of_frame (hp : s.raw.mem.frame p = some u) :
    s'.life p = s.life p ∧ s'.user p = s.user p := by
  refine h.same ?_
  rintro hb rfl
  rw [(h.begin hb).1] at hp
  cases hp

/-- A node that a thread may access stays the same object. -/
theorem Moves.life_of_touches (hp : Touches g.queue (s.raw.pc u) p) : s'.life p = s.life p := by
  obtain ⟨v, hf, -⟩ := h.inv.touched_frame hp
  exact (h.same_of_frame hf).1

/-- A parked node stays the same object. -/
theorem Moves.life_of_park (hp : s.raw.pc u = .park p) : s'.life p = s.life p := by
  have hn := h.inv.node u
  rw [hp] at hn
  exact (h.same_of_frame hn.1).1

/-- The cells of nodes that a step accesses are those of the objects there now. -/
theorem Moves.life_of_access {n : ℕ} {f : Field} {w : Bool}
    (ha : .access (.node p n f) w ∈ actions s.life c s.raw.mem.word (s.raw.pc t)) :
    n = s.life p ∧ Touches g.queue (s.raw.pc t) p := by
  rcases h.inv.access ha with ⟨q, f', hl, hq⟩ | ⟨hl, -⟩
  · injection hl with hpq hn
    subst hpq
    exact ⟨hn, hq⟩
  · exact hl.elim

/-- What the step does not access stays known. -/
theorem Moves.keep (hk : NodeKnown s.life log k p) (hp : ¬ Touches g.queue (s.raw.pc t) p)
    (hlife : s'.life p = s.life p) : NodeKnown s'.life (after log t c s) k p :=
  hk.keep hlife fun _ _ ha => hp (h.life_of_access ha).2

/-- The cells behind the lock stay known in the steps of others than the owner. -/
theorem Moves.lock_keep (hk : LockKnown log k) (ho : ownsLock (s.raw.pc t) = false) :
    LockKnown (after log t c s) k := by
  refine Known.keep hk fun a ha hl => ?_
  cases a with
  | sync => exact hl
  | access l w =>
    rcases h.inv.access ha with ⟨q, f, rfl, -⟩ | ⟨-, hown⟩
    · exact hl
    · rw [ho] at hown
      cases hown

/-! ### The nodes -/

variable (o : Ordered s g.queue log)
include o

/-- The thread with a node in its frame is the node's user. -/
theorem user_step (hp : s'.raw.mem.frame p = some u) : s'.user p = some u := by
  rw [h.mem] at hp
  rcases frame_of_step h.step hp with hf | ⟨hb, rfl, rfl⟩
  · rw [(h.same_of_frame hf).2]
    exact o.user u p hf
  · rw [h.objects, hb]
    exact Objects.after_user

/-- No object is accessed before it exists. -/
theorem unborn_step : Unborn s'.toObjects (after log t c s) := by
  rw [h.objects]
  exact o.unborn.after fun p n f w ha => (h.life_of_access ha).1

/-- The last user of a free address knows of every access of its node. -/
theorem free_step (hp : s'.raw.mem.frame p = none) (hv : s'.user p = some v) :
    NodeKnown s'.life (after log t c s) (.thread v) p := by
  rw [h.mem] at hp
  rcases free_of_step h.step hp with hf | hown
  · have hsame : s'.life p = s.life p ∧ s'.user p = s.user p := by
      refine h.same ?_
      rintro hb rfl
      rw [(h.begin hb).2] at hp
      cases hp
    rw [hsame.2] at hv
    exact h.keep (o.free v p hf hv) (not_touches_free h.inv hf) hsame.1
  · have hframe := ((h.inv.node t).inside hown).frame
    obtain ⟨hlife, huser⟩ := h.same_of_frame hframe
    rw [huser, o.user t p hframe] at hv
    obtain rfl := Option.some.inj hv
    exact (o.own t p hown).own hlife

/-- A thread knows of every access of its own node. -/
theorem own_step (hp : ownNode (s'.raw.pc u) = some p) :
    NodeKnown s'.life (after log t c s) (.thread u) p := by
  by_cases hut : u = t
  · subst hut
    rw [h.pc_self] at hp
    rcases own_of_step h.step hp with hown | ⟨hb, rfl, hf⟩ | ⟨hpc, hpk⟩
    · exact (o.own u p hown).own (h.life_of_touches (.inl hown))
    · have hobjects := h.objects
      rw [hb] at hobjects
      cases hfresh : fresh with
      | false =>
        have huser := (h.allows hb).resolve_left (by simp [hfresh])
        refine (o.free u _ hf huser).own ?_
        rw [hobjects, hfresh]
        exact Objects.after_again
      | true =>
        rw [hobjects, hfresh]
        exact o.unborn.known fun n f w ha => (h.life_of_access ha).1
    · exact (o.woken u p hpc hpk).acquire (r := false) (by rw [hpc]; rfl) (h.life_of_park hpc)
  · rw [h.pc_of_ne hut] at hp
    exact h.keep (o.own u p hp) (not_touches_own h.inv hut hp) (h.life_of_touches (.inl hp))

/-- A thread knows of every access of the node it is about to wake. -/
theorem removed_step (hp : wakes (s'.raw.pc u) = some (mode, p)) :
    NodeKnown s'.life (after log t c s) (.thread u) p := by
  by_cases hut : u = t
  · subst hut
    rw [h.pc_self] at hp
    have htouch : Touches g.queue (s.raw.pc u) p := by
      rcases wakes_of_step h.inv h.step hp with hw | ⟨hreached, -⟩
      · exact .inr (.inr ⟨mode, hw⟩)
      · exact .inr (.inl hreached)
    exact (o.touched htouch).own (h.life_of_touches htouch)
  · rw [h.pc_of_ne hut] at hp
    exact h.keep (o.removed u mode p hp) (not_touches_removed h.inv hut hp)
      (h.life_of_touches (.inr (.inr ⟨mode, hp⟩)))

omit o in
/-- A thread does not park on a notified node of its own. -/
theorem not_parked_self (hpc : s'.raw.pc t = .park p)
    (hp : (s'.raw.mem.node p).parker = true) : False := by
  rw [h.pc_self] at hpc
  obtain ⟨hown, hnode⟩ := park_of_step h.step hpc
  rw [h.mem, hnode, ((h.inv.node t).inside hown).parker] at hp
  cases hp

/-- A notified parker knows of every access of its node. -/
theorem woken_step (hpc : s'.raw.pc u = .park p) (hp : (s'.raw.mem.node p).parker = true) :
    NodeKnown s'.life (after log t c s) (parkerOf s' p) p := by
  by_cases hut : u = t
  · subst hut
    exact (not_parked_self h hpc hp).elim
  · rw [h.pc_of_ne hut] at hpc
    rw [h.mem] at hp
    have hlife := h.life_of_park hpc
    rw [parkerOf, hlife]
    rcases parker_of_step h.step hp with hp | ⟨mode, hun⟩
    · exact h.keep (o.woken u p hpc hp) (not_touches_woken h.inv hpc hp) hlife
    · exact (o.removed t mode p (by rw [hun]; rfl)).release (r := false) (by rw [hun]; rfl) hlife

/-- A thread knows of every access of the nodes its walk has reached. -/
theorem reached_step (hp : Reached g'.queue (s'.raw.pc u) p) :
    NodeKnown s'.life (after log t c s) (.thread u) p := by
  by_cases hut : u = t
  · subst hut
    have hhold := holdsQueue_of_reached hp
    rw [h.pc_self] at hp
    rcases reached_of_step h.inv h.step h.effect hp with hp | ⟨hp, ha⟩
    · exact (o.reached u p hp).own (h.life_of_touches (.inr (.inl hp)))
    · obtain ⟨v, -, hf, -⟩ := h.inv.parked hp
      have hlife := (h.same_of_frame hf).1
      rcases o.queued p hp with hk | ⟨w, hw, hk⟩
      · exact hk.acquire ha hlife
      · -- the holder before the step is the holder after it
        have hwu : w = u := by
          by_cases hwu : w = u
          · exact hwu
          · exact holder_unique h.inv' hhold (by rw [h.pc_of_ne hwu]; exact hw)
        subst hwu
        exact hk.own hlife
  · rw [h.pc_of_ne hut] at hp
    have hhold := holdsQueue_of_reached hp
    have hnot : holdsQueue (s.raw.pc t) = false :=
      Bool.eq_false_iff.mpr fun ht => hut (holder_unique h.inv ht hhold)
    have hreached : Reached g.queue (s.raw.pc u) p := by
      rcases h.effect.queue_cases with hq | ⟨q, -, hinside, hq⟩ | ⟨q, hq⟩
      · rwa [hq] at hp
      · rw [hq] at hp
        exact reached_of_push (h.inv.walk u) (h.inv.notMem_of_status (by rw [hinside]; simp)) hp
      · rw [hq]
        exact hp.append _
    exact h.keep (o.reached u p hreached)
      (not_touches_queued h.inv (h.inv.reached_mem hreached) hnot)
      (h.life_of_touches (.inr (.inl hreached)))

/-- A node that was queued before the step. -/
theorem queued_stays (hp : p ∈ g.queue) :
    NodeKnown s'.life (after log t c s) (.object .word) p ∨
      ∃ u, holdsQueue (s'.raw.pc u) = true ∧ NodeKnown s'.life (after log t c s) (.thread u) p := by
  obtain ⟨v, -, hf, -⟩ := h.inv.parked hp
  have hlife := (h.same_of_frame hf).1
  have hkept : NodeKnown s.life log (.thread t) p → holdsQueue (s.raw.pc t) = true →
      NodeKnown s'.life (after log t c s) (.object .word) p ∨
        ∃ u, holdsQueue (s'.raw.pc u) = true ∧
          NodeKnown s'.life (after log t c s) (.thread u) p := by
    intro hk hhold
    rcases release_of_step s.life h.step hhold with hstay | ha
    · exact .inr ⟨t, by rw [h.pc_self]; exact hstay, hk.own hlife⟩
    · exact .inl (hk.release ha hlife)
  by_cases htouch : Touches g.queue (s.raw.pc t) p
  · rcases status_of_touches h.inv htouch with ⟨hi, -⟩ | ⟨-, hhold⟩ | ⟨mode, hr⟩
    · rw [h.inv.queued p hp] at hi
      cases hi
    · exact hkept (o.touched htouch) hhold
    · rw [h.inv.queued p hp] at hr
      cases hr
  · rcases o.queued p hp with hk | ⟨u, hhold, hk⟩
    · exact .inl (h.keep hk htouch hlife)
    · by_cases hut : u = t
      · subst hut
        exact hkept hk hhold
      · exact .inr ⟨u, by rw [h.pc_of_ne hut]; exact hhold, h.keep hk htouch hlife⟩

/-- The word or the holder of the queue lock knows of every access of a queued node. -/
theorem queued_step (hp : p ∈ g'.queue) :
    NodeKnown s'.life (after log t c s) (.object .word) p ∨
      ∃ u, holdsQueue (s'.raw.pc u) = true ∧ NodeKnown s'.life (after log t c s) (.thread u) p := by
  rcases h.effect.queue_cases with hq | ⟨q, hes, -, hq⟩ | ⟨q, hq⟩
  · rw [hq] at hp
    exact queued_stays h o hp
  · rw [hq] at hp
    rcases List.mem_cons.mp hp with rfl | hp
    · obtain ⟨hown, ha⟩ := push_of_step (p := p) h.step (by rw [hes]; simp)
      exact .inl ((o.own t p hown).release ha (h.life_of_touches (.inl hown)))
    · exact queued_stays h o hp
  · exact queued_stays h o (by rw [hq]; exact List.mem_append_left _ hp)

/-! ### The cells behind the lock -/

omit o in
/-- The cells behind the lock are not accessed while another thread has a claim on them. -/
theorem not_owner (hut : u ≠ t) (ho : g.owner = some u) : ownsLock (s.raw.pc t) = false := by
  refine Bool.eq_false_iff.mpr fun ht => hut ?_
  have hown : Owns s.raw.mem g (s.raw.pc t) := by
    cases hpc : s.raw.pc t <;> rw [hpc] at ht <;> first | exact ht | cases ht
  have howner := (h.inv.owner t).mp hown
  rw [ho] at howner
  exact Option.some.inj howner

/-- The word of a free lock knows of every access behind it. -/
theorem lockFree_step (hl : isLocked s'.raw.mem.word = false) :
    LockKnown (after log t c s) (.object .word) := by
  rw [h.mem] at hl
  cases hlocked : isLocked s.raw.mem.word with
  | false =>
    refine h.lock_keep (o.lockFree hlocked) (Bool.eq_false_iff.mpr fun ht => ?_)
    have hown : Owns s.raw.mem g (s.raw.pc t) := by
      cases hpc : s.raw.pc t <;> rw [hpc] at ht <;> first | exact ht | cases ht
    rw [(h.inv.owner_word hown).2.1] at hlocked
    cases hlocked
  | true =>
    obtain ⟨hown, ha⟩ := unlocked_of_step s.life h.inv h.step hlocked hl
    exact Known.release (o.lockOwned t hown) ha

/-- The owner of the lock knows of every access behind it. -/
theorem lockOwned_step (hu : ownsLock (s'.raw.pc u) = true) :
    LockKnown (after log t c s) (.thread u) := by
  by_cases hut : u = t
  · subst hut
    rw [h.pc_self] at hu
    rcases ownsLock_of_step s.life h.inv h.step hu with hu | ⟨hfree, ha⟩ | ⟨p, hpc, hp⟩
    · exact (o.lockOwned u hu).own
    · exact (o.lockFree hfree).acquire ha
    · exact (o.lockRead u p hpc hp).own
  · rw [h.pc_of_ne hut] at hu
    refine h.lock_keep (o.lockOwned u hu) (not_owner h hut ((h.inv.owner u).mp ?_))
    cases hpc : s.raw.pc u <;> rw [hpc] at hu <;> first | exact hu | cases hu

/-- A thread about to read the hand-off knows of every access behind the lock. -/
theorem lockRead_step (hpc : s'.raw.pc u = .readToken p)
    (hp : (s'.raw.mem.node p).unparkToken = tokenHandoff) :
    LockKnown (after log t c s) (.thread u) := by
  rw [h.mem] at hp
  by_cases hut : u = t
  · subst hut
    rw [h.pc_self] at hpc
    obtain ⟨hpark, hpk⟩ := readToken_of_step h.step hpc
    rcases token_of_step (p := p) h.step with htoken | hown | hset | ⟨hb, -⟩
    · rw [htoken] at hp
      exact (o.lockWoken u p hpark hpk hp).acquire (r := false) (by rw [hpark]; rfl)
    all_goals
      rw [hpark] at *
      simp_all [ownNode, begins]
  · rw [h.pc_of_ne hut] at hpc
    have hin := (h.inv.node u).inside (p := p) (by rw [hpc]; rfl)
    rcases token_of_step (p := p) h.step with htoken | hown | hset | ⟨-, -, hf⟩
    · rw [htoken] at hp
      refine h.lock_keep (o.lockRead u p hpc hp) (not_owner h hut ((h.inv.owner u).mp ?_))
      rw [hpc]
      exact hp
    · exact absurd (.inl hown) (not_touches_own h.inv hut (by rw [hpc]; rfl))
    · exact absurd (.inr (.inr ⟨.fair, by rw [hset]; rfl⟩))
        (not_touches_own h.inv hut (p := p) (by rw [hpc]; rfl))
    · rw [hin.frame] at hf
      cases hf

/-- A thread about to hand the lock over knows of every access behind it. -/
theorem lockRemoved_step (hp : wakes (s'.raw.pc u) = some (.fair, p)) :
    LockKnown (after log t c s) (.thread u) := by
  by_cases hut : u = t
  · subst hut
    rw [h.pc_self] at hp
    rcases wakes_of_step h.inv h.step hp with hw | ⟨-, hown⟩
    · exact (o.lockRemoved u p hw).own
    · exact (o.lockOwned u (hown rfl)).own
  · rw [h.pc_of_ne hut] at hp
    -- the lock belongs to the thread of the removed node, which is parked
    obtain ⟨-, v, -, hv⟩ := h.inv.removed_parked hp
    have howner : g.owner = some v := by
      refine (h.inv.owner v).mp ?_
      rw [hv]
      simp [Owns, (h.inv.node u).removed hp, Status.Handed]
    refine h.lock_keep (o.lockRemoved u p hp) ?_
    by_cases hvt : v = t
    · rw [← hvt, hv]
      rfl
    · exact not_owner h hvt howner

/-- The parker through which the lock is handed over knows of every access behind it. -/
theorem lockWoken_step (hpc : s'.raw.pc u = .park p) (hp : (s'.raw.mem.node p).parker = true)
    (htoken : (s'.raw.mem.node p).unparkToken = tokenHandoff) :
    LockKnown (after log t c s) (parkerOf s' p) := by
  by_cases hut : u = t
  · subst hut
    exact (not_parked_self h hpc hp).elim
  · rw [h.pc_of_ne hut] at hpc
    rw [h.mem] at hp htoken
    rw [parkerOf, h.life_of_park hpc]
    rcases parker_of_step h.step hp with hp | ⟨mode, hun⟩
    · have hnot := not_touches_woken (t := t) h.inv hpc hp
      have hhand : (s.raw.mem.node p).unparkToken = tokenHandoff := by
        rcases token_of_step (p := p) h.step with hsame | hown | hset | ⟨-, -, hf⟩
        · rwa [hsame] at htoken
        · exact absurd (.inl hown) hnot
        · exact absurd (.inr (.inr ⟨.fair, by rw [hset]; rfl⟩)) hnot
        · have hn := h.inv.node u
          rw [hpc] at hn
          rw [hn.1] at hf
          cases hf
      refine h.lock_keep (o.lockWoken u p hpc hp hhand) (not_owner h hut ((h.inv.owner u).mp ?_))
      obtain ⟨mode, hstatus⟩ := h.inv.woken_of_parker hpc hp
      have hs := h.inv.status p
      simp only [StatusInv, hstatus, hhand] at hs
      rw [hpc]
      cases mode with
      | plain => exact absurd hs.2.1 (by decide)
      | fair => simp [Owns, hstatus, Status.Handed]
    · have hn := h.inv.node t
      rw [hun] at hn
      have hhand : (s.raw.mem.node p).unparkToken = tokenHandoff := by
        rcases token_of_step (p := p) h.step with hsame | hown | hset | ⟨hb, -⟩
        · rwa [hsame] at htoken
        · rw [hun] at hown
          cases hown
        · rw [hun] at hset
          cases hset
        · rw [hun] at hb
          cases hb
      cases mode with
      | plain => exact absurd (hn.2.symm.trans hhand) (by decide)
      | fair =>
        exact (o.lockRemoved t p (by rw [hun]; rfl)).release (r := false) (by rw [hun]; rfl)

/-! ### The whole invariant -/

/-- Along a step of the `RawMutex`, somebody knows of the accesses of each location. -/
theorem Ordered.step : Ordered s' g'.queue (after log t c s) where
  user _ _ := user_step h o
  unborn := unborn_step h o
  free _ _ := free_step h o
  own _ _ := own_step h o
  queued _ := queued_step h o
  reached _ _ := reached_step h o
  removed _ _ _ := removed_step h o
  woken _ _ := woken_step h o
  lockFree := lockFree_step h o
  lockOwned _ := lockOwned_step h o
  lockRead _ _ := lockRead_step h o
  lockRemoved _ _ := lockRemoved_step h o
  lockWoken _ _ := lockWoken_step h o

/-- A thread knows of all that conflicts with what it accesses. -/
theorem known_of_access {l : Loc} {w : Bool}
    (ha : .access l w ∈ actions s.life c s.raw.mem.word (s.raw.pc t)) :
    Known log (.thread t) (Conflicts l w) := by
  rcases h.inv.access ha with ⟨p, f, rfl, hp⟩ | ⟨hl, hown⟩
  · exact (o.touched hp).conflicts f w
  · exact Known.conflicts (o.lockOwned t hown) hl

end Step

section Access

variable {s : State τ} {g : Ghost τ} {t : τ} {log : List (Entry τ Obj Loc)} {w : Bool}

/-- An access through a guard. -/
theorem Ordered.access (o : Ordered s g.queue log) (h : Inv s.raw g) (hpc : s.raw.pc t = .held) :
    Ordered s g.queue (log ++ entries t [.access .data w]) := by
  have howner : g.owner = some t := (h.owner t).mp (by rw [hpc]; rfl)
  have unique : ∀ {u : τ}, g.owner = some u → u = t := by
    intro u hu
    rw [howner] at hu
    exact (Option.some.inj hu).symm
  have node : ∀ {k : Keeper τ Obj} {p : Ptr}, NodeKnown s.life log k p →
      NodeKnown s.life (log ++ entries t [.access .data w]) k p :=
    fun hk => hk.keep rfl (by simp)
  have lock : ∀ {u : τ}, u = t → LockKnown log (.thread u) →
      LockKnown (log ++ entries t [.access .data w]) (.thread u) := by
    rintro u rfl hk
    exact Known.own hk
  refine ⟨o.user, fun p n f i e w' hn hi => ?_, fun u p hf hu => node (o.free u p hf hu),
    fun u p hp => node (o.own u p hp), fun p hp => (o.queued p hp).imp node ?_,
    fun u p hp => node (o.reached u p hp), fun u mode p hp => node (o.removed u mode p hp),
    fun u p hu hp => node (o.woken u p hu hp), fun hl => ?_, fun u hu => ?_, fun u p hu hp => ?_,
    fun u p hu => ?_, fun u p hu hp htoken => ?_⟩
  · rcases getElem?_entries hi with hi | ⟨-, ha⟩
    · exact o.unborn p n f i e w' hn hi
    · rw [List.mem_singleton.mp ha]
      simp
  · rintro ⟨u, hu, hk⟩
    exact ⟨u, hu, node hk⟩
  · rw [h.locked, howner] at hl
    cases hl
  · refine lock (unique ((h.owner u).mp ?_)) (o.lockOwned u hu)
    cases hpu : s.raw.pc u <;> rw [hpu] at hu <;> first | exact hu | cases hu
  · refine lock (unique ((h.owner u).mp ?_)) (o.lockRead u p hu hp)
    rw [hu]
    exact hp
  · obtain ⟨-, v, -, hv⟩ := h.removed_parked hu
    have hvt := unique ((h.owner v).mp (by rw [hv]; simp [Owns, (h.node u).removed hu, Status.Handed]))
    rw [hvt, hpc] at hv
    cases hv
  · obtain ⟨mode, hstatus⟩ := h.woken_of_parker hu hp
    have hs := h.status p
    simp only [StatusInv, hstatus, htoken] at hs
    have hut : u = t := by
      refine unique ((h.owner u).mp ?_)
      rw [hu]
      cases mode with
      | plain => exact absurd hs.2.1 (by decide)
      | fair => simp [Owns, hstatus, Status.Handed]
    rw [hut, hpc] at hu
    cases hu

end Access

/-! ## Runs -/

section Runs

variable [DecidableEq τ] {s s' : State τ} {log es : List (Entry τ Obj Loc)}

/-- The inversion of a step of the `RawMutex`. -/
theorem moves_of_rawStep {t : τ} {c : Choice} {fresh : Bool} {g : Ghost τ} (h : Inv s.raw g)
    (hr : rawStep t c fresh s = some (s', es)) :
    ∃ r g', Moves s g t c fresh r s' g' ∧
      es = entries t (actions s.life c s.raw.mem.word (s.raw.pc t)) := by
  unfold rawStep at hr
  split at hr
  · cases hr
  · rename_i hagain
    simp only [Option.map_eq_some_iff, Prod.mk.injEq] at hr
    obtain ⟨⟨s₁, es₁⟩, hnext, rfl, rfl⟩ := hr
    obtain ⟨m', pc', hthread, rfl⟩ := machine_next hnext
    obtain ⟨g', h', he⟩ := step_advance h hthread
    refine ⟨(m', pc', es₁), g', ⟨h, h', he, hthread, rfl, rfl, fun hb => ?_⟩, rfl⟩
    by_contra hne
    exact hagain ⟨hb, hne⟩

omit [DecidableEq τ] in
/-- At the start nothing has been accessed. -/
theorem ordered_new : Ordered (State.new τ) [] [] where
  user t p hp := by cases hp
  unborn := unborn_nil _
  free _ _ _ _ := known_nil _ _
  own t p hp := by cases hp
  queued p hp := by cases hp
  reached t p hp := hp.elim
  removed t mode p hp := by cases hp
  woken t p hp := by cases hp
  lockFree _ := known_nil _ _
  lockOwned t ht := by cases ht
  lockRead t p hp := by cases hp
  lockRemoved t p hp := by cases hp
  lockWoken t p hp := by cases hp

/-- Every state of a run is described by some ghost, and somebody knows of each location. -/
theorem exec_ordered (run : Runs (machine τ) s log) :
    ∃ g, Inv s.raw g ∧ Ordered s g.queue log ∧ RaceFree log := by
  refine run.invariant
    (fun s log => ∃ g, Inv s.raw g ∧ Ordered s g.queue log ∧ RaceFree log) ?_ ?_
  · rintro s rfl
    exact ⟨_, inv_new, ordered_new, fun i j t u l w w' hij hi => by simp at hi⟩
  · rintro s log i s' es ⟨g, h, o, hfree⟩ - hr
    cases i with
    | raw t c fresh =>
      obtain ⟨r, g', hmoves, rfl⟩ := moves_of_rawStep h hr
      exact ⟨g', hmoves.inv', o.step hmoves, hfree.extend fun l w ha => known_of_access hmoves o ha⟩
    | access t w =>
      simp only [machine] at hr
      split at hr <;> cases hr
      rename_i hpc
      refine ⟨g, h, o.access h hpc, hfree.extend fun l w' ha => ?_⟩
      obtain ⟨rfl, -⟩ := Action.access.inj (List.mem_singleton.mp ha)
      exact Known.conflicts (o.lockOwned t (by rw [hpc]; rfl)) trivial

/-- **No data races.** In every run, two accesses of one location of which one is a write are
ordered by happens-before: of the cells of a node, of the cells of `FairTimeout`, and of the
protected value, which is accessed by the thread that has the guard only. -/
theorem data_race_free (run : Runs (machine τ) s log) : RaceFree log := by
  obtain ⟨g, -, -, hfree⟩ := exec_ordered run
  exact hfree

/-- Two threads write the value, the second after a fair hand-off. -/
def handoffAccesses : List (Input Bool) :=
  (handoffSchedule.take 20).map (fun i => .raw i.1 i.2 true) ++ [.access false true] ++
    (handoffSchedule.drop 20).map (fun i => .raw i.1 i.2 true) ++
    (RawMutex.steps true 2).map (fun i => .raw i.1 i.2 true) ++ [.access true true]

/-- Two threads write the protected value, the second after a hand-off. -/
theorem data_race_free_handoff :
    ∃ log : List (Entry Bool Obj Loc), ⟨false, .access .data true⟩ ∈ log ∧
      ⟨true, .access .data true⟩ ∈ log ∧ RaceFree log := by
  obtain ⟨s, log, run, hend⟩ := exists_runs_of_run (machine Bool) rfl handoffAccesses
    (fun _ log => decide (⟨false, .access .data true⟩ ∈ log) &&
      decide (⟨true, .access .data true⟩ ∈ log)) (by decide +kernel)
  simp only [Bool.and_eq_true, decide_eq_true_eq] at hend
  exact ⟨log, hend.1, hend.2, data_race_free run⟩

/-- The object that an action of a step is about: a cell of a node, or its parker. -/
def objectOf : Action Obj Loc → Option (Ptr × ℕ)
  | .access (.node p n _) _ | .sync (.parker p n) _ _ => some (p, n)
  | _ => none

/-- **No use after free.** Whatever a step of a reachable state does to a node, it does to
the object that stands there in the frame of an unfinished call, at an aligned address that
is not null. -/
theorem nodes_alive (run : Runs (machine τ) s log) {i : Input τ}
    (hr : (machine τ).next i s = some (s', es)) :
    ∀ e ∈ es, ∀ p n, objectOf e.action = some (p, n) →
      n = s.life p ∧ (∃ u, s.raw.mem.frame p = some u) ∧ IsNodeAddr p := by
  obtain ⟨g, h, -, -⟩ := exec_ordered run
  cases i with
  | access t w =>
    simp only [machine] at hr
    split at hr <;> cases hr
    intro e he p n hobj
    rw [entries, List.map_singleton, List.mem_singleton] at he
    rw [he] at hobj
    cases hobj
  | raw t c fresh =>
    obtain ⟨r, g', hmoves, rfl⟩ := moves_of_rawStep h hr
    intro e he p n hobj
    obtain ⟨a, ha, rfl⟩ := List.mem_map.mp he
    cases a with
    | access l w =>
      rcases h.access ha with ⟨q, f, rfl, hq⟩ | ⟨hl, -⟩
      · obtain ⟨rfl, rfl⟩ := Prod.mk.inj (Option.some.inj hobj)
        obtain ⟨u, hu, haddr⟩ := h.touched_frame hq
        exact ⟨rfl, ⟨u, hu⟩, haddr⟩
      · cases l <;> first | exact hl.elim | cases hobj
    | sync x acq rel =>
      cases x with
      | word => cases hobj
      | parker q m =>
        obtain ⟨rfl, rfl⟩ := Prod.mk.inj (Option.some.inj hobj)
        obtain ⟨rfl, hpark | ⟨mode, hun⟩⟩ := parker_of_actions ha
        · have hn := h.node t
          rw [hpark] at hn
          exact ⟨rfl, ⟨t, hn.1⟩, hn.2.1⟩
        · obtain ⟨u, hu, haddr⟩ :=
            h.touched_frame (t := t) (p := q) (.inr (.inr ⟨mode, by rw [hun]; rfl⟩))
          exact ⟨rfl, ⟨u, hu⟩, haddr⟩

/-- The unlocker's last step notifies a parker that is still there. -/
theorem nodes_alive_handoff :
    ∃ s : State Bool, s.raw.pc false = .unpark .fair 8 ∧ ∃ u, s.raw.mem.frame 8 = some u := by
  obtain ⟨s, log, run, hend⟩ := exists_runs_of_run (machine Bool) rfl
    ((handoffSchedule.take 34).map fun i => .raw i.1 i.2 true)
    (fun s _ => decide (s.raw.pc false = .unpark .fair 8) &&
      ((machine Bool).next (.raw false {} true) s).any fun r =>
        r.2.any fun e => decide (objectOf e.action = some (8, 1))) (by decide +kernel)
  simp only [Bool.and_eq_true, decide_eq_true_eq] at hend
  obtain ⟨hpc, hnext⟩ := hend
  cases hr : (machine Bool).next (.raw false {} true) s with
  | none => rw [hr] at hnext; cases hnext
  | some r =>
    rw [hr] at hnext
    obtain ⟨e, he, hobj⟩ := List.any_eq_true.mp hnext
    exact ⟨s, hpc, (nodes_alive run hr e he 8 1 (of_decide_eq_true hobj)).2.1⟩

end Runs

end Mekong.Analysis.MemoryOrder
