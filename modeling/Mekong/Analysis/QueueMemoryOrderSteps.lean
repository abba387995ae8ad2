import Mekong.Analysis.NodeObjects
import Mekong.Analysis.ParkingQueueRuns
import Mekong.Program.QueueMemoryOrder

/-!
# What a step of `ParkingQueue` accesses, and which roles it gives its thread

A thread accesses its own node while it is in none of the lists, the nodes its search in
`abort_self` has reached, and in `unpark_all` those of the list it has cut off.
-/

set_option autoImplicit false

namespace Mekong.Analysis.QueueMemoryOrder

open Mekong.Computation Mekong.Computation.HappensBefore Mekong.Computation.NextChain Mekong.Model
  Mekong.Program.ParkingQueue Mekong.Analysis.MemoryOrder Mekong.Analysis.ParkingQueue
open Mekong.Program.MemoryOrder (Loc Obj Field accessCell onCas acquireWord releaseWord)
open Mekong.Program.QueueMemoryOrder (actions begins)

/-! ## The nodes a place may access -/

/-- The queued nodes that the search of `abort_self` has reached. -/
def Reached (q : List Ptr) : Pc → Ptr → Prop
  | .scanNext _ _ _ curr => Behind q curr
  | .headNext _ p _ | .readTail _ p _ _ | .writeTail _ p _ _ _ | .headCas _ p _ _ => Behind q p
  | .midNext _ _ prev | .midWrite _ _ prev _ => Behind q prev
  | _ => fun _ => False

/-- A thread's own node, in none of the lists. -/
def Apart (pc : Pc) (p : Ptr) : Prop := ownNode pc = some p ∧ linkedNode pc = none

/-- The nodes a thread at this place may access. -/
def Touches {τ : Type} (g : Ghost τ) (pc : Pc) (p : Ptr) : Prop :=
  Apart pc p ∨ Reached g.queue pc p ∨ holdsClear pc = true ∧ p ∈ g.cut

/-- Only a holder of the queue lock reaches nodes. -/
theorem holdsQueue_of_reached {q : List Ptr} {pc : Pc} {p : Ptr} (h : Reached q pc p) :
    holdsQueue pc = true := by
  cases pc <;> first | rfl | exact h.elim

/-- A node that the search reaches is queued. -/
theorem mem_of_reached {q : List Ptr} {pc : Pc} {p : Ptr} (h : Reached q pc p) : p ∈ q := by
  cases pc <;> first | exact h.elim | exact Behind.mem h

/-- What the search does at a node. -/
theorem visit_linked (counter : ℕ) (p : Ptr) (state : U64) (prev curr : Ptr) :
    visit counter p state prev curr = .lost counter p state ∨
      linkedNode (visit counter p state prev curr) = some p ∧
        holdsQueue (visit counter p state prev curr) = true := by
  unfold visit
  split
  · exact .inl rfl
  · refine .inr ?_
    (repeat' split) <;> exact ⟨rfl, rfl⟩

section Accesses

variable {τ : Type} {s : State τ} {g : Ghost τ} {t : τ} {c : Choice} {life : Ptr → ℕ} {p : Ptr}

/-- The nodes the search is at are queued. -/
theorem reached_push {x : Ptr} (h : Inv s g) (hx : x ∉ g.queue)
    (hp : Reached (x :: g.queue) (s.pc t) p) : Reached g.queue (s.pc t) p := by
  have ht := h.thread t
  cases hpc : s.pc t <;> rw [hpc] at hp ht <;> try exact hp.elim
  case scanNext =>
    obtain ⟨-, prev, rest, hwalk, -⟩ := ht
    obtain ⟨u, hu⟩ := hwalk.split
    exact Behind.of_push hp (by rw [hu]; simp) hx
  case midNext =>
    obtain ⟨-, u, v, hu⟩ := ht
    exact Behind.of_push hp (by rw [hu]; simp) hx
  case midWrite =>
    obtain ⟨-, ⟨u, v, hu⟩, -⟩ := ht
    exact Behind.of_push hp (by rw [hu]; simp) hx
  all_goals exact Behind.of_push hp ht.2.1 hx

/-- The node behind a queued one is queued behind it. -/
theorem behind_next (h : Inv s g) (hp : p ∈ g.queue) (hnext : (s.mem.node p).next ≠ null) :
    Behind g.queue p (s.mem.node p).next := by
  obtain ⟨u, v, hq⟩ := List.append_of_mem hp
  have hhead : (s.mem.node p).next = v.headD null := (hq ▸ h.chain).next_eq
  cases v with
  | nil => exact absurd hhead hnext
  | cons x v =>
    rw [show (s.mem.node p).next = x from hhead]
    exact ⟨u, x :: v, hq, by simp⟩

/-- What a step accesses: a cell of a node its thread may access. -/
theorem access (h : Inv s g) {l : Loc} {w : Bool}
    (ha : .access l w ∈ actions life c s.mem.word (s.pc t)) :
    ∃ p f, l = .node p (life p) f ∧ Touches g (s.pc t) p := by
  have node : ∀ {p : Ptr} {f : Field} {w' : Bool}, .access l w ∈ accessCell life p f w' →
      Touches g (s.pc t) p → ∃ p f, l = .node p (life p) f ∧ Touches g (s.pc t) p :=
    fun ha hp => ⟨_, _, accessCell_eq ha, hp⟩
  have self : ∀ {p : Ptr}, p ∈ g.queue → Behind g.queue p p := by
    intro p hp
    obtain ⟨u, v, hq⟩ := List.append_of_mem hp
    exact ⟨u, v, hq, by simp⟩
  have ht := h.thread t
  cases hpc : s.pc t <;> rw [hpc] at ha ht node <;> simp only [actions] at ha
  case setToken | setTail | setPrev | setNext => exact node ha (.inl ⟨rfl, rfl⟩)
  case scanNext =>
    obtain ⟨-, prev, rest, hwalk, -⟩ := ht
    obtain ⟨u, hu⟩ := hwalk.split
    exact node ha (.inr (.inl (self (by rw [hu]; simp))))
  case headNext | readTail => exact node ha (.inr (.inl (self ht.2.1)))
  case writeTail counter p state newHead tail =>
    obtain ⟨-, hp, -, rfl, hnew⟩ := ht
    exact node ha (.inr (.inl (behind_next h hp (h.addr (.inl hnew)).ne_null)))
  case midNext =>
    obtain ⟨-, u, v, hu⟩ := ht
    exact node ha (.inr (.inl ⟨u, _, hu, by simp⟩))
  case midWrite =>
    obtain ⟨-, ⟨u, v, hu⟩, -⟩ := ht
    exact node ha (.inr (.inl ⟨u, _, hu, by simp⟩))
  case walkNext head =>
    exact node ha (.inr (.inr ⟨rfl, ht.2.reach_iff.mp (.here ht.1)⟩))
  case push =>
    rcases onCas_subset ha with ha | ha <;> simp at ha
  case abortLock | cut | recut =>
    rcases onCas_subset ha with ha | ha
    · exact absurd ha no_access_acquire
    · simp at ha
  case headCas =>
    rcases onCas_subset ha with ha | ha
    · exact absurd ha no_access_release
    · exact absurd ha no_access_acquire
  case midRelease | lost | clear => exact absurd ha no_access_release
  case park | unparkSelf | walkUnpark => simp at ha
  all_goals cases ha

/-- A node that a thread may access is in a frame. -/
theorem touched_frame (h : Inv s g) (hp : Touches g (s.pc t) p) : ∃ u, s.mem.frame p = some u := by
  have linked : g.Linked p → ∃ u, s.mem.frame p = some u := by
    intro hg
    obtain ⟨-, u, hu⟩ := h.linked p hg
    exact ⟨u, ((h.thread u).framed (ownNode_of_linkedNode hu)).frame⟩
  rcases hp with hp | hp | ⟨-, hp⟩
  · exact ⟨t, ((h.thread t).framed hp.1).frame⟩
  · exact linked (.inl (mem_of_reached hp))
  · exact linked (.inr hp)

end Accesses

/-! ## What a step does to the lists -/

section Effects

variable {τ : Type} {g g' : Ghost τ} {t : τ} {pc : Pc} {es : List (Event τ)} {p : Ptr}

/-- Where the nodes of the word's list come from. -/
theorem queue_of_effect (he : Effect t pc g g' es) (hp : p ∈ g'.queue) :
    p ∈ g.queue ∨ .pushed t p ∈ es := by
  cases he with
  | quiet _ hq => exact .inl (hq ▸ hp)
  | pushed _ _ hq =>
    rw [hq] at hp
    exact (List.mem_cons.mp hp).symm.imp_right fun e => by simp [e]
  | cut _ _ _ hq =>
    rw [hq] at hp
    cases hp
  | unparked _ _ hq => exact .inl (hq ▸ hp)
  | cleared _ _ _ hq => exact .inl (hq ▸ hp)
  | removed _ _ _ hq =>
    rw [hq] at hp
    exact .inl (List.mem_of_mem_erase hp)

/-- Without the queue lock, a step pushes onto the word's list or cuts it off as a whole. -/
theorem grown_of_effect (he : Effect t pc g g' es) (hq : holdsQueue pc = false) :
    g'.queue = g.queue ∨ g'.queue = [] ∨ ∃ p, .pushed t p ∈ es ∧ g'.queue = p :: g.queue := by
  cases he with
  | quiet _ hq => exact .inl hq
  | pushed _ _ hq => exact .inr (.inr ⟨_, List.mem_singleton_self _, hq⟩)
  | cut _ _ _ hq => exact .inr (.inl hq)
  | unparked _ _ hq => exact .inl hq
  | cleared _ _ _ hq => exact .inl hq
  | removed _ hlock =>
    rw [hq] at hlock
    cases hlock

/-- Where the nodes of the list that is being walked come from. -/
theorem cut_of_effect (he : Effect t pc g g' es) (hp : p ∈ g'.cut) :
    p ∈ g.cut ∧ g'.clearer = g.clearer ∨
      p ∈ g.queue ∧ g'.clearer = some t ∧ ∃ head, .cut t head ∈ es := by
  cases he with
  | quiet hclearer _ hc => exact .inl ⟨hc ▸ hp, hclearer⟩
  | pushed _ hclearer _ hc => exact .inl ⟨hc ▸ hp, hclearer⟩
  | cut _ hclearer _ _ hc => exact .inr ⟨hc ▸ hp, hclearer, _, List.mem_singleton_self _⟩
  | unparked _ hclearer _ hc => exact .inl ⟨by rw [hc]; exact List.mem_cons_of_mem _ hp, hclearer⟩
  | cleared _ _ hcut _ hc =>
    rw [hc, hcut] at hp
    cases hp
  | removed _ _ hclearer _ hc => exact .inl ⟨hc ▸ hp, hclearer⟩

end Effects

/-! ## Where roles come from -/

section Roles

variable {τ : Type} {m : Mem τ} {pc : Pc} {t u : τ} {c : Choice} {p : Ptr}
  {r : Mem τ × Pc × List (Event τ)}

/-- A call of `with_thread_data` is all that occupies an address. -/
theorem frame_origin (hr : threadStep t c m pc = some r) (hp : r.1.frame p = some u) :
    m.frame p = some u ∨ begins pc = true ∧ p = c.addr ∧ u = t := by
  have freed : ∀ {m' : Mem τ} {q : Ptr}, (m'.free q).frame p = some u → m'.frame p = some u := by
    intro m' q hp
    by_cases hpq : p = q
    · rw [hpq, Mem.free_frame_self] at hp
      cases hp
    · rwa [Mem.free_frame_of_ne hpq] at hp
  cases pc
  case withThreadData =>
    simp only [threadStep] at hr
    split at hr <;> cases hr
    by_cases hpa : p = c.addr
    · subst hpa
      rw [Mem.alloc_frame_self] at hp
      exact .inr ⟨rfl, rfl, (Option.some.inj hp).symm⟩
    · exact .inl ((Mem.alloc_frame_of_ne _ _ hpa).symm.trans hp)
  all_goals
    simp only [threadStep] at hr
    (repeat' split at hr) <;> cases hr <;> first | exact .inl hp | exact .inl (freed hp)

/-- An address becomes free when its own thread leaves. -/
theorem frame_end (hr : threadStep t c m pc = some r) (hp : r.1.frame p = none) :
    m.frame p = none ∨ ownNode pc = some p := by
  have freed : ∀ {m' : Mem τ} {q : Ptr}, (m'.free q).frame p = none → m'.frame = m.frame →
      m.frame p = none ∨ q = p := by
    intro m' q hp hm
    by_cases hpq : p = q
    · exact .inr hpq.symm
    · rw [Mem.free_frame_of_ne hpq, hm] at hp
      exact .inl hp
  cases pc
  case withThreadData =>
    simp only [threadStep] at hr
    split at hr <;> cases hr
    by_cases hpa : p = c.addr
    · subst hpa
      rw [Mem.alloc_frame_self] at hp
      cases hp
    · exact .inl ((Mem.alloc_frame_of_ne _ _ hpa).symm.trans hp)
  all_goals
    simp only [threadStep] at hr
    (repeat' split at hr) <;> cases hr <;>
      first | exact .inl hp | exact (freed hp rfl).imp_right fun e => congrArg some e

/-- The notification of a node is written by its own thread and by `unpark_all`. -/
theorem parker_origin (hr : threadStep t c m pc = some r) :
    (r.1.node p).parker = (m.node p).parker ∨ begins pc = true ∧ p = c.addr ∧ m.frame p = none ∨
      (∃ n, pc = .park n p) ∨ (∃ n, pc = .unparkSelf n p) ∨ ∃ q, pc = .walkUnpark p q := by
  cases pc
  case withThreadData =>
    simp only [threadStep] at hr
    split at hr <;> cases hr
    rename_i hc
    by_cases hpa : p = c.addr
    · exact .inr (.inl ⟨rfl, hpa, by rw [hpa]; simpa using hc.2⟩)
    · exact .inl (congrArg _ (Mem.alloc_node_of_ne _ _ hpa))
  case park n q =>
    simp only [threadStep] at hr
    split at hr <;> cases hr
    by_cases hpq : p = q
    · exact .inr (.inr (.inl ⟨n, by rw [hpq]⟩))
    · exact .inl (by simp only [Mem.free_node, Mem.modify_node_of_ne _ hpq])
  case unparkSelf n q =>
    cases hr
    by_cases hpq : p = q
    · exact .inr (.inr (.inr (.inl ⟨n, by rw [hpq]⟩)))
    · exact .inl (by simp only [Mem.free_node, Mem.modify_node_of_ne _ hpq])
  case walkUnpark q n =>
    cases hr
    by_cases hpq : p = q
    · exact .inr (.inr (.inr (.inr ⟨n, by rw [hpq]⟩)))
    · exact .inl (by simp only [Mem.modify_node_of_ne _ hpq])
  case setToken | setTail | setPrev | setNext | writeTail | midWrite =>
    cases hr
    dsimp only
    refine .inl (Mem.modify_keeps ThreadData.parker ?_ p)
    exact fun _ => rfl
  all_goals
    simp only [threadStep] at hr
    (repeat' split at hr) <;> cases hr <;> exact .inl rfl

/-- A thread leaves with a node that nobody notifies any more only if it did not push it, or
after `park`. -/
theorem leave_origin (hr : threadStep t c m pc = some r)
    (hok : abortInTime c.spurious m pc = true) (hown : ownNode pc = some p)
    (hframe : m.frame p = some t) (hfree : r.1.frame p = none)
    (hparker : (r.1.node p).parker = false) :
    Apart pc p ∨ (∃ n, pc = .park n p) ∧ (m.node p).parker = true := by
  cases pc <;> try cases hown
  case setToken | setTail | setPrev | setNext | push | midRelease => exact .inl ⟨rfl, rfl⟩
  case park n =>
    simp only [threadStep] at hr
    split at hr <;> cases hr
    exact .inr ⟨⟨n, rfl⟩, by assumption⟩
  case unparkSelf n =>
    cases hr
    simp at hparker
  case abortLoad n =>
    simp only [threadStep] at hr
    simp only [abortInTime] at hok
    split at hr <;> rename_i hgives <;> cases hr
    · -- it gives up with a notified node
      simp only [hgives, Mem.free_node] at hok hparker
      rw [hparker] at hok
      cases hok
    · exact absurd (hframe.symm.trans hfree) (by simp)
  case abortLock n state =>
    simp only [threadStep] at hr
    simp only [abortInTime] at hok
    split at hr <;> rename_i hcas <;> rw [hcas] at hok
    · cases hr
      exact absurd (hframe.symm.trans hfree) (by simp)
    · split at hr <;> rename_i hgives <;> cases hr
      · simp only [hgives, Mem.free_node] at hok hparker
        rw [hparker] at hok
        cases hok
      · exact absurd (hframe.symm.trans hfree) (by simp)
  all_goals
    simp only [threadStep] at hr
    (repeat' split at hr) <;> cases hr <;> exact absurd (hframe.symm.trans hfree) (by simp)

end Roles

section Lists

variable {τ : Type} [DecidableEq τ] {s : State τ} {g g' : Ghost τ} {t : τ} {c : Choice}
  {life : Ptr → ℕ} {p : Ptr} {r : Mem τ × Pc × List (Event τ)}

omit [DecidableEq τ] in
/-- A queue that begins at the same head, over the same pointers, is the same. -/
theorem queue_unchanged {s' : State τ} (h : Inv s g) (h' : Inv s' g')
    (hhead : queueHead s'.mem.word = queueHead s.mem.word)
    (hnext : nextOf s'.mem.node = nextOf s.mem.node) : g'.queue = g.queue := by
  have hchain := h'.chain
  rw [hhead, hnext] at hchain
  exact hchain.unique h.chain

omit [DecidableEq τ] in
/-- A node that has just been pushed has no notification. -/
theorem linked_origin (h : Inv s g) (hr : threadStep t c s.mem (s.pc t) = some r)
    (hp : linkedNode r.2.1 = some p) :
    linkedNode (s.pc t) = some p ∨ (r.1.node p).parker = false := by
  have ht := h.thread t
  cases hpc : s.pc t <;> rw [hpc] at hr ht
  case lost => exact ht.elim
  case push =>
    simp only [threadStep] at hr
    split at hr <;> cases hr
    · cases hp
      exact .inr ht.1.parker
    · cases hp
  case abortLoad =>
    simp only [threadStep] at hr
    split at hr <;> cases hr
    · cases hp
    · exact .inl hp
  case retryAgain =>
    cases hr
    dsimp only at hp
    split at hp <;> exact .inl hp
  case setPrev =>
    cases hr
    dsimp only at hp
    split at hp <;> cases hp
  case abortLock | scanNext | headCas =>
    simp only [threadStep, outer, visit] at hr
    (repeat' split at hr) <;> cases hr <;> first | exact .inl hp | cases hp
  case headNext =>
    cases hr
    dsimp only at hp
    split at hp <;> exact .inl hp
  all_goals
    simp only [threadStep, unparkAllLoop, afterCut, walk] at hr
    (repeat' split at hr) <;> cases hr <;> first | cases hp; done | exact .inl hp

variable (life) in
/-- The search goes on among the nodes it has reached, or begins with an acquire. -/
theorem reached_origin (h : Inv s g) (h' : Inv (s.moveTo t r.1 r.2.1) g')
    (hr : threadStep t c s.mem (s.pc t) = some r) (hp : Reached g'.queue r.2.1 p) :
    Reached g.queue (s.pc t) p ∨
      p ∈ g.queue ∧ actions life c s.mem.word (s.pc t) = acquireWord := by
  have ht := h.thread t
  cases hpc : s.pc t <;> rw [hpc] at hr ht
  case abortLock counter q state =>
    simp only [threadStep] at hr
    split at hr <;> rename_i hcas
    · cases hr
      obtain rfl := compareExchangeWeak_ok hcas
      rw [queue_unchanged h h' (queueHead_or_queueLockedBit _) rfl] at hp
      exact .inr ⟨mem_of_reached hp, by simp only [actions, onCas, hcas]⟩
    · split at hr <;> cases hr <;> exact hp.elim
  case scanNext counter q state curr =>
    cases hr
    rw [queue_unchanged h h' rfl rfl] at hp
    obtain ⟨-, prev, rest, hwalk, -⟩ := ht
    obtain ⟨u, hu⟩ := hwalk.split
    have hcurr : curr ∈ g.queue := by
      rw [hu]
      simp
    have hnd := (List.nodup_append.mp h.nodup).1
    refine .inl ?_
    simp only [visit] at hp
    split at hp
    · exact hp.elim
    · rename_i hnext
      have hbehind := behind_next h hcurr hnext
      split at hp
      · exact hbehind.trans hnd hp
      · rename_i hq
        split at hp
        · rw [← not_not.mp hq] at hbehind
          exact hbehind.trans hnd hp
        · exact hp
  case headNext =>
    cases hr
    rw [queue_unchanged h h' rfl rfl] at hp
    dsimp only at hp
    split at hp <;> exact .inl hp
  case readTail | midNext =>
    cases hr
    rw [queue_unchanged h h' rfl rfl] at hp
    exact .inl hp
  case writeTail counter q state newHead tail =>
    cases hr
    have hnext : nextOf (s.mem.modify newHead ({ · with queueTail := tail })).node =
        nextOf s.mem.node := by
      refine funext fun x => Mem.modify_keeps ThreadData.next ?_ x
      exact fun _ => rfl
    rw [queue_unchanged h h' rfl hnext] at hp
    exact .inl hp
  case headCas =>
    simp only [threadStep] at hr
    split at hr <;> rename_i hcas <;> cases hr
    · exact hp.elim
    · rw [queue_unchanged h h' rfl rfl] at hp
      exact .inr ⟨mem_of_reached hp, by simp only [actions, onCas, hcas]⟩
  case lost => exact ht.elim
  all_goals
    simp only [threadStep, unparkAllLoop, afterCut, walk] at hr
    (repeat' split at hr) <;> cases hr <;> exact hp.elim

/-- A thread has a node apart from the lists when `with_thread_data` begins, and when its
search has taken the node out. -/
theorem apart_origin (h : Inv s g) (h' : Inv (s.moveTo t r.1 r.2.1) g')
    (hr : threadStep t c s.mem (s.pc t) = some r) (hp : Apart r.2.1 p) :
    Apart (s.pc t) p ∨ (begins (s.pc t) = true ∧ p = c.addr ∧ s.mem.frame p = none) ∨
      Reached g.queue (s.pc t) p := by
  have ht := h.thread t
  have ht' := h'.thread t
  rw [Threads.moveTo_pc_self] at ht'
  -- the search never comes to the end of the list
  have notVisit : ∀ {counter : ℕ} {q : Ptr} {state : U64} {prev curr : Ptr},
      r.2.1 = visit counter q state prev curr → False := by
    intro counter q state prev curr he
    rw [he] at hp ht'
    rcases visit_linked counter q state prev curr with hlost | ⟨hlinked, -⟩
    · rw [hlost] at ht'
      exact ht'.elim
    · rw [hp.2] at hlinked
      cases hlinked
  cases hpc : s.pc t <;> rw [hpc] at hr ht
  case withThreadData =>
    simp only [threadStep] at hr
    split at hr <;> cases hr
    rename_i hc
    obtain rfl := Option.some.inj hp.1
    exact .inr (.inl ⟨rfl, rfl, by simpa using hc.2⟩)
  case setPrev =>
    cases hr
    obtain ⟨hp, -⟩ := hp
    dsimp only at hp
    split at hp <;> exact .inl ⟨hp, rfl⟩
  case setToken | setTail | setNext | midRelease =>
    cases hr
    exact .inl ⟨hp.1, rfl⟩
  case scanNext =>
    cases hr
    exact (notVisit rfl).elim
  case abortLock =>
    simp only [threadStep] at hr
    split at hr
    · cases hr
      exact (notVisit rfl).elim
    · split at hr <;> cases hr <;> simp [Apart, ownNode, linkedNode] at hp
  case headCas =>
    simp only [threadStep] at hr
    split at hr <;> cases hr
    · obtain rfl := Option.some.inj hp.1
      obtain ⟨u, v, hu⟩ := List.append_of_mem ht.2.1
      exact .inr (.inr ⟨u, v, hu, by simp⟩)
    · exact (notVisit rfl).elim
  case midWrite =>
    cases hr
    obtain rfl := Option.some.inj hp.1
    obtain ⟨-, ⟨u, v, hu⟩, -⟩ := ht
    exact .inr (.inr ⟨u, _, hu, by simp⟩)
  case lost => exact ht.elim
  all_goals
    simp only [threadStep, unparkAllLoop, afterCut, walk] at hr
    (repeat' split at hr) <;> cases hr <;> simp_all [Apart, ownNode, linkedNode]

variable (life) in
/-- `QUEUE_LOCKED_BIT` is only given back by a release. -/
theorem release_origin (h' : Inv (s.moveTo t r.1 r.2.1) g')
    (hr : threadStep t c s.mem (s.pc t) = some r) (hhold : holdsQueue (s.pc t) = true) :
    holdsQueue r.2.1 = true ∨ actions life c s.mem.word (s.pc t) = releaseWord := by
  have ht' := h'.thread t
  rw [Threads.moveTo_pc_self] at ht'
  have holdsVisit : ∀ {counter : ℕ} {q : Ptr} {state : U64} {prev curr : Ptr},
      r.2.1 = visit counter q state prev curr → holdsQueue r.2.1 = true := by
    intro counter q state prev curr he
    rw [he] at ht' ⊢
    rcases visit_linked counter q state prev curr with hlost | ⟨-, hhold⟩
    · rw [hlost] at ht'
      exact ht'.elim
    · exact hhold
  cases hpc : s.pc t <;> rw [hpc] at hr hhold <;> try cases hhold
  case midRelease => exact .inr rfl
  case scanNext =>
    cases hr
    exact .inl (holdsVisit rfl)
  case headCas =>
    simp only [threadStep] at hr
    split at hr <;> rename_i hcas <;> cases hr
    · exact .inr (by simp only [actions, onCas, hcas])
    · exact .inl (holdsVisit rfl)
  case headNext =>
    cases hr
    refine .inl ?_
    dsimp only
    split <;> rfl
  all_goals
    cases hr
    exact .inl rfl

variable (life) in
omit [DecidableEq τ] in
/-- A node is pushed by the thread that has it, in an atomic step that releases. -/
theorem pushed_origin (hr : threadStep t c s.mem (s.pc t) = some r) (he : .pushed t p ∈ r.2.2) :
    Apart (s.pc t) p ∧ actions life c s.mem.word (s.pc t) = [.sync .word true true] := by
  cases hpc : s.pc t <;> rw [hpc] at hr
  case push =>
    simp only [threadStep] at hr
    split at hr <;> cases hr <;> rename_i hcas
    · simp only [List.mem_singleton, Event.pushed.injEq] at he
      exact ⟨⟨by rw [he.2]; rfl, rfl⟩, by simp only [actions, onCas, hcas]⟩
    · simp at he
  all_goals
    simp only [threadStep] at hr
    (repeat' split at hr) <;> cases hr <;> simp at he

variable (life) in
omit [DecidableEq τ] in
/-- A list is cut off by an acquire. -/
theorem cut_origin {head : Ptr} (hr : threadStep t c s.mem (s.pc t) = some r)
    (he : .cut t head ∈ r.2.2) :
    holdsQueue (s.pc t) = false ∧ actions life c s.mem.word (s.pc t) = acquireWord := by
  cases hpc : s.pc t <;> rw [hpc] at hr
  case cut | recut =>
    simp only [threadStep] at hr
    split at hr <;> cases hr <;> rename_i hcas
    · exact ⟨rfl, by simp only [actions, onCas, hcas]⟩
    · simp at he
  all_goals
    simp only [threadStep] at hr
    (repeat' split at hr) <;> cases hr <;> simp at he

end Lists

end Mekong.Analysis.QueueMemoryOrder
