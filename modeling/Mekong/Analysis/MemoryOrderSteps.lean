import Mekong.Analysis.NodeObjects
import Mekong.Analysis.RawMutexRuns

/-!
# What a step of the mutex accesses, and which roles it gives its thread

A thread accesses the node it has for its own, the queued nodes its walk has reached, and
the node it has to wake; the cells behind the lock only as the owner. The lemmas here say
so for every place, and say where the roles a thread has after a step come from.
-/

set_option autoImplicit false

namespace Mekong.Analysis.RawMutex

open Mekong.Computation Mekong.Computation.HappensBefore Mekong.Computation.NextChain Mekong.Model
  Mekong.Program.RawMutex Mekong.Analysis.MemoryOrder
open Mekong.Program.MemoryOrder (Loc Obj Field actions accessCell onCas acquireWord releaseWord
  isTimeoutActions begins)

section Behind

variable {q : List Ptr} {a c p : Ptr} {tail prev : Ptr → Ptr}

/-- A walk has passed unmarked nodes only. -/
theorem behind_of_scanning (h : LazyQueue.Scanning null tail prev q a c) : Behind q a c := by
  obtain ⟨u, s, r, rfl, -, hhead, -⟩ := h
  cases s with
  | nil =>
    simp only [List.nil_append, List.head?_cons, Option.some.injEq] at hhead
    exact ⟨u, r, by simp [hhead], by simp [hhead]⟩
  | cons x s =>
    simp only [List.cons_append, List.head?_cons, Option.some.injEq] at hhead
    exact ⟨u, s ++ c :: r, by simp [hhead], by simp⟩

/-- A walk that has ended has passed unmarked nodes only. -/
theorem behind_of_scanned (h : LazyQueue.Scanned null tail prev q a c) :
    Behind q a a ∧ Behind q a c := by
  obtain ⟨u, w, rfl, -, -, -, hlast⟩ := h
  exact ⟨⟨u, w, rfl, by simp⟩, u, w, rfl, List.mem_of_getLast? hlast⟩

end Behind

/-! ## The nodes a place may access -/

/-- The queued nodes the holder of the queue lock has reached: those from the head it read
on, and the last one when it is about to leave with it. -/
def Reached (q : List Ptr) : Pc → Ptr → Prop
  | .scanTail _ state _ | .scanNext _ state _ | .scanPrev _ state _ _ | .markHead _ state _
  | .readPrev _ state _ | .removeLast _ state _ | .setNewTail _ state _ _ =>
      Behind q (queueHead state)
  | .unlockQueue _ queueTail => fun p => p = queueTail
  | _ => fun _ => False

/-- A node pushed in front of the queue is not reached. -/
theorem reached_of_push {node : Ptr → ThreadData} {q : List Ptr} {pc : Pc} {p x : Ptr}
    (hw : WalkInv node q pc) (hx : x ∉ q) (hp : Reached (x :: q) pc p) : Reached q pc p := by
  cases pc with
  | scanTail => exact Behind.of_push hp (behind_of_scanning hw).head_mem hx
  | scanNext | scanPrev => exact Behind.of_push hp (behind_of_scanning hw.1).head_mem hx
  | markHead => exact Behind.of_push hp (behind_of_scanned hw).1.mem hx
  | readPrev => exact Behind.of_push hp (behind_of_scanned hw.1).1.mem hx
  | removeLast | setNewTail => exact Behind.of_push hp (behind_of_scanned hw.1.1).1.mem hx
  | unlockQueue => exact hp
  | _ => exact hp.elim

/-- A node put behind the queue leaves what is reached. -/
theorem Reached.append {q : List Ptr} {pc : Pc} {p : Ptr} (x : List Ptr) (hp : Reached q pc p) :
    Reached (q ++ x) pc p := by
  cases pc with
  | unlockQueue => exact hp
  | scanTail | scanNext | scanPrev | markHead | readPrev | removeLast | setNewTail =>
    obtain ⟨u, v, rfl, hp⟩ := hp
    exact ⟨u, v ++ x, by simp, List.mem_append_left x hp⟩
  | _ => exact hp.elim

/-- The nodes a thread at this place may access. -/
def Touches (q : List Ptr) (pc : Pc) (p : Ptr) : Prop :=
  ownNode pc = some p ∨ Reached q pc p ∨ ∃ mode, wakes pc = some (mode, p)

/-- The cells that only the owner of the lock accesses. -/
def Guarded : Loc → Prop
  | .node .. => False
  | .timeout | .seed | .data => True

/-- A thread whose walk has reached nodes has the queue lock. -/
theorem holdsQueue_of_reached {q : List Ptr} {pc : Pc} {p : Ptr} (h : Reached q pc p) :
    holdsQueue pc = true := by
  cases pc <;> first | rfl | exact h.elim

section Accesses

variable {τ : Type} {s : State τ} {g : Ghost τ} {t : τ} {c : Choice} {life : Ptr → ℕ}
  {p : Ptr}

/-- A walk reaches queued nodes only. -/
theorem Inv.reached_mem (h : Inv s g) (hp : Reached g.queue (s.pc t) p) : p ∈ g.queue := by
  have hw := h.walk t
  cases hpc : s.pc t <;> rw [hpc] at hp hw <;> first | exact hp.elim | exact hp.mem | skip
  obtain ⟨q', hq, -⟩ := hw
  rw [hq, show p = _ from hp]
  simp

/-- What a step accesses: a cell of a node its thread may access, or a cell behind the lock
that its thread owns. -/
theorem Inv.access (h : Inv s g) {l : Loc} {w : Bool}
    (ha : .access l w ∈ actions life c s.mem.word (s.pc t)) :
    (∃ p f, l = .node p (life p) f ∧ Touches g.queue (s.pc t) p) ∨
      Guarded l ∧ ownsLock (s.pc t) = true := by
  have node : ∀ {p : Ptr} {f : Field} {w' : Bool}, .access l w ∈ accessCell life p f w' →
      Touches g.queue (s.pc t) p →
      (∃ p f, l = .node p (life p) f ∧ Touches g.queue (s.pc t) p) ∨
        Guarded l ∧ ownsLock (s.pc t) = true :=
    fun ha hp => .inl ⟨_, _, accessCell_eq ha, hp⟩
  have hw := h.walk t
  cases hpc : s.pc t <;> rw [hpc] at ha hw node <;> simp only [actions] at ha
  case setToken | setTail | setPrev | setNext | readToken => exact node ha (.inl rfl)
  case setHandoff => exact node ha (.inr (.inr ⟨_, rfl⟩))
  case scanTail => exact node ha (.inr (.inl (behind_of_scanning hw)))
  case scanNext => exact node ha (.inr (.inl (behind_of_scanning hw.1)))
  case scanPrev mode state current next =>
    obtain ⟨hscan, htail, rfl⟩ := hw
    obtain ⟨u, rest, hq⟩ := h.next hscan htail
    exact node ha (.inr (.inl ((behind_of_scanning hscan).advance h.nodup hq)))
  case markHead => exact node ha (.inr (.inl (behind_of_scanned hw).1))
  case readPrev => exact node ha (.inr (.inl (behind_of_scanned hw.1).2))
  case setNewTail => exact node ha (.inr (.inl (behind_of_scanned hw.1.1).1))
  case unlockFair =>
    refine .inr ⟨?_, rfl⟩
    unfold isTimeoutActions at ha
    split at ha <;> simp only [List.mem_cons, Action.access.injEq, List.not_mem_nil, or_false] at ha
    · rcases ha with ⟨rfl, -⟩ | ⟨rfl, -⟩ | ⟨rfl, -⟩ | ⟨rfl, -⟩ <;> trivial
    · rw [ha.1]
      trivial
  case removeLast =>
    rcases onCas_subset ha with ha | ha
    · exact absurd ha no_access_release
    · split at ha
      · simp at ha
      · exact absurd ha no_access_acquire
  case giveUp =>
    rcases onCas_subset ha with ha | ha
    · exact absurd ha no_access_release
    · exact absurd ha no_access_acquire
  case tryLock | isLocked | lock | grab | slowLock | fairLock =>
    rcases onCas_subset ha with ha | ha
    · exact absurd ha no_access_acquire
    · simp at ha
  case push =>
    rcases onCas_subset ha with ha | ha <;> simp at ha
  case unlock | markTimeout | clearBits | fairRelease | unlockQueue => exact absurd ha no_access_release
  case slowLoad => exact absurd ha no_access_acquire
  case park | unpark => simp at ha
  all_goals cases ha

omit τ s g t in
/-- A parker is used by the thread that parks on it and by the one that unparks it. -/
theorem parker_of_actions {word : U64} {pc : Pc} {n : ℕ} {acq rel : Bool}
    (ha : .sync (.parker p n) acq rel ∈ actions life c word pc) :
    n = life p ∧ (pc = .park p ∨ ∃ mode, pc = .unpark mode p) := by
  have noCas : ∀ {expected : U64} {ok err : List (Action Obj Loc)},
      .sync (.parker p n) acq rel ∈ onCas c.spurious word expected ok err →
      .sync (.parker p n) acq rel ∉ ok → .sync (.parker p n) acq rel ∉ err → False :=
    fun ha hok herr => (onCas_subset ha).elim hok herr
  cases pc <;> simp only [actions] at ha
  case park q =>
    simp only [List.mem_singleton, Action.sync.injEq, Obj.parker.injEq] at ha
    obtain ⟨⟨rfl, rfl⟩, -⟩ := ha
    exact ⟨rfl, .inl rfl⟩
  case unpark mode q =>
    simp only [List.mem_singleton, Action.sync.injEq, Obj.parker.injEq] at ha
    obtain ⟨⟨rfl, rfl⟩, -⟩ := ha
    exact ⟨rfl, .inr ⟨mode, rfl⟩⟩
  case tryLock | isLocked | lock | grab | push | slowLock | fairLock | giveUp =>
    exact (noCas ha (by simp [acquireWord, releaseWord]) (by simp [acquireWord])).elim
  case removeLast =>
    refine (noCas ha (by simp [releaseWord]) ?_).elim
    split <;> simp [acquireWord]
  case unlockFair =>
    unfold isTimeoutActions at ha
    split at ha <;> simp at ha
  all_goals simp [accessCell, acquireWord, releaseWord] at ha

/-- A node that a thread may access is in a frame and stands at a node's address. -/
theorem Inv.touched_frame (h : Inv s g) (hp : Touches g.queue (s.pc t) p) :
    ∃ u, s.mem.frame p = some u ∧ IsNodeAddr p := by
  rcases hp with hp | hp | ⟨mode, hp⟩
  · have hin := (h.node t).inside hp
    exact ⟨t, hin.frame, hin.addr⟩
  · obtain ⟨u, -, hframe, haddr⟩ := h.parked (h.reached_mem hp)
    exact ⟨u, hframe, haddr⟩
  · obtain ⟨-, u, -, hu⟩ := h.removed_parked hp
    have hn := h.node u
    rw [hu] at hn
    exact ⟨u, hn.1, hn.2.1⟩

end Accesses

/-! ## Where roles come from -/

section Roles

variable {τ : Type} {m : Mem τ} {pc : Pc} {t u : τ} {c : Choice} {p : Ptr} {mode : Mode}
  {r : Mem τ × Pc × List (Event τ)}

/-- A node becomes a thread's own when `with_thread_data` begins, and when `park` returns. -/
theorem own_of_step (hr : threadStep t c m pc = some r) (hp : ownNode r.2.1 = some p) :
    ownNode pc = some p ∨ (begins pc = true ∧ p = c.addr ∧ m.frame p = none) ∨
      pc = .park p ∧ (m.node p).parker = true := by
  cases pc
  case withThreadData =>
    simp only [threadStep] at hr
    split at hr <;> cases hr
    rename_i hc
    obtain rfl := Option.some.inj hp
    exact .inr (.inl ⟨rfl, rfl, by simpa using hc.2.1⟩)
  case park q =>
    simp only [threadStep] at hr
    split at hr <;> cases hr
    obtain rfl := Option.some.inj hp
    exact .inr (.inr ⟨rfl, by assumption⟩)
  case setToken | setTail | setNext =>
    cases hr
    exact .inl hp
  case setPrev =>
    cases hr
    split at hp <;> exact .inl hp
  all_goals
    simp only [threadStep, lockSlow, unlockSlow, unlockSlowFair, outer, afterMark, retryRemove,
      wake] at hr
    (repeat' split at hr) <;> cases hr <;> simp_all [ownNode]

/-- A call of `with_thread_data` is all that occupies an address. -/
theorem frame_of_step (hr : threadStep t c m pc = some r) (hp : r.1.frame p = some u) :
    m.frame p = some u ∨ begins pc = true ∧ p = c.addr ∧ u = t := by
  cases pc
  case withThreadData =>
    simp only [threadStep] at hr
    split at hr <;> cases hr
    by_cases hpa : p = c.addr
    · subst hpa
      rw [Mem.alloc_frame_self] at hp
      exact .inr ⟨rfl, rfl, (Option.some.inj hp).symm⟩
    · exact .inl ((Mem.alloc_frame_of_ne _ _ hpa).symm.trans hp)
  case push counter state q =>
    simp only [threadStep] at hr
    split at hr <;> cases hr
    · exact .inl hp
    · by_cases hpq : p = q
      · simp [hpq] at hp
      · exact .inl ((Mem.free_frame_of_ne hpq).symm.trans hp)
  case readToken q =>
    have hpq : p ≠ q := by
      rintro rfl
      simp only [threadStep] at hr
      split at hr <;> cases hr <;> simp at hp
    simp only [threadStep] at hr
    split at hr <;> cases hr <;> exact .inl ((Mem.free_frame_of_ne hpq).symm.trans hp)
  all_goals
    simp only [threadStep] at hr
    (repeat' split at hr) <;> cases hr <;> exact .inl hp

/-- An address is given up by the thread whose own node stood there. -/
theorem free_of_step (hr : threadStep t c m pc = some r) (hp : r.1.frame p = none) :
    m.frame p = none ∨ ownNode pc = some p := by
  cases pc
  case withThreadData =>
    simp only [threadStep] at hr
    split at hr <;> cases hr
    by_cases hpa : p = c.addr
    · simp [hpa] at hp
    · exact .inl ((Mem.alloc_frame_of_ne _ _ hpa).symm.trans hp)
  case push counter state q =>
    by_cases hpq : p = q
    · exact .inr (by rw [hpq]; rfl)
    · simp only [threadStep] at hr
      split at hr <;> cases hr
      · exact .inl hp
      · exact .inl ((Mem.free_frame_of_ne hpq).symm.trans hp)
  case readToken q =>
    by_cases hpq : p = q
    · exact .inr (by rw [hpq]; rfl)
    · simp only [threadStep] at hr
      split at hr <;> cases hr <;> exact .inl ((Mem.free_frame_of_ne hpq).symm.trans hp)
  all_goals
    simp only [threadStep] at hr
    (repeat' split at hr) <;> cases hr <;> exact .inl hp

/-- The queue lock is only given back by a release. -/
theorem release_of_step (life : Ptr → ℕ) (hr : threadStep t c m pc = some r)
    (hhold : holdsQueue pc = true) :
    holdsQueue r.2.1 = true ∨ actions life c m.word pc = releaseWord := by
  cases pc <;> try cases hhold
  case fairRelease | unlockQueue => exact .inr rfl
  case scanTail =>
    simp only [threadStep] at hr
    split at hr <;> cases hr <;> exact .inl rfl
  case markHead =>
    cases hr
    refine .inl ?_
    simp only [afterMark]
    split <;> rfl
  case giveUp =>
    simp only [threadStep] at hr
    split at hr <;> cases hr <;> rename_i hcas
    · exact .inr (by simp only [actions, onCas, hcas])
    · exact .inl rfl
  case readPrev =>
    simp only [threadStep] at hr
    split at hr <;> cases hr <;> exact .inl rfl
  case removeLast =>
    simp only [threadStep] at hr
    split at hr <;> cases hr <;> rename_i hcas
    · exact .inr (by simp only [actions, onCas, hcas])
    · refine .inl ?_
      simp only [retryRemove]
      split <;> rfl
  all_goals
    cases hr
    exact .inl rfl

/-- A parker is notified by `unpark` alone. -/
theorem parker_of_step (hr : threadStep t c m pc = some r) (hp : (r.1.node p).parker = true) :
    (m.node p).parker = true ∨ ∃ mode, pc = .unpark mode p := by
  have modify : ∀ {q : Ptr} {f : ThreadData → ThreadData},
      ((m.modify q f).node p).parker = true → (∀ d, (f d).parker = d.parker) →
      (m.node p).parker = true := by
    intro q f hp hf
    rwa [Mem.modify_keeps ThreadData.parker hf] at hp
  cases pc
  case withThreadData =>
    simp only [threadStep] at hr
    split at hr <;> cases hr
    rename_i hc
    by_cases hpa : p = c.addr
    · simp only [hpa, Mem.alloc_node_self, hc.2.2, Bool.false_eq_true] at hp
    · simp only [Mem.alloc_node_of_ne _ _ hpa] at hp
      exact .inl hp
  case setToken | setTail | setPrev | setNext | scanPrev | markHead | setNewTail | setHandoff =>
    cases hr
    dsimp only at hp
    exact .inl (modify hp fun _ => rfl)
  case park q =>
    simp only [threadStep] at hr
    split at hr <;> cases hr
    by_cases hpq : p = q
    · simp only [hpq, Mem.modify_node_self, Bool.false_eq_true] at hp
    · simp only [Mem.modify_node_of_ne _ hpq] at hp
      exact .inl hp
  case unpark mode q =>
    cases hr
    by_cases hpq : p = q
    · exact .inr ⟨mode, by rw [hpq]⟩
    · simp only [Mem.modify_node_of_ne _ hpq] at hp
      exact .inl hp
  all_goals
    simp only [threadStep] at hr
    (repeat' split at hr) <;> cases hr <;> exact .inl hp

/-- A token is written by the thread whose own the node is, and at a hand-off. -/
theorem token_of_step (hr : threadStep t c m pc = some r) :
    (r.1.node p).unparkToken = (m.node p).unparkToken ∨ ownNode pc = some p ∨
      pc = .setHandoff p ∨ begins pc = true ∧ p = c.addr ∧ m.frame p = none := by
  cases pc
  case withThreadData =>
    simp only [threadStep] at hr
    split at hr <;> cases hr
    rename_i hc
    by_cases hpa : p = c.addr
    · exact .inr (.inr (.inr ⟨rfl, hpa, by rw [hpa]; simpa using hc.2.1⟩))
    · exact .inl (congrArg _ (Mem.alloc_node_of_ne _ _ hpa))
  case setToken counter state q =>
    cases hr
    dsimp only
    by_cases hpq : p = q
    · exact .inr (.inl (by rw [hpq]; rfl))
    · exact .inl (congrArg _ (Mem.modify_node_of_ne _ hpq))
  case setHandoff q =>
    cases hr
    dsimp only
    by_cases hpq : p = q
    · exact .inr (.inr (.inl (by rw [hpq])))
    · exact .inl (congrArg _ (Mem.modify_node_of_ne _ hpq))
  case setTail | setPrev | setNext | scanPrev | markHead | setNewTail | unpark =>
    cases hr
    dsimp only
    refine .inl (Mem.modify_keeps ThreadData.unparkToken ?_ p)
    exact fun _ => rfl
  case park =>
    simp only [threadStep] at hr
    split at hr <;> cases hr
    dsimp only
    refine .inl (Mem.modify_keeps ThreadData.unparkToken ?_ p)
    exact fun _ => rfl
  all_goals
    simp only [threadStep] at hr
    (repeat' split at hr) <;> cases hr <;> exact .inl rfl

/-- `park` is entered with the thread's own node, which the step does not write. -/
theorem park_of_step (hr : threadStep t c m pc = some r) (hp : r.2.1 = .park p) :
    ownNode pc = some p ∧ r.1.node = m.node := by
  cases pc
  case push =>
    simp only [threadStep] at hr
    split at hr <;> cases hr
    · cases hp
      exact ⟨rfl, rfl⟩
    · simp only [lockSlow] at hp
      split at hp
      · cases hp
      · split at hp <;> cases hp
  all_goals
    simp only [threadStep, lockSlow, unlockSlow, unlockSlowFair, outer, afterMark, retryRemove,
      wake] at hr
    (repeat' split at hr) <;> cases hr <;> simp_all

/-- The token is read after `park` returned. -/
theorem readToken_of_step (hr : threadStep t c m pc = some r) (hp : r.2.1 = .readToken p) :
    pc = .park p ∧ (m.node p).parker = true := by
  cases pc
  case park =>
    simp only [threadStep] at hr
    split at hr <;> cases hr
    cases hp
    exact ⟨rfl, by assumption⟩
  all_goals
    simp only [threadStep, lockSlow, unlockSlow, unlockSlowFair, outer, afterMark, retryRemove,
      wake] at hr
    (repeat' split at hr) <;> cases hr <;> simp_all

end Roles

section Walks

variable {τ : Type} [DecidableEq τ] {s : State τ} {g g' : Ghost τ} {t : τ} {c : Choice}
  {life : Ptr → ℕ} {p : Ptr} {mode : Mode} {r : Mem τ × Pc × List (Event τ)}

omit [DecidableEq τ] in
/-- A step without events leaves the queue as it was. -/
theorem Effect.queue_of_nil {w : U64} {es : List (Event τ)} (he : Effect g t w es g')
    (hes : es = []) : g'.queue = g.queue := by
  cases he with
  | quiet _ hq => exact hq
  | pushed => cases hes
  | removed => cases hes
  | unparked => rename_i mode _ _; cases mode <;> cases hes

omit [DecidableEq τ] in
/-- What a step does to the queue. -/
theorem Effect.queue_cases {w : U64} {es : List (Event τ)} (he : Effect g t w es g') :
    g'.queue = g.queue ∨
      (∃ p, es = [.pushed t p] ∧ g.status p = .inside ∧ g'.queue = p :: g.queue) ∨
      ∃ p, g.queue = g'.queue ++ [p] := by
  cases he with
  | quiet _ hq => exact .inl hq
  | pushed hp => exact .inr (.inl ⟨_, rfl, hp, rfl⟩)
  | removed hq => exact .inr (.inr ⟨_, hq⟩)
  | unparked => exact .inl rfl

omit [DecidableEq τ] in
/-- A walk goes on among the nodes it has reached, or begins with an acquire. -/
theorem reached_of_step (h : Inv s g) (hr : threadStep t c s.mem (s.pc t) = some r)
    (he : Effect g t r.1.word r.2.2 g') (hp : Reached g'.queue r.2.1 p) :
    Reached g.queue (s.pc t) p ∨
      p ∈ g.queue ∧ actions life c s.mem.word (s.pc t) = acquireWord := by
  have hw := h.walk t
  cases hpc : s.pc t <;> rw [hpc] at hr hw
  case slowLock =>
    simp only [threadStep] at hr
    split at hr <;> cases hr <;> rename_i hcas
    · rw [he.queue_of_nil rfl] at hp
      exact .inr ⟨Behind.mem hp, by simp only [actions, onCas, hcas]⟩
    · simp only [unlockSlow] at hp
      split at hp <;> exact hp.elim
  case fairLock =>
    simp only [threadStep] at hr
    split at hr <;> cases hr <;> rename_i hcas
    · rw [he.queue_of_nil rfl] at hp
      dsimp only at hp
      split at hp
      · exact hp.elim
      · exact .inr ⟨Behind.mem hp, by simp only [actions, onCas, hcas]⟩
    · simp only [unlockSlowFair] at hp
      split at hp <;> exact hp.elim
  case scanTail | readPrev =>
    simp only [threadStep] at hr
    split at hr <;> cases hr <;> rw [he.queue_of_nil rfl] at hp
    · exact .inl hp
    · exact .inl hp
  case scanNext | scanPrev =>
    simp only [threadStep] at hr
    cases hr
    rw [he.queue_of_nil rfl] at hp
    exact .inl hp
  case markHead =>
    simp only [threadStep] at hr
    cases hr
    rw [he.queue_of_nil rfl] at hp
    simp only [afterMark] at hp
    split at hp
    · exact hp.elim
    · exact .inl hp
  case giveUp =>
    simp only [threadStep] at hr
    split at hr <;> cases hr <;> rename_i hcas
    · exact hp.elim
    · rw [he.queue_of_nil rfl] at hp
      exact .inr ⟨Behind.mem hp, by simp only [actions, onCas, hcas]⟩
  case removeLast mode state queueTail =>
    simp only [threadStep] at hr
    split at hr <;> cases hr <;> rename_i hcas
    · cases mode <;> exact hp.elim
    · rw [he.queue_of_nil rfl] at hp
      obtain rfl := compareExchangeWeak_err hcas
      simp only [retryRemove] at hp
      split at hp <;> rename_i hhead
      · -- the word's pointer is not null: the last node is still queued
        have hmem := (behind_of_scanned hw.1.1).1.mem
        exact absurd (h.head_null_iff.mp hhead) (List.ne_nil_of_mem hmem)
      · refine .inr ⟨Behind.mem hp, ?_⟩
        simp only [actions, onCas, hcas, if_neg hhead]
  case setNewTail =>
    simp only [threadStep] at hr
    cases hr
    refine .inl ?_
    rw [show p = _ from hp]
    exact (behind_of_scanned hw.1.1).2
  all_goals
    simp only [threadStep, lockSlow, unlockSlow, unlockSlowFair, wake] at hr
    (repeat' split at hr) <;> cases hr <;> exact hp.elim

omit [DecidableEq τ] in
/-- The node a thread has to wake is the last one its walk reached, and a fair unlocker
still owned the lock when it took it. -/
theorem wakes_of_step (h : Inv s g) (hr : threadStep t c s.mem (s.pc t) = some r)
    (hp : wakes r.2.1 = some (mode, p)) :
    wakes (s.pc t) = some (mode, p) ∨
      Reached g.queue (s.pc t) p ∧ (mode = .fair → ownsLock (s.pc t) = true) := by
  have hw := h.walk t
  cases hpc : s.pc t <;> rw [hpc] at hr hw
  case removeLast mode' state queueTail =>
    simp only [threadStep] at hr
    have hreached := (behind_of_scanned hw.1.1).2
    split at hr <;> cases hr
    · cases mode' <;> obtain ⟨rfl, rfl⟩ := Prod.mk.inj (Option.some.inj hp)
      · exact .inr ⟨hreached, fun e => by cases e⟩
      · exact .inr ⟨hreached, fun _ => rfl⟩
    · simp only [retryRemove] at hp
      split at hp <;> cases hp
  case unlockQueue mode' queueTail =>
    simp only [threadStep] at hr
    cases hr
    cases mode' <;> obtain ⟨rfl, rfl⟩ := Prod.mk.inj (Option.some.inj hp)
    · exact .inr ⟨rfl, fun e => by cases e⟩
    · exact .inr ⟨rfl, fun _ => rfl⟩
  case setHandoff =>
    simp only [threadStep] at hr
    cases hr
    exact .inl hp
  all_goals
    simp only [threadStep, lockSlow, unlockSlow, unlockSlowFair, outer, afterMark] at hr
    (repeat' split at hr) <;> cases hr <;> simp_all [wakes]

omit [DecidableEq τ] in
/-- A thread gets the lock by an acquire of the free word, or reads that it was handed
over. -/
theorem ownsLock_of_step (life : Ptr → ℕ) (h : Inv s g)
    (hr : threadStep t c s.mem (s.pc t) = some r) (ho : ownsLock r.2.1 = true) :
    ownsLock (s.pc t) = true ∨
      (isLocked s.mem.word = false ∧ actions life c s.mem.word (s.pc t) = acquireWord) ∨
      ∃ p, s.pc t = .readToken p ∧ (s.mem.node p).unparkToken = tokenHandoff := by
  have hst := h.state t
  cases hpc : s.pc t <;> rw [hpc] at hr hst
  case tryLock | isLocked | lock =>
    simp only [threadStep] at hr
    split at hr <;> cases hr <;> rename_i hcas
    · refine .inr (.inl ⟨?_, by simp only [actions, onCas, hcas]⟩)
      rw [compareExchangeWeak_ok hcas, isLocked_idle]
    · cases ho
  case grab =>
    simp only [threadStep] at hr
    split at hr <;> cases hr <;> rename_i hcas
    · refine .inr (.inl ⟨?_, by simp only [actions, onCas, hcas]⟩)
      rw [compareExchangeWeak_ok hcas]
      exact hst
    · simp only [lockSlow] at ho
      (repeat' split at ho) <;> cases ho
  case readToken p =>
    simp only [threadStep] at hr
    split at hr <;> cases hr
    · exact .inr (.inr ⟨p, rfl, by assumption⟩)
    · cases ho
  case held | unlockFair | markTimeout | fairLoad | fairLock => exact .inl rfl
  case scanTail mode _ _ =>
    simp only [threadStep] at hr
    split at hr <;> cases hr <;> exact .inl ho
  case scanNext | scanPrev | setNewTail =>
    simp only [threadStep] at hr
    cases hr
    exact .inl ho
  case markHead =>
    simp only [threadStep] at hr
    cases hr
    simp only [afterMark] at ho
    split at ho
    · cases ho
    · exact .inl ho
  case giveUp =>
    simp only [threadStep] at hr
    split at hr <;> cases hr <;> cases ho
  case readPrev =>
    simp only [threadStep] at hr
    split at hr <;> cases hr <;> exact .inl ho
  case removeLast mode _ _ =>
    simp only [threadStep] at hr
    split at hr <;> cases hr
    · cases mode <;> cases ho
    · simp only [retryRemove] at ho
      split at ho <;> exact .inl ho
  case unlockQueue mode _ =>
    simp only [threadStep] at hr
    cases hr
    cases mode <;> cases ho
  all_goals
    simp only [threadStep, lockSlow, unlockSlow, outer] at hr
    (repeat' split at hr) <;> cases hr <;> simp_all [ownsLock, inSlowFair]

omit [DecidableEq τ] in
/-- The lock is only given back by a release of its owner. -/
theorem unlocked_of_step (life : Ptr → ℕ) (h : Inv s g)
    (hr : threadStep t c s.mem (s.pc t) = some r) (hl : isLocked s.mem.word = true)
    (hl' : isLocked r.1.word = false) :
    ownsLock (s.pc t) = true ∧ actions life c s.mem.word (s.pc t) = releaseWord := by
  have hn := h.node t
  cases hpc : s.pc t <;> rw [hpc] at hr hn
  case unlock | clearBits | fairRelease => exact ⟨rfl, rfl⟩
  case push =>
    simp only [threadStep] at hr
    split at hr <;> cases hr <;> rename_i hcas
    · obtain rfl := compareExchangeWeak_ok hcas
      rw [Mem.store_word, (setQueueHead_projections _ hn.1.addr.aligned).2.1, hl] at hl'
      cases hl'
    · exact absurd hl (by simpa using hl')
  case tryLock | isLocked | lock | grab | slowLock | fairLock | giveUp =>
    simp only [threadStep] at hr
    split at hr <;> cases hr <;> rename_i hcas
    · rw [compareExchangeWeak_ok hcas] at hl
      simp [hl] at hl'
    · exact absurd hl (by simpa using hl')
  case removeLast mode _ _ =>
    simp only [threadStep] at hr
    split at hr <;> cases hr <;> rename_i hcas
    · rw [compareExchangeWeak_ok hcas] at hl
      cases mode <;> simp [removedWord, hl] at hl'
    · exact absurd hl (by simpa using hl')
  case unlockQueue mode _ =>
    simp only [threadStep] at hr
    cases hr
    cases mode <;> simp [unlockQueueMask, hl] at hl'
  case markTimeout =>
    simp only [threadStep] at hr
    split at hr <;> cases hr <;> simp [hl] at hl'
  all_goals
    simp only [threadStep] at hr
    (repeat' split at hr) <;> cases hr <;> exact absurd hl (by simpa using hl')

omit [DecidableEq τ] in
/-- A node is queued by the thread whose own it was, in an atomic step that releases. -/
theorem push_of_step (hr : threadStep t c s.mem (s.pc t) = some r)
    (he : .pushed t p ∈ r.2.2) :
    ownNode (s.pc t) = some p ∧ actions life c s.mem.word (s.pc t) = [.sync .word true true] := by
  cases hpc : s.pc t <;> rw [hpc] at hr
  case push =>
    simp only [threadStep] at hr
    split at hr <;> cases hr <;> rename_i hcas
    · simp only [List.mem_singleton, Event.pushed.injEq] at he
      exact ⟨by rw [he.2]; rfl, by simp only [actions, onCas, hcas]⟩
    · cases he
  all_goals
    simp only [threadStep] at hr
    (repeat' split at hr) <;> cases hr <;> simp at he

end Walks

end Mekong.Analysis.RawMutex
