import Mekong.Analysis.RawMutexRuns
import Mekong.Analysis.StaticNodes

/-!
# The nodes a `RawMutex` reads and writes

All that the invariant of a mutex says about nodes concerns those in the frames of the
unfinished calls of its threads, and a step writes to no other: mutexes and queues whose
calls use different nodes can share the memory of the nodes. `Kept` is the invariant of a
mutex whose threads use their static nodes.
-/

set_option autoImplicit false

namespace Mekong.Analysis.RawMutex

open Mekong.Computation Mekong.Model Mekong.Program Mekong.Program.RawMutex
  Mekong.Analysis.ThreadLocal

/-- The node in the frame of a thread's call of `with_thread_data`. -/
def frameNode : Pc → Option Ptr
  | .park p => some p
  | pc => ownNode pc

section Frames

variable {τ : Type} {s : State τ} {g : Ghost τ} {t u : τ} {p : Ptr} {c : Choice}
  {r : Mem τ × Pc × List (Event τ)}

/-! ## Frames -/

/-- A thread that uses a node is the one whose frame holds it. -/
theorem Inv.frame_of_node (h : Inv s g) (hp : frameNode (s.pc u) = some p) :
    s.mem.frame p = some u := by
  have hn := h.node u
  cases hpc : s.pc u with
  | park q =>
    rw [hpc] at hp hn
    cases hp
    exact hn.1
  | setToken | setTail | setPrev | setNext | push | readToken =>
    exact (hn.inside (p := p) (by rw [hpc] at hp ⊢; exact hp)).frame
  | _ =>
    rw [hpc] at hp
    cases hp

/-- A node that waits for a notification, or has one, is parked. -/
theorem Inv.parked_of_waiting (h : Inv s g) (hp : (g.status p).Waiting) :
    ∃ u, s.pc u = .park p := by
  have hs := h.status p
  unfold StatusInv at hs
  cases hq : g.status p with
  | free | inside =>
    rw [hq] at hp
    exact hp.elim
  | queued =>
    simp only [hq] at hs
    exact hs.2.2.2
  | removed | woken =>
    simp only [hq] at hs
    exact hs.2.2

/-- A node that waits lies in a frame. -/
theorem Inv.frame_of_waiting (h : Inv s g) (hp : (g.status p).Waiting) :
    ∃ u, s.mem.frame p = some u := by
  obtain ⟨u, hu⟩ := h.parked_of_waiting hp
  exact ⟨u, h.frame_of_node (by rw [hu]; rfl)⟩

/-- A queued node waits. -/
theorem Inv.waiting_of_queued (h : Inv s g) (hp : p ∈ g.queue) : (g.status p).Waiting := by
  rw [h.queued p hp]
  trivial

/-- The invariant says nothing about nodes in no frame. -/
theorem Inv.of_framed {node : Ptr → ThreadData} (h : Inv s g)
    (hnode : ∀ p u, s.mem.frame p = some u → node p = s.mem.node p) :
    Inv ⟨{ s.mem with node := node }, s.pc⟩ g := by
  have hwaiting : ∀ q, (g.status q).Waiting → node q = s.mem.node q := fun q hq =>
    (h.frame_of_waiting hq).elim (hnode q)
  have hqueue : ∀ q ∈ g.queue, node q = s.mem.node q := fun q hq =>
    hwaiting q (h.waiting_of_queued hq)
  have hown : ∀ u q, frameNode (s.pc u) = some q → node q = s.mem.node q := fun u q hq =>
    hnode q u (h.frame_of_node hq)
  refine ⟨h.locked, h.queueLocked, h.timeout, h.head, fun u => ?_, h.holder, h.nodup,
    h.links_congr fun q hq => ?_, fun hg => ?_, h.queued, fun q => ?_, fun u => ?_, h.state,
    fun u => (h.walk u).congr hqueue⟩
  · refine Iff.trans (Owns.congr (fun _ _ => Iff.rfl) fun q hq => ?_) (h.owner u)
    exact congrArg _ (hown u q (by rw [hq]; rfl))
  · exact congrArg _ (hqueue q hq)
  · have hcongr := @Inv.settled_congr τ s g { s.mem with node := node } h
    exact hcongr hqueue hg
  · have hs := h.status q
    unfold StatusInv at hs ⊢
    cases hq : g.status q with
    | free | inside => simpa only [hq] using hs
    | queued | removed | woken =>
      have hsame := hwaiting q (by rw [hq]; trivial)
      simp only [hq] at hs ⊢
      rw [hsame]
      exact hs
  · refine (h.node u).stable (fun q hq => ⟨hown u q ?_, rfl, rfl⟩) (fun _ _ => ⟨rfl, id⟩)
      fun mode q hq => ⟨congrArg _ (hwaiting q ?_), rfl⟩
    · cases hpc : s.pc u <;> rw [hpc] at hq <;> first | exact hq | cases hq
    · rw [(h.node u).removed hq]
      trivial

/-! ## What a step writes -/

variable {home : ThreadLocal.Home τ}

/-- A step writes into the thread's own node, or into one that is parked. -/
theorem Inv.node_of_step (h : Inv s g)
    (hr : ThreadLocal.mutexStep home t c s.mem (s.pc t) = some r) (p : Ptr) :
    r.1.node p = s.mem.node p ∨ frameNode (s.pc t) = some p ∨ (g.status p).Waiting := by
  have written : ∀ {node : Ptr → ThreadData} {q : Ptr} {d : ThreadData},
      node = Function.update s.mem.node q d →
      frameNode (s.pc t) = some q ∨ (g.status q).Waiting →
      node p = s.mem.node p ∨ frameNode (s.pc t) = some p ∨ (g.status p).Waiting := by
    rintro node q d rfl hq
    by_cases hpq : p = q
    · rw [hpq]
      exact .inr hq
    · exact .inl (Function.update_of_ne hpq _ _)
  have hwalk := h.walk t
  have hremoved : ∀ mode q, wakes (s.pc t) = some (mode, q) → g.status q = .removed t mode :=
    fun _ _ => (h.node t).removed
  cases hpc : s.pc t <;> rw [hpc] at hr hwalk hremoved written
  case withThreadData counter state =>
    cases hr
    exact .inl (congrFun (Function.update_eq_self _ _) p)
  case setToken | setTail | setPrev | setNext =>
    cases hr
    exact written rfl (.inl rfl)
  case park q =>
    simp only [ThreadLocal.mutexStep, threadStep] at hr
    split at hr <;> cases hr
    exact written rfl (.inl rfl)
  case scanPrev mode state current next =>
    obtain ⟨hscan, htail, rfl⟩ := hwalk
    obtain ⟨v, rest, hq⟩ := h.next hscan htail
    cases hr
    exact written rfl (.inr (h.waiting_of_queued (hq ▸ by simp)))
  case markHead mode state queueTail =>
    cases hr
    exact written rfl (.inr (h.waiting_of_queued hwalk.mem.1))
  case setNewTail mode state queueTail newTail =>
    cases hr
    exact written rfl (.inr (h.waiting_of_queued hwalk.1.1.mem.1))
  case setHandoff q =>
    cases hr
    exact written rfl (.inr (by rw [hremoved .fair q rfl]; trivial))
  case unpark mode q =>
    cases hr
    exact written rfl (.inr (by rw [hremoved mode q rfl]; trivial))
  all_goals
    simp only [ThreadLocal.mutexStep, threadStep] at hr
    (repeat' split at hr) <;> cases hr <;> exact .inl rfl

/-- A step of the mutex treats the frames as a step with static nodes may. -/
theorem frameStep {m : Mem τ} {pc : Pc} (hr : ThreadLocal.mutexStep home t c m pc = some r) :
    FrameStep home t m.frame r.1.frame (frameNode pc) (frameNode r.2.1) := by
  cases pc
  case withThreadData =>
    cases hr
    exact .begins rfl rfl rfl
  case push counter state p =>
    simp only [ThreadLocal.mutexStep, threadStep] at hr
    split at hr <;> cases hr
    · exact .stays rfl rfl
    · refine .returns p rfl ?_ rfl
      simp only [lockSlow]
      (repeat' split) <;> rfl
  case readToken p =>
    simp only [ThreadLocal.mutexStep, threadStep] at hr
    split at hr <;> cases hr <;> exact .returns p rfl rfl rfl
  all_goals
    simp only [ThreadLocal.mutexStep, threadStep, lockSlow, unlockSlow, unlockSlowFair, outer,
      afterMark, retryRemove, wake] at hr
    (repeat' split at hr) <;> cases hr <;> exact .stays rfl rfl

/-- A call of `with_thread_data` begins at its place. -/
theorem begins_of_step {m : Mem τ} {pc : Pc} (hr : ThreadLocal.mutexStep home t c m pc = some r)
    (hown : frameNode pc = none) (hown' : frameNode r.2.1 = some p) :
    ∃ counter state, pc = .withThreadData counter state := by
  cases pc
  case withThreadData counter state => exact ⟨counter, state, rfl⟩
  case setToken | setTail | setPrev | setNext | push | park | readToken => cases hown
  all_goals
    simp only [ThreadLocal.mutexStep, threadStep, lockSlow, unlockSlow, unlockSlowFair, outer,
      afterMark, retryRemove, wake] at hr
    (repeat' split at hr) <;> cases hr <;> cases hown'

/-- A call of `with_thread_data` returns with no notification stored: the node was not
pushed, or its thread has taken the notification. -/
theorem Inv.parker_of_return (h : Inv s g)
    (hr : ThreadLocal.mutexStep home t c s.mem (s.pc t) = some r)
    (hown : frameNode (s.pc t) = some p) (hown' : frameNode r.2.1 = none) :
    (r.1.node p).parker = false := by
  have hn := h.node t
  cases hpc : s.pc t <;> rw [hpc] at hr hown hn <;> cases hown
  case push =>
    simp only [ThreadLocal.mutexStep, threadStep] at hr
    split at hr <;> cases hr
    · cases hown'
    · exact hn.1.parker
  case readToken =>
    simp only [ThreadLocal.mutexStep, threadStep] at hr
    split at hr <;> cases hr <;> exact hn.parker
  all_goals
    simp only [ThreadLocal.mutexStep, threadStep] at hr
    (repeat' split at hr) <;> cases hr <;> cases hown'

/-- What a step at `pc` leaves in a node.
SOURCE: auxiliary.rs:127-136 -/
def notes (τ : Type) : Pc → List (Note τ)
  | .setNext _ state p => [.linked p (queueHead state)]
  | _ => []

/-- The `next` fields are what the notes say. -/
theorem next_of_step {m : Mem τ} {pc : Pc} (hr : ThreadLocal.mutexStep home t c m pc = some r)
    (p : Ptr) : (r.1.node p).next = (notes τ pc).foldl (linkAfter p) (m.node p).next := by
  cases pc
  case withThreadData =>
    cases hr
    exact congrArg ThreadData.next (congrFun (Function.update_eq_self _ _) p)
  case setNext counter state q =>
    cases hr
    by_cases hp : q = p
    · simp [notes, linkAfter, hp]
    · simp [notes, linkAfter, hp, Mem.modify_node_of_ne _ (Ne.symm hp)]
  case setToken | setTail | setPrev | scanPrev | markHead | setNewTail | setHandoff | unpark =>
    cases hr
    dsimp only
    refine Mem.modify_keeps ThreadData.next ?_ p
    exact fun _ => rfl
  case park =>
    simp only [ThreadLocal.mutexStep, threadStep] at hr
    split at hr <;> cases hr
    dsimp only
    refine Mem.modify_keeps ThreadData.next ?_ p
    exact fun _ => rfl
  all_goals
    simp only [ThreadLocal.mutexStep, threadStep] at hr
    (repeat' split at hr) <;> cases hr <;> rfl

/-! ## The invariant with static nodes -/

/-- Before a push on an empty list, the node's link is null. -/
def Unlinked (node : Ptr → ThreadData) : Pc → Prop
  | .setToken _ state p | .setTail _ state p | .setPrev _ state p | .setNext _ state p
  | .push _ state p => queueHead state = null → (node p).next = null
  | _ => True

/-- The invariant of a mutex whose threads use their static nodes. -/
structure Kept (home : ThreadLocal.Home τ) (s : State τ) : Prop where
  inv : ∃ g, Inv s g
  homed : Homed home frameNode s
  unlinked : ∀ u, Unlinked s.mem.node (s.pc u)

/-- The link is that of the thread's own node. -/
theorem Unlinked.congr {node node' : Ptr → ThreadData} {pc : Pc} (h : Unlinked node pc)
    (hn : ∀ p, ownNode pc = some p → node' p = node p) : Unlinked node' pc := by
  cases pc with
  | setToken counter state p | setTail counter state p | setPrev counter state p
  | setNext counter state p | push counter state p =>
    simpa only [Unlinked, hn p rfl] using h
  | _ => trivial

/-- A thread's own node is in its frame. -/
theorem frameNode_of_ownNode {pc : Pc} (h : ownNode pc = some p) : frameNode pc = some p := by
  cases pc <;> first | exact h | cases h

/-- The invariant reads the nodes in frames only. -/
theorem Kept.of_framed {node : Ptr → ThreadData} (h : Kept home s)
    (hnode : ∀ p u, s.mem.frame p = some u → node p = s.mem.node p) :
    Kept home ⟨{ s.mem with node := node }, s.pc⟩ := by
  obtain ⟨g, hg⟩ := h.inv
  exact ⟨⟨g, hg.of_framed hnode⟩, h.homed, fun u => (h.unlinked u).congr fun p hp =>
    hnode p u (hg.frame_of_node (frameNode_of_ownNode hp))⟩

/-- A step writes into no node but those in a frame. -/
theorem Kept.node_of_step (h : Kept home s)
    (hr : ThreadLocal.mutexStep home t c s.mem (s.pc t) = some r) (p : Ptr) :
    r.1.node p = s.mem.node p ∨ ∃ u, s.mem.frame p = some u := by
  obtain ⟨g, hg⟩ := h.inv
  refine (hg.node_of_step hr p).imp_right fun hp => hp.elim (fun hown => ?_) hg.frame_of_waiting
  exact ⟨t, hg.frame_of_node hown⟩

/-- The static node handed out is one that could have stood there before. -/
theorem Kept.threadStep (h : Kept home s)
    (hclean : ∀ counter state, s.pc t = .withThreadData counter state →
      ParkingQueue.Clean state (s.mem.node (home.addr t)))
    (hr : ThreadLocal.mutexStep home t c s.mem (s.pc t) = some r) :
    ∃ c', threadStep t c' s.mem (s.pc t) = some r := by
  cases hpc : s.pc t
  case withThreadData counter state =>
    rw [hpc] at hr
    have hnone := h.homed.frame_none (t := t) (by rw [hpc]; rfl)
    refine ⟨{ addr := home.addr t, leftover := s.mem.node (home.addr t) }, ?_⟩
    rw [RawMutex.threadStep, if_pos ⟨home.isNodeAddr t, by rw [hnone]; rfl,
      (hclean counter state hpc).1⟩]
    exact hr
  all_goals exact ⟨c, by rw [← hr, hpc]; rfl⟩

/-- From the call of `with_thread_data`, the thread's own steps lead to the push of its
node, reset. -/
theorem resets (home : ThreadLocal.Home τ) (t : τ) (c : Choice) (m : Mem τ) (counter : ℕ)
    (state : U64) :
    ∃ es m', Alone (ThreadLocal.mutexStep home t c) m (.withThreadData counter state) es m'
        (.push counter state (home.addr t)) ∧
      m'.node (home.addr t) =
        ThreadLocal.resetNode (home.addr t) (queueHead state) (m.node (home.addr t)) := by
  have hprev : ∀ m : Mem τ,
      ThreadLocal.mutexStep home t c m (.setPrev counter state (home.addr t)) =
        some (m.modify (home.addr t) ({ · with prev := null }),
          if queueHead state = null then .push counter state (home.addr t)
          else .setNext counter state (home.addr t), []) := fun _ => rfl
  by_cases hhead : queueHead state = null
  · simp only [if_pos hhead] at hprev
    exact ⟨_, _, .go rfl (.go rfl (.go rfl (.go (hprev _) (.stay _ _)))),
      by simp [ThreadLocal.resetNode, ThreadLocal.withThreadData, hhead]⟩
  · simp only [if_neg hhead] at hprev
    exact ⟨_, _, .go rfl (.go rfl (.go rfl (.go (hprev _) (.go rfl (.stay _ _))))),
      by simp [ThreadLocal.resetNode, ThreadLocal.withThreadData, hhead]⟩

end Frames

section Steps

variable {τ : Type} [DecidableEq τ] {home : ThreadLocal.Home τ} {s : State τ} {t : τ}
  {c : Choice} {r : Mem τ × Pc × List (Event τ)}

omit [DecidableEq τ] in
/-- The thread's own step on its way to the push. -/
theorem unlinked_step {m : Mem τ} {pc : Pc} (h : Unlinked m.node pc)
    (hclean : ∀ counter state, pc = .withThreadData counter state →
      ParkingQueue.Clean state (m.node (home.addr t)))
    (hr : ThreadLocal.mutexStep home t c m pc = some r) : Unlinked r.1.node r.2.1 := by
  cases pc
  case withThreadData counter state =>
    cases hr
    simpa [Unlinked, ThreadLocal.withThreadData] using (hclean counter state rfl).2
  case setToken | setTail =>
    cases hr
    simpa [Unlinked] using h
  case setPrev =>
    cases hr
    split <;> simpa [Unlinked] using h
  case setNext =>
    cases hr
    simp [Unlinked]
  all_goals
    simp only [ThreadLocal.mutexStep, threadStep, lockSlow, unlockSlow, unlockSlowFair, outer,
      afterMark, retryRemove, wake] at hr
    (repeat' split at hr) <;> cases hr <;> trivial

/-- A step keeps the invariant when the node it hands out is clean. -/
theorem Kept.step (h : Kept home s)
    (hclean : ∀ counter state, s.pc t = .withThreadData counter state →
      ParkingQueue.Clean state (s.mem.node (home.addr t)))
    (hr : ThreadLocal.mutexStep home t c s.mem (s.pc t) = some r) :
    Kept home (s.moveTo t r.1 r.2.1) := by
  obtain ⟨g, hg⟩ := h.inv
  obtain ⟨c', hthread⟩ := h.threadStep hclean hr
  obtain ⟨g', hg', -⟩ := step_advance hg hthread
  refine ⟨⟨g', hg'⟩, h.homed.step (frameStep hr), ?_⟩
  refine Threads.forall_moveTo (fun _ pc => Unlinked r.1.node pc)
    (unlinked_step (h.unlinked t) hclean hr) fun u hu => (h.unlinked u).congr fun p hp => ?_
  -- a node on its way to the push is nobody else's, and not parked
  have hin := (hg.node u).inside hp
  rcases hg.node_of_step hr p with hsame | hown | hwaiting
  · exact hsame
  · have hframe := hg.frame_of_node hown
    rw [hin.frame] at hframe
    exact absurd (Option.some.inj hframe) hu
  · rw [hin.status] at hwaiting
    exact hwaiting.elim

omit [DecidableEq τ] in
/-- At the push the node is what the reset code makes of a fresh one. -/
theorem Kept.reset (h : Kept home s) {counter : ℕ} {state : U64} {p : Ptr}
    (hpc : s.pc t = .push counter state p) :
    p = home.addr t ∧
      s.mem.node p = ThreadLocal.resetNode p (queueHead state) ThreadData.new := by
  obtain ⟨g, hg⟩ := h.inv
  have hnode := hg.node t
  have hnext := h.unlinked t
  rw [hpc] at hnode hnext
  obtain ⟨hin, htoken, htail, hprev, hlink⟩ := hnode
  refine ⟨(h.homed p t hin.frame).1, eq_resetNode hin.parker htoken htail hprev ?_⟩
  by_cases hhead : queueHead state = null
  · exact (hnext hhead).trans hhead.symm
  · exact hlink hhead

end Steps

end Mekong.Analysis.RawMutex
