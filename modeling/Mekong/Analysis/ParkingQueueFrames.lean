import Mekong.Analysis.ParkingQueueRuns
import Mekong.Analysis.StaticNodes

/-!
# The nodes a `ParkingQueue` reads and writes

As for a mutex, the invariant of a queue speaks only about nodes in the frames of its
unfinished calls, and a step writes to no other. `Kept` is the invariant of a queue whose
threads use their static nodes.
-/

set_option autoImplicit false

namespace Mekong.Analysis.ParkingQueue

open Mekong.Computation Mekong.Computation.NextChain Mekong.Model Mekong.Program
  Mekong.Program.ParkingQueue Mekong.Analysis.ThreadLocal

section Frames

variable {τ : Type} {s : State τ} {g : Ghost τ} {t u : τ} {p : Ptr} {c : Choice}
  {r : Mem τ × Pc × List (Event τ)}

/-! ## Frames -/

/-- A thread that uses a node is the one whose frame holds it. -/
theorem Inv.frame_of_node (h : Inv s g) (hp : ownNode (s.pc u) = some p) :
    s.mem.frame p = some u := ((h.thread u).framed hp).frame

/-- A node in one of the lists lies in a frame. -/
theorem Inv.frame_of_linked (h : Inv s g) (hp : g.Linked p) : ∃ u, s.mem.frame p = some u := by
  obtain ⟨-, u, hu⟩ := h.linked p hp
  exact ⟨u, h.frame_of_node (ownNode_of_linkedNode hu)⟩

/-- The invariant says nothing about nodes in no frame. -/
theorem Inv.of_framed {node : Ptr → ThreadData} (h : Inv s g)
    (hnode : ∀ p u, s.mem.frame p = some u → node p = s.mem.node p) :
    Inv ⟨{ s.mem with node := node }, s.pc⟩ g := by
  have hlinked : ∀ q, g.Linked q → node q = s.mem.node q := fun q hq =>
    (h.frame_of_linked hq).elim (hnode q)
  have hown : ∀ u q, ownNode (s.pc u) = some q → node q = s.mem.node q := fun u q hq =>
    hnode q u (h.frame_of_node hq)
  refine ⟨h.queueLocked, h.queueClear, h.exclusive, ?_, h.uncut, h.nodup, h.locker, h.clearer,
    fun q hq => ⟨?_, (h.linked q hq).2⟩, fun u => (h.thread u).stable ?_⟩
  · exact h.chain.congr fun q hq => congrArg _ (hlinked q (.inl hq))
  · exact (congrArg _ (hlinked q hq)).trans (h.linked q hq).1
  · exact {
      frame := fun _ _ => rfl
      unlinked := fun q hq _ => hown u q hq
      linked := fun q hq hl => hl.imp_right fun hparker =>
        (congrArg _ (hown u q (ownNode_of_linkedNode hq))).trans hparker
      queue := fun _ => ⟨⟨[], rfl⟩, fun q hq => congrArg _ (hown u q hq)⟩
      cut := fun _ => ⟨rfl, fun q hq => congrArg _ (hlinked q (.inr hq))⟩ }

/-! ## What a step writes -/

variable {home : ThreadLocal.Home τ}

/-- A step writes into the thread's own node, or into one of the lists. -/
theorem Inv.node_of_step (h : Inv s g)
    (hr : ThreadLocal.queueStep home t c s.mem (s.pc t) = some r) (p : Ptr) :
    r.1.node p = s.mem.node p ∨ ownNode (s.pc t) = some p ∨ g.Linked p := by
  have written : ∀ {node : Ptr → ThreadData} {q : Ptr} {d : ThreadData},
      node = Function.update s.mem.node q d → ownNode (s.pc t) = some q ∨ g.Linked q →
      node p = s.mem.node p ∨ ownNode (s.pc t) = some p ∨ g.Linked p := by
    rintro node q d rfl hq
    by_cases hpq : p = q
    · rw [hpq]
      exact .inr hq
    · exact .inl (Function.update_of_ne hpq _ _)
  have hthread := h.thread t
  cases hpc : s.pc t <;> rw [hpc] at hr hthread written
  case withThreadData counter state =>
    cases hr
    exact .inl (congrFun (Function.update_eq_self _ _) p)
  case setToken | setTail | setPrev | setNext | unparkSelf =>
    cases hr
    exact written rfl (.inl rfl)
  case park counter q =>
    simp only [ThreadLocal.queueStep, threadStep] at hr
    split at hr <;> cases hr
    exact written rfl (.inl rfl)
  case writeTail counter q state newHead tail =>
    cases hr
    exact written rfl (.inr (.inl hthread.2.2.2.2))
  case midWrite counter q prev next =>
    obtain ⟨-, ⟨v, w, hqueue⟩, -⟩ := hthread
    cases hr
    exact written rfl (.inr (.inl (hqueue ▸ by simp)))
  case walkUnpark head newHead =>
    cases hr
    exact written rfl (.inr (.inr (hthread.2.1.reach_iff.mp (.here hthread.1))))
  all_goals
    simp only [ThreadLocal.queueStep, threadStep] at hr
    (repeat' split at hr) <;> cases hr <;> exact .inl rfl

/-- The search for the node leaves the thread with its node. -/
theorem ownNode_visit (counter : ℕ) (state : U64) (prev curr : Ptr) :
    ownNode (visit counter p state prev curr) = some p := by
  unfold visit
  (repeat' split) <;> rfl

/-- A step of the queue treats the frames as a step with static nodes may. -/
theorem frameStep {m : Mem τ} {pc : Pc} (hr : ThreadLocal.queueStep home t c m pc = some r) :
    FrameStep home t m.frame r.1.frame (ownNode pc) (ownNode r.2.1) := by
  cases pc
  case withThreadData =>
    cases hr
    exact .begins rfl rfl rfl
  case scanNext =>
    cases hr
    exact .stays (ownNode_visit _ _ _ _) rfl
  all_goals
    simp only [ThreadLocal.queueStep, threadStep, outer] at hr
    (repeat' split at hr) <;> cases hr <;>
      first
      | exact .stays rfl rfl
      | exact .stays (ownNode_visit _ _ _ _) rfl
      | exact .returns _ rfl rfl rfl
      | (refine .stays ?_ rfl
         simp only [unparkAllLoop, afterCut, walk]
         (repeat' split) <;> rfl)

/-- The places of a call of `with_thread_data` after `retry` has answered true. -/
def hasAborted : Pc → Bool
  | .abortLoad .. | .abortLock .. | .scanNext .. | .headNext .. | .readTail .. | .writeTail ..
  | .headCas .. | .midNext .. | .midWrite .. | .midRelease .. | .unparkSelf .. | .lost .. => true
  | _ => false

/-- What a step of `t` at `pc` leaves in a node.
SOURCE: auxiliary.rs:531, auxiliary.rs:535-538, auxiliary.rs:643-645 -/
def notes (t : τ) (c : Choice) : Pc → List (Note τ)
  | .setNext _ state p => [.linked p (queueHead state)]
  | .retryAgain .. => if c.retry = true then [.aborted t] else []
  | .midWrite _ _ prev next => [.linked prev next]
  | _ => []

/-- A call of `with_thread_data` begins at its place. -/
theorem begins_of_step {m : Mem τ} {pc : Pc} (hr : ThreadLocal.queueStep home t c m pc = some r)
    (hown : ownNode pc = none) (hown' : ownNode r.2.1 = some p) :
    ∃ counter state, pc = .withThreadData counter state := by
  cases pc
  case withThreadData counter state => exact ⟨counter, state, rfl⟩
  case outside | retry | load | unparkAll | cut | walkNext | walkUnpark | reload | recut | clear =>
    simp only [ThreadLocal.queueStep, threadStep, unparkAllLoop, afterCut, walk] at hr
    (repeat' split at hr) <;> cases hr <;> cases hown'
  all_goals cases hown

/-- The search for the node is past the retry. -/
theorem hasAborted_visit (counter : ℕ) (state : U64) (prev curr : Ptr) :
    hasAborted (visit counter p state prev curr) = true := by
  unfold visit
  (repeat' split) <;> rfl

/-- Inside a call of `with_thread_data`, `abort_self` begins with its note. -/
theorem hasAborted_of_step {m : Mem τ} {pc : Pc} (hr : ThreadLocal.queueStep home t c m pc = some r)
    (hown' : ownNode r.2.1 = some p) :
    hasAborted r.2.1 = true ↔ hasAborted pc = true ∨ .aborted t ∈ notes t c pc := by
  cases pc
  case retryAgain =>
    cases hr
    cases hc : c.retry <;> simp [hasAborted, notes, hc]
  case abortLoad | abortLock | scanNext | headNext | readTail | writeTail | headCas | midNext
      | midWrite | midRelease | unparkSelf | lost =>
    refine iff_of_true ?_ (.inl rfl)
    simp only [ThreadLocal.queueStep, threadStep, outer] at hr
    (repeat' split at hr) <;> cases hr <;>
      first | rfl | exact hasAborted_visit _ _ _ _ | cases hown'
  all_goals
    refine iff_of_false ?_ (by simp [hasAborted, notes])
    simp only [ThreadLocal.queueStep, threadStep, unparkAllLoop, afterCut, walk] at hr
    (repeat' split at hr) <;> cases hr <;> simp [hasAborted]

/-- The note of `abort_self` is about the thread itself, which keeps its node. -/
theorem aborted_of_step {m : Mem τ} {pc : Pc} (hr : ThreadLocal.queueStep home t c m pc = some r)
    (hm : .aborted u ∈ notes t c pc) :
    u = t ∧ ∃ p, ownNode pc = some p ∧ ownNode r.2.1 = some p := by
  cases pc
  case retryAgain counter p =>
    cases hr
    cases hc : c.retry <;> simp only [notes, hc] at hm ⊢
    · cases hm
    · obtain rfl : u = t := by simpa using hm
      exact ⟨rfl, p, rfl, rfl⟩
  all_goals simp [notes] at hm

/-- A call of `with_thread_data` returns with a notification stored exactly when it ends
in `abort_self`, which stores one or has been given one. -/
theorem Inv.parker_of_return (h : Inv s g) (hok : abortInTime c.spurious s.mem (s.pc t) = true)
    (hr : ThreadLocal.queueStep home t c s.mem (s.pc t) = some r)
    (hown : ownNode (s.pc t) = some p) (hown' : ownNode r.2.1 = none) :
    (r.1.node p).parker = hasAborted (s.pc t) := by
  have ht := h.thread t
  cases hpc : s.pc t <;> rw [hpc] at hr hown ht hok <;> cases hown
  case push =>
    simp only [ThreadLocal.queueStep, threadStep] at hr
    split at hr <;> cases hr
    · cases hown'
    · exact ht.1.parker
  case park =>
    simp only [ThreadLocal.queueStep, threadStep] at hr
    split at hr <;> cases hr
    simp [hasAborted]
  case abortLoad =>
    simp only [ThreadLocal.queueStep, threadStep] at hr
    split at hr <;> cases hr
    · rename_i hgives
      simpa [abortInTime, hgives, hasAborted] using hok
    · cases hown'
  case abortLock =>
    simp only [ThreadLocal.queueStep, threadStep] at hr
    simp only [abortInTime] at hok
    split at hr
    · cases hr
      cases hown'.symm.trans (ownNode_visit _ _ _ _)
    · rename_i hcas
      split at hr <;> cases hr
      · rename_i hgives
        simpa [hcas, hgives, hasAborted] using hok
      · cases hown'
  case unparkSelf =>
    cases hr
    simp [hasAborted]
  all_goals
    simp only [ThreadLocal.queueStep, threadStep, outer] at hr
    (repeat' split at hr) <;> cases hr <;>
      first | cases hown' | cases hown'.symm.trans (ownNode_visit _ _ _ _)

/-- The `next` fields are what the notes say. -/
theorem next_of_step {m : Mem τ} {pc : Pc} (hr : ThreadLocal.queueStep home t c m pc = some r)
    (p : Ptr) : (r.1.node p).next = (notes t c pc).foldl (linkAfter p) (m.node p).next := by
  cases pc
  case withThreadData =>
    cases hr
    exact congrArg ThreadData.next (congrFun (Function.update_eq_self _ _) p)
  case setNext counter state q =>
    cases hr
    by_cases hp : q = p
    · simp [notes, linkAfter, hp]
    · simp [notes, linkAfter, hp, Mem.modify_node_of_ne _ (Ne.symm hp)]
  case midWrite counter q prev next =>
    cases hr
    by_cases hp : prev = p
    · simp [notes, linkAfter, hp]
    · simp [notes, linkAfter, hp, Mem.modify_node_of_ne _ (Ne.symm hp)]
  case retryAgain =>
    cases hr
    cases hc : c.retry <;> simp [notes, linkAfter, hc]
  case setToken | setTail | setPrev | writeTail | walkUnpark =>
    cases hr
    dsimp only
    refine Mem.modify_keeps ThreadData.next ?_ p
    exact fun _ => rfl
  case park =>
    simp only [ThreadLocal.queueStep, threadStep] at hr
    split at hr <;> cases hr
    rw [Mem.free_node]
    refine Mem.modify_keeps ThreadData.next ?_ p
    exact fun _ => rfl
  case unparkSelf =>
    cases hr
    rw [Mem.free_node]
    refine Mem.modify_keeps ThreadData.next ?_ p
    exact fun _ => rfl
  all_goals
    simp only [ThreadLocal.queueStep, threadStep] at hr
    (repeat' split at hr) <;> cases hr <;> rfl

/-! ## The invariant with static nodes -/

/-- What the code before a push has written so far. -/
def Written (node : Ptr → ThreadData) : Pc → Prop
  | .setTail _ _ p => (node p).unparkToken = 0
  | .setPrev _ state p => (node p).unparkToken = 0 ∧
      (node p).queueTail = if queueHead state = null then p else null
  | .setNext _ state p | .push _ state p => (node p).unparkToken = 0 ∧
      (node p).queueTail = (if queueHead state = null then p else null) ∧ (node p).prev = null
  | _ => True

/-- The invariant of a queue whose threads use their static nodes. -/
structure Kept (home : ThreadLocal.Home τ) (s : State τ) : Prop where
  inv : ∃ g, Inv s g
  homed : Homed home ownNode s
  written : ∀ u, Written s.mem.node (s.pc u)

/-- What has been written is about the thread's own node. -/
theorem Written.congr {node node' : Ptr → ThreadData} {pc : Pc} (h : Written node pc)
    (hn : ∀ p, ownNode pc = some p → linkedNode pc = none → node' p = node p) :
    Written node' pc := by
  cases pc with
  | setTail counter state p | setPrev counter state p | setNext counter state p
  | push counter state p =>
    simpa only [Written, hn p rfl rfl] using h
  | _ => trivial

/-- The invariant reads the nodes in frames only. -/
theorem Kept.of_framed {node : Ptr → ThreadData} (h : Kept home s)
    (hnode : ∀ p u, s.mem.frame p = some u → node p = s.mem.node p) :
    Kept home ⟨{ s.mem with node := node }, s.pc⟩ := by
  obtain ⟨g, hg⟩ := h.inv
  exact ⟨⟨g, hg.of_framed hnode⟩, h.homed, fun u => (h.written u).congr fun p hp _ =>
    hnode p u (hg.frame_of_node hp)⟩

/-- A step writes into no node but those in a frame. -/
theorem Kept.node_of_step (h : Kept home s)
    (hr : ThreadLocal.queueStep home t c s.mem (s.pc t) = some r) (p : Ptr) :
    r.1.node p = s.mem.node p ∨ ∃ u, s.mem.frame p = some u := by
  obtain ⟨g, hg⟩ := h.inv
  refine (hg.node_of_step hr p).imp_right fun hp => hp.elim (fun hown => ?_) hg.frame_of_linked
  exact ⟨t, hg.frame_of_node hown⟩

/-- The static node handed out is one that could have stood there before. -/
theorem Kept.threadStep (h : Kept home s)
    (hr : ThreadLocal.queueStep home t c s.mem (s.pc t) = some r) :
    ∃ c', c'.spurious = c.spurious ∧ threadStep t c' s.mem (s.pc t) = some r ∧
      ∀ counter state, s.pc t = .withThreadData counter state →
        c'.leftover = s.mem.node (home.addr t) := by
  cases hpc : s.pc t
  case withThreadData counter state =>
    rw [hpc] at hr
    have hnone := h.homed.frame_none (t := t) (by rw [hpc]; rfl)
    refine ⟨{ c with addr := home.addr t, leftover := s.mem.node (home.addr t) }, rfl, ?_,
      fun _ _ _ => rfl⟩
    rw [ParkingQueue.threadStep, if_pos ⟨home.isNodeAddr t, by rw [hnone]; rfl⟩]
    exact hr
  all_goals exact ⟨c, rfl, by rw [← hr, hpc]; rfl, fun _ _ e => by cases e⟩

/-- From the call of `with_thread_data`, the thread's own steps lead to the push of its
node, reset. -/
theorem resets (home : ThreadLocal.Home τ) (t : τ) (c : Choice) (m : Mem τ) (counter : ℕ)
    (state : U64) :
    ∃ es m', Alone (ThreadLocal.queueStep home t c) m (.withThreadData counter state) es m'
        (.push counter state (home.addr t)) ∧
      m'.node (home.addr t) =
        ThreadLocal.resetNode (home.addr t) (queueHead state) (m.node (home.addr t)) := by
  have hprev : ∀ m : Mem τ,
      ThreadLocal.queueStep home t c m (.setPrev counter state (home.addr t)) =
        some (m.modify (home.addr t) ({ · with prev := null }),
          if queueHead state = null then .push counter state (home.addr t)
          else .setNext counter state (home.addr t), []) := fun _ => rfl
  by_cases hhead : queueHead state = null
  · simp only [if_pos hhead] at hprev
    exact ⟨_, _, .go rfl (.go rfl (.go rfl (.go (hprev _) (.stay _ _)))),
      by simp [ThreadLocal.resetNode, ThreadLocal.withThreadData, hhead]⟩
  · simp only [if_neg hhead] at hprev
    exact ⟨_, _, .go rfl (.go rfl (.go rfl (.go (hprev _) (.go rfl (.stay _ _))))),
      by simp [ThreadLocal.resetNode, ThreadLocal.withThreadData, hhead]⟩

end Frames

section Steps

variable {τ : Type} [DecidableEq τ] {home : ThreadLocal.Home τ} {s : State τ} {t : τ}
  {c : Choice} {r : Mem τ × Pc × List (Event τ)}

omit [DecidableEq τ] in
/-- The thread's own step on its way to the push. -/
theorem written_step {m : Mem τ} {pc : Pc} (h : Written m.node pc)
    (hr : ThreadLocal.queueStep home t c m pc = some r) : Written r.1.node r.2.1 := by
  cases pc
  case setToken =>
    cases hr
    simp [Written]
  case setTail | setNext =>
    cases hr
    simpa [Written] using h
  case setPrev =>
    cases hr
    split <;> simpa [Written] using h
  all_goals
    simp only [ThreadLocal.queueStep, threadStep, outer, visit, unparkAllLoop, afterCut, walk] at hr
    (repeat' split at hr) <;> cases hr <;> trivial

/-- A step keeps the invariant when the node it hands out is clean and aborts are in time. -/
theorem Kept.step (h : Kept home s)
    (hclean : ∀ counter state, s.pc t = .withThreadData counter state →
      Clean state (s.mem.node (home.addr t)))
    (hok : abortInTime c.spurious s.mem (s.pc t) = true)
    (hr : ThreadLocal.queueStep home t c s.mem (s.pc t) = some r) :
    Kept home (s.moveTo t r.1 r.2.1) := by
  obtain ⟨g, hg⟩ := h.inv
  obtain ⟨c', hspurious, hthread, hleftover⟩ := h.threadStep hr
  obtain ⟨g', hg', -⟩ := step_advance hg
    (fun counter state hpc => hleftover counter state hpc ▸ hclean counter state hpc)
    (hspurious ▸ hok) hthread
  refine ⟨⟨g', hg'⟩, h.homed.step (frameStep hr), ?_⟩
  refine Threads.forall_moveTo (fun _ pc => Written r.1.node pc)
    (written_step (h.written t) hr) fun u hu => (h.written u).congr fun p hp hnone => ?_
  -- a node on its way to the push is nobody else's, and in none of the lists
  rcases hg.node_of_step hr p with hsame | hown | hlinked
  · exact hsame
  · exact absurd (hg.own_unique hown hp) hu
  · exact absurd hlinked (hg.not_linked hp (by simp [hnone]))

omit [DecidableEq τ] in
/-- At the push the node is what the reset code makes of a fresh one. -/
theorem Kept.reset (h : Kept home s) {counter : ℕ} {state : U64} {p : Ptr}
    (hpc : s.pc t = .push counter state p) :
    p = home.addr t ∧
      s.mem.node p = ThreadLocal.resetNode p (queueHead state) ThreadData.new := by
  obtain ⟨g, hg⟩ := h.inv
  have hnode := hg.thread t
  have hwritten := h.written t
  rw [hpc] at hnode hwritten
  obtain ⟨hin, hnext⟩ := hnode
  obtain ⟨htoken, htail, hprev⟩ := hwritten
  exact ⟨(h.homed p t hin.frame).1, eq_resetNode hin.parker htoken htail hprev hnext⟩

end Steps

end Mekong.Analysis.ParkingQueue
