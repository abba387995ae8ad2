import Mekong.Analysis.ParkingQueueFrames
import Mekong.Analysis.RawMutexFrames

/-!
# When a node in thread-local storage is as good as a fresh one

The code before a push resets `unpark_token`, `queue_tail` and `prev`, and `next` unless
the list is empty. What it leaves is the parker's notification and, on an empty list, the
link. Which of them an attempt finds in its thread's node depends on the history: an
aborted attempt leaves a notification, every other one none, and the link stays as the
thread's own attempts and the aborts of its neighbours on a list have written it.

In a run in which no thread makes an attempt after an aborted one, or on an empty list
with such a link in its node, and whose aborts are in time, the node of every push is, in
all its fields, a fresh one that went through the same code, on whatever mutexes and
queues its thread has waited before. The first attempt that breaks this condition leads to
a push whose node is not.
-/

set_option autoImplicit false

namespace Mekong.Analysis.ThreadLocal

open Mekong.Computation Mekong.Model Mekong.Program Mekong.Program.ThreadLocal

section Property

variable {τ μ κ : Type} (home : Home τ) (s : State τ μ κ) (t : τ)

/-- The node `p` that `t` is about to push, having read the pointer `head`, is its own
and agrees with a fresh one. -/
def FreshAt (p head : Ptr) : Prop :=
  p = home.addr t ∧ s.node p = resetNode p head ThreadData.new

/-- So is every node that is about to be pushed, on any mutex and any queue. -/
structure AsFresh : Prop where
  mutex : ∀ i t counter state p, (s.mutex i).pc t = .push counter state p →
    FreshAt home s t p (queueHead state)
  queue : ∀ k t counter state p, (s.queue k).pc t = .push counter state p →
    FreshAt home s t p (queueHead state)

/-- If the step begins a call of `with_thread_data`: the word that has been read. -/
def callState : Move μ κ → Option U64
  | .mutex i _ =>
    match (s.mutex i).pc t with
    | .withThreadData _ state => some state
    | _ => none
  | .queue k _ =>
    match (s.queue k).pc t with
    | .withThreadData _ state => some state
    | _ => none

/-- If the step is one of `try_lock_queue!`, it gives up only with a notified node, and
takes the queue lock only with one that is not. -/
def abortInTime : Move μ κ → Bool
  | .mutex .. => true
  | .queue k c =>
    ParkingQueue.abortInTime c.spurious ((s.queue k).view s.node).mem ((s.queue k).pc t)

/-- What the step leaves in a static node. -/
def notesOf : Move μ κ → List (Note τ)
  | .mutex i _ => RawMutex.notes τ ((s.mutex i).pc t)
  | .queue k c => ParkingQueue.notes t c ((s.queue k).pc t)

/-- The history lets `t` make an attempt with the word `state`: none of its attempts was
aborted, and none has left a link in its node that an attempt on an empty list keeps. -/
structure Ready (log : List (Note τ)) (state : U64) : Prop where
  notAborted : .aborted t ∉ log
  unlinked : queueHead state = null → linkOf (home.addr t) log = null

instance [DecidableEq τ] (log : List (Note τ)) (state : U64) : Decidable (Ready home t log state) :=
  decidable_of_iff (.aborted t ∉ log ∧ (queueHead state = null → linkOf (home.addr t) log = null))
    ⟨fun h => ⟨h.1, h.2⟩, fun h => ⟨h.notAborted, h.unlinked⟩⟩

/-- Only ready threads make attempts, and aborts are in time. -/
def readyInTime (μ κ : Type) : Guard (State τ μ κ) (τ × Move μ κ) (Note τ) :=
  fun s log i => (∀ state, callState s i.1 i.2 = some state → Ready home i.1 log state) ∧
    abortInTime s i.1 i.2 = true

end Property

/-- The threads of many mutexes and queues, with the history of their nodes in the log. -/
def historyMachine {τ : Type} [DecidableEq τ] (home : Home τ) (μ κ : Type) [DecidableEq μ]
    [DecidableEq κ] : Machine (State τ μ κ) (τ × Move μ κ) (Note τ) where
  initial := (machine home μ κ).initial
  next i s := ((machine home μ κ).next i s).map fun r => (r.1, notesOf s i.1 i.2)

/-! ## The invariant -/

section Invariant

variable {τ μ κ : Type} {home : Home τ} {s : State τ μ κ} {t u : τ} {p : Ptr} {o o' : μ ⊕ κ}

/-- What a run keeps: every object's invariant, and that a thread is idle on all objects
but the one it is inside. -/
structure Keeps (home : Home τ) (s : State τ μ κ) : Prop where
  mutex : ∀ i, RawMutex.Kept home ((s.mutex i).view s.node)
  queue : ∀ k, ParkingQueue.Kept home ((s.queue k).view s.node)
  idleMutex : ∀ i u, s.current u ≠ some (.inl i) → mutexIdle ((s.mutex i).pc u) = true
  idleQueue : ∀ k u, s.current u ≠ some (.inr k) → queueIdle ((s.queue k).pc u) = true

/-- A thread with a node in a frame is inside an operation of the mutex. -/
theorem not_mutexIdle {pc : RawMutex.Pc} (h : RawMutex.frameNode pc = some p) :
    mutexIdle pc = false := by
  cases pc <;> first | rfl | cases h

/-- A thread with a node in a frame is inside an operation of the queue. -/
theorem not_queueIdle {pc : ParkingQueue.Pc} (h : ParkingQueue.ownNode pc = some p) :
    queueIdle pc = false := by
  cases pc <;> first | rfl | cases h

/-- A thread inside an operation of a mutex is on that mutex. -/
theorem Keeps.current_mutex (h : Keeps home s) {i : μ}
    (hpc : mutexIdle ((s.mutex i).pc u) = false) : s.current u = some (.inl i) := by
  refine Classical.by_contradiction fun hne => ?_
  cases hpc.symm.trans (h.idleMutex i u hne)

/-- A thread inside an operation of a queue is on that queue. -/
theorem Keeps.current_queue (h : Keeps home s) {k : κ}
    (hpc : queueIdle ((s.queue k).pc u) = false) : s.current u = some (.inr k) := by
  refine Classical.by_contradiction fun hne => ?_
  cases hpc.symm.trans (h.idleQueue k u hne)

/-- A node in a frame is the static node of a thread inside the object. -/
theorem Keeps.frame (h : Keeps home s) (hp : s.frame o p = some u) :
    p = home.addr u ∧ s.current u = some o := by
  cases o with
  | inl i =>
    obtain ⟨haddr, hown⟩ := (h.mutex i).homed p u hp
    exact ⟨haddr, h.current_mutex (not_mutexIdle hown)⟩
  | inr k =>
    obtain ⟨haddr, hown⟩ := (h.queue k).homed p u hp
    exact ⟨haddr, h.current_queue (not_queueIdle hown)⟩

/-- No two objects have a node in a frame. -/
theorem Keeps.disjoint (h : Keeps home s) (hp : s.frame o p = some u)
    (hp' : s.frame o' p = some t) : o = o' := by
  obtain ⟨haddr, ho⟩ := h.frame hp
  obtain ⟨haddr', ho'⟩ := h.frame hp'
  obtain rfl := home.injective (haddr.symm.trans haddr')
  exact Option.some.inj (ho.symm.trans ho')

/-- What an object does to the nodes does not concern the frames of another. -/
theorem Keeps.elsewhere (h : Keeps home s) (o o' : μ ⊕ κ) (ho : o' ≠ o) {node : Ptr → ThreadData}
    (hnode : ∀ p, node p = s.node p ∨ ∃ u, s.frame o p = some u) (p : Ptr) (u : τ)
    (hp : s.frame o' p = some u) : node p = s.node p :=
  (hnode p).resolve_right fun hframe => hframe.elim fun _ hp' => ho (h.disjoint hp hp')

/-- What a run keeps makes every node fresh at its push. -/
theorem Keeps.asFresh (h : Keeps home s) : AsFresh home s where
  mutex i _ _ _ _ hpc := (h.mutex i).reset hpc
  queue k _ _ _ _ hpc := (h.queue k).reset hpc

end Invariant

/-! ## Steps -/

section Steps

variable {τ μ κ : Type} [DecidableEq τ] [DecidableEq μ] [DecidableEq κ] {home : Home τ}
  {s s' : State τ μ κ} {t : τ} {log es : List (Event τ μ κ)}

/-- Where a thread is idle after one of its steps. -/
theorem idle_of_current {s : State τ μ κ} {o o' : μ ⊕ κ} {idle : Bool} {u : τ}
    (hcurrent : Function.update s.current t (if idle = true then none else some o) u ≠ some o')
    (ho : o' ≠ o ∨ u ≠ t) (henter : s.mayEnter t o = true) : s.current u ≠ some o' := by
  by_cases hu : u = t
  · subst hu
    have ho := ho.resolve_right fun hne => hne rfl
    simp only [State.mayEnter, Bool.or_eq_true, decide_eq_true_eq] at henter
    rcases henter with hnone | hsome
    · rw [hnone]
      exact Option.some_ne_none _ |>.symm
    · rw [hsome]
      exact fun e => ho (Option.some.inj e).symm
  · rwa [Function.update_of_ne hu] at hcurrent

omit [DecidableEq τ] [DecidableEq μ] [DecidableEq κ] in
/-- A step on a mutex begins a call exactly at its place. -/
theorem callState_mutex {i : μ} {c : RawMutex.Choice} {state : U64} :
    callState s t (.mutex i c) = some state ↔
      ∃ counter, (s.mutex i).pc t = .withThreadData counter state := by
  unfold callState
  cases hpc : (s.mutex i).pc t <;> simp [hpc]

omit [DecidableEq τ] [DecidableEq μ] [DecidableEq κ] in
/-- A step on a queue begins a call exactly at its place. -/
theorem callState_queue {k : κ} {c : ParkingQueue.Choice} {state : U64} :
    callState s t (.queue k c) = some state ↔
      ∃ counter, (s.queue k).pc t = .withThreadData counter state := by
  unfold callState
  cases hpc : (s.queue k).pc t <;> simp [hpc]

/-- A step on a mutex keeps all invariants if the node of its call is clean. -/
theorem Keeps.mutexStep (h : Keeps home s) {i : μ} {c : RawMutex.Choice}
    {r : Mem τ × RawMutex.Pc × List (RawMutex.Event τ)}
    (hclean : ∀ state, callState s t (.mutex i c) = some state →
      ParkingQueue.Clean state (s.node (home.addr t)))
    (henter : s.mayEnter t (.inl i) = true)
    (hr : mutexStep home t c ((s.mutex i).view s.node).mem ((s.mutex i).pc t) = some r) :
    Keeps home (s.moveMutex i t r.1 r.2.1) where
  mutex j := by
    by_cases hj : j = i
    · subst hj
      simp only [State.moveMutex, Function.update_self]
      exact (h.mutex j).step (fun n state hpc => hclean state (callState_mutex.mpr ⟨n, hpc⟩)) hr
    · simp only [State.moveMutex, Function.update_of_ne hj]
      exact (h.mutex j).of_framed
        (h.elsewhere (.inl i) (.inl j) (by simpa using hj) ((h.mutex i).node_of_step hr))
  queue k := (h.queue k).of_framed
    (h.elsewhere (.inl i) (.inr k) (by simp) ((h.mutex i).node_of_step hr))
  idleMutex j u hcurrent := by
    by_cases hj : j = i
    · subst hj
      simp only [State.moveMutex, Function.update_self, Object.moveTo]
      by_cases hu : u = t
      · subst hu
        simp only [State.moveMutex, Function.update_self] at hcurrent
        rw [Function.update_self]
        exact Classical.by_contradiction fun hidle => hcurrent (if_neg hidle)
      · rw [Function.update_of_ne hu]
        exact h.idleMutex j u (idle_of_current hcurrent (.inr hu) henter)
    · simp only [State.moveMutex, Function.update_of_ne hj]
      exact h.idleMutex j u (idle_of_current hcurrent (.inl (by simpa using hj)) henter)
  idleQueue k u hcurrent :=
    h.idleQueue k u (idle_of_current hcurrent (.inl (by simp)) henter)

/-- A step on a queue keeps all invariants if the node of its call is clean. -/
theorem Keeps.queueStep (h : Keeps home s) {k : κ} {c : ParkingQueue.Choice}
    {r : Mem τ × ParkingQueue.Pc × List (ParkingQueue.Event τ)}
    (hclean : ∀ state, callState s t (.queue k c) = some state →
      ParkingQueue.Clean state (s.node (home.addr t)))
    (hok : abortInTime s t (.queue k c) = true)
    (henter : s.mayEnter t (.inr k) = true)
    (hr : queueStep home t c ((s.queue k).view s.node).mem ((s.queue k).pc t) = some r) :
    Keeps home (s.moveQueue k t r.1 r.2.1) where
  mutex i := (h.mutex i).of_framed
    (h.elsewhere (.inr k) (.inl i) (by simp) ((h.queue k).node_of_step hr))
  queue j := by
    by_cases hj : j = k
    · subst hj
      simp only [State.moveQueue, Function.update_self]
      exact (h.queue j).step (fun n state hpc => hclean state (callState_queue.mpr ⟨n, hpc⟩)) hok hr
    · simp only [State.moveQueue, Function.update_of_ne hj]
      exact (h.queue j).of_framed
        (h.elsewhere (.inr k) (.inr j) (by simpa using hj) ((h.queue k).node_of_step hr))
  idleMutex i u hcurrent :=
    h.idleMutex i u (idle_of_current hcurrent (.inl (by simp)) henter)
  idleQueue j u hcurrent := by
    by_cases hj : j = k
    · subst hj
      simp only [State.moveQueue, Function.update_self, Object.moveTo]
      by_cases hu : u = t
      · subst hu
        simp only [State.moveQueue, Function.update_self] at hcurrent
        rw [Function.update_self]
        exact Classical.by_contradiction fun hidle => hcurrent (if_neg hidle)
      · rw [Function.update_of_ne hu]
        exact h.idleQueue j u (idle_of_current hcurrent (.inr hu) henter)
    · simp only [State.moveQueue, Function.update_of_ne hj]
      exact h.idleQueue j u (idle_of_current hcurrent (.inl (by simpa using hj)) henter)

omit [DecidableEq τ] [DecidableEq μ] [DecidableEq κ] in
/-- Fresh objects keep their invariants. -/
theorem keeps_new : Keeps home (State.new τ μ κ) where
  mutex _ := ⟨⟨_, RawMutex.inv_new⟩, fun _ _ hu => by simp [State.new, Object.new, Object.view] at hu,
    fun _ => trivial⟩
  queue _ := ⟨⟨_, ParkingQueue.inv_new⟩,
    fun _ _ hu => by simp [State.new, Object.new, Object.view] at hu, fun _ => trivial⟩
  idleMutex _ _ _ := rfl
  idleQueue _ _ _ := rfl

end Steps

/-! ## What the history says of a node -/

section History

variable {τ μ κ : Type} {home : Home τ} {s s' : State τ μ κ} {t u : τ} {p : Ptr}
  {log es : List (Note τ)}

/-- The threads' static nodes are as the history tells: their links always, and the
notification of a node while no call of its thread uses it. -/
structure History (home : Home τ) (s : State τ μ κ) (log : List (Note τ)) : Prop where
  keeps : Keeps home s
  next : ∀ u, (s.node (home.addr u)).next = linkOf (home.addr u) log
  outside : ∀ u, (∀ o, s.frame o (home.addr u) = none) →
    ((s.node (home.addr u)).parker = true ↔ .aborted u ∈ log)
  mutex : ∀ i u p, RawMutex.frameNode ((s.mutex i).pc u) = some p → .aborted u ∉ log
  queue : ∀ k u p, ParkingQueue.ownNode ((s.queue k).pc u) = some p →
    (ParkingQueue.hasAborted ((s.queue k).pc u) = true ↔ .aborted u ∈ log)

/-- A thread inside a call on a mutex has its node in a frame of the mutex. -/
theorem Keeps.frame_mutex (h : Keeps home s) {i : μ}
    (hp : RawMutex.frameNode ((s.mutex i).pc u) = some p) : s.frame (.inl i) p = some u := by
  obtain ⟨g, hg⟩ := (h.mutex i).inv
  exact hg.frame_of_node hp

/-- A thread inside a call on a queue has its node in a frame of the queue. -/
theorem Keeps.frame_queue (h : Keeps home s) {k : κ}
    (hp : ParkingQueue.ownNode ((s.queue k).pc u) = some p) : s.frame (.inr k) p = some u := by
  obtain ⟨g, hg⟩ := (h.queue k).inv
  exact hg.frame_of_node hp

/-- A thread that begins a call has its node in no frame. -/
theorem Keeps.frame_none (h : Keeps home s) {move : Move μ κ} {state : U64}
    (hcall : callState s t move = some state) (o : μ ⊕ κ) : s.frame o (home.addr t) = none := by
  have other : ∀ o', s.frame o' (home.addr t) = none → s.current t = some o' →
      s.frame o (home.addr t) = none := by
    intro o' hnone hcurrent
    refine Option.eq_none_iff_forall_ne_some.mpr fun u hu => ?_
    obtain ⟨haddr, ho⟩ := h.frame hu
    obtain rfl := home.injective haddr
    obtain rfl := Option.some.inj (hcurrent.symm.trans ho)
    rw [hnone] at hu
    cases hu
  cases move with
  | mutex i c =>
    obtain ⟨counter, hpc⟩ := callState_mutex.mp hcall
    refine other (.inl i) ((h.mutex i).homed.frame_none (t := t) ?_)
      (h.current_mutex (by rw [hpc]; rfl))
    show RawMutex.frameNode ((s.mutex i).pc t) = none
    rw [hpc]
    rfl
  | queue k c =>
    obtain ⟨counter, hpc⟩ := callState_queue.mp hcall
    refine other (.inr k) ((h.queue k).homed.frame_none (t := t) ?_)
      (h.current_queue (by rw [hpc]; rfl))
    show ParkingQueue.ownNode ((s.queue k).pc t) = none
    rw [hpc]
    rfl

/-- **A call finds a clean node exactly when the history lets its thread make an attempt.** -/
theorem History.clean_iff (h : History home s log) {move : Move μ κ} {state : U64}
    (hcall : callState s t move = some state) :
    ParkingQueue.Clean state (s.node (home.addr t)) ↔ Ready home t log state := by
  have hparker := h.outside t (h.keeps.frame_none hcall)
  constructor
  · rintro ⟨hclean, hnext⟩
    refine ⟨fun hm => ?_, fun hhead => (h.next t).symm.trans (hnext hhead)⟩
    rw [hparker.mpr hm] at hclean
    cases hclean
  · rintro ⟨hnot, hlink⟩
    refine ⟨Bool.eq_false_iff.mpr fun hp => hnot (hparker.mp hp), fun hhead => ?_⟩
    exact (h.next t).trans (hlink hhead)

variable [DecidableEq τ] [DecidableEq μ] [DecidableEq κ]

omit [DecidableEq τ] [DecidableEq μ] [DecidableEq κ] in
/-- No attempt has been made, and no node written. -/
theorem history_new : History home (State.new τ μ κ) [] where
  keeps := keeps_new
  next _ := rfl
  outside _ _ := by simp [State.new, ThreadData.new]
  mutex _ _ _ hp := by cases hp
  queue _ _ _ hp := by cases hp

omit [DecidableEq κ] in
/-- Only `t` has moved, and only on the mutex `i`. -/
theorem moveMutex_pc {i j : μ} {m : Mem τ} {pc : RawMutex.Pc} (h : ¬ (j = i ∧ u = t)) :
    ((s.moveMutex i t m pc).mutex j).pc u = (s.mutex j).pc u := by
  by_cases hj : j = i
  · subst hj
    have hu : u ≠ t := fun hu => h ⟨rfl, hu⟩
    simp [State.moveMutex, Object.moveTo, Function.update_of_ne hu]
  · simp [State.moveMutex, Function.update_of_ne hj]

omit [DecidableEq μ] in
/-- Only `t` has moved, and only on the queue `k`. -/
theorem moveQueue_pc {k j : κ} {m : Mem τ} {pc : ParkingQueue.Pc} (h : ¬ (j = k ∧ u = t)) :
    ((s.moveQueue k t m pc).queue j).pc u = (s.queue j).pc u := by
  by_cases hj : j = k
  · subst hj
    have hu : u ≠ t := fun hu => h ⟨rfl, hu⟩
    simp [State.moveQueue, Object.moveTo, Function.update_of_ne hu]
  · simp [State.moveQueue, Function.update_of_ne hj]

/-- The frames of the other objects are as before. -/
theorem moveMutex_frame {i : μ} {m : Mem τ} {pc : RawMutex.Pc}
    (hbefore : s.frame (.inl i) p = none)
    (hafter : ∀ o, (s.moveMutex i t m pc).frame o p = none) (o : μ ⊕ κ) : s.frame o p = none := by
  by_cases ho : o = .inl i
  · rw [ho]
    exact hbefore
  · have := hafter o
    cases o with
    | inl j =>
      have hj : j ≠ i := fun e => ho (congrArg Sum.inl e)
      simpa [State.frame, State.moveMutex, Function.update_of_ne hj] using this
    | inr j => exact this

/-- The frames of the other objects are as before. -/
theorem moveQueue_frame {k : κ} {m : Mem τ} {pc : ParkingQueue.Pc}
    (hbefore : s.frame (.inr k) p = none)
    (hafter : ∀ o, (s.moveQueue k t m pc).frame o p = none) (o : μ ⊕ κ) : s.frame o p = none := by
  by_cases ho : o = .inr k
  · rw [ho]
    exact hbefore
  · have := hafter o
    cases o with
    | inl j => exact this
    | inr j =>
      have hj : j ≠ k := fun e => ho (congrArg Sum.inr e)
      simpa [State.frame, State.moveQueue, Function.update_of_ne hj] using this

omit [DecidableEq τ] [DecidableEq μ] [DecidableEq κ] in
/-- No step writes into a node that is in no frame. -/
theorem same_of_no_frame {x y : ThreadData} {frame : Ptr → Option τ}
    (hnode : x = y ∨ ∃ v, frame p = some v) (hp : frame p = none) : x = y := by
  refine hnode.resolve_right ?_
  rintro ⟨v, hv⟩
  cases hp.symm.trans hv

/-- A step on a mutex keeps what the history tells. -/
theorem History.mutexStep (h : History home s log) {i : μ} {c : RawMutex.Choice}
    {r : Mem τ × RawMutex.Pc × List (RawMutex.Event τ)}
    (hready : ∀ state, callState s t (.mutex i c) = some state → Ready home t log state)
    (henter : s.mayEnter t (.inl i) = true)
    (hr : mutexStep home t c ((s.mutex i).view s.node).mem ((s.mutex i).pc t) = some r) :
    History home (s.moveMutex i t r.1 r.2.1) (log ++ RawMutex.notes τ ((s.mutex i).pc t)) := by
  have hnotes : ∀ u, .aborted u ∈ log ++ RawMutex.notes τ ((s.mutex i).pc t) ↔
      .aborted u ∈ log := by
    intro u
    cases (s.mutex i).pc t <;> simp [RawMutex.notes]
  obtain ⟨g, hg⟩ := (h.keeps.mutex i).inv
  refine ⟨h.keeps.mutexStep (fun state hcall => (h.clean_iff hcall).mpr (hready state hcall))
    henter hr, fun u => ?_, fun u hnone => ?_, fun j u p hp => ?_, fun k u p hp => ?_⟩
  · rw [linkOf, List.foldl_append, ← linkOf, ← h.next u]
    exact RawMutex.next_of_step hr _
  · rw [hnotes]
    rcases (RawMutex.frameStep hr).returned (fun p hp => (h.keeps.frame (h.keeps.frame_mutex hp)).1)
      (by simpa [State.frame, State.moveMutex, Object.moveTo] using hnone (.inl i))
      with hbefore | ⟨rfl, hown, hown'⟩
    · -- no call of `u` uses the node
      have hsame : r.1.node (home.addr u) = s.node (home.addr u) :=
        same_of_no_frame ((h.keeps.mutex i).node_of_step hr _) hbefore
      show (r.1.node (home.addr u)).parker = true ↔ _
      rw [hsame]
      exact h.outside u (moveMutex_frame hbefore hnone)
    · refine iff_of_false ?_ (h.mutex i u _ hown)
      have hparker := hg.parker_of_return hr hown hown'
      show ¬ (r.1.node (home.addr u)).parker = true
      rw [hparker]
      exact Bool.false_ne_true
  · rw [hnotes]
    by_cases hmoved : j = i ∧ u = t
    · obtain ⟨rfl, rfl⟩ := hmoved
      cases hown : RawMutex.frameNode ((s.mutex j).pc u) with
      | none =>
        obtain ⟨counter, state, hpc⟩ := RawMutex.begins_of_step (p := p) hr hown
          (by simpa [State.moveMutex, Object.moveTo] using hp)
        exact (hready state (callState_mutex.mpr ⟨counter, hpc⟩)).notAborted
      | some q => exact h.mutex j u q hown
    · exact h.mutex j u p (moveMutex_pc hmoved ▸ hp)
  · rw [hnotes]
    exact h.queue k u p hp

/-- A step on a queue keeps what the history tells. -/
theorem History.queueStep (h : History home s log) {k : κ} {c : ParkingQueue.Choice}
    {r : Mem τ × ParkingQueue.Pc × List (ParkingQueue.Event τ)}
    (hready : ∀ state, callState s t (.queue k c) = some state → Ready home t log state)
    (hok : abortInTime s t (.queue k c) = true) (henter : s.mayEnter t (.inr k) = true)
    (hr : queueStep home t c ((s.queue k).view s.node).mem ((s.queue k).pc t) = some r) :
    History home (s.moveQueue k t r.1 r.2.1)
      (log ++ ParkingQueue.notes t c ((s.queue k).pc t)) := by
  have hnotes : ∀ u, .aborted u ∉ ParkingQueue.notes t c ((s.queue k).pc t) →
      (.aborted u ∈ log ++ ParkingQueue.notes t c ((s.queue k).pc t) ↔ .aborted u ∈ log) :=
    fun u hu => List.mem_append.trans (or_iff_left hu)
  -- the thread that calls `abort_self` has its node in a frame of this queue
  have hquiet : ∀ {o p u}, s.frame o p = some u → o ≠ .inr k →
      .aborted u ∉ ParkingQueue.notes t c ((s.queue k).pc t) := by
    intro o p u hframe ho hm
    obtain ⟨rfl, q, hown, -⟩ := ParkingQueue.aborted_of_step hr hm
    have hqueue := h.keeps.frame_queue hown
    obtain rfl := (h.keeps.frame hframe).1.trans (h.keeps.frame hqueue).1.symm
    exact ho (h.keeps.disjoint hframe hqueue)
  obtain ⟨g, hg⟩ := (h.keeps.queue k).inv
  refine ⟨h.keeps.queueStep (fun state hcall => (h.clean_iff hcall).mpr (hready state hcall)) hok
    henter hr, fun u => ?_, fun u hnone => ?_, fun i u p hp => ?_, fun j u p hp => ?_⟩
  · rw [linkOf, List.foldl_append, ← linkOf, ← h.next u]
    exact ParkingQueue.next_of_step hr _
  · rcases (ParkingQueue.frameStep hr).returned
      (fun p hp => (h.keeps.frame (h.keeps.frame_queue hp)).1)
      (by simpa [State.frame, State.moveQueue, Object.moveTo] using hnone (.inr k))
      with hbefore | ⟨rfl, hown, hown'⟩
    · -- no call of `u` uses the node
      have hsame : r.1.node (home.addr u) = s.node (home.addr u) :=
        same_of_no_frame ((h.keeps.queue k).node_of_step hr _) hbefore
      rw [hnotes u fun hm => ?_]
      · show (r.1.node (home.addr u)).parker = true ↔ _
        rw [hsame]
        exact h.outside u (moveQueue_frame hbefore hnone)
      · obtain ⟨rfl, p, hown, -⟩ := ParkingQueue.aborted_of_step hr hm
        have hframe := h.keeps.frame_queue hown
        rw [(h.keeps.frame hframe).1] at hframe
        cases hbefore.symm.trans hframe
    · rw [hnotes u fun hm => ?_]
      · have hparker := hg.parker_of_return hok hr hown hown'
        show (r.1.node (home.addr u)).parker = true ↔ _
        rw [hparker]
        exact h.queue k u _ hown
      · obtain ⟨-, p, -, hsome⟩ := ParkingQueue.aborted_of_step hr hm
        cases hown'.symm.trans hsome
  · rw [hnotes u (hquiet (h.keeps.frame_mutex hp) (by simp))]
    exact h.mutex i u p hp
  · by_cases hmoved : j = k ∧ u = t
    · obtain ⟨rfl, rfl⟩ := hmoved
      have hp' : ParkingQueue.ownNode r.2.1 = some p := by
        simpa [State.moveQueue, Object.moveTo] using hp
      have hbefore : ParkingQueue.hasAborted ((s.queue j).pc u) = true ↔ .aborted u ∈ log := by
        cases hown : ParkingQueue.ownNode ((s.queue j).pc u) with
        | none =>
          obtain ⟨counter, state, hpc⟩ := ParkingQueue.begins_of_step hr hown hp'
          rw [hpc]
          refine iff_of_false Bool.false_ne_true ?_
          exact (hready state (callState_queue.mpr ⟨counter, hpc⟩)).notAborted
        | some q => exact h.queue j u q hown
      rw [List.mem_append, ← hbefore, ← ParkingQueue.hasAborted_of_step hr hp']
      simp [State.moveQueue, Object.moveTo]
    · rw [moveQueue_pc hmoved] at hp ⊢
      rw [hnotes u fun hm => ?_]
      · exact h.queue j u p hp
      · obtain ⟨hu, -⟩ := ParkingQueue.aborted_of_step hr hm
        refine hquiet (h.keeps.frame_queue hp) (fun e => hmoved ⟨Sum.inr.inj e, hu⟩) hm

/-- A step is one of its thread on one object. -/
theorem History.step (h : History home s log) {i : τ × Move μ κ}
    (hok : readyInTime home μ κ s log i)
    (hr : (historyMachine home μ κ).next i s = some (s', es)) : History home s' (log ++ es) := by
  obtain ⟨t, move⟩ := i
  obtain ⟨hready, htime⟩ := hok
  obtain ⟨r, hmove, he⟩ := Option.map_eq_some_iff.mp hr
  cases he
  cases move with
  | mutex i c =>
    simp only [machine, State.step] at hmove
    split at hmove
    · rename_i henter
      obtain ⟨r, hstep, he⟩ := Option.map_eq_some_iff.mp hmove
      cases he
      exact h.mutexStep hready henter hstep
    · cases hmove
  | queue k c =>
    simp only [machine, State.step] at hmove
    split at hmove
    · rename_i henter
      obtain ⟨r, hstep, he⟩ := Option.map_eq_some_iff.mp hmove
      cases he
      exact h.queueStep hready htime henter hstep
    · cases hmove

/-- In a run whose attempts are ready and whose aborts are in time, the history tells what
the nodes keep. -/
theorem exec_history (run : Exec (historyMachine home μ κ) (readyInTime home μ κ) s log) :
    History home s log := by
  refine run.invariant (fun s log => History home s log) ?_
    fun _ _ _ _ _ h hok hr => h.step hok hr
  rintro s rfl
  exact history_new

/-! ## Attempts that are not ready -/

omit [DecidableEq τ] in
/-- A thread that is not idle on an object may go on there. -/
theorem Keeps.mayEnter (h : Keeps home s) :
    (∀ i, mutexIdle ((s.mutex i).pc t) = false → s.mayEnter t (.inl i) = true) ∧
      ∀ k, queueIdle ((s.queue k).pc t) = false → s.mayEnter t (.inr k) = true := by
  refine ⟨fun i hpc => ?_, fun k hpc => ?_⟩
  · simp [State.mayEnter, h.current_mutex hpc]
  · simp [State.mayEnter, h.current_queue hpc]

omit [DecidableEq τ] [DecidableEq μ] [DecidableEq κ] in
/-- What the reset makes of a node that is not clean is not what it makes of a fresh one. -/
theorem not_freshAt {state : U64} {d : ThreadData} (hd : ¬ ParkingQueue.Clean state d)
    (hnode : s'.node (home.addr t) = resetNode (home.addr t) (queueHead state) d) :
    ¬ FreshAt home s' t (home.addr t) (queueHead state) := by
  rintro ⟨-, hfresh⟩
  rw [hnode] at hfresh
  refine hd ⟨congrArg ThreadData.parker hfresh, fun hhead => ?_⟩
  simpa [resetNode, ThreadData.new, hhead] using congrArg ThreadData.next hfresh

/-- Thread `t` may take its next step on the mutex `i`, from `pc` and the memory `m`. -/
def MutexAt (s : State τ μ κ) (i : μ) (t : τ) (m : Mem τ) (pc : RawMutex.Pc) : Prop :=
  s.mayEnter t (.inl i) = true ∧ ((s.mutex i).view s.node).mem = m ∧ (s.mutex i).pc t = pc

/-- Thread `t` may take its next step on the queue `k`, from `pc` and the memory `m`. -/
def QueueAt (s : State τ μ κ) (k : κ) (t : τ) (m : Mem τ) (pc : ParkingQueue.Pc) : Prop :=
  s.mayEnter t (.inr k) = true ∧ ((s.queue k).view s.node).mem = m ∧ (s.queue k).pc t = pc

/-- What the thread can do on the mutex alone it can do in the run. -/
theorem MutexAt.step {i : μ} {c : RawMutex.Choice} {m m' : Mem τ} {pc pc' : RawMutex.Pc}
    {es : List (RawMutex.Event τ)} (h : MutexAt s i t m pc)
    (hr : mutexStep home t c m pc = some (m', pc', es)) :
    ∃ s' es', (historyMachine home μ κ).next (t, .mutex i c) s = some (s', es') ∧
      MutexAt s' i t m' pc' := by
  obtain ⟨henter, rfl, rfl⟩ := h
  refine ⟨s.moveMutex i t m' pc', notesOf s t (.mutex i c), ?_, ?_, ?_, ?_⟩
  · simp only [historyMachine, machine, State.step, if_pos henter, hr, Option.map_some]
  · simp only [State.mayEnter, State.moveMutex, Function.update_self]
    split <;> simp
  · simp [State.moveMutex, Object.moveTo, Object.view]
  · simp [State.moveMutex, Object.moveTo]

/-- What the thread can do on the queue alone it can do in the run. -/
theorem QueueAt.step {k : κ} {c : ParkingQueue.Choice} {m m' : Mem τ} {pc pc' : ParkingQueue.Pc}
    {es : List (ParkingQueue.Event τ)} (h : QueueAt s k t m pc)
    (hr : queueStep home t c m pc = some (m', pc', es)) :
    ∃ s' es', (historyMachine home μ κ).next (t, .queue k c) s = some (s', es') ∧
      QueueAt s' k t m' pc' := by
  obtain ⟨henter, rfl, rfl⟩ := h
  refine ⟨s.moveQueue k t m' pc', notesOf s t (.queue k c), ?_, ?_, ?_, ?_⟩
  · simp only [historyMachine, machine, State.step, if_pos henter, hr, Option.map_some]
  · simp only [State.mayEnter, State.moveQueue, Function.update_self]
    split <;> simp
  · simp [State.moveQueue, Object.moveTo, Object.view]
  · simp [State.moveQueue, Object.moveTo]

/-- A thread that finds a node that is not clean gets, by its own steps, to a push whose
node is not as a fresh one. -/
theorem Keeps.not_asFresh (h : Keeps home s) {move : Move μ κ} {state : U64}
    (hcall : callState s t move = some state)
    (hd : ¬ ParkingQueue.Clean state (s.node (home.addr t))) (log : List (Note τ)) :
    ∃ n s' log', (historyMachine home μ κ).run (fun _ _ _ => true) (List.replicate n (t, move))
      s log = some (s', log') ∧ ¬ AsFresh home s' := by
  cases move with
  | mutex i c =>
    obtain ⟨counter, hpc⟩ := callState_mutex.mp hcall
    have hat : MutexAt s i t ((s.mutex i).view s.node).mem (.withThreadData counter state) :=
      ⟨h.mayEnter.1 i (by rw [hpc]; rfl), rfl, hpc⟩
    obtain ⟨_, m', halone, hnode⟩ := RawMutex.resets home t c ((s.mutex i).view s.node).mem
      counter state
    obtain ⟨n, s', log', hrun, -, hmem, hpc'⟩ := halone.lift (M := historyMachine home μ κ)
      (fun s => MutexAt s i t) (fun _ _ _ _ _ _ hs hr => hs.step hr) hat log
    refine ⟨n, s', log', hrun, fun hfresh => not_freshAt hd ?_ (hfresh.mutex i t _ _ _ hpc')⟩
    exact (congrArg (fun m => m.node (home.addr t)) hmem).trans hnode
  | queue k c =>
    obtain ⟨counter, hpc⟩ := callState_queue.mp hcall
    have hat : QueueAt s k t ((s.queue k).view s.node).mem (.withThreadData counter state) :=
      ⟨h.mayEnter.2 k (by rw [hpc]; rfl), rfl, hpc⟩
    obtain ⟨_, m', halone, hnode⟩ := ParkingQueue.resets home t c ((s.queue k).view s.node).mem
      counter state
    obtain ⟨n, s', log', hrun, -, hmem, hpc'⟩ := halone.lift (M := historyMachine home μ κ)
      (fun s => QueueAt s k t) (fun _ _ _ _ _ _ hs hr => hs.step hr) hat log
    refine ⟨n, s', log', hrun, fun hfresh => not_freshAt hd ?_ (hfresh.queue k t _ _ _ hpc')⟩
    exact (congrArg (fun m => m.node (home.addr t)) hmem).trans hnode

/-! ## Reuse -/

/-- **A reused node is as good as a fresh one after the right history, and after no other.**
In every state of a run in which no thread makes an attempt after an aborted one, or on an
empty list with an earlier link in its node, and whose aborts are in time, the node of each
push agrees in all its fields with a fresh one that went through the same reset code. From
any such state, a thread whose next attempt breaks the condition gets by its own steps to a
push where they do not agree. -/
theorem node_reuse (run : Exec (historyMachine home μ κ) (readyInTime home μ κ) s log) :
    AsFresh home s ∧
      ∀ t move state, callState s t move = some state → ¬ Ready home t log state →
        ∃ n s' log', (historyMachine home μ κ).run (fun _ _ _ => true)
          (List.replicate n (t, move)) s log = some (s', log') ∧ ¬ AsFresh home s' := by
  have h := exec_history run
  refine ⟨h.keeps.asFresh, fun t move state hcall hready => ?_⟩
  exact h.keeps.not_asFresh hcall (fun hclean => hready ((h.clean_iff hcall).mp hclean)) log

end History

/-! ## Two runs -/

/-- The statics of two threads. -/
def twoHomes : Home Bool := ⟨fun t => if t = true then 16 else 8, by decide, by decide⟩

/-- `n` steps of `t` on the only queue, in which `retry` answers `answer`. -/
def queueSteps {μ : Type} (t : Bool) (n : ℕ) (answer : Bool) : List (Bool × Move μ Unit) :=
  List.replicate n (t, .queue () { retry := answer })

/-- A thread waits in a queue behind another one, which takes its own node out again and
wakes the first; that one then waits for a mutex, with the same node and no link in it. -/
theorem node_reuse_twice : ∃ (s : State Bool Unit Unit) (log : List (Note Bool)),
    log = [.linked 16 8, .aborted false, .linked 16 null] ∧
      (s.mutex ()).pc true = .push 10 lockedBit 16 ∧ AsFresh twoHomes s := by
  obtain ⟨s, log, run, hend⟩ := exists_exec_of_run (historyMachine twoHomes Unit Unit)
    (readyInTime twoHomes Unit Unit)
    (fun s log i => abortInTime s i.1 i.2 && (callState s i.1 i.2).all fun state =>
      decide (Ready twoHomes i.1 log state))
    (by
      intro s log i hcheck
      simp only [Bool.and_eq_true] at hcheck
      refine ⟨fun state hcall => ?_, hcheck.1⟩
      have htest := hcheck.2
      rw [hcall] at htest
      exact of_decide_eq_true htest)
    rfl
    (queueSteps false 18 false ++ queueSteps true 20 false ++ queueSteps false 9 true ++
      List.replicate 8 (false, .queue () { op := .unparkAll }) ++ queueSteps true 2 true ++
      List.replicate 2 (false, .mutex () {}) ++ List.replicate 17 (true, .mutex () {}))
    (fun s log => decide (log = [.linked 16 8, .aborted false, .linked 16 null]) &&
      decide ((s.mutex ()).pc true = .push 10 lockedBit 16)) (by decide +kernel)
  simp only [Bool.and_eq_true, decide_eq_true_eq] at hend
  exact ⟨s, log, hend.1, hend.2, (node_reuse run).1⟩

/-- A thread alone pushes its node, takes it out again in `abort_self`, which notifies the
node's parker, and tries once more: the notification is still there at the second push. -/
theorem node_reuse_fails :
    ¬ ∀ (s : State Bool Empty Unit) (log : List (Event Bool Empty Unit)),
      Runs (machine twoHomes Empty Unit) s log → AsFresh twoHomes s := by
  intro hall
  obtain ⟨s, log, run, hend⟩ := exists_runs_of_run (machine twoHomes Empty Unit) rfl
    (queueSteps false 18 false ++ queueSteps false 1 true ++ queueSteps false 13 false)
    (fun s _ => decide ((s.queue ()).pc false = .push 10 idle 8) && (s.node 8).parker)
    (by decide +kernel)
  simp only [Bool.and_eq_true, decide_eq_true_eq] at hend
  obtain ⟨-, hnode⟩ := (hall s log run).queue () false 10 idle 8 hend.1
  have hparker := hend.2
  rw [hnode] at hparker
  cases hparker

end Mekong.Analysis.ThreadLocal
