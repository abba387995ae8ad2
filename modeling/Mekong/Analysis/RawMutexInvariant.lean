import Mekong.Computation.LazyQueue
import Mekong.Program.RawMutex

/-!
# The invariant of `RawMutex`

The state of a run is described by a ghost: who owns the lock, who holds the queue lock,
the queued nodes, newest first, and for every address where its node stands in its life.
`Inv s g` says that the state `s` is the one the ghost `g` describes. Every part of it
speaks about one thread's place, about one address, or about the word, so that a step of
one thread is checked against its own part and leaves the others alone.

`Owns` is the reading of ownership the properties use: a thread between its acquiring
step and its releasing one, or a dequeued thread that is being handed the lock.
-/

set_option autoImplicit false

namespace Mekong.Analysis.RawMutex

open Mekong.Computation Mekong.Model Mekong.Program.RawMutex

/-! ## Classes of places -/

/-- The places of `unlock_slow` and `unlock_slow_fair` with the queue lock. -/
def holdsQueue : Pc → Bool
  | .fairRelease | .scanTail .. | .scanNext .. | .scanPrev .. | .markHead .. | .giveUp _
  | .readPrev .. | .removeLast .. | .setNewTail .. | .unlockQueue .. => true
  | _ => false

/-- The places of `unlock_slow_fair` at which no node has been removed yet. -/
def inSlowFair : Pc → Bool
  | .fairLoad _ | .fairLock .. | .fairRelease => true
  | .scanTail mode _ _ | .scanNext mode _ _ | .scanPrev mode _ _ _ | .markHead mode _ _
  | .readPrev mode _ _ | .removeLast mode _ _ | .setNewTail mode _ _ _
  | .unlockQueue mode _ => mode = .fair
  | _ => false

/-- The places between the step by which a running thread gets the lock and the one by
which it loses it. -/
def ownsLock : Pc → Bool
  | .held | .unlock | .unlockFair | .markTimeout | .clearBits _ => true
  | pc => inSlowFair pc

/-- The places inside `unlock_fair` at which its caller still has the lock. -/
def inUnlockFair : Pc → Bool
  | .unlockFair | .markTimeout | .clearBits _ => true
  | pc => inSlowFair pc

/-- The places of `unlock_fair` after `fetch_or(TIMEOUT_BIT)`. -/
def marked : Pc → Bool
  | .clearBits bit => isTimeout bit
  | pc => inSlowFair pc

/-- The node a thread has to wake. -/
def wakes : Pc → Option (Mode × Ptr)
  | .setHandoff p => some (.fair, p)
  | .unpark mode p => some (mode, p)
  | _ => none

/-! ## The ghost -/

/-- The life of a node's address. -/
inductive Status (τ : Type)
  /-- No call of `with_thread_data` uses the address. -/
  | free
  /-- The node is its thread's own: not pushed yet, or woken and read. -/
  | inside
  /-- Pushed and not removed. -/
  | queued
  /-- Removed by `r`, which still has to wake its thread. -/
  | removed (r : τ) (mode : Mode)
  /-- A notification is stored in it. -/
  | woken (mode : Mode)
  deriving DecidableEq

/-- The node's thread is being handed the lock. -/
def Status.Handed {τ : Type} : Status τ → Prop
  | .removed _ mode => mode = .fair
  | .woken mode => mode = .fair
  | _ => False

/-- The node's thread waits for, or has, a notification. -/
def Status.Waiting {τ : Type} : Status τ → Prop
  | .queued | .removed .. | .woken _ => True
  | _ => False

/-- The token a removed node carries when its thread is woken. -/
def token : Mode → UnparkToken
  | .plain => 0
  | .fair => tokenHandoff

/-- What a run has done so far, as far as the steps to come depend on it. -/
structure Ghost (τ : Type) where
  owner : Option τ
  holder : Option τ
  queue : List Ptr
  status : Ptr → Status τ

section Invariant

variable {τ : Type}

/-- The node at `p` enters the next stage of its life. -/
def Ghost.setStatus (g : Ghost τ) (p : Ptr) (x : Status τ) : Ghost τ :=
  { g with status := Function.update g.status p x }

@[simp] theorem Ghost.setStatus_owner (g : Ghost τ) (p : Ptr) (x : Status τ) :
    (g.setStatus p x).owner = g.owner := rfl

@[simp] theorem Ghost.setStatus_holder (g : Ghost τ) (p : Ptr) (x : Status τ) :
    (g.setStatus p x).holder = g.holder := rfl

@[simp] theorem Ghost.setStatus_queue (g : Ghost τ) (p : Ptr) (x : Status τ) :
    (g.setStatus p x).queue = g.queue := rfl

@[simp] theorem Ghost.setStatus_self (g : Ghost τ) (p : Ptr) (x : Status τ) :
    (g.setStatus p x).status p = x := by simp [Ghost.setStatus]

/-- A change of one status leaves the others. -/
theorem Ghost.setStatus_of_ne (g : Ghost τ) {p q : Ptr} (x : Status τ) (h : q ≠ p) :
    (g.setStatus p x).status q = g.status q := by simp [Ghost.setStatus, h]

/-- A thread at `pc` owns the lock. -/
def Owns (m : Mem τ) (g : Ghost τ) : Pc → Prop
  | .park p => (g.status p).Handed
  | .readToken p => (m.node p).unparkToken = tokenHandoff
  | pc => ownsLock pc = true

/-- The `queue_tail` fields. -/
def tailOf (node : Ptr → ThreadData) (p : Ptr) : Ptr := (node p).queueTail

/-- The `prev` fields. -/
def prevOf (node : Ptr → ThreadData) (p : Ptr) : Ptr := (node p).prev

/-- A store to one node's `queue_tail` changes one tail. -/
theorem tailOf_modify (m : Mem τ) (p x : Ptr) :
    tailOf (m.modify p ({ · with queueTail := x })).node = Function.update (tailOf m.node) p x :=
  Mem.modify_sets ThreadData.queueTail fun _ => rfl

/-- A store to one node's `prev` changes one link back. -/
theorem prevOf_modify (m : Mem τ) (p x : Ptr) :
    prevOf (m.modify p ({ · with prev := x })).node = Function.update (prevOf m.node) p x :=
  Mem.modify_sets ThreadData.prev fun _ => rfl

/-- A store to a `queue_tail` leaves the links back. -/
theorem prevOf_modify_tail (m : Mem τ) (p x : Ptr) :
    prevOf (m.modify p ({ · with queueTail := x })).node = prevOf m.node :=
  funext (Mem.modify_keeps ThreadData.prev fun _ => rfl)

/-- A store to a `prev` leaves the tails. -/
theorem tailOf_modify_prev (m : Mem τ) (p x : Ptr) :
    tailOf (m.modify p ({ · with prev := x })).node = tailOf m.node :=
  funext (Mem.modify_keeps ThreadData.queueTail fun _ => rfl)

/-- The node at `p` belongs to the running thread `t` alone. -/
structure Inside (m : Mem τ) (g : Ghost τ) (t : τ) (p : Ptr) : Prop where
  frame : m.frame p = some t
  addr : IsNodeAddr p
  status : g.status p = .inside
  parker : (m.node p).parker = false

/-- The fields a thread has written into its node before the push, and what it knows of
the node it has to wake. -/
def NodeInv (m : Mem τ) (g : Ghost τ) (t : τ) : Pc → Prop
  | .setToken _ _ p => Inside m g t p
  | .setTail _ _ p => Inside m g t p ∧ (m.node p).unparkToken = 0
  | .setPrev _ state p => Inside m g t p ∧ (m.node p).unparkToken = 0 ∧
      (m.node p).queueTail = if queueHead state = null then p else null
  | .setNext _ state p => Inside m g t p ∧ (m.node p).unparkToken = 0 ∧
      (m.node p).queueTail = (if queueHead state = null then p else null) ∧
      (m.node p).prev = null
  | .push _ state p => Inside m g t p ∧ (m.node p).unparkToken = 0 ∧
      (m.node p).queueTail = (if queueHead state = null then p else null) ∧
      (m.node p).prev = null ∧ (queueHead state ≠ null → (m.node p).next = queueHead state)
  | .park p => m.frame p = some t ∧ IsNodeAddr p ∧ (g.status p).Waiting
  | .readToken p => Inside m g t p
  | .setHandoff p => g.status p = .removed t .fair
  | .unpark mode p => g.status p = .removed t mode ∧ (m.node p).unparkToken = token mode
  | _ => True

/-- What the local copy of the word says at a place. -/
def StateInv : Pc → Prop
  | .grab _ state => isLocked state = false
  | .withThreadData _ state | .setToken _ state _ | .setTail _ state _ | .setPrev _ state _
  | .setNext _ state _ | .push _ state _ | .giveUp state => isLocked state = true
  | .clearBits bit => bit = lockedBit ∨ bit = lockedBit ||| timeoutBit
  | .slowLock state => isQueueLocked state = false ∧ queueHead state ≠ null
  | .fairLock _ state => isQueueLocked state = false
  | .readPrev mode state _ | .removeLast mode state _ => mode = .plain → isLocked state = false
  | _ => True

/-- Where the holder of the queue lock is in the queue, and that a fair unlock finds it
nonempty. -/
def WalkInv (node : Ptr → ThreadData) (q : List Ptr) : Pc → Prop
  | .fairLoad _ | .fairLock .. => q ≠ []
  | .fairRelease => False
  | .scanTail _ state c => LazyQueue.Scanning null (tailOf node) (prevOf node) q (queueHead state) c
  | .scanNext _ state c =>
      LazyQueue.Scanning null (tailOf node) (prevOf node) q (queueHead state) c ∧
        (node c).queueTail = null
  | .scanPrev _ state c n =>
      LazyQueue.Scanning null (tailOf node) (prevOf node) q (queueHead state) c ∧
        (node c).queueTail = null ∧ n = (node c).next
  | .markHead _ state t => LazyQueue.Scanned null (tailOf node) (prevOf node) q (queueHead state) t
  | .giveUp _ => q ≠ [] ∧ LazyQueue.Settled null (tailOf node) (prevOf node) q
  | .readPrev _ state t => LazyQueue.Linked null (tailOf node) (prevOf node) q (queueHead state) t
  | .removeLast _ state t =>
      LazyQueue.Linked null (tailOf node) (prevOf node) q (queueHead state) t ∧ t = queueHead state
  | .setNewTail _ state t n =>
      LazyQueue.Linked null (tailOf node) (prevOf node) q (queueHead state) t ∧
        t ≠ queueHead state ∧ n = (node t).prev
  | .unlockQueue _ t =>
      ∃ q', q = q' ++ [t] ∧ q' ≠ [] ∧ LazyQueue.Settled null (tailOf node) (prevOf node) q'
  | _ => True

/-- What the status of an address says about its node and the threads. -/
def StatusInv (s : State τ) (g : Ghost τ) (p : Ptr) : Prop :=
  match g.status p with
  | .free => s.mem.frame p = none
  | .inside => s.mem.frame p ≠ none
  | .queued => p ∈ g.queue ∧ (s.mem.node p).parker = false ∧ (s.mem.node p).unparkToken = 0 ∧
      ∃ t, s.pc t = .park p
  | .removed r mode => (s.mem.node p).parker = false ∧ wakes (s.pc r) = some (mode, p) ∧
      ∃ t, s.pc t = .park p
  | .woken mode => (s.mem.node p).parker = true ∧ (s.mem.node p).unparkToken = token mode ∧
      ∃ t, s.pc t = .park p

/-- The state `s` is the one the ghost `g` describes. -/
structure Inv (s : State τ) (g : Ghost τ) : Prop where
  locked : isLocked s.mem.word = g.owner.isSome
  queueLocked : isQueueLocked s.mem.word = g.holder.isSome
  timeout : isTimeout s.mem.word = true → ∃ t, g.owner = some t ∧ marked (s.pc t) = true
  head : queueHead s.mem.word = g.queue.headD null
  owner : ∀ t, Owns s.mem g (s.pc t) ↔ g.owner = some t
  holder : ∀ t, holdsQueue (s.pc t) = true ↔ g.holder = some t
  nodup : g.queue.Nodup
  links : g.queue.IsChain fun x y => (s.mem.node x).next = y
  settled : g.holder = none →
    LazyQueue.Settled null (tailOf s.mem.node) (prevOf s.mem.node) g.queue
  queued : ∀ p ∈ g.queue, g.status p = .queued
  status : ∀ p, StatusInv s g p
  node : ∀ t, NodeInv s.mem g t (s.pc t)
  state : ∀ t, StateInv (s.pc t)
  walk : ∀ t, WalkInv s.mem.node g.queue (s.pc t)

end Invariant

end Mekong.Analysis.RawMutex
