import Mekong.Computation.NextChain
import Mekong.Program.ParkingQueue

/-!
# The invariant of `ParkingQueue`

A pushed node is in one of two lists: the one that begins at the word's head, and the
part of a cut-off list that the `unpark_all` with `QUEUE_CLEAR_BIT` has not walked yet.
A node leaves the lists when its thread is notified, or when its thread takes it out
under `QUEUE_LOCKED_BIT`; the two bits exclude each other. The ghost names the two lists
and the threads with the bits, and `Inv s g` says that `g` describes the state `s`.

What a thread knows at its place is `ThreadInv`; it speaks about its own node, about the
word's list if the thread has the queue lock and about the cut list if it clears.
-/

set_option autoImplicit false

namespace Mekong.Analysis.ParkingQueue

open Mekong.Computation Mekong.Computation.NextChain Mekong.Model Mekong.Program.ParkingQueue

/-! ## Classes of places -/

/-- The node in the frame of a thread's call of `with_thread_data`. -/
def ownNode : Pc → Option Ptr
  | .setToken _ _ p | .setTail _ _ p | .setPrev _ _ p | .setNext _ _ p | .push _ _ p
  | .retryAgain _ p | .park _ p | .abortLoad _ p | .abortLock _ p _ | .scanNext _ p _ _
  | .headNext _ p _ | .readTail _ p _ _ | .writeTail _ p _ _ _ | .headCas _ p _ _
  | .midNext _ p _ | .midWrite _ p _ _ | .midRelease _ p | .unparkSelf _ p | .lost _ p _ =>
    some p
  | _ => none

/-- The node a thread has pushed and not taken out itself. -/
def linkedNode : Pc → Option Ptr
  | .retryAgain _ p | .park _ p | .abortLoad _ p | .abortLock _ p _ | .scanNext _ p _ _
  | .headNext _ p _ | .readTail _ p _ _ | .writeTail _ p _ _ _ | .headCas _ p _ _
  | .midNext _ p _ | .midWrite _ p _ _ => some p
  | _ => none

/-- The places of `abort_self` with `QUEUE_LOCKED_BIT`. -/
def holdsQueue : Pc → Bool
  | .scanNext .. | .headNext .. | .readTail .. | .writeTail .. | .headCas .. | .midNext ..
  | .midWrite .. | .midRelease .. => true
  | _ => false

/-- The places of `unpark_all` with `QUEUE_CLEAR_BIT`. -/
def holdsClear : Pc → Bool
  | .walkNext _ | .walkUnpark .. | .reload | .recut _ | .clear => true
  | _ => false

/-! ## The ghost -/

/-- Who has the two bits, and the nodes of the two lists. -/
structure Ghost (τ : Type) where
  locker : Option τ
  clearer : Option τ
  queue : List Ptr
  cut : List Ptr

/-- The `next` fields. -/
def nextOf (node : Ptr → ThreadData) (p : Ptr) : Ptr := (node p).next

section Invariant

variable {τ : Type}

/-- A store to one node's `next` changes one link. -/
theorem nextOf_modify (m : Mem τ) (p x : Ptr) :
    nextOf (m.modify p ({ · with next := x })).node = Function.update (nextOf m.node) p x :=
  Mem.modify_sets ThreadData.next fun _ => rfl

/-- The node at `p` is in one of the lists. -/
def Ghost.Linked (g : Ghost τ) (p : Ptr) : Prop := p ∈ g.queue ∨ p ∈ g.cut

/-- The node at `p` stands in the frame of a call of `t`. -/
structure Framed (m : Mem τ) (t : τ) (p : Ptr) : Prop where
  frame : m.frame p = some t
  addr : IsNodeAddr p

/-- A node before its push. -/
structure Unpushed (m : Mem τ) (t : τ) (p : Ptr) : Prop extends Framed m t p where
  parker : (m.node p).parker = false

/-- A pushed node that its thread has not taken out. -/
structure Pushed (m : Mem τ) (g : Ghost τ) (t : τ) (p : Ptr) : Prop extends Framed m t p where
  linked : g.Linked p ∨ (m.node p).parker = true

/-- What thread `t` knows at its place. -/
def ThreadInv (m : Mem τ) (g : Ghost τ) (t : τ) : Pc → Prop
  | .setToken _ state p | .setTail _ state p | .setPrev _ state p =>
      Unpushed m t p ∧ (queueHead state = null → (m.node p).next = null)
  | .setNext _ _ p => Unpushed m t p
  | .push _ state p => Unpushed m t p ∧ (m.node p).next = queueHead state
  | .retryAgain _ p | .park _ p | .abortLoad _ p => Pushed m g t p
  | .abortLock _ p state => Pushed m g t p ∧ givesUp state = false
  | .scanNext _ p state curr => Framed m t p ∧
      ∃ prev rest, Walk null g.queue (queueHead state) prev (curr :: rest) ∧ p ∈ rest
  | .headNext _ p state => Framed m t p ∧ p ∈ g.queue ∧ p = queueHead state
  | .readTail _ p state newHead | .writeTail _ p state newHead _ =>
      Framed m t p ∧ p ∈ g.queue ∧ p = queueHead state ∧ newHead = (m.node p).next ∧
        newHead ∈ g.queue
  | .headCas _ p state newHead =>
      Framed m t p ∧ p ∈ g.queue ∧ p = queueHead state ∧ newHead = (m.node p).next
  | .midNext _ p prev => Framed m t p ∧ ∃ u v, g.queue = u ++ prev :: p :: v
  | .midWrite _ p prev next => Framed m t p ∧ (∃ u v, g.queue = u ++ prev :: p :: v) ∧
      next = (m.node p).next
  | .midRelease _ p | .unparkSelf _ p => Framed m t p
  | .lost .. => False
  | .cut _ state => isQueueClear state = false ∧ isQueueLocked state = false
  | .walkNext head => head ≠ null ∧ Chain null (nextOf m.node) head g.cut
  | .walkUnpark head newHead => head ≠ null ∧ Chain null (nextOf m.node) head g.cut ∧
      newHead = (m.node head).next
  | .reload | .recut _ | .clear => g.cut = []
  | _ => True

/-- The state `s` is the one the ghost `g` describes. -/
structure Inv (s : State τ) (g : Ghost τ) : Prop where
  queueLocked : isQueueLocked s.mem.word = g.locker.isSome
  queueClear : isQueueClear s.mem.word = g.clearer.isSome
  exclusive : g.locker = none ∨ g.clearer = none
  chain : Chain null (nextOf s.mem.node) (queueHead s.mem.word) g.queue
  uncut : g.clearer = none → g.cut = []
  nodup : (g.queue ++ g.cut).Nodup
  locker : ∀ t, holdsQueue (s.pc t) = true ↔ g.locker = some t
  clearer : ∀ t, holdsClear (s.pc t) = true ↔ g.clearer = some t
  linked : ∀ p, g.Linked p → (s.mem.node p).parker = false ∧ ∃ t, linkedNode (s.pc t) = some p
  thread : ∀ t, ThreadInv s.mem g t (s.pc t)

/-- The events that say that a list or its owner changes. -/
def movesList : Event τ → Bool
  | .pushed .. | .cut .. | .unparked .. | .cleared _ => true
  | _ => false

/-- What a step of `t` at `pc` does to the lists, and what it reports of it. -/
inductive Effect (t : τ) (pc : Pc) (g g' : Ghost τ) : List (Event τ) → Prop
  | quiet {es : List (Event τ)} (hclearer : g'.clearer = g.clearer) (hq : g'.queue = g.queue)
      (hc : g'.cut = g.cut) (hes : es.all (!movesList ·) = true) : Effect t pc g g' es
  | pushed {p : Ptr} (hp : ownNode pc = some p) (hclearer : g'.clearer = g.clearer)
      (hq : g'.queue = p :: g.queue) (hc : g'.cut = g.cut) : Effect t pc g g' [.pushed t p]
  | cut {head : Ptr} (hbefore : g.clearer = none ∨ g.clearer = some t)
      (hclearer : g'.clearer = some t) (hcut : g.cut = []) (hq : g'.queue = [])
      (hc : g'.cut = g.queue) : Effect t pc g g' [.cut t head]
  | unparked {p : Ptr} (hbefore : g.clearer = some t) (hclearer : g'.clearer = g.clearer)
      (hq : g'.queue = g.queue) (hc : g.cut = p :: g'.cut) : Effect t pc g g' [.unparked t p]
  | cleared (hbefore : g.clearer = some t) (hclearer : g'.clearer = none) (hcut : g.cut = [])
      (hq : g'.queue = g.queue) (hc : g'.cut = g.cut) :
      Effect t pc g g' [.cleared t, .returned t .unparkAll]
  | removed {p : Ptr} {es : List (Event τ)} (hp : linkedNode pc = some p)
      (hlock : holdsQueue pc = true) (hclearer : g'.clearer = g.clearer)
      (hq : g'.queue = g.queue.erase p) (hc : g'.cut = g.cut)
      (hes : es.all (!movesList ·) = true) : Effect t pc g g' es

end Invariant

end Mekong.Analysis.ParkingQueue
