import Mekong.Computation.Machine
import Mekong.Model.ThreadData

/-!
# `ParkingQueue` as a machine of threads

Any number of threads `τ` call `park` and `unpark_all` of one `ParkingQueue`. As for
`RawMutex`, a step is one atomic operation on the state word, one access to a field of a
node, or one evaluation of the caller's `retry`, and `Pc` lists the places between two
steps. What a run leaves open is in `Choice`: the call made, the answer of `retry`,
whether a weak compare-exchange fails spuriously, and the node that `with_thread_data`
hands out: its address, and what a node that is kept between calls has left in it.

`abort_self` is followed through `try_lock_queue!`, which gives up when the queue is
locked, being cleared or empty, and through the search for its own node, which starts
again from the same local `state` when it does not meet the node.
-/

set_option autoImplicit false

namespace Mekong.Program.ParkingQueue

open Mekong.Computation Mekong.Model

/-- The operations a thread may call. -/
inductive Op
  | park
  | unparkAll
  deriving DecidableEq

/-- Where a thread is, and its local variables there. `counter` is the `SpinWait`,
`state` the local copy of the word, `p` the thread's own node.
SOURCE: auxiliary.rs:498-660 -/
inductive Pc
  /-- Outside the operations. -/
  | outside
  -- `park`: `retry()` at the head of the loop, and the load of the word
  | retry (counter : ℕ)
  | load (counter : ℕ)
  -- `park`: the call of `with_thread_data`, the four writes to the node, and the
  -- compare-exchange that pushes it
  | withThreadData (counter : ℕ) (state : U64)
  | setToken (counter : ℕ) (state : U64) (p : Ptr)
  | setTail (counter : ℕ) (state : U64) (p : Ptr)
  | setPrev (counter : ℕ) (state : U64) (p : Ptr)
  | setNext (counter : ℕ) (state : U64) (p : Ptr)
  | push (counter : ℕ) (state : U64) (p : Ptr)
  /-- `park`: `retry()` after the push. -/
  | retryAgain (counter : ℕ) (p : Ptr)
  /-- `park`: `parker.park()`. -/
  | park (counter : ℕ) (p : Ptr)
  -- `abort_self`: the load of the word, and the compare-exchange of `try_lock_queue!`
  | abortLoad (counter : ℕ) (p : Ptr)
  | abortLock (counter : ℕ) (p : Ptr) (state : U64)
  /-- `abort_self`: `(*curr).next.get()` of a node that is not its own. -/
  | scanNext (counter : ℕ) (p : Ptr) (state : U64) (curr : Ptr)
  /-- `abort_self`: `(*curr).next.get()` of its own node at the head. -/
  | headNext (counter : ℕ) (p : Ptr) (state : U64)
  -- `abort_self`: `(*new_queue_head).queue_tail.set((*thread_data).queue_tail.get())`
  | readTail (counter : ℕ) (p : Ptr) (state : U64) (newHead : Ptr)
  | writeTail (counter : ℕ) (p : Ptr) (state : U64) (newHead tail : Ptr)
  /-- `abort_self`: the compare-exchange that takes the head off. -/
  | headCas (counter : ℕ) (p : Ptr) (state : U64) (newHead : Ptr)
  -- `abort_self`: `(*prev).next.set((*curr).next.get())`, and the `fetch_and` after it
  | midNext (counter : ℕ) (p prev : Ptr)
  | midWrite (counter : ℕ) (p prev next : Ptr)
  | midRelease (counter : ℕ) (p : Ptr)
  /-- `abort_self`: `(*thread_data).parker.unpark()`. -/
  | unparkSelf (counter : ℕ) (p : Ptr)
  /-- `abort_self`: `fetch_and(!QUEUE_LOCKED_BIT)` at the end of the list. -/
  | lost (counter : ℕ) (p : Ptr) (state : U64)
  -- `unpark_all`: the load, and the compare-exchange that takes `QUEUE_CLEAR_BIT`
  | unparkAll (counter : ℕ)
  | cut (counter : ℕ) (state : U64)
  -- `unpark_all`: `(*queue_head).next.get()` and `(*queue_head).parker.unpark()`
  | walkNext (head : Ptr)
  | walkUnpark (head newHead : Ptr)
  -- `unpark_all`: the load after a list, and the compare-exchange that cuts the next one
  | reload
  | recut (state : U64)
  /-- `unpark_all`: `fetch_and(!QUEUE_CLEAR_BIT)`. -/
  | clear
  deriving DecidableEq

/-- What a step does that the properties of the queue speak about. -/
inductive Event (τ : Type)
  | called (t : τ) (op : Op)
  | returned (t : τ) (op : Op)
  | pushed (t : τ) (p : Ptr)
  /-- `with_thread_data` returns. -/
  | left (t : τ) (p : Ptr)
  /-- `QUEUE_LOCKED_BIT` is taken. -/
  | queueLocked (t : τ)
  /-- `QUEUE_LOCKED_BIT` is cleared. -/
  | queueUnlocked (t : τ)
  /-- The list that begins at `head` is cut off. -/
  | cut (t : τ) (head : Ptr)
  /-- `unpark_all` wakes the thread of the node `p`. -/
  | unparked (t : τ) (p : Ptr)
  /-- `QUEUE_CLEAR_BIT` is cleared. -/
  | cleared (t : τ)
  deriving DecidableEq

/-- How the free choices of one step fall; a step reads only those it has. -/
structure Choice where
  op : Op := .park
  retry : Bool := false
  spurious : Bool := false
  addr : Ptr := null
  leftover : ThreadData := ThreadData.new

/-- `n` steps of `t` in which `retry` answers `answer`. -/
def steps {τ : Type} (t : τ) (n : ℕ) (answer : Bool) : List (τ × Choice) :=
  List.replicate n (t, { retry := answer })

section Control

/-! ## Control between two accesses -/

/-- The test of `try_lock_queue!` for giving up.
SOURCE: auxiliary.rs:466-469 -/
def givesUp (state : U64) : Bool :=
  isQueueLocked state || isQueueClear state || decide (queueHead state = null)

/-- The inner loop of `abort_self`: what it does at `curr`.
SOURCE: auxiliary.rs:616-624, auxiliary.rs:655-657 -/
def visit (counter : ℕ) (p : Ptr) (state : U64) (prev curr : Ptr) : Pc :=
  if curr = null then .lost counter p state
  else if p ≠ curr then .scanNext counter p state curr
  else if prev = null then .headNext counter p state
  else .midNext counter p prev

/-- The head of the loop labelled `'outer`.
SOURCE: auxiliary.rs:612-614 -/
def outer (counter : ℕ) (p : Ptr) (state : U64) : Pc :=
  visit counter p state null (queueHead state)

/-- The head of the first loop of `unpark_all`.
SOURCE: auxiliary.rs:551-561 -/
def unparkAllLoop (counter : ℕ) (state : U64) : Pc :=
  if isQueueClear state = true then .outside
  else if isQueueLocked state = true then
    .unparkAll (if (spin counter).1 = true then (spin counter).2 else 0)
  else .cut counter state

/-- The head of the second loop of `unpark_all`, with a list that begins at `head`.
SOURCE: auxiliary.rs:577-582 -/
def afterCut (head : Ptr) : Pc := if head = null then .clear else .walkNext head

/-- The head of the loop over the nodes of a list.
SOURCE: auxiliary.rs:584 -/
def walk (head : Ptr) : Pc := if head = null then .reload else .walkNext head

end Control

section Steps

variable {τ : Type}

/-- One step of thread `t` at a place, on the shared memory.
SOURCE: auxiliary.rs:463-484, auxiliary.rs:498-660 -/
def threadStep (t : τ) (c : Choice) (m : Mem τ) : Pc → Option (Mem τ × Pc × List (Event τ))
  | .outside =>
    match c.op with
    | .park => some (m, .retry 0, [.called t .park])
    | .unparkAll => some (m, .unparkAll 0, [.called t .unparkAll])
  | .retry counter =>
    if c.retry = true then some (m, .outside, [.returned t .park])
    else if (spin counter).1 = true then some (m, .retry (spin counter).2, [])
    else some (m, .load counter, [])
  | .load counter => some (m, .withThreadData counter m.word, [])
  | .withThreadData counter state =>
    if IsNodeAddr c.addr ∧ (m.frame c.addr).isNone then
      some (m.alloc c.addr t c.leftover, .setToken counter state c.addr, [])
    else none
  | .setToken counter state p =>
    some (m.modify p ({ · with unparkToken := 0 }), .setTail counter state p, [])
  | .setTail counter state p =>
    some (m.modify p ({ · with queueTail := if queueHead state = null then p else null }),
      .setPrev counter state p, [])
  | .setPrev counter state p =>
    some (m.modify p ({ · with prev := null }),
      if queueHead state = null then .push counter state p else .setNext counter state p, [])
  | .setNext counter state p =>
    some (m.modify p ({ · with next := queueHead state }), .push counter state p, [])
  | .push counter state p =>
    match compareExchangeWeak c.spurious m.word state with
    | .ok => some (m.store (setQueueHead state p), .retryAgain counter p, [.pushed t p])
    | .err _ => some (m.free p, .retry 0, [.left t p])
  | .retryAgain counter p =>
    some (m, if c.retry = true then .abortLoad counter p else .park counter p, [])
  | .park counter p =>
    if (m.node p).parker = true then
      some ((m.modify p ({ · with parker := false })).free p, .retry counter, [.left t p])
    else none
  | .abortLoad counter p =>
    if givesUp m.word = true then some (m.free p, .retry counter, [.left t p])
    else some (m, .abortLock counter p m.word, [])
  | .abortLock counter p state =>
    match compareExchangeWeak c.spurious m.word state with
    | .ok => some (m.store (state ||| queueLockedBit), outer counter p state, [.queueLocked t])
    | .err actual =>
      if givesUp actual = true then some (m.free p, .retry counter, [.left t p])
      else some (m, .abortLock counter p actual, [])
  | .scanNext counter p state curr =>
    some (m, visit counter p state curr (m.node curr).next, [])
  | .headNext counter p state =>
    some (m, if (m.node p).next = null then .headCas counter p state (m.node p).next
      else .readTail counter p state (m.node p).next, [])
  | .readTail counter p state newHead =>
    some (m, .writeTail counter p state newHead (m.node p).queueTail, [])
  | .writeTail counter p state newHead tail =>
    some (m.modify newHead ({ · with queueTail := tail }), .headCas counter p state newHead, [])
  | .headCas counter p state newHead =>
    match compareExchangeWeak c.spurious m.word state with
    | .ok => some (m.store (setQueueHead state newHead &&& ~~~queueLockedBit),
        .unparkSelf counter p, [.queueUnlocked t])
    | .err actual => some (m, outer counter p actual, [])
  | .midNext counter p prev => some (m, .midWrite counter p prev (m.node p).next, [])
  | .midWrite counter p prev next =>
    some (m.modify prev ({ · with next := next }), .midRelease counter p, [])
  | .midRelease counter p =>
    some (m.store (m.word &&& ~~~queueLockedBit), .unparkSelf counter p, [.queueUnlocked t])
  | .unparkSelf counter p =>
    some ((m.modify p ({ · with parker := true })).free p, .retry counter, [.left t p])
  | .lost counter p state =>
    some (m.store (m.word &&& ~~~queueLockedBit), outer counter p state, [.queueUnlocked t])
  | .unparkAll counter =>
    some (m, unparkAllLoop counter m.word,
      if isQueueClear m.word = true then [.returned t .unparkAll] else [])
  | .cut counter state =>
    match compareExchangeWeak c.spurious m.word state with
    | .ok => some (m.store queueClearBit, afterCut (queueHead state),
        [.cut t (queueHead state)])
    | .err actual =>
      some (m, unparkAllLoop counter actual,
        if isQueueClear actual = true then [.returned t .unparkAll] else [])
  | .walkNext head => some (m, .walkUnpark head (m.node head).next, [])
  | .walkUnpark head newHead =>
    some (m.modify head ({ · with parker := true }), walk newHead, [.unparked t head])
  | .reload => some (m, .recut m.word, [])
  | .recut state =>
    match compareExchangeWeak c.spurious m.word state with
    | .ok => some (m.store queueClearBit, afterCut (queueHead state),
        [.cut t (queueHead state)])
    | .err actual => some (m, .recut actual, [])
  | .clear =>
    some (m.store (m.word &&& ~~~queueClearBit), .outside,
      [.cleared t, .returned t .unparkAll])

variable [DecidableEq τ]

/-- The threads and their shared memory. -/
abbrev State (τ : Type) := Threads τ (Mem τ) Pc

/-- The queue of `ParkingQueue::new`, with every thread outside its operations. -/
def State.new (τ : Type) : State τ := ⟨Mem.new τ, fun _ => .outside⟩

/-- The threads of one `ParkingQueue`. -/
def machine (τ : Type) [DecidableEq τ] : Machine (State τ) (τ × Choice) (Event τ) where
  initial s := s = State.new τ
  next i s := (threadStep i.1 i.2 s.mem (s.pc i.1)).map fun r =>
    (s.moveTo i.1 r.1 r.2.1, r.2.2)

end Steps

end Mekong.Program.ParkingQueue
