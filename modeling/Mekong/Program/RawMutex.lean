import Mekong.Computation.Machine
import Mekong.Model.ThreadData

/-!
# `RawMutex` as a machine of threads

Any number of threads `τ` call `lock`, `try_lock`, `unlock` and `unlock_fair` of one
`RawMutex`, and `Mutex::is_locked`, which is `try_lock` followed by `unlock`. A step of
a thread is one atomic operation on the state word or one access to a field of a node,
with the local computation up to the next such access; `Pc` lists the places between
two steps, with the local variables that are still needed there. Calls are steps too:
a thread that holds the lock may call `unlock` or `unlock_fair`, one that does not may
call the rest.

What a run leaves open is in `Choice`: the call made, whether a weak compare-exchange
fails spuriously, what `is_timeout` answers, and which node `with_thread_data` hands
out. That node stands at any address no call is using, and its fields hold anything
except a notification: `ThreadData::new()` on the platforms that build a node per call,
what the thread's previous call left there on those that keep one per thread.
-/

set_option autoImplicit false

namespace Mekong.Program.RawMutex

open Mekong.Computation Mekong.Model

/-- The operations a thread may call. -/
inductive Op
  | lock
  | tryLock
  | isLocked
  | unlock
  | unlockFair
  deriving DecidableEq

/-- Which of `unlock_slow` and `unlock_slow_fair` walks the queue. -/
inductive Mode
  | plain
  | fair
  deriving DecidableEq

/-- Where a thread is, and its local variables there. `counter` is the `SpinWait`,
`state` the local copy of the word, `p` the thread's own node.
SOURCE: auxiliary.rs:117-168, auxiliary.rs:186-459 -/
inductive Pc
  /-- Outside the operations, without the lock. -/
  | outside
  /-- Outside the operations, with the lock. -/
  | held
  -- the compare-exchanges of `try_lock`, of the `try_lock` in `is_locked`, and of `lock`
  | tryLock
  | isLocked
  | lock
  -- `lock_slow`: the load of the word, and the compare-exchange that takes a free lock
  | load (counter : ℕ)
  | grab (counter : ℕ) (state : U64)
  -- `park!`: the call of `with_thread_data`, the four writes to the node, and the
  -- compare-exchange that pushes it
  | withThreadData (counter : ℕ) (state : U64)
  | setToken (counter : ℕ) (state : U64) (p : Ptr)
  | setTail (counter : ℕ) (state : U64) (p : Ptr)
  | setPrev (counter : ℕ) (state : U64) (p : Ptr)
  | setNext (counter : ℕ) (state : U64) (p : Ptr)
  | push (counter : ℕ) (state : U64) (p : Ptr)
  /-- `park!`: `parker.park()`. -/
  | park (p : Ptr)
  /-- `park!`: `unpark_token.get()`, and the return of `with_thread_data`. -/
  | readToken (p : Ptr)
  /-- `unlock`: `fetch_sub(LOCKED_BIT)`. -/
  | unlock
  -- `unlock_fair`: `is_timeout()`, `fetch_or(TIMEOUT_BIT)` and `fetch_and(!bit)`
  | unlockFair
  | markTimeout
  | clearBits (bit : U64)
  -- `unlock_slow`: the load, and the compare-exchange that takes the queue lock
  | slowLoad
  | slowLock (state : U64)
  -- `unlock_slow_fair`: the same
  | fairLoad (counter : ℕ)
  | fairLock (counter : ℕ) (state : U64)
  /-- `unlock_slow_fair`: `fetch_and(QUEUE_MASK)` when the queue is empty. -/
  | fairRelease
  -- `link_prev_nodes!`: the reads of `queue_tail` and `next`, and the write of `prev`
  | scanTail (mode : Mode) (state : U64) (current : Ptr)
  | scanNext (mode : Mode) (state : U64) (current : Ptr)
  | scanPrev (mode : Mode) (state : U64) (current next : Ptr)
  /-- `(*queue_head).queue_tail.set(queue_tail)`. -/
  | markHead (mode : Mode) (state : U64) (queueTail : Ptr)
  /-- `unlock_slow`: the compare-exchange that gives up while the lock is taken. -/
  | giveUp (state : U64)
  /-- `new_tail = (*queue_tail).prev.get()`. -/
  | readPrev (mode : Mode) (state : U64) (queueTail : Ptr)
  /-- The compare-exchange that removes the only node. -/
  | removeLast (mode : Mode) (state : U64) (queueTail : Ptr)
  /-- `(*queue_head).queue_tail.set(new_tail)`. -/
  | setNewTail (mode : Mode) (state : U64) (queueTail newTail : Ptr)
  /-- The `fetch_and` that gives the queue lock back after a removal. -/
  | unlockQueue (mode : Mode) (queueTail : Ptr)
  /-- `unlock_slow_fair`: `(*queue_tail).unpark_token.set(TOKEN_HANDOFF)`. -/
  | setHandoff (queueTail : Ptr)
  /-- `(*queue_tail).parker.unpark()`. -/
  | unpark (mode : Mode) (queueTail : Ptr)
  deriving DecidableEq

/-- The atomic steps that clear `LOCKED_BIT` of the lock's owner. -/
inductive ReleaseSite
  | unlock
  | unlockFair
  | unlockSlowFair
  deriving DecidableEq

/-- What a step does that the properties of the mutex speak about. A word in an event is
the one its atomic step produced. -/
inductive Event (τ : Type)
  | called (t : τ) (op : Op)
  /-- `lock` or `try_lock` returns with the lock. -/
  | acquired (t : τ)
  | released (t : τ) (site : ReleaseSite) (word : U64)
  | pushed (t : τ) (p : Ptr)
  | removed (t : τ) (mode : Mode) (p : Ptr) (word : U64)
  /-- `TOKEN_HANDOFF` is stored in the node. -/
  | handedOff (t : τ) (p : Ptr)
  | unparked (t : τ) (mode : Mode) (p : Ptr)
  /-- `unlock_slow_fair` is called. -/
  | enteredSlowFair (t : τ)
  /-- `unlock_slow_fair` returns. -/
  | leftSlowFair (t : τ)
  deriving DecidableEq

/-- How the free choices of one step fall; a step reads only those it has. -/
structure Choice where
  op : Op := .lock
  spurious : Bool := false
  timeout : Bool := false
  addr : Ptr := null
  leftover : ThreadData := ThreadData.new

/-- `n` steps of `t` in which no compare-exchange fails spuriously. -/
def steps {τ : Type} (t : τ) (n : ℕ) : List (τ × Choice) := List.replicate n (t, {})

section Control

/-! ## Control between two accesses -/

/-- The head of the loop of `lock_slow`.
SOURCE: auxiliary.rs:238-260 -/
def lockSlow (counter : ℕ) (state : U64) : Pc :=
  if isLocked state = false then .grab counter state
  else if queueHead state = null ∧ (spin counter).1 = true then .load (spin counter).2
  else .withThreadData counter state

/-- The head of the first loop of `unlock_slow`.
SOURCE: auxiliary.rs:275-281 -/
def unlockSlow (state : U64) : Pc :=
  if isQueueLocked state = true ∨ queueHead state = null then .outside else .slowLock state

/-- The head of the first loop of `unlock_slow_fair`.
SOURCE: auxiliary.rs:377-384 -/
def unlockSlowFair (counter : ℕ) (state : U64) : Pc :=
  if isQueueLocked state = true then
    .fairLoad (if (spin counter).1 = true then (spin counter).2 else 0)
  else .fairLock counter state

/-- The head of the loops labelled `'outer`: start to link the nodes below the head.
SOURCE: auxiliary.rs:296-303, auxiliary.rs:400-407 -/
def outer (mode : Mode) (state : U64) : Pc := .scanTail mode state (queueHead state)

/-- After the head is marked: give up while the lock is taken, else take the last node.
SOURCE: auxiliary.rs:314-331, auxiliary.rs:415-416 -/
def afterMark (mode : Mode) (state : U64) (queueTail : Ptr) : Pc :=
  if mode = .plain ∧ isLocked state = true then .giveUp state
  else .readPrev mode state queueTail

/-- After the removal of the only node failed.
SOURCE: auxiliary.rs:344-353, auxiliary.rs:429-438 -/
def retryRemove (mode : Mode) (state : U64) (queueTail : Ptr) : Pc :=
  if queueHead state = null then .removeLast mode state queueTail else outer mode state

/-- Wake the removed thread: `unlock_slow_fair` stores the token first.
SOURCE: auxiliary.rs:366-369, auxiliary.rs:452-456 -/
def wake (mode : Mode) (queueTail : Ptr) : Pc :=
  match mode with
  | .plain => .unpark .plain queueTail
  | .fair => .setHandoff queueTail

/-- The word with which the removal of the only node replaces `state`.
SOURCE: auxiliary.rs:334-339, auxiliary.rs:419-424 -/
def removedWord (mode : Mode) (state : U64) : U64 :=
  match mode with
  | .plain => state &&& (lockedBit ||| timeoutBit)
  | .fair => state &&& lockedBit

/-- The bits cleared when the queue lock is given back after a removal.
SOURCE: auxiliary.rs:359, auxiliary.rs:444-445 -/
def unlockQueueMask (mode : Mode) : U64 :=
  match mode with
  | .plain => ~~~queueLockedBit
  | .fair => ~~~(queueLockedBit ||| timeoutBit)

end Control

section Steps

variable {τ : Type}

/-- One step of thread `t` at a place, on the shared memory.
SOURCE: auxiliary.rs:117-168, auxiliary.rs:186-459, mutex.rs:98-104 -/
def threadStep (t : τ) (c : Choice) (m : Mem τ) : Pc → Option (Mem τ × Pc × List (Event τ))
  | .outside =>
    match c.op with
    | .lock => some (m, .lock, [.called t .lock])
    | .tryLock => some (m, .tryLock, [.called t .tryLock])
    | .isLocked => some (m, .isLocked, [.called t .isLocked])
    | _ => none
  | .held =>
    match c.op with
    | .unlock => some (m, .unlock, [.called t .unlock])
    | .unlockFair => some (m, .unlockFair, [.called t .unlockFair])
    | _ => none
  | .tryLock =>
    match compareExchangeWeak c.spurious m.word idle with
    | .ok => some (m.store lockedBit, .held, [.acquired t])
    | .err _ => some (m, .outside, [])
  | .isLocked =>
    match compareExchangeWeak c.spurious m.word idle with
    | .ok => some (m.store lockedBit, .unlock, [.acquired t, .called t .unlock])
    | .err _ => some (m, .outside, [])
  | .lock =>
    match compareExchangeWeak c.spurious m.word idle with
    | .ok => some (m.store lockedBit, .held, [.acquired t])
    | .err _ => some (m, .load 0, [])
  | .load counter => some (m, lockSlow counter m.word, [])
  | .grab counter state =>
    match compareExchangeWeak c.spurious m.word state with
    | .ok => some (m.store (state ||| lockedBit), .held, [.acquired t])
    | .err actual => some (m, lockSlow counter actual, [])
  | .withThreadData counter state =>
    if IsNodeAddr c.addr ∧ (m.frame c.addr).isNone ∧ c.leftover.parker = false then
      some (m.alloc c.addr t c.leftover, .setToken counter state c.addr, [])
    else none
  | .setToken counter state p =>
    some (m.modify p ({ · with unparkToken := 0 }), .setTail counter state p, [])
  | .setTail counter state p =>
    some (m.modify p ({ · with queueTail := if queueHead state = null then p else null }),
      .setPrev counter state p, [])
  | .setPrev counter state p =>
    some (m.modify p ({ · with prev := null }),
      if queueHead state = null then .push counter state p else .setNext counter state p, [])
  | .setNext counter state p =>
    some (m.modify p ({ · with next := queueHead state }), .push counter state p, [])
  | .push counter state p =>
    match compareExchangeWeak c.spurious m.word state with
    | .ok => some (m.store (setQueueHead state p), .park p, [.pushed t p])
    | .err actual => some (m.free p, lockSlow counter actual, [])
  | .park p =>
    if (m.node p).parker = true then
      some (m.modify p ({ · with parker := false }), .readToken p, [])
    else none
  | .readToken p =>
    if (m.node p).unparkToken = tokenHandoff then some (m.free p, .held, [.acquired t])
    else some (m.free p, .load 0, [])
  | .unlock =>
    some (m.store (m.word - lockedBit),
      if isQueueLocked m.word = true ∨ queueHead m.word = null then .outside else .slowLoad,
      [.released t .unlock (m.word - lockedBit)])
  | .unlockFair =>
    some (m, if c.timeout = true then .markTimeout else .clearBits lockedBit, [])
  | .markTimeout =>
    if queueHead m.word ≠ null then
      some (m.store (m.word ||| timeoutBit), .fairLoad 0, [.enteredSlowFair t])
    else some (m.store (m.word ||| timeoutBit), .clearBits (lockedBit ||| timeoutBit), [])
  | .clearBits bit =>
    some (m.store (m.word &&& ~~~bit),
      if isQueueLocked m.word = true ∨ queueHead m.word = null then .outside else .slowLoad,
      [.released t .unlockFair (m.word &&& ~~~bit)])
  | .slowLoad => some (m, unlockSlow m.word, [])
  | .slowLock state =>
    match compareExchangeWeak c.spurious m.word state with
    | .ok => some (m.store (state ||| queueLockedBit), outer .plain state, [])
    | .err actual => some (m, unlockSlow actual, [])
  | .fairLoad counter => some (m, unlockSlowFair counter m.word, [])
  | .fairLock counter state =>
    match compareExchangeWeak c.spurious m.word state with
    | .ok => some (m.store (state ||| queueLockedBit),
        if queueHead state = null then .fairRelease else outer .fair state, [])
    | .err actual => some (m, unlockSlowFair counter actual, [])
  | .fairRelease =>
    some (m.store (m.word &&& queueMask), .outside,
      [.released t .unlockSlowFair (m.word &&& queueMask), .leftSlowFair t])
  | .scanTail mode state current =>
    if (m.node current).queueTail = null then some (m, .scanNext mode state current, [])
    else some (m, .markHead mode state (m.node current).queueTail, [])
  | .scanNext mode state current =>
    some (m, .scanPrev mode state current (m.node current).next, [])
  | .scanPrev mode state current next =>
    some (m.modify next ({ · with prev := current }), .scanTail mode state next, [])
  | .markHead mode state queueTail =>
    some (m.modify (queueHead state) ({ · with queueTail := queueTail }),
      afterMark mode state queueTail, [])
  | .giveUp state =>
    match compareExchangeWeak c.spurious m.word state with
    | .ok => some (m.store (state &&& ~~~queueLockedBit), .outside, [])
    | .err actual => some (m, outer .plain actual, [])
  | .readPrev mode state queueTail =>
    if (m.node queueTail).prev = null then some (m, .removeLast mode state queueTail, [])
    else some (m, .setNewTail mode state queueTail (m.node queueTail).prev, [])
  | .removeLast mode state queueTail =>
    match compareExchangeWeak c.spurious m.word state with
    | .ok => some (m.store (removedWord mode state), wake mode queueTail,
        [.removed t mode queueTail (removedWord mode state)])
    | .err actual => some (m, retryRemove mode actual queueTail, [])
  | .setNewTail mode state queueTail newTail =>
    some (m.modify (queueHead state) ({ · with queueTail := newTail }),
      .unlockQueue mode queueTail, [])
  | .unlockQueue mode queueTail =>
    some (m.store (m.word &&& unlockQueueMask mode), wake mode queueTail,
      [.removed t mode queueTail (m.word &&& unlockQueueMask mode)])
  | .setHandoff queueTail =>
    some (m.modify queueTail ({ · with unparkToken := tokenHandoff }), .unpark .fair queueTail,
      [.handedOff t queueTail])
  | .unpark mode queueTail =>
    some (m.modify queueTail ({ · with parker := true }), .outside,
      match mode with
      | .plain => [.unparked t .plain queueTail]
      | .fair => [.unparked t .fair queueTail, .leftSlowFair t])

variable [DecidableEq τ]

/-- The threads and their shared memory. -/
abbrev State (τ : Type) := Threads τ (Mem τ) Pc

/-- The mutex of `RawMutex::new`, with every thread outside its operations. -/
def State.new (τ : Type) : State τ := ⟨Mem.new τ, fun _ => .outside⟩

/-- The threads of one `RawMutex`. -/
def machine (τ : Type) [DecidableEq τ] : Machine (State τ) (τ × Choice) (Event τ) where
  initial s := s = State.new τ
  next i s := (threadStep i.1 i.2 s.mem (s.pc i.1)).map fun r =>
    (s.moveTo i.1 r.1 r.2.1, r.2.2)

end Steps

end Mekong.Program.RawMutex
