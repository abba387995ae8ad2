import Mekong.Computation.Machine
import Mekong.Model.Parker

/-!
# The semaphore `ThreadParker`

A step is one atomic operation on the state, one operation on the counting semaphore, or
one reading of the clock. A wait on the semaphore takes one off a positive count, or
blocks, or returns without it: that is what a timed wait does when its time is up, and
what the loops around the other waits guard against.
-/

set_option autoImplicit false

namespace Mekong.Program.SemaphoreParker

open Mekong.Computation Mekong.Model

/-- SOURCE: semaphore.rs:42 -/
def empty : BitVec 8 := 0

/-- SOURCE: semaphore.rs:43 -/
def notified : BitVec 8 := 1

/-- SOURCE: semaphore.rs:44 -/
def parked : BitVec 8 := -1

/-- Where the owner is.
SOURCE: semaphore.rs:66-123 -/
inductive Pc
  | outside
  /-- `self.state.fetch_sub(1)`. -/
  | fetchSub (call : ParkCall)
  /-- `park`: the wait in the condition of the loop. -/
  | wait
  /-- `park`: `self.state.swap(EMPTY)`. -/
  | swap
  /-- `park_until`: `Instant::now()` and the comparison. -/
  | clock (timeout : Instant)
  /-- `park_until`: the timed wait. -/
  | timedWait (timeout : Instant)
  /-- `park_until`: `self.state.swap(EMPTY)`. -/
  | swapUntil (timeout : Instant) (isTimeout : Bool)
  /-- `park_until`: the wait for the signal that is about to come. -/
  | waitSignal (timeout : Instant)
  deriving DecidableEq

/-- Where an unparking thread is.
SOURCE: semaphore.rs:126-133 -/
inductive UnparkPc
  | outside
  /-- `self.state.swap(NOTIFIED)`. -/
  | swap
  /-- `dispatch_semaphore_signal`. -/
  | signal
  deriving DecidableEq

/-- What a step reports. -/
inductive Event (τ : Type)
  | parker (e : ParkEvent τ)
  /-- The owner's atomic operation takes `NOTIFIED` away. -/
  | consumed
  /-- `Instant::now()` answers `now`. -/
  | read (now : Instant)
  deriving DecidableEq

/-- How the free choices of a step of the owner fall. -/
structure Choice where
  call : ParkCall := .park
  now : Instant := 0
  /-- A wait returns without taking one off the count. -/
  expires : Bool := false

inductive Input (τ : Type)
  | owner (c : Choice)
  | unparker (u : τ)

/-- The state, the count of the semaphore, the owner and the threads that unpark it. -/
structure State (τ : Type) where
  state : BitVec 8
  count : ℕ
  owner : Pc
  unparker : τ → UnparkPc

/-- `ThreadParker::new`, with nobody inside a call.
SOURCE: semaphore.rs:54-64 -/
def State.new (τ : Type) : State τ := ⟨empty, 0, .outside, fun _ => .outside⟩

/-- `dispatch_semaphore_wait`: the count it leaves, and whether it answers non-zero;
`none` while it blocks. -/
def dispatchSemaphoreWait (expires : Bool) (count : ℕ) : Option (ℕ × Bool) :=
  if expires = true then some (count, true)
  else if 0 < count then some (count - 1, false)
  else none

/-- What follows the `fetch_sub` that did not find `NOTIFIED`. -/
def afterFetchSub : ParkCall → Pc
  | .park => .wait
  | .parkUntil timeout => .clock timeout

section Steps

variable {τ : Type}

/-- The event of an atomic operation that takes the state away. -/
def takes (state : BitVec 8) : List (Event τ) := if state = notified then [.consumed] else []

/-- One step of the owner on the state and the semaphore.
SOURCE: semaphore.rs:66-123 -/
def ownerStep (c : Choice) (state : BitVec 8) (count : ℕ) :
    Pc → Option (BitVec 8 × ℕ × Pc × List (Event τ))
  | .outside => some (state, count, .fetchSub c.call, [])
  | .fetchSub call =>
    if state = notified then
      some (state - 1, count, .outside, takes state ++ [.parker (.returned call true)])
    else some (state - 1, count, afterFetchSub call, [])
  | .wait => (dispatchSemaphoreWait c.expires count).map fun r =>
    (state, r.1, if r.2 = true then .wait else .swap, [])
  | .swap => some (empty, count, .outside, takes state ++ [.parker (.returned .park true)])
  | .clock timeout =>
    if timeout ≤ c.now then
      some (state, count, .outside, [.read c.now, .parker (.returned (.parkUntil timeout) false)])
    else some (state, count, .timedWait timeout, [.read c.now])
  | .timedWait timeout => (dispatchSemaphoreWait c.expires count).map fun r =>
    (state, r.1, .swapUntil timeout r.2, [])
  | .swapUntil timeout isTimeout =>
    some (empty, count,
      if state = notified ∧ isTimeout = true then .waitSignal timeout else .clock timeout,
      takes state)
  | .waitSignal timeout => (dispatchSemaphoreWait c.expires count).map fun r =>
    if r.2 = true then (state, r.1, .waitSignal timeout, [])
    else (state, r.1, .outside, [.parker (.returned (.parkUntil timeout) true)])

variable [DecidableEq τ]

/-- One step of the unparking thread `u`.
SOURCE: semaphore.rs:126-133 -/
def unparkStep (u : τ) (s : State τ) : State τ × List (Event τ) :=
  match s.unparker u with
  | .outside => ({ s with unparker := Function.update s.unparker u .swap }, [])
  | .swap =>
    ({ s with
        state := notified
        unparker := Function.update s.unparker u (if s.state = parked then .signal else .outside) },
      [.parker (.unparked u)])
  | .signal =>
    ({ s with count := s.count + 1, unparker := Function.update s.unparker u .outside }, [])

/-- One parker, its owner and the threads that unpark it. -/
def machine (τ : Type) [DecidableEq τ] : Machine (State τ) (Input τ) (Event τ) where
  initial s := s = State.new τ
  next
    | .owner c, s => (ownerStep c s.state s.count s.owner).map fun r =>
      ({ s with state := r.1, count := r.2.1, owner := r.2.2.1 }, r.2.2.2)
    | .unparker u, s => some (unparkStep u s)

end Steps

end Mekong.Program.SemaphoreParker
