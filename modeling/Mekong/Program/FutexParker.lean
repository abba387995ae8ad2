import Mekong.Computation.Machine
import Mekong.Model.Parker

/-!
# The futex `ThreadParker`

A step is one atomic operation on the state word, one reading of the clock, or one step
of the kernel. The kernel's `wait` puts the owner to sleep only if the word is `PARKED`
at that moment, and may return at any time; `wake_one` wakes the owner if it sleeps.
-/

set_option autoImplicit false

namespace Mekong.Program.FutexParker

open Mekong.Computation Mekong.Model

/-- SOURCE: futex.rs:38 -/
def parked : BitVec 32 := BitVec.allOnes 32

/-- SOURCE: futex.rs:39 -/
def empty : BitVec 32 := 0

/-- SOURCE: futex.rs:40 -/
def notified : BitVec 32 := 1

/-- Where the owner is.
SOURCE: futex.rs:69-125 -/
inductive Pc
  | outside
  /-- `self.state.fetch_sub(1)`. -/
  | fetchSub (call : ParkCall)
  /-- `park_until`: `Instant::now()` and the comparison. -/
  | clock (timeout : Instant)
  /-- `park_until`: `self.state.swap(EMPTY)`. -/
  | swap (timeout : Instant)
  /-- The call of `wait` or `wait_until`. -/
  | wait (call : ParkCall)
  /-- In the kernel. -/
  | asleep (call : ParkCall)
  /-- `self.state.compare_exchange(NOTIFIED, EMPTY)`. -/
  | exchange (call : ParkCall)
  /-- The `unreachable!` arm of `park_until`. -/
  | unreachable
  deriving DecidableEq

/-- Where an unparking thread is.
SOURCE: futex.rs:134-144 -/
inductive UnparkPc
  | outside
  /-- `self.state.swap(NOTIFIED)`. -/
  | swap
  /-- `wake_one(&self.state)`. -/
  | wake
  deriving DecidableEq

/-- How the free choices of a step of the owner fall. -/
structure Choice where
  call : ParkCall := .park
  now : Instant := 0
  sleeps : Bool := true

inductive Input (τ : Type)
  | owner (c : Choice)
  | unparker (u : τ)

/-- The word, the owner and the threads that unpark it. -/
structure State (τ : Type) where
  word : BitVec 32
  owner : Pc
  unparker : τ → UnparkPc

/-- `ThreadParker::new`, with nobody inside a call.
SOURCE: futex.rs:48-54 -/
def State.new (τ : Type) : State τ := ⟨empty, .outside, fun _ => .outside⟩

/-- The head of the loop of a call.
SOURCE: futex.rs:73-74, futex.rs:103-104 -/
def loop : ParkCall → Pc
  | .park => .wait .park
  | .parkUntil timeout => .clock timeout

section Steps

variable {τ : Type}

/-- One step of the owner on the word.
SOURCE: futex.rs:69-125 -/
def ownerStep (c : Choice) (word : BitVec 32) : Pc → Option (BitVec 32 × Pc × List (ParkEvent τ))
  | .outside => some (word, .fetchSub c.call, [])
  | .fetchSub call =>
    if word = notified then some (word - 1, .outside, [.returned call true])
    else some (word - 1, loop call, [])
  | .clock timeout =>
    some (word, if timeout ≤ c.now then .swap timeout else .wait (.parkUntil timeout), [])
  | .swap timeout =>
    if word = notified then some (empty, .outside, [.returned (.parkUntil timeout) true])
    else if word = parked then some (empty, .outside, [.returned (.parkUntil timeout) false])
    else some (empty, .unreachable, [])
  | .wait call =>
    some (word, if word = parked ∧ c.sleeps = true then .asleep call else .exchange call, [])
  | .asleep call => some (word, .exchange call, [])
  | .exchange call =>
    if word = notified then some (empty, .outside, [.returned call true])
    else some (word, loop call, [])
  | .unreachable => none

/-- `wake_one` as the owner sees it. -/
def woken : Pc → Pc
  | .asleep call => .exchange call
  | pc => pc

variable [DecidableEq τ]

/-- One step of the unparking thread `u`.
SOURCE: futex.rs:134-144 -/
def unparkStep (u : τ) (s : State τ) : State τ × List (ParkEvent τ) :=
  match s.unparker u with
  | .outside => ({ s with unparker := Function.update s.unparker u .swap }, [])
  | .swap =>
    (⟨notified, s.owner, Function.update s.unparker u (if s.word = parked then .wake else .outside)⟩,
      [.unparked u])
  | .wake => (⟨s.word, woken s.owner, Function.update s.unparker u .outside⟩, [])

/-- One parker, its owner and the threads that unpark it. -/
def machine (τ : Type) [DecidableEq τ] : Machine (State τ) (Input τ) (ParkEvent τ) where
  initial s := s = State.new τ
  next
    | .owner c, s => (ownerStep c s.word s.owner).map fun r =>
      ({ s with word := r.1, owner := r.2.1 }, r.2.2)
    | .unparker u, s => some (unparkStep u s)

end Steps

end Mekong.Program.FutexParker
