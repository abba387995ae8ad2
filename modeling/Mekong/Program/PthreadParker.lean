import Mekong.Computation.Machine
import Mekong.Model.Parker

/-!
# The pthread `ThreadParker`

A step is one call of pthread, one access to `should_park` or one reading of the clock.
`pthread_mutex_lock` waits for the mutex; `pthread_cond_wait` gives it back and sleeps in
one step, returns on a signal, on its timeout or spuriously, and takes the mutex again
first. The unpark of a thread takes effect where it clears `should_park`.
-/

set_option autoImplicit false

namespace Mekong.Program.PthreadParker

open Mekong.Computation Mekong.Model

/-- Where the owner is.
SOURCE: pthread.rs:67-111 -/
inductive Pc
  | outside
  /-- `pthread_mutex_lock`. -/
  | lock (call : ParkCall)
  /-- `while self.should_park.get()`. -/
  | test (call : ParkCall)
  /-- `park_until`: `Instant::now()` and the comparison. -/
  | clock (timeout : Instant)
  /-- The call of `pthread_cond_wait` or `pthread_cond_timedwait`. -/
  | wait (call : ParkCall)
  /-- Waiting on the condition variable. -/
  | asleep (call : ParkCall)
  /-- Woken, and waiting for the mutex. -/
  | relock (call : ParkCall)
  /-- `pthread_mutex_unlock`, and the return. -/
  | unlock (call : ParkCall) (notified : Bool)
  deriving DecidableEq

/-- Where an unparking thread is.
SOURCE: pthread.rs:112-128 -/
inductive UnparkPc
  | outside
  | lock
  /-- `self.should_park.set(false)`. -/
  | set
  /-- `pthread_cond_signal`. -/
  | signal
  | unlock
  deriving DecidableEq

/-- How the free choices of a step of the owner fall. -/
structure Choice where
  call : ParkCall := .park
  now : Instant := 0

inductive Input (τ : Type)
  | owner (c : Choice)
  | unparker (u : τ)

/-- Who has the mutex. -/
inductive Holder (τ : Type)
  | owner
  | unparker (u : τ)
  deriving DecidableEq

/-- The parker, its owner and the threads that unpark it. -/
structure State (τ : Type) where
  shouldPark : Bool
  mutex : Option (Holder τ)
  owner : Pc
  unparker : τ → UnparkPc

/-- `ThreadParker::new`, with nobody inside a call.
SOURCE: pthread.rs:34-43 -/
def State.new (τ : Type) : State τ := ⟨false, none, .outside, fun _ => .outside⟩

section Steps

variable {τ : Type}

/-- One step of the owner.
SOURCE: pthread.rs:67-111 -/
def ownerStep (c : Choice) (s : State τ) : Option (State τ × List (ParkEvent τ)) :=
  match s.owner with
  | .outside => some ({ s with owner := .lock c.call }, [])
  | .lock call =>
    if s.mutex = none then some ({ s with mutex := some .owner, owner := .test call }, []) else none
  | .test call =>
    if s.shouldPark = true then
      match call with
      | .park => some ({ s with owner := .wait .park }, [])
      | .parkUntil timeout => some ({ s with owner := .clock timeout }, [])
    else some ({ s with owner := .unlock call true }, [])
  | .clock timeout =>
    if timeout ≤ c.now then some ({ s with owner := .unlock (.parkUntil timeout) false }, [])
    else some ({ s with owner := .wait (.parkUntil timeout) }, [])
  | .wait call => some ({ s with mutex := none, owner := .asleep call }, [])
  | .asleep call => some ({ s with owner := .relock call }, [])
  | .relock call =>
    if s.mutex = none then some ({ s with mutex := some .owner, owner := .test call }, []) else none
  | .unlock call notified =>
    some ({ s with mutex := none, owner := .outside }, [.returned call notified])

/-- `pthread_cond_signal` as the owner sees it. -/
def woken : Pc → Pc
  | .asleep call => .relock call
  | pc => pc

variable [DecidableEq τ]

/-- One step of the unparking thread `u`.
SOURCE: pthread.rs:112-128 -/
def unparkStep (u : τ) (s : State τ) : Option (State τ × List (ParkEvent τ)) :=
  match s.unparker u with
  | .outside => some ({ s with unparker := Function.update s.unparker u .lock }, [])
  | .lock =>
    if s.mutex = none then
      some ({ s with mutex := some (.unparker u), unparker := Function.update s.unparker u .set }, [])
    else none
  | .set =>
    some ({ s with shouldPark := false, unparker := Function.update s.unparker u .signal },
      [.unparked u])
  | .signal =>
    some ({ s with owner := woken s.owner, unparker := Function.update s.unparker u .unlock }, [])
  | .unlock =>
    some ({ s with mutex := none, unparker := Function.update s.unparker u .outside }, [])

/-- One parker, its owner and the threads that unpark it. -/
def machine (τ : Type) [DecidableEq τ] : Machine (State τ) (Input τ) (ParkEvent τ) where
  initial s := s = State.new τ
  next
    | .owner c, s => ownerStep c s
    | .unparker u, s => unparkStep u s

end Steps

end Mekong.Program.PthreadParker
