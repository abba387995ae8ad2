import Mekong.Program.FutexParker
import Mekong.Program.RawMutex

/-!
# `RawMutex` on the futex parker

The mutex with the code of its parkers in the place of their contract, as on Linux. Each
node has a futex word. `park` is the code of the parker on the word of the thread's own
node, and `unpark` is two steps: the swap, and a `wake_one` that may come when the node is
gone and another one stands at its address. The kernel keeps the threads that sleep on an
address in the order in which they fell asleep, and wakes the first; a sleeper may also
return at any time.
-/

set_option autoImplicit false

namespace Mekong.Program.FutexMutex

open Mekong.Computation Mekong.Model

/-- Where a thread is. -/
inductive Pc
  /-- At any place of the mutex's own code but `park`. -/
  | raw (pc : RawMutex.Pc)
  /-- Inside `parker.park()` of its node. -/
  | parking (p : Ptr) (pc : FutexParker.Pc)
  /-- `parker.unpark()`: at `wake_one`. -/
  | wake (p : Ptr)
  deriving DecidableEq

/-- The memory of the mutex, the futex words of the nodes, and the kernel's sleepers. -/
structure Shared (τ : Type) where
  raw : Mem τ
  word : Ptr → BitVec 32
  sleepers : Ptr → List τ

/-- The choices of a step, and whether the kernel puts a waiting thread to sleep. -/
structure Choice extends RawMutex.Choice where
  sleeps : Bool := true

inductive Event (τ : Type)
  | raw (e : RawMutex.Event τ)
  /-- The swap of `unpark`. -/
  | notified (t : τ) (mode : RawMutex.Mode) (p : Ptr)
  deriving DecidableEq

section Places

/-- A call of `park` begins with the parker's `fetch_sub`. -/
def enter : RawMutex.Pc → Pc
  | .park p => .parking p (.fetchSub .park)
  | pc => .raw pc

/-- The parker's `park` returns to the mutex. -/
def leave (p : Ptr) : FutexParker.Pc → Pc
  | .outside => .raw (.readToken p)
  | pc => .parking p pc

/-- A thread that the kernel wakes. -/
def rouse : Pc → Pc
  | .parking p pc => .parking p (FutexParker.woken pc)
  | pc => pc

end Places

section Steps

variable {τ : Type} [DecidableEq τ]

abbrev State (τ : Type) := Threads τ (Shared τ) Pc

/-- A fresh mutex, with every thread outside its operations. -/
def State.new (τ : Type) : State τ :=
  ⟨⟨Mem.new τ, fun _ => FutexParker.empty, fun _ => []⟩, fun _ => .raw .outside⟩

/-- The sleepers after a step of `t` to a place of the parker. -/
def sleepersAfter (t : τ) (l : List τ) : FutexParker.Pc → List τ
  | .asleep _ => l.erase t ++ [t]
  | _ => l.erase t

/-- One step of thread `t`.
SOURCE: auxiliary.rs:117-168, auxiliary.rs:186-459, auxiliary.rs:672-675, futex.rs:72-92,
futex.rs:134-144 -/
def step (t : τ) (c : Choice) (s : State τ) : Option (State τ × List (Event τ)) :=
  match s.pc t with
  | .raw (.withThreadData counter state) =>
    -- the node and its parker are new
    (RawMutex.threadStep t { c.toChoice with leftover := ThreadData.new } s.mem.raw
      (.withThreadData counter state)).map fun r =>
      (s.moveTo t { s.mem with
        raw := r.1
        word := Function.update s.mem.word c.addr FutexParker.empty } (enter r.2.1),
        r.2.2.map .raw)
  | .raw (.unpark mode p) =>
    some (s.moveTo t { s.mem with word := Function.update s.mem.word p FutexParker.notified }
      (if s.mem.word p = FutexParker.parked then .wake p else .raw .outside),
      [.notified t mode p])
  | .raw pc =>
    (RawMutex.threadStep t c.toChoice s.mem.raw pc).map fun r =>
      (s.moveTo t { s.mem with raw := r.1 } (enter r.2.1), r.2.2.map .raw)
  | .parking p pc =>
    (FutexParker.ownerStep { sleeps := c.sleeps } (s.mem.word p) pc).map
      fun (r : BitVec 32 × FutexParker.Pc × List (ParkEvent τ)) =>
      (s.moveTo t { s.mem with
        word := Function.update s.mem.word p r.1
        sleepers := Function.update s.mem.sleepers p (sleepersAfter t (s.mem.sleepers p) r.2.1) }
        (leave p r.2.1), [])
  | .wake p =>
    match s.mem.sleepers p with
    | [] => some (s.moveTo t s.mem (.raw .outside), [])
    | u :: rest =>
      some ((s.moveTo u s.mem (rouse (s.pc u))).moveTo t
        { s.mem with sleepers := Function.update s.mem.sleepers p rest } (.raw .outside), [])

/-- The threads of one `RawMutex`. -/
def machine (τ : Type) [DecidableEq τ] : Machine (State τ) (τ × Choice) (Event τ) where
  initial s := s = State.new τ
  next i s := step i.1 i.2 s

end Steps

end Mekong.Program.FutexMutex
