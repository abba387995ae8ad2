import Mekong.Program.ParkingQueue

/-!
# `WaitGroup`: a counter and a `ParkingQueue`

`add` and `done` are one atomic operation on the counter each; the `done` that takes the
counter to zero goes on with `unpark_all`, and `wait` is `park` with the test of the
counter as `retry`. A thread inside `wait` or `unpark_all` is at a place of the queue.
-/

set_option autoImplicit false

namespace Mekong.Program.WaitGroup

open Mekong.Computation Mekong.Model

/-- The operations a thread may call; the argument of `add` is a `usize`. -/
inductive Op
  | add (n : U64)
  | done
  | wait
  deriving DecidableEq

/-- What a step does. The counter in an event is the one before the step. -/
inductive Event (τ : Type)
  | added (t : τ) (n workers : U64)
  | done (t : τ) (workers : U64)
  /-- The assertion of `done` fails. -/
  | panicked (t : τ)
  | queue (e : ParkingQueue.Event τ)
  deriving DecidableEq

/-- How the free choices of one step fall; the queue's `retry` is not free. -/
structure Choice where
  op : Op := .wait
  queue : ParkingQueue.Choice := {}

/-- The counter and the memory of the queue.
SOURCE: wait_group.rs:38-41 -/
structure Shared (τ : Type) where
  workers : U64
  queue : Mem τ

section Steps

variable {τ : Type}

/-- The closure that `wait` gives to `park`.
SOURCE: wait_group.rs:127 -/
def retry (m : Shared τ) : Bool := m.workers = 0

/-- A step of `t` inside the queue, where `retry` tests the counter. -/
def queueStep (t : τ) (c : ParkingQueue.Choice) (m : Shared τ) (pc : ParkingQueue.Pc) :
    Option (Shared τ × ParkingQueue.Pc × List (Event τ)) :=
  (ParkingQueue.threadStep t { c with retry := retry m } m.queue pc).map fun r =>
    ({ m with queue := r.1 }, r.2.1, r.2.2.map .queue)

/-- One step of thread `t` at a place.
SOURCE: wait_group.rs:100-128 -/
def threadStep (t : τ) (c : Choice) (m : Shared τ) :
    ParkingQueue.Pc → Option (Shared τ × ParkingQueue.Pc × List (Event τ))
  | .outside =>
    match c.op with
    | .add n => some ({ m with workers := m.workers + n }, .outside, [.added t n m.workers])
    | .done =>
      let m' : Shared τ := { m with workers := m.workers - 1 }
      if m.workers.toInt < 1 then some (m', .outside, [.panicked t])
      else if m.workers = 1 then
        some (m', .unparkAll 0, [.done t m.workers, .queue (.called t .unparkAll)])
      else some (m', .outside, [.done t m.workers])
    | .wait => queueStep t { c.queue with op := .park } m .outside
  | pc => queueStep t c.queue m pc

variable [DecidableEq τ]

/-- The threads and what they share. -/
abbrev State (τ : Type) := Threads τ (Shared τ) ParkingQueue.Pc

/-- SOURCE: wait_group.rs:48-53 -/
def State.withSize (τ : Type) (n : U64) : State τ := ⟨⟨n, Mem.new τ⟩, fun _ => .outside⟩

/-- The threads of one `WaitGroup` of any initial size. -/
def machine (τ : Type) [DecidableEq τ] : Machine (State τ) (τ × Choice) (Event τ) where
  initial s := ∃ n, s = State.withSize τ n
  next i s := (threadStep i.1 i.2 s.mem (s.pc i.1)).map fun r =>
    (s.moveTo i.1 r.1 r.2.1, r.2.2)

end Steps

end Mekong.Program.WaitGroup
