import Mekong.Program.ParkingQueue
import Mekong.Program.RawMutex

/-!
# Nodes in thread-local storage

Where a parker is costly to build, `with_thread_data` hands out the thread's static
`THREAD_DATA` as the last call left it, and the code before the push resets it. Any number
of mutexes `μ` and queues `κ` share the nodes of the threads `τ`: a thread's calls, on
whatever object, use the one node that stands at its `Home`.

A thread is inside one operation at a time and may hold several mutexes meanwhile.
-/

set_option autoImplicit false

namespace Mekong.Program.ThreadLocal

open Mekong.Computation Mekong.Model

/-- Where the threads' `THREAD_DATA` stand: one static for each thread, aligned.
SOURCE: auxiliary.rs:77-101, auxiliary.rs:693 -/
structure Home (τ : Type) where
  addr : τ → Ptr
  injective : Function.Injective addr
  isNodeAddr : ∀ t, IsNodeAddr (addr t)

/-- What the code before a push makes of the node at `p` when the word was read with the
pointer `head`.
SOURCE: auxiliary.rs:123-136, auxiliary.rs:519-532 -/
def resetNode (p head : Ptr) (td : ThreadData) : ThreadData :=
  { td with
    unparkToken := 0
    queueTail := if head = null then p else null
    prev := null
    next := if head = null then td.next else head }

section Steps

variable {τ : Type} (home : Home τ)

/-- `with_thread_data` begins: nothing is written to the node.
SOURCE: auxiliary.rs:689-699 -/
def withThreadData (t : τ) (m : Mem τ) : Mem τ :=
  m.alloc (home.addr t) t (m.node (home.addr t))

/-- One step of `t` inside a mutex. -/
def mutexStep (t : τ) (c : RawMutex.Choice) (m : Mem τ) :
    RawMutex.Pc → Option (Mem τ × RawMutex.Pc × List (RawMutex.Event τ))
  | .withThreadData counter state =>
    some (withThreadData home t m, .setToken counter state (home.addr t), [])
  | pc => RawMutex.threadStep t c m pc

/-- One step of `t` inside a queue. -/
def queueStep (t : τ) (c : ParkingQueue.Choice) (m : Mem τ) :
    ParkingQueue.Pc → Option (Mem τ × ParkingQueue.Pc × List (ParkingQueue.Event τ))
  | .withThreadData counter state =>
    some (withThreadData home t m, .setToken counter state (home.addr t), [])
  | pc => ParkingQueue.threadStep t c m pc

end Steps

/-! ## Many objects -/

/-- A mutex or a queue: its word, the nodes its unfinished calls use, and where each
thread is in it. -/
structure Object (τ π : Type) where
  word : U64
  frame : Ptr → Option τ
  pc : τ → π

section Objects

variable {τ μ κ π : Type}

/-- A fresh object with every thread at `pc`. -/
def Object.new (τ : Type) (pc : π) : Object τ π := ⟨idle, fun _ => none, fun _ => pc⟩

/-- The object with the nodes all objects share. -/
def Object.view (o : Object τ π) (node : Ptr → ThreadData) : Threads τ (Mem τ) π :=
  ⟨⟨o.word, node, o.frame⟩, o.pc⟩

/-- The object after thread `t` moved to `pc`, leaving the memory `m`. -/
def Object.moveTo [DecidableEq τ] (o : Object τ π) (t : τ) (m : Mem τ) (pc : π) : Object τ π :=
  ⟨m.word, m.frame, Function.update o.pc t pc⟩

/-- The shared nodes, the objects, and for each thread the one it is inside. -/
structure State (τ μ κ : Type) where
  node : Ptr → ThreadData
  mutex : μ → Object τ RawMutex.Pc
  queue : κ → Object τ ParkingQueue.Pc
  current : τ → Option (μ ⊕ κ)

/-- The nodes the unfinished calls of an object use. -/
def State.frame (s : State τ μ κ) : μ ⊕ κ → Ptr → Option τ
  | .inl i => (s.mutex i).frame
  | .inr k => (s.queue k).frame

/-- Fresh objects, nodes never used, and every thread outside. -/
def State.new (τ μ κ : Type) : State τ μ κ where
  node := fun _ => ThreadData.new
  mutex := fun _ => Object.new τ .outside
  queue := fun _ => Object.new τ .outside
  current := fun _ => none

/-- The next step of a thread: on which object, and how its free choices fall. -/
inductive Move (μ κ : Type)
  | mutex (i : μ) (c : RawMutex.Choice)
  | queue (k : κ) (c : ParkingQueue.Choice)

/-- What a step reports, and on which object. -/
abbrev Event (τ μ κ : Type) := (μ × RawMutex.Event τ) ⊕ (κ × ParkingQueue.Event τ)

/-- A thread at `pc` is not inside an operation of the mutex. -/
def mutexIdle (pc : RawMutex.Pc) : Bool := pc = .outside || pc = .held

/-- A thread at `pc` is not inside an operation of the queue. -/
def queueIdle (pc : ParkingQueue.Pc) : Bool := pc = .outside

variable [DecidableEq τ] [DecidableEq μ] [DecidableEq κ]

/-- Thread `t` moved to `pc` of the mutex `i`, leaving the memory `m`. -/
def State.moveMutex (s : State τ μ κ) (i : μ) (t : τ) (m : Mem τ) (pc : RawMutex.Pc) :
    State τ μ κ where
  node := m.node
  mutex := Function.update s.mutex i ((s.mutex i).moveTo t m pc)
  queue := s.queue
  current := Function.update s.current t (if mutexIdle pc = true then none else some (.inl i))

/-- Thread `t` moved to `pc` of the queue `k`, leaving the memory `m`. -/
def State.moveQueue (s : State τ μ κ) (k : κ) (t : τ) (m : Mem τ) (pc : ParkingQueue.Pc) :
    State τ μ κ where
  node := m.node
  mutex := s.mutex
  queue := Function.update s.queue k ((s.queue k).moveTo t m pc)
  current := Function.update s.current t (if queueIdle pc = true then none else some (.inr k))

/-- Thread `t` is inside no object but `o`. -/
def State.mayEnter (s : State τ μ κ) (t : τ) (o : μ ⊕ κ) : Bool :=
  s.current t = none || s.current t = some o

/-- One step of a thread on the object it is inside, or on any object if it is inside none. -/
def State.step (home : Home τ) (s : State τ μ κ) (t : τ) :
    Move μ κ → Option (State τ μ κ × List (Event τ μ κ))
  | .mutex i c =>
    if s.mayEnter t (.inl i) = true then
      (mutexStep home t c ((s.mutex i).view s.node).mem ((s.mutex i).pc t)).map fun r =>
        (s.moveMutex i t r.1 r.2.1, r.2.2.map fun e => .inl (i, e))
    else none
  | .queue k c =>
    if s.mayEnter t (.inr k) = true then
      (queueStep home t c ((s.queue k).view s.node).mem ((s.queue k).pc t)).map fun r =>
        (s.moveQueue k t r.1 r.2.1, r.2.2.map fun e => .inr (k, e))
    else none

/-- The threads of many mutexes and queues, with one node for each thread. -/
def machine (home : Home τ) (μ κ : Type) [DecidableEq μ] [DecidableEq κ] :
    Machine (State τ μ κ) (τ × Move μ κ) (Event τ μ κ) where
  initial s := s = State.new τ μ κ
  next i s := s.step home i.1 i.2

end Objects

end Mekong.Program.ThreadLocal
