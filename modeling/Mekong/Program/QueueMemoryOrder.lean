import Mekong.Program.MemoryOrder
import Mekong.Program.ParkingQueue

/-!
# The memory accesses of a `ParkingQueue`, with their orderings

The threads of one `ParkingQueue`, with what each step does to the cells of the nodes, to
the state word and to the parkers, as for `RawMutex`. What `retry` does to memory is its
caller's. A node is new, or handed out again as its thread left it.
-/

set_option autoImplicit false

namespace Mekong.Program.QueueMemoryOrder

open Mekong.Computation Mekong.Computation.HappensBefore Mekong.Model Mekong.Program.ParkingQueue
open Mekong.Program.MemoryOrder (Loc Obj Objects acquireWord releaseWord accessCell onCas)

/-- The place at which `with_thread_data` is called. -/
def begins : Pc → Bool
  | .withThreadData .. => true
  | _ => false

/-- What a step does to memory.
SOURCE: auxiliary.rs:463-484, auxiliary.rs:498-660, futex.rs:72-92, futex.rs:134-144 -/
def actions (life : Ptr → ℕ) (c : Choice) (word : U64) : Pc → List (Action Obj Loc)
  | .setToken _ _ p => accessCell life p .unparkToken true
  | .setTail _ _ p => accessCell life p .queueTail true
  | .setPrev _ _ p => accessCell life p .prev true
  | .setNext _ _ p => accessCell life p .next true
  | .push _ state _ => onCas c.spurious word state [.sync .word true true] []
  | .park _ p => [.sync (.parker p (life p)) true false]
  | .abortLock _ _ state => onCas c.spurious word state acquireWord []
  | .scanNext _ _ _ curr => accessCell life curr .next false
  | .headNext _ p _ => accessCell life p .next false
  | .readTail _ p _ _ => accessCell life p .queueTail false
  | .writeTail _ _ _ newHead _ => accessCell life newHead .queueTail true
  | .headCas _ _ state _ => onCas c.spurious word state releaseWord acquireWord
  | .midNext _ p _ => accessCell life p .next false
  | .midWrite _ _ prev _ => accessCell life prev .next true
  | .midRelease .. => releaseWord
  | .unparkSelf _ p => [.sync (.parker p (life p)) false true]
  | .lost .. => releaseWord
  | .cut _ state => onCas c.spurious word state acquireWord []
  | .walkNext head => accessCell life head .next false
  | .walkUnpark head _ => [.sync (.parker head (life head)) false true]
  | .recut state => onCas c.spurious word state acquireWord []
  | .clear => releaseWord
  | .outside | .retry _ | .load _ | .withThreadData .. | .retryAgain .. | .abortLoad ..
  | .unparkAll _ | .reload => []

/-- The queue, and its nodes as objects. -/
structure State (τ : Type) extends Objects τ where
  queue : ParkingQueue.State τ

/-- A fresh queue. -/
def State.new (τ : Type) : State τ := ⟨Objects.new τ, ParkingQueue.State.new τ⟩

section Steps

variable {τ : Type} [DecidableEq τ]

/-- What `with_thread_data` hands out at `p`.
SOURCE: auxiliary.rs:671-699 -/
def handedOut (s : State τ) (p : Ptr) (fresh : Bool) : ThreadData :=
  if fresh = true then ThreadData.new else s.queue.mem.node p

/-- A step by `t`, whose new node is `fresh` or its own one of before. -/
def step (t : τ) (c : Choice) (fresh : Bool) (s : State τ) :
    Option (State τ × List (Entry τ Obj Loc)) :=
  if begins (s.queue.pc t) = true ∧ ¬ s.Allows t c.addr fresh then none
  else ((ParkingQueue.machine τ).next
      (t, { c with leftover := handedOut s c.addr fresh }) s.queue).map fun r =>
    (⟨s.after (begins (s.queue.pc t)) t c.addr fresh, r.1⟩,
      entries t (actions s.life c s.queue.mem.word (s.queue.pc t)))

/-- The threads of one `ParkingQueue`, and the log of what they do to memory. -/
def machine (τ : Type) [DecidableEq τ] : Machine (State τ) (τ × Choice × Bool) (Entry τ Obj Loc) where
  initial s := s = State.new τ
  next i s := step i.1 i.2.1 i.2.2 s

end Steps

end Mekong.Program.QueueMemoryOrder
