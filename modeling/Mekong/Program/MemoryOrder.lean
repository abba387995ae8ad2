import Mekong.Computation.HappensBefore
import Mekong.Program.RawMutex

/-!
# The memory accesses of a `Mutex`, with their orderings

The threads of one `Mutex` as in `RawMutex`, with what each step does to memory: the plain
accesses of the cells of a node, of the two cells of `FairTimeout` and of the protected
value, and the atomic operations with the orderings the source gives them. A relaxed
operation orders nothing and has no entry, except that as a read-modify-write it does not
cut off a release. `fence_acquire` after a failed compare-exchange acquires what the
compare-exchange read.

A call of `with_thread_data` builds a new object at its address, or, where nodes are in
thread-local storage, goes on with the object of the same thread; `Objects` tells the
objects of one address apart.
-/

set_option autoImplicit false

namespace Mekong.Program.MemoryOrder

open Mekong.Computation Mekong.Computation.HappensBefore Mekong.Model Mekong.Program.RawMutex

/-- The cells of a node.
SOURCE: auxiliary.rs:82-101 -/
inductive Field
  | unparkToken
  | queueTail
  | prev
  | next
  deriving DecidableEq

/-- What is accessed without an atomic operation.
SOURCE: auxiliary.rs:82-101, time.rs:25-31, mutex.rs:27-30 -/
inductive Loc
  | node (p : Ptr) (life : ℕ) (field : Field)
  | timeout
  | seed
  | data
  deriving DecidableEq

/-- The atomic objects: `RawMutex::state` and the parkers of the nodes. -/
inductive Obj
  | word
  | parker (p : Ptr) (life : ℕ)
  deriving DecidableEq

/-- A step of the `RawMutex`, where `fresh` says whether `with_thread_data` builds a new
node; or an access through a guard. -/
inductive Input (τ : Type)
  | raw (t : τ) (c : Choice) (fresh : Bool)
  | access (t : τ) (writes : Bool)

/-- The nodes as objects: how many were built at each address so far, and whose node stood
there last. -/
structure Objects (τ : Type) where
  life : Ptr → ℕ
  user : Ptr → Option τ

namespace Objects

variable {τ : Type}

/-- No node has been built. -/
def new (τ : Type) : Objects τ := ⟨fun _ => 0, fun _ => none⟩

/-- `with_thread_data` may give `t` a new object at `p`, or its own one of before.
SOURCE: auxiliary.rs:671-699 -/
def Allows [DecidableEq τ] (o : Objects τ) (t : τ) (p : Ptr) (fresh : Bool) : Prop :=
  fresh = true ∨ o.user p = some t

instance [DecidableEq τ] (o : Objects τ) (t : τ) (p : Ptr) (fresh : Bool) :
    Decidable (o.Allows t p fresh) :=
  inferInstanceAs (Decidable (_ ∨ _))

/-- The objects after a step of `t`, which calls `with_thread_data` if `calls`. -/
def after (o : Objects τ) (calls : Bool) (t : τ) (p : Ptr) (fresh : Bool) : Objects τ :=
  if calls = true then
    ⟨if fresh = true then Function.update o.life p (o.life p + 1) else o.life,
      Function.update o.user p (some t)⟩
  else o

end Objects

/-- The mutex, and its nodes as objects. -/
structure State (τ : Type) extends Objects τ where
  raw : RawMutex.State τ

/-- A fresh mutex. -/
def State.new (τ : Type) : State τ := ⟨Objects.new τ, RawMutex.State.new τ⟩

/-- The place at which `with_thread_data` is called. -/
def begins : Pc → Bool
  | .withThreadData .. => true
  | _ => false

section Actions

variable (life : Ptr → ℕ)

def acquireWord : List (Action Obj Loc) := [.sync .word true false]

def releaseWord : List (Action Obj Loc) := [.sync .word false true]

/-- A plain access of a cell of the node at `p`. -/
def accessCell (p : Ptr) (field : Field) (writes : Bool) : List (Action Obj Loc) :=
  [.access (.node p (life p) field) writes]

/-- A compare-exchange with its actions on success and on failure. -/
def onCas (spurious : Bool) (word expected : U64) (ok err : List (Action Obj Loc)) :
    List (Action Obj Loc) :=
  match compareExchangeWeak spurious word expected with
  | .ok => ok
  | .err _ => err

/-- `is_timeout`: the reads of the two cells, and the writes when the time is up.
SOURCE: time.rs:42-66 -/
def isTimeoutActions (timeout : Bool) : List (Action Obj Loc) :=
  if timeout = true then
    [.access .timeout false, .access .seed false, .access .seed true, .access .timeout true]
  else [.access .timeout false]

/-- What a step does to memory.
SOURCE: auxiliary.rs:117-168, auxiliary.rs:186-459, futex.rs:72-92, futex.rs:134-144 -/
def actions (c : Choice) (word : U64) : Pc → List (Action Obj Loc)
  | .tryLock | .isLocked | .lock => onCas c.spurious word idle acquireWord []
  | .grab _ state => onCas c.spurious word state acquireWord []
  | .setToken _ _ p => accessCell life p .unparkToken true
  | .setTail _ _ p => accessCell life p .queueTail true
  | .setPrev _ _ p => accessCell life p .prev true
  | .setNext _ _ p => accessCell life p .next true
  | .push _ state _ => onCas c.spurious word state [.sync .word true true] []
  | .park p => [.sync (.parker p (life p)) true false]
  | .readToken p => accessCell life p .unparkToken false
  | .unlock => releaseWord
  | .unlockFair => isTimeoutActions c.timeout
  | .markTimeout => releaseWord
  | .clearBits _ => releaseWord
  | .slowLoad => acquireWord
  | .slowLock state => onCas c.spurious word state acquireWord []
  | .fairLock _ state => onCas c.spurious word state acquireWord []
  | .fairRelease => releaseWord
  | .scanTail _ _ current => accessCell life current .queueTail false
  | .scanNext _ _ current => accessCell life current .next false
  | .scanPrev _ _ _ next => accessCell life next .prev true
  | .markHead _ state _ => accessCell life (queueHead state) .queueTail true
  | .giveUp state => onCas c.spurious word state releaseWord acquireWord
  | .readPrev _ _ queueTail => accessCell life queueTail .prev false
  | .removeLast _ state _ =>
    onCas c.spurious word state releaseWord (if queueHead word = null then [] else acquireWord)
  | .setNewTail _ state _ _ => accessCell life (queueHead state) .queueTail true
  | .unlockQueue .. => releaseWord
  | .setHandoff queueTail => accessCell life queueTail .unparkToken true
  | .unpark _ queueTail => [.sync (.parker queueTail (life queueTail)) false true]
  | .outside | .held | .load _ | .withThreadData .. | .fairLoad _ => []

end Actions

section Steps

variable {τ : Type} [DecidableEq τ]

/-- A step of the `RawMutex` by `t`, whose new node is `fresh` or its own one of before. -/
def rawStep (t : τ) (c : Choice) (fresh : Bool) (s : State τ) :
    Option (State τ × List (Entry τ Obj Loc)) :=
  if begins (s.raw.pc t) = true ∧ ¬ s.Allows t c.addr fresh then none
  else ((RawMutex.machine τ).next (t, c) s.raw).map fun r =>
    (⟨s.after (begins (s.raw.pc t)) t c.addr fresh, r.1⟩,
      entries t (actions s.life c s.raw.mem.word (s.raw.pc t)))

/-- The threads of one `Mutex`, and the log of what they do to memory. The protected value is
accessed through a guard by the thread that has the guard, and by no other: what threads do
that share a guard by reference, as `Sync` lets them, is outside of this machine.
SOURCE: mutex.rs:53-153, mutex.rs:155-183 -/
def machine (τ : Type) [DecidableEq τ] : Machine (State τ) (Input τ) (Entry τ Obj Loc) where
  initial s := s = State.new τ
  next
    | .raw t c fresh, s => rawStep t c fresh s
    | .access t writes, s =>
      if s.raw.pc t = .held then some (s, entries t [.access .data writes]) else none

end Steps

end Mekong.Program.MemoryOrder
