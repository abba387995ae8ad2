import Mekong.Computation.HappensBefore
import Mekong.Program.WaitGroup

/-!
# Threads that share data under a `WaitGroup`

The use that the documentation of `WaitGroup` asks for. There is a list of the calls of
`done` that are still owed; `add` is called while some are, and puts as many on its
thread. A thread may hand a call that it owes to another one, with a message or by starting
it. Each location has an owner, who writes it only while it owes a `done`; the others read
it after they have returned from `wait`.

Of what the `WaitGroup` does to memory, only the operations on its counter are logged: `add`
is relaxed and orders nothing, `done` acquires and releases, and the test that `wait` gives
to `park` acquires.
-/

set_option autoImplicit false

namespace Mekong.Program.WaitGroupClient

open Mekong.Computation Mekong.Computation.HappensBefore Mekong.Model

/-- The atomic objects: the counter, and what carries a call of `done` to another thread. -/
inductive Obj
  | workers
  | message
  deriving DecidableEq

inductive Input (τ ℓ : Type)
  /-- A step of the `WaitGroup`. -/
  | group (t : τ) (c : WaitGroup.Choice)
  /-- `t` hands a call of `done` to `u`. -/
  | hand (t u : τ)
  | access (t : τ) (l : ℓ) (writes : Bool)

/-- The `WaitGroup`, the owed calls of `done`, and the threads that have returned from
`wait`. -/
structure State (τ : Type) where
  group : WaitGroup.State τ
  owed : List τ
  joined : τ → Bool

/-- A `WaitGroup` whose size is the number of the calls that are owed. -/
def State.new {τ : Type} (owed : List τ) : State τ :=
  ⟨WaitGroup.State.withSize τ (BitVec.ofNat 64 owed.length), owed, fun _ => false⟩

section Steps

variable {τ ℓ : Type}

/-- What a step of the `WaitGroup` does to its counter.
SOURCE: wait_group.rs:99-128 -/
def actions (op : WaitGroup.Op) : ParkingQueue.Pc → List (Action Obj ℓ)
  | .outside =>
    match op with
    | .done => [.sync .workers true true]
    | .add _ | .wait => []
  | .retry _ | .retryAgain .. => [.sync .workers true false]
  | _ => []

variable [DecidableEq τ]

/-- The use of the operations that the documentation asks for.
SOURCE: wait_group.rs:24-37, wait_group.rs:55-67 -/
def mayCall (s : State τ) (t : τ) : WaitGroup.Op → Bool
  | .add n => !s.owed.isEmpty && decide (s.owed.length + n.toNat < 2 ^ 63)
  | .done => decide (t ∈ s.owed)
  | .wait => true

/-- The calls that are owed after a call by `t`. -/
def owedAfter (t : τ) (owed : List τ) : WaitGroup.Op → List τ
  | .add n => List.replicate n.toNat t ++ owed
  | .done => owed.erase t
  | .wait => owed

/-- The threads that have returned from `wait`, after a step of `t` with these events. -/
def joinedAfter (t : τ) (joined : τ → Bool) (es : List (WaitGroup.Event τ)) : τ → Bool :=
  if .queue (.returned t .park) ∈ es then Function.update joined t true else joined

/-- A step of the `WaitGroup` by `t`. -/
def groupStep (t : τ) (c : WaitGroup.Choice) (s : State τ) :
    Option (State τ × List (Entry τ Obj ℓ)) :=
  if s.group.pc t = .outside ∧ mayCall s t c.op = false then none
  else ((WaitGroup.machine τ).next (t, c) s.group).map fun r =>
    (⟨r.1, if s.group.pc t = .outside then owedAfter t s.owed c.op else s.owed,
      joinedAfter t s.joined r.2⟩, entries t (actions c.op (s.group.pc t)))

/-- A thread may read what it owns, and write it while it owes a `done`; what it does not
own it may read after it has returned from `wait`. -/
def mayAccess (owner : ℓ → τ) (s : State τ) (t : τ) (l : ℓ) (writes : Bool) : Bool :=
  decide (owner l = t) && (!writes || decide (t ∈ s.owed)) || s.joined t && !writes

/-- Threads that share the locations under one `WaitGroup`. -/
def machine (owner : ℓ → τ) : Machine (State τ) (Input τ ℓ) (Entry τ Obj ℓ) where
  initial s := ∃ owed : List τ, owed.length < 2 ^ 63 ∧ s = State.new owed
  next
    | .group t c, s => groupStep t c s
    | .hand t u, s =>
      if t ∈ s.owed then
        some ({ s with owed := u :: s.owed.erase t },
          [⟨t, .sync .message false true⟩, ⟨u, .sync .message true false⟩])
      else none
    | .access t l writes, s =>
      if mayAccess owner s t l writes = true then some (s, entries t [.access l writes]) else none

end Steps

end Mekong.Program.WaitGroupClient
