import Mekong.Model.Parker
import Mekong.Program.RawMutex

/-!
# `FairTimeout`, and `RawMutex` with it

`unlock_fair` asks the timeout whether to be fair. Only the owner of the lock asks, so the
two cells are read and written without an atomic operation. The clock is monotonic: it
never goes back, and two readings may agree.
-/

set_option autoImplicit false

namespace Mekong.Program

open Mekong.Computation Mekong.Model

/-- The contents of the two cells; times are in nanoseconds.
SOURCE: time.rs:25-31 -/
structure FairTimeout where
  timeout : Instant
  seed : U32

namespace FairTimeout

/-- SOURCE: time.rs:56-66 -/
def genU32 (seed : U32) : U32 :=
  let seed := seed ^^^ (seed <<< 13)
  let seed := seed ^^^ (seed >>> 17)
  seed ^^^ (seed <<< 5)

/-- The answer for the reading `now` of the clock, and the cells after it.
SOURCE: time.rs:42-54 -/
def isTimeout (now : Instant) (f : FairTimeout) : Bool × FairTimeout :=
  if now > f.timeout then
    (true, ⟨now + (genU32 f.seed).toNat % 1000000, genU32 f.seed⟩)
  else (false, f)

end FairTimeout

namespace TimedMutex

/-- The choices of a step, and what it reads off the clock. -/
structure Choice extends RawMutex.Choice where
  now : Instant := 0

inductive Event (τ : Type)
  | raw (e : RawMutex.Event τ)
  /-- `unlock_fair` asks at `now` and gets this answer. -/
  | asked (t : τ) (now : Instant) (fair : Bool)
  /-- `unlock_fair` sets `TIMEOUT_BIT`, and sees whether threads wait. -/
  | marked (t : τ) (waiting : Bool)
  deriving DecidableEq

/-- The mutex, its timeout, and the last reading of the clock. -/
structure State (τ : Type) where
  raw : RawMutex.State τ
  fairTimeout : FairTimeout
  clock : Instant

/-- A mutex created at `start`.
SOURCE: auxiliary.rs:175-184 -/
def State.new (τ : Type) (start : Instant) (seed : U32) : State τ :=
  ⟨RawMutex.State.new τ, ⟨start, seed⟩, start⟩

section Steps

variable {τ : Type}

def markedEvents (t : τ) (s : RawMutex.State τ) : List (Event τ) :=
  if s.pc t = .markTimeout then [.marked t (decide (queueHead s.mem.word ≠ null))] else []

variable [DecidableEq τ]

/-- One step of thread `t`.
SOURCE: auxiliary.rs:214-232, time.rs:42-54 -/
def step (t : τ) (c : Choice) (s : State τ) : Option (State τ × List (Event τ)) :=
  if s.raw.pc t = .unlockFair then
    if c.now < s.clock then none
    else
      let answer := s.fairTimeout.isTimeout c.now
      ((RawMutex.machine τ).next (t, { c.toChoice with timeout := answer.1 }) s.raw).map fun r =>
        (⟨r.1, answer.2, c.now⟩, .asked t c.now answer.1 :: r.2.map .raw)
  else
    ((RawMutex.machine τ).next (t, c.toChoice) s.raw).map fun r =>
      ({ s with raw := r.1 }, markedEvents t s.raw ++ r.2.map .raw)

/-- The threads of one `RawMutex` created at `start` with this seed. -/
def machine (τ : Type) [DecidableEq τ] (start : Instant) (seed : U32) :
    Machine (State τ) (τ × Choice) (Event τ) where
  initial s := s = State.new τ start seed
  next i s := step i.1 i.2 s

end Steps

end TimedMutex

end Mekong.Program
