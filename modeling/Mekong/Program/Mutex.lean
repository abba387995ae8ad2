import Mekong.Program.RawMutex

/-!
# `Mutex`: a value behind a `RawMutex`

A guard gives its thread access to the value until it is dropped, and dropping it calls
`unlock` (`MutexGuard`) or `unlock_fair` (`MutexGuardFair`). An access is any function of
the value; a read is the access that changes nothing.
-/

set_option autoImplicit false

namespace Mekong.Program.Mutex

open Mekong.Computation Mekong.Model Mekong.Program

/-- SOURCE: mutex.rs:27-30 -/
structure State (τ D : Type) where
  raw : RawMutex.State τ
  data : D

/-- A step of the `RawMutex`, or an access through a guard. -/
inductive Input (τ D : Type)
  | raw (t : τ) (c : RawMutex.Choice)
  | access (t : τ) (f : D → D)

/-- What a step does that the properties of the mutex speak about. -/
inductive Event (τ D : Type)
  | raw (e : RawMutex.Event τ)
  | accessed (t : τ) (f : D → D)

/-- The threads of one `Mutex::new(data)`. `Deref` and `DerefMut` of a guard are only
called by the thread that has it.
SOURCE: mutex.rs:36-137, mutex.rs:150-174 -/
def machine (τ : Type) {D : Type} [DecidableEq τ] (data : D) :
    Machine (State τ D) (Input τ D) (Event τ D) where
  initial s := s = ⟨RawMutex.State.new τ, data⟩
  next
    | .raw t c, s => ((RawMutex.machine τ).next (t, c) s.raw).map fun r =>
      (⟨r.1, s.data⟩, r.2.map .raw)
    | .access t f, s =>
      if s.raw.pc t = .held then some (⟨s.raw, f s.data⟩, [.accessed t f]) else none

/-- The events of the `RawMutex` alone. -/
def rawEvent {τ D : Type} : Event τ D → List (RawMutex.Event τ)
  | .raw e => [e]
  | .accessed .. => []

end Mekong.Program.Mutex
