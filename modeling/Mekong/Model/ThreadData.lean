import Mekong.Model.LockState
import Mathlib.Logic.Function.Basic

/-!
# Waiting threads' nodes and the memory they live in

A thread that waits puts a `ThreadData` on the list of a state word. The node lives for
one call of `with_thread_data`: `frame` records which thread's call holds an address, so
a pointer is dangling exactly when `frame` says `none`. Addresses are handed out again
after the call returns, as stack slots are.

The node's parker is taken here at its contract (one stored notification, `park`
consumes it); the platform parkers are modelled in their own modules.
-/

set_option autoImplicit false

namespace Mekong.Model

/-- SOURCE: parking/mod.rs:28-29 -/
abbrev UnparkToken := U64

/-- SOURCE: auxiliary.rs:37 -/
def tokenHandoff : UnparkToken := timeoutBit

/-- One waiting thread's node. `parker` says whether a notification is stored in it.
SOURCE: auxiliary.rs:82-101 -/
structure ThreadData where
  parker : Bool
  unparkToken : UnparkToken
  queueTail : Ptr
  prev : Ptr
  next : Ptr
  deriving DecidableEq

/-- SOURCE: auxiliary.rs:103-115 -/
def ThreadData.new : ThreadData := ⟨false, 0, null, null, null⟩

/-- SOURCE: spin_wait.rs:52-62 — the answer of `spin` and the counter after it. -/
def spin (counter : ℕ) : Bool × ℕ :=
  if counter ≥ 10 then (false, counter) else (true, counter + 1)

/-- The memory the operations share: the state word, the nodes, and for each address
the thread inside whose `with_thread_data` call a node stands there. -/
structure Mem (τ : Type) where
  word : U64
  node : Ptr → ThreadData
  frame : Ptr → Option τ

/-- A fresh object: `AtomicU64::new(IDLE)` and no thread waiting.
SOURCE: auxiliary.rs:176-184, auxiliary.rs:491-496 -/
def Mem.new (τ : Type) : Mem τ := ⟨idle, fun _ => ThreadData.new, fun _ => none⟩

section Access

variable {τ : Type} (m : Mem τ) (p q : Ptr)

/-- Write one field, or several, of the node at `p`. -/
def Mem.modify (f : ThreadData → ThreadData) : Mem τ :=
  { m with node := Function.update m.node p (f (m.node p)) }

/-- Store a new state word. -/
def Mem.store (w : U64) : Mem τ := { m with word := w }

/-- `with_thread_data` begins: the node `td` stands at `p`, on the stack of `t`.
SOURCE: auxiliary.rs:672-675 -/
def Mem.alloc (t : τ) (td : ThreadData) : Mem τ :=
  { m with node := Function.update m.node p td, frame := Function.update m.frame p (some t) }

/-- `with_thread_data` returns: the address is free again. -/
def Mem.free : Mem τ := { m with frame := Function.update m.frame p none }

variable {m p q}

@[simp] theorem Mem.modify_word (f : ThreadData → ThreadData) : (m.modify p f).word = m.word := rfl
@[simp] theorem Mem.modify_frame (f : ThreadData → ThreadData) : (m.modify p f).frame = m.frame := rfl
@[simp] theorem Mem.store_word (w : U64) : (m.store w).word = w := rfl
@[simp] theorem Mem.store_node (w : U64) : (m.store w).node = m.node := rfl
@[simp] theorem Mem.store_frame (w : U64) : (m.store w).frame = m.frame := rfl
@[simp] theorem Mem.alloc_word (t : τ) (td : ThreadData) : (m.alloc p t td).word = m.word := rfl
@[simp] theorem Mem.free_word : (m.free p).word = m.word := rfl
@[simp] theorem Mem.free_node : (m.free p).node = m.node := rfl

@[simp] theorem Mem.modify_node_self (f : ThreadData → ThreadData) :
    (m.modify p f).node p = f (m.node p) := by simp [Mem.modify]

/-- A write to one node leaves the others. -/
theorem Mem.modify_node_of_ne (f : ThreadData → ThreadData) (h : q ≠ p) :
    (m.modify p f).node q = m.node q := by simp [Mem.modify, h]

/-- A write leaves what its function leaves. -/
theorem Mem.modify_keeps {α : Type} {f : ThreadData → ThreadData} (φ : ThreadData → α)
    (hf : ∀ d, φ (f d) = φ d) (q : Ptr) : φ ((m.modify p f).node q) = φ (m.node q) := by
  by_cases hq : q = p
  · rw [hq, modify_node_self, hf]
  · rw [modify_node_of_ne _ hq]

/-- A write to one field of one node is an update of that field. -/
theorem Mem.modify_sets {α : Type} {f : ThreadData → ThreadData} {x : α} (φ : ThreadData → α)
    (hf : ∀ d, φ (f d) = x) :
    (fun q => φ ((m.modify p f).node q)) = Function.update (fun q => φ (m.node q)) p x := by
  funext q
  by_cases hq : q = p
  · rw [hq, modify_node_self, Function.update_self, hf]
  · rw [modify_node_of_ne _ hq, Function.update_of_ne hq]

@[simp] theorem Mem.alloc_node_self (t : τ) (td : ThreadData) :
    (m.alloc p t td).node p = td := by simp [Mem.alloc]

/-- A new node leaves the others. -/
theorem Mem.alloc_node_of_ne (t : τ) (td : ThreadData) (h : q ≠ p) :
    (m.alloc p t td).node q = m.node q := by simp [Mem.alloc, h]

@[simp] theorem Mem.alloc_frame_self (t : τ) (td : ThreadData) :
    (m.alloc p t td).frame p = some t := by simp [Mem.alloc]

/-- A new node leaves the other frames. -/
theorem Mem.alloc_frame_of_ne (t : τ) (td : ThreadData) (h : q ≠ p) :
    (m.alloc p t td).frame q = m.frame q := by simp [Mem.alloc, h]

@[simp] theorem Mem.free_frame_self : (m.free p).frame p = none := by simp [Mem.free]

/-- A dropped node leaves the other frames. -/
theorem Mem.free_frame_of_ne (h : q ≠ p) : (m.free p).frame q = m.frame q := by
  simp [Mem.free, h]

end Access

/-- How a weak compare-exchange ends. -/
inductive CasResult
  /-- The word was `expected` and now holds the new value. -/
  | ok
  /-- The word holds `actual` and is unchanged; it may equal the expected value. -/
  | err (actual : U64)
  deriving DecidableEq

/-- `compare_exchange_weak` on the state word, which may fail spuriously. -/
def compareExchangeWeak (spurious : Bool) (word expected : U64) : CasResult :=
  if spurious = false ∧ word = expected then .ok else .err word

/-- A compare-exchange that succeeds found the word it expected. -/
theorem compareExchangeWeak_ok {spurious : Bool} {word expected : U64}
    (h : compareExchangeWeak spurious word expected = .ok) : word = expected := by
  unfold compareExchangeWeak at h
  split at h
  · rename_i hw
    exact hw.2
  · cases h

/-- A compare-exchange that fails returns the word. -/
theorem compareExchangeWeak_err {spurious : Bool} {word expected actual : U64}
    (h : compareExchangeWeak spurious word expected = .err actual) : actual = word := by
  unfold compareExchangeWeak at h
  split at h
  · cases h
  · injection h with h
    exact h.symm

end Mekong.Model
