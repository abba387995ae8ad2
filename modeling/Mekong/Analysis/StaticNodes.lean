import Mekong.Analysis.ParkingQueueRuns
import Mekong.Program.ThreadLocal

/-!
# One static node for each thread

What mutexes and queues have in common when their threads use static nodes: which frames
there are, and how a step changes them. `frameNode` stands for the node that a thread at a
place of the object has in the frame of its call of `with_thread_data`. A `Note` is what a
step leaves in a static node for the attempts to come.
-/

set_option autoImplicit false

namespace Mekong.Analysis.ThreadLocal

open Mekong.Computation Mekong.Model Mekong.Program.ThreadLocal

/-- The fields of a fresh node after the reset. -/
theorem eq_resetNode {d : ThreadData} {p head : Ptr} (hparker : d.parker = false)
    (htoken : d.unparkToken = 0) (htail : d.queueTail = if head = null then p else null)
    (hprev : d.prev = null) (hnext : d.next = head) :
    d = resetNode p head ThreadData.new := by
  have hlink : head = if head = null then null else head := by
    split
    · assumption
    · rfl
  cases d
  simp only at hparker htoken htail hprev hnext
  rw [hparker, htoken, htail, hprev, hnext]
  exact congrArg (ThreadData.mk false 0 _ null) hlink

/-! ## What outlasts an attempt -/

/-- What a step may leave in a static node for its thread's later attempts. -/
inductive Note (τ : Type)
  /-- `retry` has answered true after the push of `t`, which calls `abort_self`. -/
  | aborted (t : τ)
  /-- `next` is stored in the link of the node at `p`. -/
  | linked (p next : Ptr)
  deriving DecidableEq

/-- The link of the node at `p` after a note, if it was `link` before. -/
def linkAfter {τ : Type} (p link : Ptr) : Note τ → Ptr
  | .linked q next => if q = p then next else link
  | .aborted _ => link

/-- The link that a history has left in the node at `p`. -/
def linkOf {τ : Type} (p : Ptr) (log : List (Note τ)) : Ptr := log.foldl (linkAfter p) null

/-! ## Frames -/

section Frames

variable {τ π : Type} (home : Home τ) (frameNode : π → Option Ptr)

/-- A node in a frame is the static node of its thread, which is at a place with it. -/
def Homed (s : Threads τ (Mem τ) π) : Prop :=
  ∀ p u, s.mem.frame p = some u → p = home.addr u ∧ frameNode (s.pc u) = some p

/-- How a step of `t` changes the frames and the node it has in one: a call of
`with_thread_data` begins, or returns, or neither. -/
inductive FrameStep (t : τ) (frame frame' : Ptr → Option τ) (own own' : Option Ptr) : Prop
  | begins (hown : own = none) (hown' : own' = some (home.addr t))
      (hframe : frame' = Function.update frame (home.addr t) (some t))
  | returns (p : Ptr) (hown : own = some p) (hown' : own' = none)
      (hframe : frame' = Function.update frame p none)
  | stays (hown : own' = own) (hframe : frame' = frame)

variable {home frameNode} {s : Threads τ (Mem τ) π} {t : τ} {m' : Mem τ} {pc' : π}

/-- The static node of a thread that is not inside a call is in no frame. -/
theorem Homed.frame_none (h : Homed home frameNode s) (ht : frameNode (s.pc t) = none) :
    s.mem.frame (home.addr t) = none := by
  refine Option.eq_none_iff_forall_ne_some.mpr fun u hu => ?_
  obtain ⟨haddr, hown⟩ := h _ u hu
  obtain rfl := home.injective haddr
  rw [ht] at hown
  cases hown

/-- A step with static nodes leaves each node in its thread's frame. -/
theorem Homed.step [DecidableEq τ] (h : Homed home frameNode s)
    (hr : FrameStep home t s.mem.frame m'.frame (frameNode (s.pc t)) (frameNode pc')) :
    Homed home frameNode (s.moveTo t m' pc') := by
  have other : ∀ {p u}, s.mem.frame p = some u → u ≠ t →
      p = home.addr u ∧ frameNode ((s.moveTo t m' pc').pc u) = some p := by
    intro p u hu hut
    rw [Threads.moveTo_pc_of_ne _ _ _ hut]
    exact h p u hu
  intro p u hu
  rw [Threads.moveTo_mem] at hu
  cases hr with
  | begins hown hown' hframe =>
    rw [hframe] at hu
    by_cases hp : p = home.addr t
    · rw [hp, Function.update_self] at hu
      cases hu
      exact ⟨hp, by rw [Threads.moveTo_pc_self, hown', hp]⟩
    · rw [Function.update_of_ne hp] at hu
      refine other hu ?_
      rintro rfl
      rw [(h p u hu).2] at hown
      cases hown
  | returns q hown hown' hframe =>
    rw [hframe] at hu
    by_cases hp : p = q
    · rw [hp, Function.update_self] at hu
      cases hu
    · rw [Function.update_of_ne hp] at hu
      refine other hu ?_
      rintro rfl
      rw [(h p u hu).2] at hown
      exact hp (Option.some.inj hown)
  | stays hown hframe =>
    rw [hframe] at hu
    by_cases hut : u = t
    · subst hut
      rw [Threads.moveTo_pc_self, hown]
      exact h p u hu
    · exact other hu hut

/-- A static node in no frame after a step of `t` was in none before, or is that of `t`,
whose call has returned. -/
theorem FrameStep.returned {frame frame' : Ptr → Option τ} {own own' : Option Ptr} {u : τ}
    (h : FrameStep home t frame frame' own own') (haddr : ∀ p, own = some p → p = home.addr t)
    (hnone : frame' (home.addr u) = none) :
    frame (home.addr u) = none ∨ u = t ∧ own = some (home.addr u) ∧ own' = none := by
  cases h with
  | begins hown hown' hframe =>
    rw [hframe] at hnone
    by_cases hu : home.addr u = home.addr t
    · rw [hu, Function.update_self] at hnone
      cases hnone
    · rw [Function.update_of_ne hu] at hnone
      exact .inl hnone
  | returns p hown hown' hframe =>
    obtain rfl := haddr p hown
    rw [hframe] at hnone
    by_cases hu : home.addr u = home.addr t
    · obtain rfl := home.injective hu
      exact .inr ⟨rfl, hown, hown'⟩
    · rw [Function.update_of_ne hu] at hnone
      exact .inl hnone
  | stays hown hframe =>
    rw [hframe] at hnone
    exact .inl hnone

end Frames

end Mekong.Analysis.ThreadLocal
