import Mekong.Analysis.FutexToken
import Mekong.Analysis.MemoryOrderSteps
import Mekong.Analysis.RawMutexFrames
import Mekong.Program.FutexMutex

/-!
# The mutex on futexes refines the mutex on parkers

A node's parker holds a notification exactly when its futex word is `NOTIFIED`, a thread
inside the parker's code is parked, and a thread on its way to `wake_one` has left the
operation. Read like this, every step of the mutex on futexes is one step of `RawMutex`
with the parker at its contract, or none. `Futexes` says what the futex words are on the
way, and that whoever sleeps on a notified word is about to be woken.
-/

set_option autoImplicit false

namespace Mekong.Analysis.FutexMutex

open Mekong.Computation Mekong.Model Mekong.Program Mekong.Program.FutexMutex
  Mekong.Analysis.RawMutex

variable {τ : Type}

/-! ## The mutex that a state stands for -/

/-- The place of the mutex's code. -/
def place : Pc → RawMutex.Pc
  | .raw pc => pc
  | .parking p _ => .park p
  | .wake _ => .outside

@[simp] theorem place_enter (pc : RawMutex.Pc) : place (enter pc) = pc := by cases pc <;> rfl

/-- The memory with these notifications in its parkers. -/
def notifying (m : Mem τ) (f : Ptr → Bool) : Mem τ :=
  { m with node := fun p => { m.node p with parker := f p } }

/-- The notifications in the futex words. -/
def parkers (word : Ptr → BitVec 32) (p : Ptr) : Bool := decide (word p = FutexParker.notified)

/-- The state of the `RawMutex`. -/
def mutexOf (s : State τ) : RawMutex.State τ :=
  ⟨notifying s.mem.raw (parkers s.mem.word), fun t => place (s.pc t)⟩

/-- The events of the `RawMutex`. -/
def mutexEvents : Event τ → List (RawMutex.Event τ)
  | .raw e => [e]
  | .notified t mode p => unparkEvents t mode p

section Notifying

variable {m : Mem τ} {f : Ptr → Bool} {p : Ptr}

@[simp] theorem notifying_word : (notifying m f).word = m.word := rfl
@[simp] theorem notifying_frame : (notifying m f).frame = m.frame := rfl
@[simp] theorem notifying_store (w : U64) :
    (notifying m f).store w = notifying (m.store w) f := rfl
@[simp] theorem notifying_free : (notifying m f).free p = notifying (m.free p) f := rfl
@[simp] theorem notifying_unparkToken :
    ((notifying m f).node p).unparkToken = (m.node p).unparkToken := rfl
@[simp] theorem notifying_queueTail :
    ((notifying m f).node p).queueTail = (m.node p).queueTail := rfl
@[simp] theorem notifying_prev : ((notifying m f).node p).prev = (m.node p).prev := rfl
@[simp] theorem notifying_next : ((notifying m f).node p).next = (m.node p).next := rfl

/-- A write that leaves the parker. -/
theorem notifying_modify {w : ThreadData → ThreadData}
    (hw : ∀ d b, w { d with parker := b } = { w d with parker := b }) :
    (notifying m f).modify p w = notifying (m.modify p w) f := by
  simp only [notifying, Mem.modify, Mem.mk.injEq, true_and, and_true]
  funext q
  by_cases hq : q = p
  · subst hq
    rw [Function.update_self, Function.update_self, hw]
  · rw [Function.update_of_ne hq, Function.update_of_ne hq]

/-- A notification is stored or consumed. -/
theorem notifying_park (b : Bool) :
    (notifying m f).modify p ({ · with parker := b }) = notifying m (Function.update f p b) := by
  simp only [notifying, Mem.modify, Mem.mk.injEq, true_and, and_true]
  funext q
  by_cases hq : q = p
  · subst hq
    rw [Function.update_self, Function.update_self]
  · rw [Function.update_of_ne hq, Function.update_of_ne hq]

/-- A new node has no notification. -/
theorem notifying_alloc (t : τ) :
    (notifying m f).alloc p t ThreadData.new =
      notifying (m.alloc p t ThreadData.new) (Function.update f p false) := by
  simp only [notifying, Mem.alloc, Mem.mk.injEq, true_and, and_true]
  funext q
  by_cases hq : q = p
  · subst hq
    rw [Function.update_self, Function.update_self, Function.update_self]
    rfl
  · rw [Function.update_of_ne hq, Function.update_of_ne hq, Function.update_of_ne hq]

/-- A store to a futex word changes one notification. -/
theorem parkers_update (word : Ptr → BitVec 32) (w : BitVec 32) :
    parkers (Function.update word p w) =
      Function.update (parkers word) p (decide (w = FutexParker.notified)) := by
  funext q
  by_cases hq : q = p
  · subst hq
    rw [parkers, Function.update_self, Function.update_self]
  · rw [parkers, Function.update_of_ne hq, Function.update_of_ne hq, parkers]

/-- A change of the word that keeps its notification. -/
theorem parkers_update_of_iff {word : Ptr → BitVec 32} {w : BitVec 32}
    (hw : w = FutexParker.notified ↔ word p = FutexParker.notified) :
    parkers (Function.update word p w) = parkers word := by
  rw [parkers_update, decide_eq_decide.mpr hw]
  exact Function.update_eq_self p _

/-- The places whose steps neither park, nor unpark, nor build a parker. -/
def leavesParkers : RawMutex.Pc → Bool
  | .park _ | .unpark .. | .withThreadData .. => false
  | _ => true

/-- There the mutex's code does the same whatever is stored in the parkers. -/
theorem threadStep_notifying {t : τ} {c : RawMutex.Choice} {pc : RawMutex.Pc}
    (hpc : leavesParkers pc = true) :
    RawMutex.threadStep t c (notifying m f) pc =
      (RawMutex.threadStep t c m pc).map fun r => (notifying r.1 f, r.2) := by
  cases pc <;> try cases hpc
  case setToken | setTail | setPrev | setNext | scanPrev | markHead | setNewTail | setHandoff =>
    simp only [RawMutex.threadStep, Option.map_some]
    rw [notifying_modify fun _ _ => rfl]
  case outside =>
    simp only [RawMutex.threadStep]
    split <;> rfl
  case held =>
    simp only [RawMutex.threadStep]
    split <;> rfl
  all_goals
    simp only [RawMutex.threadStep, notifying_word, notifying_store, notifying_free,
      notifying_unparkToken, notifying_queueTail, notifying_prev, notifying_next]
    first
      | rfl
      | split <;> simp_all

end Notifying

/-! ## The futex words -/

/-- The places of `park` in the parker. -/
def InPark : FutexParker.Pc → Prop
  | .fetchSub .park | .wait .park | .asleep .park | .exchange .park => True
  | _ => False

/-- The inversion of a step inside `park`: it returns with the notification, or stays. -/
theorem park_step {c : FutexParker.Choice} {word word' : BitVec 32} {pc pc' : FutexParker.Pc}
    {es : List (ParkEvent τ)} (h : FutexParker.WordInv word pc) (hp : InPark pc)
    (hr : FutexParker.ownerStep c word pc = some (word', pc', es)) :
    (pc' = .outside ∧ word = FutexParker.notified ∧ word' = FutexParker.empty) ∨
      (InPark pc' ∧ FutexParker.WordInv word' pc' ∧
        (word' = FutexParker.notified ↔ word = FutexParker.notified) ∧
        (FutexParker.Asleep pc' → word' = FutexParker.parked)) := by
  have hstays : pc' = .outside ∨ InPark pc' := by
    cases pc with
    | fetchSub call | exchange call =>
      cases call <;> try exact hp.elim
      simp only [FutexParker.ownerStep] at hr
      split at hr <;> cases hr
      · exact .inl rfl
      · exact .inr trivial
    | wait call =>
      cases call <;> try exact hp.elim
      cases hr
      refine .inr ?_
      split <;> trivial
    | asleep call =>
      cases call <;> try exact hp.elim
      cases hr
      exact .inr trivial
    | _ => exact hp.elim
  cases FutexParker.ownerStep_effect h hr with
  | goes hword hn hs =>
    refine .inr ⟨hstays.resolve_left ?_, hword, hn, hs⟩
    rintro rfl
    cases pc with
    | fetchSub call | exchange call =>
      cases call <;> try exact hp.elim
      simp only [FutexParker.ownerStep] at hr
      split at hr <;> cases hr
    | wait =>
      simp only [FutexParker.ownerStep, Option.some.injEq, Prod.mk.injEq] at hr
      obtain ⟨-, hpc, -⟩ := hr
      split at hpc <;> cases hpc
    | asleep => cases hr
    | _ => exact hp.elim
  | consumes call hw => exact .inl ⟨rfl, hw, rfl⟩
  | timesOut timeout hw hpc => rw [hpc] at hp; exact hp.elim

/-- What a thread's place says about the futex word of its node and about the kernel. -/
def Fits (word : Ptr → BitVec 32) (sleepers : Ptr → List τ) (t : τ) : Pc → Prop
  | .raw pc => (∀ p, pc ≠ .park p) ∧ (∀ p, ownNode pc = some p → word p = FutexParker.empty) ∧
      ∀ p, t ∉ sleepers p
  | .parking p pc => InPark pc ∧ FutexParker.WordInv (word p) pc ∧
      ∀ q, t ∈ sleepers q ↔ q = p ∧ FutexParker.Asleep pc
  | .wake _ => ∀ p, t ∉ sleepers p

/-- The futex words and the sleepers fit the places of the threads, and a sleeper whose word
is notified is about to be woken. -/
structure Futexes (s : State τ) : Prop where
  fits : ∀ t, Fits s.mem.word s.mem.sleepers t (s.pc t)
  nodup : ∀ p, (s.mem.sleepers p).Nodup
  waker : ∀ p, s.mem.sleepers p ≠ [] → s.mem.word p = FutexParker.notified →
    ∃ t, s.pc t = .wake p

section Fits

variable {word word' : Ptr → BitVec 32} {sleepers sleepers' : Ptr → List τ} {t : τ} {pc : Pc}

/-- Only the word of the thread's own node matters, and where the thread itself sleeps. -/
theorem Fits.congr (h : Fits word sleepers t pc)
    (hw : ∀ p, frameNode (place pc) = some p → word' p = word p)
    (hs : ∀ p, t ∈ sleepers' p ↔ t ∈ sleepers p) : Fits word' sleepers' t pc := by
  cases pc with
  | raw pc =>
    refine ⟨h.1, fun p hp => ?_, fun p => by rw [hs]; exact h.2.2 p⟩
    rw [hw p (frameNode_of_ownNode hp)]
    exact h.2.1 p hp
  | parking p pc =>
    refine ⟨h.1, ?_, fun q => by rw [hs]; exact h.2.2 q⟩
    rw [hw p rfl]
    exact h.2.1
  | wake p => exact fun p => by rw [hs]; exact h p

end Fits

section Step

variable [DecidableEq τ] {s : State τ} {g : Ghost τ} {t u : τ} {c : Choice} {p : Ptr}

omit [DecidableEq τ] in
/-- The node of a thread inside an operation is in its frame. -/
theorem frame_of_place (h : Inv (mutexOf s) g) (hp : frameNode (place (s.pc u)) = some p) :
    s.mem.raw.frame p = some u :=
  h.frame_of_node (u := u) hp

omit [DecidableEq τ] in
/-- Who sleeps on an address sleeps in the code of its parker. -/
theorem Futexes.sleeping (f : Futexes s) (hu : u ∈ s.mem.sleepers p) :
    ∃ call, s.pc u = .parking p (.asleep call) := by
  have hfu := f.fits u
  cases hpu : s.pc u with
  | raw pc => rw [hpu] at hfu; exact absurd hu (hfu.2.2 p)
  | wake q => rw [hpu] at hfu; exact absurd hu (hfu p)
  | parking q pc =>
    rw [hpu] at hfu
    obtain ⟨rfl, call, rfl⟩ := (hfu.2.2 p).mp hu
    exact ⟨call, rfl⟩

omit [DecidableEq τ] in
/-- Only the thread whose node stands at an address sleeps on it. -/
theorem Futexes.frame_of_sleeper (f : Futexes s) (h : Inv (mutexOf s) g)
    (hu : u ∈ s.mem.sleepers p) : s.mem.raw.frame p = some u := by
  obtain ⟨call, hpu⟩ := f.sleeping hu
  exact frame_of_place h (by rw [hpu]; rfl)

omit [DecidableEq τ] in
/-- The other threads fit when only an address with none of their nodes is touched. -/
theorem Futexes.others (f : Futexes s) {w : BitVec 32} {l : List τ}
    (hp : ∀ u, u ≠ t → frameNode (place (s.pc u)) ≠ some p)
    (hl : ∀ u, u ≠ t → (u ∈ l ↔ u ∈ s.mem.sleepers p)) (u : τ) (hu : u ≠ t) :
    Fits (Function.update s.mem.word p w) (Function.update s.mem.sleepers p l) u (s.pc u) := by
  refine (f.fits u).congr (fun q hq => Function.update_of_ne ?_ _ _) fun q => ?_
  · rintro rfl
    exact hp u hu hq
  · by_cases hqp : q = p
    · subst hqp
      rw [Function.update_self]
      exact hl u hu
    · rw [Function.update_of_ne hqp]

/-- A step of `t` that touches the word and the sleepers of no address but `p`. -/
theorem Futexes.step (f : Futexes s) {m : Mem τ} {w : BitVec 32} {l : List τ} (pc' : Pc)
    (hothers : ∀ u, u ≠ t → Fits (Function.update s.mem.word p w)
      (Function.update s.mem.sleepers p l) u (s.pc u))
    (hfits : Fits (Function.update s.mem.word p w) (Function.update s.mem.sleepers p l) t pc')
    (hnodup : l.Nodup)
    (hwake : l ≠ [] → w = FutexParker.notified →
      pc' = .wake p ∨ ∃ u, u ≠ t ∧ s.pc u = .wake p)
    (hpc : ∀ q, q ≠ p → s.pc t ≠ .wake q) :
    Futexes (s.moveTo t ⟨m, Function.update s.mem.word p w, Function.update s.mem.sleepers p l⟩
      pc') := by
  constructor
  · exact Threads.forall_moveTo (fun u pc => Fits (Function.update s.mem.word p w)
      (Function.update s.mem.sleepers p l) u pc) hfits hothers
  · intro q
    by_cases hqp : q = p
    · subst hqp
      simpa using hnodup
    · simpa [Function.update_of_ne hqp] using f.nodup q
  · intro q hne hw
    rw [Threads.moveTo_mem] at hne hw
    by_cases hqp : q = p
    · subst hqp
      simp only [Function.update_self] at hne hw
      rcases hwake hne hw with hu | ⟨u, hut, hu⟩
      · exact ⟨t, by rw [Threads.moveTo_pc_self, hu]⟩
      · exact ⟨u, by rw [Threads.moveTo_pc_of_ne _ _ _ hut, hu]⟩
    · simp only [Function.update_of_ne hqp] at hne hw
      obtain ⟨u, hu⟩ := f.waker q hne hw
      have hut : u ≠ t := by
        rintro rfl
        exact hpc q hqp hu
      exact ⟨u, by rw [Threads.moveTo_pc_of_ne _ _ _ hut, hu]⟩

/-- A step that leaves the words and the sleepers. -/
theorem Futexes.silent (f : Futexes s) {m : Mem τ} {pc' : Pc}
    (hfits : Fits s.mem.word s.mem.sleepers t pc') (hpc : ∀ q, s.pc t ≠ .wake q) :
    Futexes (s.moveTo t { s.mem with raw := m } pc') := by
  constructor
  · exact Threads.forall_moveTo (fun u pc => Fits s.mem.word s.mem.sleepers u pc) hfits
      fun u _ => f.fits u
  · exact f.nodup
  · intro q hne hw
    obtain ⟨u, hu⟩ := f.waker q hne hw
    have hut : u ≠ t := by
      rintro rfl
      exact hpc q hu
    exact ⟨u, by rw [Threads.moveTo_pc_of_ne _ _ _ hut, hu]⟩

/-- A step of the mutex's own code. -/
theorem Futexes.mutexStep {c : RawMutex.Choice} {pc : RawMutex.Pc}
    {r : Mem τ × RawMutex.Pc × List (RawMutex.Event τ)}
    (f : Futexes s) (hpc : s.pc t = .raw pc) (hl : leavesParkers pc = true)
    (hr : RawMutex.threadStep t c s.mem.raw pc = some r) :
    Futexes (s.moveTo t { s.mem with raw := r.1 } (enter r.2.1)) := by
  have hfits := f.fits t
  rw [hpc] at hfits
  obtain ⟨-, hown, hsleep⟩ := hfits
  refine f.silent ?_ (by simp [hpc])
  have hown' : ∀ p, ownNode r.2.1 = some p → s.mem.word p = FutexParker.empty := by
    intro p hp
    rcases own_of_step hr hp with hp | ⟨hb, -⟩ | ⟨rfl, -⟩
    · exact hown p hp
    · cases pc <;> cases hb
      cases hl
    · cases hl
  by_cases hpark : ∃ p, r.2.1 = .park p
  · obtain ⟨p, hp⟩ := hpark
    rw [hp]
    refine ⟨trivial, .inl (hown p (park_of_step hr hp).1), fun q => ?_⟩
    exact iff_of_false (hsleep q) (by rintro ⟨-, call, h⟩; cases h)
  · have henter : enter r.2.1 = .raw r.2.1 := by
      cases hr' : r.2.1 <;> first | rfl | exact absurd ⟨_, hr'⟩ hpark
    rw [henter]
    exact ⟨fun p hp => hpark ⟨p, hp⟩, hown', hsleep⟩

omit [DecidableEq τ] in
/-- The inversion of `with_thread_data`, which begins with a new parker. -/
theorem alloc_of_step {r : Mem τ × RawMutex.Pc × List (RawMutex.Event τ)} {counter : ℕ}
    {state : U64}
    (hr : RawMutex.threadStep t { c.toChoice with leftover := ThreadData.new } s.mem.raw
      (.withThreadData counter state) = some r) :
    IsNodeAddr c.addr ∧ s.mem.raw.frame c.addr = none ∧
      r = (s.mem.raw.alloc c.addr t ThreadData.new, .setToken counter state c.addr, []) := by
  simp only [RawMutex.threadStep] at hr
  split at hr <;> cases hr
  rename_i hc
  exact ⟨hc.1, by simpa using hc.2.1, rfl⟩

/-- `with_thread_data` begins with a new parker. -/
theorem Futexes.alloc (f : Futexes s) (h : Inv (mutexOf s) g) {counter : ℕ} {state : U64}
    (hpc : s.pc t = .raw (.withThreadData counter state)) (hfree : s.mem.raw.frame p = none) :
    Futexes (s.moveTo t { s.mem with
      raw := s.mem.raw.alloc p t ThreadData.new
      word := Function.update s.mem.word p FutexParker.empty }
      (.raw (.setToken counter state p))) := by
  have hfits := f.fits t
  rw [hpc] at hfits
  have hstep := f.step (t := t) (m := s.mem.raw.alloc p t ThreadData.new) (p := p)
    (w := FutexParker.empty) (l := s.mem.sleepers p) (.raw (.setToken counter state p))
    (f.others (fun u _ hu => ?_) fun _ _ => Iff.rfl) ?_ (f.nodup _)
    (fun _ hw => absurd hw FutexParker.empty_ne_notified) (by simp [hpc])
  · rwa [Function.update_eq_self] at hstep
  · have hf := frame_of_place h hu
    rw [hfree] at hf
    cases hf
  · rw [Function.update_eq_self]
    refine ⟨by simp, fun q hq => ?_, hfits.2.2⟩
    obtain rfl := Option.some.inj hq
    exact Function.update_self _ _ _

/-- The swap of `unpark`. -/
theorem Futexes.unpark (f : Futexes s) (h : Inv (mutexOf s) g) {mode : RawMutex.Mode}
    (hpc : s.pc t = .raw (.unpark mode p)) :
    Futexes (s.moveTo t { s.mem with word := Function.update s.mem.word p FutexParker.notified }
      (if s.mem.word p = FutexParker.parked then .wake p else .raw .outside)) := by
  have hfits := f.fits t
  rw [hpc] at hfits
  have hwake : wakes ((mutexOf s).pc t) = some (mode, p) := by simp only [mutexOf, hpc]; rfl
  have hword : s.mem.word p ≠ FutexParker.notified := by
    simpa [mutexOf, notifying, parkers] using (h.removed_parked hwake).1
  have hstatus := (h.node t).removed hwake
  have hstep := f.step (t := t) (m := s.mem.raw) (p := p) (w := FutexParker.notified)
    (l := s.mem.sleepers p)
    (if s.mem.word p = FutexParker.parked then .wake p else .raw .outside)
    (fun u hu => ?_) ?_ (f.nodup p) (fun hne _ => .inl ?_) (by simp [hpc])
  · rwa [Function.update_eq_self] at hstep
  · rw [Function.update_eq_self]
    have hfu := f.fits u
    cases hpu : s.pc u with
    | raw pc =>
      rw [hpu] at hfu
      refine ⟨hfu.1, fun q hq => ?_, hfu.2.2⟩
      have hqp : q ≠ p := h.own_ne_of_status (u := u) (by rw [hstatus]; simp)
        (by simp only [mutexOf, hpu]; exact hq)
      rw [Function.update_of_ne hqp]
      exact hfu.2.1 q hq
    | parking q pc =>
      rw [hpu] at hfu
      refine ⟨hfu.1, ?_, hfu.2.2⟩
      by_cases hqp : q = p
      · rw [hqp, Function.update_self]
        cases pc <;> first | exact .inr rfl | exact hfu.1.elim
      · rw [Function.update_of_ne hqp]
        exact hfu.2.1
    | wake q =>
      rw [hpu] at hfu
      exact hfu
  · rw [Function.update_eq_self]
    split
    · exact hfits.2.2
    · exact ⟨by simp, by simp [ownNode], hfits.2.2⟩
  · -- a sleeper found the word parked, and it still is
    obtain ⟨u, hu⟩ := List.exists_mem_of_ne_nil _ hne
    obtain ⟨call, hpu⟩ := f.sleeping hu
    have hfu := f.fits u
    rw [hpu] at hfu
    rw [if_pos (hfu.2.1.resolve_right hword)]

/-- A step inside `park`. -/
theorem Futexes.park (f : Futexes s) (h : Inv (mutexOf s) g) {c : FutexParker.Choice}
    {pc pc' : FutexParker.Pc} {w : BitVec 32} {es : List (ParkEvent τ)}
    (hpc : s.pc t = .parking p pc)
    (hr : FutexParker.ownerStep c (s.mem.word p) pc = some (w, pc', es)) :
    Futexes (s.moveTo t { s.mem with
      word := Function.update s.mem.word p w
      sleepers := Function.update s.mem.sleepers p (sleepersAfter t (s.mem.sleepers p) pc') }
      (leave p pc')) := by
  have hfits := f.fits t
  rw [hpc] at hfits
  obtain ⟨hin, hword, hsleep⟩ := hfits
  have hframe : s.mem.raw.frame p = some t := frame_of_place h (by rw [hpc]; rfl)
  have herase : ∀ q, t ∉ Function.update s.mem.sleepers p ((s.mem.sleepers p).erase t) q := by
    intro q
    by_cases hqp : q = p
    · rw [hqp, Function.update_self]
      exact (f.nodup p).not_mem_erase
    · rw [Function.update_of_ne hqp, hsleep]
      exact fun hq => hqp hq.1
  have hmem : ∀ u, u ≠ t → (u ∈ sleepersAfter t (s.mem.sleepers p) pc' ↔
      u ∈ s.mem.sleepers p) := by
    intro u hu
    cases pc' <;> simp [sleepersAfter, List.mem_erase_of_ne hu, hu]
  have hnodup : (sleepersAfter t (s.mem.sleepers p) pc').Nodup := by
    have hrest := (f.nodup p).erase t
    cases pc' <;> try exact hrest
    refine List.nodup_append.mpr ⟨hrest, List.nodup_singleton t, fun u hu v hv => ?_⟩
    rw [List.mem_singleton.mp hv]
    rintro rfl
    exact (f.nodup p).not_mem_erase hu
  refine f.step _ (f.others (fun u hu he => ?_) hmem) ?_ hnodup (fun hne hw => ?_) (by simp [hpc])
  · have hf := frame_of_place h he
    rw [hframe] at hf
    exact hu (Option.some.inj hf).symm
  · rcases park_step hword hin hr with ⟨rfl, -, rfl⟩ | ⟨hin', hword', -, -⟩
    · refine ⟨by simp, fun q hq => ?_, herase⟩
      obtain rfl := Option.some.inj hq
      exact Function.update_self _ _ _
    · have hleave : leave p pc' = .parking p pc' := by cases pc' <;> first | rfl | exact hin'.elim
      rw [hleave]
      refine ⟨hin', by rwa [Function.update_self], fun q => ?_⟩
      by_cases hqp : q = p
      · rw [hqp, Function.update_self]
        have hnot := (f.nodup p).not_mem_erase (a := t)
        cases pc' <;> simp [sleepersAfter, hnot, FutexParker.Asleep]
      · rw [Function.update_of_ne hqp, hsleep]
        exact iff_of_false (fun hq => hqp hq.1) fun hq => hqp hq.1
  · -- nobody but `t` sleeps here, and it fell asleep on a parked word
    exfalso
    obtain ⟨u, hu⟩ := List.exists_mem_of_ne_nil _ hne
    by_cases hut : u = t
    · subst hut
      rcases park_step hword hin hr with ⟨rfl, -, rfl⟩ | ⟨-, -, -, hs⟩
      · exact (f.nodup p).not_mem_erase hu
      · have ha : FutexParker.Asleep pc' := by
          cases pc' <;> first
            | exact ⟨_, rfl⟩
            | exact absurd hu (f.nodup p).not_mem_erase
        exact FutexParker.parked_ne_notified ((hs ha).symm.trans hw)
    · have hf := f.frame_of_sleeper h ((hmem u hut).mp hu)
      rw [hframe] at hf
      exact hut (Option.some.inj hf).symm

/-- `wake_one` with no sleeper on the address. -/
theorem Futexes.wakeNone (f : Futexes s) (hpc : s.pc t = .wake p) (hu : s.mem.sleepers p = []) :
    Futexes (s.moveTo t s.mem (.raw .outside)) := by
  have hfits := f.fits t
  rw [hpc] at hfits
  have hsame : Function.update s.mem.sleepers p [] = s.mem.sleepers := by
    rw [← hu, Function.update_eq_self]
  have hstep := f.step (t := t) (m := s.mem.raw) (p := p) (w := s.mem.word p) (l := [])
    (.raw .outside) (fun u _ => ?_) ?_ List.nodup_nil (fun hne => absurd rfl hne)
    (fun q hqp he => ?_)
  · rwa [Function.update_eq_self, hsame] at hstep
  · rw [Function.update_eq_self, hsame]
    exact f.fits u
  · rw [Function.update_eq_self, hsame]
    exact ⟨by simp, by simp [ownNode], hfits⟩
  · rw [hpc] at he
    exact hqp (Pc.wake.inj he).symm

/-- `wake_one` with a sleeper on the address, whoever's it is by now. -/
theorem Futexes.wakeOne (f : Futexes s) (h : Inv (mutexOf s) g) {rest : List τ}
    (hpc : s.pc t = .wake p) (hu : s.mem.sleepers p = u :: rest) :
    Futexes ((s.moveTo u s.mem (rouse (s.pc u))).moveTo t
      { s.mem with sleepers := Function.update s.mem.sleepers p rest } (.raw .outside)) := by
  have hmem : u ∈ s.mem.sleepers p := by rw [hu]; exact List.mem_cons_self
  obtain ⟨call, hpu⟩ := f.sleeping hmem
  have hframe := f.frame_of_sleeper h hmem
  have hut : u ≠ t := by
    rintro rfl
    rw [hpc] at hpu
    cases hpu
  have hnodup := f.nodup p
  rw [hu] at hnodup
  have hrest : rest = [] := by
    refine List.eq_nil_iff_forall_not_mem.mpr fun v hv => ?_
    have hf := f.frame_of_sleeper h (u := v) (by rw [hu]; exact List.mem_cons_of_mem _ hv)
    rw [hframe] at hf
    obtain rfl := Option.some.inj hf
    exact (List.nodup_cons.mp hnodup).1 hv
  subst hrest
  have hfu := f.fits u
  rw [hpu] at hfu
  -- the sleeper leaves the kernel
  have hfirst := f.step (t := u) (m := s.mem.raw) (p := p) (w := s.mem.word p) (l := [])
    (rouse (s.pc u))
    (f.others (fun v hv he => ?_) fun v hv => ?_) ?_ List.nodup_nil
    (fun hne => absurd rfl hne) (by simp [hpu])
  · rw [Function.update_eq_self] at hfirst
    refine hfirst.wakeNone (t := t) (p := p) ?_ (by simp)
    rw [Threads.moveTo_pc_of_ne _ _ _ (Ne.symm hut), hpc]
  · have hf := frame_of_place h he
    rw [hframe] at hf
    exact hv (Option.some.inj hf).symm
  · simp [hu, hv]
  · rw [Function.update_eq_self, hpu]
    refine ⟨?_, hfu.2.1, fun q => ?_⟩
    · cases call with
      | park => trivial
      | parkUntil => exact hfu.1.elim
    · refine iff_of_false (fun hq => ?_) (by rintro ⟨-, call', he⟩; cases he)
      by_cases hqp : q = p
      · simp [hqp] at hq
      · rw [Function.update_of_ne hqp] at hq
        exact hqp ((hfu.2.2 q).mp hq).1

end Step

/-! ## The refinement -/

section Refines

variable [DecidableEq τ] {s s' : State τ} {g : Ghost τ} {t : τ} {c : Choice} {p : Ptr}
  {log es : List (Event τ)}

/-- The mutex of a state moves with the state. -/
theorem mutexOf_moveTo (s : State τ) (t : τ) (m : Shared τ) (pc : Pc) :
    mutexOf (s.moveTo t m pc) =
      (mutexOf s).moveTo t (notifying m.raw (parkers m.word)) (place pc) := by
  simp only [mutexOf, Threads.moveTo, Threads.mk.injEq, true_and]
  funext u
  by_cases hu : u = t
  · subst hu
    rw [Function.update_self, Function.update_self]
  · rw [Function.update_of_ne hu, Function.update_of_ne hu]

/-- A step to the same place of the mutex's code is no step of the mutex. -/
theorem mutexOf_moveTo_same {m : Shared τ} {pc : Pc} (hraw : m.raw = s.mem.raw)
    (hword : parkers m.word = parkers s.mem.word) (hpc : place pc = place (s.pc t)) :
    mutexOf (s.moveTo t m pc) = mutexOf s := by
  rw [mutexOf_moveTo, hraw, hword, hpc]
  simp only [mutexOf, Threads.moveTo, Threads.mk.injEq, true_and]
  exact Function.update_eq_self t _

omit [DecidableEq τ] in
/-- A step of the mutex reports the mutex's own events. -/
theorem mutexEvents_raw (l : List (RawMutex.Event τ)) :
    (l.map Event.raw).flatMap mutexEvents = l := by
  induction l with
  | nil => rfl
  | cons e l ih => rw [List.map_cons, List.flatMap_cons, ih]; rfl

/-- `s'` stands for the state of the mutex after one step of `t`, or none. -/
def Stands (s : State τ) (t : τ) (s' : State τ) (es : List (Event τ)) : Prop :=
  (mutexOf s' = mutexOf s ∧ es.flatMap mutexEvents = []) ∨
    ∃ c', (RawMutex.machine τ).next (t, c') (mutexOf s) = some (mutexOf s', es.flatMap mutexEvents)

/-- A step of `t` in the mutex's code, found in the mutex with the parkers at their
contract. -/
theorem Stands.ofThread (c' : RawMutex.Choice) {m : Shared τ} {pc : Pc}
    (hr : RawMutex.threadStep t c' (mutexOf s).mem (place (s.pc t)) =
      some (notifying m.raw (parkers m.word), place pc, es.flatMap mutexEvents)) :
    Stands s t (s.moveTo t m pc) es := by
  refine .inr ⟨c', ?_⟩
  rw [mutexOf_moveTo]
  simp only [RawMutex.machine, mutexOf] at hr ⊢
  rw [hr]
  rfl

/-- A new futex stands with a word that nobody waits on. -/
theorem Stands.alloc {counter : ℕ} {state : U64}
    (hpc : s.pc t = .raw (.withThreadData counter state)) (haddr : IsNodeAddr p)
    (hfree : s.mem.raw.frame p = none) :
    Stands s t (s.moveTo t { s.mem with
      raw := s.mem.raw.alloc p t ThreadData.new
      word := Function.update s.mem.word p FutexParker.empty }
      (.raw (.setToken counter state p))) [] := by
  refine .ofThread { addr := p } ?_
  simp only [mutexOf, hpc, place, RawMutex.threadStep, notifying_frame]
  refine (if_pos ⟨haddr, by rw [hfree]; rfl, rfl⟩).trans ?_
  rw [notifying_alloc, parkers_update, decide_eq_false FutexParker.empty_ne_notified]
  rfl

/-- A futex stands after the swap of `unpark`. -/
theorem Stands.unpark {mode : RawMutex.Mode} (hpc : s.pc t = .raw (.unpark mode p)) :
    Stands s t (s.moveTo t { s.mem with
      word := Function.update s.mem.word p FutexParker.notified }
      (if s.mem.word p = FutexParker.parked then .wake p else .raw .outside))
      [.notified t mode p] := by
  refine .ofThread {} ?_
  simp only [mutexOf, hpc, place, RawMutex.threadStep]
  rw [notifying_park, parkers_update, decide_eq_true rfl]
  -- on its way to `wake_one` or not, the thread is outside the operation
  by_cases hword : s.mem.word p = FutexParker.parked <;> simp only [hword] <;> cases mode <;> rfl

/-- A step of the mutex on futexes, and what it is for the mutex on parkers. -/
theorem step_refines (f : Futexes s) (h : Inv (mutexOf s) g) (hr : step t c s = some (s', es)) :
    Futexes s' ∧ Stands s t s' es := by
  unfold step at hr
  split at hr
  · rename_i counter state hpc
    rw [Option.map_eq_some_iff] at hr
    obtain ⟨r, hthread, hr⟩ := hr
    cases hr
    obtain ⟨haddr, hfree, rfl⟩ := alloc_of_step hthread
    refine ⟨f.alloc h hpc hfree, .alloc hpc haddr hfree⟩
  · rename_i mode q hpc
    cases hr
    exact ⟨f.unpark h hpc, .unpark hpc⟩
  · rename_i pc hwith hun hpc
    rw [Option.map_eq_some_iff] at hr
    obtain ⟨r, hthread, hr⟩ := hr
    cases hr
    have hl : leavesParkers pc = true := by
      cases pc <;> first
        | rfl
        | exact absurd rfl (hwith _ _)
        | exact absurd rfl (hun _ _)
        | skip
      have hfits := f.fits t
      rw [hpc] at hfits
      exact absurd rfl (hfits.1 _)
    refine ⟨f.mutexStep hpc hl hthread, .ofThread c.toChoice ?_⟩
    rw [place_enter, mutexEvents_raw]
    simp only [mutexOf, hpc, place]
    rw [threadStep_notifying hl, hthread]
    rfl
  · rename_i q pc hpc
    rw [Option.map_eq_some_iff] at hr
    obtain ⟨⟨w, pc', es'⟩, howner, hr⟩ := hr
    cases hr
    refine ⟨f.park h hpc howner, ?_⟩
    have hfits := f.fits t
    rw [hpc] at hfits
    rcases park_step hfits.2.1 hfits.1 howner with ⟨rfl, hword, rfl⟩ | ⟨hin, -, hiff, -⟩
    · refine .ofThread {} ?_
      simp only [mutexOf, hpc, place, leave, RawMutex.threadStep]
      refine (if_pos (by simp [notifying, parkers, hword])).trans ?_
      rw [notifying_park, parkers_update, decide_eq_false FutexParker.empty_ne_notified]
      rfl
    · refine .inl ⟨mutexOf_moveTo_same rfl (parkers_update_of_iff hiff) ?_, rfl⟩
      rw [hpc]
      cases pc' <;> first | rfl | exact hin.elim
  · rename_i q hpc
    split at hr <;> cases hr
    · rename_i hsleep
      exact ⟨f.wakeNone hpc hsleep, .inl ⟨mutexOf_moveTo_same rfl rfl (by rw [hpc]; rfl), rfl⟩⟩
    · rename_i u rest hsleep
      refine ⟨f.wakeOne h hpc hsleep, .inl ⟨?_, rfl⟩⟩
      have hut : t ≠ u := by
        rintro rfl
        obtain ⟨call, hpu⟩ := f.sleeping (u := t) (p := q) (by rw [hsleep]; simp)
        rw [hpc] at hpu
        cases hpu
      have hfirst : mutexOf (s.moveTo u s.mem (rouse (s.pc u))) = mutexOf s :=
        mutexOf_moveTo_same rfl rfl (by cases s.pc u <;> rfl)
      refine (mutexOf_moveTo_same (by rfl) (by rfl) ?_).trans hfirst
      rw [Threads.moveTo_pc_of_ne _ _ _ hut, hpc]
      rfl

end Refines

end Mekong.Analysis.FutexMutex
