import Mekong.Analysis.RawMutexNodeSteps

/-!
# Every step of `RawMutex` keeps the invariant

Place by place, in the order of the source: the step of the thread keeps `Inv` for some
ghost, and `Effect` says how the queue and the lives of the nodes in that ghost follow
from what the step reports.
-/

set_option autoImplicit false

namespace Mekong.Analysis.RawMutex

open Mekong.Computation Mekong.Model Mekong.Program.RawMutex

variable {τ : Type} [DecidableEq τ] {s : State τ} {g : Ghost τ} {t : τ} {pc' : Pc} {c : Choice}
  {r : Mem τ × Pc × List (Event τ)}

/-! ## What a step reports -/

/-- The events that move a node through the queue. -/
def onQueue : Event τ → Bool
  | .pushed .. | .removed .. | .unparked .. => true
  | _ => false

/-- A node's life as far as the queue's events tell it: `some none` while it is queued,
`some (some (r, mode))` from its removal by `r` to its notification. -/
def life : Status τ → Option (Option (τ × Mode))
  | .queued => some none
  | .removed r mode => some (some (r, mode))
  | _ => none

/-- The events of `parker.unpark()`. -/
def unparkEvents (t : τ) (mode : Mode) (p : Ptr) : List (Event τ) :=
  match mode with
  | .plain => [.unparked t .plain p]
  | .fair => [.unparked t .fair p, .leftSlowFair t]

/-- How the ghost after a step of `t`, which left `word`, follows from its events. -/
inductive Effect (g : Ghost τ) (t : τ) (word : U64) : List (Event τ) → Ghost τ → Prop
  | quiet {es : List (Event τ)} {g' : Ghost τ} (hes : ∀ e ∈ es, onQueue e = false)
      (hq : g'.queue = g.queue) (hs : ∀ p, life (g'.status p) = life (g.status p)) :
      Effect g t word es g'
  | pushed {p : Ptr} (hp : g.status p = .inside) :
      Effect g t word [.pushed t p] ({ g with queue := p :: g.queue }.setStatus p .queued)
  | removed {mode : Mode} {p : Ptr} {q' : List Ptr} {o : Option τ} (hq : g.queue = q' ++ [p])
      (hw : mode = .fair → isLocked word = true) :
      Effect g t word [.removed t mode p word]
        ({ g with owner := o, holder := none, queue := q' }.setStatus p (.removed t mode))
  | unparked {mode : Mode} {p : Ptr} (hp : g.status p = .removed t mode) :
      Effect g t word (unparkEvents t mode p) (g.setStatus p (.woken mode))

/-- The result `r` of a step of `t` keeps the invariant. -/
def Advance (s : State τ) (g : Ghost τ) (t : τ) (r : Mem τ × Pc × List (Event τ)) : Prop :=
  ∃ g', Inv (s.moveTo t r.1 r.2.1) g' ∧ Effect g t r.1.word r.2.2 g'

section Quiet

variable {m' : Mem τ} {es : List (Event τ)} {g' : Ghost τ}

/-- A step that leaves the queue and the nodes' lives. -/
theorem Advance.quiet (h : Inv (s.moveTo t m' pc') g') (hes : ∀ e ∈ es, onQueue e = false)
    (hq : g'.queue = g.queue) (hs : g'.status = g.status) : Advance s g t (m', pc', es) :=
  ⟨g', h, .quiet hes hq fun p => by rw [hs]⟩

/-- A step that moves one node between stages of its life outside the queue. -/
theorem Advance.quiet_setStatus {p : Ptr} {x : Status τ}
    (h : Inv (s.moveTo t m' pc') (g.setStatus p x)) (hes : ∀ e ∈ es, onQueue e = false)
    (hx : life x = none) (hp : life (g.status p) = none) : Advance s g t (m', pc', es) := by
  refine ⟨_, h, .quiet hes rfl fun q => ?_⟩
  by_cases hqp : q = p
  · rw [hqp, Ghost.setStatus_self, hx, hp]
  · rw [Ghost.setStatus_of_ne _ _ hqp]

end Quiet

/-! ## Roles -/

/-- What a place says about the two locks and the thread to wake; `none` where ownership
depends on the node. -/
def role : Pc → Option (Bool × Bool × Bool × Option (Mode × Ptr))
  | .park _ | .readToken _ => none
  | pc => some (ownsLock pc, holdsQueue pc, marked pc, wakes pc)

omit [DecidableEq τ] in
/-- The role of a place, read as the invariant reads it. -/
theorem role_eq {m : Mem τ} {pc : Pc} {a b d : Bool} {e : Option (Mode × Ptr)}
    (h : role pc = some (a, b, d, e)) : (∀ p, pc ≠ .park p) ∧ (Owns m g pc ↔ a = true) ∧
      holdsQueue pc = b ∧ marked pc = d ∧ wakes pc = e := by
  cases pc <;> simp only [role, Option.some.injEq, Prod.mk.injEq, reduceCtorEq] at h <;>
    obtain ⟨rfl, rfl, rfl, rfl⟩ := h <;> exact ⟨by simp, Iff.rfl, rfl, rfl, rfl⟩

/-- A silent step between two places of one role. -/
theorem Inv.silent_role {x : Bool × Bool × Bool × Option (Mode × Ptr)} (h : Inv s g)
    (hpc : role (s.pc t) = some x) (hpc' : role pc' = some x) (hnode : NodeInv s.mem g t pc')
    (hstate : StateInv pc') (hwalk : WalkInv s.mem.node g.queue pc') :
    Inv (s.moveTo t s.mem pc') g := by
  obtain ⟨a, b, d, e⟩ := x
  obtain ⟨hpark, hown, hhold, hmark, hwake⟩ := role_eq (m := s.mem) (g := g) hpc
  obtain ⟨-, hown', hhold', hmark', hwake'⟩ := role_eq (m := s.mem) (g := g) hpc'
  exact h.silent hpark (hown'.trans hown.symm) (hhold'.trans hhold.symm)
    (by rw [hmark, hmark']; exact id) (hwake'.trans hwake.symm) hnode hstate hwalk

/-- A place without any role and any knowledge. -/
structure Plain (pc : Pc) : Prop where
  role : role pc = some (false, false, false, none)
  node : ∀ {σ : Type} (m : Mem σ) (g : Ghost σ) (u : σ), NodeInv m g u pc
  state : StateInv pc
  walk : ∀ node q, WalkInv node q pc

/-- Outside a call a thread has nothing. -/
theorem plain_outside : Plain .outside := ⟨rfl, fun _ _ _ => trivial, trivial, fun _ _ => trivial⟩

/-- At the load of `unlock_slow` a thread has nothing. -/
theorem plain_slowLoad : Plain .slowLoad :=
  ⟨rfl, fun _ _ _ => trivial, trivial, fun _ _ => trivial⟩

/-- At the load of `lock_slow` a thread has nothing. -/
theorem plain_load (counter : ℕ) : Plain (.load counter) :=
  ⟨rfl, fun _ _ _ => trivial, trivial, fun _ _ => trivial⟩

/-- At every place that a turn of `lock_slow` leads to a thread has nothing. -/
theorem plain_lockSlow (counter : ℕ) (state : U64) : Plain (lockSlow counter state) := by
  unfold lockSlow
  split
  · rename_i hl
    exact ⟨rfl, fun _ _ _ => trivial, hl, fun _ _ => trivial⟩
  · rename_i hl
    split
    · exact plain_load _
    · exact ⟨rfl, fun _ _ _ => trivial, by simpa [StateInv] using hl, fun _ _ => trivial⟩

/-- At every place that a turn of `unlock_slow` leads to a thread has nothing. -/
theorem plain_unlockSlow (state : U64) : Plain (unlockSlow state) := by
  unfold unlockSlow
  split
  · exact plain_outside
  · rename_i hq
    rw [not_or, Bool.not_eq_true] at hq
    exact ⟨rfl, fun _ _ _ => trivial, hq, fun _ _ => trivial⟩

/-- A silent step to a plain place. -/
theorem Inv.silent_plain (h : Inv s g) (hpc : role (s.pc t) = some (false, false, false, none))
    (hpc' : Plain pc') : Inv (s.moveTo t s.mem pc') g :=
  h.silent_role hpc hpc'.role (hpc'.node _ _ _) hpc'.state (hpc'.walk _ _)

/-! ## `lock` and `try_lock` -/

/-- The beginning of a call keeps the invariant. -/
theorem step_outside (h : Inv s g) (hpc : s.pc t = .outside)
    (hr : threadStep t c s.mem .outside = some r) : Advance s g t r := by
  have hrole : role (s.pc t) = some (false, false, false, none) := by rw [hpc]; rfl
  simp only [threadStep] at hr
  split at hr <;> cases hr
  all_goals
    refine .quiet (h.silent_role hrole rfl trivial trivial trivial) ?_ rfl rfl
    simp [onQueue]

/-- The beginning of the owner's call keeps the invariant. -/
theorem step_held (h : Inv s g) (hpc : s.pc t = .held)
    (hr : threadStep t c s.mem .held = some r) : Advance s g t r := by
  have hrole : role (s.pc t) = some (true, false, false, none) := by rw [hpc]; rfl
  simp only [threadStep] at hr
  split at hr <;> cases hr
  all_goals
    refine .quiet (h.silent_role hrole rfl trivial trivial trivial) ?_ rfl rfl
    simp [onQueue]

/-- The compare-exchange from `IDLE` succeeds. -/
theorem Inv.acquire_idle (h : Inv s g) (hpc : role (s.pc t) = some (false, false, false, none))
    (hw : s.mem.word = idle) (hpc' : pc' = .held ∨ pc' = .unlock) :
    Inv (s.moveTo t (s.mem.store lockedBit) pc') { g with owner := some t } := by
  obtain ⟨hpark, -, hhold, -, hwake⟩ := role_eq (m := s.mem) (g := g) hpc
  rcases hpc' with rfl | rfl <;>
    exact h.acquire hpark hwake.symm hhold rfl (by simp [hw]) (by simp) (by simp [hw])
      (by simp [hw]) (by simp [hw]) rfl (fun _ _ => trivial) (by simp) (by simp) trivial trivial

/-- The compare-exchange of `try_lock` keeps the invariant. -/
theorem step_tryLock (h : Inv s g) (hpc : s.pc t = .tryLock)
    (hr : threadStep t c s.mem .tryLock = some r) : Advance s g t r := by
  have hrole : role (s.pc t) = some (false, false, false, none) := by rw [hpc]; rfl
  simp only [threadStep] at hr
  split at hr <;> cases hr
  · rename_i hcas
    exact .quiet (h.acquire_idle hrole (compareExchangeWeak_ok hcas) (.inl rfl))
      (by simp [onQueue]) rfl rfl
  · exact .quiet (h.silent_plain hrole plain_outside) (by simp) rfl rfl

/-- The compare-exchange of `is_locked` keeps the invariant. -/
theorem step_isLocked (h : Inv s g) (hpc : s.pc t = .isLocked)
    (hr : threadStep t c s.mem .isLocked = some r) : Advance s g t r := by
  have hrole : role (s.pc t) = some (false, false, false, none) := by rw [hpc]; rfl
  simp only [threadStep] at hr
  split at hr <;> cases hr
  · rename_i hcas
    exact .quiet (h.acquire_idle hrole (compareExchangeWeak_ok hcas) (.inr rfl))
      (by simp [onQueue]) rfl rfl
  · exact .quiet (h.silent_plain hrole plain_outside) (by simp) rfl rfl

/-- The compare-exchange of `lock` keeps the invariant. -/
theorem step_lock (h : Inv s g) (hpc : s.pc t = .lock)
    (hr : threadStep t c s.mem .lock = some r) : Advance s g t r := by
  have hrole : role (s.pc t) = some (false, false, false, none) := by rw [hpc]; rfl
  simp only [threadStep] at hr
  split at hr <;> cases hr
  · rename_i hcas
    exact .quiet (h.acquire_idle hrole (compareExchangeWeak_ok hcas) (.inl rfl))
      (by simp [onQueue]) rfl rfl
  · exact .quiet (h.silent_plain hrole (plain_load 0)) (by simp) rfl rfl

/-- The load of `lock_slow` keeps the invariant. -/
theorem step_load {counter : ℕ} (h : Inv s g) (hpc : s.pc t = .load counter)
    (hr : threadStep t c s.mem (.load counter) = some r) : Advance s g t r := by
  simp only [threadStep, Option.some.injEq] at hr
  subst hr
  exact .quiet (h.silent_plain (by rw [hpc]; rfl) (plain_lockSlow _ _)) (by simp) rfl rfl

/-- The compare-exchange that takes a free lock keeps the invariant. -/
theorem step_grab {counter : ℕ} {state : U64} (h : Inv s g) (hpc : s.pc t = .grab counter state)
    (hr : threadStep t c s.mem (.grab counter state) = some r) : Advance s g t r := by
  have hrole : role (s.pc t) = some (false, false, false, none) := by rw [hpc]; rfl
  have hl : isLocked state = false := by
    have hst := h.state t
    rwa [hpc] at hst
  simp only [threadStep] at hr
  split at hr <;> cases hr
  · rename_i hcas
    have hw := compareExchangeWeak_ok hcas
    subst hw
    obtain ⟨hpark, -, hhold, -, hwake⟩ := role_eq (m := s.mem) (g := g) hrole
    have hinv : Inv (s.moveTo t (s.mem.store (s.mem.word ||| lockedBit)) .held)
        { g with owner := some t } :=
      h.acquire hpark hwake.symm hhold rfl hl (by simp) (by simp) (by simp) (by simp) rfl
        (fun _ _ => trivial) (by simp) (by simp) trivial trivial
    exact .quiet hinv (by simp [onQueue]) rfl rfl
  · exact .quiet (h.silent_plain hrole (plain_lockSlow _ _)) (by simp) rfl rfl

/-! ## `park!` -/

/-- A node handed out keeps the invariant. -/
theorem step_withThreadData {counter : ℕ} {state : U64} (h : Inv s g)
    (hpc : s.pc t = .withThreadData counter state)
    (hr : threadStep t c s.mem (.withThreadData counter state) = some r) : Advance s g t r := by
  simp only [threadStep] at hr
  split at hr <;> cases hr
  rename_i hc
  have hf : s.mem.frame c.addr = none := by simpa using hc.2.1
  exact .quiet_setStatus (h.alloc hpc hc.1 hf hc.2.2) (by simp) rfl (by rw [h.status_free hf]; rfl)

/-- A write into the thread's own node before the push. -/
theorem Inv.prepare {p : Ptr} {f : ThreadData → ThreadData} (h : Inv s g)
    (hpc : role (s.pc t) = some (false, false, false, none)) (hp : ownNode (s.pc t) = some p)
    (hpc' : role pc' = some (false, false, false, none))
    (hnode : NodeInv (s.mem.modify p f) g t pc') (hstate : StateInv pc')
    (hwalk : ∀ node q, WalkInv node q pc') : Inv (s.moveTo t (s.mem.modify p f) pc') g := by
  obtain ⟨hpark, hown, hhold, hmark, hwake⟩ := role_eq (m := s.mem) (g := g) hpc
  refine h.writeOwn hp hpark hwake hhold (role_eq (m := s.mem) (g := g) hpc').2.2.1 hmark
    (by simp [hown]) (fun m g' => ?_) hnode hstate hwalk
  simp [(role_eq (m := m) (g := g') hpc').2.1]

/-- The write of the token keeps the invariant. -/
theorem step_setToken {counter : ℕ} {state : U64} {p : Ptr} (h : Inv s g)
    (hpc : s.pc t = .setToken counter state p)
    (hr : threadStep t c s.mem (.setToken counter state p) = some r) : Advance s g t r := by
  have hn := h.node t
  have hst := h.state t
  rw [hpc] at hn hst
  simp only [threadStep] at hr
  cases hr
  refine .quiet (h.prepare (by rw [hpc]; rfl) (by rw [hpc]; rfl) rfl ?_ hst fun _ _ => trivial)
    (by simp) rfl rfl
  exact ⟨⟨hn.frame, hn.addr, hn.status, by simpa using hn.parker⟩, by simp⟩

/-- The write of `queue_tail` keeps the invariant. -/
theorem step_setTail {counter : ℕ} {state : U64} {p : Ptr} (h : Inv s g)
    (hpc : s.pc t = .setTail counter state p)
    (hr : threadStep t c s.mem (.setTail counter state p) = some r) : Advance s g t r := by
  have hn := h.node t
  have hst := h.state t
  rw [hpc] at hn hst
  obtain ⟨hin, htoken⟩ := hn
  simp only [threadStep] at hr
  cases hr
  refine .quiet (h.prepare (by rw [hpc]; rfl) (by rw [hpc]; rfl) rfl ?_ hst fun _ _ => trivial)
    (by simp) rfl rfl
  exact ⟨⟨hin.frame, hin.addr, hin.status, by simpa using hin.parker⟩, by simpa using htoken,
    by simp⟩

/-- The write of `prev` keeps the invariant. -/
theorem step_setPrev {counter : ℕ} {state : U64} {p : Ptr} (h : Inv s g)
    (hpc : s.pc t = .setPrev counter state p)
    (hr : threadStep t c s.mem (.setPrev counter state p) = some r) : Advance s g t r := by
  have hn := h.node t
  have hst := h.state t
  rw [hpc] at hn hst
  obtain ⟨hin, htoken, htail⟩ := hn
  simp only [threadStep] at hr
  cases hr
  have hin' : Inside (s.mem.modify p ({ · with prev := null })) g t p :=
    ⟨hin.frame, hin.addr, hin.status, by simpa using hin.parker⟩
  have hrole : role (s.pc t) = some (false, false, false, none) := by rw [hpc]; rfl
  split
  · rename_i hq
    refine .quiet (h.prepare hrole (by rw [hpc]; rfl) rfl ?_ hst fun _ _ => trivial)
      (by simp) rfl rfl
    exact ⟨hin', by simpa using htoken, by simpa using htail, by simp, fun hne => absurd hq hne⟩
  · refine .quiet (h.prepare hrole (by rw [hpc]; rfl) rfl ?_ hst fun _ _ => trivial)
      (by simp) rfl rfl
    exact ⟨hin', by simpa using htoken, by simpa using htail, by simp⟩

/-- The write of `next` keeps the invariant. -/
theorem step_setNext {counter : ℕ} {state : U64} {p : Ptr} (h : Inv s g)
    (hpc : s.pc t = .setNext counter state p)
    (hr : threadStep t c s.mem (.setNext counter state p) = some r) : Advance s g t r := by
  have hn := h.node t
  have hst := h.state t
  rw [hpc] at hn hst
  obtain ⟨hin, htoken, htail, hprev⟩ := hn
  simp only [threadStep] at hr
  cases hr
  refine .quiet (h.prepare (by rw [hpc]; rfl) (by rw [hpc]; rfl) rfl ?_ hst fun _ _ => trivial)
    (by simp) rfl rfl
  exact ⟨⟨hin.frame, hin.addr, hin.status, by simpa using hin.parker⟩, by simpa using htoken,
    by simpa using htail, by simpa using hprev, by simp⟩

/-- The push keeps the invariant. -/
theorem step_push {counter : ℕ} {state : U64} {p : Ptr} (h : Inv s g)
    (hpc : s.pc t = .push counter state p)
    (hr : threadStep t c s.mem (.push counter state p) = some r) : Advance s g t r := by
  have hp : ownNode (s.pc t) = some p := by rw [hpc]; rfl
  have hstatus := ((h.node t).inside hp).status
  simp only [threadStep] at hr
  split at hr <;> cases hr
  · rename_i hcas
    have hw := compareExchangeWeak_ok hcas
    subst hw
    exact ⟨_, h.push hpc, .pushed hstatus⟩
  · have hplain := plain_lockSlow counter (by assumption)
    have hrole : role (s.pc t) = some (false, false, false, none) := by rw [hpc]; rfl
    obtain ⟨hpark, hown, hhold, hmark, hwake⟩ := role_eq (m := s.mem) (g := g) hrole
    refine .quiet_setStatus (h.leave hp hpark hwake hhold ?_ hmark (fun g' => ?_)
      (fun _ _ => hplain.node _ _ _) hplain.state hplain.walk) (by simp) rfl (by rw [hstatus]; rfl)
    · exact (role_eq (m := s.mem) (g := g) hplain.role).2.2.1
    · exact (role_eq hplain.role).2.1.trans hown.symm

/-- The wait for a notification keeps the invariant. -/
theorem step_park {p : Ptr} (h : Inv s g) (hpc : s.pc t = .park p)
    (hr : threadStep t c s.mem (.park p) = some r) : Advance s g t r := by
  simp only [threadStep] at hr
  split at hr <;> cases hr
  rename_i hpk
  obtain ⟨mode, hwoken⟩ := h.woken_of_parker hpc hpk
  exact .quiet_setStatus (h.wakeUp hpc hpk) (by simp) rfl (by rw [hwoken]; rfl)

/-- The read of the token keeps the invariant. -/
theorem step_readToken {p : Ptr} (h : Inv s g) (hpc : s.pc t = .readToken p)
    (hr : threadStep t c s.mem (.readToken p) = some r) : Advance s g t r := by
  have hp : ownNode (s.pc t) = some p := by rw [hpc]; rfl
  have hlife : life (g.status p) = none := by rw [((h.node t).inside hp).status]; rfl
  have hown : Owns s.mem g (s.pc t) ↔ (s.mem.node p).unparkToken = tokenHandoff := by
    rw [hpc]; rfl
  have hrun : (∀ q, s.pc t ≠ .park q) ∧ wakes (s.pc t) = none ∧ holdsQueue (s.pc t) = false ∧
      marked (s.pc t) = false := by
    rw [hpc]
    exact ⟨by simp, rfl, rfl, rfl⟩
  obtain ⟨hpark, hwake, hhold, hmark⟩ := hrun
  simp only [threadStep] at hr
  split at hr <;> cases hr
  · rename_i htoken
    exact .quiet_setStatus (h.leave hp hpark hwake hhold rfl hmark
      (fun _ => iff_of_true rfl (hown.mpr htoken)) (fun _ _ => trivial) trivial
      fun _ _ => trivial) (by simp [onQueue]) rfl hlife
  · rename_i htoken
    exact .quiet_setStatus (h.leave hp hpark hwake hhold rfl hmark
      (fun _ => iff_of_false Bool.false_ne_true (mt hown.mp htoken)) (fun _ _ => trivial) trivial
      fun _ _ => trivial) (by simp) rfl hlife

/-! ## `unlock` and `unlock_fair` -/

omit [DecidableEq τ] in
/-- A running owner's word is locked, and marked only if the owner is. -/
theorem Inv.owner_word (h : Inv s g) (ho : Owns s.mem g (s.pc t)) :
    g.owner = some t ∧ isLocked s.mem.word = true ∧
      (marked (s.pc t) = false → isTimeout s.mem.word = false) := by
  have howner := (h.owner t).mp ho
  refine ⟨howner, by rw [h.locked, howner]; rfl, fun hm => ?_⟩
  cases hw : isTimeout s.mem.word with
  | false => rfl
  | true =>
    obtain ⟨u, hu, hmu⟩ := h.timeout hw
    rw [howner] at hu
    obtain rfl := Option.some.inj hu
    rw [hm] at hmu
    cases hmu

/-- The owner clears its bit and goes on as the word it replaced says. -/
theorem Inv.release_plain {w : U64} (h : Inv s g) (hpark : ∀ p, s.pc t ≠ .park p)
    (hwake : wakes (s.pc t) = none) (hhold : holdsQueue (s.pc t) = false)
    (howner : g.owner = some t) (hl : isLocked w = false)
    (hq : isQueueLocked w = isQueueLocked s.mem.word) (ht : isTimeout w = false)
    (hh : queueHead w = queueHead s.mem.word) (hpc' : Plain pc') :
    Inv (s.moveTo t (s.mem.store w) pc') { g with owner := none } := by
  obtain ⟨-, -, hhold', -, hwake'⟩ := role_eq (m := s.mem) (g := g) hpc'.role
  refine h.release hpark (hwake'.trans hwake.symm) hhold hhold' howner hl hq ht hh (fun m g' => ?_)
    (fun _ _ => hpc'.node _ _ _) hpc'.state (hpc'.walk _ _)
  simp [(role_eq (m := m) (g := g') hpc'.role).2.1]

/-- After the release a thread has nothing. -/
theorem plain_afterRelease (w : U64) :
    Plain (if isQueueLocked w = true ∨ queueHead w = null then .outside else .slowLoad) := by
  split
  · exact plain_outside
  · exact plain_slowLoad

/-- The `fetch_sub` of `unlock` keeps the invariant. -/
theorem step_unlock (h : Inv s g) (hpc : s.pc t = .unlock)
    (hr : threadStep t c s.mem .unlock = some r) : Advance s g t r := by
  obtain ⟨howner, hl, ht⟩ := h.owner_word (t := t) (by rw [hpc]; rfl)
  simp only [threadStep, sub_lockedBit hl] at hr
  cases hr
  refine .quiet (h.release_plain (by simp [hpc]) (by rw [hpc]; rfl) (by rw [hpc]; rfl) howner
    (by simp) (by simp) ?_ (by simp) (plain_afterRelease _)) (by simp [onQueue]) rfl rfl
  simp [ht (by rw [hpc]; rfl)]

/-- The answer of `is_timeout` keeps the invariant. -/
theorem step_unlockFair (h : Inv s g) (hpc : s.pc t = .unlockFair)
    (hr : threadStep t c s.mem .unlockFair = some r) : Advance s g t r := by
  simp only [threadStep] at hr
  cases hr
  have hrole : role (s.pc t) = some (true, false, false, none) := by rw [hpc]; rfl
  split
  · exact .quiet (h.silent_role hrole rfl trivial trivial trivial) (by simp) rfl rfl
  · exact .quiet (h.silent_role hrole rfl trivial (.inl rfl) trivial) (by simp) rfl rfl

/-- The `fetch_or` of `unlock_fair` keeps the invariant. -/
theorem step_markTimeout (h : Inv s g) (hpc : s.pc t = .markTimeout)
    (hr : threadStep t c s.mem .markTimeout = some r) : Advance s g t r := by
  obtain ⟨howner, -, -⟩ := h.owner_word (t := t) (by rw [hpc]; rfl)
  simp only [threadStep] at hr
  split at hr <;> cases hr
  · rename_i hq
    exact .quiet (h.markTimeout (by simp [hpc]) (by rw [hpc]; rfl) (by rw [hpc]; rfl) howner
      (by simp) (by simp) (by simp) rfl (fun _ _ => rfl) (fun _ _ => trivial) trivial
      fun e => hq (h.head_null_iff.mpr e)) (by simp [onQueue]) rfl rfl
  · exact .quiet (h.markTimeout (by simp [hpc]) (by rw [hpc]; rfl) (by rw [hpc]; rfl) howner
      (by simp) (by simp) (by simp) (by simp [marked]) (fun _ _ => rfl) (fun _ _ => trivial)
      (.inr rfl) trivial) (by simp) rfl rfl

/-- The `fetch_and` of `unlock_fair` keeps the invariant. -/
theorem step_clearBits {bit : U64} (h : Inv s g) (hpc : s.pc t = .clearBits bit)
    (hr : threadStep t c s.mem (.clearBits bit) = some r) : Advance s g t r := by
  obtain ⟨howner, -, ht⟩ := h.owner_word (t := t) (by rw [hpc]; rfl)
  have hst := h.state t
  rw [hpc] at hst ht
  simp only [threadStep] at hr
  cases hr
  have hrun : (∀ p, s.pc t ≠ .park p) ∧ wakes (s.pc t) = none ∧ holdsQueue (s.pc t) = false := by
    rw [hpc]
    exact ⟨by simp, rfl, rfl⟩
  obtain ⟨hpark, hwake, hhold⟩ := hrun
  rcases hst with rfl | rfl
  · exact .quiet (h.release_plain hpark hwake hhold howner (by simp) (by simp)
      (by simp [ht (by simp [marked])]) (by simp) (plain_afterRelease _)) (by simp [onQueue]) rfl rfl
  · exact .quiet (h.release_plain hpark hwake hhold howner (by simp) (by simp)
      (by simp) (by simp) (plain_afterRelease _)) (by simp [onQueue]) rfl rfl

/-! ## Taking the queue lock -/

omit [DecidableEq τ] in
/-- The walk begins at the word's pointer. -/
theorem Inv.outer (h : Inv s g) (hq : g.queue ≠ [])
    (hs : LazyQueue.Settled null (tailOf s.mem.node) (prevOf s.mem.node) g.queue) :
    LazyQueue.Scanning null (tailOf s.mem.node) (prevOf s.mem.node) g.queue
      (queueHead s.mem.word) (queueHead s.mem.word) := by
  rw [h.head]
  cases hg : g.queue with
  | nil => exact absurd hg hq
  | cons x l =>
    rw [hg] at hs
    exact hs.scan

/-- The load of `unlock_slow` keeps the invariant. -/
theorem step_slowLoad (h : Inv s g) (hpc : s.pc t = .slowLoad)
    (hr : threadStep t c s.mem .slowLoad = some r) : Advance s g t r := by
  simp only [threadStep] at hr
  cases hr
  exact .quiet (h.silent_plain (by rw [hpc]; rfl) (plain_unlockSlow _)) (by simp) rfl rfl

/-- The compare-exchange of `unlock_slow` keeps the invariant. -/
theorem step_slowLock {state : U64} (h : Inv s g) (hpc : s.pc t = .slowLock state)
    (hr : threadStep t c s.mem (.slowLock state) = some r) : Advance s g t r := by
  have hst := h.state t
  rw [hpc] at hst
  simp only [threadStep] at hr
  split at hr <;> cases hr
  · rename_i hcas
    have hw := compareExchangeWeak_ok hcas
    subst hw
    obtain ⟨hfree, hhead⟩ := hst
    have hq : g.queue ≠ [] := fun e => hhead (h.head_null_iff.mpr e)
    exact .quiet (h.lockQueue (by simp [hpc]) (by rw [hpc]; rfl) hfree rfl (by simp) (by simp)
      (by simp) (by simp) (by rw [hpc]; exact id) (fun _ _ => by rw [hpc]; rfl)
      (fun _ _ => trivial) trivial (h.outer hq (h.settled (h.holder_none hfree)))) (by simp) rfl rfl
  · exact .quiet (h.silent_plain (by rw [hpc]; rfl) (plain_unlockSlow _)) (by simp) rfl rfl

/-- The loop of `unlock_slow_fair` before it has the queue lock. -/
theorem Inv.unlockSlowFair (h : Inv s g) (hpc : role (s.pc t) = some (true, false, true, none))
    (hq : g.queue ≠ []) (counter : ℕ) (state : U64) :
    Inv (s.moveTo t s.mem (unlockSlowFair counter state)) g := by
  unfold Program.RawMutex.unlockSlowFair
  split
  · exact h.silent_role hpc rfl trivial trivial hq
  · rename_i hst
    exact h.silent_role hpc rfl trivial (by simpa [StateInv] using hst) hq

/-- The load of `unlock_slow_fair` keeps the invariant. -/
theorem step_fairLoad {counter : ℕ} (h : Inv s g) (hpc : s.pc t = .fairLoad counter)
    (hr : threadStep t c s.mem (.fairLoad counter) = some r) : Advance s g t r := by
  have hw := h.walk t
  rw [hpc] at hw
  simp only [threadStep] at hr
  cases hr
  exact .quiet (h.unlockSlowFair (by rw [hpc]; rfl) hw _ _) (by simp) rfl rfl

/-- The compare-exchange of `unlock_slow_fair` keeps the invariant. -/
theorem step_fairLock {counter : ℕ} {state : U64} (h : Inv s g)
    (hpc : s.pc t = .fairLock counter state)
    (hr : threadStep t c s.mem (.fairLock counter state) = some r) : Advance s g t r := by
  have hst := h.state t
  have hwalk := h.walk t
  rw [hpc] at hst hwalk
  simp only [threadStep] at hr
  split at hr <;> cases hr
  · rename_i hcas
    have hw := compareExchangeWeak_ok hcas
    subst hw
    -- a fair unlock has seen a waiter, and only the owner removes the last one
    rw [if_neg fun e => hwalk (h.head_null_iff.mp e)]
    exact .quiet (h.lockQueue (by simp [hpc]) (by rw [hpc]; rfl) hst rfl (by simp) (by simp)
      (by simp) (by simp) (by rw [hpc]; exact id) (fun _ _ => by rw [hpc]; rfl)
      (fun _ _ => trivial) trivial (h.outer hwalk (h.settled (h.holder_none hst)))) (by simp) rfl rfl
  · exact .quiet (h.unlockSlowFair (by rw [hpc]; rfl) hwalk _ _) (by simp) rfl rfl

/-! ## The walk of the holder of the queue lock -/

/-- The scan's read of `queue_tail` keeps the invariant. -/
theorem step_scanTail {mode : Mode} {state : U64} {current : Ptr} (h : Inv s g)
    (hpc : s.pc t = .scanTail mode state current)
    (hr : threadStep t c s.mem (.scanTail mode state current) = some r) : Advance s g t r := by
  have hw := h.walk t
  rw [hpc] at hw
  simp only [threadStep] at hr
  split at hr <;> cases hr
  · rename_i htail
    exact .quiet (h.silent_role (by rw [hpc]; rfl) rfl trivial trivial ⟨hw, htail⟩) (by simp) rfl rfl
  · rename_i htail
    exact .quiet (h.silent_role (by rw [hpc]; rfl) rfl trivial trivial (hw.found htail))
      (by simp) rfl rfl

/-- The scan's read of `next` keeps the invariant. -/
theorem step_scanNext {mode : Mode} {state : U64} {current : Ptr} (h : Inv s g)
    (hpc : s.pc t = .scanNext mode state current)
    (hr : threadStep t c s.mem (.scanNext mode state current) = some r) : Advance s g t r := by
  have hw := h.walk t
  rw [hpc] at hw
  simp only [threadStep] at hr
  cases hr
  exact .quiet (h.silent_role (by rw [hpc]; rfl) rfl trivial trivial ⟨hw.1, hw.2, rfl⟩)
    (by simp) rfl rfl

omit [DecidableEq τ] in
/-- The node behind an unmarked one is the one its `next` field names. -/
theorem Inv.next (h : Inv s g) {a current : Ptr}
    (hw : LazyQueue.Scanning null (tailOf s.mem.node) (prevOf s.mem.node) g.queue a current)
    (htail : (s.mem.node current).queueTail = null) :
    ∃ u rest, g.queue = u ++ current :: (s.mem.node current).next :: rest := by
  obtain ⟨u, n, rest, hq⟩ := hw.next h.null_notMem htail
  have hlinks := h.links
  rw [hq] at hlinks
  have hn : (s.mem.node current).next = n :=
    (List.isChain_cons_cons.mp hlinks.right_of_append).1
  exact ⟨u, rest, by rw [hn, hq]⟩

/-- The scan's write of `prev` keeps the invariant. -/
theorem step_scanPrev {mode : Mode} {state : U64} {current next : Ptr} (h : Inv s g)
    (hpc : s.pc t = .scanPrev mode state current next)
    (hr : threadStep t c s.mem (.scanPrev mode state current next) = some r) :
    Advance s g t r := by
  have hw := h.walk t
  rw [hpc] at hw
  obtain ⟨hscan, htail, rfl⟩ := hw
  obtain ⟨u, rest, hq⟩ := h.next hscan htail
  simp only [threadStep] at hr
  cases hr
  refine .quiet (h.writeQueued (by rw [hpc]; rfl) rfl (by simp [hq]) (fun _ => ⟨rfl, rfl, rfl⟩)
    (by rw [hpc]; exact id) (by rw [hpc]; rfl) trivial trivial ?_) (by simp) rfl rfl
  simp only [WalkInv, tailOf_modify_prev, prevOf_modify]
  exact hscan.advance h.nodup htail hq h.null_notMem

/-- The write of the tail to the head keeps the invariant. -/
theorem step_markHead {mode : Mode} {state : U64} {queueTail : Ptr} (h : Inv s g)
    (hpc : s.pc t = .markHead mode state queueTail)
    (hr : threadStep t c s.mem (.markHead mode state queueTail) = some r) : Advance s g t r := by
  have hw := h.walk t
  rw [hpc] at hw
  have hlinked := hw.mark h.nodup
  rw [← tailOf_modify, ← prevOf_modify_tail s.mem (queueHead state) queueTail] at hlinked
  have hhead : queueHead state ∈ g.queue := hw.mem.1
  have hhold : holdsQueue (s.pc t) = true := by rw [hpc]; rfl
  simp only [threadStep, afterMark] at hr
  cases hr
  split
  · rename_i hc
    obtain ⟨rfl, hl⟩ := hc
    exact .quiet (h.writeQueued hhold rfl hhead (fun _ => ⟨rfl, rfl, rfl⟩) (by rw [hpc]; exact id)
      (by rw [hpc]; rfl) trivial hl ⟨List.ne_nil_of_mem hhead, .inr ⟨_, _, hlinked⟩⟩)
      (by simp) rfl rfl
  · rename_i hc
    refine .quiet (h.writeQueued hhold rfl hhead (fun _ => ⟨rfl, rfl, rfl⟩) (by rw [hpc]; exact id)
      (by rw [hpc]; rfl) trivial ?_ hlinked) (by simp) rfl rfl
    intro hm
    simpa [hm] using hc

/-- The compare-exchange that gives up keeps the invariant. -/
theorem step_giveUp {state : U64} (h : Inv s g) (hpc : s.pc t = .giveUp state)
    (hr : threadStep t c s.mem (.giveUp state) = some r) : Advance s g t r := by
  have hw := h.walk t
  rw [hpc] at hw
  obtain ⟨hq, hs⟩ := hw
  simp only [threadStep] at hr
  split at hr <;> cases hr
  · rename_i hcas
    have hword := compareExchangeWeak_ok hcas
    subst hword
    exact .quiet (h.unlockQueue (by simp [hpc]) (by rw [hpc]; rfl) (by rw [hpc]; rfl) rfl (by simp)
      (by simp) (by simp) (by simp) (by rw [hpc]; exact id) (fun _ _ => by rw [hpc]; rfl) hs
      (fun _ _ => trivial) trivial trivial) (by simp) rfl rfl
  · rename_i hcas
    rw [compareExchangeWeak_err hcas]
    exact .quiet (h.silent_role (by rw [hpc]; rfl) rfl trivial trivial (h.outer hq hs))
      (by simp) rfl rfl

/-- The read of `prev` at the tail keeps the invariant. -/
theorem step_readPrev {mode : Mode} {state : U64} {queueTail : Ptr} (h : Inv s g)
    (hpc : s.pc t = .readPrev mode state queueTail)
    (hr : threadStep t c s.mem (.readPrev mode state queueTail) = some r) : Advance s g t r := by
  have hw := h.walk t
  have hst := h.state t
  rw [hpc] at hw hst
  have hiff := hw.tail_eq_head_iff h.null_notMem h.nodup
  simp only [threadStep] at hr
  split at hr <;> cases hr
  · rename_i hp
    exact .quiet (h.silent_role (by rw [hpc]; rfl) rfl trivial hst ⟨hw, hiff.mp hp⟩)
      (by simp) rfl rfl
  · rename_i hp
    exact .quiet (h.silent_role (by rw [hpc]; rfl) rfl trivial trivial ⟨hw, mt hiff.mpr hp, rfl⟩)
      (by simp) rfl rfl

/-! ## The removal -/

omit [DecidableEq τ] in
/-- Whose the lock is after a removal by `t`. -/
theorem Inv.removalOwner (h : Inv s g) {mode : Mode} {p : Ptr} (hp : p ∈ g.queue)
    (hsf : inSlowFair (s.pc t) = decide (mode = .fair)) :
    ∃ o, (inSlowFair (s.pc t) = true ∧ mode = .fair ∧ ∃ u, s.pc u = .park p ∧ o = some u) ∨
      (inSlowFair (s.pc t) = false ∧ mode = .plain ∧ o = g.owner) := by
  obtain ⟨u, hu, -⟩ := h.parked hp
  cases mode with
  | plain => exact ⟨g.owner, .inr ⟨hsf, rfl, rfl⟩⟩
  | fair => exact ⟨some u, .inl ⟨hsf, rfl, u, hu, rfl⟩⟩

omit [DecidableEq τ] in
/-- A thread in `unlock_slow_fair` owns the lock. -/
theorem Inv.owner_of_slowFair (h : Inv s g) {u : τ} (hsf : inSlowFair (s.pc u) = true) :
    g.owner = some u := by
  refine (h.owner u).mp ?_
  cases hpc : s.pc u <;> rw [hpc] at hsf <;> first | exact hsf | cases hsf

/-- The removal of the only node keeps the invariant. -/
theorem step_removeLast {mode : Mode} {state : U64} {queueTail : Ptr} (h : Inv s g)
    (hpc : s.pc t = .removeLast mode state queueTail)
    (hr : threadStep t c s.mem (.removeLast mode state queueTail) = some r) : Advance s g t r := by
  have hw := h.walk t
  have hst := h.state t
  rw [hpc] at hw hst
  obtain ⟨hlinked, htail⟩ := hw
  have hne : g.queue ≠ [] := List.ne_nil_of_mem hlinked.1.mem.1
  have hhold : holdsQueue (s.pc t) = true := by rw [hpc]; rfl
  have hsf : inSlowFair (s.pc t) = decide (mode = .fair) := by rw [hpc]; rfl
  simp only [threadStep] at hr
  split at hr <;> cases hr
  · rename_i hcas
    have hword := compareExchangeWeak_ok hcas
    subst hword
    -- the linked part is the head alone, so it is the whole queue
    have hq : g.queue = [] ++ [queueTail] := by
      rw [htail, h.head] at hlinked ⊢
      cases hg : g.queue with
      | nil => exact absurd hg hne
      | cons x l =>
        have hnd := h.nodup
        rw [hg] at hlinked hnd
        rw [hlinked.eq_singleton hnd]
        rfl
    obtain ⟨o, ho⟩ := h.removalOwner (p := queueTail) (by simp [hq]) hsf
    refine ⟨_, h.remove hhold rfl hq (.inl rfl) (fun _ u hu => ?_) ho ?_ ?_ ?_ ?_, .removed hq ?_⟩
    · -- another thread in `unlock_slow_fair` would own the lock
      cases hsu : inSlowFair (s.pc u) with
      | false => rfl
      | true =>
        have hou := h.owner_of_slowFair hsu
        cases mode with
        | plain =>
          rw [h.owner_none (hst rfl)] at hou
          cases hou
        | fair =>
          rw [h.owner_of_slowFair (u := t) (by rw [hsf]; rfl)] at hou
          exact absurd (Option.some.inj hou).symm hu
    · cases mode <;> simp [removedWord]
    · cases mode <;> simp [removedWord]
    · cases mode <;> simp [removedWord]
    · cases mode <;> simp [removedWord]
    · rintro rfl
      have hl := h.locked
      rw [h.owner_of_slowFair (u := t) (by rw [hsf]; rfl)] at hl
      simpa [removedWord] using hl
  · rename_i hcas
    rw [compareExchangeWeak_err hcas, retryRemove, if_neg fun e => hne (h.head_null_iff.mp e)]
    exact .quiet (h.silent_role (by rw [hpc]; rfl) rfl trivial trivial
      (h.outer hne (.inr ⟨_, _, hlinked⟩))) (by simp) rfl rfl

/-- The write of the new tail keeps the invariant. -/
theorem step_setNewTail {mode : Mode} {state : U64} {queueTail newTail : Ptr} (h : Inv s g)
    (hpc : s.pc t = .setNewTail mode state queueTail newTail)
    (hr : threadStep t c s.mem (.setNewTail mode state queueTail newTail) = some r) :
    Advance s g t r := by
  have hw := h.walk t
  rw [hpc] at hw
  obtain ⟨hlinked, hne, rfl⟩ := hw
  simp only [threadStep] at hr
  cases hr
  refine .quiet (h.writeQueued (by rw [hpc]; rfl) rfl hlinked.1.mem.1 (fun _ => ⟨rfl, rfl, rfl⟩)
    (by rw [hpc]; exact id) (by rw [hpc]; rfl) trivial trivial ?_) (by simp) rfl rfl
  simp only [WalkInv, tailOf_modify, prevOf_modify_tail]
  exact hlinked.cut h.nodup hne

/-- The release of the queue lock keeps the invariant. -/
theorem step_unlockQueue {mode : Mode} {queueTail : Ptr} (h : Inv s g)
    (hpc : s.pc t = .unlockQueue mode queueTail)
    (hr : threadStep t c s.mem (.unlockQueue mode queueTail) = some r) : Advance s g t r := by
  have hw := h.walk t
  rw [hpc] at hw
  obtain ⟨q', hq, hne, hs⟩ := hw
  have hsf : inSlowFair (s.pc t) = decide (mode = .fair) := by rw [hpc]; rfl
  obtain ⟨o, ho⟩ := h.removalOwner (p := queueTail) (by simp [hq]) hsf
  simp only [threadStep] at hr
  cases hr
  refine ⟨_, h.remove (by rw [hpc]; rfl) rfl hq hs (fun e => absurd e hne) ho ?_ ?_ ?_ ?_,
    .removed hq ?_⟩
  · cases mode <;> simp [unlockQueueMask]
  · cases mode <;> simp [unlockQueueMask]
  · cases mode <;> simp [unlockQueueMask]
  · have hh : queueHead s.mem.word = q'.headD null := by
      rw [h.head, hq]
      cases q' with
      | nil => exact absurd rfl hne
      | cons x l => rfl
    cases mode <;> simpa [unlockQueueMask] using hh
  · rintro rfl
    have hl := h.locked
    rw [h.owner_of_slowFair (u := t) (by rw [hsf]; rfl)] at hl
    simpa [unlockQueueMask] using hl

/-- The write of `TOKEN_HANDOFF` keeps the invariant. -/
theorem step_setHandoff {p : Ptr} (h : Inv s g) (hpc : s.pc t = .setHandoff p)
    (hr : threadStep t c s.mem (.setHandoff p) = some r) : Advance s g t r := by
  have hremoved : g.status p = .removed t .fair := by
    have hn := h.node t
    rwa [hpc] at hn
  simp only [threadStep] at hr
  cases hr
  refine ⟨_, h.setHandoff hpc, .quiet (by simp [onQueue]) rfl fun q => ?_⟩
  by_cases hq : q = p
  · rw [hq, Ghost.setStatus_self, hremoved]
  · rw [Ghost.setStatus_of_ne _ _ hq]

/-- The notification of the removed node keeps the invariant. -/
theorem step_unpark {mode : Mode} {p : Ptr} (h : Inv s g) (hpc : s.pc t = .unpark mode p)
    (hr : threadStep t c s.mem (.unpark mode p) = some r) : Advance s g t r := by
  simp only [threadStep] at hr
  cases hr
  exact ⟨_, h.unpark hpc, .unparked ((h.node t).removed (by rw [hpc]; rfl))⟩

/-! ## Runs -/

/-- Every step of every thread keeps the invariant. -/
theorem step_advance (h : Inv s g) (hr : threadStep t c s.mem (s.pc t) = some r) :
    Advance s g t r := by
  cases hpc : s.pc t <;> rw [hpc] at hr
  case outside => exact step_outside h hpc hr
  case held => exact step_held h hpc hr
  case tryLock => exact step_tryLock h hpc hr
  case isLocked => exact step_isLocked h hpc hr
  case lock => exact step_lock h hpc hr
  case load => exact step_load h hpc hr
  case grab => exact step_grab h hpc hr
  case withThreadData => exact step_withThreadData h hpc hr
  case setToken => exact step_setToken h hpc hr
  case setTail => exact step_setTail h hpc hr
  case setPrev => exact step_setPrev h hpc hr
  case setNext => exact step_setNext h hpc hr
  case push => exact step_push h hpc hr
  case park => exact step_park h hpc hr
  case readToken => exact step_readToken h hpc hr
  case unlock => exact step_unlock h hpc hr
  case unlockFair => exact step_unlockFair h hpc hr
  case markTimeout => exact step_markTimeout h hpc hr
  case clearBits => exact step_clearBits h hpc hr
  case slowLoad => exact step_slowLoad h hpc hr
  case slowLock => exact step_slowLock h hpc hr
  case fairLoad => exact step_fairLoad h hpc hr
  case fairLock => exact step_fairLock h hpc hr
  case fairRelease =>
    have hw := h.walk t
    rw [hpc] at hw
    exact hw.elim
  case scanTail => exact step_scanTail h hpc hr
  case scanNext => exact step_scanNext h hpc hr
  case scanPrev => exact step_scanPrev h hpc hr
  case markHead => exact step_markHead h hpc hr
  case giveUp => exact step_giveUp h hpc hr
  case readPrev => exact step_readPrev h hpc hr
  case removeLast => exact step_removeLast h hpc hr
  case setNewTail => exact step_setNewTail h hpc hr
  case unlockQueue => exact step_unlockQueue h hpc hr
  case setHandoff => exact step_setHandoff h hpc hr
  case unpark => exact step_unpark h hpc hr

/-- The ghost at the start. -/
def Ghost.new (τ : Type) : Ghost τ := ⟨none, none, [], fun _ => .free⟩

omit [DecidableEq τ] in
/-- The invariant holds of a new mutex. -/
theorem inv_new : Inv (State.new τ) (Ghost.new τ) where
  locked := by simp [State.new, Mem.new, Ghost.new]
  queueLocked := by simp [State.new, Mem.new, Ghost.new]
  timeout := by simp [State.new, Mem.new]
  head := by simp [State.new, Mem.new, Ghost.new]
  owner := by simp [State.new, Ghost.new, Owns, ownsLock, inSlowFair]
  holder := by simp [State.new, Ghost.new, holdsQueue]
  nodup := List.nodup_nil
  links := .nil
  settled := fun _ => .inl rfl
  queued := by simp [Ghost.new]
  status := fun p => by simp [StatusInv, Ghost.new, State.new, Mem.new]
  node := fun _ => trivial
  state := fun _ => trivial
  walk := fun _ => trivial

/-- A step of the machine is a step of its thread. -/
theorem machine_next {i : τ × Choice} {s' : State τ} {es : List (Event τ)}
    (hr : (machine τ).next i s = some (s', es)) :
    ∃ m' pc', threadStep i.1 i.2 s.mem (s.pc i.1) = some (m', pc', es) ∧
      s' = s.moveTo i.1 m' pc' := by
  simp only [machine, Option.map_eq_some_iff, Prod.mk.injEq] at hr
  obtain ⟨⟨m', pc', es'⟩, hr, rfl, rfl⟩ := hr
  exact ⟨m', pc', hr, rfl⟩

/-- The induction rule for facts about the ghost and the log of a run. -/
theorem exec_ghost {ok : Guard (State τ) (τ × Choice) (Event τ)} {log : List (Event τ)}
    (P : Ghost τ → List (Event τ) → Prop) (hstart : P (Ghost.new τ) [])
    (hstep : ∀ (s : State τ) (g : Ghost τ) log t m' pc' es g', Inv s g → P g log →
      Inv (s.moveTo t m' pc') g' → Effect g t m'.word es g' → P g' (log ++ es))
    (run : Exec (machine τ) ok s log) : ∃ g, Inv s g ∧ P g log := by
  refine run.invariant (fun s log => ∃ g, Inv s g ∧ P g log) ?_ ?_
  · rintro s rfl
    exact ⟨_, inv_new, hstart⟩
  · rintro s log i s' es ⟨g, h, hp⟩ - hr
    obtain ⟨m', pc', hthread, rfl⟩ := machine_next hr
    obtain ⟨g', h', he⟩ := step_advance h hthread
    exact ⟨g', h', hstep _ _ _ _ _ _ _ _ h hp h' he⟩

/-- Every state of a run is described by some ghost. -/
theorem exec_inv {ok : Guard (State τ) (τ × Choice) (Event τ)} {log : List (Event τ)}
    (run : Exec (machine τ) ok s log) : ∃ g, Inv s g := by
  obtain ⟨g, h, -⟩ := exec_ghost (fun _ _ => True) trivial (fun _ _ _ _ _ _ _ _ _ _ _ _ => trivial) run
  exact ⟨g, h⟩

end Mekong.Analysis.RawMutex
