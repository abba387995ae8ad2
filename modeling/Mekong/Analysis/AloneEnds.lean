import Mekong.Analysis.RawMutexTrace

/-!
# A thread alone comes to an end

A thread that runs while all others stand still, wherever they are, ends its operation: a
compare-exchange that fails leaves it with the current word, and then nothing changes the
word under it. It waits for three things only: for an address for its node, for a
notification, and, in `unlock_slow_fair`, for the queue lock. So `unlock` waits for nobody.

The places are gone through from the last to the first. `Ends.next` takes one step; a walk
ends by induction on the nodes before it, and what starts again does so with the current
word.
-/

set_option autoImplicit false

namespace Mekong.Analysis.RawMutex

open Mekong.Computation Mekong.Model Mekong.Program.RawMutex

variable {τ : Type} [DecidableEq τ]

/-- `t` comes alone, with the choices `c` in each step, to a place with the property `Q`. -/
inductive Ends (t : τ) (c : Choice) (Q : Mem τ → Pc → Prop) : State τ → Prop
  | here {s : State τ} (h : Q s.mem (s.pc t)) : Ends t c Q s
  | step {s : State τ} {m' : Mem τ} {pc' : Pc} {es : List (Event τ)}
      (hr : threadStep t c s.mem (s.pc t) = some (m', pc', es))
      (h : Ends t c Q (s.moveTo t m' pc')) : Ends t c Q s

/-- The steps of a thread alone are a schedule. -/
theorem Ends.run {t : τ} {c : Choice} {Q : Mem τ → Pc → Prop} {s : State τ}
    (h : Ends t c Q s) (log : List (Event τ)) :
    ∃ n s' log', (machine τ).run (fun _ _ _ => true) (List.replicate n (t, c)) s log =
      some (s', log') ∧ Q s'.mem (s'.pc t) := by
  induction h generalizing log with
  | here h => exact ⟨0, _, log, rfl, h⟩
  | @step s m' pc' es hr _ ih =>
    obtain ⟨n, s', log', hrun, hQ⟩ := ih (log ++ es)
    refine ⟨n + 1, s', log', ?_, hQ⟩
    rw [List.replicate_succ, Machine.run, if_pos rfl]
    simp only [machine, hr, Option.map_some]
    exact hrun

section Steps

variable {s : State τ} {g : Ghost τ} {t : τ} {c : Choice} {Q : Mem τ → Pc → Prop} {m' : Mem τ}
  {pc' : Pc} {es : List (Event τ)}

/-- One step, after which the invariant holds again. -/
theorem Ends.next (h : Inv s g) (hr : threadStep t c s.mem (s.pc t) = some (m', pc', es))
    (hnext : ∀ (s' : State τ) (g' : Ghost τ), Inv s' g' → s'.mem = m' → s'.pc t = pc' →
      Ends t c Q s') : Ends t c Q s := by
  obtain ⟨g', h', -⟩ := step_advance h hr
  exact .step hr (hnext _ g' h' rfl (Threads.moveTo_pc_self s t m' pc'))

/-- Without a spurious failure a compare-exchange from the current word succeeds. -/
theorem cas_current (hc : c.spurious = false) (w : U64) : compareExchangeWeak c.spurious w w = .ok := by
  simp [compareExchangeWeak, hc]

end Steps

/-! ## `unlock_slow` and `unlock_slow_fair` with the queue lock -/

section Unlockers

variable {s : State τ} {g : Ghost τ} {t : τ} {c : Choice} {Q : Mem τ → Pc → Prop} {mode : Mode}
  {state : U64} {p : Ptr}

/-- The walk can start again from the word `w`. -/
def Retries (t : τ) (c : Choice) (Q : Mem τ → Pc → Prop) (mode : Mode) (w : U64) : Prop :=
  ∀ (s : State τ) (g : Ghost τ), Inv s g → s.mem.word = w → s.pc t = outer mode w → Ends t c Q s

variable (hQ : ∀ m, Q m .outside) (hc : c.spurious = false)
include hQ

/-- The call ends with the notification of the removed node. -/
theorem ends_unpark (h : Inv s g) (hpc : s.pc t = .unpark mode p) : Ends t c Q s := by
  refine .next h (by rw [hpc]; rfl) fun s' _ _ _ hpc' => .here ?_
  rw [hpc']
  exact hQ _

/-- The call ends from what it does to the removed node. -/
theorem ends_wake (h : Inv s g) (hpc : s.pc t = wake mode p) : Ends t c Q s := by
  cases mode with
  | plain => exact ends_unpark hQ h hpc
  | fair =>
    refine .next h (by rw [hpc]; rfl) fun s' _ h' _ hpc' => ?_
    exact ends_unpark hQ h' hpc'

/-- The call ends once the queue lock is given back. -/
theorem ends_unlockQueue (h : Inv s g) (hpc : s.pc t = .unlockQueue mode p) : Ends t c Q s :=
  .next h (by rw [hpc]; rfl) fun _ _ h' _ hpc' => ends_wake hQ h' hpc'

/-- The call ends from the write of the new mark. -/
theorem ends_setNewTail {newTail : Ptr} (h : Inv s g) (hpc : s.pc t = .setNewTail mode state p newTail) :
    Ends t c Q s :=
  .next h (by rw [hpc]; rfl) fun _ _ h' _ hpc' => ends_unlockQueue hQ h' hpc'

include hc

/-- The removal of the only node: with the current word it succeeds. -/
theorem ends_removeLast (h : Inv s g) (hpc : s.pc t = .removeLast mode state p)
    (hcas : s.mem.word = state ∨ Retries t c Q mode s.mem.word) : Ends t c Q s := by
  by_cases hw : s.mem.word = state
  · subst hw
    refine .next h (by rw [hpc]; simp only [threadStep, cas_current hc]; rfl) ?_
    exact fun _ _ h' _ hpc' => ends_wake hQ h' hpc'
  · have hwalk := h.walk t
    rw [hpc] at hwalk
    -- the last node is still queued, so the walk starts again
    have hhead : queueHead s.mem.word ≠ null := fun e =>
      List.ne_nil_of_mem hwalk.1.1.mem.1 (h.head_null_iff.mp e)
    refine .next h (by
      rw [hpc]
      simp only [threadStep, compareExchangeWeak, hw, and_false, if_false, retryRemove,
        if_neg hhead]; rfl) fun s' g' h' hm hpc' => ?_
    exact (hcas.resolve_left hw) s' g' h' (by rw [hm]) hpc'

/-- The call ends from the read of the tail's `prev`. -/
theorem ends_readPrev (h : Inv s g) (hpc : s.pc t = .readPrev mode state p)
    (hcas : s.mem.word = state ∨ Retries t c Q mode s.mem.word) : Ends t c Q s := by
  by_cases hprev : (s.mem.node p).prev = null
  · refine .next h (by rw [hpc]; simp only [threadStep, if_pos hprev]; rfl) fun s' g' h' hm hpc' => ?_
    exact ends_removeLast hQ hc h' hpc' (by rw [hm]; exact hcas)
  · refine .next h (by rw [hpc]; simp only [threadStep, if_neg hprev]; rfl) fun s' g' h' _ hpc' => ?_
    exact ends_setNewTail hQ h' hpc'

/-- The call ends where an unlocker finds the lock taken again. -/
theorem ends_giveUp (h : Inv s g) (hpc : s.pc t = .giveUp state)
    (hcas : s.mem.word = state ∨ Retries t c Q .plain s.mem.word) : Ends t c Q s := by
  by_cases hw : s.mem.word = state
  · subst hw
    refine .next h (by rw [hpc]; simp only [threadStep, cas_current hc]; rfl)
      fun _ _ _ _ hpc' => .here ?_
    rw [hpc']
    exact hQ _
  · refine .next h (by
      rw [hpc]
      simp only [threadStep, compareExchangeWeak, hw, and_false, if_false]; rfl)
      fun s' g' h' hm hpc' => ?_
    exact (hcas.resolve_left hw) s' g' h' (by rw [hm]) hpc'

/-- The call ends from the write of the mark after the walk. -/
theorem ends_markHead (h : Inv s g) (hpc : s.pc t = .markHead mode state p)
    (hcas : s.mem.word = state ∨ Retries t c Q mode s.mem.word) : Ends t c Q s := by
  refine .next h (by rw [hpc]; rfl) fun s' g' h' hm hpc' => ?_
  have hcas' : s'.mem.word = state ∨ Retries t c Q mode s'.mem.word := by
    rw [hm]
    exact hcas
  unfold afterMark at hpc'
  split at hpc'
  · rename_i hplain
    obtain ⟨rfl, -⟩ := hplain
    exact ends_giveUp hQ hc h' hpc' hcas'
  · exact ends_readPrev hQ hc h' hpc' hcas'

omit hQ hc in
/-- `k` nodes to link before the walk at `p` meets a marked one. -/
def ToMarked (m : Mem τ) : ℕ → Ptr → Prop
  | 0, p => (m.node p).queueTail ≠ null
  | k + 1, p => (m.node p).queueTail = null ∧ ToMarked m k (m.node p).next

omit [DecidableEq τ] hQ hc in
/-- The distance to a marked node depends on `queue_tail` and `next` only. -/
theorem ToMarked.congr {m m' : Mem τ} {k : ℕ} (h : ToMarked m k p)
    (htail : ∀ p, (m'.node p).queueTail = (m.node p).queueTail)
    (hnext : ∀ p, (m'.node p).next = (m.node p).next) : ToMarked m' k p := by
  induction k generalizing p with
  | zero =>
    rw [ToMarked, htail]
    exact h
  | succ k ih =>
    rw [ToMarked, htail, hnext]
    exact ⟨h.1, ih h.2⟩

omit [DecidableEq τ] hQ hc in
/-- A walk is on its way to a marked node. -/
theorem Inv.toMarked {a : Ptr} (h : Inv s g)
    (hwalk : LazyQueue.Scanning null (tailOf s.mem.node) (prevOf s.mem.node) g.queue a p) :
    ∃ k, ToMarked s.mem k p := by
  obtain ⟨u, l, b, r, hq, hp, hl, hb⟩ := hwalk.reaches h.null_notMem
  have hlinks := h.links
  rw [hq] at hlinks
  have hchain := hlinks.right_of_append
  refine ⟨l.length, ?_⟩
  clear hq hlinks hwalk
  induction l generalizing p with
  | nil =>
    obtain rfl : b = p := by simpa using hp
    exact hb
  | cons x l ih =>
    obtain rfl : x = p := by simpa using hp
    refine ⟨hl x (by simp), ?_⟩
    cases l with
    | nil =>
      obtain ⟨hnext, hrest⟩ := List.isChain_cons_cons.mp hchain
      exact ih (by simp [hnext]) (fun y hy => hl y (by simp [hy])) hrest
    | cons y l =>
      obtain ⟨hnext, hrest⟩ := List.isChain_cons_cons.mp hchain
      exact ih (by simp [hnext]) (fun y hy => hl y (List.mem_cons_of_mem _ hy)) hrest

/-- The walk links the nodes up to the first marked one. -/
theorem ends_scanTail {k : ℕ} (h : Inv s g) (hpc : s.pc t = .scanTail mode state p)
    (hcas : s.mem.word = state ∨ Retries t c Q mode s.mem.word) (hk : ToMarked s.mem k p) :
    Ends t c Q s := by
  induction k generalizing s g p with
  | zero =>
    refine .next h (by rw [hpc]; simp only [threadStep, if_neg (show _ ≠ _ from hk)]; rfl) ?_
    exact fun s' g' h' hm hpc' => ends_markHead hQ hc h' hpc' (by rw [hm]; exact hcas)
  | succ k ih =>
    obtain ⟨htail, hnext⟩ := hk
    refine .next h (by rw [hpc]; simp only [threadStep, if_pos htail]; rfl) fun s₁ g₁ h₁ hm₁ hpc₁ => ?_
    refine .next h₁ (by rw [hpc₁]; rfl) fun s₂ g₂ h₂ hm₂ hpc₂ => ?_
    refine .next h₂ (by rw [hpc₂]; rfl) fun s₃ g₃ h₃ hm₃ hpc₃ => ?_
    rw [hm₁] at hm₂
    rw [hm₁] at hpc₃
    rw [hm₁, hm₂] at hm₃
    refine ih h₃ hpc₃ (by rw [hm₃]; exact hcas) ?_
    -- only a `prev` field was written
    rw [hm₃]
    refine hnext.congr (Mem.modify_keeps ThreadData.queueTail ?_)
      (Mem.modify_keeps ThreadData.next ?_) <;> exact fun _ => rfl

/-- A walk that has just begun with the current word. -/
theorem ends_outer (h : Inv s g) (hpc : s.pc t = outer mode s.mem.word) : Ends t c Q s := by
  have hwalk := h.walk t
  rw [hpc] at hwalk
  obtain ⟨k, hk⟩ := h.toMarked hwalk
  exact ends_scanTail hQ hc h hpc (.inl rfl) hk

/-- The walk may start again from every word. -/
theorem retries (w : U64) : Retries t c Q mode w := by
  rintro s g h rfl hpc
  exact ends_outer hQ hc h hpc

/-- Every place with the queue lock. -/
theorem ends_holdsQueue (h : Inv s g) (hhold : holdsQueue (s.pc t) = true) : Ends t c Q s := by
  have hwalk := h.walk t
  cases hpc : s.pc t <;> rw [hpc] at hwalk hhold <;> try cases hhold
  case fairRelease => exact hwalk.elim
  case scanTail =>
    obtain ⟨k, hk⟩ := h.toMarked hwalk
    exact ends_scanTail hQ hc h hpc (.inr (retries hQ hc _)) hk
  case scanNext mode state current =>
    refine .next h (by rw [hpc]; rfl) fun s₁ g₁ h₁ hm₁ hpc₁ => ?_
    refine .next h₁ (by rw [hpc₁]; rfl) fun s₂ g₂ h₂ hm₂ hpc₂ => ?_
    have hwalk₂ := h₂.walk t
    rw [hpc₂] at hwalk₂
    obtain ⟨k, hk⟩ := h₂.toMarked hwalk₂
    exact ends_scanTail hQ hc h₂ hpc₂ (.inr (retries hQ hc _)) hk
  case scanPrev mode state current next =>
    refine .next h (by rw [hpc]; rfl) fun s₁ g₁ h₁ hm₁ hpc₁ => ?_
    have hwalk₁ := h₁.walk t
    rw [hpc₁] at hwalk₁
    obtain ⟨k, hk⟩ := h₁.toMarked hwalk₁
    exact ends_scanTail hQ hc h₁ hpc₁ (.inr (retries hQ hc _)) hk
  case markHead => exact ends_markHead hQ hc h hpc (.inr (retries hQ hc _))
  case giveUp => exact ends_giveUp hQ hc h hpc (.inr (retries hQ hc _))
  case readPrev => exact ends_readPrev hQ hc h hpc (.inr (retries hQ hc _))
  case removeLast => exact ends_removeLast hQ hc h hpc (.inr (retries hQ hc _))
  case setNewTail => exact ends_setNewTail hQ h hpc
  case unlockQueue => exact ends_unlockQueue hQ h hpc

/-! ## `unlock` and `unlock_slow` -/

/-- `unlock_slow` ends where it takes the queue lock from the word as it is. -/
theorem ends_slowLock (h : Inv s g) (hpc : s.pc t = .slowLock state) (hw : s.mem.word = state) :
    Ends t c Q s := by
  subst hw
  refine .next h (by rw [hpc]; simp only [threadStep, cas_current hc]; rfl) fun s' g' h' _ hpc' => ?_
  exact ends_holdsQueue hQ hc h' (by rw [hpc']; rfl)

/-- The head of the loop of `unlock_slow`, with the current word. -/
theorem ends_unlockSlow (h : Inv s g) (hpc : s.pc t = unlockSlow s.mem.word) : Ends t c Q s := by
  unfold unlockSlow at hpc
  split at hpc
  · refine .here ?_
    rw [hpc]
    exact hQ _
  · exact ends_slowLock hQ hc h hpc rfl

/-- `unlock_slow` ends from its load of the word. -/
theorem ends_slowLoad (h : Inv s g) (hpc : s.pc t = .slowLoad) : Ends t c Q s := by
  refine .next h (by rw [hpc]; rfl) fun s' g' h' hm hpc' => ?_
  exact ends_unlockSlow hQ hc h' (by rw [hm]; exact hpc')

/-- `unlock_slow` ends from its compare-exchange, whatever word it has read. -/
theorem ends_slowLock_any (h : Inv s g) (hpc : s.pc t = .slowLock state) : Ends t c Q s := by
  by_cases hw : s.mem.word = state
  · exact ends_slowLock hQ hc h hpc hw
  · refine .next h (by
      rw [hpc]
      simp only [threadStep, compareExchangeWeak, hw, and_false, if_false]; rfl)
      fun s' g' h' hm hpc' => ?_
    exact ends_unlockSlow hQ hc h' (by rw [hm]; exact hpc')

/-- After the release of the lock. -/
theorem ends_released {w : U64} (h : Inv s g)
    (hpc : s.pc t = if isQueueLocked w = true ∨ queueHead w = null then .outside else .slowLoad) :
    Ends t c Q s := by
  split at hpc
  · refine .here ?_
    rw [hpc]
    exact hQ _
  · exact ends_slowLoad hQ hc h hpc

/-- `unlock` ends. -/
theorem ends_unlock (h : Inv s g) (hpc : s.pc t = .unlock) : Ends t c Q s :=
  .next h (by rw [hpc]; rfl) fun _ _ h' _ hpc' => ends_released hQ hc h' hpc'

/-- `unlock_fair` ends from its last `fetch_and`. -/
theorem ends_clearBits {bit : U64} (h : Inv s g) (hpc : s.pc t = .clearBits bit) : Ends t c Q s :=
  .next h (by rw [hpc]; rfl) fun _ _ h' _ hpc' => ends_released hQ hc h' hpc'

end Unlockers

/-! ## `unlock_fair` -/

section FairUnlockers

variable {s : State τ} {g : Ghost τ} {t : τ} {c : Choice} {Q : Mem τ → Pc → Prop} {counter : ℕ}
  {state : U64}

variable (hQ : ∀ m, Q m .outside)
  (hwait : ∀ m counter, isQueueLocked m.word = true → Q m (.fairLoad counter))
  (hc : c.spurious = false)
include hQ hwait hc

/-- The head of the loop of `unlock_slow_fair`, with the current word. -/
theorem ends_unlockSlowFair (h : Inv s g) (hpc : s.pc t = unlockSlowFair counter s.mem.word) :
    Ends t c Q s := by
  unfold unlockSlowFair at hpc
  split at hpc
  · rename_i hlocked
    refine .here ?_
    rw [hpc]
    exact hwait _ _ hlocked
  · refine .next h (by rw [hpc]; simp only [threadStep, cas_current hc]; rfl) fun s' g' h' _ hpc' => ?_
    refine ends_holdsQueue hQ hc h' ?_
    rw [hpc']
    split <;> rfl

/-- `unlock_slow_fair` ends from its load of the word. -/
theorem ends_fairLoad (h : Inv s g) (hpc : s.pc t = .fairLoad counter) : Ends t c Q s := by
  refine .next h (by rw [hpc]; rfl) fun s' g' h' hm hpc' => ?_
  exact ends_unlockSlowFair hQ hwait hc h' (by rw [hm]; exact hpc')

/-- `unlock_slow_fair` ends from its compare-exchange for the queue lock. -/
theorem ends_fairLock (h : Inv s g) (hpc : s.pc t = .fairLock counter state) : Ends t c Q s := by
  by_cases hw : s.mem.word = state
  · subst hw
    refine .next h (by rw [hpc]; simp only [threadStep, cas_current hc]; rfl) fun s' g' h' _ hpc' => ?_
    refine ends_holdsQueue hQ hc h' ?_
    rw [hpc']
    split <;> rfl
  · refine .next h (by
      rw [hpc]
      simp only [threadStep, compareExchangeWeak, hw, and_false, if_false]; rfl)
      fun s' g' h' hm hpc' => ?_
    exact ends_unlockSlowFair hQ hwait hc h' (by rw [hm]; exact hpc')

/-- `unlock_fair` ends from its `fetch_or`. -/
theorem ends_markTimeout (h : Inv s g) (hpc : s.pc t = .markTimeout) : Ends t c Q s := by
  by_cases hhead : queueHead s.mem.word = null
  · refine .next h (by rw [hpc]; simp only [threadStep, if_neg (not_not.mpr hhead)]; rfl) ?_
    exact fun _ _ h' _ hpc' => ends_clearBits hQ hc h' hpc'
  · refine .next h (by rw [hpc]; simp only [threadStep, if_pos (show _ ≠ _ from hhead)]; rfl) ?_
    exact fun _ _ h' _ hpc' => ends_fairLoad hQ hwait hc h' hpc'

/-- `unlock_fair` ends. -/
theorem ends_unlockFair (h : Inv s g) (hpc : s.pc t = .unlockFair) : Ends t c Q s := by
  refine .next h (by rw [hpc]; rfl) fun s' g' h' _ hpc' => ?_
  split at hpc'
  · exact ends_markTimeout hQ hwait hc h' hpc'
  · exact ends_clearBits hQ hc h' hpc'

end FairUnlockers

/-! ## `lock` -/

section Lockers

variable {s : State τ} {g : Ghost τ} {t : τ} {c : Choice} {Q : Mem τ → Pc → Prop} {counter : ℕ}
  {state : U64} {p : Ptr}

/-- `lock_slow` can go on from the word `w`. -/
def RetriesLock (t : τ) (c : Choice) (Q : Mem τ → Pc → Prop) (w : U64) : Prop :=
  ∀ (s : State τ) (g : Ghost τ) (counter : ℕ), Inv s g → s.mem.word = w →
    s.mem.frame c.addr = none → s.pc t = lockSlow counter w → Ends t c Q s

/-- The address of the choices is free, once the node at `p` is gone. -/
def FreeBut (m : Mem τ) (c : Choice) (p : Ptr) : Prop := p = c.addr ∨ m.frame c.addr = none

omit [DecidableEq τ] in
/-- The address is free once the node's call has returned. -/
theorem FreeBut.free {m : Mem τ} (h : FreeBut m c p) : (m.free p).frame c.addr = none := by
  by_cases hp : c.addr = p
  · rw [hp, Mem.free_frame_self]
  · rw [Mem.free_frame_of_ne hp]
    exact h.resolve_left fun e => hp e.symm

variable (hheld : ∀ m, Q m .held)
  (hpark : ∀ m p, (m.node p).parker = false → Q m (.park p)) (hc : c.spurious = false)

include hpark hc in
/-- `lock_slow` ends, or parks, from the push. -/
theorem ends_push (h : Inv s g) (hpc : s.pc t = .push counter state p) (hf : FreeBut s.mem c p)
    (hcas : s.mem.word = state ∨ RetriesLock t c Q s.mem.word) : Ends t c Q s := by
  by_cases hw : s.mem.word = state
  · subst hw
    have hnode := h.node t
    rw [hpc] at hnode
    refine .next h (by rw [hpc]; simp only [threadStep, cas_current hc]; rfl)
      fun s' _ _ hm hpc' => .here ?_
    rw [hpc']
    refine hpark _ _ ?_
    rw [hm]
    exact hnode.1.parker
  · refine .next h (by
      rw [hpc]
      simp only [threadStep, compareExchangeWeak, hw, and_false, if_false]; rfl)
      fun s' g' h' hm hpc' => ?_
    exact (hcas.resolve_left hw) s' g' counter h' (by rw [hm]; rfl) (by rw [hm]; exact hf.free) hpc'

include hpark hc in
/-- `lock_slow` ends, or parks, from the write of `next`. -/
theorem ends_setNext (h : Inv s g) (hpc : s.pc t = .setNext counter state p)
    (hf : FreeBut s.mem c p) (hcas : s.mem.word = state ∨ RetriesLock t c Q s.mem.word) :
    Ends t c Q s := by
  refine .next h (by rw [hpc]; rfl) fun s' g' h' hm hpc' => ?_
  exact ends_push hpark hc h' hpc' (by rw [hm]; exact hf) (by rw [hm]; exact hcas)

include hpark hc in
/-- `lock_slow` ends, or parks, from the write of `prev`. -/
theorem ends_setPrev (h : Inv s g) (hpc : s.pc t = .setPrev counter state p)
    (hf : FreeBut s.mem c p) (hcas : s.mem.word = state ∨ RetriesLock t c Q s.mem.word) :
    Ends t c Q s := by
  refine .next h (by rw [hpc]; rfl) fun s' g' h' hm hpc' => ?_
  split at hpc'
  · exact ends_push hpark hc h' hpc' (by rw [hm]; exact hf) (by rw [hm]; exact hcas)
  · exact ends_setNext hpark hc h' hpc' (by rw [hm]; exact hf) (by rw [hm]; exact hcas)

include hpark hc in
/-- `lock_slow` ends, or parks, from the write of `queue_tail`. -/
theorem ends_setTail (h : Inv s g) (hpc : s.pc t = .setTail counter state p)
    (hf : FreeBut s.mem c p) (hcas : s.mem.word = state ∨ RetriesLock t c Q s.mem.word) :
    Ends t c Q s := by
  refine .next h (by rw [hpc]; rfl) fun s' g' h' hm hpc' => ?_
  exact ends_setPrev hpark hc h' hpc' (by rw [hm]; exact hf) (by rw [hm]; exact hcas)

include hpark hc in
/-- `lock_slow` ends, or parks, from the write of `unpark_token`. -/
theorem ends_setToken (h : Inv s g) (hpc : s.pc t = .setToken counter state p)
    (hf : FreeBut s.mem c p) (hcas : s.mem.word = state ∨ RetriesLock t c Q s.mem.word) :
    Ends t c Q s := by
  refine .next h (by rw [hpc]; rfl) fun s' g' h' hm hpc' => ?_
  exact ends_setTail hpark hc h' hpc' (by rw [hm]; exact hf) (by rw [hm]; exact hcas)

variable (haddr : IsNodeAddr c.addr) (hleft : c.leftover.parker = false)

include hpark hc haddr hleft in
/-- `lock_slow` ends, or parks, from its call of `with_thread_data`. -/
theorem ends_withThreadData (h : Inv s g) (hpc : s.pc t = .withThreadData counter state)
    (hf : s.mem.frame c.addr = none)
    (hcas : s.mem.word = state ∨ RetriesLock t c Q s.mem.word) : Ends t c Q s := by
  refine .next h (by
    rw [hpc]
    simp only [threadStep]
    exact if_pos ⟨haddr, by rw [hf]; rfl, hleft⟩) fun s' g' h' hm hpc' => ?_
  exact ends_setToken hpark hc h' hpc' (.inl rfl) (by rw [hm]; exact hcas)

include hheld hpark hc haddr hleft in
/-- The head of the loop of `lock_slow` with the current word: the lock is taken, or the
thread parks when it has spun enough. -/
theorem ends_lockSlow {k : ℕ} (hk : 10 ≤ k + counter) (h : Inv s g) (hf : s.mem.frame c.addr = none)
    (hpc : s.pc t = lockSlow counter s.mem.word) : Ends t c Q s := by
  induction k generalizing s g counter with
  | zero =>
    have hspin : (spin counter).1 = false := by rw [spin, if_pos (by omega)]
    rw [lockSlow, hspin] at hpc
    split at hpc
    · refine .next h (by rw [hpc]; simp only [threadStep, cas_current hc]; rfl)
        fun s' _ _ _ hpc' => .here ?_
      rw [hpc']
      exact hheld _
    · rw [if_neg (by simp)] at hpc
      exact ends_withThreadData hpark hc haddr hleft h hpc hf (.inl rfl)
  | succ k ih =>
    unfold lockSlow at hpc
    split at hpc
    · refine .next h (by rw [hpc]; simp only [threadStep, cas_current hc]; rfl)
        fun s' _ _ _ hpc' => .here ?_
      rw [hpc']
      exact hheld _
    · split at hpc
      · rename_i hspin
        refine .next h (by rw [hpc]; rfl) fun s' g' h' hm hpc' => ?_
        have hagain : s'.pc t = lockSlow (spin counter).2 s'.mem.word := by
          rw [hm]
          exact hpc'
        refine ih ?_ h' (by rw [hm]; exact hf) hagain
        have hcount := hspin.2
        unfold spin at hcount ⊢
        split at hcount
        · cases hcount
        · rename_i hlt
          rw [if_neg hlt]
          simp only
          omega
      · exact ends_withThreadData hpark hc haddr hleft h hpc hf (.inl rfl)

include hheld hpark hc haddr hleft in
/-- `lock_slow` may go on from every word. -/
theorem retriesLock (w : U64) : RetriesLock t c Q w := by
  rintro s g counter h rfl hf hpc
  exact ends_lockSlow hheld hpark hc haddr hleft (Nat.le_add_right 10 counter) h hf hpc

include hheld hpark hc haddr hleft in
/-- `lock_slow` ends, or parks, from its load of the word. -/
theorem ends_load (h : Inv s g) (hpc : s.pc t = .load counter) (hf : s.mem.frame c.addr = none) :
    Ends t c Q s := by
  refine .next h (by rw [hpc]; rfl) fun s' g' h' hm hpc' => ?_
  exact retriesLock hheld hpark hc haddr hleft _ s' g' counter h' rfl (by rw [hm]; exact hf)
    (by rw [hm]; exact hpc')

include hheld hpark hc haddr hleft in
/-- `lock_slow` ends, or parks, from the compare-exchange for the lock. -/
theorem ends_grab (h : Inv s g) (hpc : s.pc t = .grab counter state)
    (hf : s.mem.frame c.addr = none) : Ends t c Q s := by
  by_cases hw : s.mem.word = state
  · subst hw
    refine .next h (by rw [hpc]; simp only [threadStep, cas_current hc]; rfl)
      fun s' _ _ _ hpc' => .here ?_
    rw [hpc']
    exact hheld _
  · refine .next h (by
      rw [hpc]
      simp only [threadStep, compareExchangeWeak, hw, and_false, if_false]; rfl)
      fun s' g' h' hm hpc' => ?_
    exact retriesLock hheld hpark hc haddr hleft _ s' g' counter h' rfl (by rw [hm]; exact hf)
      (by rw [hm]; exact hpc')

include hheld hpark hc haddr hleft in
/-- `lock_slow` ends, or parks again, from the read of the token. -/
theorem ends_readToken (h : Inv s g) (hpc : s.pc t = .readToken p) (hf : FreeBut s.mem c p) :
    Ends t c Q s := by
  by_cases htoken : (s.mem.node p).unparkToken = tokenHandoff
  · refine .next h (by rw [hpc]; simp only [threadStep, if_pos htoken]; rfl)
      fun s' _ _ _ hpc' => .here ?_
    rw [hpc']
    exact hheld _
  · refine .next h (by rw [hpc]; simp only [threadStep, if_neg htoken]; rfl) fun s' g' h' hm hpc' => ?_
    exact ends_load hheld hpark hc haddr hleft h' hpc' (by rw [hm]; exact hf.free)

include hheld hpark hc haddr hleft in
/-- A notified thread ends, or parks again, and another one is parked. -/
theorem ends_park (h : Inv s g) (hpc : s.pc t = .park p) (hf : s.mem.frame c.addr = none) :
    Ends t c Q s := by
  by_cases hparker : (s.mem.node p).parker = true
  · refine .next h (by rw [hpc]; simp only [threadStep, if_pos hparker]; rfl) fun s' g' h' hm hpc' => ?_
    exact ends_readToken hheld hpark hc haddr hleft h' hpc' (.inr (by rw [hm]; exact hf))
  · refine .here ?_
    rw [hpc]
    exact hpark _ _ (by simpa using hparker)

end Lockers

/-! ## Every operation -/

/-- The places of `unlock`, of `unlock_slow`, and of `unlock_slow_fair` from the queue lock on. -/
def unlocking : Pc → Bool
  | .unlock | .clearBits _ | .slowLoad | .slowLock _ | .setHandoff _ | .unpark .. => true
  | pc => holdsQueue pc

/-- Where a thread may be when it has to wait, or has nothing to do. -/
inductive Waits (m : Mem τ) : Pc → Prop
  | outside : Waits m .outside
  | held : Waits m .held
  /-- `park` waits for a notification. -/
  | notification {p : Ptr} (h : (m.node p).parker = false) : Waits m (.park p)
  /-- `unlock_slow_fair` waits for the queue lock. -/
  | queueLock {counter : ℕ} (h : isQueueLocked m.word = true) : Waits m (.fairLoad counter)

section Operations

variable {s : State τ} {g : Ghost τ} {t : τ} {c : Choice} {log : List (Event τ)}

/-- Every unlock ends. -/
theorem ends_unlocking {Q : Mem τ → Pc → Prop} (hQ : ∀ m, Q m .outside)
    (hc : c.spurious = false) (h : Inv s g) (hpc : unlocking (s.pc t) = true) : Ends t c Q s := by
  by_cases hhold : holdsQueue (s.pc t) = true
  · exact ends_holdsQueue hQ hc h hhold
  · cases hp : s.pc t <;> rw [hp] at hpc hhold <;> try exact absurd hpc hhold
    case unlock => exact ends_unlock hQ hc h hp
    case clearBits => exact ends_clearBits hQ hc h hp
    case slowLoad => exact ends_slowLoad hQ hc h hp
    case slowLock => exact ends_slowLock_any hQ hc h hp
    case setHandoff q => exact ends_wake hQ h (show s.pc t = wake .fair q from hp)
    case unpark => exact ends_unpark hQ h hp

/-- **`unlock` waits for nobody.** From every reachable state a thread in `unlock`, in
`unlock_slow`, or in `unlock_slow_fair` with the queue lock, returns in finitely many steps
of its own while all the others stand still, wherever they are. -/
theorem unlock_alone_returns (run : Runs (machine τ) s log) (hpc : unlocking (s.pc t) = true)
    (hc : c.spurious = false) :
    ∃ n s' log', (machine τ).run (fun _ _ _ => true) (List.replicate n (t, c)) s log =
      some (s', log') ∧ s'.pc t = .outside := by
  obtain ⟨g, h⟩ := exec_inv run
  exact (ends_unlocking (Q := fun _ pc => pc = .outside) (fun _ => rfl) hc h hpc).run log

/-- **What a thread waits for.** From every reachable state a thread that runs alone, with a
free address for a node, comes to the end of its operation or to one of the two waits: for
a notification, or in `unlock_slow_fair` for the queue lock. -/
theorem alone_ends (run : Runs (machine τ) s log) (t : τ) (hc : c.spurious = false)
    (haddr : IsNodeAddr c.addr) (hfree : s.mem.frame c.addr = none)
    (hleft : c.leftover.parker = false) :
    ∃ n s' log', (machine τ).run (fun _ _ _ => true) (List.replicate n (t, c)) s log =
      some (s', log') ∧ Waits s'.mem (s'.pc t) := by
  obtain ⟨g, h⟩ := exec_inv run
  suffices hends : Ends t c Waits s from hends.run log
  have hQ : ∀ m : Mem τ, Waits m .outside := fun _ => .outside
  have hheld : ∀ m : Mem τ, Waits m .held := fun _ => .held
  have hpark : ∀ (m : Mem τ) p, (m.node p).parker = false → Waits m (.park p) :=
    fun _ _ => .notification
  have hwait : ∀ (m : Mem τ) counter, isQueueLocked m.word = true → Waits m (.fairLoad counter) :=
    fun _ _ => .queueLock
  have hretries := retriesLock hheld hpark hc haddr hleft (t := t)
  by_cases hun : unlocking (s.pc t) = true
  · exact ends_unlocking hQ hc h hun
  cases hpc : s.pc t <;> rw [hpc] at hun <;> try exact absurd rfl hun
  case outside => exact .here (by rw [hpc]; exact hQ _)
  case held => exact .here (by rw [hpc]; exact hheld _)
  case tryLock =>
    by_cases hw : s.mem.word = idle
    · refine .next h (by rw [hpc]; simp only [threadStep, hw, cas_current hc]; rfl)
        fun s' _ _ _ hpc' => .here (by rw [hpc']; exact hheld _)
    · refine .next h (by
        rw [hpc]
        simp only [threadStep, compareExchangeWeak, hw, and_false, if_false]; rfl)
        fun s' _ _ _ hpc' => .here (by rw [hpc']; exact hQ _)
  case isLocked =>
    by_cases hw : s.mem.word = idle
    · refine .next h (by rw [hpc]; simp only [threadStep, hw, cas_current hc]; rfl)
        fun s' g' h' _ hpc' => ?_
      exact ends_unlock hQ hc h' hpc'
    · refine .next h (by
        rw [hpc]
        simp only [threadStep, compareExchangeWeak, hw, and_false, if_false]; rfl)
        fun s' _ _ _ hpc' => .here (by rw [hpc']; exact hQ _)
  case lock =>
    by_cases hw : s.mem.word = idle
    · refine .next h (by rw [hpc]; simp only [threadStep, hw, cas_current hc]; rfl)
        fun s' _ _ _ hpc' => .here (by rw [hpc']; exact hheld _)
    · refine .next h (by
        rw [hpc]
        simp only [threadStep, compareExchangeWeak, hw, and_false, if_false]; rfl)
        fun s' g' h' hm hpc' => ?_
      exact ends_load hheld hpark hc haddr hleft h' hpc' (by rw [hm]; exact hfree)
  case load => exact ends_load hheld hpark hc haddr hleft h hpc hfree
  case grab => exact ends_grab hheld hpark hc haddr hleft h hpc hfree
  case withThreadData =>
    exact ends_withThreadData hpark hc haddr hleft h hpc hfree (.inr (hretries _))
  case setToken => exact ends_setToken hpark hc h hpc (.inr hfree) (.inr (hretries _))
  case setTail => exact ends_setTail hpark hc h hpc (.inr hfree) (.inr (hretries _))
  case setPrev => exact ends_setPrev hpark hc h hpc (.inr hfree) (.inr (hretries _))
  case setNext => exact ends_setNext hpark hc h hpc (.inr hfree) (.inr (hretries _))
  case push => exact ends_push hpark hc h hpc (.inr hfree) (.inr (hretries _))
  case park => exact ends_park hheld hpark hc haddr hleft h hpc hfree
  case readToken => exact ends_readToken hheld hpark hc haddr hleft h hpc (.inr hfree)
  case unlockFair => exact ends_unlockFair hQ hwait hc h hpc
  case markTimeout => exact ends_markTimeout hQ hwait hc h hpc
  case fairLoad => exact ends_fairLoad hQ hwait hc h hpc
  case fairLock => exact ends_fairLock hQ hwait hc h hpc

/-- The owner of the lock calls `unlock` while a thread waits. -/
theorem unlock_alone_returns_waiter :
    ∃ (s : State Bool) (log : List (Event Bool)), s.pc false = .unlock ∧ s.pc true = .park 8 ∧
      ∃ n s' log', (machine Bool).run (fun _ _ _ => true) (steps false n) s log = some (s', log') ∧
        s'.pc false = .outside := by
  obtain ⟨s, log, run, hend⟩ := exists_runs_of_run (machine Bool) rfl
    (steps false 2 ++ steps true 13 ++ [(true, { addr := 8 })] ++ steps true 4 ++
      [(false, { op := .unlock })])
    (fun s _ => decide (s.pc false = .unlock) && decide (s.pc true = .park 8)) (by decide +kernel)
  simp only [Bool.and_eq_true, decide_eq_true_eq] at hend
  exact ⟨s, log, hend.1, hend.2, unlock_alone_returns run (by rw [hend.1]; rfl) rfl⟩

/-- A thread goes on alone from its call of `with_thread_data`. -/
theorem alone_ends_parking :
    ∃ (s : State Bool) (log : List (Event Bool)), s.pc true = .withThreadData 10 lockedBit ∧
      ∃ n s' log', (machine Bool).run (fun _ _ _ => true)
        (List.replicate n (true, { addr := 8 })) s log = some (s', log') ∧
          Waits s'.mem (s'.pc true) := by
  obtain ⟨s, log, run, hend⟩ := exists_runs_of_run (machine Bool) rfl
    (steps false 2 ++ steps true 13)
    (fun s _ => decide (s.pc true = .withThreadData 10 lockedBit) &&
      decide (s.mem.frame 8 = none)) (by decide +kernel)
  simp only [Bool.and_eq_true, decide_eq_true_eq] at hend
  exact ⟨s, log, hend.1, alone_ends run true rfl (by decide) hend.2 rfl⟩

end Operations

end Mekong.Analysis.RawMutex
