import Mekong.Analysis.MemoryOrderSteps

/-!
# Every node is linked at most once

`link_prev_nodes!` walks the queue with the queue lock held, from the head to the first
node it has processed before, and writes the `prev` field of each node on the way. The
processing of a node is needed once only: a node gets its back link from the null that
`park!` stored, and no walk comes back to it. So in every run the walks write no more back
links than there were pushes, whatever the unlockers that give up, fail or start again.
-/

set_option autoImplicit false

namespace Mekong.Analysis.RawMutex

open Mekong.Computation Mekong.Model Mekong.Program.RawMutex

/-! ## The walks in the log -/

inductive LinkEvent (τ : Type)
  | raw (e : Event τ)
  /-- `link_prev_nodes!` writes the `prev` field of the node at `p`. -/
  | linked (t : τ) (p : Ptr)
  deriving DecidableEq

section Machine

variable {τ : Type}

/-- SOURCE: auxiliary.rs:154-168 -/
def linkEvents (t : τ) : Pc → List (LinkEvent τ)
  | .scanPrev _ _ _ next => [.linked t next]
  | _ => []

/-- The mutex, with the writes of `link_prev_nodes!` in its log. -/
def linkMachine (τ : Type) [DecidableEq τ] : Machine (State τ) (τ × Choice) (LinkEvent τ) where
  initial := (machine τ).initial
  next i s := ((machine τ).next i s).map fun r =>
    (r.1, r.2.map .raw ++ linkEvents i.1 (s.pc i.1))

/-- The events that link the node at `p`. -/
def linksAt (p : Ptr) : LinkEvent τ → Bool
  | .linked _ q => q = p
  | _ => false

/-- The events that push a node at `p`. -/
def pushesAt (p : Ptr) : LinkEvent τ → Bool
  | .raw (.pushed _ q) => q = p
  | _ => false

end Machine

/-- The node a walk is at. -/
def walksAt : Pc → Option Ptr
  | .scanTail _ _ current | .scanNext _ _ current | .scanPrev _ _ current _ => some current
  | _ => none

section Fields

variable {τ : Type} {t : τ} {c : Choice} {m : Mem τ} {pc : Pc} {p : Ptr}
  {r : Mem τ × Pc × List (Event τ)}

/-- A walk has the queue lock. -/
theorem holdsQueue_of_walksAt {pc : Pc} (h : walksAt pc = some p) : holdsQueue pc = true := by
  cases pc <;> first | rfl | cases h

/-- Only a walk writes the `prev` field of another thread's node. -/
theorem prev_of_step (hr : threadStep t c m pc = some r) (hown : ownNode pc ≠ some p)
    (hframe : m.frame p ≠ none) :
    (r.1.node p).prev = (m.node p).prev ∨ ∃ mode state current, pc = .scanPrev mode state current p := by
  cases pc
  case withThreadData =>
    simp only [threadStep] at hr
    split at hr <;> cases hr
    rename_i hc
    have hpc : p ≠ c.addr := by
      rintro rfl
      simp [hframe] at hc
    exact .inl (by rw [Mem.alloc_node_of_ne _ _ hpc])
  case setPrev counter state q =>
    have hpq : p ≠ q := fun h => hown (by rw [h]; rfl)
    cases hr
    exact .inl (by rw [Mem.modify_node_of_ne _ hpq])
  case scanPrev mode state current next =>
    by_cases hpq : p = next
    · exact .inr ⟨mode, state, current, by rw [hpq]⟩
    · cases hr
      exact .inl (by rw [Mem.modify_node_of_ne _ hpq])
  case setToken | setTail | setNext | markHead | setNewTail | setHandoff | unpark =>
    cases hr
    dsimp only
    refine .inl (Mem.modify_keeps ThreadData.prev ?_ p)
    exact fun _ => rfl
  case park =>
    simp only [threadStep] at hr
    split at hr <;> cases hr
    dsimp only
    refine .inl (Mem.modify_keeps ThreadData.prev ?_ p)
    exact fun _ => rfl
  all_goals
    simp only [threadStep] at hr
    (repeat' split at hr) <;> cases hr <;> exact .inl rfl

/-- Without the queue lock only the `queue_tail` field of the thread's own node is written. -/
theorem tail_of_step (hr : threadStep t c m pc = some r) (hhold : holdsQueue pc = false)
    (hown : ownNode pc ≠ some p) (hframe : m.frame p ≠ none) :
    (r.1.node p).queueTail = (m.node p).queueTail := by
  cases pc <;> try cases hhold
  case withThreadData =>
    simp only [threadStep] at hr
    split at hr <;> cases hr
    rename_i hc
    have hpc : p ≠ c.addr := by
      rintro rfl
      simp [hframe] at hc
    rw [Mem.alloc_node_of_ne _ _ hpc]
  case setTail counter state q =>
    have hpq : p ≠ q := fun h => hown (by rw [h]; rfl)
    cases hr
    rw [Mem.modify_node_of_ne _ hpq]
  case setToken | setPrev | setNext | setHandoff | unpark =>
    cases hr
    dsimp only
    refine Mem.modify_keeps ThreadData.queueTail ?_ p
    exact fun _ => rfl
  case park =>
    simp only [threadStep] at hr
    split at hr <;> cases hr
    dsimp only
    refine Mem.modify_keeps ThreadData.queueTail ?_ p
    exact fun _ => rfl
  all_goals
    simp only [threadStep] at hr
    (repeat' split at hr) <;> cases hr <;> rfl

/-- A removal is made with the queue lock. -/
theorem holdsQueue_of_removed {m' : Mem τ} {pc' : Pc} {mode : Mode} {w : U64}
    (hr : threadStep t c m pc = some (m', pc', [.removed t mode p w])) : holdsQueue pc = true := by
  cases pc <;> try rfl
  all_goals
    simp only [threadStep] at hr
    (repeat' split at hr) <;> cases hr

end Fields

section Walks

variable {τ : Type} {s : State τ} {g g' : Ghost τ} {t u : τ} {c : Choice} {p : Ptr}
  {r : Mem τ × Pc × List (Event τ)}

/-- Whoever is at a node in a walk has linked nothing behind it. -/
def Walks (m : Mem τ) (q : List Ptr) (pc : Pc) : Prop :=
  ∀ p, walksAt pc = some p → LazyQueue.Unlinked null (tailOf m.node) (prevOf m.node) q p

/-- The nodes of the queue are no thread's own, and stand in frames. -/
theorem Inv.queued_framed (h : Inv s g) (hp : p ∈ g.queue) :
    (∀ u, ownNode (s.pc u) ≠ some p) ∧ s.mem.frame p ≠ none := by
  have hq := h.queued p hp
  refine ⟨fun u hu => ?_, fun hnone => ?_⟩
  · exact h.own_ne_of_status (u := u) (p := p) (by rw [hq]; simp) hu rfl
  · have hfree := h.status_free hnone
    rw [hq] at hfree
    cases hfree

/-- A walk begins, or begins again, at the head of a settled queue. -/
theorem walks_outer (h : Inv s g) {m : Mem τ} (hm : m.node = s.mem.node) (hq : g.queue ≠ [])
    (hs : LazyQueue.Settled null (tailOf s.mem.node) (prevOf s.mem.node) g.queue) (mode : Mode) :
    Walks m g.queue (outer mode s.mem.word) := by
  rintro p ⟨⟩
  rw [h.head, hm]
  have hnull := h.null_notMem
  cases hg : g.queue with
  | nil => exact absurd hg hq
  | cons x l =>
    rw [hg] at hs hnull
    exact hs.unlinked hnull

/-- The walk of the thread that makes the step. -/
theorem Walks.step (hw : Walks s.mem g.queue (s.pc t)) (h : Inv s g)
    (hr : threadStep t c s.mem (s.pc t) = some r) (he : Effect g t r.1.word r.2.2 g') :
    Walks r.1 g'.queue r.2.1 := by
  have hwalk := h.walk t
  have hstate := h.state t
  cases hpc : s.pc t <;> rw [hpc] at hr hw hwalk hstate
  case slowLock state =>
    simp only [threadStep] at hr
    split at hr <;> cases hr <;> rename_i hcas
    · obtain rfl := compareExchangeWeak_ok hcas
      obtain ⟨hfree, hhead⟩ := hstate
      rw [he.queue_of_nil rfl]
      exact walks_outer h rfl (fun e => hhead (h.head_null_iff.mpr e))
        (h.settled (h.holder_none hfree)) .plain
    · intro p hp
      simp only [unlockSlow] at hp
      split at hp <;> cases hp
  case fairLock counter state =>
    simp only [threadStep] at hr
    split at hr <;> cases hr <;> rename_i hcas
    · obtain rfl := compareExchangeWeak_ok hcas
      rw [he.queue_of_nil rfl]
      dsimp only
      split
      · intro p hp
        cases hp
      · exact walks_outer h rfl hwalk (h.settled (h.holder_none hstate)) .fair
    · intro p hp
      simp only [unlockSlowFair] at hp
      split at hp <;> cases hp
  case scanTail mode state current =>
    simp only [threadStep] at hr
    split at hr <;> cases hr
    · rw [he.queue_of_nil rfl]
      exact hw
    · intro p hp
      cases hp
  case scanNext mode state current =>
    cases hr
    rw [he.queue_of_nil rfl]
    exact hw
  case scanPrev mode state current next =>
    obtain ⟨hscan, htail, rfl⟩ := hwalk
    obtain ⟨u, rest, hq⟩ := h.next hscan htail
    cases hr
    rw [he.queue_of_nil rfl]
    rintro p ⟨⟩
    rw [tailOf_modify_prev, prevOf_modify]
    exact ((hw current rfl).advance h.nodup htail hq).2
  case giveUp state =>
    simp only [threadStep] at hr
    split at hr <;> cases hr <;> rename_i hcas
    · intro p hp
      cases hp
    · obtain rfl := compareExchangeWeak_err hcas
      rw [he.queue_of_nil rfl]
      exact walks_outer h rfl hwalk.1 hwalk.2 .plain
  case removeLast mode state queueTail =>
    simp only [threadStep] at hr
    split at hr <;> cases hr <;> rename_i hcas
    · intro p hp
      cases mode <;> cases hp
    · obtain rfl := compareExchangeWeak_err hcas
      rw [he.queue_of_nil rfl]
      dsimp only [retryRemove]
      split
      · intro p hp
        cases hp
      · exact walks_outer h rfl (List.ne_nil_of_mem hwalk.1.1.mem.1) (.inr ⟨_, _, hwalk.1⟩) mode
  all_goals
    intro p hp
    simp only [threadStep, lockSlow, unlockSlow, unlockSlowFair, afterMark, wake] at hr
    (repeat' split at hr) <;> cases hr <;> simp_all [walksAt]

/-- The walks of the others. -/
theorem Walks.stays (hw : Walks s.mem g.queue (s.pc u)) (h : Inv s g) (hut : u ≠ t)
    (hr : threadStep t c s.mem (s.pc t) = some r) (he : Effect g t r.1.word r.2.2 g') :
    Walks r.1 g'.queue (s.pc u) := by
  intro p hp
  have hu : holdsQueue (s.pc u) = true := holdsQueue_of_walksAt hp
  have ht : holdsQueue (s.pc t) = false := by
    rw [Bool.eq_false_iff]
    intro ht
    have h1 := (h.holder u).mp hu
    have h2 := (h.holder t).mp ht
    rw [h1] at h2
    exact hut (Option.some.inj h2)
  have hsame : LazyQueue.Unlinked null (tailOf r.1.node) (prevOf r.1.node) g.queue p := by
    refine (hw p hp).congr (fun x hx => ?_) fun x hx => ?_
    · obtain ⟨hown, hframe⟩ := h.queued_framed hx
      exact tail_of_step hr ht (hown t) hframe
    · obtain ⟨hown, hframe⟩ := h.queued_framed hx
      rcases prev_of_step hr (hown t) hframe with hprev | ⟨mode, state, current, hpc⟩
      · exact hprev
      · rw [hpc] at ht
        cases ht
  obtain ⟨m', pc', es⟩ := r
  dsimp only at he hsame ⊢
  cases he with
  | quiet _ hq => rwa [hq]
  | pushed => exact hsame.push
  | removed =>
    -- only who holds the queue lock removes
    rw [holdsQueue_of_removed hr] at ht
    cases ht
  | unparked => exact hsame

end Walks

/-! ## Counting -/

section Counts

variable {τ : Type} {s s' : State τ} {g g' : Ghost τ} {t : τ} {c : Choice} {p : Ptr}
  {r : Mem τ × Pc × List (Event τ)} {log : List (LinkEvent τ)}

/-- One for a queued node without a back link. -/
def unlinked (m : Mem τ) (q : List Ptr) (p : Ptr) : ℕ :=
  if p ∈ q ∧ (m.node p).prev = null then 1 else 0

/-- A node lacks its back link at most once. -/
theorem unlinked_le_one (m : Mem τ) (q : List Ptr) (p : Ptr) : unlinked m q p ≤ 1 := by
  unfold unlinked
  split <;> omega

/-- A node that keeps its `prev` field lacks no further back link. -/
theorem unlinked_le {m m' : Mem τ} {q q' : List Ptr} (hq : p ∈ q' → p ∈ q)
    (hprev : p ∈ q → (m'.node p).prev = (m.node p).prev) : unlinked m' q' p ≤ unlinked m q p := by
  unfold unlinked
  by_cases hmem : p ∈ q' ∧ (m'.node p).prev = null
  · rw [if_pos hmem, if_pos ⟨hq hmem.1, by rw [← hprev (hq hmem.1), hmem.2]⟩]
  · rw [if_neg hmem]
    exact Nat.zero_le _

/-- The mutex's own events link no node. -/
theorem countP_links_raw (es : List (Event τ)) :
    (es.map LinkEvent.raw).countP (linksAt p) = 0 := by
  rw [List.countP_eq_zero]
  rintro e he
  obtain ⟨x, -, rfl⟩ := List.mem_map.mp he
  exact Bool.false_ne_true

/-- A step links no node that has a back link, and only a push makes a node wait for one. -/
theorem links_step (h : Inv s g) (hwalks : Walks s.mem g.queue (s.pc t))
    (hr : threadStep t c s.mem (s.pc t) = some r) (he : Effect g t r.1.word r.2.2 g') :
    (linkEvents t (s.pc t)).countP (linksAt p) + unlinked r.1 g'.queue p ≤
      unlinked s.mem g.queue p + (r.2.2.map LinkEvent.raw).countP (pushesAt p) := by
  by_cases hscan : ∃ mode state current, s.pc t = .scanPrev mode state current p
  · -- the walk is at the node before `p`
    obtain ⟨mode, state, current, hpc⟩ := hscan
    have hwalk := h.walk t
    rw [hpc] at hr hwalk hwalks ⊢
    obtain ⟨hw, htail, rfl⟩ := hwalk
    obtain ⟨u, rest, hq⟩ := h.next hw htail
    have hmem : (s.mem.node current).next ∈ g.queue := by
      rw [hq]
      simp
    have hcur : current ≠ null := by
      rintro rfl
      exact h.null_notMem (by rw [hq]; simp)
    have hprev := ((hwalks current rfl).advance h.nodup htail hq).1
    cases hr
    have hafter : unlinked (s.mem.modify (s.mem.node current).next ({ · with prev := current }))
        g'.queue (s.mem.node current).next = 0 := by
      unfold unlinked
      rw [Mem.modify_node_self]
      exact if_neg fun hp => hcur hp.2
    have hbefore : unlinked s.mem g.queue (s.mem.node current).next = 1 := if_pos ⟨hmem, hprev⟩
    rw [hafter, hbefore]
    simp [linkEvents, linksAt]
  · have hlink : (linkEvents t (s.pc t)).countP (linksAt p) = 0 := by
      rw [List.countP_eq_zero]
      intro e hmem
      unfold linkEvents at hmem
      split at hmem
      · rename_i mode state current next hpc
        rw [List.mem_singleton.mp hmem]
        simp only [linksAt, decide_eq_true_eq]
        rintro rfl
        exact hscan ⟨mode, state, current, hpc⟩
      · cases hmem
    have hprev : p ∈ g.queue → (r.1.node p).prev = (s.mem.node p).prev := fun hp =>
      (prev_of_step hr ((h.queued_framed hp).1 t) (h.queued_framed hp).2).resolve_right hscan
    rw [hlink, Nat.zero_add]
    rcases he.queue_cases with hq | ⟨x, hes, -, hq⟩ | ⟨x, hq⟩
    · exact (unlinked_le (by rw [hq]; exact id) hprev).trans (Nat.le_add_right _ _)
    · by_cases hxp : x = p
      · -- the push of `p` itself
        have hpush : (r.2.2.map LinkEvent.raw).countP (pushesAt p) = 1 := by
          rw [hes]
          simp [pushesAt, hxp]
        rw [hpush]
        exact (unlinked_le_one _ _ _).trans (Nat.le_add_left _ _)
      · refine (unlinked_le (fun hp => ?_) hprev).trans (Nat.le_add_right _ _)
        rw [hq] at hp
        exact (List.mem_cons.mp hp).resolve_left fun hpx => hxp hpx.symm
    · refine (unlinked_le (fun hp => ?_) hprev).trans (Nat.le_add_right _ _)
      rw [hq]
      exact List.mem_append_left _ hp

end Counts

section Runs

variable {τ : Type} [DecidableEq τ] {s : State τ} {log : List (LinkEvent τ)}

/-- **Every node is linked once.** In every run, whatever the unlockers and however often
they start again, the walks write the back link of a node at most as often as a node was
pushed at its address. -/
theorem linked_once (run : Runs (linkMachine τ) s log) (p : Ptr) :
    log.countP (linksAt p) ≤ log.countP (pushesAt p) := by
  suffices h : ∃ g, Inv s g ∧ (∀ u, Walks s.mem g.queue (s.pc u)) ∧
      ∀ p, log.countP (linksAt p) + unlinked s.mem g.queue p ≤ log.countP (pushesAt p) by
    obtain ⟨g, -, -, hcount⟩ := h
    exact (Nat.le_add_right _ _).trans (hcount p)
  refine run.invariant (fun s log => ∃ g, Inv s g ∧ (∀ u, Walks s.mem g.queue (s.pc u)) ∧
    ∀ p, log.countP (linksAt p) + unlinked s.mem g.queue p ≤ log.countP (pushesAt p)) ?_ ?_
  · rintro s rfl
    refine ⟨_, inv_new, fun u p hp => ?_, fun p => ?_⟩
    · cases hp
    · simp [unlinked, Ghost.new]
  · rintro s log ⟨t, c⟩ s' es ⟨g, h, hwalks, hcount⟩ - hr
    obtain ⟨⟨s₁, es₁⟩, hnext, hs⟩ := Option.map_eq_some_iff.mp hr
    obtain ⟨m', pc', hthread, hr'⟩ := machine_next hnext
    cases hs
    obtain ⟨g', h', he⟩ := step_advance h hthread
    rw [hr']
    refine ⟨g', h', ?_, fun p => ?_⟩
    · exact Threads.forall_moveTo (fun _ pc => Walks m' g'.queue pc)
        ((hwalks t).step h hthread he) fun u hu => (hwalks u).stays h hu hthread he
    · have hstep := links_step (p := p) h (hwalks t) hthread he
      have hbefore := hcount p
      have hnone : (linkEvents t (s.pc t)).countP (pushesAt p) = 0 := by
        rw [List.countP_eq_zero]
        intro e hmem
        unfold linkEvents at hmem
        split at hmem
        · rw [List.mem_singleton.mp hmem]
          exact Bool.false_ne_true
        · cases hmem
      rw [List.countP_append, List.countP_append, List.countP_append, List.countP_append,
        countP_links_raw, hnone]
      simp only [Threads.moveTo_mem] at hstep ⊢
      omega

/-- A thread locks, two queue up behind it, and it unlocks up to the first back link. -/
def twoWaiters : List (Fin 3 × Choice) :=
  steps 0 2 ++ steps 1 13 ++ [(1, { addr := 8 })] ++ steps 1 4 ++ steps 2 3 ++
    [(2, { addr := 16 })] ++ steps 2 5 ++ [(0, { op := .unlock })] ++ steps 0 6

/-- A walk links a node that was pushed before another. -/
theorem linked_once_two :
    ∃ log : List (LinkEvent (Fin 3)), .linked 0 8 ∈ log ∧
      log.countP (linksAt 8) ≤ log.countP (pushesAt 8) := by
  obtain ⟨s, log, run, hend⟩ := exists_runs_of_run (linkMachine (Fin 3)) rfl twoWaiters
    (fun _ log => decide (.linked 0 8 ∈ log)) (by decide +kernel)
  exact ⟨log, of_decide_eq_true hend, linked_once run 8⟩

end Runs

end Mekong.Analysis.RawMutex
