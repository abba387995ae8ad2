import Mekong.Analysis.FairHandoff

/-!
# The wait queue is a FIFO

`waiting log` is the queue as the log tells it: the nodes pushed and not removed, newest
first. It is the initial segment of the `next` chain from the word's head, its nodes leave
it oldest first, and each of them is then notified once. The walk of the holder of the
queue lock stays inside it: `ScanDist` counts how many unmarked nodes are left before the
marked one at which the walk ends, and no step of another thread changes that number.
-/

set_option autoImplicit false

namespace Mekong.Analysis.RawMutex

open Mekong.Computation Mekong.Model Mekong.Program.RawMutex

variable {τ : Type}

/-! ## The queue in the log -/

def queueAfter (q : List Ptr) : Event τ → List Ptr
  | .pushed _ p => p :: q
  | .removed _ _ p _ => q.erase p
  | _ => q

/-- The nodes pushed and not removed, newest first. -/
def waiting (log : List (Event τ)) : List Ptr := log.foldl queueAfter []

/-- The nodes in the order of their pushes. -/
def pushes (log : List (Event τ)) : List Ptr :=
  log.filterMap fun
    | .pushed _ p => some p
    | _ => none

/-- The nodes in the order of their removals. -/
def removals (log : List (Event τ)) : List Ptr :=
  log.filterMap fun
    | .removed _ _ p _ => some p
    | _ => none

/-- The events of the queue about the node at `p`. -/
def about (p : Ptr) : Event τ → Bool
  | .pushed _ q | .removed _ _ q _ | .unparked _ _ q => q = p
  | _ => false

/-- One stay of the address `p` in the queue: it is pushed once, removed once, and
notified once, by the thread that removed it. -/
inductive Stay (p : Ptr) : List (Event τ) → Prop
  | mk {t r : τ} {mode : Mode} {w : U64} :
      Stay p [.pushed t p, .removed r mode p w, .unparked r mode p]

/-- A stay that has not ended. -/
inductive OpenStay (p : Ptr) : Option (Option (τ × Mode)) → List (Event τ) → Prop
  | none : OpenStay p none []
  | queued {t : τ} : OpenStay p (some none) [.pushed t p]
  | removed {t r : τ} {mode : Mode} {w : U64} :
      OpenStay p (some (some (r, mode))) [.pushed t p, .removed r mode p w]

/-- The stays of `p` in the log, the last one as far as `x` says. -/
def Stays (p : Ptr) (x : Option (Option (τ × Mode))) (log : List (Event τ)) : Prop :=
  ∃ (stays : List (List (Event τ))) (rest : List (Event τ)),
    log.filter (about p) = stays.flatten ++ rest ∧ (∀ l ∈ stays, Stay p l) ∧ OpenStay p x rest

/-- Events about other nodes leave the stays of a node. -/
theorem Stays.keep {p : Ptr} {x : Option (Option (τ × Mode))} {log es : List (Event τ)}
    (h : Stays p x log) (hes : es.filter (about p) = []) : Stays p x (log ++ es) := by
  obtain ⟨stays, rest, hlog, hrest⟩ := h
  exact ⟨stays, rest, by rw [List.filter_append, hlog, hes, List.append_nil], hrest⟩

/-- A push opens a stay. -/
theorem Stays.push {p : Ptr} {log : List (Event τ)} (h : Stays p none log) (t : τ) :
    Stays p (some none) (log ++ [.pushed t p]) := by
  obtain ⟨stays, rest, hlog, hstays, hopen⟩ := h
  cases hopen
  exact ⟨stays, [.pushed t p], by simp [hlog, about], hstays, .queued⟩

/-- A removal is part of the open stay. -/
theorem Stays.remove {p : Ptr} {log : List (Event τ)} (h : Stays p (some none) log) (r : τ)
    (mode : Mode) (w : U64) : Stays p (some (some (r, mode))) (log ++ [.removed r mode p w]) := by
  obtain ⟨stays, rest, hlog, hstays, hopen⟩ := h
  cases hopen with
  | queued =>
    rename_i t
    exact ⟨stays, [.pushed t p, .removed r mode p w], by simp [hlog, about], hstays, .removed⟩

/-- A notification closes the stay. -/
theorem Stays.unpark {p : Ptr} {r : τ} {mode : Mode} {log : List (Event τ)}
    (h : Stays p (some (some (r, mode))) log) : Stays p none (log ++ unparkEvents r mode p) := by
  obtain ⟨stays, rest, hlog, hstays, hopen⟩ := h
  cases hopen with
  | removed =>
    rename_i t w
    refine ⟨stays ++ [[.pushed t p, .removed r mode p w, .unparked r mode p]], [], ?_, ?_, .none⟩
    · cases mode <;> simp [hlog, about, unparkEvents]
    · intro l hl
      rcases List.mem_append.mp hl with hl | hl
      · exact hstays l hl
      · rw [List.mem_singleton.mp hl]
        exact .mk

/-! ## The ghost's queue is the log's -/

/-- What the log says of the ghost. -/
structure Logged (g : Ghost τ) (log : List (Event τ)) : Prop where
  queue : g.queue = waiting log
  fifo : pushes log = removals log ++ g.queue.reverse
  stays : ∀ p, Stays p (life (g.status p)) log

/-- Events off the queue leave it. -/
theorem foldl_queueAfter_quiet {es : List (Event τ)} (hes : ∀ e ∈ es, onQueue e = false)
    (q : List Ptr) : es.foldl queueAfter q = q := by
  induction es with
  | nil => rfl
  | cons e es ih =>
    have he := hes e (by simp)
    rw [List.foldl_cons, show queueAfter q e = q by cases e <;> first | rfl | cases he]
    exact ih fun e he => hes e (by simp [he])

/-- After one step the log still has the ghost's queue. -/
theorem Logged.step [DecidableEq τ] {s : State τ} {g g' : Ghost τ} {t : τ} {w : U64}
    {log es : List (Event τ)} (hl : Logged g log) (h : Inv s g) (he : Effect g t w es g') :
    Logged g' (log ++ es) := by
  cases he with
  | quiet hes hq hs =>
    have hnone : ∀ f : Event τ → Option Ptr, (∀ e, onQueue e = false → f e = none) →
        es.filterMap f = [] :=
      fun f hf => List.filterMap_eq_nil_iff.mpr fun e he => hf e (hes e he)
    refine ⟨?_, ?_, fun p => ?_⟩
    · rw [hq, hl.queue, waiting, waiting, List.foldl_append, foldl_queueAfter_quiet hes]
    · rw [pushes, removals, List.filterMap_append, List.filterMap_append, hnone, hnone, hq,
        List.append_nil, List.append_nil]
      · exact hl.fifo
      all_goals
        intro e he
        cases e <;> first | rfl | cases he
    · rw [hs p]
      refine (hl.stays p).keep (List.filter_eq_nil_iff.mpr fun e he => ?_)
      have := hes e he
      cases e <;> simp_all [about, onQueue]
  | pushed hp =>
    rename_i p
    refine ⟨?_, ?_, fun q => ?_⟩
    · rw [waiting, List.foldl_append, ← waiting, ← hl.queue]
      rfl
    · have := hl.fifo
      simp_all [pushes, removals]
    · by_cases hq : q = p
      · subst hq
        have hs := hl.stays q
        rw [hp] at hs
        rw [Ghost.setStatus_self]
        exact hs.push t
      · rw [Ghost.setStatus_of_ne _ _ hq]
        exact (hl.stays q).keep (by simp [about, Ne.symm hq])
  | removed hq hw =>
    rename_i mode p q' o
    have hnot : p ∉ q' := fun hm => by
      have hnd := h.nodup
      rw [hq] at hnd
      exact (List.nodup_append.mp hnd).2.2 p hm p (by simp) rfl
    refine ⟨?_, ?_, fun q => ?_⟩
    · rw [waiting, List.foldl_append, ← waiting, ← hl.queue, hq]
      simp [queueAfter, List.erase_append_right _ hnot, Ghost.setStatus]
    · have := hl.fifo
      rw [hq] at this
      simp_all [pushes, removals, Ghost.setStatus]
    · by_cases hqp : q = p
      · subst hqp
        have hs := hl.stays q
        rw [h.queued q (by simp [hq])] at hs
        rw [Ghost.setStatus_self]
        exact hs.remove t mode w
      · rw [Ghost.setStatus_of_ne _ _ hqp]
        exact (hl.stays q).keep (by simp [about, Ne.symm hqp])
  | unparked hp =>
    rename_i mode p
    refine ⟨?_, ?_, fun q => ?_⟩
    · rw [waiting, List.foldl_append, ← waiting, ← hl.queue]
      cases mode <;> rfl
    · have := hl.fifo
      cases mode <;> simp_all [pushes, removals, unparkEvents]
    · by_cases hq : q = p
      · subst hq
        have hs := hl.stays q
        rw [hp] at hs
        rw [Ghost.setStatus_self]
        exact hs.unpark
      · rw [Ghost.setStatus_of_ne _ _ hq]
        refine (hl.stays q).keep ?_
        cases mode <;> simp [about, unparkEvents, Ne.symm hq]

/-! ## The walk -/

/-- The node a walk stands on. -/
def scanNode : Pc → Option Ptr
  | .scanTail _ _ c | .scanNext _ _ c | .scanPrev _ _ c _ => some c
  | _ => none

/-- From `c` the `next` fields lead through `n` unmarked nodes of `q` to a marked one. -/
inductive ScanDist (node : Ptr → ThreadData) (q : List Ptr) : Ptr → ℕ → Prop
  | marked {c : Ptr} (hc : c ∈ q) (h : (node c).queueTail ≠ null) : ScanDist node q c 0
  | next {c : Ptr} {n : ℕ} (hc : c ∈ q) (h : (node c).queueTail = null)
      (hn : (node c).next ≠ null) (r : ScanDist node q (node c).next n) : ScanDist node q c (n + 1)

/-- The distance reads the links of queued nodes only. -/
theorem ScanDist.congr {node node' : Ptr → ThreadData} {q q' : List Ptr} {c : Ptr} {n : ℕ}
    (h : ScanDist node q c n) (hq : ∀ p ∈ q, p ∈ q') (ht : ∀ p ∈ q, (node' p).queueTail = (node p).queueTail)
    (hn : ∀ p ∈ q, (node' p).next = (node p).next) : ScanDist node' q' c n := by
  induction h with
  | marked hc h => exact .marked (hq _ hc) (by rwa [ht _ hc])
  | next hc h hne _ ih =>
    exact .next (hq _ hc) (by rwa [ht _ hc]) (by rwa [hn _ hc]) (by rwa [hn _ hc])

section Walk

variable {s : State τ} {g : Ghost τ} {t : τ}

/-- The marked node a walk is on its way to. -/
theorem Inv.scanDist (h : Inv s g) {a c : Ptr}
    (hw : LazyQueue.Scanning null (tailOf s.mem.node) (prevOf s.mem.node) g.queue a c) :
    ∃ n, ScanDist s.mem.node g.queue c n := by
  obtain ⟨u, l, b, r, hq, hc, hl, hb⟩ := hw.reaches h.null_notMem
  have key : ∀ (l : List Ptr) (u : List Ptr) (c : Ptr), g.queue = u ++ (l ++ b :: r) →
      (l ++ [b]).head? = some c → (∀ x ∈ l, tailOf s.mem.node x = null) →
      ScanDist s.mem.node g.queue c l.length := by
    intro l
    induction l with
    | nil =>
      intro u c hq hc _
      simp only [List.nil_append, List.head?_cons, Option.some.injEq] at hc
      subst hc
      exact .marked (by simp [hq]) hb
    | cons x l ih =>
      intro u c hq hc hl
      simp only [List.cons_append, List.head?_cons, Option.some.injEq] at hc
      subst hc
      obtain ⟨y, hy⟩ : ∃ y, (l ++ [b]).head? = some y := by cases l <;> simp
      have hnext : (s.mem.node x).next = y := by
        have hlinks := h.links
        rw [hq] at hlinks
        have hx := hlinks.right_of_append
        rw [List.cons_append, List.isChain_cons] at hx
        refine hx.1 y ?_
        cases l <;> simpa using hy
      have hmem : y ∈ g.queue := by
        rw [hq, show u ++ (x :: l ++ b :: r) = u ++ [x] ++ ((l ++ [b]) ++ r) by simp]
        exact List.mem_append_right _ (List.mem_append_left _ (List.mem_of_head? hy))
      refine .next (by simp [hq]) (hl x (by simp)) ?_ ?_
      · rw [hnext]
        rintro rfl
        exact h.null_notMem hmem
      · rw [hnext]
        exact ih (u ++ [x]) y (by simp [hq]) hy fun z hz => hl z (by simp [hz])
  exact ⟨_, key l u c hq hc hl⟩

/-- Each walk is on its way to a marked node of the queue. -/
theorem Inv.scanNode_dist (h : Inv s g) {c : Ptr} (hc : scanNode (s.pc t) = some c) :
    ∃ n, ScanDist s.mem.node g.queue c n := by
  have hw := h.walk t
  cases hpc : s.pc t <;> rw [hpc] at hc hw <;> cases hc
  · exact h.scanDist hw
  · exact h.scanDist hw.1
  · exact h.scanDist hw.1

/-- A scan is under the queue lock. -/
theorem holdsQueue_of_scanNode {pc : Pc} {c : Ptr} (hc : scanNode pc = some c) :
    holdsQueue pc = true := by
  cases pc <;> first | rfl | cases hc

end Walk

variable [DecidableEq τ] {s : State τ} {g : Ghost τ} {t : τ} {c : Choice} {m' : Mem τ} {pc' : Pc}
  {log es : List (Event τ)}

omit [DecidableEq τ] in
/-- Only the holder of the queue lock writes into queued nodes. -/
theorem Inv.queued_unchanged (h : Inv s g)
    (hr : threadStep t c s.mem (s.pc t) = some (m', pc', es)) (hhold : holdsQueue (s.pc t) = false)
    {q : Ptr} (hq : q ∈ g.queue) : m'.node q = s.mem.node q := by
  have hqueued := h.queued q hq
  have hown : ∀ {p : Ptr}, ownNode (s.pc t) = some p → q ≠ p := by
    rintro p hp rfl
    exact h.own_ne_of_status (by rw [hqueued]; simp) hp rfl
  have hwake : ∀ {mode : Mode} {p : Ptr}, wakes (s.pc t) = some (mode, p) → q ≠ p := by
    rintro mode p hp rfl
    exact h.wake_ne (by rw [hqueued]; simp) hp rfl
  cases hpc : s.pc t <;> rw [hpc] at hr hhold hown hwake <;> simp only [threadStep] at hr
  case withThreadData =>
    split at hr <;> cases hr
    rename_i hc
    refine Mem.alloc_node_of_ne _ _ ?_
    rintro rfl
    have hfree := h.status_free (p := c.addr) (by simpa using hc.2.1)
    rw [hqueued] at hfree
    cases hfree
  case setToken =>
    cases hr
    exact Mem.modify_node_of_ne _ (hown rfl)
  case setTail =>
    cases hr
    exact Mem.modify_node_of_ne _ (hown rfl)
  case setPrev =>
    cases hr
    exact Mem.modify_node_of_ne _ (hown rfl)
  case setNext =>
    cases hr
    exact Mem.modify_node_of_ne _ (hown rfl)
  case park p =>
    split at hr <;> cases hr
    rename_i hpk
    refine Mem.modify_node_of_ne _ ?_
    rintro rfl
    have hs := h.status q
    simp only [StatusInv, hqueued] at hs
    rw [hs.2.1] at hpk
    cases hpk
  case setHandoff =>
    cases hr
    exact Mem.modify_node_of_ne _ (hwake rfl)
  case unpark =>
    cases hr
    exact Mem.modify_node_of_ne _ (hwake rfl)
  -- the remaining places write no node, or belong to the holder
  all_goals first
    | (cases hr; rfl)
    | (split at hr <;> cases hr <;> rfl)
    | cases hhold

omit [DecidableEq τ] in
/-- How a walk goes on in a step of its own thread. -/
theorem scan_step {cur cur' : Ptr} (hr : threadStep t c s.mem (s.pc t) = some (m', pc', es))
    (hc : scanNode (s.pc t) = some cur) (hc' : scanNode pc' = some cur') :
    (∀ p, (m'.node p).queueTail = (s.mem.node p).queueTail ∧ (m'.node p).next = (s.mem.node p).next) ∧
      (cur' = cur ∨ ∃ mode state next, s.pc t = .scanPrev mode state cur next ∧ cur' = next) := by
  cases hpc : s.pc t <;> rw [hpc] at hr hc <;> cases hc <;> simp only [threadStep] at hr
  · split at hr <;> cases hr <;> cases hc'
    exact ⟨fun p => ⟨rfl, rfl⟩, .inl rfl⟩
  · cases hr
    cases hc'
    exact ⟨fun p => ⟨rfl, rfl⟩, .inl rfl⟩
  · cases hr
    cases hc'
    refine ⟨fun p => ?_, .inr ⟨_, _, cur', rfl, rfl⟩⟩
    by_cases hp : p = cur'
    · simp [hp]
    · simp [Mem.modify_node_of_ne _ hp]

/-! ## The theorem -/

/-- The queue of a reachable state. -/
structure WaitQueue (s : State τ) (log : List (Event τ)) : Prop where
  /-- At most one thread holds the queue lock. -/
  holder : ∀ t u, holdsQueue (s.pc t) = true → holdsQueue (s.pc u) = true → t = u
  queueLocked : isQueueLocked s.mem.word = true ↔ ∃ t, holdsQueue (s.pc t) = true
  /-- The waiting nodes are the initial segment of the `next` chain from the head. -/
  nodup : (waiting log).Nodup
  head : queueHead s.mem.word = (waiting log).headD null
  chain : (waiting log).IsChain fun x y => (s.mem.node x).next = y
  parked : ∀ p ∈ waiting log, ∃ t, s.pc t = .park p ∧ s.mem.frame p = some t
  /-- A walk finds a marked node of the queue ahead of it. -/
  scan : ∀ t c, scanNode (s.pc t) = some c → ∃ n, ScanDist s.mem.node (waiting log) c n
  /-- The `next` field it reads is not the oldest node's. -/
  followed : ∀ t mode state c, s.pc t = .scanNext mode state c →
    ∃ u rest, waiting log = u ++ c :: (s.mem.node c).next :: rest
  /-- Nodes are removed in the order of their pushes. -/
  fifo : pushes log = removals log ++ (waiting log).reverse
  /-- A stay that has ended has one removal and one notification. One that has not is that
  of a waiting node, or the thread that removed the node is about to notify it. -/
  stays : ∀ p, ∃ x, Stays p x log ∧ (x = some none ↔ p ∈ waiting log) ∧
    ∀ r mode, x = some (some (r, mode)) ↔ wakes (s.pc r) = some (mode, p)

omit [DecidableEq τ] in
/-- The queued nodes are those of the ghost's queue. -/
theorem Inv.life_queued (h : Inv s g) {p : Ptr} :
    life (g.status p) = some none ↔ p ∈ g.queue := by
  constructor
  · intro hlife
    have hs := h.status p
    cases hp : g.status p <;> rw [hp] at hlife <;> cases hlife
    simp only [StatusInv, hp] at hs
    exact hs.1
  · intro hp
    rw [h.queued p hp]
    rfl

omit [DecidableEq τ] in
/-- A removed node is the one its remover is about to notify. -/
theorem Inv.life_removed (h : Inv s g) {p : Ptr} {r : τ} {mode : Mode} :
    life (g.status p) = some (some (r, mode)) ↔ wakes (s.pc r) = some (mode, p) := by
  constructor
  · intro hlife
    have hs := h.status p
    cases hp : g.status p <;> rw [hp] at hlife <;> cases hlife
    simp only [StatusInv, hp] at hs
    exact hs.2.1
  · intro hwakes
    rw [(h.node r).removed hwakes]
    rfl

/-- A step of `t` from a reachable state. -/
structure QueueStep (s : State τ) (log : List (Event τ)) (t : τ) (s' : State τ)
    (es : List (Event τ)) : Prop where
  /-- Only the holder of the queue lock gives it back. -/
  clears : isQueueLocked s.mem.word = true → isQueueLocked s'.mem.word = false →
    holdsQueue (s.pc t) = true
  /-- A removal takes the oldest node. -/
  oldest : ∀ r mode p w, .removed r mode p w ∈ es → (waiting log).getLast? = some p
  /-- A walk in progress keeps its distance to the marked node, or has come one closer. -/
  scan : ∀ u cur cur' n, scanNode (s.pc u) = some cur → scanNode (s'.pc u) = some cur' →
    ScanDist s.mem.node (waiting log) cur n →
      (cur' = cur ∧ ScanDist s'.mem.node (waiting (log ++ es)) cur' n) ∨
        ∃ n', n = n' + 1 ∧ ScanDist s'.mem.node (waiting (log ++ es)) cur' n'

omit [DecidableEq τ] in
/-- The invariant and the log give every part of the property. -/
theorem Inv.waitQueue (h : Inv s g) (hl : Logged g log) : WaitQueue s log where
  holder t u ht hu := Option.some.inj (((h.holder t).mp ht).symm.trans ((h.holder u).mp hu))
  queueLocked := by
    simp only [h.queueLocked, Option.isSome_iff_exists, h.holder]
  nodup := hl.queue ▸ h.nodup
  head := hl.queue ▸ h.head
  chain := hl.queue ▸ h.links
  parked p hp := by
    rw [← hl.queue] at hp
    obtain ⟨u, hu, hf, -⟩ := h.parked hp
    exact ⟨u, hu, hf⟩
  scan t c hc := hl.queue ▸ h.scanNode_dist hc
  followed t mode state c hpc := by
    have hw := h.walk t
    rw [hpc] at hw
    rw [← hl.queue]
    exact h.next hw.1 hw.2
  fifo := hl.queue ▸ hl.fifo
  stays p := ⟨_, hl.stays p, hl.queue ▸ h.life_queued, fun _ _ => h.life_removed⟩

/-- One step does to the queue what the property says. -/
theorem Inv.queueStep {g' : Ghost τ} (h : Inv s g) (hl : Logged g log)
    (hr : threadStep t c s.mem (s.pc t) = some (m', pc', es)) (h' : Inv (s.moveTo t m' pc') g')
    (he : Effect g t m'.word es g') : QueueStep s log t (s.moveTo t m' pc') es where
  clears hq hq' := by
    rw [h.queueLocked, Option.isSome_iff_exists] at hq
    obtain ⟨u, hu⟩ := hq
    have hhold := (h.holder u).mpr hu
    by_cases hut : u = t
    · rwa [← hut]
    · have hu' := (h'.holder u).mp (by rwa [Threads.moveTo_pc_of_ne _ _ _ hut])
      rw [h'.queueLocked, hu'] at hq'
      cases hq'
  oldest r mode p w hm := by
    rw [← hl.queue]
    cases he with
    | quiet hes => exact absurd (hes _ hm) (by simp [onQueue])
    | pushed => simp at hm
    | removed hq hw =>
      injection List.mem_singleton.mp hm with _ _ hp _
      rw [hq, hp, List.getLast?_concat]
    | unparked => rename_i m _ _; cases m <;> simp [unparkEvents] at hm
  scan u cur cur' n hc hc' hd := by
    have hl' := hl.step h he
    rw [← hl.queue] at hd
    rw [← hl'.queue]
    have hhold := holdsQueue_of_scanNode hc
    have hsub : ∀ p ∈ g.queue, p ∈ g'.queue := by
      -- the walk's thread still has the queue lock, so nothing was removed
      intro p hp
      cases he with
      | quiet hes hq => rwa [hq]
      | pushed => exact List.mem_cons_of_mem _ hp
      | removed hq =>
        have hu' := (h'.holder u).mp (holdsQueue_of_scanNode hc')
        cases hu'
      | unparked => exact hp
    by_cases hut : u = t
    · subst hut
      rw [Threads.moveTo_pc_self] at hc'
      obtain ⟨hn, hcur⟩ := scan_step hr hc hc'
      have hd' : ScanDist m'.node g'.queue cur n :=
        hd.congr hsub (fun p _ => (hn p).1) fun p _ => (hn p).2
      rcases hcur with rfl | ⟨mode, state, next, hpc, rfl⟩
      · exact .inl ⟨rfl, hd'⟩
      · have hw := h.walk u
        rw [hpc] at hw
        obtain ⟨-, htail, rfl⟩ := hw
        cases hd' with
        | marked _ hne => exact absurd ((hn cur).1.trans htail) hne
        | next _ _ _ hrest =>
          rw [(hn cur).2] at hrest
          exact .inr ⟨_, rfl, hrest⟩
    · rw [Threads.moveTo_pc_of_ne _ _ _ hut, hc] at hc'
      obtain rfl := Option.some.inj hc'
      have hnot : holdsQueue (s.pc t) = false := by
        cases ht : holdsQueue (s.pc t) with
        | false => rfl
        | true =>
          have hu := (h.holder u).mp hhold
          rw [(h.holder t).mp ht] at hu
          exact absurd (Option.some.inj hu).symm hut
      refine .inl ⟨rfl, hd.congr hsub (fun p hp => ?_) fun p hp => ?_⟩ <;>
        rw [Threads.moveTo_mem, h.queued_unchanged hr hnot hp]

/-- **The wait queue is a FIFO** without loss and duplication, in every reachable state and
across every step from it. -/
theorem wait_queue_fifo (run : Runs (machine τ) s log) :
    WaitQueue s log ∧ ∀ t c s' es, (machine τ).next (t, c) s = some (s', es) →
      QueueStep s log t s' es := by
  obtain ⟨g, h, hl⟩ := exec_ghost Logged
    ⟨rfl, rfl, fun p => ⟨[], [], rfl, by simp, .none⟩⟩
    (fun _ _ _ _ _ _ _ _ h hl _ he => hl.step h he) run
  refine ⟨h.waitQueue hl, fun t c s' es hr => ?_⟩
  obtain ⟨m', pc', hthread, rfl⟩ := machine_next hr
  obtain ⟨g', h', he⟩ := step_advance h hthread
  exact h.queueStep hl hthread h' he

/-- The queue of one waiter, while the unlocker walks it. -/
theorem wait_queue_fifo_handoff :
    ∃ (s : State Bool) (log : List (Event Bool)), waiting log = [8] ∧
      scanNode (s.pc false) = some 8 ∧ WaitQueue s log := by
  obtain ⟨s, log, run, hend⟩ := exists_runs_of_run (machine Bool) rfl (handoffSchedule.take 25)
    (fun s log => decide (waiting log = [8]) && decide (scanNode (s.pc false) = some 8))
    (by decide +kernel)
  simp only [Bool.and_eq_true, decide_eq_true_eq] at hend
  exact ⟨s, log, hend.1, hend.2, (wait_queue_fifo run).1⟩

end Mekong.Analysis.RawMutex
