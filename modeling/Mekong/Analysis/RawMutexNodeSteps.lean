import Mekong.Analysis.RawMutexSteps

/-!
# Steps of `RawMutex` that touch one node

A node lives through `with_thread_data`, the push, the walks of the unlockers, its
removal and the notification. Each of these steps touches the node and the status of one
address; `NodeStep` lists what has to be said about it, and one lemma for each step says
it.
-/

set_option autoImplicit false

namespace Mekong.Analysis.RawMutex

open Mekong.Computation Mekong.Model Mekong.Program.RawMutex

variable {τ : Type} [DecidableEq τ] {s : State τ} {g : Ghost τ} {t : τ} {pc' : Pc}


/-- A step of `t` to `pc'`, with the memory `m'` and the ghost `g'` after it, that touches
the node and the status of no address but `p`: what there is to say about `p`, about `t`
and about the word. -/
structure NodeStep (s : State τ) (g : Ghost τ) (t : τ) (p : Ptr) (m' : Mem τ) (g' : Ghost τ)
    (pc' : Pc) : Prop where
  same : ∀ q, q ≠ p → m'.node q = s.mem.node q ∧ m'.frame q = s.mem.frame q ∧
    g'.status q = g.status q
  own : ∀ u, u ≠ t → ownNode (s.pc u) ≠ some p
  parked : ∀ u, u ≠ t → s.pc u = .park p → m'.frame p = s.mem.frame p ∧ (g'.status p).Waiting
  waker : ∀ u mode, u ≠ t → wakes (s.pc u) ≠ some (mode, p)
  notPark : ∀ q, q ≠ p → s.pc t ≠ .park q
  notWake : ∀ mode q, q ≠ p → wakes (s.pc t) ≠ some (mode, q)
  locked : isLocked m'.word = g'.owner.isSome
  queueLocked : isQueueLocked m'.word = g'.holder.isSome
  timeout : isTimeout m'.word = true → ∃ u, g'.owner = some u ∧
    marked ((s.moveTo t m' pc').pc u) = true
  head : queueHead m'.word = g'.queue.headD null
  owner : Owns m' g' pc' ↔ g'.owner = some t
  owners : ∀ u, u ≠ t → (Owns m' g' (s.pc u) ↔ g'.owner = some u)
  holder : holdsQueue pc' = true ↔ g'.holder = some t
  holders : ∀ u, u ≠ t → (g.holder = some u ↔ g'.holder = some u)
  nodup : g'.queue.Nodup
  links : g'.queue.IsChain fun x y => (m'.node x).next = y
  settled : g'.holder = none →
    LazyQueue.Settled null (tailOf m'.node) (prevOf m'.node) g'.queue
  queued : ∀ q ∈ g'.queue, g'.status q = .queued
  stays : ∀ q, q ≠ p → q ∈ g.queue → q ∈ g'.queue
  status : StatusInv (s.moveTo t m' pc') g' p
  node : NodeInv m' g' t pc'
  state : StateInv pc'
  walk : WalkInv m'.node g'.queue pc'
  walks : ∀ u, u ≠ t → WalkInv m'.node g'.queue (s.pc u)

/-- A step on one node that can be described so keeps the invariant. -/
theorem Inv.touch {m' : Mem τ} {g' : Ghost τ} {p : Ptr} (h : Inv s g)
    (c : NodeStep s g t p m' g' pc') : Inv (s.moveTo t m' pc') g' where
  locked := c.locked
  queueLocked := c.queueLocked
  timeout := c.timeout
  head := c.head
  owner := Threads.forall_moveTo (fun u pc => Owns m' g' pc ↔ g'.owner = some u) c.owner c.owners
  holder := Threads.forall_moveTo (fun u pc => holdsQueue pc = true ↔ g'.holder = some u) c.holder
    fun u hu => (h.holder u).trans (c.holders u hu)
  nodup := c.nodup
  links := c.links
  settled := c.settled
  queued := c.queued
  status q := by
    by_cases hq : q = p
    · subst hq
      exact c.status
    · obtain ⟨hn, hf, hs⟩ := c.same q hq
      exact (h.status q).stable (by rw [hn]) (by rw [hn]) hf hs (c.stays q hq) (c.notPark q hq)
        fun mode hm => absurd hm (c.notWake mode q hq)
  node := by
    refine Threads.forall_moveTo (fun u pc => NodeInv m' g' u pc) c.node fun u hu => ?_
    refine (h.node u).stable (fun q hq => ?_) (fun q hq => ?_) fun mode q hq => ?_
    · exact c.same q fun e => c.own u hu (e ▸ hq)
    · by_cases hqp : q = p
      · subst hqp
        exact ⟨(c.parked u hu hq).1, fun _ => (c.parked u hu hq).2⟩
      · obtain ⟨-, hf, hs⟩ := c.same q hqp
        exact ⟨hf, by rw [hs]; exact id⟩
    · obtain ⟨hn, -, hs⟩ := c.same q fun e => c.waker u mode hu (e ▸ hq)
      exact ⟨by rw [hn], hs⟩
  state := Threads.forall_moveTo (fun _ pc => StateInv pc) c.state fun u _ => h.state u
  walk := Threads.forall_moveTo (fun _ pc => WalkInv m'.node g'.queue pc) c.walk c.walks

section Touch

omit [DecidableEq τ]

/-- The other threads own the lock as before when the touched node is handed over, or
not, as before. -/
theorem Inv.owners {m' : Mem τ} {g' : Ghost τ} {p : Ptr} (h : Inv s g)
    (hsame : ∀ q, q ≠ p → m'.node q = s.mem.node q ∧ m'.frame q = s.mem.frame q ∧
      g'.status q = g.status q)
    (hown : ∀ u, u ≠ t → ownNode (s.pc u) ≠ some p)
    (hhanded : ∀ u, u ≠ t → s.pc u = .park p → ((g'.status p).Handed ↔ (g.status p).Handed))
    (howner : g'.owner = g.owner) (u : τ) (hu : u ≠ t) :
    Owns m' g' (s.pc u) ↔ g'.owner = some u := by
  rw [howner, ← h.owner u]
  refine Owns.congr (fun q hq => ?_) fun q hq => ?_
  · by_cases hqp : q = p
    · subst hqp
      exact hhanded u hu hq
    · rw [(hsame q hqp).2.2]
  · have hne : q ≠ p := fun e => hown u hu (by rw [hq, e]; rfl)
    rw [(hsame q hne).1]

/-- The owner hands the lock to the thread `v` parked on `p`: of the other threads, only `v`
owns it from now on. -/
theorem Inv.owners_handed {m' : Mem τ} {g' : Ghost τ} {p : Ptr} {v : τ} (h : Inv s g)
    (ht : g.owner = some t) (hnode : m'.node = s.mem.node) (hv : s.pc v = .park p)
    (hhanded : (g'.status p).Handed) (hstatus : ∀ q, q ≠ p → g'.status q = g.status q)
    (howner : g'.owner = some v) (u : τ) (hu : u ≠ t) :
    Owns m' g' (s.pc u) ↔ g'.owner = some u := by
  rw [howner]
  by_cases huv : u = v
  · subst huv
    simpa [hv, Owns] using hhanded
  · have hbefore : ¬ Owns s.mem g (s.pc u) := by
      intro ho
      have hou := (h.owner u).mp ho
      rw [ht] at hou
      exact hu (Option.some.inj hou).symm
    refine iff_of_false (fun ho => hbefore ?_) fun e => huv (Option.some.inj e).symm
    refine (Owns.congr (fun q hq => ?_) fun q _ => by rw [hnode]).mp ho
    have hqp : q ≠ p := by
      rintro rfl
      exact huv (h.parked_unique hq hv)
    rw [hstatus q hqp]

/-- Only queued nodes are in the queue. -/
theorem Inv.notMem_of_status (h : Inv s g) {p : Ptr} (hp : g.status p ≠ .queued) : p ∉ g.queue :=
  fun hm => hp (h.queued p hm)

/-- The links of the queue are those of before when no queued node's `next` changed. -/
theorem Inv.links_congr {m' : Mem τ} (h : Inv s g)
    (hn : ∀ q ∈ g.queue, (m'.node q).next = (s.mem.node q).next) :
    g.queue.IsChain fun x y => (m'.node x).next = y :=
  h.links.imp_of_mem_imp fun x y hx _ hxy => by rw [hn x hx, hxy]

/-- So is the settled queue when no queued node changed. -/
theorem Inv.settled_congr {m' : Mem τ} (h : Inv s g)
    (hn : ∀ q ∈ g.queue, m'.node q = s.mem.node q) (hg : g.holder = none) :
    LazyQueue.Settled null (tailOf m'.node) (prevOf m'.node) g.queue :=
  (h.settled hg).congr (fun q hq => by simp [tailOf, hn q hq]) fun q hq => by
    simp [prevOf, hn q hq]

end Touch

/-- `TIMEOUT_BIT` stays its owner's across a step of a thread that is not marked. -/
theorem Inv.timeout_of_not_marked {m' : Mem τ} (h : Inv s g) (hpc : marked (s.pc t) = false)
    (hw : isTimeout s.mem.word = true) :
    ∃ u, g.owner = some u ∧ marked ((s.moveTo t m' pc').pc u) = true := by
  obtain ⟨u, hu, hm⟩ := h.timeout hw
  have hut : u ≠ t := by
    rintro rfl
    rw [hm] at hpc
    cases hpc
  exact ⟨u, hu, by rwa [Threads.moveTo_pc_of_ne _ _ _ hut]⟩

/-! ### The thread's own node -/

/-- `with_thread_data` begins. -/
theorem Inv.alloc {counter : ℕ} {st : U64} {p : Ptr} {td : ThreadData} (h : Inv s g)
    (hpc : s.pc t = .withThreadData counter st) (hp : IsNodeAddr p) (hf : s.mem.frame p = none)
    (htd : td.parker = false) :
    Inv (s.moveTo t (s.mem.alloc p t td) (.setToken counter st p)) (g.setStatus p .inside) := by
  have hfree := h.status_free hf
  have hnot : p ∉ g.queue := h.notMem_of_status (by rw [hfree]; simp)
  have hsame : ∀ q, q ≠ p → (s.mem.alloc p t td).node q = s.mem.node q ∧
      (s.mem.alloc p t td).frame q = s.mem.frame q ∧ (g.setStatus p .inside).status q = g.status q :=
    fun q hq => ⟨Mem.alloc_node_of_ne _ _ hq, Mem.alloc_frame_of_ne _ _ hq, g.setStatus_of_ne _ hq⟩
  have hne : ∀ q ∈ g.queue, q ≠ p := by
    rintro q hq rfl
    exact hnot hq
  have hnode : ∀ q ∈ g.queue, (s.mem.alloc p t td).node q = s.mem.node q :=
    fun q hq => (hsame q (hne q hq)).1
  have hown : ∀ u, u ≠ t → ownNode (s.pc u) ≠ some p := fun u _ hq =>
    h.own_ne_of_status (by rw [hfree]; simp) hq rfl
  have hparked : ∀ u, s.pc u ≠ .park p := by
    intro u hu
    have hn := h.node u
    rw [hu] at hn
    have hw := hn.2.2
    rw [hfree] at hw
    exact hw
  have howner := h.owner t
  have hholder := h.holder t
  have hstate := h.state t
  rw [hpc] at howner hholder hstate
  exact h.touch {
    same := hsame
    own := hown
    parked := fun u _ hu => absurd hu (hparked u)
    waker := fun u mode _ hq => h.wake_ne (by rw [hfree]; simp) hq rfl
    notPark := by simp [hpc]
    notWake := by simp [hpc, wakes]
    locked := h.locked
    queueLocked := h.queueLocked
    timeout := h.timeout_of_not_marked (by rw [hpc]; rfl)
    head := h.head
    owner := howner
    owners := h.owners hsame hown (fun u _ hu => absurd hu (hparked u)) rfl
    holder := hholder
    holders := fun _ _ => Iff.rfl
    nodup := h.nodup
    links := h.links_congr fun q hq => by rw [hnode q hq]
    settled := h.settled_congr hnode
    queued := fun q hq => (g.setStatus_of_ne _ (hne q hq)).trans (h.queued q hq)
    stays := fun _ _ => id
    status := by simp [StatusInv]
    node := ⟨by simp, hp, by simp, by simpa using htd⟩
    state := hstate
    walk := trivial
    walks := fun u _ => (h.walk u).congr hnode }

/-- A write into the thread's own node before the push. -/
theorem Inv.writeOwn {p : Ptr} {f : ThreadData → ThreadData} (h : Inv s g)
    (hpc : ownNode (s.pc t) = some p) (hpark : ∀ q, s.pc t ≠ .park q)
    (hwake : wakes (s.pc t) = none) (hhold : holdsQueue (s.pc t) = false)
    (hhold' : holdsQueue pc' = false) (hmark : marked (s.pc t) = false)
    (howns : ¬ Owns s.mem g (s.pc t)) (howns' : ∀ m g', ¬ Owns (τ := τ) m g' pc')
    (hnode : NodeInv (s.mem.modify p f) g t pc') (hstate : StateInv pc')
    (hwalk : ∀ node q, WalkInv node q pc') : Inv (s.moveTo t (s.mem.modify p f) pc') g := by
  have hin := (h.node t).inside hpc
  have hnot : p ∉ g.queue := h.notMem_of_status (by rw [hin.status]; simp)
  have hsame : ∀ q, q ≠ p → (s.mem.modify p f).node q = s.mem.node q ∧
      (s.mem.modify p f).frame q = s.mem.frame q ∧ g.status q = g.status q :=
    fun q hq => ⟨Mem.modify_node_of_ne _ hq, rfl, rfl⟩
  have hn : ∀ q ∈ g.queue, (s.mem.modify p f).node q = s.mem.node q := by
    rintro q hq
    exact (hsame q (by rintro rfl; exact hnot hq)).1
  have hown : ∀ u, u ≠ t → ownNode (s.pc u) ≠ some p := fun u hu hq =>
    h.own_ne hu hin.frame hq rfl
  exact h.touch {
    same := hsame
    own := hown
    parked := fun u _ hu => absurd rfl (h.park_ne hin.status hu)
    waker := fun u mode _ hq => h.wake_ne (by rw [hin.status]; simp) hq rfl
    notPark := fun q _ => hpark q
    notWake := by simp [hwake]
    locked := h.locked
    queueLocked := h.queueLocked
    timeout := h.timeout_of_not_marked hmark
    head := h.head
    owner := iff_of_false (howns' _ _) fun e => howns ((h.owner t).mpr e)
    owners := h.owners hsame hown (fun _ _ _ => Iff.rfl) rfl
    holder := by rw [hhold', ← hhold]; exact h.holder t
    holders := fun _ _ => Iff.rfl
    nodup := h.nodup
    links := h.links_congr fun q hq => by rw [hn q hq]
    settled := h.settled_congr hn
    queued := h.queued
    stays := fun _ _ => id
    status := by
      have hp := h.status p
      simp only [StatusInv, hin.status] at hp ⊢
      exact hp
    node := hnode
    state := hstate
    walk := hwalk _ _
    walks := fun u _ => (h.walk u).congr hn }

/-- `with_thread_data` returns, and the thread's place no longer names the node. -/
theorem Inv.leave {p : Ptr} (h : Inv s g) (hpc : ownNode (s.pc t) = some p)
    (hpark : ∀ q, s.pc t ≠ .park q) (hwake : wakes (s.pc t) = none)
    (hhold : holdsQueue (s.pc t) = false) (hhold' : holdsQueue pc' = false)
    (hmark : marked (s.pc t) = false)
    (howns : ∀ g', Owns (s.mem.free p) g' pc' ↔ Owns s.mem g (s.pc t))
    (hnode : ∀ m g', NodeInv (τ := τ) m g' t pc') (hstate : StateInv pc')
    (hwalk : ∀ node q, WalkInv node q pc') :
    Inv (s.moveTo t (s.mem.free p) pc') (g.setStatus p .free) := by
  have hin := (h.node t).inside hpc
  have hnot : p ∉ g.queue := h.notMem_of_status (by rw [hin.status]; simp)
  have hsame : ∀ q, q ≠ p → (s.mem.free p).node q = s.mem.node q ∧
      (s.mem.free p).frame q = s.mem.frame q ∧ (g.setStatus p .free).status q = g.status q :=
    fun q hq => ⟨rfl, Mem.free_frame_of_ne hq, g.setStatus_of_ne _ hq⟩
  have hown : ∀ u, u ≠ t → ownNode (s.pc u) ≠ some p := fun u hu hq =>
    h.own_ne hu hin.frame hq rfl
  exact h.touch {
    same := hsame
    own := hown
    parked := fun u _ hu => absurd rfl (h.park_ne hin.status hu)
    waker := fun u mode _ hq => h.wake_ne (by rw [hin.status]; simp) hq rfl
    notPark := fun q _ => hpark q
    notWake := by simp [hwake]
    locked := h.locked
    queueLocked := h.queueLocked
    timeout := h.timeout_of_not_marked hmark
    head := h.head
    owner := (howns _).trans (h.owner t)
    owners := h.owners hsame hown (fun u _ hu => absurd rfl (h.park_ne hin.status hu)) rfl
    holder := by rw [hhold', ← hhold]; exact h.holder t
    holders := fun _ _ => Iff.rfl
    nodup := h.nodup
    links := h.links
    settled := h.settled
    queued := fun q hq => (g.setStatus_of_ne _ (by rintro rfl; exact hnot hq)).trans (h.queued q hq)
    stays := fun _ _ => id
    status := by simp [StatusInv]
    node := hnode _ _
    state := hstate
    walk := hwalk _ _
    walks := fun u _ => h.walk u }

/-! ### The push and the return from `park` -/

omit [DecidableEq τ] in
/-- A walk goes on below a node that was pushed behind its back. -/
theorem WalkInv.push {node : Ptr → ThreadData} {q : List Ptr} {pc : Pc} {p : Ptr}
    (h : WalkInv node q pc) (ht : q ≠ [] → tailOf node p = null) (hp : prevOf node p = null) :
    WalkInv node (p :: q) pc := by
  have hne : ∀ {x : Ptr}, x ∈ q → q ≠ [] := fun hx => List.ne_nil_of_mem hx
  cases pc with
  | fairLoad c => simp [WalkInv]
  | fairLock c st => simp [WalkInv]
  | fairRelease => exact h
  | scanTail mode st c => exact LazyQueue.Scanning.push h (ht (hne h.mem)) hp
  | scanNext mode st c => exact ⟨LazyQueue.Scanning.push h.1 (ht (hne h.1.mem)) hp, h.2⟩
  | scanPrev mode st c n => exact ⟨LazyQueue.Scanning.push h.1 (ht (hne h.1.mem)) hp, h.2⟩
  | markHead mode st x => exact LazyQueue.Scanned.push h (ht (hne h.mem.1)) hp
  | giveUp st => exact ⟨by simp, h.2.push h.1 (ht h.1) hp⟩
  | readPrev mode st x => exact LazyQueue.Linked.push h (ht (hne h.1.mem.1)) hp
  | removeLast mode st x => exact ⟨LazyQueue.Linked.push h.1 (ht (hne h.1.1.mem.1)) hp, h.2⟩
  | setNewTail mode st x n => exact ⟨LazyQueue.Linked.push h.1 (ht (hne h.1.1.mem.1)) hp, h.2⟩
  | unlockQueue mode x =>
    obtain ⟨q', rfl, hq', hs⟩ := h
    exact ⟨p :: q', rfl, by simp, hs.push hq' (ht (by simp)) hp⟩
  | _ => trivial

/-- The compare-exchange of `park!` succeeds. -/
theorem Inv.push {counter : ℕ} {p : Ptr} (h : Inv s g)
    (hpc : s.pc t = .push counter s.mem.word p) :
    Inv (s.moveTo t (s.mem.store (setQueueHead s.mem.word p)) (.park p))
      ({ g with queue := p :: g.queue }.setStatus p .queued) := by
  have hn := h.node t
  rw [hpc] at hn
  obtain ⟨hin, htoken, htail, hprev, hnext⟩ := hn
  have hnot : p ∉ g.queue := h.notMem_of_status (by rw [hin.status]; simp)
  obtain ⟨hh, hl, hq, ht⟩ := setQueueHead_projections s.mem.word hin.addr.aligned
  have hsame : ∀ q, q ≠ p → s.mem.node q = s.mem.node q ∧ s.mem.frame q = s.mem.frame q ∧
      ({ g with queue := p :: g.queue }.setStatus p .queued).status q = g.status q :=
    fun q hq => ⟨rfl, rfl, Ghost.setStatus_of_ne _ _ hq⟩
  have hown : ∀ u, u ≠ t → ownNode (s.pc u) ≠ some p := fun u hu hq =>
    h.own_ne hu hin.frame hq rfl
  have htail' : g.queue ≠ [] → tailOf s.mem.node p = null := fun hne => by
    rw [tailOf, htail, if_neg fun e => hne (h.head_null_iff.mp e)]
  have howner := h.owner t
  have hholder := h.holder t
  rw [hpc] at howner hholder
  exact h.touch {
    same := hsame
    own := hown
    parked := fun u _ hu => absurd rfl (h.park_ne hin.status hu)
    waker := fun u mode _ hq => h.wake_ne (by rw [hin.status]; simp) hq rfl
    notPark := by simp [hpc]
    notWake := by simp [hpc, wakes]
    locked := hl.trans h.locked
    queueLocked := hq.trans h.queueLocked
    timeout := fun hw => h.timeout_of_not_marked (by rw [hpc]; rfl) (ht ▸ hw)
    head := hh
    owner := by simpa [Owns, Status.Handed, ownsLock, inSlowFair] using howner
    owners := h.owners hsame hown (fun u _ hu => absurd rfl (h.park_ne hin.status hu)) rfl
    holder := by simpa [holdsQueue] using hholder
    holders := fun _ _ => Iff.rfl
    nodup := List.nodup_cons.mpr ⟨hnot, h.nodup⟩
    links := by
      refine List.isChain_cons.mpr ⟨fun y hy => ?_, h.links⟩
      have hy' : queueHead s.mem.word = y := by
        rw [h.head]
        cases hg : g.queue with
        | nil => rw [hg] at hy; cases hy
        | cons x l => rw [hg] at hy; exact Option.some.inj hy
      have hne : queueHead s.mem.word ≠ null := by
        rw [ne_eq, h.head_null_iff]
        rintro e
        rw [e] at hy
        cases hy
      exact (hnext hne).trans hy'
    settled := fun hg => by
      by_cases hq : g.queue = []
      · rw [Ghost.setStatus_queue, hq]
        exact .push_nil (by rw [tailOf]; exact htail.trans (if_pos (h.head_null_iff.mpr hq))) hprev
      · exact (h.settled hg).push hq (htail' hq) hprev
    queued := fun q hq => by
      by_cases hqp : q = p
      · rw [hqp, Ghost.setStatus_self]
      · rw [Ghost.setStatus_of_ne _ _ hqp]
        exact h.queued q ((List.mem_cons.mp hq).resolve_left hqp)
    stays := fun q _ hq => List.mem_cons_of_mem p hq
    status := by
      simp only [StatusInv, Ghost.setStatus_self]
      exact ⟨by simp, hin.parker, htoken, t, Threads.moveTo_pc_self ..⟩
    node := ⟨hin.frame, hin.addr, by simp [Status.Waiting]⟩
    state := trivial
    walk := trivial
    walks := fun u _ => (h.walk u).push htail' hprev }

/-- `park` returns by consuming a notification. -/
theorem Inv.wakeUp {p : Ptr} (h : Inv s g) (hpc : s.pc t = .park p)
    (hparker : (s.mem.node p).parker = true) :
    Inv (s.moveTo t (s.mem.modify p ({ · with parker := false })) (.readToken p))
      (g.setStatus p .inside) := by
  have hn := h.node t
  rw [hpc] at hn
  obtain ⟨hframe, haddr, hwait⟩ := hn
  obtain ⟨mode, hwoken⟩ := h.woken_of_parker hpc hparker
  have htoken : (s.mem.node p).unparkToken = token mode := by
    have hs := h.status p
    simp only [StatusInv, hwoken] at hs
    exact hs.2.1
  have hnot : p ∉ g.queue := h.notMem_of_status (by rw [hwoken]; simp)
  have hsame : ∀ q, q ≠ p →
      (s.mem.modify p ({ · with parker := false })).node q = s.mem.node q ∧
      (s.mem.modify p ({ · with parker := false })).frame q = s.mem.frame q ∧
      (g.setStatus p .inside).status q = g.status q :=
    fun q hq => ⟨Mem.modify_node_of_ne _ hq, rfl, g.setStatus_of_ne _ hq⟩
  have hnode : ∀ q ∈ g.queue, (s.mem.modify p ({ · with parker := false })).node q = s.mem.node q := by
    intro q hq
    exact (hsame q (by rintro rfl; exact hnot hq)).1
  have hown : ∀ u, u ≠ t → ownNode (s.pc u) ≠ some p := fun u _ hq =>
    h.own_ne_of_status (by rw [hwoken]; simp) hq rfl
  have hparked : ∀ u, u ≠ t → s.pc u ≠ .park p := by
    intro u hu hp
    exact hu (h.parked_unique hp hpc)
  have howner := h.owner t
  have hholder := h.holder t
  rw [hpc] at howner hholder
  exact h.touch {
    same := hsame
    own := hown
    parked := fun u hu hp => absurd hp (hparked u hu)
    waker := fun u mode _ hq => h.wake_ne (by rw [hwoken]; simp) hq rfl
    notPark := fun q hq e => hq (Pc.park.inj (hpc.symm.trans e)).symm
    notWake := by simp [hpc, wakes]
    locked := h.locked
    queueLocked := h.queueLocked
    timeout := h.timeout_of_not_marked (by rw [hpc]; rfl)
    head := h.head
    owner := by
      -- the token says what the removal was: a handed node's token is `TOKEN_HANDOFF`
      simp only [Owns, hwoken, Status.Handed] at howner
      simp only [Owns, Mem.modify_node_self, htoken, Ghost.setStatus_owner, ← howner]
      cases mode <;> simp [token, tokenHandoff, timeoutBit]
    owners := h.owners hsame hown (fun u hu hp => absurd hp (hparked u hu)) rfl
    holder := hholder
    holders := fun _ _ => Iff.rfl
    nodup := h.nodup
    links := h.links_congr fun q hq => by rw [hnode q hq]
    settled := h.settled_congr hnode
    queued := fun q hq => (g.setStatus_of_ne _ (by rintro rfl; exact hnot hq)).trans (h.queued q hq)
    stays := fun _ _ => id
    status := by simp [StatusInv, hframe]
    node := ⟨hframe, haddr, by simp, by simp⟩
    state := trivial
    walk := trivial
    walks := fun u _ => (h.walk u).congr hnode }

/-! ### The holder of the queue lock -/

omit [DecidableEq τ] in
/-- A thread with the queue lock is not parked and has nobody to wake. -/
theorem holdsQueue_running {pc : Pc} (h : holdsQueue pc = true) :
    (∀ p, pc ≠ .park p) ∧ wakes pc = none ∧ ownNode pc = none := by
  cases pc <;> simp_all [holdsQueue, wakes, ownNode]

omit [DecidableEq τ] in
/-- A thread with the queue lock owns the lock if it is in `unlock_slow_fair`. -/
theorem owns_of_holdsQueue {m : Mem τ} {pc : Pc} (h : holdsQueue pc = true) :
    Owns m g pc ↔ inSlowFair pc = true := by
  cases pc <;> first | exact Iff.rfl | cases h

/-- With the queue lock, the mark is set in `unlock_slow_fair` and nowhere else. -/
theorem marked_of_holdsQueue {pc : Pc} (h : holdsQueue pc = true) :
    marked pc = inSlowFair pc := by
  cases pc <;> first | rfl | cases h

omit [DecidableEq τ] in
/-- No other thread has the queue lock. -/
theorem Inv.walks_of_holder {node : Ptr → ThreadData} {q : List Ptr} (h : Inv s g)
    (hhold : holdsQueue (s.pc t) = true)
    (hq : ∀ u, u ≠ t → inSlowFair (s.pc u) = true → g.queue ≠ [] → q ≠ []) (u : τ) (hu : u ≠ t) :
    WalkInv node q (s.pc u) := by
  refine (h.walk u).of_not_holder ?_ (hq u hu)
  cases hpu : holdsQueue (s.pc u) with
  | false => rfl
  | true =>
    have hut := (h.holder u).mp hpu
    rw [(h.holder t).mp hhold] at hut
    exact absurd (Option.some.inj hut).symm hu

/-- `TIMEOUT_BIT` stays its owner's across a step that keeps a marked thread marked. -/
theorem Inv.timeout_of_marked {m' : Mem τ} (h : Inv s g)
    (hmark : marked (s.pc t) = true → marked pc' = true) (hw : isTimeout s.mem.word = true) :
    ∃ u, g.owner = some u ∧ marked ((s.moveTo t m' pc').pc u) = true := by
  obtain ⟨u, hu, hm⟩ := h.timeout hw
  refine ⟨u, hu, ?_⟩
  by_cases hut : u = t
  · subst hut
    simpa using hmark hm
  · rwa [Threads.moveTo_pc_of_ne _ _ _ hut]

/-- The holder of the queue lock writes a link of a queued node. -/
theorem Inv.writeQueued {p : Ptr} {f : ThreadData → ThreadData} (h : Inv s g)
    (hhold : holdsQueue (s.pc t) = true) (hhold' : holdsQueue pc' = true) (hp : p ∈ g.queue)
    (hf : ∀ td, (f td).parker = td.parker ∧ (f td).unparkToken = td.unparkToken ∧
      (f td).next = td.next)
    (hmark : marked (s.pc t) = true → marked pc' = true)
    (hown : Owns (s.mem.modify p f) g pc' ↔ Owns s.mem g (s.pc t))
    (hnode : NodeInv (s.mem.modify p f) g t pc') (hstate : StateInv pc')
    (hwalk : WalkInv (s.mem.modify p f).node g.queue pc') :
    Inv (s.moveTo t (s.mem.modify p f) pc') g := by
  obtain ⟨hpark, hwake, -⟩ := holdsQueue_running hhold
  have hqueued := h.queued p hp
  obtain ⟨hfp, hft, hfn⟩ := hf (s.mem.node p)
  have hsame : ∀ q, q ≠ p → (s.mem.modify p f).node q = s.mem.node q ∧
      (s.mem.modify p f).frame q = s.mem.frame q ∧ g.status q = g.status q :=
    fun q hq => ⟨Mem.modify_node_of_ne _ hq, rfl, rfl⟩
  have hownp : ∀ u, u ≠ t → ownNode (s.pc u) ≠ some p := fun u _ hq =>
    h.own_ne_of_status (by rw [hqueued]; simp) hq rfl
  have hholder := (h.holder t).mp hhold
  exact h.touch {
    same := hsame
    own := hownp
    parked := fun u _ _ => ⟨rfl, by simp [hqueued, Status.Waiting]⟩
    waker := fun u mode _ hq => h.wake_ne (by rw [hqueued]; simp) hq rfl
    notPark := fun q _ => hpark q
    notWake := by simp [hwake]
    locked := h.locked
    queueLocked := h.queueLocked
    timeout := h.timeout_of_marked hmark
    head := h.head
    owner := hown.trans (h.owner t)
    owners := h.owners hsame hownp (fun _ _ _ => Iff.rfl) rfl
    holder := by simp [hhold', hholder]
    holders := fun _ _ => Iff.rfl
    nodup := h.nodup
    links := h.links_congr fun q hq => by
      by_cases hqp : q = p
      · rw [hqp, Mem.modify_node_self, hfn]
      · rw [Mem.modify_node_of_ne _ hqp]
    settled := fun hg => by rw [hholder] at hg; cases hg
    queued := h.queued
    stays := fun _ _ => id
    status := by
      have hs := h.status p
      simp only [StatusInv, hqueued, Threads.moveTo_mem, Mem.modify_node_self, hfp, hft] at hs ⊢
      obtain ⟨hm, hpk, htok, u, hu⟩ := hs
      have hut : u ≠ t := by
        rintro rfl
        exact hpark p hu
      exact ⟨hm, hpk, htok, u, by rw [Threads.moveTo_pc_of_ne _ _ _ hut, hu]⟩
    node := hnode
    state := hstate
    walk := hwalk
    walks := h.walks_of_holder hhold fun _ _ _ => id }

/-- The removal of the last node, with which the queue lock is given back. A fair unlock
hands the lock to the node's thread. -/
theorem Inv.remove {mode : Mode} {p : Ptr} {q' : List Ptr} {w : U64} {o : Option τ} (h : Inv s g)
    (hhold : holdsQueue (s.pc t) = true) (hpc' : pc' = wake mode p) (hq : g.queue = q' ++ [p])
    (hsettled : LazyQueue.Settled null (tailOf s.mem.node) (prevOf s.mem.node) q')
    (hlast : q' = [] → ∀ u, u ≠ t → inSlowFair (s.pc u) = false)
    (howner : (inSlowFair (s.pc t) = true ∧ mode = .fair ∧ ∃ u, s.pc u = .park p ∧ o = some u) ∨
      (inSlowFair (s.pc t) = false ∧ mode = .plain ∧ o = g.owner))
    (hl : isLocked w = isLocked s.mem.word) (hql : isQueueLocked w = false)
    (ht : isTimeout w = true → mode = .plain ∧ isTimeout s.mem.word = true)
    (hh : queueHead w = q'.headD null) :
    Inv (s.moveTo t (s.mem.store w) pc')
      ({ g with owner := o, holder := none, queue := q' }.setStatus p (.removed t mode)) := by
  obtain ⟨hpark, hwake, -⟩ := holdsQueue_running hhold
  have hp : p ∈ g.queue := by simp [hq]
  have hqueued := h.queued p hp
  have hnot : p ∉ q' := fun hm => by
    have hnd := h.nodup
    rw [hq] at hnd
    exact (List.nodup_append.mp hnd).2.2 p hm p (by simp) rfl
  have hsame : ∀ q, q ≠ p → s.mem.node q = s.mem.node q ∧ s.mem.frame q = s.mem.frame q ∧
      ({ g with owner := o, holder := none, queue := q' }.setStatus p (.removed t mode)).status q =
        g.status q :=
    fun q hq => ⟨rfl, rfl, Ghost.setStatus_of_ne _ _ hq⟩
  have hownp : ∀ u, u ≠ t → ownNode (s.pc u) ≠ some p := fun u _ hq =>
    h.own_ne_of_status (by rw [hqueued]; simp) hq rfl
  have hholder := (h.holder t).mp hhold
  have howns := owns_of_holdsQueue (m := s.mem) (g := g) hhold
  have hplace : holdsQueue pc' = false ∧ wakes pc' = some (mode, p) := by
    subst hpc'
    cases mode <;> exact ⟨rfl, rfl⟩
  have hnotOwns : ∀ m' g', ¬ Owns (τ := τ) m' g' pc' := by
    subst hpc'
    cases mode <;> simp [wake, Owns, ownsLock, inSlowFair]
  obtain ⟨v, hv, -⟩ := h.parked hp
  have hvt : v ≠ t := by
    rintro rfl
    exact hpark p hv
  exact h.touch {
    same := hsame
    own := hownp
    parked := fun u _ _ => ⟨rfl, by simp [Status.Waiting]⟩
    waker := fun u m _ hq => h.wake_ne (by rw [hqueued]; simp) hq rfl
    notPark := fun q _ => hpark q
    notWake := by simp [hwake]
    locked := by
      rcases howner with ⟨hsf, -, u, -, rfl⟩ | ⟨-, -, rfl⟩
      · rw [Mem.store_word, hl, h.locked, (h.owner t).mp (howns.mpr hsf)]
        rfl
      · exact hl.trans h.locked
    queueLocked := hql
    timeout := fun hw => by
      obtain ⟨hmode, hw'⟩ := ht hw
      rcases howner with ⟨-, hf, -⟩ | ⟨hsf, -, rfl⟩
      · rw [hmode] at hf
        cases hf
      · refine h.timeout_of_not_marked ?_ hw'
        rwa [marked_of_holdsQueue hhold]
    head := hh
    owner := by
      refine iff_of_false (hnotOwns _ _) fun e => ?_
      rcases howner with ⟨-, -, u, hu, rfl⟩ | ⟨hsf, -, rfl⟩
      · obtain rfl : u = t := Option.some.inj e
        exact hpark p hu
      · rw [howns.mp ((h.owner t).mpr e)] at hsf
        cases hsf
    owners := by
      rcases howner with ⟨hsf, rfl, u, hu, rfl⟩ | ⟨-, rfl, rfl⟩
      · exact h.owners_handed ((h.owner t).mp (howns.mpr hsf)) rfl hu
          (by rw [Ghost.setStatus_self, Status.Handed]) (fun q hq => (hsame q hq).2.2) rfl
      · exact h.owners hsame hownp (fun _ _ _ => by simp [hqueued, Status.Handed]) rfl
    holder := by simp [hplace.1, Ghost.setStatus]
    holders := fun u hu => by
      rw [hholder]
      simp [Ghost.setStatus, hu.symm]
    nodup := by
      have hnd := h.nodup
      rw [hq] at hnd
      exact hnd.of_append_left
    links := by
      have hli := h.links
      rw [hq] at hli
      exact hli.left_of_append
    settled := fun _ => hsettled
    queued := fun q hq' => by
      rw [Ghost.setStatus_of_ne _ _ (by rintro rfl; exact hnot hq')]
      exact h.queued q (by rw [hq]; exact List.mem_append_left _ hq')
    stays := fun q hqp hm => by
      rw [hq] at hm
      exact (List.mem_append.mp hm).resolve_right fun e => hqp (List.mem_singleton.mp e)
    status := by
      have hs := h.status p
      simp only [StatusInv, hqueued] at hs
      simp only [StatusInv, Ghost.setStatus_self]
      exact ⟨hs.2.1, by rw [Threads.moveTo_pc_self]; exact hplace.2, v, by
        rw [Threads.moveTo_pc_of_ne _ _ _ hvt, hv]⟩
    node := by
      have hs := h.status p
      simp only [StatusInv, hqueued] at hs
      subst hpc'
      cases mode with
      | plain => exact ⟨by simp, hs.2.2.1⟩
      | fair => simp [wake, NodeInv]
    state := by
      subst hpc'
      cases mode <;> trivial
    walk := by
      subst hpc'
      cases mode <;> trivial
    walks := h.walks_of_holder hhold fun u hu hsf _ hnil => by
      rw [hlast hnil u hu] at hsf
      cases hsf }

/-! ### Waking the removed thread -/

omit [DecidableEq τ] in
/-- A thread that has a node to wake holds neither lock. -/
theorem wakes_running {m : Mem τ} {pc : Pc} {mode : Mode} {p : Ptr}
    (h : wakes pc = some (mode, p)) :
    (∀ q, pc ≠ .park q) ∧ holdsQueue pc = false ∧ marked pc = false ∧ ¬ Owns m g pc := by
  cases pc <;> first
    | exact ⟨by simp, rfl, rfl, Bool.false_ne_true⟩
    | cases h

/-- A step of the thread that has removed `p` on the node at `p`. -/
theorem Inv.writeRemoved {mode : Mode} {p : Ptr} {f : ThreadData → ThreadData} {x : Status τ}
    (h : Inv s g) (hwake : wakes (s.pc t) = some (mode, p)) (hx : x.Waiting)
    (hxm : x.Handed ↔ mode = .fair) (hhold' : holdsQueue pc' = false)
    (hown' : ∀ m' g', ¬ Owns (τ := τ) m' g' pc')
    (hstatus : StatusInv (s.moveTo t (s.mem.modify p f) pc') (g.setStatus p x) p)
    (hnode : NodeInv (s.mem.modify p f) (g.setStatus p x) t pc') (hstate : StateInv pc')
    (hwalk : ∀ node q, WalkInv node q pc') :
    Inv (s.moveTo t (s.mem.modify p f) pc') (g.setStatus p x) := by
  have hremoved := (h.node t).removed hwake
  have hnot : p ∉ g.queue := h.notMem_of_status (by rw [hremoved]; simp)
  have hsame : ∀ q, q ≠ p → (s.mem.modify p f).node q = s.mem.node q ∧
      (s.mem.modify p f).frame q = s.mem.frame q ∧ (g.setStatus p x).status q = g.status q :=
    fun q hq => ⟨Mem.modify_node_of_ne _ hq, rfl, g.setStatus_of_ne _ hq⟩
  have hn : ∀ q ∈ g.queue, (s.mem.modify p f).node q = s.mem.node q := by
    intro q hq
    exact (hsame q (by rintro rfl; exact hnot hq)).1
  have hown : ∀ u, u ≠ t → ownNode (s.pc u) ≠ some p := fun u _ hq =>
    h.own_ne_of_status (by rw [hremoved]; simp) hq rfl
  obtain ⟨hpark, hhold, hmark, howns⟩ := wakes_running (m := s.mem) (g := g) hwake
  exact h.touch {
    same := hsame
    own := hown
    parked := fun u _ _ => ⟨rfl, by simpa using hx⟩
    waker := fun u m hu hq => by
      have hr := (h.node u).removed hq
      rw [hremoved] at hr
      injection hr with hr
      exact hu hr.symm
    notPark := fun q _ => hpark q
    notWake := fun m q hq e => by
      rw [hwake] at e
      exact hq (Prod.mk.inj (Option.some.inj e)).2.symm
    locked := h.locked
    queueLocked := h.queueLocked
    timeout := h.timeout_of_not_marked hmark
    head := h.head
    owner := iff_of_false (hown' _ _) fun e => howns ((h.owner t).mpr e)
    owners := h.owners hsame hown
      (fun _ _ _ => by rw [Ghost.setStatus_self, hxm, hremoved, Status.Handed]) rfl
    holder := by
      rw [hhold', ← hhold]
      exact h.holder t
    holders := fun _ _ => Iff.rfl
    nodup := h.nodup
    links := h.links_congr fun q hq => by rw [hn q hq]
    settled := h.settled_congr hn
    queued := fun q hq => (g.setStatus_of_ne _ (by rintro rfl; exact hnot hq)).trans (h.queued q hq)
    stays := fun _ _ => id
    status := hstatus
    node := hnode
    state := hstate
    walk := hwalk _ _
    walks := fun u _ => (h.walk u).congr hn }

omit [DecidableEq τ] in
/-- The thread of a removed node is parked and not the remover, and has no notification. -/
theorem Inv.removed_parked {mode : Mode} {p : Ptr} (h : Inv s g)
    (hwake : wakes (s.pc t) = some (mode, p)) :
    (s.mem.node p).parker = false ∧ ∃ u, u ≠ t ∧ s.pc u = .park p := by
  have hs := h.status p
  simp only [StatusInv, (h.node t).removed hwake] at hs
  obtain ⟨hpk, -, u, hu⟩ := hs
  refine ⟨hpk, u, ?_, hu⟩
  rintro rfl
  rw [hu] at hwake
  cases hwake

/-- `unlock_slow_fair` stores `TOKEN_HANDOFF` in the removed node. -/
theorem Inv.setHandoff {p : Ptr} (h : Inv s g) (hpc : s.pc t = .setHandoff p) :
    Inv (s.moveTo t (s.mem.modify p ({ · with unparkToken := tokenHandoff })) (.unpark .fair p))
      (g.setStatus p (.removed t .fair)) := by
  have hwake : wakes (s.pc t) = some (.fair, p) := by rw [hpc]; rfl
  obtain ⟨hpk, u, hut, hu⟩ := h.removed_parked hwake
  refine h.writeRemoved hwake trivial Iff.rfl rfl
    (by simp [Owns, ownsLock, inSlowFair]) ?_ ?_ trivial fun _ _ => trivial
  · simp only [StatusInv, Ghost.setStatus_self, Threads.moveTo_mem, Mem.modify_node_self]
    refine ⟨hpk, ?_, u, ?_⟩
    · rw [Threads.moveTo_pc_self]
      rfl
    · rw [Threads.moveTo_pc_of_ne _ _ _ hut, hu]
  · exact ⟨by simp, by simp [token]⟩

/-- `parker.unpark()` on the removed node. -/
theorem Inv.unpark {mode : Mode} {p : Ptr} (h : Inv s g) (hpc : s.pc t = .unpark mode p) :
    Inv (s.moveTo t (s.mem.modify p ({ · with parker := true })) .outside)
      (g.setStatus p (.woken mode)) := by
  have hwake : wakes (s.pc t) = some (mode, p) := by rw [hpc]; rfl
  obtain ⟨-, u, hut, hu⟩ := h.removed_parked hwake
  have htoken : (s.mem.node p).unparkToken = token mode := by
    have hn := h.node t
    rw [hpc] at hn
    exact hn.2
  refine h.writeRemoved hwake trivial Iff.rfl rfl
    (by simp [Owns, ownsLock, inSlowFair]) ?_ trivial trivial fun _ _ => trivial
  simp only [StatusInv, Ghost.setStatus_self, Threads.moveTo_mem, Mem.modify_node_self]
  exact ⟨trivial, htoken, u, by rw [Threads.moveTo_pc_of_ne _ _ _ hut, hu]⟩

end Mekong.Analysis.RawMutex
