import Mekong.Analysis.RawMutexInvariant

/-!
# What the steps of `RawMutex` do to the invariant

The places of the code are many, the effects of a step on the shared state are few: a
thread moves on silently, takes or clears a bit of the word, writes into its own node,
pushes it, returns from `with_thread_data`, walks the queue, removes a node, wakes its
thread. One lemma for each effect says which ghost describes the state after it; what is
left to check at a place is what the code knows there.
-/

set_option autoImplicit false

namespace Mekong.Analysis.RawMutex

open Mekong.Computation Mekong.Model Mekong.Program.RawMutex

variable {τ : Type} [DecidableEq τ] {s : State τ} {g : Ghost τ} {t : τ} {pc' : Pc}

/-! ## The parts no step of another thread touches -/

/-- The node that is a running thread's own at a place. -/
def ownNode : Pc → Option Ptr
  | .setToken _ _ p | .setTail _ _ p | .setPrev _ _ p | .setNext _ _ p | .push _ _ p
  | .readToken p => some p
  | _ => none

omit [DecidableEq τ] in
/-- A thread with a node is inside its call. -/
theorem NodeInv.inside {m : Mem τ} {u : τ} {pc : Pc} {p : Ptr} (h : NodeInv m g u pc)
    (hp : ownNode pc = some p) : Inside m g u p := by
  cases pc <;> simp only [ownNode, Option.some.injEq, reduceCtorEq] at hp <;> subst hp <;>
    simp only [NodeInv] at h
  · exact h
  · exact h.1
  · exact h.1
  · exact h.1
  · exact h.1
  · exact h

omit [DecidableEq τ] in
/-- The node that a thread is about to wake has been removed by that thread. -/
theorem NodeInv.removed {m : Mem τ} {u : τ} {pc : Pc} {mode : Mode} {p : Ptr}
    (h : NodeInv m g u pc) (hp : wakes pc = some (mode, p)) : g.status p = .removed u mode := by
  cases pc <;> simp only [wakes, Option.some.injEq, Prod.mk.injEq, reduceCtorEq] at hp <;>
    obtain ⟨rfl, rfl⟩ := hp <;> simp only [NodeInv] at h
  · exact h
  · exact h.1

omit [DecidableEq τ] in
/-- A thread's own part survives a change of nodes that are neither its own nor the one
it has to wake; its parked node may move on in its life. -/
theorem NodeInv.stable {m m' : Mem τ} {g' : Ghost τ} {u : τ} {pc : Pc} (h : NodeInv m g u pc)
    (hown : ∀ q, ownNode pc = some q → m'.node q = m.node q ∧ m'.frame q = m.frame q ∧
      g'.status q = g.status q)
    (hpark : ∀ q, pc = .park q → m'.frame q = m.frame q ∧
      ((g.status q).Waiting → (g'.status q).Waiting))
    (hwake : ∀ mode q, wakes pc = some (mode, q) →
      (m'.node q).unparkToken = (m.node q).unparkToken ∧ g'.status q = g.status q) :
    NodeInv m' g' u pc := by
  have inside : ∀ q, ownNode pc = some q → Inside m g u q → Inside m' g' u q := by
    intro q hq hi
    obtain ⟨hn, hf, hs⟩ := hown q hq
    exact ⟨by rw [hf, hi.frame], hi.addr, by rw [hs, hi.status], by rw [hn, hi.parker]⟩
  cases pc with
  | setToken c st p => exact inside p rfl h
  | setTail c st p =>
    refine ⟨inside p rfl h.1, ?_⟩
    rw [(hown p rfl).1]
    exact h.2
  | setPrev c st p =>
    refine ⟨inside p rfl h.1, ?_⟩
    rw [(hown p rfl).1]
    exact h.2
  | setNext c st p =>
    refine ⟨inside p rfl h.1, ?_⟩
    rw [(hown p rfl).1]
    exact h.2
  | push c st p =>
    refine ⟨inside p rfl h.1, ?_⟩
    rw [(hown p rfl).1]
    exact h.2
  | park p =>
    obtain ⟨hf, hw⟩ := hpark p rfl
    exact ⟨by rw [hf]; exact h.1, h.2.1, hw h.2.2⟩
  | readToken p => exact inside p rfl h
  | setHandoff p => exact (hwake .fair p rfl).2.trans h
  | unpark mode p =>
    obtain ⟨ht, hs⟩ := hwake mode p rfl
    exact ⟨hs.trans h.1, ht.trans h.2⟩
  | _ => trivial

omit [DecidableEq τ] in
/-- Ownership of a thread's place depends on its parked node's status and on the token
it is about to read. -/
theorem Owns.congr {m m' : Mem τ} {g' : Ghost τ} {pc : Pc}
    (hpark : ∀ q, pc = .park q → ((g'.status q).Handed ↔ (g.status q).Handed))
    (hread : ∀ q, pc = .readToken q → (m'.node q).unparkToken = (m.node q).unparkToken) :
    Owns m' g' pc ↔ Owns m g pc := by
  cases pc <;> try exact Iff.rfl
  · exact hpark _ rfl
  · simp only [Owns, hread _ rfl]

/-- The status of an address survives a step of `t` that leaves the node's parker and
token, unless `t` is the thread the status speaks about. -/
theorem StatusInv.stable {m' : Mem τ} {g' : Ghost τ} {q : Ptr} (h : StatusInv s g q)
    (hparker : (m'.node q).parker = (s.mem.node q).parker)
    (htoken : (m'.node q).unparkToken = (s.mem.node q).unparkToken)
    (hframe : m'.frame q = s.mem.frame q) (hstatus : g'.status q = g.status q)
    (hqueue : q ∈ g.queue → q ∈ g'.queue) (hpark : s.pc t ≠ .park q)
    (hwake : ∀ mode, wakes (s.pc t) = some (mode, q) → wakes pc' = some (mode, q)) :
    StatusInv (s.moveTo t m' pc') g' q := by
  have parked : (∃ u, s.pc u = .park q) → ∃ u, (s.moveTo t m' pc').pc u = .park q := by
    rintro ⟨u, hu⟩
    have hut : u ≠ t := fun e => hpark (e ▸ hu)
    exact ⟨u, by rw [Threads.moveTo_pc_of_ne _ _ _ hut, hu]⟩
  unfold StatusInv at h ⊢
  rw [hstatus]
  cases hq : g.status q with
  | free =>
    simp only [hq] at h ⊢
    exact hframe.trans h
  | inside =>
    simp only [hq] at h ⊢
    rw [Threads.moveTo_mem, hframe]
    exact h
  | queued =>
    simp only [hq] at h ⊢
    rw [Threads.moveTo_mem, hparker, htoken]
    exact ⟨hqueue h.1, h.2.1, h.2.2.1, parked h.2.2.2⟩
  | removed r mode =>
    simp only [hq] at h ⊢
    rw [Threads.moveTo_mem, hparker]
    refine ⟨h.1, ?_, parked h.2.2⟩
    by_cases hrt : r = t
    · subst hrt
      rw [Threads.moveTo_pc_self]
      exact hwake mode h.2.1
    · rw [Threads.moveTo_pc_of_ne _ _ _ hrt]
      exact h.2.1
  | woken mode =>
    simp only [hq] at h ⊢
    rw [Threads.moveTo_mem, hparker, htoken]
    exact ⟨h.1, h.2.1, parked h.2.2⟩

/-! ## Facts every step uses -/

section Facts

omit [DecidableEq τ]

/-- A queued node's thread is parked, and its address is a node's. -/
theorem Inv.parked (h : Inv s g) {p : Ptr} (hp : p ∈ g.queue) :
    ∃ u, s.pc u = .park p ∧ s.mem.frame p = some u ∧ IsNodeAddr p := by
  have hs := h.status p
  simp only [StatusInv, h.queued p hp] at hs
  obtain ⟨-, -, -, u, hu⟩ := hs
  have hn := h.node u
  rw [hu] at hn
  exact ⟨u, hu, hn.1, hn.2.1⟩

/-- A parked thread's node is its own. -/
theorem Inv.parked_unique (h : Inv s g) {u v : τ} {p : Ptr} (hu : s.pc u = .park p)
    (hv : s.pc v = .park p) : u = v := by
  have hnu := h.node u
  have hnv := h.node v
  rw [hu] at hnu
  rw [hv] at hnv
  exact Option.some.inj (hnu.1.symm.trans hnv.1)

/-- The null pointer is not queued. -/
theorem Inv.null_notMem (h : Inv s g) : null ∉ g.queue := by
  intro hn
  obtain ⟨u, -, -, ha⟩ := h.parked hn
  exact ha.ne_null rfl

/-- The word's pointer is null exactly when nothing is queued. -/
theorem Inv.head_null_iff (h : Inv s g) : queueHead s.mem.word = null ↔ g.queue = [] := by
  rw [h.head]
  cases hq : g.queue with
  | nil => simp
  | cons p l =>
    refine ⟨fun hp => absurd ?_ h.null_notMem, fun h => by cases h⟩
    rw [hq]
    simp only [List.headD_cons] at hp
    simp [hp]

/-- The queue lock is free as long as bit 1 is clear. -/
theorem Inv.holder_none (h : Inv s g) (hw : isQueueLocked s.mem.word = false) :
    g.holder = none := by
  rw [h.queueLocked] at hw
  cases hg : g.holder with
  | none => rfl
  | some u => rw [hg] at hw; cases hw

/-- The lock is free as long as bit 0 is clear. -/
theorem Inv.owner_none (h : Inv s g) (hw : isLocked s.mem.word = false) : g.owner = none := by
  rw [h.locked] at hw
  cases hg : g.owner with
  | none => rfl
  | some u => rw [hg] at hw; cases hw

/-- Only a marked owner leaves `TIMEOUT_BIT` set. -/
theorem Inv.not_timeout (h : Inv s g) (ho : g.owner = none) : isTimeout s.mem.word = false := by
  cases hw : isTimeout s.mem.word with
  | false => rfl
  | true =>
    obtain ⟨u, hu, -⟩ := h.timeout hw
    rw [ho] at hu
    cases hu

/-- A place without the queue lock keeps no part of the walk except that a fair unlock
finds the queue nonempty. -/
theorem WalkInv.of_not_holder {node node' : Ptr → ThreadData} {q q' : List Ptr} {pc : Pc}
    (h : WalkInv node q pc) (hpc : holdsQueue pc = false)
    (hq : inSlowFair pc = true → q ≠ [] → q' ≠ []) : WalkInv node' q' pc := by
  cases pc <;> simp only [holdsQueue, Bool.true_eq_false] at hpc <;>
    first | trivial | exact hq rfl h

/-- The walk depends on the `queue_tail`, `prev` and `next` fields of queued nodes. -/
theorem WalkInv.congr {node node' : Ptr → ThreadData} {q : List Ptr} {pc : Pc}
    (h : WalkInv node q pc) (hn : ∀ p ∈ q, node' p = node p) : WalkInv node' q pc := by
  have ht : ∀ p ∈ q, tailOf node' p = tailOf node p := fun p hp => by simp [tailOf, hn p hp]
  have hp : ∀ p ∈ q, prevOf node' p = prevOf node p := fun p hp => by simp [prevOf, hn p hp]
  cases pc with
  | fairLoad => exact h
  | fairLock => exact h
  | fairRelease => exact h
  | scanTail mode st c => exact LazyQueue.Scanning.congr h ht hp
  | scanNext mode st c =>
    exact ⟨LazyQueue.Scanning.congr h.1 ht hp, by rw [hn c h.1.mem]; exact h.2⟩
  | scanPrev mode st c n =>
    refine ⟨LazyQueue.Scanning.congr h.1 ht hp, ?_⟩
    rw [hn c h.1.mem]
    exact h.2
  | markHead mode st x => exact LazyQueue.Scanned.congr h ht hp
  | giveUp st => exact ⟨h.1, LazyQueue.Settled.congr h.2 ht hp⟩
  | readPrev mode st x => exact LazyQueue.Linked.congr h ht hp
  | removeLast mode st x => exact ⟨LazyQueue.Linked.congr h.1 ht hp, h.2⟩
  | setNewTail mode st x n =>
    refine ⟨LazyQueue.Linked.congr h.1 ht hp, h.2.1, ?_⟩
    rw [hn x h.1.1.mem.2]
    exact h.2.2
  | unlockQueue mode x =>
    obtain ⟨q', rfl, hne, hs⟩ := h
    exact ⟨q', rfl, hne, hs.congr (fun p hp' => ht p (by simp [hp'])) fun p hp' =>
      hp p (by simp [hp'])⟩
  | _ => trivial

/-- Distinct threads' own nodes are distinct. -/
theorem Inv.own_ne (h : Inv s g) {u : τ} (hut : u ≠ t) {p q : Ptr} (hp : s.mem.frame p = some t)
    (hq : ownNode (s.pc u) = some q) : q ≠ p := by
  rintro rfl
  have := ((h.node u).inside hq).frame
  rw [hp] at this
  exact hut (Option.some.inj this).symm

/-- A thread's own node is not parked. -/
theorem Inv.park_ne (h : Inv s g) {u : τ} {p q : Ptr} (hp : g.status p = .inside)
    (hq : s.pc u = .park q) : q ≠ p := by
  rintro rfl
  have hn := h.node u
  rw [hq] at hn
  have hw := hn.2.2
  rw [hp] at hw
  exact hw.elim

/-- A node that has to be woken is not a node in another state of its life. -/
theorem Inv.wake_ne (h : Inv s g) {u : τ} {mode : Mode} {p q : Ptr}
    (hp : ∀ r mode, g.status p ≠ .removed r mode) (hq : wakes (s.pc u) = some (mode, q)) :
    q ≠ p := by
  rintro rfl
  exact hp _ _ ((h.node u).removed hq)

/-- A node in another state of its life is not a running thread's own. -/
theorem Inv.own_ne_of_status (h : Inv s g) {u : τ} {p q : Ptr} (hp : g.status p ≠ .inside)
    (hq : ownNode (s.pc u) = some q) : q ≠ p := by
  rintro rfl
  exact hp ((h.node u).inside hq).status

/-- An address that no call of `with_thread_data` uses is free in the ghost. -/
theorem Inv.status_free (h : Inv s g) {p : Ptr} (hp : s.mem.frame p = none) :
    g.status p = .free := by
  have noPark : ¬ ∃ u, s.pc u = .park p := by
    rintro ⟨u, hu⟩
    have hn := h.node u
    rw [hu] at hn
    have hf := hn.1
    rw [hp] at hf
    cases hf
  have hs := h.status p
  unfold StatusInv at hs
  cases hq : g.status p with
  | free => rfl
  | inside => simp only [hq] at hs; exact absurd hp hs
  | queued => simp only [hq] at hs; exact absurd hs.2.2.2 noPark
  | removed r mode => simp only [hq] at hs; exact absurd hs.2.2 noPark
  | woken mode => simp only [hq] at hs; exact absurd hs.2.2 noPark

/-- A parked thread whose parker holds a notification has been unparked: its node left the
queue and its token is written. -/
theorem Inv.woken_of_parker (h : Inv s g) {u : τ} {p : Ptr} (hpc : s.pc u = .park p)
    (hparker : (s.mem.node p).parker = true) : ∃ mode, g.status p = .woken mode := by
  have hwait := h.node u
  rw [hpc] at hwait
  have hs := h.status p
  unfold StatusInv at hs
  cases hg : g.status p with
  | free => exact absurd hwait.2.2 (by rw [hg]; exact id)
  | inside => exact absurd hwait.2.2 (by rw [hg]; exact id)
  | queued =>
    simp only [hg, hparker] at hs
    exact absurd hs.2.1 (by simp)
  | removed r mode =>
    simp only [hg, hparker] at hs
    exact absurd hs.1 (by simp)
  | woken mode => exact ⟨mode, rfl⟩

end Facts

/-! ## Steps that leave the nodes -/

/-- A step that changes nothing shared, and no role of the thread. -/
theorem Inv.silent (h : Inv s g) (hpark : ∀ p, s.pc t ≠ .park p)
    (hown : Owns s.mem g pc' ↔ Owns s.mem g (s.pc t))
    (hhold : holdsQueue pc' = holdsQueue (s.pc t))
    (hmark : marked (s.pc t) = true → marked pc' = true) (hwake : wakes pc' = wakes (s.pc t))
    (hnode : NodeInv s.mem g t pc') (hstate : StateInv pc')
    (hwalk : WalkInv s.mem.node g.queue pc') : Inv (s.moveTo t s.mem pc') g where
  locked := h.locked
  queueLocked := h.queueLocked
  timeout hw := by
    obtain ⟨u, hu, hm⟩ := h.timeout hw
    refine ⟨u, hu, ?_⟩
    by_cases hut : u = t
    · subst hut
      simpa using hmark hm
    · rwa [Threads.moveTo_pc_of_ne _ _ _ hut]
  head := h.head
  owner := Threads.forall_moveTo (fun u pc => Owns s.mem g pc ↔ g.owner = some u)
    (hown.trans (h.owner t)) fun u _ => h.owner u
  holder := Threads.forall_moveTo (fun u pc => holdsQueue pc = true ↔ g.holder = some u)
    (by rw [hhold]; exact h.holder t) fun u _ => h.holder u
  nodup := h.nodup
  links := h.links
  settled := h.settled
  queued := h.queued
  status p := (h.status p).stable rfl rfl rfl rfl id (hpark p) fun mode hm => by rw [hwake, hm]
  node := Threads.forall_moveTo (fun u pc => NodeInv s.mem g u pc) hnode fun u _ => h.node u
  state := Threads.forall_moveTo (fun _ pc => StateInv pc) hstate fun u _ => h.state u
  walk := Threads.forall_moveTo (fun _ pc => WalkInv s.mem.node g.queue pc) hwalk
    fun u _ => h.walk u

/-- A step that only stores a word, with the ghost's roles `o` and `l` after it. -/
theorem Inv.storeWord {w : U64} {o l : Option τ} (h : Inv s g) (hpark : ∀ p, s.pc t ≠ .park p)
    (hwake : wakes pc' = wakes (s.pc t)) (hlocked : isLocked w = o.isSome)
    (hqueueLocked : isQueueLocked w = l.isSome)
    (htimeout : isTimeout w = true → ∃ u, o = some u ∧
      marked ((s.moveTo t (s.mem.store w) pc').pc u) = true)
    (hhead : queueHead w = queueHead s.mem.word)
    (hown : Owns (s.mem.store w) { g with owner := o, holder := l } pc' ↔ o = some t)
    (howns : ∀ u, u ≠ t → (g.owner = some u ↔ o = some u))
    (hhold : holdsQueue pc' = true ↔ l = some t)
    (hholds : ∀ u, u ≠ t → (g.holder = some u ↔ l = some u))
    (hsettled : l = none →
      LazyQueue.Settled null (tailOf s.mem.node) (prevOf s.mem.node) g.queue)
    (hnode : NodeInv (s.mem.store w) { g with owner := o, holder := l } t pc')
    (hstate : StateInv pc') (hwalk : WalkInv s.mem.node g.queue pc') :
    Inv (s.moveTo t (s.mem.store w) pc') { g with owner := o, holder := l } where
  locked := hlocked
  queueLocked := hqueueLocked
  timeout := htimeout
  head := hhead.trans h.head
  owner := Threads.forall_moveTo (fun u pc =>
      Owns (s.mem.store w) { g with owner := o, holder := l } pc ↔ o = some u) hown fun u hu =>
    (Owns.congr (fun _ _ => Iff.rfl) fun _ _ => rfl).trans ((h.owner u).trans (howns u hu))
  holder := Threads.forall_moveTo (fun u pc => holdsQueue pc = true ↔ l = some u) hhold
    fun u hu => (h.holder u).trans (hholds u hu)
  nodup := h.nodup
  links := h.links
  settled := hsettled
  queued := h.queued
  status p := (h.status p).stable rfl rfl rfl rfl id (hpark p) fun mode hm => by rw [hwake, hm]
  node := Threads.forall_moveTo (fun u pc =>
      NodeInv (s.mem.store w) { g with owner := o, holder := l } u pc) hnode fun u _ =>
    (h.node u).stable (fun _ _ => ⟨rfl, rfl, rfl⟩) (fun _ _ => ⟨rfl, id⟩) fun _ _ _ => ⟨rfl, rfl⟩
  state := Threads.forall_moveTo (fun _ pc => StateInv pc) hstate fun u _ => h.state u
  walk := Threads.forall_moveTo (fun _ pc => WalkInv s.mem.node g.queue pc) hwalk
    fun u _ => h.walk u

/-- Taking the free lock. -/
theorem Inv.acquire {w : U64} (h : Inv s g) (hpark : ∀ p, s.pc t ≠ .park p)
    (hwake : wakes pc' = wakes (s.pc t)) (hhold : holdsQueue (s.pc t) = false)
    (hhold' : holdsQueue pc' = false) (hfree : isLocked s.mem.word = false)
    (hl : isLocked w = true) (hq : isQueueLocked w = isQueueLocked s.mem.word)
    (ht : isTimeout w = isTimeout s.mem.word) (hh : queueHead w = queueHead s.mem.word)
    (hown : ownsLock pc' = true) (hnode : ∀ m g', NodeInv (τ := τ) m g' t pc')
    (hnp : ∀ p, pc' ≠ .park p) (hnr : ∀ p, pc' ≠ .readToken p) (hstate : StateInv pc')
    (hwalk : WalkInv s.mem.node g.queue pc') :
    Inv (s.moveTo t (s.mem.store w) pc') { g with owner := some t } := by
  have hnone := h.owner_none hfree
  have htne : g.holder ≠ some t := fun e => by
    rw [← h.holder t, hhold] at e
    cases e
  have howns : Owns (s.mem.store w) { g with owner := some t, holder := g.holder } pc' := by
    cases pc' <;> first | exact hown | exact absurd rfl (hnp _) | exact absurd rfl (hnr _)
  refine h.storeWord (o := some t) (l := g.holder) hpark hwake hl (by rw [hq, h.queueLocked])
    ?_ hh (by simp [howns]) ?_ (by rw [hhold']; simp [htne]) (fun _ _ => Iff.rfl) h.settled
    (hnode _ _) hstate hwalk
  · intro hw
    rw [ht, h.not_timeout hnone] at hw
    cases hw
  · intro u hu
    rw [hnone]
    simp [Ne.symm hu]

/-- The owner clears `LOCKED_BIT`. -/
theorem Inv.release {w : U64} (h : Inv s g) (hpark : ∀ p, s.pc t ≠ .park p)
    (hwake : wakes pc' = wakes (s.pc t)) (hhold : holdsQueue (s.pc t) = false)
    (hhold' : holdsQueue pc' = false) (howner : g.owner = some t)
    (hl : isLocked w = false) (hq : isQueueLocked w = isQueueLocked s.mem.word)
    (ht : isTimeout w = false) (hh : queueHead w = queueHead s.mem.word)
    (hown : ∀ m g', ¬ Owns (τ := τ) m g' pc') (hnode : ∀ m g', NodeInv (τ := τ) m g' t pc')
    (hstate : StateInv pc') (hwalk : WalkInv s.mem.node g.queue pc') :
    Inv (s.moveTo t (s.mem.store w) pc') { g with owner := none } := by
  have htne : g.holder ≠ some t := fun e => by
    rw [← h.holder t, hhold] at e
    cases e
  refine h.storeWord (o := none) (l := g.holder) hpark hwake hl (by rw [hq, h.queueLocked])
    (by simp [ht]) hh (by simp [hown]) ?_ (by rw [hhold']; simp [htne]) (fun _ _ => Iff.rfl)
    h.settled (hnode _ _) hstate hwalk
  intro u hu
  rw [howner]
  simp [Ne.symm hu]

/-- The owner sets `TIMEOUT_BIT`. -/
theorem Inv.markTimeout {w : U64} (h : Inv s g) (hpark : ∀ p, s.pc t ≠ .park p)
    (hwake : wakes pc' = wakes (s.pc t)) (hhold : holdsQueue pc' = holdsQueue (s.pc t))
    (howner : g.owner = some t) (hl : isLocked w = isLocked s.mem.word)
    (hq : isQueueLocked w = isQueueLocked s.mem.word) (hh : queueHead w = queueHead s.mem.word)
    (hmark : marked pc' = true) (hown : ∀ m g', Owns (τ := τ) m g' pc')
    (hnode : ∀ m g', NodeInv (τ := τ) m g' t pc') (hstate : StateInv pc')
    (hwalk : WalkInv s.mem.node g.queue pc') : Inv (s.moveTo t (s.mem.store w) pc') g :=
  h.storeWord (o := g.owner) (l := g.holder) hpark hwake (by rw [hl, h.locked])
    (by rw [hq, h.queueLocked]) (fun _ => ⟨t, howner, by simpa using hmark⟩) hh
    (by simp [howner, hown]) (fun _ _ => Iff.rfl) (by rw [hhold]; exact h.holder t)
    (fun _ _ => Iff.rfl) h.settled (hnode _ _) hstate hwalk

/-- Taking the free queue lock; the thread keeps its role towards the lock. -/
theorem Inv.lockQueue {w : U64} (h : Inv s g) (hpark : ∀ p, s.pc t ≠ .park p)
    (hwake : wakes pc' = wakes (s.pc t)) (hfree : isQueueLocked s.mem.word = false)
    (hhold' : holdsQueue pc' = true) (hl : isLocked w = isLocked s.mem.word)
    (hq : isQueueLocked w = true) (ht : isTimeout w = isTimeout s.mem.word)
    (hh : queueHead w = queueHead s.mem.word) (hmark : marked (s.pc t) = true → marked pc' = true)
    (hown : ∀ m g', Owns (τ := τ) m g' pc' ↔ Owns s.mem g (s.pc t))
    (hnode : ∀ m g', NodeInv (τ := τ) m g' t pc') (hstate : StateInv pc')
    (hwalk : WalkInv s.mem.node g.queue pc') :
    Inv (s.moveTo t (s.mem.store w) pc') { g with holder := some t } := by
  have hnone := h.holder_none hfree
  refine h.storeWord (o := g.owner) (l := some t) hpark hwake (by rw [hl, h.locked]) hq ?_ hh
    ((hown _ _).trans (h.owner t)) (fun _ _ => Iff.rfl) (by simp [hhold']) ?_ (by simp)
    (hnode _ _) hstate hwalk
  · intro hw
    obtain ⟨u, hu, hm⟩ := h.timeout (by rw [← ht]; exact hw)
    refine ⟨u, hu, ?_⟩
    by_cases hut : u = t
    · subst hut
      simpa using hmark hm
    · rwa [Threads.moveTo_pc_of_ne _ _ _ hut]
  · intro u hu
    rw [hnone]
    simp [Ne.symm hu]

/-- Giving the queue lock back without a removal. -/
theorem Inv.unlockQueue {w : U64} (h : Inv s g) (hpark : ∀ p, s.pc t ≠ .park p)
    (hwake : wakes pc' = wakes (s.pc t)) (hhold : holdsQueue (s.pc t) = true)
    (hhold' : holdsQueue pc' = false) (hl : isLocked w = isLocked s.mem.word)
    (hq : isQueueLocked w = false) (ht : isTimeout w = isTimeout s.mem.word)
    (hh : queueHead w = queueHead s.mem.word) (hmark : marked (s.pc t) = true → marked pc' = true)
    (hown : ∀ m g', Owns (τ := τ) m g' pc' ↔ Owns s.mem g (s.pc t))
    (hsettled : LazyQueue.Settled null (tailOf s.mem.node) (prevOf s.mem.node) g.queue)
    (hnode : ∀ m g', NodeInv (τ := τ) m g' t pc') (hstate : StateInv pc')
    (hwalk : WalkInv s.mem.node g.queue pc') :
    Inv (s.moveTo t (s.mem.store w) pc') { g with holder := none } := by
  have hsome := (h.holder t).mp hhold
  refine h.storeWord (o := g.owner) (l := none) hpark hwake (by rw [hl, h.locked]) hq ?_ hh
    ((hown _ _).trans (h.owner t)) (fun _ _ => Iff.rfl) (by simp [hhold']) ?_ (fun _ => hsettled)
    (hnode _ _) hstate hwalk
  · intro hw
    obtain ⟨u, hu, hm⟩ := h.timeout (by rw [← ht]; exact hw)
    refine ⟨u, hu, ?_⟩
    by_cases hut : u = t
    · subst hut
      simpa using hmark hm
    · rwa [Threads.moveTo_pc_of_ne _ _ _ hut]
  · intro u hu
    rw [hsome]
    simp [Ne.symm hu]

end Mekong.Analysis.RawMutex
