import Mekong.Analysis.ParkingQueueInvariant

/-!
# What the steps of `ParkingQueue` do to the invariant

A step of one thread changes at most one node, the word and the thread's place. What
another thread knows survives it as long as that thread's own node stays what it is, and
as long as the list of the bit it holds only grows in front. One lemma for each kind of
step gives the ghost after it.
-/

set_option autoImplicit false

namespace Mekong.Analysis.ParkingQueue

open Mekong.Computation Mekong.Computation.NextChain Mekong.Model Mekong.Program.ParkingQueue

variable {τ : Type} {s : State τ} {g g' : Ghost τ} {m m' : Mem τ} {t u : τ} {pc pc' : Pc}

/-! ## What another thread's step leaves alone -/

/-- The changes that a thread at `pc` does not notice. -/
structure Unnoticed (m m' : Mem τ) (g g' : Ghost τ) (pc : Pc) : Prop where
  frame : ∀ p, ownNode pc = some p → m'.frame p = m.frame p
  unlinked : ∀ p, ownNode pc = some p → linkedNode pc = none → m'.node p = m.node p
  linked : ∀ p, linkedNode pc = some p → g.Linked p ∨ (m.node p).parker = true →
    g'.Linked p ∨ (m'.node p).parker = true
  queue : holdsQueue pc = true → (∃ w, g'.queue = w ++ g.queue) ∧
    ∀ p, ownNode pc = some p → (m'.node p).next = (m.node p).next
  cut : holdsClear pc = true → g'.cut = g.cut ∧
    ∀ p ∈ g.cut, (m'.node p).next = (m.node p).next

/-- What a thread does not notice keeps what holds of it. -/
theorem ThreadInv.stable (h : ThreadInv m g u pc) (c : Unnoticed m m' g g' pc) :
    ThreadInv m' g' u pc := by
  have framed : ∀ p, ownNode pc = some p → Framed m u p → Framed m' u p := fun p hp hf =>
    ⟨(c.frame p hp).trans hf.frame, hf.addr⟩
  have unpushed : ∀ p, ownNode pc = some p → linkedNode pc = none → Unpushed m u p →
      Unpushed m' u p := fun p hp hl hf =>
    ⟨framed p hp hf.toFramed, by rw [c.unlinked p hp hl]; exact hf.parker⟩
  have pushed : ∀ p, ownNode pc = some p → linkedNode pc = some p → Pushed m g u p →
      Pushed m' g' u p := fun p hp hl hf => ⟨framed p hp hf.toFramed, c.linked p hl hf.linked⟩
  have queued : ∀ {p}, holdsQueue pc = true → p ∈ g.queue → p ∈ g'.queue := by
    intro p hq hp
    obtain ⟨w, hw⟩ := (c.queue hq).1
    rw [hw]
    exact List.mem_append_right w hp
  have between : ∀ {prev p}, holdsQueue pc = true → (∃ u v, g.queue = u ++ prev :: p :: v) →
      ∃ u v, g'.queue = u ++ prev :: p :: v := by
    rintro prev p hq ⟨u, v, hv⟩
    obtain ⟨w, hw⟩ := (c.queue hq).1
    exact ⟨w ++ u, v, by rw [hw, hv, List.append_assoc]⟩
  cases pc with
  | setToken counter st p =>
      exact ⟨unpushed p rfl rfl h.1, by rw [c.unlinked p rfl rfl]; exact h.2⟩
  | setTail counter st p =>
      exact ⟨unpushed p rfl rfl h.1, by rw [c.unlinked p rfl rfl]; exact h.2⟩
  | setPrev counter st p =>
      exact ⟨unpushed p rfl rfl h.1, by rw [c.unlinked p rfl rfl]; exact h.2⟩
  | setNext counter st p => exact unpushed p rfl rfl h
  | push counter st p =>
      exact ⟨unpushed p rfl rfl h.1, by rw [c.unlinked p rfl rfl]; exact h.2⟩
  | retryAgain counter p => exact pushed p rfl rfl h
  | park counter p => exact pushed p rfl rfl h
  | abortLoad counter p => exact pushed p rfl rfl h
  | abortLock counter p st => exact ⟨pushed p rfl rfl h.1, h.2⟩
  | scanNext counter p st curr =>
      obtain ⟨hf, prev, rest, hw, hp⟩ := h
      obtain ⟨w, hg⟩ := (c.queue rfl).1
      refine ⟨framed p rfl hf, prev, rest, ?_, hp⟩
      rw [hg]
      exact hw.grow w
  | headNext counter p st => exact ⟨framed p rfl h.1, queued rfl h.2.1, h.2.2⟩
  | readTail counter p st newHead =>
      obtain ⟨hf, hp, hh, hn, hq⟩ := h
      exact ⟨framed p rfl hf, queued rfl hp, hh, hn.trans ((c.queue rfl).2 p rfl).symm,
        queued rfl hq⟩
  | writeTail counter p st newHead tail =>
      obtain ⟨hf, hp, hh, hn, hq⟩ := h
      exact ⟨framed p rfl hf, queued rfl hp, hh, hn.trans ((c.queue rfl).2 p rfl).symm,
        queued rfl hq⟩
  | headCas counter p st newHead =>
      obtain ⟨hf, hp, hh, hn⟩ := h
      exact ⟨framed p rfl hf, queued rfl hp, hh, hn.trans ((c.queue rfl).2 p rfl).symm⟩
  | midNext counter p prev => exact ⟨framed p rfl h.1, between rfl h.2⟩
  | midWrite counter p prev next =>
      obtain ⟨hf, hb, hn⟩ := h
      exact ⟨framed p rfl hf, between rfl hb, hn.trans ((c.queue rfl).2 p rfl).symm⟩
  | midRelease counter p => exact framed p rfl h
  | unparkSelf counter p => exact framed p rfl h
  | lost counter p st => exact h.elim
  | cut counter st => exact h
  | walkNext head =>
      obtain ⟨hcut, hnext⟩ := c.cut rfl
      refine ⟨h.1, ?_⟩
      rw [hcut]
      exact h.2.congr hnext
  | walkUnpark head newHead =>
      obtain ⟨hcut, hnext⟩ := c.cut rfl
      obtain ⟨hh, hchain, hn⟩ := h
      have hmem : head ∈ g.cut := hchain.reach_iff.mp (.here hh)
      refine ⟨hh, ?_, hn.trans (hnext head hmem).symm⟩
      rw [hcut]
      exact hchain.congr hnext
  | reload => exact ((c.cut rfl).1).trans h
  | recut st => exact ((c.cut rfl).1).trans h
  | clear => exact ((c.cut rfl).1).trans h
  | _ => trivial

/-! ## Facts every step uses -/

section Facts

/-- Every place with a node is in its frame. -/
theorem ThreadInv.framed {p : Ptr} (h : ThreadInv m g u pc) (hp : ownNode pc = some p) :
    Framed m u p := by
  cases pc <;> cases hp
  · exact h.1.toFramed
  · exact h.1.toFramed
  · exact h.1.toFramed
  · exact h.toFramed
  · exact h.1.toFramed
  · exact h.toFramed
  · exact h.toFramed
  · exact h.toFramed
  · exact h.1.toFramed
  all_goals first | exact h | exact h.1 | exact h.elim

/-- A node in one of the lists is the thread's own. -/
theorem ownNode_of_linkedNode {p : Ptr} (h : linkedNode pc = some p) : ownNode pc = some p := by
  cases pc <;> cases h <;> rfl

/-- A node stands in the frame of one thread. -/
theorem Inv.own_unique (h : Inv s g) {p : Ptr} (ht : ownNode (s.pc t) = some p)
    (hu : ownNode (s.pc u) = some p) : u = t := by
  have h₁ := ((h.thread t).framed ht).frame
  have h₂ := ((h.thread u).framed hu).frame
  rw [h₁] at h₂
  exact (Option.some.inj h₂).symm

/-- A node in one of the lists is not one that its thread has not pushed or has taken out. -/
theorem Inv.not_linked (h : Inv s g) {p : Ptr} (hp : ownNode (s.pc t) = some p)
    (hl : linkedNode (s.pc t) ≠ some p) : ¬ g.Linked p := by
  intro hg
  obtain ⟨-, u, hu⟩ := h.linked p hg
  have hut := h.own_unique hp (ownNode_of_linkedNode hu)
  subst hut
  exact hl hu

/-- A notified node is in none of the lists. -/
theorem Inv.not_linked_of_parker (h : Inv s g) {p : Ptr} (hp : (s.mem.node p).parker = true) :
    ¬ g.Linked p := by
  intro hg
  rw [(h.linked p hg).1] at hp
  cases hp

/-- A node in one of the lists has the address of a node. -/
theorem Inv.addr (h : Inv s g) {p : Ptr} (hp : g.Linked p) : IsNodeAddr p := by
  obtain ⟨-, u, hu⟩ := h.linked p hp
  exact ((h.thread u).framed (ownNode_of_linkedNode hu)).addr

/-- An address no call uses is in none of the lists. -/
theorem Inv.not_linked_of_frame (h : Inv s g) {p : Ptr} (hp : s.mem.frame p = none) :
    ¬ g.Linked p := by
  intro hg
  obtain ⟨-, u, hu⟩ := h.linked p hg
  have hf := ((h.thread u).framed (ownNode_of_linkedNode hu)).frame
  rw [hp] at hf
  cases hf

/-- Without the queue-clear bit nobody clears. -/
theorem Inv.clearer_none (h : Inv s g) (hw : isQueueClear s.mem.word = false) :
    g.clearer = none := by
  rw [h.queueClear] at hw
  exact Option.not_isSome_iff_eq_none.mp (by rw [hw]; decide)

/-- Without the queue-locked bit nobody holds the queue lock. -/
theorem Inv.locker_none (h : Inv s g) (hw : isQueueLocked s.mem.word = false) :
    g.locker = none := by
  rw [h.queueLocked] at hw
  exact Option.not_isSome_iff_eq_none.mp (by rw [hw]; decide)

/-- A thread with `QUEUE_LOCKED_BIT` is alone with it, and nobody clears. -/
theorem Inv.locked (h : Inv s g) (ht : holdsQueue (s.pc t) = true) :
    g.locker = some t ∧ g.clearer = none ∧ g.cut = [] := by
  have hl := (h.locker t).mp ht
  have hc : g.clearer = none := by
    rcases h.exclusive with hn | hc
    · rw [hn] at hl
      cases hl
    · exact hc
  exact ⟨hl, hc, h.uncut hc⟩

/-- A thread with `QUEUE_CLEAR_BIT` is alone with it, and the queue is not locked. -/
theorem Inv.clearing (h : Inv s g) (ht : holdsClear (s.pc t) = true) :
    g.clearer = some t ∧ g.locker = none := by
  have hc := (h.clearer t).mp ht
  refine ⟨hc, h.exclusive.resolve_right ?_⟩
  rw [hc]
  exact nofun

end Facts

variable [DecidableEq τ]

/-! ## One step -/

/-- What there is to say about a step of `t` to `pc'` that leaves the memory `m'`, for
the ghost `g'` to describe the state after it. -/
structure Step (s : State τ) (g : Ghost τ) (t : τ) (m' : Mem τ) (g' : Ghost τ) (pc' : Pc) :
    Prop where
  queueLocked : isQueueLocked m'.word = g'.locker.isSome
  queueClear : isQueueClear m'.word = g'.clearer.isSome
  exclusive : g'.locker = none ∨ g'.clearer = none
  chain : Chain null (nextOf m'.node) (queueHead m'.word) g'.queue
  uncut : g'.clearer = none → g'.cut = []
  nodup : (g'.queue ++ g'.cut).Nodup
  locker : holdsQueue pc' = true ↔ g'.locker = some t
  lockers : ∀ u, u ≠ t → (g.locker = some u ↔ g'.locker = some u)
  clearer : holdsClear pc' = true ↔ g'.clearer = some t
  clearers : ∀ u, u ≠ t → (g.clearer = some u ↔ g'.clearer = some u)
  linked : ∀ p, g'.Linked p → (m'.node p).parker = false ∧
    (linkedNode pc' = some p ∨ g.Linked p ∧ linkedNode (s.pc t) ≠ some p)
  thread : ThreadInv m' g' t pc'
  others : ∀ u, u ≠ t → Unnoticed s.mem m' g g' (s.pc u)

/-- A step that can be described so keeps the invariant. -/
theorem Inv.step (h : Inv s g) (c : Step s g t m' g' pc') : Inv (s.moveTo t m' pc') g' where
  queueLocked := c.queueLocked
  queueClear := c.queueClear
  exclusive := c.exclusive
  chain := c.chain
  uncut := c.uncut
  nodup := c.nodup
  locker := Threads.forall_moveTo (fun u pc => holdsQueue pc = true ↔ g'.locker = some u) c.locker
    fun u hu => (h.locker u).trans (c.lockers u hu)
  clearer := Threads.forall_moveTo (fun u pc => holdsClear pc = true ↔ g'.clearer = some u)
    c.clearer fun u hu => (h.clearer u).trans (c.clearers u hu)
  linked p hp := by
    obtain ⟨hparker, hl | ⟨hg, hne⟩⟩ := c.linked p hp
    · exact ⟨hparker, t, by rw [Threads.moveTo_pc_self]; exact hl⟩
    · obtain ⟨-, u, hu⟩ := h.linked p hg
      have hut : u ≠ t := by
        rintro rfl
        exact hne hu
      exact ⟨hparker, u, by rw [Threads.moveTo_pc_of_ne _ _ _ hut]; exact hu⟩
  thread := Threads.forall_moveTo (fun u pc => ThreadInv m' g' u pc) c.thread
    fun u hu => (h.thread u).stable (c.others u hu)

section Silent

omit [DecidableEq τ]

/-- Nobody notices a step that leaves the nodes and the lists. -/
theorem Unnoticed.of_lists (hn : m'.node = m.node) (hf : m'.frame = m.frame)
    (hq : g'.queue = g.queue) (hc : g'.cut = g.cut) : Unnoticed m m' g g' pc where
  frame p _ := by rw [hf]
  unlinked p _ _ := by rw [hn]
  linked p _ := by rw [Ghost.Linked, Ghost.Linked, hn, hq, hc]; exact id
  queue _ := ⟨⟨[], hq⟩, fun p _ => by rw [hn]⟩
  cut _ := ⟨hc, fun p _ => by rw [hn]⟩

/-- Nobody notices a write into a node that nobody else has in its frame, outside the
lists. -/
theorem Unnoticed.of_own {p : Ptr} (hp : ¬ g.Linked p)
    (hown : ∀ u, u ≠ t → ownNode (s.pc u) ≠ some p)
    (hn : ∀ q, q ≠ p → m'.node q = s.mem.node q) (hf : ∀ q, q ≠ p → m'.frame q = s.mem.frame q)
    (u : τ) (hu : u ≠ t) : Unnoticed s.mem m' g g (s.pc u) where
  frame q hq := hf q fun e => hown u hu (e ▸ hq)
  unlinked q hq _ := hn q fun e => hown u hu (e ▸ hq)
  linked q hq hl := by
    rw [hn q fun e => hown u hu (e ▸ ownNode_of_linkedNode hq)]
    exact hl
  queue _ := ⟨⟨[], rfl⟩, fun q hq => by rw [hn q fun e => hown u hu (e ▸ hq)]⟩
  cut _ := ⟨rfl, fun q hq => by
    rw [hn q]
    rintro rfl
    exact hp (.inr hq)⟩

end Silent

/-- A step that changes nothing shared. -/
theorem Inv.move (h : Inv s g) (hq : holdsQueue pc' = holdsQueue (s.pc t))
    (hc : holdsClear pc' = holdsClear (s.pc t)) (hl : linkedNode pc' = linkedNode (s.pc t))
    (ht : ThreadInv s.mem g t pc') : Inv (s.moveTo t s.mem pc') g :=
  h.step {
    queueLocked := h.queueLocked
    queueClear := h.queueClear
    exclusive := h.exclusive
    chain := h.chain
    uncut := h.uncut
    nodup := h.nodup
    locker := by rw [hq]; exact h.locker t
    lockers := fun _ _ => Iff.rfl
    clearer := by rw [hc]; exact h.clearer t
    clearers := fun _ _ => Iff.rfl
    linked := fun p hp => ⟨(h.linked p hp).1, by
      rw [hl]
      exact (Classical.em _).imp_right fun hne => ⟨hp, hne⟩⟩
    thread := ht
    others := fun _ _ => .of_lists rfl rfl rfl rfl }

/-- A step on an address outside the lists that no other thread has in its frame: a
node's birth, the writes before its push, and the return of `with_thread_data`. -/
theorem Inv.touch {p : Ptr} (h : Inv s g) (hp : ¬ g.Linked p)
    (hown : ∀ u, u ≠ t → ownNode (s.pc u) ≠ some p) (hw : m'.word = s.mem.word)
    (hn : ∀ q, q ≠ p → m'.node q = s.mem.node q) (hf : ∀ q, q ≠ p → m'.frame q = s.mem.frame q)
    (hq : holdsQueue pc' = holdsQueue (s.pc t)) (hc : holdsClear pc' = holdsClear (s.pc t))
    (hl : ∀ q, linkedNode (s.pc t) = some q → q = p) (ht : ThreadInv m' g t pc') :
    Inv (s.moveTo t m' pc') g := by
  have hne : ∀ q, g.Linked q → q ≠ p := by
    rintro q hq rfl
    exact hp hq
  exact h.step {
    queueLocked := by rw [hw]; exact h.queueLocked
    queueClear := by rw [hw]; exact h.queueClear
    exclusive := h.exclusive
    chain := by
      rw [hw]
      exact h.chain.congr fun q hq => by rw [nextOf, nextOf, hn q (hne q (.inl hq))]
    uncut := h.uncut
    nodup := h.nodup
    locker := by rw [hq]; exact h.locker t
    lockers := fun _ _ => Iff.rfl
    clearer := by rw [hc]; exact h.clearer t
    clearers := fun _ _ => Iff.rfl
    linked := fun q hq => ⟨by rw [hn q (hne q hq)]; exact (h.linked q hq).1,
      .inr ⟨hq, fun e => hne q hq (hl q e)⟩⟩
    thread := ht
    others := Unnoticed.of_own hp hown hn hf }

/-! ## The lists -/

/-- A node is pushed in front of the word's list. -/
theorem Inv.push {counter : ℕ} {p : Ptr} (h : Inv s g)
    (hpc : s.pc t = .push counter s.mem.word p) :
    Inv (s.moveTo t (s.mem.store (setQueueHead s.mem.word p)) (.retryAgain counter p))
      { g with queue := p :: g.queue } := by
  have ht := h.thread t
  have hlock := h.locker t
  have hclear := h.clearer t
  rw [hpc] at ht hlock hclear
  obtain ⟨hun, hnext⟩ := ht
  have hnot : ¬ g.Linked p := h.not_linked (t := t) (by rw [hpc]; rfl) (by rw [hpc]; exact nofun)
  obtain ⟨hhead, hfree, hqueue, -⟩ := setQueueHead_projections s.mem.word hun.addr.aligned
  exact h.step {
    queueLocked := by rw [Mem.store_word, hqueue]; exact h.queueLocked
    queueClear := by
      rw [Mem.store_word, isQueueClear_eq_isLocked, hfree]
      exact h.queueClear
    exclusive := h.exclusive
    chain := by
      rw [Mem.store_word, hhead]
      exact h.chain.push hun.addr.ne_null hnext
    uncut := h.uncut
    nodup := List.nodup_cons.mpr ⟨by simpa [Ghost.Linked] using hnot, h.nodup⟩
    locker := hlock
    lockers := fun _ _ => Iff.rfl
    clearer := hclear
    clearers := fun _ _ => Iff.rfl
    linked := by
      rintro q (hq | hq)
      · rcases List.mem_cons.mp hq with rfl | hq
        · exact ⟨hun.parker, .inl rfl⟩
        · exact ⟨(h.linked q (.inl hq)).1, .inr ⟨.inl hq, by rw [hpc]; exact nofun⟩⟩
      · exact ⟨(h.linked q (.inr hq)).1, .inr ⟨.inr hq, by rw [hpc]; exact nofun⟩⟩
    thread := ⟨⟨hun.frame, hun.addr⟩, .inl (.inl List.mem_cons_self)⟩
    others := fun u _ => ⟨fun _ _ => rfl, fun _ _ _ => rfl,
      fun q _ => Or.imp_left (Or.imp_left (List.mem_cons_of_mem p)),
      fun _ => ⟨⟨[p], rfl⟩, fun _ _ => rfl⟩, fun _ => ⟨rfl, fun _ _ => rfl⟩⟩ }

/-- The compare-exchange of `unpark_all` cuts off the word's list. -/
theorem Inv.cut (h : Inv s g) (hl : g.locker = none) (hc : g.clearer = none ∨ g.clearer = some t)
    (hcut : g.cut = []) (hlinked : linkedNode (s.pc t) = none) :
    Inv (s.moveTo t (s.mem.store queueClearBit) (afterCut (queueHead s.mem.word)))
      ⟨none, some t, [], g.queue⟩ := by
  have hplace : afterCut (queueHead s.mem.word) =
      if queueHead s.mem.word = null then .clear else .walkNext (queueHead s.mem.word) := rfl
  exact h.step {
    queueLocked := isQueueLocked_queueClearBit
    queueClear := isQueueClear_queueClearBit
    exclusive := .inl rfl
    chain := queueHead_queueClearBit
    uncut := nofun
    nodup := by
      rw [List.nil_append]
      exact (List.nodup_append.mp h.nodup).1
    locker := by
      rw [hplace]
      split <;> exact ⟨nofun, nofun⟩
    lockers := fun u _ => by rw [hl]
    clearer := by
      rw [hplace]
      split <;> exact ⟨fun _ => rfl, fun _ => rfl⟩
    clearers := fun u hu => by
      refine ⟨fun e => ?_, fun e => absurd (Option.some.inj e).symm hu⟩
      rcases hc with hc | hc <;> rw [hc] at e
      · cases e
      · exact absurd (Option.some.inj e).symm hu
    linked := by
      rintro p (hp | hp)
      · cases hp
      · exact ⟨(h.linked p (.inl hp)).1, .inr ⟨.inl hp, by rw [hlinked]; exact nofun⟩⟩
    thread := by
      rw [hplace]
      split
      · rename_i hnull
        exact (h.chain.eq_null_iff.mp hnull)
      · rename_i hhead
        exact ⟨hhead, h.chain⟩
    others := fun u hu => by
      have hnl : holdsQueue (s.pc u) = false := by
        rw [Bool.eq_false_iff, ne_eq, h.locker u, hl]
        exact nofun
      have hnc : holdsClear (s.pc u) = false := by
        rw [Bool.eq_false_iff, ne_eq, h.clearer u]
        rcases hc with hc | hc <;> rw [hc]
        · exact nofun
        · exact fun e => hu (Option.some.inj e).symm
      refine ⟨fun _ _ => rfl, fun _ _ _ => rfl, fun q _ => Or.imp_left ?_, ?_, ?_⟩
      · rintro (hq | hq)
        · exact .inr hq
        · rw [hcut] at hq
          cases hq
      · rw [hnl]
        exact nofun
      · rw [hnc]
        exact nofun }

omit [DecidableEq τ] in
/-- The list of the thread that walks it begins at the node it is about to unpark. -/
theorem Inv.walking {head newHead : Ptr} (h : Inv s g) (hpc : s.pc t = .walkUnpark head newHead) :
    ∃ l, g.cut = head :: l := by
  have ht := h.thread t
  rw [hpc] at ht
  obtain ⟨hhead, hchain, -⟩ := ht
  cases hg : g.cut with
  | nil =>
      rw [hg] at hchain
      exact absurd hchain hhead
  | cons x l =>
      rw [hg] at hchain
      exact ⟨l, by rw [hchain.1]⟩

/-- `unpark_all` wakes the thread of the first node of its list. -/
theorem Inv.wake {head newHead : Ptr} (h : Inv s g) (hpc : s.pc t = .walkUnpark head newHead) :
    Inv (s.moveTo t (s.mem.modify head ({ · with parker := true })) (walk newHead))
      { g with cut := g.cut.tail } := by
  have ht := h.thread t
  rw [hpc] at ht
  obtain ⟨hhead, hchain, hnew⟩ := ht
  obtain ⟨hclearer, hlocker⟩ := h.clearing (t := t) (by rw [hpc]; rfl)
  obtain ⟨l, hcut⟩ := h.walking hpc
  rw [hcut] at hchain
  have hnd := h.nodup
  rw [hcut] at hnd
  have hgone : head ∉ g.queue ∧ head ∉ l := by
    refine ⟨fun hm => (List.nodup_append.mp hnd).2.2 head hm head List.mem_cons_self rfl, ?_⟩
    exact (List.nodup_cons.mp (List.nodup_append.mp hnd).2.1).1
  have hnext : ∀ q, ((s.mem.modify head ({ · with parker := true })).node q).next =
      (s.mem.node q).next :=
    Mem.modify_keeps ThreadData.next fun _ => rfl
  have hrest : Chain null (nextOf (s.mem.modify head ({ · with parker := true })).node) newHead l := by
    rw [hnew]
    exact hchain.2.2.congr fun q _ => hnext q
  have hplace : walk newHead = if newHead = null then .reload else .walkNext newHead := rfl
  rw [hcut, List.tail_cons]
  exact h.step {
    queueLocked := h.queueLocked
    queueClear := h.queueClear
    exclusive := h.exclusive
    chain := h.chain.congr fun q _ => hnext q
    uncut := by
      rw [hclearer]
      exact nofun
    nodup := hnd.sublist (List.Sublist.append_left (List.sublist_cons_self head l) g.queue)
    locker := by
      rw [hlocker, hplace]
      split <;> exact ⟨nofun, nofun⟩
    lockers := fun _ _ => Iff.rfl
    clearer := by
      rw [hplace]
      split <;> exact ⟨fun _ => hclearer, fun _ => rfl⟩
    clearers := fun _ _ => Iff.rfl
    linked := by
      intro q hq
      have hne : q ≠ head := by
        rintro rfl
        exact hq.elim hgone.1 hgone.2
      have hg : g.Linked q := hq.imp_right fun hm => by
        rw [hcut]
        exact List.mem_cons_of_mem _ hm
      exact ⟨by rw [Mem.modify_node_of_ne _ hne]; exact (h.linked q hg).1,
        .inr ⟨hg, by rw [hpc]; exact nofun⟩⟩
    thread := by
      rw [hplace]
      split
      · rename_i hnull
        exact hrest.eq_null_iff.mp hnull
      · rename_i hne
        exact ⟨hne, hrest⟩
    others := fun u hu => by
      obtain ⟨-, w, hw⟩ := h.linked head (.inr (by rw [hcut]; exact List.mem_cons_self))
      have hsame : ∀ q, q ≠ head →
          (s.mem.modify head ({ · with parker := true })).node q = s.mem.node q :=
        fun q hq => Mem.modify_node_of_ne _ hq
      refine ⟨fun _ _ => rfl, fun q hq hl => hsame q ?_, fun q _ hl => ?_,
        fun _ => ⟨⟨[], rfl⟩, fun q _ => hnext q⟩, fun hc => ?_⟩
      · rintro rfl
        have huw := h.own_unique (ownNode_of_linkedNode hw) hq
        rw [huw, hw] at hl
        cases hl
      · by_cases hq : q = head
        · right
          rw [hq, Mem.modify_node_self]
        · rw [hsame q hq]
          refine hl.imp_left (Or.imp_right fun hm => ?_)
          rw [hcut] at hm
          exact (List.mem_cons.mp hm).resolve_left hq
      · rw [h.clearer u, hclearer] at hc
        exact absurd (Option.some.inj hc).symm hu }

/-! ## The search for a node -/

section Search

omit [DecidableEq τ]

/-- The places of the search for `p` under the queue lock. -/
structure Searching (m : Mem τ) (g : Ghost τ) (t : τ) (p : Ptr) (pc : Pc) : Prop where
  queue : holdsQueue pc = true
  clear : holdsClear pc = false
  linked : linkedNode pc = some p
  thread : ThreadInv m g t pc

/-- The search stands at its node or in front of it. -/
theorem searching_visit {counter : ℕ} {p prev : Ptr} {state : U64} {rest : List Ptr}
    (hf : Framed m t p) (hnull : ∀ q ∈ g.queue, q ≠ null)
    (hw : Walk null g.queue (queueHead state) prev rest) (hp : p ∈ rest) :
    Searching m g t p (visit counter p state prev (rest.headD null)) := by
  obtain ⟨u, hu⟩ := hw.split
  obtain ⟨x, rest, rfl⟩ : ∃ x l, rest = x :: l := List.exists_cons_of_ne_nil (List.ne_nil_of_mem hp)
  have hx : x ≠ null := hnull x (by rw [hu]; simp)
  rw [List.headD_cons, visit, if_neg hx]
  by_cases hpx : p = x
  · subst hpx
    rw [if_neg (fun hne => hne rfl)]
    by_cases hprev : prev = null
    · subst hprev
      rw [if_pos rfl]
      exact ⟨rfl, rfl, rfl, hf, by rw [hu]; simp, hw.at_start⟩
    · rw [if_neg hprev]
      obtain ⟨v, hv⟩ := hw.behind hprev
      exact ⟨rfl, rfl, rfl, hf, v, rest, hv⟩
  · rw [if_pos hpx]
    exact ⟨rfl, rfl, rfl, hf, prev, rest, hw, (List.mem_cons.mp hp).resolve_left hpx⟩

/-- The search begins at the head of the word's list. -/
theorem searching_outer {counter : ℕ} {p : Ptr} {state : U64} (hf : Framed m t p)
    (hchain : Chain null (nextOf m.node) (queueHead state) g.queue) (hp : p ∈ g.queue) :
    Searching m g t p (outer counter p state) := by
  rw [outer, hchain.head]
  exact searching_visit hf hchain.ne_null (Walk.start hchain) hp

end Search

/-! ## The bits -/

/-- The compare-exchange of `try_lock_queue!` takes `QUEUE_LOCKED_BIT`. -/
theorem Inv.lock {counter : ℕ} {p : Ptr} (h : Inv s g)
    (hpc : s.pc t = .abortLock counter p s.mem.word) (hp : (s.mem.node p).parker = false) :
    Inv (s.moveTo t (s.mem.store (s.mem.word ||| queueLockedBit)) (outer counter p s.mem.word))
      { g with locker := some t } := by
  have ht := h.thread t
  rw [hpc] at ht
  obtain ⟨hpushed, hgives⟩ := ht
  simp only [givesUp, Bool.or_eq_false_iff, decide_eq_false_iff_not] at hgives
  have hnl := h.locker_none hgives.1.1
  have hnc := h.clearer_none hgives.1.2
  have hmem : p ∈ g.queue := by
    rcases hpushed.linked with (hq | hc) | hp'
    · exact hq
    · rw [h.uncut hnc] at hc
      cases hc
    · rw [hp] at hp'
      cases hp'
  have hs : Searching (s.mem.store (s.mem.word ||| queueLockedBit)) { g with locker := some t } t p
      (outer counter p s.mem.word) :=
    searching_outer ⟨hpushed.frame, hpushed.addr⟩ h.chain hmem
  exact h.step {
    queueLocked := by simp
    queueClear := by
      rw [Mem.store_word, isQueueClear_or, isQueueClear_queueLockedBit, Bool.or_false]
      exact h.queueClear
    exclusive := .inr hnc
    chain := by
      rw [Mem.store_word, queueHead_or_queueLockedBit]
      exact h.chain
    uncut := h.uncut
    nodup := h.nodup
    locker := ⟨fun _ => rfl, fun _ => hs.queue⟩
    lockers := fun u hu => by
      rw [hnl]
      exact ⟨nofun, fun e => absurd (Option.some.inj e).symm hu⟩
    clearer := by
      rw [hs.clear, hnc]
      exact ⟨nofun, nofun⟩
    clearers := fun _ _ => Iff.rfl
    linked := fun q hq => ⟨(h.linked q hq).1, by
      rw [hs.linked, hpc]
      exact (Classical.em _).imp_right fun hne => ⟨hq, hne⟩⟩
    thread := hs.thread
    others := fun _ _ => .of_lists rfl rfl rfl rfl }

/-- `QUEUE_LOCKED_BIT` is given back after the removal of a node behind another. -/
theorem Inv.release {counter : ℕ} {p : Ptr} (h : Inv s g) (hpc : s.pc t = .midRelease counter p) :
    Inv (s.moveTo t (s.mem.store (s.mem.word &&& ~~~queueLockedBit)) (.unparkSelf counter p))
      { g with locker := none } := by
  obtain ⟨hl, hc, -⟩ := h.locked (t := t) (by rw [hpc]; rfl)
  have ht : Framed s.mem t p := (h.thread t).framed (by rw [hpc]; rfl)
  exact h.step {
    queueLocked := by simp
    queueClear := by
      rw [Mem.store_word, isQueueClear_and, isQueueClear_not, isQueueClear_queueLockedBit,
        Bool.not_false, Bool.and_true]
      exact h.queueClear
    exclusive := .inl rfl
    chain := by
      rw [Mem.store_word, queueHead_and_not_queueLockedBit]
      exact h.chain
    uncut := h.uncut
    nodup := h.nodup
    locker := ⟨nofun, nofun⟩
    lockers := fun u hu => by
      rw [hl]
      exact ⟨fun e => absurd (Option.some.inj e).symm hu, nofun⟩
    clearer := by
      rw [hc]
      exact ⟨nofun, nofun⟩
    clearers := fun _ _ => Iff.rfl
    linked := fun q hq => ⟨(h.linked q hq).1, .inr ⟨hq, by rw [hpc]; exact nofun⟩⟩
    thread := ⟨ht.frame, ht.addr⟩
    others := fun _ _ => .of_lists rfl rfl rfl rfl }

/-- `unpark_all` clears `QUEUE_CLEAR_BIT`. -/
theorem Inv.clear (h : Inv s g) (hpc : s.pc t = .clear) :
    Inv (s.moveTo t (s.mem.store (s.mem.word &&& ~~~queueClearBit)) .outside)
      { g with clearer := none } := by
  obtain ⟨hc, hl⟩ := h.clearing (t := t) (by rw [hpc]; rfl)
  have ht := h.thread t
  rw [hpc] at ht
  exact h.step {
    queueLocked := by
      rw [Mem.store_word, isQueueLocked_and, isQueueLocked_not, isQueueLocked_queueClearBit,
        Bool.not_false, Bool.and_true]
      exact h.queueLocked
    queueClear := by
      rw [Mem.store_word, isQueueClear_and, isQueueClear_not, isQueueClear_queueClearBit,
        Bool.not_true, Bool.and_false]
      rfl
    exclusive := .inr rfl
    chain := by
      rw [Mem.store_word, queueHead_and_not_queueClearBit]
      exact h.chain
    uncut := fun _ => ht
    nodup := h.nodup
    locker := by
      rw [hl]
      exact ⟨nofun, nofun⟩
    lockers := fun _ _ => Iff.rfl
    clearer := ⟨nofun, nofun⟩
    clearers := fun u hu => by
      rw [hc]
      exact ⟨fun e => absurd (Option.some.inj e).symm hu, nofun⟩
    linked := fun q hq => ⟨(h.linked q hq).1, .inr ⟨hq, by rw [hpc]; exact nofun⟩⟩
    thread := trivial
    others := fun _ _ => .of_lists rfl rfl rfl rfl }

/-! ## The removal of a node -/

omit [DecidableEq τ] in
/-- The other threads do not notice that the holder of the queue lock takes its node `p`
out and writes into the links of the list. -/
theorem Inv.unnoticed_removal {p : Ptr} {l : List Ptr} (h : Inv s g)
    (ht : holdsQueue (s.pc t) = true) (hp : linkedNode (s.pc t) = some p)
    (hframe : m'.frame = s.mem.frame)
    (hparker : ∀ q, (m'.node q).parker = (s.mem.node q).parker)
    (hnode : ∀ q, ¬ g.Linked q → m'.node q = s.mem.node q)
    (hqueue : ∀ q, q ∈ g.queue → q = p ∨ q ∈ l) {o : Option τ} (hg : g' = ⟨o, none, l, []⟩)
    (u : τ) (hu : u ≠ t) : Unnoticed s.mem m' g g' (s.pc u) := by
  obtain ⟨hl, hc, hcut⟩ := h.locked ht
  refine ⟨fun q _ => by rw [hframe], fun q hq hlq => hnode q ?_, fun q hq => ?_, fun hh => ?_,
    fun hh => ?_⟩
  · exact h.not_linked hq (by rw [hlq]; exact nofun)
  · rw [hparker q]
    refine Or.imp_left fun hgq => .inl ?_
    rw [hg]
    refine (hqueue q ?_).resolve_left ?_
    · refine hgq.resolve_right fun hm => ?_
      rw [hcut] at hm
      cases hm
    · rintro rfl
      exact hu (h.own_unique (ownNode_of_linkedNode hp) (ownNode_of_linkedNode hq))
  · rw [h.locker u, hl] at hh
    exact absurd (Option.some.inj hh).symm hu
  · rw [h.clearer u, hc] at hh
    cases hh

/-- The compare-exchange of `abort_self` takes the head off. -/
theorem Inv.unlinkHead {counter : ℕ} {p newHead : Ptr} (h : Inv s g)
    (hpc : s.pc t = .headCas counter p s.mem.word newHead) :
    ∃ g', Inv (s.moveTo t (s.mem.store (setQueueHead s.mem.word newHead &&& ~~~queueLockedBit))
      (.unparkSelf counter p)) g' ∧ g'.clearer = g.clearer ∧ g'.queue = g.queue.erase p ∧
      g'.cut = g.cut := by
  have ht := h.thread t
  rw [hpc] at ht
  obtain ⟨hf, hp, hhead, hnew⟩ := ht
  obtain ⟨hl, hc, hcut⟩ := h.locked (t := t) (by rw [hpc]; rfl)
  have hchain := h.chain
  obtain ⟨x, l, hq⟩ : ∃ x l, g.queue = x :: l := List.exists_cons_of_ne_nil (List.ne_nil_of_mem hp)
  rw [hq] at hchain
  obtain rfl : p = x := hhead.trans hchain.1
  have hrest : Chain null (nextOf s.mem.node) newHead l := by
    rw [hnew]
    exact hchain.2.2
  have hnd := h.nodup
  rw [hq] at hnd
  have hnot : p ∉ l := fun hm => (List.nodup_cons.mp hnd).1 (List.mem_append_left _ hm)
  have halign : newHead &&& queueMask = newHead := by
    cases hl' : l with
    | nil =>
        rw [show newHead = null by rw [hrest.head, hl']; rfl]
        decide
    | cons y l' =>
        have hy : g.Linked y := .inl (by rw [hq, hl']; simp)
        rw [show newHead = y by rw [hrest.head, hl']; rfl]
        exact (h.addr hy).aligned
  obtain ⟨hset, hlock, -, -⟩ := setQueueHead_projections s.mem.word halign
  refine ⟨⟨none, none, l, []⟩, h.step {
    queueLocked := by simp
    queueClear := by
      rw [Mem.store_word, isQueueClear_and, isQueueClear_not, isQueueClear_queueLockedBit,
        Bool.not_false, Bool.and_true, isQueueClear_eq_isLocked, hlock,
        ← isQueueClear_eq_isLocked, h.queueClear, hc]
    exclusive := .inl rfl
    chain := by
      rw [Mem.store_word, queueHead_and_not_queueLockedBit, hset]
      exact hrest
    uncut := fun _ => rfl
    nodup := by
      rw [List.append_nil]
      exact (List.nodup_append.mp hnd).1.of_cons
    locker := ⟨nofun, nofun⟩
    lockers := fun u hu => by
      rw [hl]
      exact ⟨fun e => absurd (Option.some.inj e).symm hu, nofun⟩
    clearer := ⟨nofun, nofun⟩
    clearers := fun u _ => by rw [hc]
    linked := ?_
    thread := ⟨hf.frame, hf.addr⟩
    others := h.unnoticed_removal (t := t) (p := p) (l := l) (by rw [hpc]; rfl) (by rw [hpc]; rfl)
      rfl (fun _ => rfl) (fun _ _ => rfl) (fun q hm => by rwa [hq, List.mem_cons] at hm) rfl },
    hc.symm, by rw [hq, List.erase_cons_head], hcut.symm⟩
  rintro q (hm | hm)
  · refine ⟨(h.linked q (.inl ?_)).1, .inr ⟨.inl ?_, ?_⟩⟩
    · rw [hq]
      exact List.mem_cons_of_mem _ hm
    · rw [hq]
      exact List.mem_cons_of_mem _ hm
    · rw [hpc]
      rintro e
      cases e
      exact hnot hm
  · cases hm

/-- `abort_self` redirects the link of the node before its own. -/
theorem Inv.unlinkMid {counter : ℕ} {p prev next : Ptr} (h : Inv s g)
    (hpc : s.pc t = .midWrite counter p prev next) :
    ∃ g', Inv (s.moveTo t (s.mem.modify prev ({ · with next := next })) (.midRelease counter p))
      g' ∧ g'.clearer = g.clearer ∧ g'.queue = g.queue.erase p ∧ g'.cut = g.cut := by
  have ht := h.thread t
  rw [hpc] at ht
  obtain ⟨hf, ⟨u, v, hq⟩, hnext⟩ := ht
  obtain ⟨hl, hc, hcut⟩ := h.locked (t := t) (by rw [hpc]; rfl)
  have hnd : (u ++ prev :: p :: v).Nodup := hq ▸ (List.nodup_append.mp h.nodup).1
  have hsub : (u ++ prev :: v).Sublist (u ++ prev :: p :: v) :=
    ((List.sublist_cons_self p v).cons_cons prev).append_left u
  have hprev : g.Linked prev := .inl (by rw [hq]; simp)
  have hparker : ∀ q, ((s.mem.modify prev ({ · with next := next })).node q).parker =
      (s.mem.node q).parker :=
    Mem.modify_keeps ThreadData.parker fun _ => rfl
  have hnot : p ∉ u ++ prev :: v := by
    rw [show u ++ prev :: p :: v = (u ++ [prev]) ++ p :: v by simp, List.nodup_middle] at hnd
    simpa using (List.nodup_cons.mp hnd).1
  refine ⟨⟨some t, none, u ++ prev :: v, []⟩, h.step {
    queueLocked := by rw [Mem.modify_word, h.queueLocked, hl]
    queueClear := by rw [Mem.modify_word, h.queueClear, hc]
    exclusive := .inr rfl
    chain := by
      rw [nextOf_modify, hnext]
      exact Chain.unlink (hq ▸ h.chain) hnd
    uncut := fun _ => rfl
    nodup := by
      rw [List.append_nil]
      exact hnd.sublist hsub
    locker := ⟨fun _ => rfl, fun _ => rfl⟩
    lockers := fun _ _ => by rw [hl]
    clearer := ⟨nofun, nofun⟩
    clearers := fun _ _ => by rw [hc]
    linked := ?_
    thread := ⟨hf.frame, hf.addr⟩
    others := h.unnoticed_removal (t := t) (p := p) (l := u ++ prev :: v) (by rw [hpc]; rfl)
      (by rw [hpc]; rfl) rfl hparker ?_ ?_ rfl }, hc.symm, ?_, hcut.symm⟩
  · rintro q (hm | hm)
    · have hgq : g.Linked q := .inl (by rw [hq]; exact hsub.subset hm)
      refine ⟨by rw [hparker]; exact (h.linked q hgq).1, .inr ⟨hgq, ?_⟩⟩
      rw [hpc]
      rintro e
      cases e
      exact hnot hm
    · cases hm
  · rintro q hnl
    refine Mem.modify_node_of_ne _ ?_
    rintro rfl
    exact hnl hprev
  · intro q hm
    rw [hq] at hm
    simp only [List.mem_append, List.mem_cons] at hm ⊢
    tauto
  · rw [show u ++ prev :: v = (u ++ [prev]) ++ v by simp, List.mem_append, not_or] at hnot
    rw [hq, show u ++ prev :: p :: v = (u ++ [prev]) ++ p :: v by simp,
      List.erase_append_right _ hnot.1, List.erase_cons_head]
    simp

/-- `abort_self` writes the `queue_tail` field of the second node. -/
theorem Inv.writeTail {counter : ℕ} {p newHead tail : Ptr} {state : U64} (h : Inv s g)
    (hpc : s.pc t = .writeTail counter p state newHead tail) :
    Inv (s.moveTo t (s.mem.modify newHead ({ · with queueTail := tail }))
      (.headCas counter p state newHead)) g := by
  have ht := h.thread t
  rw [hpc] at ht
  obtain ⟨hf, hp, hhead, hnew, hmem⟩ := ht
  obtain ⟨hl, hc, hcut⟩ := h.locked (t := t) (by rw [hpc]; rfl)
  have hnext : ∀ q, ((s.mem.modify newHead ({ · with queueTail := tail })).node q).next =
      (s.mem.node q).next :=
    Mem.modify_keeps ThreadData.next fun _ => rfl
  have hparker : ∀ q, ((s.mem.modify newHead ({ · with queueTail := tail })).node q).parker =
      (s.mem.node q).parker :=
    Mem.modify_keeps ThreadData.parker fun _ => rfl
  have hother : ∀ q, ¬ g.Linked q →
      (s.mem.modify newHead ({ · with queueTail := tail })).node q = s.mem.node q := by
    intro q hnl
    refine Mem.modify_node_of_ne _ ?_
    rintro rfl
    exact hnl (.inl hmem)
  have hlocker := h.locker t
  have hclearer := h.clearer t
  rw [hpc] at hlocker hclearer
  exact h.step {
    queueLocked := h.queueLocked
    queueClear := h.queueClear
    exclusive := h.exclusive
    chain := h.chain.congr fun q _ => hnext q
    uncut := h.uncut
    nodup := h.nodup
    locker := hlocker
    lockers := fun _ _ => Iff.rfl
    clearer := hclearer
    clearers := fun _ _ => Iff.rfl
    linked := fun q hq => ⟨by rw [hparker]; exact (h.linked q hq).1, by
      rw [hpc]
      exact (Classical.em _).imp_right fun hne => ⟨hq, hne⟩⟩
    thread := ⟨⟨hf.frame, hf.addr⟩, hp, hhead, hnew.trans (hnext p).symm⟩
    others := h.unnoticed_removal (t := t) (p := p) (l := g.queue) (by rw [hpc]; rfl)
      (by rw [hpc]; rfl) rfl hparker hother (fun q hm => .inr hm) (o := g.locker)
      (by rw [← hc, ← hcut]) }

end Mekong.Analysis.ParkingQueue
