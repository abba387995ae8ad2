import Mekong.Analysis.ParkingQueueSteps

/-!
# Every step of `ParkingQueue` whose aborts are in time keeps the invariant

Place by place, in the order of the source. The invariant holds as long as `abort_self`
neither gives up while its node is still in a list nor goes for the queue lock after its
node has left the lists: `abortsInTime` is this condition on the state before a step of
`try_lock_queue!`.
-/

set_option autoImplicit false

namespace Mekong.Analysis.ParkingQueue

open Mekong.Computation Mekong.Computation.NextChain Mekong.Model Mekong.Program.ParkingQueue

variable {τ : Type} [DecidableEq τ] {s : State τ} {g : Ghost τ} {t : τ} {pc pc' : Pc} {c : Choice}
  {r : Mem τ × Pc × List (Event τ)}

/-! ## Conditions on steps -/

/-- `with_thread_data` hands out a node just built, as on Linux, Windows and macOS.
SOURCE: auxiliary.rs:663-675 -/
def fresh (τ : Type) : Guard (State τ) (τ × Choice) (Event τ) :=
  fun _ _ i => i.2.leftover = ThreadData.new

/-- At `pc`, `abort_self` gives up only with a notified node, and takes the queue lock
only with one that is not notified. -/
def abortInTime {τ : Type} (spurious : Bool) (m : Mem τ) : Pc → Bool
  | .abortLoad _ p => !givesUp m.word || (m.node p).parker
  | .abortLock _ p state =>
    match compareExchangeWeak spurious m.word state with
    | .ok => !(m.node p).parker
    | .err actual => !givesUp actual || (m.node p).parker
  | _ => true

/-- The node handed out is as good as new: it has no notification, and no link that the
writes before the push leave in place. -/
def Clean (state : U64) (leftover : ThreadData) : Prop :=
  leftover.parker = false ∧ (queueHead state = null → leftover.next = null)

/-- A new node is clean. -/
theorem clean_new (state : U64) : Clean state ThreadData.new := ⟨rfl, fun _ => rfl⟩

/-- A node kept between calls is handed out clean, and aborts are in time. -/
def cleanInTime (τ : Type) : Guard (State τ) (τ × Choice) (Event τ) := fun s _ i =>
  (∀ counter state, s.pc i.1 = .withThreadData counter state → Clean state i.2.leftover) ∧
    abortInTime i.2.spurious s.mem (s.pc i.1) = true

/-- Nodes are fresh and aborts are in time. -/
def abortsInTime (τ : Type) : Guard (State τ) (τ × Choice) (Event τ) :=
  fun s log i => fresh τ s log i ∧ abortInTime i.2.spurious s.mem (s.pc i.1) = true

/-! ## Steps on the thread's own node -/

/-- What a place says about the two bits and the lists. -/
def role (pc : Pc) : Bool × Bool × Option Ptr := (holdsQueue pc, holdsClear pc, linkedNode pc)

/-- A step that changes nothing shared, between two places of one role. -/
theorem Inv.moveFrom (h : Inv s g) (hpc : s.pc t = pc) (hrole : role pc' = role pc)
    (ht : ThreadInv s.mem g t pc') : Inv (s.moveTo t s.mem pc') g := by
  subst hpc
  simp only [role, Prod.mk.injEq] at hrole
  exact h.move hrole.1 hrole.2.1 hrole.2.2 ht

/-- A write into a node before its push. -/
theorem Inv.writeOwn {p : Ptr} {f : ThreadData → ThreadData} (h : Inv s g) (hpc : s.pc t = pc)
    (hp : ownNode pc = some p) (hrole : role pc = (false, false, none))
    (hrole' : role pc' = (false, false, none)) (ht : ThreadInv (s.mem.modify p f) g t pc') :
    Inv (s.moveTo t (s.mem.modify p f) pc') g := by
  subst hpc
  simp only [role, Prod.mk.injEq] at hrole hrole'
  refine h.touch (h.not_linked hp (by rw [hrole.2.2]; exact nofun)) (fun u hu e => ?_) rfl
    (fun q hq => Mem.modify_node_of_ne _ hq) (fun _ _ => rfl) (by rw [hrole.1, hrole'.1])
    (by rw [hrole.2.1, hrole'.2.1]) (fun q e => ?_) ht
  · exact hu (h.own_unique hp e)
  · rw [hrole.2.2] at e
    cases e

/-- `with_thread_data` returns while its node is in none of the lists. -/
theorem Inv.leave {p : Ptr} {counter : ℕ} (f : ThreadData → ThreadData) (h : Inv s g)
    (hpc : s.pc t = pc) (hp : ownNode pc = some p) (hnot : ¬ g.Linked p)
    (hq : holdsQueue pc = false) (hc : holdsClear pc = false) :
    Inv (s.moveTo t ((s.mem.modify p f).free p) (.retry counter)) g := by
  subst hpc
  refine h.touch hnot (fun u hu e => hu (h.own_unique hp e)) rfl
    (fun q hq => Mem.modify_node_of_ne _ hq) (fun q hq => Mem.free_frame_of_ne hq) hq.symm hc.symm
    (fun q e => ?_) trivial
  have he := ownNode_of_linkedNode e
  rw [hp] at he
  exact (Option.some.inj he).symm

/-- The same without a last write. -/
theorem Inv.leave' {p : Ptr} {counter : ℕ} (h : Inv s g) (hpc : s.pc t = pc)
    (hp : ownNode pc = some p) (hnot : ¬ g.Linked p) (hq : holdsQueue pc = false)
    (hc : holdsClear pc = false) : Inv (s.moveTo t (s.mem.free p) (.retry counter)) g := by
  have hid : s.mem.modify p id = s.mem := by rw [Mem.modify, id_eq, Function.update_eq_self]
  rw [← hid]
  exact h.leave id hpc hp hnot hq hc

/-- A node is born, or comes into use again. -/
theorem Inv.alloc {counter : ℕ} {state : U64} {p : Ptr} {leftover : ThreadData} (h : Inv s g)
    (hpc : s.pc t = .withThreadData counter state) (hp : IsNodeAddr p)
    (hf : s.mem.frame p = none) (hclean : Clean state leftover) :
    Inv (s.moveTo t (s.mem.alloc p t leftover) (.setToken counter state p)) g := by
  refine h.touch (h.not_linked_of_frame hf) (fun u _ e => ?_) rfl
    (fun q hq => Mem.alloc_node_of_ne _ _ hq) (fun q hq => Mem.alloc_frame_of_ne _ _ hq)
    (by rw [hpc]; rfl) (by rw [hpc]; rfl) (fun q e => ?_) ?_
  · have he := ((h.thread u).framed e).frame
    rw [hf] at he
    cases he
  · rw [hpc] at e
    cases e
  · exact ⟨⟨⟨Mem.alloc_frame_self t _, hp⟩, by rw [Mem.alloc_node_self]; exact hclean.1⟩,
      by rw [Mem.alloc_node_self]; exact hclean.2⟩

/-! ## Place by place -/

/-- The result `r` of a step of `t` keeps the invariant, and reports what it does to the
lists. -/
def Advance (s : State τ) (g : Ghost τ) (t : τ) (r : Mem τ × Pc × List (Event τ)) : Prop :=
  ∃ g', Inv (s.moveTo t r.1 r.2.1) g' ∧ Effect t (s.pc t) g g' r.2.2

/-- A step advances if the invariant holds after it of some ghost with this effect. -/
theorem Advance.intro {m' : Mem τ} {g' : Ghost τ} {es : List (Event τ)}
    (h : Inv (s.moveTo t m' pc') g') (he : Effect t (s.pc t) g g' es) :
    Advance s g t (m', pc', es) :=
  ⟨g', h, he⟩

/-- A step that leaves the ghost as it is. -/
theorem Advance.stay {m' : Mem τ} {es : List (Event τ)} (h : Inv (s.moveTo t m' pc') g)
    (hes : es.all (!movesList ·) = true) : Advance s g t (m', pc', es) :=
  ⟨g, h, .quiet rfl rfl rfl hes⟩

section Park

variable {counter : ℕ} {state : U64} {p : Ptr}

omit [DecidableEq τ] in
/-- A node before its push is written field by field. -/
theorem Unpushed.write {m : Mem τ} {f : ThreadData → ThreadData} (h : Unpushed m t p)
    (hf : ∀ d : ThreadData, (f d).parker = d.parker) : Unpushed (m.modify p f) t p :=
  ⟨⟨h.frame, h.addr⟩, by rw [Mem.modify_node_self, hf]; exact h.parker⟩

/-- The beginning of a call keeps the invariant. -/
theorem step_outside (h : Inv s g) (hpc : s.pc t = .outside)
    (hr : threadStep t c s.mem .outside = some r) : Advance s g t r := by
  simp only [threadStep] at hr
  split at hr <;> cases hr
  · exact .stay (h.moveFrom hpc rfl trivial) rfl
  · exact .stay (h.moveFrom hpc rfl trivial) rfl

/-- The first call of `retry` keeps the invariant. -/
theorem step_retry (h : Inv s g) (hpc : s.pc t = .retry counter)
    (hr : threadStep t c s.mem (.retry counter) = some r) : Advance s g t r := by
  simp only [threadStep] at hr
  split at hr
  · cases hr
    exact .stay (h.moveFrom hpc rfl trivial) rfl
  split at hr <;> cases hr
  · exact .stay (h.moveFrom hpc rfl trivial) rfl
  · exact .stay (h.moveFrom hpc rfl trivial) rfl

/-- The load before the push keeps the invariant. -/
theorem step_load (h : Inv s g) (hpc : s.pc t = .load counter)
    (hr : threadStep t c s.mem (.load counter) = some r) : Advance s g t r := by
  cases hr
  exact .stay (h.moveFrom hpc rfl trivial) rfl

/-- A node handed out clean keeps the invariant. -/
theorem step_withThreadData (h : Inv s g) (hpc : s.pc t = .withThreadData counter state)
    (hclean : Clean state c.leftover)
    (hr : threadStep t c s.mem (.withThreadData counter state) = some r) : Advance s g t r := by
  simp only [threadStep] at hr
  split at hr
  · rename_i haddr
    cases hr
    exact .stay (h.alloc hpc haddr.1 (Option.isNone_iff_eq_none.mp haddr.2) hclean) rfl
  · cases hr

/-- The write of the token keeps the invariant. -/
theorem step_setToken (h : Inv s g) (hpc : s.pc t = .setToken counter state p)
    (hr : threadStep t c s.mem (.setToken counter state p) = some r) : Advance s g t r := by
  have ht := h.thread t
  rw [hpc] at ht
  cases hr
  refine .stay (h.writeOwn hpc rfl rfl rfl ?_) rfl
  exact ⟨ht.1.write fun _ => rfl, by rw [Mem.modify_node_self]; exact ht.2⟩

/-- The write of `queue_tail` keeps the invariant. -/
theorem step_setTail (h : Inv s g) (hpc : s.pc t = .setTail counter state p)
    (hr : threadStep t c s.mem (.setTail counter state p) = some r) : Advance s g t r := by
  have ht := h.thread t
  rw [hpc] at ht
  cases hr
  refine .stay (h.writeOwn hpc rfl rfl rfl ?_) rfl
  exact ⟨ht.1.write fun _ => rfl, by rw [Mem.modify_node_self]; exact ht.2⟩

/-- The write of `prev` keeps the invariant. -/
theorem step_setPrev (h : Inv s g) (hpc : s.pc t = .setPrev counter state p)
    (hr : threadStep t c s.mem (.setPrev counter state p) = some r) : Advance s g t r := by
  have ht := h.thread t
  rw [hpc] at ht
  cases hr
  have hw : Unpushed (s.mem.modify p ({ · with prev := null })) t p := ht.1.write fun _ => rfl
  by_cases hhead : queueHead state = null
  · rw [if_pos hhead]
    refine .stay (h.writeOwn hpc rfl rfl rfl ?_) rfl
    exact ⟨hw, by rw [Mem.modify_node_self, hhead]; exact ht.2 hhead⟩
  · rw [if_neg hhead]
    refine .stay (h.writeOwn hpc rfl rfl rfl ?_) rfl
    exact hw

/-- The write of `next` keeps the invariant. -/
theorem step_setNext (h : Inv s g) (hpc : s.pc t = .setNext counter state p)
    (hr : threadStep t c s.mem (.setNext counter state p) = some r) : Advance s g t r := by
  have ht : Unpushed s.mem t p := by
    have ht := h.thread t
    rwa [hpc] at ht
  cases hr
  refine .stay (h.writeOwn hpc rfl rfl rfl ?_) rfl
  exact ⟨ht.write fun _ => rfl, by rw [Mem.modify_node_self]⟩

/-- The push keeps the invariant. -/
theorem step_push (h : Inv s g) (hpc : s.pc t = .push counter state p)
    (hr : threadStep t c s.mem (.push counter state p) = some r) : Advance s g t r := by
  simp only [threadStep] at hr
  split at hr
  · rename_i hcas
    cases hr
    obtain rfl := compareExchangeWeak_ok hcas
    exact .intro (h.push hpc) (.pushed (by rw [hpc]; rfl) rfl rfl rfl)
  · cases hr
    have hnot : ¬ g.Linked p :=
      h.not_linked (t := t) (by rw [hpc]; rfl) (by rw [hpc]; exact nofun)
    exact .stay (h.leave' hpc rfl hnot rfl rfl) rfl

/-- The second call of `retry` keeps the invariant. -/
theorem step_retryAgain (h : Inv s g) (hpc : s.pc t = .retryAgain counter p)
    (hr : threadStep t c s.mem (.retryAgain counter p) = some r) : Advance s g t r := by
  have ht := h.thread t
  rw [hpc] at ht
  cases hr
  cases hretry : c.retry
  · exact .stay (h.moveFrom hpc rfl ht) rfl
  · exact .stay (h.moveFrom hpc rfl ht) rfl

/-- The wait for a notification keeps the invariant. -/
theorem step_park (h : Inv s g) (hpc : s.pc t = .park counter p)
    (hr : threadStep t c s.mem (.park counter p) = some r) : Advance s g t r := by
  simp only [threadStep] at hr
  split at hr
  · rename_i hparker
    cases hr
    exact .stay (h.leave _ hpc rfl (h.not_linked_of_parker hparker) rfl rfl) rfl
  · cases hr

end Park

section Abort

variable {counter : ℕ} {state : U64} {p : Ptr}

/-- `try_lock_queue!` gives up with a notified node. -/
theorem Inv.giveUp {state : U64} (h : Inv s g) (hpc : s.pc t = pc) (hp : ownNode pc = some p)
    (hrole : role pc = (false, false, some p)) (hgives : givesUp state = true)
    (hok : (!givesUp state || (s.mem.node p).parker) = true) :
    Inv (s.moveTo t (s.mem.free p) (.retry counter)) g := by
  simp only [role, Prod.mk.injEq] at hrole
  refine h.leave' hpc hp (h.not_linked_of_parker ?_) hrole.1 hrole.2.1
  rwa [hgives] at hok

/-- A load in time at the start of `abort_self` keeps the invariant. -/
theorem step_abortLoad (h : Inv s g) (hpc : s.pc t = .abortLoad counter p)
    (hok : abortInTime c.spurious s.mem (.abortLoad counter p) = true)
    (hr : threadStep t c s.mem (.abortLoad counter p) = some r) : Advance s g t r := by
  have ht := h.thread t
  rw [hpc] at ht
  simp only [threadStep] at hr
  split at hr <;> rename_i hgives <;> cases hr
  · exact .stay (h.giveUp hpc rfl rfl hgives hok) rfl
  · exact .stay (h.moveFrom hpc rfl ⟨ht, Bool.not_eq_true _ ▸ hgives⟩) rfl

/-- A queue lock taken in time keeps the invariant. -/
theorem step_abortLock (h : Inv s g) (hpc : s.pc t = .abortLock counter p state)
    (hok : abortInTime c.spurious s.mem (.abortLock counter p state) = true)
    (hr : threadStep t c s.mem (.abortLock counter p state) = some r) : Advance s g t r := by
  have ht := h.thread t
  rw [hpc] at ht
  simp only [threadStep] at hr
  simp only [abortInTime] at hok
  split at hr <;> rename_i hcas <;> rw [hcas] at hok
  · cases hr
    obtain rfl := compareExchangeWeak_ok hcas
    exact .intro (h.lock hpc ((Bool.not_eq_true' _).mp hok)) (.quiet rfl rfl rfl rfl)
  · split at hr <;> rename_i hgives <;> cases hr
    · exact .stay (h.giveUp hpc rfl rfl hgives hok) rfl
    · exact .stay (h.moveFrom hpc rfl ⟨ht.1, Bool.not_eq_true _ ▸ hgives⟩) rfl

/-- A step of the search to another of its places. -/
theorem Inv.search (h : Inv s g) (hpc : s.pc t = pc) (hrole : role pc = (true, false, some p))
    (hs : Searching s.mem g t p pc') : Inv (s.moveTo t s.mem pc') g := by
  refine h.moveFrom hpc ?_ hs.thread
  rw [hrole, role, hs.queue, hs.clear, hs.linked]

/-- A step of the search keeps the invariant. -/
theorem step_scanNext {curr : Ptr} (h : Inv s g) (hpc : s.pc t = .scanNext counter p state curr)
    (hr : threadStep t c s.mem (.scanNext counter p state curr) = some r) : Advance s g t r := by
  have ht := h.thread t
  rw [hpc] at ht
  obtain ⟨hf, prev, rest, hw, hp⟩ := ht
  obtain ⟨u, hu⟩ := hw.split
  have hnext : (s.mem.node curr).next = rest.headD null := (hu ▸ h.chain).next_eq
  cases hr
  rw [hnext]
  have hcurr : curr ≠ null := h.chain.ne_null curr (by rw [hu]; simp)
  exact .stay (h.search hpc rfl (searching_visit hf h.chain.ne_null (hw.advance hcurr) hp)) rfl

/-- The read of the link at the head keeps the invariant. -/
theorem step_headNext (h : Inv s g) (hpc : s.pc t = .headNext counter p state)
    (hr : threadStep t c s.mem (.headNext counter p state) = some r) : Advance s g t r := by
  have ht := h.thread t
  rw [hpc] at ht
  obtain ⟨hf, hp, hhead⟩ := ht
  cases hr
  by_cases hnull : (s.mem.node p).next = null
  · rw [if_pos hnull]
    exact .stay (h.moveFrom hpc rfl ⟨hf, hp, hhead, rfl⟩) rfl
  · rw [if_neg hnull]
    refine .stay (h.moveFrom hpc rfl ⟨hf, hp, hhead, rfl, ?_⟩) rfl
    refine h.chain.reach_iff.mp (Reach.trans (h.chain.reach_iff.mpr hp) ?_)
    exact .step (h.addr (.inl hp)).ne_null (.here hnull)

/-- The read of the tail at the head keeps the invariant. -/
theorem step_readTail {newHead : Ptr} (h : Inv s g)
    (hpc : s.pc t = .readTail counter p state newHead)
    (hr : threadStep t c s.mem (.readTail counter p state newHead) = some r) : Advance s g t r := by
  have ht := h.thread t
  rw [hpc] at ht
  cases hr
  exact .stay (h.moveFrom hpc rfl ht) rfl

/-- The write of the tail to the next head keeps the invariant. -/
theorem step_writeTail {newHead tail : Ptr} (h : Inv s g)
    (hpc : s.pc t = .writeTail counter p state newHead tail)
    (hr : threadStep t c s.mem (.writeTail counter p state newHead tail) = some r) :
    Advance s g t r := by
  cases hr
  exact .stay (h.writeTail hpc) rfl

/-- The removal of the head keeps the invariant. -/
theorem step_headCas {newHead : Ptr} (h : Inv s g)
    (hpc : s.pc t = .headCas counter p state newHead)
    (hr : threadStep t c s.mem (.headCas counter p state newHead) = some r) : Advance s g t r := by
  have ht := h.thread t
  rw [hpc] at ht
  simp only [threadStep] at hr
  split at hr <;> rename_i hcas <;> cases hr
  · obtain rfl := compareExchangeWeak_ok hcas
    obtain ⟨g', hg', hclearer, hq, hc⟩ := h.unlinkHead hpc
    exact .intro hg' (.removed (by rw [hpc]; rfl) (by rw [hpc]; rfl) hclearer hq hc rfl)
  · obtain rfl := compareExchangeWeak_err hcas
    exact .stay (h.search hpc rfl (searching_outer ht.1 h.chain ht.2.1)) rfl

/-- The read of the link of a node further back keeps the invariant. -/
theorem step_midNext {prev : Ptr} (h : Inv s g) (hpc : s.pc t = .midNext counter p prev)
    (hr : threadStep t c s.mem (.midNext counter p prev) = some r) : Advance s g t r := by
  have ht := h.thread t
  rw [hpc] at ht
  cases hr
  exact .stay (h.moveFrom hpc rfl ⟨ht.1, ht.2, rfl⟩) rfl

/-- The removal of a node further back keeps the invariant. -/
theorem step_midWrite {prev next : Ptr} (h : Inv s g)
    (hpc : s.pc t = .midWrite counter p prev next)
    (hr : threadStep t c s.mem (.midWrite counter p prev next) = some r) : Advance s g t r := by
  cases hr
  obtain ⟨g', hg', hclearer, hq, hc⟩ := h.unlinkMid hpc
  exact .intro hg' (.removed (by rw [hpc]; rfl) (by rw [hpc]; rfl) hclearer hq hc rfl)

/-- The release of the queue lock keeps the invariant. -/
theorem step_midRelease (h : Inv s g) (hpc : s.pc t = .midRelease counter p)
    (hr : threadStep t c s.mem (.midRelease counter p) = some r) : Advance s g t r := by
  cases hr
  exact .intro (h.release hpc) (.quiet rfl rfl rfl rfl)

/-- The notification of the own node keeps the invariant. -/
theorem step_unparkSelf (h : Inv s g) (hpc : s.pc t = .unparkSelf counter p)
    (hr : threadStep t c s.mem (.unparkSelf counter p) = some r) : Advance s g t r := by
  cases hr
  have hnot : ¬ g.Linked p :=
    h.not_linked (t := t) (by rw [hpc]; rfl) (by rw [hpc]; exact nofun)
  exact .stay (h.leave _ hpc rfl hnot rfl rfl) rfl

end Abort

section UnparkAll

variable {counter : ℕ} {state : U64}

/-- The head of the first loop of `unpark_all`. -/
theorem Inv.unparkAllLoop (h : Inv s g) (hpc : s.pc t = pc) (hrole : role pc = (false, false, none))
    (state : U64) : Inv (s.moveTo t s.mem (unparkAllLoop counter state)) g := by
  unfold Program.ParkingQueue.unparkAllLoop
  split
  · exact h.moveFrom hpc hrole.symm trivial
  split
  · exact h.moveFrom hpc hrole.symm trivial
  · rename_i hclear hlocked
    exact h.moveFrom hpc hrole.symm
      ⟨Bool.not_eq_true _ ▸ hclear, Bool.not_eq_true _ ▸ hlocked⟩

/-- The load of `unpark_all` keeps the invariant. -/
theorem step_unparkAll (h : Inv s g) (hpc : s.pc t = .unparkAll counter)
    (hr : threadStep t c s.mem (.unparkAll counter) = some r) : Advance s g t r := by
  cases hr
  exact .stay (h.unparkAllLoop hpc rfl _) (by split <;> rfl)

/-- The cut keeps the invariant. -/
theorem step_cut (h : Inv s g) (hpc : s.pc t = .cut counter state)
    (hr : threadStep t c s.mem (.cut counter state) = some r) : Advance s g t r := by
  have ht := h.thread t
  rw [hpc] at ht
  simp only [threadStep] at hr
  split at hr <;> rename_i hcas <;> cases hr
  · obtain rfl := compareExchangeWeak_ok hcas
    have hnc := h.clearer_none ht.1
    refine .intro (h.cut (h.locker_none ht.2) (.inl hnc) (h.uncut hnc) (by rw [hpc]; rfl)) ?_
    exact .cut (.inl hnc) rfl (h.uncut hnc) rfl rfl
  · exact .stay (h.unparkAllLoop hpc rfl _) (by split <;> rfl)

/-- The read before a notification keeps the invariant. -/
theorem step_walkNext {head : Ptr} (h : Inv s g) (hpc : s.pc t = .walkNext head)
    (hr : threadStep t c s.mem (.walkNext head) = some r) : Advance s g t r := by
  have ht := h.thread t
  rw [hpc] at ht
  cases hr
  exact .stay (h.moveFrom hpc rfl ⟨ht.1, ht.2, rfl⟩) rfl

/-- The notification of a node that is cut off keeps the invariant. -/
theorem step_walkUnpark {head newHead : Ptr} (h : Inv s g)
    (hpc : s.pc t = .walkUnpark head newHead)
    (hr : threadStep t c s.mem (.walkUnpark head newHead) = some r) : Advance s g t r := by
  cases hr
  obtain ⟨l, hcut⟩ := h.walking hpc
  obtain ⟨hclearer, -⟩ := h.clearing (t := t) (by rw [hpc]; rfl)
  exact .intro (h.wake hpc) (.unparked hclearer rfl rfl (by rw [hcut]; rfl))

/-- The load after the walk keeps the invariant. -/
theorem step_reload (h : Inv s g) (hpc : s.pc t = .reload)
    (hr : threadStep t c s.mem .reload = some r) : Advance s g t r := by
  have ht := h.thread t
  rw [hpc] at ht
  cases hr
  exact .stay (h.moveFrom hpc rfl ht) rfl

/-- A further cut keeps the invariant. -/
theorem step_recut (h : Inv s g) (hpc : s.pc t = .recut state)
    (hr : threadStep t c s.mem (.recut state) = some r) : Advance s g t r := by
  have ht := h.thread t
  rw [hpc] at ht
  simp only [threadStep] at hr
  split at hr <;> rename_i hcas <;> cases hr
  · obtain rfl := compareExchangeWeak_ok hcas
    obtain ⟨hc, hl⟩ := h.clearing (t := t) (by rw [hpc]; rfl)
    exact .intro (h.cut hl (.inr hc) ht (by rw [hpc]; rfl)) (.cut (.inr hc) rfl ht rfl rfl)
  · exact .stay (h.moveFrom hpc rfl ht) rfl

/-- The end of `unpark_all` keeps the invariant. -/
theorem step_clear (h : Inv s g) (hpc : s.pc t = .clear)
    (hr : threadStep t c s.mem .clear = some r) : Advance s g t r := by
  have ht := h.thread t
  rw [hpc] at ht
  obtain ⟨hclearer, -⟩ := h.clearing (t := t) (by rw [hpc]; rfl)
  cases hr
  exact .intro (h.clear hpc) (.cleared hclearer rfl ht rfl rfl)

end UnparkAll

/-! ## Notifications -/

section Notifications

variable {m m' : Mem τ} {p q : Ptr} {es : List (Event τ)}

omit [DecidableEq τ] in
/-- A write that never takes a notification back. -/
theorem parker_of_modify {f : ThreadData → ThreadData}
    (hq : ((m.modify p f).node q).parker = false)
    (hf : ∀ d, (f d).parker = true ∨ (f d).parker = d.parker) : (m.node q).parker = false := by
  by_cases hqp : q = p
  · rw [hqp, Mem.modify_node_self] at hq
    rw [hqp]
    rcases hf (m.node p) with ht | he
    · rw [ht] at hq
      cases hq
    · rwa [he] at hq
  · rwa [Mem.modify_node_of_ne _ hqp] at hq

omit [DecidableEq τ] in
/-- Only the thread of a node takes a notification back. -/
theorem parker_of_step (hr : threadStep t c m pc = some (m', pc', es))
    (hown : ownNode pc ≠ some q) (hframe : m.frame q ≠ none)
    (hq : (m'.node q).parker = false) : (m.node q).parker = false := by
  cases pc with
  | withThreadData counter state =>
      simp only [threadStep] at hr
      split at hr
      · rename_i haddr
        cases hr
        rwa [Mem.alloc_node_of_ne] at hq
        rintro rfl
        exact hframe (Option.isNone_iff_eq_none.mp haddr.2)
      · cases hr
  | park counter p =>
      simp only [threadStep] at hr
      split at hr
      · cases hr
        rwa [Mem.free_node, Mem.modify_node_of_ne] at hq
        rintro rfl
        exact hown rfl
      · cases hr
  | setToken =>
      cases hr
      exact parker_of_modify hq fun _ => .inr rfl
  | setTail =>
      cases hr
      exact parker_of_modify hq fun _ => .inr rfl
  | setPrev =>
      cases hr
      exact parker_of_modify hq fun _ => .inr rfl
  | setNext =>
      cases hr
      exact parker_of_modify hq fun _ => .inr rfl
  | writeTail =>
      cases hr
      exact parker_of_modify hq fun _ => .inr rfl
  | midWrite =>
      cases hr
      exact parker_of_modify hq fun _ => .inr rfl
  | unparkSelf =>
      cases hr
      rw [Mem.free_node] at hq
      exact parker_of_modify hq fun _ => .inl rfl
  | walkUnpark =>
      cases hr
      exact parker_of_modify hq fun _ => .inl rfl
  | _ =>
      simp only [threadStep] at hr
      (repeat' split at hr) <;> cases hr <;> exact hq

end Notifications

/-! ## Runs -/

/-- Every step of every thread keeps the invariant when aborts are in time. -/
theorem step_advance (h : Inv s g)
    (hclean : ∀ counter state, s.pc t = .withThreadData counter state → Clean state c.leftover)
    (hok : abortInTime c.spurious s.mem (s.pc t) = true)
    (hr : threadStep t c s.mem (s.pc t) = some r) : Advance s g t r := by
  cases hpc : s.pc t <;> rw [hpc] at hr hok hclean
  case outside => exact step_outside h hpc hr
  case retry => exact step_retry h hpc hr
  case load => exact step_load h hpc hr
  case withThreadData => exact step_withThreadData h hpc (hclean _ _ rfl) hr
  case setToken => exact step_setToken h hpc hr
  case setTail => exact step_setTail h hpc hr
  case setPrev => exact step_setPrev h hpc hr
  case setNext => exact step_setNext h hpc hr
  case push => exact step_push h hpc hr
  case retryAgain => exact step_retryAgain h hpc hr
  case park => exact step_park h hpc hr
  case abortLoad => exact step_abortLoad h hpc hok hr
  case abortLock => exact step_abortLock h hpc hok hr
  case scanNext => exact step_scanNext h hpc hr
  case headNext => exact step_headNext h hpc hr
  case readTail => exact step_readTail h hpc hr
  case writeTail => exact step_writeTail h hpc hr
  case headCas => exact step_headCas h hpc hr
  case midNext => exact step_midNext h hpc hr
  case midWrite => exact step_midWrite h hpc hr
  case midRelease => exact step_midRelease h hpc hr
  case unparkSelf => exact step_unparkSelf h hpc hr
  case lost =>
    have ht := h.thread t
    rw [hpc] at ht
    exact ht.elim
  case unparkAll => exact step_unparkAll h hpc hr
  case cut => exact step_cut h hpc hr
  case walkNext => exact step_walkNext h hpc hr
  case walkUnpark => exact step_walkUnpark h hpc hr
  case reload => exact step_reload h hpc hr
  case recut => exact step_recut h hpc hr
  case clear => exact step_clear h hpc hr

/-- The ghost at the start. -/
def Ghost.new (τ : Type) : Ghost τ := ⟨none, none, [], []⟩

omit [DecidableEq τ] in
/-- The invariant holds of a new queue. -/
theorem inv_new : Inv (State.new τ) (Ghost.new τ) where
  queueLocked := isQueueLocked_idle
  queueClear := isLocked_idle
  exclusive := .inl rfl
  chain := queueHead_idle
  uncut := fun _ => rfl
  nodup := List.nodup_nil
  locker := fun _ => ⟨nofun, nofun⟩
  clearer := fun _ => ⟨nofun, nofun⟩
  linked := fun p hp => by simp [Ghost.Linked, Ghost.new] at hp
  thread := fun _ => trivial

/-- A step of the machine is a step of one thread. -/
theorem machine_next {s s' : State τ} {i : τ × Choice} {es : List (Event τ)}
    (h : (machine τ).next i s = some (s', es)) :
    ∃ m' pc', threadStep i.1 i.2 s.mem (s.pc i.1) = some (m', pc', es) ∧
      s' = s.moveTo i.1 m' pc' := by
  simp only [machine, Option.map_eq_some_iff] at h
  obtain ⟨⟨m', pc', es'⟩, hr, he⟩ := h
  cases he
  exact ⟨m', pc', hr, rfl⟩

/-- Every state of a run whose nodes are clean and whose aborts are in time is described
by some ghost. -/
theorem exec_clean_inv {log : List (Event τ)} (run : Exec (machine τ) (cleanInTime τ) s log) :
    ∃ g, Inv s g := by
  refine run.invariant (fun s _ => ∃ g, Inv s g) ?_ ?_
  · rintro s rfl
    exact ⟨_, inv_new⟩
  · rintro s log i s' es ⟨g, h⟩ ⟨hclean, hok⟩ hr
    obtain ⟨m', pc', hthread, rfl⟩ := machine_next hr
    obtain ⟨g', h', -⟩ := step_advance h hclean hok hthread
    exact ⟨g', h'⟩

omit [DecidableEq τ] in
/-- New nodes are clean ones. -/
theorem cleanInTime_of_fresh {log : List (Event τ)} {i : τ × Choice}
    (h : abortsInTime τ s log i) : cleanInTime τ s log i :=
  ⟨fun _ state _ => h.1 ▸ clean_new state, h.2⟩

/-- The same with nodes that are fresh. -/
theorem exec_inv {log : List (Event τ)} (run : Exec (machine τ) (abortsInTime τ) s log) :
    ∃ g, Inv s g :=
  exec_clean_inv (run.mono fun _ _ _ => cleanInTime_of_fresh)

end Mekong.Analysis.ParkingQueue
