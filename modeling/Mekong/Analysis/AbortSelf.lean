import Mekong.Analysis.NodeLifetime

/-!
# What `abort_self` does once it has the queue lock

With its node in the word's list, the thread that holds `QUEUE_LOCKED_BIT` finds it and
takes it out, whatever the others push meanwhile (`abort_self_removes`), and alone it
returns after finitely many steps, having cleared the bit once (`abort_self_finishes`).
A thread that takes the bit after its node has been notified never meets the node: it
clears the bit at the end of the list and begins again, without the bit, from the word it
loaded before.
-/

set_option autoImplicit false

namespace Mekong.Analysis.ParkingQueue

open Mekong.Computation Mekong.Computation.NextChain Mekong.Model Mekong.Program.ParkingQueue

/-! ## A thread alone returns -/

section Finishes

variable {τ : Type} {t : τ} {m m' : Mem τ} {pc pc' : Pc} {es : List (Event τ)} {counter : ℕ}
  {p : Ptr} {state : U64}

/-- `t` runs alone, and no compare-exchange fails spuriously. -/
abbrev RunsAlone (t : τ) : Mem τ → Pc → List (Event τ) → Mem τ → Pc → Prop :=
  Alone (threadStep t {})

variable [DecidableEq τ]

/-- Alone, `t` returns from `abort_self` after finitely many steps, and clears
`QUEUE_LOCKED_BIT` once on its way. -/
def Finishes (t : τ) (m : Mem τ) (pc : Pc) : Prop :=
  ∃ es m' counter, RunsAlone t m pc es m' (.retry counter) ∧ es.count (.queueUnlocked t) = 1

/-- What finishes after a step without an event finishes before it. -/
theorem Finishes.of_step (h : Finishes t m' pc') (hr : threadStep t {} m pc = some (m', pc', [])) :
    Finishes t m pc := by
  obtain ⟨es, m'', counter, hrun, hcount⟩ := h
  exact ⟨es, m'', counter, .go hr hrun, hcount⟩

/-- The last two steps: the bit is cleared, and the node's parker is notified. -/
theorem finishes_of_unlock (hr : threadStep t {} m pc =
    some (m', .unparkSelf counter p, [.queueUnlocked t])) : Finishes t m pc := by
  refine ⟨[.queueUnlocked t] ++ ([.left t p] ++ []), _, counter, .go hr (.go rfl (.stay _ _)), ?_⟩
  simp

/-- A thread that has unlinked its node behind another one finishes. -/
theorem finishes_midRelease : Finishes t m (.midRelease counter p) := finishes_of_unlock rfl

/-- A thread that writes its node's link into the predecessor finishes. -/
theorem finishes_midWrite {prev next : Ptr} : Finishes t m (.midWrite counter p prev next) :=
  finishes_midRelease.of_step rfl

/-- A thread that reads the link of its node behind another one finishes. -/
theorem finishes_midNext {prev : Ptr} : Finishes t m (.midNext counter p prev) :=
  finishes_midWrite.of_step rfl

/-- The head is taken off by a compare-exchange from the word as it is. -/
theorem finishes_headCas_self {newHead : Ptr} :
    Finishes t m (.headCas counter p m.word newHead) := by
  have hr : threadStep t {} m (.headCas counter p m.word newHead) =
      some (m.store (setQueueHead m.word newHead &&& ~~~queueLockedBit), .unparkSelf counter p,
        [.queueUnlocked t]) := by
    simp [threadStep, compareExchangeWeak]
  exact finishes_of_unlock hr

section Head

variable (hcas : ∀ m' : Mem τ, m'.word = m.word → nextOf m'.node = nextOf m.node →
  ∀ newHead, Finishes t m' (.headCas counter p state newHead))

include hcas

/-- At the head, what is left is the compare-exchange. -/
theorem finishes_writeTail_of {newHead tail : Ptr} :
    Finishes t m (.writeTail counter p state newHead tail) := by
  refine (hcas (m.modify newHead ({ · with queueTail := tail })) rfl ?_ newHead).of_step rfl
  exact funext (Mem.modify_keeps ThreadData.next fun _ => rfl)

/-- A thread that hands the mark of the head on finishes. -/
theorem finishes_readTail_of {newHead : Ptr} :
    Finishes t m (.readTail counter p state newHead) :=
  (finishes_writeTail_of hcas).of_step rfl

/-- A thread that has found its node at the head finishes. -/
theorem finishes_headNext_of : Finishes t m (.headNext counter p state) := by
  by_cases hnull : (m.node p).next = null
  · refine (hcas m rfl rfl (m.node p).next).of_step ?_
    rw [threadStep, if_pos hnull]
  · have hread : Finishes t m (.readTail counter p state (m.node p).next) :=
      finishes_readTail_of hcas
    refine hread.of_step ?_
    rw [threadStep, if_neg hnull]

end Head

/-- The search meets its node, at the head or behind another. -/
theorem finishes_visit (hhead : Finishes t m (.headNext counter p state)) :
    ∀ {rest : List Ptr} {prev curr : Ptr}, Chain null (nextOf m.node) curr rest → p ∈ rest →
      Finishes t m (visit counter p state prev curr)
  | [], _, _, _, hp => by cases hp
  | x :: rest, prev, curr, ⟨hcurr, hx, hchain⟩, hp => by
    subst hcurr
    rw [visit, if_neg hx]
    by_cases hpx : p = curr
    · rw [if_neg (not_not.mpr hpx)]
      by_cases hprev : prev = null
      · rw [if_pos hprev]
        exact hhead
      · rw [if_neg hprev]
        exact finishes_midNext
    · rw [if_pos hpx]
      exact (finishes_visit hhead hchain ((List.mem_cons.mp hp).resolve_left hpx)).of_step rfl

/-- A round that begins from the word as it is takes the node out. -/
theorem finishes_outer {l : List Ptr} (hchain : Chain null (nextOf m.node) (queueHead m.word) l)
    (hp : p ∈ l) : Finishes t m (outer counter p m.word) := by
  refine finishes_visit (finishes_headNext_of fun m' hw _ newHead => ?_) hchain hp
  rw [← hw]
  exact finishes_headCas_self

/-- The compare-exchange from an older word begins another round. -/
theorem finishes_headCas {l : List Ptr} (hchain : Chain null (nextOf m.node) (queueHead m.word) l)
    (hp : p ∈ l) (hw : m'.word = m.word) (hnext : nextOf m'.node = nextOf m.node) (newHead : Ptr) :
    Finishes t m' (.headCas counter p state newHead) := by
  by_cases hstate : m'.word = state
  · rw [← hstate]
    exact finishes_headCas_self
  · have hround : Finishes t m' (outer counter p m'.word) := by
      refine finishes_outer ?_ hp
      rw [hw, hnext]
      exact hchain
    refine hround.of_step ?_
    simp [threadStep, compareExchangeWeak, hstate]

/-- A thread with the queue lock returns, wherever it is in `abort_self`. -/
theorem Inv.finishes {s : State τ} {g : Ghost τ} (h : Inv s g) (hq : holdsQueue (s.pc t) = true) :
    Finishes t s.mem (s.pc t) := by
  have ht := h.thread t
  have hcas : ∀ {counter p state}, p ∈ g.queue → ∀ m' : Mem τ, m'.word = s.mem.word →
      nextOf m'.node = nextOf s.mem.node → ∀ newHead,
        Finishes t m' (.headCas counter p state newHead) :=
    fun hp m' hw hnext newHead => finishes_headCas h.chain hp hw hnext newHead
  cases hpc : s.pc t <;> rw [hpc] at hq ht <;> try exact absurd hq Bool.false_ne_true
  case scanNext counter p state curr =>
    obtain ⟨-, prev, rest, hw, hp⟩ := ht
    obtain ⟨u, hu⟩ := hw.split
    have hchain := h.chain
    rw [hu] at hchain
    have hmem : p ∈ g.queue := by
      rw [hu]
      exact List.mem_append_right u (List.mem_cons_of_mem curr hp)
    have hhead : Finishes t s.mem (.headNext counter p state) := finishes_headNext_of (hcas hmem)
    exact (finishes_visit hhead hchain.suffix.2.2 hp).of_step rfl
  case headNext counter p state => exact finishes_headNext_of (hcas ht.2.1)
  case readTail counter p state newHead => exact finishes_readTail_of (hcas ht.2.1)
  case writeTail counter p state newHead tail => exact finishes_writeTail_of (hcas ht.2.1)
  case headCas counter p state newHead => exact hcas ht.2.1 s.mem rfl rfl newHead
  case midNext counter p prev => exact finishes_midNext
  case midWrite counter p prev next => exact finishes_midWrite
  case midRelease counter p => exact finishes_midRelease

end Finishes

/-! ## A thread that does not meet its node -/

section Lost

variable {τ : Type} {t : τ} {m m' : Mem τ} {pc pc' : Pc} {es : List (Event τ)} {p : Ptr}
  {state : U64}

/-- The search goes on in a list without the node, or gives the bit back and begins again. -/
inductive Lost (node : Ptr → ThreadData) (p : Ptr) (state : U64) : Pc → Prop
  | scan {counter : ℕ} {curr : Ptr} {rest : List Ptr}
      (hchain : Chain null (nextOf node) curr (curr :: rest)) (hp : p ∉ curr :: rest) :
      Lost node p state (.scanNext counter p state curr)
  | lost {counter : ℕ} : Lost node p state (.lost counter p state)

/-- In a list without the node the search stays lost. -/
theorem lost_visit {node : Ptr → ThreadData} {counter : ℕ} {prev curr : Ptr} {rest : List Ptr}
    (hchain : Chain null (nextOf node) curr rest) (hp : p ∉ rest) :
    Lost node p state (visit counter p state prev curr) := by
  cases rest with
  | nil =>
    have hnull : curr = null := hchain
    rw [visit, if_pos hnull]
    exact .lost
  | cons x rest =>
    obtain ⟨rfl, hcurr, hrest⟩ := hchain
    have hne : p ≠ curr := fun e => hp (by rw [e]; exact List.mem_cons_self)
    rw [visit, if_neg hcurr, if_pos hne]
    exact .scan ⟨rfl, hcurr, hrest⟩ hp

/-- No step of the thread ends the search. -/
theorem Lost.step {l : List Ptr} (h : Lost m.node p state pc)
    (hchain : Chain null (nextOf m.node) (queueHead state) l) (hp : p ∉ l)
    (hr : threadStep t {} m pc = some (m', pc', es)) : m'.node = m.node ∧ Lost m.node p state pc' := by
  cases h with
  | scan hcurr hnot =>
    cases hr
    exact ⟨rfl, lost_visit hcurr.2.2 fun hm => hnot (List.mem_cons_of_mem _ hm)⟩
  | lost =>
    cases hr
    exact ⟨rfl, lost_visit hchain hp⟩

/-- The thread does not return. -/
theorem Lost.never_returns {l : List Ptr} {counter : ℕ} (h : Lost m.node p state pc)
    (hchain : Chain null (nextOf m.node) (queueHead state) l) (hp : p ∉ l) :
    ¬ RunsAlone t m pc es m' (.retry counter) := by
  intro hrun
  have hend := hrun.invariant (fun m₁ pc₁ => m₁.node = m.node ∧ Lost m.node p state pc₁) ?_ ⟨rfl, h⟩
  · cases hend.2
  · rintro m₁ pc₁ m₂ pc₂ es ⟨hnode, hlost⟩ hr
    rw [← hnode] at hlost hchain ⊢
    exact hlost.step hchain hp hr

end Lost

section Main

variable {τ : Type} [DecidableEq τ] {s : State τ} {log : List (Event τ)}

/-- **A thread with the queue lock returns, exactly while its node is in the list.** In a
run whose nodes are clean and whose aborts are in time, every thread with
`QUEUE_LOCKED_BIT`, alone, returns from `abort_self` after finitely many steps and clears
the bit once. A thread that takes the bit after its node was notified, alone, never
returns. -/
theorem abort_self_finishes (run : Exec (machine τ) (cleanInTime τ) s log) :
    (∀ t, holdsQueue (s.pc t) = true → Finishes t s.mem (s.pc t)) ∧
      ∀ t counter p, s.pc t = .abortLock counter p s.mem.word →
        (s.mem.node p).parker = true →
          ∃ m' pc', threadStep t {} s.mem (s.pc t) = some (m', pc', [.queueLocked t]) ∧
            ∀ es m'' n, ¬ RunsAlone t m' pc' es m'' (.retry n) := by
  obtain ⟨g, h⟩ := exec_clean_inv run
  refine ⟨fun t ht => h.finishes ht, fun t counter p hpc hp => ?_⟩
  have hnot : p ∉ g.queue := fun hm => h.not_linked_of_parker hp (.inl hm)
  refine ⟨s.mem.store (s.mem.word ||| queueLockedBit), outer counter p s.mem.word, ?_, ?_⟩
  · rw [hpc]
    simp [threadStep, compareExchangeWeak]
  · intro es m'' n
    have hlost : Lost s.mem.node p s.mem.word (outer counter p s.mem.word) :=
      lost_visit h.chain hnot
    exact Lost.never_returns (m := s.mem.store (s.mem.word ||| queueLockedBit)) hlost h.chain hnot

end Main

/-! ## What is removed -/

section Removal

/-- The places of `park` outside `abort_self`, and `outside`. -/
def inPark : Pc → Bool
  | .outside | .retry _ | .load _ | .withThreadData .. | .setToken .. | .setTail .. | .setPrev ..
  | .setNext .. | .push .. | .retryAgain .. | .park .. => true
  | _ => false

/-- The places from the winning of the queue lock to the return, for the node `p`. -/
def aborting (p : Ptr) : Pc → Prop
  | .scanNext _ q _ _ | .headNext _ q _ | .readTail _ q _ _ | .writeTail _ q _ _ _
  | .headCas _ q _ _ | .midNext _ q _ | .midWrite _ q _ _ | .midRelease _ q | .unparkSelf _ q
  | .lost _ q _ => q = p
  | .retry _ => True
  | _ => False

variable {τ : Type}

/-- The nodes in the order of their pushes. -/
def pushes (log : List (Event τ)) : List Ptr :=
  log.filterMap fun
    | .pushed _ p => some p
    | _ => none

/-- `t` has just won `QUEUE_LOCKED_BIT` in `abort_self` for its node `p`, and the word's
list is `l`: its nodes are distinct, none is notified, and each is that of a thread that
waits. The other threads are in `park`, before a push or behind it, and know what their
places say. -/
structure Won (s : State τ) (t : τ) (counter : ℕ) (p : Ptr) (state : U64) (l : List Ptr) :
    Prop where
  place : s.pc t = outer counter p state
  word : s.mem.word = state ||| queueLockedBit
  gives : givesUp state = false
  own : Unpushed s.mem t p
  chain : Chain null (nextOf s.mem.node) (queueHead state) l
  nodup : l.Nodup
  mem : p ∈ l
  waiting : ∀ q ∈ l, q ≠ p → (s.mem.node q).parker = false ∧ ∃ u, linkedNode (s.pc u) = some q
  others : ∀ u, u ≠ t → inPark (s.pc u) = true ∧
    ThreadInv s.mem ⟨some t, none, l, []⟩ u (s.pc u)

variable [DecidableEq τ]

/-- The threads of one `ParkingQueue`, from a given state on. -/
def fromState (s₀ : State τ) : Machine (State τ) (τ × Choice) (Event τ) :=
  { machine τ with initial := fun s => s = s₀ }

/-- `t` goes on to its return from `abort_self`; the other threads only push nodes, fresh
ones, and wait. -/
def pushesOnly (t : τ) : Guard (State τ) (τ × Choice) (Event τ) := fun s log i =>
  fresh τ s log i ∧ (i.1 = t → ∀ counter, s.pc t ≠ .retry counter) ∧
    (i.1 ≠ t → (s.pc i.1 = .outside → i.2.op = .park) ∧
      ∀ counter p, s.pc i.1 = .retryAgain counter p → i.2.retry = false)

omit [DecidableEq τ] in
/-- The state in which the lock has been won is one that the ghost describes. -/
theorem Won.inv {s : State τ} {t : τ} {counter : ℕ} {p : Ptr} {state : U64} {l : List Ptr}
    (h : Won s t counter p state l) : Inv s ⟨some t, none, l, []⟩ := by
  have hgives := h.gives
  simp only [givesUp, Bool.or_eq_false_iff, decide_eq_false_iff_not] at hgives
  have hsearch : Searching s.mem ⟨some t, none, l, []⟩ t p (outer counter p state) :=
    searching_outer h.own.toFramed h.chain h.mem
  have hself : ∀ u, u ≠ t → holdsQueue (s.pc u) = false ∧ holdsClear (s.pc u) = false := by
    intro u hu
    have hplace := (h.others u hu).1
    cases hpc : s.pc u <;> rw [hpc] at hplace <;> first | exact ⟨rfl, rfl⟩ | cases hplace
  refine ⟨?_, ?_, .inr rfl, ?_, fun _ => rfl, ?_, fun u => ?_, fun u => ?_, fun q hq => ?_,
    fun u => ?_⟩
  · rw [h.word]
    simp
  · rw [h.word, isQueueClear_or, isQueueClear_queueLockedBit, Bool.or_false]
    exact hgives.1.2
  · rw [h.word, queueHead_or_queueLockedBit]
    exact h.chain
  · rw [List.append_nil]
    exact h.nodup
  · by_cases hu : u = t
    · rw [hu, h.place]
      exact iff_of_true hsearch.queue rfl
    · rw [(hself u hu).1]
      exact iff_of_false Bool.false_ne_true fun e => hu (Option.some.inj e).symm
  · by_cases hu : u = t
    · rw [hu, h.place, hsearch.clear]
      exact iff_of_false Bool.false_ne_true (by simp)
    · rw [(hself u hu).2]
      exact iff_of_false Bool.false_ne_true (by simp)
  · have hm : q ∈ l := hq.resolve_right List.not_mem_nil
    by_cases hqp : q = p
    · rw [hqp]
      exact ⟨h.own.parker, t, by rw [h.place]; exact hsearch.linked⟩
    · exact h.waiting q hm hqp
  · by_cases hu : u = t
    · rw [hu, h.place]
      exact hsearch.thread
    · exact (h.others u hu).2

/-! ### Steps -/

section Step

omit [DecidableEq τ]

variable {t u : τ} {c : Choice} {m m' : Mem τ} {pc pc' : Pc} {es log : List (Event τ)} {p : Ptr}
  {g : Ghost τ}

/-- A thread in `park` stays there unless it begins to abort. -/
theorem inPark_of_step (h : inPark pc = true) (hcall : pc = .outside → c.op = .park)
    (hretry : ∀ counter p, pc = .retryAgain counter p → c.retry = false)
    (hr : threadStep t c m pc = some (m', pc', es)) : inPark pc' = true := by
  cases pc with
  | outside =>
    rw [threadStep, hcall rfl] at hr
    cases hr
    rfl
  | retryAgain counter p =>
    rw [threadStep, hretry counter p rfl] at hr
    cases hr
    rfl
  | setPrev counter state p =>
    cases hr
    split <;> rfl
  | _ =>
    first
    | (cases h; done)
    | (simp only [threadStep] at hr
       (repeat' split at hr) <;> cases hr <;> rfl)

/-- In `park`, outside `abort_self`, a thread has neither bit. -/
theorem holds_of_inPark (h : inPark pc = true) : holdsQueue pc = false ∧ holdsClear pc = false := by
  cases pc <;> first | exact ⟨rfl, rfl⟩ | cases h

/-- A visit of the search is a place of `abort_self` for the same node. -/
theorem aborting_visit (counter : ℕ) (p : Ptr) (state : U64) (prev curr : Ptr) :
    aborting p (visit counter p state prev curr) ∧
      ownNode (visit counter p state prev curr) = some p := by
  unfold visit
  (repeat' split) <;> exact ⟨rfl, rfl⟩

/-- A step of `abort_self` behind the winning of the lock. -/
theorem aborting_of_step (h : aborting p pc) (hreturned : ∀ n, pc ≠ .retry n)
    (hlost : ∀ n state, pc ≠ .lost n p state)
    (hr : threadStep t c m pc = some (m', pc', es)) :
    aborting p pc' ∧ (linkedNode pc = some p → ownNode pc' = some p) ∧
      (linkedNode pc = none → linkedNode pc' = none) ∧ es.all (!movesList ·) = true := by
  cases pc with
  | scanNext counter q state curr =>
    obtain rfl : q = p := h
    cases hr
    obtain ⟨hplace, hown⟩ := aborting_visit counter q state curr (m.node curr).next
    exact ⟨hplace, fun _ => hown, (by simp [linkedNode]), rfl⟩
  | headNext counter q state =>
    obtain rfl : q = p := h
    cases hr
    split <;> exact ⟨rfl, fun _ => rfl, (by simp [linkedNode]), rfl⟩
  | headCas counter q state newHead =>
    obtain rfl : q = p := h
    simp only [threadStep] at hr
    split at hr <;> cases hr
    · exact ⟨rfl, fun _ => rfl, (by simp [linkedNode]), rfl⟩
    · rename_i actual hcas
      obtain ⟨hplace, hown⟩ := aborting_visit counter q actual null (queueHead actual)
      exact ⟨hplace, fun _ => hown, (by simp [linkedNode]), rfl⟩
  | readTail | writeTail | midNext | midWrite =>
    cases hr
    exact ⟨h, fun e => e, (by simp [linkedNode]), rfl⟩
  | midRelease counter q =>
    cases hr
    exact ⟨h, (by simp [linkedNode]), fun _ => rfl, rfl⟩
  | unparkSelf counter q =>
    cases hr
    exact ⟨trivial, (by simp [linkedNode]), fun _ => rfl, rfl⟩
  | lost counter q state =>
    obtain rfl : q = p := h
    exact absurd rfl (hlost counter state)
  | retry counter => exact absurd rfl (hreturned counter)
  | _ => exact h.elim

/-- While the thread has not taken its node out, the node is in the word's list. -/
theorem mem_queue_of_aborting (h : ThreadInv m g t pc) (ha : aborting p pc)
    (hl : linkedNode pc = some p) : p ∈ g.queue := by
  cases pc <;> cases hl
  case scanNext =>
    obtain ⟨-, prev, rest, hw, hp⟩ := h
    obtain ⟨u, hu⟩ := hw.split
    rw [hu]
    exact List.mem_append_right u (List.mem_cons_of_mem _ hp)
  case midNext =>
    obtain ⟨-, u, v, hq⟩ := h
    rw [hq]
    simp
  case midWrite =>
    obtain ⟨-, ⟨u, v, hq⟩, -⟩ := h
    rw [hq]
    simp
  all_goals first | exact ha.elim | exact h.2.1

/-- Events that do not change a list push nothing. -/
theorem pushes_quiet (hes : es.all (!movesList ·) = true) : pushes (log ++ es) = pushes log := by
  rw [pushes, List.filterMap_append, ← pushes, List.filterMap_eq_nil_iff.mpr, List.append_nil]
  intro e he
  have hquiet := List.all_eq_true.mp hes e he
  cases e <;> first | rfl | cases hquiet

/-- A push comes last among the pushes. -/
theorem pushes_pushed (log : List (Event τ)) (u : τ) (q : Ptr) :
    pushes (log ++ [.pushed u q]) = pushes log ++ [q] := by
  rw [pushes, List.filterMap_append]
  rfl

/-- In `abort_self` the node is the thread's, or has been taken out. -/
theorem linkedNode_of_aborting (h : aborting p pc) :
    linkedNode pc = some p ∨ linkedNode pc = none := by
  cases pc <;> first | exact .inr rfl | exact .inl (congrArg some h) | exact h.elim

end Step

/-! ### Runs -/

section Runs

variable {s s₀ : State τ} {g : Ghost τ} {t u : τ} {counter : ℕ} {p : Ptr} {state : U64}
  {l : List Ptr} {c : Choice} {log : List (Event τ)} {r : Mem τ × Pc × List (Event τ)}

/-- The word's list, while `t` is on its way to its return and the others push. -/
structure Unlinking (t : τ) (p : Ptr) (l : List Ptr) (s : State τ) (log : List (Event τ)) :
    Prop where
  list : ∃ g, Inv s g ∧ g.queue = (pushes log).reverse ++
    if linkedNode (s.pc t) = some p then l else l.erase p
  self : aborting p (s.pc t)
  others : ∀ u, u ≠ t → inPark (s.pc u) = true

/-- A step of a thread that pushes, or waits. -/
theorem Unlinking.other (h : Unlinking t p l s log) (hu : u ≠ t)
    (hfresh : c.leftover = ThreadData.new) (hcall : s.pc u = .outside → c.op = .park)
    (hretry : ∀ counter p, s.pc u = .retryAgain counter p → c.retry = false)
    (hr : threadStep u c s.mem (s.pc u) = some r) :
    Unlinking t p l (s.moveTo u r.1 r.2.1) (log ++ r.2.2) := by
  obtain ⟨g, hinv, hqueue⟩ := h.list
  have hpark := h.others u hu
  have hpark' : inPark r.2.1 = true := inPark_of_step hpark hcall hretry hr
  have hok : abortInTime c.spurious s.mem (s.pc u) = true := by
    cases hpc : s.pc u <;> rw [hpc] at hpark <;> first | rfl | cases hpark
  have hpc : (s.moveTo u r.1 r.2.1).pc t = s.pc t := Threads.moveTo_pc_of_ne _ _ _ hu.symm
  obtain ⟨g', hinv', he⟩ := step_advance hinv (fun _ state _ => hfresh ▸ clean_new state) hok hr
  refine ⟨⟨g', hinv', ?_⟩, by rw [hpc]; exact h.self,
    Threads.forall_moveTo (fun v pc => v ≠ t → inPark pc = true) (fun _ => hpark')
      fun v _ hv => h.others v hv⟩
  -- a thread in `park` does not clear
  have hbefore : g.clearer ≠ some u := by
    rw [ne_eq, ← hinv.clearer, (holds_of_inPark hpark).2]
    decide
  have hafter : g'.clearer ≠ some u := by
    rw [ne_eq, ← hinv'.clearer, Threads.moveTo_pc_self, (holds_of_inPark hpark').2]
    decide
  rw [hpc]
  generalize r.2.2 = es at he ⊢
  cases he with
  | quiet hclearer hq hc hes => rw [pushes_quiet hes, hq, hqueue]
  | pushed hp hclearer hq hc =>
    rw [hq, hqueue, pushes_pushed, List.reverse_concat, List.cons_append]
  | cut hcb hclearer => exact absurd hclearer hafter
  | unparked hcb => exact absurd hcb hbefore
  | cleared hcb => exact absurd hcb hbefore
  | removed hp hlock =>
    rw [(holds_of_inPark hpark).1] at hlock
    cases hlock

/-- A step of the thread that aborts. -/
theorem Unlinking.own (h : Unlinking t p l s log) (hp : p ∈ l)
    (hreturned : ∀ counter, s.pc t ≠ .retry counter) (hfresh : c.leftover = ThreadData.new)
    (hr : threadStep t c s.mem (s.pc t) = some r) :
    Unlinking t p l (s.moveTo t r.1 r.2.1) (log ++ r.2.2) := by
  obtain ⟨g, hinv, hqueue⟩ := h.list
  have hself := h.self
  have hlost : ∀ n state, s.pc t ≠ .lost n p state := by
    intro n state hpc
    have ht := hinv.thread t
    rw [hpc] at ht
    exact ht
  obtain ⟨hself', hown, hunlinked, hquiet⟩ := aborting_of_step hself hreturned hlost hr
  have hok : abortInTime c.spurious s.mem (s.pc t) = true := by
    cases hpc : s.pc t <;> rw [hpc] at hself <;> first | rfl | exact hself.elim
  obtain ⟨g', hinv', he⟩ := step_advance hinv (fun _ state _ => hfresh ▸ clean_new state) hok hr
  refine ⟨⟨g', hinv', ?_⟩, by rw [Threads.moveTo_pc_self]; exact hself',
    Threads.forall_moveTo (fun v pc => v ≠ t → inPark pc = true) (fun hv => absurd rfl hv)
      fun v _ hv => h.others v hv⟩
  have hthread' := hinv'.thread t
  rw [Threads.moveTo_pc_self] at hthread' ⊢
  rw [pushes_quiet hquiet]
  generalize r.2.2 = es at he hquiet
  rcases linkedNode_of_aborting hself with hlinked | hlinked
  · have hmem : p ∈ g.queue := mem_queue_of_aborting (hinv.thread t) hself hlinked
    have hnd : g.queue.Nodup := (List.nodup_append.mp hinv.nodup).1
    rw [if_pos hlinked] at hqueue
    cases he with
    | quiet hclearer hq =>
      -- a node in the list is one that its thread has not taken out
      have hlinked' : linkedNode r.2.1 = some p := by
        by_contra hnot
        refine hinv'.not_linked (t := t) (p := p) ?_ ?_ (.inl (by rwa [hq]))
        · rw [Threads.moveTo_pc_self]
          exact hown hlinked
        · rwa [Threads.moveTo_pc_self]
      rw [if_pos hlinked', hq, hqueue]
    | @removed q es hq' hlock hclearer hq =>
      obtain rfl : q = p := Option.some.inj (hq'.symm.trans hlinked)
      have hlinked' : linkedNode r.2.1 ≠ some q := by
        intro e
        have hmem' : q ∈ g'.queue := mem_queue_of_aborting hthread' hself' e
        rw [hq] at hmem'
        exact hnd.not_mem_erase hmem'
      rw [hqueue] at hnd
      have hnew : q ∉ (pushes log).reverse := fun hm =>
        (List.nodup_append.mp hnd).2.2 q hm q hp rfl
      rw [if_neg hlinked', hq, hqueue, List.erase_append_right _ hnew]
    | pushed | cut | unparked | cleared => cases hquiet
  · have hnot : linkedNode (s.pc t) ≠ some p := by
      rw [hlinked]
      simp
    have hnot' : linkedNode r.2.1 ≠ some p := by
      rw [hunlinked hlinked]
      simp
    rw [if_neg hnot] at hqueue
    rw [if_neg hnot']
    cases he with
    | quiet hclearer hq => rw [hq, hqueue]
    | removed hq' =>
      rw [hlinked] at hq'
      cases hq'
    | pushed | cut | unparked | cleared => cases hquiet

omit [DecidableEq τ] in
/-- When the lock has just been won, the list is unchanged. -/
theorem Won.unlinking (h : Won s₀ t counter p state l) : Unlinking t p l s₀ [] := by
  have hsearch : Searching s₀.mem ⟨some t, none, l, []⟩ t p (outer counter p state) :=
    searching_outer h.own.toFramed h.chain h.mem
  refine ⟨⟨_, h.inv, ?_⟩, ?_, fun u hu => (h.others u hu).1⟩
  · rw [h.place, if_pos hsearch.linked]
    rfl
  · rw [h.place]
    exact (aborting_visit counter p state null (queueHead state)).1

/-- **`abort_self` removes exactly its own node.** From a state in which `t` has just won
`QUEUE_LOCKED_BIT` with the list `l`, whatever the others push meanwhile: when `t` has
returned, the bit is clear and the word's list is that of the nodes pushed since, newest
first, followed by `l` without the node of `t`. -/
theorem abort_self_removes (h : Won s₀ t counter p state l)
    (run : Exec (fromState s₀) (pushesOnly t) s log) (hreturned : ∃ n, s.pc t = .retry n) :
    isQueueLocked s.mem.word = false ∧
      Chain null (nextOf s.mem.node) (queueHead s.mem.word)
        ((pushes log).reverse ++ l.erase p) := by
  have hunlinking : Unlinking t p l s log := by
    refine run.invariant (Unlinking t p l) ?_ ?_
    · rintro s rfl
      exact h.unlinking
    · rintro s log ⟨u, c⟩ s' es hs ⟨hfresh, hself, hothers⟩ hr
      obtain ⟨m', pc', hthread, rfl⟩ := machine_next hr
      by_cases hu : u = t
      · subst hu
        exact hs.own h.mem (hself rfl) hfresh hthread
      · obtain ⟨hcall, hretry⟩ := hothers hu
        exact hs.other hu hfresh hcall hretry hthread
  obtain ⟨n, hpc⟩ := hreturned
  obtain ⟨g, hinv, hqueue⟩ := hunlinking.list
  rw [hpc, if_neg (by simp [linkedNode])] at hqueue
  refine ⟨?_, hqueue ▸ hinv.chain⟩
  -- nobody has the queue lock any more
  rw [hinv.queueLocked]
  cases hlocker : g.locker with
  | none => rfl
  | some u =>
    have hholds := (hinv.locker u).mpr hlocker
    by_cases hu : u = t
    · rw [hu, hpc] at hholds
      cases hholds
    · rw [(holds_of_inPark (hunlinking.others u hu)).1] at hholds
      cases hholds

end Runs

end Removal

/-! ## Three runs -/

/-- The node at 8 is the only one in the list, and its thread has won the queue lock. -/
def wonAlone : State Bool where
  mem := ⟨8 ||| queueLockedBit, fun _ => { ThreadData.new with queueTail := 8 },
    fun q => if q = 8 then some false else none⟩
  pc := fun u => if u = true then .outside else outer 10 8 8

/-- A thread alone with its node has won the lock in this state. -/
theorem won_wonAlone : Won wonAlone false 10 8 8 [8] where
  place := rfl
  word := rfl
  gives := by decide
  own := ⟨⟨rfl, by decide⟩, rfl⟩
  chain := ⟨by decide, by decide, rfl⟩
  nodup := List.nodup_singleton 8
  mem := List.mem_singleton_self 8
  waiting := fun q hq hne => absurd (List.mem_singleton.mp hq) hne
  others := fun u hu => by
    cases u with
    | false => exact absurd rfl hu
    | true => exact ⟨rfl, trivial⟩

/-- Another node is pushed before the thread takes its own off the head: it is then taken
out from behind the other. -/
theorem abort_self_removes_pushed : ∃ s : State Bool, isQueueLocked s.mem.word = false ∧
    Chain null (nextOf s.mem.node) (queueHead s.mem.word) [16] := by
  obtain ⟨s, log, run, hend⟩ := exists_exec_of_run (fromState wonAlone) (pushesOnly false)
    (fun s _ i => decide (i.2.leftover = ThreadData.new) && decide (i.2.op = .park) &&
      !i.2.retry && (i.1 || match s.pc false with | .retry _ => false | _ => true))
    (by
      rintro s log ⟨u, c⟩ hcheck
      simp only [Bool.and_eq_true, decide_eq_true_eq, Bool.not_eq_true'] at hcheck
      obtain ⟨⟨⟨hfresh, hop⟩, hretry⟩, hself⟩ := hcheck
      refine ⟨hfresh, fun hu n hpc => ?_, fun _ => ⟨fun _ => hop, fun _ _ _ => hretry⟩⟩
      rw [show u = false from hu, hpc] at hself
      cases hself)
    rfl (steps true 13 false ++ [(true, { addr := 16 })] ++ steps false 1 false ++
      steps true 5 false ++ steps false 6 false)
    (fun s log => (match s.pc false with | .retry _ => true | _ => false) &&
      decide (pushes log = [16])) (by decide +kernel)
  simp only [Bool.and_eq_true, decide_eq_true_eq] at hend
  have hreturned : ∃ n, s.pc false = .retry n := by
    cases hpc : s.pc false <;> rw [hpc] at hend <;> first | exact ⟨_, rfl⟩ | cases hend.1
  obtain ⟨hunlocked, hchain⟩ := abort_self_removes won_wonAlone run hreturned
  rw [hend.2] at hchain
  exact ⟨s, hunlocked, by simpa using hchain⟩

/-- A waiter that aborts alone finds its node at the head. -/
theorem abort_self_finishes_head :
    ∃ s : State Bool, s.pc false = .headNext 10 8 8 ∧ Finishes false s.mem (s.pc false) := by
  obtain ⟨s, log, run, hend⟩ := exists_exec_of_run (machine Bool) (cleanInTime Bool)
    (fun s _ i => decide (i.2.leftover = ThreadData.new) &&
      abortInTime i.2.spurious s.mem (s.pc i.1))
    (fun s log i hi => by
      have hok : abortsInTime Bool s log i := by simpa [abortsInTime, fresh] using hi
      exact cleanInTime_of_fresh hok)
    rfl (pushSchedule false 8 ++ steps false 3 true)
    (fun s _ => decide (s.pc false = .headNext 10 8 8)) (by decide +kernel)
  have hpc := of_decide_eq_true hend
  exact ⟨s, hpc, (abort_self_finishes run).1 false (by rw [hpc]; rfl)⟩

/-- A waiter is about to abort when its node is cut off and notified, and another thread
pushes its own node; then the waiter takes the queue lock. -/
theorem abort_self_finishes_fails :
    ¬ ∀ (s : State (Fin 3)) log, Exec (machine (Fin 3)) (fresh (Fin 3)) s log →
      ∀ t, holdsQueue (s.pc t) = true → Finishes t s.mem (s.pc t) := by
  intro hall
  obtain ⟨s, log, run, hend⟩ := exists_exec_of_run (machine (Fin 3)) (fresh (Fin 3))
    (fun _ _ i => decide (i.2.leftover = ThreadData.new))
    (fun s log i hi => by simpa [fresh] using hi) rfl
    (pushSchedule 0 8 ++ steps 0 1 true ++ [(1, { op := .unparkAll })] ++ steps 1 7 false ++
      pushSchedule 2 16 ++ steps 0 2 false)
    (fun s _ => decide (s.pc 0 = .scanNext 10 8 16 16) && decide ((s.mem.node 16).next = null))
    (by decide +kernel)
  simp only [Bool.and_eq_true, decide_eq_true_eq] at hend
  obtain ⟨hpc, hnext⟩ := hend
  obtain ⟨es, m', n, hrun, -⟩ := hall s log run 0 (by rw [hpc]; rfl)
  have hchain : Chain null (nextOf s.mem.node) 16 [16] := ⟨rfl, by decide, hnext⟩
  have hnot : (8 : Ptr) ∉ [(16 : Ptr)] := by decide
  have hlost : Lost s.mem.node 8 16 (s.pc 0) := by
    rw [hpc]
    exact .scan hchain hnot
  have hhead : queueHead 16 = 16 := by decide
  rw [← hhead] at hchain
  exact hlost.never_returns hchain hnot hrun

end Mekong.Analysis.ParkingQueue
