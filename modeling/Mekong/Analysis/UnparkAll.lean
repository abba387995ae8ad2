import Mekong.Analysis.ParkingQueueRuns

/-!
# `unpark_all` wakes every waiter it cuts off once

`lists log` follows the two lists and the thread that clears through the log. `Ordered`
says what each event finds there: the next cut, and the clearing, find the list cut last
walked to its end, and a node that is unparked is the first of it. What is promised of
the calls of `unpark_all` (`EachOnce`) is read off such a log.
-/

set_option autoImplicit false

namespace Mekong.Analysis.ParkingQueue

open Mekong.Computation Mekong.Computation.NextChain Mekong.Model Mekong.Program.ParkingQueue

/-! ## The lists in the log -/

section Log

variable {τ : Type}

/-- The word's list, what is left of the list cut last, and the thread that clears. -/
structure Lists (τ : Type) where
  queue : List Ptr
  cut : List Ptr
  clearer : Option τ

def Lists.after (l : Lists τ) : Event τ → Lists τ
  | .pushed _ p => { l with queue := p :: l.queue }
  | .cut t _ => ⟨[], l.queue, some t⟩
  | .unparked _ _ => { l with cut := l.cut.tail }
  | .cleared _ => { l with clearer := none }
  | _ => l

def lists (log : List (Event τ)) : Lists τ := log.foldl Lists.after ⟨[], [], none⟩

/-- The nodes pushed since the last cut, newest first. -/
def queueOf (log : List (Event τ)) : List Ptr := (lists log).queue

/-- The nodes in the order in which they are unparked. -/
def unparkedNodes (log : List (Event τ)) : List Ptr :=
  log.filterMap fun
    | .unparked _ p => some p
    | _ => none

/-- The events with which a call is through with a list. -/
def endsList : Event τ → Bool
  | .cut .. | .cleared _ => true
  | _ => false

/-- What an event finds. -/
def Ordered (log : List (Event τ)) : Event τ → Prop
  | .cut t _ => (lists log).cut = [] ∧ ∀ u, (lists log).clearer = some u → u = t
  | .unparked t p => (lists log).clearer = some t ∧
      ∃ l, (lists log).cut = p :: l ∧ p ∉ l ∧ p ∉ (lists log).queue
  | .cleared t => (lists log).clearer = some t ∧ (lists log).cut = []
  | .returned t .unparkAll => (lists log).clearer ≠ some t
  | _ => True

/-- What the calls of `unpark_all` do for the waiters. -/
structure EachOnce (log : List (Event τ)) : Prop where
  /-- Between a call's first cut and its clearing of the bit no other call cuts. -/
  single : ∀ a t head b u head' c, log = a ++ .cut t head :: b ++ .cut u head' :: c →
    .cleared t ∉ b → u = t
  /-- A node is unparked once after its push. -/
  once : ∀ a t p b, log = a ++ .unparked t p :: b →
    ∃ c u d, a = c ++ .pushed u p :: d ∧ ∀ v, .unparked v p ∉ d
  /-- Before it returns, a call unparks exactly the nodes of the list it cut, one after
  the other, and only then cuts again or clears the bit. -/
  all : ∀ a t head b c, log = a ++ .cut t head :: b ++ .returned t .unparkAll :: c →
    ∃ d e d', b = d ++ e :: d' ∧ endsList e = true ∧ d.all (!endsList ·) = true ∧
      unparkedNodes d = queueOf a
  /-- When the bit is cleared, every node pushed before the last cut has been unparked. -/
  cleared : ∀ a t b, log = a ++ .cleared t :: b → ∀ c u p d, a = c ++ .pushed u p :: d →
    (∃ v head, .cut v head ∈ d) → ∃ v, .unparked v p ∈ d

/-- The rest of the log is read on from where the first part leaves off. -/
theorem lists_append (log es : List (Event τ)) :
    lists (log ++ es) = es.foldl Lists.after (lists log) := by
  rw [lists, List.foldl_append]
  rfl

/-- The last event is read last. -/
theorem lists_concat (log : List (Event τ)) (e : Event τ) :
    lists (log ++ [e]) = (lists log).after e := lists_append log [e]

/-- An event that moves no list leaves them. -/
theorem Lists.after_quiet {e : Event τ} (he : movesList e = false) (l : Lists τ) :
    l.after e = l := by
  cases e <;> first | rfl | cases he

variable {log : List (Event τ)}

/-- From its first cut until it clears the bit, a thread is the one that clears. -/
theorem clearer_since_cut {a b : List (Event τ)} {t : τ} {head : Ptr}
    (h : Each Ordered (a ++ .cut t head :: b)) (hb : .cleared t ∉ b) :
    (lists (a ++ .cut t head :: b)).clearer = some t := by
  induction b using List.reverseRecOn with
  | nil =>
    rw [lists_concat]
    rfl
  | append_singleton b e ih =>
    rw [← List.cons_append, ← List.append_assoc] at h ⊢
    simp only [List.mem_append, List.mem_singleton, not_or] at hb
    have hclearer := ih h.of_append hb.1
    have he := h.last
    rw [lists_concat]
    cases e with
    | cut u head' => exact congrArg some (he.2 t hclearer).symm
    | cleared u =>
      have hut : some t = some u := hclearer.symm.trans he.1
      exact absurd (by rw [Option.some.inj hut]) hb.2
    | _ => exact hclearer

/-- While no other list is cut, the nodes unparked and those left make up the list. -/
theorem unparked_since_cut {a b : List (Event τ)} {t : τ} {head : Ptr}
    (h : Each Ordered (a ++ .cut t head :: b)) (hb : b.all (!endsList ·) = true) :
    queueOf a = unparkedNodes b ++ (lists (a ++ .cut t head :: b)).cut := by
  induction b using List.reverseRecOn with
  | nil =>
    rw [lists_concat]
    rfl
  | append_singleton b e ih =>
    rw [← List.cons_append, ← List.append_assoc] at h ⊢
    simp only [List.all_append, Bool.and_eq_true] at hb
    have hsplit := ih h.of_append hb.1
    have he := h.last
    rw [lists_concat, unparkedNodes, List.filterMap_append, ← unparkedNodes]
    cases e with
    | unparked u p =>
      obtain ⟨-, l, hcut, -⟩ := he
      rw [hsplit, hcut]
      simp [Lists.after, hcut]
    | cut u head' => simp [endsList] at hb
    | _ => simpa [Lists.after] using hsplit

/-- A node that is in one of the lists was pushed, and not unparked since. -/
theorem pushed_of_mem {p : Ptr} (h : Each Ordered log)
    (hp : p ∈ (lists log).queue ∨ p ∈ (lists log).cut) :
    ∃ c u d, log = c ++ .pushed u p :: d ∧ ∀ v, .unparked v p ∉ d := by
  induction log using List.reverseRecOn with
  | nil => simp [lists] at hp
  | append_singleton log e ih =>
    have he := h.last
    have later : (p ∈ (lists log).queue ∨ p ∈ (lists log).cut) → (∀ v, e ≠ .unparked v p) →
        ∃ c u d, log ++ [e] = c ++ .pushed u p :: d ∧ ∀ v, .unparked v p ∉ d := by
      intro hmem hne
      obtain ⟨c, u, d, rfl, hd⟩ := ih h.of_append hmem
      exact ⟨c, u, d ++ [e], by simp, fun v => by simpa using ⟨hd v, (hne v).symm⟩⟩
    rw [lists_concat] at hp
    cases e with
    | pushed u q =>
      by_cases hpq : p = q
      · subst hpq
        exact ⟨log, u, [], rfl, fun v => List.not_mem_nil⟩
      · refine later (hp.imp_left fun hm => ?_) (by simp)
        exact (List.mem_cons.mp hm).resolve_left hpq
    | cut t head => exact later (.inl (hp.resolve_left List.not_mem_nil)) (by simp)
    | unparked t q =>
      obtain ⟨-, l, hcut, hl, hq⟩ := he
      have hmem : p ∈ (lists log).queue ∨ p ∈ l := by
        simpa [Lists.after, hcut] using hp
      refine later (hmem.imp_right fun hm => by rw [hcut]; exact List.mem_cons_of_mem _ hm) ?_
      rintro v e
      cases e
      exact hmem.elim hq hl
    | _ => exact later hp (by simp)

/-- A node stays in the lists from its push until it is unparked. -/
theorem mem_of_pushed {c d : List (Event τ)} {u : τ} {p : Ptr}
    (h : Each Ordered (c ++ .pushed u p :: d)) (hd : ∀ v, .unparked v p ∉ d) :
    (∀ v head, .cut v head ∉ d) ∧ p ∈ (lists (c ++ .pushed u p :: d)).queue ∨
      p ∈ (lists (c ++ .pushed u p :: d)).cut := by
  induction d using List.reverseRecOn with
  | nil =>
    rw [lists_concat]
    exact .inl ⟨fun v head => List.not_mem_nil, List.mem_cons_self⟩
  | append_singleton d e ih =>
    rw [← List.cons_append, ← List.append_assoc] at h ⊢
    simp only [List.mem_append, List.mem_singleton, not_or] at hd ⊢
    have he := h.last
    have hp := ih h.of_append fun v => (hd v).1
    rw [lists_concat]
    cases e with
    | cut v head => exact .inr (hp.elim And.right fun hm => by rw [he.1] at hm; cases hm)
    | unparked v q =>
      obtain ⟨-, l, hcut, -⟩ := he
      refine hp.imp (fun hm => ⟨fun w head => ⟨hm.1 w head, (by simp)⟩, hm.2⟩) fun hm => ?_
      rw [hcut, List.mem_cons] at hm
      have hpq : p ≠ q := by
        rintro rfl
        exact (hd v).2 rfl
      simpa [Lists.after, hcut] using hm.resolve_left hpq
    | pushed v q =>
      exact hp.imp_left fun hm => ⟨fun w head => ⟨hm.1 w head, (by simp)⟩,
        List.mem_cons_of_mem q hm.2⟩
    | _ => exact hp.imp_left fun hm => ⟨fun w head => ⟨hm.1 w head, (by simp)⟩, hm.2⟩

/-- A log in order is one in which the calls do what is promised. -/
theorem eachOnce_of_ordered (h : Each Ordered log) : EachOnce log where
  single := by
    rintro a t head b u head' c rfl hb
    have hcut : Each Ordered (a ++ .cut t head :: b) := h.of_append
    exact ((h _ _ c rfl).2 t (clearer_since_cut hcut hb)).symm
  once := by
    rintro a t p b rfl
    obtain ⟨-, l, hcut, -⟩ := h a _ b rfl
    exact pushed_of_mem h.of_append (.inr (by rw [hcut]; exact List.mem_cons_self))
  all := by
    rintro a t head b c rfl
    have hcut : Each Ordered (a ++ .cut t head :: b) := h.of_append
    -- the call clears the bit before it returns, so there is a first event that ends the list
    have hb : ∃ e ∈ b, endsList e = true := by
      refine ⟨.cleared t, by_contra fun hnot => ?_, rfl⟩
      exact h _ _ c rfl (clearer_since_cut hcut hnot)
    obtain ⟨d, e, d', rfl, he, hd⟩ : ∃ d e d', b = d ++ e :: d' ∧ endsList e = true ∧
        d.all (!endsList ·) = true := by
      obtain ⟨e, hfind⟩ := Option.isSome_iff_exists.mp (List.find?_isSome.mpr hb)
      obtain ⟨he, d, d', hsplit, hd⟩ := List.find?_eq_some_iff_append.mp hfind
      exact ⟨d, e, d', hsplit, he, List.all_eq_true.mpr hd⟩
    refine ⟨d, e, d', rfl, he, hd, ?_⟩
    have hlist : Each Ordered (a ++ .cut t head :: d ++ e :: d') := by simpa using hcut
    have hempty : (lists (a ++ .cut t head :: d)).cut = [] := by
      have hfound := hlist _ e d' rfl
      cases e with
      | cut u head' => exact hfound.1
      | cleared u => exact hfound.2
      | _ => cases he
    have hsplit := unparked_since_cut hlist.of_append hd
    rw [hempty, List.append_nil] at hsplit
    exact hsplit.symm
  cleared := by
    rintro a t b rfl c u p d rfl ⟨v, head, hv⟩
    by_contra hnot
    have hempty := (h _ _ b rfl).2
    rcases mem_of_pushed h.of_append fun w hw => hnot ⟨w, hw⟩ with ⟨hno, -⟩ | hp
    · exact hno v head hv
    · rw [hempty] at hp
      cases hp

end Log

/-! ## Steps of a run in which nobody aborts -/

/-- The places of `abort_self`. -/
def inAbort : Pc → Bool
  | .abortLoad .. | .abortLock .. | .scanNext .. | .headNext .. | .readTail .. | .writeTail ..
  | .headCas .. | .midNext .. | .midWrite .. | .midRelease .. | .unparkSelf .. | .lost .. => true
  | _ => false

/-- Outside `abort_self` nobody holds the queue lock. -/
theorem holdsQueue_of_not_inAbort {pc : Pc} (h : inAbort pc = false) : holdsQueue pc = false := by
  cases pc <;> first | rfl | cases h

/-- Outside `abort_self` a thread that has pushed its node is about to sleep. -/
theorem waiting_of_linked {pc : Pc} {p : Ptr} (hl : linkedNode pc = some p)
    (h : inAbort pc = false) : (∃ n, pc = .retryAgain n p) ∨ ∃ n, pc = .park n p := by
  cases pc with
  | retryAgain n q =>
    cases hl
    exact .inl ⟨n, rfl⟩
  | park n q =>
    cases hl
    exact .inr ⟨n, rfl⟩
  | _ => first | (cases hl; done) | cases h

section Step

variable {τ : Type} {t u : τ} {c : Choice} {m m' : Mem τ} {pc pc' : Pc} {es log : List (Event τ)}

/-- `abort_self` is called only where `retry` answers `true` after a push. -/
theorem inAbort_of_step (hr : threadStep t c m pc = some (m', pc', es)) (h : inAbort pc = false)
    (hretry : ∀ counter p, pc = .retryAgain counter p → c.retry = false) :
    inAbort pc' = false := by
  cases pc with
  | retryAgain counter p =>
    rw [threadStep, hretry counter p rfl] at hr
    cases hr
    rfl
  | unparkAll | cut | walkUnpark | recut =>
    simp only [threadStep, unparkAllLoop, afterCut, walk] at hr
    (repeat' split at hr) <;> cases hr <;> rfl
  | _ =>
    first
    | (cases h; done)
    | (simp only [threadStep] at hr
       (repeat' split at hr) <;> cases hr <;> rfl)

/-- `unpark_all` returns before its first cut, or as it clears the bit. -/
theorem returned_of_step (hr : threadStep t c m pc = some (m', pc', es))
    (hm : .returned u .unparkAll ∈ es) : u = t ∧ (holdsClear pc = false ∨ .cleared t ∈ es) := by
  cases pc with
  | clear =>
    cases hr
    simpa using hm
  | unparkAll counter =>
    cases hr
    split at hm
    · exact ⟨by simpa using hm, .inl rfl⟩
    · cases hm
  | cut counter state =>
    simp only [threadStep] at hr
    split at hr <;> cases hr
    · simp at hm
    split at hm
    · exact ⟨by simpa using hm, .inl rfl⟩
    · cases hm
  | _ =>
    simp only [threadStep] at hr
    (repeat' split at hr) <;> cases hr <;> simp at hm

/-- Only the thread of a node ends its frame. -/
theorem frame_of_step {q : Ptr} (hr : threadStep t c m pc = some (m', pc', es))
    (hown : ownNode pc ≠ some q) (hframe : m.frame q ≠ none) : m'.frame q = m.frame q := by
  cases pc with
  | withThreadData counter state =>
    simp only [threadStep] at hr
    split at hr <;> cases hr
    rename_i haddr
    refine Mem.alloc_frame_of_ne _ _ ?_
    rintro rfl
    exact hframe (Option.isNone_iff_eq_none.mp haddr.2)
  | _ =>
    simp only [threadStep] at hr
    (repeat' split at hr) <;> cases hr <;>
      first | rfl | exact Mem.free_frame_of_ne fun e => hown (by rw [e]; rfl)

end Step

/-! ## Runs -/

section Runs

variable {τ : Type} [DecidableEq τ] {s : State τ} {g g' : Ghost τ} {t : τ}
  {log es : List (Event τ)}

/-- Nodes are fresh, and `retry` answers `false` after a push. -/
def retriesFail (τ : Type) : Guard (State τ) (τ × Choice) (Event τ) := fun s log i =>
  fresh τ s log i ∧ ∀ counter p, s.pc i.1 = .retryAgain counter p → i.2.retry = false

/-- The ghost's lists are those of the log. -/
structure Logged (g : Ghost τ) (log : List (Event τ)) : Prop where
  queue : g.queue = (lists log).queue
  cut : g.cut = (lists log).cut
  clearer : g.clearer = (lists log).clearer

omit [DecidableEq τ] in
/-- Events that do not concern the lists. -/
theorem ordered_quiet {log es : List (Event τ)} (h : Each Ordered log)
    (hes : es.all (!movesList ·) = true)
    (hreturned : ∀ u, .returned u .unparkAll ∈ es → (lists log).clearer ≠ some u) :
    Each Ordered (log ++ es) ∧ lists (log ++ es) = lists log := by
  induction es generalizing log with
  | nil => simpa using h
  | cons e es ih =>
    rw [List.all_cons, Bool.and_eq_true, Bool.not_eq_true'] at hes
    have hlists : lists (log ++ [e]) = lists log := by
      rw [lists_concat, Lists.after_quiet hes.1]
    have he : Ordered log e := by
      cases e with
      | returned u op =>
        cases op with
        | park => trivial
        | unparkAll => exact hreturned u List.mem_cons_self
      | pushed | cut | unparked | cleared => cases hes.1
      | _ => trivial
    rw [← List.singleton_append, ← List.append_assoc, ← hlists]
    exact ih (h.concat he) hes.2 fun u hu => by
      rw [hlists]
      exact hreturned u (List.mem_cons_of_mem e hu)

omit [DecidableEq τ] in
/-- The events of a step find the lists as they should. -/
theorem Logged.step (hl : Logged g log) (hinv : Inv s g) (heach : Each Ordered log)
    (he : Effect t (s.pc t) g g' es) (hqueue : holdsQueue (s.pc t) = false)
    (hreturned : ∀ u, .returned u .unparkAll ∈ es →
      u = t ∧ (holdsClear (s.pc t) = false ∨ .cleared t ∈ es)) :
    Logged g' (log ++ es) ∧ Each Ordered (log ++ es) := by
  cases he with
  | quiet hclearer hq hc hes =>
    have hnot : ∀ u, .returned u .unparkAll ∈ es → (lists log).clearer ≠ some u := by
      intro u hu
      obtain ⟨rfl, hplace | hcleared⟩ := hreturned u hu
      · rw [← hl.clearer, ne_eq, ← hinv.clearer, hplace]
        decide
      · exact absurd (List.all_eq_true.mp hes _ hcleared) (by simp [movesList])
    obtain ⟨heach', hlists⟩ := ordered_quiet heach hes hnot
    refine ⟨⟨?_, ?_, ?_⟩, heach'⟩ <;> rw [hlists]
    · exact hq.trans hl.queue
    · exact hc.trans hl.cut
    · exact hclearer.trans hl.clearer
  | pushed hp hclearer hq hc =>
    refine ⟨⟨?_, ?_, ?_⟩, heach.concat trivial⟩ <;> rw [lists_concat]
    · rw [hq, hl.queue]
      rfl
    · exact hc.trans hl.cut
    · exact hclearer.trans hl.clearer
  | cut hbefore hclearer hcut hq hc =>
    refine ⟨⟨?_, ?_, ?_⟩, heach.concat ⟨hl.cut.symm.trans hcut, fun u hu => ?_⟩⟩
    · rw [lists_concat]
      exact hq
    · rw [lists_concat]
      exact hc.trans hl.queue
    · rw [lists_concat]
      exact hclearer
    · rw [← hl.clearer] at hu
      rcases hbefore with hn | ht
      · rw [hn] at hu
        cases hu
      · exact Option.some.inj (hu.symm.trans ht)
  | unparked hbefore hclearer hq hc =>
    rename_i p
    have hnd := hinv.nodup
    rw [hc] at hnd
    obtain ⟨-, hcut, hdisjoint⟩ := List.nodup_append.mp hnd
    refine ⟨⟨?_, ?_, ?_⟩, heach.concat ⟨hl.clearer.symm.trans hbefore, g'.cut, ?_, ?_, ?_⟩⟩
    · rw [lists_concat]
      exact hq.trans hl.queue
    · rw [lists_concat, show ((lists log).after (.unparked t p)).cut = (lists log).cut.tail from rfl,
        ← hl.cut, hc, List.tail_cons]
    · rw [lists_concat]
      exact hclearer.trans hl.clearer
    · exact hl.cut.symm.trans hc
    · exact (List.nodup_cons.mp hcut).1
    · rw [← hl.queue]
      exact fun hm => hdisjoint p hm p List.mem_cons_self rfl
  | cleared hbefore hclearer hcut hq hc =>
    have hcleared : Each Ordered (log ++ [.cleared t]) :=
      heach.concat ⟨hl.clearer.symm.trans hbefore, hl.cut.symm.trans hcut⟩
    have hlists : lists (log ++ [.cleared t, .returned t .unparkAll]) =
        { lists log with clearer := none } := lists_append _ _
    refine ⟨⟨?_, ?_, ?_⟩, ?_⟩
    · rw [hlists]
      exact hq.trans hl.queue
    · rw [hlists]
      exact hc.trans hl.cut
    · rw [hlists]
      exact hclearer
    · rw [← List.singleton_append, ← List.append_assoc]
      refine hcleared.concat ?_
      rw [Ordered, lists_concat]
      simp [Lists.after]
  | removed hp hlock =>
    rw [hqueue] at hlock
    cases hlock

/-- What a run in which nobody aborts keeps. -/
structure SweepInv (s : State τ) (log : List (Event τ)) : Prop where
  inv : ∃ g, Inv s g ∧ Logged g log
  place : ∀ t, inAbort (s.pc t) = false
  ordered : Each Ordered log

/-- Every run without an abort keeps the invariant. -/
theorem exec_sweepInv (run : Exec (machine τ) (retriesFail τ) s log) : SweepInv s log := by
  refine run.invariant SweepInv ?_ ?_
  · rintro s rfl
    exact ⟨⟨_, inv_new, rfl, rfl, rfl⟩, fun _ => rfl, each_nil⟩
  · rintro s log ⟨t, c⟩ s' es ⟨⟨g, h, hl⟩, hplace, heach⟩ ⟨hfresh, hretry⟩ hr
    obtain ⟨m', pc', hthread, rfl⟩ := machine_next hr
    have hok : abortInTime c.spurious s.mem (s.pc t) = true := by
      have hpc := hplace t
      cases hs : s.pc t <;> rw [hs] at hpc <;> first | rfl | cases hpc
    obtain ⟨g', h', he⟩ := step_advance h (fun _ state _ => hfresh ▸ clean_new state) hok hthread
    obtain ⟨hl', heach'⟩ := hl.step h heach he (holdsQueue_of_not_inAbort (hplace t))
      fun u hu => returned_of_step hthread hu
    exact ⟨⟨g', h', hl'⟩, Threads.forall_moveTo (fun _ pc => inAbort pc = false)
      (inAbort_of_step hthread (hplace t) hretry) fun u _ => hplace u, heach'⟩

/-- **Every waiter that is cut off is woken once.** In a run in which nobody aborts, the
calls of `unpark_all` do what is promised; the word's list is, in every state, that of the
nodes pushed since the last cut; and as long as the `next` pointer of a node that was cut
off may still be read, no step ends the frame that the node stands in. -/
theorem unpark_all_wakes (run : Exec (machine τ) (retriesFail τ) s log) :
    EachOnce log ∧
      Chain null (nextOf s.mem.node) (queueHead s.mem.word) (queueOf log) ∧ (queueOf log).Nodup ∧
      ∀ t head, (s.pc t = .walkNext head ∨ ∃ newHead, s.pc t = .walkUnpark head newHead) →
        ∃ u, s.mem.frame head = some u ∧
          ∀ i s' es, (machine τ).next i s = some (s', es) → s'.mem.frame head = some u := by
  obtain ⟨⟨g, h, hl⟩, hplace, heach⟩ := exec_sweepInv run
  have hqueue : queueOf log = g.queue := hl.queue.symm
  refine ⟨eachOnce_of_ordered heach, ?_, ?_, ?_⟩
  · rw [hqueue]
    exact h.chain
  · rw [hqueue]
    exact (List.nodup_append.mp h.nodup).1
  · intro t head hpc
    have hmem : head ∈ g.cut := by
      have ht := h.thread t
      rcases hpc with hpc | ⟨newHead, hpc⟩ <;> rw [hpc] at ht
      · exact ht.2.reach_iff.mp (.here ht.1)
      · exact ht.2.1.reach_iff.mp (.here ht.1)
    obtain ⟨hparker, u, hu⟩ := h.linked head (.inr hmem)
    have hframe := ((h.thread u).framed (ownNode_of_linkedNode hu)).frame
    refine ⟨u, hframe, fun i s' es hr => ?_⟩
    obtain ⟨m', pc', hthread, rfl⟩ := machine_next hr
    by_cases hown : ownNode (s.pc i.1) = some head
    · -- the owner goes on to its parker, and no further
      obtain rfl : i.1 = u := h.own_unique (ownNode_of_linkedNode hu) hown
      rcases waiting_of_linked hu (hplace i.1) with ⟨n, hs⟩ | ⟨n, hs⟩ <;> rw [hs] at hthread
      · cases hthread
        exact hframe
      · simp only [threadStep, hparker, Bool.false_eq_true, if_false] at hthread
        cases hthread
    · rw [← hframe]
      exact frame_of_step hthread hown (by rw [hframe]; simp)

end Runs

/-- Two threads push their nodes, and a third cuts both off, wakes them and returns. -/
theorem unpark_all_wakes_two : ∃ (s : State (Fin 3)) (log : List (Event (Fin 3))),
    s.pc 2 = .outside ∧ unparkedNodes log = [16, 8] ∧ EachOnce log := by
  obtain ⟨s, log, run, hend⟩ := exists_exec_of_run (machine (Fin 3)) (retriesFail (Fin 3))
    (fun _ _ i => decide (i.2.leftover = ThreadData.new) && !i.2.retry)
    (by
      intro s log i hcheck
      simp only [Bool.and_eq_true, decide_eq_true_eq, Bool.not_eq_true'] at hcheck
      exact ⟨hcheck.1, fun _ _ _ => hcheck.2⟩)
    rfl (steps 0 13 false ++ [(0, { addr := 8 })] ++ steps 0 5 false ++
      steps 1 13 false ++ [(1, { addr := 16 })] ++ steps 1 5 false ++
      [(2, { op := .unparkAll })] ++ steps 2 9 false)
    (fun s log => decide (s.pc 2 = .outside) && decide (unparkedNodes log = [16, 8]))
    (by decide +kernel)
  simp only [Bool.and_eq_true, decide_eq_true_eq] at hend
  exact ⟨s, log, hend.1, hend.2, (unpark_all_wakes run).1⟩

end Mekong.Analysis.ParkingQueue
