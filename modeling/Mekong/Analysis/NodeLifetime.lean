import Mekong.Analysis.ParkingQueueRuns

/-!
# No list of a `ParkingQueue` holds a dangling node

A `ThreadData` lives on the stack of one call of `with_thread_data`, and other threads
reach it through the word's list, through a list that `unpark_all` has cut off, and from
`abort_self`. `NodesLive` says that every node reached so stands in the frame of a call
that has not returned.

It holds in every run whose aborts are in time. It fails where `try_lock_queue!` gives up
although the node is still in a list: `abort_self` returns, and the node with it.
-/

set_option autoImplicit false

namespace Mekong.Analysis.ParkingQueue

open Mekong.Computation Mekong.Computation.NextChain Mekong.Model Mekong.Program.ParkingQueue

/-- Where the unfinished part of a list that `unpark_all` has cut off begins. -/
def cutHeads : Pc → List Ptr
  | .walkNext head => [head]
  | .walkUnpark head newHead => [head, newHead]
  | _ => []

/-- The nodes that `abort_self` is visiting. -/
def visits : Pc → List Ptr
  | .scanNext _ p _ curr => [p, curr]
  | .headNext _ p _ | .headCas _ p _ _ | .midRelease _ p | .unparkSelf _ p | .lost _ p _ => [p]
  | .readTail _ p _ newHead | .writeTail _ p _ newHead _ => [p, newHead]
  | .midNext _ p prev | .midWrite _ p prev _ => [p, prev]
  | _ => []

section Property

variable {τ : Type}

/-- A node that some thread can still reach. -/
inductive InLists (s : State τ) (p : Ptr) : Prop
  | queued (h : Reach null (nextOf s.mem.node) (queueHead s.mem.word) p)
  | cut {u : τ} {head : Ptr} (hu : head ∈ cutHeads (s.pc u))
      (h : Reach null (nextOf s.mem.node) head p)
  | visited {u : τ} (h : p ∈ visits (s.pc u))

/-- Every node that can be reached stands in the frame of a call that has not returned. -/
def NodesLive (s : State τ) : Prop :=
  ∀ p, InLists s p → ∃ t, s.mem.frame p = some t ∧ ownNode (s.pc t) = some p

end Property

section Lists

variable {τ : Type} {s : State τ} {m : Mem τ} {g : Ghost τ} {t u : τ} {pc : Pc} {p : Ptr}

/-- What a thread's cut list leads to is the ghost's. -/
theorem ThreadInv.cut_reach (h : ThreadInv m g u pc) {head : Ptr} (hu : head ∈ cutHeads pc)
    (hr : Reach null (nextOf m.node) head p) : p ∈ g.cut := by
  cases pc with
  | walkNext a =>
      obtain rfl := List.mem_singleton.mp hu
      exact h.2.reach_iff.mp hr
  | walkUnpark a new =>
      obtain ⟨ha, hchain, hnew⟩ := h
      rcases List.mem_pair.mp hu with rfl | rfl
      · exact hchain.reach_iff.mp hr
      · exact hchain.reach_iff.mp (.step ha (by rwa [nextOf, ← hnew]))
  | _ => cases hu

/-- The nodes of the ghost's cut list are reached by the thread that clears. -/
theorem ThreadInv.reach_cut (h : ThreadInv m g u pc) (hc : holdsClear pc = true)
    (hp : p ∈ g.cut) : ∃ head, head ∈ cutHeads pc ∧ Reach null (nextOf m.node) head p := by
  have hne : g.cut ≠ [] := List.ne_nil_of_mem hp
  cases pc with
  | walkNext head => exact ⟨head, List.mem_singleton_self head, h.2.reach_iff.mpr hp⟩
  | walkUnpark head new => exact ⟨head, List.mem_cons_self, h.2.1.reach_iff.mpr hp⟩
  | reload => exact absurd h hne
  | recut state => exact absurd h hne
  | clear => exact absurd h hne
  | _ => cases hc

/-- `abort_self` visits its own node and nodes of the word's list. -/
theorem ThreadInv.visited (h : ThreadInv m g u pc) (hp : p ∈ visits pc) :
    ownNode pc = some p ∨ p ∈ g.queue := by
  cases pc with
  | scanNext counter q state curr =>
      obtain ⟨-, prev, rest, hw, -⟩ := h
      obtain ⟨v, hv⟩ := hw.split
      rcases List.mem_pair.mp hp with rfl | rfl
      · exact .inl rfl
      · exact .inr (by rw [hv]; simp)
  | readTail counter q state newHead =>
      rcases List.mem_pair.mp hp with rfl | rfl
      · exact .inl rfl
      · exact .inr h.2.2.2.2
  | writeTail counter q state newHead tail =>
      rcases List.mem_pair.mp hp with rfl | rfl
      · exact .inl rfl
      · exact .inr h.2.2.2.2
  | midNext counter q prev =>
      obtain ⟨-, v, w, hv⟩ := h
      rcases List.mem_pair.mp hp with rfl | rfl
      · exact .inl rfl
      · exact .inr (by rw [hv]; simp)
  | midWrite counter q prev next =>
      obtain ⟨-, ⟨v, w, hv⟩, -⟩ := h
      rcases List.mem_pair.mp hp with rfl | rfl
      · exact .inl rfl
      · exact .inr (by rw [hv]; simp)
  | lost => exact h.elim
  | headNext => exact .inl (congrArg some (List.mem_singleton.mp hp).symm)
  | headCas => exact .inl (congrArg some (List.mem_singleton.mp hp).symm)
  | midRelease => exact .inl (congrArg some (List.mem_singleton.mp hp).symm)
  | unparkSelf => exact .inl (congrArg some (List.mem_singleton.mp hp).symm)
  | _ => cases hp

/-- The reachable nodes are those of the two lists and the threads' own. -/
theorem Inv.of_inLists (h : Inv s g) (hp : InLists s p) :
    g.Linked p ∨ ∃ u, ownNode (s.pc u) = some p := by
  cases hp with
  | queued hr => exact .inl (.inl (h.chain.reach_iff.mp hr))
  | @cut u _ hu hr => exact .inl (.inr ((h.thread u).cut_reach hu hr))
  | @visited u hv =>
      exact ((h.thread u).visited hv).elim (fun ho => .inr ⟨u, ho⟩) fun hq => .inl (.inl hq)

/-- A node of one of the lists can be reached without the help of a thread that does not
clear. -/
theorem Inv.inLists (h : Inv s g) (hp : g.Linked p) {m' : Mem τ} {pc' : Pc} [DecidableEq τ]
    (hw : m'.word = s.mem.word) (hn : m'.node = s.mem.node) (ht : holdsClear (s.pc t) = false) :
    InLists (s.moveTo t m' pc') p := by
  rcases hp with hq | hc
  · refine .queued ?_
    rw [Threads.moveTo_mem, hw, hn]
    exact h.chain.reach_iff.mpr hq
  · obtain ⟨u, hu⟩ : ∃ u, g.clearer = some u := by
      refine Option.ne_none_iff_exists'.mp fun hnone => ?_
      rw [h.uncut hnone] at hc
      cases hc
    have hclear := (h.clearer u).mpr hu
    have hut : u ≠ t := by
      rintro rfl
      rw [ht] at hclear
      cases hclear
    obtain ⟨head, hhead, hr⟩ := (h.thread u).reach_cut hclear hc
    exact .cut (u := u) (by rwa [Threads.moveTo_pc_of_ne _ _ _ hut]) (by rwa [Threads.moveTo_mem, hn])

/-- The invariant says that every node a thread may access is in a frame. -/
theorem Inv.nodesLive (h : Inv s g) : NodesLive s := by
  intro p hp
  obtain ⟨u, hu⟩ : ∃ u, ownNode (s.pc u) = some p := by
    rcases h.of_inLists hp with hl | ho
    · obtain ⟨-, u, hu⟩ := h.linked p hl
      exact ⟨u, ownNode_of_linkedNode hu⟩
    · exact ho
  exact ⟨u, ((h.thread u).framed hu).frame, hu⟩

end Lists

/-! ## Leaving the frame -/

section Leave

variable {τ : Type} {m m' : Mem τ} {t u : τ} {pc pc' : Pc} {c : Choice} {es : List (Event τ)}
  {p : Ptr}

/-- When `with_thread_data` returns, its frame is gone. -/
theorem left_frame (hr : threadStep t c m pc = some (m', pc', es)) (hl : .left u p ∈ es) :
    m'.frame p = none := by
  cases pc <;> simp only [threadStep] at hr <;> (repeat' split at hr) <;> cases hr <;>
    simp only [List.mem_cons, List.not_mem_nil, or_false, reduceCtorEq, Event.left.injEq] at hl <;>
    (obtain ⟨rfl, rfl⟩ := hl; exact Mem.free_frame_self)

/-- A step at which `try_lock_queue!` gives up leaves the word and the nodes. -/
theorem giveUp_step (hpc : (∃ n, pc = .abortLoad n p) ∨ ∃ n w, pc = .abortLock n p w)
    (hr : threadStep t c m pc = some (m', pc', es)) (hl : .left t p ∈ es) : m' = m.free p := by
  rcases hpc with ⟨n, rfl⟩ | ⟨n, w, rfl⟩
  · simp only [threadStep] at hr
    split at hr <;> cases hr
    · rfl
    · cases hl
  · simp only [threadStep] at hr
    split at hr
    · cases hr
      simp at hl
    · split at hr <;> cases hr
      · rfl
      · cases hl

end Leave

section Main

variable {τ : Type} [DecidableEq τ] {s : State τ} {log : List (Event τ)}

/-- `abort_self` gives up with a node that has not been notified. -/
def GivesUpLinked (s : State τ) (t : τ) (p : Ptr) : Prop :=
  ((∃ n, s.pc t = .abortLoad n p) ∨ ∃ n w, s.pc t = .abortLock n p w) ∧
    (s.mem.node p).parker = false

/-- **Nodes live as long as they can be reached, exactly while aborts are in time.** In
every state of a run whose aborts are in time, every node in a list stands in the frame
of a call that has not returned, and no list holds the node of a call that returns. The
first abort that gives up with its node not notified leaves a list with a dangling node. -/
theorem nodes_live (run : Exec (machine τ) (abortsInTime τ) s log) :
    NodesLive s ∧
      (∀ i s' es t p, abortsInTime τ s log i → (machine τ).next i s = some (s', es) →
        .left t p ∈ es → ¬ InLists s' p) ∧
      ∀ i s' es p, GivesUpLinked s i.1 p → (machine τ).next i s = some (s', es) →
        .left i.1 p ∈ es → InLists s' p ∧ ¬ NodesLive s' := by
  obtain ⟨g, h⟩ := exec_inv run
  refine ⟨h.nodesLive, ?_, ?_⟩
  · rintro i s' es t p hok hr hl hin
    obtain ⟨g', h'⟩ := exec_inv (.step run hok hr)
    obtain ⟨u, hu, -⟩ := h'.nodesLive p hin
    obtain ⟨m', pc', hthread, rfl⟩ := machine_next hr
    rw [Threads.moveTo_mem, left_frame hthread hl] at hu
    cases hu
  · rintro i s' es p ⟨hpc, hparker⟩ hr hl
    obtain ⟨m', pc', hthread, rfl⟩ := machine_next hr
    obtain rfl := giveUp_step hpc hthread hl
    have hpushed : Pushed s.mem g i.1 p := by
      have ht := h.thread i.1
      rcases hpc with ⟨n, hpc⟩ | ⟨n, w, hpc⟩ <;> rw [hpc] at ht
      · exact ht
      · exact ht.1
    have hlinked : g.Linked p := hpushed.linked.resolve_right (by rw [hparker]; decide)
    have hclear : holdsClear (s.pc i.1) = false := by
      rcases hpc with ⟨n, hpc⟩ | ⟨n, w, hpc⟩ <;> rw [hpc] <;> rfl
    have hin : InLists (s.moveTo i.1 (s.mem.free p) pc') p := h.inLists hlinked rfl rfl hclear
    refine ⟨hin, fun hlive => ?_⟩
    obtain ⟨u, hu, -⟩ := hlive p hin
    rw [Threads.moveTo_mem, Mem.free_frame_self] at hu
    cases hu

end Main

/-! ## Two runs -/

/-- A call of `park` by `t` up to its second `retry()`, on an empty queue, with the node
at `p`. -/
def pushSchedule {τ : Type} (t : τ) (p : Ptr) : List (τ × Choice) :=
  steps t 13 false ++ [(t, { addr := p })] ++ steps t 4 false

/-- A waiter that aborts alone takes its node out in time. -/
theorem nodes_live_abort :
    ∃ (s : State Bool) (log : List (Event Bool)), .pushed false 8 ∈ log ∧ .left false 8 ∈ log ∧
      s.pc false = .outside ∧ NodesLive s := by
  obtain ⟨s, log, run, hend⟩ := exists_exec_of_run (machine Bool) (abortsInTime Bool)
    (fun s _ i => decide (i.2.leftover = ThreadData.new) &&
      abortInTime i.2.spurious s.mem (s.pc i.1))
    (fun s log i hi => by simpa [abortsInTime, fresh] using hi) rfl
    (pushSchedule false 8 ++ steps false 9 true)
    (fun s log => decide (.pushed false 8 ∈ log) && decide (.left false 8 ∈ log) &&
      decide (s.pc false = .outside)) (by decide +kernel)
  simp only [Bool.and_eq_true, decide_eq_true_eq] at hend
  exact ⟨s, log, hend.1.1, hend.1.2, hend.2, (nodes_live run).1⟩

/-- A waiter pushes its node, an `unpark_all` cuts it off, and the waiter, whose second
`retry` succeeds, gives up on `QUEUE_CLEAR_BIT` and returns: the list that the other
thread is about to walk begins with its node. -/
theorem nodes_live_fails :
    ¬ ∀ (s : State Bool) log, Exec (machine Bool) (fresh Bool) s log → NodesLive s := by
  intro hall
  obtain ⟨s, log, run, hend⟩ := exists_exec_of_run (machine Bool) (fresh Bool)
    (fun _ _ i => decide (i.2.leftover = ThreadData.new))
    (fun s log i hi => by simpa [fresh] using hi) rfl
    (pushSchedule false 8 ++ [(true, { op := .unparkAll })] ++ steps true 2 false ++
      steps false 2 true)
    (fun s _ => decide (s.pc true = .walkNext 8) && decide (s.mem.frame 8 = none))
    (by decide +kernel)
  simp only [Bool.and_eq_true, decide_eq_true_eq] at hend
  have hcut : 8 ∈ cutHeads (s.pc true) := by rw [hend.1]; simp [cutHeads]
  have hin : InLists s 8 := .cut hcut (.here (by decide))
  obtain ⟨t, ht, -⟩ := hall s log run 8 hin
  rw [hend.2] at ht
  cases ht

end Mekong.Analysis.ParkingQueue
