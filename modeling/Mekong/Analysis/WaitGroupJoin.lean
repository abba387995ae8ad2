import Mekong.Analysis.WaitGroupCounter
import Mekong.Program.WaitGroupClient

/-!
# `done` synchronizes before the return of `wait`

Threads that use a `WaitGroup` as its documentation asks share their data without a race.
The counter is the number of the calls of `done` that are owed, so `wait` returns when
there are none. Until then all accesses of a location are its owner's, and someone who
still owes a `done`, or the counter, knows of them; with the test that ends it, `wait`
acquires them from the counter.
-/

set_option autoImplicit false

namespace Mekong.Analysis.WaitGroupClient

open Mekong.Computation Mekong.Computation.HappensBefore Mekong.Model Mekong.Program
  Mekong.Program.WaitGroupClient Mekong.Analysis.WaitGroup

section Steps

variable {τ ℓ : Type} {t : τ} {c : WaitGroup.Choice} {m m' : WaitGroup.Shared τ}
  {pc pc' : ParkingQueue.Pc} {es : List (WaitGroup.Event τ)}

/-- `park` returns where `retry` answers `true`. -/
theorem park_returned {c : ParkingQueue.Choice} {q q' : Mem τ} {es : List (ParkingQueue.Event τ)}
    (hr : ParkingQueue.threadStep t c q pc = some (q', pc', es)) (he : .returned t .park ∈ es) :
    (∃ n, pc = .retry n) ∧ c.retry = true := by
  cases pc
  case retry n =>
    simp only [ParkingQueue.threadStep] at hr
    split at hr
    · rename_i hretry
      exact ⟨⟨n, rfl⟩, hretry⟩
    · split at hr <;> cases hr <;> cases he
  case unparkAll | cut =>
    simp only [ParkingQueue.threadStep] at hr
    (repeat' split at hr) <;> cases hr <;> simp at he
  all_goals
    simp only [ParkingQueue.threadStep] at hr
    (repeat' split at hr) <;> cases hr <;> simp at he

/-- `wait` returns where the counter is zero. -/
theorem wait_returned (hr : WaitGroup.threadStep t c m pc = some (m', pc', es))
    (he : .queue (.returned t .park) ∈ es) : (∃ n, pc = .retry n) ∧ m.workers = 0 := by
  have inQueue : ∀ {c' : ParkingQueue.Choice}, WaitGroup.queueStep t c' m pc = some (m', pc', es) →
      (∃ n, pc = .retry n) ∧ m.workers = 0 := by
    intro c' hq
    simp only [WaitGroup.queueStep, Option.map_eq_some_iff] at hq
    obtain ⟨⟨q, pc₁, es₁⟩, hstep, hres⟩ := hq
    cases hres
    have hmem : .returned t .park ∈ es₁ := by simpa using he
    obtain ⟨hpc, hretry⟩ := park_returned hstep hmem
    exact ⟨hpc, of_decide_eq_true hretry⟩
  by_cases hpc : pc = .outside
  · subst hpc
    simp only [WaitGroup.threadStep] at hr
    split at hr
    · cases hr
      simp at he
    · (repeat' split at hr) <;> cases hr <;> simp at he
    · exact inQueue hr
  · have hq : WaitGroup.queueStep t c.queue m pc = some (m', pc', es) := by
      cases pc <;> first | exact absurd rfl hpc | exact hr
    exact inQueue hq

section Joined

variable [DecidableEq τ] (joined : τ → Bool)

/-- Who has returned after a step had returned before it, or returns where the counter is
zero. -/
theorem joined_of_step (hr : WaitGroup.threadStep t c m pc = some (m', pc', es)) (u : τ)
    (hu : joinedAfter t joined es u = true) :
    joined u = true ∨ u = t ∧ (∃ n, pc = .retry n) ∧ m.workers = 0 := by
  rw [joinedAfter] at hu
  split at hu
  · rename_i he
    by_cases hut : u = t
    · exact .inr ⟨hut, wait_returned hr he⟩
    · rw [Function.update_of_ne hut] at hu
      exact .inl hu
  · exact .inl hu

/-- Nobody returns from `wait` in a step that begins a call. -/
theorem joinedAfter_outside (hr : WaitGroup.threadStep t c m pc = some (m', pc', es))
    (hpc : pc = .outside) : joinedAfter t joined es = joined := by
  rw [joinedAfter, if_neg]
  intro he
  obtain ⟨⟨n, hretry⟩, -⟩ := wait_returned hr he
  rw [hpc] at hretry
  cases hretry

end Joined

/-- The operations on the counter access no location. -/
theorem no_conflict {op : WaitGroup.Op} {l : ℓ} {w : Bool} :
    ∀ a ∈ (actions op pc : List (Action Obj ℓ)), ¬ Conflicts l w a := by
  intro a ha
  cases a with
  | sync => exact id
  | access l' w' =>
    unfold actions at ha
    (repeat' split at ha) <;> simp at ha

end Steps

section Runs

variable {τ ℓ : Type} [DecidableEq τ] {owner : ℓ → τ} {s s' : State τ} {t : τ}
  {log es : List (Entry τ Obj ℓ)}

/-- What holds along a run, of the counter and of who knows of the writes. -/
structure Sharing (owner : ℓ → τ) (s : State τ) (log : List (Entry τ Obj ℓ)) : Prop where
  counter : s.group.mem.workers.toNat = s.owed.length
  fits : s.owed.length < 2 ^ 63
  waits : ∀ t, s.joined t = true → s.owed = []
  writer : ∀ (i : ℕ) (t : τ) (l : ℓ), log[i]? = some ⟨t, .access l true⟩ → owner l = t
  alone : s.owed ≠ [] → ∀ (i : ℕ) (t : τ) (l : ℓ) (w : Bool),
    log[i]? = some ⟨t, .access l w⟩ → owner l = t
  given : ∀ l, Known log (.object .workers) (Conflicts l false) ∨
    ∃ u ∈ s.owed, Known log (.thread u) (Conflicts l false)
  joined : ∀ t, s.joined t = true → ∀ l, Known log (.thread t) (Conflicts l false)

omit [DecidableEq τ] in
/-- An owner knows of the writes of what it owns. -/
theorem Sharing.own (h : Sharing owner s log) (l : ℓ) :
    Known log (.thread (owner l)) (Conflicts l false) := by
  refine known_of_own fun i u a hi ha => ?_
  cases a with
  | sync => exact ha.elim
  | access l' w =>
    obtain ⟨rfl, hw⟩ := ha
    rw [hw.resolve_right Bool.false_ne_true] at hi
    exact (h.writer i u l' hi).symm

omit [DecidableEq τ] in
/-- As long as a call is owed, an owner knows of all accesses of what it owns. -/
theorem Sharing.own_all (h : Sharing owner s log) (howed : s.owed ≠ []) (l : ℓ) :
    Known log (.thread (owner l)) (Conflicts l true) := by
  refine known_of_own fun i u a hi ha => ?_
  cases a with
  | sync => exact ha.elim
  | access l' w =>
    obtain ⟨rfl, -⟩ := ha
    exact (h.alone howed i u l' w hi).symm

omit [DecidableEq τ] in
/-- Entries that are no accesses. -/
theorem Sharing.accesses {log' : List (Entry τ Obj ℓ)} (h : Sharing owner s log)
    (hsame : ∀ (i : ℕ) (u : τ) (l : ℓ) (w : Bool), log'[i]? = some ⟨u, .access l w⟩ →
      log[i]? = some ⟨u, .access l w⟩) :
    (∀ (i : ℕ) (u : τ) (l : ℓ), log'[i]? = some ⟨u, .access l true⟩ → owner l = u) ∧
      (s.owed ≠ [] → ∀ (i : ℕ) (u : τ) (l : ℓ) (w : Bool),
        log'[i]? = some ⟨u, .access l w⟩ → owner l = u) :=
  ⟨fun i u l hi => h.writer i u l (hsame i u l true hi),
    fun howed i u l w hi => h.alone howed i u l w (hsame i u l w hi)⟩

omit [DecidableEq τ] in
/-- As long as a call is owed, nobody has returned from `wait`. -/
theorem Sharing.not_joined (h : Sharing owner s log) (howed : s.owed ≠ []) (t : τ) :
    s.joined t ≠ true :=
  fun hj => howed (h.waits t hj)

omit [DecidableEq τ] in
/-- Who knows of the writes still does, as long as it owes a call. -/
theorem Sharing.given_keep {as : List (Action Obj ℓ)} {owed' : List τ} (h : Sharing owner s log)
    (l : ℓ) (hnone : ∀ a ∈ as, ¬ Conflicts l false a) (howed : ∀ u ∈ s.owed, u ∈ owed') :
    Known (log ++ entries t as) (.object .workers) (Conflicts l false) ∨
      ∃ u ∈ owed', Known (log ++ entries t as) (.thread u) (Conflicts l false) := by
  refine (h.given l).imp (fun hk => hk.keep hnone) ?_
  rintro ⟨u, hu, hk⟩
  exact ⟨u, howed u hu, hk.keep hnone⟩

/-! ## The steps of the `WaitGroup` -/

omit [DecidableEq τ] in
/-- Operations on the counter. -/
theorem Sharing.accesses_group (h : Sharing owner s log) (t : τ) (op : WaitGroup.Op)
    (pc : ParkingQueue.Pc) :
    (∀ (i : ℕ) (u : τ) (l : ℓ), (log ++ entries t (actions op pc))[i]? =
      some ⟨u, .access l true⟩ → owner l = u) ∧
      (s.owed ≠ [] → ∀ (i : ℕ) (u : τ) (l : ℓ) (w : Bool),
        (log ++ entries t (actions op pc))[i]? = some ⟨u, .access l w⟩ → owner l = u) := by
  refine h.accesses fun i u l w hi => ?_
  rcases getElem?_entries hi with hi | ⟨-, ha⟩
  · exact hi
  · exact absurd (show Conflicts l true (.access l w) from ⟨rfl, .inr rfl⟩) (no_conflict _ ha)

omit [DecidableEq τ] in
/-- An `add` while a call is owed. -/
theorem Sharing.add {n : U64} {s' : State τ} {op : WaitGroup.Op} {pc : ParkingQueue.Pc}
    (h : Sharing owner s log) (howed : s.owed ≠ []) (hfits : s.owed.length + n.toNat < 2 ^ 63)
    (hworkers : s'.group.mem.workers = s.group.mem.workers + n)
    (howed' : s'.owed = List.replicate n.toNat t ++ s.owed) (hjoined : s'.joined = s.joined) :
    Sharing owner s' (log ++ entries t (actions op pc)) := by
  obtain ⟨hwriter, halone⟩ := h.accesses_group t op pc
  have hnone : ∀ u, s'.joined u ≠ true := by
    rw [hjoined]
    exact h.not_joined howed
  refine ⟨?_, ?_, fun u hu => absurd hu (hnone u), hwriter, fun _ => halone howed, fun l => ?_,
    fun u hu => absurd hu (hnone u)⟩
  · rw [hworkers, BitVec.toNat_add, h.counter, howed', List.length_append, List.length_replicate]
    omega
  · rw [howed', List.length_append, List.length_replicate]
    omega
  · refine h.given_keep l no_conflict fun u hu => ?_
    rw [howed']
    exact List.mem_append_right _ hu

/-- A `done` that is owed. -/
theorem Sharing.done {s' : State τ} (h : Sharing owner s log) (ht : t ∈ s.owed)
    (hworkers : s'.group.mem.workers = s.group.mem.workers - 1)
    (howed' : s'.owed = s.owed.erase t) (hjoined : s'.joined = s.joined) :
    Sharing owner s' (log ++ entries t (actions .done .outside)) := by
  have howed : s.owed ≠ [] := List.ne_nil_of_mem ht
  obtain ⟨hwriter, halone⟩ := h.accesses_group t .done .outside
  have hnone : ∀ u, s'.joined u ≠ true := by
    rw [hjoined]
    exact h.not_joined howed
  have hlength : s'.owed.length = s.owed.length - 1 := by rw [howed', List.length_erase_of_mem ht]
  have hpos : 0 < s.owed.length := List.length_pos_of_mem ht
  have hfits := h.fits
  refine ⟨?_, by omega, fun u hu => absurd hu (hnone u), hwriter, fun _ => halone howed, fun l => ?_,
    fun u hu => absurd hu (hnone u)⟩
  · rw [hworkers, BitVec.toNat_sub, show (1 : U64).toNat = 1 from rfl, h.counter, hlength]
    omega
  · rcases h.given l with hk | ⟨u, hu, hk⟩
    · exact .inl (hk.keep no_conflict)
    · by_cases hut : u = t
      · -- the last to know hands it to the counter
        subst hut
        exact .inl (hk.release rfl)
      · refine .inr ⟨u, ?_, hk.keep no_conflict⟩
        rw [howed']
        exact (List.mem_erase_of_ne hut).mpr hu

omit [DecidableEq τ] in
/-- A step inside `wait` or `unpark_all`. -/
theorem Sharing.inside {s' : State τ} {op : WaitGroup.Op} {pc : ParkingQueue.Pc}
    (h : Sharing owner s log) (hworkers : s'.group.mem.workers = s.group.mem.workers)
    (howed' : s'.owed = s.owed) (hjoined : ∀ u, s'.joined u = true → s.joined u = true ∨
      u = t ∧ (∃ n, pc = .retry n) ∧ s.group.mem.workers = 0) :
    Sharing owner s' (log ++ entries t (actions op pc)) := by
  obtain ⟨hwriter, halone⟩ := h.accesses_group t op pc
  have hempty : s.group.mem.workers = 0 → s.owed = [] := by
    intro hzero
    have hcounter := h.counter
    rw [hzero] at hcounter
    exact List.length_eq_zero_iff.mp hcounter.symm
  refine ⟨?_, by rw [howed']; exact h.fits, fun u hu => ?_, hwriter, by rw [howed']; exact halone,
    fun l => ?_, fun u hu l => ?_⟩
  · rw [hworkers, howed']
    exact h.counter
  · rw [howed']
    rcases hjoined u hu with hu | ⟨-, -, hzero⟩
    · exact h.waits u hu
    · exact hempty hzero
  · rw [howed']
    exact h.given_keep l no_conflict fun _ hu => hu
  · rcases hjoined u hu with hu | ⟨rfl, ⟨n, rfl⟩, hzero⟩
    · exact (h.joined u hu l).keep no_conflict
    · -- nobody owes anything any more, so the counter knows
      rcases h.given l with hk | ⟨v, hv, -⟩
      · exact hk.acquire (r := false) rfl
      · rw [hempty hzero] at hv
        cases hv

/-- The steps of the `WaitGroup`. -/
theorem Sharing.group {c : WaitGroup.Choice} (h : Sharing owner s log)
    (hr : groupStep t c s = some (s', es)) : Sharing owner s' (log ++ es) := by
  simp only [groupStep] at hr
  split at hr
  · cases hr
  rename_i hcall
  simp only [Option.map_eq_some_iff, Prod.mk.injEq] at hr
  obtain ⟨⟨s₁, es₁⟩, hnext, rfl, rfl⟩ := hr
  obtain ⟨m', pc', hthread, rfl⟩ := machine_next hnext
  have hmay : s.group.pc t = .outside → mayCall s t c.op = true := by
    intro hpc
    by_contra hnot
    exact hcall ⟨hpc, Bool.not_eq_true _ ▸ hnot⟩
  have hjoined := joined_of_step s.joined hthread
  have hsame := joinedAfter_outside s.joined hthread
  have hcounter := threadStep_counter hthread
  generalize hw : m'.workers = w at hcounter
  cases hcounter with
  | add hpc hop =>
    change c.op = _ at hop
    have hmay' := hmay hpc
    rw [hop] at hmay'
    simp only [mayCall, Bool.and_eq_true, decide_eq_true_eq, Bool.not_eq_true',
      List.isEmpty_eq_false_iff] at hmay'
    exact h.add hmay'.1 hmay'.2 hw (by rw [if_pos hpc, hop]; rfl) (hsame hpc)
  | done hpc hop =>
    change s.group.pc t = _ at hpc
    change c.op = _ at hop
    have ht : t ∈ s.owed := by
      have hmay' := hmay hpc
      rw [hop] at hmay'
      exact of_decide_eq_true hmay'
    rw [hpc, hop, if_pos rfl]
    exact h.done ht hw rfl (hsame hpc)
  | panicked hpc hop hneg =>
    -- whoever owes a call is counted
    change c.op = _ at hop
    have hmay' := hmay hpc
    rw [hop] at hmay'
    have hpos : 0 < s.owed.length := List.length_pos_of_mem (of_decide_eq_true hmay')
    have hfits := h.fits
    rw [← h.counter] at hpos hfits
    have hint := (toInt_eq_toNat_iff _).mpr hfits
    omega
  | queue es hop =>
    refine h.inside hw ?_ hjoined
    by_cases hpc : s.group.pc t = .outside
    · change (if _ then owedAfter t s.owed c.op else _) = _
      rw [if_pos hpc, show c.op = .wait from hop hpc]
      rfl
    · exact if_neg hpc

/-! ## The other steps -/

/-- A call of `done` goes to another thread, and what its thread knows with it. -/
theorem Sharing.hand {u : τ} (h : Sharing owner s log) (ht : t ∈ s.owed) :
    Sharing owner { s with owed := u :: s.owed.erase t }
      (log ++ (entries t [.sync .message false true] ++ entries u [.sync .message true false])) := by
  have howed : s.owed ≠ [] := List.ne_nil_of_mem ht
  have hnone := h.not_joined howed
  have hlength : (u :: s.owed.erase t).length = s.owed.length := by
    rw [List.length_cons, List.length_erase_of_mem ht]
    have := List.length_pos_of_mem ht
    omega
  have hsync : ∀ (l : ℓ) (r a : Bool), ∀ b ∈ [(.sync .message r a : Action Obj ℓ)],
      ¬ Conflicts l false b := by
    intro l r a b hb
    rw [List.mem_singleton.mp hb]
    exact id
  have hsame : ∀ (i : ℕ) (v : τ) (l : ℓ) (w : Bool),
      (log ++ (entries t [.sync .message false true] ++
        entries u [.sync .message true false]))[i]? = some ⟨v, .access l w⟩ →
      log[i]? = some ⟨v, .access l w⟩ := by
    intro i v l w hi
    rw [← List.append_assoc] at hi
    rcases getElem?_entries hi with hi | ⟨-, ha⟩
    · rcases getElem?_entries hi with hi | ⟨-, ha⟩
      · exact hi
      · cases List.mem_singleton.mp ha
    · cases List.mem_singleton.mp ha
  obtain ⟨hwriter, halone⟩ := h.accesses hsame
  refine ⟨by rw [hlength]; exact h.counter, by rw [hlength]; exact h.fits,
    fun v hv => absurd hv (hnone v), hwriter, fun _ => halone howed, fun l => ?_,
    fun v hv => absurd hv (hnone v)⟩
  rw [← List.append_assoc]
  rcases h.given l with hk | ⟨v, hv, hk⟩
  · exact .inl ((hk.keep (hsync l _ _)).keep (hsync l _ _))
  · by_cases hvt : v = t
    · subst hvt
      exact .inr ⟨u, List.mem_cons_self, (hk.release rfl).acquire rfl⟩
    · refine .inr ⟨v, ?_, (hk.keep (hsync l _ _)).keep (hsync l _ _)⟩
      exact List.mem_cons_of_mem _ ((List.mem_erase_of_ne hvt).mpr hv)

/-- What a thread knows that may access a location. -/
theorem Sharing.known {l : ℓ} {w : Bool} (h : Sharing owner s log)
    (hmay : mayAccess owner s t l w = true) : Known log (.thread t) (Conflicts l w) := by
  simp only [mayAccess, Bool.or_eq_true, Bool.and_eq_true, decide_eq_true_eq,
    Bool.not_eq_true'] at hmay
  rcases hmay with ⟨rfl, rfl | ht⟩ | ⟨hj, rfl⟩
  · exact h.own l
  · cases w with
    | false => exact h.own l
    | true => exact h.own_all (List.ne_nil_of_mem ht) l
  · exact h.joined t hj l

omit [DecidableEq τ] in
/-- A read conflicts with no read. -/
theorem not_conflicts_read {l l' : ℓ} :
    ∀ a ∈ [(.access l false : Action Obj ℓ)], ¬ Conflicts l' false a := by
  intro a ha
  rw [List.mem_singleton.mp ha]
  exact fun hc => hc.2.elim Bool.false_ne_true Bool.false_ne_true

/-- A write is the owner's, and it owes a call. -/
theorem writer_owes {l : ℓ} (hmay : mayAccess owner s t l true = true) :
    owner l = t ∧ t ∈ s.owed := by
  simpa [mayAccess] using hmay

/-- As long as a call is owed, only owners access. -/
theorem Sharing.owner_eq {l : ℓ} {w : Bool} (h : Sharing owner s log) (howed : s.owed ≠ [])
    (hmay : mayAccess owner s t l w = true) : owner l = t := by
  have hnot := h.not_joined howed t
  simp only [mayAccess, Bool.or_eq_true, Bool.and_eq_true, decide_eq_true_eq] at hmay
  exact (hmay.resolve_right fun hj => hnot hj.1).1

/-- An access. -/
theorem Sharing.access {l : ℓ} {w : Bool} (h : Sharing owner s log)
    (hmay : mayAccess owner s t l w = true) :
    Sharing owner s (log ++ entries t [.access l w]) := by
  refine ⟨h.counter, h.fits, h.waits, fun i u l' hi => ?_, fun howed i u l' w' hi => ?_,
    fun l' => ?_, fun u hu l' => ?_⟩
  · rcases getElem?_entries hi with hi | ⟨rfl, ha⟩
    · exact h.writer i u l' hi
    · cases List.mem_singleton.mp ha
      exact (writer_owes hmay).1
  · rcases getElem?_entries hi with hi | ⟨rfl, ha⟩
    · exact h.alone howed i u l' w' hi
    · cases List.mem_singleton.mp ha
      exact h.owner_eq howed hmay
  · cases w with
    | false => exact h.given_keep l' not_conflicts_read fun _ hu => hu
    | true =>
      obtain ⟨rfl, ht⟩ := writer_owes hmay
      by_cases hl : l' = l
      · subst hl
        exact .inr ⟨_, ht, (h.own l').own⟩
      · have hnone : ∀ a ∈ [(.access l true : Action Obj ℓ)], ¬ Conflicts l' false a := by
          intro a ha
          rw [List.mem_singleton.mp ha]
          exact fun hc => hl hc.1.symm
        exact h.given_keep l' hnone fun _ hu => hu
  · cases w with
    | false => exact (h.joined u hu l').keep not_conflicts_read
    | true =>
      -- nobody has returned from `wait` while the writer owes a call
      obtain ⟨-, ht⟩ := writer_owes hmay
      rw [h.waits u hu] at ht
      cases ht

/-! ## Runs -/

omit [DecidableEq τ] in
/-- The invariant holds of a new wait group. -/
theorem sharing_new {owed : List τ} (hfits : owed.length < 2 ^ 63) :
    Sharing owner (State.new owed) [] where
  counter := by
    change (BitVec.ofNat 64 owed.length).toNat = owed.length
    rw [BitVec.toNat_ofNat]
    exact Nat.mod_eq_of_lt (by omega)
  fits := hfits
  waits _ ht := by cases ht
  writer _ _ _ hi := by simp at hi
  alone _ _ _ _ _ hi := by simp at hi
  given _ := .inl (known_nil _ _)
  joined _ ht := by cases ht

omit [DecidableEq τ] in
/-- The operations on the counter add no race. -/
theorem extend_group {op : WaitGroup.Op} {pc : ParkingQueue.Pc} (h : RaceFree log) :
    RaceFree (log ++ entries t (actions op pc : List (Action Obj ℓ))) :=
  h.extend fun _ _ ha => absurd ⟨rfl, .inr rfl⟩ (no_conflict _ ha)

/-- Every run keeps the invariant and is free of races. -/
theorem runs_sharing (run : Runs (machine owner) s log) : Sharing owner s log ∧ RaceFree log := by
  refine run.invariant (fun s log => Sharing owner s log ∧ RaceFree log) ?_ ?_
  · rintro s ⟨owed, hfits, rfl⟩
    exact ⟨sharing_new hfits, fun i j t u l w w' _ hi => by simp at hi⟩
  · rintro s log i s' es ⟨h, hfree⟩ - hr
    cases i with
    | group t c =>
      refine ⟨h.group hr, ?_⟩
      simp only [machine, groupStep] at hr
      split at hr
      · cases hr
      · simp only [Option.map_eq_some_iff] at hr
        obtain ⟨r, -, hres⟩ := hr
        cases hres
        exact extend_group hfree
    | hand t u =>
      simp only [machine] at hr
      split at hr
      · rename_i ht
        cases hr
        refine ⟨h.hand ht, ?_⟩
        have hfirst : RaceFree (log ++ entries t [.sync .message false true]) :=
          hfree.extend fun l w ha => by cases List.mem_singleton.mp ha
        have hlast : RaceFree (log ++ entries t [.sync .message false true] ++
            entries u [.sync .message true false]) :=
          hfirst.extend fun l w ha => by cases List.mem_singleton.mp ha
        rwa [List.append_assoc] at hlast
      · cases hr
    | access t l w =>
      simp only [machine] at hr
      split at hr
      · rename_i hmay
        cases hr
        refine ⟨h.access hmay, hfree.extend fun l' w' ha => ?_⟩
        cases List.mem_singleton.mp ha
        exact h.known hmay
      · cases hr

/-- **`done` synchronizes before the return of `wait`.** Threads that share data under a
`WaitGroup` as its documentation asks have no data race: each owner writes what it owns
while it owes a call of `done`, the others read it after they have returned from `wait`,
`add` is called while some call is owed, and owed calls may be handed to other threads. -/
theorem joined_race_free (run : Runs (machine owner) s log) : RaceFree log :=
  (runs_sharing run).2

/-- A thread hands its call of `done` to another one, which writes and calls it; a third
waits for it and reads. -/
theorem joined_race_free_three :
    ∃ log : List (Entry (Fin 3) Obj Unit), ⟨1, .access () true⟩ ∈ log ∧
      ⟨2, .access () false⟩ ∈ log ∧ RaceFree log := by
  obtain ⟨s, log, run, hend⟩ := exists_runs_of_run (machine fun _ : Unit => (1 : Fin 3))
    ⟨[0], by decide, rfl⟩
    [.group 2 { op := .wait }, .hand 0 1, .group 2 {}, .access 1 () true,
      .group 1 { op := .done }, .group 2 {}, .access 2 () false]
    (fun _ log => decide (⟨1, .access () true⟩ ∈ log) && decide (⟨2, .access () false⟩ ∈ log))
    (by decide +kernel)
  simp only [Bool.and_eq_true, decide_eq_true_eq] at hend
  exact ⟨log, hend.1, hend.2, joined_race_free run⟩

end Runs

end Mekong.Analysis.WaitGroupClient
