import Mekong.Program.SemaphoreParker

/-!
# The token protocol of the semaphore parker

The state and the count of the semaphore change in separate steps of different threads.
What keeps them together is that at most one signal is out at a time: the unparker that
finds `PARKED` sends it, and until the owner has taken it off the count nobody finds
`PARKED` again. `PlaceInv` says for each place of the owner whether a signal is out.

`park` keeps this in every run. `park_until` keeps it until it returns, goes on or waits
where it should not: these are the steps that `Misses` lists.
-/

set_option autoImplicit false

namespace Mekong.Analysis.SemaphoreParker

open Mekong.Computation Mekong.Model Mekong.Program.SemaphoreParker

/-! ## Signals, and what the places say of them -/

section Places

variable {τ : Type}

/-- No signal is in the semaphore, or about to come. -/
structure NoSignal (count : ℕ) (unparker : τ → UnparkPc) : Prop where
  count : count = 0
  coming : ∀ u, unparker u ≠ .signal

/-- Exactly one signal is in the semaphore, or about to come. -/
inductive OneSignal (count : ℕ) (unparker : τ → UnparkPc) : Prop
  | stored (hcount : count = 1) (hnone : ∀ u, unparker u ≠ .signal)
  | coming (u : τ) (hcount : count = 0) (hu : unparker u = .signal)
      (honly : ∀ v, unparker v = .signal → v = u)

/-- The parker of an owner that waits for nothing. -/
def Clean (s : State τ) : Prop := (s.state = empty ∨ s.state = notified) ∧ NoSignal s.count s.unparker

/-- The parker of an owner that has announced that it waits. -/
def Armed (s : State τ) : Prop :=
  (s.state = parked ∧ NoSignal s.count s.unparker) ∨ (s.state = notified ∧ OneSignal s.count s.unparker)

/-- The parker while the owner is at a place. In `park_until` the second and every later
round of the loop finds it clean. -/
def PlaceInv (s : State τ) : Pc → Prop
  | .outside | .fetchSub _ => Clean s
  | .wait => Armed s
  | .swap => s.state = notified ∧ NoSignal s.count s.unparker
  | .clock _ | .timedWait _ => Armed s ∨ Clean s
  | .swapUntil _ isTimeout => isTimeout = true ∧ (Armed s ∨ Clean s)
  | .waitSignal _ => (s.state = empty ∨ s.state = notified) ∧ OneSignal s.count s.unparker

/-- The steps with which `park_until` loses count: it gives up with its announcement or a
signal still out; its timed wait takes a signal, after which the loop goes on; or its swap
takes a notification that no signal goes with, and it waits for one.
SOURCE: semaphore.rs:97-120 -/
inductive Misses (s : State τ) : Input τ → Prop
  | late {c : Choice} {timeout : Instant} (hpc : s.owner = .clock timeout)
      (htime : timeout ≤ c.now) (hout : s.state = parked ∨ ¬ NoSignal s.count s.unparker) : Misses s (.owner c)
  | signalled {c : Choice} {timeout : Instant} (hpc : s.owner = .timedWait timeout)
      (htaken : c.expires = false) : Misses s (.owner c)
  | unsignalled {c : Choice} {timeout : Instant} (hpc : s.owner = .swapUntil timeout true)
      (hstate : s.state = notified) (hnone : NoSignal s.count s.unparker) : Misses s (.owner c)

variable (τ) in
/-- No step misses. -/
def noMiss : Guard (State τ) (Input τ) (Event τ) := fun s _ i => ¬ Misses s i

def storedAfter (b : Bool) : Event τ → Bool
  | .parker (.unparked _) => true
  | .consumed => false
  | _ => b

/-- Some unpark came after the last consumption. -/
def stored (log : List (Event τ)) : Bool := log.foldl storedAfter false

/-- The rest of the log is read on from where the first part leaves off. -/
theorem stored_append (log es : List (Event τ)) :
    stored (log ++ es) = es.foldl storedAfter (stored log) := by
  rw [stored, List.foldl_append]
  rfl

/-- The state is `NOTIFIED` just while an unpark is stored. -/
structure Inv (s : State τ) (log : List (Event τ)) : Prop where
  place : PlaceInv s s.owner
  stored : stored log = true ↔ s.state = notified

end Places

/-- An empty state is not a notified one. -/
theorem empty_ne_notified : empty ≠ notified := by decide

/-- A parked state is not a notified one. -/
theorem parked_ne_notified : parked ≠ notified := by decide

/-- An empty state is not a parked one. -/
theorem empty_ne_parked : empty ≠ parked := by decide

/-- `fetch_sub` marks an empty parker as parked. -/
theorem fetchSub_empty : empty - 1 = parked := by decide

/-- `fetch_sub` takes a notification. -/
theorem fetchSub_notified : notified - 1 = empty := by decide

/-! ## Steps of the owner -/

section Owner

variable {τ : Type} {s s' : State τ} {log es : List (Event τ)}

/-- No signal and one signal exclude each other. -/
theorem NoSignal.not_oneSignal {count : ℕ} {unparker : τ → UnparkPc}
    (h : NoSignal count unparker) : ¬ OneSignal count unparker := by
  rintro (⟨hcount, -⟩ | ⟨u, -, hu, -⟩)
  · exact absurd (h.count.symm.trans hcount) (by decide)
  · exact h.coming u hu

/-- What a wait on the semaphore can be. -/
theorem wait_cases {expires : Bool} {count count' : ℕ} {isTimeout : Bool}
    (h : dispatchSemaphoreWait expires count = some (count', isTimeout)) :
    (expires = true ∧ isTimeout = true ∧ count' = count) ∨
      (expires = false ∧ isTimeout = false ∧ count = count' + 1) := by
  simp only [dispatchSemaphoreWait] at h
  split at h
  · rename_i hexpires
    cases h
    exact .inl ⟨hexpires, rfl, rfl⟩
  · rename_i hexpires
    split at h <;> cases h
    exact .inr ⟨by simpa using hexpires, rfl, by omega⟩

/-- A wait that takes one off the count takes the one signal there is. -/
theorem OneSignal.taken {count : ℕ} {unparker : τ → UnparkPc}
    (h : OneSignal (count + 1) unparker) : NoSignal count unparker := by
  cases h with
  | stored hone hnone => exact ⟨by omega, hnone⟩
  | coming u hzero => omega

/-- After `fetch_sub` no notification is stored. -/
theorem foldl_takes (log : List (Event τ)) (h : stored log = true ↔ s.state = notified) :
    (takes s.state : List (Event τ)).foldl storedAfter (stored log) = false := by
  unfold takes
  split
  · rfl
  · rename_i hne
    exact Bool.eq_false_iff.mpr fun hstored => hne (h.mp hstored)

/-- A step that takes the state away leaves nothing stored. -/
theorem Inv.stored_takes (h : Inv s log) (es : List (Event τ))
    (hes : ∀ b, es.foldl storedAfter b = b) :
    SemaphoreParker.stored (log ++ (takes s.state ++ es)) = true ↔ empty = notified := by
  rw [stored_append, List.foldl_append, foldl_takes log h.stored, hes]
  exact iff_of_false Bool.false_ne_true empty_ne_notified

/-- What is stored stays while no unpark and no consumption is reported. -/
theorem Inv.stored_quiet (h : Inv s log) (hes : ∀ b, es.foldl storedAfter b = b) :
    SemaphoreParker.stored (log ++ es) = true ↔ s.state = notified := by
  rw [stored_append, hes]
  exact h.stored

section Places

variable {c : Choice} {call : ParkCall} {timeout : Instant} {isTimeout : Bool}
  {state' : BitVec 8} {count' : ℕ} {pc' : Pc}

/-- The `fetch_sub` of the owner keeps the invariant. -/
theorem Inv.fetchSub (h : Inv s log) (hpc : s.owner = .fetchSub call)
    (hr : ownerStep c s.state s.count (.fetchSub call) = some (state', count', pc', es)) :
    Inv { s with state := state', count := count', owner := pc' } (log ++ es) := by
  have hplace := h.place
  rw [hpc] at hplace
  simp only [ownerStep] at hr
  split at hr <;> cases hr
  · rename_i hstate
    rw [show s.state - 1 = empty by rw [hstate, fetchSub_notified]]
    exact ⟨⟨.inl rfl, hplace.2⟩, h.stored_takes _ fun b => rfl⟩
  · rename_i hne
    have hstate := hplace.1.resolve_right hne
    rw [show s.state - 1 = parked by rw [hstate, fetchSub_empty]]
    have harmed : Armed { s with state := parked, owner := afterFetchSub call } :=
      .inl ⟨rfl, hplace.2⟩
    constructor
    · cases call with
      | park => exact harmed
      | parkUntil timeout => exact .inl harmed
    · rw [h.stored_quiet fun b => rfl]
      exact iff_of_false hne parked_ne_notified

/-- A wait of `park` that takes a signal takes the one that goes with the notification. -/
theorem Inv.wait (h : Inv s log) (hpc : s.owner = .wait)
    (hr : ownerStep c s.state s.count .wait = some (state', count', pc', es)) :
    Inv { s with state := state', count := count', owner := pc' } (log ++ es) := by
  have hplace := h.place
  rw [hpc] at hplace
  simp only [ownerStep, Option.map_eq_some_iff] at hr
  obtain ⟨⟨count, isTimeout⟩, hwait, he⟩ := hr
  cases he
  rcases wait_cases hwait with ⟨-, rfl, rfl⟩ | ⟨-, rfl, hcount⟩
  · exact ⟨hplace, h.stored_quiet fun b => rfl⟩
  · simp only [PlaceInv, Armed, hcount] at hplace
    rcases hplace with ⟨-, hno⟩ | ⟨hstate, hone⟩
    · exact absurd hno.count (by omega)
    · exact ⟨⟨hstate, hone.taken⟩, h.stored_quiet fun b => rfl⟩

/-- A deadline test that does not miss gives up with a clean parker. -/
theorem Inv.clock (h : Inv s log) (hpc : s.owner = .clock timeout)
    (hmiss : ¬ Misses s (.owner c))
    (hr : ownerStep c s.state s.count (.clock timeout) = some (state', count', pc', es)) :
    Inv { s with state := state', count := count', owner := pc' } (log ++ es) := by
  have hplace := h.place
  rw [hpc] at hplace
  simp only [ownerStep] at hr
  split at hr <;> cases hr
  · rename_i htime
    have hclean : Clean s := by
      by_contra hnot
      apply hmiss
      apply Misses.late hpc htime
      rcases hplace.resolve_right hnot with ⟨hstate, -⟩ | ⟨-, hone⟩
      · exact .inl hstate
      · exact .inr fun hno => hno.not_oneSignal hone
    exact ⟨hclean, h.stored_quiet fun b => rfl⟩
  · exact ⟨hplace, h.stored_quiet fun b => rfl⟩

/-- A swap that does not miss finds a signal with the notification it takes. -/
theorem Inv.swapUntil (h : Inv s log) (hpc : s.owner = .swapUntil timeout isTimeout)
    (hmiss : ¬ Misses s (.owner c))
    (hr : ownerStep c s.state s.count (.swapUntil timeout isTimeout) =
      some (state', count', pc', es)) :
    Inv { s with state := state', count := count', owner := pc' } (log ++ es) := by
  have hplace := h.place
  rw [hpc] at hplace
  obtain ⟨rfl, hplace⟩ := hplace
  simp only [ownerStep] at hr
  cases hr
  refine ⟨?_, by simpa using h.stored_takes [] fun b => rfl⟩
  split
  · rename_i hfound
    refine ⟨.inl rfl, ?_⟩
    rcases hplace with (⟨hstate, -⟩ | ⟨-, hone⟩) | hclean
    · exact absurd (hstate.symm.trans hfound.1) parked_ne_notified
    · exact hone
    · exact absurd (.unsignalled hpc hfound.1 hclean.2) hmiss
  · rename_i hfound
    have hno : NoSignal s.count s.unparker := by
      rcases hplace with (⟨-, hno⟩ | ⟨hstate, -⟩) | hclean
      · exact hno
      · exact absurd ⟨hstate, trivial⟩ hfound
      · exact hclean.2
    exact .inr ⟨.inl rfl, hno⟩

/-- The end of a wait keeps the invariant. -/
theorem Inv.waitSignal (h : Inv s log) (hpc : s.owner = .waitSignal timeout)
    (hr : ownerStep c s.state s.count (.waitSignal timeout) = some (state', count', pc', es)) :
    Inv { s with state := state', count := count', owner := pc' } (log ++ es) := by
  have hplace := h.place
  rw [hpc] at hplace
  simp only [ownerStep, Option.map_eq_some_iff] at hr
  obtain ⟨⟨count, isTimeout⟩, hwait, he⟩ := hr
  rcases wait_cases hwait with ⟨-, rfl, rfl⟩ | ⟨-, rfl, hcount⟩
  · cases he
    exact ⟨hplace, h.stored_quiet fun b => rfl⟩
  · cases he
    rw [PlaceInv, hcount] at hplace
    exact ⟨⟨hplace.1, hplace.2.taken⟩, h.stored_quiet fun b => rfl⟩

/-- A step of the owner that does not miss keeps the invariant. -/
theorem Inv.owner (h : Inv s log) (hmiss : ¬ Misses s (.owner c))
    (hr : ownerStep c s.state s.count s.owner = some (state', count', pc', es)) :
    Inv { s with state := state', count := count', owner := pc' } (log ++ es) := by
  have hplace := h.place
  cases hpc : s.owner with
  | outside =>
    rw [hpc] at hr hplace
    cases hr
    exact ⟨hplace, h.stored_quiet fun b => rfl⟩
  | fetchSub call =>
    rw [hpc] at hr
    exact h.fetchSub hpc hr
  | wait =>
    rw [hpc] at hr
    exact h.wait hpc hr
  | swap =>
    rw [hpc] at hr hplace
    cases hr
    exact ⟨⟨.inl rfl, hplace.2⟩, h.stored_takes _ fun b => rfl⟩
  | clock timeout =>
    rw [hpc] at hr
    exact h.clock hpc hmiss hr
  | timedWait timeout =>
    rw [hpc] at hr hplace
    simp only [ownerStep, Option.map_eq_some_iff] at hr
    obtain ⟨⟨count, isTimeout⟩, hwait, he⟩ := hr
    cases he
    rcases wait_cases hwait with ⟨-, rfl, rfl⟩ | ⟨hexpires, -⟩
    · exact ⟨⟨rfl, hplace⟩, h.stored_quiet fun b => rfl⟩
    · exact absurd (.signalled hpc hexpires) hmiss
  | swapUntil timeout isTimeout =>
    rw [hpc] at hr
    exact h.swapUntil hpc hmiss hr
  | waitSignal timeout =>
    rw [hpc] at hr
    exact h.waitSignal hpc hr

end Places

end Owner

/-! ## Steps of the unparking threads -/

section Unpark

variable {τ : Type} [DecidableEq τ] {s : State τ} {log : List (Event τ)} {u : τ}
  {count : ℕ} {unparker : τ → UnparkPc}

/-- `u` moves between places at which it sends no signal. -/
theorem NoSignal.move (h : NoSignal count unparker) {pc : UnparkPc} (hpc : pc ≠ .signal) :
    NoSignal count (Function.update unparker u pc) := by
  refine ⟨h.count, fun v => ?_⟩
  by_cases hv : v = u
  · rw [hv, Function.update_self]
    exact hpc
  · rw [Function.update_of_ne hv]
    exact h.coming v

/-- An unparker without the signal may move. -/
theorem OneSignal.move (h : OneSignal count unparker) (hu : unparker u ≠ .signal)
    {pc : UnparkPc} (hpc : pc ≠ .signal) : OneSignal count (Function.update unparker u pc) := by
  cases h with
  | stored hcount hnone =>
    refine .stored hcount fun v => ?_
    by_cases hv : v = u
    · rw [hv, Function.update_self]
      exact hpc
    · rw [Function.update_of_ne hv]
      exact hnone v
  | coming w hcount hw honly =>
    have hwu : w ≠ u := by
      rintro rfl
      exact hu hw
    refine .coming w hcount (by rwa [Function.update_of_ne hwu]) fun v hv => ?_
    by_cases hvu : v = u
    · rw [hvu, Function.update_self] at hv
      exact absurd hv hpc
    · exact honly v (by rwa [Function.update_of_ne hvu] at hv)

/-- The unparker that finds `PARKED` is about to send the one signal. -/
theorem NoSignal.announce (h : NoSignal count unparker) :
    OneSignal count (Function.update unparker u .signal) := by
  refine .coming u h.count (Function.update_self ..) fun v hv => ?_
  by_contra hvu
  rw [Function.update_of_ne hvu] at hv
  exact h.coming v hv

/-- The signal that is about to come is sent. -/
theorem OneSignal.send (h : OneSignal count unparker) (hu : unparker u = .signal) :
    OneSignal (count + 1) (Function.update unparker u .outside) := by
  cases h with
  | stored hcount hnone => exact absurd hu (hnone u)
  | coming w hcount hw honly =>
    refine .stored (by omega) fun v => ?_
    by_cases hvu : v = u
    · rw [hvu, Function.update_self]
      decide
    · rw [Function.update_of_ne hvu]
      exact fun hv => hvu ((honly v hv).trans (honly u hu).symm)

omit [DecidableEq τ] in
/-- What holds at every place after an unparker's step follows from the four conditions. -/
theorem PlaceInv.mono {s' : State τ} {pc : Pc} (h : PlaceInv s pc) (hclean : Clean s → Clean s')
    (harmed : Armed s → Armed s')
    (htaken : s.state = notified ∧ NoSignal s.count s.unparker →
      s'.state = notified ∧ NoSignal s'.count s'.unparker)
    (hcoming : (s.state = empty ∨ s.state = notified) ∧ OneSignal s.count s.unparker →
      (s'.state = empty ∨ s'.state = notified) ∧ OneSignal s'.count s'.unparker) :
    PlaceInv s' pc := by
  cases pc with
  | outside => exact hclean h
  | fetchSub call => exact hclean h
  | wait => exact harmed h
  | swap => exact htaken h
  | clock timeout => exact h.imp harmed hclean
  | timedWait timeout => exact h.imp harmed hclean
  | swapUntil timeout isTimeout => exact ⟨h.1, h.2.imp harmed hclean⟩
  | waitSignal timeout => exact hcoming h

/-- A step of an unparking thread keeps the invariant. -/
theorem Inv.unpark (h : Inv s log) (u : τ) :
    Inv (unparkStep u s).1 (log ++ (unparkStep u s).2) := by
  unfold unparkStep
  cases hu : s.unparker u with
  | outside =>
    have hne : s.unparker u ≠ .signal := by rw [hu]; decide
    refine ⟨h.place.mono ?_ ?_ ?_ ?_, by simpa using h.stored⟩
    · exact fun hc => ⟨hc.1, hc.2.move (by decide)⟩
    · exact Or.imp (And.imp_right fun hno => hno.move (by decide))
        (And.imp_right fun hone => hone.move hne (by decide))
    · exact And.imp_right fun hno => hno.move (by decide)
    · exact And.imp_right fun hone => hone.move hne (by decide)
  | swap =>
    have hne : s.unparker u ≠ .signal := by rw [hu]; decide
    refine ⟨h.place.mono ?_ ?_ ?_ ?_, ?_⟩
    · rintro ⟨hstate, hno⟩
      have hnot : s.state ≠ parked := by
        rcases hstate with e | e <;> rw [e] <;> decide
      rw [if_neg hnot]
      exact ⟨.inr rfl, hno.move (by decide)⟩
    · rintro (⟨hstate, hno⟩ | ⟨hstate, hone⟩)
      · rw [if_pos hstate]
        exact .inr ⟨rfl, hno.announce⟩
      · rw [if_neg (by rw [hstate]; decide)]
        exact .inr ⟨rfl, hone.move hne (by decide)⟩
    · rintro ⟨hstate, hno⟩
      rw [if_neg (by rw [hstate]; decide)]
      exact ⟨rfl, hno.move (by decide)⟩
    · rintro ⟨hstate, hone⟩
      have hnot : s.state ≠ parked := by
        rcases hstate with e | e <;> rw [e] <;> decide
      rw [if_neg hnot]
      exact ⟨.inr rfl, hone.move hne (by decide)⟩
    · rw [stored_append]
      exact iff_of_true rfl rfl
  | signal =>
    refine ⟨h.place.mono ?_ ?_ ?_ ?_, by simpa using h.stored⟩
    · exact fun hc => absurd hu (hc.2.coming u)
    · rintro (⟨-, hno⟩ | ⟨hstate, hone⟩)
      · exact absurd hu (hno.coming u)
      · exact .inr ⟨hstate, hone.send hu⟩
    · exact fun hno => absurd hu (hno.2.coming u)
    · exact And.imp_right fun hone => hone.send hu

end Unpark

/-! ## Runs -/

section Runs

variable {τ : Type} [DecidableEq τ] {s s' : State τ} {log es : List (Event τ)}

omit [DecidableEq τ] in
/-- The invariant holds of a new parker. -/
theorem inv_new : Inv (State.new τ) [] :=
  ⟨⟨.inl rfl, rfl, fun u => by simp [State.new]⟩, iff_of_false Bool.false_ne_true empty_ne_notified⟩

/-- A step of the machine is one of the owner or of an unparking thread. -/
theorem machine_next {i : Input τ} (h : (machine τ).next i s = some (s', es)) :
    (∃ c state' count' pc', i = .owner c ∧
      ownerStep c s.state s.count s.owner = some (state', count', pc', es) ∧
      s' = { s with state := state', count := count', owner := pc' }) ∨
    ∃ u, i = .unparker u ∧ s' = (unparkStep u s).1 ∧ es = (unparkStep u s).2 := by
  cases i with
  | owner c =>
    simp only [machine, Option.map_eq_some_iff] at h
    obtain ⟨⟨state', count', pc', es'⟩, hr, he⟩ := h
    cases he
    exact .inl ⟨c, state', count', pc', rfl, hr, rfl⟩
  | unparker u =>
    simp only [machine, Option.some.injEq] at h
    exact .inr ⟨u, rfl, (congrArg Prod.fst h).symm, (congrArg Prod.snd h).symm⟩

/-- One step that does not miss keeps the invariant. -/
theorem Inv.step {i : Input τ} (h : Inv s log) (hmiss : ¬ Misses s i)
    (hr : (machine τ).next i s = some (s', es)) : Inv s' (log ++ es) := by
  rcases machine_next hr with ⟨c, state', count', pc', rfl, hstep, rfl⟩ | ⟨u, rfl, rfl, rfl⟩
  · exact h.owner hmiss hstep
  · exact h.unpark u

end Runs

/-! ## `park` -/

section Park

variable {τ : Type} [DecidableEq τ] {s s' : State τ} {log es : List (Event τ)}

/-- The owner calls only `park`. -/
def parkOnly (τ : Type) : Guard (State τ) (Input τ) (Event τ) := fun s _ i =>
  ∀ c, i = .owner c → s.owner = .outside → c.call = .park

/-- The places of `park`. -/
def inPark : Pc → Prop
  | .outside | .fetchSub .park | .wait | .swap => True
  | _ => False

/-- The events that the promise of a parker speaks about. -/
def parkEvents : Event τ → List (ParkEvent τ)
  | .parker e => [e]
  | _ => []

omit [DecidableEq τ] in
/-- No step misses inside `park`. -/
theorem not_misses_of_inPark (h : inPark s.owner) (i : Input τ) : ¬ Misses s i := by
  intro hmiss
  cases hmiss with
  | late hpc | signalled hpc | unsignalled hpc =>
    rw [hpc] at h
    exact h

omit [DecidableEq τ] in
/-- Inside `park` a consumption and the return that reports it are one step. -/
theorem ownerStep_park {c : Choice} {state' : BitVec 8} {count' : ℕ} {pc' : Pc}
    (h : inPark s.owner) (hstate : s.owner = .swap → s.state = notified)
    (hcall : s.owner = .outside → c.call = .park)
    (hr : ownerStep c s.state s.count s.owner = some (state', count', pc', es)) :
    inPark pc' ∧ (es = [] ∨
      s.state = notified ∧ es = [.consumed, .parker (.returned .park true)]) := by
  cases hpc : s.owner with
  | outside =>
    rw [hpc] at hr
    simp only [ownerStep, hcall hpc] at hr
    cases hr
    exact ⟨trivial, .inl rfl⟩
  | fetchSub call =>
    rw [hpc] at hr h
    cases call with
    | parkUntil timeout => exact h.elim
    | park =>
      simp only [ownerStep] at hr
      split at hr <;> cases hr
      · rename_i hn
        exact ⟨trivial, .inr ⟨hn, by rw [takes, if_pos hn]; rfl⟩⟩
      · exact ⟨trivial, .inl rfl⟩
  | wait =>
    rw [hpc] at hr
    simp only [ownerStep, Option.map_eq_some_iff] at hr
    obtain ⟨⟨count, isTimeout⟩, -, he⟩ := hr
    cases he
    refine ⟨?_, .inl rfl⟩
    split <;> trivial
  | swap =>
    rw [hpc] at hr
    simp only [ownerStep] at hr
    cases hr
    have hn := hstate hpc
    exact ⟨trivial, .inr ⟨hn, by rw [takes, if_pos hn]; rfl⟩⟩
  | clock timeout | timedWait timeout | swapUntil timeout isTimeout | waitSignal timeout =>
    rw [hpc] at h
    exact h.elim

/-- What a run of `park` calls keeps. -/
structure ParkInv (s : State τ) (log : List (Event τ)) : Prop where
  inv : Inv s log
  place : inPark s.owner
  pending : pending (log.flatMap parkEvents) = stored log
  answered : Answered (log.flatMap parkEvents)

/-- Every run of `park` calls keeps the invariant. -/
theorem exec_parkInv (run : Exec (machine τ) (parkOnly τ) s log) : ParkInv s log := by
  refine run.invariant ParkInv ?_ ?_
  · rintro s rfl
    exact ⟨inv_new, trivial, rfl, answered_nil⟩
  · intro s log i s' es h hcall hr
    have hinv := h.inv.step (not_misses_of_inPark h.place i) hr
    have hpending := h.pending
    rcases machine_next hr with ⟨c, state', count', pc', rfl, hstep, rfl⟩ | ⟨u, rfl, rfl, rfl⟩
    · have hswap : s.owner = .swap → s.state = notified := by
        intro hpc
        have hplace := h.inv.place
        rw [hpc] at hplace
        exact hplace.1
      obtain ⟨hplace, rfl | ⟨hstate, rfl⟩⟩ :=
        ownerStep_park h.place hswap (fun hpc => hcall c rfl hpc) hstep
      · exact ⟨hinv, hplace, by simpa using hpending, by simpa using h.answered⟩
      · have hstored : pending (log.flatMap parkEvents) = true :=
          hpending.trans (h.inv.stored.mpr hstate)
        refine ⟨hinv, hplace, ?_, ?_⟩ <;> rw [List.flatMap_append]
        · rw [pending_append, stored_append]
          rfl
        · exact h.answered.append (.inr (.inr (.inr ⟨.park, rfl, hstored⟩)))
    · have hevents : (unparkStep u s).2 = [] ∨ (unparkStep u s).2 = [.parker (.unparked u)] := by
        unfold unparkStep
        cases s.unparker u <;> simp
      have howner : (unparkStep u s).1.owner = s.owner := by
        unfold unparkStep
        cases s.unparker u <;> rfl
      refine ⟨hinv, by rw [howner]; exact h.place, ?_, ?_⟩ <;> rw [List.flatMap_append]
      · rw [pending_append, stored_append, hpending]
        rcases hevents with e | e <;> rw [e] <;> rfl
      · refine h.answered.append ?_
        rcases hevents with e | e <;> rw [e]
        · exact .inl rfl
        · exact .inr (.inl ⟨u, rfl⟩)

/-- **The token protocol.** In every state that calls of `park` and `unpark` reach, the
state is one of the three values and the count at most 1; outside `park`, with no signal
about to come, the count is 0 and the state is not `PARKED`; every return is preceded by
an unpark since the previous one; and the owner is not blocked on a count of 0 with the
state `NOTIFIED` and no signal about to come. -/
theorem semaphore_token (run : Exec (machine τ) (parkOnly τ) s log) :
    (s.state = empty ∨ s.state = notified ∨ s.state = parked) ∧ s.count ≤ 1 ∧
      (s.owner = .outside → (∀ u, s.unparker u ≠ .signal) →
        s.count = 0 ∧ (s.state = empty ∨ s.state = notified)) ∧
      Answered (log.flatMap parkEvents) ∧
      ¬ (s.owner = .wait ∧ s.count = 0 ∧ s.state = notified ∧ ∀ u, s.unparker u ≠ .signal) := by
  have h := exec_parkInv run
  have hplace := h.inv.place
  have hvalues : (s.state = empty ∨ s.state = notified ∨ s.state = parked) ∧ s.count ≤ 1 := by
    have hclean : Clean s → (s.state = empty ∨ s.state = notified ∨ s.state = parked) ∧
        s.count ≤ 1 := fun hc => ⟨hc.1.imp_right .inl, by rw [hc.2.count]; omega⟩
    have hpark := h.place
    cases hpc : s.owner <;> rw [hpc] at hplace hpark
    case outside => exact hclean hplace
    case fetchSub call => exact hclean hplace
    case wait =>
      rcases hplace with ⟨hstate, hno⟩ | ⟨hstate, hone⟩
      · exact ⟨.inr (.inr hstate), by rw [hno.count]; omega⟩
      · refine ⟨.inr (.inl hstate), ?_⟩
        cases hone <;> omega
    case swap => exact ⟨.inr (.inl hplace.1), by rw [hplace.2.count]; omega⟩
    all_goals exact hpark.elim
  refine ⟨hvalues.1, hvalues.2, fun hpc _ => ?_, h.answered, ?_⟩
  · rw [hpc] at hplace
    exact ⟨hplace.2.count, hplace.1⟩
  · rintro ⟨hpc, hcount, hstate, hnone⟩
    rw [hpc] at hplace
    rcases hplace with ⟨hparked, -⟩ | ⟨-, hone⟩
    · exact parked_ne_notified (hparked.symm.trans hstate)
    · exact NoSignal.not_oneSignal ⟨hcount, hnone⟩ hone

end Park

/-- An owner that has parked before waits for a signal that is about to come. -/
theorem semaphore_token_waiting :
    ∃ (s : State Unit) (log : List (Event Unit)), s.owner = .wait ∧ s.state = notified ∧
      .parker (.returned .park true) ∈ log ∧ s.count ≤ 1 ∧ Answered (log.flatMap parkEvents) ∧
      ¬ (s.owner = .wait ∧ s.count = 0 ∧ s.state = notified ∧ ∀ u, s.unparker u ≠ .signal) := by
  obtain ⟨s, log, run, hend⟩ := exists_exec_of_run (machine Unit) (parkOnly Unit)
    (fun _ _ i => match i with
      | .owner c => decide (c.call = .park)
      | .unparker _ => true)
    (by
      rintro s log i hcheck c rfl -
      exact of_decide_eq_true hcheck)
    rfl [.unparker (), .unparker (), .owner {}, .owner {}, .owner {}, .owner {}, .unparker (),
      .unparker ()]
    (fun s log => decide (s.owner = .wait) && decide (s.state = notified) &&
      decide (.parker (.returned .park true) ∈ log)) (by decide +kernel)
  simp only [Bool.and_eq_true, decide_eq_true_eq] at hend
  obtain ⟨-, hcount, -, hanswered, hblocked⟩ := semaphore_token run
  exact ⟨s, log, hend.1.1, hend.1.2, hend.2, hcount, hanswered, hblocked⟩

end Mekong.Analysis.SemaphoreParker
