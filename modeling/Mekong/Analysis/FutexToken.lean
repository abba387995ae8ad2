import Mekong.Program.FutexParker

/-!
# The token protocol of the futex parker

The word is `NOTIFIED` exactly when a notification is pending, so whoever consumes the
word consumes a notification. The owner sleeps on `NOTIFIED` only while an unparker that
saw `PARKED` is on its way to `wake_one`.
-/

set_option autoImplicit false

namespace Mekong.Analysis.FutexParker

open Mekong.Computation Mekong.Model Mekong.Program.FutexParker

variable {τ : Type} [DecidableEq τ] {s s' : State τ} {log es : List (ParkEvent τ)}

/-- The values of the word while the owner is at a place. -/
def WordInv (word : BitVec 32) : Pc → Prop
  | .outside | .fetchSub _ => word = empty ∨ word = notified
  | .unreachable => False
  | _ => word = parked ∨ word = notified

/-- The owner is in the kernel. -/
def Asleep (pc : Pc) : Prop := ∃ call, pc = .asleep call

structure Inv (s : State τ) (log : List (ParkEvent τ)) : Prop where
  word : WordInv s.word s.owner
  pending : pending log = true ↔ s.word = notified
  asleep : Asleep s.owner → s.word = notified → ∃ u, s.unparker u = .wake

/-- The loop of `park` begins with the word parked or notified. -/
theorem wordInv_loop {call : ParkCall} {word : BitVec 32} (h : word = parked ∨ word = notified) :
    WordInv word (loop call) := by
  cases call <;> exact h

/-- A thread at the head of its loop is not asleep. -/
theorem not_asleep_loop {call : ParkCall} : ¬ Asleep (loop call) := by
  rintro ⟨call', h⟩
  cases call <;> cases h

/-- Taking 1 off the word: `EMPTY` wraps around to `PARKED`. -/
theorem fetchSub_empty : empty - 1 = parked := by decide

/-- `fetch_sub` takes a notification. -/
theorem fetchSub_notified : notified - 1 = empty := by decide

/-- An empty word is not a notified one. -/
theorem empty_ne_notified : empty ≠ notified := by decide

/-- A parked word is not a notified one. -/
theorem parked_ne_notified : parked ≠ notified := by decide

/-- What a step of the owner does to the word and reports. -/
inductive OwnerEffect (word : BitVec 32) (pc : Pc) : BitVec 32 → Pc → List (ParkEvent τ) → Prop
  /-- The call goes on, or begins; a notification stays where it is. -/
  | goes {word' : BitVec 32} {pc' : Pc} (h : WordInv word' pc')
      (hn : word' = notified ↔ word = notified)
      (hs : Asleep pc' → word' = parked) : OwnerEffect word pc word' pc' []
  | consumes (call : ParkCall) (h : word = notified) :
      OwnerEffect word pc empty .outside [.returned call true]
  | timesOut (timeout : Instant) (h : word = parked) (hpc : pc = .swap timeout) :
      OwnerEffect word pc empty .outside [.returned (.parkUntil timeout) false]

omit [DecidableEq τ] in
/-- The inversion of a step of the owner. -/
theorem ownerStep_effect {c : Choice} {word word' : BitVec 32} {pc pc' : Pc}
    (h : WordInv word pc) (hr : ownerStep c word pc = some (word', pc', es)) :
    OwnerEffect word pc word' pc' es := by
  cases pc with
  | outside =>
    simp only [ownerStep] at hr
    cases hr
    exact .goes h Iff.rfl (by rintro ⟨_, h⟩; cases h)
  | fetchSub call =>
    simp only [ownerStep] at hr
    split at hr <;> cases hr
    · rename_i hw
      subst hw
      rw [fetchSub_notified]
      exact .consumes call rfl
    · rename_i hw
      obtain rfl := h.resolve_right hw
      rw [fetchSub_empty]
      exact .goes (wordInv_loop (.inl rfl)) (by decide) fun hs => absurd hs not_asleep_loop
  | clock timeout =>
    simp only [ownerStep] at hr
    cases hr
    split
    · exact .goes h Iff.rfl (by rintro ⟨_, h⟩; cases h)
    · exact .goes h Iff.rfl (by rintro ⟨_, h⟩; cases h)
  | swap timeout =>
    simp only [ownerStep] at hr
    split at hr
    · cases hr
      exact .consumes _ (by assumption)
    · rename_i hw
      rw [if_pos (h.resolve_right hw)] at hr
      cases hr
      exact .timesOut timeout (h.resolve_right hw) rfl
  | wait call =>
    simp only [ownerStep] at hr
    cases hr
    split
    · rename_i hc
      exact .goes h Iff.rfl fun _ => hc.1
    · exact .goes h Iff.rfl (by rintro ⟨_, h⟩; cases h)
  | asleep call =>
    simp only [ownerStep] at hr
    cases hr
    exact .goes h Iff.rfl (by rintro ⟨_, h⟩; cases h)
  | exchange call =>
    simp only [ownerStep] at hr
    split at hr <;> cases hr
    · exact .consumes _ (by assumption)
    · exact .goes (wordInv_loop h) Iff.rfl fun hs => absurd hs not_asleep_loop
  | unreachable => cases hr

omit [DecidableEq τ] in
/-- A step of the owner keeps the invariant. -/
theorem Inv.owner {word' : BitVec 32} {pc' : Pc} (h : Inv s log)
    (he : OwnerEffect s.word s.owner word' pc' es) :
    Inv { s with word := word', owner := pc' } (log ++ es) := by
  cases he with
  | goes hword hn hs =>
    refine ⟨hword, by rw [List.append_nil, h.pending, hn], fun ha hw => ?_⟩
    rw [show word' = notified from hw] at hs
    exact absurd (hs ha).symm parked_ne_notified
  | consumes call hw =>
    refine ⟨.inl rfl, ?_, by rintro ⟨_, h⟩; cases h⟩
    rw [pending_append]
    exact iff_of_false Bool.false_ne_true empty_ne_notified
  | timesOut timeout hw =>
    refine ⟨.inl rfl, ?_, by rintro ⟨_, h⟩; cases h⟩
    have hnot : Model.pending log = false := by
      rw [← Bool.not_eq_true, h.pending, hw]
      exact parked_ne_notified
    rw [pending_append, hnot]
    exact iff_of_false Bool.false_ne_true empty_ne_notified

/-- A thread that wakes up finds the word as it was. -/
theorem wordInv_woken {word : BitVec 32} {pc : Pc} (h : WordInv word pc) :
    WordInv word (woken pc) := by
  cases pc <;> exact h

/-- A thread that has woken up is not asleep. -/
theorem not_asleep_woken {pc : Pc} : ¬ Asleep (woken pc) := by
  rintro ⟨call, h⟩
  cases pc <;> cases h

/-- A notification suits the owner at every place. -/
theorem wordInv_notified {word : BitVec 32} {pc : Pc} (h : WordInv word pc) :
    WordInv notified pc := by
  cases pc <;> first | exact .inr rfl | exact h

/-- A step of an unparking thread keeps the invariant. -/
theorem Inv.unpark (h : Inv s log) (u : τ) :
    Inv (unparkStep u s).1 (log ++ (unparkStep u s).2) := by
  unfold unparkStep
  cases hu : s.unparker u with
  | outside =>
    refine ⟨h.word, by simpa using h.pending, fun ha hw => ?_⟩
    obtain ⟨v, hv⟩ := h.asleep ha hw
    have hvu : v ≠ u := by
      rintro rfl
      rw [hu] at hv
      cases hv
    exact ⟨v, by simpa [hvu] using hv⟩
  | swap =>
    refine ⟨wordInv_notified h.word, by simp [pending_append, notifiedAfter], fun ha _ => ?_⟩
    by_cases hp : s.word = parked
    · exact ⟨u, by simp [hp]⟩
    · -- the sleeping owner's word is `NOTIFIED` already, and its waker is another thread
      have hw : s.word = notified := by
        obtain ⟨call, hcall⟩ := ha
        have hword := h.word
        rw [show s.owner = .asleep call from hcall] at hword
        exact hword.resolve_left hp
      obtain ⟨v, hv⟩ := h.asleep ha hw
      have hvu : v ≠ u := by
        rintro rfl
        rw [hu] at hv
        cases hv
      exact ⟨v, by simpa [hvu] using hv⟩
  | wake =>
    exact ⟨wordInv_woken h.word, by simpa using h.pending, fun ha => absurd ha not_asleep_woken⟩

/-- Every run keeps the invariant, and every successful return is answered. -/
theorem exec_inv (run : Runs (machine τ) s log) : Inv s log ∧ Answered log := by
  refine run.invariant (fun s log => Inv s log ∧ Answered log) ?_ ?_
  · rintro s rfl
    exact ⟨⟨.inl rfl, by simp [pending, State.new, empty, notified], by rintro ⟨_, h⟩; cases h⟩,
      answered_nil⟩
  · rintro s log i s' es ⟨h, hanswered⟩ - hr
    cases i with
    | owner c =>
      simp only [machine, Option.map_eq_some_iff, Prod.mk.injEq] at hr
      obtain ⟨⟨word', pc', es'⟩, hr, rfl, rfl⟩ := hr
      have he := ownerStep_effect h.word hr
      refine ⟨h.owner he, hanswered.append ?_⟩
      cases he with
      | goes => exact .inl rfl
      | consumes call hw => exact .inr (.inr (.inr ⟨call, rfl, h.pending.mpr hw⟩))
      | timesOut timeout => exact .inr (.inr (.inl ⟨_, rfl⟩))
    | unparker u =>
      simp only [machine, Option.some.injEq] at hr
      obtain rfl := congrArg Prod.fst hr
      obtain rfl := congrArg Prod.snd hr
      refine ⟨h.unpark u, hanswered.append ?_⟩
      unfold unparkStep
      cases s.unparker u with
      | outside => exact .inl rfl
      | swap => exact .inr (.inl ⟨u, rfl⟩)
      | wake => exact .inl rfl

/-- What a return reports of the word. -/
theorem returned_word {i : Input τ} {call : ParkCall} {b : Bool} (h : Inv s log)
    (hr : (machine τ).next i s = some (s', es)) (hm : .returned call b ∈ es) :
    s'.word = empty ∧ (b = true → s.word = notified) ∧
      (b = false → s.word = parked ∧ ∃ timeout, call = .parkUntil timeout ∧
        s.owner = .swap timeout) := by
  cases i with
  | owner c =>
    simp only [machine, Option.map_eq_some_iff, Prod.mk.injEq] at hr
    obtain ⟨⟨word', pc', es'⟩, hr, rfl, rfl⟩ := hr
    cases ownerStep_effect h.word hr with
    | goes => cases hm
    | consumes call' hw =>
      obtain ⟨-, rfl⟩ : call = call' ∧ b = true := by simpa using hm
      exact ⟨rfl, fun _ => hw, by simp⟩
    | timesOut timeout hw hpc =>
      obtain ⟨rfl, rfl⟩ : call = .parkUntil timeout ∧ b = false := by simpa using hm
      exact ⟨rfl, by simp, fun _ => ⟨hw, timeout, rfl, hpc⟩⟩
  | unparker u =>
    simp only [machine, Option.some.injEq] at hr
    obtain rfl := congrArg Prod.snd hr
    unfold unparkStep at hm
    split at hm <;> simp at hm

/-- **The token protocol.** In every reachable state the word is one of the three values,
and not `PARKED` while the owner is outside; the `unreachable!` arm is not taken; every
successful return consumes a notification stored since the previous one; `park_until`
answers `false` only when its own swap took `PARKED` back to `EMPTY`; and the owner does
not sleep on `NOTIFIED` with no unparker on its way to wake it. -/
theorem futex_token (run : Runs (machine τ) s log) :
    (s.word = empty ∨ s.word = parked ∨ s.word = notified) ∧
      (s.owner = .outside → s.word = empty ∨ s.word = notified) ∧ s.owner ≠ .unreachable ∧
      Answered log ∧
      (∀ i s' es call b, (machine τ).next i s = some (s', es) → .returned call b ∈ es →
        s'.word = empty ∧ (b = true → s.word = notified) ∧
          (b = false → s.word = parked ∧ ∃ timeout, call = .parkUntil timeout ∧
            s.owner = .swap timeout)) ∧
      ¬ (Asleep s.owner ∧ s.word = notified ∧ ∀ u, s.unparker u ≠ .wake) := by
  obtain ⟨h, hanswered⟩ := exec_inv run
  have hword := h.word
  refine ⟨?_, fun ho => ?_, fun ho => ?_, hanswered,
    fun i s' es call b hr hm => returned_word h hr hm, ?_⟩
  · cases ho : s.owner <;> rw [ho] at hword
    case unreachable => exact hword.elim
    all_goals rcases hword with hw | hw <;> simp [hw]
  · rwa [ho] at hword
  · rwa [ho] at hword
  · rintro ⟨ha, hw, hnone⟩
    obtain ⟨u, hu⟩ := h.asleep ha hw
    exact hnone u hu

/-- An owner asleep while an unparker is between its swap and its `wake_one`, after a
`park_until` that timed out. -/
theorem futex_token_asleep :
    ∃ (s : State Unit) (log : List (ParkEvent Unit)), Asleep s.owner ∧ s.word = notified ∧
      .returned (.parkUntil 3) false ∈ log ∧ Answered log ∧
      ¬ (Asleep s.owner ∧ s.word = notified ∧ ∀ u, s.unparker u ≠ .wake) := by
  obtain ⟨s, log, run, hend⟩ := exists_runs_of_run (machine Unit) rfl
    [.owner { call := .parkUntil 3 }, .owner {}, .owner { now := 5 }, .owner {}, .owner {},
      .owner {}, .owner {}, .unparker (), .unparker ()]
    (fun s log => decide (s.owner = .asleep .park) && decide (s.word = notified) &&
      decide (.returned (.parkUntil 3) false ∈ log)) (by decide +kernel)
  simp only [Bool.and_eq_true, decide_eq_true_eq] at hend
  obtain ⟨-, -, -, hanswered, -, hasleep⟩ := futex_token run
  exact ⟨s, log, ⟨_, hend.1.1⟩, hend.1.2, hend.2, hanswered, hasleep⟩

end Mekong.Analysis.FutexParker
