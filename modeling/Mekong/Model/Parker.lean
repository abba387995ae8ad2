import Mathlib.Data.List.Induction

/-!
# What a thread parker promises

One thread, the owner, parks on its parker; any other thread may unpark it. The events
below are the ones the promise speaks about, whatever the platform: an unpark takes
effect, and a call of the owner returns. `Answered` is the promise as a property of the
log: every successful return is preceded by an unpark that came after the previous one.
-/

set_option autoImplicit false

namespace Mekong.Model

/-- A point in time, as `Instant` compares them. -/
abbrev Instant := ℕ

/-- The owner's calls. -/
inductive ParkCall
  | park
  | parkUntil (timeout : Instant)
  deriving DecidableEq

/-- What the steps of a parker report. -/
inductive ParkEvent (τ : Type)
  /-- The unpark of `u` takes effect. -/
  | unparked (u : τ)
  /-- A call returns; `park_until` answers `notified`, and `park` always `true`. -/
  | returned (call : ParkCall) (notified : Bool)
  deriving DecidableEq

section Log

variable {τ : Type}

def notifiedAfter (b : Bool) : ParkEvent τ → Bool
  | .unparked _ => true
  | .returned _ true => false
  | .returned _ false => b

/-- Some unpark came after the last successful return. -/
def pending (log : List (ParkEvent τ)) : Bool := log.foldl notifiedAfter false

/-- The rest of the log is read on from where the first part leaves off. -/
theorem pending_append (log es : List (ParkEvent τ)) :
    pending (log ++ es) = es.foldl notifiedAfter (pending log) := by
  rw [pending, List.foldl_append]
  rfl

/-- Each successful return is preceded by an unpark, with no successful return between. -/
def Answered (log : List (ParkEvent τ)) : Prop :=
  ∀ pre call post, log = pre ++ .returned call true :: post →
    ∃ a u b, pre = a ++ .unparked u :: b ∧ ∀ call', .returned call' true ∉ b

/-- A pending notification was stored by an unpark of the log. -/
theorem exists_unparked_of_pending {log : List (ParkEvent τ)} (h : pending log = true) :
    ∃ a u b, log = a ++ .unparked u :: b ∧ ∀ call, .returned call true ∉ b := by
  induction log using List.reverseRecOn with
  | nil => cases h
  | append_singleton log e ih =>
    rw [pending, List.foldl_append] at h
    cases e with
    | unparked u => exact ⟨log, u, [], rfl, by simp⟩
    | returned call notified =>
      cases notified with
      | true => cases h
      | false =>
        obtain ⟨a, u, b, rfl, hb⟩ := ih h
        exact ⟨a, u, b ++ [.returned call false], by simp, by simpa using hb⟩

/-- An unpark with no successful return after it is pending. -/
theorem pending_of_unparked (a b : List (ParkEvent τ)) (u : τ)
    (hb : ∀ call, .returned call true ∉ b) : pending (a ++ .unparked u :: b) = true := by
  rw [pending_append, List.foldl_cons, show notifiedAfter (pending a) (.unparked u) = true from rfl]
  induction b with
  | nil => rfl
  | cons e b ih =>
    have hrest : ∀ call, .returned call true ∉ b := fun call hm =>
      hb call (List.mem_cons_of_mem _ hm)
    have he : notifiedAfter true e = true := by
      cases e with
      | unparked u => rfl
      | returned call notified =>
        cases notified with
        | true => exact absurd List.mem_cons_self (hb call)
        | false => rfl
    rw [List.foldl_cons, he]
    exact ih hrest

/-- The empty log has no return to answer. -/
theorem answered_nil : Answered ([] : List (ParkEvent τ)) := by
  intro pre call post h
  simp at h

/-- A log stays answered when a successful return is reported with a notification
pending. -/
theorem Answered.append {log es : List (ParkEvent τ)} (h : Answered log)
    (hes : es = [] ∨ (∃ u, es = [.unparked u]) ∨ (∃ call, es = [.returned call false]) ∨
      ∃ call, es = [.returned call true] ∧ pending log = true) : Answered (log ++ es) := by
  have single : ∀ e : ParkEvent τ, (∀ call, e = .returned call true → pending log = true) →
      Answered (log ++ [e]) := by
    intro e he pre call post heq
    rcases List.eq_nil_or_concat post with rfl | ⟨post', x, rfl⟩
    · obtain ⟨rfl, hx⟩ := List.append_inj' heq rfl
      exact exists_unparked_of_pending (he call (List.cons.inj hx).1)
    · rw [List.concat_eq_append, ← List.cons_append, ← List.append_assoc] at heq
      exact h pre call post' (List.append_inj' heq rfl).1
  rcases hes with rfl | ⟨u, rfl⟩ | ⟨call, rfl⟩ | ⟨call, rfl, hp⟩
  · rwa [List.append_nil]
  · exact single _ fun _ e => by cases e
  · exact single _ fun _ e => by cases e
  · exact single _ fun _ _ => hp

/-- A successful return with no notification pending breaks the promise. -/
theorem not_answered_of_not_pending {log : List (ParkEvent τ)} {call : ParkCall}
    (h : pending log = false) : ¬ Answered (log ++ [.returned call true]) := by
  intro ha
  obtain ⟨a, u, b, rfl, hb⟩ := ha log call [] rfl
  rw [pending_of_unparked a b u hb] at h
  cases h

end Log

end Mekong.Model
