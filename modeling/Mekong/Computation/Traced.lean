import Mathlib.Data.Nat.Notation

/-!
# Computations that report what they touch

A `Traced ε α` is a result together with the events its computation reports on the way:
which memory it reads, which subtractions it makes, what it asserts. The result never
depends on the report, so a fact about results goes through the program by the `val`
lemmas alone, and a fact about reports is a fact about one list: that `All` its events are
as they should be, or what is `found` in them.
-/

set_option autoImplicit false

namespace Mekong.Computation

/-- A result and the events reported on the way to it, in order. -/
structure Traced (ε α : Type) where
  val : α
  log : List ε

namespace Traced

variable {ε α β : Type}

instance : Monad (Traced ε) where
  pure a := ⟨a, []⟩
  bind x f := ⟨(f x.val).val, x.log ++ (f x.val).log⟩

/-- Report one event and return `a`. -/
def report (e : ε) (a : α) : Traced ε α := ⟨a, [e]⟩

/-- Report one event. -/
def emit (e : ε) : Traced ε Unit := report e ()

@[simp]
theorem val_pure (a : α) : (pure a : Traced ε α).val = a := rfl

@[simp]
theorem val_bind (x : Traced ε α) (f : α → Traced ε β) :
    (x >>= f).val = (f x.val).val := rfl

@[simp]
theorem val_report (e : ε) (a : α) : (report e a).val = a := rfl

@[simp]
theorem val_emit (e : ε) : (emit e).val = () := rfl

/-! ## Facts about reports -/

/-- Every event that is reported satisfies `P`. -/
def All (P : ε → Prop) (x : Traced ε α) : Prop := ∀ e ∈ x.log, P e

section All

variable {P : ε → Prop}

@[simp]
theorem all_pure (a : α) : (pure a : Traced ε α).All P := by
  intro e he
  cases he

@[simp]
theorem all_report (e : ε) (a : α) : (report e a).All P ↔ P e :=
  ⟨fun h => h e List.mem_cons_self, fun h _ he => List.mem_singleton.mp he ▸ h⟩

@[simp]
theorem all_emit (e : ε) : (emit e).All P ↔ P e := all_report e ()

@[simp]
theorem all_bind (x : Traced ε α) (f : α → Traced ε β) :
    (x >>= f).All P ↔ x.All P ∧ (f x.val).All P := by
  constructor
  · intro h
    exact ⟨fun e he => h e (List.mem_append_left _ he),
      fun e he => h e (List.mem_append_right _ he)⟩
  · rintro ⟨hx, hf⟩ e he
    rcases List.mem_append.mp he with he | he
    · exact hx e he
    · exact hf e he

@[simp]
theorem all_ite (c : Prop) [Decidable c] (x y : Traced ε α) :
    (if c then x else y).All P ↔ (c → x.All P) ∧ (¬ c → y.All P) := by
  by_cases h : c
  · rw [if_pos h]
    exact ⟨fun hx => ⟨fun _ => hx, fun hc => absurd h hc⟩, fun hxy => hxy.1 h⟩
  · rw [if_neg h]
    exact ⟨fun hy => ⟨fun hc => absurd hc h, fun _ => hy⟩, fun hxy => hxy.2 h⟩

/-- What follows of two facts about every event. -/
theorem All.imp₂ {Q R : ε → Prop} {x : Traced ε α} (h : ∀ e, P e → Q e → R e) (hp : x.All P)
    (hq : x.All Q) : x.All R :=
  fun e he => h e (hp e he) (hq e he)

/-- A fold over a list reports what its steps report. -/
theorem all_foldlM {f : β → α → Traced ε β} {l : List α} (h : ∀ b, ∀ a ∈ l, (f b a).All P)
    (b : β) : (l.foldlM f b).All P := by
  induction l generalizing b with
  | nil => exact all_pure b
  | cons a l ih =>
      rw [List.foldlM_cons, all_bind]
      exact ⟨h b a List.mem_cons_self, ih (fun b a ha => h b a (List.mem_cons_of_mem _ ha)) _⟩

end All

/-- The values that `f` finds in the reported events, in order. -/
def found {γ : Type} (f : ε → Option γ) (x : Traced ε α) : List γ := x.log.filterMap f

section Found

variable {γ : Type} {f : ε → Option γ}

@[simp]
theorem found_pure (a : α) : (pure a : Traced ε α).found f = [] := rfl

@[simp]
theorem found_report (e : ε) (a : α) : (report e a).found f = (f e).toList := by
  unfold found report
  cases h : f e <;> simp [h]

@[simp]
theorem found_emit (e : ε) : (emit e).found f = (f e).toList := found_report e ()

@[simp]
theorem found_bind (x : Traced ε α) (g : α → Traced ε β) :
    (x >>= g).found f = x.found f ++ (g x.val).found f := List.filterMap_append

/-- A branch finds what the side taken finds. -/
theorem found_ite (c : Prop) [Decidable c] (x y : Traced ε α) :
    (if c then x else y).found f = if c then x.found f else y.found f := by
  split <;> rfl

/-- A fold whose steps find what does not depend on the accumulator. -/
theorem found_foldlM {g : β → α → Traced ε β} {h : α → List γ}
    (hstep : ∀ b a, (g b a).found f = h a) (l : List α) (b : β) :
    (l.foldlM g b).found f = l.flatMap h := by
  induction l generalizing b with
  | nil => rfl
  | cons a l ih =>
      rw [List.foldlM_cons, found_bind, hstep, ih, List.flatMap_cons]

end Found

end Traced

end Mekong.Computation
