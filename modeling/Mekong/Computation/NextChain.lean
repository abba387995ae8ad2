import Mathlib.Data.List.Nodup
import Mathlib.Logic.Function.Basic

/-!
# Chains of next pointers

Nodes of a type `α` with a function `next : α → α` lead to one another until `null`.
`Chain a l` says that the nodes met from `a` on are exactly those of `l`; `Reach a p`
that `p` is one of them. The lemmas are the ones a shared list needs: a node pushed in
front, a node taken out behind another, and writes that do not concern the list.

`Walk` follows a search through a list that keeps a pointer to the node before, and `Behind`
names the part of a list from a node on.
-/

set_option autoImplicit false

namespace Mekong.Computation.NextChain

variable {α : Type} (null : α) (next : α → α)

/-- From `a`, the `next` pointers lead through the nodes of the list and end in `null`. -/
def Chain : α → List α → Prop
  | a, [] => a = null
  | a, x :: l => a = x ∧ x ≠ null ∧ Chain (next x) l

/-- `p` is a node met from `a` on. -/
inductive Reach : α → α → Prop
  | here {p : α} (hp : p ≠ null) : Reach p p
  | step {a p : α} (ha : a ≠ null) (h : Reach (next a) p) : Reach a p

section Chain

variable {null : α} {next : α → α} {a p x y : α} {l u v : List α}

/-- The chain begins at the head of the list. -/
theorem Chain.head (h : Chain null next a l) : a = l.headD null := by
  cases l with
  | nil => exact h
  | cons x l => exact h.1

/-- The head and the pointers determine the list. -/
theorem Chain.unique {a : α} {l l' : List α} (h : Chain null next a l) (h' : Chain null next a l') :
    l = l' := by
  induction l generalizing a l' with
  | nil =>
    cases l' with
    | nil => rfl
    | cons y l' => exact absurd (h'.1.symm.trans h) h'.2.1
  | cons x l ih =>
    cases l' with
    | nil => exact absurd (h.1.symm.trans h') h.2.1
    | cons y l' =>
      obtain ⟨rfl, -, hl⟩ := h
      obtain ⟨rfl, -, hl'⟩ := h'
      rw [ih hl hl']

/-- A chain from null is empty. -/
theorem Chain.eq_null_iff (h : Chain null next a l) : a = null ↔ l = [] := by
  cases l with
  | nil => exact ⟨fun _ => rfl, fun _ => h⟩
  | cons x l => exact ⟨fun e => absurd (h.1.symm.trans e) h.2.1, fun e => by cases e⟩

/-- No node of a chain is null. -/
theorem Chain.ne_null : ∀ {l : List α} {a : α}, Chain null next a l → ∀ x ∈ l, x ≠ null
  | [], _, _, _, hx => by cases hx
  | y :: l, a, h, x, hx => by
    rcases List.mem_cons.mp hx with rfl | hx
    · exact h.2.1
    · exact Chain.ne_null h.2.2 x hx

/-- Only the `next` pointers of the list's own nodes matter. -/
theorem Chain.congr {next' : α → α} : ∀ {l : List α} {a : α}, Chain null next a l →
    (∀ x ∈ l, next' x = next x) → Chain null next' a l
  | [], _, h, _ => h
  | x :: l, _, h, hn => by
    refine ⟨h.1, h.2.1, ?_⟩
    rw [hn x (by simp)]
    exact Chain.congr h.2.2 fun y hy => hn y (List.mem_cons_of_mem _ hy)

/-- A node put in front. -/
theorem Chain.push (h : Chain null next a l) (hp : p ≠ null) (hn : next p = a) :
    Chain null next p (p :: l) :=
  ⟨rfl, hp, by rw [hn]; exact h⟩

/-- The part of the list from one of its nodes on. -/
theorem Chain.suffix : ∀ {u : List α} {a : α}, Chain null next a (u ++ x :: v) →
    Chain null next x (x :: v)
  | [], _, h => ⟨rfl, h.2⟩
  | _ :: _, _, h => Chain.suffix h.2.2

/-- A node of the list points to the next one. -/
theorem Chain.next_eq (h : Chain null next a (u ++ x :: v)) : next x = v.headD null :=
  h.suffix.2.2.head

/-- The nodes reached are the nodes of the list. -/
theorem Chain.reach_iff : ∀ {l : List α} {a : α}, Chain null next a l →
    (Reach null next a p ↔ p ∈ l)
  | [], a, h => by
    refine ⟨fun hr => ?_, fun hp => by cases hp⟩
    rw [show a = null from h] at hr
    cases hr with
    | here hp => exact absurd rfl hp
    | step ha _ => exact absurd rfl ha
  | x :: l, a, ⟨hax, hx, hl⟩ => by
    subst hax
    constructor
    · intro hr
      cases hr with
      | here => exact List.mem_cons_self
      | step _ hr => exact List.mem_cons_of_mem _ ((Chain.reach_iff hl).mp hr)
    · intro hp
      rcases List.mem_cons.mp hp with rfl | hp
      · exact .here hx
      · exact .step hx ((Chain.reach_iff hl).mpr hp)

/-- What is met from a node that is met is met. -/
theorem Reach.trans {b : α} (h : Reach null next a b) (h' : Reach null next b p) :
    Reach null next a p := by
  induction h with
  | here => exact h'
  | step ha _ ih => exact .step ha (ih h')

/-- Redirecting the `next` pointer of `y` past the node `x` behind it takes `x` out. -/
theorem Chain.unlink [DecidableEq α] : ∀ {u : List α} {a : α},
    Chain null next a (u ++ y :: x :: v) → (u ++ y :: x :: v).Nodup →
    Chain null (Function.update next y (next x)) a (u ++ y :: v)
  | [], a, h, hnd => by
    have hy : y ∉ v := fun hm => (List.nodup_cons.mp hnd).1 (List.mem_cons_of_mem _ hm)
    refine ⟨h.1, h.2.1, ?_⟩
    rw [Function.update_self]
    refine Chain.congr h.2.2.2.2 fun z hz => Function.update_of_ne ?_ _ _
    rintro rfl
    exact hy hz
  | z :: u, a, h, hnd => by
    have hzy : z ≠ y := by
      rintro rfl
      exact (List.nodup_cons.mp hnd).1 (by simp)
    refine ⟨h.1, h.2.1, ?_⟩
    rw [Function.update_of_ne hzy]
    exact Chain.unlink h.2.2 (List.nodup_cons.mp hnd).2

end Chain

/-! ## A search with a pointer to the node before -/

/-- A search of the list `q` that began at `a` has the part `rest` of it still before
it; `prev` is the node before `rest`, and `null` at the start. -/
def Walk (q : List α) (a prev : α) (rest : List α) : Prop :=
  ∃ u, (prev = null ∧ rest.headD null = a ∧ q = u ++ rest) ∨ (prev ≠ null ∧ q = u ++ prev :: rest)

section Walk

variable {null : α} {next : α → α} {q : List α} {a x prev : α} {rest : List α}

/-- A search begins at the head of the list. -/
theorem Walk.start (h : Chain null next a q) : Walk null q a null q :=
  ⟨[], .inl ⟨rfl, h.head.symm, rfl⟩⟩

/-- The list may grow in front of a search. -/
theorem Walk.grow (w : List α) (h : Walk null q a prev rest) :
    Walk null (w ++ q) a prev rest := by
  obtain ⟨u, ⟨h₁, h₂, rfl⟩ | ⟨h₁, rfl⟩⟩ := h
  · exact ⟨w ++ u, .inl ⟨h₁, h₂, by rw [List.append_assoc]⟩⟩
  · exact ⟨w ++ u, .inr ⟨h₁, by rw [List.append_assoc]⟩⟩

/-- What is before the search is part of the list. -/
theorem Walk.split (h : Walk null q a prev rest) : ∃ u, q = u ++ rest := by
  obtain ⟨u, ⟨-, -, rfl⟩ | ⟨-, rfl⟩⟩ := h
  · exact ⟨u, rfl⟩
  · exact ⟨u ++ [prev], by simp⟩

/-- The search goes on behind `x`. -/
theorem Walk.advance (h : Walk null q a prev (x :: rest)) (hx : x ≠ null) :
    Walk null q a x rest := by
  obtain ⟨u, rfl⟩ := h.split
  exact ⟨u, .inr ⟨hx, rfl⟩⟩

/-- At the start of the search stands the node it began at. -/
theorem Walk.at_start (h : Walk null q a null (x :: rest)) : x = a := by
  obtain ⟨u, ⟨-, h₂, -⟩ | ⟨h₁, -⟩⟩ := h
  · exact h₂
  · exact absurd rfl h₁

/-- Elsewhere `prev` is the node before. -/
theorem Walk.behind (h : Walk null q a prev rest) (hp : prev ≠ null) :
    ∃ u, q = u ++ prev :: rest := by
  obtain ⟨u, ⟨h₁, -⟩ | ⟨-, rfl⟩⟩ := h
  · exact absurd h₁ hp
  · exact ⟨u, rfl⟩

end Walk

/-! ## The nodes behind a node -/

/-- `p` is at `a` or behind it in the list `q`. -/
def Behind (q : List α) (a p : α) : Prop := ∃ u v, q = u ++ a :: v ∧ p ∈ a :: v

section Behind

variable {q : List α} {a c p : α}

/-- A node behind another is in the list. -/
theorem Behind.mem (h : Behind q a p) : p ∈ q := by
  obtain ⟨u, v, rfl, hp⟩ := h
  exact List.mem_append_right _ hp

/-- A node with one behind it is in the list. -/
theorem Behind.head_mem (h : Behind q a p) : a ∈ q := by
  obtain ⟨u, v, rfl, -⟩ := h
  simp

/-- A node behind one behind a third is behind the third. -/
theorem Behind.trans {b : α} (h : Behind q a b) (hnd : q.Nodup) (h' : Behind q b p) :
    Behind q a p := by
  obtain ⟨u, v, hq, hb⟩ := h
  obtain ⟨x, y, hx, hp⟩ := h'
  obtain ⟨w, z, hz⟩ := List.append_of_mem hb
  have hnotin : ∀ {l r : List α}, q = l ++ b :: r → b ∉ l ∧ b ∉ r := by
    rintro l r rfl
    have hmid := List.nodup_middle.mp hnd
    exact ⟨fun hm => (List.nodup_cons.mp hmid).1 (by simp [hm]),
      fun hm => (List.nodup_cons.mp hmid).1 (by simp [hm])⟩
  have hsplit : q = (u ++ w) ++ b :: z := by rw [hq, hz, List.append_assoc]
  have heq := hsplit.symm.trans hx
  rw [List.append_cons_inj_of_notMem (hnotin hsplit).1 (hnotin hsplit).2] at heq
  refine ⟨u, v, hq, ?_⟩
  rw [hz, heq.2.2]
  exact List.mem_append_right w hp

/-- The node behind one that is behind `a` is behind `a` too. -/
theorem Behind.advance (h : Behind q a c) (hnd : q.Nodup) {u r : List α} {n : α}
    (hq : q = u ++ c :: n :: r) : Behind q a n :=
  h.trans hnd ⟨u, n :: r, hq, by simp⟩

/-- A node put in front of the list is not behind an old one. -/
theorem Behind.of_push {x : α} (h : Behind (x :: q) a p) (ha : a ∈ q) (hx : x ∉ q) :
    Behind q a p := by
  obtain ⟨u, v, hq, hp⟩ := h
  cases u with
  | nil =>
    obtain ⟨rfl, -⟩ := List.cons.inj hq
    exact absurd ha hx
  | cons y u => exact ⟨u, v, (List.cons.inj hq).2, hp⟩

end Behind

end Mekong.Computation.NextChain
