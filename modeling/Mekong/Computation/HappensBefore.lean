import Mathlib.Data.List.Basic

/-!
# Happens-before in an interleaved run

The memory actions of all threads form one log, oldest first: plain accesses of locations
`ℓ`, and atomic operations on objects `χ` that acquire, release, or both. Every
modification of an object is a read-modify-write, so a release is never cut off from a
later acquire of the same object by another value stored in between, and `Before` needs
no record of the values. `RaceFree` says that any two conflicting accesses of a location
are ordered by it.

`Known log k Q` says that the keeper `k` knows of every entry so far whose action is in the
set `Q`: a thread whose next action comes after all of them, or an object from which an
acquire learns of them. A proof of race freedom carries along a run who knows of the
accesses of each location: the rules below say how this passes from a thread to an object
and back, and `RaceFree.extend` what a thread has to know for an access.
-/

set_option autoImplicit false

namespace Mekong.Computation.HappensBefore

/-- What a thread does to memory. -/
inductive Action (χ ℓ : Type)
  /-- A plain read or write. -/
  | access (loc : ℓ) (writes : Bool)
  /-- An atomic operation. -/
  | sync (obj : χ) (acquires releases : Bool)
  deriving DecidableEq

structure Entry (τ χ ℓ : Type) where
  thread : τ
  action : Action χ ℓ
  deriving DecidableEq

/-- The entries of actions that `t` does in a row. -/
def entries {τ χ ℓ : Type} (t : τ) (as : List (Action χ ℓ)) : List (Entry τ χ ℓ) :=
  as.map (⟨t, ·⟩)

section Order

variable {τ χ ℓ : Type} {log es : List (Entry τ χ ℓ)} {i j : ℕ} {t : τ} {x : χ} {l : ℓ}
  {a : Action χ ℓ} {as : List (Action χ ℓ)}

/-- The entry at `i` happens before the one at `j`: by the order of one thread, or because
an acquire comes after a release of its object. -/
inductive Before (log : List (Entry τ χ ℓ)) : ℕ → ℕ → Prop
  | program {i j : ℕ} {e e' : Entry τ χ ℓ} (h : i < j) (hi : log[i]? = some e)
      (hj : log[j]? = some e') (ht : e.thread = e'.thread) : Before log i j
  | sync {i j : ℕ} {t u : τ} {x : χ} {a r : Bool} (h : i < j)
      (hi : log[i]? = some ⟨t, .sync x a true⟩) (hj : log[j]? = some ⟨u, .sync x true r⟩) :
      Before log i j
  | trans {i j k : ℕ} (h : Before log i j) (h' : Before log j k) : Before log i k

/-- Conflicting accesses are ordered. -/
def RaceFree (log : List (Entry τ χ ℓ)) : Prop :=
  ∀ i j t u l w w', i < j → log[i]? = some ⟨t, .access l w⟩ →
    log[j]? = some ⟨u, .access l w'⟩ → w = true ∨ w' = true → Before log i j

/-- The entry at `i` is one of `t`, or happens before one. -/
def Sees (log : List (Entry τ χ ℓ)) (t : τ) (i : ℕ) : Prop :=
  ∃ j e, log[j]? = some e ∧ e.thread = t ∧ (i = j ∨ Before log i j)

/-- The entry at `i` is, or happens before, a release of `x`. -/
def Published (log : List (Entry τ χ ℓ)) (x : χ) (i : ℕ) : Prop :=
  ∃ j u a, log[j]? = some ⟨u, .sync x a true⟩ ∧ (i = j ∨ Before log i j)

/-- An entry stays where it is. -/
theorem getElem?_append_of_some {e : Entry τ χ ℓ} (h : log[i]? = some e) :
    (log ++ es)[i]? = some e := by
  rw [List.getElem?_append_left (List.getElem?_eq_some_iff.mp h).1]
  exact h

/-- The last entry is at the end. -/
theorem getElem?_concat (e : Entry τ χ ℓ) : (log ++ [e])[log.length]? = some e := by simp

/-- An entry is within the log. -/
theorem lt_length_of_some {e : Entry τ χ ℓ} (h : log[i]? = some e) : i < log.length :=
  (List.getElem?_eq_some_iff.mp h).1

/-- More entries leave the order. -/
theorem Before.append (h : Before log i j) : Before (log ++ es) i j := by
  induction h with
  | program h hi hj ht =>
    exact .program h (getElem?_append_of_some hi) (getElem?_append_of_some hj) ht
  | sync h hi hj => exact .sync h (getElem?_append_of_some hi) (getElem?_append_of_some hj)
  | trans _ _ ih ih' => exact .trans ih ih'

/-- More entries leave what a thread sees. -/
theorem Sees.append (h : Sees log t i) : Sees (log ++ es) t i := by
  obtain ⟨j, e, hj, ht, hij⟩ := h
  exact ⟨j, e, getElem?_append_of_some hj, ht, hij.imp_right Before.append⟩

/-- More entries leave what is published. -/
theorem Published.append (h : Published log x i) : Published (log ++ es) x i := by
  obtain ⟨j, u, a, hj, hij⟩ := h
  exact ⟨j, u, a, getElem?_append_of_some hj, hij.imp_right Before.append⟩

/-- What a thread sees comes before its next action. -/
theorem Sees.before (h : Sees log t i) : Before (log ++ [⟨t, a⟩]) i log.length := by
  obtain ⟨j, e, hj, ht, hij⟩ := h
  have hlast : Before (log ++ [⟨t, a⟩]) j log.length :=
    .program (lt_length_of_some hj) (getElem?_append_of_some hj) (getElem?_concat _) ht
  rcases hij with rfl | hij
  · exact hlast
  · exact hij.append.trans hlast

/-- A thread sees its own actions. -/
theorem sees_own : Sees (log ++ [⟨t, a⟩]) t log.length :=
  ⟨log.length, _, getElem?_concat _, rfl, .inl rfl⟩

/-- A release publishes what its thread sees. -/
theorem Sees.release {acq : Bool} (h : Sees log t i) :
    Published (log ++ [⟨t, .sync x acq true⟩]) x i :=
  ⟨log.length, t, acq, getElem?_concat _, .inr h.before⟩

/-- An acquire sees what was published. -/
theorem Published.acquire {rel : Bool} (h : Published log x i) :
    Sees (log ++ [⟨t, .sync x true rel⟩]) t i := by
  obtain ⟨j, u, a, hj, hij⟩ := h
  have hlast : Before (log ++ [⟨t, .sync x true rel⟩]) j log.length :=
    .sync (lt_length_of_some hj) (getElem?_append_of_some hj) (getElem?_concat _)
  refine ⟨log.length, _, getElem?_concat _, rfl, .inr ?_⟩
  rcases hij with rfl | hij
  · exact hlast
  · exact hij.append.trans hlast

/-- An entry of the longer log is an old one or one of the actions. -/
theorem getElem?_entries {e : Entry τ χ ℓ} (h : (log ++ entries t as)[i]? = some e) :
    log[i]? = some e ∨ e.thread = t ∧ e.action ∈ as := by
  by_cases hi : i < log.length
  · rw [List.getElem?_append_left hi] at h
    exact .inl h
  · rw [List.getElem?_append_right (Nat.le_of_not_lt hi), entries, List.getElem?_map,
      Option.map_eq_some_iff] at h
    obtain ⟨a, ha, rfl⟩ := h
    exact .inr ⟨rfl, List.mem_of_getElem? ha⟩

/-- An entry of the longer log is an old one or the new one. -/
theorem getElem?_concat_cases {e e' : Entry τ χ ℓ} (h : (log ++ [e])[i]? = some e') :
    log[i]? = some e' ∨ i = log.length ∧ e' = e := by
  by_cases hi : i < log.length
  · rw [List.getElem?_append_left hi] at h
    exact .inl h
  · have hlt := lt_length_of_some h
    rw [List.length_append, List.length_singleton] at hlt
    obtain rfl : i = log.length := by omega
    rw [getElem?_concat] at h
    exact .inr ⟨rfl, (Option.some.inj h).symm⟩

/-! ## Keepers -/

/-- Who knows of entries. -/
inductive Keeper (τ χ : Type)
  | thread (t : τ)
  | object (x : χ)

/-- The keeper knows of the entry at `i`. -/
def Knows (log : List (Entry τ χ ℓ)) (i : ℕ) : Keeper τ χ → Prop
  | .thread t => Sees log t i
  | .object x => Published log x i

/-- More entries leave what a keeper knows. -/
theorem Knows.append {k : Keeper τ χ} (h : Knows log i k) : Knows (log ++ es) i k := by
  cases k with
  | thread t => exact Sees.append h
  | object x => exact Published.append h

/-- The accesses of the locations in `P`. -/
def AccessOf (P : ℓ → Prop) : Action χ ℓ → Prop
  | .access l _ => P l
  | .sync .. => False

/-- The accesses that conflict with one of `l`. -/
def Conflicts (l : ℓ) (writes : Bool) : Action χ ℓ → Prop
  | .access l' w => l' = l ∧ (w = true ∨ writes = true)
  | .sync .. => False

/-- `k` knows of every entry whose action is in `Q`. -/
def Known (log : List (Entry τ χ ℓ)) (k : Keeper τ χ) (Q : Action χ ℓ → Prop) : Prop :=
  ∀ i t a, log[i]? = some ⟨t, a⟩ → Q a → Knows log i k

section Rules

variable {k : Keeper τ χ} {Q Q' : Action χ ℓ → Prop} {P : ℓ → Prop}

/-- An empty log is known to everyone. -/
theorem known_nil (k : Keeper τ χ) (Q : Action χ ℓ → Prop) :
    Known ([] : List (Entry τ χ ℓ)) k Q := by
  intro i t a h
  simp at h

/-- A thread knows of what it did itself. -/
theorem known_of_own (h : ∀ (i : ℕ) (u : τ) (a : Action χ ℓ), log[i]? = some ⟨u, a⟩ → Q a → u = t) :
    Known log (.thread t) Q :=
  fun i u a hi ha => ⟨i, _, hi, h i u a hi ha, .inl rfl⟩

/-- A keeper that knows of some actions knows of each part of them. -/
theorem Known.mono (h : Known log k Q) (hQ : ∀ a, Q' a → Q a) : Known log k Q' :=
  fun i t a hi ha => h i t a hi (hQ a ha)

/-- The conflicts of a location are accesses of it. -/
theorem Known.conflicts {w : Bool} (h : Known log k (AccessOf P)) (hl : P l) :
    Known log k (Conflicts l w) := by
  refine h.mono fun a ha => ?_
  cases a with
  | access l' w' => exact ha.1 ▸ hl
  | sync => exact ha

/-- The new action is not in the set, or the keeper is its thread. -/
theorem Known.concat (h : Known log k Q) (ha : ¬ Q a ∨ k = .thread t) :
    Known (log ++ [⟨t, a⟩]) k Q := by
  intro i u b hi hb
  rcases getElem?_concat_cases hi with hi | ⟨rfl, he⟩
  · exact (h i u b hi hb).append
  · obtain ⟨-, rfl⟩ := Entry.mk.inj he
    rcases ha with ha | rfl
    · exact absurd hb ha
    · exact sees_own

/-- Actions that are not in the set leave it known. -/
theorem Known.keep (h : Known log k Q) (ha : ∀ a ∈ as, ¬ Q a) : Known (log ++ entries t as) k Q := by
  induction as generalizing log with
  | nil => rwa [entries, List.map_nil, List.append_nil]
  | cons a as ih =>
    have hrest := ih (h.concat (t := t) (a := a) (.inl (ha a List.mem_cons_self)))
      fun b hb => ha b (List.mem_cons_of_mem _ hb)
    rwa [List.append_assoc] at hrest

/-- A thread knows of its own actions. -/
theorem Known.own (h : Known log (.thread t) Q) : Known (log ++ entries t as) (.thread t) Q := by
  induction as generalizing log with
  | nil => rwa [entries, List.map_nil, List.append_nil]
  | cons a as ih =>
    have hrest := ih (h.concat (a := a) (.inr rfl))
    rwa [List.append_assoc] at hrest

/-- A release hands what its thread knows to the object. -/
theorem Known.release {r : Bool} (h : Known log (.thread t) Q) (has : as = [.sync x r true]) :
    Known (log ++ entries t as) (.object x) Q := by
  subst has
  intro i u b hi hb
  rcases getElem?_concat_cases hi with hi | ⟨rfl, he⟩
  · exact Sees.release (h i u b hi hb)
  · exact ⟨log.length, t, r, getElem?_concat _, .inl rfl⟩

/-- An acquire takes it over from the object. -/
theorem Known.acquire {r : Bool} (h : Known log (.object x) Q) (has : as = [.sync x true r]) :
    Known (log ++ entries t as) (.thread t) Q := by
  subst has
  intro i u b hi hb
  rcases getElem?_concat_cases hi with hi | ⟨rfl, he⟩
  · exact Published.acquire (h i u b hi hb)
  · exact sees_own

/-- An access by a thread that knows its conflicts makes no race. -/
theorem RaceFree.concat (h : RaceFree log)
    (ha : ∀ l w, a = .access l w → Known log (.thread t) (Conflicts l w)) :
    RaceFree (log ++ [⟨t, a⟩]) := by
  intro i j u v l w w' hij hi hj hw
  rcases getElem?_concat_cases hj with hj | ⟨rfl, he⟩
  · have hlt := Nat.lt_trans hij (lt_length_of_some hj)
    rw [List.getElem?_append_left hlt] at hi
    exact (h i j u v l w w' hij hi hj hw).append
  · obtain ⟨-, rfl⟩ := Entry.mk.inj he
    rw [List.getElem?_append_left hij] at hi
    exact Sees.before (ha l w' rfl i u _ hi ⟨rfl, hw⟩)

/-- **The rule of race freedom.** A thread that knows of all that conflicts with its
accesses adds no race. -/
theorem RaceFree.extend (h : RaceFree log)
    (ha : ∀ l w, .access l w ∈ as → Known log (.thread t) (Conflicts l w)) :
    RaceFree (log ++ entries t as) := by
  induction as generalizing log with
  | nil => rwa [entries, List.map_nil, List.append_nil]
  | cons a as ih =>
    have hfirst : RaceFree (log ++ [⟨t, a⟩]) :=
      h.concat fun l w e => ha l w (by simp [e])
    have hrest := ih hfirst fun l w hl =>
      (ha l w (List.mem_cons_of_mem _ hl)).concat (a := a) (.inr rfl)
    rwa [List.append_assoc] at hrest

end Rules

end Order

end Mekong.Computation.HappensBefore
