import Mekong.Computation.NextChain
import Mekong.Program.MemoryOrder

/-!
# The nodes of a queue as objects in memory

What a proof of race freedom needs to know of the objects behind the addresses of nodes,
for `RawMutex` and `ParkingQueue` alike: a step changes them at one address at most, and
an object that has not been built has not been accessed.
-/

set_option autoImplicit false

namespace Mekong.Analysis.MemoryOrder

open Mekong.Computation Mekong.Computation.HappensBefore Mekong.Model Mekong.Program.RawMutex
  Mekong.Program.MemoryOrder

/-- The cells of the `n`-th object at `p`. -/
def Cell (p : Ptr) (n : ℕ) : Loc → Prop
  | .node q m _ => q = p ∧ m = n
  | _ => False

section Objects

variable {τ : Type} {o : Objects τ} {b fresh : Bool} {t u : τ} {p q : Ptr}
  {log : List (Entry τ Obj Loc)} {as : List (Action Obj Loc)} {k : Keeper τ Obj}

/-- Only the objects at the address of the call change. -/
theorem Objects.after_of_ne (hp : b = true → p ≠ q) :
    (o.after b t q fresh).life p = o.life p ∧ (o.after b t q fresh).user p = o.user p := by
  unfold Objects.after
  split
  · rename_i hb
    refine ⟨?_, Function.update_of_ne (hp hb) _ _⟩
    dsimp only
    split
    · exact Function.update_of_ne (hp hb) _ _
    · rfl
  · exact ⟨rfl, rfl⟩

/-- No node becomes an earlier object. -/
theorem Objects.life_le : o.life p ≤ (o.after b t q fresh).life p := by
  by_cases hp : b = true → p ≠ q
  · exact (Objects.after_of_ne hp).1.ge
  · obtain ⟨hb, hpq⟩ := Classical.not_imp.mp hp
    obtain rfl := not_not.mp hpq
    rw [Objects.after, if_pos hb]
    dsimp only
    split
    · rw [Function.update_self]
      omega
    · exact le_rfl

/-- A call of `with_thread_data` makes its thread the node's user. -/
theorem Objects.after_user : (o.after true t p fresh).user p = some t := Function.update_self _ _ _

/-- A node that is kept stays the same object. -/
theorem Objects.after_again : (o.after true t p false).life p = o.life p := rfl

/-- A new node is a new object. -/
theorem Objects.after_fresh : (o.after true t p true).life p = o.life p + 1 :=
  Function.update_self _ _ _

/-- The log has no accesses of objects that are still to be built. -/
def Unborn (o : Objects τ) (log : List (Entry τ Obj Loc)) : Prop :=
  ∀ (p : Ptr) (n : ℕ) (f : Field) (i : ℕ) (e : Entry τ Obj Loc) (w : Bool),
    o.life p < n → log[i]? = some e → e.action ≠ .access (.node p n f) w

/-- Nothing has been accessed in an empty log. -/
theorem unborn_nil (o : Objects τ) : Unborn o [] := by
  intro p n f i e w hn hi
  simp at hi

/-- Accesses of existing objects keep those to come untouched. -/
theorem Unborn.after (h : Unborn o log)
    (has : ∀ p n f w, .access (.node p n f) w ∈ as → n = o.life p) :
    Unborn (o.after b t q fresh) (log ++ entries u as) := by
  intro p n f i e w hn hi he
  have hle : o.life p ≤ (o.after b t q fresh).life p := Objects.life_le
  rcases getElem?_entries hi with hi | ⟨-, ha⟩
  · exact h p n f i e w (by omega) hi he
  · rw [he] at ha
    have hlife := has p n f w ha
    omega

/-- `k` knows of every access of the object at `p`. -/
def NodeKnown (life : Ptr → ℕ) (log : List (Entry τ Obj Loc)) (k : Keeper τ Obj) (p : Ptr) : Prop :=
  Known log k (AccessOf (Cell p (life p)))

/-- Everybody knows of all accesses of a new object: there are none. -/
theorem Unborn.known (h : Unborn o log)
    (has : ∀ n f w, .access (.node p n f) w ∈ as → n = o.life p) :
    NodeKnown (o.after true t p true).life (log ++ entries u as) k p := by
  intro i v a hi ha
  rw [Objects.after_fresh] at ha
  cases a with
  | sync => exact ha.elim
  | access l w =>
    cases l with
    | node q n f =>
      obtain ⟨rfl, rfl⟩ := ha
      rcases getElem?_entries hi with hi | ⟨-, hmem⟩
      · exact absurd rfl (h _ _ f i _ w (Nat.lt_succ_self _) hi)
      · have hlife := has _ f w hmem
        omega
    | _ => exact ha.elim

/-- What the actions do not access stays known. -/
theorem NodeKnown.keep {life life' : Ptr → ℕ} (h : NodeKnown life log k p)
    (hlife : life' p = life p) (has : ∀ f w, .access (.node p (life p) f) w ∉ as) :
    NodeKnown life' (log ++ entries t as) k p := by
  rw [NodeKnown, hlife]
  refine Known.keep h fun a ha hcell => ?_
  cases a with
  | sync => exact hcell
  | access l w =>
    cases l with
    | node q n f =>
      obtain ⟨rfl, rfl⟩ := hcell
      exact has f w ha
    | _ => exact hcell

/-- A thread knows of its own accesses. -/
theorem NodeKnown.own {life life' : Ptr → ℕ} (h : NodeKnown life log (.thread t) p)
    (hlife : life' p = life p) : NodeKnown life' (log ++ entries t as) (.thread t) p := by
  rw [NodeKnown, hlife]
  exact Known.own h

/-- A release hands over what its thread knows. -/
theorem NodeKnown.release {life life' : Ptr → ℕ} {x : Obj} {r : Bool}
    (h : NodeKnown life log (.thread t) p) (has : as = [.sync x r true])
    (hlife : life' p = life p) : NodeKnown life' (log ++ entries t as) (.object x) p := by
  rw [NodeKnown, hlife]
  exact Known.release h has

/-- An acquire takes it over. -/
theorem NodeKnown.acquire {life life' : Ptr → ℕ} {x : Obj} {r : Bool}
    (h : NodeKnown life log (.object x) p) (has : as = [.sync x true r])
    (hlife : life' p = life p) : NodeKnown life' (log ++ entries t as) (.thread t) p := by
  rw [NodeKnown, hlife]
  exact Known.acquire h has

/-- Who knows of all accesses of a node knows of those that conflict with one. -/
theorem NodeKnown.conflicts {life : Ptr → ℕ} (h : NodeKnown life log k p) (f : Field) (w : Bool) :
    Known log k (Conflicts (.node p (life p) f) w) :=
  Known.conflicts h ⟨rfl, rfl⟩

end Objects

/-! ## The actions of one step -/

section Actions

variable {life : Ptr → ℕ} {l : Loc} {w : Bool}

/-- An access of a cell is one of the node's object. -/
theorem accessCell_eq {w' : Bool} {q : Ptr} {f : Field}
    (h : Action.access l w ∈ accessCell life q f w') : l = .node q (life q) f := by
  simp only [accessCell, List.mem_singleton, Action.access.injEq] at h
  exact h.1

/-- A compare-exchange does what one of its outcomes does. -/
theorem onCas_subset {spurious : Bool} {word expected : U64} {ok err : List (Action Obj Loc)}
    {a : Action Obj Loc} (h : a ∈ onCas spurious word expected ok err) : a ∈ ok ∨ a ∈ err := by
  unfold onCas at h
  split at h
  · exact .inl h
  · exact .inr h

/-- To acquire the word is no access of a cell. -/
theorem no_access_acquire : Action.access l w ∉ acquireWord := by simp [acquireWord]

/-- To release the word is no access of a cell. -/
theorem no_access_release : Action.access l w ∉ releaseWord := by simp [releaseWord]

end Actions

end Mekong.Analysis.MemoryOrder
