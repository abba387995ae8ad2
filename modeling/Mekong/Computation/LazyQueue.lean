import Mathlib.Data.List.Chain
import Mathlib.Data.List.Nodup
import Mathlib.Logic.Function.Basic

/-!
# Queues whose back links are filled in lazily

A queue of nodes of a type `α`, newest first. A new node is linked in front with a
forward pointer only. Whoever takes nodes off the back first walks from the head until
it meets a node whose `tail` field is set, writing the `prev` field of every node it
passes; then it stores the last node in the head's `tail` field, so that the walk is
never repeated for these nodes.

Three predicates follow the walk: `Linked` (the back links are complete from `a` on, and
`a` knows the last node `t`), `Scanning` (the walk that began at `a` is now at `c`) and
`Scanned` (the walk is over, `a` is not marked yet). `Settled` is the queue between two
walks. The fields are functions `tail prev : α → α`; nothing else about nodes is used.
-/

set_option autoImplicit false

namespace Mekong.Computation.LazyQueue

variable {α : Type} (null : α) (tail prev : α → α)

/-- No walk has passed these nodes. -/
def Untouched (u : List α) : Prop := ∀ x ∈ u, tail x = null ∧ prev x = null

/-- The `prev` fields lead from each node of the list back to the one before it. -/
abbrev BackLinked (l : List α) : Prop := l.IsChain fun x y => prev y = x

/-- The back links are complete from `a` on; `t` is the last node. -/
def Scanned (q : List α) (a t : α) : Prop :=
  ∃ u w, q = u ++ a :: w ∧ Untouched null tail prev u ∧ prev a = null ∧
    BackLinked prev (a :: w) ∧ (a :: w).getLast? = some t

/-- The back links are complete from `a` on, and `a`'s `tail` field names the last node. -/
def Linked (q : List α) (a t : α) : Prop := Scanned null tail prev q a t ∧ tail a = t

/-- A queue between two walks. -/
def Settled (q : List α) : Prop := q = [] ∨ ∃ a t, Linked null tail prev q a t

/-- The part a walk still has to cross: unmarked nodes down to one whose `tail` field
names the last node and from which on the back links are complete. -/
def Pending : List α → Prop
  | [] => False
  | x :: l => (tail x = null ∧ Pending l) ∨
      ((x :: l).getLast? = some (tail x) ∧ BackLinked prev (x :: l))

/-- A walk that began at `a` is at `c`. -/
def Scanning (q : List α) (a c : α) : Prop :=
  ∃ u s r, q = u ++ (s ++ c :: r) ∧ Untouched null tail prev u ∧ (s ++ [c]).head? = some a ∧
    (∀ x ∈ s, tail x = null) ∧ prev a = null ∧ BackLinked prev (s ++ [c]) ∧
    Pending null tail prev (c :: r)

section Frame

variable {null : α} {tail prev tail' prev' : α → α}

/-- The property reads the fields of these nodes only. -/
theorem Untouched.congr {u : List α} (h : Untouched null tail prev u)
    (ht : ∀ x ∈ u, tail' x = tail x) (hp : ∀ x ∈ u, prev' x = prev x) :
    Untouched null tail' prev' u := by
  intro x hx
  rw [ht x hx, hp x hx]
  exact h x hx

/-- The property reads the fields of the list's tail only. -/
theorem backLinked_congr {l : List α} (h : BackLinked prev l)
    (hp : ∀ x ∈ l.tail, prev' x = prev x) : BackLinked prev' l :=
  h.imp_of_mem_tail_imp fun x y _ hy hxy => by rw [hp y hy, hxy]

/-- The property reads the fields of queued nodes only. -/
theorem Scanned.congr {q : List α} {a t : α} (h : Scanned null tail prev q a t)
    (ht : ∀ x ∈ q, tail' x = tail x) (hp : ∀ x ∈ q, prev' x = prev x) :
    Scanned null tail' prev' q a t := by
  obtain ⟨u, w, rfl, hu, ha, hb, hl⟩ := h
  refine ⟨u, w, rfl, hu.congr (fun x hx => ht x (by simp [hx])) (fun x hx => hp x (by simp [hx])),
    ?_, backLinked_congr hb fun x hx => hp x ?_, hl⟩
  · rw [hp a (by simp), ha]
  · exact List.mem_append_right _ (List.mem_of_mem_tail hx)

/-- Both ends are queued. -/
theorem Scanned.mem {q : List α} {a t : α} (h : Scanned null tail prev q a t) : a ∈ q ∧ t ∈ q := by
  obtain ⟨u, w, rfl, -, -, -, hl⟩ := h
  exact ⟨by simp, List.mem_append_right _ (List.mem_of_getLast? hl)⟩

/-- The property reads the fields of queued nodes only. -/
theorem Linked.congr {q : List α} {a t : α} (h : Linked null tail prev q a t)
    (ht : ∀ x ∈ q, tail' x = tail x) (hp : ∀ x ∈ q, prev' x = prev x) :
    Linked null tail' prev' q a t :=
  ⟨h.1.congr ht hp, by rw [ht a h.1.mem.1, h.2]⟩

/-- The property reads the fields of queued nodes only. -/
theorem Settled.congr {q : List α} (h : Settled null tail prev q)
    (ht : ∀ x ∈ q, tail' x = tail x) (hp : ∀ x ∈ q, prev' x = prev x) :
    Settled null tail' prev' q := by
  rcases h with rfl | ⟨a, t, h⟩
  · exact .inl rfl
  · exact .inr ⟨a, t, h.congr ht hp⟩

/-- The property reads the fields of these nodes only. -/
theorem Pending.congr : ∀ {l : List α}, Pending null tail prev l →
    (∀ x ∈ l, tail' x = tail x) → (∀ x ∈ l.tail, prev' x = prev x) → Pending null tail' prev' l
  | [], h, _, _ => h
  | x :: l, h, ht, hp => by
    rcases h with ⟨hx, hl⟩ | ⟨hx, hb⟩
    · refine .inl ⟨by rw [ht x (by simp), hx], hl.congr (fun y hy => ht y (by simp [hy])) ?_⟩
      exact fun y hy => hp y (List.mem_of_mem_tail hy)
    · exact .inr ⟨by rw [ht x (by simp), hx], backLinked_congr hb hp⟩

/-- The property reads the fields of queued nodes only. -/
theorem Scanning.congr {q : List α} {a c : α} (h : Scanning null tail prev q a c)
    (ht : ∀ x ∈ q, tail' x = tail x) (hp : ∀ x ∈ q, prev' x = prev x) :
    Scanning null tail' prev' q a c := by
  obtain ⟨u, s, r, rfl, hu, ha, hs, hpa, hb, hr⟩ := h
  have hmem : a ∈ s ++ [c] := List.mem_of_head? ha
  refine ⟨u, s, r, rfl, hu.congr (fun x hx => ht x (by simp [hx])) (fun x hx => hp x (by simp [hx])),
    ha, ?_, ?_, backLinked_congr hb ?_, hr.congr ?_ ?_⟩
  · intro x hx
    rw [ht x (by simp [hx]), hs x hx]
  · rw [hp a ?_, hpa]
    simp only [List.mem_append, List.mem_singleton] at hmem
    rcases hmem with hmem | rfl <;> simp [*]
  · intro x hx
    have := List.mem_of_mem_tail hx
    simp only [List.mem_append, List.mem_singleton] at this
    rcases this with this | rfl <;> exact hp _ (by simp [*])
  · intro x hx
    exact ht x (by simp [List.mem_cons.mp hx])
  · intro x hx
    exact hp x (by simp only [List.tail_cons] at hx; simp [hx])

end Frame

section Push

variable {null : α} {tail prev : α → α} {q : List α} {a c t p : α}

/-- A new node in front changes nothing behind it. -/
theorem Linked.push (h : Linked null tail prev q a t) (ht : tail p = null) (hp : prev p = null) :
    Linked null tail prev (p :: q) a t := by
  obtain ⟨⟨u, w, rfl, hu, hrest⟩, hta⟩ := h
  refine ⟨⟨p :: u, w, rfl, ?_, hrest⟩, hta⟩
  intro x hx
  rcases List.mem_cons.mp hx with rfl | hx
  · exact ⟨ht, hp⟩
  · exact hu x hx

/-- A push leaves the complete back links. -/
theorem Scanned.push (h : Scanned null tail prev q a t) (ht : tail p = null)
    (hp : prev p = null) : Scanned null tail prev (p :: q) a t := by
  obtain ⟨u, w, rfl, hu, hrest⟩ := h
  refine ⟨p :: u, w, rfl, ?_, hrest⟩
  intro x hx
  rcases List.mem_cons.mp hx with rfl | hx
  · exact ⟨ht, hp⟩
  · exact hu x hx

/-- A push leaves a walk where it is. -/
theorem Scanning.push (h : Scanning null tail prev q a c) (ht : tail p = null)
    (hp : prev p = null) : Scanning null tail prev (p :: q) a c := by
  obtain ⟨u, s, r, rfl, hu, hrest⟩ := h
  refine ⟨p :: u, s, r, rfl, ?_, hrest⟩
  intro x hx
  rcases List.mem_cons.mp hx with rfl | hx
  · exact ⟨ht, hp⟩
  · exact hu x hx

/-- A node pushed on the empty queue is its own tail. -/
theorem Settled.push_nil (ht : tail p = p) (hp : prev p = null) : Settled null tail prev [p] :=
  .inr ⟨p, p, ⟨[], [], rfl, by simp [Untouched], hp, .singleton _, rfl⟩, ht⟩

/-- A push leaves a queue that is not empty settled. -/
theorem Settled.push (h : Settled null tail prev q) (hq : q ≠ []) (ht : tail p = null)
    (hp : prev p = null) : Settled null tail prev (p :: q) := by
  rcases h with rfl | ⟨a, t, h⟩
  · exact absurd rfl hq
  · exact .inr ⟨a, t, h.push ht hp⟩

end Push

section Walk

variable {null : α} {tail prev : α → α} {q : List α} {a c t : α}

/-- The part of a settled queue from any unmarked node on is what a walk has to cross. -/
theorem pending_of_linked {u w : List α} {t : α} (hu : Untouched null tail prev u)
    (hb : BackLinked prev (a :: w)) (hl : (a :: w).getLast? = some t) (hta : tail a = t) :
    Pending null tail prev (u ++ a :: w) := by
  induction u with
  | nil => exact .inr ⟨by rw [hta]; exact hl, hb⟩
  | cons x u ih =>
    exact .inl ⟨(hu x (by simp)).1, ih fun y hy => hu y (by simp [hy])⟩

/-- A walk begins at the head of a settled queue. -/
theorem Settled.scan {x : α} {l : List α} (h : Settled null tail prev (x :: l)) :
    Scanning null tail prev (x :: l) x x := by
  rcases h with h | ⟨a, t, ⟨u, w, hq, hu, ha, hb, hl⟩, hta⟩
  · cases h
  · have hpend : Pending null tail prev (x :: l) := by
      rw [hq]
      exact pending_of_linked hu hb hl hta
    have hx : prev x = null := by
      cases u with
      | nil => obtain ⟨rfl, -⟩ := List.cons.inj hq; exact ha
      | cons y u => obtain ⟨rfl, -⟩ := List.cons.inj hq; exact (hu x (by simp)).2
    exact ⟨[], [], l, rfl, by simp [Untouched], rfl, by simp, hx, .singleton _, hpend⟩

/-- The node a walk stands on is in the queue. -/
theorem Scanning.mem (h : Scanning null tail prev q a c) : c ∈ q := by
  obtain ⟨u, s, r, rfl, -⟩ := h
  simp

/-- The walk ends at the first marked node, whose `tail` field names the last node. -/
theorem Scanning.found (h : Scanning null tail prev q a c) (hc : tail c ≠ null) :
    Scanned null tail prev q a (tail c) := by
  obtain ⟨u, s, r, rfl, hu, ha, -, hpa, hb, hr⟩ := h
  rcases hr with ⟨hn, -⟩ | ⟨hl, hbr⟩
  · exact absurd hn hc
  have hcat : BackLinked prev (s ++ c :: r) := List.isChain_split.mpr ⟨hb, hbr⟩
  have hlast : (s ++ c :: r).getLast? = some (tail c) := by
    rw [List.getLast?_append, hl]
    rfl
  obtain ⟨w, hw⟩ : ∃ w, s ++ c :: r = a :: w := by
    cases s with
    | nil =>
      simp only [List.nil_append, List.head?_cons, Option.some.injEq] at ha
      exact ⟨r, by simp [ha]⟩
    | cons y s =>
      simp only [List.cons_append, List.head?_cons, Option.some.injEq] at ha
      exact ⟨s ++ c :: r, by simp [ha]⟩
  rw [hw] at hcat hlast
  exact ⟨u, w, by rw [hw], hu, hpa, hcat, hlast⟩

/-- From an unmarked node the walk has a next node, behind it in the queue. -/
theorem Scanning.next (h : Scanning null tail prev q a c) (hq : null ∉ q) (hc : tail c = null) :
    ∃ u n r, q = u ++ c :: n :: r := by
  obtain ⟨u, s, r, rfl, -, -, -, -, -, hr⟩ := h
  rcases hr with ⟨-, hr⟩ | ⟨hl, -⟩
  · cases r with
    | nil => exact hr.elim
    | cons n r => exact ⟨u ++ s, n, r, by simp⟩
  · rw [hc] at hl
    refine absurd (List.mem_of_getLast? hl) fun hn => hq ?_
    exact List.mem_append_right _ (List.mem_append_right _ hn)

/-- Writing the back link of the node behind moves the walk there. -/
theorem Scanning.advance [DecidableEq α] (h : Scanning null tail prev q a c) (hnd : q.Nodup)
    (hc : tail c = null) {u' r' : List α} {n : α} (hn : q = u' ++ c :: n :: r') (hq : null ∉ q) :
    Scanning null tail (Function.update prev n c) q a n := by
  obtain ⟨u, s, r, rfl, hu, ha, hs, hpa, hb, hr⟩ := h
  have hcut : u ++ s = u' ∧ r = n :: r' := by
    rw [← List.append_assoc] at hn hnd
    have hc1 : c ∉ u ++ s := fun hm => (List.nodup_append.mp hnd).2.2 c hm c (by simp) rfl
    have hc2 : c ∉ r := (List.nodup_cons.mp (List.nodup_append.mp hnd).2.1).1
    obtain ⟨h₁, -, h₂⟩ := (List.append_cons_inj_of_notMem hc1 hc2).mp hn
    exact ⟨h₁, h₂⟩
  obtain ⟨-, rfl⟩ := hcut
  have hpend : Pending null tail prev (n :: r') := by
    rcases hr with ⟨-, hr⟩ | ⟨hl, -⟩
    · exact hr
    · rw [hc] at hl
      exact absurd (List.mem_of_getLast? hl) fun hm =>
        hq (List.mem_append_right _ (List.mem_append_right _ hm))
  have hnot : ∀ x ∈ u ++ (s ++ [c]), x ≠ n := by
    rintro x hx rfl
    rw [show u ++ (s ++ c :: x :: r') = (u ++ (s ++ [c])) ++ x :: r' by simp] at hnd
    exact (List.nodup_append.mp hnd).2.2 x hx x (by simp) rfl
  have hnr : ∀ x ∈ r', x ≠ n := by
    rintro x hx rfl
    have : (x :: r').Nodup :=
      ((List.nodup_append.mp hnd).2.1.sublist (List.sublist_append_right _ _)).of_cons
    exact (List.nodup_cons.mp this).1 hx
  have hstay : ∀ x, x ≠ n → Function.update prev n c x = prev x :=
    fun x hx => Function.update_of_ne hx _ _
  have hamem : a ∈ s ++ [c] := List.mem_of_head? ha
  refine ⟨u, s ++ [c], r', by simp, ?_, ?_, ?_, ?_, ?_, ?_⟩
  · exact hu.congr (fun _ _ => rfl) fun x hx => hstay x (hnot x (by simp [hx]))
  · cases s <;> simpa using ha
  · intro x hx
    rcases List.mem_append.mp hx with hx | hx
    · exact hs x hx
    · rw [List.mem_singleton.mp hx, hc]
  · rw [hstay a (hnot a (List.mem_append_right _ hamem)), hpa]
  · rw [List.append_assoc, List.singleton_append]
    refine List.isChain_append_cons_cons.mpr
      ⟨backLinked_congr hb fun x hx => hstay x (hnot x ?_), by simp, .singleton _⟩
    exact List.mem_append_right _ (List.mem_of_mem_tail hx)
  · exact hpend.congr (fun _ _ => rfl) fun x hx => hstay x (hnr x hx)

/-- Somewhere from the walk's node on there is a marked node, and all nodes before it are
unmarked. -/
theorem Scanning.reaches (h : Scanning null tail prev q a c) (hq : null ∉ q) :
    ∃ u s b r, q = u ++ (s ++ b :: r) ∧ (s ++ [b]).head? = some c ∧
      (∀ x ∈ s, tail x = null) ∧ tail b ≠ null := by
  obtain ⟨u, s, r, rfl, -, -, -, -, -, hr⟩ := h
  have key : ∀ l : List α, Pending null tail prev l → null ∉ l →
      ∃ s b r, l = s ++ b :: r ∧ (∀ x ∈ s, tail x = null) ∧ tail b ≠ null := by
    intro l
    induction l with
    | nil => exact fun h => h.elim
    | cons x l ih =>
      rintro (⟨hx, hl⟩ | ⟨hl, -⟩) hn
      · obtain ⟨s, b, r, rfl, hs, hb⟩ := ih hl fun h => hn (List.mem_cons_of_mem _ h)
        exact ⟨x :: s, b, r, rfl, by simpa [hx] using hs, hb⟩
      · exact ⟨[], x, l, rfl, by simp, fun h => hn (h ▸ List.mem_of_getLast? hl)⟩
  obtain ⟨s', b, r', hsplit, hs', hb⟩ := key _ hr fun h =>
    hq (List.mem_append_right _ (List.mem_append_right _ h))
  refine ⟨u ++ s, s', b, r', by rw [hsplit]; simp, ?_, hs', hb⟩
  cases s' with
  | nil => simpa using (List.cons.inj hsplit).1.symm
  | cons y s' => simpa using (List.cons.inj hsplit).1.symm

/-- Marking the head with the last node ends the walk. -/
theorem Scanned.mark [DecidableEq α] (h : Scanned null tail prev q a t) (hnd : q.Nodup) :
    Linked null (Function.update tail a t) prev q a t := by
  obtain ⟨u, w, rfl, hu, ha, hb, hl⟩ := h
  have hau : ∀ x ∈ u, x ≠ a := by
    rintro x hx rfl
    exact (List.nodup_append.mp hnd).2.2 x hx x (by simp) rfl
  refine ⟨⟨u, w, rfl, hu.congr (fun x hx => Function.update_of_ne (hau x hx) _ _) fun _ _ => rfl,
    ha, hb, hl⟩, by simp⟩

end Walk

section Unlinked

/-- None of the nodes that a walk at `c` has still to link has a back link yet. -/
def Unlinked (q : List α) (c : α) : Prop :=
  ∃ u s b r, q = u ++ (s ++ b :: r) ∧ (s ++ [b]).head? = some c ∧ (∀ x ∈ s, tail x = null) ∧
    tail b ≠ null ∧ ∀ x ∈ (s ++ [b]).tail, prev x = null

variable {null : α} {tail prev tail' prev' : α → α} {q : List α} {c n p : α}

/-- The property reads the fields of queued nodes only. -/
theorem Unlinked.congr (h : Unlinked null tail prev q c) (ht : ∀ x ∈ q, tail' x = tail x)
    (hp : ∀ x ∈ q, prev' x = prev x) : Unlinked null tail' prev' q c := by
  obtain ⟨u, s, b, r, rfl, hc, hs, hb, hprev⟩ := h
  refine ⟨u, s, b, r, rfl, hc, fun x hx => ?_, ?_, fun x hx => ?_⟩
  · rw [ht x (by simp [hx]), hs x hx]
  · rw [ht b (by simp)]
    exact hb
  · have hx' := List.mem_of_mem_tail hx
    rw [hp x (by simp only [List.mem_append, List.mem_cons] at hx' ⊢; tauto), hprev x hx]

/-- A push leaves the nodes without back links. -/
theorem Unlinked.push (h : Unlinked null tail prev q c) : Unlinked null tail prev (p :: q) c := by
  obtain ⟨u, s, b, r, rfl, hrest⟩ := h
  exact ⟨p :: u, s, b, r, rfl, hrest⟩

/-- A walk begins where no walk has linked anything yet. -/
theorem Settled.unlinked {x : α} {l : List α} (h : Settled null tail prev (x :: l))
    (hq : null ∉ x :: l) : Unlinked null tail prev (x :: l) x := by
  rcases h with h | ⟨a, t, ⟨u, w, heq, hu, ha, -, hl⟩, hta⟩
  · cases h
  · refine ⟨[], u, a, w, heq, ?_, fun y hy => (hu y hy).1, ?_, fun y hy => ?_⟩
    · cases u <;> simpa using (List.cons.inj heq).1.symm
    · rw [hta]
      rintro rfl
      exact hq (heq ▸ List.mem_append_right _ (List.mem_of_getLast? hl))
    · rcases List.mem_append.mp (List.mem_of_mem_tail hy) with hy | hy
      · exact (hu y hy).2
      · rw [List.mem_singleton.mp hy, ha]

/-- The walk at an unmarked node: the next one has no back link, and after it is linked the
walk goes on there. -/
theorem Unlinked.advance [DecidableEq α] (h : Unlinked null tail prev q c) (hnd : q.Nodup)
    (hc : tail c = null) {u' r' : List α} (hn : q = u' ++ c :: n :: r') :
    prev n = null ∧ Unlinked null tail (Function.update prev n c) q n := by
  obtain ⟨u, s, b, r, rfl, hhead, hs, hb, hprev⟩ := h
  cases s with
  | nil =>
    obtain rfl : b = c := by simpa using hhead
    exact absurd hc hb
  | cons x s =>
    obtain rfl : x = c := by simpa using hhead
    have hcut : s ++ b :: r = n :: r' := by
      have hx1 : x ∉ u := fun hm =>
        (List.nodup_append.mp hnd).2.2 x hm x (by simp) rfl
      have hx2 : x ∉ s ++ b :: r :=
        (List.nodup_cons.mp (List.nodup_append.mp hnd).2.1).1
      exact ((List.append_cons_inj_of_notMem hx1 hx2).mp hn).2.2
    have hfirst : (s ++ [b]).head? = some n := by
      have hh := congrArg List.head? hcut
      cases s <;> simpa using hh
    refine ⟨hprev n (List.mem_of_head? hfirst), u ++ [x], s, b, r, by simp, hfirst,
      fun y hy => hs y (List.mem_cons_of_mem _ hy), hb, fun y hy => ?_⟩
    have hnd' : (s ++ [b]).Nodup := by
      have hsub : (s ++ [b]).Sublist (u ++ (x :: s ++ b :: r)) := by
        refine List.Sublist.trans ?_ (List.sublist_append_right u _)
        exact ((List.Sublist.refl s).append (by simp)).trans (List.sublist_cons_self x _)
      exact hnd.sublist hsub
    have hyn : y ≠ n := by
      rintro rfl
      match hs' : s ++ [b], hfirst with
      | z :: l, hfirst =>
        obtain rfl : z = y := by simpa using hfirst
        rw [hs'] at hy hnd'
        exact (List.nodup_cons.mp hnd').1 hy
    rw [Function.update_of_ne hyn]
    exact hprev y (List.mem_of_mem_tail hy)

end Unlinked

section Removal

variable {null : α} {tail prev : α → α} {q : List α} {a t : α}

/-- The last node is the head of the linked part exactly when its back link is null. -/
theorem Linked.tail_eq_head_iff (h : Linked null tail prev q a t) (hq : null ∉ q) (hnd : q.Nodup) :
    prev t = null ↔ t = a := by
  obtain ⟨⟨u, w, rfl, -, ha, hb, hl⟩, -⟩ := h
  constructor
  · intro hp
    rcases List.eq_nil_or_concat w with rfl | ⟨w, x, rfl⟩
    · simpa using hl.symm
    · rw [List.concat_eq_append, ← List.cons_append, List.getLast?_concat] at hl
      obtain rfl : x = t := Option.some.inj hl
      rw [List.concat_eq_append] at *
      obtain ⟨y, hy⟩ : ∃ y, (a :: w).getLast? = some y :=
        ⟨_, List.getLast?_eq_some_getLast (by simp)⟩
      have hyx : prev x = y := by
        rw [show a :: (w ++ [x]) = (a :: w) ++ [x] by simp] at hb
        exact (List.isChain_append.mp hb).2.2 y hy x rfl
      rw [hp] at hyx
      refine absurd (List.mem_of_getLast? hy) fun hm => hq ?_
      rw [hyx]
      simp only [List.mem_append, List.mem_cons] at hm ⊢
      tauto
  · rintro rfl
    exact ha

/-- When the linked part is a single node at the head of the queue, so is the queue. -/
theorem Linked.eq_singleton {x : α} {l : List α} (h : Linked null tail prev (x :: l) x x)
    (hnd : (x :: l).Nodup) : l = [] := by
  obtain ⟨⟨u, w, hq, -, -, -, hl⟩, -⟩ := h
  have hu : u = [] := by
    cases u with
    | nil => rfl
    | cons y u =>
      obtain ⟨rfl, rfl⟩ := List.cons.inj hq
      exact absurd (by simp) (List.nodup_cons.mp hnd).1
  subst hu
  obtain ⟨-, rfl⟩ := List.cons.inj hq
  cases l with
  | nil => rfl
  | cons y l =>
    rw [List.getLast?_cons_cons] at hl
    exact absurd (List.mem_of_getLast? hl) (List.nodup_cons.mp hnd).1

/-- Moving the head's `tail` field to the node before the last cuts the last node off. -/
theorem Linked.cut [DecidableEq α] (h : Linked null tail prev q a t) (hnd : q.Nodup)
    (hta : t ≠ a) :
    ∃ q', q = q' ++ [t] ∧ q' ≠ [] ∧ Settled null (Function.update tail a (prev t)) prev q' := by
  obtain ⟨⟨u, w, rfl, hu, ha, hb, hl⟩, -⟩ := h
  rcases List.eq_nil_or_concat w with rfl | ⟨w, x, rfl⟩
  · exact absurd (by simpa using hl.symm) hta
  rw [List.concat_eq_append, ← List.cons_append, List.getLast?_concat] at hl
  obtain rfl : x = t := Option.some.inj hl
  rw [List.concat_eq_append] at *
  obtain ⟨y, hy⟩ : ∃ y, (a :: w).getLast? = some y :=
    ⟨_, List.getLast?_eq_some_getLast (by simp)⟩
  rw [show a :: (w ++ [x]) = (a :: w) ++ [x] by simp] at hb
  have hyx : prev x = y := (List.isChain_append.mp hb).2.2 y hy x rfl
  have hau : ∀ z ∈ u, z ≠ a := by
    rintro z hz rfl
    exact (List.nodup_append.mp hnd).2.2 z hz z (by simp) rfl
  refine ⟨u ++ a :: w, by simp, by simp, .inr ⟨a, y, ⟨u, w, rfl, ?_, ha, ?_, hy⟩, by simp [hyx]⟩⟩
  · exact hu.congr (fun z hz => Function.update_of_ne (hau z hz) _ _) fun _ _ => rfl
  · exact hb.left_of_append

end Removal

end Mekong.Computation.LazyQueue
