import Mekong.Analysis.WaitGroupWakeups

/-!
# The counter of a `WaitGroup`

No operation on the counter is checked before it takes effect: `with_size` and `add` cast
a `usize` to an `isize`, `add` wraps around, and `done` asserts after it has subtracted.
The counter is the sum of the accepted operations exactly as long as the initial size fits
and no call comes that would have to be rejected, and the first such call ends this.
-/

set_option autoImplicit false

namespace Mekong.Analysis.WaitGroup

open Mekong.Computation Mekong.Model Mekong.Program.WaitGroup

/-! ## The cast and the wrapping additions -/

section Words

variable (w n : U64)

/-- A word is not negative exactly if it is below `2 ^ 63`. -/
theorem toInt_eq_toNat_iff : w.toInt = w.toNat ↔ w.toNat < 2 ^ 63 := by
  have hw := w.isLt
  rw [BitVec.toInt_eq_toNat_cond]
  split <;> omega

/-- A word is its number, or `2 ^ 64` less. -/
theorem toInt_eq_toNat_or : w.toInt = w.toNat ∨ w.toInt = w.toNat - 2 ^ 64 := by
  rw [BitVec.toInt_eq_toNat_cond]
  split
  · exact .inl rfl
  · exact .inr rfl

variable {w n}

/-- A sum in range is exact. -/
theorem toInt_add_of_lt (h : w.toInt + n.toNat < 2 ^ 63) :
    (w + n).toInt = w.toInt + n.toNat := by
  have hw := w.isLt
  have hn := n.isLt
  rw [BitVec.toInt_eq_toNat_cond, BitVec.toNat_add]
  rw [BitVec.toInt_eq_toNat_cond] at h ⊢
  split at h <;> split <;> omega

/-- A sum out of range wraps once. -/
theorem toInt_add_of_le (h : 2 ^ 63 ≤ w.toInt + n.toNat) :
    (w + n).toInt = w.toInt + n.toNat - 2 ^ 64 := by
  have hw := w.isLt
  have hn := n.isLt
  rw [BitVec.toInt_eq_toNat_cond, BitVec.toNat_add]
  rw [BitVec.toInt_eq_toNat_cond] at h ⊢
  split at h <;> split <;> omega

/-- A positive counter is counted down by one. -/
theorem toInt_sub_one_of_pos (h : 1 ≤ w.toInt) : (w - 1).toInt = w.toInt - 1 := by
  have hw := w.isLt
  rw [BitVec.toInt_eq_toNat_cond, BitVec.toNat_sub, show (1 : U64).toNat = 1 from rfl]
  rw [BitVec.toInt_eq_toNat_cond] at h ⊢
  split at h <;> split <;> omega

/-- Any counter is counted down by one, or wraps. -/
theorem toInt_sub_one_or : (w - 1).toInt = w.toInt - 1 ∨ (w - 1).toInt = w.toInt - 1 + 2 ^ 64 := by
  have hw := w.isLt
  rw [BitVec.toInt_eq_toNat_cond, BitVec.toInt_eq_toNat_cond, BitVec.toNat_sub,
    show (1 : U64).toNat = 1 from rfl]
  split <;> split <;> omega

end Words

/-! ## The property -/

section Property

variable {τ : Type}

/-- What an operation that is accepted adds to the counter. -/
def accepted : Event τ → ℤ
  | .added _ n _ => n.toNat
  | .done _ _ => -1
  | _ => 0

/-- The counter is the initial size, plus the accepted adds, minus the accepted dones, and
it is not negative. -/
structure Exact (size : ℕ) (s : State τ) (log : List (Event τ)) : Prop where
  counter : s.mem.workers.toInt = size + (log.map accepted).sum
  nonneg : 0 ≤ s.mem.workers.toInt

/-- The next step of `i.1` is a call that takes the counter below zero, or past what an
`isize` can hold. -/
inductive Exceeds (s : State τ) (i : τ × Choice) : Prop
  | add {n : U64} (hpc : s.pc i.1 = .outside) (hop : i.2.op = .add n)
      (hmax : 2 ^ 63 ≤ s.mem.workers.toInt + n.toNat)
  | done (hpc : s.pc i.1 = .outside) (hop : i.2.op = .done) (hneg : s.mem.workers.toInt < 1)

/-- How a call is rejected: it panics, and changes nothing. -/
def Rejected (s s' : State τ) (t : τ) (es : List (Event τ)) : Prop :=
  es = [.panicked t] ∧ s' = s

variable (τ)

/-- No call exceeds the range of the counter. -/
def inRange : Guard (State τ) (τ × Choice) (Event τ) := fun s _ i => ¬ Exceeds s i

/-- The threads of one `WaitGroup` of a given size. -/
def fromSize [DecidableEq τ] (size : U64) : Machine (State τ) (τ × Choice) (Event τ) :=
  { machine τ with initial := fun s => s = State.withSize τ size }

end Property

/-! ## One step -/

section Step

variable {τ : Type} {t : τ} {c : Choice} {m m' : Shared τ} {pc pc' : Program.ParkingQueue.Pc}
  {es : List (Event τ)}

/-- The events of the queue leave the counter. -/
theorem accepted_queue (es : List (Program.ParkingQueue.Event τ)) :
    ((es.map Event.queue).map accepted).sum = 0 := by
  induction es with
  | nil => rfl
  | cons e es ih =>
      rw [List.map_cons, List.map_cons, List.sum_cons, ih]
      rfl

/-- What a step does to the counter. -/
inductive CounterStep (t : τ) (c : Choice) (m : Shared τ) (pc : Program.ParkingQueue.Pc) :
    U64 → List (Event τ) → Prop
  | add {n : U64} (hpc : pc = .outside) (hop : c.op = .add n) :
      CounterStep t c m pc (m.workers + n) [.added t n m.workers]
  | done {es : List (Event τ)} (hpc : pc = .outside) (hop : c.op = .done)
      (hpos : 1 ≤ m.workers.toInt) (hnone : ∀ u, .panicked u ∉ es)
      (hsum : (es.map accepted).sum = -1) : CounterStep t c m pc (m.workers - 1) es
  | panicked (hpc : pc = .outside) (hop : c.op = .done) (hneg : m.workers.toInt < 1) :
      CounterStep t c m pc (m.workers - 1) [.panicked t]
  | queue (es : List (Program.ParkingQueue.Event τ)) (hop : pc = .outside → c.op = .wait) :
      CounterStep t c m pc m.workers (es.map .queue)

/-- A step inside the queue leaves the counter. -/
theorem queueStep_counter {c' : Program.ParkingQueue.Choice}
    (hop : pc = .outside → c.op = .wait) (h : queueStep t c' m pc = some (m', pc', es)) :
    CounterStep t c m pc m'.workers es := by
  simp only [queueStep, Option.map_eq_some_iff] at h
  obtain ⟨⟨q, pc'', es'⟩, -, he⟩ := h
  cases he
  exact .queue es' hop

/-- A step of a thread changes the counter as its operation says. -/
theorem threadStep_counter (h : threadStep t c m pc = some (m', pc', es)) :
    CounterStep t c m pc m'.workers es := by
  by_cases hpc : pc = .outside
  · subst hpc
    simp only [threadStep] at h
    split at h
    · rename_i n hop
      cases h
      exact .add rfl hop
    · rename_i hop
      split at h
      · rename_i hlt
        cases h
        exact .panicked rfl hop hlt
      · rename_i hle
        have hpos : 1 ≤ m.workers.toInt := by omega
        split at h <;> cases h
        · exact .done rfl hop hpos (by simp) (by simp [accepted])
        · exact .done rfl hop hpos (by simp) (by simp [accepted])
    · rename_i hop
      exact queueStep_counter (fun _ => hop) h
  · have hq : queueStep t c.queue m pc = some (m', pc', es) := by
      cases pc <;> first | exact absurd rfl hpc | exact h
    exact queueStep_counter (fun e => absurd e hpc) hq

end Step

/-! ## Runs -/

section Runs

variable {τ : Type} [DecidableEq τ] {s : State τ} {log : List (Event τ)} {size : U64}

/-- While no call exceeds the range, the counter follows the accepted calls from whatever
the initial size was cast to. -/
theorem exec_counter (run : Exec (fromSize τ size) (inRange τ) s log) :
    s.mem.workers.toInt = size.toInt + (log.map accepted).sum ∧
      (0 ≤ size.toInt → 0 ≤ s.mem.workers.toInt) ∧ ∀ t, .panicked t ∉ log := by
  refine run.invariant (fun s log => s.mem.workers.toInt = size.toInt + (log.map accepted).sum ∧
      (0 ≤ size.toInt → 0 ≤ s.mem.workers.toInt) ∧ ∀ t, .panicked t ∉ log) ?_ ?_
  · rintro s rfl
    exact ⟨by simp [State.withSize], id, fun t => List.not_mem_nil⟩
  · rintro s log ⟨t, c⟩ s' es ⟨hcount, hnonneg, hnone⟩ hrange hr
    obtain ⟨m', pc', hthread, rfl⟩ := machine_next hr
    have hcounter := threadStep_counter hthread
    generalize hw : m'.workers = w at hcounter
    rw [Threads.moveTo_mem, hw, List.map_append, List.sum_append]
    simp only [List.mem_append, not_or]
    cases hcounter with
    | @add n hpc hop =>
        have hlt : s.mem.workers.toInt + n.toNat < 2 ^ 63 := by
          by_contra hle
          exact hrange (.add hpc hop (by omega))
        have hsum := toInt_add_of_lt hlt
        refine ⟨?_, fun hsize => ?_, fun u => ⟨hnone u, by simp⟩⟩
        · simp only [List.map_cons, List.map_nil, List.sum_cons, List.sum_nil, accepted]
          omega
        · have := hnonneg hsize
          omega
    | done hpc hop hpos hnew hsum =>
        have hsub := toInt_sub_one_of_pos hpos
        refine ⟨by omega, fun _ => by omega, fun u => ⟨hnone u, hnew u⟩⟩
    | panicked hpc hop hneg => exact absurd (.done hpc hop hneg) hrange
    | queue es hop =>
        rw [accepted_queue, add_zero]
        exact ⟨hcount, hnonneg, fun u => ⟨hnone u, by simp⟩⟩

/-- A call that exceeds the range is an `add` that goes on, or a `done` that panics. -/
theorem exceeds_cases {i : τ × Choice} {s' : State τ} {es : List (Event τ)}
    (hr : (fromSize τ size).next i s = some (s', es)) (h : Exceeds s i) :
    (∃ n : U64, s'.mem.workers = s.mem.workers + n ∧ es = [.added i.1 n s.mem.workers] ∧
        2 ^ 63 ≤ s.mem.workers.toInt + n.toNat) ∨
      (s'.mem.workers = s.mem.workers - 1 ∧ es = [.panicked i.1] ∧ s.mem.workers.toInt < 1) := by
  obtain ⟨m', pc', hthread, rfl⟩ := machine_next hr
  have hcounter := threadStep_counter hthread
  rw [Threads.moveTo_mem]
  generalize m'.workers = w at hcounter
  cases h with
  | @add n hpc hop hmax =>
      cases hcounter with
      | @add n' hpc' hop' =>
          cases hop.symm.trans hop'
          exact .inl ⟨n, rfl, rfl, hmax⟩
      | done hpc' hop' => cases hop.symm.trans hop'
      | panicked hpc' hop' => cases hop.symm.trans hop'
      | queue es hop' => cases hop.symm.trans (hop' hpc)
  | done hpc hop hneg =>
      cases hcounter with
      | add hpc' hop' => cases hop.symm.trans hop'
      | done hpc' hop' hpos => exact absurd hpos (by simpa using hneg)
      | panicked hpc' hop' hneg' => exact .inr ⟨rfl, rfl, hneg⟩
      | queue es hop' => cases hop.symm.trans (hop' hpc)

/-- A call that exceeds the range is not rejected, and takes an exact counter to one that
is not. -/
theorem exceeds_breaks {i : τ × Choice} {s' : State τ} {es : List (Event τ)}
    (hcount : s.mem.workers.toInt = size.toInt + (log.map accepted).sum)
    (hr : (fromSize τ size).next i s = some (s', es)) (h : Exceeds s i) :
    ¬ Rejected s s' i.1 es ∧ ¬ Exact size.toNat s' (log ++ es) := by
  have hcast := toInt_eq_toNat_or size
  have hexact : Exact size.toNat s' (log ++ es) →
      s'.mem.workers.toInt = size.toNat + ((log.map accepted).sum + (es.map accepted).sum) := by
    intro hexact
    rw [← List.sum_append, ← List.map_append]
    exact hexact.counter
  rcases exceeds_cases hr h with ⟨n, hw, rfl, hmax⟩ | ⟨hw, rfl, hneg⟩
  · have hsum := toInt_add_of_le hmax
    constructor
    · intro hrejected
      simpa using hrejected.1
    · intro h
      have := hexact h
      simp only [hw, List.map_cons, List.map_nil, List.sum_cons, List.sum_nil, accepted] at this
      omega
  · have hsub := toInt_sub_one_or (w := s.mem.workers)
    constructor
    · rintro ⟨-, hs⟩
      have hsame : s'.mem.workers = s.mem.workers := congrArg (fun s => s.mem.workers) hs
      rw [← hw, hsame] at hsub
      omega
    · intro h
      have := hexact h
      simp only [hw, List.map_cons, List.map_nil, List.sum_cons, List.sum_nil, accepted] at this
      omega

/-- **The counter is exact exactly while it stays in range.** In a run in which no call
exceeds the range, the counter of every state is the sum of the accepted calls if and only
if the initial size fits an `isize`, and no call panics. A call that exceeds the range is
not rejected, and leaves a counter that is not that sum. -/
theorem counter_exact (run : Exec (fromSize τ size) (inRange τ) s log) :
    (Exact size.toNat s log ↔ size.toNat < 2 ^ 63) ∧ (∀ t, .panicked t ∉ log) ∧
      ∀ i s' es, (fromSize τ size).next i s = some (s', es) → Exceeds s i →
        ¬ Rejected s s' i.1 es ∧ ¬ Exact size.toNat s' (log ++ es) := by
  obtain ⟨hcount, hnonneg, hnone⟩ := exec_counter run
  refine ⟨⟨?_, ?_⟩, hnone, ?_⟩
  · intro hexact
    have hsum := hexact.counter
    exact (toInt_eq_toNat_iff size).mp (by omega)
  · intro hsize
    have hcast := (toInt_eq_toNat_iff size).mpr hsize
    exact ⟨by omega, hnonneg (by omega)⟩
  · intro i s' es hr hexceeds
    exact exceeds_breaks hcount hr hexceeds

end Runs

/-! ## Two runs -/

/-- Two threads, a size of 1, an `add` of 2 and a `done`: the counter is 2. -/
theorem counter_exact_two : ∃ (s : State Bool) (log : List (Event Bool)),
    s.mem.workers = 2 ∧ log.length = 2 ∧ Exact 1 s log := by
  obtain ⟨s, log, run, hend⟩ := exists_exec_of_run (fromSize Bool 1) (inRange Bool)
    (fun s _ i => decide (s.mem.workers.toInt < 3) && decide (i.2.op = .add 2) ||
      decide (1 ≤ s.mem.workers.toInt) && decide (i.2.op = .done))
    (by
      intro s log i hcheck hexceeds
      simp only [Bool.or_eq_true, Bool.and_eq_true, decide_eq_true_eq] at hcheck
      rcases hcheck with ⟨hworkers, hop⟩ | ⟨hworkers, hop⟩
      · rcases hexceeds with ⟨-, hop', hmax⟩ | ⟨-, hop', -⟩
        · cases hop.symm.trans hop'
          have htwo : (2 : U64).toNat = 2 := rfl
          omega
        · cases hop.symm.trans hop'
      · rcases hexceeds with ⟨-, hop', -⟩ | ⟨-, -, hneg⟩
        · cases hop.symm.trans hop'
        · omega)
    rfl [(false, { op := .add 2 }), (true, { op := .done })]
    (fun s log => decide (s.mem.workers = 2) && decide (log.length = 2)) (by decide +kernel)
  simp only [Bool.and_eq_true, decide_eq_true_eq] at hend
  exact ⟨s, log, hend.1, hend.2, (counter_exact run).1.mpr (by decide)⟩

/-- A `done` on an empty group panics, and takes the counter to -1. -/
theorem counter_exact_fails :
    ¬ ∀ (size : U64) (s : State Bool) (log : List (Event Bool)),
      Runs (fromSize Bool size) s log → Exact size.toNat s log := by
  intro hall
  obtain ⟨s, log, run, hend⟩ := exists_runs_of_run (fromSize Bool 0) rfl
    [(false, { op := .done })]
    (fun s log => decide (s.mem.workers.toInt = -1) && decide (log = [.panicked false]))
    (by decide +kernel)
  simp only [Bool.and_eq_true, decide_eq_true_eq] at hend
  have hnonneg := (hall 0 s log run).nonneg
  omega

end Mekong.Analysis.WaitGroup
