import Mathlib.Logic.Function.Basic
import Mathlib.Data.List.Induction

/-!
# Machines, their runs and their invariants

A machine is a type of states with a deterministic `next` function: the input of a
step names everything that is left open (which thread moves, and how its free choices
fall), so a run is fixed by a list of inputs and can be evaluated. Each step reports
a list of events, and a run keeps the log of all of them, oldest first.

`Exec M ok s log` says that a run of `M` whose every step meets the guard `ok` ends in
the state `s` with the log `log`. The guard sees the state and the log *before* the
step, so it can state how a component is used. `Exec.invariant` is the induction rule
over runs, `Exec.project` carries a run to a machine that simulates it, and
`exists_exec_of_run` turns an evaluated schedule into a run.
-/

set_option autoImplicit false

namespace Mekong.Computation

/-- States `σ` driven by inputs `ι`; a step reports the events `ε` it performs. -/
structure Machine (σ ι ε : Type) where
  /-- The states a run may start in. -/
  initial : σ → Prop
  /-- One step; `none` when the input is not enabled. -/
  next : ι → σ → Option (σ × List ε)

/-- A condition on a step: the state and the log before it, and its input. -/
abbrev Guard (σ ι ε : Type) := σ → List ε → ι → Prop

/-- The guard that every step meets. -/
def anyStep (σ ι ε : Type) : Guard σ ι ε := fun _ _ _ => True

section Runs

variable {σ ι ε : Type} {M : Machine σ ι ε} {ok : Guard σ ι ε}

/-- `s` is reached with the log `log` by a run whose every step meets `ok`. -/
inductive Exec (M : Machine σ ι ε) (ok : Guard σ ι ε) : σ → List ε → Prop
  | start {s : σ} (h : M.initial s) : Exec M ok s []
  | step {s s' : σ} {log es : List ε} {i : ι} (run : Exec M ok s log) (hok : ok s log i)
      (h : M.next i s = some (s', es)) : Exec M ok s' (log ++ es)

/-- The runs of `M` with no condition on their steps. -/
abbrev Runs (M : Machine σ ι ε) : σ → List ε → Prop := Exec M (anyStep σ ι ε)

/-- The induction rule: what holds at the start and is kept by every step that meets
the guard holds at the end of every run. -/
theorem Exec.invariant (I : σ → List ε → Prop) (hstart : ∀ s, M.initial s → I s [])
    (hstep : ∀ s log i s' es, I s log → ok s log i → M.next i s = some (s', es) →
      I s' (log ++ es)) {s : σ} {log : List ε} (run : Exec M ok s log) : I s log := by
  induction run with
  | start h => exact hstart _ h
  | step _ hok h ih => exact hstep _ _ _ _ _ ih hok h

/-- The induction rule with a second invariant already known of every run. -/
theorem Exec.invariant_with (J I : σ → List ε → Prop)
    (hJ : ∀ s log, Exec M ok s log → J s log) (hstart : ∀ s, M.initial s → I s [])
    (hstep : ∀ s log i s' es, J s log → J s' (log ++ es) → I s log → ok s log i →
      M.next i s = some (s', es) → I s' (log ++ es))
    {s : σ} {log : List ε} (run : Exec M ok s log) : I s log := by
  induction run with
  | start h => exact hstart _ h
  | step run hok h ih => exact hstep _ _ _ _ _ (hJ _ _ run) (hJ _ _ (.step run hok h)) ih hok h

/-- A run that meets a guard meets every weaker one. -/
theorem Exec.mono {ok' : Guard σ ι ε} (h : ∀ s log i, ok s log i → ok' s log i)
    {s : σ} {log : List ε} (run : Exec M ok s log) : Exec M ok' s log := by
  induction run with
  | start hs => exact .start hs
  | step _ hok hn ih => exact .step ih (h _ _ _ hok) hn

/-- `s'` and `log'` are reached from `s` and `log` by steps that meet `ok`. -/
inductive Onward (M : Machine σ ι ε) (ok : Guard σ ι ε) (s : σ) (log : List ε) :
    σ → List ε → Prop
  | here : Onward M ok s log s log
  | step {s' s'' : σ} {log' es : List ε} {i : ι} (h : Onward M ok s log s' log')
      (hok : ok s' log' i) (hr : M.next i s' = some (s'', es)) : Onward M ok s log s'' (log' ++ es)

/-- **Simulation.** If `f` maps initial states to initial states and every guarded step
either to a guarded step of `N`, with events translated by `g`, or to no step and no
event, then it maps runs to runs. -/
theorem Exec.project {τ κ η : Type} {N : Machine τ κ η} {ok' : Guard τ κ η}
    (f : σ → τ) (g : ε → List η) (hstart : ∀ s, M.initial s → N.initial (f s))
    (hstep : ∀ s log i s' es, Exec M ok s log → ok s log i → M.next i s = some (s', es) →
      (f s' = f s ∧ es.flatMap g = []) ∨
        ∃ k, ok' (f s) (log.flatMap g) k ∧ N.next k (f s) = some (f s', es.flatMap g))
    {s : σ} {log : List ε} (run : Exec M ok s log) : Exec N ok' (f s) (log.flatMap g) := by
  induction run with
  | start h => exact .start (hstart _ h)
  | step run hok h ih =>
    rw [List.flatMap_append]
    rcases hstep _ _ _ _ _ run hok h with ⟨hs, he⟩ | ⟨k, hk, hn⟩
    · rw [hs, he, List.append_nil]
      exact ih
    · exact .step ih hk hn

end Runs

section Schedules

variable {σ ι ε : Type} (M : Machine σ ι ε)

/-- Run a list of inputs from a state and a log, as long as each input is enabled and
passes the check. -/
def Machine.run (check : σ → List ε → ι → Bool) : List ι → σ → List ε → Option (σ × List ε)
  | [], s, log => some (s, log)
  | i :: is, s, log =>
    if check s log i then
      match M.next i s with
      | some (s', es) => Machine.run check is s' (log ++ es)
      | none => none
    else none

variable {M} {ok : Guard σ ι ε} {check : σ → List ε → ι → Bool}

/-- A schedule that passes a check implying the guard extends a run. -/
theorem Exec.extend (hcheck : ∀ s log i, check s log i = true → ok s log i) :
    ∀ (is : List ι) {s s' : σ} {log log' : List ε}, Exec M ok s log →
      M.run check is s log = some (s', log') → Exec M ok s' log'
  | [], _, _, _, _, run, h => by
    simp only [Machine.run, Option.some.injEq, Prod.mk.injEq] at h
    obtain ⟨rfl, rfl⟩ := h
    exact run
  | i :: is, s, s', log, log', run, h => by
    simp only [Machine.run] at h
    split at h
    · rename_i hc
      split at h
      · rename_i s₁ es hn
        exact Exec.extend hcheck is (.step run (hcheck _ _ _ hc) hn) h
      · cases h
    · cases h

variable (M ok check) in
/-- An evaluated schedule whose end passes the test `P` gives a run to a state with `P`. -/
theorem exists_exec_of_run (hcheck : ∀ s log i, check s log i = true → ok s log i)
    {s₀ : σ} (hs₀ : M.initial s₀) (is : List ι) (P : σ → List ε → Bool)
    (h : (M.run check is s₀ []).any (fun r => P r.1 r.2) = true) :
    ∃ s log, Exec M ok s log ∧ P s log = true := by
  cases hr : M.run check is s₀ [] with
  | none => rw [hr] at h; cases h
  | some r =>
    rw [hr] at h
    exact ⟨r.1, r.2, Exec.extend hcheck is (.start hs₀) hr, h⟩

variable (M) in
/-- The same without a condition on the steps. -/
theorem exists_runs_of_run {s₀ : σ} (hs₀ : M.initial s₀) (is : List ι) (P : σ → List ε → Bool)
    (h : (M.run (fun _ _ _ => true) is s₀ []).any (fun r => P r.1 r.2) = true) :
    ∃ s log, Runs M s log ∧ P s log = true :=
  exists_exec_of_run M _ _ (fun _ _ _ _ => trivial) hs₀ is P h

end Schedules

/-! ## Properties of logs -/

section Logs

variable {ε : Type} {P : List ε → ε → Prop} {log : List ε} {e : ε}

/-- Every event of the log has the property `P`, which sees the log before the event. -/
def Each (P : List ε → ε → Prop) (log : List ε) : Prop :=
  ∀ pre e post, log = pre ++ e :: post → P pre e

/-- The empty log has every property. -/
theorem each_nil : Each P [] := by
  intro pre e post h
  simp at h

/-- An event with the property may follow. -/
theorem Each.concat (h : Each P log) (he : P log e) : Each P (log ++ [e]) := by
  intro pre x post heq
  rcases List.eq_nil_or_concat post with rfl | ⟨post', y, rfl⟩
  · obtain ⟨rfl, hx⟩ := List.append_inj' heq rfl
    rwa [← (List.cons.inj hx).1]
  · rw [List.concat_eq_append, ← List.cons_append, ← List.append_assoc] at heq
    exact h pre x post' (List.append_inj' heq rfl).1

/-- Events with the property may follow. -/
theorem Each.append {es : List ε} (h : Each P log)
    (he : ∀ pre e post, es = pre ++ e :: post → P (log ++ pre) e) : Each P (log ++ es) := by
  induction es using List.reverseRecOn with
  | nil => rwa [List.append_nil]
  | append_singleton es e ih =>
    rw [← List.append_assoc]
    refine (ih fun pre x post heq => he pre x (post ++ [e]) (by rw [heq]; simp)).concat ?_
    exact he es e [] rfl

/-- The beginning of a log. -/
theorem Each.of_append {es : List ε} (h : Each P (log ++ es)) : Each P log := by
  rintro a e b rfl
  exact h a e (b ++ es) (by simp)

/-- The last event has the property. -/
theorem Each.last (h : Each P (log ++ [e])) : P log e := h log e [] rfl

end Logs

/-! ## Systems of threads -/

section Threads

variable {τ μ π : Type} [DecidableEq τ]

/-- A memory shared by threads `τ`, each at a program counter. -/
structure Threads (τ μ π : Type) where
  mem : μ
  pc : τ → π

/-- The state after thread `t` moved to `p`, leaving the memory `m`. -/
def Threads.moveTo (s : Threads τ μ π) (t : τ) (m : μ) (p : π) : Threads τ μ π :=
  ⟨m, Function.update s.pc t p⟩

@[simp] theorem Threads.moveTo_mem (s : Threads τ μ π) (t : τ) (m : μ) (p : π) :
    (s.moveTo t m p).mem = m := rfl

@[simp] theorem Threads.moveTo_pc_self (s : Threads τ μ π) (t : τ) (m : μ) (p : π) :
    (s.moveTo t m p).pc t = p := by simp [Threads.moveTo]

/-- The other threads stay where they are. -/
theorem Threads.moveTo_pc_of_ne (s : Threads τ μ π) {t u : τ} (m : μ) (p : π) (h : u ≠ t) :
    (s.moveTo t m p).pc u = s.pc u := by simp [Threads.moveTo, h]

/-- A statement about every thread after a step of `t`: about `t` at its new place, and
about the others where they were. -/
theorem Threads.forall_moveTo {s : Threads τ μ π} {t : τ} {m : μ} {p : π} (P : τ → π → Prop)
    (ht : P t p) (hu : ∀ u, u ≠ t → P u (s.pc u)) : ∀ u, P u ((s.moveTo t m p).pc u) := by
  intro u
  by_cases h : u = t
  · subst h
    rwa [moveTo_pc_self]
  · rw [moveTo_pc_of_ne _ _ _ h]
    exact hu u h

end Threads

/-! ## A thread alone -/

section Alone

variable {μ π ε : Type} {step : μ → π → Option (μ × π × List ε)}

/-- Steps of one thread, and of no other, lead from one memory and place to others; the
list holds what they report. -/
inductive Alone (step : μ → π → Option (μ × π × List ε)) : μ → π → List ε → μ → π → Prop
  | stay (m : μ) (pc : π) : Alone step m pc [] m pc
  | go {m m' m'' : μ} {pc pc' pc'' : π} {es es' : List ε} (h : step m pc = some (m', pc', es))
      (rest : Alone step m' pc' es' m'' pc'') : Alone step m pc (es ++ es') m'' pc''

/-- What a thread's own steps keep holds wherever it gets alone. -/
theorem Alone.invariant (I : μ → π → Prop)
    (hstep : ∀ m pc m' pc' es, I m pc → step m pc = some (m', pc', es) → I m' pc')
    {m m' : μ} {pc pc' : π} {es : List ε} (run : Alone step m pc es m' pc') (h : I m pc) :
    I m' pc' := by
  induction run with
  | stay => exact h
  | go hr _ ih => exact ih (hstep _ _ _ _ _ h hr)

/-- If a machine whose state is `At` a memory and a place can take the thread's next step
by the input `i`, it gets by this input alone wherever the thread does. -/
theorem Alone.lift {σ ι η : Type} {M : Machine σ ι η} {i : ι} (At : σ → μ → π → Prop)
    (hstep : ∀ s m pc m' pc' es, At s m pc → step m pc = some (m', pc', es) →
      ∃ s' es', M.next i s = some (s', es') ∧ At s' m' pc')
    {m m' : μ} {pc pc' : π} {es : List ε} (run : Alone step m pc es m' pc') {s : σ}
    (h : At s m pc) (log : List η) :
    ∃ n s' log', M.run (fun _ _ _ => true) (List.replicate n i) s log = some (s', log') ∧
      At s' m' pc' := by
  induction run generalizing s log with
  | stay => exact ⟨0, s, log, rfl, h⟩
  | go hr _ ih =>
    obtain ⟨s₁, es₁, hnext, h₁⟩ := hstep _ _ _ _ _ _ h hr
    obtain ⟨n, s', log', hrun, h'⟩ := ih h₁ (log ++ es₁)
    refine ⟨n + 1, s', log', ?_, h'⟩
    rw [List.replicate_succ, Machine.run, if_pos rfl, hnext]
    exact hrun

end Alone

end Mekong.Computation
