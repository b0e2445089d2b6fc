import Mathlib.Data.List.Induction

/-!
# Deterministic machines with inputs and outputs

A `Machine σ ι ο` answers an input `ι` in a state `σ` with a new state and an output `ο`. A run
feeds it a list of inputs; its trace is the list of outputs, one for each input.

A few rules are all that the developments over it use. An invariant kept by every step holds
after every run (`Machine.invariant_run`); one that only some steps break holds until one of them
is taken (`Machine.invariant_or_exists`), so after every run that avoids them
(`Machine.invariant_run_of`), and if these steps always break it, all along a run only if the run
avoids them (`Machine.forall_reached_iff`). Two machines related by a relation that every
step keeps, with equal outputs, have equal traces (`Machine.trace_eq_of_simulation`). A
property that relates the inputs already consumed to the state reached is proved by extending
the history at its end (`Machine.run_induction`). A quantity that each step contributes is
summed up by `Machine.total`; where every step balances with what it contributes, so does a run
(`Machine.total_balance`).

## Main definitions

* `Machine`, `Machine.run`, `Machine.trace`, `Machine.total`

## Main results

* `Machine.invariant_run`, `Machine.invariant_or_exists`, `Machine.invariant_run_of`
* `Machine.forall_reached_iff`, `Machine.run_induction`
* `Machine.trace_eq_of_simulation`, `Machine.trace_map_eq_of_simulation`
* `Machine.total_balance`, `Machine.total_eq_zero_iff`
-/

/-- A deterministic transition function with an output at each step. -/
structure Machine (σ ι ο : Type*) where
  step : σ → ι → σ × ο

namespace Machine

variable {σ τ ι ο : Type*} (M : Machine σ ι ο)

/-- The state after a list of inputs. -/
def run (s : σ) : List ι → σ
  | [] => s
  | i :: is => run (M.step s i).1 is

/-- The outputs given to a list of inputs. -/
def trace (s : σ) : List ι → List ο
  | [] => []
  | i :: is => (M.step s i).2 :: trace (M.step s i).1 is

@[simp] theorem run_nil (s : σ) : M.run s [] = s := rfl

@[simp] theorem trace_nil (s : σ) : M.trace s [] = [] := rfl

theorem run_append (s : σ) (is js : List ι) : M.run s (is ++ js) = M.run (M.run s is) js := by
  induction is generalizing s with
  | nil => rfl
  | cons i is ih => exact ih _

theorem run_concat (s : σ) (is : List ι) (i : ι) :
    M.run s (is ++ [i]) = (M.step (M.run s is) i).1 :=
  M.run_append s is [i]

variable {M}

/-- What every step keeps, every run keeps. -/
theorem invariant_run {I : σ → Prop} (hstep : ∀ s i, I s → I (M.step s i).1) {s : σ}
    (hs : I s) (is : List ι) : I (M.run s is) := by
  induction is generalizing s with
  | nil => exact hs
  | cons i is ih => exact ih (hstep s i hs)

/-- What every step keeps that does not break it holds after a run, or some step has broken it. -/
theorem invariant_or_exists {I : σ → Prop} {B : σ → ι → Prop} {is : List ι}
    (hstep : ∀ s, ∀ i ∈ is, I s → ¬ B s i → I (M.step s i).1) {s : σ} (hs : I s) :
    I (M.run s is) ∨
      ∃ before i after, is = before ++ i :: after ∧ B (M.run s before) i := by
  induction is using List.reverseRecOn with
  | nil => exact Or.inl hs
  | append_singleton is i ih =>
    rcases ih fun s j hj => hstep s j (List.mem_append_left _ hj) with
      hI | ⟨before, j, after, rfl, hB⟩
    · by_cases hB : B (M.run s is) i
      · exact Or.inr ⟨is, i, [], rfl, hB⟩
      · rw [run_concat]
        exact Or.inl (hstep _ i (List.mem_append_right _ List.mem_cons_self) hI hB)
    · refine Or.inr ⟨before, j, after ++ [i], ?_, hB⟩
      rw [List.append_assoc, List.cons_append]

/-- What every step that meets a condition keeps holds after a run of such steps. -/
theorem invariant_run_of {I : σ → Prop} {C : σ → ι → Prop}
    (hstep : ∀ s i, C s i → I s → I (M.step s i).1) {s : σ} (hs : I s) {is : List ι}
    (hC : ∀ before i after, is = before ++ i :: after → C (M.run s before) i) :
    I (M.run s is) := by
  refine (M.invariant_or_exists (B := fun s i => ¬ C s i)
    (fun s i _ hI hB => hstep s i (not_not.mp hB) hI) hs).resolve_right ?_
  rintro ⟨before, i, after, hsplit, hB⟩
  exact hB (hC before i after hsplit)

/-- What certain steps break and all others keep holds in every state reached iff none of them
is taken. -/
theorem forall_reached_iff {I J : σ → Prop} {B : σ → ι → Prop}
    (hJ : ∀ s i, J s → J (M.step s i).1)
    (hstep : ∀ s i, J s → I s → (I (M.step s i).1 ↔ ¬ B s i)) {s : σ} (hs : J s) (hI : I s)
    (is : List ι) :
    (∀ before after, is = before ++ after → I (M.run s before)) ↔
      ∀ before i after, is = before ++ i :: after → ¬ B (M.run s before) i := by
  constructor
  · intro h before i after hsplit
    have hnext : I (M.step (M.run s before) i).1 := by
      rw [← run_concat]
      exact h (before ++ [i]) after (by rw [hsplit, List.append_assoc, List.singleton_append])
    exact (hstep _ i (invariant_run hJ hs before) (h before (i :: after) hsplit)).mp hnext
  · intro h before after hsplit
    refine (invariant_run_of (I := fun s => J s ∧ I s) (C := fun s i => ¬ B s i)
      (fun s i hB hs => ⟨hJ s i hs.1, (hstep s i hs.1 hs.2).mpr hB⟩) ⟨hs, hI⟩
      fun b i a hbefore => h b i (a ++ after) ?_).2
    rw [hsplit, hbefore, List.append_assoc, List.cons_append]

/-- A relation between the inputs consumed so far and the state reached holds after every run
if it holds at the start and every further input keeps it. -/
theorem run_induction {P : List ι → σ → Prop} {s : σ} (hnil : P [] s)
    (hstep : ∀ is i, P is (M.run s is) → P (is ++ [i]) (M.step (M.run s is) i).1)
    (is : List ι) : P is (M.run s is) := by
  induction is using List.reverseRecOn with
  | nil => exact hnil
  | append_singleton is i ih =>
    rw [run_concat]
    exact hstep is i ih

/-- Two machines kept in a relation by every step, with outputs that look the same, have traces
that look the same. -/
theorem trace_map_eq_of_simulation {ω ο' : Type*} {N : Machine τ ι ο'} {R : σ → τ → Prop}
    {f : ο → ω} {g : ο' → ω}
    (hstep : ∀ s t i, R s t →
      R (M.step s i).1 (N.step t i).1 ∧ f (M.step s i).2 = g (N.step t i).2)
    {s : σ} {t : τ} (h : R s t) (is : List ι) :
    (M.trace s is).map f = (N.trace t is).map g := by
  induction is generalizing s t with
  | nil => rfl
  | cons i is ih =>
    obtain ⟨hR, ho⟩ := hstep s t i h
    rw [trace, trace, List.map_cons, List.map_cons, ho, ih hR]

/-- Two machines kept in a relation by every step, with equal outputs, cannot be told apart. -/
theorem trace_eq_of_simulation {N : Machine τ ι ο} {R : σ → τ → Prop}
    (hstep : ∀ s t i, R s t → R (M.step s i).1 (N.step t i).1 ∧ (M.step s i).2 = (N.step t i).2)
    {s : σ} {t : τ} (h : R s t) (is : List ι) : M.trace s is = N.trace t is := by
  simpa only [List.map_id] using trace_map_eq_of_simulation (f := id) (g := id) hstep h is

/-! ### Totals over a run -/

variable (M) in
/-- The sum of what the steps of a run contribute. -/
def total (f : σ → ι → ℕ) (s : σ) : List ι → ℕ
  | [] => 0
  | i :: is => f s i + total f (M.step s i).1 is

/-- Where a quantity balances with the contributions of every step, it does along a run. -/
theorem total_balance {I : σ → Prop} {v : σ → ℕ} {f g : σ → ι → ℕ}
    (hI : ∀ s i, I s → I (M.step s i).1)
    (hstep : ∀ s i, I s → v (M.step s i).1 + f s i = v s + g s i) {s : σ} (hs : I s)
    (is : List ι) : v (M.run s is) + M.total f s is = v s + M.total g s is := by
  induction is generalizing s with
  | nil => rfl
  | cons i is ih =>
    have hhead := hstep s i hs
    have htail := ih (hI s i hs)
    rw [run, total, total]
    omega

theorem total_add (f g : σ → ι → ℕ) (s : σ) (is : List ι) :
    M.total (fun s i => f s i + g s i) s is = M.total f s is + M.total g s is := by
  induction is generalizing s with
  | nil => rfl
  | cons i is ih =>
    rw [total, total, total, ih]
    omega

/-- A total is zero iff no step contributes. -/
theorem total_eq_zero_iff {f : σ → ι → ℕ} {s : σ} {is : List ι} :
    M.total f s is = 0 ↔
      ∀ before i after, is = before ++ i :: after → f (M.run s before) i = 0 := by
  induction is generalizing s with
  | nil => simp [total]
  | cons i is ih =>
    rw [total, Nat.add_eq_zero_iff, ih]
    constructor
    · rintro ⟨hi, his⟩ before j after hsplit
      rcases List.cons_eq_append_iff.mp hsplit with ⟨rfl, h⟩ | ⟨before, rfl, h⟩
      · obtain ⟨rfl, -⟩ := List.cons_eq_cons.mp h
        exact hi
      · exact his before j after h
    · intro h
      exact ⟨h [] i is rfl, fun before j after hsplit =>
        h (i :: before) j after (by rw [hsplit, List.cons_append])⟩

end Machine
