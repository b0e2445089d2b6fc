import Mathlib.Logic.Function.Basic
import WfcPubsub.Lib.Machine

/-!
# Threads with a shared state

Threads share a state `σ`, and each has a local state `π` of its own, where it is in its program
and what it has read. An action of a thread is atomic and may change the shared state and the
local state of that thread. A schedule is the list of the threads that take the actions, in
order; no order is excluded. A thread that has to wait takes an action that changes nothing.

An invariant over such a system speaks of single threads or of pairs of threads. What a step has
to keep of either is what it keeps for the thread that takes it and what it does not break for
the others (`Threads.forall_step`, `Threads.forall_pair_step`).

## Main definitions

* `Threads`, `Threads.State`, `Threads.machine`

## Main results

* `Threads.forall_step`, `Threads.forall_pair_step`
-/

/-- The actions of the threads. -/
structure Threads (ι σ π : Type*) where
  act : ι → σ → π → σ × π

namespace Threads

variable {ι σ π : Type*}

/-- The shared state and the local states. -/
structure State (ι σ π : Type*) where
  shared : σ
  phase : ι → π

variable [DecidableEq ι] (T : Threads ι σ π)

/-- One action of the thread `i`. -/
def next (s : State ι σ π) (i : ι) : State ι σ π where
  shared := (T.act i s.shared (s.phase i)).1
  phase := Function.update s.phase i (T.act i s.shared (s.phase i)).2

/-- The system driven by a schedule. -/
def machine : Machine (State ι σ π) ι Unit where
  step s i := (T.next s i, ())

variable {T} {s : State ι σ π} {i : ι}

@[simp] theorem next_phase_self :
    (T.next s i).phase i = (T.act i s.shared (s.phase i)).2 :=
  Function.update_self ..

theorem next_phase_of_ne {j : ι} (h : j ≠ i) : (T.next s i).phase j = s.phase j :=
  Function.update_of_ne h ..

theorem next_of_act {g : σ} {p : π} (h : T.act i s.shared (s.phase i) = (g, p)) :
    (T.next s i).shared = g ∧ (T.next s i).phase i = p :=
  ⟨congrArg Prod.fst h, next_phase_self.trans (congrArg Prod.snd h)⟩

/-- A thread that has nothing to do changes nothing. -/
theorem next_eq_self (h : T.act i s.shared (s.phase i) = (s.shared, s.phase i)) :
    T.next s i = s := by
  rw [next, h, Function.update_eq_self]

/-- What holds of every thread holds after a step if the thread that takes it keeps it for itself
and does not break it for the others. -/
theorem forall_step {P : ι → σ → π → Prop}
    (hself : P i (T.next s i).shared ((T.next s i).phase i))
    (hother : ∀ j, j ≠ i → P j (T.next s i).shared (s.phase j)) :
    ∀ j, P j (T.next s i).shared ((T.next s i).phase j) := by
  intro j
  by_cases hj : j = i
  · rw [hj]
    exact hself
  · rw [next_phase_of_ne hj]
    exact hother j hj

/-- The same for a symmetric relation between any two threads. -/
theorem forall_pair_step {R : σ → π → π → Prop} (hsymm : ∀ g p q, R g p q → R g q p)
    (hself : ∀ j, j ≠ i → R (T.next s i).shared ((T.next s i).phase i) (s.phase j))
    (hother : ∀ j k, j ≠ i → k ≠ i → j ≠ k → R (T.next s i).shared (s.phase j) (s.phase k)) :
    ∀ j k, j ≠ k → R (T.next s i).shared ((T.next s i).phase j) ((T.next s i).phase k) := by
  intro j k hjk
  by_cases hj : j = i
  · subst hj
    rw [next_phase_of_ne hjk.symm]
    exact hself k hjk.symm
  · rw [next_phase_of_ne hj]
    by_cases hk : k = i
    · subst hk
      exact hsymm _ _ _ (hself j hj)
    · rw [next_phase_of_ne hk]
      exact hother j k hj hk hjk

end Threads
