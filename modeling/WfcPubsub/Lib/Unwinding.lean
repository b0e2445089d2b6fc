import WfcPubsub.Lib.Machine

/-!
# Hidden inputs

What an observer notes down of a run need not be the whole trace: of an output he sees what a
`view` shows him. Two machines look alike to him if one of them takes a part of the inputs of
the other, possibly translated, and a relation between their states survives the inputs left
out, which he must not see, and the inputs taken, of which he must see the same
(`Machine.observed_eq_of_unwinding`).

The relation may speak of the inputs still to come; so a condition on them, such as a clock that
does not run backwards, is part of it.

## Main definitions

* `Machine.observed`

## Main results

* `Machine.observed_eq_of_unwinding`, `Machine.observed_eq_of_simulation`,
  `Machine.observed_filter_eq`
-/

namespace Machine

variable {σ τ ι κ ο ο' ω : Type*}

/-- What an observer notes down of a run. -/
def observed (M : Machine σ ι ο) (view : ι → ο → Option ω) (s : σ) : List ι → List ω
  | [] => []
  | i :: is => (view i (M.step s i).2).toList ++ observed M view (M.step s i).1 is

variable {M : Machine σ ι ο} {view : ι → ο → Option ω}

/-- The whole trace is what an observer notes down who sees everything. -/
theorem observed_some (s : σ) (is : List ι) :
    M.observed (fun _ o => some o) s is = M.trace s is := by
  induction is generalizing s with
  | nil => rfl
  | cons i is ih => exact congrArg _ (ih _)

/-- **Unwinding.** Let `f` say what a second machine takes of each input of the first. If a
relation survives every input that is left out, which shows nothing, and every input that is
taken, which shows the same on both sides, then the two runs show the same. -/
theorem observed_eq_of_unwinding {N : Machine τ κ ο'} {view' : κ → ο' → Option ω}
    {f : ι → Option κ} {R : List ι → σ → τ → Prop}
    (hhidden : ∀ s t i is, f i = none → R (i :: is) s t →
      R is (M.step s i).1 t ∧ view i (M.step s i).2 = none)
    (hvisible : ∀ s t i is k, f i = some k → R (i :: is) s t →
      R is (M.step s i).1 (N.step t k).1 ∧ view i (M.step s i).2 = view' k (N.step t k).2)
    {s : σ} {t : τ} {is : List ι} (h : R is s t) :
    M.observed view s is = N.observed view' t (is.filterMap f) := by
  induction is generalizing s t with
  | nil => rfl
  | cons i is ih =>
    rw [observed, List.filterMap_cons]
    cases hf : f i with
    | none =>
      obtain ⟨hR, hview⟩ := hhidden s t i is hf h
      rw [hview]
      exact ih hR
    | some k =>
      obtain ⟨hR, hview⟩ := hvisible s t i is k hf h
      rw [hview]
      exact congrArg _ (ih hR)

/-- Two machines with the same inputs, both of which are given all of them. -/
theorem observed_eq_of_simulation {N : Machine τ ι ο'} {view' : ι → ο' → Option ω}
    {R : List ι → σ → τ → Prop}
    (hstep : ∀ s t i is, R (i :: is) s t →
      R is (M.step s i).1 (N.step t i).1 ∧ view i (M.step s i).2 = view' i (N.step t i).2)
    {s : σ} {t : τ} {is : List ι} (h : R is s t) :
    M.observed view s is = N.observed view' t is := by
  rw [observed_eq_of_unwinding (f := some) (R := R) (fun _ _ _ _ hi => by cases hi)
    (fun s t i is k hi hR => ?_) h, List.filterMap_some]
  obtain rfl := Option.some.inj hi
  exact hstep s t i is hR

/-- Two machines with the same inputs, one of which is not given some of them. -/
theorem observed_filter_eq {N : Machine τ ι ο'} {view' : ι → ο' → Option ω} {p : ι → Bool}
    {R : List ι → σ → τ → Prop}
    (hhidden : ∀ s t i is, p i = false → R (i :: is) s t →
      R is (M.step s i).1 t ∧ view i (M.step s i).2 = none)
    (hvisible : ∀ s t i is, p i = true → R (i :: is) s t →
      R is (M.step s i).1 (N.step t i).1 ∧ view i (M.step s i).2 = view' i (N.step t i).2)
    {s : σ} {t : τ} {is : List ι} (h : R is s t) :
    M.observed view s is = N.observed view' t (is.filter p) := by
  rw [← List.filterMap_eq_filter]
  refine observed_eq_of_unwinding (fun s t i is hi hR => ?_) (fun s t i is k hi hR => ?_) h
  · refine hhidden s t i is ?_ hR
    simpa [Option.guard] using hi
  · obtain ⟨hp, rfl⟩ : p i = true ∧ i = k := by simpa [Option.guard, and_comm] using hi
    exact hvisible s t i is hp hR

end Machine
