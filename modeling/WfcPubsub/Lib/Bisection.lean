import Mathlib.Data.List.Sort
import Mathlib.Data.List.DropRight

/-!
# Bisection over a random-access sequence

`bisect p l` is the search loop shared by `std::lower_bound` and `std::upper_bound`: it keeps
a window `[first, first + len)` and halves it at the element in the middle, going right of
that element when `p` holds there. No order is assumed, so the loop is defined on every list.
Where `l` is *partitioned* by `p`, that is `p` holds exactly on a prefix, the loop finds the
end of that prefix, which is what a linear scan would find (`bisect_eq_length_takeWhile`).

## Main definitions

* `Bisection.bisect` : the search loop.
* `Bisection.Partitioned` : `p` holds on a prefix only.

## Main results

* `Bisection.bisect_eq_length_takeWhile` : the loop agrees with the linear scan.
* `Bisection.insertIdx_bisect` : inserting at the position found is ordered insertion.
* `Bisection.pairwise_orderedInsert`, `Bisection.filter_orderedInsert` : ordered insertion.
-/

namespace Bisection

variable {α : Type*}

/-- One run of the loop: `first` is the left end of the window, `len` its length, and `fuel`
bounds the number of halvings. -/
def bisectLoop (p : α → Bool) (l : List α) : ℕ → ℕ → ℕ → ℕ
  | 0, first, _ => first
  | fuel + 1, first, len =>
    if len = 0 then first
    else if (l[first + len / 2]?).any p then
      bisectLoop p l fuel (first + len / 2 + 1) (len - len / 2 - 1)
    else bisectLoop p l fuel first (len / 2)

/-- The position at which the search over all of `l` stops. -/
def bisect (p : α → Bool) (l : List α) : ℕ :=
  bisectLoop p l l.length 0 l.length

/-- `p` holds on a prefix of `l` and nowhere behind it. -/
def Partitioned (p : α → Bool) (l : List α) : Prop :=
  l.Pairwise fun a b => p b → p a

/-- In a partitioned list the prefix on which `p` holds is read off at any position. -/
theorem Partitioned.lt_length_takeWhile_iff {p : α → Bool} {l : List α} (h : Partitioned p l)
    {i : ℕ} (hi : i < l.length) : i < (l.takeWhile p).length ↔ p l[i] := by
  induction l generalizing i with
  | nil => simp at hi
  | cons a l ih =>
    obtain ⟨ha, hl⟩ := List.pairwise_cons.mp h
    by_cases hpa : p a
    · cases i with
      | zero => simp [hpa]
      | succ i => simpa [hpa] using ih hl (by simpa using hi)
    · have hall : ∀ b ∈ l, ¬ p b := fun b hb hpb => hpa (ha b hb hpb)
      cases i with
      | zero => simp [hpa]
      | succ i =>
        have hi' : i < l.length := by simpa using hi
        simp [hpa, hall l[i] (List.getElem_mem hi')]

theorem length_takeWhile_le (p : α → Bool) (l : List α) :
    (l.takeWhile p).length ≤ l.length :=
  (List.takeWhile_prefix p).length_le

/-- The window always contains the end of the prefix, and halving it keeps it there. -/
private theorem bisectLoop_eq {p : α → Bool} {l : List α} (h : Partitioned p l)
    (fuel first len : ℕ) (hfuel : len ≤ fuel) (hlen : first + len ≤ l.length)
    (hlo : first ≤ (l.takeWhile p).length) (hhi : (l.takeWhile p).length ≤ first + len) :
    bisectLoop p l fuel first len = (l.takeWhile p).length := by
  induction fuel generalizing first len with
  | zero =>
    have : len = 0 := by omega
    simp only [bisectLoop]
    omega
  | succ fuel ih =>
    rw [bisectLoop]
    split
    · omega
    · next hne =>
      have hmid : first + len / 2 < l.length := by omega
      have hiff := h.lt_length_takeWhile_iff hmid
      rw [List.getElem?_eq_getElem hmid, Option.any_some]
      split
      · next hp =>
        have := hiff.mpr hp
        exact ih _ _ (by omega) (by omega) (by omega) (by omega)
      · next hp =>
        have : ¬ first + len / 2 < (l.takeWhile p).length := fun hlt => hp (hiff.mp hlt)
        exact ih _ _ (by omega) (by omega) (by omega) (by omega)

/-- On a partitioned list bisection and the linear scan stop at the same position. -/
theorem bisect_eq_length_takeWhile {p : α → Bool} {l : List α} (h : Partitioned p l) :
    bisect p l = (l.takeWhile p).length :=
  bisectLoop_eq h _ _ _ le_rfl (by omega) (Nat.zero_le _)
    (by simpa using length_takeWhile_le p l)

private theorem bisectLoop_le (p : α → Bool) (l : List α) (fuel first len : ℕ) :
    bisectLoop p l fuel first len ≤ first + len := by
  induction fuel generalizing first len with
  | zero => simp [bisectLoop]
  | succ fuel ih =>
    rw [bisectLoop]
    split
    · omega
    · split
      · exact (ih _ _).trans (by omega)
      · exact (ih _ _).trans (by omega)

/-- The search never leaves the sequence, partitioned or not. -/
theorem bisect_le_length (p : α → Bool) (l : List α) : bisect p l ≤ l.length := by
  simpa [bisect] using bisectLoop_le p l l.length 0 l.length

/-- Dropping up to the position found leaves the elements on which `p` fails. -/
theorem drop_bisect {p : α → Bool} {l : List α} (h : Partitioned p l) :
    l.drop (bisect p l) = l.filter fun a => !p a := by
  rw [bisect_eq_length_takeWhile h]
  induction l with
  | nil => rfl
  | cons a l ih =>
    obtain ⟨ha, hl⟩ := List.pairwise_cons.mp h
    by_cases hpa : p a
    · simpa [hpa] using ih hl
    · have hall : ∀ b ∈ l, (!p b) = true := fun b hb => by
        simpa using fun hpb => hpa (ha b hb hpb)
      simp [hpa, List.filter_eq_self.mpr hall]

private theorem insertIdx_length_takeWhile (r : α → α → Prop) [DecidableRel r] (a : α)
    (l : List α) :
    l.insertIdx (l.takeWhile fun b => !decide (r a b)).length a = l.orderedInsert r a := by
  induction l with
  | nil => rfl
  | cons b l ih =>
    by_cases hab : r a b
    · simp [hab]
    · simpa [hab] using ih

/-- Inserting at the position found by bisection is insertion before the first element that
`r` puts behind the new one. -/
theorem insertIdx_bisect (r : α → α → Prop) [DecidableRel r] (a : α) {l : List α}
    (h : Partitioned (fun b => !decide (r a b)) l) :
    l.insertIdx (bisect (fun b => !decide (r a b)) l) a = l.orderedInsert r a := by
  rw [bisect_eq_length_takeWhile h, insertIdx_length_takeWhile]

/-- Insertion keeps a relation that holds between the new element and those on either side of
it, where `r` is carried on along that relation. -/
theorem pairwise_orderedInsert {R : α → α → Prop} {r : α → α → Prop} [DecidableRel r] {a : α}
    {l : List α} (h : l.Pairwise R) (hbehind : ∀ b ∈ l, r a b → R a b)
    (hbefore : ∀ b ∈ l, ¬ r a b → R b a) (hup : ∀ b ∈ l, ∀ x ∈ l, r a b → R b x → r a x) :
    (l.orderedInsert r a).Pairwise R := by
  induction l with
  | nil => exact List.pairwise_singleton _ _
  | cons b l ih =>
    obtain ⟨hb, hl⟩ := List.pairwise_cons.mp h
    have hmem : b ∈ b :: l := List.mem_cons_self
    rw [List.orderedInsert_cons]
    split
    · next hab =>
      refine List.pairwise_cons.mpr ⟨fun x hx => ?_, h⟩
      rcases List.mem_cons.mp hx with rfl | hx'
      · exact hbehind x hmem hab
      · exact hbehind x hx (hup b hmem x hx hab (hb x hx'))
    · next hab =>
      have htail := ih hl (fun x hx => hbehind x (List.mem_cons_of_mem _ hx))
        (fun x hx => hbefore x (List.mem_cons_of_mem _ hx))
        fun x hx y hy => hup x (List.mem_cons_of_mem _ hx) y (List.mem_cons_of_mem _ hy)
      refine List.pairwise_cons.mpr ⟨fun x hx => ?_, htail⟩
      rcases (List.mem_orderedInsert _).mp hx with rfl | hx
      · exact hbefore b hmem hab
      · exact hb x hx

/-- An element that `r` puts before all others is inserted at the front. -/
theorem orderedInsert_of_forall {r : α → α → Prop} [DecidableRel r] {a : α} {l : List α}
    (h : ∀ b ∈ l, r a b) : l.orderedInsert r a = a :: l := by
  cases l with
  | nil => rfl
  | cons b l => rw [List.orderedInsert_cons, if_pos (h b List.mem_cons_self)]

/-- Filtering and insertion commute where `r` is carried on along the order of the list. -/
theorem filter_orderedInsert {R : α → α → Prop} {r : α → α → Prop} [DecidableRel r] {a : α}
    {l : List α} (p : α → Bool) (h : l.Pairwise R) (hup : ∀ b x, r a b → R b x → r a x) :
    (l.orderedInsert r a).filter p =
      if p a then (l.filter p).orderedInsert r a else l.filter p := by
  induction l with
  | nil => by_cases hp : p a <;> simp [hp]
  | cons b l ih =>
    obtain ⟨hb, hl⟩ := List.pairwise_cons.mp h
    rw [List.orderedInsert_cons]
    split
    · next hab =>
      have hall : ∀ x ∈ (b :: l).filter p, r a x := by
        intro x hx
        rcases List.mem_cons.mp (List.mem_of_mem_filter hx) with rfl | hx
        · exact hab
        · exact hup b x hab (hb x hx)
      rw [orderedInsert_of_forall hall, List.filter_cons]
    · next hab =>
      by_cases hp : p b
      · rw [List.filter_cons_of_pos hp, List.filter_cons_of_pos hp, ih hl,
          List.orderedInsert_cons, if_neg hab]
        split <;> rfl
      · rw [List.filter_cons_of_neg hp, List.filter_cons_of_neg hp, ih hl]

end Bisection
