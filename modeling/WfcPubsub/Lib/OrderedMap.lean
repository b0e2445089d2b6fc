import Mathlib.Logic.Equiv.Basic
import Mathlib.Order.Basic
import Mathlib.Data.List.Nodup
import Mathlib.Data.List.Sort
import Mathlib.Data.List.TakeWhile
import Mathlib.Algebra.BigOperators.Group.Finset.Piecewise
import Mathlib.Algebra.Ring.Nat

/-!
# Ordered associative containers

`OrderedMap κ ν` is the content of a `std::map` as its iterators see it: the entries in
strictly increasing key order. The order is a field of the structure, so every map that can be
built has unique keys and can be searched by key range. A `std::set` is an `OrderedMap` whose
values carry nothing.

All single-key updates are instances of `alter`; they are reasoned about through `find?`, and
two maps that answer every `find?` alike are equal (`OrderedMap.ext_find?`). Loops that start
at `lower_bound` and run while a predicate on the key holds are described by `rangeFrom` and
`eraseRangeFrom`; where the predicate selects an interval, they are a filter of the whole map
(`rangeFrom_eq_filter`, `eraseRangeFrom_eq_filterKeys`).

## Main definitions

* `OrderedMap`, `OrderedSet`
* `OrderedMap.find?`, `OrderedMap.alter`, `OrderedMap.insert`, `OrderedMap.set`,
  `OrderedMap.erase`, `OrderedMap.filterKeys`, `OrderedMap.mapValues`
* `OrderedMap.lowerBound`, `OrderedMap.rangeFrom`, `OrderedMap.eraseRangeFrom`

## Main results

* `OrderedMap.ext_find?`, `OrderedMap.find?_alter`
* `OrderedMap.contains_foldl_insert`, `OrderedMap.find?_foldl_erase`,
  `OrderedMap.find?_foldl_pushBack` : loops that update one key after the other.
* `OrderedMap.filterKeys_alter`, `OrderedMap.sum_filterKeys`, `OrderedMap.sum_alter`
* `OrderedMap.rangeFrom_eq_filter`, `OrderedMap.eraseRangeFrom_eq_filterKeys`
-/

/-- The entries of a `std::map` in iteration order. -/
@[ext] structure OrderedMap (κ ν : Type*) [LinearOrder κ] where
  entries : List (κ × ν)
  sorted : entries.Pairwise fun a b => a.1 < b.1

/-- A `std::set`. -/
abbrev OrderedSet (κ : Type*) [LinearOrder κ] := OrderedMap κ Unit

namespace OrderedMap

variable {κ ν μ : Type*} [LinearOrder κ]

/-- The container with no entry. -/
def empty : OrderedMap κ ν := ⟨[], .nil⟩

/-- `find`: the value stored under `k`. -/
def find? (m : OrderedMap κ ν) (k : κ) : Option ν :=
  (m.entries.find? fun e => e.1 = k).map Prod.snd

/-- `count(k) != 0`. -/
def contains (m : OrderedMap κ ν) (k : κ) : Bool := (m.find? k).isSome

/-- `size`. -/
def size (m : OrderedMap κ ν) : ℕ := m.entries.length

/-! ### Lookup -/

@[simp] theorem find?_empty (k : κ) : (empty : OrderedMap κ ν).find? k = none := rfl

/-- Lookup finds exactly the stored entries. -/
theorem find?_eq_some_iff {m : OrderedMap κ ν} {k : κ} {v : ν} :
    m.find? k = some v ↔ (k, v) ∈ m.entries := by
  obtain ⟨l, hl⟩ := m
  simp only [find?]
  induction l with
  | nil => simp
  | cons e l ih =>
    obtain ⟨he, hl'⟩ := List.pairwise_cons.mp hl
    by_cases hk : e.1 = k
    · have hnot : (k, v) ∉ l := fun hmem => (he _ hmem).ne hk
      simp only [List.find?_cons, hk, decide_true, Option.map_some, Option.some.injEq,
        List.mem_cons, hnot, or_false]
      exact ⟨fun h => Prod.ext hk.symm h.symm, fun h => by rw [← h]⟩
    · have hne : (k, v) ≠ e := fun h => hk (by rw [← h])
      simpa [hk, hne] using ih hl'

theorem contains_iff {m : OrderedMap κ ν} {k : κ} : m.contains k ↔ ∃ v, m.find? k = some v :=
  Option.isSome_iff_exists

theorem nodup_entries (m : OrderedMap κ ν) : m.entries.Nodup :=
  m.sorted.imp fun h he => (he ▸ h).ne rfl

/-- A map is determined by its lookups. -/
theorem ext_find? {m m' : OrderedMap κ ν} (h : ∀ k, m.find? k = m'.find? k) : m = m' := by
  have hperm : m.entries.Perm m'.entries :=
    (List.perm_ext_iff_of_nodup m.nodup_entries m'.nodup_entries).mpr fun e => by
      rw [← find?_eq_some_iff, ← find?_eq_some_iff, h]
  exact OrderedMap.ext (hperm.eq_of_pairwise
    (fun _ _ _ _ hab hba => absurd hab hba.asymm) m.sorted m'.sorted)

/-- Filtering the entries for one key finds what `find?` finds. -/
theorem filter_key_eq (m : OrderedMap κ ν) {k : κ} {p : κ → Bool} (hp : ∀ a, p a ↔ a = k) :
    (m.entries.filter fun e => p e.1) = ((m.find? k).map fun v => (k, v)).toList := by
  obtain ⟨l, hl⟩ := m
  simp only [find?]
  induction l with
  | nil => rfl
  | cons e l ih =>
    obtain ⟨he, hl'⟩ := List.pairwise_cons.mp hl
    by_cases hk : e.1 = k
    · have hnone : (l.filter fun e => p e.1) = [] := by
        simpa [hp] using fun a b hab heq => (he (a, b) hab).ne (hk.trans heq.symm)
      subst hk
      simp [hnone, hp]
    · simpa [hk, hp] using ih hl'

/-! ### Updating one key -/

/-- Replace what is stored under `k` by what `f` makes of it; `none` stands for no entry. -/
def alterList (k : κ) (f : Option ν → Option ν) : List (κ × ν) → List (κ × ν)
  | [] => ((f none).map (k, ·)).toList
  | e :: l =>
    if k < e.1 then ((f none).map (k, ·)).toList ++ e :: l
    else if e.1 < k then e :: alterList k f l
    else ((f (some e.2)).map (k, ·)).toList ++ l

private theorem mem_alterList_fst {k : κ} {f : Option ν → Option ν} {l : List (κ × ν)}
    {e : κ × ν} (he : e ∈ alterList k f l) : e.1 = k ∨ e ∈ l := by
  have hnew : ∀ o : Option ν, e ∈ (o.map (k, ·)).toList → e.1 = k := by
    intro o ho
    obtain ⟨v, -, rfl⟩ := by simpa using ho
    rfl
  induction l with
  | nil => exact Or.inl (hnew _ he)
  | cons a l ih =>
    rw [alterList] at he
    split at he
    · exact (List.mem_append.mp he).imp (hnew _) id
    · split at he
      · rcases List.mem_cons.mp he with rfl | he
        · exact Or.inr List.mem_cons_self
        · exact (ih he).imp_right (List.mem_cons_of_mem _)
      · exact (List.mem_append.mp he).imp (hnew _) (List.mem_cons_of_mem _)

private theorem sorted_alterList {k : κ} {f : Option ν → Option ν} {l : List (κ × ν)}
    (hl : l.Pairwise fun a b => a.1 < b.1) :
    (alterList k f l).Pairwise fun a b => a.1 < b.1 := by
  have hput : ∀ (o : Option ν) (l : List (κ × ν)), (∀ e ∈ l, k < e.1) →
      (l.Pairwise fun a b => a.1 < b.1) →
      ((o.map (k, ·)).toList ++ l).Pairwise fun a b => a.1 < b.1 := by
    intro o l hk hl
    cases o with
    | none => exact hl
    | some v => exact List.pairwise_cons.mpr ⟨fun e he => hk e he, hl⟩
  induction l with
  | nil =>
    rw [alterList]
    cases f none with
    | none => exact .nil
    | some v => exact List.pairwise_singleton _ _
  | cons a l ih =>
    obtain ⟨ha, hl'⟩ := List.pairwise_cons.mp hl
    rw [alterList]
    split
    · next hka =>
      exact hput _ _ (fun e he => (List.mem_cons.mp he).elim (fun h => h ▸ hka)
        fun he => hka.trans (ha e he)) hl
    · split
      · next hak =>
        refine List.pairwise_cons.mpr ⟨fun e he => ?_, ih hl'⟩
        exact (mem_alterList_fst he).elim (fun h => h ▸ hak) (ha e)
      · next h1 h2 =>
        have hak : a.1 = k := le_antisymm (not_lt.mp h1) (not_lt.mp h2)
        exact hput _ _ (fun e he => hak ▸ ha e he) hl'

/-- Replace what is stored under `k` by what `f` makes of it. -/
def alter (m : OrderedMap κ ν) (k : κ) (f : Option ν → Option ν) : OrderedMap κ ν :=
  ⟨alterList k f m.entries, sorted_alterList m.sorted⟩

/-- `insert({k, v})`: an entry that is already there stays as it is. -/
def insert (m : OrderedMap κ ν) (k : κ) (v : ν) : OrderedMap κ ν :=
  m.alter k fun o => some (o.getD v)

/-- `operator[](k) = v`. -/
def set (m : OrderedMap κ ν) (k : κ) (v : ν) : OrderedMap κ ν := m.alter k fun _ => some v

/-- `erase(k)`. -/
def erase (m : OrderedMap κ ν) (k : κ) : OrderedMap κ ν := m.alter k fun _ => none

private theorem mem_alterList_iff {k k' : κ} {v : ν} {f : Option ν → Option ν}
    {l : List (κ × ν)} (hne : k' ≠ k) : (k', v) ∈ alterList k f l ↔ (k', v) ∈ l := by
  have hnew : ∀ o : Option ν, (k', v) ∉ (o.map (k, ·)).toList := by
    intro o ho
    obtain ⟨-, -, h⟩ := by simpa using ho
    exact hne (by simp_all)
  induction l with
  | nil => simpa [alterList] using hnew (f none)
  | cons a l ih =>
    rw [alterList]
    split
    · simp only [List.mem_append, hnew, false_or]
    · split
      · simp only [List.mem_cons, ih]
      · next h1 h2 =>
        have hak : a.1 = k := le_antisymm (not_lt.mp h1) (not_lt.mp h2)
        have : (k', v) ≠ a := fun h => hne (by rw [← hak, ← h])
        simp only [List.mem_append, hnew, false_or, List.mem_cons, this]

private theorem find?_alter_self (m : OrderedMap κ ν) (k : κ) (f : Option ν → Option ν) :
    (m.alter k f).find? k = f (m.find? k) := by
  have hput : ∀ (o : Option ν) (l : List (κ × ν)), (∀ e ∈ l, e.1 ≠ k) →
      ((((o.map (k, ·)).toList ++ l).find? fun e => e.1 = k).map Prod.snd) = o := by
    intro o l hk
    cases o with
    | none => simpa using fun a b hab => hk (a, b) hab
    | some v => simp
  obtain ⟨l, hl⟩ := m
  simp only [alter, find?]
  induction l with
  | nil => simpa [alterList] using hput (f none) [] (by simp)
  | cons a l ih =>
    obtain ⟨ha, hl'⟩ := List.pairwise_cons.mp hl
    rw [alterList]
    split
    · next hka =>
      have hall : ∀ e ∈ a :: l, e.1 ≠ k := fun e he => (List.mem_cons.mp he).elim
        (fun h => h ▸ hka.ne') fun he => (hka.trans (ha e he)).ne'
      have hnone : (a :: l).find? (fun e => e.1 = k) = none := by
        simpa using hall
      rw [hput _ _ hall, hnone, Option.map_none]
    · split
      · next hak => simpa [hak.ne] using ih hl'
      · next h1 h2 =>
        have hak : a.1 = k := le_antisymm (not_lt.mp h1) (not_lt.mp h2)
        rw [hput _ _ fun e he => (hak ▸ ha e he).ne']
        simp [hak]

/-- What a map updated at `k` stores under each key. -/
theorem find?_alter (m : OrderedMap κ ν) (k k' : κ) (f : Option ν → Option ν) :
    (m.alter k f).find? k' = if k' = k then f (m.find? k) else m.find? k' := by
  split
  · next h => rw [h, find?_alter_self]
  · next h =>
    refine Option.ext fun v => ?_
    rw [find?_eq_some_iff, find?_eq_some_iff]
    exact mem_alterList_iff h

@[simp] theorem find?_insert (m : OrderedMap κ ν) (k k' : κ) (v : ν) :
    (m.insert k v).find? k' = if k' = k then some ((m.find? k).getD v) else m.find? k' :=
  find?_alter ..

@[simp] theorem find?_set (m : OrderedMap κ ν) (k k' : κ) (v : ν) :
    (m.set k v).find? k' = if k' = k then some v else m.find? k' :=
  find?_alter ..

@[simp] theorem find?_erase (m : OrderedMap κ ν) (k k' : κ) :
    (m.erase k).find? k' = if k' = k then none else m.find? k' :=
  find?_alter ..

/-- Erasing one key after the other. -/
theorem find?_foldl_erase {α : Type*} (f : α → κ) (l : List α) (m : OrderedMap κ ν) (k : κ) :
    (l.foldl (fun m a => m.erase (f a)) m).find? k =
      if k ∈ l.map f then none else m.find? k := by
  induction l generalizing m with
  | nil => simp
  | cons a l ih =>
    rw [List.foldl_cons, ih, find?_erase]
    simp only [List.map_cons, List.mem_cons]
    by_cases hk : k = f a <;> simp [hk]

theorem contains_foldl_erase {α : Type*} (f : α → κ) (l : List α) (m : OrderedMap κ ν) (k : κ) :
    (l.foldl (fun m a => m.erase (f a)) m).contains k ↔ k ∉ l.map f ∧ m.contains k := by
  rw [contains, find?_foldl_erase, contains]
  split
  · next hk => simp [hk]
  · next hk => simp [hk]

/-- Inserting one key after the other. -/
theorem contains_foldl_insert {α : Type*} (f : α → κ) (v : ν) (l : List α) (m : OrderedMap κ ν)
    (k : κ) :
    (l.foldl (fun m a => m.insert (f a) v) m).contains k ↔ k ∈ l.map f ∨ m.contains k := by
  induction l generalizing m with
  | nil => simp
  | cons a l ih =>
    have hinsert : (m.insert (f a) v).contains k ↔ k = f a ∨ m.contains k := by
      rw [contains, find?_insert, contains]
      split
      · next hk => simp [hk]
      · next hk => simp [hk]
    rw [List.foldl_cons, ih, hinsert, List.map_cons, List.mem_cons, or_left_comm, or_assoc]

/-- `operator[](k).push_back(v)`: append to the list stored under `k`. -/
def pushBack (m : OrderedMap κ (List ν)) (k : κ) (v : ν) : OrderedMap κ (List ν) :=
  m.alter k fun o => some (o.getD [] ++ [v])

/-- Grouping a list by a key. -/
theorem find?_foldl_pushBack {α : Type*} (f : α → κ) (g : α → ν) (l : List α)
    (m : OrderedMap κ (List ν)) (k : κ) :
    (l.foldl (fun m a => m.pushBack (f a) (g a)) m).find? k =
      if k ∈ l.map f then some ((m.find? k).getD [] ++ (l.filter fun a => f a = k).map g)
      else m.find? k := by
  induction l generalizing m with
  | nil => simp
  | cons a l ih =>
    rw [List.foldl_cons, ih, pushBack, find?_alter]
    by_cases hk : k = f a
    · subst hk
      by_cases hmem : f a ∈ l.map f
      · simp [hmem]
      · have hnil : (l.filter fun b => f b = f a) = [] := by simpa using hmem
        simp [hmem, hnil]
    · have hk' : f a ≠ k := fun h => hk h.symm
      simp [hk, hk']

/-! ### Counting entries -/

/-- The keys in iteration order. -/
def keys (m : OrderedMap κ ν) : List κ := m.entries.map Prod.fst

theorem mem_keys {m : OrderedMap κ ν} {k : κ} : k ∈ m.keys ↔ m.contains k := by
  simp only [keys, List.mem_map, contains_iff, find?_eq_some_iff, Prod.exists, exists_and_right,
    exists_eq_right]

theorem nodup_keys (m : OrderedMap κ ν) : m.keys.Nodup :=
  List.Pairwise.map _ (fun _ _ h => h.ne) m.sorted

theorem length_keys (m : OrderedMap κ ν) : m.keys.length = m.size := List.length_map _

/-- Maps whose keys correspond one to one have the same size. -/
theorem size_eq_of_equiv {κ' : Type*} [LinearOrder κ'] {m : OrderedMap κ ν}
    {m' : OrderedMap κ' μ} (e : κ ≃ κ') (h : ∀ k, m.contains k = m'.contains (e k)) :
    m.size = m'.size := by
  have hperm : (m.keys.map e).Perm m'.keys := by
    refine (List.perm_ext_iff_of_nodup (m.nodup_keys.map e.injective) m'.nodup_keys).mpr ?_
    intro k
    rw [List.mem_map, mem_keys]
    constructor
    · rintro ⟨a, ha, rfl⟩
      rwa [← h, ← mem_keys]
    · intro hk
      exact ⟨e.symm k, by rwa [mem_keys, h, e.apply_symm_apply], e.apply_symm_apply k⟩
  rw [← length_keys, ← length_keys, ← hperm.length_eq, List.length_map]

/-! ### Restricting the keys and mapping the values -/

/-- The entries whose key satisfies `p`. -/
def filterKeys (m : OrderedMap κ ν) (p : κ → Bool) : OrderedMap κ ν :=
  ⟨m.entries.filter fun e => p e.1, m.sorted.sublist List.filter_sublist⟩

@[simp] theorem find?_filterKeys (m : OrderedMap κ ν) (p : κ → Bool) (k : κ) :
    (m.filterKeys p).find? k = if p k then m.find? k else none := by
  refine Option.ext fun v => ?_
  rw [find?_eq_some_iff, filterKeys, List.mem_filter, ← find?_eq_some_iff]
  by_cases hp : p k <;> simp [hp]

theorem contains_filterKeys (m : OrderedMap κ ν) (p : κ → Bool) (k : κ) :
    (m.filterKeys p).contains k = (p k && m.contains k) := by
  rw [contains, find?_filterKeys, contains]
  by_cases hp : p k <;> simp [hp]

/-- Apply `f` to every value. -/
def mapValues (m : OrderedMap κ ν) (f : ν → μ) : OrderedMap κ μ :=
  ⟨m.entries.map fun e => (e.1, f e.2), m.sorted.map _ fun _ _ h => h⟩

@[simp] theorem find?_mapValues (m : OrderedMap κ ν) (f : ν → μ) (k : κ) :
    (m.mapValues f).find? k = (m.find? k).map f := by
  simp only [find?, mapValues, List.find?_map, Option.map_map, Function.comp_def]

theorem contains_mapValues (m : OrderedMap κ ν) (f : ν → μ) (k : κ) :
    (m.mapValues f).contains k = m.contains k := by
  rw [contains, find?_mapValues, Option.isSome_map, contains]

theorem mapValues_set (m : OrderedMap κ ν) (f : ν → μ) (k : κ) (v : ν) :
    (m.set k v).mapValues f = (m.mapValues f).set k (f v) := by
  refine ext_find? fun k' => ?_
  rw [find?_mapValues, find?_set, find?_set, find?_mapValues]
  split <;> rfl

theorem mapValues_erase (m : OrderedMap κ ν) (f : ν → μ) (k : κ) :
    (m.erase k).mapValues f = (m.mapValues f).erase k := by
  refine ext_find? fun k' => ?_
  rw [find?_mapValues, find?_erase, find?_erase, find?_mapValues]
  split <;> rfl

theorem keys_mapValues (m : OrderedMap κ ν) (f : ν → μ) : (m.mapValues f).keys = m.keys := by
  simp only [keys, mapValues, List.map_map, Function.comp_def]

/-- Replacing a value that is there keeps the keys. -/
theorem keys_alter_map (m : OrderedMap κ ν) (k : κ) (f : ν → ν) :
    (m.alter k (Option.map f)).keys = m.keys := by
  have hunit : (m.alter k (Option.map f)).mapValues (fun _ => ()) = m.mapValues fun _ => () := by
    refine ext_find? fun k' => ?_
    rw [find?_mapValues, find?_mapValues, find?_alter]
    split
    · next h =>
      rw [h, Option.map_map]
    · rfl
  rw [← keys_mapValues _ fun _ => (), hunit, keys_mapValues]

/-- Updating one key of a part of the map. -/
theorem filterKeys_alter (m : OrderedMap κ ν) (p : κ → Bool) (k : κ)
    (f : Option ν → Option ν) :
    (m.alter k f).filterKeys p =
      if p k then (m.filterKeys p).alter k f else m.filterKeys p := by
  refine ext_find? fun k' => ?_
  by_cases hp : p k
  · rw [if_pos hp, find?_filterKeys, find?_alter, find?_alter, find?_filterKeys,
      find?_filterKeys, if_pos hp]
    by_cases hk : k' = k
    · rw [if_pos hk, if_pos hk, hk, if_pos hp]
    · rw [if_neg hk, if_neg hk]
  · rw [if_neg hp, find?_filterKeys, find?_alter, find?_filterKeys]
    by_cases hk : k' = k
    · rw [hk, if_neg hp, if_neg hp]
    · rw [if_neg hk]

theorem filterKeys_mapValues (m : OrderedMap κ ν) (p : κ → Bool) (f : ν → μ) :
    (m.mapValues f).filterKeys p = (m.filterKeys p).mapValues f := by
  refine ext_find? fun k => ?_
  simp only [find?_filterKeys, find?_mapValues]
  split <;> rfl

theorem filterKeys_comm (m : OrderedMap κ ν) (p q : κ → Bool) :
    (m.filterKeys p).filterKeys q = (m.filterKeys q).filterKeys p :=
  OrderedMap.ext (List.filter_comm _ _ _)

/-- A total over all entries is the sum of the totals over the parts of the map. -/
theorem sum_filterKeys {ι : Type*} [Fintype ι] [DecidableEq ι] (m : OrderedMap κ ν)
    (part : κ → ι) (weight : κ × ν → ℕ) :
    ∑ i, ((m.filterKeys fun k => part k == i).entries.map weight).sum =
      (m.entries.map weight).sum := by
  simp only [filterKeys]
  induction m.entries with
  | nil => simp
  | cons e l ih =>
    have hcons : ∀ i, (((e :: l).filter fun e => part e.1 == i).map weight).sum =
        (if part e.1 = i then weight e else 0) +
          ((l.filter fun e => part e.1 == i).map weight).sum := by
      intro i
      by_cases hi : part e.1 = i <;> simp [hi]
    simp only [hcons, Finset.sum_add_distrib, Finset.sum_ite_eq, Finset.mem_univ, if_true, ih,
      List.map_cons, List.sum_cons]

/-- A total over all entries, split into the weight under one key and that of the others. -/
private theorem sum_eq_add_filterKeys (m : OrderedMap κ ν) (k : κ) (weight : ν → ℕ) :
    (m.entries.map fun e => weight e.2).sum =
      ((m.find? k).map weight).getD 0 +
        ((m.filterKeys fun k' => !decide (k' = k)).entries.map fun e => weight e.2).sum := by
  have hperm := List.filter_append_perm (fun e : κ × ν => decide (e.1 = k)) m.entries
  have hkey := m.filter_key_eq (p := fun a => decide (a = k)) (fun a => decide_eq_true_iff)
  rw [← (hperm.map fun e => weight e.2).sum_eq, List.map_append, List.sum_append, hkey]
  cases m.find? k <;> simp [filterKeys]

/-- What an update of one key does to a total over all entries. -/
theorem sum_alter (m : OrderedMap κ ν) (k : κ) (f : Option ν → Option ν) (weight : ν → ℕ) :
    ((m.alter k f).entries.map fun e => weight e.2).sum + ((m.find? k).map weight).getD 0 =
      (m.entries.map fun e => weight e.2).sum + ((f (m.find? k)).map weight).getD 0 := by
  rw [sum_eq_add_filterKeys (m.alter k f) k, sum_eq_add_filterKeys m k, filterKeys_alter,
    find?_alter, if_pos rfl, if_neg (by simp)]
  omega

theorem sum_set (m : OrderedMap κ ν) (k : κ) (v : ν) (weight : ν → ℕ) :
    ((m.set k v).entries.map fun e => weight e.2).sum + ((m.find? k).map weight).getD 0 =
      (m.entries.map fun e => weight e.2).sum + weight v :=
  m.sum_alter k (fun _ => some v) weight

theorem sum_erase (m : OrderedMap κ ν) (k : κ) (weight : ν → ℕ) :
    ((m.erase k).entries.map fun e => weight e.2).sum + ((m.find? k).map weight).getD 0 =
      (m.entries.map fun e => weight e.2).sum :=
  m.sum_alter k (fun _ => none) weight

/-! ### Ranges that start at `lower_bound` -/

/-- `lower_bound(k)`: the entries from the first key that is not below `k` on. -/
def lowerBound (m : OrderedMap κ ν) (k : κ) : List (κ × ν) :=
  m.entries.dropWhile fun e => e.1 < k

/-- The entries a loop visits that starts at `lower_bound(k)` and runs while `p` holds of the
key. -/
def rangeFrom (m : OrderedMap κ ν) (k : κ) (p : κ → Bool) : List (κ × ν) :=
  (m.lowerBound k).takeWhile fun e => p e.1

/-- `erase(beg, itr)` for the range of `rangeFrom`. -/
def eraseRangeFrom (m : OrderedMap κ ν) (k : κ) (p : κ → Bool) : OrderedMap κ ν where
  entries := (m.entries.takeWhile fun e => e.1 < k) ++
    (m.lowerBound k).dropWhile fun e => p e.1
  sorted := by
    refine m.sorted.sublist ?_
    conv_rhs => rw [← List.takeWhile_append_dropWhile (p := fun e => e.1 < k) (l := m.entries)]
    exact (List.Sublist.refl _).append (List.dropWhile_sublist _)

/-- The first entry at or behind `k`, if its key is `k`, is the one `find` returns. -/
theorem head?_lowerBound (m : OrderedMap κ ν) (k : κ) :
    ((m.lowerBound k).head?.bind fun e => if e.1 = k then some e.2 else none) = m.find? k := by
  obtain ⟨l, hl⟩ := m
  simp only [lowerBound, find?]
  induction l with
  | nil => rfl
  | cons e l ih =>
    obtain ⟨he, hl'⟩ := List.pairwise_cons.mp hl
    rcases lt_trichotomy e.1 k with hlt | heq | hgt
    · simpa [hlt, hlt.ne] using ih hl'
    · simp [heq]
    · have hnone : l.find? (fun e => e.1 = k) = none := by
        simpa using fun a b hab => (hgt.trans (he (a, b) hab)).ne'
      simp [hgt.ne', hgt.asymm, hnone]

section Interval

variable {k : κ} {p : κ → Bool}

/-- In a sorted list a predicate that selects an interval beginning at `k` is met by a block
of entries that starts where the keys reach `k`. -/
private theorem interval_split {l : List (κ × ν)} (hl : l.Pairwise fun a b => a.1 < b.1)
    (hmin : ∀ a, p a → k ≤ a) (hconv : ∀ a b, k ≤ a → a ≤ b → p b → p a) :
    (l.dropWhile fun e => e.1 < k).takeWhile (fun e => p e.1) = l.filter (fun e => p e.1) ∧
    (l.takeWhile fun e => e.1 < k) ++ (l.dropWhile fun e => e.1 < k).dropWhile (fun e => p e.1) =
      l.filter fun e => !p e.1 := by
  induction l with
  | nil => exact ⟨rfl, rfl⟩
  | cons e l ih =>
    obtain ⟨he, hl'⟩ := List.pairwise_cons.mp hl
    obtain ⟨ih1, ih2⟩ := ih hl'
    by_cases hek : e.1 < k
    · have hpe : p e.1 = false :=
        Bool.eq_false_iff.mpr fun h => absurd hek (not_lt.mpr (hmin _ h))
      simp only [hek, decide_true, List.dropWhile_cons_of_pos, List.takeWhile_cons_of_pos,
        hpe, Bool.false_eq_true, not_false_eq_true, List.filter_cons_of_neg, Bool.not_false,
        List.filter_cons_of_pos, List.cons_append, ih1, ih2, and_self]
    · have hall : ∀ a ∈ l, ¬ a.1 < k := fun a ha h => hek ((he a ha).trans h)
      have hdrop : (l.dropWhile fun e => decide (e.1 < k)) = l :=
        List.dropWhile_eq_self_iff.mpr fun h => by simpa using hall _ (List.getElem_mem h)
      have htake : (l.takeWhile fun e => decide (e.1 < k)) = [] :=
        List.takeWhile_eq_nil_iff.mpr fun h => by simpa using hall _ (List.getElem_mem h)
      rw [hdrop, htake] at ih2
      rw [hdrop] at ih1
      by_cases hpe : p e.1
      · simp [hek, hpe, ih1] at ih2 ⊢
        exact ih2
      · have hnone : ∀ a ∈ l, ¬ p a.1 := fun a ha hpa =>
          hpe (hconv _ _ (not_lt.mp hek) (he a ha).le hpa)
        have h1 : l.filter (fun e => p e.1) = [] := by simpa using hnone
        have h2 : l.filter (fun e => !p e.1) = l := by simpa using hnone
        simp [hek, hpe, h1, h2]

/-- A loop over an interval of keys visits all entries of the interval. -/
theorem rangeFrom_eq_filter (m : OrderedMap κ ν) (hmin : ∀ a, p a → k ≤ a)
    (hconv : ∀ a b, k ≤ a → a ≤ b → p b → p a) :
    m.rangeFrom k p = m.entries.filter fun e => p e.1 :=
  (interval_split m.sorted hmin hconv).1

/-- Erasing an interval of keys keeps exactly the entries outside it. -/
theorem eraseRangeFrom_eq_filterKeys (m : OrderedMap κ ν) (hmin : ∀ a, p a → k ≤ a)
    (hconv : ∀ a b, k ≤ a → a ≤ b → p b → p a) :
    m.eraseRangeFrom k p = m.filterKeys fun a => !p a :=
  OrderedMap.ext (interval_split m.sorted hmin hconv).2

end Interval

end OrderedMap
