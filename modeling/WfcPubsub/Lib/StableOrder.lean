import WfcPubsub.Lib.Bisection

/-!
# Stable insertion into a list sorted by a key

A list sorted by a key, into which a new element goes behind all elements with keys up to its
own, and which may be cut from the front to a fixed length.

Such a list is determined by its fibres, the sublists of elements with one key
(`StableOrder.eq_of_fibres`). So a sequence of insertions is a stable sort
(`StableOrder.foldl_insert`), and where the keys inserted are distinct their order does not
matter (`StableOrder.mergeSort_append_perm`). Cutting after every insertion instead of once at
the end changes nothing (`StableOrder.rtake_orderedInsert_rtake`).

## Main definitions

* `StableOrder.Sorted`, `StableOrder.before`

## Main results

* `StableOrder.orderedInsert_eq` : the two parts around the new element.
* `StableOrder.foldl_insert`, `StableOrder.mergeSort_append_perm`
* `StableOrder.rtake_append_cons`, `StableOrder.rtake_orderedInsert_rtake`,
  `StableOrder.filter_rtake_filter` : the last elements.
-/

namespace StableOrder

/-! ### The last elements of a list -/

section Last

variable {α : Type*}

theorem rtake_cons_of_le {n : ℕ} {l : List α} (h : n ≤ l.length) (a : α) :
    (a :: l).rtake n = l.rtake n := by
  rw [List.rtake, List.rtake, List.length_cons, Nat.succ_sub h, List.drop_succ_cons]

theorem rtake_sublist (n : ℕ) (l : List α) : (l.rtake n).Sublist l := List.drop_sublist _ _

theorem rtake_of_length_le {n : ℕ} {l : List α} (h : l.length ≤ n) : l.rtake n = l := by
  rw [List.rtake, Nat.sub_eq_zero_of_le h, List.drop_zero]

theorem length_rtake (n : ℕ) (l : List α) : (l.rtake n).length = min n l.length := by
  rw [List.rtake, List.length_drop]
  omega

theorem length_rtake_le (n : ℕ) (l : List α) : (l.rtake n).length ≤ n :=
  (length_rtake n l).trans_le (min_le_left _ _)

theorem rtake_map {β : Type*} (f : α → β) (n : ℕ) (l : List α) :
    (l.map f).rtake n = (l.rtake n).map f := by
  rw [List.rtake, List.rtake, List.length_map, List.map_drop]

theorem rtake_append_of_le {n : ℕ} {l' : List α} (h : n ≤ l'.length) (l : List α) :
    (l ++ l').rtake n = l'.rtake n := by
  induction l with
  | nil => rfl
  | cons a l ih =>
    have hle : n ≤ (l ++ l').length := by
      rw [List.length_append]
      omega
    rw [List.cons_append, rtake_cons_of_le hle, ih]

/-- The element in the middle stays if there is room behind which it stands. -/
theorem rtake_append_cons (n : ℕ) (pre : List α) (a : α) (post : List α) :
    (pre ++ a :: post).rtake n =
      if n ≤ post.length then post.rtake n
      else pre.rtake (n - 1 - post.length) ++ a :: post := by
  split
  · next hle =>
    have hlen : n ≤ (a :: post).length := by
      rw [List.length_cons]
      omega
    rw [rtake_append_of_le hlen, rtake_cons_of_le hle]
  · next hlt =>
    have hdrop : (pre ++ a :: post).length - n = pre.length - (n - 1 - post.length) := by
      rw [List.length_append, List.length_cons]
      omega
    rw [List.rtake, hdrop, List.drop_append_of_le_length (Nat.sub_le _ _), List.rtake]

theorem rtake_append (n : ℕ) (l l' : List α) :
    (l ++ l').rtake n = l.rtake (n - l'.length) ++ l'.rtake n := by
  simp only [List.rtake_eq_reverse_take_reverse, List.reverse_append, List.take_append,
    List.length_reverse]

/-- Leaving elements out before a cut makes no difference to those with a property, where all that
are cut off lack it, or none of those left out is among the last ones. -/
theorem filter_rtake_filter {p keep : α → Bool} {l : List α} {n : ℕ}
    (hkeep : ∀ a ∈ l, p a → keep a)
    (h : (∀ a ∈ l.rdrop n, ¬ p a) ∨ ∀ a ∈ l.rtake n, keep a) :
    ((l.filter keep).rtake n).filter p = (l.rtake n).filter p := by
  have hsplit : l.rdrop n ++ l.rtake n = l := List.take_append_drop _ _
  have hlast : ((l.rtake n).filter keep).filter p = (l.rtake n).filter p := by
    rw [List.filter_filter]
    refine List.filter_congr fun a ha => ?_
    rw [Bool.and_eq_left_iff_imp]
    exact hkeep a ((rtake_sublist _ _).subset ha)
  have hshort : ((l.rtake n).filter keep).length ≤ n :=
    (List.length_filter_le _ _).trans (length_rtake_le n l)
  rw [← hsplit, List.filter_append, rtake_append, rtake_of_length_le hshort, List.filter_append,
    hsplit, hlast]
  refine List.append_left_eq_self.mpr (List.filter_eq_nil_iff.mpr fun a ha => ?_)
  rcases h with hcut | hall
  · exact hcut a (List.mem_of_mem_filter ((rtake_sublist _ _).subset ha))
  · -- Nothing is left out behind the cut, so there is room for something before it only if nothing
    -- has been cut off.
    rw [List.filter_eq_self.mpr hall] at ha
    by_cases hcut : n ≤ l.length
    · have hfull : n - (l.rtake n).length = 0 := by
        rw [length_rtake, min_eq_left hcut, Nat.sub_self]
      rw [hfull, List.rtake_zero] at ha
      cases ha
    · have hnil : l.rdrop n = [] := by
        rw [List.rdrop, Nat.sub_eq_zero_of_le (by omega), List.take_zero]
      rw [hnil, List.filter_nil, List.rtake_nil] at ha
      cases ha

/-- An insertion into the last elements, for a relation that is carried on along the order of the
list. -/
theorem rtake_orderedInsert_rtake {R r : α → α → Prop} [DecidableRel r] {a : α} {l : List α}
    (h : l.Pairwise R) (hup : ∀ b x, r a b → R b x → r a x) (n : ℕ) :
    ((l.rtake n).orderedInsert r a).rtake n = (l.orderedInsert r a).rtake n := by
  induction l with
  | nil => rw [List.rtake_nil]
  | cons b l ih =>
    obtain ⟨hb, hl⟩ := List.pairwise_cons.mp h
    by_cases hlen : (b :: l).length ≤ n
    · rw [rtake_of_length_le hlen]
    · have hle : n ≤ l.length := by
        rw [List.length_cons] at hlen
        omega
      rw [rtake_cons_of_le hle, ih hl, List.orderedInsert_cons]
      split
      · next hab =>
        -- The new element stands in front of all others, and is cut off.
        have hle' : n ≤ (b :: l).length := by
          rw [List.length_cons]
          omega
        rw [Bisection.orderedInsert_of_forall fun x hx => hup b x hab (hb x hx),
          rtake_cons_of_le hle, rtake_cons_of_le hle', rtake_cons_of_le hle]
      · have hle' : n ≤ (l.orderedInsert r a).length := by
          rw [List.orderedInsert_length]
          omega
        rw [rtake_cons_of_le hle']

end Last

/-! ### Lists sorted by a key -/

section Key

variable {α κ : Type*} [LinearOrder κ] (key : α → κ)

/-- The keys never decrease. -/
def Sorted (l : List α) : Prop := l.Pairwise fun a b => key a ≤ key b

/-- The relation of the insertion: a new element goes before those with a larger key. -/
abbrev before (a b : α) : Prop := key a < key b

variable {key}

theorem Sorted.sublist {l l' : List α} (h : Sorted key l) (hsub : l'.Sublist l) :
    Sorted key l' :=
  List.Pairwise.sublist hsub h

/-- What goes before an element goes before those with larger keys. -/
theorem before_trans {a b x : α} (hab : before key a b) (hbx : key b ≤ key x) : before key a x :=
  lt_of_lt_of_le hab hbx

theorem Sorted.insert {l : List α} (h : Sorted key l) (a : α) :
    Sorted key (l.orderedInsert (before key) a) :=
  Bisection.pairwise_orderedInsert h (fun _ _ hlt => hlt.le) (fun _ _ hle => not_lt.mp hle)
    fun _ _ _ _ => before_trans

/-- Cutting before an insertion changes nothing about the last elements behind it. -/
theorem Sorted.rtake_insert {l : List α} (h : Sorted key l) (n : ℕ) (a : α) :
    ((l.rtake n).orderedInsert (before key) a).rtake n =
      (l.orderedInsert (before key) a).rtake n :=
  rtake_orderedInsert_rtake h (fun _ _ => before_trans) n

/-- The new element stands between the elements with keys up to its own and the others. -/
theorem orderedInsert_eq {l : List α} (h : Sorted key l) (a : α) :
    l.orderedInsert (before key) a =
      (l.filter fun b => key b ≤ key a) ++ a :: l.filter fun b => key a < key b := by
  induction l with
  | nil => rfl
  | cons b l ih =>
    obtain ⟨hb, hl⟩ := List.pairwise_cons.mp h
    rw [List.orderedInsert_cons]
    split
    · next hab =>
      have hall : ∀ x ∈ b :: l, key a < key x := by
        intro x hx
        rcases List.mem_cons.mp hx with rfl | hx
        · exact hab
        · exact hab.trans_le (hb x hx)
      rw [List.filter_eq_nil_iff.mpr fun x hx => by simpa using hall x hx,
        List.filter_eq_self.mpr fun x hx => by simpa using hall x hx, List.nil_append]
    · next hab =>
      have hba : key b ≤ key a := not_lt.mp hab
      rw [ih hl, List.filter_cons_of_pos (by simpa using hba),
        List.filter_cons_of_neg (by simpa using hba), List.cons_append]

/-- A new element stays among the last `n` iff fewer than `n` elements have larger keys. -/
theorem mem_rtake_insert_iff {l : List α} (h : Sorted key l) {a : α} (ha : a ∉ l) (n : ℕ) :
    a ∈ (l.orderedInsert (before key) a).rtake n ↔
      (l.filter fun b => key a < key b).length < n := by
  rw [orderedInsert_eq h, rtake_append_cons]
  split
  · next hle =>
    refine iff_of_false (fun hmem => ha ?_) (not_lt.mpr hle)
    exact List.mem_of_mem_filter ((rtake_sublist _ _).subset hmem)
  · next hlt => exact iff_of_true (List.mem_append_right _ List.mem_cons_self) (not_le.mp hlt)

/-- A new element goes between elements with keys up to its own and elements with larger keys. -/
theorem orderedInsert_append {pre post : List α} {a : α} (hpre : ∀ b ∈ pre, key b ≤ key a)
    (hpost : ∀ b ∈ post, key a < key b) :
    (pre ++ post).orderedInsert (before key) a = pre ++ a :: post := by
  induction pre with
  | nil => exact Bisection.orderedInsert_of_forall hpost
  | cons b pre ih =>
    have hb := hpre b List.mem_cons_self
    rw [List.cons_append, List.orderedInsert_cons, if_neg (not_lt.mpr hb),
      ih fun c hc => hpre c (List.mem_cons_of_mem _ hc), List.cons_append]

/-- Taking out the element just inserted and inserting it again changes nothing, even if others
or the element itself were cut off in between. -/
theorem Sorted.rtake_insert_filter {l : List α} (h : Sorted key l) (n : ℕ) {a : α} {p : α → Bool}
    (ha : p a = false) (hl : ∀ b ∈ l, p b = true) :
    ((((l.orderedInsert (before key) a).rtake n).filter p).orderedInsert (before key) a).rtake n =
      (l.orderedInsert (before key) a).rtake n := by
  have hkeep : ∀ {l' : List α}, l'.Sublist l → l'.filter p = l' := fun hsub =>
    List.filter_eq_self.mpr fun b hb => hl b (hsub.subset hb)
  obtain ⟨pre, hpre, hpre_sub⟩ : ∃ pre, pre = (l.filter fun b => key b ≤ key a) ∧ pre.Sublist l :=
    ⟨_, rfl, List.filter_sublist⟩
  obtain ⟨post, hpost, hpost_sub⟩ : ∃ post, post = (l.filter fun b => key a < key b) ∧
      post.Sublist l := ⟨_, rfl, List.filter_sublist⟩
  have hup : ∀ b ∈ post, key a < key b := by
    intro b hb
    rw [hpost, List.mem_filter, decide_eq_true_eq] at hb
    exact hb.2
  rw [orderedInsert_eq h, ← hpre, ← hpost, rtake_append_cons]
  split
  · next hle =>
    -- The element has been cut off, and it is again.
    have hcut : (post.rtake n).Sublist post := List.drop_sublist _ _
    have hlen : (post.rtake n).length = n := (length_rtake n post).trans (min_eq_left hle)
    rw [hkeep (hcut.trans hpost_sub),
      Bisection.orderedInsert_of_forall fun b hb => hup b (hcut.subset hb),
      rtake_cons_of_le hlen.ge, rtake_of_length_le hlen.le]
  · next hlt =>
    have hcut : (pre.rtake (n - 1 - post.length)).Sublist pre := List.drop_sublist _ _
    have hdown : ∀ b ∈ pre.rtake (n - 1 - post.length), key b ≤ key a := by
      intro b hb
      replace hb := hcut.subset hb
      rw [hpre, List.mem_filter, decide_eq_true_eq] at hb
      exact hb.2
    rw [List.filter_append, List.filter_cons_of_neg (by simp [ha]),
      hkeep (hcut.trans hpre_sub), hkeep hpost_sub, orderedInsert_append hdown hup,
      rtake_of_length_le]
    rw [List.length_append, List.length_cons, length_rtake]
    omega

/-! ### Fibres -/

variable (key) in
/-- The elements with one key, in their order. -/
def fibre (k : κ) (l : List α) : List α := l.filter fun a => key a = k

theorem mem_fibre {k : κ} {l : List α} {a : α} : a ∈ fibre key k l ↔ a ∈ l ∧ key a = k := by
  rw [fibre, List.mem_filter, decide_eq_true_eq]

@[simp] theorem fibre_append (k : κ) (l l' : List α) :
    fibre key k (l ++ l') = fibre key k l ++ fibre key k l' :=
  List.filter_append _ _

/-- A sorted list is determined by its fibres. -/
theorem eq_of_fibres {l l' : List α} (h : Sorted key l) (h' : Sorted key l')
    (hf : ∀ k, fibre key k l = fibre key k l') : l = l' := by
  induction l generalizing l' with
  | nil =>
    refine (List.eq_nil_iff_forall_not_mem.mpr fun a ha => ?_).symm
    have hmem : a ∈ fibre key (key a) [] := by
      rw [hf]
      exact mem_fibre.mpr ⟨ha, rfl⟩
    cases hmem
  | cons a l ih =>
    have ha : a ∈ l' := (mem_fibre.mp (hf (key a) ▸ mem_fibre.mpr ⟨List.mem_cons_self, rfl⟩)).1
    cases l' with
    | nil => cases ha
    | cons b l' =>
      have hb : b ∈ a :: l :=
        (mem_fibre.mp ((hf (key b)).symm ▸ mem_fibre.mpr ⟨List.mem_cons_self, rfl⟩)).1
      obtain ⟨hal, hl⟩ := List.pairwise_cons.mp h
      obtain ⟨hbl, hl'⟩ := List.pairwise_cons.mp h'
      -- Each head has the smallest key of its list, so both have the same one.
      have hle : key a ≤ key b := by
        rcases List.mem_cons.mp hb with rfl | hb
        · exact le_rfl
        · exact hal b hb
      have hge : key b ≤ key a := by
        rcases List.mem_cons.mp ha with rfl | ha
        · exact le_rfl
        · exact hbl a ha
      have hkey : key b = key a := le_antisymm hge hle
      have hhead := hf (key a)
      rw [fibre, fibre, List.filter_cons_of_pos (by simp), List.filter_cons_of_pos
        (by simpa using hkey)] at hhead
      obtain ⟨rfl, -⟩ := List.cons.inj hhead
      refine congrArg _ (ih hl hl' fun k => ?_)
      have hk := hf k
      by_cases hak : key a = k
      · rw [fibre, fibre, List.filter_cons_of_pos (by simpa using hak),
          List.filter_cons_of_pos (by simpa using hak)] at hk
        exact (List.cons.inj hk).2
      · rwa [fibre, fibre, List.filter_cons_of_neg (by simpa using hak),
          List.filter_cons_of_neg (by simpa using hak)] at hk

/-- A new element stands at the end of its fibre. -/
theorem fibre_insert {l : List α} (h : Sorted key l) (k : κ) (a : α) :
    fibre key k (l.orderedInsert (before key) a) = fibre key k (l ++ [a]) := by
  rw [fibre, Bisection.filter_orderedInsert _ h fun _ _ => before_trans, fibre,
    List.filter_append]
  by_cases hak : key a = k
  · have hnone : ((l.filter fun b => key b = k).filter fun b => key a < key b) = [] := by
      refine List.filter_eq_nil_iff.mpr fun b hb => ?_
      have hbk : key b = k := (mem_fibre.mp hb).2
      simp [hak, hbk]
    have hall : ((l.filter fun b => key b = k).filter fun b => key b ≤ key a) =
        l.filter fun b => key b = k := by
      refine List.filter_eq_self.mpr fun b hb => ?_
      have hbk : key b = k := (mem_fibre.mp hb).2
      simp [hak, hbk]
    rw [if_pos (by simpa using hak), orderedInsert_eq (h.sublist List.filter_sublist), hnone, hall,
      List.filter_cons_of_pos (by simpa using hak), List.filter_nil]
  · rw [if_neg (by simpa using hak), List.filter_cons_of_neg (by simpa using hak),
      List.filter_nil, List.append_nil]

/-! ### Stable sorting -/

variable (key) in
/-- The comparison for `List.mergeSort`. -/
abbrev upTo (a b : α) : Bool := decide (key a ≤ key b)

theorem upTo_trans (a b c : α) (hab : upTo key a b = true) (hbc : upTo key b c = true) :
    upTo key a c = true := by
  rw [decide_eq_true_eq] at hab hbc ⊢
  exact hab.trans hbc

theorem upTo_total (a b : α) : (upTo key a b || upTo key b a) = true := by
  rw [Bool.or_eq_true, decide_eq_true_eq, decide_eq_true_eq]
  exact le_total (key a) (key b)

theorem sorted_mergeSort (l : List α) : Sorted key (l.mergeSort (upTo key)) :=
  List.Pairwise.imp (fun {_ _} hab => of_decide_eq_true hab)
    (List.pairwise_mergeSort upTo_trans upTo_total l)

/-- Sorting keeps every fibre as it is. -/
theorem fibre_mergeSort (k : κ) (l : List α) :
    fibre key k (l.mergeSort (upTo key)) = fibre key k l := by
  have hpair : (fibre key k l).Pairwise fun a b => upTo key a b = true := by
    refine List.pairwise_of_forall_mem_list fun a ha b hb => ?_
    rw [decide_eq_true_eq, (mem_fibre.mp ha).2, (mem_fibre.mp hb).2]
  have hsub : (fibre key k l).Sublist (l.mergeSort (upTo key)) :=
    List.sublist_mergeSort upTo_trans upTo_total hpair List.filter_sublist
  have hfibre : (fibre key k l).Sublist (fibre key k (l.mergeSort (upTo key))) := by
    have := hsub.filter fun a => key a = k
    rwa [fibre, List.filter_filter, List.filter_congr fun a _ => Bool.and_self _] at this
  have hlen : (fibre key k (l.mergeSort (upTo key))).length = (fibre key k l).length :=
    ((List.mergeSort_perm l _).filter _).length_eq
  exact (hfibre.eq_of_length hlen.symm).symm

/-- Sorting and leaving out commute. -/
theorem filter_mergeSort (p : α → Bool) (l : List α) :
    (l.mergeSort (upTo key)).filter p = (l.filter p).mergeSort (upTo key) := by
  refine eq_of_fibres ((sorted_mergeSort l).sublist List.filter_sublist) (sorted_mergeSort _)
    fun k => ?_
  have hcomm : ∀ l : List α, fibre key k (l.filter p) = (fibre key k l).filter p :=
    fun l => List.filter_comm ..
  rw [fibre_mergeSort, hcomm, hcomm, fibre_mergeSort]

/-- Inserting one element after the other is sorting. -/
theorem foldl_insert {l : List α} (h : Sorted key l) (as : List α) :
    as.foldl (fun l a => l.orderedInsert (before key) a) l =
      (l ++ as).mergeSort (upTo key) := by
  have hfold : ∀ (l : List α), Sorted key l →
      Sorted key (as.foldl (fun l a => l.orderedInsert (before key) a) l) ∧
        ∀ k, fibre key k (as.foldl (fun l a => l.orderedInsert (before key) a) l) =
          fibre key k (l ++ as) := by
    induction as with
    | nil => exact fun l hl => ⟨hl, fun k => by rw [List.append_nil, List.foldl_nil]⟩
    | cons a as ih =>
      intro l hl
      obtain ⟨hsorted, hf⟩ := ih (l.orderedInsert (before key) a) (hl.insert a)
      refine ⟨hsorted, fun k => ?_⟩
      rw [List.foldl_cons, hf, fibre_append, fibre_insert hl, ← fibre_append, List.append_assoc]
      rfl
  obtain ⟨hsorted, hf⟩ := hfold l h
  refine eq_of_fibres hsorted (sorted_mergeSort _) fun k => ?_
  rw [hf, fibre_mergeSort]

/-- A fibre of a list with distinct keys has at most one element. -/
theorem length_fibre_le_one {l : List α} (h : l.Pairwise fun a b => key a ≠ key b) (k : κ) :
    (fibre key k l).length ≤ 1 := by
  have hpair : (fibre key k l).Pairwise fun a b => key a ≠ key b := h.sublist List.filter_sublist
  match hl : fibre key k l, hpair with
  | [], _ => simp
  | [_], _ => simp
  | a :: b :: _, hpair =>
    have ha : key a = k := (mem_fibre.mp (hl ▸ List.mem_cons_self)).2
    have hb : key b = k := (mem_fibre.mp (hl ▸ List.mem_cons_of_mem _ List.mem_cons_self)).2
    exact absurd (ha.trans hb.symm) ((List.pairwise_cons.mp hpair).1 b List.mem_cons_self)

/-- Where the keys of the second part are distinct, its order does not matter. -/
theorem mergeSort_append_perm (l : List α) {as bs : List α}
    (h : as.Pairwise fun a b => key a ≠ key b) (hperm : as.Perm bs) :
    (l ++ as).mergeSort (upTo key) = (l ++ bs).mergeSort (upTo key) := by
  refine eq_of_fibres (sorted_mergeSort _) (sorted_mergeSort _) fun k => ?_
  have hf : (fibre key k as).Perm (fibre key k bs) := hperm.filter _
  have hle := length_fibre_le_one h k
  have heq : fibre key k as = fibre key k bs := by
    match ha : fibre key k as, hle with
    | [], _ => exact (List.nil_perm.mp (ha ▸ hf)).symm
    | [a], _ => exact List.singleton_perm.mp (ha ▸ hf)
  rw [fibre_mergeSort, fibre_mergeSort, fibre_append, fibre_append, heq]

/-- Insertions that are each followed by a cut to the same length give the last elements of
what they give without the cuts. -/
theorem foldl_insert_rtake {l : List α} (h : Sorted key l) (n : ℕ) (as : List α) :
    as.foldl (fun l a => (l.orderedInsert (before key) a).rtake n) (l.rtake n) =
      (as.foldl (fun l a => l.orderedInsert (before key) a) l).rtake n := by
  induction as generalizing l with
  | nil => rfl
  | cons a as ih =>
    rw [List.foldl_cons, List.foldl_cons, ← ih (h.insert a), h.rtake_insert]

end Key

end StableOrder
