import WfcPubsub.MessageQueue.Specification
import WfcPubsub.Rocksdb.Agreement

/-!
# Messages of one identity

`modify`, `update`, `replace` and `remove` look for the messages with their own identity, so a
queue that no limit cuts is made up of strands, one for each identity, that do not concern one
another (`Contents.strand_store`). A strand that is never published to but only replaced,
updated, modified or removed holds at most one message: it is a register, and each push writes it
(`Contents.store_toList`).

## Main definitions

* `Contents.strand`
* `Contents.write` : a push seen as a write to a register.

## Main results

* `Contents.strand_store`
* `Contents.store_toList`
-/

namespace WfcPubsub

namespace Contents

variable {now : TimeT} {m : Message} {q : List Message} {identity : IdentityT}

/-! ### Cursor order -/

theorem Ordered.insert (h : Ordered q) (now : TimeT) (m : Message) :
    Ordered (Contents.insert now m q) :=
  StableOrder.Sorted.insert h (bornAt now m)

/-- A rewriting keeps the cursors. -/
theorem Ordered.rewrite (h : Ordered q) {f : Message → Message → Message}
    (hf : ∀ x, (f x m).cursor = x.cursor) : Ordered (Contents.rewrite f m q) := by
  refine List.Pairwise.map _ (fun a b hab => ?_) h
  have hcursor : ∀ x : Message, (if x.identity = m.identity then f x m else x).cursor =
      x.cursor := by
    intro x
    split
    · exact hf x
    · rfl
  rw [hcursor, hcursor]
  exact hab

theorem Ordered.place (h : Ordered q) (now : TimeT) (m : Message) :
    Ordered (Contents.place now m q) := by
  have hrewrite : ∀ f : Message → Message → Message, (∀ x, (f x m).cursor = x.cursor) →
      Ordered (rewriteOrInsert f now m q) := by
    intro f hf
    rw [rewriteOrInsert]
    split
    · exact h.insert now m
    · exact h.rewrite hf
  rw [Contents.place]
  split
  · exact h.insert now m
  · exact hrewrite _ fun x => Message.modify_cursor x m
  · exact hrewrite _ fun x => Message.update_cursor x m
  · exact (h.without m).insert now m
  · split
    · exact (h.without m).insert now m
    · exact h.without m

theorem Ordered.store (h : Ordered q) (now : TimeT) (m : Message) :
    Ordered (Contents.store now m q) := by
  rw [Contents.store]
  split
  · split
    · exact List.Pairwise.nil
    · exact h
  · exact (h.place now m).sublist (StableOrder.rtake_sublist _ _)

/-! ### Strands -/

/-- The messages with an identity. -/
def strand (identity : IdentityT) (q : List Message) : List Message :=
  q.filter fun x => x.identity = identity

theorem mem_strand {x : Message} : x ∈ strand identity q ↔ x ∈ q ∧ x.identity = identity := by
  rw [strand, List.mem_filter, decide_eq_true_eq]

theorem strand_live (t : TimeT) (q : List Message) :
    strand identity (live t q) = live t (strand identity q) := List.filter_comm ..

theorem strand_insert (h : Ordered q) (now : TimeT) (m : Message) :
    strand identity (insert now m q) =
      if m.identity = identity then insert now m (strand identity q) else strand identity q := by
  rw [strand, insert, Bisection.filter_orderedInsert _ h fun _ _ => lt_of_lt_of_le, strand]
  simp only [bornAt_identity, decide_eq_true_eq]
  rfl

theorem strand_without (m : Message) (q : List Message) :
    strand identity (without m q) =
      if m.identity = identity then without m (strand identity q) else strand identity q := by
  split
  · exact List.filter_comm ..
  · next hne =>
    rw [strand, without, List.filter_filter]
    refine List.filter_congr fun x _ => ?_
    by_cases hx : x.identity = identity
    · simp [hx, Ne.symm hne]
    · simp [hx]

theorem strand_rewrite {f : Message → Message → Message}
    (hf : ∀ x, (f x m).identity = x.identity) (q : List Message) :
    strand identity (rewrite f m q) = rewrite f m (strand identity q) := by
  rw [strand, rewrite, rewrite, List.filter_map, strand]
  refine congrArg _ (List.filter_congr fun x _ => ?_)
  rw [Function.comp_apply]
  split
  · rw [hf]
  · rfl

theorem strand_rewriteOrInsert (h : Ordered q) {f : Message → Message → Message}
    (hf : ∀ x, (f x m).identity = x.identity) (now : TimeT) :
    strand identity (rewriteOrInsert f now m q) =
      if m.identity = identity then rewriteOrInsert f now m (strand identity q)
      else strand identity q := by
  by_cases hid : m.identity = identity
  · have hnew : (∀ x ∈ q, x.identity ≠ m.identity) ↔
        ∀ x ∈ strand identity q, x.identity ≠ m.identity := by
      simp only [mem_strand, hid]
      grind
    rw [if_pos hid, rewriteOrInsert, rewriteOrInsert]
    simp only [hnew]
    split
    · rw [strand_insert h, if_pos hid]
    · exact strand_rewrite hf q
  · have hother : rewrite f m (strand identity q) = strand identity q :=
      rewrite_of_forall_ne fun x hx => (mem_strand.mp hx).2 ▸ Ne.symm hid
    rw [if_neg hid, rewriteOrInsert]
    split
    · rw [strand_insert h, if_neg hid]
    · rw [strand_rewrite hf, hother]

/-- What an action does concerns the messages with its own identity. -/
theorem strand_place (h : Ordered q) (now : TimeT) (m : Message) :
    strand identity (place now m q) =
      if m.identity = identity then place now m (strand identity q) else strand identity q := by
  have hreplace : strand identity (insert now m (without m q)) =
      if m.identity = identity then insert now m (without m (strand identity q))
      else strand identity q := by
    rw [strand_insert (h.without m), strand_without]
    split <;> rfl
  rw [place, place]
  cases m.action with
  | publish => exact strand_insert h now m
  | modify => exact strand_rewriteOrInsert h (fun x => Message.modify_identity x m) now
  | update => exact strand_rewriteOrInsert h (fun x => Message.update_identity x m) now
  | replace => exact hreplace
  | remove =>
    dsimp only
    split
    · exact hreplace
    · exact strand_without m q

/-- Where its limit does not cut, a push concerns the messages with its own identity. -/
theorem strand_store (h : Ordered q) (now : TimeT) (hlimit : q.length < m.limit) :
    strand identity (store now m q) =
      if m.identity = identity then store now m (strand identity q) else strand identity q := by
  have hstrand : (strand identity q).length ≤ q.length := List.length_filter_le _ _
  have hplace : ∀ q' : List Message, q'.length ≤ q.length →
      (place now m q').rtake m.limit = place now m q' := fun q' hq' =>
    StableOrder.rtake_of_length_le ((length_place_le now m q').trans (by omega))
  rw [store, store]
  split
  · have hne : m.limit ≠ 0 := by omega
    simp only [hne, if_false, ite_self]
  · rw [hplace q le_rfl, hplace _ hstrand, strand_place h]

/-! ### Registers -/

/-- A push seen as a write to a register that holds at most one message. -/
def write (now : TimeT) (m : Message) (register : Option Message) : Option Message :=
  let born := if m.lifetime = 0 then none else some (bornAt now m)
  match m.action with
  | .modify => (register.map fun x => x.modify m).or born
  | .update => (register.map fun x => x.update m).or born
  | .replace => some (bornAt now m)
  | _ => born

/-- Where nothing is published, a strand is a register. -/
theorem store_toList {register : Option Message} (hact : m.action ≠ .publish)
    (hlimit : m.limit ≠ 0) (hid : ∀ x ∈ register, x.identity = m.identity) (now : TimeT) :
    store now m register.toList = (write now m register).toList := by
  have hone : ∀ x : Message, [x].rtake m.limit = [x] := fun x =>
    StableOrder.rtake_of_length_le (Nat.one_le_iff_ne_zero.mpr hlimit)
  have hwithout : without m register.toList = [] :=
    List.filter_eq_nil_iff.mpr fun x hx => by simpa using hid x (Option.mem_toList.mp hx)
  have hborn : (if m.lifetime ≠ 0 then insert now m [] else []).rtake m.limit =
      (if m.lifetime = 0 then none else some (bornAt now m)).toList := by
    by_cases hlife : m.lifetime = 0
    · rw [if_neg (not_not.mpr hlife), if_pos hlife, List.rtake_nil, Option.toList_none]
    · rw [if_pos hlife, if_neg hlife]
      exact hone _
  have hrewrite : ∀ f : Message → Message → Message,
      (rewriteOrInsert f now m register.toList).rtake m.limit =
        ((register.map fun x => f x m).or
          (if m.lifetime = 0 then none else some (bornAt now m))).toList := by
    intro f
    cases register with
    | none =>
      rw [Option.toList_none, rewriteOrInsert_of_forall_ne (List.forall_mem_nil _), hborn]
      rfl
    | some x =>
      have hx : x.identity = m.identity := hid x rfl
      rw [Option.toList_some, rewriteOrInsert_of_exists ⟨x, List.mem_singleton_self x, hx⟩,
        rewrite, List.map_singleton, if_pos hx]
      exact hone _
  rw [store, if_neg fun h => hact h.1, place, write]
  cases haction : m.action with
  | publish => exact absurd haction hact
  | modify => exact hrewrite Message.modify
  | update => exact hrewrite Message.update
  | replace =>
    dsimp only
    rw [hwithout]
    exact hone _
  | remove =>
    dsimp only
    rw [hwithout, hborn]

theorem live_toList (now : TimeT) (register : Option Message) :
    live now register.toList = (register.filter fun x => now ≤ x.deathtime).toList := by
  cases register with
  | none => rfl
  | some x =>
    by_cases hx : now ≤ x.deathtime
    · rw [Option.toList_some, live_eq_self (by simpa using hx), Option.filter_some,
        if_pos (decide_eq_true hx), Option.toList_some]
    · rw [Option.filter_some, if_neg (by simpa using hx), Option.toList_some]
      exact List.filter_eq_nil_iff.mpr fun y hy => by simpa [List.mem_singleton.mp hy] using hx

/-- A register keeps its identity. -/
theorem identity_write {register : Option Message}
    (hid : ∀ x ∈ register, x.identity = m.identity) (now : TimeT) :
    ∀ x ∈ write now m register, x.identity = m.identity := by
  have hborn : ∀ x ∈ (if m.lifetime = 0 then none else some (bornAt now m)),
      x.identity = m.identity := by
    intro x hx
    split at hx
    · cases hx
    · exact Option.some.inj hx ▸ bornAt_identity now m
  have hrewrite : ∀ f : Message → Message → Message, (∀ x, (f x m).identity = x.identity) →
      ∀ x ∈ (register.map fun x => f x m).or
        (if m.lifetime = 0 then none else some (bornAt now m)), x.identity = m.identity := by
    intro f hf x hx
    cases register with
    | none => exact hborn x hx
    | some y => exact Option.some.inj hx ▸ (hf y).trans (hid y rfl)
  rw [write]
  cases m.action with
  | publish => exact hborn
  | modify => exact hrewrite _ fun x => Message.modify_identity x m
  | update => exact hrewrite _ fun x => Message.update_identity x m
  | replace => exact fun x hx => Option.some.inj hx ▸ bornAt_identity now m
  | remove => exact hborn

end Contents

end WfcPubsub
