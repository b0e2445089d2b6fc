import WfcPubsub.Lib.StableOrder
import WfcPubsub.MessageQueue.Contents

/-!
# `push` as a function of lists

What a `push` on a reachable queue does to the messages stored, in terms of filters, maps and
the last elements of a list. `MessageQueue.foundAt` are the messages that it finds once the dead
ones are gone, `QueueState.messages_step_push` is the bridge from the run of the queue to
`Contents.store`, and the insertion by cursor splits the list in two (`Contents.insert_eq`).

Pushing a message that replaces or removes a second time finds the queue as the first push has
left it, except that the message itself may be stored in it; it is taken out and inserted again
at the same place.

## Main definitions

* `Contents.cutOff`, `MessageQueue.foundAt`, `QueueState.lastPurge`

## Main results

* `QueueState.push_specification` : `push` case by case.
* `QueueState.push_push` : `replace` and `remove` are idempotent.
-/

namespace WfcPubsub

open StableOrder (rtake_of_length_le rtake_sublist)

namespace Contents

/-! ### Insertion and rewriting as list operations -/

/-- An inserted message stands between those with cursors up to its own and the others. -/
theorem insert_eq {q : List Message} (h : Ordered q) (now : TimeT) (m : Message) :
    insert now m q =
      (q.filter fun x => x.cursor ≤ m.cursor) ++
        bornAt now m :: q.filter fun x => m.cursor < x.cursor := by
  have hsorted : StableOrder.Sorted Message.cursor q := h
  have heq := StableOrder.orderedInsert_eq hsorted (bornAt now m)
  simp only [bornAt_cursor] at heq
  exact heq

/-- Where no message has the identity, rewriting changes nothing. -/
theorem rewrite_of_forall_ne {f : Message → Message → Message} {m : Message} {q : List Message}
    (h : ∀ x ∈ q, x.identity ≠ m.identity) : rewrite f m q = q :=
  List.map_congr_left (fun x hx => if_neg (h x hx)) |>.trans (List.map_id q)

/-- A cut leaves the rewritings of what it leaves. -/
theorem rtake_rewrite (f : Message → Message → Message) (m : Message) (n : ℕ)
    (q : List Message) : (rewrite f m q).rtake n = rewrite f m (q.rtake n) :=
  StableOrder.rtake_map _ n q

/-- Where a message has the identity, nothing is inserted. -/
theorem rewriteOrInsert_of_exists {f : Message → Message → Message} {now : TimeT} {m : Message}
    {q : List Message} (h : ∃ x ∈ q, x.identity = m.identity) :
    rewriteOrInsert f now m q = rewrite f m q := by
  obtain ⟨x, hx, hid⟩ := h
  exact if_neg fun hcond => hcond.2 x hx hid

/-- Where no message has the identity, the new message is inserted if it has a lifetime. -/
theorem rewriteOrInsert_of_forall_ne {f : Message → Message → Message} {now : TimeT}
    {m : Message} {q : List Message} (h : ∀ x ∈ q, x.identity ≠ m.identity) :
    rewriteOrInsert f now m q = if m.lifetime ≠ 0 then insert now m q else q := by
  rw [rewriteOrInsert, rewrite_of_forall_ne h]
  by_cases hlife : m.lifetime ≠ 0
  · rw [if_pos ⟨hlife, h⟩, if_pos hlife]
  · rw [if_neg fun hcond => hlife hcond.1, if_neg hlife]

theorem Ordered.without {q : List Message} (h : Ordered q) (m : Message) :
    Ordered (without m q) :=
  h.sublist List.filter_sublist

@[simp] theorem bornAt_identity (now : TimeT) (m : Message) :
    (bornAt now m).identity = m.identity := by
  rw [bornAt]
  split <;> rfl

theorem store_of_ne_publish {now : TimeT} {m : Message} (h : m.action ≠ .publish)
    (q : List Message) : store now m q = (place now m q).rtake m.limit := by
  rw [store, if_neg fun hcond => h hcond.1]

/-- A message with a lifetime and a limit is stored whatever its action. -/
theorem store_of_not_unlimited {m : Message} (hlife : m.lifetime ≠ 0) (hlim : m.limit ≠ 0)
    (now : TimeT) (q : List Message) : store now m q = (place now m q).rtake m.limit := by
  rw [store, if_neg (by simp [Message.unlimited_eq_false_iff.mpr ⟨hlife, hlim⟩])]

theorem store_of_publish {now : TimeT} {m : Message} (h : m.action = .publish)
    (hlife : m.lifetime ≠ 0) (hlim : m.limit ≠ 0) (q : List Message) :
    store now m q = (insert now m q).rtake m.limit := by
  rw [store_of_not_unlimited hlife hlim, place, h]

/-- How many messages a message leaves behind itself. -/
def behind (m : Message) (q : List Message) : ℕ := (q.filter fun x => m.cursor < x.cursor).length

/-- The messages that the limit of `m` cuts off when `m` is stored. -/
def cutOff (now : TimeT) (m : Message) (q : List Message) : List Message :=
  if m.action = .publish ∧ m.unlimited then (if m.limit = 0 then q else [])
  else (place now m q).rdrop m.limit

/-! ### Storing a replacement twice -/

/-- An insertion in place of the messages of the identity is the same done twice. -/
theorem rtake_insert_without {q : List Message} (h : Ordered q) (now : TimeT) (m : Message)
    (n : ℕ) :
    (insert now m (without m ((insert now m (without m q)).rtake n))).rtake n =
      (insert now m (without m q)).rtake n := by
  have hsorted : StableOrder.Sorted Message.cursor (without m q) := h.without m
  exact hsorted.rtake_insert_filter n (by simp) fun _ hx => (List.mem_filter.mp hx).2

/-- The messages of the identity stay away, and a cut to the same length cuts nothing. -/
theorem rtake_without_rtake (m : Message) (n : ℕ) (q : List Message) :
    (without m ((without m q).rtake n)).rtake n = (without m q).rtake n := by
  have hsub : ((without m q).rtake n).Sublist (without m q) := rtake_sublist _ _
  have hsame : without m ((without m q).rtake n) = (without m q).rtake n :=
    List.filter_eq_self.mpr fun x hx => (List.mem_filter.mp (hsub.subset hx)).2
  rw [hsame, rtake_of_length_le (StableOrder.length_rtake_le _ _)]

/-- Storing a message that replaces or removes is idempotent. -/
theorem store_store {q : List Message} (h : Ordered q) {m : Message}
    (hact : m.action = .replace ∨ m.action = .remove) (now : TimeT) :
    store now m (store now m q) = store now m q := by
  have hne : m.action ≠ .publish := by
    rcases hact with hact | hact <;> simp [hact]
  rw [store_of_ne_publish hne, store_of_ne_publish hne]
  rcases hact with hact | hact
  · simp only [place, hact]
    exact rtake_insert_without h now m m.limit
  · simp only [place, hact]
    split
    · exact rtake_insert_without h now m m.limit
    · exact rtake_without_rtake m m.limit q

end Contents

open Contents

/-- The messages that a push at `now` finds: where the clock has changed since the last expiry,
the dead ones have gone. -/
def MessageQueue.foundAt (now : TimeT) (mq : MessageQueue) : List Message :=
  if mq.lastRemoveDeath ≠ now then live now mq.messages else mq.messages

namespace MessageQueue

theorem foundAt_sublist (now : TimeT) (mq : MessageQueue) :
    (mq.foundAt now).Sublist mq.messages := by
  rw [foundAt]
  split
  · exact live_sublist _ _
  · exact List.Sublist.refl _

theorem WellFormed.ordered_foundAt {mq : MessageQueue} (h : mq.WellFormed) (now : TimeT) :
    Ordered (mq.foundAt now) :=
  h.ordered_messages.sublist (foundAt_sublist now mq)

/-- What lives is found. -/
theorem mem_foundAt {now : TimeT} {mq : MessageQueue} {x : Message} (hx : x ∈ mq.messages)
    (hlive : now ≤ x.deathtime) : x ∈ mq.foundAt now := by
  rw [foundAt]
  split
  · exact mem_live.mpr ⟨hx, hlive⟩
  · exact hx

/-- Right after a push at the same time nothing expires. -/
theorem foundAt_push (mq : MessageQueue) (now : TimeT) (m : StoredMessage) :
    (mq.push now m).1.foundAt now = (mq.push now m).1.messages := by
  rw [foundAt, push_lastRemoveDeath, if_neg (not_not.mpr rfl)]

end MessageQueue

namespace QueueState

open MessageQueue (WellFormed)

theorem wellFormed_run (ops : List QueueOp) : (machine.run new ops).mq.WellFormed where
  sequenced := sequenced_run ops
  ordered := MessageQueue.RefinesCursor.cursorOrdered refinesCursor_arrivedBefore
    (ordered_run ops).1

theorem messages_step_push {s : QueueState} (h : s.mq.WellFormed) (now : TimeT) (m : Message) :
    (machine.step s (.push now m)).1.mq.messages = store now m (s.mq.foundAt now) :=
  MessageQueue.messages_push h now ⟨s.pushes, m⟩

/-- The time of the last expiry by a push, after one more call. -/
def purgedAt (t : TimeT) : QueueOp → TimeT
  | .push now _ => if t ≠ now then now else t
  | _ => t

/-- The time of the last push of a history that let messages expire; where there is none, zero. -/
def lastPurge (ops : List QueueOp) : TimeT := ops.foldl purgedAt 0

theorem lastRemoveDeath_run (ops : List QueueOp) :
    (machine.run new ops).mq.lastRemoveDeath = lastPurge ops := by
  refine Machine.run_induction
    (P := fun ops (s : QueueState) => s.mq.lastRemoveDeath = lastPurge ops) rfl
    (fun ops op ih => ?_) ops
  rw [lastPurge, List.foldl_append, List.foldl_cons, List.foldl_nil, ← lastPurge, ← ih]
  set s := machine.run new ops
  cases op with
  | push now m =>
    refine (MessageQueue.push_lastRemoveDeath s.mq now ⟨s.pushes, m⟩).trans ?_
    rw [purgedAt]
    split
    · rfl
    · next h => exact (not_not.mp h).symm
  | removeDeath now => exact MessageQueue.removeDeath_lastRemoveDeath s.mq now
  | resize limit =>
    change (s.mq.resize limit).lastRemoveDeath = _
    rw [MessageQueue.resize]
    split <;> rfl
  | clear => rfl
  | getRemoved reset => cases reset <;> rfl

/-- **`push` in terms of lists.** For every reachable queue `q0` are the messages found once the
dead ones are gone, and each action does to them what the clauses say. -/
theorem push_specification (ops : List QueueOp) (now : TimeT) (m : Message) :
    let q := (machine.run new ops).mq.messages
    let q0 := if lastPurge ops ≠ now then q.filter fun x => ¬ x.deathtime < now else q
    let after := (machine.step (machine.run new ops) (.push now m)).1.mq.messages
    let born := if m.birthtime = 0 then { m with birthtime := now } else m
    let inserted := fun p : List Message =>
      (p.filter fun x => x.cursor ≤ m.cursor) ++ born :: p.filter fun x => m.cursor < x.cursor
    let others := q0.filter fun x => x.identity ≠ m.identity
    let rewritten := fun f : Message → Message → Message =>
      q0.map fun x => if x.identity = m.identity then f x m else x
    (m.action = .publish → m.limit = 0 → after = []) ∧
    (m.action = .publish → m.limit ≠ 0 → m.lifetime = 0 → after = q0) ∧
    (m.action = .publish → m.limit ≠ 0 → m.lifetime ≠ 0 →
      after = (inserted q0).rtake m.limit) ∧
    (m.action = .replace → after = (inserted others).rtake m.limit) ∧
    (m.action = .remove →
      after = (if m.lifetime ≠ 0 then inserted others else others).rtake m.limit) ∧
    (m.action = .modify → (∃ x ∈ q0, x.identity = m.identity) →
      after = (rewritten Message.modify).rtake m.limit) ∧
    (m.action = .update → (∃ x ∈ q0, x.identity = m.identity) →
      after = (rewritten Message.update).rtake m.limit) ∧
    (m.action = .modify ∨ m.action = .update → (∀ x ∈ q0, x.identity ≠ m.identity) →
      after = (if m.lifetime ≠ 0 then inserted q0 else q0).rtake m.limit) ∧
    ∀ x : Message, ∀ y ∈ [x.modify m, x.update m],
      y.cursor = x.cursor ∧ y.identity = x.identity ∧ y.action = x.action := by
  intro q q0 after born inserted others rewritten
  have hwf := wellFormed_run ops
  have hq0 : (machine.run new ops).mq.foundAt now = q0 := by
    have hlive : live now q = q.filter fun x => ¬ x.deathtime < now :=
      List.filter_congr fun x _ => decide_eq_decide.mpr not_lt.symm
    rw [MessageQueue.foundAt, lastRemoveDeath_run, hlive]
  have hord : Contents.Ordered q0 := hq0 ▸ hwf.ordered_foundAt now
  have hafter : after = store now m q0 := hq0 ▸ messages_step_push hwf now m
  have hborn : bornAt now m = born := if_congr beq_iff_eq rfl rfl
  have hinsert : ∀ p, Contents.Ordered p → Contents.insert now m p = inserted p := fun p hp => by
    rw [insert_eq hp, hborn]
  rw [hafter]
  refine ⟨fun hact hlim => ?_, fun hact hlim hlife => ?_, fun hact hlim hlife => ?_,
    fun hact => ?_, fun hact => ?_, fun hact hmatch => ?_, fun hact hmatch => ?_,
    fun hact hnone => ?_, fun x y hy => ?_⟩
  · rw [store, if_pos ⟨hact, by simp [Message.unlimited, hlim]⟩, if_pos hlim]
  · rw [store, if_pos ⟨hact, by simp [Message.unlimited, hlife]⟩, if_neg hlim]
  · rw [store_of_publish hact hlife hlim, hinsert q0 hord]
  · rw [store_of_ne_publish (by simp [hact]), place, hact]
    exact congrArg (List.rtake · m.limit) (hinsert others (hord.without m))
  · rw [store_of_ne_publish (by simp [hact]), place, hact, hinsert _ (hord.without m)]
    rfl
  · rw [store_of_ne_publish (by simp [hact]), place, hact]
    exact congrArg (List.rtake · m.limit) (rewriteOrInsert_of_exists hmatch)
  · rw [store_of_ne_publish (by simp [hact]), place, hact]
    exact congrArg (List.rtake · m.limit) (rewriteOrInsert_of_exists hmatch)
  · have hplace : place now m q0 = if m.lifetime ≠ 0 then inserted q0 else q0 := by
      rw [← hinsert q0 hord, place]
      rcases hact with hact | hact <;> rw [hact] <;> exact rewriteOrInsert_of_forall_ne hnone
    rw [store_of_ne_publish (by rcases hact with hact | hact <;> simp [hact]), hplace]
  · simp only [List.mem_cons, List.not_mem_nil, or_false] at hy
    rcases hy with rfl | rfl
    · simp
    · simp

/-- **`replace` and `remove` are idempotent.** -/
theorem push_push (ops : List QueueOp) (now : TimeT) (m : Message)
    (hact : m.action = .replace ∨ m.action = .remove) :
    (machine.run new (ops ++ [.push now m, .push now m])).mq.messages =
      (machine.run new (ops ++ [.push now m])).mq.messages := by
  have hwf := wellFormed_run ops
  set s := machine.run new ops
  have honce : machine.run new (ops ++ [.push now m]) = (machine.step s (.push now m)).1 :=
    Machine.run_concat ..
  have htwice : machine.run new (ops ++ [.push now m, .push now m]) =
      (machine.step (machine.step s (.push now m)).1 (.push now m)).1 :=
    Machine.run_append ..
  have hfound : (machine.step s (.push now m)).1.mq.foundAt now =
      (machine.step s (.push now m)).1.mq.messages :=
    MessageQueue.foundAt_push s.mq now ⟨s.pushes, m⟩
  have hwf' : (machine.step s (.push now m)).1.mq.WellFormed := hwf.push now ⟨s.pushes, m⟩
  rw [htwice, honce, messages_step_push hwf', hfound, messages_step_push hwf,
    store_store (hwf.ordered_foundAt now) hact]

theorem push_push_remove :
    (machine.run new [.push 100 { limit := 2, lifetime := 60, identity := "a" },
      .push 101 { action := .remove, limit := 2, lifetime := 5, identity := "a" },
      .push 101 { action := .remove, limit := 2, lifetime := 5, identity := "a" }]).mq.messages =
    (machine.run new [.push 100 { limit := 2, lifetime := 60, identity := "a" },
      .push 101 { action := .remove, limit := 2, lifetime := 5, identity := "a" }]).mq.messages :=
  push_push [.push 100 { limit := 2, lifetime := 60, identity := "a" }] 101
    { action := .remove, limit := 2, lifetime := 5, identity := "a" } (Or.inr rfl)

end QueueState

end WfcPubsub
