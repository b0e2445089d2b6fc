import WfcPubsub.MessageQueue.Specification

/-!
# The order of arrival

Published messages with one common limit are inserted one after the other, and the queue is cut
to the limit after each of them. A message cut off early in one order is cut off late in another,
and in every order the last messages by cursor remain.

## Main results

* `QueueState.messages_run_push` : a list of pushes at one value of the clock.
* `QueueState.arrival_order` : messages of distinct cursors may arrive in any order.
-/

namespace WfcPubsub

open Contents

namespace Contents

/-- Published messages of one limit are inserted and the queue is cut, time after time. -/
theorem storeAll_publish {now : TimeT} {limit : ℕ} (hlimit : 1 ≤ limit) {ms : List Message}
    (h : ∀ m ∈ ms, m.action = .publish ∧ m.lifetime ≠ 0 ∧ m.limit = limit) (q : List Message) :
    storeAll now ms q = (ms.map (bornAt now)).foldl
      (fun q m => (q.orderedInsert (StableOrder.before Message.cursor) m).rtake limit) q := by
  induction ms generalizing q with
  | nil => rfl
  | cons m ms ih =>
    obtain ⟨hact, hlife, hlim⟩ := h m List.mem_cons_self
    have hstore : store now m q =
        (q.orderedInsert (StableOrder.before Message.cursor) (bornAt now m)).rtake limit := by
      rw [store_of_publish hact hlife (by omega), hlim]
      rfl
    rw [storeAll_cons, hstore, ih fun x hx => h x (List.mem_cons_of_mem _ hx)]
    rfl

/-- At least one of them: the last messages of the sorted union are left. -/
theorem storeAll_publish_eq {now : TimeT} {limit : ℕ} (hlimit : 1 ≤ limit) {ms q : List Message}
    (hne : ms ≠ []) (h : ∀ m ∈ ms, m.action = .publish ∧ m.lifetime ≠ 0 ∧ m.limit = limit)
    (hq : Ordered q) :
    storeAll now ms q =
      ((q ++ ms.map (bornAt now)).mergeSort (StableOrder.upTo Message.cursor)).rtake limit := by
  cases ms with
  | nil => exact absurd rfl hne
  | cons m ms =>
    have hsorted : StableOrder.Sorted Message.cursor q := hq
    rw [storeAll_publish hlimit h, List.map_cons, List.foldl_cons,
      StableOrder.foldl_insert_rtake (hsorted.insert (bornAt now m)), ← List.foldl_cons,
      StableOrder.foldl_insert hsorted]

end Contents

namespace QueueState

/-- A list of pushes at one value of the clock: only the first one lets messages expire. -/
theorem messages_run_push {s : QueueState} (h : s.mq.WellFormed) (now : TimeT) (m : Message)
    (ms : List Message) :
    (machine.run s ((m :: ms).map (QueueOp.push now))).mq.messages =
      storeAll now (m :: ms) (s.mq.foundAt now) := by
  induction ms generalizing s m with
  | nil => exact messages_step_push h now m
  | cons m' ms ih =>
    have hwf : (machine.step s (.push now m)).1.mq.WellFormed := h.push now ⟨s.pushes, m⟩
    have hfound : (machine.step s (.push now m)).1.mq.foundAt now =
        store now m (s.mq.foundAt now) :=
      (MessageQueue.foundAt_push s.mq now ⟨s.pushes, m⟩).trans (messages_step_push h now m)
    calc (machine.run s ((m :: m' :: ms).map (QueueOp.push now))).mq.messages
      _ = (machine.run (machine.step s (.push now m)).1
            ((m' :: ms).map (QueueOp.push now))).mq.messages := rfl
      _ = storeAll now (m' :: ms) (store now m (s.mq.foundAt now)) := by rw [ih hwf, hfound]

/-- **Arrival order does not matter when cursors decide.** Published messages with one limit and
pairwise distinct cursors leave the same queue in whatever order they are pushed at one value of
the clock: the last ones of the messages found and the new ones, sorted by cursor, those found
first where the cursors are equal. -/
theorem arrival_order (ops : List QueueOp) (now : TimeT) (limit : ℕ) (hlimit : 1 ≤ limit)
    (ms : List Message) (hne : ms ≠ [])
    (hms : ∀ m ∈ ms, m.action = .publish ∧ m.lifetime ≠ 0 ∧ m.limit = limit)
    (hcursor : ms.Pairwise fun a b => a.cursor ≠ b.cursor) :
    ∀ ms' : List Message, ms'.Perm ms →
      (machine.run (machine.run new ops) (ms'.map (QueueOp.push now))).mq.messages =
        (((machine.run new ops).mq.foundAt now ++ ms.map (bornAt now)).mergeSort
          fun a b => a.cursor ≤ b.cursor).rtake limit := by
  intro ms' hperm
  have hwf := wellFormed_run ops
  have hne' : ms' ≠ [] := fun hnil => hne (List.nil_perm.mp (hnil ▸ hperm))
  have hborn : (ms.map (bornAt now)).Pairwise fun a b => a.cursor ≠ b.cursor :=
    hcursor.map _ fun a b hab => by simpa using hab
  have hrun : (machine.run (machine.run new ops) (ms'.map (QueueOp.push now))).mq.messages =
      storeAll now ms' ((machine.run new ops).mq.foundAt now) := by
    cases ms' with
    | nil => exact absurd rfl hne'
    | cons m' ms' => exact messages_run_push hwf now m' ms'
  rw [hrun, storeAll_publish_eq hlimit hne' (fun m hm => hms m (hperm.subset hm))
    (hwf.ordered_foundAt now)]
  exact congrArg (List.rtake · limit)
    (StableOrder.mergeSort_append_perm _ hborn (hperm.symm.map _)).symm

/-- Two messages on a queue that holds one: the smallest cursor is cut off, which here is that of
the message pushed last. -/
theorem arrival_order_two :
    (machine.run (machine.run new [.push 100 { limit := 2, lifetime := 60, cursor := 6 }])
        ([{ limit := 2, lifetime := 60, cursor := 7 },
          { limit := 2, lifetime := 60, cursor := 5 }].map (QueueOp.push 100))).mq.messages =
      (((machine.run new [.push 100 { limit := 2, lifetime := 60, cursor := 6 }]).mq.foundAt 100 ++
        [{ limit := 2, lifetime := 60, cursor := 5 },
          { limit := 2, lifetime := 60, cursor := 7 }].map (bornAt 100)).mergeSort
          fun a b => a.cursor ≤ b.cursor).rtake 2 :=
  arrival_order [.push 100 { limit := 2, lifetime := 60, cursor := 6 }] 100 2 (by decide)
    [{ limit := 2, lifetime := 60, cursor := 5 }, { limit := 2, lifetime := 60, cursor := 7 }]
    (by simp) (by decide) (by decide) _ (List.Perm.swap _ _ _)

end QueueState

end WfcPubsub
