import WfcPubsub.ChannelMap.Runs

/-!
# The count of dropped messages

Each queue counts the messages that it drops, by expiry or because of a limit, and `get_removed`
adds the counters up. The queue that a reading finds empty is discarded with its counter, so
whatever this one has counted since it was last asked is never reported.

A call balances: what the counters hold afterwards, what it reports and what it loses together
are what the counters held before and what it drops (`ChannelMap.balance_step`). Along a run
everything dropped is reported iff nothing is lost.

## Main definitions

* `Contents.trimmed` : how many messages a limit cuts off.
* `ChannelMap.dropped`, `ChannelMap.reported`, `ChannelMap.lost` : what a call does to the count.

## Main results

* `MessageQueue.push_removed` : a queue counts what it drops.
* `ChannelMap.exists_dropped_push`, `ChannelMap.exists_dropped_read` : what a call drops has been
  in the queue and is gone.
* `ChannelMap.counts_dropped_iff` : when every dropped message is counted once.
-/

namespace WfcPubsub

open Contents

namespace Contents

/-- The messages behind a push before its limit cuts. -/
def uncut (now : TimeT) (m : Message) (q : List Message) : List Message :=
  if m.action = .publish ∧ m.unlimited then q else place now m q

/-- How many messages the limit of a pushed message cuts off. -/
def trimmed (now : TimeT) (m : Message) (q : List Message) : ℕ :=
  (uncut now m q).length - (store now m q).length

theorem trimmed_eq (now : TimeT) (m : Message) (q : List Message) :
    trimmed now m q =
      if m.action = .publish ∧ m.unlimited then (if m.limit = 0 then q.length else 0)
      else (place now m q).length - m.limit := by
  rw [trimmed, uncut, store]
  split
  · split
    · rfl
    · exact Nat.sub_self _
  · rw [StableOrder.length_rtake]
    omega

theorem cutOff_append_store (now : TimeT) (m : Message) (q : List Message) :
    cutOff now m q ++ store now m q = uncut now m q := by
  rw [cutOff, store, uncut]
  split
  · split
    · exact List.append_nil q
    · rfl
  · exact List.take_append_drop _ _

theorem trimmed_eq_length (now : TimeT) (m : Message) (q : List Message) :
    trimmed now m q = (cutOff now m q).length := by
  rw [trimmed, ← cutOff_append_store, List.length_append, Nat.add_sub_cancel]

/-- The live messages are what is left of all when the dead ones are taken out. -/
theorem exists_perm_append_live (now : TimeT) (q : List Message) :
    ∃ expired, (∀ x ∈ expired, x.deathtime < now) ∧ (expired ++ live now q).Perm q := by
  refine ⟨q.filter fun x => !decide (now ≤ x.deathtime), fun x hx => ?_, ?_⟩
  · simpa using (List.mem_filter.mp hx).2
  · exact List.perm_append_comm.trans (List.filter_append_perm _ q)

end Contents

namespace MessageQueue

/-- The number of messages that have died before `now`. -/
def expired (now : TimeT) (mq : MessageQueue) : ℕ :=
  mq.messages.length - (live now mq.messages).length

theorem length_messages (mq : MessageQueue) : mq.messages.length = mq.size := List.length_map _

theorem removeDeath_removed_eq {mq : MessageQueue} (h : mq.WellFormed) (now : TimeT) :
    (mq.removeDeath now).removed = mq.removed + mq.expired now := by
  rw [removeDeath_removed, expired, ← messages_removeDeath h, length_messages, length_messages]

theorem resize_removed (mq : MessageQueue) (limit : ℕ) :
    (mq.resize limit).removed = mq.removed + (mq.size - limit) := by
  rw [resize]
  split
  · next hle => rw [Nat.sub_eq_zero_of_le hle, Nat.add_zero]
  · simp only [List.length_drop, size] at *
    omega

@[simp] theorem dispatch_removed (mq : MessageQueue) (now : TimeT) (m : StoredMessage) :
    (mq.dispatch now m).removed = mq.removed :=
  congrArg ReferenceQueue.removed (dispatch_toReference mq now m)

theorem purge_removed {mq : MessageQueue} (h : mq.WellFormed) (now : TimeT) :
    (mq.purge now).removed =
      mq.removed + (mq.messages.length - (mq.foundAt now).length) := by
  rw [purge, foundAt]
  split
  · exact removeDeath_removed_eq h now
  · rw [Nat.sub_self, Nat.add_zero]

/-- A push counts the messages that it finds dead and those that it cuts off. -/
theorem push_removed {mq : MessageQueue} (h : mq.WellFormed) (now : TimeT) (m : StoredMessage) :
    (mq.push now m).1.removed = mq.removed +
      (mq.messages.length - (mq.foundAt now).length + trimmed now m.get (mq.foundAt now)) := by
  have hord : CursorOrdered (mq.purge now).queue := h.ordered.sublist (purge_sublist mq now)
  have hfound : (mq.purge now).messages = mq.foundAt now := messages_purge h now
  have hdispatch : ((mq.purge now).dispatch now m).size =
      (place now m.get (mq.foundAt now)).length := by
    rw [← length_messages, messages_dispatch hord, hfound]
  rw [← Nat.add_assoc, ← purge_removed h, trimmed_eq]
  simp only [push]
  by_cases hact : m.get.action = .publish
  · by_cases hun : m.get.unlimited = true
    · simp only [hact, hun, if_true, true_and]
      split
      · rw [resize_removed, ← hfound, length_messages, Nat.sub_zero]
      · rfl
    · have hlim : m.get.limit ≠ 0 :=
        (Message.unlimited_eq_false_iff.mp (Bool.eq_false_iff.mpr hun)).2
      simp only [hact, hun, hlim, if_true, if_false, true_and, resize_removed, hdispatch,
        dispatch_removed, Bool.false_eq_true]
  · simp only [hact, if_false, false_and, resize_removed, hdispatch, dispatch_removed]

end MessageQueue

namespace ChannelMap

variable {cm : ChannelMap}

/-- How many messages leave some queue by expiry or because of a limit. A push that creates no
channel drops nothing. -/
def dropped (cm : ChannelMap) : ChannelOp → ℕ
  | .push now name m =>
    if !cm.channelMap.contains name && (m.lifetime == 0 && m.limit == 0) then 0
    else (cm.messages name).length - (cm.foundAt now name).length +
      trimmed now m (cm.foundAt now name)
  | .getMessages _ now _ name => (cm.messages name).length - (live now (cm.messages name)).length
  | .getRemoved _ => 0

/-- What a push drops was in the queue and is not: the messages that it finds dead, and of what the
action makes of the others those in front of what is there afterwards. -/
theorem exists_dropped_push (h : cm.WellFormed) (now : TimeT) (name : String) {m : Message}
    (hchannel : cm.channelMap.contains name = true ∨ m.lifetime ≠ 0 ∨ m.limit ≠ 0) :
    ∃ expired cut, (∀ x ∈ expired, x.deathtime < now) ∧
      (expired ++ cm.foundAt now name).Perm (cm.messages name) ∧
      cut ++ (cm.push now name m).1.messages name = uncut now m (cm.foundAt now name) ∧
      cm.dropped (.push now name m) = (expired ++ cut).length := by
  obtain ⟨expired, hdead, hperm⟩ : ∃ expired, (∀ x ∈ expired, x.deathtime < now) ∧
      (expired ++ cm.foundAt now name).Perm (cm.messages name) := by
    rw [foundAt, MessageQueue.foundAt]
    split
    · exact exists_perm_append_live now _
    · exact ⟨[], List.forall_mem_nil _, List.Perm.refl _⟩
  refine ⟨expired, cutOff now m (cm.foundAt now name), hdead, hperm, ?_, ?_⟩
  · rw [h.messages_push_eq, if_pos rfl, cutOff_append_store]
  · have hguard : (!cm.channelMap.contains name && (m.lifetime == 0 && m.limit == 0)) = false := by
      rcases hchannel with hchannel | hlife | hlimit <;> simp [*]
    have hlen := hperm.length_eq
    rw [List.length_append] at hlen
    rw [dropped, hguard, if_neg Bool.false_ne_true, trimmed_eq_length, List.length_append]
    omega

/-- What a reading drops was in the queue and is not: its dead messages. -/
theorem exists_dropped_read (h : cm.WellFormed) (form : ReadForm) (now : TimeT)
    (ml : Option (List Message)) (name : String) :
    ∃ expired, (∀ x ∈ expired, x.deathtime < now) ∧
      (expired ++ (cm.read form now ml name).1.messages name).Perm (cm.messages name) ∧
      cm.dropped (.getMessages form now ml name) = expired.length := by
  obtain ⟨expired, hdead, hperm⟩ := exists_perm_append_live now (cm.messages name)
  have hlen := hperm.length_eq
  rw [List.length_append] at hlen
  refine ⟨expired, hdead, ?_, ?_⟩
  · rwa [read_fst, h.messages_findAndRemoveDeath, if_pos rfl]
  · rw [dropped]
    omega

/-- What a `get_removed(true)` returns. -/
def reported (cm : ChannelMap) : ChannelOp → ℕ
  | .getRemoved reset => if reset then (cm.getRemoved reset).2 else 0
  | _ => 0

/-- What the counter of a queue stands at when a reading discards it. -/
def lost (cm : ChannelMap) : ChannelOp → ℕ
  | .getMessages _ now _ name =>
    if live now (cm.messages name) = [] then
      (cm.queue name).removed + (cm.messages name).length
    else 0
  | _ => 0

/-- The counters of all queues. -/
def counted (cm : ChannelMap) : ℕ := (cm.getRemoved false).2

theorem counted_eq (cm : ChannelMap) :
    cm.counted = (cm.channelMap.entries.map fun ch => ch.2.removed).sum := rfl

/-- What a queue put in place of that of a channel adds to the counters. -/
theorem counted_set (cm : ChannelMap) (name : String) (mq : MessageQueue) :
    ({ channelMap := cm.channelMap.set name mq } : ChannelMap).counted +
      (cm.queue name).removed = cm.counted + mq.removed := by
  have hsum := cm.channelMap.sum_set name mq MessageQueue.removed
  rw [counted_eq, counted_eq, queue, ← hsum]
  cases cm.channelMap.find? name <;> rfl

theorem counted_erase (cm : ChannelMap) (name : String) :
    (cm.erase name).counted + (cm.queue name).removed = cm.counted := by
  have hsum := cm.channelMap.sum_erase name MessageQueue.removed
  rw [counted_eq, counted_eq, queue, ← hsum]
  cases cm.channelMap.find? name <;> rfl

theorem counted_push (h : cm.WellFormed) (now : TimeT) (name : String) (m : Message) :
    (cm.push now name m).1.counted = cm.counted + cm.dropped (.push now name m) := by
  rw [push, dropped]
  split
  · rfl
  · have hpush : ((cm.queue name).push now (.make m.copy)).1.removed = (cm.queue name).removed +
        ((cm.messages name).length - (cm.foundAt now name).length +
          trimmed now m (cm.foundAt now name)) :=
      MessageQueue.push_removed (h.queue name) now (.make m.copy)
    have hset := cm.counted_set name ((cm.queue name).push now (.make m.copy)).1
    change ChannelMap.counted
      { channelMap := cm.channelMap.set name ((cm.queue name).push now (.make m.copy)).1 } = _
    omega

/-- A reading counts what it finds dead; the counter of a queue that it discards is lost. -/
theorem counted_read (h : cm.WellFormed) (form : ReadForm) (now : TimeT)
    (ml : Option (List Message)) (name : String) :
    (cm.read form now ml name).1.counted + cm.lost (.getMessages form now ml name) =
      cm.counted + cm.dropped (.getMessages form now ml name) := by
  have hdead := MessageQueue.removeDeath_removed_eq (h.queue name) now
  have hlive := MessageQueue.messages_removeDeath (h.queue name) now
  rw [read_fst, findAndRemoveDeath, dropped, lost, queue, messages]
  cases hfind : cm.channelMap.find? name with
  | none => rfl
  | some mq =>
    rw [hfind, Option.getD_some] at hdead hlive
    dsimp only [Option.getD_some]
    by_cases hempty : (mq.removeDeath now).empty
    · have hnil : live now mq.messages = [] := by
        rw [← hlive, MessageQueue.messages, List.isEmpty_iff.mp hempty, List.map_nil]
      have herase := cm.counted_erase name
      rw [queue, hfind, Option.getD_some] at herase
      rw [if_pos hempty, if_pos hnil, hnil, List.length_nil]
      dsimp only
      omega
    · have hne : live now mq.messages ≠ [] := by
        rw [← hlive, MessageQueue.messages]
        simpa [MessageQueue.empty] using hempty
      have hset := cm.counted_set name (mq.removeDeath now)
      rw [queue, hfind, Option.getD_some, hdead, MessageQueue.expired] at hset
      rw [if_neg hempty, if_neg hne]
      dsimp only
      omega

theorem counted_getRemoved (cm : ChannelMap) (reset : Bool) :
    (cm.getRemoved reset).1.counted + cm.reported (.getRemoved reset) = cm.counted := by
  have hafter : (cm.getRemoved reset).1.counted = if reset then 0 else cm.counted := by
    cases reset <;>
      simp [counted_eq, getRemoved, MessageQueue.getRemoved, OrderedMap.mapValues,
        Function.comp_def]
  rw [hafter, reported]
  cases reset with
  | false => rfl
  | true => exact Nat.zero_add _

/-- What the counters hold, what is reported and what is lost balances with what is dropped. -/
theorem balance_step (cm : ChannelMap) (op : ChannelOp) (h : cm.WellFormed) :
    (machine.step cm op).1.counted + (cm.reported op + cm.lost op) =
      cm.counted + cm.dropped op := by
  cases op with
  | push now name m => exact counted_push h now name m
  | getMessages form now ml name =>
    refine (congrArg _ (Nat.zero_add _)).trans ?_
    exact counted_read h form now ml name
  | getRemoved reset => exact counted_getRemoved cm reset

/-- Along a run the counters balance. -/
theorem balance_run (ops : List ChannelOp) :
    (machine.run new ops).counted + machine.total reported new ops + machine.total lost new ops =
      machine.total dropped new ops := by
  have hrun := Machine.total_balance (M := machine) (v := counted)
    (f := fun cm op => cm.reported op + cm.lost op) wellFormed_step balance_step wellFormed_new ops
  rw [Machine.total_add] at hrun
  have hnew : new.counted = 0 := rfl
  omega

/-- The queue that a reading of a channel finds empty has something to report. -/
def LosesCount (cm : ChannelMap) : ChannelOp → Prop
  | .getMessages _ now _ name => ∃ mq, cm.channelMap.find? name = some mq ∧
      (∀ m ∈ mq.messages, m.deathtime < now) ∧ (mq.messages ≠ [] ∨ mq.removed ≠ 0)
  | _ => False

theorem lost_ne_zero_iff (cm : ChannelMap) (op : ChannelOp) :
    cm.lost op ≠ 0 ↔ cm.LosesCount op := by
  cases op with
  | push now name m => exact iff_of_false (fun h => h rfl) id
  | getRemoved reset => exact iff_of_false (fun h => h rfl) id
  | getMessages form now ml name =>
    rw [lost, LosesCount, queue, messages]
    cases hfind : cm.channelMap.find? name with
    | none =>
      refine iff_of_false (fun h => h rfl) ?_
      rintro ⟨mq, habsent, -⟩
      cases habsent
    | some mq =>
      have hdead : live now mq.messages = [] ↔ ∀ m ∈ mq.messages, m.deathtime < now := by
        simp [live, List.filter_eq_nil_iff]
      simp only [Option.getD_some, Option.some.injEq, exists_eq_left', ← hdead]
      split
      · next hnil =>
        rw [Ne, Nat.add_eq_zero_iff, List.length_eq_zero_iff, not_and_or]
        exact ⟨fun h => ⟨hnil, h.symm⟩, fun h => h.2.symm⟩
      · next hlive => simp [hlive]

/-- **When every dropped message is counted once.** Along every run the values returned by
`get_removed(true)` and that of a final `get_removed(false)` add up to the number of messages
dropped if and only if no `get_messages` finds a queue in which nothing lives and from which
something has been dropped, or is dropped then, that is not reported yet. -/
theorem counts_dropped_iff (ops : List ChannelOp) :
    machine.total reported new ops + ((machine.run new ops).getRemoved false).2 =
        machine.total dropped new ops ↔
      ∀ before op after, ops = before ++ op :: after →
        ¬ (machine.run new before).LosesCount op := by
  have hbalance := balance_run ops
  have hlost : machine.total reported new ops + ((machine.run new ops).getRemoved false).2 =
      machine.total dropped new ops ↔ machine.total lost new ops = 0 := by
    rw [counted] at hbalance
    omega
  simp only [hlost, Machine.total_eq_zero_iff, ← lost_ne_zero_iff, not_not]

/-- The only message of a channel has died when the channel is read. -/
theorem not_counts_dropped :
    let ops : List ChannelOp := [.push 100 "channel" { limit := 10, lifetime := 1 },
      .getMessages .all 200 (some []) "channel"]
    machine.total dropped new ops = 1 ∧
      machine.total reported new ops + ((machine.run new ops).getRemoved false).2 = 0 := by
  decide

end ChannelMap

end WfcPubsub
