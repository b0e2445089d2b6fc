import WfcPubsub.ChannelMap.Runs

/-!
# Discarding empty channels

`channel_map` discards the queue that a reading finds empty and makes none for a message without
lifetime and limit. The variant here makes one on every first push and keeps it. From the first
discarded queue on the two differ: a queue made again has a fresh flag and has never let messages
expire.

Neither shows. What a queue holds depends on the flag in no reachable state, and on the time of
the last expiry only if there is something to expire. So the two keep the same messages on every
channel, and the time of the last expiry wherever there are messages (`ChannelMap.Agrees`).

## Main definitions

* `ChannelMap.pushKeeping`, `ChannelMap.readKeeping`, `ChannelMap.keepingMachine` : the variant.
* `ChannelMap.Agrees`

## Main results

* `ChannelMap.replies_keeping` : every reply of `get_messages` is that of the variant.
-/

namespace WfcPubsub

open Contents

/-- The reply, if it is one of `get_messages`. -/
def ChannelReply.messages? : ChannelReply → Option (Option (List Message))
  | messages ml => some ml
  | _ => none

/-! ### Queues with the same messages -/

namespace MessageQueue

/-- Two queues with the same messages, which will next expire at the same time if there are
any. -/
structure Agrees (mq mq' : MessageQueue) : Prop where
  messages : mq.messages = mq'.messages
  purged : mq.messages ≠ [] → mq.lastRemoveDeath = mq'.lastRemoveDeath

variable {mq mq' : MessageQueue}

theorem agrees_of_nil (h : mq.messages = []) (h' : mq'.messages = []) : mq.Agrees mq' :=
  ⟨h.trans h'.symm, fun hne => absurd h hne⟩

theorem Agrees.foundAt (h : mq.Agrees mq') (now : TimeT) : mq.foundAt now = mq'.foundAt now := by
  by_cases hnil : mq.messages = []
  · have hfound : ∀ q : MessageQueue, q.messages = [] → q.foundAt now = [] := fun q hq =>
      List.eq_nil_of_subset_nil (hq ▸ (foundAt_sublist now q).subset)
    rw [hfound mq hnil, hfound mq' (h.messages ▸ hnil)]
  · rw [MessageQueue.foundAt, MessageQueue.foundAt, h.messages, h.purged hnil]

theorem Agrees.push (h : mq.Agrees mq') (hwf : mq.WellFormed) (hwf' : mq'.WellFormed)
    (now : TimeT) (m : StoredMessage) : (mq.push now m).1.Agrees (mq'.push now m).1 where
  messages := by
    rw [messages_push hwf, messages_push hwf']
    exact congrArg _ (h.foundAt now)
  purged _ := (push_lastRemoveDeath mq now m).trans (push_lastRemoveDeath mq' now m).symm

theorem Agrees.removeDeath (h : mq.Agrees mq') (hwf : mq.WellFormed) (hwf' : mq'.WellFormed)
    (now : TimeT) : (mq.removeDeath now).Agrees (mq'.removeDeath now) where
  messages := by rw [messages_removeDeath hwf, messages_removeDeath hwf', h.messages]
  purged hne := by
    rw [removeDeath_lastRemoveDeath, removeDeath_lastRemoveDeath]
    refine h.purged fun hnil => hne ?_
    rw [messages_removeDeath hwf, hnil]
    rfl

theorem Agrees.getRemoved (h : mq.Agrees mq') (reset : Bool) :
    (mq.getRemoved reset).1.Agrees (mq'.getRemoved reset).1 := by
  cases reset <;> exact ⟨h.messages, h.purged⟩

end MessageQueue

namespace ChannelMap

/-! ### The variant -/

/-- `push` with a queue made on every first push. -/
def pushKeeping (now : TimeT) (name : String) (m : Message) (cm : ChannelMap) :
    ChannelMap × Bool :=
  let (mq, res) := (cm.queue name).pushMessage now m.copy
  ({ channelMap := cm.channelMap.set name mq }, res)

/-- `get_messages` in one of its forms, with an empty queue kept. -/
def readKeeping (form : ReadForm) (now : TimeT) (ml : Option (List Message)) (name : String)
    (cm : ChannelMap) : ChannelMap × Option (List Message) :=
  match cm.channelMap.find? name with
  | none => (cm, ml)
  | some mq =>
    let mq := mq.removeDeath now
    ({ channelMap := cm.channelMap.set name mq }, ml.map fun out => form.copyTo out mq)

/-- The variant driven by its callers. -/
def keepingMachine : Machine ChannelMap ChannelOp ChannelReply where
  step cm
    | .push now name m => ((cm.pushKeeping now name m).1, .pushed (cm.pushKeeping now name m).2)
    | .getMessages form now ml name =>
      ((cm.readKeeping form now ml name).1, .messages (cm.readKeeping form now ml name).2)
    | .getRemoved reset => ((cm.getRemoved reset).1, .removed (cm.getRemoved reset).2)

/-! ### What a call does to the queues -/

variable {cm vm : ChannelMap}

theorem queue_pushKeeping (cm : ChannelMap) (now : TimeT) (name : String) (m : Message)
    (name' : String) :
    (cm.pushKeeping now name m).1.queue name' =
      if name' = name then ((cm.queue name).push now (.make m.copy)).1 else cm.queue name' :=
  queue_set name _ cm name'

/-- A reading lets the dead messages of its queue go, and discards the queue if it is empty. -/
theorem queue_read (cm : ChannelMap) (form : ReadForm) (now : TimeT)
    (ml : Option (List Message)) (name name' : String) :
    (cm.read form now ml name).1.queue name' =
      if name' = name then
        (if ((cm.queue name).removeDeath now).empty then .new else (cm.queue name).removeDeath now)
      else cm.queue name' := by
  rw [read_fst, queue, find?_findAndRemoveDeath]
  split
  · rw [findAndRemoveDeath_snd, queue]
    cases cm.channelMap.find? name with
    | none => rfl
    | some mq =>
      rw [Option.map_some, Option.filter_some, Option.getD_some]
      by_cases hempty : (mq.removeDeath now).empty
      · simp [hempty]
      · simp [hempty]
  · rfl

/-- A reading of the variant lets the dead messages of its queue go. -/
theorem queue_readKeeping (cm : ChannelMap) (form : ReadForm) (now : TimeT)
    (ml : Option (List Message)) (name name' : String) :
    (cm.readKeeping form now ml name).1.queue name' =
      if name' = name then (cm.queue name).removeDeath now else cm.queue name' := by
  rw [readKeeping]
  cases hfind : cm.channelMap.find? name with
  | none =>
    have hnew : cm.queue name = .new := by
      rw [queue, hfind]
      rfl
    dsimp only
    split
    · next hname =>
      rw [hname, hnew]
      rfl
    · rfl
  | some mq =>
    have hqueue : cm.queue name = mq := by
      rw [queue, hfind]
      rfl
    rw [hqueue]
    exact queue_set name _ cm name'

theorem WellFormed.readKeeping (h : vm.WellFormed) (form : ReadForm) (now : TimeT)
    (ml : Option (List Message)) (name : String) :
    (vm.readKeeping form now ml name).1.WellFormed := by
  rw [ChannelMap.readKeeping]
  cases hfind : vm.channelMap.find? name with
  | none => exact h
  | some mq => exact h.set name ((h name mq hfind).removeDeath now)

/-- The reply of the variant. -/
theorem WellFormed.readKeeping_snd (h : vm.WellFormed) (form : ReadForm) (now : TimeT)
    (ml : Option (List Message)) (name : String) :
    (vm.readKeeping form now ml name).2 =
      ml.map fun out => out ++ form.select (live now (vm.messages name)) := by
  rw [ChannelMap.readKeeping, messages]
  cases hfind : vm.channelMap.find? name with
  | none =>
    have hnil : live now MessageQueue.new.messages = [] := rfl
    cases ml <;> simp [hnil]
  | some mq =>
    have hwf := h name mq hfind
    simp only [form.copyTo_messages (hwf.removeDeath now), MessageQueue.messages_removeDeath hwf]
    rfl

/-! ### The simulation -/

/-- The queues of the two agree, an absent one counting as empty. -/
structure Agrees (cm vm : ChannelMap) : Prop where
  wellFormed : cm.WellFormed
  wellFormed_keeping : vm.WellFormed
  queue : ∀ name, (cm.queue name).Agrees (vm.queue name)

theorem Agrees.push (h : cm.Agrees vm) (now : TimeT) (name : String) (m : Message) :
    (cm.push now name m).1.Agrees (vm.pushKeeping now name m).1 where
  wellFormed := h.wellFormed.push now name m
  wellFormed_keeping :=
    h.wellFormed_keeping.set name ((h.wellFormed_keeping.queue name).push now _)
  queue name' := by
    have hwf : (cm.queue name).WellFormed := h.wellFormed.queue name
    have hwf' : (vm.queue name).WellFormed := h.wellFormed_keeping.queue name
    have hpush := (h.queue name).push hwf hwf' now (.make m.copy)
    rw [queue_pushKeeping]
    rcases queue_push cm now name m with hqueue | ⟨hsame, hnew, -, hlimit⟩
    · rw [hqueue]
      split
      · exact hpush
      · exact h.queue name'
    · -- No queue is made, and the one that the variant makes stays empty.
      rw [hsame]
      split
      · next hname =>
        rw [hname, hnew]
        refine MessageQueue.agrees_of_nil rfl ?_
        rw [MessageQueue.messages_push hwf']
        exact store_of_limit_eq_zero hlimit now _
      · exact h.queue name'

theorem Agrees.read (h : cm.Agrees vm) (form : ReadForm) (now : TimeT)
    (ml : Option (List Message)) (name : String) :
    (cm.read form now ml name).1.Agrees (vm.readKeeping form now ml name).1 where
  wellFormed := read_fst form now ml name cm ▸ h.wellFormed.findAndRemoveDeath now name
  wellFormed_keeping := h.wellFormed_keeping.readKeeping form now ml name
  queue name' := by
    have hremove := (h.queue name).removeDeath (h.wellFormed.queue name)
      (h.wellFormed_keeping.queue name) now
    rw [queue_read, queue_readKeeping]
    split
    · split
      · next hempty =>
        have hnil : ((cm.queue name).removeDeath now).messages = [] := by
          rw [MessageQueue.messages, List.isEmpty_iff.mp hempty, List.map_nil]
        exact MessageQueue.agrees_of_nil rfl (hremove.messages ▸ hnil)
      · exact hremove
    · exact h.queue name'

theorem Agrees.getRemoved (h : cm.Agrees vm) (reset : Bool) :
    (cm.getRemoved reset).1.Agrees (vm.getRemoved reset).1 where
  wellFormed := h.wellFormed.getRemoved reset
  wellFormed_keeping := h.wellFormed_keeping.getRemoved reset
  queue name := by
    rw [queue_getRemoved, queue_getRemoved]
    exact (h.queue name).getRemoved reset

theorem agrees_step (cm vm : ChannelMap) (op : ChannelOp) (h : cm.Agrees vm) :
    (machine.step cm op).1.Agrees (keepingMachine.step vm op).1 ∧
      (machine.step cm op).2.messages? = (keepingMachine.step vm op).2.messages? := by
  cases op with
  | push now name m => exact ⟨h.push now name m, rfl⟩
  | getMessages form now ml name =>
    refine ⟨h.read form now ml name, congrArg some ?_⟩
    rw [h.wellFormed.read_snd, h.wellFormed_keeping.readKeeping_snd]
    have hmessages : cm.messages name = vm.messages name := (h.queue name).messages
    rw [hmessages]
  | getRemoved reset => exact ⟨h.getRemoved reset, rfl⟩

/-- **Discarding empty channels is invisible to readers.** Along every run each `get_messages`
replies as it does where every first push makes a queue and no reading discards one. -/
theorem replies_keeping (ops : List ChannelOp) :
    (machine.trace new ops).map ChannelReply.messages? =
      (keepingMachine.trace new ops).map ChannelReply.messages? := by
  refine Machine.trace_map_eq_of_simulation agrees_step ⟨wellFormed_new, wellFormed_new, ?_⟩ ops
  exact fun _ => MessageQueue.agrees_of_nil rfl rfl

end ChannelMap

end WfcPubsub
