import WfcPubsub.Pubsub.Storing

/-!
# Runs of the channels

The calls of `channel_map` by which messages come and go, as the steps of a machine. The three
forms of `get_messages` differ only in what they copy out of the live messages of the channel
(`ReadForm.select`).

## Main definitions

* `ChannelOp`, `ChannelReply`, `ChannelMap.machine`

## Main results

* `ChannelMap.wellFormed_step`
* `ChannelMap.WellFormed.read_snd` : the reply of `get_messages`.
-/

namespace WfcPubsub

open Contents

/-- The three forms of `get_messages`. -/
inductive ReadForm
  | all
  | fromCursor (cursor : CursorT)
  | limited (cursor : CursorT) (limit : ℕ)

/-- A call of `push`, `get_messages` or `get_removed`. -/
inductive ChannelOp
  | push (now : TimeT) (name : String) (m : Message)
  | getMessages (form : ReadForm) (now : TimeT) (ml : Option (List Message)) (name : String)
  | getRemoved (reset : Bool)

/-- What the caller gets from a call; of `get_messages` the list that its pointer refers to. -/
inductive ChannelReply
  | pushed (res : Bool)
  | messages (ml : Option (List Message))
  | removed (count : ℕ)

/-- The `copy_to` of a form of `get_messages`. -/
def ReadForm.copyTo : ReadForm → List Message → MessageQueue → List Message
  | all => MessageQueue.copyToAll
  | fromCursor cursor => MessageQueue.copyToFrom cursor
  | limited cursor limit => MessageQueue.copyTo cursor limit

/-- What a form of `get_messages` selects. -/
def ReadForm.select : ReadForm → List Message → List Message
  | all, q => q
  | fromCursor cursor, q => q.filter fun m => cursor ≤ m.cursor
  | limited cursor limit, q => Contents.select cursor limit q

@[simp] theorem ReadForm.select_nil (form : ReadForm) : form.select [] = [] := by
  cases form with
  | all => rfl
  | fromCursor cursor => rfl
  | limited cursor limit => exact Contents.select_nil cursor limit

theorem ReadForm.copyTo_messages (form : ReadForm) {mq : MessageQueue} (h : mq.WellFormed)
    (out : List Message) : form.copyTo out mq = out ++ form.select mq.messages := by
  cases form with
  | all => exact MessageQueue.copyToAll_messages mq out
  | fromCursor cursor =>
    rw [copyTo, MessageQueue.copyToFrom_eq h.ordered, select, MessageQueue.messages,
      List.filter_map]
    rfl
  | limited cursor limit => exact MessageQueue.copyTo_messages h cursor limit out

namespace ChannelMap

/-- `get_messages` in one of its forms. -/
def read : ReadForm → TimeT → Option (List Message) → String → ChannelMap →
    ChannelMap × Option (List Message)
  | .all => getMessagesAll
  | .fromCursor cursor => getMessagesFrom cursor
  | .limited cursor limit => getMessages cursor limit

theorem read_eq (form : ReadForm) : read form = getMessagesWith form.copyTo := by
  cases form <;> rfl

/-- A reading changes the channels as `_find_and_remove_death` does. -/
theorem read_fst (form : ReadForm) (now : TimeT) (ml : Option (List Message)) (name : String)
    (cm : ChannelMap) : (cm.read form now ml name).1 = (cm.findAndRemoveDeath now name).1 := by
  rw [read_eq, getMessagesWith]
  split <;> next heq => rw [heq]

/-- One method call. -/
def step (cm : ChannelMap) : ChannelOp → ChannelMap × ChannelReply
  | .push now name m => ((cm.push now name m).1, .pushed (cm.push now name m).2)
  | .getMessages form now ml name =>
    ((cm.read form now ml name).1, .messages (cm.read form now ml name).2)
  | .getRemoved reset => ((cm.getRemoved reset).1, .removed (cm.getRemoved reset).2)

/-- The channels driven by their callers. -/
def machine : Machine ChannelMap ChannelOp ChannelReply where
  step := step

/-! ### The queue of a channel -/

@[simp] theorem queue_getRemoved (reset : Bool) (cm : ChannelMap) (name : String) :
    (cm.getRemoved reset).1.queue name = ((cm.queue name).getRemoved reset).1 := by
  rw [queue, getRemoved, OrderedMap.find?_mapValues, queue]
  cases cm.channelMap.find? name with
  | none => cases reset <;> rfl
  | some mq => rfl

variable {cm : ChannelMap}

theorem wellFormed_step (cm : ChannelMap) (op : ChannelOp) (h : cm.WellFormed) :
    (machine.step cm op).1.WellFormed := by
  cases op with
  | push now name m => exact h.push now name m
  | getMessages form now ml name =>
    exact read_fst form now ml name cm ▸ h.findAndRemoveDeath now name
  | getRemoved reset => exact h.getRemoved reset

/-- A reading appends what its form selects from the live messages of the channel. -/
theorem WellFormed.read_snd (h : cm.WellFormed) (form : ReadForm) (now : TimeT)
    (ml : Option (List Message)) (name : String) :
    (cm.read form now ml name).2 =
      ml.map fun out => out ++ form.select (live now (cm.messages name)) := by
  rw [read_eq, getMessagesWith, ← h.messages_found]
  rcases hread : cm.findAndRemoveDeath now name with ⟨cm', _ | mq⟩
  · have hnil : form.select MessageQueue.new.messages = [] := form.select_nil
    dsimp only [Option.getD_none]
    cases ml <;> simp [hnil]
  · have hwf : mq.WellFormed := h.found (congrArg Prod.snd hread)
    simp only [form.copyTo_messages hwf, Option.getD_some]

end ChannelMap

end WfcPubsub
