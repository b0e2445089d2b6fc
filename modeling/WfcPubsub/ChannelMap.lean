import WfcPubsub.Lib.OrderedMap
import WfcPubsub.MessageQueue.Order
import Mathlib.Data.String.Basic

/-!
# Channels

The class `channel_map`: one queue per channel name, created by the first push and discarded
by the read that finds it empty. The clock that the methods read with `time(nullptr)` is the
argument `now`; an output list given by pointer is an `Option`, `none` for `nullptr`.

Sources: `pubsub/channel_map.hpp`, `pubsub/channel_map.cpp`.
-/

namespace WfcPubsub

/-- `class channel_map`. -/
structure ChannelMap where
  channelMap : OrderedMap String MessageQueue := .empty

namespace ChannelMap

/-- The constructor. -/
def new : ChannelMap := {}

/-- `size(count)`: the number of channels; the number of messages is added to `count`. -/
def size (count : Option ℕ) (cm : ChannelMap) : ℕ × Option ℕ :=
  (cm.channelMap.size,
    count.map fun n => n + (cm.channelMap.entries.map fun ch => ch.2.size).sum)

def clear (_cm : ChannelMap) : ChannelMap := { channelMap := .empty }

/-- `get_removed(reset)`: a `const` method that may reset the counters of the queues. -/
def getRemoved (reset : Bool) (cm : ChannelMap) : ChannelMap × ℕ :=
  ({ channelMap := cm.channelMap.mapValues fun mq => (mq.getRemoved reset).1 },
    (cm.channelMap.entries.map fun ch => (ch.2.getRemoved reset).2).sum)

def emptyCount (cm : ChannelMap) : ℕ :=
  (cm.channelMap.entries.map fun ch => ch.2.empty.toNat).sum

/-- `push(name, m)`: a channel that is not there is created, unless the message has neither a
lifetime nor a limit. -/
def push (now : TimeT) (name : String) (m : Message) (cm : ChannelMap) (addr : ℕ := 0) :
    ChannelMap × Bool :=
  if !cm.channelMap.contains name && (m.lifetime == 0 && m.limit == 0) then (cm, false)
  else
    let (mq, res) := ((cm.channelMap.find? name).getD .new).pushMessage now m.copy addr
    ({ channelMap := cm.channelMap.set name mq }, res)

def erase (name : String) (cm : ChannelMap) : ChannelMap :=
  { channelMap := cm.channelMap.erase name }

/-- `_find_and_remove_death`: the queue of the channel after expiry, if it is there and not
empty; an empty queue is discarded. -/
def findAndRemoveDeath (now : TimeT) (name : String) (cm : ChannelMap) :
    ChannelMap × Option MessageQueue :=
  match cm.channelMap.find? name with
  | none => (cm, none)
  | some mq =>
    let mq := mq.removeDeath now
    if mq.empty then (cm.erase name, none)
    else ({ channelMap := cm.channelMap.set name mq }, some mq)

/-- The common body of the three `get_messages`. -/
def getMessagesWith (copy : List Message → MessageQueue → List Message) (now : TimeT)
    (ml : Option (List Message)) (name : String) (cm : ChannelMap) :
    ChannelMap × Option (List Message) :=
  match cm.findAndRemoveDeath now name with
  | (cm, none) => (cm, ml)
  | (cm, some mq) => (cm, ml.map fun out => copy out mq)

/-- `get_messages(ml, name)`. -/
def getMessagesAll : TimeT → Option (List Message) → String → ChannelMap →
    ChannelMap × Option (List Message) :=
  getMessagesWith MessageQueue.copyToAll

/-- `get_messages(ml, name, cursor)`. -/
def getMessagesFrom (cursor : CursorT) : TimeT → Option (List Message) → String → ChannelMap →
    ChannelMap × Option (List Message) :=
  getMessagesWith (MessageQueue.copyToFrom cursor)

/-- `get_messages(ml, name, cursor, limit)`. -/
def getMessages (cursor : CursorT) (limit : ℕ) : TimeT → Option (List Message) → String →
    ChannelMap → ChannelMap × Option (List Message) :=
  getMessagesWith (MessageQueue.copyTo cursor limit)

theorem getMessages_eq (cursor : CursorT) (limit : ℕ) (now : TimeT)
    (ml : Option (List Message)) (name : String) (cm : ChannelMap) :
    cm.getMessages cursor limit now ml name =
      ((cm.findAndRemoveDeath now name).1,
        match (cm.findAndRemoveDeath now name).2 with
        | none => ml
        | some mq => ml.map fun out => mq.copyTo cursor limit out) := by
  rw [getMessages, getMessagesWith]
  rcases cm.findAndRemoveDeath now name with ⟨cm', _ | mq⟩ <;> rfl

/-! ### The queue of a channel -/

/-- The queue of a channel, or an empty one where the channel is not there. -/
def queue (name : String) (cm : ChannelMap) : MessageQueue :=
  (cm.channelMap.find? name).getD .new

@[simp] theorem queue_set (name : String) (mq : MessageQueue) (cm : ChannelMap)
    (name' : String) :
    ({ channelMap := cm.channelMap.set name mq } : ChannelMap).queue name' =
      if name' = name then mq else cm.queue name' := by
  rw [queue, OrderedMap.find?_set]
  split <;> rfl

/-- A push goes to the queue of its channel, or there is none and the message has neither a lifetime
nor a limit. -/
theorem queue_push (cm : ChannelMap) (now : TimeT) (name : String) (m : Message)
    (addr : ℕ := 0) :
    (∀ name', (cm.push now name m addr).1.queue name' =
        if name' = name then ((cm.queue name).push now (.make m.copy addr)).1
        else cm.queue name') ∨
      (cm.push now name m addr).1 = cm ∧ cm.queue name = .new ∧ m.lifetime = 0 ∧ m.limit = 0 := by
  rw [push]
  split
  · next hguard =>
    obtain ⟨habsent, hzero⟩ := (Bool.and_eq_true _ _).mp hguard
    have hfind : cm.channelMap.find? name = none := by
      simpa [OrderedMap.contains] using habsent
    refine Or.inr ⟨rfl, ?_, by simpa using hzero⟩
    rw [queue, hfind]
    rfl
  · exact Or.inl (queue_set name _ cm)

/-! ### What a reading finds and leaves -/

theorem findAndRemoveDeath_snd (now : TimeT) (name : String) (cm : ChannelMap) :
    (cm.findAndRemoveDeath now name).2 =
      ((cm.channelMap.find? name).map fun mq => mq.removeDeath now).filter fun mq => !mq.empty := by
  rw [findAndRemoveDeath]
  cases cm.channelMap.find? name with
  | none => rfl
  | some mq =>
    dsimp only [Option.map_some]
    by_cases hempty : (mq.removeDeath now).empty
    · rw [if_pos hempty, Option.filter_some, if_neg (by simp [hempty])]
    · rw [if_neg hempty, Option.filter_some, if_pos (by simp [hempty])]

theorem exists_of_findAndRemoveDeath {now : TimeT} {name : String} {cm : ChannelMap}
    {mq : MessageQueue} (h : (cm.findAndRemoveDeath now name).2 = some mq) :
    ∃ mq₀, cm.channelMap.find? name = some mq₀ ∧ mq = mq₀.removeDeath now := by
  rw [findAndRemoveDeath_snd] at h
  obtain ⟨mq₀, hfind, heq⟩ := Option.map_eq_some_iff.mp (Option.filter_eq_some_iff.mp h).1
  exact ⟨mq₀, hfind, heq.symm⟩

/-- The channel is left as it is found, and no other channel changes. -/
theorem find?_findAndRemoveDeath (now : TimeT) (name : String) (cm : ChannelMap)
    (name' : String) :
    (cm.findAndRemoveDeath now name).1.channelMap.find? name' =
      if name' = name then (cm.findAndRemoveDeath now name).2
      else cm.channelMap.find? name' := by
  rw [findAndRemoveDeath]
  cases hfind : cm.channelMap.find? name with
  | none =>
    dsimp only
    split
    · next hname => rw [hname, hfind]
    · rfl
  | some mq =>
    dsimp only
    split
    · exact OrderedMap.find?_erase ..
    · exact OrderedMap.find?_set ..

/-- What a reading finds does not depend on a reading before it at the same time. -/
theorem findAndRemoveDeath_again (now : TimeT) (name name' : String) (cm : ChannelMap) :
    ((cm.findAndRemoveDeath now name).1.findAndRemoveDeath now name').2 =
      (cm.findAndRemoveDeath now name').2 := by
  rw [findAndRemoveDeath_snd, find?_findAndRemoveDeath]
  split
  · next hname =>
    rw [hname, findAndRemoveDeath_snd]
    cases cm.channelMap.find? name with
    | none => rfl
    | some mq =>
      rw [Option.map_some, Option.filter_some]
      split
      · next hne => simp [MessageQueue.removeDeath_removeDeath, hne]
      · rfl
  · rw [findAndRemoveDeath_snd]

/-! ### What the queues hold -/

section AllStored

variable {P : String → Message → Prop} {cm : ChannelMap}

/-- Every message in the queue of a channel has the property. -/
def AllStored (P : String → Message → Prop) (cm : ChannelMap) : Prop :=
  ∀ name mq, cm.channelMap.find? name = some mq → ∀ x ∈ mq.queue, P name x.get

theorem AllStored.imp {Q : String → Message → Prop} (h : cm.AllStored P)
    (hPQ : ∀ name x, P name x → Q name x) : cm.AllStored Q :=
  fun name mq hfind x hx => hPQ name x.get (h name mq hfind x hx)

theorem AllStored.set (h : cm.AllStored P) {name : String} {mq : MessageQueue}
    (hmq : ∀ x ∈ mq.queue, P name x.get) :
    ({ channelMap := cm.channelMap.set name mq } : ChannelMap).AllStored P := by
  intro name' mq' hfind
  simp only [OrderedMap.find?_set] at hfind
  split at hfind
  · next heq =>
    obtain rfl := Option.some.inj hfind
    rwa [heq]
  · exact h name' mq' hfind

/-- `push` keeps a property that the new message has whatever its birthtime, and that survives
the rewriting by the new message. -/
theorem AllStored.push (h : cm.AllStored P) (now : TimeT) {name : String} {m : Message}
    (hborn : ∀ birthtime, P name { m with birthtime := birthtime })
    (hmodify : m.action = .modify → ∀ x, P name x → x.identity = m.identity →
      P name (x.modify m))
    (hupdate : m.action = .update → ∀ x, P name x → x.identity = m.identity →
      P name (x.update m)) :
    (cm.push now name m).1.AllStored P := by
  have hold : ∀ x ∈ ((cm.channelMap.find? name).getD .new).queue, P name x.get := by
    cases hfind : cm.channelMap.find? name with
    | none => simp [MessageQueue.new]
    | some mq => exact h name mq hfind
  simp only [ChannelMap.push]
  split
  · exact h
  · refine h.set (MessageQueue.forall_mem_push (P := fun x => P name x.get) hold ?_
      (fun hact x hx => hmodify hact x.get (hold x hx))
      (fun hact x hx => hupdate hact x.get (hold x hx)))
    rw [MessageQueue.bornAt]
    split
    · exact hborn now
    · exact hborn m.birthtime

theorem AllStored.findAndRemoveDeath (h : cm.AllStored P) (now : TimeT) (name : String) :
    (cm.findAndRemoveDeath now name).1.AllStored P ∧
      ∀ mq, (cm.findAndRemoveDeath now name).2 = some mq → ∀ x ∈ mq.queue, P name x.get := by
  have hfound : ∀ mq, (cm.findAndRemoveDeath now name).2 = some mq →
      ∀ x ∈ mq.queue, P name x.get := by
    intro mq hmq x hx
    obtain ⟨mq₀, hfind, rfl⟩ := exists_of_findAndRemoveDeath hmq
    exact h name mq₀ hfind x ((MessageQueue.removeDeath_sublist mq₀ now).subset hx)
  refine ⟨fun name' mq hmq => ?_, hfound⟩
  rw [find?_findAndRemoveDeath] at hmq
  split at hmq
  · next hname => exact hname ▸ hfound mq hmq
  · exact h name' mq hmq

/-- Reading drops messages, and what it returns was stored. -/
theorem AllStored.getMessages (h : cm.AllStored P) (cursor : CursorT) (limit : ℕ) (now : TimeT)
    (ml : List Message) (name : String) :
    (cm.getMessages cursor limit now (some ml) name).1.AllStored P ∧
      ∀ x ∈ (cm.getMessages cursor limit now (some ml) name).2.getD ml, x ∈ ml ∨ P name x := by
  obtain ⟨hcm, hlive⟩ := h.findAndRemoveDeath now name
  rw [getMessages_eq]
  refine ⟨hcm, ?_⟩
  cases hfind : (cm.findAndRemoveDeath now name).2 with
  | none => exact fun x hx => Or.inl hx
  | some mq =>
    rintro x hx
    rcases List.mem_append.mp hx with hx | hx
    · exact Or.inl hx
    · obtain ⟨y, hy, rfl⟩ := List.mem_map.mp hx
      exact Or.inr (hlive mq hfind y (List.mem_of_mem_drop hy))

end AllStored

end ChannelMap

end WfcPubsub
