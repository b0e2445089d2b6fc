import WfcPubsub.MessageQueue.Specification
import WfcPubsub.Pubsub.Loading

/-!
# What a call does to a channel of the cache

`publish` completes a message and pushes it to the queue of its channel, if it has a lifetime or
a limit, the cache is enabled and the message is not persistent. Every other call leaves the
messages of a channel alone or lets the dead ones go.

The message that the comments on `message_queue::push` describe for a removal, one with an
identity and nothing else, has neither lifetime nor limit. It does not get to the queue.

## Main definitions

* `ChannelMap.foundAt`, `Pubsub.Caches`

## Main results

* `Pubsub.messages_publish`, `Pubsub.messages_getMessages` : the messages of a channel behind a
  call.
* `Pubsub.removes_by_identity_iff` : such a removal leaves the messages of its identity.
-/

namespace WfcPubsub

open Contents

/-- A message without a limit leaves nothing. -/
theorem Contents.store_of_limit_eq_zero {m : Message} (h : m.limit = 0) (now : TimeT)
    (q : List Message) : store now m q = [] := by
  rw [store, h, List.rtake_zero, Message.unlimited, h]
  simp

namespace ChannelMap

variable {cm : ChannelMap}

/-- The messages of a channel that a push at `now` finds. -/
def foundAt (now : TimeT) (name : String) (cm : ChannelMap) : List Message :=
  ((cm.channelMap.find? name).getD .new).foundAt now

theorem foundAt_sublist (now : TimeT) (name : String) (cm : ChannelMap) :
    (cm.foundAt now name).Sublist (cm.messages name) :=
  MessageQueue.foundAt_sublist now _

theorem WellFormed.ordered_foundAt (h : cm.WellFormed) (now : TimeT) (name : String) :
    Ordered (cm.foundAt now name) :=
  (h.queue name).ordered_foundAt now

@[simp] theorem messages_set (name : String) (mq : MessageQueue) (cm : ChannelMap)
    (name' : String) :
    ({ channelMap := cm.channelMap.set name mq } : ChannelMap).messages name' =
      if name' = name then mq.messages else cm.messages name' := by
  rw [messages, OrderedMap.find?_set]
  split
  · rfl
  · rfl

/-- A push stores the message on its channel, and no other channel changes. Where there is no
channel and none is made, there is nothing to store. -/
theorem WellFormed.messages_push_eq (h : cm.WellFormed) (now : TimeT) (name : String)
    (m : Message) (name' : String) :
    (cm.push now name m).1.messages name' =
      if name' = name then store now m (cm.foundAt now name) else cm.messages name' := by
  rw [ChannelMap.push]
  split
  · next hguard =>
    obtain ⟨habsent, hzero⟩ := (Bool.and_eq_true _ _).mp hguard
    have hlimit : m.limit = 0 := by simpa using ((Bool.and_eq_true _ _).mp hzero).2
    have hfind : cm.channelMap.find? name = none := by
      simpa [OrderedMap.contains] using habsent
    have hnil : cm.messages name = [] := by
      rw [messages, hfind]
      rfl
    rw [store_of_limit_eq_zero hlimit]
    split
    · next hname => rw [hname, hnil]
    · rfl
  · rw [messages_set]
    exact if_congr Iff.rfl (MessageQueue.messages_push (h.queue name) now _) rfl

/-- A reading lets the dead messages of its channel go, and no other channel changes. -/
theorem WellFormed.messages_findAndRemoveDeath (h : cm.WellFormed) (now : TimeT)
    (name name' : String) :
    (cm.findAndRemoveDeath now name).1.messages name' =
      if name' = name then live now (cm.messages name) else cm.messages name' := by
  rw [messages, find?_findAndRemoveDeath]
  split
  · exact h.messages_found now name
  · rfl

theorem messages_getRemoved (reset : Bool) (cm : ChannelMap) (name : String) :
    (cm.getRemoved reset).1.messages name = cm.messages name := by
  rw [messages, getRemoved, OrderedMap.find?_mapValues, messages]
  cases cm.channelMap.find? name with
  | none => rfl
  | some mq => cases reset <;> rfl

end ChannelMap

variable {V H : Type}

namespace Pubsub

/-- `publish` pushes the message to the cache. -/
def Caches (opt : PubsubOptions) (m : Message) : Prop :=
  ¬ (m.lifetime = 0 ∧ m.limit = 0) ∧ opt.cacheDisabled = false ∧ m.persistent = false

instance (opt : PubsubOptions) (m : Message) : Decidable (Caches opt m) :=
  inferInstanceAs (Decidable (_ ∧ _ ∧ _))

@[simp] theorem complete_persistent (opt : PubsubOptions) (now : TimeT) (m : Message) :
    (complete opt now m).persistent = m.persistent := by
  simp only [complete]
  split_ifs <;> rfl

variable {ps : Pubsub H}

/-- `publish` stores the completed message on its channel, or changes no channel at all. -/
theorem messages_publish (h : ps.channelMap.WellFormed) (json : Wjson V) (now : TimeT)
    (channel : String) (m : Message) (sh : Shared V) (name : String) :
    (ps.publish json now channel m sh).1.channelMap.messages name =
      if name = channel ∧ Caches ps.opt m then
        Contents.store now (complete ps.opt now m) (ps.channelMap.foundAt now channel)
      else ps.channelMap.messages name := by
  have haccept : !(m.lifetime == 0 && m.limit == 0) ↔ ¬ (m.lifetime = 0 ∧ m.limit = 0) := by
    rw [Bool.not_eq_true', ← Bool.not_eq_true, Bool.and_eq_true, beq_iff_eq, beq_iff_eq]
  have hcache : (!ps.opt.cacheDisabled && !(complete ps.opt now m).persistent) ↔
      ps.opt.cacheDisabled = false ∧ m.persistent = false := by
    rw [complete_persistent]
    simp
  rw [publish]
  by_cases hstored : ¬ (m.lifetime = 0 ∧ m.limit = 0)
  · rw [if_pos (haccept.mpr hstored)]
    dsimp only
    rw [pushCache]
    by_cases hcached : ps.opt.cacheDisabled = false ∧ m.persistent = false
    · rw [if_pos (hcache.mpr hcached)]
      exact (h.messages_push_eq now channel _ name).trans
        (if_congr (and_iff_left ⟨hstored, hcached⟩).symm rfl rfl)
    · rw [if_neg fun h => hcached (hcache.mp h), if_neg fun h => hcached h.2.2]
  · rw [if_neg fun h => hstored (haccept.mp h), if_neg fun h => hstored h.2.1]

/-- A reading lets dead messages go, or does not get to the cache. -/
theorem messages_getMessages (h : ps.channelMap.WellFormed) (json : Wjson V) (now : TimeT)
    (ml : List Message) (params : SubscribeParams H) (sh : Shared V) :
    (∀ name, (ps.getMessages json now ml params sh).1.channelMap.messages name =
        if name = params.channel then live now (ps.channelMap.messages name)
        else ps.channelMap.messages name) ∨
      (ps.getMessages json now ml params sh).1.channelMap = ps.channelMap := by
  rcases getMessages_fst json now ml params ps sh with hread | hread
  · exact Or.inr (by rw [hread])
  · refine Or.inl fun name => ?_
    rw [hread, h.messages_findAndRemoveDeath]
    split
    · next hname => rw [hname]
    · rfl

/-! ### A removal by identity alone -/

/-- A message with neither lifetime nor limit is delivered, and changes nothing. -/
theorem publish_of_zero (json : Wjson V) (now : TimeT) (channel : String) {m : Message}
    (hlife : m.lifetime = 0) (hlimit : m.limit = 0) (ps : Pubsub H) (sh : Shared V) :
    ps.publish json now channel m sh = (ps, sh, ps.fire_ channel m) := by
  rw [publish, if_neg (by simp [hlife, hlimit])]

/-- **When naming the identity is enough.** Publishing a removal with an identity and all other
fields at their defaults leaves no message of the identity, and all others that live, if and only
if there was no message of the identity before. -/
theorem removes_by_identity_iff (json : Wjson V) (now : TimeT) (channel : String)
    (identity : IdentityT) (ps : Pubsub H) (sh : Shared V) :
    let m : Message := { action := .remove, identity := identity }
    let before := ps.channelMap.messages channel
    let after := (ps.publish json now channel m sh).1.channelMap.messages channel
    let others := fun q : List Message =>
      q.filter fun x => x.identity ≠ identity ∧ now ≤ x.deathtime
    ((∀ x ∈ after, x.identity ≠ identity) ∧ others after = others before) ↔
      ∀ x ∈ before, x.identity ≠ identity := by
  intro m before after others
  have hsame : after = before := by
    simp only [after]
    rw [publish_of_zero json now channel rfl rfl ps sh]
  rw [hsame]
  exact and_iff_left rfl

/-- The message to be removed is still there. -/
theorem not_removes_by_identity :
    let s := (PubsubState.machine .plain).run (.new {} {} : PubsubState _ Unit)
      [.publish 100 "channel" { identity := "a", limit := 10, lifetime := 60 }]
    let m : Message := { action := .remove, identity := "a" }
    s.ps.opt.cacheDisabled = false ∧ s.sh.rocksdb.isNone ∧
    ∃ x ∈ (s.ps.publish .plain 101 "channel" m s.sh).1.channelMap.messages "channel",
      x.identity = "a" := by
  decide

end Pubsub

end WfcPubsub
