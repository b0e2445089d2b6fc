import WfcPubsub.Broker.Basic

/-!
# Handlers are opaque

A broker keeps a handler for each of its subscribers and hands it out with each message, but it
never looks at one. To exchange the handlers, each for what a function makes of it, is therefore
the same before a call and after it (`Broker.step_map`).

## Main definitions

* `PubsubOp.map`, `Reply.map`, `Channel.map`, `Broker.map`

## Main results

* `Broker.step_map`
* `Broker.find?_subscribeAs`, `Broker.find?_step` : where the handlers come from.
-/

namespace WfcPubsub

variable {V H H' : Type}

/-! ### Exchanging the handlers -/

def SubscribeParams.map (f : H → H') (params : SubscribeParams H) : SubscribeParams H' where
  channel := params.channel
  cursor := params.cursor
  limit := params.limit
  handler := f params.handler

def Invocation.map (f : H → H') (call : Invocation H) : Invocation H' where
  subscriber := call.subscriber
  handler := f call.handler
  channel := call.channel
  msg := call.msg

def PubsubOp.map (f : H → H') : PubsubOp H → PubsubOp H'
  | .publish now channel msg => .publish now channel msg
  | .getMessages now params => .getMessages now (params.map f)
  | .subscribe now params => .subscribe now (params.map f)
  | .subscribeAs now id params => .subscribeAs now id (params.map f)
  | .describe id => .describe id
  | .describeChannel id channel => .describeChannel id channel
  | .reset => .reset
  | .size count => .size count
  | .emptyCount => .emptyCount
  | .getRemoved clear => .getRemoved clear
  | .subscriberCount => .subscriberCount

def Reply.map (f : H → H') : Reply H → Reply H'
  | .fired calls => .fired (calls.map (Invocation.map f))
  | .messages ml => .messages ml
  | .subscribed id ml => .subscribed id ml
  | .removed described => .removed described
  | .count n => .count n
  | .size channels held => .size channels held
  | .subscribers n => .subscribers n
  | .done => .done

/-! ### Channels -/

namespace Channel

def map (f : H → H') (ch : Channel V H) : Channel V H' where
  messages := ch.messages
  pushed := ch.pushed
  subscribers := ch.subscribers.mapValues f
  logs := ch.logs

variable (f : H → H') (ch : Channel V H)

theorem map_fire (name : String) (m : Message) :
    (ch.map f).fire name m = (ch.fire name m).map (Invocation.map f) := by
  simp only [fire, map, OrderedMap.mapValues, List.map_map]
  rfl

theorem map_log (json : Wjson V) (m : Message) : (ch.map f).log json m = (ch.log json m).map f := by
  have hroute : (ch.map f).route m.lifetime = ch.route m.lifetime := rfl
  rw [log, log, hroute]
  split <;> rfl

theorem map_keep (json : Wjson V) (opt : PubsubOptions) (now : TimeT) (m : Message) :
    (ch.map f).keep json opt now m = (ch.keep json opt now m).map f := by
  simp only [keep, map_log]
  split <;> split <;> rfl

theorem map_publish (json : Wjson V) (opt : PubsubOptions) (now : TimeT) (name : String)
    (msg : Message) :
    (ch.map f).publish json opt now name msg =
      ((ch.publish json opt now name msg).1.map f,
        (ch.publish json opt now name msg).2.map (Invocation.map f)) := by
  simp only [publish, map_keep, map_fire]
  split <;> rfl

theorem map_load (json : Wjson V) (opt : PubsubOptions) (now : TimeT) (cursor : CursorT)
    (limit : ℕ) : (ch.map f).load json opt now cursor limit = ch.load json opt now cursor limit :=
  rfl

theorem map_afterLoad (json : Wjson V) (opt : PubsubOptions) (now : TimeT) (cursor : CursorT)
    (limit : ℕ) :
    (ch.map f).afterLoad json opt now cursor limit =
      (ch.afterLoad json opt now cursor limit).map f := by
  have hreads : (ch.map f).Reads json opt now cursor limit ↔
      ch.Reads json opt now cursor limit := Iff.rfl
  simp only [afterLoad, hreads]
  split <;> rfl

theorem map_subscribe (id : SubscriberId) (handler : H) :
    (ch.map f).subscribe id (f handler) = (ch.subscribe id handler).map f := by
  simp only [subscribe, map, OrderedMap.mapValues_set]

theorem map_describe (id : SubscriberId) : (ch.map f).describe id = (ch.describe id).map f := by
  simp only [describe, map, OrderedMap.mapValues_erase]

end Channel

/-! ### The broker -/

namespace Broker

def map (f : H → H') (b : Broker V H) : Broker V H' where
  channels name := (b.channels name).map f
  opt := b.opt
  idCounter := b.idCounter

variable (f : H → H')

theorem map_setChannel (name : String) (ch : Channel V H) (b : Broker V H) :
    (b.map f).setChannel name (ch.map f) = (b.setChannel name ch).map f := by
  refine congrArg (fun channels => Broker.mk channels b.opt b.idCounter) ?_
  funext name'
  show Function.update (b.map f).channels name (ch.map f) name' =
    (Function.update b.channels name ch name').map f
  rw [Function.update_apply, Function.update_apply]
  split <;> rfl

theorem map_subscribeAs (json : Wjson V) (now : TimeT) (id : SubscriberId)
    (params : SubscribeParams H) (b : Broker V H) :
    (b.map f).subscribeAs json now id (params.map f) =
      ((b.subscribeAs json now id params).1.map f, (b.subscribeAs json now id params).2) := by
  refine Prod.ext ?_ ?_
  · show (b.map f).setChannel params.channel ((((b.channels params.channel).map f).subscribe id
      (f params.handler)).afterLoad json b.opt now params.cursor params.limit) = _
    rw [Channel.map_subscribe, Channel.map_afterLoad, map_setChannel]
    rfl
  · show (((b.channels params.channel).map f).subscribe id (f params.handler)).load json b.opt now
      params.cursor params.limit = _
    rw [Channel.map_subscribe, Channel.map_load]
    rfl

/-- **Handlers are opaque.** A call with other handlers does the same to a broker with other
handlers. -/
theorem step_map (json : Wjson V) (op : PubsubOp H) (b : Broker V H) :
    (b.map f).step json (op.map f) = ((b.step json op).1.map f, (b.step json op).2.map f) := by
  cases op with
  | publish now name msg =>
    have hpublish := Channel.map_publish f (b.channels name) json b.opt now name msg
    refine Prod.ext ?_ (congrArg Reply.fired (congrArg Prod.snd hpublish))
    show (b.map f).setChannel name (((b.channels name).map f).publish json b.opt now name msg).1 = _
    rw [hpublish, map_setChannel]
    rfl
  | getMessages now params =>
    refine Prod.ext ?_ rfl
    show (b.map f).setChannel params.channel (((b.channels params.channel).map f).afterLoad json
      b.opt now params.cursor params.limit) = _
    rw [Channel.map_afterLoad, map_setChannel]
    rfl
  | subscribe now params =>
    have hsub := map_subscribeAs f json now (b.idCounter + 1) params
      { b with idCounter := b.idCounter + 1 }
    have hstate := congrArg Prod.fst hsub
    exact Prod.ext hstate (congrArg (Reply.subscribed (b.idCounter + 1)) (congrArg Prod.snd hsub))
  | subscribeAs now id params =>
    have hsub := map_subscribeAs f json now id params b
    have hstate := congrArg Prod.fst hsub
    exact Prod.ext hstate (congrArg Reply.messages (congrArg Prod.snd hsub))
  | describe id =>
    have hchannels : (b.map f).channelsOf id = b.channelsOf id := by
      ext name
      simp only [channelsOf, map, Channel.map, OrderedMap.contains_mapValues]
    refine Prod.ext ?_ (congrArg Reply.count (congrArg Set.ncard hchannels))
    refine congrArg (fun channels => Broker.mk channels b.opt b.idCounter) ?_
    funext name
    exact Channel.map_describe f (b.channels name) id
  | describeChannel id name =>
    refine Prod.ext ?_ ?_
    · show (b.map f).setChannel name (((b.channels name).map f).describe id) = _
      rw [Channel.map_describe, map_setChannel]
      rfl
    · exact congrArg Reply.removed (OrderedMap.contains_mapValues ..)
  | subscriberCount =>
    have hsubscriptions : (b.map f).subscriptions = b.subscriptions := by
      ext p
      simp only [subscriptions, map, Channel.map, OrderedMap.contains_mapValues]
    exact Prod.ext rfl
      (congrArg (Reply.subscribers ∘ some) (congrArg Set.ncard hsubscriptions))
  | reset => rfl
  | size count => rfl
  | emptyCount => rfl
  | getRemoved clear => rfl

end Broker

/-! ### Where handlers come from -/

/-- The call adds a subscription. -/
def PubsubOp.subscribes : PubsubOp H → Bool
  | .subscribe .. | .subscribeAs .. => true
  | _ => false

namespace Channel

variable (json : Wjson V) (opt : PubsubOptions) (now : TimeT) (ch : Channel V H)

theorem subscribers_publish (name : String) (msg : Message) :
    (ch.publish json opt now name msg).1.subscribers = ch.subscribers := by
  have hlog : ∀ m, (ch.log json m).subscribers = ch.subscribers := by
    intro m
    rw [log_eq]
  rw [publish_fst]
  dsimp only
  split <;> split
  · exact hlog _
  · rfl
  · exact hlog _
  · rfl

theorem subscribers_afterLoad (cursor : CursorT) (limit : ℕ) :
    (ch.afterLoad json opt now cursor limit).subscribers = ch.subscribers := by
  rw [afterLoad]
  split <;> rfl

variable {json opt now ch}

/-- A publication calls the handlers of the subscribers, with the message, the defaults of which
may have been filled in. -/
theorem of_mem_publish {name : String} {msg : Message} {call : Invocation H}
    (h : call ∈ (ch.publish json opt now name msg).2) :
    ch.subscribers.find? call.subscriber = some call.handler ∧ call.channel = name ∧
      (call.msg = msg ∨ call.msg = Pubsub.complete opt now msg) := by
  have hfire : ∀ m, call ∈ ch.fire name m →
      ch.subscribers.find? call.subscriber = some call.handler ∧ call.channel = name ∧
        call.msg = m := by
    intro m hm
    obtain ⟨e, he, rfl⟩ := List.mem_map.mp hm
    exact ⟨OrderedMap.find?_eq_some_iff.mpr he, rfl, rfl⟩
  rw [publish] at h
  split at h
  · obtain ⟨hhandler, hname, hmsg⟩ := hfire _ h
    exact ⟨hhandler, hname, Or.inl hmsg⟩
  · obtain ⟨hhandler, hname, hmsg⟩ := hfire _ h
    exact ⟨hhandler, hname, Or.inr hmsg⟩

end Channel

namespace Broker

variable (json : Wjson V) {b : Broker V H}

theorem subscribers_setChannel (name name' : String) (ch : Channel V H) :
    ((b.setChannel name ch).channels name').subscribers =
      if name' = name then ch.subscribers else (b.channels name').subscribers := by
  rw [channels_setChannel]
  split <;> rfl

/-- A subscription through `subscribe(id, …)` has the handler it came with, the others stay. -/
theorem find?_subscribeAs (now : TimeT) (id id' : SubscriberId) (params : SubscribeParams H)
    (name : String) :
    (((b.subscribeAs json now id params).1.channels name).subscribers).find? id' =
      if name = params.channel ∧ id' = id then some params.handler
      else (b.channels name).subscribers.find? id' := by
  rw [subscribeAs, subscribers_setChannel]
  by_cases hname : name = params.channel
  · rw [if_pos hname, Channel.subscribers_afterLoad, Channel.subscribe, OrderedMap.find?_set,
      hname]
    simp only [true_and]
  · rw [if_neg hname, if_neg fun h => hname h.1]

/-- No other call brings a handler. -/
theorem find?_step {op : PubsubOp H} (hop : op.subscribes = false) {name : String}
    {id : SubscriberId} {handler : H}
    (h : ((b.step json op).1.channels name).subscribers.find? id = some handler) :
    (b.channels name).subscribers.find? id = some handler := by
  have herase : ∀ (subscribers : OrderedMap SubscriberId H) id',
      (subscribers.erase id').find? id = some handler → subscribers.find? id = some handler := by
    intro subscribers id' hid
    rw [OrderedMap.find?_erase] at hid
    split at hid
    · cases hid
    · exact hid
  cases op with
  | publish now channel msg =>
    have hchannel : ((b.step json (.publish now channel msg)).1.channels name).subscribers =
        (b.channels name).subscribers := by
      show ((b.setChannel channel ((b.channels channel).publish json b.opt now channel
        msg).1).channels name).subscribers = _
      rw [subscribers_setChannel, Channel.subscribers_publish]
      split
      · next hname => rw [hname]
      · rfl
    rwa [hchannel] at h
  | getMessages now params =>
    have hchannel : ((b.step json (.getMessages now params)).1.channels name).subscribers =
        (b.channels name).subscribers := by
      show ((b.setChannel params.channel _).channels name).subscribers = _
      rw [subscribers_setChannel, Channel.subscribers_afterLoad]
      split
      · next hname => rw [hname]
      · rfl
    rwa [hchannel] at h
  | describe id' => exact herase _ id' h
  | describeChannel id' channel =>
    replace h : ((b.setChannel channel _).channels name).subscribers.find? id = some handler := h
    rw [subscribers_setChannel] at h
    split at h
    · next hname =>
      rw [hname]
      exact herase _ id' h
    · exact h
  | reset => cases h
  | subscribe => cases hop
  | subscribeAs => cases hop
  | _ => exact h

end Broker

end WfcPubsub
