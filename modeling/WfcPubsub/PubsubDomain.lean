import WfcPubsub.PubsubMt.Delivery
import WfcPubsub.PubsubMt.Reading

/-!
# The class `pubsub_domain`

The service object over a `pubsub_mt`: it takes requests that name several channels and works
through them one by one. Its member `_pubsub` is set when the object is configured; the
methods here are given what it points to. A subscription that comes in through the service has as
its handler a weak reference to the interface of the client, so here the handlers are these
references.

Sources: `pubsub/api/publish.hpp`, `pubsub/api/subscribe.hpp`, `pubsub/api/get_messages.hpp`,
`pubsub/domain/pubsub_domain.cpp`.

## Main definitions

* `PubsubDomain.publish`, `PubsubDomain.getMessages`, `PubsubDomain.subscribe`,
  `PubsubDomain.describe`, `PubsubDomain.unregIo`, `PubsubDomain.idle`
* `PubsubMt.Subscribed` : the handlers of a client.

## Main results

* `PubsubDomain.subscribed_subscribe`, `PubsubDomain.subscribed_unregIo` : what the two do to
  the handlers.
* `PubsubDomain.getMessages_snd` : what a request that names several channels returns.
-/

namespace WfcPubsub

variable {V H : Type} {n : ℕ}

/-- `request::publish::topic`, a message and its channel. -/
structure Topic where
  channel : String
  msg : Message

/-- In some shard the client has the handler. -/
def PubsubMt.Subscribed (mt : PubsubMt V H n) (ioId : SubscriberId) (handler : H) : Prop :=
  ∃ i channel, (mt.pubsubList i).handlerMap.find? (toLex (channel, ioId)) = some handler

namespace PubsubDomain

/-! ### Methods -/

/-- `unreg_io(io_id)`. -/
def unregIo (ioId : SubscriberId) (ps : PubsubMt V H n) : PubsubMt V H n :=
  (ps.describe ioId).1

section Requests

variable [NeZero n] (hash : String → ℕ) (json : Wjson V) (now : TimeT)

/-- What `subscribe` does for one of the channels of the request. -/
def subscribeChannel (ioId : SubscriberId) (wpubsub : H) (ps : PubsubMt V H n)
    (params : SubscribeParams H) : PubsubMt V H n × List Topic :=
  let params := { params with handler := wpubsub }
  let (ps, ml) := ps.subscribeAs hash json now [] ioId params
  (ps, ml.map fun m => { channel := params.channel, msg := m })

/-- `subscribe(req, cb, io_id, wpubsub)`. -/
def subscribe (channels : List (SubscribeParams H)) (ioId : SubscriberId) (wpubsub : H)
    (ps : PubsubMt V H n) : PubsubMt V H n × List Topic :=
  channels.foldl (fun (ps, messages) params =>
    let (ps, tpks) := subscribeChannel hash json now ioId wpubsub ps params
    (ps, messages ++ tpks)) (ps, [])

/-- `get_messages(req, cb)`, with the list that it passes to the callback. -/
def getMessages (channels : List (SubscribeParams H)) (ps : PubsubMt V H n) :
    PubsubMt V H n × List Topic :=
  channels.foldl (fun (ps, messages) params =>
    let (ps, ml) := ps.getMessages hash json now [] params
    (ps, messages ++ ml.map fun m => { channel := params.channel, msg := m })) (ps, [])

/-- `publish(req, cb)`, with the handlers it calls. Each message comes with the time at which it
is published. -/
def publish (messages : List (TimeT × Topic)) (ps : PubsubMt V H n) :
    PubsubMt V H n × List (Invocation H) :=
  messages.foldl (fun (ps, calls) (now, msg) =>
    let (ps, fired) := ps.publish hash json now msg.channel msg.msg
    (ps, calls ++ fired)) (ps, [])

/-- `describe(req, cb, io_id)`. -/
def describe (channels : List String) (ioId : SubscriberId) (ps : PubsubMt V H n) :
    PubsubMt V H n :=
  channels.foldl (fun ps channel => (ps.describeChannel hash ioId channel).1) ps

/-- One request returns what the requests for its channels return one by one. -/
theorem getMessages_snd (channels : List (SubscribeParams H)) (ps : PubsubMt V H n) :
    (getMessages hash json now channels ps).2 = channels.flatMap fun params =>
      (ps.getMessages hash json now [] params).2.map (Topic.mk params.channel) := by
  have hfold : ∀ messages, (channels.foldl (fun (ps, messages) params =>
      let (ps, ml) := ps.getMessages hash json now [] params
      (ps, messages ++ ml.map fun m => { channel := params.channel, msg := m }))
        (ps, messages)).2 = messages ++ channels.flatMap fun params =>
          (ps.getMessages hash json now [] params).2.map (Topic.mk params.channel) := by
    induction channels generalizing ps with
    | nil => simp
    | cons params channels ih =>
      intro messages
      rw [List.foldl_cons, ih]
      simp only [PubsubMt.getMessages_again, List.flatMap_cons, List.append_assoc]
  exact hfold []

end Requests

/-- What the timer of `start` writes to the log. -/
structure IdleReport where
  subscribers : Option ℕ
  channels : ℕ
  messages : Option ℕ
  emptyChannel : ℕ
  removedMessages : ℕ

/-- What the timer of `start` does each time: it counts, and resets where `_debug_reset` says so;
afterwards `_debug_reset` is off. -/
def idle (debugReset : Bool) (ps : PubsubMt V H n) : PubsubMt V H n × IdleReport :=
  let subscribers := ps.subscriberCount
  let (channels, messages) := ps.size (some 0)
  let emptyChannel := ps.emptyCount
  let (ps, removedMessages) := ps.getRemoved true
  (if debugReset then ps.reset else ps,
    { subscribers := subscribers, channels := channels, messages := messages,
      emptyChannel := emptyChannel, removedMessages := removedMessages })

/-! ### The handlers of the clients -/

section Handlers

open PubsubMt (AllMirrored)

variable {ps : PubsubMt V H n}

theorem unregIo_mirrored (h : ps.AllMirrored) (ioId : SubscriberId) :
    (unregIo ioId ps).AllMirrored := by
  intro i
  rw [unregIo, PubsubMt.describe_pubsubList]
  exact (h i).describe ioId

/-- `unreg_io` takes away the handlers of the client and no others. -/
theorem subscribed_unregIo (h : ps.AllMirrored) {ioId io : SubscriberId} {handler : H} :
    (unregIo ioId ps).Subscribed io handler ↔ io ≠ ioId ∧ ps.Subscribed io handler := by
  have hfind : ∀ i channel,
      ((unregIo ioId ps).pubsubList i).handlerMap.find? (toLex (channel, io)) =
        if io = ioId then none
        else (ps.pubsubList i).handlerMap.find? (toLex (channel, io)) := by
    intro i channel
    rw [unregIo, PubsubMt.describe_pubsubList]
    exact ((h i).find?_describe ioId io channel).2
  simp only [PubsubMt.Subscribed, hfind]
  split
  · next heq => simp [heq]
  · next hne => simp [hne]

variable [NeZero n] (hash : String → ℕ) (json : Wjson V) (now : TimeT)

theorem subscribeChannel_mirrored (h : ps.AllMirrored) (ioId : SubscriberId) (wpubsub : H)
    (params : SubscribeParams H) :
    (subscribeChannel hash json now ioId wpubsub ps params).1.AllMirrored :=
  PubsubMt.lockStep_mirrored json h (.subscribe now ioId { params with handler := wpubsub })

/-- After a subscription to one channel the client has the new handler, and no handler is new
besides. -/
theorem subscribed_subscribeChannel (h : ps.AllMirrored) (ioId : SubscriberId) (wpubsub : H)
    (params : SubscribeParams H) :
    (subscribeChannel hash json now ioId wpubsub ps params).1.Subscribed ioId wpubsub ∧
      ∀ io handler,
        (subscribeChannel hash json now ioId wpubsub ps params).1.Subscribed io handler →
        io = ioId ∧ handler = wpubsub ∨ ps.Subscribed io handler := by
  set index := PubsubMt.index_ (n := n) hash params.channel with hindex
  have hself : ∀ io channel,
      ((subscribeChannel hash json now ioId wpubsub ps params).1.pubsubList index).handlerMap.find?
        (toLex (channel, io)) =
      if io = ioId ∧ channel = params.channel then some wpubsub
      else (ps.pubsubList index).handlerMap.find? (toLex (channel, io)) := by
    intro io channel
    have hlist : (subscribeChannel hash json now ioId wpubsub ps params).1.pubsubList index =
        ((ps.pubsubList index).subscribeAs json now [] ioId { params with handler := wpubsub }
          ps.sh).1 := Function.update_self ..
    rw [hlist, (h index).find?_subscribeAs]
  have hother : ∀ i, i ≠ index →
      (subscribeChannel hash json now ioId wpubsub ps params).1.pubsubList i = ps.pubsubList i :=
    fun i hi => Function.update_of_ne hi ..
  refine ⟨⟨index, params.channel, (hself ..).trans (if_pos ⟨rfl, rfl⟩)⟩, ?_⟩
  rintro io handler ⟨i, channel, hfind⟩
  by_cases hi : i = index
  · rw [hi, hself] at hfind
    split at hfind
    · next heq => exact Or.inl ⟨heq.1, (Option.some.inj hfind).symm⟩
    · exact Or.inr ⟨index, channel, hfind⟩
  · rw [hother i hi] at hfind
    exact Or.inr ⟨i, channel, hfind⟩

/-- After a request the client has the new handler if the request names a channel, and no handler
is new besides. -/
theorem subscribed_subscribe (h : ps.AllMirrored) (channels : List (SubscribeParams H))
    (ioId : SubscriberId) (wpubsub : H) :
    let out := (subscribe hash json now channels ioId wpubsub ps).1
    out.AllMirrored ∧ (channels ≠ [] → out.Subscribed ioId wpubsub) ∧
      ∀ io handler, out.Subscribed io handler →
        io = ioId ∧ handler = wpubsub ∨ ps.Subscribed io handler := by
  rw [subscribe]
  generalize ([] : List Topic) = messages
  induction channels generalizing ps messages with
  | nil => exact ⟨h, fun hne => absurd rfl hne, fun io handler hsub => Or.inr hsub⟩
  | cons params channels ih =>
    obtain ⟨hnew, hold⟩ := subscribed_subscribeChannel hash json now h ioId wpubsub params
    obtain ⟨hmirrored, hnew', hold'⟩ := ih
      (subscribeChannel_mirrored hash json now h ioId wpubsub params)
      (messages ++ (subscribeChannel hash json now ioId wpubsub ps params).2)
    refine ⟨hmirrored, fun _ => ?_, fun io handler hsub => ?_⟩
    · cases channels with
      | nil => exact hnew
      | cons => exact hnew' (List.cons_ne_nil _ _)
    · rcases hold' io handler hsub with heq | hsub'
      · exact Or.inl heq
      · exact hold io handler hsub'

end Handlers

end PubsubDomain

end WfcPubsub
