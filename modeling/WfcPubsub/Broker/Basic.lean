import WfcPubsub.Lib.PairKeys
import WfcPubsub.Pubsub.Lifetime

/-!
# A broker of independent channels

What the library is for, without shards, queues, handler indexes or databases keyed by channel:
a broker is a family of channels. A channel has its subscribers, the messages that its cache
holds and one log for each time to live. `publish` tells the subscribers, in the order of their
ids, and stores; `load` selects from the logs and the cache. A call that names a channel
concerns this channel alone, `describe` and `reset` do the same to each channel, and a call that
only counts does nothing.

`PubsubMt` is compared with it in `WfcPubsub.Broker.Refinement`.

## Main definitions

* `Channel`, `Channel.publish`, `Channel.load`
* `Broker`, `Broker.machine`

## Main results

* `Broker.moves_step` : what a call can do to a channel.
-/

namespace WfcPubsub

open Contents

variable {V H : Type}

/-- Record one more message. -/
def Rocksdb.Entry.record (json : Wjson V) (m : Message) (e : Rocksdb.Entry V) :
    Rocksdb.Entry V :=
  e.extend [json.write [m]]

/-- `publish` pushes the message to the persistent store. -/
def Pubsub.Records (opt : PubsubOptions) (m : Message) : Prop :=
  ¬ (m.lifetime = 0 ∧ m.limit = 0) ∧
    ((m.persistent || opt.persistentDefault) && !opt.rocksdbDisabled) = true

instance (opt : PubsubOptions) (m : Message) : Decidable (Pubsub.Records opt m) :=
  inferInstanceAs (Decidable (_ ∧ _))

/-! ### Channels -/

/-- A channel as its users know it: the messages in the cache, in order, and the time of the last
one stored there; the subscribers; the logs by their time to live. -/
structure Channel (V H : Type) where
  messages : List Message := []
  pushed : TimeT := 0
  subscribers : OrderedMap SubscriberId H := .empty
  logs : OrderedMap TimeT (Rocksdb.Entry V) := .empty

namespace Channel

/-- What a message finds in the cache: dead messages go first, once at each time. -/
def found (now : TimeT) (ch : Channel V H) : List Message :=
  if ch.pushed ≠ now then live now ch.messages else ch.messages

/-- Store a message in the cache. -/
def cache (now : TimeT) (m : Message) (ch : Channel V H) : Channel V H :=
  { ch with messages := store now m (ch.found now), pushed := now }

/-- The log for a lifetime: of those that keep it long enough the one that keeps it least, else
the one that keeps it longest. -/
def route (lifetime : TimeT) (ch : Channel V H) : Option TimeT :=
  (ch.logs.keys.dropWhile fun ttl => ttl < lifetime).head?.or ch.logs.keys.getLast?

/-- Store a message in its log. -/
def log (json : Wjson V) (m : Message) (ch : Channel V H) : Channel V H :=
  match ch.route m.lifetime with
  | none => ch
  | some ttl => { ch with logs := ch.logs.alter ttl (Option.map (Rocksdb.Entry.record json m)) }

/-- Tell the subscribers of a message. -/
def fire (name : String) (m : Message) (ch : Channel V H) : List (Invocation H) :=
  ch.subscribers.entries.map fun e =>
    { subscriber := e.1, handler := e.2, channel := name, msg := m }

section Storing

variable (json : Wjson V) (opt : PubsubOptions) (now : TimeT)

/-- Store a message that has its defaults filled in, where the options and its own flag say. -/
def keep (m : Message) (ch : Channel V H) : Channel V H :=
  let ch := if (m.persistent || opt.persistentDefault) && !opt.rocksdbDisabled then ch.log json m
    else ch
  if !opt.cacheDisabled && !m.persistent then ch.cache now m else ch

/-- Publish a message; one with neither a lifetime nor a limit is not stored. -/
def publish (name : String) (msg : Message) (ch : Channel V H) :
    Channel V H × List (Invocation H) :=
  if msg.lifetime = 0 ∧ msg.limit = 0 then (ch, ch.fire name msg)
  else
    let msg := Pubsub.complete opt now msg
    (ch.keep json opt now msg, ch.fire name msg)

/-- What `publish` leaves, store by store. -/
theorem publish_fst (name : String) (msg : Message) (ch : Channel V H) :
    (ch.publish json opt now name msg).1 =
      let m := Pubsub.complete opt now msg
      let logged := if Pubsub.Records opt msg then ch.log json m else ch
      if Pubsub.Caches opt msg then logged.cache now m else logged := by
  rw [publish]
  by_cases hzero : msg.lifetime = 0 ∧ msg.limit = 0
  · simp only [Pubsub.Records, Pubsub.Caches, hzero, not_true_eq_false, false_and, if_true,
      if_false, and_self]
  · have hrecords : Pubsub.Records opt msg ↔
        ((msg.persistent || opt.persistentDefault) && !opt.rocksdbDisabled) = true :=
      and_iff_right hzero
    have hcaches : Pubsub.Caches opt msg ↔ (!opt.cacheDisabled && !msg.persistent) = true := by
      rw [Pubsub.Caches, and_iff_right hzero]
      simp
    rw [if_neg hzero]
    simp only [keep, Pubsub.complete_persistent, hrecords, hcaches]

/-- A record changes nothing but a log. -/
theorem log_eq (m : Message) (ch : Channel V H) :
    ch.log json m = { ch with logs := (ch.log json m).logs } := by
  rw [log]
  split <;> rfl

theorem messages_publish (name : String) (msg : Message) (ch : Channel V H) :
    (ch.publish json opt now name msg).1.messages =
      if Pubsub.Caches opt msg then store now (Pubsub.complete opt now msg) (ch.found now)
      else ch.messages := by
  have hlogged : ∀ m, (if Pubsub.Records opt msg then ch.log json m else ch).messages =
      ch.messages ∧ (if Pubsub.Records opt msg then ch.log json m else ch).found now =
        ch.found now := by
    intro m
    split
    · rw [log_eq]
      exact ⟨rfl, rfl⟩
    · exact ⟨rfl, rfl⟩
  rw [publish_fst]
  dsimp only
  split
  · exact congrArg (store now _) (hlogged _).2
  · exact (hlogged _).1

variable (cursor : CursorT) (limit : ℕ)

/-- What the logs hold. -/
def logged (ch : Channel V H) : List (List Message) :=
  if opt.rocksdbDisabled then [] else ch.logs.entries.map fun e => e.2.held json now

/-- The logs have given something, and that is enough. -/
def answered (ch : Channel V H) : Bool :=
  opt.persistentDefault && !((ch.logged json opt now).flatMap (select cursor limit)).isEmpty

/-- A reading gets to the cache. -/
def Reads (ch : Channel V H) : Prop :=
  ch.answered json opt now cursor limit = false ∧ opt.cacheDisabled = false

instance (ch : Channel V H) : Decidable (ch.Reads json opt now cursor limit) :=
  inferInstanceAs (Decidable (_ ∧ _))

/-- Load messages: each store selects from what it holds. -/
def load (ch : Channel V H) : List Message :=
  (ch.logged json opt now ++
    if ch.Reads json opt now cursor limit then [live now ch.messages] else []).flatMap
      (select cursor limit)

/-- What loading leaves: the dead messages go, and an empty cache is forgotten. -/
def expire (ch : Channel V H) : Channel V H :=
  { ch with
    messages := live now ch.messages
    pushed := if (live now ch.messages).isEmpty then 0 else ch.pushed }

def afterLoad (ch : Channel V H) : Channel V H :=
  if ch.Reads json opt now cursor limit then ch.expire now else ch

end Storing

/-- Subscribe, in the place of an earlier subscription. -/
def subscribe (id : SubscriberId) (handler : H) (ch : Channel V H) : Channel V H :=
  { ch with subscribers := ch.subscribers.set id handler }

/-- End a subscription. -/
def describe (id : SubscriberId) (ch : Channel V H) : Channel V H :=
  { ch with subscribers := ch.subscribers.erase id }

/-- All that a reset leaves are the logs. -/
def reset (ch : Channel V H) : Channel V H := { logs := ch.logs }

end Channel

/-! ### The broker -/

/-- The channels, the options and the last id given out. -/
structure Broker (V H : Type) where
  channels : String → Channel V H
  opt : PubsubOptions
  idCounter : SubscriberId

namespace Broker

/-- Replace one channel. -/
def setChannel (name : String) (ch : Channel V H) (b : Broker V H) : Broker V H :=
  { b with channels := Function.update b.channels name ch }

theorem channels_setChannel (name : String) (ch : Channel V H) (b : Broker V H) (name' : String) :
    (b.setChannel name ch).channels name' = if name' = name then ch else b.channels name' :=
  Function.update_apply ..

@[simp] theorem channels_setChannel_self (name : String) (ch : Channel V H) (b : Broker V H) :
    (b.setChannel name ch).channels name = ch :=
  Function.update_self ..

/-- Do the same to each channel. -/
def forEach (f : Channel V H → Channel V H) (b : Broker V H) : Broker V H :=
  { b with channels := fun name => f (b.channels name) }

/-- The channels with a subscription of `id`. -/
def channelsOf (id : SubscriberId) (b : Broker V H) : Set String :=
  {name | (b.channels name).subscribers.contains id}

/-- All subscriptions. -/
def subscriptions (b : Broker V H) : Set (String × SubscriberId) :=
  {p | (b.channels p.1).subscribers.contains p.2}

variable (json : Wjson V)

/-- Subscribe to a channel and load from it. -/
def subscribeAs (now : TimeT) (id : SubscriberId) (params : SubscribeParams H)
    (b : Broker V H) : Broker V H × List Message :=
  let ch := (b.channels params.channel).subscribe id params.handler
  (b.setChannel params.channel (ch.afterLoad json b.opt now params.cursor params.limit),
    ch.load json b.opt now params.cursor params.limit)

open Classical in
/-- What the broker does for a call of `pubsub`. -/
noncomputable def step (b : Broker V H) : PubsubOp H → Broker V H × Reply H
  | .publish now name msg =>
    let (ch, calls) := (b.channels name).publish json b.opt now name msg
    (b.setChannel name ch, .fired calls)
  | .getMessages now params =>
    let ch := b.channels params.channel
    (b.setChannel params.channel (ch.afterLoad json b.opt now params.cursor params.limit),
      .messages (ch.load json b.opt now params.cursor params.limit))
  | .subscribe now params =>
    let id := b.idCounter + 1
    let (b, ml) := subscribeAs json now id params { b with idCounter := id }
    (b, .subscribed id ml)
  | .subscribeAs now id params =>
    let (b, ml) := b.subscribeAs json now id params
    (b, .messages ml)
  | .describe id => (b.forEach (Channel.describe id), .count (b.channelsOf id).ncard)
  | .describeChannel id name =>
    let ch := b.channels name
    (b.setChannel name (ch.describe id), .removed (ch.subscribers.contains id))
  | .reset => (b.forEach Channel.reset, .done)
  | .subscriberCount => (b, .subscribers (some b.subscriptions.ncard))
  | _ => (b, .done)

@[simp] theorem step_opt (b : Broker V H) (op : PubsubOp H) : (b.step json op).1.opt = b.opt := by
  cases op <;> rfl

end Broker

/-- The call publishes on the channel, or resets all. -/
def PubsubOp.changes (name : String) : PubsubOp H → Bool
  | .publish _ channel _ => channel == name
  | .reset => true
  | _ => false

/-- The message that a call publishes on the channel, with its defaults filled in. -/
def PubsubOp.arrival (opt : PubsubOptions) (name : String) : PubsubOp H → Option Message
  | .publish now channel msg =>
    if channel = name then some (Pubsub.complete opt now msg) else none
  | _ => none

theorem PubsubOp.arrival_eq_none {opt : PubsubOptions} {name : String} {op : PubsubOp H}
    (h : op.changes name = false) : op.arrival opt name = none := by
  cases op with
  | publish now channel msg => exact if_neg (beq_eq_false_iff_ne.mp h)
  | _ => rfl

/-- What a call can do to a channel. -/
inductive Channel.Moves (json : Wjson V) (opt : PubsubOptions) (name : String)
    (ch : Channel V H) : PubsubOp H → Channel V H → Prop
  | publish (now : TimeT) (msg : Message) :
    Moves json opt name ch (.publish now name msg) (ch.publish json opt now name msg).1
  | same {op : PubsubOp H} (hop : op.changes name = false) : Moves json opt name ch op ch
  | load {op : PubsubOp H} {now : TimeT} (hop : op.changes name = false)
    (hclock : now ∈ op.clock) (cursor : CursorT) (limit : ℕ) :
    Moves json opt name ch op (ch.afterLoad json opt now cursor limit)
  | subscribe {op : PubsubOp H} {now : TimeT} (hop : op.changes name = false)
    (hclock : now ∈ op.clock) (id : SubscriberId) (handler : H) (cursor : CursorT) (limit : ℕ) :
    Moves json opt name ch op ((ch.subscribe id handler).afterLoad json opt now cursor limit)
  | describe {op : PubsubOp H} (hop : op.changes name = false) (id : SubscriberId) :
    Moves json opt name ch op (ch.describe id)
  | reset : Moves json opt name ch .reset ch.reset

namespace Broker

variable (json : Wjson V)

/-- A call that names a channel, seen from any channel. -/
private theorem moves_setChannel {b : Broker V H} {op : PubsubOp H} {name channel : String}
    {ch : Channel V H} (hother : channel ≠ name → op.changes name = false)
    (hself : channel = name → (b.channels name).Moves json b.opt name op ch) :
    (b.channels name).Moves json b.opt name op ((b.setChannel channel ch).channels name) := by
  rw [channels_setChannel]
  split
  · next hname => exact hself hname.symm
  · next hname => exact .same (hother (Ne.symm hname))

theorem moves_step (b : Broker V H) (op : PubsubOp H) (name : String) :
    (b.channels name).Moves json b.opt name op ((b.step json op).1.channels name) := by
  cases op with
  | publish now channel msg =>
    refine moves_setChannel json (fun h => beq_eq_false_iff_ne.mpr h) fun h => ?_
    subst h
    exact .publish now msg
  | getMessages now params =>
    refine moves_setChannel json (fun _ => rfl) fun h => ?_
    rw [h]
    exact .load rfl rfl params.cursor params.limit
  | subscribe now params =>
    refine moves_setChannel (b := { b with idCounter := b.idCounter + 1 }) json (fun _ => rfl)
      fun h => ?_
    rw [h]
    exact .subscribe rfl rfl (b.idCounter + 1) params.handler params.cursor params.limit
  | subscribeAs now id params =>
    refine moves_setChannel json (fun _ => rfl) fun h => ?_
    rw [h]
    exact .subscribe rfl rfl id params.handler params.cursor params.limit
  | describe id => exact .describe rfl id
  | describeChannel id channel =>
    refine moves_setChannel json (fun _ => rfl) fun h => ?_
    rw [h]
    exact .describe rfl id
  | reset => exact .reset
  | size count => exact .same rfl
  | emptyCount => exact .same rfl
  | getRemoved reset => exact .same rfl
  | subscriberCount => exact .same rfl

/-- The broker driven by its callers. -/
noncomputable def machine : Machine (Broker V H) (PubsubOp H) (Reply H) where
  step := step json

end Broker

end WfcPubsub
