import WfcPubsub.Rocksdb.Basic
import Mathlib.Data.Prod.Lex

/-!
# The class `pubsub`

One shard: its channels, its handlers and the index of its subscribers. What several shards
share, the persistent store behind the pointer `_rocksdb` and the static counter
`_id_counter`, is the separate state `Shared` and is passed along. The clock is an argument.

A handler is an opaque value of a type `H`. A call of a handler cannot change the state, so a
method that fires handlers returns the list of the calls it makes, in order.

Sources: `pubsub/pubsub_options.hpp`, `pubsub/api/subscribe_params.hpp`, `pubsub/pubsub.hpp`,
`pubsub/pubsub.cpp`.
-/

namespace WfcPubsub

/-- `struct pubsub_options`. -/
structure PubsubOptions where
  persistentDefault : Bool := false
  rocksdbDisabled : Bool := false
  cacheDisabled : Bool := false
  defaultLifetime : TimeT := 60
  defaultLimit : ℕ := 10
  hashSize : ℕ := 64

/-- `struct subscribe_params`. -/
structure SubscribeParams (H : Type) where
  channel : String
  cursor : CursorT := 1
  limit : ℕ := 0
  handler : H

/-- A call of a handler, with the subscriber under whose key the handler is registered. -/
structure Invocation (H : Type) where
  subscriber : SubscriberId
  handler : H
  channel : String
  msg : Message

/-- What all shards share: the store that `_rocksdb` points to, `none` for a null pointer, and
`_id_counter`. -/
structure Shared (V : Type) where
  rocksdb : Option (MultiRocksdb V) := none
  idCounter : SubscriberId := 0

/-- `std::pair<std::string, subscriber_id_t>` with its lexicographic order. -/
abbrev ChannelSubscriber := String ×ₗ SubscriberId

/-- `std::pair<subscriber_id_t, std::string>` with its lexicographic order. -/
abbrev SubscriberChannel := SubscriberId ×ₗ String

/-- `class pubsub`. -/
structure Pubsub (H : Type) where
  channelMap : ChannelMap := .new
  handlerMap : OrderedMap ChannelSubscriber H := .empty
  subscriberSet : OrderedSet SubscriberChannel := .empty
  opt : PubsubOptions := {}

variable {V H : Type}

namespace Pubsub

/-- The constructor, followed by `reconfigure`. -/
def new (opt : PubsubOptions) : Pubsub H := { opt := opt }

/-! ### Publishing -/

/-- What `publish` fills in before it stores a message. -/
def complete (opt : PubsubOptions) (now : TimeT) (msg : Message) : Message :=
  let msg := if msg.birthtime == 0 then { msg with birthtime := now } else msg
  let msg := if msg.lifetime == 0 then { msg with lifetime := opt.defaultLifetime } else msg
  if msg.limit == 0 then { msg with limit := opt.defaultLimit } else msg

/-- The part of `publish` that pushes to the persistent store. -/
def pushRocksdb (json : Wjson V) (opt : PubsubOptions) (channel : String) (msg : Message)
    (sh : Shared V) : Shared V :=
  if msg.persistent || opt.persistentDefault then
    if opt.rocksdbDisabled then sh
    else { sh with rocksdb := sh.rocksdb.map fun db => (db.push json channel msg).1 }
  else sh

/-- The part of `publish` that pushes to the cache. -/
def pushCache (now : TimeT) (channel : String) (msg : Message) (ps : Pubsub H) : Pubsub H :=
  if !ps.opt.cacheDisabled && !msg.persistent then
    { ps with channelMap := (ps.channelMap.push now channel msg).1 }
  else ps

/-- `fire_`: call the handlers of the channel, from `lower_bound({channel, 0})` on. -/
def fire_ (channel : String) (msg : Message) (ps : Pubsub H) : List (Invocation H) :=
  (ps.handlerMap.rangeFrom (toLex (channel, 0)) fun k => (ofLex k).1 == channel).map fun e =>
    { subscriber := (ofLex e.1).2, handler := e.2, channel := channel, msg := msg }

/-- `publish`. -/
def publish (json : Wjson V) (now : TimeT) (channel : String) (msg : Message)
    (ps : Pubsub H) (sh : Shared V) : Pubsub H × Shared V × List (Invocation H) :=
  if !(msg.lifetime == 0 && msg.limit == 0) then
    let msg := complete ps.opt now msg
    let sh := pushRocksdb json ps.opt channel msg sh
    let ps := ps.pushCache now channel msg
    (ps, sh, ps.fire_ channel msg)
  else (ps, sh, ps.fire_ channel msg)

/-! ### Reading -/

/-- The part of `get_messages` that reads the cache. -/
def getCached (now : TimeT) (ml : List Message) (params : SubscribeParams H) (ps : Pubsub H) :
    Pubsub H × List Message :=
  if ps.opt.cacheDisabled then (ps, ml)
  else
    let (cm, out) := ps.channelMap.getMessages params.cursor params.limit now (some ml)
      params.channel
    ({ ps with channelMap := cm }, out.getD ml)

/-- The store that `publish` and `get_messages` may use. -/
def store (opt : PubsubOptions) (sh : Shared V) : Option (MultiRocksdb V) :=
  if opt.rocksdbDisabled then none else sh.rocksdb

/-- `get_messages`. -/
def getMessages (json : Wjson V) (now : TimeT) (ml : List Message) (params : SubscribeParams H)
    (ps : Pubsub H) (sh : Shared V) : Pubsub H × List Message :=
  match store ps.opt sh with
  | some db =>
    let ml := (db.getMessages json now ml params.channel params.cursor params.limit).2
    if !ml.isEmpty && ps.opt.persistentDefault then (ps, ml) else ps.getCached now ml params
  | none => ps.getCached now ml params

/-- What `get_messages` does to the object: nothing, or it has got to the cache and taken the
dead messages of the channel away. -/
theorem getMessages_fst (json : Wjson V) (now : TimeT) (ml : List Message)
    (params : SubscribeParams H) (ps : Pubsub H) (sh : Shared V) :
    (ps.getMessages json now ml params sh).1 = ps ∨
      (ps.getMessages json now ml params sh).1 =
        { ps with channelMap := (ps.channelMap.findAndRemoveDeath now params.channel).1 } := by
  have hcached : ∀ ml, (ps.getCached now ml params).1 = ps ∨
      (ps.getCached now ml params).1 =
        { ps with channelMap := (ps.channelMap.findAndRemoveDeath now params.channel).1 } := by
    intro ml
    rw [getCached]
    split
    · exact Or.inl rfl
    · exact Or.inr (by rw [ChannelMap.getMessages_eq])
  rw [getMessages]
  split
  · dsimp only
    split
    · exact Or.inl rfl
    · exact hcached _
  · exact hcached ml

/-- What a reading returns does not depend on a reading before it at the same time. -/
theorem getMessages_again (json : Wjson V) (now : TimeT) (ml ml' : List Message)
    (params params' : SubscribeParams H) (ps : Pubsub H) (sh : Shared V) :
    ((ps.getMessages json now ml params sh).1.getMessages json now ml' params' sh).2 =
      (ps.getMessages json now ml' params' sh).2 := by
  rcases getMessages_fst json now ml params ps sh with hread | hread
  · rw [hread]
  · rw [hread]
    set cm := (ps.channelMap.findAndRemoveDeath now params.channel).1 with hcm
    have hcached : ∀ ml, (getCached now ml params' { ps with channelMap := cm }).2 =
        (ps.getCached now ml params').2 := by
      intro ml
      simp only [getCached]
      split
      · rfl
      · simp only [ChannelMap.getMessages_eq, hcm, ChannelMap.findAndRemoveDeath_again]
    simp only [getMessages]
    split
    · split
      · rfl
      · exact hcached _
    · exact hcached ml'

/-! ### Subscriptions -/

/-- `describe_(id, channel)`. -/
def describe_ (id : SubscriberId) (channel : String) (ps : Pubsub H) : Pubsub H × Bool :=
  match ps.subscriberSet.lowerBound (toLex (id, channel)) with
  | [] => (ps, false)
  | itr :: _ =>
    if (ofLex itr.1).1 ≠ id ∨ (ofLex itr.1).2 ≠ channel then (ps, false)
    else
      ({ ps with
        handlerMap := ps.handlerMap.erase (toLex ((ofLex itr.1).2, (ofLex itr.1).1))
        subscriberSet := ps.subscriberSet.erase itr.1 }, true)

/-- `subscribe_(id, channel, handler)`. -/
def subscribe_ (id : SubscriberId) (channel : String) (handler : H) (ps : Pubsub H) :
    Pubsub H × Bool :=
  ({ ps with
    subscriberSet := ps.subscriberSet.insert (toLex (id, channel)) ()
    handlerMap := ps.handlerMap.insert (toLex (channel, id)) handler },
    !ps.handlerMap.contains (toLex (channel, id)))

/-- `describe(id, channel)`. -/
def describeChannel (id : SubscriberId) (channel : String) (ps : Pubsub H) : Pubsub H × Bool :=
  ps.describe_ id channel

/-- `describe(id)`: erase the handlers while walking over the subscriptions of `id`, then
erase the range walked over. -/
def describe (id : SubscriberId) (ps : Pubsub H) : Pubsub H × ℕ :=
  let range := ps.subscriberSet.rangeFrom (toLex (id, "")) fun k => (ofLex k).1 == id
  ({ ps with
    handlerMap := range.foldl
      (fun hm itr => hm.erase (toLex ((ofLex itr.1).2, (ofLex itr.1).1))) ps.handlerMap
    subscriberSet := ps.subscriberSet.eraseRangeFrom (toLex (id, "")) fun k =>
      (ofLex k).1 == id },
    range.length)

/-- `subscribe(ml, id, params)`. -/
def subscribeAs (json : Wjson V) (now : TimeT) (ml : List Message) (id : SubscriberId)
    (params : SubscribeParams H) (ps : Pubsub H) (sh : Shared V) : Pubsub H × List Message :=
  let ps := (ps.describe_ id params.channel).1
  let ps := (ps.subscribe_ id params.channel params.handler).1
  ps.getMessages json now ml params sh

/-- `subscribe(ml, params)`, which takes the id from the shared counter. -/
def subscribe (json : Wjson V) (now : TimeT) (ml : List Message) (params : SubscribeParams H)
    (ps : Pubsub H) (sh : Shared V) : Pubsub H × Shared V × List Message × SubscriberId :=
  let sh := { sh with idCounter := sh.idCounter + 1 }
  let (ps, ml) := ps.subscribeAs json now ml sh.idCounter params sh
  (ps, sh, ml, sh.idCounter)

/-! ### Statistics -/

/-- `subscriber_count`; `none` is the call of `abort()`. -/
def subscriberCount (ps : Pubsub H) : Option ℕ :=
  if ps.handlerMap.size ≠ ps.subscriberSet.size then none else some ps.handlerMap.size

def size (count : Option ℕ) (ps : Pubsub H) : ℕ × Option ℕ := ps.channelMap.size count

def getRemoved (reset : Bool) (ps : Pubsub H) : Pubsub H × ℕ :=
  let (cm, n) := ps.channelMap.getRemoved reset
  ({ ps with channelMap := cm }, n)

def emptyCount (ps : Pubsub H) : ℕ := ps.channelMap.emptyCount

def reset (ps : Pubsub H) : Pubsub H :=
  { ps with subscriberSet := .empty, handlerMap := .empty, channelMap := ps.channelMap.clear }

end Pubsub

/-! ### Runs -/

/-- A call of a public method; an output list starts empty. -/
inductive PubsubOp (H : Type)
  | publish (now : TimeT) (channel : String) (msg : Message)
  | getMessages (now : TimeT) (params : SubscribeParams H)
  | subscribe (now : TimeT) (params : SubscribeParams H)
  | subscribeAs (now : TimeT) (id : SubscriberId) (params : SubscribeParams H)
  | describe (id : SubscriberId)
  | describeChannel (id : SubscriberId) (channel : String)
  | reset
  | size (count : Option ℕ)
  | emptyCount
  | getRemoved (reset : Bool)
  | subscriberCount

/-- What a call gives back to the caller, and the handlers it calls. -/
inductive Reply (H : Type)
  | fired (calls : List (Invocation H))
  | messages (ml : List Message)
  | subscribed (id : SubscriberId) (ml : List Message)
  | removed (described : Bool)
  | count (n : ℕ)
  | size (channels : ℕ) (count : Option ℕ)
  | subscribers (n : Option ℕ)
  | done

/-- A `pubsub` object and what it shares with others. -/
structure PubsubState (V H : Type) where
  ps : Pubsub H
  sh : Shared V

namespace PubsubState

/-- An object just constructed and configured. -/
def new (opt : PubsubOptions) (sh : Shared V) : PubsubState V H := ⟨.new opt, sh⟩

def step (json : Wjson V) (s : PubsubState V H) : PubsubOp H → PubsubState V H × Reply H
  | .publish now channel msg =>
    let (ps, sh, calls) := s.ps.publish json now channel msg s.sh
    (⟨ps, sh⟩, .fired calls)
  | .getMessages now params =>
    let (ps, ml) := s.ps.getMessages json now [] params s.sh
    (⟨ps, s.sh⟩, .messages ml)
  | .subscribe now params =>
    let (ps, sh, ml, id) := s.ps.subscribe json now [] params s.sh
    (⟨ps, sh⟩, .subscribed id ml)
  | .subscribeAs now id params =>
    let (ps, ml) := s.ps.subscribeAs json now [] id params s.sh
    (⟨ps, s.sh⟩, .messages ml)
  | .describe id =>
    let (ps, n) := s.ps.describe id
    (⟨ps, s.sh⟩, .count n)
  | .describeChannel id channel =>
    let (ps, found) := s.ps.describeChannel id channel
    (⟨ps, s.sh⟩, .removed found)
  | .reset => (⟨s.ps.reset, s.sh⟩, .done)
  | .size count =>
    let (n, count) := s.ps.size count
    (s, .size n count)
  | .emptyCount => (s, .count s.ps.emptyCount)
  | .getRemoved reset =>
    let (ps, n) := s.ps.getRemoved reset
    (⟨ps, s.sh⟩, .count n)
  | .subscriberCount => (s, .subscribers s.ps.subscriberCount)

/-- A `pubsub` object driven by its callers. -/
def machine (json : Wjson V) : Machine (PubsubState V H) (PubsubOp H) (Reply H) where
  step := step json

end PubsubState

end WfcPubsub
