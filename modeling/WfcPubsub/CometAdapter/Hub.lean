import WfcPubsub.Broker.Handlers
import WfcPubsub.Broker.Refinement
import WfcPubsub.CometAdapter.Service
import WfcPubsub.CometAdapter.Subscriptions

/-!
# The service is a hub

To its clients a `comet_adapter_domain` over a `pubsub_domain` is a broker whose subscribers are
connections. A connection has a client, that of its first `subscribe` since it was registered;
the clients of later ones are not looked at. A message goes to the clients of the connections that
subscribe to its channel, as far as they are alive. There are no adapter objects, no references to
them that could be lost, and no timer, but for the one reset that `debug_reset` asks for.

## Main definitions

* `Hub`, `Hub.step`
* `CometAdapterDomain.Presents` : an adapter, the broker that its target presents, and a hub.

## Main results

* `CometAdapterDomain.Presents.publish`, `CometAdapterDomain.Presents.subscribe`, … : single calls.
* `CometService.refines_hub`
-/

namespace WfcPubsub

variable {V C H : Type} {n : ℕ}

/-! ### The hub -/

/-- A broker of connections, the clients of the connections, and whether there will be a reset. -/
structure Hub (V C : Type) where
  broker : Broker V Unit
  clients : IoId → Option C := fun _ => none
  debugReset : Bool

namespace Hub

/-- The clients that get a message. -/
def deliver (alive : C → Bool) (calls : List (Invocation Unit)) (hub : Hub V C) :
    List (C × Topic) :=
  calls.filterMap fun call =>
    ((hub.clients call.subscriber).filter alive).map fun client =>
      (client, { channel := call.channel, msg := call.msg })

section Calls

variable (json : Wjson V)

def publish (alive : C → Bool) (now : TimeT) (req : Topic) (hub : Hub V C) :
    Hub V C × List (C × Topic) :=
  let b := hub.broker
  let (ch, calls) := (b.channels req.channel).publish json b.opt now req.channel req.msg
  ({ hub with broker := b.setChannel req.channel ch }, hub.deliver alive calls)

def mpublish (alive : C → Bool) (req : List (TimeT × Topic)) (hub : Hub V C) :
    Hub V C × List (C × Topic) :=
  req.foldl (fun (hub, passed) (now, msg) =>
    let (hub, more) := hub.publish json alive now msg
    (hub, passed ++ more)) (hub, [])

/-- Subscribe a connection, which keeps the client it has. -/
def subscribe (now : TimeT) (channel : String) (ioId : IoId) (client : C) (hub : Hub V C) :
    Hub V C :=
  { hub with
    broker := (hub.broker.subscribeAs json now ioId { channel := channel, handler := () }).1
    clients := Function.update hub.clients ioId ((hub.clients ioId).or (some client)) }

def describe (channel : String) (ioId : IoId) (hub : Hub V C) : Hub V C :=
  { hub with
    broker := hub.broker.setChannel channel ((hub.broker.channels channel).describe ioId) }

/-- Load from a channel. -/
def read (now : TimeT) (params : SubscribeParams H) (hub : Hub V C) : Hub V C × List Topic :=
  let b := hub.broker
  let ch := b.channels params.channel
  ({ hub with
      broker := b.setChannel params.channel
        (ch.afterLoad json b.opt now params.cursor params.limit) },
    (ch.load json b.opt now params.cursor params.limit).map (Topic.mk params.channel))

/-- Load from several channels. -/
def readAll (now : TimeT) (req : List (SubscribeParams H)) (hub : Hub V C) :
    Hub V C × List Topic :=
  req.foldl (fun (hub, messages) params =>
    let (hub, more) := hub.read json now params
    (hub, messages ++ more)) (hub, [])

/-- A connection goes, with its subscriptions and its client. -/
def unregIo (ioId : IoId) (hub : Hub V C) : Hub V C :=
  { hub with
    broker := hub.broker.forEach (Channel.describe ioId)
    clients := Function.update hub.clients ioId none }

/-- The first time that the timer comes there may be a reset. -/
def idle (hub : Hub V C) : Hub V C :=
  { hub with
    broker := if hub.debugReset then hub.broker.forEach Channel.reset else hub.broker
    debugReset := false }

def step (hub : Hub V C) : CometOp C → Hub V C × CometReply C
  | .publish alive now req =>
    let (hub, passed) := hub.publish json alive now req
    (hub, .status .ready passed)
  | .mpublish alive req =>
    let (hub, passed) := hub.mpublish json alive req
    (hub, .status .ready passed)
  | .subscribe now channel ioId client =>
    (hub.subscribe json now channel ioId client, .status .ready [])
  | .describe channel ioId => (hub.describe channel ioId, .status .ready [])
  | .load now req =>
    let (hub, messages) := hub.read json now req
    (hub, .load (CometAdapterDomain.loadReply messages))
  | .mload now req =>
    let chlist := req.foldl (fun (chlist : OrderedSet String) item =>
      chlist.insert item.channel ()) .empty
    let (hub, messages) := hub.readAll json now req
    (hub, .mload (CometAdapterDomain.mloadReply chlist messages))
  | .unregIo ioId => (hub.unregIo ioId, .done)
  | .idle => (hub.idle, .done)

/-- The hub driven by its clients. -/
def machine : Machine (Hub V C) (CometOp C) (CometReply C) where
  step := step json

end Calls

/-- The hub before the first call. -/
def new (opt : PubsubOptions) (sh : Shared V) (debugReset : Bool) : Hub V C where
  broker := .new opt sh
  debugReset := debugReset

end Hub

/-! ### Single calls -/

namespace CometAdapterDomain

theorem holds_of_find? {d : CometAdapterDomain V C n} {ioId : IoId} {padapt : AdapterImpl C}
    (h : d.adapterMap.find? ioId = some padapt) : d.holds padapt = true :=
  List.any_eq_true.mpr ⟨_, OrderedMap.find?_eq_some_iff.mp h, beq_self_eq_true _⟩

/-- Handlers whose objects are there pass the message on to the clients of the connections. -/
theorem flatMap_forward (alive : C → Bool) {held : AdapterImpl C → Bool} {hub : Hub V C}
    {calls : List (Invocation (AdapterImpl C))}
    (h : ∀ call ∈ calls, held call.handler = true ∧
      hub.clients call.subscriber = some call.handler.ca) :
    calls.flatMap (Invocation.forward alive held) =
      hub.deliver alive (calls.map (Invocation.map fun _ => ())) := by
  rw [Hub.deliver, List.filterMap_map, List.filterMap_eq_flatMap_toList]
  refine List.flatMap_congr fun call hcall => ?_
  obtain ⟨hheld, hclient⟩ := h call hcall
  simp only [Function.comp_apply, Invocation.map, hclient]
  rw [Invocation.forward, if_pos hheld, AdapterImpl.publish, Option.filter_some, Message.copy_eq]
  split <;> rfl

/-- The client of a connection stays, and one without a client gets the new one. -/
theorem client_findOrMake (ioId io : IoId) (client : C) (d : CometAdapterDomain V C n) :
    ((d.findOrMake ioId client).1.adapterMap.find? io).map AdapterImpl.ca =
      Function.update (fun io => (d.adapterMap.find? io).map AdapterImpl.ca) ioId
        (((d.adapterMap.find? ioId).map AdapterImpl.ca).or (some client)) io := by
  rw [Function.update_apply, findOrMake]
  split
  · next hnone =>
    rw [OrderedMap.find?_set, hnone]
    split <;> rfl
  · next padapt hsome =>
    rw [hsome]
    split
    · next hio =>
      rw [hio, hsome]
      rfl
    · rfl

/-- The target of the adapter presents the broker, whose handlers are the adapter objects in the
map; the hub has the same without the objects. -/
structure Presents [NeZero n] (hash : String → ℕ) (d : CometAdapterDomain V C n)
    (debugReset : Bool) (hub : Hub V C) (b : Broker V (AdapterImpl C)) : Prop where
  represents : PubsubMt.Represents hash d.target b
  broker : hub.broker = b.map fun _ => ()
  attached : ∀ name ioId padapt,
    (b.channels name).subscribers.find? ioId = some padapt → d.adapterMap.find? ioId = some padapt
  clients : ∀ ioId, hub.clients ioId = (d.adapterMap.find? ioId).map AdapterImpl.ca
  debugReset : hub.debugReset = debugReset

namespace Presents

section Calls

variable [NeZero n] {hash : String → ℕ} {d : CometAdapterDomain V C n} {flag : Bool}
  {hub : Hub V C} {b : Broker V (AdapterImpl C)} (h : Presents hash d flag hub b) (json : Wjson V)

include h

/-- A call in the target that brings no handler. -/
theorem call (op : PubsubOp (AdapterImpl C)) (hop : op.subscribes = false) :
    Presents hash { d with target := (d.target.step hash json op).1 } flag
      { hub with broker := (hub.broker.step json (op.map fun _ => ())).1 } (b.step json op).1 where
  represents := (h.represents.step json op).1
  broker := by rw [h.broker, Broker.step_map]
  attached name ioId padapt hfind := h.attached name ioId padapt (Broker.find?_step json hop hfind)
  clients := h.clients
  debugReset := h.debugReset

/-- The handlers are references to objects in the map, so they pass the messages on. -/
theorem publish (alive : C → Bool) (now : TimeT) (req : Topic) :
    (d.publish hash json alive now req).2 = (hub.publish json alive now req).2 ∧
      ∃ b', Presents hash (d.publish hash json alive now req).1 flag
        (hub.publish json alive now req).1 b' := by
  refine ⟨?_, _, h.call json (.publish now req.channel req.msg) rfl⟩
  have hcalls : (d.target.publish hash json now req.channel req.msg).2 =
      ((b.channels req.channel).publish json b.opt now req.channel req.msg).2 :=
    Reply.fired.inj ((h.represents.step json (.publish now req.channel req.msg)).2 rfl)
  have hhub : ((hub.broker.channels req.channel).publish json hub.broker.opt now req.channel
        req.msg).2 =
      ((b.channels req.channel).publish json b.opt now req.channel req.msg).2.map
        (Invocation.map fun _ => ()) := by
    rw [h.broker]
    exact congrArg Prod.snd (Channel.map_publish _ (b.channels req.channel) json b.opt now ..)
  show (d.target.publish hash json now req.channel req.msg).2.flatMap
      (Invocation.forward alive d.holds) =
    hub.deliver alive ((hub.broker.channels req.channel).publish json hub.broker.opt now
      req.channel req.msg).2
  rw [hhub, hcalls]
  refine flatMap_forward alive fun call hcall => ?_
  have hfind := h.attached _ _ _ (Channel.of_mem_publish hcall).1
  exact ⟨holds_of_find? hfind, by rw [h.clients, hfind, Option.map_some]⟩

theorem mpublish (alive : C → Bool) (req : List (TimeT × Topic)) :
    (d.mpublish hash json alive req).2 = (hub.mpublish json alive req).2 ∧
      ∃ b', Presents hash (d.mpublish hash json alive req).1 flag
        (hub.mpublish json alive req).1 b' := by
  rw [CometAdapterDomain.mpublish, Hub.mpublish]
  generalize ([] : List (C × Topic)) = passed
  induction req generalizing d hub b passed with
  | nil => exact ⟨rfl, b, h⟩
  | cons msg req ih =>
    obtain ⟨hpassed, b', h'⟩ := h.publish json alive msg.1 msg.2
    rw [List.foldl_cons, List.foldl_cons]
    simp only [hpassed]
    exact ih h' _

theorem subscribe (now : TimeT) (channel : String) (ioId : IoId) (client : C) :
    ∃ b', Presents hash (d.subscribe hash json now channel ioId client) flag
      (hub.subscribe json now channel ioId client) b' := by
  set padapt := (d.findOrMake ioId client).2 with hpadapt
  set params : SubscribeParams (AdapterImpl C) := { channel := channel, handler := padapt }
  have htarget := findOrMake_target ioId client d
  refine ⟨(b.subscribeAs json now ioId params).1, ?_, ?_, ?_, ?_, h.debugReset⟩
  · have hstep := (h.represents.step json (.subscribeAs now ioId params)).1
    rw [← htarget] at hstep
    exact hstep
  · show (hub.broker.subscribeAs json now ioId _).1 = _
    rw [h.broker]
    exact congrArg Prod.fst (Broker.map_subscribeAs (fun _ => ()) json now ioId params b)
  · intro name io padapt' hfind
    rw [Broker.find?_subscribeAs] at hfind
    split at hfind
    · next hself =>
      obtain rfl := Option.some.inj hfind
      rw [hself.2]
      exact (find?_findOrMake ioId client d).1
    · exact (find?_findOrMake ioId client d).2 io padapt' (h.attached name io padapt' hfind)
  · intro io
    show Function.update hub.clients ioId ((hub.clients ioId).or (some client)) io =
      ((d.findOrMake ioId client).1.adapterMap.find? io).map AdapterImpl.ca
    rw [client_findOrMake, h.clients, funext h.clients]

include json in
theorem describe (channel : String) (ioId : IoId) :
    ∃ b', Presents hash (d.describe hash channel ioId) flag (hub.describe channel ioId) b' :=
  ⟨_, h.call json (.describeChannel ioId channel) rfl⟩

include json in
theorem unregIo (ioId : IoId) :
    ∃ b', Presents hash (d.unregIo ioId) flag (hub.unregIo ioId) b' := by
  have hcall := h.call json (.describe ioId) rfl
  refine ⟨_, hcall.represents, hcall.broker, ?_, ?_, h.debugReset⟩
  · intro name io padapt hfind
    have hne : io ≠ ioId ∧ (b.channels name).subscribers.find? io = some padapt := by
      have herase : ((b.channels name).subscribers.erase ioId).find? io = some padapt := hfind
      rw [OrderedMap.find?_erase] at herase
      split at herase
      · cases herase
      · next hne => exact ⟨hne, herase⟩
    show (d.adapterMap.erase ioId).find? io = some padapt
    rw [OrderedMap.find?_erase, if_neg hne.1]
    exact h.attached name io padapt hne.2
  · intro io
    show Function.update hub.clients ioId none io =
      ((d.adapterMap.erase ioId).find? io).map AdapterImpl.ca
    rw [OrderedMap.find?_erase, Function.update_apply, h.clients]
    split <;> rfl

/-- The target loads what the hub reads. -/
theorem read (now : TimeT) (params : SubscribeParams (AdapterImpl C)) :
    (d.target.getMessages hash json now [] params).2.map (Topic.mk params.channel) =
        (hub.read json now params).2 ∧
      ∃ b', Presents hash
        { d with target := (d.target.getMessages hash json now [] params).1 } flag
        (hub.read json now params).1 b' := by
  refine ⟨?_, _, h.call json (.getMessages now params) rfl⟩
  have hreply : (d.target.getMessages hash json now [] params).2 =
      (b.channels params.channel).load json b.opt now params.cursor params.limit :=
    Reply.messages.inj ((h.represents.step json (.getMessages now params)).2 rfl)
  rw [hreply, Hub.read, h.broker]
  exact congrArg _ (Channel.map_load _ (b.channels params.channel) json b.opt now ..).symm

theorem readAll (now : TimeT) (req : List (SubscribeParams (AdapterImpl C))) :
    (PubsubDomain.getMessages hash json now req d.target).2 = (hub.readAll json now req).2 ∧
      ∃ b', Presents hash
        { d with target := (PubsubDomain.getMessages hash json now req d.target).1 } flag
        (hub.readAll json now req).1 b' := by
  rw [PubsubDomain.getMessages, Hub.readAll]
  generalize ([] : List Topic) = messages
  induction req generalizing d hub b messages with
  | nil => exact ⟨rfl, b, h⟩
  | cons params req ih =>
    obtain ⟨hread, b', h'⟩ := h.read json now params
    rw [List.foldl_cons, List.foldl_cons]
    simp only [← hread]
    exact ih h' _

include json in
/-- What the timer counts changes nothing. -/
theorem idle :
    ∃ b', Presents hash
      { d with target := (PubsubDomain.idle flag d.target).1 } false hub.idle b' := by
  have hcount := h.call json (.getRemoved true) rfl
  rw [PubsubDomain.idle, Hub.idle, h.debugReset]
  cases flag with
  | false => exact ⟨_, { hcount with debugReset := rfl }⟩
  | true => exact ⟨_, { hcount.call json .reset rfl with debugReset := rfl }⟩

end Calls

end Presents

end CometAdapterDomain

/-! ### Runs -/

namespace CometService

open CometAdapterDomain (Presents loadReply mload mloadReply)

/-- What the clients see: all but what the timer logs. -/
def shown : CometOp C → CometReply C → Option (CometReply C)
  | .idle, _ => none
  | _, reply => some reply

/-- **The service is a hub.** For every hash function, number of shards, options and store,
in every sequential run of calls, with the timer anywhere in between, the callbacks get the
replies, and the clients get the messages in the order, that the hub gives. -/
theorem refines_hub (hash : String → ℕ) (json : Wjson V) (opt : PubsubOptions) (sh : Shared V)
    (debugReset : Bool) (ops : List (CometOp C)) :
    (machine hash json).observed shown (CometService.new opt sh debugReset) ops =
      (Hub.machine json).observed shown (Hub.new opt sh debugReset) ops := by
  refine Machine.observed_eq_of_simulation
    (R := fun _ (s : CometService V C opt.shardCount) hub =>
      ∃ b, Presents hash s.adapter s.debugReset hub b) ?_
    ⟨Broker.new opt sh, PubsubMt.represents_new hash opt sh, rfl, ?_, fun _ => rfl, rfl⟩
  · rintro s hub op - ⟨b, h⟩
    cases op with
    | publish alive now req =>
      obtain ⟨hpassed, h'⟩ := h.publish json alive now req
      exact ⟨h', congrArg (fun passed => some (CometReply.status .ready passed)) hpassed⟩
    | mpublish alive req =>
      obtain ⟨hpassed, h'⟩ := h.mpublish json alive req
      exact ⟨h', congrArg (fun passed => some (CometReply.status .ready passed)) hpassed⟩
    | subscribe now channel ioId client => exact ⟨h.subscribe json now channel ioId client, rfl⟩
    | describe channel ioId => exact ⟨h.describe json channel ioId, rfl⟩
    | load now req =>
      obtain ⟨hread, h'⟩ := h.read json now req
      exact ⟨h', congrArg (fun messages => some (CometReply.load (loadReply messages))) hread⟩
    | mload now req =>
      have hstep : CometService.step hash json s (.mload now req) =
          ({ s with adapter := (s.adapter.mload hash json now req).1 },
            .mload (s.adapter.mload hash json now req).2) := rfl
      obtain ⟨hread, h'⟩ := h.readAll json now req
      rw [mload, List.map_id'] at hstep
      show (∃ b', Presents hash (CometService.step hash json s (.mload now req)).1.adapter _ _ b') ∧
        shown _ (CometService.step hash json s (.mload now req)).2 = _
      rw [hstep]
      exact ⟨h', congrArg (fun messages => some (CometReply.mload (mloadReply _ messages))) hread⟩
    | unregIo ioId => exact ⟨h.unregIo json ioId, rfl⟩
    | idle => exact ⟨h.idle json, rfl⟩
  · intro name ioId padapt hfind
    cases hfind

end CometService

end WfcPubsub
