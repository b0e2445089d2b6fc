import WfcPubsub.CometAdapter.Loading

/-!
# The service as its clients use it

All calls of a `comet_adapter_domain`, one after the other, down to the clients that it tells
of the messages. The handler of a subscription holds weak references only. The one to the adapter
object is good as long as the object is in `_adapter_map`, which has the only strong reference
that lasts (`CometAdapterDomain.holds`). The one to the client is good as long as the client lives,
about which each call comes with a predicate `alive`; what a client does with a message is its own
business, and does not concern the service. Under the adapter, the timer of the target may come
at any time.

Sources: `comet_adapter/api/publish.hpp`, `comet_adapter/api/mpublish.hpp`,
`comet_adapter/api/describe.hpp`, `comet_adapter/domain/comet_adapter_domain.cpp`,
`pubsub/domain/pubsub_domain.cpp`.

## Main definitions

* `CometAdapterDomain.publish`, `CometAdapterDomain.mpublish`, `CometAdapterDomain.describe`
* `CometService`, `CometService.machine`
-/

namespace WfcPubsub

variable {V C : Type} {n : ℕ}

/-- `adapter_impl::publish`: each message goes on to the client. -/
def AdapterImpl.publish (alive : C → Bool) (messages : List Topic) (padapt : AdapterImpl C) :
    List (C × Topic) :=
  if alive padapt.ca then messages.map fun m => (padapt.ca, m) else []

/-- What comes of a call of the handler that `subscribe` has made in the target: if the adapter
object is still there, it gets a copy of the message. -/
def Invocation.forward (alive : C → Bool) (held : AdapterImpl C → Bool)
    (call : Invocation (AdapterImpl C)) : List (C × Topic) :=
  if held call.handler then
    call.handler.publish alive [{ channel := call.channel, msg := call.msg.copy }]
  else []

namespace CometAdapterDomain

/-- `_adapter_map` has a reference to the object. -/
def holds (d : CometAdapterDomain V C n) (padapt : AdapterImpl C) : Bool :=
  d.adapterMap.entries.any fun item => item.2.object == padapt.object

section Requests

variable [NeZero n] (hash : String → ℕ) (json : Wjson V)

/-- `publish(req, cb)`, with what it passes to the clients. -/
def publish (alive : C → Bool) (now : TimeT) (req : Topic) (d : CometAdapterDomain V C n) :
    CometAdapterDomain V C n × List (C × Topic) :=
  let (target, calls) := PubsubDomain.publish hash json [(now, req)] d.target
  ({ d with target := target }, calls.flatMap (Invocation.forward alive d.holds))

/-- `mpublish(req, cb)`. -/
def mpublish (alive : C → Bool) (req : List (TimeT × Topic)) (d : CometAdapterDomain V C n) :
    CometAdapterDomain V C n × List (C × Topic) :=
  req.foldl (fun (d, passed) (now, msg) =>
    let (d, more) := d.publish hash json alive now msg
    (d, passed ++ more)) (d, [])

/-- `describe(req, cb, io_id)`. -/
def describe (channel : String) (ioId : IoId) (d : CometAdapterDomain V C n) :
    CometAdapterDomain V C n :=
  { d with target := PubsubDomain.describe hash [channel] ioId d.target }

end Requests

end CometAdapterDomain

/-! ### Sequential runs -/

/-- A call of the service, or the timer of its target. A call that publishes comes with the
clients that are alive. -/
inductive CometOp (C : Type)
  | publish (alive : C → Bool) (now : TimeT) (req : Topic)
  | mpublish (alive : C → Bool) (req : List (TimeT × Topic))
  | subscribe (now : TimeT) (channel : String) (ioId : IoId) (wcometAdapter : C)
  | describe (channel : String) (ioId : IoId)
  | load (now : TimeT) (req : SubscribeParams (AdapterImpl C))
  | mload (now : TimeT) (req : List (SubscribeParams (AdapterImpl C)))
  | unregIo (ioId : IoId)
  | idle

/-- What a call passes to its callback, and what it passes to the clients. -/
inductive CometReply (C : Type)
  | status (status : Status) (passed : List (C × Topic))
  | load (res : LoadResponse)
  | mload (res : List LoadResponse)
  | done
  | logged (report : PubsubDomain.IdleReport)

/-- A `comet_adapter_domain` with its target and `_debug_reset` of the latter. -/
structure CometService (V C : Type) (n : ℕ) where
  adapter : CometAdapterDomain V C n
  debugReset : Bool

namespace CometService

/-- Both objects configured, with a store that is open. -/
def new (opt : PubsubOptions) (sh : Shared V) (debugReset : Bool) :
    CometService V C opt.shardCount where
  adapter := { target := .new opt sh }
  debugReset := debugReset

variable [NeZero n] (hash : String → ℕ) (json : Wjson V)

def step (s : CometService V C n) : CometOp C → CometService V C n × CometReply C
  | .publish alive now req =>
    let (adapter, passed) := s.adapter.publish hash json alive now req
    ({ s with adapter := adapter }, .status .ready passed)
  | .mpublish alive req =>
    let (adapter, passed) := s.adapter.mpublish hash json alive req
    ({ s with adapter := adapter }, .status .ready passed)
  | .subscribe now channel ioId wcometAdapter =>
    ({ s with adapter := s.adapter.subscribe hash json now channel ioId wcometAdapter },
      .status .ready [])
  | .describe channel ioId =>
    ({ s with adapter := s.adapter.describe hash channel ioId }, .status .ready [])
  | .load now req =>
    let (adapter, res) := s.adapter.load hash json now req
    ({ s with adapter := adapter }, .load res)
  | .mload now req =>
    let (adapter, res) := s.adapter.mload hash json now req
    ({ s with adapter := adapter }, .mload res)
  | .unregIo ioId => ({ s with adapter := s.adapter.unregIo ioId }, .done)
  | .idle =>
    let (target, report) := PubsubDomain.idle s.debugReset s.adapter.target
    ({ adapter := { s.adapter with target := target }, debugReset := false }, .logged report)

/-- The service driven by one caller. -/
def machine : Machine (CometService V C n) (CometOp C) (CometReply C) where
  step := step hash json

end CometService

end WfcPubsub
