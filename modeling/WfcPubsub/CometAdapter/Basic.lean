import WfcPubsub.Lib.Threads
import WfcPubsub.PubsubDomain

/-!
# The class `comet_adapter_domain`

A service object between the clients and a `pubsub_domain`, its target. For each connection it
keeps an adapter object and subscribes it in the target, which only has a weak reference to it;
the map `_adapter_map` has the strong one. The map is guarded by one mutex and the target by the
locks of its shards, so `subscribe` and `unreg_io` are two steps each, between which those of
other calls may come (`CometAdapterDomain.calls`). The target is alive throughout.

Sources: `comet_adapter/domain/comet_adapter_domain.hpp`,
`comet_adapter/domain/comet_adapter_domain.cpp`.

## Main definitions

* `CometAdapterDomain`, `CometAdapterDomain.subscribe`, `CometAdapterDomain.unregIo`
* `AdapterCall`, `AdapterPhase`, `CometAdapterDomain.calls` : concurrent calls.

## Main results

* `CometAdapterDomain.subscribe_alone`, `CometAdapterDomain.unregIo_alone` : a call that nobody
  interrupts.
-/

namespace WfcPubsub

/-- `io_id_t`. -/
abbrev IoId := SubscriberId

/-- An object of the class `adapter_impl`: which object it is, and the client it forwards to. -/
structure AdapterImpl (C : Type) where
  object : ℕ
  ca : C
  deriving DecidableEq, Repr

/-- `class comet_adapter_domain` with its target. The objects are numbered as they are made. -/
structure CometAdapterDomain (V C : Type) (n : ℕ) where
  target : PubsubMt V (AdapterImpl C) n
  adapterMap : OrderedMap IoId (AdapterImpl C) := .empty
  made : ℕ := 0

variable {V C ι : Type} {n : ℕ}

namespace CometAdapterDomain

/-! ### Methods -/

/-- The part of `subscribe` under `_mutex`. -/
def findOrMake (ioId : IoId) (wcometAdapter : C) (d : CometAdapterDomain V C n) :
    CometAdapterDomain V C n × AdapterImpl C :=
  match d.adapterMap.find? ioId with
  | none =>
    let padapt : AdapterImpl C := { object := d.made, ca := wcometAdapter }
    ({ d with adapterMap := d.adapterMap.set ioId padapt, made := d.made + 1 }, padapt)
  | some padapt => (d, padapt)

/-- The part of `unreg_io` in the target. -/
def unregTarget (ioId : IoId) (d : CometAdapterDomain V C n) : CometAdapterDomain V C n :=
  { d with target := PubsubDomain.unregIo ioId d.target }

/-- The part of `unreg_io` under `_mutex`. -/
def eraseAdapter (ioId : IoId) (d : CometAdapterDomain V C n) : CometAdapterDomain V C n :=
  { d with adapterMap := d.adapterMap.erase ioId }

/-- `unreg_io(io_id)`. -/
def unregIo (ioId : IoId) (d : CometAdapterDomain V C n) : CometAdapterDomain V C n :=
  (d.unregTarget ioId).eraseAdapter ioId

section Subscribe

variable [NeZero n] (hash : String → ℕ) (json : Wjson V) (now : TimeT)

/-- The part of `subscribe` in the target: a request for the one channel. -/
def subscribeTarget (channel : String) (ioId : IoId) (padapt : AdapterImpl C)
    (d : CometAdapterDomain V C n) : CometAdapterDomain V C n :=
  { d with target := (PubsubDomain.subscribe hash json now
      [{ channel := channel, handler := padapt }] ioId padapt d.target).1 }

/-- `subscribe(req, cb, io_id, wcomet_adapter)`. -/
def subscribe (channel : String) (ioId : IoId) (wcometAdapter : C)
    (d : CometAdapterDomain V C n) : CometAdapterDomain V C n :=
  let (d, padapt) := d.findOrMake ioId wcometAdapter
  d.subscribeTarget hash json now channel ioId padapt

end Subscribe

end CometAdapterDomain

/-! ### Concurrent calls -/

/-- A call of `subscribe`, with the time at which the target reads the clock, or of
`unreg_io`. -/
inductive AdapterCall (C : Type)
  | subscribe (now : TimeT) (channel : String) (ioId : IoId) (wcometAdapter : C)
  | unregIo (ioId : IoId)

/-- The connection that a call is about. -/
def AdapterCall.ioId : AdapterCall C → IoId
  | subscribe _ _ ioId _ => ioId
  | unregIo ioId => ioId

/-- How far a call has come: before its first step, between the two, with the adapter that
`subscribe` found or made, and after the second. -/
inductive AdapterPhase (C : Type)
  | called
  | found (padapt : AdapterImpl C)
  | unregistered
  | returned
  deriving DecidableEq, Repr

namespace CometAdapterDomain

section Calls

variable [NeZero n] (hash : String → ℕ) (json : Wjson V)

/-- The next step of a call. -/
def act (call : AdapterCall C) (d : CometAdapterDomain V C n) (p : AdapterPhase C) :
    CometAdapterDomain V C n × AdapterPhase C :=
  match call, p with
  | .subscribe _ _ ioId wcometAdapter, .called =>
    let (d, padapt) := d.findOrMake ioId wcometAdapter
    (d, .found padapt)
  | .subscribe now channel ioId _, .found padapt =>
    (d.subscribeTarget hash json now channel ioId padapt, .returned)
  | .unregIo ioId, .called => (d.unregTarget ioId, .unregistered)
  | .unregIo ioId, .unregistered => (d.eraseAdapter ioId, .returned)
  | _, p => (d, p)

/-- Concurrent calls of `subscribe` and `unreg_io`. -/
def calls (call : ι → AdapterCall C) : Threads ι (CometAdapterDomain V C n) (AdapterPhase C) where
  act k := act hash json (call k)

variable [DecidableEq ι] {call : ι → AdapterCall C} {k : ι}
  {s : Threads.State ι (CometAdapterDomain V C n) (AdapterPhase C)}

theorem subscribe_alone {now : TimeT} {channel : String} {ioId : IoId} {wcometAdapter : C}
    (hcall : call k = .subscribe now channel ioId wcometAdapter) (hk : s.phase k = .called) :
    let s' := (calls hash json call).machine.run s [k, k]
    s'.shared = s.shared.subscribe hash json now channel ioId wcometAdapter ∧
      s'.phase k = .returned := by
  simp [Machine.run, Threads.machine, Threads.next, calls, act, hcall, hk, subscribe]

theorem unregIo_alone {ioId : IoId} (hcall : call k = .unregIo ioId) (hk : s.phase k = .called) :
    let s' := (calls hash json call).machine.run s [k, k]
    s'.shared = s.shared.unregIo ioId ∧ s'.phase k = .returned := by
  simp [Machine.run, Threads.machine, Threads.next, calls, act, hcall, hk, unregIo]

end Calls

/-- No call has begun. -/
def beforeCalls (target : PubsubMt V (AdapterImpl C) n) :
    Threads.State ι (CometAdapterDomain V C n) (AdapterPhase C) where
  shared := { target := target }
  phase _ := .called

/-- No call is in progress. -/
def Idle (s : Threads.State ι (CometAdapterDomain V C n) (AdapterPhase C)) : Prop :=
  ∀ k, s.phase k = .called ∨ s.phase k = .returned

end CometAdapterDomain

end WfcPubsub
