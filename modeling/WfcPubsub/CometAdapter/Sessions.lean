import WfcPubsub.Broker.Interleaving
import WfcPubsub.CometAdapter.Hub

/-!
# Connections side by side

Connections use the service at the same time. What a call does under one lock, the mutex of
`_adapter_map` or the lock of a shard, is one step; `unreg_io` takes a step in each shard and
one in the map. Between two steps of a call all other threads may take theirs. A subscription and
the disconnection of one and the same connection must not overlap, or an adapter gets lost
(`CometAdapterDomain.not_attached`), so here each connection makes its calls one after the other
(`Sequential`); calls of different connections, publications and readings come in any order.

Then whoever looks at a single channel finds the hub. A `subscribe` takes effect with its second
step, an `unreg_io` with its step in the shard of the channel, each other call with the one step
it has.

## Main definitions

* `Sessions`, `Sessions.machine` : the interleaved steps.
* `Sequential` : each connection makes its calls one after the other.
* `SessionStep.onto` : the call that takes effect with a step.

## Main results

* `Sessions.Mirrors.connection`, `Sessions.Mirrors.publish` : what a step keeps.
* `Sessions.sessions_atomic`
-/

namespace WfcPubsub

variable {V C : Type} {n : ℕ}

/-! ### Steps -/

/-- A step of a connection: the two of `subscribe`, the one of `describe`, and those of `unreg_io`
in the shards and in the map. -/
inductive ConnectionStep (C : Type) (n : ℕ)
  | findOrMake (wcometAdapter : C)
  | subscribeTarget (now : TimeT) (channel : String) (wcometAdapter : C)
  | describe (channel : String)
  | unregShard (i : Fin n)
  | eraseAdapter

inductive SessionStep (C : Type) (n : ℕ)
  | connection (ioId : IoId) (step : ConnectionStep C n)
  | publish (alive : C → Bool) (now : TimeT) (req : Topic)
  | load (now : TimeT) (req : SubscribeParams (AdapterImpl C))

/-- The service, with the variable `padapt` of each `subscribe` in progress. -/
structure Sessions (V C : Type) (n : ℕ) where
  adapter : CometAdapterDomain V C n
  frames : OrderedMap IoId (AdapterImpl C) := .empty

namespace Sessions

/-- The object is in `_adapter_map` or in the variable of a `subscribe`. -/
def holds (s : Sessions V C n) (padapt : AdapterImpl C) : Bool :=
  s.adapter.holds padapt || s.frames.entries.any fun item => item.2.object == padapt.object

variable [NeZero n] (hash : String → ℕ) (json : Wjson V)

def connection (ioId : IoId) (s : Sessions V C n) : ConnectionStep C n → Sessions V C n
  | .findOrMake wcometAdapter =>
    let (adapter, padapt) := s.adapter.findOrMake ioId wcometAdapter
    { adapter := adapter, frames := s.frames.set ioId padapt }
  | .subscribeTarget now channel _ =>
    match s.frames.find? ioId with
    | none => s
    | some padapt =>
      { adapter := s.adapter.subscribeTarget hash json now channel ioId padapt
        frames := s.frames.erase ioId }
  | .describe channel => { s with adapter := s.adapter.describe hash channel ioId }
  | .unregShard i =>
    { s with adapter :=
      { s.adapter with target := (s.adapter.target.lockStep hash json (.describeShard ioId i)).1 } }
  | .eraseAdapter => { s with adapter := s.adapter.eraseAdapter ioId }

def publish (alive : C → Bool) (now : TimeT) (req : Topic) (s : Sessions V C n) :
    Sessions V C n × List (C × Topic) :=
  let (target, calls) := PubsubDomain.publish hash json [(now, req)] s.adapter.target
  ({ s with adapter := { s.adapter with target := target } },
    calls.flatMap (Invocation.forward alive s.holds))

def step (s : Sessions V C n) : SessionStep C n → Sessions V C n × CometReply C
  | .connection ioId step => (s.connection hash json ioId step, .done)
  | .publish alive now req =>
    let (s, passed) := s.publish hash json alive now req
    (s, .status .ready passed)
  | .load now req =>
    let (adapter, res) := s.adapter.load hash json now req
    ({ s with adapter := adapter }, .load res)

/-- The service used by any number of threads. -/
def machine : Machine (Sessions V C n) (SessionStep C n) (CometReply C) where
  step := step hash json

/-- Before the first call. -/
def new (opt : PubsubOptions) (sh : Shared V) : Sessions V C opt.shardCount where
  adapter := { target := .new opt sh }

end Sessions

/-! ### One call after the other -/

/-- Where a connection is: between two calls, in a `subscribe`, or in an `unreg_io` that has been
in some shards. -/
inductive ConnectionPhase (C : Type)
  | ready
  | found (wcometAdapter : C)
  | unregistering (shards : ℕ)

/-- Where a connection is after a step; there may be none in which it can take the step. -/
def ConnectionPhase.next [DecidableEq C] :
    ConnectionPhase C → ConnectionStep C n → Option (ConnectionPhase C)
  | .ready, .findOrMake wcometAdapter => some (.found wcometAdapter)
  | .found wcometAdapter, .subscribeTarget _ _ wcometAdapter' =>
    if wcometAdapter = wcometAdapter' then some .ready else none
  | .ready, .describe _ => some .ready
  | .ready, .unregShard i => if i.val = 0 then some (.unregistering 1) else none
  | .unregistering shards, .unregShard i =>
    if i.val = shards then some (.unregistering (shards + 1)) else none
  | .unregistering shards, .eraseAdapter => if shards = n then some .ready else none
  | _, _ => none

section Next

variable [DecidableEq C] {p p' : ConnectionPhase C}

theorem ConnectionPhase.next_findOrMake {wcometAdapter : C}
    (h : p.next (n := n) (.findOrMake wcometAdapter) = some p') :
    p = .ready ∧ p' = .found wcometAdapter := by
  cases p with
  | ready => exact ⟨rfl, (Option.some.inj h).symm⟩
  | _ => cases h

theorem ConnectionPhase.next_subscribeTarget {now : TimeT} {channel : String} {wcometAdapter : C}
    (h : p.next (n := n) (.subscribeTarget now channel wcometAdapter) = some p') :
    p = .found wcometAdapter ∧ p' = .ready := by
  cases p with
  | found wcometAdapter' =>
    obtain ⟨rfl, rfl⟩ : wcometAdapter' = wcometAdapter ∧ .ready = p' := by simpa [next] using h
    exact ⟨rfl, rfl⟩
  | _ => cases h

theorem ConnectionPhase.next_describe {channel : String}
    (h : p.next (n := n) (.describe channel) = some p') : p = .ready ∧ p' = .ready := by
  cases p with
  | ready => exact ⟨rfl, (Option.some.inj h).symm⟩
  | _ => cases h

theorem ConnectionPhase.next_unregShard {i : Fin n} (h : p.next (.unregShard i) = some p') :
    (p = .ready ∧ i.val = 0 ∨ p = .unregistering i) ∧ p' = .unregistering (i + 1) := by
  cases p with
  | ready =>
    obtain ⟨hi, rfl⟩ : i.val = 0 ∧ .unregistering 1 = p' := by simpa [next] using h
    exact ⟨Or.inl ⟨rfl, hi⟩, by rw [hi]⟩
  | unregistering shards =>
    obtain ⟨rfl, rfl⟩ : i.val = shards ∧ .unregistering (shards + 1) = p' := by
      simpa [next] using h
    exact ⟨Or.inr rfl, rfl⟩
  | found => cases h

theorem ConnectionPhase.next_eraseAdapter (h : p.next (n := n) .eraseAdapter = some p') :
    p = .unregistering n ∧ p' = .ready := by
  cases p with
  | unregistering shards =>
    obtain ⟨rfl, rfl⟩ : shards = n ∧ .ready = p' := by simpa [next] using h
    exact ⟨rfl, rfl⟩
  | _ => cases h

end Next

/-- Where the connections are after a step. -/
def SessionStep.next [DecidableEq C] (phase : IoId → ConnectionPhase C) :
    SessionStep C n → Option (IoId → ConnectionPhase C)
  | .connection ioId step => ((phase ioId).next step).map (Function.update phase ioId)
  | _ => some phase

/-- Each connection can take its steps, one after the other. -/
def Sequential [DecidableEq C] (phase : IoId → ConnectionPhase C) (steps : List (SessionStep C n)) :
    Prop :=
  (steps.foldlM SessionStep.next phase).isSome

instance [DecidableEq C] (phase : IoId → ConnectionPhase C) (steps : List (SessionStep C n)) :
    Decidable (Sequential phase steps) :=
  inferInstanceAs (Decidable (_ = true))

theorem Sequential.cons [DecidableEq C] {phase : IoId → ConnectionPhase C} {a : SessionStep C n}
    {steps : List (SessionStep C n)} (h : Sequential phase (a :: steps)) :
    ∃ phase', a.next phase = some phase' ∧ Sequential phase' steps := by
  rw [Sequential, List.foldlM_cons] at h
  obtain ⟨last, hlast⟩ := Option.isSome_iff_exists.mp h
  obtain ⟨phase', hphase, hsteps⟩ := Option.bind_eq_some_iff.mp hlast
  exact ⟨phase', hphase, Option.isSome_iff_exists.mpr ⟨last, hsteps⟩⟩

/-! ### What is seen of a channel -/

section View

variable [NeZero n] (hash : String → ℕ) (name : String)

/-- The call that takes effect for the channel with the step. -/
def SessionStep.onto : SessionStep C n → Option (CometOp C)
  | .connection ioId (.subscribeTarget now channel wcometAdapter) =>
    some (.subscribe now channel ioId wcometAdapter)
  | .connection ioId (.describe channel) => some (.describe channel ioId)
  | .connection ioId (.unregShard i) =>
    if i = PubsubMt.index_ hash name then some (.unregIo ioId) else none
  | .connection _ _ => none
  | .publish alive now req =>
    if req.channel = name then some (.publish alive now req) else none
  | .load now req => if req.channel = name then some (.load now req) else none

/-- What a call shows: what it passes to the clients or what it finds. -/
def CometOp.shown : CometOp C → CometReply C → Option (CometReply C)
  | .publish .., reply | .load .., reply => some reply
  | _, _ => none

/-- What a step shows of the channel. -/
def SessionStep.shown (step : SessionStep C n) (reply : CometReply C) : Option (CometReply C) :=
  (step.onto hash name).bind fun op => op.shown reply

end View

/-! ### What a step keeps -/

/-- A step on another channel, which the broker takes too, does not count for the channel. -/
theorem PubsubMt.Follows.step {H : Type} [NeZero n] {hash : String → ℕ} {name : String}
    {mt : PubsubMt V H n} {b : Broker V H} (h : PubsubMt.Follows hash name mt b) (json : Wjson V)
    (a : Access H n) (op : PubsubOp H)
    (ha : a.onto hash name = some op ∨
      a.onto hash name = none ∧ (b.step json op).1.channels name = b.channels name) :
    PubsubMt.Follows hash name (mt.access hash json a).1 (b.step json op).1 := by
  rcases ha with ha | ⟨ha, hch⟩
  · exact (h.shown ha).1
  · have hhidden : PubsubMt.Follows hash name (mt.access hash json a).1 b := h.hidden ha
    exact ⟨fun i => (Broker.step_opt json b op).symm ▸ hhidden.valid i,
      hhidden.channel.trans hch.symm⟩

theorem PubsubMt.Follows.reply {H : Type} [NeZero n] {hash : String → ℕ} {name : String}
    {mt : PubsubMt V H n} {b : Broker V H} (h : PubsubMt.Follows hash name mt b) (json : Wjson V)
    {a : Access H n} {op : PubsubOp H} (ha : a.onto hash name = some op) :
    op.shown (mt.access hash json a).2 = op.shown (b.step json op).2 :=
  (h.shown ha).2

/-- What a connection in its phase relies on: its entry in the map, its variable, and the client
that the hub has for it. -/
def ConnectionPhase.Expects (index : ℕ) (entry frame : Option (AdapterImpl C))
    (client : Option C) : ConnectionPhase C → Prop
  | .ready => client = entry.map AdapterImpl.ca
  | .found wcometAdapter => ∃ padapt : AdapterImpl C,
    entry = some padapt ∧ frame = some padapt ∧ padapt.ca = client.getD wcometAdapter
  | .unregistering shards => client = if index < shards then none else entry.map AdapterImpl.ca

namespace CometAdapterDomain

theorem find?_findOrMake_of_ne {ioId io : IoId} (hne : io ≠ ioId) (client : C)
    (d : CometAdapterDomain V C n) :
    (d.findOrMake ioId client).1.adapterMap.find? io = d.adapterMap.find? io := by
  rw [findOrMake]
  split
  · rw [OrderedMap.find?_set, if_neg hne]
  · rfl

end CometAdapterDomain

namespace Sessions

open CometAdapterDomain (find?_findOrMake find?_findOrMake_of_ne findOrMake_target
  client_findOrMake flatMap_forward holds_of_find? loadReply)

variable [NeZero n] {hash : String → ℕ} {name : String} {phase : IoId → ConnectionPhase C}
  {s : Sessions V C n} {hub : Hub V C} {b : Broker V (AdapterImpl C)}

/-- The hub mirrors what there is of the channel and of the connections. -/
structure Mirrors (hash : String → ℕ) (name : String) (phase : IoId → ConnectionPhase C)
    (s : Sessions V C n) (hub : Hub V C) (b : Broker V (AdapterImpl C)) : Prop where
  follows : PubsubMt.Follows hash name s.adapter.target b
  broker : hub.broker = b.map fun _ => ()
  attached : ∀ ioId padapt, (b.channels name).subscribers.find? ioId = some padapt →
    s.adapter.adapterMap.find? ioId = some padapt ∧ hub.clients ioId = some padapt.ca
  expected : ∀ ioId, (phase ioId).Expects (PubsubMt.index_ (n := n) hash name)
    (s.adapter.adapterMap.find? ioId) (s.frames.find? ioId) (hub.clients ioId)

namespace Mirrors

variable (h : Mirrors hash name phase s hub b) (json : Wjson V)

include h

/-- A call in the target that brings no handler. -/
theorem call (a : Access (AdapterImpl C) n) (op : PubsubOp (AdapterImpl C))
    (hop : op.subscribes = false)
    (ha : a.onto hash name = some op ∨
      a.onto hash name = none ∧ (b.step json op).1.channels name = b.channels name) :
    Mirrors hash name phase
      { s with adapter := { s.adapter with target := (s.adapter.target.access hash json a).1 } }
      { hub with broker := (hub.broker.step json (op.map fun _ => ())).1 } (b.step json op).1 where
  follows := h.follows.step json a op ha
  broker := by rw [h.broker, Broker.step_map]
  attached ioId padapt hfind := h.attached ioId padapt (Broker.find?_step json hop hfind)
  expected := h.expected

/-- The first step of `subscribe` is not for the hub. -/
theorem findOrMake {ioId : IoId} (hready : phase ioId = .ready) (client : C) :
    Mirrors hash name (Function.update phase ioId (.found client))
      (s.connection hash json ioId (.findOrMake client)) hub b where
  follows := by
    show PubsubMt.Follows hash name (s.adapter.findOrMake ioId client).1.target b
    rw [findOrMake_target]
    exact h.follows
  broker := h.broker
  attached io padapt hfind := by
    obtain ⟨hentry, hclient⟩ := h.attached io padapt hfind
    exact ⟨(find?_findOrMake ioId client s.adapter).2 io padapt hentry, hclient⟩
  expected io := by
    have hexpected := h.expected io
    show ConnectionPhase.Expects _ ((s.adapter.findOrMake ioId client).1.adapterMap.find? io)
      ((s.frames.set ioId (s.adapter.findOrMake ioId client).2).find? io) (hub.clients io) _
    rw [OrderedMap.find?_set, Function.update_apply]
    by_cases hio : io = ioId
    · subst hio
      rw [hready] at hexpected
      have hfound := (find?_findOrMake io client s.adapter).1
      have hclient := client_findOrMake io io client s.adapter
      rw [hfound, Function.update_self, ← hexpected] at hclient
      rw [if_pos rfl, if_pos rfl, hfound]
      refine ⟨_, rfl, rfl, Option.some.inj (hclient.trans ?_)⟩
      cases hub.clients io <;> rfl
    · rw [if_neg hio, if_neg hio, find?_findOrMake_of_ne hio]
      exact hexpected

/-- With its second step `subscribe` takes effect: the connection has a client now, that of the
adapter object. -/
theorem subscribeTarget {ioId : IoId} {client : C} (hfound : phase ioId = .found client)
    (now : TimeT) (channel : String) :
    ∃ b', Mirrors hash name (Function.update phase ioId .ready)
      (s.connection hash json ioId (.subscribeTarget now channel client))
      (hub.subscribe json now channel ioId client) b' := by
  have hself := h.expected ioId
  rw [hfound] at hself
  obtain ⟨padapt, hentry, hframe, hca⟩ := hself
  have hclient : (hub.clients ioId).or (some client) = some padapt.ca := by
    rw [hca]
    cases hub.clients ioId <;> rfl
  have hstep : s.connection hash json ioId (.subscribeTarget now channel client) =
      { adapter := s.adapter.subscribeTarget hash json now channel ioId padapt
        frames := s.frames.erase ioId } := by
    rw [connection, hframe]
  rw [hstep]
  set params : SubscribeParams (AdapterImpl C) :=
    { channel := channel, handler := padapt } with hparams
  refine ⟨(b.subscribeAs json now ioId params).1, ?_, ?_, ?_, ?_⟩
  · refine h.follows.step json (.lock (.subscribe now ioId params))
      (.subscribeAs now ioId params) ?_
    by_cases hname : params.channel = name
    · exact Or.inl (if_pos hname)
    · exact Or.inr ⟨if_neg hname,
        (Broker.channels_setChannel ..).trans (if_neg (Ne.symm hname))⟩
  · show (hub.broker.subscribeAs json now ioId _).1 = _
    rw [h.broker]
    exact congrArg Prod.fst (Broker.map_subscribeAs (fun _ => ()) json now ioId params b)
  · intro io padapt' hfind
    show s.adapter.adapterMap.find? io = some padapt' ∧
      Function.update hub.clients ioId ((hub.clients ioId).or (some client)) io = some padapt'.ca
    rw [Broker.find?_subscribeAs] at hfind
    rw [hclient, Function.update_apply]
    by_cases hio : io = ioId
    · subst hio
      have heq : padapt' = padapt := by
        split at hfind
        · exact (Option.some.inj hfind).symm
        · exact Option.some.inj ((h.attached io padapt' hfind).1.symm.trans hentry)
      rw [if_pos rfl, heq]
      exact ⟨hentry, rfl⟩
    · rw [if_neg fun hboth => hio hboth.2] at hfind
      rw [if_neg hio]
      exact h.attached io padapt' hfind
  · intro io
    show ConnectionPhase.Expects _ (s.adapter.adapterMap.find? io) ((s.frames.erase ioId).find? io)
      (Function.update hub.clients ioId ((hub.clients ioId).or (some client)) io) _
    rw [hclient, OrderedMap.find?_erase, Function.update_apply, Function.update_apply]
    by_cases hio : io = ioId
    · rw [if_pos hio, if_pos hio, if_pos hio, hio, hentry]
      rfl
    · rw [if_neg hio, if_neg hio, if_neg hio]
      exact h.expected io

theorem describe (channel : String) (ioId : IoId) :
    ∃ b', Mirrors hash name phase (s.connection hash json ioId (.describe channel))
      (hub.describe channel ioId) b' := by
  refine ⟨_, h.call json (.lock (.describeChannel ioId channel)) (.describeChannel ioId channel)
    rfl ?_⟩
  by_cases hname : channel = name
  · exact Or.inl (if_pos hname)
  · exact Or.inr ⟨if_neg hname, (Broker.channels_setChannel ..).trans (if_neg (Ne.symm hname))⟩

/-- Of the steps of `unreg_io` in the shards, that in the shard of the channel takes effect. -/
theorem unregShard {ioId : IoId} (i : Fin n)
    (hphase : phase ioId = .ready ∧ i.val = 0 ∨ phase ioId = .unregistering i) :
    ∃ b', Mirrors hash name (Function.update phase ioId (.unregistering (i + 1)))
      (s.connection hash json ioId (.unregShard i))
      (if i = PubsubMt.index_ hash name then hub.unregIo ioId else hub) b' := by
  have hexpected : ConnectionPhase.Expects (PubsubMt.index_ (n := n) hash name)
      (s.adapter.adapterMap.find? ioId) (s.frames.find? ioId) (hub.clients ioId)
      (.unregistering i) := by
    have hself := h.expected ioId
    rcases hphase with ⟨hready, hi⟩ | hunregistering
    · rw [hready] at hself
      rw [ConnectionPhase.Expects, hi, if_neg (Nat.not_lt_zero _)]
      exact hself
    · rwa [hunregistering] at hself
  by_cases hi : i = PubsubMt.index_ hash name
  · have hcall := h.call json (.lock (.describeShard ioId i)) (.describe ioId) rfl
      (Or.inl (if_pos hi))
    rw [if_pos hi]
    refine ⟨_, hcall.follows, hcall.broker, ?_, ?_⟩
    · intro io padapt hfind
      show s.adapter.adapterMap.find? io = some padapt ∧
        Function.update hub.clients ioId none io = some padapt.ca
      have herase : ((b.channels name).subscribers.erase ioId).find? io = some padapt := hfind
      rw [OrderedMap.find?_erase] at herase
      split at herase
      · cases herase
      · next hne =>
        rw [Function.update_of_ne hne]
        exact h.attached io padapt herase
    · intro io
      show ConnectionPhase.Expects _ (s.adapter.adapterMap.find? io) (s.frames.find? io)
        (Function.update hub.clients ioId none io) _
      rw [Function.update_apply, Function.update_apply]
      by_cases hio : io = ioId
      · rw [if_pos hio, if_pos hio, ConnectionPhase.Expects, ← hi, if_pos (Nat.lt_succ_self _)]
      · rw [if_neg hio, if_neg hio]
        exact h.expected io
  · rw [if_neg hi]
    have hfollows : PubsubMt.Follows hash name
        (s.adapter.target.access hash json (.lock (.describeShard ioId i))).1 b :=
      h.follows.hidden (if_neg hi)
    refine ⟨b, hfollows, h.broker, h.attached, fun io => ?_⟩
    show ConnectionPhase.Expects _ (s.adapter.adapterMap.find? io) (s.frames.find? io)
      (hub.clients io) _
    rw [Function.update_apply]
    by_cases hio : io = ioId
    · have hlt : (PubsubMt.index_ (n := n) hash name).val < i.val + 1 ↔
          (PubsubMt.index_ (n := n) hash name).val < i.val := by
        have hne : (PubsubMt.index_ (n := n) hash name).val ≠ i.val :=
          fun heq => hi (Fin.ext heq.symm)
        omega
      rw [if_pos hio, hio]
      simp only [ConnectionPhase.Expects, hlt]
      exact hexpected
    · rw [if_neg hio]
      exact h.expected io

/-- The last step of `unreg_io` is not for the hub. -/
theorem eraseAdapter {ioId : IoId} (hphase : phase ioId = .unregistering n) :
    Mirrors hash name (Function.update phase ioId .ready)
      (s.connection hash json ioId .eraseAdapter) hub b where
  follows := h.follows
  broker := h.broker
  attached io padapt hfind := by
    obtain ⟨hentry, hclient⟩ := h.attached io padapt hfind
    refine ⟨?_, hclient⟩
    show (s.adapter.adapterMap.erase ioId).find? io = some padapt
    rw [OrderedMap.find?_erase, if_neg]
    · exact hentry
    · rintro rfl
      have hnone := h.expected io
      rw [hphase, ConnectionPhase.Expects, if_pos (Fin.isLt _), hclient] at hnone
      cases hnone
  expected io := by
    have hexpected := h.expected io
    show ConnectionPhase.Expects _ ((s.adapter.adapterMap.erase ioId).find? io)
      (s.frames.find? io) (hub.clients io) _
    rw [OrderedMap.find?_erase, Function.update_apply]
    by_cases hio : io = ioId
    · subst hio
      rw [hphase, ConnectionPhase.Expects, if_pos (Fin.isLt _)] at hexpected
      rw [if_pos rfl, if_pos rfl]
      exact hexpected
    · rw [if_neg hio, if_neg hio]
      exact hexpected

/-- What is published on the channel gets to the clients of the hub. -/
theorem publish (alive : C → Bool) (now : TimeT) {req : Topic} (hreq : req.channel = name) :
    (s.publish hash json alive now req).2 = (hub.publish json alive now req).2 ∧
      ∃ b', Mirrors hash name phase (s.publish hash json alive now req).1
        (hub.publish json alive now req).1 b' := by
  have honto : Access.onto (n := n) hash name (.lock (.publish (H := AdapterImpl C) now req.channel
    req.msg)) = some (.publish now req.channel req.msg) := if_pos hreq
  refine ⟨?_, _, h.call json _ (.publish now req.channel req.msg) rfl (Or.inl honto)⟩
  have hcalls : (s.adapter.target.publish hash json now req.channel req.msg).2 =
      ((b.channels req.channel).publish json b.opt now req.channel req.msg).2 :=
    Reply.fired.inj (Option.some.inj (h.follows.reply json honto))
  have hhub : ((hub.broker.channels req.channel).publish json hub.broker.opt now req.channel
        req.msg).2 =
      ((b.channels req.channel).publish json b.opt now req.channel req.msg).2.map
        (Invocation.map fun _ => ()) := by
    rw [h.broker]
    exact congrArg Prod.snd (Channel.map_publish _ (b.channels req.channel) json b.opt now ..)
  show (s.adapter.target.publish hash json now req.channel req.msg).2.flatMap
      (Invocation.forward alive s.holds) =
    hub.deliver alive ((hub.broker.channels req.channel).publish json hub.broker.opt now
      req.channel req.msg).2
  rw [hhub, hcalls]
  refine flatMap_forward alive fun call hcall => ?_
  have hfind := (Channel.of_mem_publish hcall).1
  rw [hreq] at hfind
  obtain ⟨hentry, hclient⟩ := h.attached _ _ hfind
  exact ⟨Bool.or_eq_true_iff.mpr (Or.inl (holds_of_find? hentry)), hclient⟩

/-- What is found in the channel is what the hub reads. -/
theorem load (now : TimeT) {req : SubscribeParams (AdapterImpl C)} (hreq : req.channel = name) :
    (s.adapter.load hash json now req).2 = loadReply (hub.read json now req).2 ∧
      ∃ b', Mirrors hash name phase { s with adapter := (s.adapter.load hash json now req).1 }
        (hub.read json now req).1 b' := by
  have honto : Access.onto (n := n) hash name (.getMessages now req) =
    some (.getMessages now req) := if_pos hreq
  refine ⟨?_, _, h.call json _ (.getMessages now req) rfl (Or.inl honto)⟩
  have hreply : (s.adapter.target.getMessages hash json now [] req).2 =
      (b.channels req.channel).load json b.opt now req.cursor req.limit :=
    Reply.messages.inj (Option.some.inj (h.follows.reply json honto))
  show loadReply ((s.adapter.target.getMessages hash json now [] req).2.map
    (Topic.mk req.channel)) = _
  rw [hreply, Hub.read, h.broker]
  exact congrArg (fun ml => loadReply (ml.map (Topic.mk req.channel)))
    (Channel.map_load _ (b.channels req.channel) json b.opt now ..).symm

end Mirrors

namespace Mirrors

variable [DecidableEq C] {phase' : IoId → ConnectionPhase C} {a : SessionStep C n}

/-- A step with which no call takes effect for the channel. -/
theorem hidden (h : Mirrors hash name phase s hub b) (json : Wjson V)
    (hphase : a.next phase = some phase') (ha : a.onto hash name = none) :
    ∃ b', Mirrors hash name phase' (s.step hash json a).1 hub b' := by
  cases a with
  | connection ioId step =>
    obtain ⟨p', hnext, rfl⟩ := Option.map_eq_some_iff.mp hphase
    cases step with
    | findOrMake client =>
      obtain ⟨hready, rfl⟩ := ConnectionPhase.next_findOrMake hnext
      exact ⟨b, h.findOrMake json hready client⟩
    | subscribeTarget => cases ha
    | describe => cases ha
    | unregShard i =>
      have hi : i ≠ PubsubMt.index_ hash name := fun heq => by simp [SessionStep.onto, heq] at ha
      obtain ⟨hbefore, rfl⟩ := ConnectionPhase.next_unregShard hnext
      have hstep := h.unregShard json i hbefore
      rwa [if_neg hi] at hstep
    | eraseAdapter =>
      obtain ⟨hlast, rfl⟩ := ConnectionPhase.next_eraseAdapter hnext
      exact ⟨b, h.eraseAdapter json hlast⟩
  | publish alive now req =>
    have hreq : req.channel ≠ name := fun heq => by simp [SessionStep.onto, heq] at ha
    obtain rfl := Option.some.inj hphase
    have hfollows : PubsubMt.Follows hash name
        (s.adapter.target.access hash json (.lock (.publish now req.channel req.msg))).1 b :=
      h.follows.hidden (if_neg hreq)
    exact ⟨b, { h with follows := hfollows }⟩
  | load now req =>
    have hreq : req.channel ≠ name := fun heq => by simp [SessionStep.onto, heq] at ha
    obtain rfl := Option.some.inj hphase
    have hfollows : PubsubMt.Follows hash name
        (s.adapter.target.access hash json (.getMessages now req)).1 b :=
      h.follows.hidden (if_neg hreq)
    exact ⟨b, { h with follows := hfollows }⟩

/-- A step with which a call takes effect. -/
theorem shown (h : Mirrors hash name phase s hub b) (json : Wjson V)
    (hphase : a.next phase = some phase') {op : CometOp C} (ha : a.onto hash name = some op) :
    (∃ b', Mirrors hash name phase' (s.step hash json a).1 (hub.step json op).1 b') ∧
      op.shown (s.step hash json a).2 = op.shown (hub.step json op).2 := by
  cases a with
  | connection ioId step =>
    obtain ⟨p', hnext, rfl⟩ := Option.map_eq_some_iff.mp hphase
    cases step with
    | findOrMake => cases ha
    | subscribeTarget now channel client =>
      obtain rfl := Option.some.inj ha
      obtain ⟨hfound, rfl⟩ := ConnectionPhase.next_subscribeTarget hnext
      exact ⟨h.subscribeTarget json hfound now channel, rfl⟩
    | describe channel =>
      obtain rfl := Option.some.inj ha
      obtain ⟨hready, rfl⟩ := ConnectionPhase.next_describe hnext
      rw [← hready, Function.update_eq_self]
      exact ⟨h.describe json channel ioId, rfl⟩
    | unregShard i =>
      obtain ⟨hi, rfl⟩ : i = PubsubMt.index_ hash name ∧ .unregIo ioId = op := by
        simpa [SessionStep.onto] using ha
      obtain ⟨hbefore, rfl⟩ := ConnectionPhase.next_unregShard hnext
      have hstep := h.unregShard json i hbefore
      rw [if_pos hi] at hstep
      exact ⟨hstep, rfl⟩
    | eraseAdapter => cases ha
  | publish alive now req =>
    obtain ⟨hreq, rfl⟩ : req.channel = name ∧ .publish alive now req = op := by
      simpa [SessionStep.onto] using ha
    obtain rfl := Option.some.inj hphase
    obtain ⟨hpassed, h'⟩ := h.publish json alive now hreq
    exact ⟨h', congrArg (fun passed => some (CometReply.status .ready passed)) hpassed⟩
  | load now req =>
    obtain ⟨hreq, rfl⟩ : req.channel = name ∧ .load now req = op := by
      simpa [SessionStep.onto] using ha
    obtain rfl := Option.some.inj hphase
    obtain ⟨hread, h'⟩ := h.load json now hreq
    exact ⟨h', congrArg (fun res => some (CometReply.load res)) hread⟩

end Mirrors

/-- **Connections side by side.** Each connection makes its calls one after the other; otherwise
the steps of connections, publishers and readers come in any order. Then for every hash function,
number of shards, options and store, and on every channel, the clients get the messages, and the
readers find them, that the hub gives if each call is made in the place of the step with which it
takes effect. -/
theorem sessions_atomic [DecidableEq C] (hash : String → ℕ) (json : Wjson V) (opt : PubsubOptions)
    (sh : Shared V) (steps : List (SessionStep C opt.shardCount)) (name : String)
    (hsequential : Sequential (fun _ => .ready) steps) :
    (machine hash json).observed (SessionStep.shown hash name) (Sessions.new opt sh) steps =
      (Hub.machine json).observed CometOp.shown (Hub.new opt sh false)
        (steps.filterMap (SessionStep.onto hash name)) := by
  refine Machine.observed_eq_of_unwinding
    (R := fun steps (s : Sessions V C opt.shardCount) hub => ∃ phase b,
      Sequential phase steps ∧ Mirrors hash name phase s hub b) ?_ ?_
    ⟨_, Broker.new opt sh, hsequential, PubsubMt.follows_new hash name opt sh, rfl, ?_, fun _ => rfl⟩
  · rintro s hub a steps ha ⟨phase, b, hsequential, h⟩
    obtain ⟨phase', hphase, hrest⟩ := hsequential.cons
    obtain ⟨b', h'⟩ := h.hidden json hphase ha
    exact ⟨⟨phase', b', hrest, h'⟩, by rw [SessionStep.shown, ha, Option.bind_none]⟩
  · rintro s hub a steps op ha ⟨phase, b, hsequential, h⟩
    obtain ⟨phase', hphase, hrest⟩ := hsequential.cons
    obtain ⟨⟨b', h'⟩, hshown⟩ := h.shown json hphase ha
    refine ⟨⟨phase', b', hrest, h'⟩, ?_⟩
    rw [SessionStep.shown, ha, Option.bind_some]
    exact hshown
  · intro ioId padapt hfind
    cases hfind

section Examples

open Message (sample)

/-- A connection subscribes while another one, which has subscribed, disconnects; messages are
published before, between and after the steps. -/
theorem sessions_atomic_two :
    let opt : PubsubOptions := { hashSize := 2 }
    let message := fun now cursor => SessionStep.publish (C := ℕ) (n := opt.shardCount)
      (fun _ => true) now { channel := "channel", msg := sample "a" cursor }
    let steps := [.connection 1 (.findOrMake 10), message 100 1,
      .connection 1 (.subscribeTarget 100 "channel" 10), .connection 2 (.findOrMake 20),
      message 110 2, .connection 1 (.unregShard 0), .connection 2 (.subscribeTarget 120 "channel" 20),
      message 120 3, .connection 1 (.unregShard 1), message 130 4, .connection 1 .eraseAdapter]
    (machine (V := Option (List Message)) String.length .plain).observed
        (SessionStep.shown String.length "channel") (Sessions.new opt {}) steps =
      (Hub.machine .plain).observed CometOp.shown (Hub.new opt {} false)
        (steps.filterMap (SessionStep.onto String.length "channel")) := by
  intro opt message steps
  exact sessions_atomic String.length .plain opt {} steps "channel" (by decide)

end Examples

end Sessions

end WfcPubsub
