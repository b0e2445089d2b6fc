import WfcPubsub.Broker.Channels
import WfcPubsub.Broker.Handlers
import WfcPubsub.CometAdapter.Service
import WfcPubsub.CometAdapter.Subscriptions

/-!
# No messages to strangers

Where a `subscribe` and an `unreg_io` of one connection overlap, a subscription may lose its
adapter. It never gets the adapter of another connection: whatever the order of all steps, a
message on a channel goes only to clients of connections that have subscribed to this channel,
and a client of a connection is one that a `subscribe` of this connection came with.

Each handler in the target, each entry of the map and each adapter that a `subscribe` has found
is traced back to the calls it comes from (`CometAdapterDomain.Provenance`). Other threads may
publish, load and end subscriptions in between.

## Main definitions

* `ServiceStep`, `CometAdapterDomain.overlapping` : overlapping calls among other threads.
* `CometAdapterDomain.Asked`, `CometAdapterDomain.Introduced` : what the calls have brought.
* `CometAdapterDomain.Provenance`

## Main results

* `CometAdapterDomain.Provenance.next`, `CometAdapterDomain.Provenance.step` : single steps.
* `CometAdapterDomain.passes_within_connection`
-/

namespace WfcPubsub

variable {V C H ι : Type} {n : ℕ}

/-! ### Overlapping calls among other threads -/

/-- The next step of one of the calls of `subscribe` and `unreg_io`, or a call of another thread
that takes one lock. -/
inductive ServiceStep (C ι : Type)
  | call (k : ι)
  | publish (now : TimeT) (req : Topic)
  | load (now : TimeT) (params : SubscribeParams (AdapterImpl C))
  | describe (channel : String) (ioId : IoId)

namespace PubsubMt

variable [NeZero n] {hash : String → ℕ}

theorem handlerOf_getMessages (json : Wjson V) (now : TimeT) (params : SubscribeParams H)
    (id : SubscriberId) (channel : String) (mt : PubsubMt V H n) :
    (mt.getMessages hash json now [] params).1.handlerOf hash id channel =
      mt.handlerOf hash id channel := by
  set index := index_ (n := n) hash params.channel
  show (mt.setShard index ((mt.pubsubList index).getMessages json now [] params mt.sh).1).handlerOf
    hash id channel = _
  rw [handlerOf_setShard]
  split
  · next hi =>
    rw [(Pubsub.getMessages_indexes ..).1, hi]
    rfl
  · rfl

/-- A publication calls the handlers for its channel, with the message. -/
theorem of_mem_publish {mt : PubsubMt V H n} {json : Wjson V} {now : TimeT}
    {channel : String} {msg : Message} {call : Invocation H}
    (h : call ∈ (mt.publish hash json now channel msg).2) :
    mt.handlerOf hash call.subscriber channel = some call.handler ∧ call.channel = channel ∧
      call.msg.payload = msg.payload := by
  have hcalls := Pubsub.publish_calls_eq json now channel msg
    (mt.pubsubList (index_ hash channel)) mt.sh
  obtain ⟨hhandler, hchannel, hmsg⟩ := Channel.of_mem_publish (hcalls ▸ h)
  refine ⟨?_, hchannel, ?_⟩
  · rw [← hhandler]
    exact (OrderedMap.find?_fiber ..).symm
  · rcases hmsg with hmsg | hmsg
    · rw [hmsg]
    · rw [hmsg, complete_payload]

end PubsubMt

namespace CometAdapterDomain

section Machine

variable [NeZero n] [DecidableEq ι] (hash : String → ℕ) (json : Wjson V)

def overlap (call : ι → AdapterCall C)
    (s : Threads.State ι (CometAdapterDomain V C n) (AdapterPhase C)) :
    ServiceStep C ι → Threads.State ι (CometAdapterDomain V C n) (AdapterPhase C)
  | .call k => (calls hash json call).next s k
  | .publish now req =>
    { s with shared := { s.shared with
        target := (PubsubDomain.publish hash json [(now, req)] s.shared.target).1 } }
  | .load now params =>
    { s with shared := { s.shared with
        target := (PubsubDomain.getMessages hash json now [params] s.shared.target).1 } }
  | .describe channel ioId => { s with shared := s.shared.describe hash channel ioId }

/-- The service used by threads whose calls may overlap. -/
def overlapping (call : ι → AdapterCall C) :
    Machine (Threads.State ι (CometAdapterDomain V C n) (AdapterPhase C)) (ServiceStep C ι)
      Unit where
  step s i := (overlap hash json call s i, ())

end Machine

/-! ### Where everything comes from -/

/-- The connection has subscribed to the channel. -/
def Asked (call : ι → AdapterCall C) (phase : ι → AdapterPhase C) (ioId : IoId)
    (channel : String) : Prop :=
  ∃ k now client, call k = .subscribe now channel ioId client ∧ phase k = .returned

/-- A `subscribe` of the connection that has begun came with the client. -/
def Introduced (call : ι → AdapterCall C) (phase : ι → AdapterPhase C) (ioId : IoId)
    (client : C) : Prop :=
  ∃ k now channel, call k = .subscribe now channel ioId client ∧ phase k ≠ .called

/-- Each handler, each entry of the map and each adapter found comes from calls of its own
connection. -/
structure Provenance [NeZero n] (hash : String → ℕ) (call : ι → AdapterCall C)
    (s : Threads.State ι (CometAdapterDomain V C n) (AdapterPhase C)) : Prop where
  mirrored : s.shared.target.AllMirrored
  handlers : ∀ channel ioId padapt, s.shared.target.handlerOf hash ioId channel = some padapt →
    Asked call s.phase ioId channel ∧ Introduced call s.phase ioId padapt.ca
  entries : ∀ ioId padapt, s.shared.adapterMap.find? ioId = some padapt →
    Introduced call s.phase ioId padapt.ca
  found : ∀ k padapt, s.phase k = .found padapt → Introduced call s.phase (call k).ioId padapt.ca

variable [NeZero n] {hash : String → ℕ} {call : ι → AdapterCall C}
  {s : Threads.State ι (CometAdapterDomain V C n) (AdapterPhase C)}

/-- A step in the target that brings no handler. -/
theorem Provenance.target (h : Provenance hash call s) {target : PubsubMt V (AdapterImpl C) n}
    (hmirrored : target.AllMirrored)
    (hhandlers : ∀ channel ioId padapt, target.handlerOf hash ioId channel = some padapt →
      s.shared.target.handlerOf hash ioId channel = some padapt) :
    Provenance hash call { s with shared := { s.shared with target := target } } where
  mirrored := hmirrored
  handlers channel ioId padapt hfind := h.handlers channel ioId padapt (hhandlers _ _ _ hfind)
  entries := h.entries
  found := h.found

section Next

variable [DecidableEq ι] (json : Wjson V)

/-- Calls that have begun or returned stay so. -/
theorem phase_next (k j : ι) :
    (s.phase j ≠ .called → ((calls hash json call).next s k).phase j ≠ .called) ∧
      (s.phase j = .returned → ((calls hash json call).next s k).phase j = .returned) := by
  by_cases hj : j = k
  · subst hj
    rw [Threads.next_phase_self]
    show (_ → (act hash json (call j) s.shared (s.phase j)).2 ≠ _) ∧
      (_ → (act hash json (call j) s.shared (s.phase j)).2 = _)
    cases call j <;> cases s.phase j <;> simp [act]
  · rw [Threads.next_phase_of_ne hj]
    exact ⟨id, id⟩

variable {json} {k : ι} {phase : ι → AdapterPhase C}

theorem Asked.next {ioId : IoId} {channel : String} (h : Asked call s.phase ioId channel) :
    Asked call ((calls hash json call).next s k).phase ioId channel := by
  obtain ⟨j, now, client, hcall, hphase⟩ := h
  exact ⟨j, now, client, hcall, (phase_next json k j).2 hphase⟩

theorem Introduced.next {ioId : IoId} {client : C} (h : Introduced call s.phase ioId client) :
    Introduced call ((calls hash json call).next s k).phase ioId client := by
  obtain ⟨j, now, channel, hcall, hphase⟩ := h
  exact ⟨j, now, channel, hcall, (phase_next json k j).1 hphase⟩

/-- What the step has to bring for itself: all that was there before has its origin already. -/
theorem Provenance.of_next (h : Provenance hash call s)
    (hmirrored : ((calls hash json call).next s k).shared.target.AllMirrored)
    (hhandlers : ∀ channel ioId padapt,
      ((calls hash json call).next s k).shared.target.handlerOf hash ioId channel = some padapt →
      s.shared.target.handlerOf hash ioId channel = some padapt ∨
        Asked call ((calls hash json call).next s k).phase ioId channel ∧
          Introduced call ((calls hash json call).next s k).phase ioId padapt.ca)
    (hentries : ∀ ioId padapt,
      ((calls hash json call).next s k).shared.adapterMap.find? ioId = some padapt →
      s.shared.adapterMap.find? ioId = some padapt ∨
        Introduced call ((calls hash json call).next s k).phase ioId padapt.ca)
    (hfound : ∀ padapt, ((calls hash json call).next s k).phase k = .found padapt →
      Introduced call ((calls hash json call).next s k).phase (call k).ioId padapt.ca) :
    Provenance hash call ((calls hash json call).next s k) where
  mirrored := hmirrored
  handlers channel ioId padapt hfind := by
    rcases hhandlers channel ioId padapt hfind with hold | hnew
    · obtain ⟨hasked, hintroduced⟩ := h.handlers channel ioId padapt hold
      exact ⟨hasked.next, hintroduced.next⟩
    · exact hnew
  entries ioId padapt hfind := by
    rcases hentries ioId padapt hfind with hold | hnew
    · exact (h.entries ioId padapt hold).next
    · exact hnew
  found j padapt hphase := by
    by_cases hj : j = k
    · subst hj
      exact hfound padapt hphase
    · rw [Threads.next_phase_of_ne hj] at hphase
      exact (h.found j padapt hphase).next

section Steps

variable (h : Provenance hash call s)

include h

/-- The entry of the connection stays, or it gets the client of this call. -/
theorem Provenance.findOrMake {now : TimeT} {channel : String} {ioId : IoId} {client : C}
    (hcall : call k = .subscribe now channel ioId client) (hphase : s.phase k = .called) :
    Provenance hash call ((calls hash json call).next s k) := by
  obtain ⟨hshared, hfound⟩ : ((calls hash json call).next s k).shared =
        (s.shared.findOrMake ioId client).1 ∧
      ((calls hash json call).next s k).phase k = .found (s.shared.findOrMake ioId client).2 :=
    Threads.next_of_act (by
      show act hash json (call k) s.shared (s.phase k) = _
      rw [hcall, hphase]
      rfl)
  have hself : Introduced call ((calls hash json call).next s k).phase ioId client :=
    ⟨k, now, channel, hcall, by rw [hfound]; nofun⟩
  have hentry : ∀ io padapt,
      (s.shared.findOrMake ioId client).1.adapterMap.find? io = some padapt →
      s.shared.adapterMap.find? io = some padapt ∨
        Introduced call ((calls hash json call).next s k).phase io padapt.ca := by
    intro io padapt hfind
    rw [CometAdapterDomain.findOrMake] at hfind
    split at hfind
    · rw [OrderedMap.find?_set] at hfind
      split at hfind
      · next hio =>
        obtain rfl := Option.some.inj hfind
        exact Or.inr (hio ▸ hself)
      · exact Or.inl hfind
    · exact Or.inl hfind
  refine h.of_next (act_mirrored h.mirrored) (fun channel io padapt hfind => Or.inl ?_) ?_ ?_
  · rwa [hshared, findOrMake_target] at hfind
  · rw [hshared]
    exact hentry
  · intro padapt hpadapt
    obtain rfl := AdapterPhase.found.inj (hfound.symm.trans hpadapt)
    rw [hcall]
    rcases hentry ioId _ (find?_findOrMake ioId client s.shared).1 with hold | hnew
    · exact (h.entries ioId _ hold).next
    · exact hnew

/-- The new handler is the adapter found before. -/
theorem Provenance.subscribeTarget {now : TimeT} {channel : String} {ioId : IoId} {client : C}
    {padapt : AdapterImpl C} (hcall : call k = .subscribe now channel ioId client)
    (hphase : s.phase k = .found padapt) :
    Provenance hash call ((calls hash json call).next s k) := by
  obtain ⟨hshared, hreturned⟩ : ((calls hash json call).next s k).shared =
        s.shared.subscribeTarget hash json now channel ioId padapt ∧
      ((calls hash json call).next s k).phase k = .returned :=
    Threads.next_of_act (by
      show act hash json (call k) s.shared (s.phase k) = _
      rw [hcall, hphase]
      rfl)
  have hintroduced := h.found k padapt hphase
  rw [hcall] at hintroduced
  refine h.of_next (act_mirrored h.mirrored) ?_ ?_ ?_
  · intro channel' io padapt' hfind
    rw [hshared] at hfind
    replace hfind := (PubsubMt.lockStep_handlerOf json h.mirrored
      (.subscribe now ioId { channel := channel, handler := padapt }) io channel').symm.trans hfind
    rw [LockStep.subscription] at hfind
    split at hfind
    · next heq =>
      obtain ⟨rfl, rfl⟩ := heq
      obtain rfl := Option.some.inj hfind
      exact Or.inr ⟨⟨k, now, client, hcall, hreturned⟩, hintroduced.next⟩
    · exact Or.inl hfind
  · rw [hshared]
    exact fun io padapt hfind => Or.inl hfind
  · intro padapt' hpadapt
    rw [hreturned] at hpadapt
    cases hpadapt

/-- Unregistering only takes away. -/
theorem Provenance.unregIo {ioId : IoId} (hcall : call k = .unregIo ioId) :
    Provenance hash call ((calls hash json call).next s k) := by
  have hact : ∀ {p}, s.phase k = p → (calls hash json call).act k s.shared (s.phase k) =
      act hash json (.unregIo ioId) s.shared p := by
    rintro _ rfl
    rw [← hcall]
    rfl
  cases hphase : s.phase k with
  | called =>
    obtain ⟨hshared, hnext⟩ := Threads.next_of_act (hact hphase)
    refine h.of_next (act_mirrored h.mirrored) (fun channel io padapt hfind => Or.inl ?_) ?_ ?_
    · rw [hshared] at hfind
      replace hfind : ((s.shared.target.describe ioId).1.pubsubList _).handlerMap.find?
        (toLex (channel, io)) = some padapt := hfind
      rw [PubsubMt.describe_pubsubList, ((h.mirrored _).find?_describe ..).2] at hfind
      split at hfind
      · cases hfind
      · exact hfind
    · rw [hshared]
      exact fun io padapt hfind => Or.inl hfind
    · intro padapt hpadapt
      cases hnext.symm.trans hpadapt
  | unregistered =>
    obtain ⟨hshared, hnext⟩ := Threads.next_of_act (hact hphase)
    refine h.of_next (act_mirrored h.mirrored) (fun channel io padapt hfind => Or.inl ?_) ?_ ?_
    · rwa [hshared] at hfind
    · intro io padapt hfind
      rw [hshared] at hfind
      replace hfind : (s.shared.adapterMap.erase ioId).find? io = some padapt := hfind
      rw [OrderedMap.find?_erase] at hfind
      split at hfind
      · cases hfind
      · exact Or.inl hfind
    · intro padapt hpadapt
      cases hnext.symm.trans hpadapt
  | found padapt =>
    rw [Threads.next_eq_self ((hact hphase).trans (by rw [hphase]; rfl))]
    exact h
  | returned =>
    rw [Threads.next_eq_self ((hact hphase).trans (by rw [hphase]; rfl))]
    exact h

/-- A step of a call. -/
theorem Provenance.next : Provenance hash call ((calls hash json call).next s k) := by
  cases hcall : call k with
  | subscribe now channel ioId client =>
    have hact : ∀ {p}, s.phase k = p → (calls hash json call).act k s.shared (s.phase k) =
        act hash json (.subscribe now channel ioId client) s.shared p := by
      rintro _ rfl
      rw [← hcall]
      rfl
    cases hphase : s.phase k with
    | called => exact h.findOrMake hcall hphase
    | found padapt => exact h.subscribeTarget hcall hphase
    | unregistered =>
      rw [Threads.next_eq_self ((hact hphase).trans (by rw [hphase]; rfl))]
      exact h
    | returned =>
      rw [Threads.next_eq_self ((hact hphase).trans (by rw [hphase]; rfl))]
      exact h
  | unregIo ioId => exact h.unregIo hcall

end Steps

/-- Any step. -/
theorem Provenance.step (h : Provenance hash call s) (json : Wjson V) (i : ServiceStep C ι) :
    Provenance hash call (overlap hash json call s i) := by
  cases i with
  | call k => exact h.next
  | publish now req =>
    refine h.target (PubsubMt.lockStep_mirrored json h.mirrored
      (.publish now req.channel req.msg)) fun channel ioId padapt hfind => ?_
    exact (PubsubMt.lockStep_handlerOf json h.mirrored (.publish now req.channel req.msg) ioId
      channel).symm.trans hfind
  | load now params =>
    refine h.target (h.mirrored.setShard ((h.mirrored _).of_indexes
      (Pubsub.getMessages_indexes ..)) _) fun channel ioId padapt hfind => ?_
    exact (s.shared.target.handlerOf_getMessages json now params ioId channel).symm.trans hfind
  | describe channel ioId =>
    refine h.target (PubsubMt.lockStep_mirrored json h.mirrored (.describeChannel ioId channel))
      fun channel' io padapt hfind => ?_
    replace hfind := (PubsubMt.lockStep_handlerOf json h.mirrored (.describeChannel ioId channel) io
      channel').symm.trans hfind
    rw [LockStep.subscription] at hfind
    split at hfind
    · cases hfind
    · exact hfind

omit [DecidableEq ι] in
theorem beforeCalls_provenance (hash : String → ℕ) (opt : PubsubOptions) (sh : Shared V)
    (call : ι → AdapterCall C) :
    Provenance hash call (beforeCalls (PubsubMt.new opt sh)) where
  mirrored _ _ _ := rfl
  handlers channel ioId padapt hfind := by cases hfind
  entries ioId padapt hfind := by cases hfind
  found k padapt hphase := by cases hphase

/-- **No messages to strangers.** Whatever the order of the steps of any number of calls of
`subscribe` and `unreg_io`, overlapping or not, and of publications, readings and ends of
subscriptions by other threads: if a message is published then, whichever adapter objects are
still there, each client that gets it is alive, gets the message under the channel on which it was
published, and is a client that a `subscribe` came with of a connection that has subscribed to
this channel. -/
theorem passes_within_connection (hash : String → ℕ) (json : Wjson V) (opt : PubsubOptions)
    (sh : Shared V) (call : ι → AdapterCall C) (steps : List (ServiceStep C ι))
    (alive : C → Bool) (held : AdapterImpl C → Bool) (now : TimeT) (req : Topic) :
    let s := (overlapping hash json call).run (beforeCalls (PubsubMt.new opt sh)) steps
    ∀ p ∈ (PubsubDomain.publish hash json [(now, req)] s.shared.target).2.flatMap
        (Invocation.forward alive held),
      alive p.1 = true ∧ p.2.channel = req.channel ∧ p.2.msg.payload = req.msg.payload ∧
        ∃ ioId, Asked call s.phase ioId req.channel ∧ Introduced call s.phase ioId p.1 := by
  intro s p hp
  have hs : Provenance hash call s :=
    Machine.invariant_run (fun _ _ h => h.step json _) (beforeCalls_provenance hash opt sh call) steps
  obtain ⟨invocation, hinvocation, hp⟩ := List.mem_flatMap.mp hp
  obtain ⟨hhandler, hchannel, hpayload⟩ := PubsubMt.of_mem_publish hinvocation
  obtain ⟨hasked, hintroduced⟩ := hs.handlers _ _ _ hhandler
  rw [Invocation.forward, AdapterImpl.publish] at hp
  split at hp
  · split at hp
    · next halive =>
      obtain rfl := List.mem_singleton.mp hp
      exact ⟨halive, hchannel, hpayload, _, hasked, hintroduced⟩
    · cases hp
  · cases hp

end Next

section Examples

open Message (sample)

/-- A connection disconnects while it subscribes, and another one subscribes at the same time. -/
theorem passes_within_connection_three :
    let call : Fin 3 → AdapterCall ℕ := fun k =>
      if k = 0 then .subscribe 100 "channel" 7 10
      else if k = 1 then .unregIo 7 else .subscribe 100 "channel" 8 20
    let steps := [.call 0, .call 2, .call 1, .call 1, .call 0, .call 2]
    let s := (overlapping String.length .plain call).run
      (beforeCalls (PubsubMt.new { hashSize := 1 } {} : PubsubMt (Option (List Message)) _ _)) steps
    let req : Topic := { channel := "channel", msg := sample "a" 1 }
    let passed := (PubsubDomain.publish String.length .plain [(100, req)] s.shared.target).2.flatMap
      (Invocation.forward (fun _ => true) fun _ => true)
    passed.map Prod.fst = [10, 20] ∧ ∃ p ∈ passed,
      p.2.channel = "channel" ∧ ∃ ioId, Asked call s.phase ioId "channel" ∧
        Introduced call s.phase ioId p.1 := by
  intro call steps s req passed
  have hpassed : passed.map Prod.fst = [10, 20] := by decide
  obtain ⟨p, hp, -⟩ : ∃ p ∈ passed, p.1 = 10 := List.mem_map.mp (hpassed ▸ List.mem_cons_self)
  obtain ⟨-, hchannel, -, horigin⟩ := passes_within_connection String.length .plain
    { hashSize := 1 } {} call steps (fun _ => true) (fun _ => true) 100 req p hp
  exact ⟨hpassed, p, hp, hchannel, horigin⟩

end Examples

end CometAdapterDomain

end WfcPubsub
