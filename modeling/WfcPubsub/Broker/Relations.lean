import WfcPubsub.Broker.Basic
import WfcPubsub.Lib.Unwinding
import WfcPubsub.Pubsub.Lifetime

/-!
# Brokers that cannot be told apart

Two brokers give the same replies if their channels are related in pairs, by a relation that
every operation on a channel keeps and that readings do not notice (`Channel.Congruence`). The
relation may allow for the times at which calls are made.

## Main definitions

* `Channel.Congruence`, `Broker.Related`

## Main results

* `Broker.Related.step`, `Broker.Related.observed`
-/

namespace WfcPubsub

variable {V H : Type}

/-- A relation that calls at the times `P` keep and do not notice. -/
structure Channel.Congruence (json : Wjson V) (opt : PubsubOptions) (P : TimeT → Prop)
    (R : Channel V H → Channel V H → Prop) : Prop where
  subscribers : ∀ {ch ch'}, R ch ch' → ch.subscribers = ch'.subscribers
  publish : ∀ {ch ch'}, R ch ch' → ∀ now name msg, P now →
    R (ch.publish json opt now name msg).1 (ch'.publish json opt now name msg).1
  load : ∀ {ch ch'}, R ch ch' → ∀ now cursor limit, P now →
    R (ch.afterLoad json opt now cursor limit) (ch'.afterLoad json opt now cursor limit) ∧
      ch.load json opt now cursor limit = ch'.load json opt now cursor limit
  subscribe : ∀ {ch ch'}, R ch ch' → ∀ id handler,
    R (ch.subscribe id handler) (ch'.subscribe id handler)
  describe : ∀ {ch ch'}, R ch ch' → ∀ id, R (ch.describe id) (ch'.describe id)
  reset : ∀ {ch ch'}, R ch ch' → R ch.reset ch'.reset

namespace Broker

/-- The channels are related in pairs, and all else is equal. -/
structure Related (R : Channel V H → Channel V H → Prop) (b b' : Broker V H) : Prop where
  channels : ∀ name, R (b.channels name) (b'.channels name)
  opt : b.opt = b'.opt
  idCounter : b.idCounter = b'.idCounter

variable {json : Wjson V} {P : TimeT → Prop} {R : Channel V H → Channel V H → Prop}
  {b b' : Broker V H}

theorem Related.setChannel (h : b.Related R b') (name : String) {ch ch' : Channel V H}
    (hch : R ch ch') : (b.setChannel name ch).Related R (b'.setChannel name ch') := by
  refine ⟨fun name' => ?_, h.opt, h.idCounter⟩
  rw [channels_setChannel, channels_setChannel]
  split
  · exact hch
  · exact h.channels name'

theorem Related.forEach (h : b.Related R b') {f : Channel V H → Channel V H}
    (hf : ∀ ch ch', R ch ch' → R (f ch) (f ch')) : (b.forEach f).Related R (b'.forEach f) :=
  ⟨fun name => hf _ _ (h.channels name), h.opt, h.idCounter⟩

theorem Related.subscribeAs (h : b.Related R b') (hR : Channel.Congruence json b'.opt P R)
    {now : TimeT} (hnow : P now) (id : SubscriberId) (params : SubscribeParams H) :
    (b.subscribeAs json now id params).1.Related R (b'.subscribeAs json now id params).1 ∧
      (b.subscribeAs json now id params).2 = (b'.subscribeAs json now id params).2 := by
  have hload := hR.load (hR.subscribe (h.channels params.channel) id params.handler) now
    params.cursor params.limit hnow
  simp only [Broker.subscribeAs, h.opt]
  exact ⟨h.setChannel _ hload.1, hload.2⟩

/-- A call at such a time leaves them related and gives the same reply. -/
theorem Related.step (h : b.Related R b') (hR : Channel.Congruence json b'.opt P R)
    {op : PubsubOp H} (hop : ∀ t ∈ op.clock, P t) :
    (b.step json op).1.Related R (b'.step json op).1 ∧
      (b.step json op).2 = (b'.step json op).2 := by
  have hsubscribers : ∀ name, (b.channels name).subscribers = (b'.channels name).subscribers :=
    fun name => hR.subscribers (h.channels name)
  cases op with
  | publish now name msg =>
    have hpublish := hR.publish (h.channels name) now name msg (hop now rfl)
    have hfire : ∀ m, (b.channels name).fire name m = (b'.channels name).fire name m :=
      fun m => by rw [Channel.fire, Channel.fire, hsubscribers]
    simp only [Broker.step, h.opt]
    refine ⟨h.setChannel name hpublish, congrArg Reply.fired ?_⟩
    rw [Channel.publish, Channel.publish]
    split
    · exact hfire msg
    · exact hfire _
  | getMessages now params =>
    have hload := hR.load (h.channels params.channel) now params.cursor params.limit
      (hop now rfl)
    simp only [Broker.step, h.opt]
    exact ⟨h.setChannel _ hload.1, congrArg Reply.messages hload.2⟩
  | subscribe now params =>
    have hcounted : Related R { b with idCounter := b.idCounter + 1 }
        { b' with idCounter := b'.idCounter + 1 } :=
      ⟨h.channels, h.opt, congrArg (· + 1) h.idCounter⟩
    have hsub := hcounted.subscribeAs hR (hop now rfl) (b'.idCounter + 1) params
    simp only [Broker.step, h.idCounter] at hsub ⊢
    exact ⟨hsub.1, congrArg (Reply.subscribed _) hsub.2⟩
  | subscribeAs now id params =>
    have hsub := h.subscribeAs hR (hop now rfl) id params
    exact ⟨hsub.1, congrArg Reply.messages hsub.2⟩
  | describe id =>
    have hids : b.channelsOf id = b'.channelsOf id := by simp only [channelsOf, hsubscribers]
    exact ⟨h.forEach fun _ _ hch => hR.describe hch id, by simp only [Broker.step, hids]⟩
  | describeChannel id name =>
    refine ⟨h.setChannel name (hR.describe (h.channels name) id), ?_⟩
    simp only [Broker.step, hsubscribers]
  | reset => exact ⟨h.forEach fun _ _ hch => hR.reset hch, rfl⟩
  | size count => exact ⟨h, rfl⟩
  | emptyCount => exact ⟨h, rfl⟩
  | getRemoved reset => exact ⟨h, rfl⟩
  | subscriberCount =>
    have hpairs : b.subscriptions = b'.subscriptions := by
      simp only [subscriptions, hsubscribers]
    exact ⟨h, by simp only [Broker.step, hpairs]⟩

/-- What calls at such times see of the two. -/
theorem Related.observed (h : b.Related R b')
    (hR : Channel.Congruence json b'.opt P R) {ops : List (PubsubOp H)}
    (hclock : ∀ op ∈ ops, ∀ t ∈ op.clock, P t) (view : PubsubOp H → Reply H → Option (Reply H)) :
    (machine json).observed view b ops = (machine json).observed view b' ops := by
  refine Machine.observed_eq_of_simulation
    (R := fun rem (b c : Broker V H) => b.Related R c ∧ c.opt = b'.opt ∧
      ∀ op ∈ rem, ∀ t ∈ op.clock, P t)
    (fun b c op rem h => ?_) ⟨h, rfl, hclock⟩
  obtain ⟨hrel, hopt, hclock⟩ := h
  obtain ⟨hstep, hreply⟩ := hrel.step (hopt ▸ hR) (hclock op List.mem_cons_self)
  exact ⟨⟨hstep, (step_opt json c op).trans hopt,
    fun op' hop' => hclock op' (List.mem_cons_of_mem _ hop')⟩, congrArg (view op) hreply⟩

end Broker

end WfcPubsub
