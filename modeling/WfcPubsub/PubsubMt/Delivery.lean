import WfcPubsub.PubsubMt.Basic
import WfcPubsub.Pubsub.Subscriptions

/-!
# Delivery

Threads call `pubsub_mt` at the same time. What they do is interleaved at the locks, so a run is
a list of steps, each of which holds the lock of one shard (`LockStep`): a method that takes one
lock is one step, `describe(id)` and `reset` are one step for each shard
(`PubsubMt.describe_eq_run`, `PubsubMt.reset_eq_run`), with steps of other threads between
them. No order of the steps is excluded.

What has to be delivered is read off the list of steps alone: `LockStep.subscription` follows the
handler subscribed for one pair of a subscriber and a channel, `deliveries` gives each publish
on the channel to that handler.

## Main definitions

* `LockStep`, `PubsubMt.lockStep`
* `LockStep.subscription`, `deliveries` : what is to be delivered.

## Main results

* `PubsubMt.calls_eq_deliveries` : what is delivered, from every state with mirrored indexes.
* `PubsubMt.stored_run` : what the caches hold.
* `PubsubMt.delivery_exact` : both for every run.
-/

namespace WfcPubsub

variable {V H : Type} {n : ℕ}

/-- What a thread does while it holds the lock of one shard. -/
inductive LockStep (H : Type) (n : ℕ)
  | publish (now : TimeT) (channel : String) (msg : Message)
  | subscribe (now : TimeT) (id : SubscriberId) (params : SubscribeParams H)
  | describeChannel (id : SubscriberId) (channel : String)
  | describeShard (id : SubscriberId) (i : Fin n)
  | resetShard (i : Fin n)

/-- The handlers that a step calls. -/
def Reply.calls : Reply H → List (Invocation H)
  | .fired calls => calls
  | _ => []

/-! ### Steps of `pubsub_mt` -/

namespace PubsubMt

section Machine

variable [NeZero n] (hash : String → ℕ) (json : Wjson V)

def lockStep (mt : PubsubMt V H n) : LockStep H n → PubsubMt V H n × Reply H
  | .publish now channel msg =>
    let (mt, calls) := mt.publish hash json now channel msg
    (mt, .fired calls)
  | .subscribe now id params =>
    let (mt, ml) := mt.subscribeAs hash json now [] id params
    (mt, .messages ml)
  | .describeChannel id channel =>
    let (mt, found) := mt.describeChannel hash id channel
    (mt, .removed found)
  | .describeShard id i =>
    let (ps, k) := (mt.pubsubList i).describe id
    (mt.setShard i ps, .count k)
  | .resetShard i => (mt.setShard i (mt.pubsubList i).reset, .done)

/-- `pubsub_mt` driven by any number of threads. -/
def lockMachine : Machine (PubsubMt V H n) (LockStep H n) (Reply H) where
  step := lockStep hash json

/-- A method that visits all shards is a run of one step for each. -/
private theorem forEachShard_eq_run {f : Pubsub H → Pubsub H × ℕ} {g : Fin n → LockStep H n}
    (hg : ∀ (mt : PubsubMt V H n) i,
      (mt.lockStep hash json (g i)).1 = mt.setShard i (f (mt.pubsubList i)).1)
    (mt : PubsubMt V H n) :
    (mt.forEachShard f).1 = (lockMachine hash json).run mt ((List.finRange n).map g) := by
  have hfold : ∀ (l : List (Fin n)) (s : PubsubMt V H n × ℕ),
      (l.foldl (fun s i =>
        (s.1.setShard i (f (s.1.pubsubList i)).1, s.2 + (f (s.1.pubsubList i)).2)) s).1 =
      (lockMachine hash json).run s.1 (l.map g) := by
    intro l
    induction l with
    | nil =>
      intro s
      rfl
    | cons i l ih =>
      intro s
      rw [List.foldl_cons, ih, List.map_cons, Machine.run, lockMachine, hg]
  exact hfold _ (mt, 0)

theorem describe_eq_run (id : SubscriberId) (mt : PubsubMt V H n) :
    (mt.describe id).1 =
      (lockMachine hash json).run mt ((List.finRange n).map (.describeShard id)) :=
  forEachShard_eq_run hash json (fun _ _ => rfl) mt

theorem reset_eq_run (mt : PubsubMt V H n) :
    mt.reset = (lockMachine hash json).run mt ((List.finRange n).map .resetShard) :=
  forEachShard_eq_run hash json (fun _ _ => rfl) mt

end Machine

end PubsubMt

/-! ### What is to be delivered -/

/-- What a handler is told about a message, besides the members that `publish` fills in. -/
structure Payload where
  action : Actions
  cursor : CursorT
  identity : IdentityT
  key : KeyT
  content : Option ContentT
  deriving DecidableEq, Repr

def Message.payload (m : Message) : Payload where
  action := m.action
  cursor := m.cursor
  identity := m.identity
  key := m.key
  content := m.content

/-- The handler called, and the payload it is called with. -/
def Invocation.delivery (call : Invocation H) : H × Payload := (call.handler, call.msg.payload)

section Spec

variable [NeZero n] (hash : String → ℕ) (id : SubscriberId) (channel : String)

/-- The handler subscribed for the pair after a step, given the one before it. -/
def LockStep.subscription (cur : Option H) : LockStep H n → Option H
  | .publish .. => cur
  | .subscribe _ id' params =>
    if id' = id ∧ params.channel = channel then some params.handler else cur
  | .describeChannel id' channel' => if id' = id ∧ channel' = channel then none else cur
  | .describeShard id' i => if id' = id ∧ i = PubsubMt.index_ hash channel then none else cur
  | .resetShard i => if i = PubsubMt.index_ hash channel then none else cur

/-- What a step delivers to the pair. -/
def LockStep.delivery (cur : Option H) : LockStep H n → List (H × Payload)
  | .publish _ channel' msg =>
    if channel' = channel then (cur.map fun handler => (handler, msg.payload)).toList else []
  | _ => []

/-- What a list of steps delivers to the pair. -/
def deliveries (cur : Option H) : List (LockStep H n) → List (H × Payload)
  | [] => []
  | step :: steps =>
    step.delivery channel cur ++ deliveries (step.subscription hash id channel cur) steps

end Spec

/-- A message published on the channel by one of the steps. -/
def PublishedOn (steps : List (LockStep H n)) (channel : String) (m : Message) : Prop :=
  ∃ now, .publish now channel m ∈ steps

/-- A stored message stems from messages published on its channel: the one it was pushed as and
the one that gave it its content, which is the same or a later rewriting of its identity. -/
def StemsFrom (steps : List (LockStep H n)) (channel : String) (x : Message) : Prop :=
  ∃ m m', PublishedOn steps channel m ∧ PublishedOn steps channel m' ∧
    x.action = m.action ∧ x.cursor = m.cursor ∧ x.identity = m.identity ∧
    x.key = m'.key ∧ x.content = m'.content ∧
    (m' = m ∨ m'.identity = m.identity ∧ (m'.action = .modify ∨ m'.action = .update))

theorem StemsFrom.append {steps : List (LockStep H n)} {channel : String} {x : Message}
    (h : StemsFrom steps channel x) (steps' : List (LockStep H n)) :
    StemsFrom (steps ++ steps') channel x := by
  have hmono : ∀ {m}, PublishedOn steps channel m → PublishedOn (steps ++ steps') channel m :=
    fun ⟨now, hmem⟩ => ⟨now, List.mem_append_left _ hmem⟩
  obtain ⟨m, m', hm, hm', hrest⟩ := h
  exact ⟨m, m', hmono hm, hmono hm', hrest⟩

/-! ### What is delivered -/

namespace PubsubMt

variable [NeZero n] {hash : String → ℕ}

/-- The handler registered for a pair in the shard of the channel. -/
def handlerOf (hash : String → ℕ) (id : SubscriberId) (channel : String) (mt : PubsubMt V H n) :
    Option H :=
  (mt.pubsubList (index_ hash channel)).handlerMap.find? (toLex (channel, id))

/-- In all shards the indexes mirror each other. -/
def AllMirrored (mt : PubsubMt V H n) : Prop := ∀ i, (mt.pubsubList i).Mirrored

omit [NeZero n] in
theorem AllMirrored.setShard {mt : PubsubMt V H n} (h : mt.AllMirrored) {ps : Pubsub H}
    (hps : ps.Mirrored) (i : Fin n) : (mt.setShard i ps).AllMirrored := by
  intro j
  by_cases hj : j = i
  · subst hj
    simpa using hps
  · simpa [hj] using h j

/-- Replacing a shard replaces the handlers of its channels. -/
theorem handlerOf_setShard (id : SubscriberId) (channel : String) (i : Fin n) (ps : Pubsub H)
    (mt : PubsubMt V H n) :
    (mt.setShard i ps).handlerOf hash id channel =
      if i = index_ hash channel then ps.handlerMap.find? (toLex (channel, id))
      else mt.handlerOf hash id channel := by
  rw [handlerOf, setShard_pubsubList]
  split
  · next h => rw [h, Function.update_self]
  · next h => rw [Function.update_of_ne (Ne.symm h), handlerOf]

/-- A step on another channel of the shard leaves the handler of the pair alone. -/
private theorem handlerOf_setShard_eq {mt : PubsubMt V H n} {ps : Pubsub H} {i : Fin n}
    {id : SubscriberId} {channel : String} {new : Option H}
    (h : i = index_ hash channel → ps.handlerMap.find? (toLex (channel, id)) = new)
    (hne : i ≠ index_ hash channel → mt.handlerOf hash id channel = new) :
    (mt.setShard i ps).handlerOf hash id channel = new := by
  rw [handlerOf_setShard]
  split
  · next hi => exact h hi
  · next hi => exact hne hi

theorem lockStep_mirrored (json : Wjson V) {mt : PubsubMt V H n} (h : mt.AllMirrored)
    (step : LockStep H n) : (mt.lockStep hash json step).1.AllMirrored := by
  cases step with
  | publish now channel msg =>
    exact h.setShard ((h _).of_indexes (Pubsub.publish_indexes ..)) _
  | subscribe now id params => exact h.setShard ((h _).subscribeAs json now [] id params mt.sh) _
  | describeChannel id channel => exact h.setShard ((h _).describe_ id channel) _
  | describeShard id i => exact h.setShard ((h i).describe id) i
  | resetShard i => exact h.setShard (fun _ _ => rfl) i

/-- A step changes the handler of a pair as `LockStep.subscription` says. -/
theorem lockStep_handlerOf (json : Wjson V) {mt : PubsubMt V H n} (h : mt.AllMirrored)
    (step : LockStep H n) (id : SubscriberId) (channel : String) :
    (mt.lockStep hash json step).1.handlerOf hash id channel =
      step.subscription hash id channel (mt.handlerOf hash id channel) := by
  cases step with
  | publish now channel' msg =>
    show (mt.setShard _
      ((mt.pubsubList _).publish json now channel' msg mt.sh).1).handlerOf hash id channel = _
    refine handlerOf_setShard_eq (fun hi => ?_) fun _ => rfl
    rw [(Pubsub.publish_indexes ..).1, hi]
    rfl
  | subscribe now id' params =>
    show (mt.setShard _
      ((mt.pubsubList _).subscribeAs json now [] id' params mt.sh).1).handlerOf hash id channel = _
    rw [LockStep.subscription]
    refine handlerOf_setShard_eq (fun hi => ?_) fun hi => ?_
    · rw [(h _).find?_subscribeAs, hi]
      simp only [eq_comm]
      rfl
    · rw [if_neg fun heq => hi (by rw [heq.2])]
  | describeChannel id' channel' =>
    show (mt.setShard _ ((mt.pubsubList _).describe_ id' channel').1).handlerOf hash id channel = _
    rw [LockStep.subscription]
    refine handlerOf_setShard_eq (fun hi => ?_) fun hi => ?_
    · rw [((h _).find?_describe_ ..).2, hi]
      simp only [eq_comm]
      rfl
    · rw [if_neg fun heq => hi (by rw [heq.2])]
  | describeShard id' i =>
    show (mt.setShard i ((mt.pubsubList i).describe id').1).handlerOf hash id channel = _
    rw [LockStep.subscription]
    refine handlerOf_setShard_eq (fun hi => ?_) fun hi => ?_
    · rw [((h _).find?_describe ..).2, hi]
      simp only [eq_comm, and_true]
      rfl
    · rw [if_neg fun heq => hi heq.2]
  | resetShard i =>
    show (mt.setShard i (mt.pubsubList i).reset).handlerOf hash id channel = _
    rw [LockStep.subscription]
    refine handlerOf_setShard_eq (fun hi => ?_) fun hi => ?_
    · rw [if_pos hi]
      rfl
    · rw [if_neg hi]

/-- `publish` fills in no member of the payload. -/
theorem complete_payload (opt : PubsubOptions) (now : TimeT) (msg : Message) :
    (Pubsub.complete opt now msg).payload = msg.payload := by
  simp only [Pubsub.complete, Message.payload]
  split_ifs <;> rfl

/-- Whatever `publish` stores, it calls the handler of the pair once, if there is one. -/
private theorem publish_calls (json : Wjson V) (now : TimeT) (channel : String) (msg : Message)
    (ps : Pubsub H) (sh : Shared V) (id : SubscriberId) :
    ((ps.publish json now channel msg sh).2.2.filter fun call => call.subscriber == id).map
        Invocation.delivery =
      ((ps.handlerMap.find? (toLex (channel, id))).map fun handler =>
        (handler, msg.payload)).toList := by
  have hfire : ∀ (ps : Pubsub H) (msg : Message),
      ((ps.fire_ channel msg).filter fun call => call.subscriber == id).map
          Invocation.delivery =
        ((ps.handlerMap.find? (toLex (channel, id))).map fun handler =>
          (handler, msg.payload)).toList := by
    intro ps msg
    rw [Pubsub.fire_filter]
    cases ps.handlerMap.find? (toLex (channel, id)) <;> rfl
  rw [Pubsub.publish]
  split
  · rw [hfire, (Pubsub.pushCache_indexes ..).1, complete_payload]
  · exact hfire ps msg

/-- All calls of `fire_` are for its channel. -/
private theorem publish_channel (json : Wjson V) (now : TimeT) (channel : String)
    (msg : Message) (ps : Pubsub H) (sh : Shared V) :
    ∀ call ∈ (ps.publish json now channel msg sh).2.2, call.channel = channel := by
  have hfire : ∀ (ps : Pubsub H) (msg : Message),
      ∀ call ∈ ps.fire_ channel msg, call.channel = channel := by
    intro ps msg call hcall
    obtain ⟨e, -, rfl⟩ := List.mem_map.mp hcall
    rfl
  rw [Pubsub.publish]
  split <;> exact hfire _ _

/-- A step delivers to a pair what `LockStep.delivery` says. -/
theorem lockStep_calls (json : Wjson V) (mt : PubsubMt V H n) (step : LockStep H n)
    (id : SubscriberId) (channel : String) :
    ((mt.lockStep hash json step).2.calls.filter fun call =>
        call.subscriber == id && call.channel == channel).map Invocation.delivery =
      step.delivery channel (mt.handlerOf hash id channel) := by
  cases step with
  | publish now channel' msg =>
    have hch := publish_channel json now channel' msg
      (mt.pubsubList (index_ hash channel')) mt.sh
    rw [LockStep.delivery]
    split
    · next heq =>
      subst heq
      rw [handlerOf, ← publish_calls json now channel' msg _ mt.sh id]
      refine congrArg _ (List.filter_congr fun call hcall => ?_)
      simp [hch call hcall]
    · next hne =>
      rw [List.map_eq_nil_iff, List.filter_eq_nil_iff]
      rintro call hcall
      simp [hch call hcall, hne]
  | subscribe now id' params => rfl
  | describeChannel id' channel' => rfl
  | describeShard id' i => rfl
  | resetShard i => rfl

/-- Along every run a pair is delivered exactly its deliveries. -/
theorem calls_eq_deliveries (json : Wjson V) {mt : PubsubMt V H n} (h : mt.AllMirrored)
    (steps : List (LockStep H n)) (id : SubscriberId) (channel : String) :
    ((((lockMachine hash json).trace mt steps).flatMap Reply.calls).filter fun call =>
        call.subscriber == id && call.channel == channel).map Invocation.delivery =
      deliveries hash id channel (mt.handlerOf hash id channel) steps := by
  induction steps generalizing mt with
  | nil => rfl
  | cons step steps ih =>
    rw [Machine.trace, List.flatMap_cons, List.filter_append, List.map_append, deliveries,
      ← lockStep_handlerOf json h, ← ih (lockStep_mirrored json h step), ← lockStep_calls json mt]
    rfl

/-! ### What the caches hold -/

/-- Without a store, all that a shard knows of earlier publishes is in its cache. -/
def Sound (steps : List (LockStep H n)) (mt : PubsubMt V H n) : Prop :=
  mt.sh.rocksdb = none ∧ ∀ i, (mt.pubsubList i).channelMap.AllStored (StemsFrom steps)

omit [NeZero n] in
private theorem Sound.setShard {steps : List (LockStep H n)} {mt : PubsubMt V H n}
    (h : mt.Sound steps) (step : LockStep H n) {i : Fin n} {ps : Pubsub H}
    (hps : ps.channelMap.AllStored (StemsFrom (steps ++ [step]))) :
    (mt.setShard i ps).Sound (steps ++ [step]) := by
  refine ⟨h.1, fun j => ?_⟩
  by_cases hj : j = i
  · subst hj
    simpa using hps
  · simpa [hj] using (h.2 j).imp fun _ _ hx => hx.append [step]

omit [NeZero n] in
/-- `publish` adds to the cache what stems from it. -/
private theorem publish_sound (json : Wjson V) {steps : List (LockStep H n)} {ps : Pubsub H}
    (h : ps.channelMap.AllStored (StemsFrom steps)) (now : TimeT) (channel : String)
    (msg : Message) (sh : Shared V) :
    (ps.publish json now channel msg sh).1.channelMap.AllStored
      (StemsFrom (steps ++ [.publish now channel msg])) := by
  have hold := h.imp fun _ _ hx => hx.append [.publish now channel msg]
  have hnew : PublishedOn (steps ++ [.publish now channel msg]) channel msg :=
    ⟨now, List.mem_append_right _ (List.mem_singleton.mpr rfl)⟩
  -- The message that is pushed differs from `msg` in members outside the payload only.
  have hpush : ∀ m : Message, m.payload = msg.payload →
      (ps.pushCache now channel m).channelMap.AllStored
        (StemsFrom (steps ++ [.publish now channel msg])) := by
    intro m hm
    simp only [Message.payload, Payload.mk.injEq] at hm
    obtain ⟨hact, hcur, hid, hkey, hcont⟩ := hm
    rw [Pubsub.pushCache]
    split
    · refine hold.push now (fun t => ?_) (fun hmod x hx hxid => ?_) fun hupd x hx hxid => ?_
      · exact ⟨msg, msg, hnew, hnew, hact, hcur, hid, hkey, hcont, Or.inl rfl⟩
      · obtain ⟨m₀, -, h₀, -, hact₀, hcur₀, hid₀, -⟩ := hx
        rw [Message.modify_eq]
        exact ⟨m₀, msg, h₀, hnew, hact₀, hcur₀, hid₀, hkey, hcont,
          Or.inr ⟨by rw [← hid, ← hxid, hid₀], Or.inl (hact ▸ hmod)⟩⟩
      · obtain ⟨m₀, -, h₀, -, hact₀, hcur₀, hid₀, -⟩ := hx
        rw [Message.update_eq]
        exact ⟨m₀, msg, h₀, hnew, hact₀, hcur₀, hid₀, hkey, hcont,
          Or.inr ⟨by rw [← hid, ← hxid, hid₀], Or.inr (hact ▸ hupd)⟩⟩
    · exact hold
  rw [Pubsub.publish]
  split
  · exact hpush _ (complete_payload ..)
  · exact hold

/-- Without a store, reading is reading the cache. -/
private theorem getMessages_sound (json : Wjson V) {P : String → Message → Prop}
    {ps : Pubsub H} (h : ps.channelMap.AllStored P) (now : TimeT) (params : SubscribeParams H)
    {sh : Shared V} (hsh : sh.rocksdb = none) :
    (ps.getMessages json now [] params sh).1.channelMap.AllStored P ∧
      ∀ x ∈ (ps.getMessages json now [] params sh).2, P params.channel x := by
  have hstore : Pubsub.store ps.opt sh = none := by
    rw [Pubsub.store, hsh, ite_self]
  obtain ⟨hcm, hml⟩ := h.getMessages params.cursor params.limit now [] params.channel
  rw [Pubsub.getMessages, hstore]
  simp only [Pubsub.getCached]
  split
  · exact ⟨h, by simp⟩
  · exact ⟨hcm, fun x hx => (hml x hx).resolve_left (List.not_mem_nil)⟩

private theorem subscribeAs_sound (json : Wjson V) {P : String → Message → Prop}
    {ps : Pubsub H} (h : ps.channelMap.AllStored P) (now : TimeT) (id : SubscriberId)
    (params : SubscribeParams H) {sh : Shared V} (hsh : sh.rocksdb = none) :
    (ps.subscribeAs json now [] id params sh).1.channelMap.AllStored P ∧
      ∀ x ∈ (ps.subscribeAs json now [] id params sh).2, P params.channel x := by
  refine getMessages_sound json ?_ now params hsh
  show (ps.describe_ id params.channel).1.channelMap.AllStored P
  rwa [(Pubsub.describe_pair_rest id params.channel ps).1]

theorem stored_step (json : Wjson V) {steps : List (LockStep H n)} {mt : PubsubMt V H n}
    (h : mt.Sound steps) (step : LockStep H n) :
    (mt.lockStep hash json step).1.Sound (steps ++ [step]) := by
  have hold : ∀ i, (mt.pubsubList i).channelMap.AllStored (StemsFrom (steps ++ [step])) :=
    fun i => (h.2 i).imp fun _ _ hx => hx.append [step]
  cases step with
  | publish now channel msg =>
    have hps := publish_sound json (h.2 (index_ hash channel)) now channel msg mt.sh
    obtain ⟨-, hall⟩ := h.setShard _ (i := index_ hash channel) hps
    refine ⟨?_, hall⟩
    show ((mt.pubsubList _).publish json now channel msg mt.sh).2.1.rocksdb = none
    rw [Pubsub.publish]
    split
    · simp only [Pubsub.pushRocksdb, h.1, Option.map_none]
      split_ifs
      · exact h.1
      · rfl
      · exact h.1
    · exact h.1
  | subscribe now id params =>
    exact h.setShard _ (subscribeAs_sound json (hold _) now id params h.1).1
  | describeChannel id channel =>
    refine h.setShard _ ?_
    show ((mt.pubsubList _).describe_ id channel).1.channelMap.AllStored _
    rw [(Pubsub.describe_pair_rest id channel _).1]
    exact hold _
  | describeShard id i => exact h.setShard _ (hold i)
  | resetShard i => exact h.setShard _ fun _ _ hfind => by cases hfind

theorem stored_run (hash : String → ℕ) (json : Wjson V) (opt : PubsubOptions)
    (idCounter : SubscriberId) (steps : List (LockStep H opt.shardCount)) :
    ((lockMachine hash json).run (new opt { idCounter := idCounter }) steps).Sound steps := by
  have hnew : (new opt { idCounter := idCounter } : PubsubMt V H opt.shardCount).Sound [] :=
    ⟨rfl, fun _ _ _ hfind => by cases hfind⟩
  exact Machine.run_induction
    (P := fun steps (mt : PubsubMt V H opt.shardCount) => mt.Sound steps) hnew
    (fun _ step h => stored_step json h step) steps

/-- **Delivery is exact.** For every order of the lock-protected steps, each pair of a
subscriber and a channel is delivered one call for each publish on the channel while it is
subscribed, in that order, by the handler subscribed last and with the payload published; and
what `subscribe` returns stems from publishes before it on its channel. -/
theorem delivery_exact (hash : String → ℕ) (json : Wjson V) (opt : PubsubOptions)
    (idCounter : SubscriberId) (steps : List (LockStep H opt.shardCount)) :
    (∀ id channel,
      ((((lockMachine hash json).trace (new opt { idCounter := idCounter }) steps).flatMap
        Reply.calls).filter fun call =>
          call.subscriber == id && call.channel == channel).map Invocation.delivery =
        deliveries hash id channel none steps) ∧
    ∀ now id params,
      ∀ x ∈ (((lockMachine hash json).run (new opt { idCounter := idCounter }) steps).subscribeAs
        hash json now [] id params).2, StemsFrom steps params.channel x := by
  refine ⟨fun id channel => calls_eq_deliveries json (fun _ _ _ => rfl) steps id channel,
    fun now id params => ?_⟩
  obtain ⟨hsh, hall⟩ := stored_run hash json opt idCounter steps
  exact (subscribeAs_sound json (hall _) now id params hsh).2

end PubsubMt

end WfcPubsub
