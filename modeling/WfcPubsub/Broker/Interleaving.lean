import WfcPubsub.Broker.Refinement
import WfcPubsub.PubsubMt.Delivery

/-!
# Threads and channels

Threads use `pubsub_mt` at the same time. A method takes its locks one after the other, and what
it does under each is one step (`Access`), so that a run is a list of such steps in any order:
between two steps of `describe(id)` or `reset` other threads may use all shards.

Whoever looks at a single channel notices none of this (`PubsubMt.channel_atomic`). The calls
that name the channel give the replies that the broker gives to these calls alone, in the order in
which they held the lock, and `describe(id)` and `reset` act on the channel as a whole when they
hold the lock of its shard.

## Main definitions

* `Access`, `PubsubMt.access`, `PubsubMt.accessMachine`
* `Access.onto` : what a step is for a channel.
* `PubsubMt.channelAt` : a channel in its shard.

## Main results

* `PubsubMt.Follows.hidden`, `PubsubMt.Follows.shown` : what a step does to a channel.
* `PubsubMt.channelAt_run`, `PubsubMt.Follows.observed` : what a run does to it, and shows of it.
* `PubsubMt.channel_atomic`
-/

namespace WfcPubsub

variable {V H : Type} {n : ℕ}

/-- What a thread does while it holds the lock of one shard: a reading, or a step that may change
the subscriptions or what is stored. The form of `subscribe` that generates the id is not among
them, since the counter belongs to all shards and no lock of theirs protects it. -/
inductive Access (H : Type) (n : ℕ)
  | lock (step : LockStep H n)
  | getMessages (now : TimeT) (params : SubscribeParams H)

namespace Pubsub

/-- What every call of `pubsub` keeps. -/
structure Valid (opt : PubsubOptions) (ps : Pubsub H) : Prop where
  wellFormed : ps.channelMap.WellFormed
  mirrored : ps.Mirrored
  opt : ps.opt = opt

theorem valid_new (opt : PubsubOptions) : (new opt : Pubsub H).Valid opt :=
  ⟨ChannelMap.wellFormed_new, fun _ _ => rfl, rfl⟩

theorem Valid.step {opt : PubsubOptions} {ps : Pubsub H} (h : ps.Valid opt) (json : Wjson V)
    (sh : Shared V) (op : PubsubOp H) : (PubsubState.step json ⟨ps, sh⟩ op).1.ps.Valid opt where
  wellFormed := PubsubState.wellFormed_step json ⟨ps, sh⟩ op h.wellFormed
  mirrored := PubsubState.mirrored_step json ⟨ps, sh⟩ op h.mirrored
  opt := (PubsubState.opt_step json ⟨ps, sh⟩ op).trans h.opt

end Pubsub

/-- What the broker shows of a call to one who looks at its channel: that of a call for all
channels, nothing. -/
def PubsubOp.shown (op : PubsubOp H) (reply : Reply H) : Option (Reply H) :=
  match op with
  | .describe _ | .reset => none
  | _ => some reply

section Steps

variable [NeZero n] (hash : String → ℕ) (name : String)

/-- The call that a step is for a channel, if it concerns the channel. -/
def Access.onto : Access H n → Option (PubsubOp H)
  | .lock (.publish now channel msg) =>
    if channel = name then some (.publish now channel msg) else none
  | .lock (.subscribe now id params) =>
    if params.channel = name then some (.subscribeAs now id params) else none
  | .lock (.describeChannel id channel) =>
    if channel = name then some (.describeChannel id channel) else none
  | .lock (.describeShard id i) =>
    if i = PubsubMt.index_ hash name then some (.describe id) else none
  | .lock (.resetShard i) => if i = PubsubMt.index_ hash name then some .reset else none
  | .getMessages now params =>
    if params.channel = name then some (.getMessages now params) else none

/-- What a step shows to one who looks at the channel. -/
def Access.shown (access : Access H n) (reply : Reply H) : Option (Reply H) :=
  (access.onto hash name).bind fun op => op.shown reply

end Steps

/-- Only a publish is one for the channel. -/
theorem Access.eq_of_onto_eq_publish [NeZero n] {hash : String → ℕ} {name : String}
    {a : Access H n} {now : TimeT} {channel : String} {msg : Message}
    (h : a.onto hash name = some (.publish now channel msg)) :
    a = .lock (.publish now channel msg) := by
  cases a with
  | lock step =>
    cases step with
    | publish now' channel' msg' => simp_all [onto]
    | _ => simp [onto] at h
  | getMessages now' params => simp [onto] at h

namespace PubsubMt

section Machine

variable [NeZero n] (hash : String → ℕ) (json : Wjson V)

def access (mt : PubsubMt V H n) : Access H n → PubsubMt V H n × Reply H
  | .lock step => mt.lockStep hash json step
  | .getMessages now params =>
    let (mt, ml) := mt.getMessages hash json now [] params
    (mt, .messages ml)

/-- `pubsub_mt` used by any number of threads. -/
def accessMachine : Machine (PubsubMt V H n) (Access H n) (Reply H) where
  step := access hash json

end Machine

variable [NeZero n] {hash : String → ℕ} {json : Wjson V} {mt : PubsubMt V H n}
  {opt : PubsubOptions}

/-- A channel, as its shard presents it. -/
def channelAt (hash : String → ℕ) (name : String) (mt : PubsubMt V H n) : Channel V H :=
  (mt.pubsubList (index_ hash name)).channel name mt.sh

/-- A method on the shard of one channel that changes this channel only. -/
private theorem channelAt_setShard {channel : String} {ps : Pubsub H} {sh : Shared V}
    {ch : Channel V H}
    (hself : ∀ name, ps.channel name sh =
      if name = channel then ch else (mt.pubsubList (index_ hash channel)).channel name mt.sh)
    (hshared : ∀ name, name ≠ channel → ∀ ps' : Pubsub H,
      ps'.channel name sh = ps'.channel name mt.sh) (name : String) :
    channelAt hash name { mt.setShard (index_ hash channel) ps with sh := sh } =
      if name = channel then ch else mt.channelAt hash name := by
  show (Function.update mt.pubsubList (index_ hash channel) ps (index_ hash name)).channel
    name sh = _
  by_cases hindex : index_ (n := n) hash name = index_ hash channel
  · rw [hindex, Function.update_self, hself, channelAt, hindex]
  · have hname : name ≠ channel := fun h => hindex (by rw [h])
    rw [Function.update_of_ne hindex, if_neg hname, hshared name hname, channelAt]

/-- A method on one shard. -/
private theorem channelAt_setShard_index (i : Fin n) (ps : Pubsub H) (name : String) :
    channelAt hash name (mt.setShard i ps) =
      if i = index_ hash name then ps.channel name mt.sh else mt.channelAt hash name := by
  rw [channelAt, setShard_pubsubList, setShard_sh]
  split
  · next h => rw [h, Function.update_self]
  · next h => rw [Function.update_of_ne (Ne.symm h), channelAt]

/-- What a step does to the shards is what calls of `pubsub` do. -/
theorem valid_access (h : ∀ i, (mt.pubsubList i).Valid opt) (a : Access H n) :
    ∀ i, ((mt.access hash json a).1.pubsubList i).Valid opt := by
  have hset : ∀ (i : Fin n) (op : PubsubOp H) (sh : Shared V),
      ∀ j, (Function.update mt.pubsubList i
        (PubsubState.step json ⟨mt.pubsubList i, sh⟩ op).1.ps j).Valid opt := by
    intro i op sh j
    by_cases hj : j = i
    · rw [hj, Function.update_self]
      exact (h i).step json sh op
    · rw [Function.update_of_ne hj]
      exact h j
  cases a with
  | lock step =>
    cases step with
    | publish now channel msg => exact hset _ (.publish now channel msg) mt.sh
    | subscribe now id params => exact hset _ (.subscribeAs now id params) mt.sh
    | describeChannel id channel => exact hset _ (.describeChannel id channel) mt.sh
    | describeShard id i => exact hset i (.describe id) mt.sh
    | resetShard i => exact hset i .reset mt.sh
  | getMessages now params => exact hset _ (.getMessages now params) mt.sh

variable {name : String} {b : Broker V H}

/-- The shards and the broker agree on the channel. -/
structure Follows (hash : String → ℕ) (name : String) (mt : PubsubMt V H n) (b : Broker V H) :
    Prop where
  valid : ∀ i, (mt.pubsubList i).Valid b.opt
  channel : mt.channelAt hash name = b.channels name

/-- A step on a channel leaves the others as they are. -/
private theorem Follows.elsewhere (h : Follows hash name mt b) {a : Access H n}
    {channel : String} {ch : Channel V H} (hname : name ≠ channel)
    (hch : (mt.access hash json a).1.channelAt hash name =
      if name = channel then ch else mt.channelAt hash name) :
    Follows hash name (mt.access hash json a).1 b := by
  refine ⟨valid_access h.valid a, ?_⟩
  rw [hch, if_neg hname, h.channel]

/-- On its own channel the step does what the call of the broker does. -/
private theorem Follows.here (h : Follows hash name mt b) {a : Access H n} {b' : Broker V H}
    {ch : Channel V H} (hopt : b'.opt = b.opt) (hb : b'.channels name = ch)
    (hch : (mt.access hash json a).1.channelAt hash name =
      if name = name then ch else mt.channelAt hash name) :
    Follows hash name (mt.access hash json a).1 b' := by
  refine ⟨fun i => hopt ▸ valid_access h.valid a i, ?_⟩
  rw [hch, if_pos rfl, hb]

/-- A step that is no call for the channel leaves it as it is. -/
theorem Follows.hidden (h : Follows hash name mt b) {a : Access H n}
    (ha : a.onto hash name = none) : Follows hash name (mt.access hash json a).1 b := by
  cases a with
  | lock step =>
    cases step with
    | publish now channel msg =>
      have hne : channel ≠ name := fun heq => by simp [Access.onto, heq] at ha
      have hwf := (h.valid (index_ hash channel)).wellFormed
      exact h.elsewhere hne.symm (channelAt_setShard
        (fun name => Pubsub.channel_publish hwf json now channel msg mt.sh name)
        (fun name hname ps' => Pubsub.channel_publish_shared json now hname msg _ ps' mt.sh) name)
    | subscribe now id params =>
      have hne : params.channel ≠ name := fun heq => by simp [Access.onto, heq] at ha
      obtain ⟨hwf, hmirrored, -⟩ := h.valid (index_ hash params.channel)
      exact h.elsewhere hne.symm (channelAt_setShard
        (fun name => (hmirrored.channel_subscribeAs hwf json now id params mt.sh name).1)
        (fun _ _ _ => rfl) name)
    | describeChannel id channel =>
      have hne : channel ≠ name := fun heq => by simp [Access.onto, heq] at ha
      have hmirrored := (h.valid (index_ hash channel)).mirrored
      exact h.elsewhere hne.symm (channelAt_setShard
        (fun name => (hmirrored.channel_describe_ id channel mt.sh name).1)
        (fun _ _ _ => rfl) name)
    | describeShard id i =>
      have hne : i ≠ index_ hash name := fun heq => by simp [Access.onto, heq] at ha
      refine ⟨valid_access h.valid _, ?_⟩
      exact (channelAt_setShard_index i _ name).trans ((if_neg hne).trans h.channel)
    | resetShard i =>
      have hne : i ≠ index_ hash name := fun heq => by simp [Access.onto, heq] at ha
      refine ⟨valid_access h.valid _, ?_⟩
      exact (channelAt_setShard_index i _ name).trans ((if_neg hne).trans h.channel)
  | getMessages now params =>
    have hne : params.channel ≠ name := fun heq => by simp [Access.onto, heq] at ha
    have hwf := (h.valid (index_ hash params.channel)).wellFormed
    exact h.elsewhere hne.symm (channelAt_setShard
      (fun name => Pubsub.channel_getMessages hwf json now params mt.sh name)
      (fun _ _ _ => rfl) name)

/-- A step that is a call for the channel does what the broker does, and shows the same. -/
theorem Follows.shown (h : Follows hash name mt b) {a : Access H n} {op : PubsubOp H}
    (ha : a.onto hash name = some op) :
    Follows hash name (mt.access hash json a).1 (b.step json op).1 ∧
      op.shown (mt.access hash json a).2 = op.shown (b.step json op).2 := by
  have hself : ∀ (b : Broker V H) ch, (b.setChannel name ch).channels name = ch :=
    fun b ch => Function.update_self ..
  have hvalid := h.valid (index_ hash name)
  have hch : (mt.pubsubList (index_ hash name)).channel name mt.sh = b.channels name := h.channel
  cases a with
  | lock step =>
    cases step with
    | publish now channel msg =>
      obtain ⟨rfl, rfl⟩ : channel = name ∧ PubsubOp.publish now channel msg = op := by
        simpa [Access.onto] using ha
      have hcalls := Pubsub.publish_calls_eq json now channel msg
        (mt.pubsubList (index_ hash channel)) mt.sh
      have hstep := channelAt_setShard
        (fun name => Pubsub.channel_publish hvalid.wellFormed json now channel msg mt.sh name)
        (fun name hname ps' => Pubsub.channel_publish_shared json now hname msg _ ps' mt.sh) channel
      rw [hch, hvalid.opt] at hcalls hstep
      exact ⟨h.here rfl (hself ..) hstep, congrArg (fun calls => some (Reply.fired calls)) hcalls⟩
    | subscribe now id params =>
      obtain ⟨hname, rfl⟩ : params.channel = name ∧ PubsubOp.subscribeAs now id params = op := by
        simpa [Access.onto] using ha
      subst hname
      have hsub := hvalid.mirrored.channel_subscribeAs hvalid.wellFormed json now id params mt.sh
      have hstep := channelAt_setShard (fun name => (hsub name).1) (fun _ _ _ => rfl)
        params.channel
      have hml := (hsub params.channel).2
      rw [hch, hvalid.opt] at hml hstep
      exact ⟨h.here rfl (hself ..) hstep, congrArg (fun ml => some (Reply.messages ml)) hml⟩
    | describeChannel id channel =>
      obtain ⟨rfl, rfl⟩ : channel = name ∧ PubsubOp.describeChannel id channel = op := by
        simpa [Access.onto] using ha
      have hdescribe := hvalid.mirrored.channel_describe_ id channel mt.sh
      have hstep := channelAt_setShard (fun name => (hdescribe name).1) (fun _ _ _ => rfl) channel
      have hfound := (hdescribe channel).2
      rw [hch] at hfound hstep
      exact ⟨h.here rfl (hself ..) hstep, congrArg (fun found => some (Reply.removed found)) hfound⟩
    | describeShard id i =>
      obtain ⟨rfl, rfl⟩ : i = index_ hash name ∧ PubsubOp.describe id = op := by
        simpa [Access.onto] using ha
      refine ⟨⟨valid_access h.valid _, ?_⟩, rfl⟩
      refine (channelAt_setShard_index _ _ name).trans ((if_pos rfl).trans ?_)
      refine (hvalid.mirrored.channel_describe id mt.sh name).trans ?_
      rw [hch]
      rfl
    | resetShard i =>
      obtain ⟨rfl, rfl⟩ : i = index_ hash name ∧ PubsubOp.reset = op := by
        simpa [Access.onto] using ha
      refine ⟨⟨valid_access h.valid _, ?_⟩, rfl⟩
      refine (channelAt_setShard_index _ _ name).trans ((if_pos rfl).trans ?_)
      rw [Pubsub.channel_reset, hch]
      rfl
  | getMessages now params =>
    obtain ⟨hname, rfl⟩ : params.channel = name ∧ PubsubOp.getMessages now params = op := by
      simpa [Access.onto] using ha
    subst hname
    have hstep := channelAt_setShard
      (fun name => Pubsub.channel_getMessages hvalid.wellFormed json now params mt.sh name)
      (fun _ _ _ => rfl) params.channel
    have hml := Pubsub.getMessages_load hvalid.wellFormed json now params mt.sh
    rw [hch, hvalid.opt] at hml hstep
    exact ⟨h.here rfl (hself ..) hstep, congrArg (fun ml => some (Reply.messages ml)) hml⟩

theorem follows_new (hash : String → ℕ) (name : String) (opt : PubsubOptions) (sh : Shared V) :
    Follows hash name (PubsubMt.new opt sh : PubsubMt V H opt.shardCount) (Broker.new opt sh) :=
  ⟨fun _ => Pubsub.valid_new opt, rfl⟩

theorem Follows.run (h : Follows hash name mt b) (steps : List (Access H n)) :
    Follows hash name ((accessMachine hash json).run mt steps)
      ((Broker.machine json).run b (steps.filterMap (Access.onto hash name))) := by
  induction steps generalizing mt b with
  | nil => exact h
  | cons a steps ih =>
    rw [List.filterMap_cons]
    cases ha : a.onto hash name with
    | none => exact ih (h.hidden ha)
    | some op => exact ih (h.shown ha).1

/-- What the threads make of a channel is what the broker makes of it with the calls that concern
the channel. -/
theorem channelAt_run (hash : String → ℕ) (json : Wjson V) (opt : PubsubOptions) (sh : Shared V)
    (steps : List (Access H opt.shardCount)) (name : String) :
    ((accessMachine hash json).run (PubsubMt.new opt sh) steps).channelAt hash name =
      ((Broker.machine json).run (Broker.new opt sh)
        (steps.filterMap (Access.onto hash name))).channels name :=
  ((follows_new hash name opt sh).run steps).channel

/-- What can be seen of a channel among threads can be seen of the broker. -/
theorem Follows.observed {ω : Type*} (h : Follows hash name mt b) (json : Wjson V)
    {view : PubsubOp H → Reply H → Option ω}
    (hview : ∀ op reply reply', op.shown reply = op.shown reply' → view op reply = view op reply')
    (steps : List (Access H n)) :
    (accessMachine hash json).observed
        (fun a reply => (a.onto hash name).bind fun op => view op reply) mt steps =
      (Broker.machine json).observed view b (steps.filterMap (Access.onto hash name)) := by
  refine Machine.observed_eq_of_unwinding (R := fun _ mt b => Follows hash name mt b) ?_ ?_ h
  · intro mt b a _ ha h
    refine ⟨h.hidden ha, ?_⟩
    rw [ha, Option.bind_none]
  · intro mt b a _ op ha h
    obtain ⟨hstep, hshown⟩ := h.shown ha
    refine ⟨hstep, ?_⟩
    rw [ha, Option.bind_some]
    exact hview op _ _ hshown

/-- **Each channel is atomic.** In every run of any number of threads, whatever the order of their
lock-protected steps, the calls that name a channel give the replies, and call the handlers, that
the broker gives when it gets these calls alone in the order in which they held the lock, and
gets `describe(id)` and `reset` as single calls in the place of their step on the shard of the
channel. The threads subscribe with ids of their own choice (`Access`). -/
theorem channel_atomic (hash : String → ℕ) (json : Wjson V) (opt : PubsubOptions)
    (sh : Shared V) (steps : List (Access H opt.shardCount)) (name : String) :
    (accessMachine hash json).observed (Access.shown hash name) (PubsubMt.new opt sh) steps =
      (Broker.machine json).observed PubsubOp.shown (Broker.new opt sh)
        (steps.filterMap (Access.onto hash name)) :=
  (follows_new hash name opt sh).observed json (fun _ _ _ h => h) steps

end PubsubMt

end WfcPubsub
