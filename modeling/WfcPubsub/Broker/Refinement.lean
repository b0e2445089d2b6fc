import Mathlib.Data.Set.Card
import WfcPubsub.Broker.Channels
import WfcPubsub.Lib.Unwinding
import WfcPubsub.Pubsub.ReadYourWrites
import WfcPubsub.PubsubMt.Sharding

/-!
# `pubsub_mt` is a broker

The channels that a `pubsub` presents under all names make up a broker (`PubsubState.broker`).
A call changes this broker as the call of the broker does, and gives the same reply, unless it
asks for statistics of the cache, which the broker does not have and which change nothing. With
the simulation of the shards by one `pubsub`, no run tells `pubsub_mt` from the broker.

## Main definitions

* `PubsubOp.statistic`, `Broker.new`
* `PubsubState.broker`, `PubsubMt.Represents`

## Main results

* `PubsubState.broker_step`, `PubsubMt.Represents.step` : one call.
* `PubsubMt.refines_broker`
-/

namespace WfcPubsub

variable {V H : Type}

/-- The calls that count messages, channels or removals in the caches. -/
def PubsubOp.statistic : PubsubOp H → Bool
  | .size _ | .emptyCount | .getRemoved _ => true
  | _ => false

namespace Broker

/-- The broker before the first call: what the store has recorded is there. -/
def new (opt : PubsubOptions) (sh : Shared V) : Broker V H where
  channels name := { logs := sh.logsOf name }
  opt := opt
  idCounter := sh.idCounter

end Broker

namespace PubsubState

open Pubsub (Mirrored)

/-- The broker that a `pubsub` presents. -/
def broker (s : PubsubState V H) : Broker V H where
  channels name := s.ps.channel name s.sh
  opt := s.ps.opt
  idCounter := s.sh.idCounter

/-- A method that changes one channel. -/
private theorem broker_eq_setChannel {ps ps' : Pubsub H} {sh sh' : Shared V} {name : String}
    {ch : Channel V H} (hopt : ps'.opt = ps.opt) (hcount : sh'.idCounter = sh.idCounter)
    (hch : ∀ name', ps'.channel name' sh' = if name' = name then ch else ps.channel name' sh) :
    broker ⟨ps', sh'⟩ = (broker ⟨ps, sh⟩).setChannel name ch := by
  rw [broker, Broker.setChannel, broker, hopt, hcount]
  refine congrArg (fun channels => Broker.mk channels _ _) (funext fun name' => ?_)
  rw [hch, Function.update_apply]

variable {s : PubsubState V H}

/-! What the calls count. -/

/-- `describe(id)` counts the channels of `id`. -/
private theorem describe_snd (h : s.ps.Mirrored) (id : SubscriberId) :
    (s.ps.describe id).2 = (s.broker.channelsOf id).ncard := by
  have hset : s.broker.channelsOf id = {name | (s.ps.subscriberSet.fiber id).contains name} := by
    ext name
    simp only [Broker.channelsOf, broker, Pubsub.channel, Set.mem_ofPred_eq, OrderedMap.contains,
      OrderedMap.find?_fiber]
    exact Eq.congr_left (h id name).symm
  rw [h.describe_eq, hset, OrderedMap.ncard_contains, OrderedMap.size, OrderedMap.fiber,
    List.length_map]

/-- `subscriber_count` counts the subscriptions. -/
private theorem subscriberCount_eq_ncard (h : s.ps.Mirrored) :
    s.ps.subscriberCount = some s.broker.subscriptions.ncard := by
  have hset : toLex '' s.broker.subscriptions = {k | s.ps.handlerMap.contains k} := by
    ext k
    simp only [Broker.subscriptions, broker, Pubsub.channel, OrderedMap.contains,
      OrderedMap.find?_fiber, Set.mem_image, Set.mem_ofPred_eq]
    constructor
    · rintro ⟨p, hp, rfl⟩
      exact hp
    · exact fun hk => ⟨ofLex k, hk, rfl⟩
  rw [h.subscriberCount_eq, ← OrderedMap.ncard_contains, ← hset,
    Set.ncard_image_of_injective _ toLex.injective]

/-! What the calls do. -/

private theorem broker_subscribeAs (hwf : s.ps.channelMap.WellFormed) (h : s.ps.Mirrored)
    (json : Wjson V) (now : TimeT) (id : SubscriberId) (params : SubscribeParams H) :
    (broker ⟨(s.ps.subscribeAs json now [] id params s.sh).1, s.sh⟩,
        (s.ps.subscribeAs json now [] id params s.sh).2) =
      s.broker.subscribeAs json now id params := by
  have hch := h.channel_subscribeAs hwf json now id params s.sh
  have hopt : (s.ps.subscribeAs json now [] id params s.sh).1.opt = s.ps.opt :=
    opt_step json s (.subscribeAs now id params)
  refine Prod.ext ?_ (hch params.channel).2
  exact broker_eq_setChannel hopt rfl fun name => (hch name).1

/-- A call does to the channels what the call of the broker does, and gives the same reply
unless it asks for statistics. -/
theorem broker_step (json : Wjson V) (op : PubsubOp H) (hwf : s.ps.channelMap.WellFormed)
    (h : s.ps.Mirrored) :
    (step json s op).1.broker = (s.broker.step json op).1 ∧
      (op.statistic = false → (step json s op).2 = (s.broker.step json op).2) := by
  cases op with
  | publish now name msg =>
    refine ⟨?_, fun _ => congrArg Reply.fired (Pubsub.publish_calls_eq json now name msg s.ps s.sh)⟩
    exact broker_eq_setChannel (opt_step json s (.publish now name msg))
      (Pubsub.publish_idCounter ..) (Pubsub.channel_publish hwf json now name msg s.sh)
  | getMessages now params =>
    refine ⟨?_, fun _ => congrArg Reply.messages (Pubsub.getMessages_load hwf json now params s.sh)⟩
    exact broker_eq_setChannel (opt_step json s (.getMessages now params)) rfl
      (Pubsub.channel_getMessages hwf json now params s.sh)
  | subscribe now params =>
    have hsub := broker_subscribeAs (s := ⟨s.ps, { s.sh with idCounter := s.sh.idCounter + 1 }⟩)
      hwf h json now (s.sh.idCounter + 1) params
    exact ⟨congrArg Prod.fst hsub,
      fun _ => congrArg (Reply.subscribed (s.sh.idCounter + 1)) (congrArg Prod.snd hsub)⟩
  | subscribeAs now id params =>
    have hsub := broker_subscribeAs hwf h json now id params
    exact ⟨congrArg Prod.fst hsub, fun _ => congrArg Reply.messages (congrArg Prod.snd hsub)⟩
  | describe id =>
    refine ⟨?_, fun _ => congrArg Reply.count (describe_snd h id)⟩
    exact congrArg (fun channels => Broker.mk channels s.ps.opt s.sh.idCounter)
      (funext fun name => h.channel_describe id s.sh name)
  | describeChannel id name =>
    have hch := h.channel_describe_ id name s.sh
    refine ⟨?_, fun _ => congrArg Reply.removed (hch name).2⟩
    exact broker_eq_setChannel (Pubsub.describe_pair_rest id name s.ps).2 rfl fun name' =>
      (hch name').1
  | reset => exact ⟨rfl, fun _ => rfl⟩
  | size count => exact ⟨rfl, fun hop => by cases hop⟩
  | emptyCount => exact ⟨rfl, fun hop => by cases hop⟩
  | getRemoved reset =>
    refine ⟨?_, fun hop => by cases hop⟩
    exact congrArg (fun channels => Broker.mk channels s.ps.opt s.sh.idCounter)
      (funext fun name => Pubsub.channel_getRemoved reset s.ps name s.sh)
  | subscriberCount =>
    exact ⟨rfl, fun _ => congrArg Reply.subscribers (subscriberCount_eq_ncard h)⟩

end PubsubState

namespace Broker

/-- A call that asks for statistics changes nothing. -/
theorem step_statistic (json : Wjson V) {op : PubsubOp H} (hop : op.statistic = true)
    (b : Broker V H) : (b.step json op).1 = b := by
  cases op <;> first | rfl | cases hop

end Broker

namespace PubsubMt

/-- The shards are those of a `pubsub` that presents the broker. -/
def Represents {n : ℕ} [NeZero n] (hash : String → ℕ) (mt : PubsubMt V H n) (b : Broker V H) :
    Prop :=
  ∃ s : PubsubState V H, Shards hash mt s ∧ s.ps.channelMap.WellFormed ∧ s.broker = b

theorem represents_new (hash : String → ℕ) (opt : PubsubOptions) (sh : Shared V) :
    Represents hash (PubsubMt.new opt sh : PubsubMt V H opt.shardCount) (Broker.new opt sh) :=
  ⟨.new opt sh, ⟨rfl, fun _ _ => rfl, fun _ => rfl⟩, ChannelMap.wellFormed_new, rfl⟩

/-- The broker has the logs of the store. -/
theorem Represents.logs {n : ℕ} [NeZero n] {hash : String → ℕ} {mt : PubsubMt V H n}
    {b : Broker V H} (h : Represents hash mt b) (name : String) :
    (b.channels name).logs = mt.sh.logsOf name := by
  obtain ⟨s, hs, -, rfl⟩ := h
  exact congrArg (Shared.logsOf name) hs.sh.symm

/-- One call on both sides. -/
theorem Represents.step {n : ℕ} [NeZero n] {hash : String → ℕ} {mt : PubsubMt V H n}
    {b : Broker V H} (h : Represents hash mt b) (json : Wjson V) (op : PubsubOp H) :
    Represents hash (mt.step hash json op).1 (b.step json op).1 ∧
      (op.statistic = false → (mt.step hash json op).2 = (b.step json op).2) := by
  obtain ⟨s, hs, hwf, rfl⟩ := h
  obtain ⟨hs', hreply⟩ := shards_step json mt s op hs
  obtain ⟨hstep, hanswer⟩ := PubsubState.broker_step json op hwf hs.mirrored
  exact ⟨⟨_, hs', PubsubState.wellFormed_step json s op hwf, hstep⟩,
    fun hop => hreply.trans (hanswer hop)⟩

/-- What a caller sees who does not ask for statistics. -/
def answer (op : PubsubOp H) (reply : Reply H) : Option (Reply H) :=
  if op.statistic then none else some reply

/-- Such a caller sees the same on both sides. -/
theorem Represents.answer_eq {n : ℕ} [NeZero n] {hash : String → ℕ} {mt : PubsubMt V H n}
    {b : Broker V H} (h : Represents hash mt b) (json : Wjson V) (op : PubsubOp H) :
    answer op (mt.step hash json op).2 = answer op (b.step json op).2 := by
  simp only [answer]
  split
  · rfl
  · next hop => exact congrArg some ((h.step json op).2 (Bool.eq_false_iff.mpr hop))

theorem Represents.run {n : ℕ} [NeZero n] {hash : String → ℕ} {mt : PubsubMt V H n}
    {b : Broker V H} (h : Represents hash mt b) (json : Wjson V) (ops : List (PubsubOp H)) :
    Represents hash ((machine hash json).run mt ops) ((Broker.machine json).run b ops) := by
  induction ops generalizing mt b with
  | nil => exact h
  | cons op ops ih => exact ih (h.step json op).1

/-- Who does not ask for statistics sees what the broker shows him. -/
theorem Represents.observed {n : ℕ} [NeZero n] {hash : String → ℕ} {mt : PubsubMt V H n}
    {b : Broker V H} (h : Represents hash mt b) (json : Wjson V) (ops : List (PubsubOp H)) :
    (machine hash json).observed answer mt ops = (Broker.machine json).observed answer b ops := by
  refine Machine.observed_eq_of_simulation
    (R := fun _ (mt : PubsubMt V H n) b => Represents hash mt b) (fun mt b op _ h => ?_) h
  exact ⟨(h.step json op).1, h.answer_eq json op⟩

/-- **`pubsub_mt` is a broker.** For every hash function, number of shards, options and store,
every sequential run gives the replies, and calls the handlers, of the broker that holds each
channel by itself, and the broker is not even told of the calls that count what is in the
caches. -/
theorem refines_broker (hash : String → ℕ) (json : Wjson V) (opt : PubsubOptions)
    (sh : Shared V) (ops : List (PubsubOp H)) :
    (machine hash json).observed answer (PubsubMt.new opt sh) ops =
      (Broker.machine json).trace (Broker.new opt sh) (ops.filter fun op => !op.statistic) := by
  rw [← Machine.observed_some]
  refine Machine.observed_filter_eq
    (R := fun _ (mt : PubsubMt V H opt.shardCount) b => Represents hash mt b)
    ?_ ?_ (represents_new hash opt sh)
  · intro mt b op _ hop h
    have hop : op.statistic = true := by simpa using hop
    have hstep := (h.step json op).1
    rw [Broker.step_statistic json hop] at hstep
    exact ⟨hstep, if_pos hop⟩
  · intro mt b op _ hop h
    have hop : op.statistic = false := by simpa using hop
    refine ⟨(h.step json op).1, (h.answer_eq json op).trans ?_⟩
    exact if_neg (by rw [hop]; exact Bool.false_ne_true)

end PubsubMt

end WfcPubsub
