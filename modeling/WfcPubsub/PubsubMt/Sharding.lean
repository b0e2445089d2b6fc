import WfcPubsub.PubsubMt.Basic
import WfcPubsub.Pubsub.Subscriptions

/-!
# Sharding is unobservable

The shards of a `pubsub_mt` are the restrictions of one `pubsub` to the channels that the hash
sends to each of them (`PubsubMt.Shards`). A method that takes a channel looks at that channel
and changes nothing else (`Pubsub.OnChannel`), so it does to one shard what it does to the
whole; a method without a channel acts on all restrictions, and what it counts is a sum over
the entries of a map, which the restrictions partition.

## Main definitions

* `Pubsub.restrict`, `Pubsub.OnChannel`
* `PubsubMt.Shards` : the simulation relation.

## Main results

* `PubsubMt.sharding_unobservable` : no sequential run tells `pubsub_mt` from one `pubsub`.
-/

namespace WfcPubsub

variable {V H α β : Type}

/-! ### Restriction to a set of channels -/

namespace ChannelMap

/-- The channels whose name satisfies `p`. -/
def restrict (p : String → Bool) (cm : ChannelMap) : ChannelMap :=
  { channelMap := cm.channelMap.filterKeys p }

variable {p : String → Bool} {name : String}

theorem find?_restrict (hp : p name = true) (cm : ChannelMap) :
    (cm.restrict p).channelMap.find? name = cm.channelMap.find? name := by
  rw [restrict, OrderedMap.find?_filterKeys, if_pos hp]

theorem contains_restrict (hp : p name = true) (cm : ChannelMap) :
    (cm.restrict p).channelMap.contains name = cm.channelMap.contains name := by
  rw [restrict, OrderedMap.contains_filterKeys, hp, Bool.true_and]

theorem set_restrict (cm : ChannelMap) (mq : MessageQueue) :
    ({ channelMap := cm.channelMap.set name mq } : ChannelMap).restrict p =
      if p name then { channelMap := (cm.restrict p).channelMap.set name mq }
      else cm.restrict p := by
  simp only [restrict, OrderedMap.set, OrderedMap.filterKeys_alter]
  split <;> rfl

theorem erase_restrict (cm : ChannelMap) :
    (cm.erase name).restrict p =
      if p name then (cm.restrict p).erase name else cm.restrict p := by
  simp only [restrict, erase, OrderedMap.erase, OrderedMap.filterKeys_alter]
  split <;> rfl

theorem push_restrict (hp : p name = true) (now : TimeT) (m : Message) (cm : ChannelMap) :
    (cm.restrict p).push now name m =
      ((cm.push now name m).1.restrict p, (cm.push now name m).2) := by
  simp only [push, contains_restrict hp, find?_restrict hp]
  split_ifs
  · rfl
  · rw [set_restrict, if_pos hp]

theorem restrict_push (hp : p name = false) (now : TimeT) (m : Message) (cm : ChannelMap) :
    (cm.push now name m).1.restrict p = cm.restrict p := by
  simp only [push]
  split
  · rfl
  · rw [set_restrict, hp, if_neg Bool.false_ne_true]

theorem findAndRemoveDeath_restrict (hp : p name = true) (now : TimeT) (cm : ChannelMap) :
    (cm.restrict p).findAndRemoveDeath now name =
      ((cm.findAndRemoveDeath now name).1.restrict p, (cm.findAndRemoveDeath now name).2) := by
  simp only [findAndRemoveDeath, find?_restrict hp]
  cases cm.channelMap.find? name with
  | none => rfl
  | some mq =>
    dsimp only
    split
    · rw [erase_restrict, if_pos hp]
    · rw [set_restrict, if_pos hp]

theorem restrict_findAndRemoveDeath (hp : p name = false) (now : TimeT) (cm : ChannelMap) :
    (cm.findAndRemoveDeath now name).1.restrict p = cm.restrict p := by
  rw [findAndRemoveDeath]
  cases cm.channelMap.find? name with
  | none => rfl
  | some mq =>
    dsimp only
    split
    · rw [erase_restrict, hp, if_neg Bool.false_ne_true]
    · rw [set_restrict, hp, if_neg Bool.false_ne_true]

end ChannelMap

namespace Pubsub

/-- What a `pubsub` knows about the channels whose name satisfies `p`. -/
def restrict (p : String → Bool) (ps : Pubsub H) : Pubsub H where
  channelMap := ps.channelMap.restrict p
  handlerMap := ps.handlerMap.filterKeys fun k => p (ofLex k).1
  subscriberSet := ps.subscriberSet.filterKeys fun k => p (ofLex k).2
  opt := ps.opt

@[simp] theorem restrict_opt (p : String → Bool) (ps : Pubsub H) :
    (ps.restrict p).opt = ps.opt := by
  rw [restrict]

/-- A method that looks at one channel and changes no other. -/
structure OnChannel (channel : String) (f : Pubsub H → Pubsub H × α) : Prop where
  inside : ∀ p ps, p channel = true → f (ps.restrict p) = ((f ps).1.restrict p, (f ps).2)
  outside : ∀ p ps, p channel = false → (f ps).1.restrict p = ps.restrict p

section OnChannel

variable {channel : String}

/-- One method after the other, the second may depend on what the first returns. -/
theorem OnChannel.bind {f : Pubsub H → Pubsub H × α} {g : α → Pubsub H → Pubsub H × β}
    (hf : OnChannel channel f) (hg : ∀ a, OnChannel channel (g a)) :
    OnChannel channel fun ps => g (f ps).2 (f ps).1 where
  inside p ps hp := by
    rw [hf.inside p ps hp]
    exact (hg _).inside p _ hp
  outside p ps hp := ((hg _).outside p _ hp).trans (hf.outside p ps hp)

theorem onChannel_describe_ (id : SubscriberId) (channel : String) :
    OnChannel channel (Pubsub.describe_ (H := H) id channel) where
  inside p ps hp := by
    have hc : (ps.restrict p).subscriberSet.contains (toLex (id, channel)) =
        ps.subscriberSet.contains (toLex (id, channel)) := by
      simp only [restrict, OrderedMap.contains_filterKeys, ofLex_toLex, hp, Bool.true_and]
    rw [describe_pair_eq, describe_pair_eq, hc]
    split
    · simp only [restrict, OrderedMap.erase, OrderedMap.filterKeys_alter, ofLex_toLex, hp,
        if_true]
    · rfl
  outside p ps hp := by
    rw [describe_pair_eq]
    split
    · simp only [restrict, OrderedMap.erase, OrderedMap.filterKeys_alter, ofLex_toLex, hp,
        Bool.false_eq_true, if_false]
    · rfl

theorem onChannel_subscribe_ (id : SubscriberId) (channel : String) (handler : H) :
    OnChannel channel (Pubsub.subscribe_ id channel handler) where
  inside p ps hp := by
    simp only [subscribe_, restrict, OrderedMap.insert, OrderedMap.filterKeys_alter, ofLex_toLex,
      hp, if_true, OrderedMap.contains_filterKeys, Bool.true_and]
  outside p ps hp := by
    simp only [subscribe_, restrict, OrderedMap.insert, OrderedMap.filterKeys_alter, ofLex_toLex,
      hp, Bool.false_eq_true, if_false]

theorem onChannel_pushCache (now : TimeT) (channel : String) (msg : Message) :
    OnChannel channel fun ps : Pubsub H => (ps.pushCache now channel msg, ()) where
  inside p ps hp := by
    refine Prod.ext ?_ rfl
    simp only [pushCache, restrict_opt]
    split_ifs
    · simp only [restrict, ChannelMap.push_restrict hp]
    · rfl
  outside p ps hp := by
    simp only [pushCache]
    split
    · simp only [restrict, ChannelMap.restrict_push hp]
    · rfl

theorem onChannel_getCached (now : TimeT) (ml : List Message) (params : SubscribeParams H) :
    OnChannel params.channel (Pubsub.getCached now ml params) where
  inside p ps hp := by
    simp only [getCached, restrict_opt]
    split_ifs
    · rfl
    · simp only [restrict, ChannelMap.getMessages_eq, ChannelMap.findAndRemoveDeath_restrict hp]
  outside p ps hp := by
    simp only [getCached]
    split
    · rfl
    · simp only [restrict, ChannelMap.getMessages_eq, ChannelMap.restrict_findAndRemoveDeath hp]

/-- The handlers that `fire_` calls are registered for its channel. -/
theorem fire_restrict {p : String → Bool} (hp : p channel = true) (msg : Message)
    (ps : Pubsub H) : (ps.restrict p).fire_ channel msg = ps.fire_ channel msg := by
  have hfilter : ∀ l : List (ChannelSubscriber × H),
      (l.filter fun e => p (ofLex e.1).1).filter (fun e => (ofLex e.1).1 == channel) =
        l.filter fun e => (ofLex e.1).1 == channel := by
    intro l
    rw [List.filter_filter]
    refine List.filter_congr fun e _ => ?_
    by_cases he : (ofLex e.1).1 = channel
    · simp [he, hp]
    · simp [he]
  rw [fire_eq, fire_eq, restrict, OrderedMap.filterKeys, hfilter]

theorem onChannel_publish (json : Wjson V) (now : TimeT) (channel : String) (msg : Message)
    (sh : Shared V) :
    OnChannel channel fun ps : Pubsub H => ps.publish json now channel msg sh where
  inside p ps hp := by
    have hpush := (onChannel_pushCache now channel (complete ps.opt now msg)).inside p ps hp
    simp only [Prod.mk.injEq, and_true] at hpush
    simp only [publish, restrict_opt, hpush, fire_restrict hp]
    split_ifs <;> rfl
  outside p ps hp := by
    simp only [publish]
    split
    · exact (onChannel_pushCache now channel _).outside p ps hp
    · rfl

theorem onChannel_getMessages (json : Wjson V) (now : TimeT) (ml : List Message)
    (params : SubscribeParams H) (sh : Shared V) :
    OnChannel params.channel fun ps => ps.getMessages json now ml params sh where
  inside p ps hp := by
    simp only [getMessages, restrict_opt]
    split
    · split
      · rfl
      · exact (onChannel_getCached now _ params).inside p ps hp
    · exact (onChannel_getCached now ml params).inside p ps hp
  outside p ps hp := by
    simp only [getMessages]
    split
    · split
      · rfl
      · exact (onChannel_getCached now _ params).outside p ps hp
    · exact (onChannel_getCached now ml params).outside p ps hp

theorem onChannel_subscribeAs (json : Wjson V) (now : TimeT) (ml : List Message)
    (id : SubscriberId) (params : SubscribeParams H) (sh : Shared V) :
    OnChannel params.channel fun ps => ps.subscribeAs json now ml id params sh :=
  ((onChannel_describe_ id params.channel).bind fun _ =>
    onChannel_subscribe_ id params.channel params.handler).bind fun _ =>
      onChannel_getMessages json now ml params sh

theorem onChannel_subscribe (json : Wjson V) (now : TimeT) (ml : List Message)
    (params : SubscribeParams H) (sh : Shared V) :
    OnChannel params.channel fun ps => ps.subscribe json now ml params sh where
  inside p ps hp := by
    simp only [subscribe, (onChannel_subscribeAs json now ml _ params _).inside p ps hp]
  outside p ps hp := (onChannel_subscribeAs json now ml _ params _).outside p ps hp

end OnChannel

/-! ### Methods without a channel -/

theorem Mirrored.restrict {ps : Pubsub H} (h : ps.Mirrored) (p : String → Bool) :
    (ps.restrict p).Mirrored := by
  intro id channel
  simp only [Pubsub.restrict, OrderedMap.contains_filterKeys, ofLex_toLex, h id channel]

theorem Mirrored.describe_restrict {ps : Pubsub H} (h : ps.Mirrored) (id : SubscriberId)
    (p : String → Bool) :
    ((ps.restrict p).describe id).1 = (ps.describe id).1.restrict p := by
  rw [(h.restrict p).describe_eq, h.describe_eq]
  simp only [Pubsub.restrict]
  rw [OrderedMap.filterKeys_comm, OrderedMap.filterKeys_comm ps.subscriberSet]

theorem getRemoved_restrict (reset : Bool) (ps : Pubsub H) (p : String → Bool) :
    ((ps.restrict p).getRemoved reset).1 = (ps.getRemoved reset).1.restrict p := by
  simp only [getRemoved, ChannelMap.getRemoved, restrict, ChannelMap.restrict,
    OrderedMap.filterKeys_mapValues]

/-! What a method counts is a sum over the parts. -/

section Sums

variable {ι : Type} [Fintype ι] [DecidableEq ι] (part : String → ι) (ps : Pubsub H)

theorem sum_size_filterKeys {κ ν : Type} [LinearOrder κ] (m : OrderedMap κ ν) (part : κ → ι) :
    ∑ i, (m.filterKeys fun k => part k == i).size = m.size := by
  simpa [OrderedMap.size] using m.sum_filterKeys part fun _ => 1

theorem sum_handlerMap_size :
    ∑ i, (ps.restrict fun channel => part channel == i).handlerMap.size = ps.handlerMap.size :=
  sum_size_filterKeys ps.handlerMap fun k => part (ofLex k).1

theorem sum_channelMap_size :
    ∑ i, (ps.restrict fun channel => part channel == i).channelMap.channelMap.size =
      ps.channelMap.channelMap.size :=
  sum_size_filterKeys ps.channelMap.channelMap part

theorem sum_channelMap_entries (weight : String × MessageQueue → ℕ) :
    ∑ i, ((ps.restrict fun channel => part channel == i).channelMap.channelMap.entries.map
      weight).sum = (ps.channelMap.channelMap.entries.map weight).sum :=
  ps.channelMap.channelMap.sum_filterKeys part weight

theorem Mirrored.sum_describe {ps : Pubsub H} (h : ps.Mirrored) (id : SubscriberId) :
    ∑ i, ((ps.restrict fun channel => part channel == i).describe id).2 = (ps.describe id).2 := by
  have hcount : ∀ i, ((ps.restrict fun channel => part channel == i).describe id).2 =
      ((ps.subscriberSet.filterKeys fun k => (ofLex k).1 == id).filterKeys
        fun k => part (ofLex k).2 == i).size := by
    intro i
    rw [(h.restrict _).describe_eq, OrderedMap.filterKeys_comm]
    rfl
  simp only [hcount, sum_size_filterKeys _ fun k : SubscriberChannel => part (ofLex k).2]
  rw [h.describe_eq]
  rfl

end Sums

end Pubsub

/-! ### The simulation -/

namespace PubsubMt

open Pubsub (OnChannel)

variable {n : ℕ}

/-- `size` adds up over the shards. -/
theorem size_eq (mt : PubsubMt V H n) (count : Option ℕ) :
    mt.size count =
      (∑ i, (mt.pubsubList i).channelMap.channelMap.size,
        count.map fun k => k + ∑ i,
          ((mt.pubsubList i).channelMap.channelMap.entries.map fun ch => ch.2.size).sum) := by
  have hfold : ∀ (l : List (Fin n)) (s : ℕ × Option ℕ),
      l.foldl (fun s i =>
        (s.1 + ((mt.pubsubList i).size s.2).1, ((mt.pubsubList i).size s.2).2)) s =
      (s.1 + (l.map fun i => (mt.pubsubList i).channelMap.channelMap.size).sum,
        s.2.map fun k => k + (l.map fun i =>
          ((mt.pubsubList i).channelMap.channelMap.entries.map fun ch => ch.2.size).sum).sum) := by
    intro l
    induction l with
    | nil =>
      intro s
      simp
    | cons i l ih =>
      intro s
      refine (ih _).trans ?_
      simp only [Pubsub.size, ChannelMap.size, List.map_cons, List.sum_cons, Option.map_map,
        Function.comp_def, Nat.add_assoc]
  refine (hfold _ (0, count)).trans ?_
  rw [Fin.sum_univ_def, Fin.sum_univ_def, Nat.zero_add]

/-- Where no shard aborts, `subscriber_count` adds up over the shards. -/
theorem subscriberCount_eq (mt : PubsubMt V H n)
    (h : ∀ i, (mt.pubsubList i).subscriberCount = some (mt.pubsubList i).handlerMap.size) :
    mt.subscriberCount = some (∑ i, (mt.pubsubList i).handlerMap.size) := by
  have hfold : ∀ (l : List (Fin n)) (count : ℕ),
      l.foldl (fun count i => count.bind fun count =>
        (mt.pubsubList i).subscriberCount.map fun k => count + k) (some count) =
      some (count + (l.map fun i => (mt.pubsubList i).handlerMap.size).sum) := by
    intro l
    induction l with
    | nil =>
      intro count
      rfl
    | cons i l ih =>
      intro count
      rw [List.foldl_cons, h i, Option.bind_some, Option.map_some, ih, List.map_cons,
        List.sum_cons, Nat.add_assoc]
  rw [subscriberCount, hfold, Fin.sum_univ_def, Nat.zero_add]

variable [NeZero n] {hash : String → ℕ}

/-- The shards are the restrictions of one `pubsub` to the channels of each index. -/
structure Shards (hash : String → ℕ) (mt : PubsubMt V H n) (s : PubsubState V H) : Prop where
  sh : mt.sh = s.sh
  mirrored : s.ps.Mirrored
  shard : ∀ i, mt.pubsubList i = s.ps.restrict fun channel => index_ hash channel == i

variable {mt : PubsubMt V H n} {s : PubsubState V H}

/-- A method on one channel gives the same result on its shard as on the whole, and leaves the
shards related. -/
theorem Shards.onChannel (h : Shards hash mt s) {channel : String}
    {f : Pubsub H → Pubsub H × α} (hf : OnChannel channel f) :
    (f (mt.pubsubList (index_ hash channel))).2 = (f s.ps).2 ∧
      ∀ i, (mt.setShard (index_ hash channel)
        (f (mt.pubsubList (index_ hash channel))).1).pubsubList i =
          (f s.ps).1.restrict fun channel => index_ hash channel == i := by
  have hin : f (mt.pubsubList (index_ hash channel)) =
      ((f s.ps).1.restrict fun c => index_ hash c == (index_ hash channel : Fin n),
        (f s.ps).2) := by
    rw [h.shard]
    exact hf.inside _ s.ps (beq_self_eq_true _)
  refine ⟨by rw [hin], fun i => ?_⟩
  rw [setShard_pubsubList, hin]
  by_cases hi : i = index_ hash channel
  · subst hi
    rw [Function.update_self]
  · rw [Function.update_of_ne hi, h.shard i]
    exact (hf.outside _ s.ps (by simpa using fun heq => hi heq.symm)).symm

/-- What a method that visits all shards returns, and what it makes of them. -/
theorem Shards.forEachShard (h : Shards hash mt s) (f : Pubsub H → Pubsub H × ℕ) :
    (mt.forEachShard f).2 =
        ∑ i : Fin n, (f (s.ps.restrict fun channel => index_ hash channel == i)).2 ∧
      (mt.forEachShard f).1.sh = s.sh ∧
      ∀ i, (mt.forEachShard f).1.pubsubList i =
        (f (s.ps.restrict fun channel => index_ hash channel == i)).1 := by
  rw [forEachShard_eq]
  simp only [h.shard, h.sh, implies_true, and_self]

theorem Shards.size (h : Shards hash mt s) (count : Option ℕ) :
    mt.size count = s.ps.size count := by
  rw [size_eq]
  simp only [h.shard, Pubsub.sum_channelMap_size, Pubsub.sum_channelMap_entries]
  rfl

theorem Shards.subscriberCount (h : Shards hash mt s) :
    mt.subscriberCount = s.ps.subscriberCount := by
  have hcount : ∀ i,
      (mt.pubsubList i).subscriberCount = some (mt.pubsubList i).handlerMap.size := by
    intro i
    rw [h.shard i]
    exact (h.mirrored.restrict _).subscriberCount_eq
  rw [subscriberCount_eq mt hcount, h.mirrored.subscriberCount_eq]
  simp only [h.shard, Pubsub.sum_handlerMap_size]

theorem shards_step (json : Wjson V) (mt : PubsubMt V H n) (s : PubsubState V H)
    (op : PubsubOp H) (h : Shards hash mt s) :
    Shards hash ((machine hash json).step mt op).1 ((PubsubState.machine json).step s op).1 ∧
      ((machine hash json).step mt op).2 = ((PubsubState.machine json).step s op).2 := by
  have hmirrored := PubsubState.mirrored_step json s op h.mirrored
  obtain ⟨pubsubList, sh⟩ := mt
  obtain rfl : sh = s.sh := h.sh
  cases op with
  | publish now channel msg =>
    obtain ⟨hres, hshard⟩ := h.onChannel (Pubsub.onChannel_publish json now channel msg s.sh)
    obtain ⟨hsh, hcalls⟩ := Prod.ext_iff.mp hres
    exact ⟨⟨hsh, hmirrored, hshard⟩, congrArg Reply.fired hcalls⟩
  | getMessages now params =>
    obtain ⟨hres, hshard⟩ := h.onChannel (Pubsub.onChannel_getMessages json now [] params s.sh)
    exact ⟨⟨rfl, hmirrored, hshard⟩, congrArg Reply.messages hres⟩
  | subscribe now params =>
    obtain ⟨hres, hshard⟩ := h.onChannel (Pubsub.onChannel_subscribe json now [] params s.sh)
    obtain ⟨hsh, hml⟩ := Prod.ext_iff.mp hres
    exact ⟨⟨hsh, hmirrored, hshard⟩,
      congrArg (fun r : List Message × SubscriberId => Reply.subscribed r.2 r.1) hml⟩
  | subscribeAs now id params =>
    obtain ⟨hres, hshard⟩ :=
      h.onChannel (Pubsub.onChannel_subscribeAs json now [] id params s.sh)
    exact ⟨⟨rfl, hmirrored, hshard⟩, congrArg Reply.messages hres⟩
  | describeChannel id channel =>
    obtain ⟨hres, hshard⟩ := h.onChannel (Pubsub.onChannel_describe_ id channel)
    exact ⟨⟨rfl, hmirrored, hshard⟩, congrArg Reply.removed hres⟩
  | describe id =>
    obtain ⟨hres, hsh, hshard⟩ := h.forEachShard fun ps => ps.describe id
    refine ⟨⟨hsh, hmirrored, fun i => ?_⟩, ?_⟩
    · exact (hshard i).trans (h.mirrored.describe_restrict id _)
    · exact congrArg Reply.count (hres.trans (h.mirrored.sum_describe (index_ hash) id))
  | reset =>
    obtain ⟨-, hsh, hshard⟩ := h.forEachShard fun ps => (ps.reset, 0)
    exact ⟨⟨hsh, hmirrored, hshard⟩, rfl⟩
  | getRemoved reset =>
    obtain ⟨hres, hsh, hshard⟩ := h.forEachShard fun ps => ps.getRemoved reset
    refine ⟨⟨hsh, hmirrored, fun i => ?_⟩, ?_⟩
    · exact (hshard i).trans (Pubsub.getRemoved_restrict reset s.ps _)
    · exact congrArg Reply.count (hres.trans (Pubsub.sum_channelMap_entries (index_ hash) s.ps _))
  | size count =>
    exact ⟨h, congrArg (fun r : ℕ × Option ℕ => Reply.size r.1 r.2) (h.size count)⟩
  | emptyCount =>
    obtain ⟨hres, -, -⟩ := h.forEachShard fun ps => (ps, ps.emptyCount)
    refine ⟨h, ?_⟩
    exact congrArg Reply.count (hres.trans (Pubsub.sum_channelMap_entries (index_ hash) s.ps _))
  | subscriberCount => exact ⟨h, congrArg Reply.subscribers h.subscriberCount⟩

/-- **Sharding is unobservable.** For every hash function and every sequential run, `pubsub_mt`
returns what a single `pubsub` with the same options returns that shares the same store and
counter, and calls the same handlers in the same order. The number of shards is `hash_size`,
or one where that is zero. -/
theorem sharding_unobservable (hash : String → ℕ) (json : Wjson V) (opt : PubsubOptions)
    (sh : Shared V) (ops : List (PubsubOp H)) :
    (machine hash json).trace (PubsubMt.new opt sh) ops =
      (PubsubState.machine json).trace (PubsubState.new opt sh) ops :=
  Machine.trace_eq_of_simulation (shards_step json)
    ⟨rfl, fun _ _ => rfl, fun _ => rfl⟩ ops

end PubsubMt

end WfcPubsub
