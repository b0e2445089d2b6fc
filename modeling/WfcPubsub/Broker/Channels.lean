import WfcPubsub.Broker.Basic
import WfcPubsub.ChannelMap.Runs

/-!
# The channels of a `pubsub`

Under each name a `pubsub` and the store it shares present a channel (`Pubsub.channel`). Every
method does to the channel that it names what the operation of `Channel` does, and leaves all
others alone; what a method returns, it takes from that channel.

## Main definitions

* `Shared.logsOf`, `Pubsub.channel`

## Main results

* `Pubsub.channel_publish`, `Pubsub.channel_getMessages`, `Pubsub.channel_subscribeAs`,
  `Pubsub.channel_describe_`, `Pubsub.channel_describe`
* `Pubsub.publish_calls_eq`, `Pubsub.getMessages_load`
-/

namespace WfcPubsub

open Contents

variable {V H : Type}

/-- What the databases have recorded for a channel. -/
def Shared.logsOf (name : String) (sh : Shared V) : OrderedMap TimeT (Rocksdb.Entry V) :=
  (sh.rocksdb.map fun mr => mr.rocksdbMap.mapValues fun db => db.db name).getD .empty

/-- The channel under a name. -/
def Pubsub.channel (name : String) (ps : Pubsub H) (sh : Shared V) : Channel V H where
  messages := ps.channelMap.messages name
  pushed := (ps.channelMap.queue name).lastRemoveDeath
  subscribers := ps.handlerMap.fiber name
  logs := sh.logsOf name

/-- A subscription takes the place of one that has ended as it does of one that has not. -/
theorem Channel.subscribe_describe (id : SubscriberId) (handler : H) (ch : Channel V H) :
    (ch.describe id).subscribe id handler = ch.subscribe id handler := by
  have hset : (ch.subscribers.erase id).set id handler = ch.subscribers.set id handler := by
    refine OrderedMap.ext_find? fun id' => ?_
    simp only [OrderedMap.find?_set, OrderedMap.find?_erase]
    split <;> rfl
  rw [subscribe, describe, hset, subscribe]

/-! ### Logs -/

namespace MultiRocksdb

/-- What a push makes of what the databases have recorded for each channel. -/
private theorem mapValues_push (json : Wjson V) (name name' : String) (m : Message)
    (mr : MultiRocksdb V) (hm : ¬ (m.lifetime = 0 ∧ m.limit = 0)) :
    ((mr.push json name m).1.rocksdbMap.mapValues fun db => db.db name') =
      match mr.getDb m.lifetime with
      | none => mr.rocksdbMap.mapValues fun db => db.db name'
      | some ttl =>
        if name' = name then
          (mr.rocksdbMap.mapValues fun db => db.db name').alter ttl
            (Option.map (Rocksdb.Entry.record json m))
        else mr.rocksdbMap.mapValues fun db => db.db name' := by
  have hnonzero : m.lifetime ≠ 0 ∨ m.limit ≠ 0 := by
    by_contra hcon
    exact hm (by simpa [not_or, not_not] using hcon)
  refine OrderedMap.ext_find? fun ttl' => ?_
  rw [OrderedMap.find?_mapValues, find?_push]
  cases hdb : mr.getDb m.lifetime with
  | none =>
    dsimp only
    rw [if_neg (by simp), OrderedMap.find?_mapValues]
  | some ttl =>
    dsimp only
    by_cases hname : name' = name
    · subst hname
      rw [if_pos rfl, OrderedMap.find?_alter, OrderedMap.find?_mapValues,
        OrderedMap.find?_mapValues]
      by_cases httl : ttl' = ttl
      · rw [if_pos ⟨hnonzero, by rw [httl]⟩, if_pos httl, httl, Option.map_map, Option.map_map]
        refine congrArg (fun f => Option.map f _) (funext fun db => ?_)
        exact Rocksdb.push_db json name' m db
      · rw [if_neg fun h => httl (Option.some.inj h.2).symm, if_neg httl]
    · rw [if_neg hname, OrderedMap.find?_mapValues]
      split
      · rw [Option.map_map]
        refine congrArg (fun f => Option.map f _) (funext fun db => ?_)
        exact Function.update_of_ne hname ..
      · rfl

end MultiRocksdb

/-- The log for a lifetime is the database for it. -/
theorem Pubsub.route_channel (lifetime : TimeT) (name : String) (ps : Pubsub H) (sh : Shared V) :
    (ps.channel name sh).route lifetime = sh.rocksdb.bind fun mr => mr.getDb lifetime := by
  rw [Channel.route, channel, Shared.logsOf]
  cases sh.rocksdb with
  | none => rfl
  | some mr =>
    rw [Option.bind_some, MultiRocksdb.getDb_eq, Option.map_some, Option.getD_some,
      OrderedMap.keys_mapValues]

/-- A push to the store records the message in the log of its channel. -/
theorem Shared.logsOf_push (json : Wjson V) (name name' : String) {m : Message}
    (hm : ¬ (m.lifetime = 0 ∧ m.limit = 0)) (ps : Pubsub H) (sh : Shared V) :
    Shared.logsOf name' { sh with rocksdb := sh.rocksdb.map fun db => (db.push json name m).1 } =
      if name' = name then ((ps.channel name sh).log json m).logs else sh.logsOf name' := by
  obtain ⟨rocksdb, idCounter⟩ := sh
  rw [Channel.log, Pubsub.route_channel]
  cases rocksdb with
  | none =>
    split
    · rfl
    · rfl
  | some mr =>
    refine (MultiRocksdb.mapValues_push json name name' m mr hm).trans ?_
    rw [Option.bind_some]
    by_cases hname : name' = name
    · subst hname
      simp only [if_true]
      cases mr.getDb m.lifetime <;> rfl
    · simp only [if_neg hname]
      cases mr.getDb m.lifetime <;> rfl

/-! ### The cache -/

namespace ChannelMap

variable {cm : ChannelMap}

/-- A push leaves its own time behind. -/
theorem lastRemoveDeath_push (now : TimeT) (name name' : String) {m : Message}
    (hm : ¬ (m.lifetime = 0 ∧ m.limit = 0)) (cm : ChannelMap) :
    ((cm.push now name m).1.queue name').lastRemoveDeath =
      if name' = name then now else (cm.queue name').lastRemoveDeath := by
  have hguard : ¬ (!cm.channelMap.contains name && (m.lifetime == 0 && m.limit == 0)) = true := by
    rw [Bool.and_eq_true, not_and]
    exact fun _ h => hm (by simpa using h)
  rw [ChannelMap.push, if_neg hguard, queue_set]
  split
  · exact MessageQueue.push_lastRemoveDeath ..
  · rfl

/-- A reading that leaves a channel empty discards it, with the time of its last push. -/
theorem WellFormed.lastRemoveDeath_found (h : cm.WellFormed) (now : TimeT) (name name' : String) :
    ((cm.findAndRemoveDeath now name).1.queue name').lastRemoveDeath =
      if name' = name then
        (if (live now (cm.messages name)).isEmpty then 0 else (cm.queue name).lastRemoveDeath)
      else (cm.queue name').lastRemoveDeath := by
  rw [ChannelMap.queue, find?_findAndRemoveDeath]
  split
  · have hlive := h.messages_found now name
    rw [findAndRemoveDeath_snd] at hlive ⊢
    rw [← hlive, ChannelMap.queue]
    cases cm.channelMap.find? name with
    | none => rfl
    | some mq =>
      rw [Option.map_some, Option.filter_some]
      cases hempty : (mq.removeDeath now).empty with
      | true => rfl
      | false =>
        have hne : (mq.removeDeath now).messages.isEmpty = false := by
          rw [MessageQueue.messages, List.isEmpty_map]
          exact hempty
        simp only [Bool.not_false, if_true, Option.getD_some, hne, Bool.false_eq_true, if_false]
        exact MessageQueue.removeDeath_lastRemoveDeath mq now
  · rfl

end ChannelMap

/-! ### The methods -/

namespace Pubsub

variable {ps : Pubsub H}

/-- `fire_` calls the subscribers of the channel. -/
theorem fire_channel (name : String) (m : Message) (ps : Pubsub H) (sh : Shared V) :
    ps.fire_ name m = (ps.channel name sh).fire name m := by
  rw [fire_eq, Channel.fire, channel, OrderedMap.fiber, List.map_map]
  rfl

theorem channel_pushCache (h : ps.channelMap.WellFormed) (now : TimeT) (name : String)
    {m : Message} (hm : ¬ (m.lifetime = 0 ∧ m.limit = 0)) (sh : Shared V) (name' : String) :
    (ps.pushCache now name m).channel name' sh =
      if name' = name ∧ (!ps.opt.cacheDisabled && !m.persistent) = true then
        (ps.channel name sh).cache now m
      else ps.channel name' sh := by
  rw [pushCache]
  by_cases hcache : (!ps.opt.cacheDisabled && !m.persistent) = true
  · rw [if_pos hcache]
    have hmessages := h.messages_push_eq now name m name'
    have htime := ps.channelMap.lastRemoveDeath_push now name name' hm
    simp only [channel, hmessages, htime]
    by_cases hname : name' = name
    · subst hname
      simp only [if_true, hcache, and_self]
      rfl
    · simp only [hname, if_false, false_and]
  · rw [if_neg hcache, if_neg fun hcond => hcache hcond.2]

/-- A message that is stored keeps its lifetime or its limit when the defaults are filled in. -/
theorem complete_nonzero {m : Message} (hm : ¬ (m.lifetime = 0 ∧ m.limit = 0))
    (opt : PubsubOptions) (now : TimeT) :
    ¬ ((complete opt now m).lifetime = 0 ∧ (complete opt now m).limit = 0) := by
  rintro ⟨hlife, hlimit⟩
  refine hm ⟨by_contra fun hne => ?_, by_contra fun hne => ?_⟩
  · refine hne ?_
    rw [← hlife, complete]
    split_ifs <;> simp_all
  · refine hne ?_
    rw [← hlimit, complete]
    split_ifs <;> simp_all

theorem accepted_iff {m : Message} :
    (!(m.lifetime == 0 && m.limit == 0)) = true ↔ ¬ (m.lifetime = 0 ∧ m.limit = 0) := by
  rw [Bool.not_eq_true', ← Bool.not_eq_true, Bool.and_eq_true, beq_iff_eq, beq_iff_eq]

/-- What the push to the store does to the channels. -/
theorem channel_pushRocksdb (json : Wjson V) (opt : PubsubOptions) (name name' : String)
    {m : Message} (hm : ¬ (m.lifetime = 0 ∧ m.limit = 0)) (ps : Pubsub H) (sh : Shared V) :
    ps.channel name' (pushRocksdb json opt name m sh) =
      if name' = name ∧ ((m.persistent || opt.persistentDefault) && !opt.rocksdbDisabled) = true
      then (ps.channel name sh).log json m
      else ps.channel name' sh := by
  have hpush : pushRocksdb json opt name m sh =
      if ((m.persistent || opt.persistentDefault) && !opt.rocksdbDisabled) = true then
        { sh with rocksdb := sh.rocksdb.map fun db => (db.push json name m).1 }
      else sh := by
    rw [pushRocksdb]
    cases opt.rocksdbDisabled <;> simp
  have hlogs := Shared.logsOf_push json name name' hm ps sh
  rw [hpush]
  by_cases hstored : ((m.persistent || opt.persistentDefault) && !opt.rocksdbDisabled) = true
  · rw [if_pos hstored, channel, hlogs]
    by_cases hname : name' = name
    · subst hname
      rw [if_pos rfl, if_pos ⟨rfl, hstored⟩, Channel.log]
      split <;> rfl
    · rw [if_neg hname, if_neg fun h => hname h.1, channel]
  · rw [if_neg hstored, if_neg fun h => hstored h.2]

/-- A publish changes nothing in the logs of other channels. -/
theorem channel_publish_shared (json : Wjson V) (now : TimeT) {name name' : String}
    (hname : name' ≠ name) (m : Message) (ps ps' : Pubsub H) (sh : Shared V) :
    ps'.channel name' (ps.publish json now name m sh).2.1 = ps'.channel name' sh := by
  rw [publish]
  split
  · next hm =>
    have hm := complete_nonzero (accepted_iff.mp hm) ps.opt now
    exact (channel_pushRocksdb json ps.opt name name' hm ps' sh).trans
      (if_neg fun h => hname h.1)
  · rfl

theorem publish_idCounter (json : Wjson V) (now : TimeT) (name : String) (m : Message)
    (ps : Pubsub H) (sh : Shared V) :
    (ps.publish json now name m sh).2.1.idCounter = sh.idCounter := by
  simp only [publish, pushRocksdb]
  split_ifs <;> rfl

/-- What `publish` does to the channels. -/
theorem channel_publish (h : ps.channelMap.WellFormed) (json : Wjson V) (now : TimeT)
    (name : String) (m : Message) (sh : Shared V) (name' : String) :
    (ps.publish json now name m sh).1.channel name' (ps.publish json now name m sh).2.1 =
      if name' = name then ((ps.channel name sh).publish json ps.opt now name m).1
      else ps.channel name' sh := by
  rw [publish, Channel.publish]
  by_cases hm : m.lifetime = 0 ∧ m.limit = 0
  · rw [if_neg fun h => accepted_iff.mp h hm, if_pos hm]
    split
    · next hname => rw [hname]
    · rfl
  · rw [if_pos (accepted_iff.mpr hm), if_neg hm]
    have hm := complete_nonzero hm ps.opt now
    have hlog := channel_pushRocksdb json ps.opt name name' hm ps sh
    dsimp only
    rw [channel_pushCache h now name hm, hlog]
    by_cases hname : name' = name
    · subst hname
      simp only [true_and, if_true, Channel.keep] at hlog ⊢
      rw [hlog]
    · rw [if_neg hname, if_neg fun h => hname h.1, if_neg fun h => hname h.1]

/-- What `publish` calls. -/
theorem publish_calls_eq (json : Wjson V) (now : TimeT) (name : String) (m : Message)
    (ps : Pubsub H) (sh : Shared V) :
    (ps.publish json now name m sh).2.2 =
      ((ps.channel name sh).publish json ps.opt now name m).2 := by
  rw [publish, Channel.publish]
  by_cases hm : m.lifetime = 0 ∧ m.limit = 0
  · rw [if_neg fun h => accepted_iff.mp h hm, if_pos hm]
    exact fire_channel name m ps sh
  · rw [if_pos (accepted_iff.mpr hm), if_neg hm]
    refine (fire_channel name _ _ sh).trans ?_
    simp only [Channel.fire, channel, (pushCache_indexes ..).1]

/-! Reading. -/

/-- The logs hold what the databases hold. -/
theorem logged_channel (json : Wjson V) (now : TimeT) (name : String) (ps : Pubsub H)
    (sh : Shared V) :
    (ps.channel name sh).logged json ps.opt now =
      ((store ps.opt sh).map (databases json now name)).getD [] := by
  rw [Channel.logged, store, channel, Shared.logsOf]
  cases ps.opt.rocksdbDisabled with
  | true => rfl
  | false =>
    cases sh.rocksdb with
    | none => rfl
    | some mr =>
      simp only [Option.map_some, Option.getD_some, OrderedMap.mapValues, List.map_map]
      rfl

/-- When a reading gets to the cache. -/
theorem reads_channel_iff (json : Wjson V) (now : TimeT) (params : SubscribeParams H)
    (ps : Pubsub H) (sh : Shared V) :
    (ps.channel params.channel sh).Reads json ps.opt now params.cursor params.limit ↔
      ¬ (ps.opt.persistentDefault &&
        !((((store ps.opt sh).map (databases json now params.channel)).getD []).flatMap
          (select params.cursor params.limit)).isEmpty || ps.opt.cacheDisabled) = true := by
  rw [Channel.Reads, Channel.answered, logged_channel, Bool.not_eq_true, Bool.or_eq_false_iff]

/-- What `get_messages` returns. -/
theorem getMessages_load (h : ps.channelMap.WellFormed) (json : Wjson V) (now : TimeT)
    (params : SubscribeParams H) (sh : Shared V) :
    (ps.getMessages json now [] params sh).2 =
      (ps.channel params.channel sh).load json ps.opt now params.cursor params.limit := by
  rw [getMessages_eq json now params h, stores, Channel.load, logged_channel]
  simp only [reads_channel_iff, ite_not]
  rfl

/-- What `get_messages` does to the object. -/
theorem getMessages_fst_eq (json : Wjson V) (now : TimeT) (params : SubscribeParams H)
    (ps : Pubsub H) (sh : Shared V) :
    (ps.getMessages json now [] params sh).1 =
      if (ps.channel params.channel sh).Reads json ps.opt now params.cursor params.limit then
        { ps with channelMap := (ps.channelMap.findAndRemoveDeath now params.channel).1 }
      else ps := by
  have hcached : ∀ ml, (ps.getCached now ml params).1 =
      if ps.opt.cacheDisabled then ps
      else { ps with channelMap := (ps.channelMap.findAndRemoveDeath now params.channel).1 } := by
    intro ml
    rw [getCached]
    split
    · rfl
    · rw [ChannelMap.getMessages_eq]
  simp only [reads_channel_iff, ite_not]
  rw [getMessages]
  cases store ps.opt sh with
  | none =>
    rw [hcached]
    simp
  | some db =>
    have hdbs : (db.getMessages json now [] params.channel params.cursor params.limit).2 =
        (databases json now params.channel db).flatMap (select params.cursor params.limit) := by
      rw [MultiRocksdb.getMessages_eq, databases, List.flatMap_map]
      rfl
    dsimp only [Option.map_some, Option.getD_some]
    rw [hdbs, Bool.and_comm]
    split
    · next hanswered => simp [hanswered]
    · next hanswered => simp only [Bool.eq_false_iff.mpr hanswered, Bool.false_or, hcached]

/-- What `get_messages` does to the channels. -/
theorem channel_getMessages (h : ps.channelMap.WellFormed) (json : Wjson V) (now : TimeT)
    (params : SubscribeParams H) (sh : Shared V) (name : String) :
    (ps.getMessages json now [] params sh).1.channel name sh =
      if name = params.channel then
        (ps.channel params.channel sh).afterLoad json ps.opt now params.cursor params.limit
      else ps.channel name sh := by
  rw [getMessages_fst_eq, Channel.afterLoad]
  split
  · have hmessages := h.messages_findAndRemoveDeath now params.channel name
    have htime := h.lastRemoveDeath_found now params.channel name
    simp only [channel, hmessages, htime]
    by_cases hname : name = params.channel
    · subst hname
      simp only [if_true]
      rfl
    · simp only [if_neg hname]
  · split
    · next hname => rw [hname]
    · rfl

/-! Subscriptions. -/

theorem channel_subscribe_ (id : SubscriberId) (name : String) (handler : H)
    (hfresh : ps.handlerMap.contains (toLex (name, id)) = false) (sh : Shared V)
    (name' : String) :
    (ps.subscribe_ id name handler).1.channel name' sh =
      if name' = name then (ps.channel name sh).subscribe id handler
      else ps.channel name' sh := by
  have hset : ps.handlerMap.insert (toLex (name, id)) handler =
      ps.handlerMap.set (toLex (name, id)) handler := by
    refine OrderedMap.ext_find? fun k => ?_
    rw [OrderedMap.find?_insert, OrderedMap.find?_set]
    split
    · have hnone : ps.handlerMap.find? (toLex (name, id)) = none := by
        simpa [OrderedMap.contains] using hfresh
      rw [hnone, Option.getD_none]
    · rfl
  simp only [channel, subscribe_, hset, OrderedMap.fiber_set]
  by_cases hname : name' = name
  · subst hname
    simp only [if_true]
    rfl
  · simp only [if_neg hname]

/-- `describe_` ends a subscription of the channel, if there is one. -/
theorem Mirrored.channel_describe_ (h : ps.Mirrored) (id : SubscriberId) (name : String)
    (sh : Shared V) (name' : String) :
    (ps.describe_ id name).1.channel name' sh =
        (if name' = name then (ps.channel name sh).describe id else ps.channel name' sh) ∧
      (ps.describe_ id name).2 = (ps.channel name sh).subscribers.contains id := by
  have hcontains : ps.subscriberSet.contains (toLex (id, name)) =
      (ps.channel name sh).subscribers.contains id := by
    rw [h id name, OrderedMap.contains, OrderedMap.contains, channel, OrderedMap.find?_fiber]
  have hfiber : (ps.describe_ id name).1.handlerMap.fiber name' =
      if name' = name then (ps.handlerMap.fiber name).erase id else ps.handlerMap.fiber name' := by
    refine OrderedMap.ext_find? fun id' => ?_
    rw [OrderedMap.find?_fiber, (h.find?_describe_ id name id' name').2]
    by_cases hname : name' = name
    · subst hname
      simp
    · simp [hname]
  obtain ⟨hcm, hopt⟩ := describe_pair_rest id name ps
  refine ⟨?_, ?_⟩
  · simp only [channel, hcm, hfiber]
    by_cases hname : name' = name
    · subst hname
      simp only [if_true]
      rfl
    · simp only [if_neg hname]
  · rw [describe_pair_eq, ← hcontains]
    split
    · next hc => exact hc.symm
    · next hc => exact (Bool.eq_false_iff.mpr hc).symm

/-- `describe(id)` ends the subscription in every channel. -/
theorem Mirrored.channel_describe (h : ps.Mirrored) (id : SubscriberId) (sh : Shared V)
    (name : String) :
    (ps.describe id).1.channel name sh = (ps.channel name sh).describe id := by
  have hfiber : (ps.describe id).1.handlerMap.fiber name = (ps.handlerMap.fiber name).erase id := by
    refine OrderedMap.ext_find? fun id' => ?_
    rw [OrderedMap.find?_fiber, (h.find?_describe id id' name).2, OrderedMap.find?_erase,
      OrderedMap.find?_fiber]
  rw [channel, hfiber]
  rfl

/-- `subscribe` puts the subscription in the place of the earlier one and loads. -/
theorem Mirrored.channel_subscribeAs (h : ps.Mirrored) (hwf : ps.channelMap.WellFormed)
    (json : Wjson V) (now : TimeT) (id : SubscriberId) (params : SubscribeParams H)
    (sh : Shared V) (name : String) :
    let ch := (ps.channel params.channel sh).subscribe id params.handler
    (ps.subscribeAs json now [] id params sh).1.channel name sh =
        (if name = params.channel then ch.afterLoad json ps.opt now params.cursor params.limit
          else ps.channel name sh) ∧
      (ps.subscribeAs json now [] id params sh).2 =
        ch.load json ps.opt now params.cursor params.limit := by
  intro ch
  set ps' := ((ps.describe_ id params.channel).1.subscribe_ id params.channel params.handler).1
    with hps'
  have hcm := (describe_pair_rest id params.channel ps).1
  have hopt : ps'.opt = ps.opt := (describe_pair_rest id params.channel ps).2
  have hwf' : ps'.channelMap.WellFormed := by
    show (ps.describe_ id params.channel).1.channelMap.WellFormed
    rwa [hcm]
  have hfresh : (ps.describe_ id params.channel).1.handlerMap.contains
      (toLex (params.channel, id)) = false := by
    rw [OrderedMap.contains, (h.find?_describe_ id params.channel id params.channel).2,
      if_pos ⟨rfl, rfl⟩]
    rfl
  have hch : ∀ name, ps'.channel name sh =
      if name = params.channel then ch else ps.channel name sh := by
    intro name
    rw [hps', channel_subscribe_ id params.channel params.handler hfresh,
      (h.channel_describe_ id params.channel sh name).1,
      (h.channel_describe_ id params.channel sh params.channel).1, if_pos rfl,
      Channel.subscribe_describe]
    by_cases hname : name = params.channel
    · rw [if_pos hname, if_pos hname]
    · simp only [if_neg hname]
  refine ⟨?_, ?_⟩
  · refine (channel_getMessages hwf' json now params sh name).trans ?_
    rw [hch, if_pos rfl, hopt, hch]
    by_cases hname : name = params.channel
    · rw [if_pos hname, if_pos hname]
    · simp only [if_neg hname]
  · refine (getMessages_load hwf' json now params sh).trans ?_
    rw [hch, if_pos rfl, hopt]

/-! Statistics. -/

theorem channel_getRemoved (reset : Bool) (ps : Pubsub H) (name : String) (sh : Shared V) :
    (ps.getRemoved reset).1.channel name sh = ps.channel name sh := by
  have hmessages := ps.channelMap.messages_getRemoved reset name
  have hqueue := ps.channelMap.queue_getRemoved reset name
  have htime : ((ps.channelMap.getRemoved reset).1.queue name).lastRemoveDeath =
      (ps.channelMap.queue name).lastRemoveDeath := by
    rw [hqueue, MessageQueue.getRemoved]
    split <;> rfl
  simp only [channel, getRemoved, hmessages, htime]

theorem channel_reset (ps : Pubsub H) (name : String) (sh : Shared V) :
    ps.reset.channel name sh = (ps.channel name sh).reset := rfl

end Pubsub

end WfcPubsub
