import WfcPubsub.Broker.Records

/-!
# How much is held

A message that is stored cuts the queue to its own limit, whatever limit the messages before it
have asked for. So no channel of a cache ever holds more messages than the largest limit of those
published on it, no database replays more than the largest limit recorded there, and a reading
returns at most that many of each (`PubsubMt.bounded`). This holds at every moment of every run
of any number of threads.

## Main definitions

* `Channel.Bounded`

## Main results

* `Contents.length_storeAll_le_of_limit`, `Channel.Bounded.length_load`
* `PubsubMt.bounded`
-/

namespace WfcPubsub

variable {V H : Type} {n L : ℕ}

namespace Contents

theorem length_store_le_of_limit {m : Message} {q : List Message} (hm : m.limit ≤ L)
    (hq : q.length ≤ L) (now : TimeT) : (store now m q).length ≤ L := by
  rw [store]
  split
  · split
    · exact Nat.zero_le _
    · exact hq
  · exact (StableOrder.length_rtake_le _ _).trans hm

theorem length_storeAll_le_of_limit {ms q : List Message} (hms : ∀ m ∈ ms, m.limit ≤ L)
    (hq : q.length ≤ L) (now : TimeT) : (storeAll now ms q).length ≤ L := by
  induction ms generalizing q with
  | nil => exact hq
  | cons m ms ih =>
    obtain ⟨hm, hms⟩ := List.forall_mem_cons.mp hms
    exact ih hms (length_store_le_of_limit hm hq now)

/-- A store gives at most the limit of the reading, and at most what it holds. -/
theorem length_select_le {q : List Message} (hq : q.length ≤ L) (cursor : CursorT) (limit : ℕ) :
    (select cursor limit q).length ≤ min limit L := by
  have hmatching := (List.length_filter_le (fun m => decide (cursor ≤ m.cursor)) q).trans hq
  rw [length_select]
  exact min_le_min_left limit hmatching

theorem length_flatMap_select_le {stores : List (List Message)}
    (h : ∀ q ∈ stores, q.length ≤ L) (cursor : CursorT) (limit : ℕ) :
    (stores.flatMap (select cursor limit)).length ≤ stores.length * min limit L := by
  induction stores with
  | nil => exact Nat.zero_le _
  | cons q stores ih =>
    obtain ⟨hq, hstores⟩ := List.forall_mem_cons.mp h
    rw [List.flatMap_cons, List.length_append, List.length_cons, Nat.add_mul, Nat.one_mul,
      Nat.add_comm]
    exact Nat.add_le_add (ih hstores) (length_select_le hq cursor limit)

end Contents

open Contents

namespace Rocksdb.Entry

/-- What is recorded asks for no larger limit. -/
def Within (json : Wjson V) (L : ℕ) (e : Rocksdb.Entry V) : Prop :=
  ∀ m ∈ e.arrivals json, m.limit ≤ L

instance (json : Wjson V) (L : ℕ) (e : Rocksdb.Entry V) : Decidable (e.Within json L) :=
  inferInstanceAs (Decidable (∀ m ∈ e.arrivals json, m.limit ≤ L))

theorem Within.extend {json : Wjson V} {e : Rocksdb.Entry V} (h : e.Within json L)
    {values : List V} (hvalues : ∀ v ∈ values, ∀ m ∈ json.decode v, m.limit ≤ L) :
    (e.extend values).Within json L := by
  intro m hm
  rw [arrivals, Rocksdb.Entry.extend, ← List.append_assoc, List.flatMap_append] at hm
  rcases List.mem_append.mp hm with hm | hm
  · exact h m hm
  · obtain ⟨v, hv, hm⟩ := List.mem_flatMap.mp hm
    exact hvalues v hv m hm

/-- What a database answers. -/
theorem Within.length_held {json : Wjson V} {e : Rocksdb.Entry V} (h : e.Within json L)
    (now : TimeT) : (e.held json now).length ≤ L := by
  have hlive : ∀ ms : List Message, (∀ m ∈ ms, m.limit ≤ L) →
      (live now (storeAll now ms [])).length ≤ L := fun ms hms =>
    (live_sublist _ _).length_le.trans (length_storeAll_le_of_limit hms (Nat.zero_le _) now)
  rw [held, get]
  by_cases hne : e.operands = []
  · rw [if_pos (by simpa using hne)]
    cases hvalue : e.existing with
    | none => exact Nat.zero_le _
    | some value =>
      dsimp only
      split
      · exact Nat.zero_le _
      · refine hlive _ fun m hm => h m ?_
        simpa [arrivals, hne, hvalue] using hm
  · rw [if_neg (by simpa using hne), fullMergeV2_eq json now _ hne]
    dsimp only
    rw [json.not_isEmpty_write, if_neg Bool.false_ne_true, Wjson.decode_write]
    refine hlive _ fun m hm => ?_
    obtain ⟨x, hx, rfl⟩ := List.mem_map.mp hm
    obtain ⟨-, -, -, y, hy, -, hlimit⟩ := exists_arrival ((live_sublist _ _).subset hx)
    exact hlimit.trans_le (h y hy)

end Rocksdb.Entry

/-! ### Channels -/

namespace Channel

/-- Neither the cache nor a log asks for more messages. -/
structure Bounded (json : Wjson V) (L : ℕ) (ch : Channel V H) : Prop where
  messages : ch.messages.length ≤ L
  logs : ∀ ttl e, ch.logs.find? ttl = some e → e.Within json L

variable {json : Wjson V} {ch : Channel V H}

theorem Bounded.afterLoad (h : ch.Bounded json L) (opt : PubsubOptions) (now : TimeT)
    (cursor : CursorT) (limit : ℕ) : (ch.afterLoad json opt now cursor limit).Bounded json L := by
  rw [Channel.afterLoad]
  split
  · exact ⟨(live_sublist _ _).length_le.trans h.messages, h.logs⟩
  · exact h

/-- A message with such a limit. -/
theorem Bounded.publish (h : ch.Bounded json L) {opt : PubsubOptions} {now : TimeT}
    {msg : Message} (hlimit : (Pubsub.complete opt now msg).limit ≤ L) (name : String) :
    (ch.publish json opt now name msg).1.Bounded json L := by
  refine ⟨?_, fun ttl e hfind => ?_⟩
  · have hfound : (ch.found now).length ≤ L := by
      rw [found]
      split
      · exact (live_sublist _ _).length_le.trans h.messages
      · exact h.messages
    rw [messages_publish]
    split
    · exact length_store_le_of_limit hlimit hfound now
    · exact h.messages
  · rw [find?_logs_publish] at hfind
    obtain ⟨e₀, he₀, rfl⟩ := Option.map_eq_some_iff.mp hfind
    refine (h.logs ttl e₀ he₀).extend fun v hv m hm => ?_
    split at hv
    · obtain rfl := List.mem_singleton.mp hv
      rw [Wjson.decode_write] at hm
      obtain rfl := List.mem_singleton.mp hm
      exact hlimit
    · cases hv

/-- What a reading returns. -/
theorem Bounded.length_load (h : ch.Bounded json L) (opt : PubsubOptions) (now : TimeT)
    (cursor : CursorT) (limit : ℕ) :
    (ch.load json opt now cursor limit).length ≤ (ch.logs.size + 1) * min limit L := by
  have hlogged : (ch.logged json opt now).length ≤ ch.logs.size := by
    rw [logged]
    split
    · exact Nat.zero_le _
    · exact (List.length_map _).le
  have hcached : (if ch.Reads json opt now cursor limit then [live now ch.messages]
      else []).length ≤ 1 := by
    split <;> simp
  refine (length_flatMap_select_le (fun q hq => ?_) cursor limit).trans
    (Nat.mul_le_mul_right _ ?_)
  · rcases List.mem_append.mp hq with hq | hq
    · rw [logged] at hq
      split at hq
      · cases hq
      · obtain ⟨entry, hentry, rfl⟩ := List.mem_map.mp hq
        exact (h.logs _ _ (OrderedMap.find?_eq_some_iff.mpr hentry)).length_held now
    · split at hq
      · obtain rfl := List.mem_singleton.mp hq
        exact (live_sublist _ _).length_le.trans h.messages
      · cases hq
  · rw [List.length_append]
    exact Nat.add_le_add hlogged hcached

end Channel

/-! ### Runs -/

/-- A publish on the channel asks for no larger limit. -/
def PubsubOp.Within (opt : PubsubOptions) (name : String) (L : ℕ) : PubsubOp H → Prop
  | .publish now channel msg => channel = name → (Pubsub.complete opt now msg).limit ≤ L
  | _ => True

namespace Broker

theorem bounded_step {json : Wjson V} {b : Broker V H} {name : String}
    (h : (b.channels name).Bounded json L) {op : PubsubOp H} (hop : op.Within b.opt name L) :
    ((b.step json op).1.channels name).Bounded json L := by
  have hmoves := moves_step json b op name
  generalize (b.step json op).1.channels name = ch at hmoves ⊢
  cases hmoves with
  | publish now msg => exact h.publish (hop rfl) name
  | same => exact h
  | load _ _ cursor limit => exact h.afterLoad b.opt _ cursor limit
  | subscribe _ _ id handler cursor limit =>
    have hsub : ((b.channels name).subscribe id handler).Bounded json L := ⟨h.messages, h.logs⟩
    exact hsub.afterLoad b.opt _ cursor limit
  | describe => exact ⟨h.messages, h.logs⟩
  | reset => exact ⟨Nat.zero_le _, h.logs⟩

theorem bounded_run {json : Wjson V} {b : Broker V H} {name : String}
    (h : (b.channels name).Bounded json L) {ops : List (PubsubOp H)}
    (hops : ∀ op ∈ ops, op.Within b.opt name L) :
    (((machine json).run b ops).channels name).Bounded json L := by
  induction ops generalizing b with
  | nil => exact h
  | cons op ops ih =>
    obtain ⟨hop, hops⟩ := List.forall_mem_cons.mp hops
    refine ih (bounded_step h hop) fun op' hop' => ?_
    rw [show ((machine json).step b op).1.opt = b.opt from step_opt json b op]
    exact hops op' hop'

end Broker

namespace PubsubMt

/-- **What is held is bounded.** Let no message recorded at the start for a channel, and none
published on it, ask for a limit above `L`. Then at every moment of every run of any number of
threads the cache holds at most `L` messages of the channel, the cache and each database answer
a reading with at most `L` messages, and at most its own limit, and all of them together with
at most as many times that as there are stores. -/
theorem bounded (hash : String → ℕ) (json : Wjson V) (opt : PubsubOptions) (sh : Shared V)
    (steps : List (Access H opt.shardCount)) (name : String) (L : ℕ)
    (hstore : ∀ ttl db, (sh.rocksdb.bind fun mr => mr.rocksdbMap.find? ttl) = some db →
      (db.db name).Within json L)
    (hsteps : ∀ now msg, .lock (.publish now name msg) ∈ steps →
      (Pubsub.complete opt now msg).limit ≤ L) :
    let mt := (accessMachine hash json).run (PubsubMt.new opt sh) steps
    let cache := (mt.pubsubList (index_ hash name)).channelMap
    let databases := (sh.rocksdb.map fun mr => mr.rocksdbMap.size).getD 0
    (cache.messages name).length ≤ L ∧
      (∀ cursor limit now,
        ((cache.getMessages cursor limit now (some []) name).2.getD []).length ≤ min limit L) ∧
      (∀ ttl db, (mt.sh.rocksdb.bind fun mr => mr.rocksdbMap.find? ttl) = some db →
        ∀ now cursor limit,
          (db.getMessages json now [] name cursor limit).2.length ≤ min limit L) ∧
      ∀ now (params : SubscribeParams H), params.channel = name →
        (mt.getMessages hash json now [] params).2.length ≤
          (databases + 1) * min params.limit L := by
  intro mt cache databases
  have hfollows : Follows hash name mt ((Broker.machine json).run (.new opt sh)
      (steps.filterMap (Access.onto hash name))) := (follows_new hash name opt sh).run steps
  have hnew : ((Broker.new opt sh : Broker V H).channels name).Bounded json L := by
    refine ⟨Nat.zero_le _, fun ttl e he => ?_⟩
    have he : (sh.logsOf name).find? ttl = some e := he
    rw [Shared.find?_logsOf] at he
    obtain ⟨db, hdb, rfl⟩ := Option.map_eq_some_iff.mp he
    exact hstore ttl db hdb
  have hwithin : ∀ op ∈ steps.filterMap (Access.onto hash name), op.Within opt name L := by
    intro op hop
    obtain ⟨a, ha, hop⟩ := List.mem_filterMap.mp hop
    cases op with
    | publish now channel msg =>
      rintro rfl
      exact hsteps now msg (Access.eq_of_onto_eq_publish hop ▸ ha)
    | _ => trivial
  have hbounded := Broker.bounded_run hnew hwithin
  have hsize : (mt.channelAt hash name).logs.size = databases := by
    rw [hfollows.channel, ← OrderedMap.length_keys, Broker.keys_logs_run]
    show (sh.logsOf name).keys.length = _
    rw [OrderedMap.length_keys, Shared.logsOf]
    cases hrocksdb : sh.rocksdb with
    | none => simp [databases, hrocksdb, OrderedMap.size, OrderedMap.empty]
    | some mr => simp [databases, hrocksdb, OrderedMap.size, OrderedMap.mapValues]
  rw [← hfollows.channel] at hbounded
  have hvalid := hfollows.valid (index_ hash name)
  refine ⟨hbounded.messages, fun cursor limit now => ?_, fun ttl db hdb now cursor limit => ?_,
    fun now params hname => ?_⟩
  · rw [hvalid.wellFormed.getMessages_eq, Option.getD_some, List.nil_append]
    exact length_select_le ((live_sublist _ _).length_le.trans hbounded.messages) cursor limit
  · have hlog : (mt.channelAt hash name).logs.find? ttl = some (db.db name) := by
      show (mt.sh.logsOf name).find? ttl = _
      rw [Shared.find?_logsOf, hdb, Option.map_some]
    rw [Rocksdb.getMessages_eq, List.nil_append]
    exact length_select_le ((hbounded.logs ttl _ hlog).length_held now) cursor limit
  · subst hname
    rw [← hsize, show (mt.getMessages hash json now [] params).2 = _ from
      Pubsub.getMessages_load hvalid.wellFormed json now params mt.sh]
    exact hbounded.length_load _ now params.cursor params.limit

section Examples

open Message (sample)

/-- A database in which one message has been recorded. -/
private def recordedStore : Shared (Option (List Message)) :=
  let db : Rocksdb _ := { db := fun _ => { operands := [Wjson.plain.write [sample "a" 1]] } }
  { rocksdb := some { rocksdbMap := OrderedMap.empty.set 60 db } }

/-- A message behind the recorded one. -/
theorem bounded_ten :
    let start : PubsubMt _ Unit (PubsubOptions.shardCount {}) := PubsubMt.new {} recordedStore
    let mt := (accessMachine String.length .plain).run start
      [.lock (.publish 100 "channel" (sample "b" 2))]
    let cache := (mt.pubsubList (index_ String.length "channel")).channelMap
    let databases := (recordedStore.rocksdb.map fun mr => mr.rocksdbMap.size).getD 0
    (cache.messages "channel").length ≤ 10 ∧
      (∀ cursor limit now, ((cache.getMessages cursor limit now (some []) "channel").2.getD
        []).length ≤ min limit 10) ∧
      (∀ ttl db, (mt.sh.rocksdb.bind fun mr => mr.rocksdbMap.find? ttl) = some db →
        ∀ now cursor limit,
          (db.getMessages .plain now [] "channel" cursor limit).2.length ≤ min limit 10) ∧
      ∀ now (params : SubscribeParams Unit), params.channel = "channel" →
        (mt.getMessages String.length .plain now [] params).2.length ≤
          (databases + 1) * min params.limit 10 := by
  refine bounded String.length .plain {} recordedStore
    [.lock (.publish 100 "channel" (sample "b" 2))] "channel" 10 (fun ttl db hfind => ?_) ?_
  · simp only [recordedStore, Option.bind_some, OrderedMap.find?_set] at hfind
    split at hfind
    · obtain rfl := Option.some.inj hfind
      decide
    · cases hfind
  · intro now msg hmem
    cases List.mem_singleton.mp hmem
    decide

end Examples

end PubsubMt

end WfcPubsub
