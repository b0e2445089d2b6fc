import WfcPubsub.Broker.Process
import WfcPubsub.Broker.Readings

/-!
# What the store keeps

A database gets one operand for each message recorded in it, and the threads and the restarts
come between. What it holds is the journal of these messages (`Channel.Journals`). So a reading
replays the journal, once in the merge of the operands and again from what that has left
(`Server.replays_journal`), and where no message addresses another one and no limit cuts, it finds
the messages that have not died, each once and in its place (`Server.durable`).

## Main definitions

* `ProcessOp.journaled`, `Server.journal` : the messages recorded in a database.

## Main results

* `Server.replays_journal`
* `Server.durable`
-/

namespace WfcPubsub

open Contents
open StableOrder (rtake_of_length_le)

variable {V H : Type} {n : ℕ}

/-! ### Messages that neither address others nor are cut off -/

namespace Contents

/-- Published with a birthtime and a lifetime, and with room for `N` messages. -/
structure Roomy (N : ℕ) (m : Message) : Prop where
  action : m.action = .publish
  birthtime : m.birthtime ≠ 0
  lifetime : m.lifetime ≠ 0
  limit : N ≤ m.limit

instance (N : ℕ) : DecidablePred (Roomy N) := fun m =>
  decidable_of_iff (m.action = .publish ∧ m.birthtime ≠ 0 ∧ m.lifetime ≠ 0 ∧ N ≤ m.limit)
    ⟨fun h => ⟨h.1, h.2.1, h.2.2.1, h.2.2.2⟩,
      fun h => ⟨h.action, h.birthtime, h.lifetime, h.limit⟩⟩

variable {ms : List Message} {N : ℕ}

theorem replayable_of_roomy (h : ∀ m ∈ ms, Roomy ms.length m) : Replayable ms where
  birthtime m hm := (h m hm).birthtime
  lifetime m hm _ := (h m hm).lifetime
  crossing := List.pairwise_of_forall_mem_list fun a ha _ _ _ _ => Or.inl (h a ha).action
  fits := fits_of_forall_le fun m hm => Or.inl (h m hm).limit

/-- Such messages are sorted. -/
theorem storeAll_of_roomy (hN : ms.length ≤ N) (h : ∀ m ∈ ms, Roomy N m) (now : TimeT) :
    storeAll now ms [] = ms.mergeSort (StableOrder.upTo Message.cursor) := by
  rw [← List.nil_append ms, ← StableOrder.foldl_insert .nil, List.nil_append]
  induction ms using List.reverseRecOn with
  | nil => rfl
  | append_singleton ms m ih =>
    rw [List.length_append, List.length_singleton] at hN
    obtain ⟨hact, hbirth, hlife, hlimit⟩ := h m (List.mem_append_right _ List.mem_cons_self)
    have hlen := length_storeAll_le now ms []
    rw [List.length_nil] at hlen
    rw [storeAll_append, storeAll_cons, storeAll_nil, List.foldl_concat,
      ← ih (by omega) fun a ha => h a (List.mem_append_left _ ha),
      store_of_publish hact hlife (by omega), rtake_of_length_le (by rw [length_insert]; omega),
      insert, bornAt_of_ne hbirth]

/-- A selection that does not cut finds those of them that are alive and reach the cursor. -/
theorem select_live_storeAll (h : ∀ m ∈ ms, Roomy ms.length m) (now : TimeT) (cursor : CursorT)
    {limit : ℕ} (hlimit : ms.length ≤ limit) :
    select cursor limit (live now (storeAll now ms [])) =
      (ms.filter fun m => now ≤ m.deathtime ∧ cursor ≤ m.cursor).mergeSort
        (StableOrder.upTo Message.cursor) := by
  have hfilter : ((storeAll now ms []).filter fun m => now ≤ m.deathtime).filter
      (fun m => cursor ≤ m.cursor) =
        (ms.filter fun m => now ≤ m.deathtime ∧ cursor ≤ m.cursor).mergeSort
          (StableOrder.upTo Message.cursor) := by
    rw [storeAll_of_roomy le_rfl h now, StableOrder.filter_mergeSort,
      StableOrder.filter_mergeSort, List.filter_filter]
    refine congrArg (List.mergeSort · _) (List.filter_congr fun m _ => ?_)
    rw [Bool.and_comm, Bool.decide_and]
  have hlen : ((ms.filter fun m => now ≤ m.deathtime ∧ cursor ≤ m.cursor).mergeSort
      (StableOrder.upTo Message.cursor)).length ≤ limit := by
    rw [List.length_mergeSort]
    exact (List.length_filter_le _ _).trans hlimit
  rw [select, live, hfilter, rtake_of_length_le hlen]

end Contents

/-! ### The journal -/

section Journal

variable (opt : PubsubOptions) (rocksdb : Option (MultiRocksdb V)) (name : String) (ttl : TimeT)

/-- What a step records in the database `ttl` for the channel. -/
def ProcessOp.recorded (json : Wjson V) : ProcessOp H n → Option V
  | .access a => a.recorded json opt rocksdb name ttl
  | .restart => none

/-- The message that a step records there, as it is read back. -/
def ProcessOp.journaled : ProcessOp H n → Option Message
  | .access (.lock (.publish now channel msg)) =>
    if channel = name ∧ Pubsub.database opt now msg rocksdb = some ttl then
      some (Pubsub.complete opt now msg).wire
    else none
  | _ => none

/-- The operands of a run. -/
def Rocksdb.Entry.journal (json : Wjson V) (ops : List (ProcessOp H n)) : Rocksdb.Entry V where
  operands := ops.filterMap (ProcessOp.recorded opt rocksdb name ttl json)

/-- The messages of a run. -/
def ProcessOp.journal (ops : List (ProcessOp H n)) : List Message :=
  ops.filterMap (ProcessOp.journaled opt rocksdb name ttl)

variable {opt rocksdb name ttl} {json : Wjson V} {ops : List (ProcessOp H n)}

theorem ProcessOp.journal_concat (ops : List (ProcessOp H n)) (op : ProcessOp H n) :
    journal opt rocksdb name ttl (ops ++ [op]) =
      journal opt rocksdb name ttl ops ++ (op.journaled opt rocksdb name ttl).toList := by
  rw [journal, List.filterMap_append, List.filterMap_cons, List.filterMap_nil, journal]
  cases op.journaled opt rocksdb name ttl <;> rfl

theorem Rocksdb.Entry.journal_concat (ops : List (ProcessOp H n)) (op : ProcessOp H n) :
    journal opt rocksdb name ttl json (ops ++ [op]) =
      (journal opt rocksdb name ttl json ops).extend
        (op.recorded opt rocksdb name ttl json).toList := by
  rw [journal, List.filterMap_append, List.filterMap_cons, List.filterMap_nil, extend, journal]
  cases op.recorded opt rocksdb name ttl json <;> rfl

/-- A message is in the journal of a database because a publish has selected this one. -/
theorem ProcessOp.exists_publish {m : Message} (h : m ∈ journal opt rocksdb name ttl ops) :
    ∃ now msg, Pubsub.database opt now msg rocksdb = some ttl ∧
      m = (Pubsub.complete opt now msg).wire := by
  obtain ⟨op, -, hop⟩ := List.mem_filterMap.mp h
  cases op with
  | access a =>
    cases a with
    | lock step =>
      cases step with
      | publish now channel msg =>
        rw [journaled] at hop
        split at hop
        · next hcond => exact ⟨now, msg, hcond.2, (Option.some.inj hop).symm⟩
        · cases hop
      | _ => cases hop
    | _ => cases hop
  | _ => cases hop

/-- The text of a record is that of its message. -/
private theorem decode_recorded (json : Wjson V) (op : ProcessOp H n) :
    (op.recorded opt rocksdb name ttl json).toList.flatMap json.decode =
      (op.journaled opt rocksdb name ttl).toList := by
  cases op with
  | access a =>
    cases a with
    | lock step =>
      cases step with
      | publish now channel msg =>
        rw [ProcessOp.recorded, ProcessOp.journaled, Access.recorded]
        split
        · rw [Option.toList_some, List.flatMap_singleton, Wjson.decode_write]
          rfl
        · rfl
      | _ => rfl
    | _ => rfl
  | _ => rfl

variable (opt rocksdb name ttl) in
theorem Rocksdb.Entry.arrivals_journal (json : Wjson V) (ops : List (ProcessOp H n)) :
    (journal opt rocksdb name ttl json ops).arrivals json =
      ProcessOp.journal opt rocksdb name ttl ops := by
  induction ops using List.reverseRecOn with
  | nil => rfl
  | append_singleton ops op ih =>
    rw [journal_concat, ProcessOp.journal_concat, ← ih, ← decode_recorded json op]
    exact arrivals_append json none _ _

/-- A reading replays the journal, and what is left of it again. -/
theorem Rocksdb.Entry.held_journal (json : Wjson V) (now : TimeT) :
    (journal opt rocksdb name ttl json ops).held json now =
      live now (storeAll now
        (live now (storeAll now (ProcessOp.journal opt rocksdb name ttl ops) [])) []) := by
  have harrivals := arrivals_journal opt rocksdb name ttl json ops
  by_cases hne : (journal opt rocksdb name ttl json ops).operands = []
  · have hempty : journal opt rocksdb name ttl json ops = {} :=
      congrArg (fun operands => ({ operands := operands } : Rocksdb.Entry V)) hne
    rw [← harrivals, hempty]
    rfl
  · have hwire : ∀ m ∈ ProcessOp.journal opt rocksdb name ttl ops, m.wire = m := by
      intro m hm
      obtain ⟨now, msg, -, rfl⟩ := ProcessOp.exists_publish hm
      exact Message.wire_wire _
    rw [held_of_operands json now hne, harrivals, map_wire_eq_self fun x hx =>
      wire_of_mem_storeAll hwire x ((live_sublist _ _).subset hx)]

end Journal

/-! ### What a channel keeps -/

namespace Channel

/-- The logs of a channel are the journal. -/
structure Journals (json : Wjson V) (opt : PubsubOptions) (sh : Shared V) (name : String)
    (ops : List (ProcessOp H n)) (ch : Channel V H) : Prop where
  keys : ch.logs.keys = (sh.logsOf name).keys
  logs : ∀ ttl e, ch.logs.find? ttl = some e → e = .journal opt sh.rocksdb name ttl json ops

variable {json : Wjson V} {opt : PubsubOptions} {sh : Shared V} {name : String}
  {ops : List (ProcessOp H n)} {ch ch' : Channel V H}

/-- What a reading finds in the logs. -/
theorem Journals.logged (h : ch.Journals json opt sh name ops) (now : TimeT)
    (cursor : CursorT) (limit : ℕ) :
    (ch.logged json opt now).flatMap (select cursor limit) =
      (sh.logsOf name).keys.flatMap fun ttl => select cursor limit (live now (storeAll now
        (live now (storeAll now (ProcessOp.journal opt sh.rocksdb name ttl ops) [])) [])) := by
  rw [Channel.logged, ← h.keys]
  split
  · next hdisabled =>
    have hnone : ∀ now msg, Pubsub.database opt now msg sh.rocksdb = none := fun now msg =>
      if_neg fun hrecords => by simp [Pubsub.Records, hdisabled] at hrecords
    have hempty : ∀ ttl, ProcessOp.journal opt sh.rocksdb name ttl ops = [] := by
      intro ttl
      refine List.eq_nil_iff_forall_not_mem.mpr fun m hm => ?_
      obtain ⟨now, msg, hdatabase, -⟩ := ProcessOp.exists_publish hm
      cases (hnone now msg).symm.trans hdatabase
    symm
    refine List.flatMap_eq_nil_iff.mpr fun ttl _ => ?_
    rw [hempty ttl]
    exact select_nil cursor limit
  · rw [OrderedMap.keys, List.flatMap_map, List.flatMap_map]
    refine List.flatMap_congr fun p hp => ?_
    rw [h.logs p.1 p.2 (OrderedMap.find?_eq_some_iff.mpr hp), Rocksdb.Entry.held_journal]

variable [NeZero n] {hash : String → ℕ} {op : ProcessOp H n}

/-- A step records what belongs to the journal. -/
theorem Journals.processed (h : ch.Journals json opt sh name ops)
    (hstep : ch.Processed hash json opt name op ch') :
    ch'.Journals json opt sh name (ops ++ [op]) := by
  refine ⟨hstep.keys.trans h.keys, fun ttl e' he' => ?_⟩
  rw [Rocksdb.Entry.journal_concat]
  cases hstep with
  | @call a op ch' ha hmoves =>
    have hrecorded := Access.recorded_onto h.keys hash json opt ttl a
    rw [ha, Option.bind_some] at hrecorded
    rw [hmoves.logs.2, hrecorded] at he'
    obtain ⟨e, he, rfl⟩ := Option.map_eq_some_iff.mp he'
    rw [h.logs ttl e he, ProcessOp.recorded]
  | @elsewhere a ha =>
    have hrecorded := Access.recorded_onto h.keys hash json opt ttl a
    rw [ha, Option.bind_none] at hrecorded
    rw [ProcessOp.recorded, ← hrecorded, Option.toList_none, Rocksdb.Entry.extend_nil]
    exact h.logs ttl e' he'
  | restart =>
    rw [ProcessOp.recorded, Option.toList_none, Rocksdb.Entry.extend_nil]
    exact h.logs ttl e' he'

/-- The cache holds no message that is not in the journal. -/
def Covered (opt : PubsubOptions) (sh : Shared V) (name : String) (ops : List (ProcessOp H n))
    (ch : Channel V H) : Prop :=
  ∀ m ∈ ch.messages, ∃ ttl, m.wire ∈ ProcessOp.journal opt sh.rocksdb name ttl ops

theorem messages_afterLoad_subset (json : Wjson V) (opt : PubsubOptions) (now : TimeT)
    (cursor : CursorT) (limit : ℕ) (ch : Channel V H) :
    (ch.afterLoad json opt now cursor limit).messages ⊆ ch.messages := by
  rw [afterLoad]
  split
  · exact (live_sublist _ _).subset
  · exact List.Subset.refl _

theorem found_subset (now : TimeT) (ch : Channel V H) : ch.found now ⊆ ch.messages := by
  rw [found]
  split
  · exact (live_sublist _ _).subset
  · exact List.Subset.refl _

/-- Every database message is there, where every message goes to a database and none addresses
another one. -/
theorem Covered.processed (h : ch.Covered opt sh name ops)
    (hstep : ch.Processed hash json opt name op ch')
    (hrecords : ∀ now msg, Pubsub.Caches opt msg →
      ∃ ttl, Pubsub.database opt now msg sh.rocksdb = some ttl)
    (hpublish : ∀ ttl, ∀ m ∈ ProcessOp.journal opt sh.rocksdb name ttl (ops ++ [op]),
      m.action = .publish) : ch'.Covered opt sh name (ops ++ [op]) := by
  have hkept : ∀ m, m ∈ ch.messages →
      ∃ ttl, m.wire ∈ ProcessOp.journal opt sh.rocksdb name ttl (ops ++ [op]) := by
    intro m hm
    obtain ⟨ttl, hmem⟩ := h m hm
    exact ⟨ttl, by rw [ProcessOp.journal_concat]; exact List.mem_append_left _ hmem⟩
  intro x hx
  cases hstep with
  | @call a op ch' ha hmoves =>
    cases hmoves with
    | publish now msg =>
      rw [messages_publish] at hx
      split at hx
      · next hcaches =>
        obtain ⟨ttl, hdatabase⟩ := hrecords now msg hcaches
        obtain rfl := Access.eq_of_onto_eq_publish ha
        have hmem : (Pubsub.complete opt now msg).wire ∈ ProcessOp.journal opt sh.rocksdb name ttl
            (ops ++ [.access (.lock (.publish now name msg))]) := by
          rw [ProcessOp.journal_concat, ProcessOp.journaled, if_pos ⟨rfl, hdatabase⟩]
          exact List.mem_append_right _ List.mem_cons_self
        have haction : (Pubsub.complete opt now msg).action = .publish :=
          hpublish ttl (Pubsub.complete opt now msg).wire hmem
        cases origin_store hx with
        | kept hmem hid => exact hkept x (ch.found_subset now hmem)
        | born hx =>
          rw [hx, bornAt_complete_eq]
          exact ⟨ttl, hmem⟩
        | modified y hy hid hact hx => exact absurd (haction.symm.trans hact) (by decide)
        | updated y hy hid hact hx => exact absurd (haction.symm.trans hact) (by decide)
      · exact hkept x hx
    | same hop => exact hkept x hx
    | load hop hnow cursor limit => exact hkept x (messages_afterLoad_subset json opt _ _ _ _ hx)
    | subscribe hop hnow id handler cursor limit =>
      exact hkept x (messages_afterLoad_subset json opt _ _ _ (ch.subscribe id handler) hx)
    | describe hop id => exact hkept x hx
    | reset => cases hx
  | elsewhere ha => exact hkept x hx
  | restart => cases hx

/-- A reading gives what it finds in the logs, and goes on to the cache unless that is off or
the logs are enough. -/
theorem load_eq_append (json : Wjson V) (opt : PubsubOptions) (now : TimeT) (cursor : CursorT)
    (limit : ℕ) (ch : Channel V H) :
    let stored := (ch.logged json opt now).flatMap (select cursor limit)
    ch.load json opt now cursor limit = stored ++
      if opt.cacheDisabled = true ∨ opt.persistentDefault = true ∧ stored ≠ [] then []
      else select cursor limit (live now ch.messages) := by
  intro stored
  have hanswered : ch.answered json opt now cursor limit = true ↔
      opt.persistentDefault = true ∧ stored ≠ [] := by
    rw [answered, Bool.and_eq_true, Bool.not_eq_true', ← Bool.not_eq_true, List.isEmpty_iff]
  have hreads : ch.Reads json opt now cursor limit ↔
      ¬ (opt.cacheDisabled = true ∨ opt.persistentDefault = true ∧ stored ≠ []) := by
    rw [Reads, not_or, ← hanswered, Bool.not_eq_true, Bool.not_eq_true, and_comm]
  rw [load, List.flatMap_append]
  simp only [hreads]
  split
  · rw [List.flatMap_singleton]
  · next hcond => rw [if_pos (not_not.mp hcond), List.flatMap_nil]

end Channel

/-! ### Readings -/

/-- The times to live of the open databases. -/
def Pubsub.lifetimes (rocksdb : Option (MultiRocksdb V)) : List TimeT :=
  rocksdb.elim [] fun mr => mr.rocksdbMap.keys

theorem Shared.keys_logsOf (name : String) (sh : Shared V) :
    (sh.logsOf name).keys = Pubsub.lifetimes sh.rocksdb := by
  rw [logsOf, Pubsub.lifetimes]
  cases sh.rocksdb with
  | none => rfl
  | some mr => exact mr.rocksdbMap.keys_mapValues fun db => db.db name

namespace Server

variable {hash : String → ℕ} {json : Wjson V} {opt : PubsubOptions} {ropt : RocksdbOptions}
  {s : Server V H opt.shardCount}

/-- What a reader gets. -/
theorem Running.getMessages (h : s.Running opt ropt) (hash : String → ℕ) (json : Wjson V)
    (now : TimeT) (params : SubscribeParams H) :
    (processStep hash json opt ropt s (.access (.getMessages now params))).2 =
      some (.messages ((s.mt.channelAt hash params.channel).load json opt now params.cursor
        params.limit)) := by
  have honto : (Access.getMessages now params : Access H opt.shardCount).onto hash params.channel =
      some (.getMessages now params) := if_pos rfl
  exact ((h.follows hash params.channel).shown honto).2

section Runs

variable {disk : TimeT → Option (Rocksdb V)} {name : String}
  {ops : List (ProcessOp H opt.shardCount)}

/-- Every run keeps the journal, if the disk held nothing for the channel at first. -/
theorem journals_run (hash : String → ℕ) (json : Wjson V)
    (hdisk : ∀ t db, disk t = some db → db.db name = {}) :
    let s := (processMachine hash json opt ropt).run (boot opt ropt disk) ops
    s.Running opt ropt ∧ (s.mt.channelAt hash name).Journals json opt
      { rocksdb := PubsubMt.openRocksdb disk opt ropt } name ops := by
  refine process_induction ops ⟨rfl, fun ttl e he => ?_⟩ fun done op ch ch' _ hstep h =>
    h.processed hstep
  rw [Shared.find?_logsOf, PubsubMt.find?_openRocksdb] at he
  obtain ⟨db, hdb, rfl⟩ := Option.map_eq_some_iff.mp he
  split at hdb
  · exact hdisk ttl db hdb
  · cases hdb

/-- **A reading of the store replays the journal.** Whatever any number of threads have done with
any channels and however often the server has been restarted: a reading takes each database in
turn, pushes all messages ever recorded there for the channel into a queue one after the other,
pushes what is left alive in it into another one, and returns what it selects from that, and then
what it selects from the cache if it goes on to it. Where what is left is settled, it selects
from that. -/
theorem replays_journal (hash : String → ℕ) (json : Wjson V) (opt : PubsubOptions)
    (ropt : RocksdbOptions) (disk : TimeT → Option (Rocksdb V)) (params : SubscribeParams H)
    (hdisk : ∀ t db, disk t = some db → db.db params.channel = {})
    (ops : List (ProcessOp H opt.shardCount)) (now : TimeT) :
    let rocksdb := PubsubMt.openRocksdb disk opt ropt
    let merged := fun ttl =>
      (Rocksdb.replay now (ProcessOp.journal opt rocksdb params.channel ttl ops)).messages
    let stored := (Pubsub.lifetimes rocksdb).flatMap fun ttl =>
      (Rocksdb.replay now (merged ttl)).copyTo params.cursor params.limit []
    let s := (processMachine hash json opt ropt).run (boot opt ropt disk) ops
    (processStep hash json opt ropt s (.access (.getMessages now params))).2 =
        some (.messages (stored ++
          if opt.cacheDisabled = true ∨ opt.persistentDefault = true ∧ stored ≠ [] then []
          else select params.cursor params.limit
            ((s.mt.pubsubList (PubsubMt.index_ hash params.channel)).cached now
              params.channel))) ∧
      ((∀ ttl ∈ Pubsub.lifetimes rocksdb, Settled (merged ttl)) →
        stored = (Pubsub.lifetimes rocksdb).flatMap fun ttl =>
          select params.cursor params.limit (merged ttl)) := by
  intro rocksdb merged stored s
  obtain ⟨hrunning, hjournals⟩ := journals_run hash json hdisk
  have hmerged : ∀ ttl, merged ttl =
      live now (storeAll now (ProcessOp.journal opt rocksdb params.channel ttl ops) []) :=
    fun ttl => messages_replay now _
  have hreplay : ∀ ttl, (Rocksdb.replay now (merged ttl)).copyTo params.cursor params.limit [] =
      select params.cursor params.limit (live now (storeAll now (merged ttl) [])) := fun ttl => by
    rw [Rocksdb.copyTo_replay, List.nil_append]
  refine ⟨?_, fun hsettled => List.flatMap_congr fun ttl httl => ?_⟩
  · have hstored : ((s.mt.channelAt hash params.channel).logged json opt now).flatMap
        (select params.cursor params.limit) = stored := by
      rw [hjournals.logged, Shared.keys_logsOf]
      exact List.flatMap_congr fun ttl _ => by rw [hreplay, hmerged]
    rw [hrunning.getMessages, Channel.load_eq_append, hstored]
    rfl
  · rw [hreplay, storeAll_settled now (hsettled ttl httl), hmerged, live_live le_rfl]

/-- The cache holds nothing but what is in the journal, if every message is recorded and none
addresses another one. -/
theorem covered_run (hash : String → ℕ) (json : Wjson V)
    (hrecords : ∀ now msg, Pubsub.Caches opt msg →
      ∃ ttl, Pubsub.database opt now msg (PubsubMt.openRocksdb disk opt ropt) = some ttl)
    (hpublish : ∀ ttl,
      ∀ m ∈ ProcessOp.journal opt (PubsubMt.openRocksdb disk opt ropt) name ttl ops,
        m.action = .publish) :
    (((processMachine hash json opt ropt).run (boot opt ropt disk) ops).mt.channelAt hash
      name).Covered opt { rocksdb := PubsubMt.openRocksdb disk opt ropt } name ops := by
  refine (process_induction ops (List.forall_mem_nil _) fun done op ch ch' hprefix hstep h => ?_).2
  refine h.processed hstep hrecords fun ttl m hm => hpublish ttl m ?_
  obtain ⟨rest, rfl⟩ := hprefix
  rw [ProcessOp.journal, List.filterMap_append]
  exact List.mem_append_left _ hm

/-- Where a database is open and all messages are recorded, each message finds one. -/
theorem exists_database {rocksdb : Option (MultiRocksdb V)}
    (hdefault : opt.persistentDefault = true) (hdisabled : opt.rocksdbDisabled = false)
    (hopen : Pubsub.lifetimes rocksdb ≠ []) (now : TimeT) {msg : Message}
    (hcaches : Pubsub.Caches opt msg) :
    ∃ ttl, Pubsub.database opt now msg rocksdb = some ttl := by
  have hrecords : Pubsub.Records opt msg := ⟨hcaches.1, by rw [hdefault, hdisabled]; simp⟩
  rw [Pubsub.database, if_pos hrecords]
  cases rocksdb with
  | none => exact absurd rfl hopen
  | some mr =>
    obtain ⟨ttl, hlast⟩ := Option.isSome_iff_exists.mp (List.getLast?_isSome.mpr hopen)
    rw [Option.bind_some, MultiRocksdb.getDb_eq]
    exact Option.isSome_iff_exists.mp (by
      rw [Option.isSome_or, show mr.rocksdbMap.keys.getLast? = some ttl from hlast]
      exact Bool.or_true _)

/-- A publish selects a database that is open. -/
theorem mem_lifetimes_of_database {rocksdb : Option (MultiRocksdb V)} {now : TimeT}
    {msg : Message} {ttl : TimeT} (h : Pubsub.database opt now msg rocksdb = some ttl) :
    ttl ∈ Pubsub.lifetimes rocksdb := by
  rw [Pubsub.database] at h
  split at h
  · cases rocksdb with
    | none => cases h
    | some mr =>
      rw [Option.bind_some, MultiRocksdb.getDb_eq, Option.or_eq_some_iff] at h
      rcases h with hhead | ⟨-, hlast⟩
      · exact (List.dropWhile_sublist _).subset (List.mem_of_mem_head? hhead)
      · exact List.mem_of_getLast? hlast
  · cases h

/-- **Nothing recorded is lost, and nothing comes back.** If the messages recorded for the
channel are published with a birthtime and a lifetime and with limits that do not cut, a reading
whose limit does not cut returns from each database all messages ever recorded there that have
not died and reach the cursor, each once, by their cursors and for equal cursors as they were
published, whatever the threads have done and however often the server has been restarted. If
everything is recorded, nothing else is returned. -/
theorem durable (hash : String → ℕ) (json : Wjson V) (opt : PubsubOptions)
    (ropt : RocksdbOptions) (disk : TimeT → Option (Rocksdb V)) (params : SubscribeParams H)
    (hdisk : ∀ t db, disk t = some db → db.db params.channel = {})
    (ops : List (ProcessOp H opt.shardCount)) (now : TimeT)
    (hroomy : ∀ ttl, (∀ m ∈ ProcessOp.journal opt (PubsubMt.openRocksdb disk opt ropt)
          params.channel ttl ops,
        Roomy (ProcessOp.journal opt (PubsubMt.openRocksdb disk opt ropt) params.channel ttl
          ops).length m) ∧
      (ProcessOp.journal opt (PubsubMt.openRocksdb disk opt ropt) params.channel ttl ops).length ≤
        params.limit) :
    let rocksdb := PubsubMt.openRocksdb disk opt ropt
    let stored := (Pubsub.lifetimes rocksdb).flatMap fun ttl =>
      ((ProcessOp.journal opt rocksdb params.channel ttl ops).filter fun m =>
        now ≤ m.deathtime ∧ params.cursor ≤ m.cursor).mergeSort (StableOrder.upTo Message.cursor)
    let s := (processMachine hash json opt ropt).run (boot opt ropt disk) ops
    ∃ cached, (processStep hash json opt ropt s (.access (.getMessages now params))).2 =
        some (.messages (stored ++ cached)) ∧
      (opt.cacheDisabled = true ∨ opt.persistentDefault = true ∧ opt.rocksdbDisabled = false ∧
        Pubsub.lifetimes rocksdb ≠ [] → cached = []) := by
  intro rocksdb stored s
  obtain ⟨hrunning, hjournals⟩ := journals_run hash json hdisk
  have hstored : ((s.mt.channelAt hash params.channel).logged json opt now).flatMap
      (select params.cursor params.limit) = stored := by
    rw [hjournals.logged, Shared.keys_logsOf]
    refine List.flatMap_congr fun ttl _ => ?_
    have hsettled := settled_storeAll now (replayable_of_roomy (hroomy ttl).1)
    rw [storeAll_settled now (hsettled.sublist (live_sublist _ _)), live_live le_rfl]
    exact select_live_storeAll (hroomy ttl).1 now params.cursor (hroomy ttl).2
  have hload := Channel.load_eq_append json opt now params.cursor params.limit
    (s.mt.channelAt hash params.channel)
  simp only [hstored] at hload
  refine ⟨_, (hrunning.getMessages hash json now params).trans
    (congrArg (fun ml => some (Reply.messages ml)) hload), fun hcond => ?_⟩
  rw [ite_eq_left_iff]
  intro hreads
  rcases hcond with hdisabled | ⟨hdefault, henabled, hopen⟩
  · exact absurd (Or.inl hdisabled) hreads
  · -- What the cache gives, a database gives too.
    have hcovered := covered_run hash json
      (fun now msg hcaches => exists_database hdefault henabled hopen now hcaches)
      fun ttl m hm => ((hroomy ttl).1 m hm).action
    by_contra hne
    obtain ⟨m, hm⟩ := List.exists_mem_of_ne_nil _ hne
    have hcursor : params.cursor ≤ m.cursor := cursor_le_of_mem_select hm
    obtain ⟨hmessages, hlive⟩ := mem_live.mp ((select_sublist _ _ _).subset hm)
    obtain ⟨ttl, hjournal⟩ := hcovered m hmessages
    obtain ⟨now', msg, hdatabase, -⟩ := ProcessOp.exists_publish hjournal
    have hfound : m.wire ∈ (ProcessOp.journal opt rocksdb params.channel ttl ops).filter
        fun m => now ≤ m.deathtime ∧ params.cursor ≤ m.cursor :=
      List.mem_filter.mpr ⟨hjournal, decide_eq_true ⟨hlive, hcursor⟩⟩
    exact hreads (Or.inr ⟨hdefault, List.ne_nil_of_mem (List.mem_flatMap.mpr
      ⟨ttl, mem_lifetimes_of_database hdatabase, List.mem_mergeSort.mpr hfound⟩)⟩)

end Runs

section Examples

open Message (sample)

private def persistentOptions : PubsubOptions := { persistentDefault := true }

private def oneDatabase : RocksdbOptions := { path := "path", ttl := [60] }

private def emptyDisk : TimeT → Option (Rocksdb (Option (List Message))) := fun _ => some {}

/-- A message, a restart and another message. -/
private def twoLives (m m' : Message) : List (ProcessOp Unit persistentOptions.shardCount) :=
  [.access (.lock (.publish 100 "channel" m)), .restart,
    .access (.lock (.publish 120 "channel" m'))]

private theorem journal_twoLives {m m' : Message}
    (hm : Pubsub.database persistentOptions 100 m
      (PubsubMt.openRocksdb emptyDisk persistentOptions oneDatabase) = some 60)
    (hm' : Pubsub.database persistentOptions 120 m'
      (PubsubMt.openRocksdb emptyDisk persistentOptions oneDatabase) = some 60) (ttl : TimeT) :
    ProcessOp.journal persistentOptions
        (PubsubMt.openRocksdb emptyDisk persistentOptions oneDatabase) "channel" ttl
        (twoLives m m') =
      if ttl = 60 then [(Pubsub.complete persistentOptions 100 m).wire,
        (Pubsub.complete persistentOptions 120 m').wire] else [] := by
  simp only [ProcessOp.journal, twoLives, List.filterMap_cons, List.filterMap_nil,
    ProcessOp.journaled, hm, hm', true_and, Option.some.injEq]
  by_cases httl : ttl = 60
  · rw [if_pos httl, if_pos httl.symm, if_pos httl.symm]
  · rw [if_neg httl, if_neg (Ne.symm httl), if_neg (Ne.symm httl)]

/-- A message before the restart, and one that removes it afterwards. -/
theorem replays_journal_removed :
    let rocksdb := PubsubMt.openRocksdb emptyDisk persistentOptions oneDatabase
    let ops := twoLives (sample "a" 1) { sample "a" 2 with action := .remove }
    let params : SubscribeParams Unit := { channel := "channel", limit := 5, handler := () }
    let merged := fun ttl => (Rocksdb.replay 130
      (ProcessOp.journal persistentOptions rocksdb params.channel ttl ops)).messages
    let stored := (Pubsub.lifetimes rocksdb).flatMap fun ttl =>
      (Rocksdb.replay 130 (merged ttl)).copyTo params.cursor params.limit []
    let s := (processMachine String.length .plain persistentOptions oneDatabase).run
      (boot persistentOptions oneDatabase emptyDisk) ops
    (processStep String.length .plain persistentOptions oneDatabase s
        (.access (.getMessages 130 params))).2 =
        some (.messages (stored ++
          if persistentOptions.cacheDisabled = true ∨
            persistentOptions.persistentDefault = true ∧ stored ≠ [] then []
          else select params.cursor params.limit
            ((s.mt.pubsubList (PubsubMt.index_ String.length params.channel)).cached 130
              params.channel))) ∧
      ((∀ ttl ∈ Pubsub.lifetimes rocksdb, Settled (merged ttl)) →
        stored = (Pubsub.lifetimes rocksdb).flatMap fun ttl =>
          select params.cursor params.limit (merged ttl)) := by
  intro rocksdb ops params merged stored s
  refine replays_journal String.length .plain persistentOptions oneDatabase emptyDisk params
    (fun t db hdb => ?_) ops 130
  obtain rfl := Option.some.inj hdb
  rfl

/-- A message before the restart, and one of a smaller cursor after it. -/
theorem durable_two :
    let rocksdb := PubsubMt.openRocksdb emptyDisk persistentOptions oneDatabase
    let ops := twoLives (sample "a" 2) (sample "b" 1)
    let params : SubscribeParams Unit := { channel := "channel", limit := 5, handler := () }
    let stored := (Pubsub.lifetimes rocksdb).flatMap fun ttl =>
      ((ProcessOp.journal persistentOptions rocksdb params.channel ttl ops).filter fun m =>
        130 ≤ m.deathtime ∧ params.cursor ≤ m.cursor).mergeSort (StableOrder.upTo Message.cursor)
    let s := (processMachine String.length .plain persistentOptions oneDatabase).run
      (boot persistentOptions oneDatabase emptyDisk) ops
    ∃ cached, (processStep String.length .plain persistentOptions oneDatabase s
        (.access (.getMessages 130 params))).2 = some (.messages (stored ++ cached)) ∧
      (persistentOptions.cacheDisabled = true ∨ persistentOptions.persistentDefault = true ∧
        persistentOptions.rocksdbDisabled = false ∧ Pubsub.lifetimes rocksdb ≠ [] →
          cached = []) := by
  intro rocksdb ops params stored s
  refine durable String.length .plain persistentOptions oneDatabase emptyDisk params
    (fun t db hdb => ?_) ops 130 fun ttl => ?_
  · obtain rfl := Option.some.inj hdb
    rfl
  · rw [journal_twoLives (by decide) (by decide)]
    split
    · exact ⟨by decide, by decide⟩
    · exact ⟨List.forall_mem_nil _, Nat.zero_le _⟩

end Examples

end Server

end WfcPubsub
