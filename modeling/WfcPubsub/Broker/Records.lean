import WfcPubsub.Broker.Interleaving

/-!
# What is recorded

A database never changes a record: a publish appends one to the log of its channel, in the
database that the lifetime of the message selects, and nothing else touches the logs. So whatever
the threads do, the log of a channel is what was there at the start and, behind it, one record
for each publish that selects this database, in the order in which the publishes held the lock
(`PubsubMt.operands_exact`).

## Main definitions

* `Pubsub.database` : the database that a publish writes to.
* `Access.recorded` : what a step records.

## Main results

* `Channel.Moves.logs`, `Broker.find?_logs_run`
* `PubsubMt.operands_exact`
-/

namespace WfcPubsub

variable {V H : Type} {n : ℕ}

/-- The database that a publish writes to, if it writes to any. -/
def Pubsub.database (opt : PubsubOptions) (now : TimeT) (msg : Message)
    (rocksdb : Option (MultiRocksdb V)) : Option TimeT :=
  if Records opt msg then
    rocksdb.bind fun mr => mr.getDb (complete opt now msg).lifetime
  else none

@[simp] theorem Rocksdb.Entry.extend_nil (e : Rocksdb.Entry V) : e.extend [] = e := by
  rw [extend, List.append_nil]

theorem Rocksdb.Entry.map_extend_nil (e : Option (Rocksdb.Entry V)) : e.map (extend []) = e := by
  cases e with
  | none => rfl
  | some e => rw [Option.map_some, extend_nil]

theorem Rocksdb.Entry.extend_extend (values values' : List V) (e : Rocksdb.Entry V) :
    (e.extend values).extend values' = e.extend (values ++ values') := by
  simp only [extend, List.append_assoc]

/-! ### The logs of a channel -/

namespace Channel

/-- The log that a publish writes to, if it writes to any. -/
def logOf (opt : PubsubOptions) (now : TimeT) (msg : Message) (ch : Channel V H) :
    Option TimeT :=
  if Pubsub.Records opt msg then
    ch.route (Pubsub.complete opt now msg).lifetime
  else none

/-- What `publish` does to the logs. -/
private theorem logs_publish (json : Wjson V) (opt : PubsubOptions) (now : TimeT) (name : String)
    (msg : Message) (ch : Channel V H) :
    (ch.publish json opt now name msg).1.logs =
      match ch.logOf opt now msg with
      | none => ch.logs
      | some ttl => ch.logs.alter ttl
          (Option.map (Rocksdb.Entry.record json (Pubsub.complete opt now msg))) := by
  have hcache : ∀ c : Channel V H, (if Pubsub.Caches opt msg then
      c.cache now (Pubsub.complete opt now msg) else c).logs = c.logs := by
    intro c
    split <;> rfl
  rw [publish_fst, logOf]
  dsimp only
  rw [hcache]
  split
  · rw [log]
    cases ch.route (Pubsub.complete opt now msg).lifetime <;> rfl
  · rfl

/-- One record goes to one log. -/
theorem find?_logs_publish (json : Wjson V) (opt : PubsubOptions) (now : TimeT) (name : String)
    (msg : Message) (ch : Channel V H) (ttl : TimeT) :
    (ch.publish json opt now name msg).1.logs.find? ttl =
      (ch.logs.find? ttl).map (Rocksdb.Entry.extend
        (if ch.logOf opt now msg = some ttl then [json.write [Pubsub.complete opt now msg]]
          else [])) := by
  rw [logs_publish]
  cases ch.logOf opt now msg with
  | none => exact (Rocksdb.Entry.map_extend_nil _).symm
  | some ttl' =>
    dsimp only
    rw [OrderedMap.find?_alter]
    by_cases httl : ttl = ttl'
    · rw [if_pos httl, if_pos (by rw [httl]), httl]
      rfl
    · rw [if_neg httl, if_neg fun h => httl (Option.some.inj h).symm]
      exact (Rocksdb.Entry.map_extend_nil _).symm

/-- Publishing opens and closes no database. -/
theorem keys_publish (json : Wjson V) (opt : PubsubOptions) (now : TimeT) (name : String)
    (msg : Message) (ch : Channel V H) :
    (ch.publish json opt now name msg).1.logs.keys = ch.logs.keys := by
  rw [logs_publish]
  cases ch.logOf opt now msg with
  | none => rfl
  | some ttl => exact OrderedMap.keys_alter_map ..

theorem logOf_congr {ch ch' : Channel V H} (h : ch.logs.keys = ch'.logs.keys)
    (opt : PubsubOptions) (now : TimeT) (msg : Message) :
    ch.logOf opt now msg = ch'.logOf opt now msg := by
  rw [logOf, logOf, route, route, h]

@[simp] theorem logs_afterLoad (json : Wjson V) (opt : PubsubOptions) (now : TimeT)
    (cursor : CursorT) (limit : ℕ) (ch : Channel V H) :
    (ch.afterLoad json opt now cursor limit).logs = ch.logs := by
  rw [afterLoad]
  split <;> rfl

end Channel

/-! ### Runs -/

/-- What a call records in the log `ttl` of a channel. -/
def PubsubOp.recorded (json : Wjson V) (ch : Channel V H) (opt : PubsubOptions) (name : String)
    (ttl : TimeT) : PubsubOp H → Option V
  | .publish now channel msg =>
    if channel = name ∧ ch.logOf opt now msg = some ttl then
      some (json.write [Pubsub.complete opt now msg])
    else none
  | _ => none

/-- What a call does to the logs of a channel: it changes no log but by a record at its end. -/
theorem Channel.Moves.logs {json : Wjson V} {opt : PubsubOptions} {name : String}
    {ch ch' : Channel V H} {op : PubsubOp H} (h : ch.Moves json opt name op ch') :
    ch'.logs.keys = ch.logs.keys ∧
      ∀ ttl, ch'.logs.find? ttl = (ch.logs.find? ttl).map (Rocksdb.Entry.extend
        (op.recorded json ch opt name ttl).toList) := by
  have hsame : ∀ {ch' : Channel V H}, op.changes name = false → ch'.logs = ch.logs →
      ch'.logs.keys = ch.logs.keys ∧
        ∀ ttl, ch'.logs.find? ttl = (ch.logs.find? ttl).map (Rocksdb.Entry.extend
          (op.recorded json ch opt name ttl).toList) := by
    intro ch' hop h
    refine ⟨congrArg _ h, fun ttl => ?_⟩
    have hnone : op.recorded json ch opt name ttl = none := by
      cases op with
      | publish now channel msg => exact if_neg fun h => beq_eq_false_iff_ne.mp hop h.1
      | _ => rfl
    rw [h, hnone, Option.toList_none, Rocksdb.Entry.map_extend_nil]
  cases h with
  | publish now msg =>
    refine ⟨keys_publish .., fun ttl => ?_⟩
    rw [find?_logs_publish, PubsubOp.recorded]
    simp only [true_and]
    split <;> rfl
  | same hop => exact hsame hop rfl
  | load hop _ cursor limit => exact hsame hop (logs_afterLoad ..)
  | subscribe hop _ id handler cursor limit => exact hsame hop (logs_afterLoad ..)
  | describe hop id => exact hsame hop rfl
  | reset => exact ⟨rfl, fun _ => (Rocksdb.Entry.map_extend_nil _).symm⟩

namespace Broker

theorem logs_step (json : Wjson V) (b : Broker V H) (op : PubsubOp H) (name : String) :
    ((b.step json op).1.channels name).logs.keys = (b.channels name).logs.keys ∧
      ∀ ttl, ((b.step json op).1.channels name).logs.find? ttl =
        ((b.channels name).logs.find? ttl).map (Rocksdb.Entry.extend
          (op.recorded json (b.channels name) b.opt name ttl).toList) :=
  (moves_step json b op name).logs

/-- No call opens or closes a log. -/
theorem keys_logs_run (json : Wjson V) (b : Broker V H) (ops : List (PubsubOp H))
    (name : String) :
    (((machine json).run b ops).channels name).logs.keys = (b.channels name).logs.keys := by
  induction ops generalizing b with
  | nil => rfl
  | cons op ops ih => exact (ih _).trans (logs_step json b op name).1

/-- What a run records. -/
theorem find?_logs_run (json : Wjson V) (b : Broker V H) (ops : List (PubsubOp H))
    (name : String) (ttl : TimeT) :
    (((machine json).run b ops).channels name).logs.find? ttl =
      ((b.channels name).logs.find? ttl).map (Rocksdb.Entry.extend
        (ops.filterMap (PubsubOp.recorded json (b.channels name) b.opt name ttl))) := by
  induction ops generalizing b with
  | nil => exact (Rocksdb.Entry.map_extend_nil _).symm
  | cons op ops ih =>
    obtain ⟨hkeys, hfind⟩ := logs_step json b op name
    have hops : ops.filterMap (PubsubOp.recorded json ((b.step json op).1.channels name)
        (b.step json op).1.opt name ttl) =
        ops.filterMap (PubsubOp.recorded json (b.channels name) b.opt name ttl) := by
      refine List.filterMap_congr fun op' _ => ?_
      cases op' with
      | publish now channel msg =>
        simp only [PubsubOp.recorded, step_opt, Channel.logOf_congr hkeys]
      | _ => rfl
    have hrun := ih (b.step json op).1
    rw [hops, hfind, Option.map_map] at hrun
    refine hrun.trans (congrArg (fun f => Option.map f _) (funext fun e => ?_))
    rw [Function.comp_apply, Rocksdb.Entry.extend_extend, List.filterMap_cons]
    cases op.recorded json (b.channels name) b.opt name ttl <;> rfl

end Broker

/-- What a step records in the database `ttl` for a channel. -/
def Access.recorded (json : Wjson V) (opt : PubsubOptions) (rocksdb : Option (MultiRocksdb V))
    (name : String) (ttl : TimeT) : Access H n → Option V
  | .lock (.publish now channel msg) =>
    if channel = name ∧ Pubsub.database opt now msg rocksdb = some ttl then
      some (json.write [Pubsub.complete opt now msg])
    else none
  | _ => none

theorem Shared.find?_logsOf (name : String) (sh : Shared V) (ttl : TimeT) :
    (sh.logsOf name).find? ttl =
      (sh.rocksdb.bind fun mr => mr.rocksdbMap.find? ttl).map fun db => db.db name := by
  rw [logsOf]
  cases sh.rocksdb with
  | none => rfl
  | some mr => exact mr.rocksdbMap.find?_mapValues (fun db => db.db name) ttl

/-- What is recorded for a step is recorded for the call that it is for the channel. -/
theorem Access.recorded_onto [NeZero n] {name : String} {sh : Shared V} {ch : Channel V H}
    (hkeys : ch.logs.keys = (sh.logsOf name).keys) (hash : String → ℕ) (json : Wjson V)
    (opt : PubsubOptions) (ttl : TimeT) (a : Access H n) :
    (a.onto hash name).bind (PubsubOp.recorded json ch opt name ttl) =
      a.recorded json opt sh.rocksdb name ttl := by
  have hlog : ∀ now msg, ch.logOf opt now msg = Pubsub.database opt now msg sh.rocksdb := by
    intro now msg
    have hroute := Pubsub.route_channel (H := H) (Pubsub.complete opt now msg).lifetime name
      (.new opt) sh
    have hlogOf : ch.logOf opt now msg = ((Pubsub.new opt).channel name sh).logOf opt now msg :=
      Channel.logOf_congr hkeys opt now msg
    exact hlogOf.trans (congrArg (fun log => ite _ log none) hroute)
  cases a with
  | lock step =>
    cases step with
    | publish now channel msg =>
      rw [Access.onto, Access.recorded]
      by_cases hname : channel = name
      · rw [if_pos hname, Option.bind_some, PubsubOp.recorded, hlog]
      · rw [if_neg hname, if_neg fun h => hname h.1]
        rfl
    | _ =>
      simp only [Access.onto, Access.recorded]
      split <;> rfl
  | getMessages now params =>
    simp only [Access.onto, Access.recorded]
    split <;> rfl

namespace PubsubMt

/-- **Nothing recorded is lost, repeated or out of order.** Whatever any number of threads do in
whatever order, a database holds for a channel what it held at the start and behind it exactly one
record for each publish on the channel that selects the database, in the order in which the
publishes held the lock. The database and the text of the record depend on the publish alone. -/
theorem operands_exact (hash : String → ℕ) (json : Wjson V) (opt : PubsubOptions)
    (sh : Shared V) (steps : List (Access H opt.shardCount)) (name : String) (ttl : TimeT) :
    let mt := (accessMachine hash json).run (PubsubMt.new opt sh) steps
    ((mt.sh.rocksdb.bind fun mr => mr.rocksdbMap.find? ttl).map fun db => db.db name) =
      (sh.rocksdb.bind fun mr => mr.rocksdbMap.find? ttl).map fun db =>
        (db.db name).extend (steps.filterMap (Access.recorded json opt sh.rocksdb name ttl)) := by
  intro mt
  have hlogs : mt.sh.logsOf name = (((Broker.machine json).run (Broker.new opt sh)
      (steps.filterMap (Access.onto hash name))).channels name).logs :=
    congrArg Channel.logs (channelAt_run hash json opt sh steps name)
  have hkeys : ((Broker.new opt sh : Broker V H).channels name).logs.keys =
      (sh.logsOf name).keys := rfl
  rw [← Shared.find?_logsOf, hlogs, Broker.find?_logs_run, List.filterMap_filterMap]
  simp only [show (Broker.new opt sh : Broker V H).opt = opt from rfl,
    Access.recorded_onto hkeys]
  rw [show ((Broker.new opt sh : Broker V H).channels name).logs = sh.logsOf name from rfl,
    Shared.find?_logsOf, Option.map_map]
  rfl

end PubsubMt

end WfcPubsub
