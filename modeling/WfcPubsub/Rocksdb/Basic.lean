import WfcPubsub.ChannelMap

/-!
# The persistent store

The merge operator, one database (class `rocksdb`) and the set of databases, one per configured
time to live (class `multi_rocksdb`).

Two parts are not in the repository. The JSON serializer is a parameter `Wjson`: a text
written for a list of messages reads back as the same list, but for the member `persistent`,
which the schema `message_json` does not have. RocksDB itself is what its documentation says
of a merge: a database holds for each key an optional value and the operands merged into it
since, oldest first, and `Get` applies the merge operator to them. The databases are opened as
`DBWithTTL`, whose compactions also delete what was written longer ago than the time to live.
Compactions are not modelled: what is said here of a database is said of one that has not been
compacted.

Sources: `pubsub/rocksdb/merge_operator.cpp`, `pubsub/rocksdb/rocksdb.cpp`,
`pubsub/rocksdb/multi_rocksdb.cpp`, `pubsub/api/message_json.hpp`.
-/

namespace WfcPubsub

/-- The message as it comes back from JSON. -/
def Message.wire (m : Message) : Message := { m with persistent := false }

/-- The serializer `wjson::vector_of<message_json>` between message lists and the byte strings
`V` that RocksDB stores; `read` is `none` where it reports a `json_error`. -/
structure Wjson (V : Type) where
  write : List Message → V
  read : V → Option (List Message)
  isEmpty : V → Bool
  read_write : ∀ ml, read (write ml) = some (ml.map Message.wire)
  not_isEmpty_write : ∀ ml, isEmpty (write ml) = false

/-- A serializer that stores the message list itself; `none` is the empty string. -/
def Wjson.plain : Wjson (Option (List Message)) where
  write ml := some (ml.map Message.wire)
  read := id
  isEmpty := Option.isNone
  read_write _ := rfl
  not_isEmpty_write _ := rfl

variable {V : Type}

/-! ### `merge_operator` -/

/-- Push a list of messages in order, at one value of the clock. -/
def MessageQueue.pushAll (now : TimeT) (ms : List Message) (mq : MessageQueue) : MessageQueue :=
  ms.foldl (fun mq m => (mq.pushMessage now m).1) mq

/-- `add_to_queue`: a value that is not valid JSON is logged and skipped. -/
def addToQueue (json : Wjson V) (now : TimeT) (mq : MessageQueue) (value : V) : MessageQueue :=
  match json.read value with
  | none => mq
  | some ms => mq.pushAll now ms

/-- `merge_operator::FullMergeV2`; the result is what it assigns to `new_value`, `none` if it
leaves that untouched. The only exception `push` can throw is for an action that is none of the
five, so the handlers are not modelled. -/
def fullMergeV2 (json : Wjson V) (now : TimeT) (existing : Option V) (operands : List V) :
    Option V :=
  if operands.isEmpty then none
  else
    let mq :=
      match existing with
      | some value => addToQueue json now .new value
      | none => .new
    let mq := operands.foldl (addToQueue json now) mq
    some (json.write ((mq.removeDeath now).copyToAll []))

/-! ### One database -/

/-- What a database holds for a key: a value and the operands merged into it since, oldest
first. -/
structure Rocksdb.Entry (V : Type) where
  existing : Option V := none
  operands : List V := []

/-- `class rocksdb`, an open database. -/
structure Rocksdb (V : Type) where
  db : String → Rocksdb.Entry V := fun _ => {}

namespace Rocksdb

/-- `DB::Get`: `none` where the key is not found. -/
def Entry.get (json : Wjson V) (now : TimeT) (e : Entry V) : Option V :=
  if e.operands.isEmpty then e.existing else fullMergeV2 json now e.existing e.operands

/-- `push(name, m)`: one merge operand with the one message. The method returns `false`
whatever happens. -/
def push (json : Wjson V) (name : String) (m : Message) (r : Rocksdb V) : Rocksdb V × Bool :=
  let e := r.db name
  ({ db := Function.update r.db name { e with operands := e.operands ++ [json.write [m]] } },
    false)

/-- The queue that `get_messages` builds from a value. -/
def replay (now : TimeT) (ms : List Message) : MessageQueue :=
  (MessageQueue.new.pushAll now ms).removeDeath now

/-- `get_messages(ml, name, cursor, limit)`. -/
def getMessages (json : Wjson V) (now : TimeT) (ml : List Message) (name : String)
    (cursor : CursorT) (limit : ℕ) (r : Rocksdb V) : Bool × List Message :=
  match (r.db name).get json now with
  | none => (false, ml)
  | some value =>
    if json.isEmpty value then (false, ml)
    else
      match json.read value with
      | none => (false, ml)
      | some ms => (true, (replay now ms).copyTo cursor limit ml)

end Rocksdb

/-! ### The databases of all lifetimes -/

/-- `class multi_rocksdb`. -/
structure MultiRocksdb (V : Type) where
  rocksdbMap : OrderedMap TimeT (Rocksdb V) := .empty
  channels : OrderedSet String := .empty
  channelsCache : Bool := false

namespace MultiRocksdb

/-- The constructor. -/
def new : MultiRocksdb V := {}

/-- The loop of `configure` that opens a database for each time to live, up to the first one
that `create` cannot open; `olds` are the databases to close afterwards. -/
def openAll (create : TimeT → Option (Rocksdb V)) :
    List TimeT → OrderedMap TimeT (Rocksdb V) → OrderedSet TimeT →
      OrderedMap TimeT (Rocksdb V) × Option (OrderedSet TimeT)
  | [], map, olds => (map, some olds)
  | t :: ttl, map, olds =>
    match create t with
    | some db => openAll create ttl (map.set t db) (olds.erase t)
    | none => (map, none)

/-- `configure`; `create` is the factory. -/
def configure (create : TimeT → Option (Rocksdb V)) (channelsCache : Bool) (ttl : List TimeT)
    (mr : MultiRocksdb V) : MultiRocksdb V × Bool :=
  let olds := mr.rocksdbMap.mapValues fun _ => ()
  match openAll create ttl mr.rocksdbMap olds with
  | (map, none) => ({ mr with rocksdbMap := map, channelsCache := channelsCache }, false)
  | (map, some olds) =>
    ({ mr with
      rocksdbMap := map.filterKeys fun t => !olds.contains t
      channelsCache := channelsCache }, true)

/-- `get_db_(ttl)`, the database named by its key: the smallest time to live that is not below
`ttl`, or the largest one, or none at all. -/
def getDb (ttl : TimeT) (mr : MultiRocksdb V) : Option TimeT :=
  match mr.rocksdbMap.lowerBound ttl with
  | e :: _ => some e.1
  | [] => mr.rocksdbMap.entries.getLast?.map Prod.fst

/-- `push(channel, m)`. -/
def push (json : Wjson V) (channel : String) (m : Message) (mr : MultiRocksdb V) :
    MultiRocksdb V × Bool :=
  if m.lifetime == 0 && m.limit == 0 then (mr, false)
  else
    match mr.getDb m.lifetime with
    | none => (mr, false)
    | some ttl =>
      ({ mr with
        rocksdbMap := mr.rocksdbMap.alter ttl (Option.map fun db => (db.push json channel m).1)
        channels := if mr.channelsCache then mr.channels.insert channel () else mr.channels },
        false)

/-- `get_messages(ml, channel, cursor, limit)`: every database in turn. -/
def getMessages (json : Wjson V) (now : TimeT) (ml : List Message) (channel : String)
    (cursor : CursorT) (limit : ℕ) (mr : MultiRocksdb V) : Bool × List Message :=
  mr.rocksdbMap.entries.foldl (fun (result, ml) db =>
    let (r, ml) := db.2.getMessages json now ml channel cursor limit
    (result || r, ml)) (false, ml)

/-- `close()`. -/
def close (mr : MultiRocksdb V) : MultiRocksdb V := { mr with rocksdbMap := .empty }

end MultiRocksdb

end WfcPubsub
