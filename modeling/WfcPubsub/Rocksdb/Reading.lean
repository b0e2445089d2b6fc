import WfcPubsub.Rocksdb.Merge

/-!
# Reading the persistent store

`rocksdb::get_messages` builds a queue from the value of the key and copies from it as the cache
does. `Rocksdb.held` is what that queue holds; with it a reading of one database is a selection,
and one of all databases is the concatenation of their selections.

## Main definitions

* `Rocksdb.held` : the messages of a database at a value of the clock.

## Main results

* `Rocksdb.getMessages_eq`, `MultiRocksdb.getMessages_eq`
* `Rocksdb.held_push` : what a push makes of the messages of a database.
-/

namespace WfcPubsub

open Contents MessageQueue

variable {V : Type}

namespace Rocksdb

/-- The messages that a reading at `now` finds in what is recorded for a key. -/
def Entry.held (json : Wjson V) (now : TimeT) (e : Entry V) : List Message :=
  match e.get json now with
  | none => []
  | some value =>
    if json.isEmpty value then [] else live now (storeAll now (json.decode value) [])

/-- The messages of a key that a reading at `now` finds. -/
def held (json : Wjson V) (now : TimeT) (name : String) (r : Rocksdb V) : List Message :=
  (r.db name).held json now

/-- Add operands to what is recorded. -/
def Entry.extend (values : List V) (e : Entry V) : Entry V :=
  { e with operands := e.operands ++ values }

/-- What is copied from the queue of a replay. -/
theorem copyTo_replay (now : TimeT) (ms : List Message) (cursor : CursorT) (limit : ℕ)
    (out : List Message) :
    (replay now ms).copyTo cursor limit out =
      out ++ select cursor limit (live now (storeAll now ms [])) := by
  have hqueue : (replay now ms).WellFormed := (wellFormed_new.pushAll now ms).removeDeath now
  rw [copyTo_messages hqueue, messages_replay]

theorem getMessages_eq (json : Wjson V) (now : TimeT) (ml : List Message) (name : String)
    (cursor : CursorT) (limit : ℕ) (r : Rocksdb V) :
    (r.getMessages json now ml name cursor limit).2 =
      ml ++ select cursor limit (r.held json now name) := by
  have hnil : ml = ml ++ select cursor limit [] := by
    rw [select_nil, List.append_nil]
  rw [getMessages, held, Entry.held]
  cases (r.db name).get json now with
  | none => exact hnil
  | some value =>
    dsimp only
    split
    · exact hnil
    · rw [Wjson.decode]
      cases json.read value with
      | none => exact hnil
      | some ms => exact copyTo_replay now ms cursor limit ml

theorem ordered_held (json : Wjson V) (now : TimeT) (name : String) (r : Rocksdb V) :
    Ordered (r.held json now name) := by
  rw [held, Entry.held]
  split
  · exact .nil
  · split
    · exact .nil
    · rw [← messages_replay]
      exact ((wellFormed_new.pushAll now _).removeDeath now).ordered_messages

@[simp] theorem push_db (json : Wjson V) (name : String) (m : Message) (r : Rocksdb V) :
    (r.push json name m).1.db name =
      { r.db name with operands := (r.db name).operands ++ [json.write [m]] } :=
  Function.update_self ..

/-- The messages that a database holds for a key without merging them, in order of arrival. -/
def Entry.arrivals (json : Wjson V) (e : Entry V) : List Message :=
  (e.existing.toList ++ e.operands).flatMap json.decode

/-- The messages of the oldest operands come first. -/
theorem arrivals_append (json : Wjson V) (existing : Option V) (pre post : List V) :
    ({ existing := existing, operands := pre ++ post } : Entry V).arrivals json =
      ({ existing := existing, operands := pre } : Entry V).arrivals json ++
        post.flatMap json.decode := by
  rw [Entry.arrivals, Entry.arrivals, ← List.append_assoc, List.flatMap_append]

/-- With an operand recorded, a reading replays the live part of the replay of all arrivals. -/
theorem Entry.held_of_operands (json : Wjson V) (now : TimeT) {e : Entry V}
    (hne : e.operands ≠ []) :
    e.held json now =
      live now (storeAll now
        ((live now (storeAll now (e.arrivals json) [])).map Message.wire) []) := by
  have hget : e.get json now =
      some (json.write (live now (storeAll now (e.arrivals json) []))) := by
    rw [Entry.get, if_neg (by simpa using hne), fullMergeV2_eq json now _ hne]
    rfl
  rw [Entry.held, hget]
  dsimp only
  rw [json.not_isEmpty_write, if_neg Bool.false_ne_true, Wjson.decode_write]

theorem arrivals_push (json : Wjson V) (name : String) (m : Message) (r : Rocksdb V) :
    ((r.push json name m).1.db name).arrivals json =
      (r.db name).arrivals json ++ [m.wire] := by
  rw [push_db]
  simp only [Entry.arrivals, ← List.append_assoc, List.flatMap_append, List.flatMap_cons,
    List.flatMap_nil, List.append_nil, Wjson.decode_write, List.map_cons, List.map_nil]

/-- A push stores one more message behind the arrivals. -/
theorem held_push (json : Wjson V) (now : TimeT) (name : String) (m : Message) (r : Rocksdb V) :
    (r.push json name m).1.held json now name =
      live now (storeAll now ((live now (store now m.wire
        (storeAll now ((r.db name).arrivals json) []))).map Message.wire) []) := by
  rw [held, Entry.held_of_operands json now (by simp), arrivals_push, storeAll_append,
    storeAll_cons, storeAll_nil]

end Rocksdb

namespace MultiRocksdb

theorem getMessages_eq (json : Wjson V) (now : TimeT) (ml : List Message) (channel : String)
    (cursor : CursorT) (limit : ℕ) (mr : MultiRocksdb V) :
    (mr.getMessages json now ml channel cursor limit).2 =
      ml ++ mr.rocksdbMap.entries.flatMap fun db =>
        select cursor limit (db.2.held json now channel) := by
  have hfold : ∀ (dbs : List (TimeT × Rocksdb V)) (s : Bool × List Message),
      (dbs.foldl (fun s db =>
        (s.1 || (db.2.getMessages json now s.2 channel cursor limit).1,
          (db.2.getMessages json now s.2 channel cursor limit).2)) s).2 =
      s.2 ++ dbs.flatMap fun db => select cursor limit (db.2.held json now channel) := by
    intro dbs
    induction dbs with
    | nil => simp
    | cons db dbs ih =>
      intro s
      rw [List.foldl_cons, ih, List.flatMap_cons, ← List.append_assoc,
        ← Rocksdb.getMessages_eq json now s.2 channel cursor limit db.2]
  exact hfold _ (false, ml)

/-- A message is read with a cursor and a limit if its database holds it and it is selected. -/
theorem mem_getMessages {json : Wjson V} {now : TimeT} {channel : String} {cursor : CursorT}
    {limit : ℕ} {mr : MultiRocksdb V} {x : Message} :
    x ∈ (mr.getMessages json now [] channel cursor limit).2 ↔
      ∃ ttl db, mr.rocksdbMap.find? ttl = some db ∧
        x ∈ select cursor limit (db.held json now channel) := by
  rw [getMessages_eq, List.nil_append, List.mem_flatMap]
  simp only [OrderedMap.find?_eq_some_iff, Prod.exists]

/-! ### The database that a lifetime selects -/

/-- The database depends on the configured times to live only. -/
theorem getDb_eq (ttl : TimeT) (mr : MultiRocksdb V) :
    mr.getDb ttl =
      ((mr.rocksdbMap.keys.dropWhile fun t => t < ttl).head?.or mr.rocksdbMap.keys.getLast?) := by
  rw [getDb, OrderedMap.keys, List.dropWhile_map, List.getLast?_map, OrderedMap.lowerBound]
  cases hrange : mr.rocksdbMap.entries.dropWhile fun e => decide (e.1 < ttl) with
  | nil =>
    have : mr.rocksdbMap.entries.dropWhile ((fun t => decide (t < ttl)) ∘ Prod.fst) = [] := hrange
    rw [this]
    rfl
  | cons e rest =>
    have : mr.rocksdbMap.entries.dropWhile ((fun t => decide (t < ttl)) ∘ Prod.fst) = e :: rest :=
      hrange
    rw [this]
    rfl

theorem keys_push (json : Wjson V) (channel : String) (m : Message) (mr : MultiRocksdb V) :
    (mr.push json channel m).1.rocksdbMap.keys = mr.rocksdbMap.keys := by
  rw [push]
  split
  · rfl
  · split
    · rfl
    · exact OrderedMap.keys_alter_map ..

theorem getDb_push (json : Wjson V) (channel : String) (m : Message) (mr : MultiRocksdb V)
    (ttl : TimeT) : (mr.push json channel m).1.getDb ttl = mr.getDb ttl := by
  rw [getDb_eq, getDb_eq, keys_push]

/-- `push` changes the database that the lifetime selects. -/
theorem find?_push (json : Wjson V) (channel : String) (m : Message) (mr : MultiRocksdb V)
    (ttl : TimeT) :
    (mr.push json channel m).1.rocksdbMap.find? ttl =
      if (m.lifetime ≠ 0 ∨ m.limit ≠ 0) ∧ mr.getDb m.lifetime = some ttl then
        (mr.rocksdbMap.find? ttl).map fun db => (db.push json channel m).1
      else mr.rocksdbMap.find? ttl := by
  rw [push]
  split
  · next h =>
    have hzero : m.lifetime = 0 ∧ m.limit = 0 := by simpa using h
    rw [if_neg fun hcond => hcond.1.elim (fun hne => hne hzero.1) fun hne => hne hzero.2]
  · next h =>
    have hnonzero : m.lifetime ≠ 0 ∨ m.limit ≠ 0 := by
      by_contra hcon
      exact h (by simpa [not_or, not_not] using hcon)
    cases hdb : mr.getDb m.lifetime with
    | none => exact (if_neg fun hcond => by cases hcond.2).symm
    | some ttl' =>
      dsimp only
      rw [OrderedMap.find?_alter]
      by_cases heq : ttl = ttl'
      · rw [if_pos heq, if_pos ⟨hnonzero, by rw [heq]⟩, heq]
      · rw [if_neg heq, if_neg fun hcond => heq (Option.some.inj hcond.2).symm]

end MultiRocksdb

end WfcPubsub
