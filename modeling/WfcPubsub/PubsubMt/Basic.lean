import WfcPubsub.Pubsub.Basic
import Mathlib.Data.List.FinRange
import Mathlib.Algebra.BigOperators.Fin

/-!
# The class `pubsub_mt`

`n` shards, each a `pubsub` under a lock of its own; the hash of the channel name chooses
the shard. A method that takes one lock is one step. A method that visits all shards, `describe(id)`
for instance, takes the locks one after the other (`PubsubMt.forEachShard`).

The type carries the number of shards, which the constructor makes positive, so an index
computed modulo that number is always valid.

Sources: `pubsub/pubsub_mt.hpp`, `pubsub/pubsub_mt.cpp`.
-/

namespace WfcPubsub

/-- The members of `struct rocksdb_options` that `pubsub_mt` and `multi_rocksdb` look at. -/
structure RocksdbOptions where
  path : String := ""
  ttl : List TimeT := []

/-- `_size`: `hash_size`, but at least one. -/
def PubsubOptions.shardCount (opt : PubsubOptions) : ℕ :=
  if opt.hashSize = 0 then 1 else opt.hashSize

instance (opt : PubsubOptions) : NeZero opt.shardCount :=
  ⟨by rw [PubsubOptions.shardCount]; split <;> omega⟩

/-- `class pubsub_mt` with `n` shards; the vector of shards is read by index. -/
structure PubsubMt (V H : Type) (n : ℕ) where
  pubsubList : Fin n → Pubsub H
  sh : Shared V

variable {V H : Type} {n : ℕ}

namespace PubsubMt

/-- The store that the constructor opens, `none` where no path is configured. -/
def openRocksdb (create : TimeT → Option (Rocksdb V)) (opt : PubsubOptions)
    (ropt : RocksdbOptions) : Option (MultiRocksdb V) :=
  if ropt.path = "" then none
  else some (MultiRocksdb.new.configure create (opt.persistentDefault == false) ropt.ttl).1

/-- The constructor, given the store it has opened: every shard gets the same options. -/
def new (opt : PubsubOptions) (sh : Shared V) : PubsubMt V H opt.shardCount where
  pubsubList _ := .new opt
  sh := sh

/-- `close()`. -/
def close (mt : PubsubMt V H n) : PubsubMt V H n :=
  { mt with sh := { mt.sh with rocksdb := mt.sh.rocksdb.map MultiRocksdb.close } }

section Index

variable [NeZero n] (hash : String → ℕ)

/-- `index_(channel)`. -/
def index_ (channel : String) : Fin n := Fin.ofNat n (hash channel)

/-- Replace one shard. -/
def setShard (i : Fin n) (ps : Pubsub H) (mt : PubsubMt V H n) : PubsubMt V H n :=
  { mt with pubsubList := Function.update mt.pubsubList i ps }

/-! ### Methods that take one lock -/

def getMessages (json : Wjson V) (now : TimeT) (ml : List Message) (params : SubscribeParams H)
    (mt : PubsubMt V H n) : PubsubMt V H n × List Message :=
  let index := index_ hash params.channel
  let (ps, ml) := (mt.pubsubList index).getMessages json now ml params mt.sh
  (mt.setShard index ps, ml)

def publish (json : Wjson V) (now : TimeT) (channel : String) (msg : Message)
    (mt : PubsubMt V H n) : PubsubMt V H n × List (Invocation H) :=
  let index := index_ hash channel
  let (ps, sh, calls) := (mt.pubsubList index).publish json now channel msg mt.sh
  ({ mt.setShard index ps with sh := sh }, calls)

def subscribe (json : Wjson V) (now : TimeT) (ml : List Message) (params : SubscribeParams H)
    (mt : PubsubMt V H n) : PubsubMt V H n × List Message × SubscriberId :=
  let index := index_ hash params.channel
  let (ps, sh, ml, id) := (mt.pubsubList index).subscribe json now ml params mt.sh
  ({ mt.setShard index ps with sh := sh }, ml, id)

def subscribeAs (json : Wjson V) (now : TimeT) (ml : List Message) (id : SubscriberId)
    (params : SubscribeParams H) (mt : PubsubMt V H n) : PubsubMt V H n × List Message :=
  let index := index_ hash params.channel
  let (ps, ml) := (mt.pubsubList index).subscribeAs json now ml id params mt.sh
  (mt.setShard index ps, ml)

def describeChannel (id : SubscriberId) (channel : String) (mt : PubsubMt V H n) :
    PubsubMt V H n × Bool :=
  let index := index_ hash channel
  let (ps, found) := (mt.pubsubList index).describeChannel id channel
  (mt.setShard index ps, found)

end Index

/-! ### Methods that take all locks in turn -/

/-- Apply `f` to the shards `0`, `1`, … and add up what it returns. -/
def forEachShard (f : Pubsub H → Pubsub H × ℕ) (mt : PubsubMt V H n) : PubsubMt V H n × ℕ :=
  (List.finRange n).foldl (fun (mt, count) i =>
    let (ps, k) := f (mt.pubsubList i)
    (mt.setShard i ps, count + k)) (mt, 0)

def describe (id : SubscriberId) (mt : PubsubMt V H n) : PubsubMt V H n × ℕ :=
  mt.forEachShard fun ps => ps.describe id

def reset (mt : PubsubMt V H n) : PubsubMt V H n :=
  (mt.forEachShard fun ps => (ps.reset, 0)).1

def getRemoved (reset : Bool) (mt : PubsubMt V H n) : PubsubMt V H n × ℕ :=
  mt.forEachShard fun ps => ps.getRemoved reset

def emptyCount (mt : PubsubMt V H n) : ℕ :=
  (mt.forEachShard fun ps => (ps, ps.emptyCount)).2

/-- `size(count)`: every shard adds its messages to `count`. -/
def size (count : Option ℕ) (mt : PubsubMt V H n) : ℕ × Option ℕ :=
  (List.finRange n).foldl (fun (s, count) i =>
    let (k, count) := (mt.pubsubList i).size count
    (s + k, count)) (0, count)

/-- `subscriber_count`; `none` if a shard calls `abort()`. -/
def subscriberCount (mt : PubsubMt V H n) : Option ℕ :=
  (List.finRange n).foldl (fun count i =>
    count.bind fun count => (mt.pubsubList i).subscriberCount.map fun k => count + k) (some 0)

/-! ### Sequential runs -/

section Run

variable [NeZero n] (hash : String → ℕ) (json : Wjson V)

def step (mt : PubsubMt V H n) : PubsubOp H → PubsubMt V H n × Reply H
  | .publish now channel msg =>
    let (mt, calls) := mt.publish hash json now channel msg
    (mt, .fired calls)
  | .getMessages now params =>
    let (mt, ml) := mt.getMessages hash json now [] params
    (mt, .messages ml)
  | .subscribe now params =>
    let (mt, ml, id) := mt.subscribe hash json now [] params
    (mt, .subscribed id ml)
  | .subscribeAs now id params =>
    let (mt, ml) := mt.subscribeAs hash json now [] id params
    (mt, .messages ml)
  | .describe id =>
    let (mt, n) := mt.describe id
    (mt, .count n)
  | .describeChannel id channel =>
    let (mt, found) := mt.describeChannel hash id channel
    (mt, .removed found)
  | .reset => (mt.reset, .done)
  | .size count =>
    let (n, count) := mt.size count
    (mt, .size n count)
  | .emptyCount => (mt, .count mt.emptyCount)
  | .getRemoved reset =>
    let (mt, n) := mt.getRemoved reset
    (mt, .count n)
  | .subscriberCount => (mt, .subscribers mt.subscriberCount)

/-- `pubsub_mt` driven by one caller. -/
def machine : Machine (PubsubMt V H n) (PubsubOp H) (Reply H) where
  step := step hash json

end Run

/-! ### The loop over the shards -/

@[simp] theorem setShard_pubsubList (i : Fin n) (ps : Pubsub H) (mt : PubsubMt V H n) :
    (mt.setShard i ps).pubsubList = Function.update mt.pubsubList i ps := rfl

@[simp] theorem setShard_sh (i : Fin n) (ps : Pubsub H) (mt : PubsubMt V H n) :
    (mt.setShard i ps).sh = mt.sh := rfl

/-- The loop over distinct shards changes each of them once. -/
private theorem foldl_setShard (f : Pubsub H → Pubsub H × ℕ) {l : List (Fin n)}
    (hl : l.Nodup) (mt : PubsubMt V H n) (count : ℕ) :
    l.foldl (fun (mt, count) i =>
      let (ps, k) := f (mt.pubsubList i)
      (mt.setShard i ps, count + k)) (mt, count) =
    ({ mt with pubsubList := fun i => if i ∈ l then (f (mt.pubsubList i)).1 else mt.pubsubList i },
      count + (l.map fun i => (f (mt.pubsubList i)).2).sum) := by
  induction l generalizing mt count with
  | nil => simp
  | cons i l ih =>
    obtain ⟨hi, hl⟩ := List.nodup_cons.mp hl
    have hne : ∀ j ∈ l, j ≠ i := fun j hj hji => hi (hji ▸ hj)
    rw [List.foldl_cons, ih hl]
    refine Prod.ext ?_ ?_
    · refine congrArg (fun q => (⟨q, mt.sh⟩ : PubsubMt V H n)) ?_
      funext j
      by_cases hj : j ∈ l
      · simp [hj, hne j hj]
      · by_cases hji : j = i
        · subst hji
          simp [hj]
        · simp [hj, hji]
    · have hmap : (l.map fun j => (f (Function.update mt.pubsubList i
          (f (mt.pubsubList i)).1 j)).2) = l.map fun j => (f (mt.pubsubList j)).2 :=
        List.map_congr_left fun j hj => by rw [Function.update_of_ne (hne j hj)]
      simp only [setShard_pubsubList, hmap, List.map_cons, List.sum_cons, Nat.add_assoc]

/-- What a method that visits all shards does and returns. -/
theorem forEachShard_eq (f : Pubsub H → Pubsub H × ℕ) (mt : PubsubMt V H n) :
    mt.forEachShard f =
      ({ mt with pubsubList := fun i => (f (mt.pubsubList i)).1 },
        ∑ i, (f (mt.pubsubList i)).2) := by
  rw [forEachShard, foldl_setShard f (List.nodup_finRange n)]
  simp [Fin.sum_univ_def]

theorem describe_pubsubList (id : SubscriberId) (mt : PubsubMt V H n) (i : Fin n) :
    (mt.describe id).1.pubsubList i = ((mt.pubsubList i).describe id).1 := by
  rw [describe, forEachShard_eq]

end PubsubMt

end WfcPubsub
