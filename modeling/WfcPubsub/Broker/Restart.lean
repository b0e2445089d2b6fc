import WfcPubsub.Broker.Records

/-!
# Stopping and starting again

A server that is stopped closes its databases, and the next process opens them again, builds its
shards anew and counts subscribers from zero. For the users this is a `reset`
(`Server.restart_resets`): subscriptions and cached messages are gone, and what was recorded
for a channel is there, in every database, and nothing else is. This holds however often the
server is restarted, also if some of the databases cannot be opened.

What the disk holds for a time to live, and whether a database can be opened there, is the
parameter `create` of `configure`. That a database which is closed leaves on the disk what it holds
is assumed of RocksDB; `Server.stop` says it.

## Main definitions

* `Server`, `Server.boot`, `Server.stop`, `Server.machine`
* `Broker.restart`, `Broker.restartMachine`

## Main results

* `PubsubMt.find?_openRocksdb` : the databases that are open after the start.
* `Server.Opened.logsOf_restart` : what the next process finds in them.
* `Server.restart_resets`
-/

namespace WfcPubsub

variable {V H : Type} {n : ℕ}

/-! ### The databases that are open -/

namespace MultiRocksdb

/-- The databases are opened one after the other, up to the first one that cannot be opened. -/
theorem find?_openAll_fst (create : TimeT → Option (Rocksdb V)) (ttl : List TimeT)
    (map : OrderedMap TimeT (Rocksdb V)) (olds : OrderedSet TimeT) (t : TimeT) :
    (openAll create ttl map olds).1.find? t =
      if t ∈ ttl.takeWhile (fun t => (create t).isSome) then create t else map.find? t := by
  induction ttl generalizing map olds with
  | nil => rfl
  | cons t' ttl ih =>
    rw [openAll]
    cases hcreate : create t' with
    | none => simp [hcreate]
    | some db =>
      dsimp only
      rw [ih, OrderedMap.find?_set, List.takeWhile_cons_of_pos (by simp [hcreate])]
      by_cases ht : t = t'
      · subst ht
        simp [hcreate]
      · simp [ht]

/-- Nothing is left to close that was not there before. -/
theorem contains_openAll_snd {create : TimeT → Option (Rocksdb V)} {ttl : List TimeT}
    {map : OrderedMap TimeT (Rocksdb V)} {olds olds' : OrderedSet TimeT}
    (h : (openAll create ttl map olds).2 = some olds') {t : TimeT} (ht : olds'.contains t = true) :
    olds.contains t = true := by
  induction ttl generalizing map olds with
  | nil =>
    obtain rfl := Option.some.inj h
    exact ht
  | cons t' ttl ih =>
    rw [openAll] at h
    cases hcreate : create t' with
    | none =>
      rw [hcreate] at h
      cases h
    | some db =>
      rw [hcreate] at h
      have hcontains := ih h
      rw [OrderedMap.contains, OrderedMap.find?_erase] at hcontains
      split at hcontains
      · cases hcontains
      · exact hcontains

end MultiRocksdb

/-- The logs of a channel are those of the databases that are open. -/
theorem Shared.mem_keys_logsOf (name : String) (sh : Shared V) (t : TimeT) :
    t ∈ (sh.logsOf name).keys ↔ (sh.rocksdb.bind fun mr => mr.rocksdbMap.find? t).isSome := by
  rw [OrderedMap.mem_keys, OrderedMap.contains, find?_logsOf, Option.isSome_map]

namespace PubsubMt

/-- The databases of a store just opened. -/
theorem find?_openRocksdb (create : TimeT → Option (Rocksdb V)) (opt : PubsubOptions)
    (ropt : RocksdbOptions) (t : TimeT) :
    ((openRocksdb create opt ropt).bind fun mr => mr.rocksdbMap.find? t) =
      if ropt.path ≠ "" ∧ t ∈ ropt.ttl.takeWhile (fun t => (create t).isSome) then create t
      else none := by
  have hopen := MultiRocksdb.find?_openAll_fst create ropt.ttl .empty
    ((.empty : OrderedMap TimeT (Rocksdb V)).mapValues fun _ => ()) t
  rw [openRocksdb]
  split
  · next hpath => rw [if_neg fun h => h.1 hpath, Option.bind_none]
  · next hpath =>
    simp only [ne_eq, hpath, not_false_eq_true, true_and, Option.bind_some]
    refine Eq.trans ?_ hopen
    simp only [MultiRocksdb.configure, MultiRocksdb.new]
    split
    · next map heq => rw [heq]
    · next map olds heq =>
      have hnone : olds.contains t = false := by
        by_contra hcontains
        have := MultiRocksdb.contains_openAll_snd (congrArg Prod.snd heq)
          ((Bool.not_eq_false _).mp hcontains)
        cases this
      rw [heq, OrderedMap.find?_filterKeys, hnone]
      rfl

/-- The databases that are open are those with a log. -/
theorem Represents.isSome_database [NeZero n] {hash : String → ℕ} {mt : PubsubMt V H n}
    {b : Broker V H} (h : Represents hash mt b) (name : String) (t : TimeT) :
    (mt.sh.rocksdb.bind fun mr => mr.rocksdbMap.find? t).isSome ↔
      t ∈ (b.channels name).logs.keys := by
  rw [h.logs, mt.sh.mem_keys_logsOf]

end PubsubMt

/-! ### The server -/

/-- A process with its `pubsub_mt`, and what the disk holds besides the open databases. -/
structure Server (V H : Type) (n : ℕ) where
  mt : PubsubMt V H n
  disk : TimeT → Option (Rocksdb V)

/-- A call, or the end of the process and the start of the next one. -/
inductive ServerOp (H : Type)
  | call (op : PubsubOp H)
  | restart

namespace Server

/-- `pubsub_domain::stop` closes the databases. It is an assumption on RocksDB that what they hold
is on the disk then. -/
def stop (s : Server V H n) : Server V H n where
  mt := s.mt.close
  disk t := (s.mt.sh.rocksdb.bind fun mr => mr.rocksdbMap.find? t).or (s.disk t)

section Machine

variable (hash : String → ℕ) (json : Wjson V) (opt : PubsubOptions) (ropt : RocksdbOptions)

/-- A new process: `pubsub_domain::configure`, with the static counter at zero. -/
def boot (disk : TimeT → Option (Rocksdb V)) : Server V H opt.shardCount where
  mt := .new opt { rocksdb := PubsubMt.openRocksdb disk opt ropt }
  disk := disk

def step (s : Server V H opt.shardCount) :
    ServerOp H → Server V H opt.shardCount × Option (Reply H)
  | .call op =>
    let (mt, reply) := s.mt.step hash json op
    ({ s with mt := mt }, some reply)
  | .restart => (boot opt ropt s.stop.disk, none)

/-- A server driven by its callers, and restarted now and then. -/
def machine : Machine (Server V H opt.shardCount) (ServerOp H) (Option (Reply H)) where
  step := step hash json opt ropt

end Machine

/-- What a caller sees who does not ask for statistics. -/
def answer (op : ServerOp H) (reply : Option (Reply H)) : Option (Reply H) :=
  match op with
  | .call op => reply.bind (PubsubMt.answer op)
  | .restart => none

end Server

namespace Broker

/-- A reset, with the subscribers counted from zero. -/
def restart (b : Broker V H) : Broker V H := { b.forEach Channel.reset with idCounter := 0 }

/-- The broker driven by its callers, and restarted now and then. -/
noncomputable def restartMachine (json : Wjson V) :
    Machine (Broker V H) (ServerOp H) (Option (Reply H)) where
  step b
    | .call op => ((b.step json op).1, some (b.step json op).2)
    | .restart => (b.restart, none)

end Broker

namespace Server

/-- The databases that are open are those that the disk lets the process open. -/
def Opened (ropt : RocksdbOptions) (s : Server V H n) : Prop :=
  ∀ t, (s.mt.sh.rocksdb.bind fun mr => mr.rocksdbMap.find? t).isSome ↔
    ropt.path ≠ "" ∧ t ∈ ropt.ttl.takeWhile fun t => (s.disk t).isSome

/-- The broker has the logs of the databases that could be opened. -/
structure Serves (hash : String → ℕ) (opt : PubsubOptions) (ropt : RocksdbOptions)
    (s : Server V H opt.shardCount) (b : Broker V H) : Prop where
  represents : PubsubMt.Represents hash s.mt b
  opt : b.opt = opt
  opened : s.Opened ropt

variable {hash : String → ℕ} {opt : PubsubOptions} {ropt : RocksdbOptions}
  {s : Server V H opt.shardCount} {b : Broker V H}

theorem opened_boot (opt : PubsubOptions) (ropt : RocksdbOptions)
    (disk : TimeT → Option (Rocksdb V)) :
    (boot opt ropt disk : Server V H opt.shardCount).Opened ropt := by
  intro t
  rw [boot, PubsubMt.new, PubsubMt.find?_openRocksdb]
  split
  · next hopen =>
    exact iff_of_true (List.mem_takeWhile_imp (p := fun t => (disk t).isSome) hopen.2) hopen
  · next hopen => exact iff_of_false Bool.false_ne_true hopen

/-- The next process opens the same databases, with what they held. -/
theorem Opened.logsOf_restart (h : s.Opened ropt) (name : String) :
    (boot opt ropt s.stop.disk : Server V H opt.shardCount).mt.sh.logsOf name =
      s.mt.sh.logsOf name := by
  have hsome : ∀ t, (s.stop.disk t).isSome = (s.disk t).isSome := by
    intro t
    have hopen := h t
    rw [stop, Option.isSome_or]
    cases hfind : (s.mt.sh.rocksdb.bind fun mr => mr.rocksdbMap.find? t).isSome with
    | false => rw [Bool.false_or]
    | true =>
      rw [hfind] at hopen
      rw [Bool.true_or, List.mem_takeWhile_imp (p := fun t => (s.disk t).isSome) (hopen.mp rfl).2]
  refine OrderedMap.ext_find? fun t => ?_
  rw [Shared.find?_logsOf, Shared.find?_logsOf, boot, PubsubMt.new, PubsubMt.find?_openRocksdb]
  simp only [hsome]
  refine congrArg (Option.map _) ?_
  split
  · next hopen =>
    obtain ⟨db, hdb⟩ := Option.isSome_iff_exists.mp ((h t).mpr hopen)
    show (s.mt.sh.rocksdb.bind fun mr => mr.rocksdbMap.find? t).or (s.disk t) = _
    rw [hdb, Option.some_or]
  · next hopen =>
    exact (Option.not_isSome_iff_eq_none.mp fun hfind => hopen ((h t).mp hfind)).symm

theorem serves_boot (hash : String → ℕ) (opt : PubsubOptions) (ropt : RocksdbOptions)
    (disk : TimeT → Option (Rocksdb V)) :
    Serves hash opt ropt (boot opt ropt disk : Server V H opt.shardCount)
      (.new opt { rocksdb := PubsubMt.openRocksdb disk opt ropt }) where
  represents := PubsubMt.represents_new hash opt _
  opt := rfl
  opened := opened_boot opt ropt disk

/-- A call opens and closes no database. -/
theorem Serves.call (h : Serves hash opt ropt s b) (json : Wjson V) (op : PubsubOp H) :
    Serves hash opt ropt { s with mt := (s.mt.step hash json op).1 } (b.step json op).1 where
  represents := (h.represents.step json op).1
  opt := (Broker.step_opt json b op).trans h.opt
  opened t := by
    rw [(h.represents.step json op).1.isSome_database "", (Broker.logs_step json b op "").1,
      ← h.represents.isSome_database]
    exact h.opened t

/-- What the next process finds. -/
theorem Serves.restart (h : Serves hash opt ropt s b) :
    Serves hash opt ropt (boot opt ropt s.stop.disk) b.restart := by
  have hnew : Broker.new opt { rocksdb := PubsubMt.openRocksdb s.stop.disk opt ropt } =
      b.restart := by
    rw [Broker.new, Broker.restart, Broker.forEach, h.opt]
    refine congrArg (fun channels => Broker.mk channels opt 0) (funext fun name => ?_)
    have hlogs := (h.opened.logsOf_restart name).trans (h.represents.logs name).symm
    exact congrArg (fun logs => ({ logs := logs } : Channel V H)) hlogs
  rw [← hnew]
  exact serves_boot hash opt ropt s.stop.disk

/-- **A restart is a reset.** Whatever the disk held at first and however often the server is
restarted, its callers get the replies that the broker gives if at each restart it forgets the
subscriptions and the cached messages, counts subscribers from zero again and keeps all logs. -/
theorem restart_resets (hash : String → ℕ) (json : Wjson V) (opt : PubsubOptions)
    (ropt : RocksdbOptions) (disk : TimeT → Option (Rocksdb V)) (ops : List (ServerOp H)) :
    (machine hash json opt ropt).observed answer (boot opt ropt disk) ops =
      (Broker.restartMachine json).observed answer
        (.new opt { rocksdb := PubsubMt.openRocksdb disk opt ropt }) ops := by
  refine Machine.observed_eq_of_simulation
    (R := fun _ s b => Serves hash opt ropt s b) (fun s b op _ h => ?_)
    (serves_boot hash opt ropt disk)
  cases op with
  | call op =>
    exact ⟨h.call json op, h.represents.answer_eq json op⟩
  | restart => exact ⟨h.restart, rfl⟩

end Server

end WfcPubsub
