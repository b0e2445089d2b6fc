import WfcPubsub.Broker.Restart

/-!
# The life of a server

Any number of threads use the shards, and now and then the process ends and another one starts.
Seen from one channel, a step of this is a call of the broker or a reset
(`Server.processed_step`), and what these keep holds of the channel whatever the server has been
through (`Server.process_induction`).

## Main definitions

* `ProcessOp`, `Server.processMachine`
* `Channel.Processed` : what a step can do to a channel.

## Main results

* `Server.processed_step`, `Server.process_induction`
-/

namespace WfcPubsub

variable {V H : Type} {n : ℕ}

/-- A step of a thread, or the end of the process and the start of the next one. -/
inductive ProcessOp (H : Type) (n : ℕ)
  | access (a : Access H n)
  | restart

namespace Server

variable (hash : String → ℕ) (json : Wjson V) (opt : PubsubOptions) (ropt : RocksdbOptions)

def processStep (s : Server V H opt.shardCount) :
    ProcessOp H opt.shardCount → Server V H opt.shardCount × Option (Reply H)
  | .access a =>
    let (mt, reply) := s.mt.access hash json a
    ({ s with mt := mt }, some reply)
  | .restart => (boot opt ropt s.stop.disk, none)

/-- A server used by any number of threads, and restarted now and then. -/
def processMachine :
    Machine (Server V H opt.shardCount) (ProcessOp H opt.shardCount) (Option (Reply H)) where
  step := processStep hash json opt ropt

end Server

/-- What a step can do to a channel. -/
inductive Channel.Processed [NeZero n] (hash : String → ℕ) (json : Wjson V)
    (opt : PubsubOptions) (name : String) (ch : Channel V H) :
    ProcessOp H n → Channel V H → Prop
  | call {a : Access H n} {op : PubsubOp H} {ch' : Channel V H}
    (ha : a.onto hash name = some op) (hmoves : ch.Moves json opt name op ch') :
    Processed hash json opt name ch (.access a) ch'
  | elsewhere {a : Access H n} (ha : a.onto hash name = none) :
    Processed hash json opt name ch (.access a) ch
  | restart : Processed hash json opt name ch .restart ch.reset

/-- No step opens or closes a log. -/
theorem Channel.Processed.keys [NeZero n] {hash : String → ℕ} {json : Wjson V}
    {opt : PubsubOptions} {name : String} {ch ch' : Channel V H} {op : ProcessOp H n}
    (h : ch.Processed hash json opt name op ch') : ch'.logs.keys = ch.logs.keys := by
  cases h with
  | call ha hmoves => exact hmoves.logs.1
  | elsewhere ha => rfl
  | restart => rfl

namespace Server

/-- What every step keeps of a server. -/
structure Running (opt : PubsubOptions) (ropt : RocksdbOptions)
    (s : Server V H opt.shardCount) : Prop where
  valid : ∀ i, (s.mt.pubsubList i).Valid opt
  opened : s.Opened ropt

variable {hash : String → ℕ} {json : Wjson V} {opt : PubsubOptions} {ropt : RocksdbOptions}
  {s : Server V H opt.shardCount}

theorem running_boot (opt : PubsubOptions) (ropt : RocksdbOptions)
    (disk : TimeT → Option (Rocksdb V)) :
    (boot opt ropt disk : Server V H opt.shardCount).Running opt ropt :=
  ⟨fun _ => Pubsub.valid_new opt, opened_boot opt ropt disk⟩

/-- The broker of a server, for one channel. -/
def brokerAt (hash : String → ℕ) (name : String) (s : Server V H opt.shardCount) :
    Broker V H where
  channels _ := s.mt.channelAt hash name
  opt := opt
  idCounter := 0

theorem Running.follows (h : s.Running opt ropt) (hash : String → ℕ) (name : String) :
    PubsubMt.Follows hash name s.mt (s.brokerAt hash name) :=
  ⟨h.valid, rfl⟩

/-- What a step does to a channel. -/
theorem processed_step (h : s.Running opt ropt) (hash : String → ℕ) (json : Wjson V)
    (name : String) (op : ProcessOp H opt.shardCount) :
    (s.mt.channelAt hash name).Processed hash json opt name op
      ((processStep hash json opt ropt s op).1.mt.channelAt hash name) := by
  cases op with
  | access a =>
    have hfollows := h.follows hash name
    cases ha : a.onto hash name with
    | none =>
      have hstep : PubsubMt.Follows hash name (s.mt.access hash json a).1 _ := hfollows.hidden ha
      exact hstep.channel ▸ .elsewhere ha
    | some op =>
      have hstep : PubsubMt.Follows hash name (s.mt.access hash json a).1 _ :=
        (hfollows.shown ha).1
      exact hstep.channel ▸ .call ha (Broker.moves_step json (s.brokerAt hash name) op name)
  | restart =>
    have hlogs : (boot opt ropt s.stop.disk : Server V H opt.shardCount).mt.sh.logsOf name =
        (s.mt.channelAt hash name).logs := h.opened.logsOf_restart name
    have hreset : (boot opt ropt s.stop.disk : Server V H opt.shardCount).mt.channelAt hash name =
        (s.mt.channelAt hash name).reset := by
      rw [Channel.reset, ← hlogs]
      exact (PubsubMt.follows_new hash name opt _).channel
    exact hreset ▸ .restart

theorem Running.step (h : s.Running opt ropt) (hash : String → ℕ) (json : Wjson V)
    (op : ProcessOp H opt.shardCount) :
    (processStep hash json opt ropt s op).1.Running opt ropt := by
  have hkeys := (processed_step h hash json "" op).keys
  have hopen : ∀ {s' : Server V H opt.shardCount}, s'.disk = s.disk →
      (s'.mt.sh.logsOf "").keys = (s.mt.sh.logsOf "").keys → s'.Opened ropt := by
    intro s' hdisk hkeys t
    rw [hdisk, ← Shared.mem_keys_logsOf "", hkeys, Shared.mem_keys_logsOf]
    exact h.opened t
  cases op with
  | access a => exact ⟨PubsubMt.valid_access h.valid a, hopen rfl hkeys⟩
  | restart => exact running_boot opt ropt s.stop.disk

/-- What holds of a channel at the start and is kept by whatever a step of the run can do to it
holds at the end. -/
theorem process_induction {disk : TimeT → Option (Rocksdb V)} {name : String}
    {R : List (ProcessOp H opt.shardCount) → Channel V H → Prop}
    (ops : List (ProcessOp H opt.shardCount))
    (hstart : R [] { logs := Shared.logsOf name { rocksdb := PubsubMt.openRocksdb disk opt ropt } })
    (hstep : ∀ done op ch ch', done ++ [op] <+: ops →
      ch.Processed hash json opt name op ch' → R done ch → R (done ++ [op]) ch') :
    let s := (processMachine hash json opt ropt).run (boot opt ropt disk) ops
    s.Running opt ropt ∧ R ops (s.mt.channelAt hash name) := by
  refine Machine.run_induction (M := processMachine hash json opt ropt)
    (P := fun done s => done <+: ops → s.Running opt ropt ∧ R done (s.mt.channelAt hash name))
    (fun _ => ?_) (fun done op ih hprefix => ?_) ops List.prefix_rfl
  · exact ⟨running_boot opt ropt disk, hstart⟩
  · obtain ⟨hrunning, hR⟩ := ih ((List.prefix_append done [op]).trans hprefix)
    exact ⟨hrunning.step hash json op,
      hstep done op _ _ hprefix (processed_step hrunning hash json name op) hR⟩

end Server

end WfcPubsub
