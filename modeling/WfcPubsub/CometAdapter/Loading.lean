import WfcPubsub.CometAdapter.Basic

/-!
# Loading through the adapter

`load` asks the target for the messages of one channel, `mload` for those of several channels at
once. The target answers both with one list of messages, each with its channel, from which the
callbacks build the replies: that of `load` takes the channel from the first message, that of
`mload` groups the messages by channel and adds the channels without a message. Requests that
`notify_ban` turns away do not get here.

So what `mload` replies is exact (`CometAdapterDomain.mload_exact`), and `load` agrees with it
unless it finds nothing: then its reply has lost the channel
(`CometAdapterDomain.mload_eq_load_iff`).

Sources: `comet_adapter/api/status.hpp`, `comet_adapter/api/load.hpp`,
`comet_adapter/api/mload.hpp`, `comet_adapter/domain/comet_adapter_domain.cpp`.

## Main definitions

* `LoadResponse`, `CometAdapterDomain.load`, `CometAdapterDomain.mload`

## Main results

* `CometAdapterDomain.mem_mloadReply` : the entries of a reply.
* `CometAdapterDomain.mload_exact`, `CometAdapterDomain.mload_eq_load_iff`
-/

namespace WfcPubsub

/-- `status::type`. -/
inductive Status
  | notSupport
  | internalError
  | badGateway
  | notFound
  | forbidden
  | wait
  | ready
  deriving DecidableEq, Repr

/-- `response::load`. -/
structure LoadResponse where
  channel : String := ""
  messages : List Message := []
  loadStatus : Status := .ready
  deriving DecidableEq, Repr

variable {V C : Type} {n : ℕ}

namespace CometAdapterDomain

/-! ### Methods -/

/-- The callback of `load`: what it makes of the messages of the target. -/
def loadReply (messages : List Topic) : LoadResponse :=
  match messages with
  | [] => {}
  | m :: _ => { channel := m.channel, messages := messages.map Topic.msg }

/-- The callback of `mload`. One loop over the messages takes their channels off `chlist` and
groups them; what is left on `chlist` are the channels without a message. -/
def mloadReply (chlist : OrderedSet String) (messages : List Topic) : List LoadResponse :=
  let (chlist, channelMap) := messages.foldl (fun (chlist, channelMap) m =>
    (chlist.erase m.channel, channelMap.pushBack m.channel m.msg)) (chlist, OrderedMap.empty)
  (channelMap.entries.map fun item => { channel := item.1, messages := item.2 }) ++
    chlist.keys.map fun emptyChannel => { channel := emptyChannel }

section Load

variable [NeZero n] (hash : String → ℕ) (json : Wjson V) (now : TimeT)

/-- `load(req, cb)`, with the reply that it passes to the callback. The handler of a request is
empty in the source, and nothing looks at it. -/
def load (req : SubscribeParams (AdapterImpl C)) (d : CometAdapterDomain V C n) :
    CometAdapterDomain V C n × LoadResponse :=
  let (target, messages) := PubsubDomain.getMessages hash json now
    [{ channel := req.channel, limit := req.limit, cursor := req.cursor, handler := req.handler }]
    d.target
  ({ d with target := target }, loadReply messages)

/-- `mload(req, cb)`. -/
def mload (req : List (SubscribeParams (AdapterImpl C))) (d : CometAdapterDomain V C n) :
    CometAdapterDomain V C n × List LoadResponse :=
  let chlist := req.foldl (fun (chlist : OrderedSet String) item =>
    chlist.insert item.channel ()) .empty
  let channels := req.map fun item =>
    { channel := item.channel, limit := item.limit, cursor := item.cursor, handler := item.handler }
  let (target, messages) := PubsubDomain.getMessages hash json now channels d.target
  ({ d with target := target }, mloadReply chlist messages)

end Load

/-! ### The reply of `mload` -/

section Reply

variable {chlist : OrderedSet String} {messages : List Topic}

/-- The messages grouped by channel. -/
def grouped (messages : List Topic) : OrderedMap String (List Message) :=
  messages.foldl (fun channelMap m => channelMap.pushBack m.channel m.msg) .empty

/-- The channels of `chlist` that no message is on. -/
def leftover (chlist : OrderedSet String) (messages : List Topic) : OrderedSet String :=
  messages.foldl (fun chlist m => chlist.erase m.channel) chlist

/-- The one loop over the messages is two. -/
theorem mloadReply_eq (chlist : OrderedSet String) (messages : List Topic) :
    mloadReply chlist messages =
      ((grouped messages).entries.map fun item => { channel := item.1, messages := item.2 }) ++
        (leftover chlist messages).keys.map fun emptyChannel => { channel := emptyChannel } := by
  have hloop : ∀ (chlist : OrderedSet String) (channelMap : OrderedMap String (List Message)),
      messages.foldl (fun (chlist, channelMap) m =>
        (chlist.erase m.channel, channelMap.pushBack m.channel m.msg)) (chlist, channelMap) =
      (leftover chlist messages,
        messages.foldl (fun channelMap m => channelMap.pushBack m.channel m.msg) channelMap) := by
    induction messages with
    | nil => exact fun _ _ => rfl
    | cons m messages ih => exact fun _ _ => ih _ _
  rw [mloadReply, hloop]
  rfl

theorem mem_grouped {channel : String} {ml : List Message} :
    (channel, ml) ∈ (grouped messages).entries ↔
      channel ∈ messages.map Topic.channel ∧
        ml = (messages.filter fun m => m.channel = channel).map Topic.msg := by
  rw [← OrderedMap.find?_eq_some_iff, grouped, OrderedMap.find?_foldl_pushBack]
  simp only [OrderedMap.find?_empty, Option.getD_none, List.nil_append]
  split
  · next hmem => simp [hmem, eq_comm]
  · next hmem => simp [hmem]

theorem mem_leftover {channel : String} :
    channel ∈ (leftover chlist messages).keys ↔
      channel ∉ messages.map Topic.channel ∧ chlist.contains channel := by
  rw [OrderedMap.mem_keys, leftover, OrderedMap.contains_foldl_erase]

/-- There is an entry for each channel of a message and for each channel on `chlist`, with the
messages of the channel in their order. -/
theorem mem_mloadReply {res : LoadResponse} :
    res ∈ mloadReply chlist messages ↔
      (res.channel ∈ messages.map Topic.channel ∨ chlist.contains res.channel) ∧
        res.messages = (messages.filter fun m => m.channel = res.channel).map Topic.msg ∧
        res.loadStatus = .ready := by
  have hgrouped : (∃ item ∈ (grouped messages).entries,
      ({ channel := item.1, messages := item.2 } : LoadResponse) = res) ↔
      res.loadStatus = .ready ∧ (res.channel, res.messages) ∈ (grouped messages).entries := by
    constructor
    · rintro ⟨item, hitem, rfl⟩
      exact ⟨rfl, hitem⟩
    · rintro ⟨hready, hitem⟩
      exact ⟨_, hitem, by rw [← hready]⟩
  have hleft : (∃ emptyChannel ∈ (leftover chlist messages).keys,
      ({ channel := emptyChannel } : LoadResponse) = res) ↔
      res.loadStatus = .ready ∧ res.messages = [] ∧
        res.channel ∈ (leftover chlist messages).keys := by
    constructor
    · rintro ⟨channel, hchannel, rfl⟩
      exact ⟨rfl, rfl, hchannel⟩
    · rintro ⟨hready, hnil, hchannel⟩
      exact ⟨_, hchannel, by rw [← hready, ← hnil]⟩
  rw [mloadReply_eq, List.mem_append, List.mem_map, List.mem_map, hgrouped, hleft, mem_grouped,
    mem_leftover]
  by_cases hmem : res.channel ∈ messages.map Topic.channel
  · simp [hmem, and_comm]
  · have hnil : (messages.filter fun m => m.channel = res.channel) = [] := by simpa using hmem
    simp only [hmem, hnil, false_and, and_false, false_or, not_false_eq_true, true_and,
      List.map_nil]
    exact ⟨fun ⟨hready, hml, hchlist⟩ => ⟨hchlist, hml, hready⟩,
      fun ⟨hchlist, hml, hready⟩ => ⟨hready, hml, hchlist⟩⟩

/-- No channel has two entries. -/
theorem nodup_mloadReply (chlist : OrderedSet String) (messages : List Topic) :
    ((mloadReply chlist messages).map LoadResponse.channel).Nodup := by
  have hmap : (mloadReply chlist messages).map LoadResponse.channel =
      (grouped messages).keys ++ (leftover chlist messages).keys := by
    rw [mloadReply_eq, List.map_append, List.map_map, List.map_map]
    exact congrArg _ (List.map_id _)
  rw [hmap, List.nodup_append]
  refine ⟨OrderedMap.nodup_keys _, OrderedMap.nodup_keys _, ?_⟩
  rintro channel hgrouped _ hleft rfl
  obtain ⟨⟨_, ml⟩, hitem, rfl⟩ := List.mem_map.mp hgrouped
  exact (mem_leftover.mp hleft).1 (mem_grouped.mp hitem).1

end Reply

/-! ### Requests -/

section Requests

variable [NeZero n] (hash : String → ℕ) (json : Wjson V) (now : TimeT)

/-- Of the messages that the target returns for several requests, those on one channel. -/
theorem filter_getMessages (req : List (SubscribeParams (AdapterImpl C)))
    (target : PubsubMt V (AdapterImpl C) n) (channel : String) :
    ((PubsubDomain.getMessages hash json now req target).2.filter fun m =>
        m.channel = channel).map Topic.msg =
      (req.filter fun r => r.channel = channel).flatMap fun r =>
        (target.getMessages hash json now [] r).2 := by
  rw [PubsubDomain.getMessages_snd]
  induction req with
  | nil => rfl
  | cons r req ih =>
    rw [List.flatMap_cons, List.filter_append, List.map_append, ih]
    by_cases hr : r.channel = channel
    · simp [hr, List.filter_map, Function.comp_def]
    · simp [hr, List.filter_map, Function.comp_def]

theorem channel_mem_of_getMessages {req : List (SubscribeParams (AdapterImpl C))}
    {target : PubsubMt V (AdapterImpl C) n} {channel : String}
    (h : channel ∈ (PubsubDomain.getMessages hash json now req target).2.map Topic.channel) :
    channel ∈ req.map SubscribeParams.channel := by
  rw [PubsubDomain.getMessages_snd] at h
  obtain ⟨m, hm, rfl⟩ := List.mem_map.mp h
  obtain ⟨r, hr, hm⟩ := List.mem_flatMap.mp hm
  obtain ⟨msg, -, rfl⟩ := List.mem_map.mp hm
  exact List.mem_map_of_mem hr

/-- The entries of what `mload` replies. -/
theorem mem_mload {req : List (SubscribeParams (AdapterImpl C))} {d : CometAdapterDomain V C n}
    {res : LoadResponse} :
    res ∈ (d.mload hash json now req).2 ↔
      res.channel ∈ req.map SubscribeParams.channel ∧
        res.messages = ((req.filter fun r => r.channel = res.channel).flatMap fun r =>
          (d.target.getMessages hash json now [] r).2) ∧
        res.loadStatus = .ready := by
  have hchlist : (req.foldl (fun (chlist : OrderedSet String) item =>
      chlist.insert item.channel ()) .empty).contains res.channel ↔
        res.channel ∈ req.map SubscribeParams.channel := by
    rw [OrderedMap.contains_foldl_insert]
    simp [OrderedMap.contains]
  rw [mload, List.map_id']
  refine mem_mloadReply.trans (and_congr ?_ (and_congr ?_ Iff.rfl))
  · rw [hchlist]
    exact or_iff_right_of_imp (channel_mem_of_getMessages hash json now)
  · rw [filter_getMessages]

/-- The reply to one request. -/
theorem mload_singleton (r : SubscribeParams (AdapterImpl C)) (d : CometAdapterDomain V C n) :
    (d.mload hash json now [r]).2 =
      [{ channel := r.channel, messages := (d.target.getMessages hash json now [] r).2 }] := by
  have hnodup : (d.mload hash json now [r]).2.Nodup :=
    (nodup_mloadReply _ _).of_map
  refine List.perm_singleton.mp ((List.perm_ext_iff_of_nodup hnodup (List.nodup_singleton _)).mpr
    fun res => ?_)
  obtain ⟨channel, ml, loadStatus⟩ := res
  rw [mem_mload, List.map_singleton, List.mem_singleton, List.mem_singleton,
    LoadResponse.mk.injEq]
  refine and_congr_right fun hchannel => ?_
  have hone : [r].filter (fun r => r.channel = channel) = [r] := by simpa using hchannel.symm
  rw [hone, List.flatMap_singleton]

theorem load_snd (r : SubscribeParams (AdapterImpl C)) (d : CometAdapterDomain V C n) :
    (d.load hash json now r).2 =
      if (d.target.getMessages hash json now [] r).2 = [] then {}
      else { channel := r.channel, messages := (d.target.getMessages hash json now [] r).2 } := by
  show loadReply (PubsubDomain.getMessages hash json now [r] d.target).2 = _
  rw [PubsubDomain.getMessages_snd, List.flatMap_singleton]
  cases (d.target.getMessages hash json now [] r).2 with
  | nil => rfl
  | cons m ml => simp [loadReply, Function.comp_def]

end Requests

/-- **`mload` loses and invents nothing.** Whatever the target holds, the reply has exactly one
entry for each channel that a request names. The entry of a channel holds what `get_messages`
returns for the requests that name it, in the order of the requests. -/
theorem mload_exact (hash : String → ℕ) (json : Wjson V) (opt : PubsubOptions) (now : TimeT)
    (d : CometAdapterDomain V C opt.shardCount) (req : List (SubscribeParams (AdapterImpl C))) :
    let reply := (d.mload hash json now req).2
    (reply.map LoadResponse.channel).Nodup ∧
      (∀ channel, channel ∈ reply.map LoadResponse.channel ↔
        channel ∈ req.map SubscribeParams.channel) ∧
      ∀ res ∈ reply, res.messages =
        (req.filter fun r => r.channel = res.channel).flatMap fun r =>
          (d.target.getMessages hash json now [] r).2 := by
  intro reply
  refine ⟨nodup_mloadReply _ _, fun channel => ⟨?_, fun hchannel => ?_⟩, fun res hres => ?_⟩
  · intro hreply
    obtain ⟨res, hres, rfl⟩ := List.mem_map.mp hreply
    exact ((mem_mload hash json now).mp hres).1
  · let res : LoadResponse :=
      { channel := channel
        messages := (req.filter fun r => r.channel = channel).flatMap fun r =>
          (d.target.getMessages hash json now [] r).2 }
    have hres : res ∈ reply := (mem_mload hash json now).mpr ⟨hchannel, rfl, rfl⟩
    exact List.mem_map.mpr ⟨res, hres, rfl⟩
  · exact ((mem_mload hash json now).mp hres).2.1

/-- **`load` against `mload`.** In every state that a run can leave the target in, and whatever
its databases hold then, the two give the same answer to a request, iff it names the channel with
the empty name, or its limit is not zero and a store has something to return. -/
theorem mload_eq_load_iff (hash : String → ℕ) (json : Wjson V) (opt : PubsubOptions)
    (sh₀ : Shared V) (ops : List (PubsubOp (AdapterImpl C))) (sh : Shared V) (now : TimeT)
    (d : CometAdapterDomain V C opt.shardCount) (r : SubscribeParams (AdapterImpl C)) :
    let target := { (PubsubMt.machine hash json).run (.new opt sh₀) ops with sh := sh }
    let d := { d with target := target }
    (d.mload hash json now [r]).2 = [(d.load hash json now r).2] ↔
      r.channel = "" ∨ r.limit ≠ 0 ∧
        Pubsub.Reached json now r (target.pubsubList (PubsubMt.index_ hash r.channel)) sh := by
  intro target d
  have hwf : ∀ i, (target.pubsubList i).channelMap.WellFormed :=
    PubsubMt.shards_run hash json (I := fun ps => ps.channelMap.WellFormed)
      (PubsubState.wellFormed_step json) (fun _ => ChannelMap.wellFormed_new) ops
  have hsome : (target.getMessages hash json now [] r).2 ≠ [] ↔ _ :=
    Pubsub.getMessages_ne_nil_iff (hwf (PubsubMt.index_ hash r.channel)) json now r sh
  have htarget : d.target = target := rfl
  rw [mload_singleton, load_snd, htarget, ← hsome, List.cons_eq_cons]
  split
  · next hnil => simp [hnil]
  · next hne => simp [hne]

/-- A target without a message: only `mload` names the channel. -/
theorem not_mload_eq_load :
    let d : CometAdapterDomain _ Unit _ := { target := .new { hashSize := 1 } {} }
    let r : SubscribeParams (AdapterImpl Unit) :=
      { channel := "channel", limit := 10, handler := { object := 0, ca := () } }
    (d.mload String.length .plain 100 [r]).2 ≠ [(d.load String.length .plain 100 r).2] := by
  decide

end CometAdapterDomain

end WfcPubsub
