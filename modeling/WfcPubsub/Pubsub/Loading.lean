import WfcPubsub.Pubsub.Subscriptions
import WfcPubsub.Rocksdb.Removal
import Mathlib.Data.List.Flatten

/-!
# Loading from all stores

`pubsub::get_messages` asks every database and then the cache, and appends what each of them
selects. Each selection obeys the cursor and the limit and is in cursor order; their
concatenation need not be. `Contents.loads_flatMap_iff` says when it is, and
`PubsubState.loads_iff` says it of what `get_messages` returns.

## Main definitions

* `Contents.Loads` : what a load of several stores has to give.
* `Pubsub.cached`, `Pubsub.stores` : the stores that `get_messages` reads.
* `Pubsub.Reached` : a store has something to return.

## Main results

* `PubsubState.wellFormed_run` : the queues of the cache are well formed in every state.
* `Pubsub.getMessages_eq` : a load concatenates the selections.
* `Pubsub.getMessages_ne_nil_iff` : when it finds something.
* `PubsubState.loads_iff` : when it obeys its cursor and limit.
* `PubsubState.not_loads` : a state in which it does not.
-/

namespace WfcPubsub

open Contents
open StableOrder (rtake_of_length_le rtake_sublist)

/-! ### Several stores -/

namespace Contents

/-- The messages that reach the cursor. -/
def matching (cursor : CursorT) (q : List Message) : List Message :=
  q.filter fun m => cursor ≤ m.cursor

/-- A load obeys its cursor and limit, is in order, and does not leave out a message with a
larger cursor than all it gives when it gives as many as it may. -/
structure Loads (cursor : CursorT) (limit : ℕ) (stores : List (List Message))
    (ml : List Message) : Prop where
  length_le : ml.length ≤ limit
  cursor_le : ∀ m ∈ ml, cursor ≤ m.cursor
  ordered : Ordered ml
  newest : ml.length = limit → ∀ q ∈ stores, ∀ x ∈ q, ∃ y ∈ ml, x.cursor ≤ y.cursor

instance (cursor : CursorT) (limit : ℕ) (stores : List (List Message)) (ml : List Message) :
    Decidable (Loads cursor limit stores ml) :=
  decidable_of_iff (ml.length ≤ limit ∧ (∀ m ∈ ml, cursor ≤ m.cursor) ∧ Ordered ml ∧
      (ml.length = limit → ∀ q ∈ stores, ∀ x ∈ q, ∃ y ∈ ml, x.cursor ≤ y.cursor))
    ⟨fun h => ⟨h.1, h.2.1, h.2.2.1, h.2.2.2⟩,
      fun h => ⟨h.length_le, h.cursor_le, h.ordered, h.newest⟩⟩

variable {cursor : CursorT} {limit : ℕ} {stores : List (List Message)}

/-- The stores with a message that reaches the cursor. -/
def reaching (cursor : CursorT) (stores : List (List Message)) : List (List Message) :=
  stores.filter fun q => matching cursor q ≠ []

/-- No two stores have to be merged, or what reaches the cursor need be neither cut nor
merged. -/
def Aligned (cursor : CursorT) (limit : ℕ) (stores : List (List Message)) : Prop :=
  if limit = 0 then ∀ q ∈ stores, q = []
  else (reaching cursor stores).length ≤ 1 ∨
    (stores.flatMap (matching cursor)).length ≤ limit ∧ Ordered (stores.flatMap (matching cursor))

theorem mem_matching {m : Message} {q : List Message} :
    m ∈ matching cursor q ↔ m ∈ q ∧ cursor ≤ m.cursor := by
  rw [matching, List.mem_filter, decide_eq_true_eq]

theorem select_eq (cursor : CursorT) (limit : ℕ) (q : List Message) :
    select cursor limit q = (matching cursor q).rtake limit := rfl

theorem length_select (cursor : CursorT) (limit : ℕ) (q : List Message) :
    (select cursor limit q).length = min limit (matching cursor q).length :=
  StableOrder.length_rtake _ _

/-- A selection finds something as soon as one message reaches the cursor. -/
theorem select_ne_nil_iff {q : List Message} :
    select cursor limit q ≠ [] ↔ limit ≠ 0 ∧ ∃ x ∈ q, cursor ≤ x.cursor := by
  have hmatching : 0 < (matching cursor q).length ↔ ∃ x ∈ q, cursor ≤ x.cursor := by
    simp only [List.length_pos_iff_exists_mem, mem_matching]
  rw [← hmatching, ← List.length_pos_iff, length_select]
  omega

theorem flatMap_select_ne_nil_iff :
    stores.flatMap (select cursor limit) ≠ [] ↔
      limit ≠ 0 ∧ ∃ q ∈ stores, ∃ x ∈ q, cursor ≤ x.cursor := by
  rw [Ne, List.flatMap_eq_nil_iff]
  push Not
  simp only [select_ne_nil_iff]
  constructor
  · rintro ⟨q, hq, hlimit, hx⟩
    exact ⟨hlimit, q, hq, hx⟩
  · rintro ⟨hlimit, q, hq, hx⟩
    exact ⟨q, hq, hlimit, hx⟩

theorem cursor_le_of_mem_select {q : List Message} {m : Message}
    (hm : m ∈ select cursor limit q) : cursor ≤ m.cursor :=
  (mem_matching.mp ((rtake_sublist _ _).subset hm)).2

/-- A selection of at least one message has the largest cursor of its store. -/
theorem exists_le_of_select {q : List Message} (hord : Ordered q) (hlimit : limit ≠ 0)
    {x : Message} (hx : x ∈ matching cursor q) :
    ∃ y ∈ select cursor limit q, x.cursor ≤ y.cursor := by
  obtain ⟨n, rfl⟩ := Nat.exists_eq_succ_of_ne_zero hlimit
  have hmatch : Ordered (matching cursor q) := hord.sublist List.filter_sublist
  obtain ⟨before, last, hsplit⟩ :=
    (List.eq_nil_or_concat (matching cursor q)).resolve_left (List.ne_nil_of_mem hx)
  rw [List.concat_eq_append] at hsplit
  rw [hsplit] at hx hmatch
  refine ⟨last, ?_, ?_⟩
  · rw [select_eq, hsplit, List.rtake_concat_succ]
    exact List.mem_append_right _ List.mem_cons_self
  · rcases List.mem_append.mp hx with hx | hx
    · exact (List.pairwise_append.mp hmatch).2.2 x hx last List.mem_cons_self
    · rw [List.mem_singleton.mp hx]

/-! A store with nothing to give gives nothing. -/

theorem flatMap_reaching {f : List Message → List Message}
    (hf : ∀ q, matching cursor q = [] → f q = []) :
    (reaching cursor stores).flatMap f = stores.flatMap f := by
  induction stores with
  | nil => rfl
  | cons q stores ih =>
    rw [List.flatMap_cons, ← ih, reaching, List.filter_cons]
    split
    · rfl
    · next h =>
      rw [hf q (by simpa using h)]
      rfl

private theorem flatMap_select_reaching :
    (reaching cursor stores).flatMap (select cursor limit) =
      stores.flatMap (select cursor limit) :=
  flatMap_reaching fun q hq => by rw [select_eq, hq, List.rtake_nil]

private theorem length_le_length_flatMap {f : List Message → List Message} {q : List Message}
    (hq : q ∈ stores) : (f q).length ≤ (stores.flatMap f).length := by
  have hsub := ((List.singleton_sublist.mpr hq).flatMap f).length_le
  rwa [List.flatMap_singleton] at hsub

/-- Stores with at most `limit` messages each that reach the cursor are not cut. -/
private theorem flatMap_select_eq (h : ∀ q ∈ stores, (matching cursor q).length ≤ limit) :
    stores.flatMap (select cursor limit) = stores.flatMap (matching cursor) :=
  List.flatMap_congr fun q hq => rtake_of_length_le (h q hq)

/-- Only messages that reach the cursor can be missing from a load. -/
private theorem loads_of_matching {ml : List Message} (hlimit : limit ≠ 0)
    (hlen : ml.length ≤ limit) (hcur : ∀ m ∈ ml, cursor ≤ m.cursor) (hord : Ordered ml)
    (hnewest : ∀ q ∈ stores, ∀ x ∈ matching cursor q, ∃ y ∈ ml, x.cursor ≤ y.cursor) :
    Loads cursor limit stores ml := by
  refine ⟨hlen, hcur, hord, fun hfull q hq x hx => ?_⟩
  by_cases hreach : cursor ≤ x.cursor
  · exact hnewest q hq x (mem_matching.mpr ⟨hx, hreach⟩)
  · obtain ⟨y, hy⟩ := List.exists_mem_of_length_pos (l := ml) (by omega)
    exact ⟨y, hy, (not_le.mp hreach).le.trans (hcur y hy)⟩

/-- A single store gives a right selection. -/
private theorem loads_of_reaching (hlimit : limit ≠ 0) (hord : ∀ q ∈ stores, Ordered q)
    (h : (reaching cursor stores).length ≤ 1) :
    Loads cursor limit stores (stores.flatMap (select cursor limit)) := by
  have hcur : ∀ m ∈ stores.flatMap (select cursor limit), cursor ≤ m.cursor := by
    intro m hm
    obtain ⟨q, -, hq⟩ := List.mem_flatMap.mp hm
    exact cursor_le_of_mem_select hq
  have hnewest : ∀ q ∈ stores, ∀ x ∈ matching cursor q,
      ∃ y ∈ stores.flatMap (select cursor limit), x.cursor ≤ y.cursor := by
    intro q hq x hx
    obtain ⟨y, hy, hle⟩ := exists_le_of_select (hord q hq) hlimit hx
    exact ⟨y, List.mem_flatMap.mpr ⟨q, hq, hy⟩, hle⟩
  have hone : ∃ q, Ordered q ∧ stores.flatMap (select cursor limit) = select cursor limit q := by
    rw [← flatMap_select_reaching]
    rcases Nat.le_one_iff_eq_zero_or_eq_one.mp h with hnil | hone
    · rw [List.eq_nil_of_length_eq_zero hnil]
      exact ⟨[], .nil, (select_nil cursor limit).symm⟩
    · obtain ⟨q, hq⟩ := List.length_eq_one_iff.mp hone
      have hmem : q ∈ stores := (List.mem_filter.mp (hq ▸ List.mem_cons_self)).1
      rw [hq]
      exact ⟨q, hord q hmem, List.flatMap_singleton _ _⟩
  obtain ⟨q, hq, heq⟩ := hone
  rw [heq] at hcur hnewest ⊢
  refine loads_of_matching hlimit ?_ hcur (hq.sublist (select_sublist _ _ _)) hnewest
  rw [length_select]
  exact min_le_left _ _

/-- Where the limit is not passed, the order is all that is left to ask. -/
private theorem loads_of_ordered (hlimit : limit ≠ 0)
    (hlen : (stores.flatMap (matching cursor)).length ≤ limit)
    (hord : Ordered (stores.flatMap (matching cursor))) :
    Loads cursor limit stores (stores.flatMap (select cursor limit)) := by
  rw [flatMap_select_eq fun q hq => (length_le_length_flatMap hq).trans hlen]
  refine loads_of_matching hlimit hlen (fun m hm => ?_) hord fun q hq x hx =>
    ⟨x, List.mem_flatMap.mpr ⟨q, hq, hx⟩, le_rfl⟩
  obtain ⟨q, -, hq⟩ := List.mem_flatMap.mp hm
  exact (mem_matching.mp hq).2

/-- Where two stores reach the cursor and the selections together obey the limit, none has been
cut. -/
private theorem length_matching_le (hlimit : limit ≠ 0)
    (hlen : (stores.flatMap (select cursor limit)).length ≤ limit)
    (htwo : 1 < (reaching cursor stores).length) :
    ∀ q ∈ stores, (matching cursor q).length ≤ limit := by
  intro q hq
  by_contra hcut
  have hreach : q ∈ reaching cursor stores := by
    refine List.mem_filter.mpr ⟨hq, ?_⟩
    simp only [ne_eq, decide_not, Bool.not_eq_true', decide_eq_false_iff_not]
    rintro hnil
    simp [hnil] at hcut
  obtain ⟨before, behind, hsplit⟩ := List.append_of_mem hreach
  -- Another store reaches the cursor and adds to a selection that is full.
  obtain ⟨q', hq'⟩ : ∃ q', q' ∈ before ++ behind := by
    refine List.exists_mem_of_length_pos ?_
    rw [hsplit, List.length_append, List.length_cons] at htwo
    rw [List.length_append]
    omega
  have hother : 0 < (select cursor limit q').length := by
    have hne : matching cursor q' ≠ [] := by
      have hmem : q' ∈ reaching cursor stores := by
        rw [hsplit]
        exact (List.mem_append.mp hq').elim (List.mem_append_left _)
          fun h => List.mem_append_right _ (List.mem_cons_of_mem _ h)
      simpa using (List.mem_filter.mp hmem).2
    rw [length_select]
    have := List.length_pos_iff.mpr hne
    omega
  have hle := length_le_length_flatMap (f := select cursor limit) hq'
  have hfull : (select cursor limit q).length = limit := by
    rw [length_select]
    omega
  rw [← flatMap_select_reaching, hsplit, List.flatMap_append, List.flatMap_cons,
    List.length_append, List.length_append] at hlen
  rw [List.flatMap_append, List.length_append] at hle
  omega

/-- The concatenated selections are a right load iff the stores are aligned. -/
theorem loads_flatMap_iff (hord : ∀ q ∈ stores, Ordered q) :
    Loads cursor limit stores (stores.flatMap (select cursor limit)) ↔
      Aligned cursor limit stores := by
  rw [Aligned]
  split
  · next hlimit =>
    subst hlimit
    have hnil : stores.flatMap (select cursor 0) = [] :=
      List.flatMap_eq_nil_iff.mpr fun q _ => List.rtake_zero _
    rw [hnil]
    constructor
    · refine fun h q hq => List.eq_nil_iff_forall_not_mem.mpr fun x hx => ?_
      obtain ⟨y, hy, -⟩ := h.newest rfl q hq x hx
      cases hy
    · refine fun h => ⟨le_rfl, List.forall_mem_nil _, .nil, fun _ q hq x hx => ?_⟩
      rw [h q hq] at hx
      cases hx
  · next hlimit =>
    constructor
    · refine fun h => or_iff_not_imp_left.mpr fun htwo => ?_
      have hcut := length_matching_le hlimit h.length_le (not_le.mp htwo)
      rw [← flatMap_select_eq hcut]
      exact ⟨h.length_le, h.ordered⟩
    · rintro (hone | ⟨hlen, hconcat⟩)
      · exact loads_of_reaching hlimit hord hone
      · exact loads_of_ordered hlimit hlen hconcat

end Contents

/-! ### The cache -/

namespace ChannelMap

variable {cm : ChannelMap}

/-- The messages of a channel. -/
def messages (name : String) (cm : ChannelMap) : List Message :=
  ((cm.channelMap.find? name).getD .new).messages

/-- The queues of all channels are well formed. -/
def WellFormed (cm : ChannelMap) : Prop :=
  ∀ name mq, cm.channelMap.find? name = some mq → mq.WellFormed

theorem wellFormed_new : new.WellFormed := fun _ _ hfind => by cases hfind

theorem WellFormed.set (h : cm.WellFormed) (name : String) {mq : MessageQueue}
    (hmq : mq.WellFormed) :
    ({ channelMap := cm.channelMap.set name mq } : ChannelMap).WellFormed := by
  intro name' mq' hfind
  simp only [OrderedMap.find?_set] at hfind
  split at hfind
  · obtain rfl := Option.some.inj hfind
    exact hmq
  · exact h name' mq' hfind

theorem WellFormed.queue (h : cm.WellFormed) (name : String) :
    ((cm.channelMap.find? name).getD .new).WellFormed := by
  cases hfind : cm.channelMap.find? name with
  | none => exact MessageQueue.wellFormed_new
  | some mq => exact h name mq hfind

theorem WellFormed.push (h : cm.WellFormed) (now : TimeT) (name : String) (m : Message) :
    (cm.push now name m).1.WellFormed := by
  simp only [ChannelMap.push]
  split
  · exact h
  · exact h.set name ((h.queue name).push now _)

theorem WellFormed.found (h : cm.WellFormed) {now : TimeT} {name : String} {mq : MessageQueue}
    (hmq : (cm.findAndRemoveDeath now name).2 = some mq) : mq.WellFormed := by
  obtain ⟨mq₀, hfind, rfl⟩ := exists_of_findAndRemoveDeath hmq
  exact (h name mq₀ hfind).removeDeath now

/-- A reading finds the live messages of the channel. -/
theorem WellFormed.messages_found (h : cm.WellFormed) (now : TimeT) (name : String) :
    ((cm.findAndRemoveDeath now name).2.getD .new).messages = live now (cm.messages name) := by
  rw [findAndRemoveDeath_snd, messages, ← MessageQueue.messages_removeDeath (h.queue name)]
  cases cm.channelMap.find? name with
  | none => rfl
  | some mq =>
    rw [Option.map_some, Option.filter_some]
    split
    · rfl
    · next hempty =>
      have hnil : (mq.removeDeath now).queue = [] := by
        simpa [MessageQueue.empty] using hempty
      show [] = (mq.removeDeath now).queue.map StoredMessage.get
      rw [hnil, List.map_nil]

theorem WellFormed.findAndRemoveDeath (h : cm.WellFormed) (now : TimeT) (name : String) :
    (cm.findAndRemoveDeath now name).1.WellFormed := by
  intro name' mq hmq
  rw [find?_findAndRemoveDeath] at hmq
  split at hmq
  · exact h.found hmq
  · exact h name' mq hmq

theorem WellFormed.getRemoved (h : cm.WellFormed) (reset : Bool) :
    (cm.getRemoved reset).1.WellFormed := by
  intro name mq hfind
  simp only [ChannelMap.getRemoved, OrderedMap.find?_mapValues] at hfind
  obtain ⟨mq', hfind', rfl⟩ := Option.map_eq_some_iff.mp hfind
  obtain ⟨hseq, hord⟩ := h name mq' hfind'
  rw [MessageQueue.getRemoved]
  split
  · exact ⟨hseq, hord⟩
  · exact ⟨hseq, hord⟩

/-- A reading selects from the live messages of the channel. -/
theorem WellFormed.getMessages_eq (h : cm.WellFormed) (cursor : CursorT) (limit : ℕ)
    (now : TimeT) (ml : List Message) (name : String) :
    (cm.getMessages cursor limit now (some ml) name).2 =
      some (ml ++ select cursor limit (live now (cm.messages name))) := by
  rw [ChannelMap.getMessages_eq, ← h.messages_found]
  cases hfound : (cm.findAndRemoveDeath now name).2 with
  | none =>
    have hnil : select cursor limit MessageQueue.new.messages = [] := select_nil cursor limit
    rw [Option.getD_none, hnil, List.append_nil]
  | some mq =>
    exact congrArg some (MessageQueue.copyTo_messages (h.found hfound) cursor limit ml)

end ChannelMap

/-! ### `get_messages` -/

variable {V H : Type}

namespace Pubsub

/-- The live messages that the databases hold for a channel, database by database. -/
def databases (json : Wjson V) (now : TimeT) (channel : String) (mr : MultiRocksdb V) :
    List (List Message) :=
  mr.rocksdbMap.entries.map fun db => db.2.held json now channel

/-- The live messages that the cache holds for a channel. -/
def cached (now : TimeT) (channel : String) (ps : Pubsub H) : List Message :=
  live now (ps.channelMap.messages channel)

/-- The stores that `get_messages` reads, in order: the databases and, unless it is disabled or
the databases have answered, the cache. -/
def stores (json : Wjson V) (now : TimeT) (params : SubscribeParams H) (ps : Pubsub H)
    (sh : Shared V) : List (List Message) :=
  let dbs := ((store ps.opt sh).map (databases json now params.channel)).getD []
  let answered :=
    ps.opt.persistentDefault && !(dbs.flatMap (select params.cursor params.limit)).isEmpty
  dbs ++ if answered || ps.opt.cacheDisabled then [] else [ps.cached now params.channel]

theorem getCached_eq {ps : Pubsub H} (h : ps.channelMap.WellFormed) (now : TimeT)
    (ml : List Message) (params : SubscribeParams H) :
    (ps.getCached now ml params).2 = ml ++
      (if ps.opt.cacheDisabled then [] else [ps.cached now params.channel]).flatMap
        (select params.cursor params.limit) := by
  simp only [getCached]
  split
  · rw [List.flatMap_nil, List.append_nil]
  · rw [List.flatMap_singleton, h.getMessages_eq]
    rfl

/-- A load concatenates the selections from its stores. -/
theorem getMessages_eq (json : Wjson V) (now : TimeT) (params : SubscribeParams H)
    {ps : Pubsub H} (h : ps.channelMap.WellFormed) (sh : Shared V) :
    (ps.getMessages json now [] params sh).2 =
      (stores json now params ps sh).flatMap (select params.cursor params.limit) := by
  rw [stores, List.flatMap_append, getMessages]
  cases store ps.opt sh with
  | none =>
    dsimp only [Option.map_none, Option.getD_none]
    rw [getCached_eq h]
    simp
  | some db =>
    have hdbs : (db.getMessages json now [] params.channel params.cursor params.limit).2 =
        (databases json now params.channel db).flatMap (select params.cursor params.limit) := by
      rw [MultiRocksdb.getMessages_eq, databases, List.flatMap_map]
      rfl
    dsimp only [Option.map_some, Option.getD_some]
    rw [hdbs, Bool.and_comm]
    split
    · next hanswered => simp [hanswered]
    · next hanswered =>
      rw [getCached_eq h]
      simp only [Bool.eq_false_iff.mpr hanswered, Bool.false_or]

/-- A database that `get_messages` may use, or the cache, holds a live message of the channel that
reaches the cursor. -/
def Reached (json : Wjson V) (now : TimeT) (params : SubscribeParams H) (ps : Pubsub H)
    (sh : Shared V) : Prop :=
  (∃ db ∈ store ps.opt sh, ∃ q ∈ databases json now params.channel db,
    ∃ x ∈ q, params.cursor ≤ x.cursor) ∨
  ps.opt.cacheDisabled = false ∧ ∃ x ∈ ps.cached now params.channel, params.cursor ≤ x.cursor

/-- A reading returns something if its limit is not zero and a store has something to return. -/
theorem getMessages_ne_nil_iff {ps : Pubsub H} (h : ps.channelMap.WellFormed) (json : Wjson V)
    (now : TimeT) (params : SubscribeParams H) (sh : Shared V) :
    (ps.getMessages json now [] params sh).2 ≠ [] ↔
      params.limit ≠ 0 ∧ Reached json now params ps sh := by
  have hdbs : (∃ q ∈ ((store ps.opt sh).map (databases json now params.channel)).getD [],
      ∃ x ∈ q, params.cursor ≤ x.cursor) ↔
      ∃ db ∈ store ps.opt sh, ∃ q ∈ databases json now params.channel db,
        ∃ x ∈ q, params.cursor ≤ x.cursor := by
    cases store ps.opt sh <;> simp
  rw [getMessages_eq json now params h, stores, List.flatMap_append, Reached, ← hdbs]
  set dbs := ((store ps.opt sh).map (databases json now params.channel)).getD []
  by_cases hanswer : dbs.flatMap (select params.cursor params.limit) = []
  · -- The databases return nothing, so the cache is asked unless it is disabled.
    have hnone := mt flatMap_select_ne_nil_iff.mpr (not_not.mpr hanswer)
    cases hdisabled : ps.opt.cacheDisabled with
    | true =>
      simpa [hanswer] using hnone
    | false =>
      rw [and_or_left, or_iff_right hnone]
      have hcached : select params.cursor params.limit (ps.cached now params.channel) ≠ [] ↔ _ :=
        select_ne_nil_iff
      simpa [hanswer] using hcached
  · obtain ⟨hlimit, hreached⟩ := flatMap_select_ne_nil_iff.mp hanswer
    exact iff_of_true (fun hnil => hanswer (List.append_eq_nil_iff.mp hnil).1)
      ⟨hlimit, Or.inl hreached⟩

theorem ordered_stores (json : Wjson V) (now : TimeT) (params : SubscribeParams H)
    {ps : Pubsub H} (h : ps.channelMap.WellFormed) (sh : Shared V) :
    ∀ q ∈ stores json now params ps sh, Ordered q := by
  have hcached : Ordered (ps.cached now params.channel) :=
    (h.queue params.channel).ordered_messages.sublist (live_sublist _ _)
  rintro q hq
  rw [stores] at hq
  rcases List.mem_append.mp hq with hq | hq
  · cases hstore : store ps.opt sh with
    | none => simp [hstore] at hq
    | some mr =>
      rw [hstore] at hq
      obtain ⟨db, -, rfl⟩ := List.mem_map.mp hq
      exact db.2.ordered_held json now params.channel
  · split at hq
    · cases hq
    · rwa [List.mem_singleton.mp hq]

theorem wellFormed_publish {ps : Pubsub H} (h : ps.channelMap.WellFormed) (json : Wjson V)
    (now : TimeT) (channel : String) (msg : Message) (sh : Shared V) :
    (ps.publish json now channel msg sh).1.channelMap.WellFormed := by
  simp only [publish]
  split
  · rw [pushCache]
    split
    · exact h.push now channel _
    · exact h
  · exact h

theorem wellFormed_getMessages {ps : Pubsub H} (h : ps.channelMap.WellFormed) (json : Wjson V)
    (now : TimeT) (ml : List Message) (params : SubscribeParams H) (sh : Shared V) :
    (ps.getMessages json now ml params sh).1.channelMap.WellFormed := by
  rcases getMessages_fst json now ml params ps sh with hread | hread
  · rwa [hread]
  · rw [hread]
    exact h.findAndRemoveDeath now params.channel

end Pubsub

namespace PubsubState

theorem wellFormed_step (json : Wjson V) (s : PubsubState V H) (op : PubsubOp H)
    (h : s.ps.channelMap.WellFormed) : (step json s op).1.ps.channelMap.WellFormed := by
  have hsubscribe : ∀ now id params sh,
      (s.ps.subscribeAs json now [] id params sh).1.channelMap.WellFormed := by
    intro now id params sh
    refine Pubsub.wellFormed_getMessages ?_ json now [] params sh
    show (s.ps.describe_ id params.channel).1.channelMap.WellFormed
    rwa [(Pubsub.describe_pair_rest id params.channel s.ps).1]
  cases op with
  | publish now channel msg => exact Pubsub.wellFormed_publish h json now channel msg s.sh
  | getMessages now params => exact Pubsub.wellFormed_getMessages h json now [] params s.sh
  | subscribe now params => exact hsubscribe now _ params _
  | subscribeAs now id params => exact hsubscribe now id params s.sh
  | describe id => exact h
  | describeChannel id channel =>
    show (s.ps.describe_ id channel).1.channelMap.WellFormed
    rwa [(Pubsub.describe_pair_rest id channel s.ps).1]
  | reset => exact ChannelMap.wellFormed_new
  | size count => exact h
  | emptyCount => exact h
  | getRemoved reset => exact h.getRemoved reset
  | subscriberCount => exact h

theorem wellFormed_run (json : Wjson V) (opt : PubsubOptions) (sh : Shared V)
    (ops : List (PubsubOp H)) :
    ((machine json).run (new opt sh) ops).ps.channelMap.WellFormed :=
  Machine.invariant_run (I := fun s : PubsubState V H => s.ps.channelMap.WellFormed)
    (wellFormed_step json) ChannelMap.wellFormed_new ops

/-- **Loading.** For every cache that a run can leave and whatever the databases hold, what
`get_messages` returns obeys its cursor and its limit, is in cursor order and contains the newest
messages, iff the stores that it reads are aligned. -/
theorem loads_iff (json : Wjson V) (opt : PubsubOptions) (sh₀ : Shared V)
    (ops : List (PubsubOp H)) (sh : Shared V) (now : TimeT) (params : SubscribeParams H) :
    let ps := ((machine json).run (new opt sh₀) ops).ps
    let stores := Pubsub.stores json now params ps sh
    Loads params.cursor params.limit stores (ps.getMessages json now [] params sh).2 ↔
      Aligned params.cursor params.limit stores := by
  intro ps stores
  have h := wellFormed_run json opt sh₀ ops
  rw [Pubsub.getMessages_eq json now params h]
  exact loads_flatMap_iff (Pubsub.ordered_stores json now params h sh)

section Examples

open Message (sample)

/-- With databases for the times to live 10 and 100 and a limit of 1, a load gives two messages,
the larger cursor first. -/
theorem not_loads :
    let s := (machine .plain).run
      (new {} { rocksdb := some (.opened [10, 100]) } : PubsubState _ Unit)
      [.publish 100 "channel" { sample "a" 2 with lifetime := 5, persistent := true },
        .publish 100 "channel" { sample "b" 1 with persistent := true }]
    let params : SubscribeParams Unit := { channel := "channel", limit := 1, handler := () }
    ¬ Loads params.cursor params.limit (Pubsub.stores .plain 101 params s.ps s.sh)
      (s.ps.getMessages .plain 101 [] params s.sh).2 := by
  decide

end Examples

end PubsubState

end WfcPubsub
