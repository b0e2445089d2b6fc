import WfcPubsub.Pubsub.Storing

/-!
# Reading one's own writes

`publish` and `get_messages` decide separately which stores to use. A published message with
the largest cursor of its channel is the last one alive in every store that takes it, so a reading
at the same time finds it there. Two things can take it away: a message flagged `persistent` goes
past the cache, also where there is no database to go to; and the dead messages that a merge
replays, or that have come to the cache at the same time, count for the limit of the message as
live ones do.

## Main definitions

* `Returns` : a reading gives back what has been published.
* `Pubsub.onChannel` : what the stores hold for a channel.
* `Pubsub.mergedInto`, `Pubsub.others` : the database that takes a message, and the other ones.
* `Fresh` : a message as `publish` stores it.

## Main results

* `PubsubState.returned_iff` : when a published message can be read at once.
* `PubsubState.not_returned` : one that cannot.
-/

namespace WfcPubsub

open Contents
open StableOrder (rtake_sublist)

variable {V H : Type}

/-- One of the messages has the cursor, identity, key and content of `m`. -/
def Returns (m : Message) (ml : List Message) : Prop :=
  ∃ x ∈ ml, x.cursor = m.cursor ∧ x.identity = m.identity ∧ x.key = m.key ∧ x.content = m.content

instance (m : Message) (ml : List Message) : Decidable (Returns m ml) :=
  inferInstanceAs (Decidable (∃ x ∈ ml, x.cursor = m.cursor ∧ x.identity = m.identity ∧
    x.key = m.key ∧ x.content = m.content))

/-! ### The newest message of a queue -/

/-- Published just now, and alive. -/
structure Fresh (now : TimeT) (m : Message) : Prop where
  action : m.action = .publish
  birthtime : m.birthtime = now
  limited : m.unlimited = false
  live : now ≤ m.deathtime

namespace Fresh

variable {now : TimeT} {m : Message}

theorem wire (h : Fresh now m) : Fresh now m.wire := ⟨h.action, h.birthtime, h.limited, h.live⟩

/-- What `publish` makes of a message without a birthtime. -/
theorem reborn (hact : m.action = .publish) (hlife : 0 < m.lifetime) (hlimit : 0 < m.limit)
    (hlo : -2 ^ 63 ≤ now) (hhi : now + m.lifetime < 2 ^ 63) : Fresh now (m.reborn now) where
  action := hact
  birthtime := rfl
  limited := Message.unlimited_eq_false_iff.mpr ⟨hlife.ne', hlimit.ne'⟩
  live := by
    have hle : now ≤ now + m.lifetime := le_add_of_nonneg_right hlife.le
    have hsum : (m.reborn now).deathtime = now + m.lifetime :=
      Message.deathtime_eq_add (hlo.trans hle) hhi
    rwa [hsum]

theorem bornAt_eq (h : Fresh now m) : bornAt now m = m := by
  rw [bornAt, Message.reborn, ← h.birthtime, ite_self]

/-- Where the messages of larger cursors are dead, a fresh message becomes the last one alive, or
its limit cuts off everything alive. -/
theorem live_store (h : Fresh now m) {q : List Message} (hord : Ordered q)
    (hle : ∀ x ∈ Contents.live now q, x.cursor ≤ m.cursor) :
    (behind m q < m.limit → ∃ q', Contents.live now (store now m q) = q' ++ [m] ∧
      ∀ x ∈ q', x.cursor ≤ m.cursor) ∧
    (m.limit ≤ behind m q → Contents.live now (store now m q) = []) := by
  obtain ⟨hlife, hlimit⟩ := Message.unlimited_eq_false_iff.mp h.limited
  set post := q.filter fun x => m.cursor < x.cursor with hpost
  have hnone : ∀ p ⊆ post, Contents.live now p = [] := by
    refine fun p hp => List.filter_eq_nil_iff.mpr fun x hx halive => ?_
    obtain ⟨hmem, hlt⟩ := List.mem_filter.mp (hp hx)
    have hcursor := hle x (mem_live.mpr ⟨hmem, by simpa using halive⟩)
    exact absurd hcursor (not_le.mpr (by simpa using hlt))
  rw [store_of_publish h.action hlife hlimit, insert_eq hord, h.bornAt_eq,
    StableOrder.rtake_append_cons, behind, ← hpost]
  refine ⟨fun hroom => ?_, fun hcut => ?_⟩
  · rw [if_neg (not_le.mpr hroom)]
    refine ⟨Contents.live now ((q.filter fun x => x.cursor ≤ m.cursor).rtake
      (m.limit - 1 - post.length)), ?_, fun x hx => ?_⟩
    · rw [live_append, ← List.singleton_append, live_append, hnone _ (List.Subset.refl _),
        List.append_nil, live_eq_self (List.forall_mem_singleton.mpr h.live)]
    · have hmem := (rtake_sublist _ _).subset ((live_sublist _ _).subset hx)
      simpa using (List.mem_filter.mp hmem).2
  · rw [if_pos hcut]
    exact hnone _ (rtake_sublist _ _).subset

end Fresh

/-- The last message is selected by every limit. -/
theorem Contents.mem_select_concat {cursor : CursorT} {limit : ℕ} {m : Message}
    (hcursor : cursor ≤ m.cursor) (hlimit : limit ≠ 0) (q : List Message) :
    m ∈ select cursor limit (q ++ [m]) := by
  obtain ⟨n, rfl⟩ := Nat.exists_eq_succ_of_ne_zero hlimit
  rw [select, List.filter_append, List.filter_singleton, decide_eq_true hcursor, cond_true,
    List.rtake_concat_succ]
  exact List.mem_append_right _ List.mem_cons_self

theorem Returns.append_iff {m : Message} {ml ml' : List Message} :
    Returns m (ml ++ ml') ↔ Returns m ml ∨ Returns m ml' := by
  simp only [Returns, List.mem_append, or_and_right, exists_or]

theorem Returns.flatMap_iff {α : Type*} {m : Message} {f : α → List Message} {l : List α} :
    Returns m (l.flatMap f) ↔ ∃ a ∈ l, Returns m (f a) := by
  simp only [Returns, List.mem_flatMap]
  exact ⟨fun ⟨x, ⟨a, ha, hx⟩, heq⟩ => ⟨a, ha, x, hx, heq⟩,
    fun ⟨a, ha, x, hx, heq⟩ => ⟨x, ⟨a, ha, hx⟩, heq⟩⟩

theorem not_returns_nil (m : Message) : ¬ Returns m [] := by
  rintro ⟨x, hx, -⟩
  cases hx

/-! ### In a database -/

/-- A database holds a fresh message at its end, or nothing. -/
theorem Rocksdb.held_push_fresh (json : Wjson V) {now : TimeT} {m : Message} (h : Fresh now m)
    {name : String} {r : Rocksdb V}
    (hle : ∀ x ∈ live now (storeAll now ((r.db name).arrivals json) []), x.cursor ≤ m.cursor) :
    (behind m (storeAll now ((r.db name).arrivals json) []) < m.limit →
      ∃ q, (r.push json name m).1.held json now name = q ++ [m.wire]) ∧
    (m.limit ≤ behind m (storeAll now ((r.db name).arrivals json) []) →
      (r.push json name m).1.held json now name = []) := by
  obtain ⟨hkept, hgone⟩ := h.wire.live_store (ordered_storeAll now _) hle
  rw [held_push]
  refine ⟨fun hroom => ?_, fun hcut => ?_⟩
  · obtain ⟨q, hq, hbefore⟩ := hkept hroom
    -- The merge puts the message behind all others, and so does the replay of its result.
    have hreplayed : ∀ x ∈ storeAll now (q.map Message.wire) [], x.cursor ≤ m.cursor := by
      intro x hx
      obtain ⟨a, ha, ⟨hcursor, -⟩, -⟩ := exists_arrival hx
      obtain ⟨y, hy, rfl⟩ := List.mem_map.mp ha
      exact hcursor ▸ hbefore y hy
    have hbehind : behind m.wire (storeAll now (q.map Message.wire) []) = 0 :=
      List.length_eq_zero_iff.mpr
        (List.filter_eq_nil_iff.mpr fun x hx hlt =>
          absurd (hreplayed x hx) (not_le.mpr (of_decide_eq_true hlt)))
    obtain ⟨q', hq', -⟩ := (h.wire.live_store (ordered_storeAll now (q.map Message.wire))
      fun x hx => hreplayed x ((live_sublist _ _).subset hx)).1
      (hbehind ▸ Nat.zero_lt_of_lt hroom)
    rw [hq, List.map_append, storeAll_append]
    exact ⟨q', hq'⟩
  · rw [hgone hcut]
    rfl

/-! ### In the cache -/

theorem ChannelMap.WellFormed.messages_push {cm : ChannelMap} (h : cm.WellFormed) {now : TimeT}
    {m : Message} (hfresh : Fresh now m) (name : String)
    (hle : ∀ x ∈ live now (cm.messages name), x.cursor ≤ m.cursor) :
    (behind m (cm.foundAt now name) < m.limit →
      ∃ q, live now ((cm.push now name m).1.messages name) = q ++ [m]) ∧
    (m.limit ≤ behind m (cm.foundAt now name) →
      live now ((cm.push now name m).1.messages name) = []) := by
  have hstore := hfresh.live_store (h.ordered_foundAt now name) fun x hx =>
    hle x (((ChannelMap.foundAt_sublist now name cm).filter _).subset hx)
  rw [h.messages_push_eq, if_pos rfl]
  exact ⟨fun hroom => (hstore.1 hroom).imp fun q hq => hq.1, hstore.2⟩

/-! ### In the stores of `pubsub` -/

namespace Pubsub

/-- What the stores hold for a channel: the live messages of the cache, and what the merge leaves
in each database. -/
def onChannel (json : Wjson V) (now : TimeT) (channel : String) (ps : Pubsub H) (sh : Shared V) :
    List Message :=
  ps.cached now channel ++ ((store ps.opt sh).map fun mr =>
    mr.rocksdbMap.entries.flatMap fun db =>
      live now (storeAll now ((db.2.db channel).arrivals json) [])).getD []

/-- The database to which `publish` pushes a message. -/
def target (opt : PubsubOptions) (m : Message) (sh : Shared V) : Option TimeT :=
  if m.persistent || opt.persistentDefault then
    (store opt sh).bind fun mr => mr.getDb m.lifetime
  else none

/-- The messages, dead or alive, that a merge in this database has when it comes to `m`. -/
def mergedInto (json : Wjson V) (opt : PubsubOptions) (now : TimeT) (channel : String)
    (m : Message) (sh : Shared V) : Option (List Message) :=
  (target opt m sh).bind fun t => (store opt sh).bind fun mr =>
    (mr.rocksdbMap.find? t).map fun db => storeAll now ((db.db channel).arrivals json) []

/-- What the other databases hold. -/
def others (json : Wjson V) (opt : PubsubOptions) (now : TimeT) (channel : String) (m : Message)
    (sh : Shared V) : List (List Message) :=
  ((store opt sh).map fun mr =>
    (mr.rocksdbMap.entries.filter fun db => target opt m sh ≠ some db.1).map fun db =>
      db.2.held json now channel).getD []

theorem store_pushRocksdb (json : Wjson V) (opt : PubsubOptions) (channel : String) (m : Message)
    (sh : Shared V) :
    store opt (pushRocksdb json opt channel m sh) =
      if m.persistent || opt.persistentDefault then
        (store opt sh).map fun mr => (mr.push json channel m).1
      else store opt sh := by
  rw [pushRocksdb]
  split
  · simp only [store]
    split
    · rfl
    · rfl
  · rfl

/-- What `publish` stores, and where. -/
theorem publish_eq (json : Wjson V) {now : TimeT} (channel : String) {m : Message}
    (hbirth : m.birthtime = 0) (hlife : m.lifetime ≠ 0) (hlimit : m.limit ≠ 0) (ps : Pubsub H)
    (sh : Shared V) :
    (ps.publish json now channel m sh).1 = ps.pushCache now channel (m.reborn now) ∧
      (ps.publish json now channel m sh).2.1 =
        pushRocksdb json ps.opt channel (m.reborn now) sh := by
  have hcomplete : complete ps.opt now m = m.reborn now := by
    simp [complete, Message.reborn, hbirth, hlife, hlimit]
  rw [publish, if_pos (by simp [hlife]), hcomplete]
  exact ⟨rfl, rfl⟩

@[simp] theorem pushCache_opt (now : TimeT) (channel : String) (m : Message) (ps : Pubsub H) :
    (ps.pushCache now channel m).opt = ps.opt := by
  rw [pushCache]
  split <;> rfl

variable {json : Wjson V} {now : TimeT} {m : Message} {channel : String} {ps : Pubsub H}
  {sh : Shared V}

/-- The databases that a reading finds after a push: the one that has taken the message, and the
other ones. -/
private theorem mem_databases_push (hlife : m.lifetime ≠ 0) {mr : MultiRocksdb V}
    {q : List Message} :
    q ∈ databases json now channel (mr.push json channel m).1 ↔
      q ∈ ((mr.rocksdbMap.entries.filter fun db => mr.getDb m.lifetime ≠ some db.1).map fun db =>
        db.2.held json now channel) ∨
      ∃ t db, mr.getDb m.lifetime = some t ∧ mr.rocksdbMap.find? t = some db ∧
        (db.push json channel m).1.held json now channel = q := by
  simp only [databases, List.mem_map, List.mem_filter, Prod.exists,
    ← OrderedMap.find?_eq_some_iff, decide_eq_true_eq]
  constructor
  · rintro ⟨t, db, hfind, rfl⟩
    rw [MultiRocksdb.find?_push] at hfind
    split at hfind
    · next htarget =>
      obtain ⟨db, hdb, rfl⟩ := Option.map_eq_some_iff.mp hfind
      exact Or.inr ⟨t, db, htarget.2, hdb, rfl⟩
    · next hother =>
      exact Or.inl ⟨t, db, ⟨hfind, fun htarget => hother ⟨Or.inl hlife, htarget⟩⟩, rfl⟩
  · rintro (⟨t, db, ⟨hfind, hother⟩, rfl⟩ | ⟨t, db, htarget, hfind, rfl⟩)
    · refine ⟨t, db, ?_, rfl⟩
      rw [MultiRocksdb.find?_push, if_neg fun htarget => hother htarget.2, hfind]
    · refine ⟨t, (db.push json channel m).1, ?_, rfl⟩
      rw [MultiRocksdb.find?_push, if_pos ⟨Or.inl hlife, htarget⟩, hfind, Option.map_some]

private theorem mem_databases_pushRocksdb (hlife : m.lifetime ≠ 0) {q : List Message} :
    q ∈ ((store ps.opt (pushRocksdb json ps.opt channel m sh)).map
        (databases json now channel)).getD [] ↔
      q ∈ others json ps.opt now channel m sh ∨
        ∃ t mr db, target ps.opt m sh = some t ∧ store ps.opt sh = some mr ∧
          mr.rocksdbMap.find? t = some db ∧ (db.push json channel m).1.held json now channel = q := by
  rw [store_pushRocksdb, others, target]
  cases hstore : store ps.opt sh with
  | none => simp
  | some mr =>
    by_cases hpush : (m.persistent || ps.opt.persistentDefault) = true
    · simp only [if_pos hpush, Option.map_some, Option.getD_some, Option.bind_some,
        mem_databases_push hlife]
      refine or_congr Iff.rfl ⟨?_, ?_⟩
      · rintro ⟨t, db, htarget, hfind, hq⟩
        exact ⟨t, mr, db, htarget, rfl, hfind, hq⟩
      · rintro ⟨t, mr', db, htarget, hmr, hfind, hq⟩
        obtain rfl := Option.some.inj hmr
        exact ⟨t, db, htarget, hfind, hq⟩
    · simp only [if_neg hpush, Option.map_some, Option.getD_some, databases, ne_eq,
        reduceCtorEq, not_false_eq_true, decide_true, List.filter_true, false_and, exists_false,
        or_false]

/-- The databases after a push, seen through a cursor and a limit: they give the new message,
unless its limit cuts it off. Then the database that has taken it holds nothing. -/
private theorem databases_pushRocksdb (hfresh : Fresh now m) {cursor : CursorT} {limit : ℕ}
    (hcursor : cursor ≤ m.cursor) (hlimit : limit ≠ 0)
    (hle : ∀ x ∈ onChannel json now channel ps sh, x.cursor ≤ m.cursor) :
    let after := (((store ps.opt (pushRocksdb json ps.opt channel m sh)).map
      (databases json now channel)).getD []).flatMap (select cursor limit)
    let before := (others json ps.opt now channel m sh).flatMap (select cursor limit)
    ((∃ q ∈ mergedInto json ps.opt now channel m sh, behind m q < m.limit) → Returns m after) ∧
    ((∀ q ∈ mergedInto json ps.opt now channel m sh, m.limit ≤ behind m q) →
      (Returns m after ↔ Returns m before) ∧ (after = [] ↔ before = [])) := by
  intro after before
  have hlife := (Message.unlimited_eq_false_iff.mp hfresh.limited).1
  have hpushed : ∀ {t mr db}, store ps.opt sh = some mr → mr.rocksdbMap.find? t = some db →
      ∀ x ∈ live now (storeAll now ((db.db channel).arrivals json) []), x.cursor ≤ m.cursor := by
    intro t mr db hstore hfind x hx
    refine hle x (List.mem_append_right _ ?_)
    rw [hstore]
    exact List.mem_flatMap.mpr ⟨(t, db), OrderedMap.find?_eq_some_iff.mp hfind, hx⟩
  refine ⟨?_, fun hcut => ?_⟩
  · rintro ⟨q, hq, hroom⟩
    obtain ⟨t, htarget, hq⟩ := Option.bind_eq_some_iff.mp hq
    obtain ⟨mr, hstore, hq⟩ := Option.bind_eq_some_iff.mp hq
    obtain ⟨db, hfind, rfl⟩ := Option.map_eq_some_iff.mp hq
    obtain ⟨q', hq'⟩ :=
      (Rocksdb.held_push_fresh json hfresh (hpushed hstore hfind)).1 hroom
    have hmem := mem_select_concat (m := m.wire) hcursor hlimit q'
    refine Returns.flatMap_iff.mpr ⟨q' ++ [m.wire], ?_, m.wire, hmem, rfl, rfl, rfl, rfl⟩
    exact (mem_databases_pushRocksdb hlife).mpr
      (Or.inr ⟨t, mr, db, htarget, hstore, hfind, hq'⟩)
  · have hmem : ∀ q ≠ [], (q ∈ ((store ps.opt (pushRocksdb json ps.opt channel m sh)).map
        (databases json now channel)).getD [] ↔ q ∈ others json ps.opt now channel m sh) := by
      intro q hne
      rw [mem_databases_pushRocksdb hlife, or_iff_left]
      rintro ⟨t, mr, db, htarget, hstore, hfind, rfl⟩
      refine hne ((Rocksdb.held_push_fresh json hfresh (hpushed hstore hfind)).2 (hcut _ ?_))
      rw [mergedInto, htarget, hstore, Option.bind_some, Option.bind_some, hfind]
      rfl
    have hselects : ∀ {q : List Message} {x : Message}, x ∈ select cursor limit q → q ≠ [] := by
      rintro q x hx rfl
      rw [select_nil] at hx
      cases hx
    refine ⟨?_, ?_⟩
    · rw [Returns.flatMap_iff, Returns.flatMap_iff]
      refine exists_congr fun q => and_congr_left ?_
      rintro ⟨x, hx, -⟩
      exact hmem q (hselects hx)
    · rw [List.flatMap_eq_nil_iff, List.flatMap_eq_nil_iff]
      refine forall_congr' fun q => ?_
      by_cases hne : q = []
      · rw [hne, select_nil]
        exact iff_of_true (fun _ => rfl) fun _ => rfl
      · rw [hmem q hne]

/-- The cache gives a message that goes past it if it has given the same before, and any other one
unless its limit cuts it off. -/
private theorem returns_cached_iff (h : ps.channelMap.WellFormed) (hfresh : Fresh now m)
    {cursor : CursorT} {limit : ℕ} (hcursor : cursor ≤ m.cursor) (hlimit : limit ≠ 0)
    (hcache : ps.opt.cacheDisabled = false)
    (hle : ∀ x ∈ onChannel json now channel ps sh, x.cursor ≤ m.cursor) :
    Returns m (select cursor limit ((ps.pushCache now channel m).cached now channel)) ↔
      if m.persistent then Returns m (select cursor limit (ps.cached now channel))
      else behind m (ps.channelMap.foundAt now channel) < m.limit := by
  cases hpersistent : m.persistent with
  | true =>
    rw [pushCache, if_neg (by simp [hpersistent]), if_pos rfl]
  | false =>
    obtain ⟨hkept, hgone⟩ := h.messages_push hfresh channel fun x hx =>
      hle x (List.mem_append_left _ hx)
    rw [pushCache, if_pos (by simp [hcache, hpersistent]), cached, if_neg Bool.false_ne_true]
    by_cases hroom : behind m (ps.channelMap.foundAt now channel) < m.limit
    · obtain ⟨q, hq⟩ := hkept hroom
      refine iff_of_true ⟨m, ?_, rfl, rfl, rfl, rfl⟩ hroom
      exact hq ▸ mem_select_concat hcursor hlimit q
    · refine iff_of_false ?_ hroom
      rw [hgone (not_lt.mp hroom), select_nil]
      exact not_returns_nil m

/-- What a reading behind the push of a fresh message returns. -/
theorem returns_stores_iff (h : ps.channelMap.WellFormed) (hfresh : Fresh now m)
    (params : SubscribeParams H) (hcursor : params.cursor ≤ m.cursor) (hlimit : params.limit ≠ 0)
    (hcache : ps.opt.cacheDisabled = false)
    (hle : ∀ x ∈ onChannel json now params.channel ps sh, x.cursor ≤ m.cursor) :
    let before := (others json ps.opt now params.channel m sh).flatMap
      (select params.cursor params.limit)
    Returns m ((stores json now params (ps.pushCache now params.channel m)
        (pushRocksdb json ps.opt params.channel m sh)).flatMap
          (select params.cursor params.limit)) ↔
      (∃ q ∈ mergedInto json ps.opt now params.channel m sh, behind m q < m.limit) ∨
        Returns m before ∨ (ps.opt.persistentDefault = false ∨ before = []) ∧
          if m.persistent then
            Returns m (select params.cursor params.limit (ps.cached now params.channel))
          else behind m (ps.channelMap.foundAt now params.channel) < m.limit := by
  intro before
  obtain ⟨hroom, hcut⟩ := databases_pushRocksdb hfresh hcursor hlimit hle
  have hcached := returns_cached_iff h hfresh hcursor hlimit hcache hle
  rw [stores, List.flatMap_append, Returns.append_iff, pushCache_opt, hcache, Bool.or_false]
  set after := (((store ps.opt (pushRocksdb json ps.opt params.channel m sh)).map
    (databases json now params.channel)).getD []).flatMap (select params.cursor params.limit)
  have htail : Returns m ((if (ps.opt.persistentDefault && !after.isEmpty) = true then []
      else [(ps.pushCache now params.channel m).cached now params.channel]).flatMap
        (select params.cursor params.limit)) ↔
      (ps.opt.persistentDefault = false ∨ after = []) ∧
        if m.persistent then
          Returns m (select params.cursor params.limit (ps.cached now params.channel))
        else behind m (ps.channelMap.foundAt now params.channel) < m.limit := by
    have hread : (ps.opt.persistentDefault && !after.isEmpty) = true ↔
        ¬ (ps.opt.persistentDefault = false ∨ after = []) := by
      rw [not_or, Bool.and_eq_true, Bool.not_eq_false, Bool.not_eq_true', List.isEmpty_eq_false_iff]
    split
    · next hanswered =>
      exact iff_of_false (not_returns_nil m) fun hcond => hread.mp hanswered hcond.1
    · next hasked =>
      rw [List.flatMap_singleton, hcached, and_iff_right (not_not.mp (mt hread.mpr hasked))]
  rw [htail]
  by_cases hmerged : ∃ q ∈ mergedInto json ps.opt now params.channel m sh, behind m q < m.limit
  · exact iff_of_true (Or.inl (hroom hmerged)) (Or.inl hmerged)
  · obtain ⟨hreturns, hnil⟩ := hcut fun q hq => not_lt.mp fun hlt => hmerged ⟨q, hq, hlt⟩
    rw [or_iff_right hmerged, hreturns, hnil]

end Pubsub

namespace PubsubState

/-- No method but the constructor sets the options. -/
theorem opt_step (json : Wjson V) (s : PubsubState V H) (op : PubsubOp H) :
    (step json s op).1.ps.opt = s.ps.opt := by
  have hread : ∀ (ps : Pubsub H) now params sh,
      (ps.getMessages json now [] params sh).1.opt = ps.opt := by
    intro ps now params sh
    rcases Pubsub.getMessages_fst json now [] params ps sh with hread | hread
    · rw [hread]
    · rw [hread]
  have hdescribe : ∀ id channel, (s.ps.describe_ id channel).1.opt = s.ps.opt :=
    fun id channel => (Pubsub.describe_pair_rest id channel s.ps).2
  cases op with
  | publish now channel msg =>
    show (s.ps.publish json now channel msg s.sh).1.opt = s.ps.opt
    rw [Pubsub.publish]
    split
    · exact Pubsub.pushCache_opt ..
    · rfl
  | getMessages now params => exact hread s.ps now params s.sh
  | subscribe now params => exact (hread _ now params _).trans (hdescribe _ _)
  | subscribeAs now id params => exact (hread _ now params s.sh).trans (hdescribe id params.channel)
  | describe id => rfl
  | describeChannel id channel => exact hdescribe id channel
  | reset => rfl
  | size count => rfl
  | emptyCount => rfl
  | getRemoved reset => rfl
  | subscriberCount => rfl

theorem opt_run (json : Wjson V) (opt : PubsubOptions) (sh : Shared V) (ops : List (PubsubOp H)) :
    ((machine json).run (new opt sh) ops).ps.opt = opt :=
  Machine.invariant_run (I := fun s : PubsubState V H => s.ps.opt = opt)
    (fun s op h => (opt_step json s op).trans h) rfl ops

/-- **Reading one's own writes.** Let a message be published with a lifetime, a limit and the
largest cursor of its channel, after any run and whatever the databases hold. A reading at the same
time returns it if and only if its limit leaves room for it in the database that takes it; or another
database has given the same before; or the cache is read, and there the limit leaves room for the
message, or it is persistent and the cache has given the same before. -/
theorem returned_iff (json : Wjson V) (opt : PubsubOptions) (sh₀ : Shared V)
    (ops : List (PubsubOp H)) (sh : Shared V) (now : TimeT) (m : Message)
    (params : SubscribeParams H) (hcache : opt.cacheDisabled = false)
    (hact : m.action = .publish) (hbirth : m.birthtime = 0) (hlife : 0 < m.lifetime)
    (hlo : -2 ^ 63 ≤ now) (hhi : now + m.lifetime < 2 ^ 63) (hlimit : 0 < m.limit)
    (hnewest : ∀ x ∈ Pubsub.onChannel json now params.channel
      ((machine json).run (new opt sh₀) ops).ps sh, x.cursor ≤ m.cursor)
    (hcursor : params.cursor ≤ m.cursor) (hcount : 1 ≤ params.limit) :
    let ps := ((machine json).run (new opt sh₀) ops).ps
    let published := ps.publish json now params.channel m sh
    let others := (Pubsub.others json opt now params.channel m sh).flatMap
      (select params.cursor params.limit)
    Returns m (published.1.getMessages json now [] params published.2.1).2 ↔
      (∃ q ∈ Pubsub.mergedInto json opt now params.channel m sh, behind m q < m.limit) ∨
        Returns m others ∨
        (opt.persistentDefault = false ∨ others = []) ∧
          if m.persistent then
            Returns m (select params.cursor params.limit (ps.cached now params.channel))
          else behind m (ps.channelMap.foundAt now params.channel) < m.limit := by
  intro ps published others
  have hwf : ps.channelMap.WellFormed := wellFormed_run json opt sh₀ ops
  have hopt : ps.opt = opt := opt_run json opt sh₀ ops
  obtain ⟨hps, hsh⟩ : published.1 = _ ∧ published.2.1 = _ :=
    Pubsub.publish_eq json params.channel hbirth hlife.ne' hlimit.ne' ps sh
  have hfresh : Fresh now (m.reborn now) := Fresh.reborn hact hlife hlimit hlo hhi
  have hreturns := Pubsub.returns_stores_iff hwf hfresh params hcursor (by omega) (hopt ▸ hcache)
    hnewest
  rw [Pubsub.getMessages_eq json now params
    (Pubsub.wellFormed_publish hwf json now params.channel m sh), hps, hsh]
  rw [hopt] at hreturns ⊢
  exact hreturns

section Examples

open Message (sample)

/-- A message to be kept in a database that holds a dead one of a larger cursor. -/
theorem returned_iff_persistent :
    let m : Message := { sample "a" 2 with birthtime := 0, persistent := true }
    let params : SubscribeParams Unit := { channel := "channel", limit := 1, handler := () }
    let db : Rocksdb (Option (List Message)) :=
      { db := fun _ => { operands := [Wjson.plain.write [{ sample "c" 5 with lifetime := -1 }]] } }
    let sh : Shared _ := { rocksdb := some { rocksdbMap := OrderedMap.empty.set 100 db } }
    let ps := ((machine .plain).run (new {} sh : PubsubState _ Unit)
      [.publish 99 "channel" (sample "b" 1)]).ps
    let published := ps.publish .plain 100 "channel" m sh
    let others := (Pubsub.others .plain {} 100 "channel" m sh).flatMap (select params.cursor 1)
    Returns m (published.1.getMessages .plain 100 [] params published.2.1).2 ↔
      (∃ q ∈ Pubsub.mergedInto .plain {} 100 "channel" m sh, behind m q < m.limit) ∨
        Returns m others ∨
        (({} : PubsubOptions).persistentDefault = false ∨ others = []) ∧
          if m.persistent then
            Returns m (select params.cursor 1 (ps.cached 100 "channel"))
          else behind m (ps.channelMap.foundAt 100 "channel") < m.limit := by
  intro m params db sh ps published others
  exact returned_iff .plain {} sh [.publish 99 "channel" (sample "b" 1)] sh 100 m params rfl rfl rfl
    (by decide) (by decide) (by decide) (by decide) (by decide) (by decide) (by decide)

/-- A persistent message is not stored where there is no database; and where there is one, a dead
message that has been recorded in it takes the only place. -/
theorem not_returned :
    let m : Message := { sample "a" 5 with birthtime := 0, persistent := true }
    let params : SubscribeParams Unit := { channel := "channel", limit := 1, handler := () }
    let dead : Message := { sample "b" 100 with birthtime := 1, lifetime := 1 }
    let db : Rocksdb (Option (List Message)) :=
      { db := fun _ => { operands := [Wjson.plain.write [dead]] } }
    let sh : Shared _ := { rocksdb := some { rocksdbMap := OrderedMap.empty.set 100 db } }
    let ps := (new {} {} : PubsubState (Option (List Message)) Unit).ps
    let published := ps.publish .plain 100 "channel" m {}
    let published' := ps.publish .plain 100 "channel" { m with limit := 1 } sh
    ¬ Returns m (published.1.getMessages .plain 100 [] params published.2.1).2 ∧
      ¬ Returns m (published'.1.getMessages .plain 100 [] params published'.2.1).2 := by
  decide

end Examples

end PubsubState

end WfcPubsub
