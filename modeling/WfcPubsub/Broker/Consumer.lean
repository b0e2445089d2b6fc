import WfcPubsub.Broker.Interleaving
import WfcPubsub.Broker.Readings
import WfcPubsub.Broker.Records
import WfcPubsub.MessageQueue.Specification

/-!
# A consumer that asks again and again

A consumer need not subscribe to a channel: it can ask for the messages from a cursor on, and
the next time for those behind the last message that it got. Where the publishers number their
messages and the consumer asks often enough, it finds the channel to be a mailbox
(`PubsubMt.consumer_exact`): it gets every message exactly once and in order, whatever other
threads do on the same channel.

Often enough means: before a message dies, and before more messages are published than fit into
the queue and into the answer (`KeepsUp`).

## Main definitions

* `ConsumerOp`, `PubsubMt.consumerMachine` : the consumer among other threads.
* `mailbox`, `KeepsUp`
* `Channel.Unread` : what the consumer has yet to see.

## Main results

* `Channel.Unread.publish`, `Channel.Unread.poll`
* `PubsubMt.consumer_exact`
-/

namespace WfcPubsub

open Contents StableOrder

variable {V H : Type} {n : ℕ}

/-! ### The channel -/

/-- The messages that the consumer has yet to see stand last in the cache, behind messages below
its cursor, and the logs are empty. -/
structure Channel.Unread (opt : PubsubOptions) (ch : Channel V H) (cursor : CursorT)
    (ms : List Message) : Prop where
  split : ∃ old, ch.messages = old ++ ms ∧ ∀ m ∈ old, m.cursor < cursor
  reach : ∀ m ∈ ms, cursor ≤ m.cursor
  increasing : ms.Pairwise fun a b => a.cursor < b.cursor
  cached : ms ≠ [] → opt.cacheDisabled = false
  logs : ∀ e ∈ ch.logs.entries, e.2 = {}

/-- The publish stores a message in the cache only, behind what is there. -/
def PubsubOp.Plain (opt : PubsubOptions) : PubsubOp H → Prop
  | .publish now _ msg => msg.action = .publish ∧ (Pubsub.complete opt now msg).lifetime ≠ 0 ∧
      Pubsub.Caches opt msg ∧ ¬ Pubsub.Records opt msg
  | .reset => False
  | _ => True

namespace Channel

variable {json : Wjson V} {opt : PubsubOptions} {ch : Channel V H} {cursor : CursorT}
  {ms : List Message} {now : TimeT}

/-- Empty logs hold nothing. -/
theorem Unread.select_logged (h : ch.Unread opt cursor ms) (json : Wjson V) (now : TimeT)
    (cursor' : CursorT) (limit : ℕ) :
    (ch.logged json opt now).flatMap (select cursor' limit) = [] := by
  rw [logged, List.flatMap_eq_nil_iff]
  split
  · exact List.forall_mem_nil _
  · intro q hq
    obtain ⟨e, he, rfl⟩ := List.mem_map.mp hq
    have hheld : Rocksdb.Entry.held json now {} = [] := rfl
    rw [h.logs e he, hheld, select_nil]

/-- Nothing that is unread dies before it is read. -/
theorem Unread.live_messages (h : ch.Unread opt cursor ms) (hlive : ∀ m ∈ ms, now ≤ m.deathtime) :
    ∃ old, live now ch.messages = old ++ ms ∧ ∀ m ∈ old, m.cursor < cursor := by
  obtain ⟨old, hsplit, hold⟩ := h.split
  refine ⟨live now old, ?_, fun m hm => hold m ((live_sublist _ _).subset hm)⟩
  rw [hsplit, live_append, live_eq_self hlive]

theorem Unread.found_eq (h : ch.Unread opt cursor ms) (hlive : ∀ m ∈ ms, now ≤ m.deathtime) :
    ∃ old, ch.found now = old ++ ms ∧ ∀ m ∈ old, m.cursor < cursor := by
  rw [found]
  split
  · exact h.live_messages hlive
  · exact h.split

theorem Unread.expire (h : ch.Unread opt cursor ms) (hlive : ∀ m ∈ ms, now ≤ m.deathtime) :
    (ch.expire now).Unread opt cursor ms :=
  ⟨h.live_messages hlive, h.reach, h.increasing, h.cached, h.logs⟩

theorem Unread.afterLoad (h : ch.Unread opt cursor ms) (json : Wjson V)
    (hlive : ∀ m ∈ ms, now ≤ m.deathtime) (cursor' : CursorT) (limit : ℕ) :
    (ch.afterLoad json opt now cursor' limit).Unread opt cursor ms := by
  rw [Channel.afterLoad]
  split
  · exact h.expire hlive
  · exact h

/-- A message with the next number is unread. -/
theorem Unread.publish (h : ch.Unread opt cursor ms) (json : Wjson V) (name : String)
    {msg : Message} (hplain : (PubsubOp.publish (H := H) now name msg).Plain opt)
    (hlive : ∀ m ∈ ms, now ≤ m.deathtime)
    (hreach : cursor ≤ (Pubsub.complete opt now msg).cursor)
    (hnext : ∀ m ∈ ms, m.cursor < (Pubsub.complete opt now msg).cursor)
    (hfits : (ms ++ [Pubsub.complete opt now msg]).length ≤
      (Pubsub.complete opt now msg).limit) :
    (ch.publish json opt now name msg).1.Unread opt cursor
      (ms ++ [Pubsub.complete opt now msg]) := by
  obtain ⟨hact, hlife, hcaches, hrecords⟩ := hplain
  obtain ⟨old, hfound, hold⟩ := h.found_eq hlive
  rw [publish_fst]
  dsimp only
  rw [if_pos hcaches, if_neg hrecords]
  set m := Pubsub.complete opt now msg with hm
  have haction : m.action = .publish := by
    rw [hm, ← hact, Pubsub.complete]
    split_ifs <;> rfl
  have hlimit : m.limit ≠ 0 := by
    rw [List.length_append, List.length_singleton] at hfits
    omega
  have hbelow : ∀ x ∈ ch.found now, x.cursor ≤ m.cursor := by
    intro x hx
    rw [hfound] at hx
    rcases List.mem_append.mp hx with hx | hx
    · exact ((hold x hx).trans_le hreach).le
    · exact (hnext x hx).le
  have hstore : store now m (ch.found now) =
      old.rtake (m.limit - (ms ++ [m]).length) ++ (ms ++ [m]) := by
    rw [store_of_publish haction hlife hlimit, insert_eq_concat hbelow,
      hm, bornAt_complete_eq, ← hm, hfound, List.append_assoc, rtake_append,
      rtake_of_length_le hfits]
  refine ⟨⟨_, hstore, fun x hx => hold x ((rtake_sublist _ _).subset hx)⟩, ?_, ?_,
    fun _ => hcaches.2.1, h.logs⟩
  · intro x hx
    rcases List.mem_append.mp hx with hx | hx
    · exact h.reach x hx
    · exact List.mem_singleton.mp hx ▸ hreach
  · refine List.pairwise_append.mpr ⟨h.increasing, List.pairwise_singleton _ _, ?_⟩
    intro x hx y hy
    exact List.mem_singleton.mp hy ▸ hnext x hx

/-- What the consumer has seen is below its next cursor. -/
theorem Unread.seen_lt (h : ch.Unread opt cursor ms) :
    ∀ m ∈ ms, m.cursor < (ms.getLast?.map fun m => m.cursor + 1).getD cursor := by
  rcases List.eq_nil_or_concat ms with rfl | ⟨seen, last, rfl⟩
  · exact List.forall_mem_nil _
  · intro m hm
    rw [List.concat_eq_append] at hm
    have hincreasing := h.increasing
    rw [List.concat_eq_append, List.pairwise_append] at hincreasing
    have hle : m.cursor ≤ last.cursor := by
      rcases List.mem_append.mp hm with hm | hm
      · exact (hincreasing.2.2 m hm last List.mem_cons_self).le
      · exact (List.mem_singleton.mp hm ▸ le_rfl)
    simp only [List.concat_eq_append, List.getLast?_append, List.getLast?_singleton,
      Option.some_or, Option.map_some, Option.getD_some]
    exact Int.lt_add_one_of_le hle

theorem Unread.cursor_le (h : ch.Unread opt cursor ms) :
    cursor ≤ (ms.getLast?.map fun m => m.cursor + 1).getD cursor := by
  cases hlast : ms.getLast? with
  | none => exact le_rfl
  | some m =>
    have hreach := h.reach m (List.mem_of_getLast? hlast)
    exact hreach.trans (Int.le_add_one le_rfl)

/-- The consumer asks: it gets what is unread, and nothing is unread then. -/
theorem Unread.poll (h : ch.Unread opt cursor ms) (json : Wjson V)
    (hlive : ∀ m ∈ ms, now ≤ m.deathtime) {limit : ℕ} (hlimit : ms.length ≤ limit) :
    ch.load json opt now cursor limit = ms ∧
      (ch.afterLoad json opt now cursor limit).Unread opt
        ((ms.getLast?.map fun m => m.cursor + 1).getD cursor) [] := by
  have hselect : select cursor limit (live now ch.messages) = ms := by
    obtain ⟨old, hsplit, hold⟩ := h.live_messages hlive
    rw [hsplit, select, List.filter_append,
      List.filter_eq_nil_iff.mpr fun m hm => by simpa using hold m hm,
      List.filter_eq_self.mpr fun m hm => by simpa using h.reach m hm, List.nil_append,
      rtake_of_length_le hlimit]
  have hreads : ms ≠ [] → ch.Reads json opt now cursor limit := by
    intro hne
    refine ⟨?_, h.cached hne⟩
    rw [answered, h.select_logged]
    simp
  constructor
  · rw [load, List.flatMap_append, h.select_logged, List.nil_append]
    by_cases hne : ms = []
    · split
      · rw [List.flatMap_singleton, hselect]
      · exact hne.symm
    · rw [if_pos (hreads hne), List.flatMap_singleton, hselect]
  · have hafter := h.afterLoad json hlive cursor limit
    obtain ⟨old, hsplit, hold⟩ := hafter.split
    refine ⟨⟨old ++ ms, by rw [hsplit, List.append_nil], fun m hm => ?_⟩, List.forall_mem_nil _,
      .nil, fun hne => absurd rfl hne, hafter.logs⟩
    rcases List.mem_append.mp hm with hm | hm
    · exact (hold m hm).trans_le h.cursor_le
    · exact h.seen_lt m hm

/-- A call of somebody else, before anything unread dies. -/
theorem Unread.moves (h : ch.Unread opt cursor ms) {name : String} {op : PubsubOp H}
    {ch' : Channel V H} (hmoves : ch.Moves json opt name op ch') (hplain : op.Plain opt)
    (hlive : ∀ t ∈ op.clock, ∀ m ∈ ms, t ≤ m.deathtime)
    (harrival : ∀ m ∈ op.arrival opt name, (cursor ≤ m.cursor ∧ ∀ x ∈ ms, x.cursor < m.cursor) ∧
      (ms ++ [m]).length ≤ m.limit) :
    ch'.Unread opt cursor (ms ++ (op.arrival opt name).toList) := by
  have hnone : op.changes name = false → ch'.Unread opt cursor ms →
      ch'.Unread opt cursor (ms ++ (op.arrival opt name).toList) := by
    intro hop h
    rw [PubsubOp.arrival_eq_none hop, Option.toList_none, List.append_nil]
    exact h
  cases hmoves with
  | publish now msg =>
    have hself : (PubsubOp.publish (H := H) now name msg).arrival opt name =
        some (Pubsub.complete opt now msg) := if_pos rfl
    obtain ⟨⟨hreach, hnext⟩, hfits⟩ := harrival _ hself
    rw [hself]
    exact h.publish json name hplain (hlive now rfl) hreach hnext hfits
  | same hop => exact hnone hop h
  | load hop hclock cursor' limit =>
    exact hnone hop (h.afterLoad json (hlive _ hclock) cursor' limit)
  | subscribe hop hclock id handler cursor' limit =>
    have hsub : (ch.subscribe id handler).Unread opt cursor ms := { h with }
    exact hnone hop (hsub.afterLoad json (hlive _ hclock) cursor' limit)
  | describe hop id => exact hnone hop { h with }
  | reset => exact hplain.elim

end Channel

/-! ### The consumer among other threads -/

/-- A step of another thread, or the consumer asks for at most `limit` messages. -/
inductive ConsumerOp (H : Type) (n : ℕ)
  | access (a : Access H n)
  | poll (now : TimeT) (limit : ℕ)

section Consumer

variable [NeZero n] (hash : String → ℕ) (opt : PubsubOptions) (name : String)

namespace ConsumerOp

/-- The call that a step of another thread is for the channel. -/
def onto : ConsumerOp H n → Option (PubsubOp H)
  | access a => a.onto hash name
  | poll _ _ => none

/-- The clock that is read for the channel. -/
def clock : ConsumerOp H n → Option TimeT
  | access a => (a.onto hash name).bind PubsubOp.clock
  | poll now _ => some now

/-- The message that is published on the channel. -/
def arrival (op : ConsumerOp H n) : Option Message :=
  (op.onto hash name).bind (PubsubOp.arrival opt name)

/-- The consumer notes down what it gets. -/
def received : ConsumerOp H n → List Message → Option (List Message)
  | access _, _ => none
  | poll _ _, ml => some ml

end ConsumerOp

/-- What the consumer should find: a box into which the messages fall and which it empties. -/
def mailbox : Machine (List Message) (ConsumerOp H n) (List Message) where
  step ms op :=
    match op with
    | .access _ => (ms ++ (op.arrival hash opt name).toList, [])
    | .poll _ _ => ([], ms)

/-- The consumer asks often enough: what is in the box fits into its answer and under the limit
of each message in it, and nothing in it is dead. -/
def KeepsUp (ms : List Message) (ops : List (ConsumerOp H n)) : Prop :=
  ∀ before now limit after, ops = before ++ .poll now limit :: after →
    let box := (mailbox hash opt name).run ms before
    box.length ≤ limit ∧ ∀ m ∈ box, box.length ≤ m.limit ∧ now ≤ m.deathtime

variable {hash opt name}

theorem keepsUp_nil (ms : List Message) :
    KeepsUp hash opt name ms ([] : List (ConsumerOp H n)) := by
  intro before now limit after hops
  cases before <;> cases hops

theorem keepsUp_cons_iff {ms : List Message} {op : ConsumerOp H n} {ops : List (ConsumerOp H n)} :
    KeepsUp hash opt name ms (op :: ops) ↔
      (∀ now limit, op = .poll now limit → ms.length ≤ limit ∧
        ∀ m ∈ ms, ms.length ≤ m.limit ∧ now ≤ m.deathtime) ∧
      KeepsUp hash opt name ((mailbox hash opt name).step ms op).1 ops := by
  constructor
  · intro h
    refine ⟨?_, fun before now limit after hops => ?_⟩
    · rintro now limit rfl
      exact h [] now limit ops rfl
    · exact h (op :: before) now limit after (congrArg (op :: ·) hops)
  · rintro ⟨hop, h⟩ before now limit after hops
    cases before with
    | nil => exact hop now limit (List.cons.inj hops).1
    | cons op' before =>
      obtain rfl := (List.cons.inj hops).1
      exact h before now limit after (List.cons.inj hops).2

/-- What is in the box waits for the next question. -/
theorem KeepsUp.exists_poll {ms : List Message} {ops : List (ConsumerOp H n)}
    (h : KeepsUp hash opt name ms ops) (hpoll : ∃ now limit, .poll now limit ∈ ops) :
    ∃ now ∈ ops.filterMap (ConsumerOp.clock hash name),
      ∀ m ∈ ms, ms.length ≤ m.limit ∧ now ≤ m.deathtime := by
  induction ops generalizing ms with
  | nil => obtain ⟨now, limit, hmem⟩ := hpoll; cases hmem
  | cons op ops ih =>
    cases op with
    | poll now limit => exact ⟨now, List.mem_cons_self, ((keepsUp_cons_iff.mp h).1 now limit rfl).2⟩
    | access a =>
      have hpoll : ∃ now limit, .poll now limit ∈ ops := by
        simpa only [List.mem_cons, reduceCtorEq, false_or] using hpoll
      obtain ⟨now, hnow, hms⟩ := ih (keepsUp_cons_iff.mp h).2 hpoll
      have hsub : ops.filterMap (ConsumerOp.clock hash name) ⊆
          (ConsumerOp.access a :: ops).filterMap (ConsumerOp.clock hash name) :=
        ((List.sublist_cons_self ..).filterMap _).subset
      refine ⟨now, hsub hnow, fun m hm => ?_⟩
      obtain ⟨hlimit, hdeath⟩ := hms m (List.mem_append_left _ hm)
      exact ⟨le_trans (List.length_append ▸ Nat.le_add_right ..) hlimit, hdeath⟩

end Consumer

namespace PubsubMt

section Machine

variable [NeZero n] (hash : String → ℕ) (json : Wjson V) (params : SubscribeParams H)

/-- `pubsub_mt` and a consumer with its cursor. -/
def consumerMachine : Machine (PubsubMt V H n × CursorT) (ConsumerOp H n) (List Message) where
  step
    | (mt, cursor), .access a => (((mt.access hash json a).1, cursor), [])
    | (mt, cursor), .poll now limit =>
      let (mt, ml) := mt.getMessages hash json now []
        { params with cursor := cursor, limit := limit }
      ((mt, (ml.getLast?.map fun m => m.cursor + 1).getD cursor), ml)

end Machine

section Run

variable [NeZero n] {hash : String → ℕ} {json : Wjson V} {opt : PubsubOptions} {name : String}
  {ops : List (ConsumerOp H n)} {mt : PubsubMt V H n} {cursor : CursorT} {ms : List Message}
  {b : Broker V H}

/-- What holds between the consumer, with `ms` in its box, and the channel, while `ops` are to
come. -/
structure Consuming (hash : String → ℕ) (opt : PubsubOptions) (name : String)
    (ops : List (ConsumerOp H n)) (mt : PubsubMt V H n) (cursor : CursorT) (ms : List Message)
    (b : Broker V H) : Prop where
  follows : Follows hash name mt b
  options : b.opt = opt
  plain : ∀ op ∈ ops, ∀ call ∈ op.onto hash name, call.Plain opt
  clock : (ops.filterMap (ConsumerOp.clock hash name)).Pairwise (· ≤ ·)
  increasing : (ops.filterMap (ConsumerOp.arrival hash opt name)).Pairwise fun x y =>
    x.cursor < y.cursor
  ahead : ∀ m ∈ ops.filterMap (ConsumerOp.arrival hash opt name),
    cursor ≤ m.cursor ∧ ∀ x ∈ ms, x.cursor < m.cursor
  keepsUp : KeepsUp hash opt name ms ops
  unread : (∃ now limit, .poll now limit ∈ ops) → (b.channels name).Unread opt cursor ms

/-- A step of another thread. -/
theorem Consuming.access {a : Access H n}
    (h : Consuming hash opt name (.access a :: ops) mt cursor ms b) :
    ∃ b, Consuming hash opt name ops (mt.access hash json a).1 cursor
      (ms ++ ((ConsumerOp.access a).arrival hash opt name).toList) b := by
  have hrest : ops.Sublist (.access a :: ops) := List.sublist_cons_self ..
  have hincreasing : ∀ m ∈ (ConsumerOp.access a).arrival hash opt name,
      ∀ y ∈ ops.filterMap (ConsumerOp.arrival hash opt name), m.cursor < y.cursor := by
    intro m hm
    have hincreasing := h.increasing
    rw [List.filterMap_cons_some hm, List.pairwise_cons] at hincreasing
    exact hincreasing.1
  have hahead : ∀ m ∈ ops.filterMap (ConsumerOp.arrival hash opt name), cursor ≤ m.cursor ∧
      ∀ x ∈ ms ++ ((ConsumerOp.access a).arrival hash opt name).toList, x.cursor < m.cursor := by
    intro m hm
    obtain ⟨hreach, hbox⟩ := h.ahead m ((hrest.filterMap _).subset hm)
    refine ⟨hreach, fun x hx => ?_⟩
    rcases List.mem_append.mp hx with hx | hx
    · exact hbox x hx
    · exact hincreasing x (Option.mem_toList.mp hx) m hm
  have hstep : ∀ b' : Broker V H, Follows hash name (mt.access hash json a).1 b' → b'.opt = opt →
      ((∃ now limit, .poll now limit ∈ ops) → (b'.channels name).Unread opt cursor
        (ms ++ ((ConsumerOp.access a).arrival hash opt name).toList)) →
      ∃ b, Consuming hash opt name ops (mt.access hash json a).1 cursor
        (ms ++ ((ConsumerOp.access a).arrival hash opt name).toList) b := by
    intro b' hfollows hopt hunread
    exact ⟨b', hfollows, hopt, fun op hop => h.plain op (List.mem_cons_of_mem _ hop),
      h.clock.sublist (hrest.filterMap _), h.increasing.sublist (hrest.filterMap _), hahead,
      (keepsUp_cons_iff.mp h.keepsUp).2, hunread⟩
  cases ha : a.onto hash name with
  | none =>
    have hnone : (ConsumerOp.access a).arrival hash opt name = none := by
      rw [ConsumerOp.arrival, ConsumerOp.onto, ha, Option.bind_none]
    refine hstep b (h.follows.hidden ha) h.options fun ⟨now, limit, hpoll⟩ => ?_
    rw [hnone, Option.toList_none, List.append_nil]
    exact h.unread ⟨now, limit, List.mem_cons_of_mem _ hpoll⟩
  | some call =>
    have harrival : (ConsumerOp.access a).arrival hash opt name = call.arrival opt name := by
      rw [ConsumerOp.arrival, ConsumerOp.onto, ha, Option.bind_some]
    have hclock : ∀ t ∈ call.clock, ∀ t' ∈ ops.filterMap (ConsumerOp.clock hash name),
        t ≤ t' := by
      intro t ht
      have ht : (ConsumerOp.access a).clock hash name = some t := by
        rw [ConsumerOp.clock, ha, Option.bind_some]
        exact ht
      have hclock := h.clock
      rw [List.filterMap_cons_some ht, List.pairwise_cons] at hclock
      exact hclock.1
    refine hstep (b.step json call).1 (h.follows.shown ha).1 ((b.step_opt json call).trans h.options)
      fun hpoll => ?_
    obtain ⟨now, limit, hmem⟩ := hpoll
    -- The next question comes before anything in the box is dead.
    obtain ⟨t, ht, hbox⟩ := (keepsUp_cons_iff.mp h.keepsUp).2.exists_poll ⟨now, limit, hmem⟩
    rw [show (mailbox hash opt name).step ms (.access a) =
      (ms ++ ((ConsumerOp.access a).arrival hash opt name).toList, []) from rfl, harrival] at hbox
    rw [harrival]
    refine (h.unread ⟨now, limit, List.mem_cons_of_mem _ hmem⟩).moves
      (h.options ▸ Broker.moves_step json b call name) ?_ (fun t' ht' m hm => ?_) fun m hm => ⟨?_, ?_⟩
    · exact h.plain _ List.mem_cons_self call ha
    · exact (hclock t' ht' t ht).trans (hbox m (List.mem_append_left _ hm)).2
    · exact h.ahead m (List.mem_filterMap.mpr ⟨_, List.mem_cons_self, harrival.trans hm⟩)
    · have hfits := (hbox m (List.mem_append_right _ (Option.mem_toList.mpr hm))).1
      rwa [Option.mem_def.mp hm] at hfits

/-- The consumer asks. -/
theorem Consuming.poll {params : SubscribeParams H} (hname : params.channel = name) {now : TimeT}
    {limit : ℕ} (h : Consuming hash opt name (.poll now limit :: ops) mt cursor ms b) :
    (mt.getMessages hash json now [] { params with cursor := cursor, limit := limit }).2 = ms ∧
      ∃ b, Consuming hash opt name ops
        (mt.getMessages hash json now [] { params with cursor := cursor, limit := limit }).1
        ((ms.getLast?.map fun m => m.cursor + 1).getD cursor) [] b := by
  set question : SubscribeParams H := { params with cursor := cursor, limit := limit } with hq
  have hrest : ops.Sublist (.poll now limit :: ops) := List.sublist_cons_self ..
  obtain ⟨hpoll, hkeepsUp⟩ := keepsUp_cons_iff.mp h.keepsUp
  obtain ⟨hlimit, hbox⟩ := hpoll now limit rfl
  have hunread := h.unread ⟨now, limit, List.mem_cons_self⟩
  obtain ⟨hload, hafter⟩ := hunread.poll json (fun m hm => (hbox m hm).2) hlimit
  have hstep : Follows hash name (mt.access hash json (.getMessages now question)).1
      (b.step json (.getMessages now question)).1 ∧ _ := h.follows.shown (if_pos hname)
  have hreply : (mt.getMessages hash json now [] question).2 =
      (b.channels question.channel).load json b.opt now cursor limit :=
    Reply.messages.inj (Option.some.inj hstep.2)
  have hchannel : question.channel = name := hname
  refine ⟨by rw [hreply, hchannel, h.options, hload], _, hstep.1, ?_,
    fun op hop => h.plain op (List.mem_cons_of_mem _ hop), h.clock.sublist (hrest.filterMap _),
    h.increasing.sublist (hrest.filterMap _), fun m hm => ⟨?_, List.forall_mem_nil _⟩,
    hkeepsUp, fun _ => ?_⟩
  · exact (b.step_opt json _).trans h.options
  · have hm := h.ahead m ((hrest.filterMap _).subset hm)
    cases hlast : ms.getLast? with
    | none => exact hm.1
    | some last => exact Int.add_one_le_of_lt (hm.2 last (List.mem_of_getLast? hlast))
  · show ((b.setChannel question.channel _).channels name).Unread opt _ []
    rw [hchannel, Broker.channels_setChannel_self, h.options]
    exact hafter

end Run

/-- **A consumer that keeps up has a mailbox.** Other threads do what they like on all channels,
but on this one they publish plain messages with increasing cursors and do not reset. Between two
questions no more messages are published than fit into the answer and under the limit of each of
them, and none of them dies. Then the consumer gets with each question exactly the messages
published since the last one, in order. -/
theorem consumer_exact (hash : String → ℕ) (json : Wjson V) (opt : PubsubOptions) (sh : Shared V)
    (params : SubscribeParams H) (ops : List (ConsumerOp H opt.shardCount))
    (hstore : ∀ ttl db, (sh.rocksdb.bind fun mr => mr.rocksdbMap.find? ttl) = some db →
      db.db params.channel = {})
    (hplain : ∀ op ∈ ops, ∀ call ∈ op.onto hash params.channel, call.Plain opt)
    (hclock : (ops.filterMap (ConsumerOp.clock hash params.channel)).Pairwise (· ≤ ·))
    (hincreasing : (ops.filterMap (ConsumerOp.arrival hash opt params.channel)).Pairwise fun x y =>
      x.cursor < y.cursor)
    (hstart : ∀ m ∈ ops.filterMap (ConsumerOp.arrival hash opt params.channel),
      params.cursor ≤ m.cursor)
    (hkeepsUp : KeepsUp hash opt params.channel [] ops) :
    (consumerMachine hash json params).observed ConsumerOp.received
        ((PubsubMt.new opt sh : PubsubMt V H opt.shardCount), params.cursor) ops =
      (mailbox hash opt params.channel).observed ConsumerOp.received [] ops := by
  refine Machine.observed_eq_of_simulation
    (R := fun rem s ms => ∃ b, Consuming hash opt params.channel rem s.1 s.2 ms b) ?_
    ⟨_, follows_new hash params.channel opt sh, rfl, hplain, hclock, hincreasing,
      fun m hm => ⟨hstart m hm, List.forall_mem_nil _⟩, hkeepsUp, fun _ => ?_⟩
  · rintro ⟨mt, cursor⟩ ms op rem ⟨b, h⟩
    cases op with
    | access a => exact ⟨h.access, rfl⟩
    | poll now limit =>
      obtain ⟨hreply, b, hnext⟩ := h.poll rfl
      rw [← hreply] at hnext
      exact ⟨⟨b, hnext⟩, congrArg some hreply⟩
  · refine ⟨⟨[], rfl, List.forall_mem_nil _⟩, List.forall_mem_nil _, .nil,
      fun hne => absurd rfl hne, fun e he => ?_⟩
    have hfind : (sh.logsOf params.channel).find? e.1 = some e.2 :=
      OrderedMap.find?_eq_some_iff.mpr he
    rw [Shared.find?_logsOf] at hfind
    obtain ⟨db, hdb, hentry⟩ := Option.map_eq_some_iff.mp hfind
    exact hentry ▸ hstore e.1 db hdb

section Examples

open Message (sample)

/-- Two messages, a question, one more message and two more questions. -/
theorem consumer_exact_three :
    let params : SubscribeParams Unit := { channel := "channel", handler := () }
    let ops : List (ConsumerOp Unit (PubsubOptions.shardCount {})) :=
      [.access (.lock (.publish 100 "channel" (sample "a" 1))),
        .access (.lock (.publish 110 "channel" (sample "b" 2))), .poll 120 10,
        .access (.lock (.publish 150 "channel" (sample "c" 3))), .poll 160 10, .poll 900 10]
    (consumerMachine (V := Option (List Message)) String.length .plain params).observed
        ConsumerOp.received (PubsubMt.new {} {}, params.cursor) ops =
      (mailbox String.length {} "channel").observed ConsumerOp.received [] ops := by
  intro params ops
  refine consumer_exact String.length .plain {} {} params ops (fun ttl db hdb => by cases hdb) ?_
    (by decide) (by decide) (by decide) ?_
  · simp [ops, params, ConsumerOp.onto, Access.onto, PubsubOp.Plain]
    decide
  · simp only [ops, params, keepsUp_cons_iff, keepsUp_nil, and_true, reduceCtorEq, false_imp_iff,
      implies_true, true_and, ConsumerOp.poll.injEq, and_imp]
    refine ⟨?_, ?_, ?_⟩ <;> rintro now limit rfl rfl <;> decide

end Examples

end PubsubMt

end WfcPubsub
