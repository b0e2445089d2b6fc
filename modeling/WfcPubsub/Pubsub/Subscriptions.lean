import WfcPubsub.Pubsub.Basic
import Mathlib.Data.Set.Card

/-!
# The two subscription indexes

`_handler_map` is keyed by channel and subscriber, `_subscriber_set` by subscriber and channel.
They hold the same pairs in every reachable state (`Pubsub.Mirrored`). Each method that edits
them is described by what it does to the lookups in both; the loops over `lower_bound` ranges
are intervals of the lexicographic order (`Pubsub.fire_eq`, `Pubsub.Mirrored.describe_eq`).

## Main results

* `PubsubState.mirrored_run` : the indexes mirror each other after every run.
* `PubsubState.indexes_mirror` : hence `abort()` is unreachable, and the two `describe` remove
  and report exactly the subscriptions they name.
-/

namespace WfcPubsub

variable {V H : Type}

/-! ### The lexicographic ranges -/

theorem empty_le (s : String) : "" ≤ s := by
  rw [← not_lt, String.lt_iff_toList_lt]
  exact List.not_lt_nil _

/-- The subscriptions of one subscriber begin at the empty channel name. -/
theorem subscriber_min {id : SubscriberId} (k : SubscriberChannel)
    (h : ((ofLex k).1 == id) = true) : toLex (id, "") ≤ k := by
  rw [Prod.Lex.le_iff]
  exact Or.inr ⟨(beq_iff_eq.mp h).symm, empty_le _⟩

/-- The handlers of one channel begin at the subscriber `0`. -/
theorem channel_min {channel : String} (k : ChannelSubscriber)
    (h : ((ofLex k).1 == channel) = true) : toLex (channel, 0) ≤ k := by
  rw [Prod.Lex.le_iff]
  exact Or.inr ⟨(beq_iff_eq.mp h).symm, Nat.zero_le _⟩

/-- Between two pairs with the same first component all first components are the same. -/
theorem fst_convex {α β : Type*} [LinearOrder α] [LinearOrder β] [DecidableEq α] {x : α} {y : β}
    (a b : α ×ₗ β) (hxa : toLex (x, y) ≤ a) (hab : a ≤ b) (hb : ((ofLex b).1 == x) = true) :
    ((ofLex a).1 == x) = true := by
  have h1 : x ≤ (ofLex a).1 := Prod.Lex.monotone_fst_ofLex hxa
  have h2 : (ofLex a).1 ≤ (ofLex b).1 := Prod.Lex.monotone_fst_ofLex hab
  rw [beq_iff_eq] at hb ⊢
  exact le_antisymm (hb ▸ h2) h1

namespace Pubsub

/-- `fire_` calls exactly the handlers registered for the channel. -/
theorem fire_eq (channel : String) (msg : Message) (ps : Pubsub H) :
    ps.fire_ channel msg =
      (ps.handlerMap.entries.filter fun e => (ofLex e.1).1 == channel).map fun e =>
        { subscriber := (ofLex e.1).2, handler := e.2, channel := channel, msg := msg } := by
  rw [fire_, OrderedMap.rangeFrom_eq_filter _ channel_min fst_convex]

/-- A pair is in both indexes or in neither. -/
def Mirrored (ps : Pubsub H) : Prop :=
  ∀ id channel, ps.subscriberSet.contains (toLex (id, channel)) =
    ps.handlerMap.contains (toLex (channel, id))

/-! ### What the methods do to the indexes -/

/-- `describe_` erases the pair from both indexes if the subscriber set has it. -/
theorem describe_pair_eq (id : SubscriberId) (channel : String) (ps : Pubsub H) :
    ps.describe_ id channel =
      if ps.subscriberSet.contains (toLex (id, channel)) then
        ({ ps with
          handlerMap := ps.handlerMap.erase (toLex (channel, id))
          subscriberSet := ps.subscriberSet.erase (toLex (id, channel)) }, true)
      else (ps, false) := by
  have hfind := ps.subscriberSet.head?_lowerBound (toLex (id, channel))
  rw [describe_, OrderedMap.contains, ← hfind]
  cases ps.subscriberSet.lowerBound (toLex (id, channel)) with
  | nil => rfl
  | cons itr rest =>
    have hiff : ((ofLex itr.1).1 ≠ id ∨ (ofLex itr.1).2 ≠ channel) ↔
        itr.1 ≠ toLex (id, channel) := by
      rw [← not_and_or, not_iff_not]
      exact ⟨fun h => congrArg toLex (Prod.ext h.1 h.2), fun h => by rw [h]; exact ⟨rfl, rfl⟩⟩
    by_cases h : itr.1 = toLex (id, channel)
    · have hmatch : ¬ ((ofLex itr.1).1 ≠ id ∨ (ofLex itr.1).2 ≠ channel) := by
        rwa [hiff, not_not]
      simp [h]
    · simp only [if_pos (hiff.mpr h), List.head?_cons, Option.bind_some, if_neg h,
        Option.isSome_none, Bool.false_eq_true, if_false]

/-- The indexes are all that `describe_` changes. -/
theorem describe_pair_rest (id : SubscriberId) (channel : String) (ps : Pubsub H) :
    (ps.describe_ id channel).1.channelMap = ps.channelMap ∧
      (ps.describe_ id channel).1.opt = ps.opt := by
  rw [describe_pair_eq]
  split <;> exact ⟨rfl, rfl⟩

section Mirrored

variable {ps : Pubsub H}

/-- Where the indexes mirror each other, `describe_` removes its pair from both and nothing
else. -/
theorem Mirrored.find?_describe_ (h : ps.Mirrored) (id : SubscriberId) (channel : String)
    (id' : SubscriberId) (channel' : String) :
    (ps.describe_ id channel).1.subscriberSet.find? (toLex (id', channel')) =
        (if id' = id ∧ channel' = channel then none
          else ps.subscriberSet.find? (toLex (id', channel'))) ∧
      (ps.describe_ id channel).1.handlerMap.find? (toLex (channel', id')) =
        (if id' = id ∧ channel' = channel then none
          else ps.handlerMap.find? (toLex (channel', id'))) := by
  rw [describe_pair_eq]
  split
  · simp [and_comm]
  · next hc =>
    have hset : ps.subscriberSet.find? (toLex (id, channel)) = none := by
      simpa [OrderedMap.contains] using hc
    have hmap : ps.handlerMap.find? (toLex (channel, id)) = none := by
      have := h id channel
      simpa [OrderedMap.contains, hset] using this.symm
    by_cases heq : id' = id ∧ channel' = channel
    · simp [heq.1, heq.2, hset, hmap]
    · simp [heq]

theorem Mirrored.describe_ (h : ps.Mirrored) (id : SubscriberId) (channel : String) :
    (ps.describe_ id channel).1.Mirrored := by
  intro id' channel'
  obtain ⟨hset, hmap⟩ := h.find?_describe_ id channel id' channel'
  rw [OrderedMap.contains, OrderedMap.contains, hset, hmap]
  split
  · rfl
  · exact h id' channel'

theorem Mirrored.subscribe_ (h : ps.Mirrored) (id : SubscriberId) (channel : String)
    (handler : H) : (ps.subscribe_ id channel handler).1.Mirrored := by
  intro id' channel'
  have := h id' channel'
  simp only [Pubsub.subscribe_, OrderedMap.contains, OrderedMap.find?_insert] at this ⊢
  by_cases heq : id' = id ∧ channel' = channel
  · simp [heq.1, heq.2]
  · have h1 : toLex (id', channel') ≠ toLex (id, channel) := fun he => heq (by simpa using he)
    have h2 : toLex (channel', id') ≠ toLex (channel, id) := fun he =>
      heq (by simpa [and_comm] using he)
    rw [if_neg h1, if_neg h2, this]

/-- Where the indexes mirror each other, `describe(id)` erases the subscriptions of `id` from
both and counts them. -/
theorem Mirrored.describe_eq (h : ps.Mirrored) (id : SubscriberId) :
    ps.describe id =
      ({ ps with
        handlerMap := ps.handlerMap.filterKeys fun k => !((ofLex k).2 == id)
        subscriberSet := ps.subscriberSet.filterKeys fun k => !((ofLex k).1 == id) },
        (ps.subscriberSet.entries.filter fun e => (ofLex e.1).1 == id).length) := by
  rw [Pubsub.describe, OrderedMap.rangeFrom_eq_filter _ subscriber_min fst_convex,
    OrderedMap.eraseRangeFrom_eq_filterKeys _ subscriber_min fst_convex]
  congr 2
  refine OrderedMap.ext_find? fun k => ?_
  rw [OrderedMap.find?_foldl_erase, OrderedMap.find?_filterKeys]
  by_cases hk : (ofLex k).2 = id
  · have hboth := h (ofLex k).2 (ofLex k).1
    -- Both sides are empty: a handler of `id` has its pair in the range walked over.
    cases hfind : ps.handlerMap.find? k with
    | none => simp
    | some v =>
      have hc : ps.subscriberSet.contains (toLex ((ofLex k).2, (ofLex k).1)) := by
        rw [hboth]
        exact OrderedMap.contains_iff.mpr ⟨v, hfind⟩
      obtain ⟨u, hu⟩ := OrderedMap.contains_iff.mp hc
      rw [if_pos, if_neg (by simp [hk])]
      refine List.mem_map.mpr ⟨_, List.mem_filter.mpr ⟨OrderedMap.find?_eq_some_iff.mp hu, ?_⟩, rfl⟩
      simpa using hk
  · rw [if_neg, if_pos (by simpa using hk)]
    rintro hmem
    obtain ⟨e, he, rfl⟩ := List.mem_map.mp hmem
    exact hk (by simpa using (List.mem_filter.mp he).2)

/-- `describe(id)` removes the pairs of `id` from both indexes and nothing else. -/
theorem Mirrored.find?_describe (h : ps.Mirrored) (id id' : SubscriberId) (channel : String) :
    (ps.describe id).1.subscriberSet.find? (toLex (id', channel)) =
        (if id' = id then none else ps.subscriberSet.find? (toLex (id', channel))) ∧
      (ps.describe id).1.handlerMap.find? (toLex (channel, id')) =
        (if id' = id then none else ps.handlerMap.find? (toLex (channel, id'))) := by
  rw [h.describe_eq]
  simp only [OrderedMap.find?_filterKeys, ofLex_toLex]
  by_cases hid : id' = id <;> simp [hid]

theorem Mirrored.describe (h : ps.Mirrored) (id : SubscriberId) :
    (ps.describe id).1.Mirrored := by
  intro id' channel
  obtain ⟨hset, hmap⟩ := h.find?_describe id id' channel
  rw [OrderedMap.contains, OrderedMap.contains, hset, hmap]
  split
  · rfl
  · exact h id' channel

/-- The sizes of mirrored indexes agree, so `subscriber_count` does not abort. -/
theorem Mirrored.subscriberCount_eq (h : ps.Mirrored) :
    ps.subscriberCount = some ps.handlerMap.size := by
  have hsize : ps.subscriberSet.size = ps.handlerMap.size :=
    OrderedMap.size_eq_of_equiv
      (ofLex.trans ((Equiv.prodComm SubscriberId String).trans toLex)) fun k =>
        h (ofLex k).1 (ofLex k).2
  rw [subscriberCount, if_neg (by rw [hsize]; exact fun hne => hne rfl)]

end Mirrored

/-! ### The methods that leave the indexes alone -/

@[simp] theorem getMessages_indexes (json : Wjson V) (now : TimeT) (ml : List Message)
    (params : SubscribeParams H) (ps : Pubsub H) (sh : Shared V) :
    (ps.getMessages json now ml params sh).1.handlerMap = ps.handlerMap ∧
      (ps.getMessages json now ml params sh).1.subscriberSet = ps.subscriberSet := by
  rcases getMessages_fst json now ml params ps sh with hread | hread
  · rw [hread]
    exact ⟨rfl, rfl⟩
  · rw [hread]
    exact ⟨rfl, rfl⟩

@[simp] theorem pushCache_indexes (now : TimeT) (channel : String) (msg : Message)
    (ps : Pubsub H) :
    (ps.pushCache now channel msg).handlerMap = ps.handlerMap ∧
      (ps.pushCache now channel msg).subscriberSet = ps.subscriberSet := by
  rw [pushCache]
  split <;> exact ⟨rfl, rfl⟩

@[simp] theorem publish_indexes (json : Wjson V) (now : TimeT) (channel : String)
    (msg : Message) (ps : Pubsub H) (sh : Shared V) :
    (ps.publish json now channel msg sh).1.handlerMap = ps.handlerMap ∧
      (ps.publish json now channel msg sh).1.subscriberSet = ps.subscriberSet := by
  rw [publish]
  split
  · exact pushCache_indexes ..
  · exact ⟨rfl, rfl⟩

theorem Mirrored.of_indexes {ps ps' : Pubsub H} (h : ps.Mirrored)
    (heq : ps'.handlerMap = ps.handlerMap ∧ ps'.subscriberSet = ps.subscriberSet) :
    ps'.Mirrored := by
  intro id channel
  rw [heq.1, heq.2]
  exact h id channel

theorem Mirrored.subscribeAs {ps : Pubsub H} (h : ps.Mirrored) (json : Wjson V) (now : TimeT)
    (ml : List Message) (id : SubscriberId) (params : SubscribeParams H) (sh : Shared V) :
    (ps.subscribeAs json now ml id params sh).1.Mirrored :=
  ((h.describe_ id params.channel).subscribe_ id params.channel params.handler).of_indexes
    (getMessages_indexes ..)

/-- `subscribe` puts its handler in the place of the one that was there. -/
theorem Mirrored.find?_subscribeAs {ps : Pubsub H} (h : ps.Mirrored) (json : Wjson V)
    (now : TimeT) (ml : List Message) (id : SubscriberId) (params : SubscribeParams H)
    (sh : Shared V) (id' : SubscriberId) (channel : String) :
    (ps.subscribeAs json now ml id params sh).1.handlerMap.find? (toLex (channel, id')) =
      if id' = id ∧ channel = params.channel then some params.handler
      else ps.handlerMap.find? (toLex (channel, id')) := by
  have hold := h.find?_describe_ id params.channel
  rw [Pubsub.subscribeAs, (getMessages_indexes ..).1, Pubsub.subscribe_, OrderedMap.find?_insert,
    (hold id' channel).2, (hold id params.channel).2]
  by_cases heq : id' = id ∧ channel = params.channel
  · simp [heq.1, heq.2]
  · have hne : toLex (channel, id') ≠ toLex (params.channel, id) := fun he =>
      heq (by simpa [and_comm] using he)
    rw [if_neg hne, if_neg heq, if_neg heq]

/-- Of the handlers of one subscriber `fire_` calls at most one, the one registered for the
channel. -/
theorem fire_filter (channel : String) (msg : Message) (ps : Pubsub H) (id : SubscriberId) :
    (ps.fire_ channel msg).filter (fun call => call.subscriber == id) =
      ((ps.handlerMap.find? (toLex (channel, id))).map fun handler =>
        { subscriber := id, handler := handler, channel := channel, msg := msg }).toList := by
  have hkey : ∀ k : ChannelSubscriber,
      ((ofLex k).2 == id && (ofLex k).1 == channel) ↔ k = toLex (channel, id) := by
    intro k
    rw [Bool.and_eq_true, beq_iff_eq, beq_iff_eq]
    exact ⟨fun hk => congrArg toLex (Prod.ext hk.2 hk.1), fun hk => by rw [hk]; exact ⟨rfl, rfl⟩⟩
  rw [fire_eq, List.filter_map, List.filter_filter]
  simp only [Function.comp_def]
  rw [ps.handlerMap.filter_key_eq hkey]
  cases ps.handlerMap.find? (toLex (channel, id)) <;> rfl

end Pubsub

/-! ### Every reachable state -/

namespace PubsubState

open Pubsub (Mirrored)

theorem mirrored_step (json : Wjson V) (s : PubsubState V H) (op : PubsubOp H)
    (h : s.ps.Mirrored) : ((machine json).step s op).1.ps.Mirrored := by
  cases op with
  | publish now channel msg => exact h.of_indexes (Pubsub.publish_indexes ..)
  | getMessages now params => exact h.of_indexes (Pubsub.getMessages_indexes ..)
  | subscribe now params => exact h.subscribeAs json now [] _ params _
  | subscribeAs now id params => exact h.subscribeAs json now [] id params s.sh
  | describe id => exact h.describe id
  | describeChannel id channel => exact h.describe_ id channel
  | reset => exact fun id channel => rfl
  | getRemoved reset => exact h.of_indexes ⟨rfl, rfl⟩
  | size count => exact h
  | emptyCount => exact h
  | subscriberCount => exact h

theorem mirrored_run (json : Wjson V) (opt : PubsubOptions) (sh : Shared V)
    (ops : List (PubsubOp H)) : ((machine json).run (new opt sh) ops).ps.Mirrored :=
  Machine.invariant_run (I := fun s : PubsubState V H => s.ps.Mirrored) (mirrored_step json)
    (fun _ _ => rfl) ops

end PubsubState

namespace Pubsub

/-- The channels a subscriber is subscribed to. -/
def channelsOf (ps : Pubsub H) (id : SubscriberId) : Set String :=
  {channel | ps.subscriberSet.contains (toLex (id, channel))}

private theorem ncard_channelsOf (ps : Pubsub H) (id : SubscriberId) :
    (ps.channelsOf id).ncard =
      (ps.subscriberSet.entries.filter fun e => (ofLex e.1).1 == id).length := by
  classical
  set range := ps.subscriberSet.entries.filter fun e => (ofLex e.1).1 == id with hrange
  have hset : ps.channelsOf id = ↑(range.map fun e => (ofLex e.1).2).toFinset := by
    ext channel
    simp only [channelsOf, Set.mem_ofPred_eq, List.coe_toFinset, List.mem_map,
      OrderedMap.contains_iff, OrderedMap.find?_eq_some_iff]
    constructor
    · rintro ⟨v, hv⟩
      exact ⟨_, List.mem_filter.mpr ⟨hv, by simp⟩, rfl⟩
    · rintro ⟨e, he, rfl⟩
      obtain ⟨hmem, hid⟩ := List.mem_filter.mp he
      refine ⟨e.2, ?_⟩
      rwa [← beq_iff_eq.mp hid]
  have hnodup : (range.map fun e => (ofLex e.1).2).Nodup := by
    refine List.Pairwise.map _ (fun a b hab => ?_) (List.Pairwise.and_mem.mp
      (ps.subscriberSet.sorted.sublist List.filter_sublist))
    obtain ⟨ha, hb, hlt⟩ := hab
    have h1 := beq_iff_eq.mp (List.mem_filter.mp ha).2
    have h2 := beq_iff_eq.mp (List.mem_filter.mp hb).2
    exact fun heq => hlt.ne (congrArg toLex (Prod.ext (h1.trans h2.symm) heq))
  rw [hset, Set.ncard_coe_finset, List.toFinset_card_of_nodup hnodup, List.length_map]

end Pubsub

namespace PubsubState

/-- **The indexes mirror each other.** In every reachable state a pair of a subscriber and a
channel is in both indexes or in neither, so `subscriber_count` does not abort. From there
`describe(id)` returns the number of channels of `id` and removes exactly its subscriptions,
and `describe(id, channel)` returns `true` iff the one subscription it removes was there. -/
theorem indexes_mirror (json : Wjson V) (opt : PubsubOptions) (sh : Shared V)
    (ops : List (PubsubOp H)) :
    let ps := ((machine json).run (new opt sh) ops).ps
    (∀ id channel, ps.subscriberSet.contains (toLex (id, channel)) ↔
      ps.handlerMap.contains (toLex (channel, id))) ∧
    ps.subscriberCount ≠ none ∧
    (∀ id, (ps.describe id).2 = (ps.channelsOf id).ncard ∧
      ∀ id' channel,
        (ps.describe id).1.subscriberSet.find? (toLex (id', channel)) =
          (if id' = id then none else ps.subscriberSet.find? (toLex (id', channel))) ∧
        (ps.describe id).1.handlerMap.find? (toLex (channel, id')) =
          (if id' = id then none else ps.handlerMap.find? (toLex (channel, id')))) ∧
    (∀ id channel,
      ((ps.describeChannel id channel).2 = true ↔
        ps.subscriberSet.contains (toLex (id, channel))) ∧
      ∀ id' channel',
        (ps.describeChannel id channel).1.subscriberSet.find? (toLex (id', channel')) =
          (if id' = id ∧ channel' = channel then none
            else ps.subscriberSet.find? (toLex (id', channel'))) ∧
        (ps.describeChannel id channel).1.handlerMap.find? (toLex (channel', id')) =
          (if id' = id ∧ channel' = channel then none
            else ps.handlerMap.find? (toLex (channel', id')))) := by
  intro ps
  have h : ps.Mirrored := mirrored_run json opt sh ops
  refine ⟨fun id channel => by rw [h], by rw [h.subscriberCount_eq]; simp, fun id => ⟨?_, ?_⟩,
    fun id channel => ⟨?_, h.find?_describe_ id channel⟩⟩
  · rw [h.describe_eq, Pubsub.ncard_channelsOf]
  · exact h.find?_describe id
  · rw [Pubsub.describeChannel, Pubsub.describe_pair_eq]
    split <;> simp [*]

end PubsubState

end WfcPubsub
