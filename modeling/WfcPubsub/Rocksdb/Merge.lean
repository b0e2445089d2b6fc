import WfcPubsub.Rocksdb.Basic
import WfcPubsub.MessageQueue.Replay

/-!
# Grouping merge operands

RocksDB may call the merge operator on all operands of a key at once, or on some of them first
and on the rest with the result of that. The result of a merge is a list of messages that the
next merge pushes again, so the grouping is invisible exactly where the first queue is settled and
nothing in it is dead (`fullMergeV2_fullMergeV2`).

## Main definitions

* `Wjson.decode` : the messages that `add_to_queue` pushes for a value.
* `mergeQueue` : what a merge has in its queue when it drops the dead messages.

## Main results

* `fullMergeV2_eq` : what a merge computes.
* `fullMergeV2_fullMergeV2` : merging in two stages.
* `fullMergeV2_grouping_visible` : what goes wrong without its condition.
-/

namespace WfcPubsub

open Contents
open StableOrder (rtake_of_length_le rtake_sublist)

variable {V : Type}

/-- The messages of a value, none where it is not valid JSON. -/
def Wjson.decode (json : Wjson V) (value : V) : List Message := (json.read value).getD []

@[simp] theorem Wjson.decode_write (json : Wjson V) (ml : List Message) :
    json.decode (json.write ml) = ml.map Message.wire := by
  rw [decode, json.read_write, Option.getD_some]

namespace MessageQueue

theorem WellFormed.pushAll {mq : MessageQueue} (h : mq.WellFormed) (now : TimeT)
    (ms : List Message) : (mq.pushAll now ms).WellFormed := by
  induction ms generalizing mq with
  | nil => exact h
  | cons m ms ih => exact ih (h.push now (.make m))

theorem pushAll_append (now : TimeT) (ms ms' : List Message) (mq : MessageQueue) :
    mq.pushAll now (ms ++ ms') = (mq.pushAll now ms).pushAll now ms' :=
  List.foldl_append

/-- At one value of the clock nothing expires between the pushes. -/
theorem messages_pushAll {mq : MessageQueue} (h : mq.WellFormed) {now : TimeT}
    (hnow : mq.lastRemoveDeath = now ∨ mq.messages = []) (ms : List Message) :
    (mq.pushAll now ms).messages = storeAll now ms mq.messages := by
  induction ms generalizing mq with
  | nil => rfl
  | cons m ms ih =>
    have hpush : (mq.push now (.make m)).1.messages = store now m mq.messages := by
      rw [messages_push h]
      rcases hnow with hnow | hnil
      · rw [if_neg (not_not.mpr hnow)]
        rfl
      · rw [hnil, live, List.filter_nil, ite_self]
        rfl
    rw [storeAll_cons, ← hpush]
    exact ih (h.push now (.make m)) (Or.inl (push_lastRemoveDeath mq now (.make m)))

end MessageQueue

open MessageQueue

theorem addToQueue_eq (json : Wjson V) (now : TimeT) (mq : MessageQueue) (value : V) :
    addToQueue json now mq value = mq.pushAll now (json.decode value) := by
  rw [addToQueue, Wjson.decode]
  cases json.read value <;> rfl

/-- A replay of messages at one value of the clock. -/
theorem messages_replay (now : TimeT) (ms : List Message) :
    (Rocksdb.replay now ms).messages = live now (storeAll now ms []) := by
  rw [Rocksdb.replay, messages_removeDeath (wellFormed_new.pushAll now ms),
    messages_pushAll wellFormed_new (Or.inr rfl)]
  rfl

/-- A merge replays the messages of the value and of all operands, and keeps the live ones. -/
theorem fullMergeV2_eq (json : Wjson V) (now : TimeT) (existing : Option V) {operands : List V}
    (hne : operands ≠ []) :
    fullMergeV2 json now existing operands =
      some (json.write (live now
        (storeAll now ((existing.toList ++ operands).flatMap json.decode) []))) := by
  have hfold : ∀ (values : List V) (mq : MessageQueue),
      values.foldl (addToQueue json now) mq = mq.pushAll now (values.flatMap json.decode) := by
    intro values
    induction values with
    | nil =>
      intro mq
      rfl
    | cons value values ih =>
      intro mq
      rw [List.foldl_cons, ih, addToQueue_eq, List.flatMap_cons, pushAll_append]
  have hmerge : ∀ ms : List Message,
      some (json.write (((operands.foldl (addToQueue json now)
        (MessageQueue.new.pushAll now ms)).removeDeath now).copyToAll [])) =
      some (json.write (live now (storeAll now (ms ++ operands.flatMap json.decode) []))) := by
    intro ms
    rw [hfold, ← pushAll_append, copyToAll_messages, List.nil_append]
    exact congrArg (fun q => some (json.write q)) (messages_replay now _)
  rw [fullMergeV2.eq_def, if_neg (by simpa using hne), List.flatMap_append]
  cases existing with
  | none => exact hmerge []
  | some value =>
    dsimp only
    rw [addToQueue_eq, hmerge, Option.toList_some, List.flatMap_singleton]

/-! ### Messages out of JSON -/

theorem Contents.Replayable.wire {ms : List Message} (h : Replayable ms) :
    Replayable (ms.map Message.wire) where
  birthtime m hm := by
    obtain ⟨x, hx, rfl⟩ := List.mem_map.mp hm
    exact h.birthtime x hx
  lifetime m hm := by
    obtain ⟨x, hx, rfl⟩ := List.mem_map.mp hm
    exact h.lifetime x hx
  crossing := h.crossing.map _ fun _ _ hab => hab
  fits p b t hms := by
    obtain ⟨p, bt, rfl, rfl, hbt⟩ := List.map_eq_append_iff.mp hms
    obtain ⟨b, t, rfl, rfl, rfl⟩ := List.map_eq_cons_iff.mp hbt
    intro _ haw hlt _ hcw hlimits
    obtain ⟨a, ha, rfl⟩ := List.mem_map.mp haw
    obtain ⟨c, hc, rfl⟩ := List.mem_map.mp hcw
    rw [List.length_map]
    rcases hlimits with heq | hrewrites
    · rw [heq]
      exact h.fits p b t rfl a ha hlt a ha (Or.inl rfl)
    · exact h.fits p b t rfl a ha hlt c hc (Or.inr hrewrites)

@[simp] theorem Message.wire_wire (m : Message) : m.wire.wire = m.wire := rfl

theorem map_wire_eq_self {ms : List Message} (h : ∀ m ∈ ms, m.wire = m) :
    ms.map Message.wire = ms :=
  (List.map_congr_left h).trans (List.map_id ms)

/-- What is stored of messages out of JSON comes out of JSON unchanged. -/
theorem wire_of_mem_storeAll {now : TimeT} {ms : List Message} (h : ∀ m ∈ ms, m.wire = m) :
    ∀ x ∈ storeAll now ms [], x.wire = x := by
  have hpersistent : ∀ x : Message, x.persistent = false → x.wire = x := by
    rintro x hx
    rw [Message.wire, ← hx]
  have hstored : ∀ x ∈ storeAll now ms [], x.persistent = false := by
    refine forall_mem_storeAll (List.forall_mem_nil _) (fun m hm => ?_) (fun m _ _ x hx _ => ?_)
      fun m _ _ x hx _ => ?_
    · obtain ⟨t, ht⟩ := bornAt_eq now m
      rw [ht]
      exact (congrArg Message.persistent (h m hm)).symm
    · rwa [Message.modify_eq]
    · rwa [Message.update_eq]
  exact fun x hx => hpersistent x (hstored x hx)

theorem ordered_storeAll (now : TimeT) (ms : List Message) : Ordered (storeAll now ms []) := by
  rw [← show (MessageQueue.new.pushAll now ms).messages = storeAll now ms [] from
    messages_pushAll wellFormed_new (Or.inr rfl) ms]
  exact (wellFormed_new.pushAll now ms).ordered_messages

/-- The messages in the queue of a merge of `xs` into `e` before the dead ones are dropped. -/
def mergeQueue (now : TimeT) (e : Option (List Message)) (xs : List (List Message)) :
    List Message :=
  (MessageQueue.new.pushAll now ((e.getD [] ++ xs.flatten).map Message.wire)).messages

theorem mergeQueue_eq (now : TimeT) (e : Option (List Message)) (xs : List (List Message)) :
    mergeQueue now e xs = storeAll now ((e.getD [] ++ xs.flatten).map Message.wire) [] :=
  messages_pushAll wellFormed_new (Or.inr rfl) _

theorem wire_of_mem_mergeQueue {now : TimeT} {e : Option (List Message)}
    {xs : List (List Message)} : ∀ x ∈ mergeQueue now e xs, x.wire = x := by
  rw [mergeQueue_eq]
  refine wire_of_mem_storeAll fun m hm => ?_
  obtain ⟨x, -, rfl⟩ := List.mem_map.mp hm
  exact x.wire_wire

/-- A merge of texts that are message lists. -/
theorem fullMergeV2_map_write (json : Wjson V) (now : TimeT) (e : Option (List Message))
    {xs : List (List Message)} (hxs : xs ≠ []) :
    fullMergeV2 json now (e.map json.write) (xs.map json.write) =
      some (json.write (live now (mergeQueue now e xs))) := by
  have hdecode : (xs.map json.write).flatMap json.decode = xs.flatten.map Message.wire := by
    rw [List.flatMap_map, List.map_flatten]
    simp only [Wjson.decode_write, List.flatMap_def]
  rw [fullMergeV2_eq json now _ (by simpa using hxs), mergeQueue_eq, List.flatMap_append, hdecode,
    List.map_append]
  cases e <;> simp

theorem mergeQueue_append (now : TimeT) (e : Option (List Message))
    (xs ys : List (List Message)) :
    mergeQueue now e (xs ++ ys) =
      storeAll now (ys.flatten.map Message.wire) (mergeQueue now e xs) := by
  rw [mergeQueue_eq, mergeQueue_eq, List.flatten_append, ← List.append_assoc, List.map_append,
    storeAll_append]

/-! ### Merging in two stages -/

/-- The second stage replays what the first one has left. -/
theorem mergeQueue_live (now : TimeT) (e : Option (List Message)) (xs ys : List (List Message)) :
    mergeQueue now (some (live now (mergeQueue now e xs))) ys =
      storeAll now (ys.flatten.map Message.wire)
        (storeAll now (live now (mergeQueue now e xs)) []) := by
  have hwire : (live now (mergeQueue now e xs)).map Message.wire =
      live now (mergeQueue now e xs) :=
    map_wire_eq_self fun x hx => wire_of_mem_mergeQueue x ((live_sublist _ _).subset hx)
  rw [mergeQueue_eq, Option.getD_some, List.map_append, storeAll_append, hwire]

/-- A merge of `xs` followed by one of `ys` gives what one merge of both gives. -/
private def Grouped (json : Wjson V) (now : TimeT) (e : Option (List Message))
    (xs ys : List (List Message)) : Prop :=
  fullMergeV2 json now (fullMergeV2 json now (e.map json.write) (xs.map json.write))
      (ys.map json.write) =
    fullMergeV2 json now (e.map json.write) ((xs ++ ys).map json.write)

section Grouping

variable {json : Wjson V} {now : TimeT} {e : Option (List Message)} {xs ys : List (List Message)}

/-- Both stages at once, where nothing is dead and the replay of a settled queue reproduces it. -/
private theorem grouped (hxs : xs ≠ []) (hys : ys ≠ [])
    (hlive : ∀ m ∈ mergeQueue now e xs, now ≤ m.deathtime)
    (hsettled : Settled (mergeQueue now e xs)) : Grouped json now e xs ys := by
  have hstages := fullMergeV2_map_write json now (some (live now (mergeQueue now e xs))) hys
  rw [Option.map_some] at hstages
  rw [Grouped, fullMergeV2_map_write json now e hxs, hstages, mergeQueue_live,
    live_eq_self hlive, storeAll_settled now hsettled, ← mergeQueue_append,
    ← fullMergeV2_map_write json now e (by simp [hxs])]

/-- Two groupings that give the same text give as many messages. -/
private theorem length_of_grouped (hxs : xs ≠ []) (hys : ys ≠ [])
    (h : Grouped json now e xs ys) :
    (live now (storeAll now (ys.flatten.map Message.wire)
        (storeAll now (live now (mergeQueue now e xs)) []))).length =
      (live now (storeAll now (ys.flatten.map Message.wire) (mergeQueue now e xs))).length := by
  have hstages := fullMergeV2_map_write json now (some (live now (mergeQueue now e xs))) hys
  rw [Option.map_some] at hstages
  rw [Grouped, fullMergeV2_map_write json now e hxs, hstages, mergeQueue_live,
    fullMergeV2_map_write json now e (by simp [hxs]), mergeQueue_append] at h
  have hread := congrArg json.read (Option.some.inj h)
  rw [json.read_write, json.read_write] at hread
  simpa using congrArg List.length (Option.some.inj hread)

/-- A time that is not the zero that stands for none, and not before `now`. -/
private theorem exists_birthtime {now : TimeT} (hnow : Representable now) :
    ∃ t : TimeT, t ≠ 0 ∧ Representable t ∧ now ≤ t := by
  by_cases hzero : now = 0
  · exact ⟨1, one_ne_zero, by decide, hzero ▸ zero_le_one⟩
  · exact ⟨now, hzero, hnow, le_rfl⟩

/-- An update brings a dead message back to life. -/
private theorem length_live_rewrite {now : TimeT} {q : List Message} {x m : Message} (hx : x ∈ q)
    (hid : x.identity = m.identity) (hdead : x.deathtime < now) (hlive : now ≤ m.deathtime) :
    (live now q).length < (live now (rewrite Message.update m q)).length := by
  have hle : ∀ q, (live now q).length ≤ (live now (rewrite Message.update m q)).length := by
    intro q
    rw [rewrite, live, live, List.filter_map, List.length_map, ← List.countP_eq_length_filter,
      ← List.countP_eq_length_filter]
    refine List.countP_mono_left fun y _ hy => ?_
    rw [Function.comp_apply]
    split
    · rw [Message.update_deathtime]
      exact decide_eq_true hlive
    · exact hy
  obtain ⟨p, s, rfl⟩ := List.append_of_mem hx
  have hhead : rewrite Message.update m (p ++ x :: s) =
      rewrite Message.update m p ++ x.update m :: rewrite Message.update m s := by
    rw [rewrite, List.map_append, List.map_cons, if_pos hid]
    rfl
  have hupdated : now ≤ (x.update m).deathtime := by rwa [Message.update_deathtime]
  have hp := hle p
  have hs := hle s
  rw [hhead]
  simp only [live, List.filter_append, List.length_append] at hp hs ⊢
  rw [List.filter_cons_of_neg (by simpa using hdead),
    List.filter_cons_of_pos (by simpa using hupdated), List.length_cons]
  omega

/-- An update without a lifetime only rewrites. -/
private theorem store_update {m : Message} (hact : m.action = .update) (hlife : m.lifetime = 0)
    (now : TimeT) (q : List Message) :
    store now m q = (rewrite Message.update m q).rtake m.limit := by
  rw [store_of_ne_publish (by rw [hact]; decide), place, hact]
  dsimp only
  rw [rewriteOrInsert, if_neg fun hcond => hcond.1 hlife]

/-- If an operand that updates a dead message of the first queue has the same effect in both
groupings, there is no such message: the first stage has dropped it. -/
private theorem forall_live_of_grouped (hnow : Representable now) (hxs : xs ≠ [])
    (h : ∀ ys ≠ [], (∀ m ∈ ys.flatten, m.birthtime ≠ 0) → Grouped json now e xs ys) :
    ∀ m ∈ mergeQueue now e xs, now ≤ m.deathtime := by
  intro x hx
  by_contra hdead
  obtain ⟨t, ht, hrep, hle⟩ := exists_birthtime hnow
  set q := mergeQueue now e xs with hq
  let m : Message :=
    { action := .update, limit := q.length, birthtime := t, identity := x.identity }
  have hdeath : now ≤ m.deathtime := by
    rw [Message.deathtime, add_zero, hrep.bmod_eq]
    exact hle
  have hlen := length_of_grouped hxs (by simp) (h [[m]] (by simp) (by simpa [m] using ht))
  have hmore := length_live_rewrite (m := m) hx rfl (not_le.mp hdead) hdeath
  have hreplayed := length_storeAll_le now (live now q) []
  have hfewer : (live now (store now m (storeAll now (live now q) []))).length ≤
      (storeAll now (live now q) []).length := by
    refine (live_sublist _ _).length_le.trans ?_
    rw [store_update rfl rfl]
    exact (rtake_sublist _ _).length_le.trans (List.length_map _).le
  have hcut : store now m q = rewrite Message.update m q := by
    rw [store_update rfl rfl]
    exact rtake_of_length_le (List.length_map _).le
  rw [show ([[m]] : List (List Message)).flatten.map Message.wire = [m] from rfl, ← hq,
    storeAll_cons, storeAll_nil, storeAll_cons, storeAll_nil, hcut] at hlen
  rw [List.length_nil] at hreplayed
  omega

/-- An operand without messages has the first queue replayed, so if that shows in neither grouping
the queue is settled. -/
private theorem settled_of_grouped (hxs : xs ≠ [])
    (hborn : ∀ m ∈ mergeQueue now e xs, m.birthtime ≠ 0)
    (hlive : ∀ m ∈ mergeQueue now e xs, now ≤ m.deathtime)
    (h : Grouped json now e xs [[]]) : Settled (mergeQueue now e xs) := by
  have hlen := length_of_grouped hxs (by simp) h
  rw [show ([[]] : List (List Message)).flatten.map Message.wire = [] from rfl, storeAll_nil,
    storeAll_nil, live_eq_self hlive] at hlen
  have hord : Ordered (mergeQueue now e xs) := by
    rw [mergeQueue_eq]
    exact ordered_storeAll now _
  exact settled_of_length_le hord hborn (hlen ▸ (live_sublist now _).length_le)

end Grouping

/-- **Grouping.** A merge of `xs` followed by one of any operands `ys` gives what one merge of all
of them gives iff the queue of the first one has no dead message and is settled. It is so where
the messages of the stored value `e` and of `xs` are replayable in the order of their arrival, and
none of them dead. -/
theorem fullMergeV2_fullMergeV2 (json : Wjson V) {now : TimeT} (hnow : Representable now)
    (e : Option (List Message)) {xs : List (List Message)} (hxs : xs ≠ [])
    (hbirth : ∀ m ∈ e.getD [] ++ xs.flatten, m.birthtime ≠ 0) :
    ((∀ ys ≠ [], (∀ m ∈ ys.flatten, m.birthtime ≠ 0) →
        fullMergeV2 json now (fullMergeV2 json now (e.map json.write) (xs.map json.write))
            (ys.map json.write) =
          fullMergeV2 json now (e.map json.write) ((xs ++ ys).map json.write)) ↔
      (∀ m ∈ mergeQueue now e xs, now ≤ m.deathtime) ∧ Settled (mergeQueue now e xs)) ∧
    (Replayable (e.getD [] ++ xs.flatten) → (∀ m ∈ e.getD [] ++ xs.flatten, now ≤ m.deathtime) →
      ∀ ys ≠ [],
        fullMergeV2 json now (fullMergeV2 json now (e.map json.write) (xs.map json.write))
            (ys.map json.write) =
          fullMergeV2 json now (e.map json.write) ((xs ++ ys).map json.write)) := by
  have hwired : ∀ m ∈ (e.getD [] ++ xs.flatten).map Message.wire, m.birthtime ≠ 0 :=
    List.forall_mem_map.mpr hbirth
  have hqueue := mergeQueue_eq now e xs
  refine ⟨⟨fun h => ?_, fun h ys hys _ => grouped hxs hys h.1 h.2⟩, fun hreplay hlive ys hys => ?_⟩
  · have hlive := forall_live_of_grouped hnow hxs h
    have hborn : ∀ m ∈ mergeQueue now e xs, m.birthtime ≠ 0 :=
      hqueue ▸ birthtime_ne_of_mem_storeAll hwired
    exact ⟨hlive, settled_of_grouped hxs hborn hlive (h [[]] (by simp) (by simp))⟩
  · have hlive' : ∀ m ∈ (e.getD [] ++ xs.flatten).map Message.wire, now ≤ m.deathtime :=
      List.forall_mem_map.mpr hlive
    exact grouped hxs hys
      (hqueue ▸ forall_live_storeAll (List.forall_mem_nil _) hwired hlive')
      (hqueue ▸ settled_storeAll now hreplay.wire)

section Examples

/-- A message for the examples, alive at the time `100` of its birth. -/
def Message.sample (identity : IdentityT) (cursor : CursorT) : Message :=
  { limit := 10, birthtime := 100, lifetime := 60, cursor := cursor, identity := identity }

open Message (sample)

/-- A message that replaces, an update of it with a smaller cursor, and others out of cursor order,
all with one limit. -/
theorem fullMergeV2_fullMergeV2_one_limit :
    let xs := [[{ sample "a" 5 with action := .replace }],
      [{ sample "a" 1 with action := .update }], [sample "b" 3], [sample "c" 1]]
    ∀ ys ≠ [], fullMergeV2 .plain 100 (fullMergeV2 .plain 100 none (xs.map Wjson.plain.write))
        (ys.map Wjson.plain.write) =
      fullMergeV2 .plain 100 none ((xs ++ ys).map Wjson.plain.write) :=
  (fullMergeV2_fullMergeV2 .plain (by decide) none (by decide) (by decide)).2
    ⟨by decide, by decide, by decide, fits_of_forall_le (by decide)⟩ (by decide)

/-- Grouping is visible where a message with the limit 1 arrives before one of a smaller cursor,
where a `replace` does, where a dead message is updated, where an update takes the lifetime
away, and where there is no operand at all. -/
theorem fullMergeV2_grouping_visible :
    let merge := fun e xs => fullMergeV2 .plain 100 e (xs.map Wjson.plain.write)
    let later := [[{ sample "a" 3 with action := .update }]]
    (∀ xs ∈ [[[{ sample "b" 2 with limit := 1 }], [sample "a" 1]],
        [[{ sample "a" 2 with action := .replace }], [sample "a" 1]],
        [[{ sample "a" 1 with birthtime := 1, lifetime := 1 }]],
        [[sample "a" 1, { sample "a" 1 with action := .update, lifetime := 0 }]]],
      merge (merge none xs) later ≠ merge none (xs ++ later)) ∧
    merge (merge none [[sample "a" 1]]) [] ≠ merge none ([[sample "a" 1]] ++ []) := by
  decide

end Examples

end WfcPubsub
