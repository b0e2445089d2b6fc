import Mathlib.Data.List.DropRight
import WfcPubsub.Lib.StableOrder
import WfcPubsub.MessageQueue.Order

/-!
# What a queue holds

A queue in cursor order, seen as the list of its messages. `Contents` says in plain list
operations what the methods of `message_queue` are for: insertion by cursor, rewriting and
removal by identity, expiry, and a limit that cuts from the front. In every reachable queue the
methods do just that (`MessageQueue.messages_push`, `MessageQueue.messages_removeDeath`,
`MessageQueue.copyTo_messages`).

## Main definitions

* `Contents.place`, `Contents.store` : what `push` makes of the messages.
* `Contents.live`, `Contents.select` : expiry and reading.
* `MessageQueue.WellFormed` : the invariants of a reachable queue.

## Main results

* `MessageQueue.messages_push`
* `Contents.origin_store` : where the messages behind a push come from.
-/

namespace WfcPubsub

open StableOrder (rtake_map rtake_of_length_le rtake_sublist)

namespace Contents

/-- The messages that have not died before `now`. -/
def live (now : TimeT) (q : List Message) : List Message := q.filter fun m => now ≤ m.deathtime

/-- The last `limit` of the messages that reach the cursor. -/
def select (cursor : CursorT) (limit : ℕ) (q : List Message) : List Message :=
  (q.filter fun m => cursor ≤ m.cursor).rtake limit

/-- A message without a birthtime is born when it is stored. -/
def bornAt (now : TimeT) (m : Message) : Message := if m.birthtime == 0 then m.reborn now else m

/-- The message goes behind all messages with a cursor up to its own. -/
def insert (now : TimeT) (m : Message) (q : List Message) : List Message :=
  q.orderedInsert (fun a b => a.cursor < b.cursor) (bornAt now m)

/-- Remove the messages with the identity of `m`. -/
def without (m : Message) (q : List Message) : List Message :=
  q.filter fun x => x.identity ≠ m.identity

/-- Rewrite the messages with the identity of `m`. -/
def rewrite (f : Message → Message → Message) (m : Message) (q : List Message) : List Message :=
  q.map fun x => if x.identity = m.identity then f x m else x

/-- Rewrite the messages with the identity of `m`, or insert `m` where there is none and it has
a lifetime. -/
def rewriteOrInsert (f : Message → Message → Message) (now : TimeT) (m : Message)
    (q : List Message) : List Message :=
  if m.lifetime ≠ 0 ∧ ∀ x ∈ q, x.identity ≠ m.identity then insert now m q else rewrite f m q

/-- What the action of `m` does to the messages. -/
def place (now : TimeT) (m : Message) (q : List Message) : List Message :=
  match m.action with
  | .publish => insert now m q
  | .modify => rewriteOrInsert Message.modify now m q
  | .update => rewriteOrInsert Message.update now m q
  | .replace => insert now m (without m q)
  | .remove => if m.lifetime ≠ 0 then insert now m (without m q) else without m q

/-- What `push` does to the messages. One without a lifetime or without a limit is not published
here; without a limit it clears the queue. -/
def store (now : TimeT) (m : Message) (q : List Message) : List Message :=
  if m.action = .publish ∧ m.unlimited then (if m.limit = 0 then [] else q)
  else (place now m q).rtake m.limit

/-- The messages after a list of pushes at one value of the clock. -/
def storeAll (now : TimeT) (ms : List Message) (q : List Message) : List Message :=
  ms.foldl (fun q m => store now m q) q

/-- In cursor order. -/
def Ordered (q : List Message) : Prop := q.Pairwise fun a b => a.cursor ≤ b.cursor

instance : DecidablePred Ordered := fun q =>
  inferInstanceAs (Decidable (q.Pairwise fun a b => a.cursor ≤ b.cursor))

@[simp] theorem storeAll_nil (now : TimeT) (q : List Message) : storeAll now [] q = q := rfl

@[simp] theorem storeAll_cons (now : TimeT) (m : Message) (ms q : List Message) :
    storeAll now (m :: ms) q = storeAll now ms (store now m q) := rfl

theorem storeAll_append (now : TimeT) (ms ms' q : List Message) :
    storeAll now (ms ++ ms') q = storeAll now ms' (storeAll now ms q) :=
  List.foldl_append

/-! ### Where messages come from -/

theorem mem_live {now : TimeT} {m : Message} {q : List Message} :
    m ∈ live now q ↔ m ∈ q ∧ now ≤ m.deathtime := by
  rw [live, List.mem_filter, decide_eq_true_eq]

theorem live_sublist (now : TimeT) (q : List Message) : (live now q).Sublist q :=
  List.filter_sublist

/-- Where nothing is dead, nothing expires. -/
theorem live_eq_self {now : TimeT} {q : List Message} (h : ∀ m ∈ q, now ≤ m.deathtime) :
    live now q = q :=
  List.filter_eq_self.mpr fun m hm => by simpa using h m hm

theorem live_append (now : TimeT) (q q' : List Message) :
    live now (q ++ q') = live now q ++ live now q' :=
  List.filter_append ..

/-- An earlier expiry changes nothing for a later one. -/
theorem live_live {now t : TimeT} (h : t ≤ now) (q : List Message) :
    live now (live t q) = live now q := by
  rw [live, live, List.filter_filter]
  refine List.filter_congr fun x _ => ?_
  rw [← Bool.decide_and]
  exact decide_eq_decide.mpr ⟨fun hx => hx.1, fun hx => ⟨hx, h.trans hx⟩⟩

theorem select_sublist (cursor : CursorT) (limit : ℕ) (q : List Message) :
    (select cursor limit q).Sublist q :=
  (rtake_sublist _ _).trans List.filter_sublist

@[simp] theorem select_nil (cursor : CursorT) (limit : ℕ) : select cursor limit [] = [] :=
  List.rtake_nil limit

/-- Every message is selected by its own cursor and a limit that does not cut. -/
theorem mem_select_self {q : List Message} {m : Message} (hm : m ∈ q) :
    m ∈ select m.cursor q.length q := by
  rw [select, rtake_of_length_le (List.length_filter_le _ _)]
  exact List.mem_filter.mpr ⟨hm, by simp⟩

theorem mem_insert {now : TimeT} {m x : Message} {q : List Message} :
    x ∈ insert now m q ↔ x = bornAt now m ∨ x ∈ q :=
  List.mem_orderedInsert _

@[simp] theorem length_insert (now : TimeT) (m : Message) (q : List Message) :
    (insert now m q).length = q.length + 1 :=
  List.orderedInsert_length ..

/-- A message with a birthtime is stored as it is. -/
theorem bornAt_of_ne {m : Message} (h : m.birthtime ≠ 0) (now : TimeT) : bornAt now m = m := by
  rw [bornAt, if_neg (by simpa using h)]

theorem bornAt_eq (now : TimeT) (m : Message) : ∃ t, bornAt now m = { m with birthtime := t } := by
  rw [bornAt]
  split
  · exact ⟨now, rfl⟩
  · exact ⟨m.birthtime, rfl⟩

/-- How a message has come behind a push of `m`: it was there, it is the new one, or it is one of
the same identity as the new one has rewritten it. -/
inductive Origin (now : TimeT) (m : Message) (q : List Message) (x : Message) : Prop
  | kept (hmem : x ∈ q) (hid : x.identity = m.identity → m.action = .publish)
  | born (hx : x = bornAt now m)
  | modified (y : Message) (hy : y ∈ q) (hid : y.identity = m.identity)
      (hact : m.action = .modify) (hx : x = y.modify m)
  | updated (y : Message) (hy : y ∈ q) (hid : y.identity = m.identity)
      (hact : m.action = .update) (hx : x = y.update m)

private theorem origin_insert {now : TimeT} {m x : Message} {q q' : List Message}
    (hx : x ∈ insert now m q')
    (hold : x ∈ q' → x ∈ q ∧ (x.identity = m.identity → m.action = .publish)) :
    Origin now m q x := by
  rcases mem_insert.mp hx with hx | hx
  · exact .born hx
  · exact .kept (hold hx).1 (hold hx).2

private theorem origin_rewriteOrInsert {now : TimeT} {m x : Message} {q : List Message}
    {f : Message → Message → Message} (hx : x ∈ rewriteOrInsert f now m q)
    (hf : ∀ y ∈ q, y.identity = m.identity → x = f y m → Origin now m q x) :
    Origin now m q x := by
  rw [rewriteOrInsert] at hx
  split at hx
  · next hcond => exact origin_insert hx fun hx => ⟨hx, fun hid => absurd hid (hcond.2 x hx)⟩
  · obtain ⟨y, hy, rfl⟩ := List.mem_map.mp hx
    by_cases hid : y.identity = m.identity
    · exact hf y hy hid (if_pos hid)
    · rw [if_neg hid]
      exact .kept hy fun h => absurd h hid

theorem origin_place {now : TimeT} {m x : Message} {q : List Message} (hx : x ∈ place now m q) :
    Origin now m q x := by
  have hwithout : x ∈ without m q → x ∈ q ∧ (x.identity = m.identity → m.action = .publish) := by
    intro hx
    obtain ⟨hmem, hid⟩ := List.mem_filter.mp hx
    exact ⟨hmem, fun h => absurd h (by simpa using hid)⟩
  rw [place] at hx
  split at hx
  · next hact => exact origin_insert hx fun hx => ⟨hx, fun _ => hact⟩
  · next hact => exact origin_rewriteOrInsert hx fun y hy hid hx => .modified y hy hid hact hx
  · next hact => exact origin_rewriteOrInsert hx fun y hy hid hx => .updated y hy hid hact hx
  · exact origin_insert hx hwithout
  · split at hx
    · exact origin_insert hx hwithout
    · exact .kept (hwithout hx).1 (hwithout hx).2

theorem origin_store {now : TimeT} {m x : Message} {q : List Message} (hx : x ∈ store now m q) :
    Origin now m q x := by
  rw [store] at hx
  split at hx
  · next hcond =>
    split at hx
    · cases hx
    · exact .kept hx fun _ => hcond.1
  · exact origin_place ((rtake_sublist _ _).subset hx)

/-- A property of the stored messages that survives each push holds behind all of them. -/
theorem forall_mem_storeAll {P : Message → Prop} {now : TimeT} {ms q : List Message}
    (hq : ∀ x ∈ q, P x) (hborn : ∀ m ∈ ms, P (bornAt now m))
    (hmodify : ∀ m ∈ ms, m.action = .modify → ∀ x, P x → x.identity = m.identity →
      P (x.modify m))
    (hupdate : ∀ m ∈ ms, m.action = .update → ∀ x, P x → x.identity = m.identity →
      P (x.update m)) :
    ∀ x ∈ storeAll now ms q, P x := by
  induction ms generalizing q with
  | nil => exact hq
  | cons m ms ih =>
    have hm : m ∈ m :: ms := List.mem_cons_self
    refine ih (fun x hx => ?_) (fun a ha => hborn a (List.mem_cons_of_mem _ ha))
      (fun a ha => hmodify a (List.mem_cons_of_mem _ ha))
      fun a ha => hupdate a (List.mem_cons_of_mem _ ha)
    cases origin_store hx with
    | kept hmem hid => exact hq x hmem
    | born hx => exact hx ▸ hborn m hm
    | modified y hy hid hact hx => exact hx ▸ hmodify m hm hact y (hq y hy) hid
    | updated y hy hid hact hx => exact hx ▸ hupdate m hm hact y (hq y hy) hid

/-! ### Cursor order -/

theorem Ordered.sublist {q q' : List Message} (h : Ordered q) (hsub : q'.Sublist q) :
    Ordered q' :=
  List.Pairwise.sublist hsub h

@[simp] theorem bornAt_cursor (now : TimeT) (m : Message) : (bornAt now m).cursor = m.cursor := by
  rw [bornAt]
  split <;> rfl

/-- Behind messages with smaller or equal cursors, a message is inserted at the end. -/
theorem insert_eq_concat {now : TimeT} {m : Message} {q : List Message}
    (h : ∀ x ∈ q, x.cursor ≤ m.cursor) : insert now m q = q ++ [bornAt now m] := by
  induction q with
  | nil => rfl
  | cons a q ih =>
    have ha := h a List.mem_cons_self
    rw [insert, List.orderedInsert_cons, if_neg (by simpa using ha)]
    exact congrArg _ (ih fun x hx => h x (List.mem_cons_of_mem _ hx))

end Contents

/-! ### The methods of the queue -/

namespace MessageQueue

open Contents

/-- The messages of the queue. -/
def messages (mq : MessageQueue) : List Message := mq.queue.map StoredMessage.get

/-- The invariants of a reachable queue. -/
structure WellFormed (mq : MessageQueue) : Prop where
  sequenced : mq.Sequenced
  ordered : CursorOrdered mq.queue

theorem wellFormed_new : new.WellFormed where
  sequenced := fun _ => ⟨0, by simp [new]⟩
  ordered := .nil

theorem WellFormed.push {mq : MessageQueue} (h : mq.WellFormed) (now : TimeT)
    (m : StoredMessage) : (mq.push now m).1.WellFormed where
  sequenced := h.sequenced.push now m
  ordered := cursorOrdered_push h.ordered now m

theorem WellFormed.removeDeath {mq : MessageQueue} (h : mq.WellFormed) (now : TimeT) :
    (mq.removeDeath now).WellFormed where
  sequenced := h.sequenced.removeDeath now
  ordered := h.ordered.sublist (removeDeath_sublist mq now)

theorem WellFormed.ordered_messages {mq : MessageQueue} (h : mq.WellFormed) :
    Ordered mq.messages :=
  h.ordered.map _ fun _ _ hab => hab

theorem bornAt_get (now : TimeT) (m : StoredMessage) :
    (MessageQueue.bornAt now m).get = Contents.bornAt now m.get := by
  rw [MessageQueue.bornAt, Contents.bornAt]
  split <;> rfl

private theorem map_get_insert {queue : List StoredMessage} (h : CursorOrdered queue)
    (now : TimeT) (m : StoredMessage) :
    (ReferenceQueue.publish_ now m queue).map StoredMessage.get =
      insert now m.get (queue.map StoredMessage.get) := by
  rw [publish_eq_orderedInsert h, Contents.insert, ← bornAt_get]
  exact List.map_orderedInsert _ _ _ _ _ (fun _ _ => Iff.rfl) fun _ _ => Iff.rfl

theorem map_get_without (m : Message) (queue : List StoredMessage) :
    (ReferenceQueue.removeIdentity m queue).map StoredMessage.get =
      without m (queue.map StoredMessage.get) := by
  rw [ReferenceQueue.removeIdentity, without, List.filter_map]
  refine congrArg _ (List.filter_congr fun x _ => ?_)
  rw [Function.comp_apply, decide_not, fIdentityEqual, beq_eq_decide]

private theorem map_get_rewriteOrInsert {queue : List StoredMessage} (h : CursorOrdered queue)
    (now : TimeT) (m : StoredMessage) {f : StoredMessage → StoredMessage}
    {g : Message → Message → Message}
    (hf : ∀ x, (f x).get = if x.get.identity = m.get.identity then g x.get m.get else x.get) :
    (ReferenceQueue.rewriteOrPublish f now m queue).map StoredMessage.get =
      rewriteOrInsert g now m.get (queue.map StoredMessage.get) := by
  have hcount : queue.countP (fIdentityEqual m.get) = 0 ↔
      ∀ x ∈ queue.map StoredMessage.get, x.identity ≠ m.get.identity := by
    simp [List.countP_eq_zero, fIdentityEqual]
  have hmap : (queue.map f).map StoredMessage.get =
      rewrite g m.get (queue.map StoredMessage.get) := by
    simp only [rewrite, List.map_map, Function.comp_def, hf]
  simp only [ReferenceQueue.rewriteOrPublish, rewriteOrInsert, hcount]
  split
  · next hcond =>
    -- Nothing has the identity, so the functor changes nothing.
    have hid : ∀ x ∈ queue, (f x).get = x.get := fun x hx => by
      rw [hf, if_neg (hcond.2 x.get (List.mem_map_of_mem hx))]
    have hsame : (queue.map f).map StoredMessage.get = queue.map StoredMessage.get := by
      rw [List.map_map]
      exact List.map_congr_left hid
    have hord : CursorOrdered (queue.map f) := by
      refine List.pairwise_map.mpr (List.Pairwise.imp_of_mem (fun {a b} ha hb hab => ?_) h)
      rwa [hid a ha, hid b hb]
    rw [map_get_insert hord, hsame]
  · exact hmap

private theorem map_get_dispatch {queue : List StoredMessage} (h : CursorOrdered queue)
    (now : TimeT) (m : StoredMessage) :
    (ReferenceQueue.dispatch now m queue).map StoredMessage.get =
      place now m.get (queue.map StoredMessage.get) := by
  have hremove : CursorOrdered (ReferenceQueue.removeIdentity m.get queue) :=
    h.sublist List.filter_sublist
  rw [ReferenceQueue.dispatch, place]
  cases m.get.action with
  | publish => exact map_get_insert h now m
  | modify =>
    refine map_get_rewriteOrInsert h now m fun x => ?_
    simp only [fModifyIfIdentityEqual, fIdentityEqual, beq_iff_eq]
    split <;> rfl
  | update =>
    refine map_get_rewriteOrInsert h now m fun x => ?_
    simp only [fUpdateIfIdentityEqual, fIdentityEqual, beq_iff_eq]
    split <;> rfl
  | replace =>
    dsimp only
    rw [map_get_insert hremove, map_get_without]
  | remove =>
    dsimp only
    split
    · rw [map_get_insert hremove, map_get_without]
    · exact map_get_without m.get queue

theorem resize_queue (mq : MessageQueue) (limit : ℕ) :
    (mq.resize limit).queue = mq.queue.rtake limit := by
  rw [resize]
  split
  · next hle => rw [rtake_of_length_le hle]
  · rfl

theorem messages_resize (mq : MessageQueue) (limit : ℕ) :
    (mq.resize limit).messages = mq.messages.rtake limit := by
  rw [messages, messages, resize_queue, rtake_map]

theorem messages_removeDeath {mq : MessageQueue} (h : mq.WellFormed) (now : TimeT) :
    (mq.removeDeath now).messages = live now mq.messages := by
  rw [messages, removeDeath_queue h.sequenced, messages, live, List.filter_map]
  refine congrArg _ (List.filter_congr fun x _ => ?_)
  rw [fDeathtimeLess, ← decide_not]
  exact decide_eq_decide.mpr not_lt

/-- A push at another time than the last one lets messages expire first. -/
theorem messages_purge {mq : MessageQueue} (h : mq.WellFormed) (now : TimeT) :
    (mq.purge now).messages =
      if mq.lastRemoveDeath ≠ now then live now mq.messages else mq.messages := by
  rw [purge]
  split
  · exact messages_removeDeath h now
  · rfl

theorem messages_dispatch {mq : MessageQueue} (h : CursorOrdered mq.queue) (now : TimeT)
    (m : StoredMessage) : (mq.dispatch now m).messages = place now m.get mq.messages := by
  rw [messages, dispatch_queue, map_get_dispatch h, messages]

/-- What a push stores, where it puts it and what it cuts off. -/
theorem messages_push {mq : MessageQueue} (h : mq.WellFormed) (now : TimeT) (m : StoredMessage) :
    (mq.push now m).1.messages =
      store now m.get
        (if mq.lastRemoveDeath ≠ now then live now mq.messages else mq.messages) := by
  have hord : CursorOrdered (mq.purge now).queue := h.ordered.sublist (purge_sublist mq now)
  have hdispatch := messages_dispatch hord now m
  rw [← messages_purge h now, store]
  simp only [push]
  by_cases hact : m.get.action = .publish
  · by_cases hun : m.get.unlimited = true
    · simp only [hact, hun, if_true, true_and]
      split
      · next hlim => rw [messages_resize, List.rtake_zero]
      · rfl
    · have hlim : m.get.limit ≠ 0 :=
        (Message.unlimited_eq_false_iff.mp (Bool.eq_false_iff.mpr hun)).2
      simp only [hact, hun, hlim, if_true, if_false, true_and, messages_resize, hdispatch,
        Bool.false_eq_true]
  · simp only [hact, if_false, false_and, messages_resize, hdispatch]

theorem copyTo_messages {mq : MessageQueue} (h : mq.WellFormed) (cursor : CursorT) (limit : ℕ)
    (out : List Message) :
    mq.copyTo cursor limit out = out ++ select cursor limit mq.messages := by
  rw [copyTo_eq h.ordered, select, messages, List.filter_map]
  simp only [rtake_map, Function.comp_def]

theorem copyToAll_messages (mq : MessageQueue) (out : List Message) :
    mq.copyToAll out = out ++ mq.messages := by
  simp only [copyToAll, messages, Message.copy_eq]

/-! A push leaves the time of the last expiry at its own time. -/

theorem push_lastRemoveDeath (mq : MessageQueue) (now : TimeT) (m : StoredMessage) :
    (mq.push now m).1.lastRemoveDeath = now := by
  have hpurge : (mq.purge now).lastRemoveDeath = now := by
    rw [purge]
    split
    · rfl
    · next h => exact not_not.mp h
  have hresize : ∀ (q : MessageQueue) (n : ℕ),
      (q.resize n).lastRemoveDeath = q.lastRemoveDeath := by
    intro q n
    rw [resize]
    split <;> rfl
  have hdispatch : ∀ q : MessageQueue, (q.dispatch now m).lastRemoveDeath = q.lastRemoveDeath :=
    fun q => congrArg ReferenceQueue.lastRemoveDeath (dispatch_toReference q now m)
  simp only [push]
  split_ifs <;> simp only [hresize, hdispatch, hpurge]

end MessageQueue

end WfcPubsub
