import WfcPubsub.ChannelMap
import WfcPubsub.MessageQueue.Specification

/-!
# What `push` reports

By its comment, `push` returns a null pointer if the message has stayed in the channel. A
published message without a lifetime or a limit comes back, and it is not stored. Any other one
is inserted by its cursor, and the queue is then cut to the limit of the message, which may cut
off the message itself; the null pointer is returned all the same.

## Main definitions

* `Contents.Stays` : whether a pushed message with a lifetime stays.

## Main results

* `MessageQueue.stays_push_iff`, `QueueState.retained_iff`
* `QueueState.reports_iff` : the report is true exactly where the limit does not cut off the
  message.
-/

namespace WfcPubsub

open Contents
open StableOrder (rtake_sublist)

namespace Contents

/-- A message with a lifetime is inserted by its action, and its limit does not cut it off. -/
def Stays (m : Message) (q : List Message) : Prop :=
  match m.action with
  | .publish => behind m q < m.limit
  | .modify | .update => (∀ x ∈ q, x.identity ≠ m.identity) ∧ behind m q < m.limit
  | .replace | .remove => behind m (without m q) < m.limit

end Contents

namespace MessageQueue

/-- What `push` returns for a published message. -/
theorem push_result {m : StoredMessage} (hact : m.get.action = .publish) (mq : MessageQueue)
    (now : TimeT) : (mq.push now m).2 = if m.get.unlimited then some m else none := by
  simp only [push, hact, if_true]
  by_cases hun : m.get.unlimited = true
  · rw [if_pos hun, if_pos hun]
  · rw [if_neg hun, if_neg hun]

/-- The queue behind the push of a message that is not stored. -/
theorem push_queue_of_unlimited (mq : MessageQueue) (now : TimeT) {m : StoredMessage}
    (hact : m.get.action = .publish) (hun : m.get.unlimited = true) :
    (mq.push now m).1.queue.Sublist mq.queue := by
  have hpurge := purge_sublist mq now
  simp only [push, hact, hun, if_true]
  split
  · exact (resize_sublist _ _).trans hpurge
  · exact hpurge

/-- The queue behind the push of any other message: what its action does, and a cut. -/
theorem push_queue_eq (mq : MessageQueue) (now : TimeT) {m : StoredMessage}
    (h : m.get.action = .publish → m.get.unlimited = false) :
    (mq.push now m).1.queue =
      (ReferenceQueue.dispatch now m (mq.purge now).queue).rtake m.get.limit := by
  simp only [push]
  by_cases hact : m.get.action = .publish
  · have hun := h hact
    have hlim := (Message.unlimited_eq_false_iff.mp hun).2
    simp only [hact, hun, hlim, if_true, if_false, Bool.false_eq_true, resize_queue,
      dispatch_queue]
  · simp only [hact, if_false, resize_queue, dispatch_queue]

/-- A new message stays if fewer messages than its limit have larger cursors. -/
private theorem exists_mem_publish_iff {queue : List StoredMessage} (h : CursorOrdered queue)
    {m : StoredMessage} (hnew : ∀ x ∈ queue, x.addr ≠ m.addr) (now : TimeT) (limit : ℕ) :
    (∃ x ∈ (ReferenceQueue.publish_ now m queue).rtake limit, x.addr = m.addr) ↔
      (queue.filter fun x => m.get.cursor < x.get.cursor).length < limit := by
  have hborn := bornAt_addr now m
  have hsorted : StableOrder.Sorted (fun x : StoredMessage => x.get.cursor) queue := h
  have hstays := StableOrder.mem_rtake_insert_iff (a := bornAt now m) hsorted
    (fun hmem => hnew _ hmem hborn) limit
  rw [bornAt_cursor] at hstays
  rw [publish_eq_orderedInsert h, ← hstays]
  constructor
  · rintro ⟨x, hx, haddr⟩
    rcases (List.mem_orderedInsert _).mp ((rtake_sublist _ _).subset hx) with rfl | hold
    · exact hx
    · exact absurd haddr (hnew x hold)
  · exact fun hmem => ⟨_, hmem, hborn⟩

private theorem exists_mem_rewriteOrPublish_iff {queue : List StoredMessage}
    (h : CursorOrdered queue) {m : StoredMessage} {f : StoredMessage → StoredMessage}
    (hf : ∀ x, (f x).get.cursor = x.get.cursor ∧ (f x).addr = x.addr)
    (hnew : ∀ x ∈ queue, x.addr ≠ m.addr) (hlife : m.get.lifetime ≠ 0) (now : TimeT)
    (limit : ℕ) :
    (∃ x ∈ (ReferenceQueue.rewriteOrPublish f now m queue).rtake limit, x.addr = m.addr) ↔
      (∀ x ∈ queue, x.get.identity ≠ m.get.identity) ∧
        (queue.filter fun x => m.get.cursor < x.get.cursor).length < limit := by
  have hcount : queue.countP (fIdentityEqual m.get) = 0 ↔
      ∀ x ∈ queue, x.get.identity ≠ m.get.identity := by
    simp [List.countP_eq_zero, fIdentityEqual]
  have hmap : ∀ x ∈ queue.map f, x.addr ≠ m.addr := by
    intro x hx
    obtain ⟨y, hy, rfl⟩ := List.mem_map.mp hx
    exact (hf y).2 ▸ hnew y hy
  rw [ReferenceQueue.rewriteOrPublish]
  by_cases hnone : queue.countP (fIdentityEqual m.get) = 0
  · have hord : CursorOrdered (queue.map f) := h.map f fun a b hab => by rwa [(hf a).1, (hf b).1]
    have hbehind : ((queue.map f).filter fun x => m.get.cursor < x.get.cursor).length =
        (queue.filter fun x => m.get.cursor < x.get.cursor).length := by
      simp only [List.filter_map, List.length_map, Function.comp_def, (hf _).1]
    rw [if_pos ⟨hlife, hnone⟩, exists_mem_publish_iff hord hmap, hbehind]
    exact (and_iff_right (hcount.mp hnone)).symm
  · -- A message of the identity is rewritten, and nothing new comes in.
    rw [if_neg fun hcond => hnone hcond.2]
    refine iff_of_false ?_ fun h => hnone (hcount.mpr h.1)
    rintro ⟨x, hx, haddr⟩
    exact hmap x ((rtake_sublist _ _).subset hx) haddr

/-- A new message stays where it is inserted and its limit leaves room for it. -/
theorem stays_push_iff {mq : MessageQueue} (h : mq.WellFormed) {m : StoredMessage}
    (hnew : ∀ x ∈ mq.queue, x.addr ≠ m.addr) (hlife : m.get.lifetime ≠ 0) (now : TimeT) :
    (∃ x ∈ (mq.push now m).1.queue, x.addr = m.addr) ↔ Stays m.get (mq.foundAt now) := by
  have hsub := purge_sublist mq now
  have hord : CursorOrdered (mq.purge now).queue := h.ordered.sublist hsub
  have hpurged : ∀ x ∈ (mq.purge now).queue, x.addr ≠ m.addr := fun x hx => hnew x (hsub.subset hx)
  have hfound : mq.foundAt now = (mq.purge now).queue.map StoredMessage.get :=
    (messages_purge h now).symm
  have hbehind : ∀ queue : List StoredMessage,
      behind m.get (queue.map StoredMessage.get) =
        (queue.filter fun x => m.get.cursor < x.get.cursor).length := by
    intro queue
    rw [behind, List.filter_map, List.length_map]
    rfl
  have hrest : CursorOrdered (ReferenceQueue.removeIdentity m.get (mq.purge now).queue) :=
    hord.sublist List.filter_sublist
  have hothers := exists_mem_publish_iff hrest
    (fun x hx => hpurged x (List.mem_of_mem_filter hx)) now m.get.limit
  by_cases hstored : m.get.action = .publish → m.get.limit ≠ 0
  · have hun : m.get.action = .publish → m.get.unlimited = false := fun hact =>
      Message.unlimited_eq_false_iff.mpr ⟨hlife, hstored hact⟩
    rw [push_queue_eq mq now hun, Stays, ReferenceQueue.dispatch, hfound]
    cases m.get.action with
    | publish =>
      dsimp only
      rw [hbehind, exists_mem_publish_iff hord hpurged]
    | modify =>
      dsimp only
      rw [hbehind, List.forall_mem_map]
      refine exists_mem_rewriteOrPublish_iff hord (fun x => ?_) hpurged hlife now _
      rw [fModifyIfIdentityEqual]
      split <;> simp
    | update =>
      dsimp only
      rw [hbehind, List.forall_mem_map]
      refine exists_mem_rewriteOrPublish_iff hord (fun x => ?_) hpurged hlife now _
      rw [fUpdateIfIdentityEqual]
      split <;> simp
    | replace =>
      dsimp only
      rw [← map_get_without, hbehind, hothers]
    | remove =>
      dsimp only
      rw [if_pos hlife, ← map_get_without, hbehind, hothers]
  · obtain ⟨hact, hlim⟩ := Classical.not_imp.mp hstored
    rw [not_not] at hlim
    have hun : m.get.unlimited = true := by
      rw [Message.unlimited, hlim, beq_self_eq_true, Bool.or_true]
    rw [Stays, hact]
    refine iff_of_false ?_ (by rw [hlim]; exact Nat.not_lt_zero _)
    rintro ⟨x, hx, haddr⟩
    exact hnew x ((push_queue_of_unlimited mq now hact hun).subset hx) haddr

end MessageQueue

/-- What the push of a published message on a channel reports. -/
theorem ChannelMap.push_result {m : Message} (hact : m.action = .publish) (cm : ChannelMap)
    (now : TimeT) (name : String) (addr : ℕ) : (cm.push now name m addr).2 = !m.unlimited := by
  rw [ChannelMap.push]
  split
  · next hguard =>
    obtain ⟨hlife, -⟩ := (Bool.and_eq_true _ _).mp ((Bool.and_eq_true _ _).mp hguard).2
    rw [Message.unlimited, hlife]
    rfl
  · change (MessageQueue.push now (.make m.copy addr) _).2.isNone = _
    rw [MessageQueue.push_result hact]
    change (if m.unlimited then some _ else none).isNone = _
    cases m.unlimited <;> rfl

namespace QueueState

/-- A published message stays if it has a lifetime and a limit, and the limit exceeds the number
of messages with larger cursors. The address `s.pushes` is that of the new message. -/
theorem retained_iff {s : QueueState} (hwf : s.mq.WellFormed) (hord : s.Ordered) (now : TimeT)
    {m : Message} (hact : m.action = .publish) :
    (∃ x ∈ (s.mq.push now ⟨s.pushes, m⟩).1.queue, x.addr = s.pushes) ↔
      (m.lifetime ≠ 0 ∧ m.limit ≠ 0) ∧ behind m (s.mq.foundAt now) < m.limit := by
  have hold : ∀ x ∈ s.mq.queue, x.addr ≠ s.pushes := fun x hx => (hord.2 x hx).ne
  by_cases hlife : m.lifetime = 0
  · have hun : m.unlimited = true := by
      rw [Message.unlimited, hlife, beq_self_eq_true, Bool.true_or]
    refine iff_of_false ?_ fun h => h.1.1 hlife
    rintro ⟨x, hx, haddr⟩
    exact hold x ((MessageQueue.push_queue_of_unlimited s.mq now hact hun).subset hx) haddr
  · have hstays := MessageQueue.stays_push_iff hwf (m := ⟨s.pushes, m⟩) hold hlife now
    rw [Stays, hact] at hstays
    rw [hstays]
    exact ⟨fun h => ⟨⟨hlife, (Nat.zero_lt_of_lt h).ne'⟩, h⟩, fun h => h.2⟩

/-- A report of a lifetime and a limit is one of the retention exactly where the limit leaves room
for the message. -/
private theorem truthful_iff {m : Message} {reported retained : Prop} {n : ℕ}
    (hreported : reported ↔ m.lifetime ≠ 0 ∧ m.limit ≠ 0)
    (hretained : retained ↔ (m.lifetime ≠ 0 ∧ m.limit ≠ 0) ∧ n < m.limit) :
    (reported ↔ retained) ↔ m.lifetime = 0 ∨ m.limit = 0 ∨ n < m.limit := by
  rw [hreported, hretained]
  by_cases hlife : m.lifetime = 0
  · simp [hlife]
  · by_cases hlim : m.limit = 0
    · simp [hlim]
    · simp [hlife, hlim]

/-- **When `push` reports truthfully.** For every published message, the pointer returned by
`push`, the result of its other form and that of a push on a channel with the same queue tell
whether the message is in the queue that the call leaves if and only if the message has no
lifetime, or no limit, or a limit above the number of stored messages with larger cursors. -/
theorem reports_iff (ops : List QueueOp) (now : TimeT) (m : Message)
    (hact : m.action = .publish) :
    let s := machine.run new ops
    let truthful := m.lifetime = 0 ∨ m.limit = 0 ∨
      ((s.mq.foundAt now).filter fun x => m.cursor < x.cursor).length < m.limit
    (((s.step (.push now m)).2 = none ↔
        ∃ x ∈ (s.step (.push now m)).1.mq.queue, x.addr = s.pushes) ↔ truthful) ∧
      (((s.mq.pushMessage now m s.pushes).2 = true ↔
        ∃ x ∈ (s.mq.pushMessage now m s.pushes).1.queue, x.addr = s.pushes) ↔ truthful) ∧
      ∀ (cm : ChannelMap) (name : String), cm.queue name = s.mq →
        (((cm.push now name m s.pushes).2 = true ↔
          ∃ x ∈ ((cm.push now name m s.pushes).1.queue name).queue, x.addr = s.pushes) ↔
            truthful) := by
  intro s truthful
  have hord : s.Ordered := ordered_run ops
  have hretained := retained_iff (wellFormed_run ops) hord now hact
  refine ⟨truthful_iff ?_ hretained, truthful_iff ?_ hretained, fun cm name hqueue =>
    truthful_iff ?_ ?_⟩
  · change (s.mq.push now ⟨s.pushes, m⟩).2 = none ↔ _
    rw [MessageQueue.push_result hact, ← Message.unlimited_eq_false_iff]
    cases m.unlimited <;> simp
  · change (s.mq.push now (.make m s.pushes)).2.isNone = true ↔ _
    rw [MessageQueue.push_result hact, ← Message.unlimited_eq_false_iff]
    change (if m.unlimited then some _ else none).isNone = true ↔ _
    cases m.unlimited <;> simp
  · rw [ChannelMap.push_result hact, ← Message.unlimited_eq_false_iff, Bool.not_eq_true']
  · rcases cm.queue_push now name m s.pushes with hpush | ⟨hsame, -, hlife, -⟩
    · rw [hpush, if_pos rfl, hqueue]
      exact hretained
    · rw [hsame, hqueue]
      refine iff_of_false ?_ fun h => h.1.1 hlife
      rintro ⟨x, hx, haddr⟩
      exact (hord.2 x hx).ne haddr

/-- A message of a smaller cursor than all others is cut off by its own limit; the push reports
that it has stayed, in each of its forms. -/
theorem not_reports :
    let s := machine.run new [.push 100 { limit := 10, lifetime := 60, cursor := 5 }]
    let m : Message := { limit := 1, lifetime := 60, cursor := 2 }
    let cm : ChannelMap := { channelMap := OrderedMap.empty.set "channel" s.mq }
    m.action = .publish ∧ (s.step (.push 100 m)).2 = none ∧
    (s.mq.pushMessage 100 m s.pushes).2 = true ∧ (cm.push 100 "channel" m s.pushes).2 = true ∧
    ∀ mq ∈ [(s.step (.push 100 m)).1.mq, (s.mq.pushMessage 100 m s.pushes).1,
        (cm.push 100 "channel" m s.pushes).1.queue "channel"],
      mq.queue = [⟨0, { limit := 10, birthtime := 100, lifetime := 60, cursor := 5 }⟩] := by
  decide

theorem reports_iff_last :
    let s := machine.run new [.push 100 { limit := 10, lifetime := 60, cursor := 5 }]
    let m : Message := { limit := 1, lifetime := 60, cursor := 6 }
    let truthful := m.lifetime = 0 ∨ m.limit = 0 ∨
      ((s.mq.foundAt 100).filter fun x => m.cursor < x.cursor).length < m.limit
    (((s.step (.push 100 m)).2 = none ↔
        ∃ x ∈ (s.step (.push 100 m)).1.mq.queue, x.addr = s.pushes) ↔ truthful) ∧
      (((s.mq.pushMessage 100 m s.pushes).2 = true ↔
        ∃ x ∈ (s.mq.pushMessage 100 m s.pushes).1.queue, x.addr = s.pushes) ↔ truthful) ∧
      ∀ (cm : ChannelMap) (name : String), cm.queue name = s.mq →
        (((cm.push 100 name m s.pushes).2 = true ↔
          ∃ x ∈ ((cm.push 100 name m s.pushes).1.queue name).queue, x.addr = s.pushes) ↔
            truthful) :=
  reports_iff [.push 100 { limit := 10, lifetime := 60, cursor := 5 }] 100
    { limit := 1, lifetime := 60, cursor := 6 } rfl

end QueueState

end WfcPubsub
