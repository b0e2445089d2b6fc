import WfcPubsub.MessageQueue.Expiry

/-!
# The order of the queue

The deque is searched by bisection, both for the place of a new message and for the first
message to copy, so everything rests on its being in cursor order. A relation that refines the
cursor order and looks only at cursors and addresses is kept by every method
(`MessageQueue.pairwise_push`); the cursor order itself is one, and so is the order in which
equal cursors stand as their messages arrived (`ArrivedBefore`).

## Main results

* `MessageQueue.publish_eq_orderedInsert` : in an ordered queue the new message goes behind
  all messages with a cursor up to its own.
* `MessageQueue.copyTo_eq`, `MessageQueue.copyToFrom_eq` : `copy_to` is a linear scan.
* `QueueState.cursor_order` : both for every reachable queue.
-/

namespace WfcPubsub

/-- In cursor order, and in order of arrival where the cursors are equal. -/
def ArrivedBefore (a b : StoredMessage) : Prop :=
  a.get.cursor < b.get.cursor ∨ a.get.cursor = b.get.cursor ∧ a.addr < b.addr

/-- A relation between the cursor order and its strict part that looks at cursors and addresses
only. -/
structure RefinesCursor (R : StoredMessage → StoredMessage → Prop) : Prop where
  of_lt : ∀ {a b}, a.get.cursor < b.get.cursor → R a b
  le : ∀ {a b}, R a b → a.get.cursor ≤ b.get.cursor
  congr : ∀ {a b a' b'}, a.get.cursor = a'.get.cursor → a.addr = a'.addr →
    b.get.cursor = b'.get.cursor → b.addr = b'.addr → R a b → R a' b'

theorem refinesCursor_le : RefinesCursor fun a b => a.get.cursor ≤ b.get.cursor where
  of_lt h := h.le
  le h := h
  congr ha _ hb _ h := ha ▸ hb ▸ h

theorem refinesCursor_arrivedBefore : RefinesCursor ArrivedBefore where
  of_lt h := Or.inl h
  le h := h.elim le_of_lt fun h => h.1.le
  congr ha ha' hb hb' h := by
    rw [ArrivedBefore] at h ⊢
    rwa [← ha, ← ha', ← hb, ← hb']

/-- The stored messages are in cursor order. -/
def CursorOrdered (queue : List StoredMessage) : Prop :=
  queue.Pairwise fun a b => a.get.cursor ≤ b.get.cursor

namespace MessageQueue

@[simp] theorem bornAt_cursor (now : TimeT) (m : StoredMessage) :
    (bornAt now m).get.cursor = m.get.cursor := by
  rw [bornAt]
  split <;> rfl

@[simp] theorem bornAt_addr (now : TimeT) (m : StoredMessage) :
    (bornAt now m).addr = m.addr := by
  rw [bornAt]
  split <;> rfl

theorem partitioned_upperBound {queue : List StoredMessage} (h : CursorOrdered queue)
    (cursor : CursorT) :
    Bisection.Partitioned (fun m => !decide (cursor < m.get.cursor)) queue :=
  List.Pairwise.imp (fun {a b} hab => by simpa using hab.trans) h

theorem partitioned_lowerBound {queue : List StoredMessage} (h : CursorOrdered queue)
    (cursor : CursorT) :
    Bisection.Partitioned (fun m => decide (m.get.cursor < cursor)) queue :=
  List.Pairwise.imp (fun {a b} hab => by simpa using hab.trans_lt) h

/-- In an ordered queue the new message goes behind all messages with a cursor up to its own. -/
theorem publish_eq_orderedInsert {queue : List StoredMessage} (h : CursorOrdered queue)
    (now : TimeT) (m : StoredMessage) :
    ReferenceQueue.publish_ now m queue =
      queue.orderedInsert (fun a b => a.get.cursor < b.get.cursor) (bornAt now m) := by
  have := Bisection.insertIdx_bisect
    (fun a b : StoredMessage => a.get.cursor < b.get.cursor) (bornAt now m) (l := queue)
    (partitioned_upperBound h _)
  rwa [bornAt_cursor] at this

/-! ### Every method keeps the order -/

section Order

variable {R : StoredMessage → StoredMessage → Prop} (hR : RefinesCursor R)

include hR

theorem RefinesCursor.cursorOrdered {queue : List StoredMessage} (h : queue.Pairwise R) :
    CursorOrdered queue :=
  List.Pairwise.imp (fun hab => hR.le hab) h

private theorem pairwise_publish {queue : List StoredMessage} {now : TimeT} {m : StoredMessage}
    (h : queue.Pairwise R) (hnew : ∀ b ∈ queue, b.get.cursor ≤ m.get.cursor → R b m) :
    (ReferenceQueue.publish_ now m queue).Pairwise R := by
  rw [publish_eq_orderedInsert (RefinesCursor.cursorOrdered hR h)]
  refine Bisection.pairwise_orderedInsert h (fun b _ hlt => hR.of_lt hlt) (fun b hb hle => ?_)
    fun b _ x _ hlt hbx => hlt.trans_le (hR.le hbx)
  rw [bornAt_cursor] at hle
  exact hR.congr rfl rfl (bornAt_cursor now m).symm (bornAt_addr now m).symm
    (hnew b hb (not_lt.mp hle))

private theorem pairwise_rewriteOrPublish {queue : List StoredMessage} {now : TimeT}
    {m : StoredMessage} {f : StoredMessage → StoredMessage}
    (hf : ∀ a, (f a).get.cursor = a.get.cursor ∧ (f a).addr = a.addr)
    (h : queue.Pairwise R) (hnew : ∀ b ∈ queue, b.get.cursor ≤ m.get.cursor → R b m) :
    (ReferenceQueue.rewriteOrPublish f now m queue).Pairwise R := by
  have hmap : (queue.map f).Pairwise R :=
    h.map f fun a b => hR.congr (hf a).1.symm (hf a).2.symm (hf b).1.symm (hf b).2.symm
  rw [ReferenceQueue.rewriteOrPublish]
  split
  · refine pairwise_publish hR hmap fun b hb hle => ?_
    obtain ⟨a, ha, rfl⟩ := List.mem_map.mp hb
    rw [(hf a).1] at hle
    exact hR.congr (hf a).1.symm (hf a).2.symm rfl rfl (hnew a ha hle)
  · exact hmap

private theorem pairwise_dispatch {queue : List StoredMessage} {now : TimeT}
    {m : StoredMessage} (h : queue.Pairwise R)
    (hnew : ∀ b ∈ queue, b.get.cursor ≤ m.get.cursor → R b m) :
    (ReferenceQueue.dispatch now m queue).Pairwise R := by
  have hremove : (ReferenceQueue.removeIdentity m.get queue).Pairwise R :=
    h.sublist List.filter_sublist
  have hpublish : (ReferenceQueue.publish_ now m
      (ReferenceQueue.removeIdentity m.get queue)).Pairwise R :=
    pairwise_publish hR hremove fun b hb => hnew b (List.mem_of_mem_filter hb)
  rw [ReferenceQueue.dispatch]
  split
  · exact pairwise_publish hR h hnew
  · refine pairwise_rewriteOrPublish hR (fun a => ?_) h hnew
    rw [fModifyIfIdentityEqual]
    split <;> simp
  · refine pairwise_rewriteOrPublish hR (fun a => ?_) h hnew
    rw [fUpdateIfIdentityEqual]
    split <;> simp
  · exact hpublish
  · split
    · exact hpublish
    · exact hremove

end Order

theorem resize_sublist (mq : MessageQueue) (limit : ℕ) :
    (mq.resize limit).queue.Sublist mq.queue := by
  rw [resize]
  split
  · exact List.Sublist.refl _
  · exact List.drop_sublist _ _

theorem purge_sublist (mq : MessageQueue) (now : TimeT) :
    (mq.purge now).queue.Sublist mq.queue := by
  rw [purge]
  split
  · exact removeDeath_sublist mq now
  · exact List.Sublist.refl _

/-- `push` keeps every order that the new message can be fitted into. -/
theorem pairwise_push {R : StoredMessage → StoredMessage → Prop} (hR : RefinesCursor R)
    {mq : MessageQueue} {now : TimeT} {m : StoredMessage} (h : mq.queue.Pairwise R)
    (hnew : ∀ b ∈ mq.queue, b.get.cursor ≤ m.get.cursor → R b m) :
    (mq.push now m).1.queue.Pairwise R := by
  have hdispatch : ∀ q : MessageQueue, q.queue.Sublist mq.queue →
      ((q.dispatch now m).resize m.get.limit).queue.Pairwise R := by
    intro q hq
    refine List.Pairwise.sublist (resize_sublist _ _) ?_
    rw [dispatch_queue]
    exact pairwise_dispatch hR (h.sublist hq) fun b hb => hnew b (hq.subset hb)
  have hpurge := purge_sublist mq now
  have hresize := (resize_sublist (mq.purge now) 0).trans hpurge
  simp only [push]
  split
  · split
    · split
      · exact h.sublist hresize
      · exact h.sublist hpurge
    · split
      · exact hdispatch _ hresize
      · exact hdispatch _ hpurge
  · exact hdispatch _ hpurge

theorem cursorOrdered_push {mq : MessageQueue} (h : CursorOrdered mq.queue) (now : TimeT)
    (m : StoredMessage) : CursorOrdered (mq.push now m).1.queue :=
  pairwise_push refinesCursor_le h fun _ _ hle => hle

/-! ### What a stored message can be -/

section Forall

variable {P : StoredMessage → Prop}

private theorem forall_mem_publish {queue : List StoredMessage} {now : TimeT}
    {m : StoredMessage} (hold : ∀ x ∈ queue, P x) (hborn : P (bornAt now m)) :
    ∀ x ∈ ReferenceQueue.publish_ now m queue, P x := by
  intro x hx
  rcases List.eq_or_mem_of_mem_insertIdx hx with rfl | hx
  · exact hborn
  · exact hold x hx

private theorem forall_mem_rewriteOrPublish {queue : List StoredMessage} {now : TimeT}
    {m : StoredMessage} {f : StoredMessage → StoredMessage} (hf : ∀ x ∈ queue, P (f x))
    (hborn : P (bornAt now m)) :
    ∀ x ∈ ReferenceQueue.rewriteOrPublish f now m queue, P x := by
  have hmap : ∀ x ∈ queue.map f, P x := by
    rintro x hx
    obtain ⟨y, hy, rfl⟩ := List.mem_map.mp hx
    exact hf y hy
  rw [ReferenceQueue.rewriteOrPublish]
  split
  · exact forall_mem_publish hmap hborn
  · exact hmap

/-- A property of stored messages holds after `push` if it held before, holds of the new
message as it is inserted, and survives the rewriting by the new message. -/
theorem forall_mem_push {mq : MessageQueue} {now : TimeT} {m : StoredMessage}
    (hold : ∀ x ∈ mq.queue, P x) (hborn : P (bornAt now m))
    (hmodify : m.get.action = .modify → ∀ x ∈ mq.queue, x.get.identity = m.get.identity →
      P { x with get := x.get.modify m.get })
    (hupdate : m.get.action = .update → ∀ x ∈ mq.queue, x.get.identity = m.get.identity →
      P { x with get := x.get.update m.get }) :
    ∀ x ∈ (mq.push now m).1.queue, P x := by
  have hdispatch : ∀ q : MessageQueue, (∀ x ∈ q.queue, x ∈ mq.queue) →
      ∀ x ∈ ((q.dispatch now m).resize m.get.limit).queue, P x := by
    intro q hq x hx
    have holdq : ∀ x ∈ q.queue, P x := fun x hx => hold x (hq x hx)
    have hremove : ∀ x ∈ ReferenceQueue.removeIdentity m.get q.queue, P x :=
      fun x hx => holdq x (List.mem_of_mem_filter hx)
    replace hx := (resize_sublist _ _).subset hx
    rw [dispatch_queue, ReferenceQueue.dispatch] at hx
    split at hx
    · exact forall_mem_publish holdq hborn x hx
    · next hact =>
      refine forall_mem_rewriteOrPublish (fun y hy => ?_) hborn x hx
      rw [fModifyIfIdentityEqual]
      split
      · next hid => exact hmodify hact y (hq y hy) (by simpa [fIdentityEqual] using hid)
      · exact holdq y hy
    · next hact =>
      refine forall_mem_rewriteOrPublish (fun y hy => ?_) hborn x hx
      rw [fUpdateIfIdentityEqual]
      split
      · next hid => exact hupdate hact y (hq y hy) (by simpa [fIdentityEqual] using hid)
      · exact holdq y hy
    · exact forall_mem_publish hremove hborn x hx
    · split at hx
      · exact forall_mem_publish hremove hborn x hx
      · exact hremove x hx
  have hpurge := (purge_sublist mq now).subset
  have hresize := ((resize_sublist (mq.purge now) 0).trans (purge_sublist mq now)).subset
  simp only [push]
  split
  · split
    · split
      · exact fun x hx => hold x (hresize hx)
      · exact fun x hx => hold x (hpurge hx)
    · split
      · exact hdispatch _ fun x hx => hresize hx
      · exact hdispatch _ fun x hx => hpurge hx
  · exact hdispatch _ fun x hx => hpurge hx

end Forall

/-! ### `copy_to` -/

private theorem drop_lowerBound {queue : List StoredMessage} (h : CursorOrdered queue)
    (cursor : CursorT) :
    queue.drop (lowerBound cursor queue) = queue.filter fun m => cursor ≤ m.get.cursor := by
  rw [lowerBound, Bisection.drop_bisect (partitioned_lowerBound h cursor)]
  refine List.filter_congr fun m _ => ?_
  rw [← decide_not]
  exact decide_eq_decide.mpr not_lt

theorem copyToFrom_eq {mq : MessageQueue} (h : CursorOrdered mq.queue) (cursor : CursorT)
    (out : List Message) :
    mq.copyToFrom cursor out =
      out ++ (mq.queue.filter fun m => cursor ≤ m.get.cursor).map StoredMessage.get := by
  simp only [copyToFrom, drop_lowerBound h, Message.copy_eq]

/-- `copy_to` takes from the end of the matching messages. -/
theorem copyTo_eq {mq : MessageQueue} (h : CursorOrdered mq.queue) (cursor : CursorT)
    (limit : ℕ) (out : List Message) :
    mq.copyTo cursor limit out =
      out ++ ((mq.queue.filter fun m => cursor ≤ m.get.cursor).rtake limit).map
        StoredMessage.get := by
  have hdrop := drop_lowerBound h cursor
  have hlen : mq.queue.length - lowerBound cursor mq.queue =
      (mq.queue.filter fun m => cursor ≤ m.get.cursor).length := by
    rw [← hdrop, List.length_drop]
  simp only [copyTo, hlen, Message.copy_eq, List.rtake]
  split
  · rw [← List.drop_drop, hdrop]
  · next hlim => rw [hdrop, Nat.sub_eq_zero_of_le (not_lt.mp hlim), List.drop_zero]

end MessageQueue

/-! ### Every reachable queue -/

namespace QueueState

/-- The stored messages are in order of cursor and arrival, and all of them have arrived. -/
def Ordered (s : QueueState) : Prop :=
  s.mq.queue.Pairwise ArrivedBefore ∧ ∀ m ∈ s.mq.queue, m.addr < s.pushes

theorem Ordered.of_sublist {s : QueueState} (h : s.Ordered) {mq : MessageQueue}
    (hsub : mq.queue.Sublist s.mq.queue) : ({ s with mq := mq } : QueueState).Ordered :=
  ⟨h.1.sublist hsub, fun m hm => h.2 m (hsub.subset hm)⟩

theorem ordered_step (s : QueueState) (op : QueueOp) (h : s.Ordered) :
    (machine.step s op).1.Ordered := by
  cases op with
  | push now m =>
    refine ⟨MessageQueue.pairwise_push refinesCursor_arrivedBefore h.1 fun b hb hle => ?_, ?_⟩
    · exact hle.lt_or_eq.imp id fun heq => ⟨heq, h.2 b hb⟩
    · refine MessageQueue.forall_mem_push (fun x hx => Nat.lt_succ_of_lt (h.2 x hx)) ?_
        (fun _ x hx _ => Nat.lt_succ_of_lt (h.2 x hx))
        (fun _ x hx _ => Nat.lt_succ_of_lt (h.2 x hx))
      rw [MessageQueue.bornAt_addr]
      exact Nat.lt_succ_self _
  | removeDeath now => exact h.of_sublist (MessageQueue.removeDeath_sublist _ _)
  | resize limit => exact h.of_sublist (MessageQueue.resize_sublist _ _)
  | clear => exact h.of_sublist (List.nil_sublist _)
  | getRemoved reset =>
    refine h.of_sublist ?_
    cases reset <;> exact List.Sublist.refl _

theorem ordered_run (ops : List QueueOp) : (machine.run new ops).Ordered :=
  Machine.invariant_run (I := Ordered) ordered_step ⟨.nil, List.forall_mem_nil _⟩ ops

/-- **Cursor order.** In every reachable queue the messages are in cursor order, those with
equal cursor in the order of their arrival; and `copy_to` appends the last `min n k` of the `k`
messages that reach the cursor, or all of them where it is given no limit. -/
theorem cursor_order (ops : List QueueOp) :
    (machine.run new ops).mq.queue.Pairwise ArrivedBefore ∧
      ∀ (cursor : CursorT) (out : List Message),
        let matching := (machine.run new ops).mq.queue.filter fun m => cursor ≤ m.get.cursor
        (∀ n, (machine.run new ops).mq.copyTo cursor n out =
          out ++ (matching.drop (matching.length - min n matching.length)).map
            StoredMessage.get) ∧
        (machine.run new ops).mq.copyToFrom cursor out =
          out ++ matching.map StoredMessage.get := by
  have hord := (ordered_run ops).1
  have hcur : CursorOrdered (machine.run new ops).mq.queue :=
    MessageQueue.RefinesCursor.cursorOrdered refinesCursor_arrivedBefore hord
  refine ⟨hord, fun cursor out => ⟨fun n => ?_, MessageQueue.copyToFrom_eq hcur cursor out⟩⟩
  rw [MessageQueue.copyTo_eq hcur, List.rtake]
  congr 3
  omega

end QueueState

end WfcPubsub
