import Mathlib.Data.List.InsertIdx
import WfcPubsub.MessageQueue.Basic

/-!
# The expiry shortcut

`message_queue::remove_death` stops at the first live message when `_sequenced_flag` is set.
`ReferenceQueue` is the same queue without the flag: its `removeDeath` scans all messages. The
shortcut is sound because the flag implies that all stored messages die at the same time
(`MessageQueue.Sequenced`): `publish_` keeps it only beside a neighbour with the death time of
the new message, and the check that sets it again compares all neighbours for equality.

## Main definitions

* `MessageQueue.Sequenced` : the invariant behind the flag.
* `ReferenceQueue` : the queue that always scans.

## Main results

* `MessageQueue.removeDeath_queue` : under the invariant exactly the dead messages go.
* `QueueState.sequenced_run` : the invariant holds in every reachable state.
* `QueueState.sequencedFlag_unobservable` : no run tells the two queues apart.
-/

namespace WfcPubsub

namespace MessageQueue

/-- While the flag is set, all stored messages have one death time. -/
def Sequenced (mq : MessageQueue) : Prop :=
  mq.sequencedFlag = true → ∃ t, ∀ m ∈ mq.queue, m.get.deathtime = t

/-- A step that only drops messages and leaves the flag alone keeps the invariant. -/
theorem Sequenced.of_subset {mq mq' : MessageQueue} (h : mq.Sequenced)
    (hflag : mq'.sequencedFlag = true → mq.sequencedFlag = true)
    (hsub : ∀ m ∈ mq'.queue, m ∈ mq.queue) : mq'.Sequenced := fun hf =>
  (h (hflag hf)).imp fun _ ht m hm => ht m (hsub m hm)

/-! ### `remove_death` -/

theorem popFrontDead_eq (now : TimeT) (queue : List StoredMessage) (removed : ℕ)
    (hasRemoved : Bool) :
    popFrontDead now queue removed hasRemoved =
      (queue.dropWhile (fDeathtimeLess now),
        removed + (queue.takeWhile (fDeathtimeLess now)).length,
        hasRemoved || !(queue.takeWhile (fDeathtimeLess now)).isEmpty) := by
  induction queue generalizing removed hasRemoved with
  | nil => simp [popFrontDead]
  | cons m queue ih =>
    by_cases hm : fDeathtimeLess now m
    · simp [popFrontDead, hm, ih, Nat.add_assoc, Nat.add_comm]
    · simp [popFrontDead, hm]

/-- The last loop sets the flag only where all death times agree. -/
theorem deathtime_eq_of_checkSequence {m : StoredMessage} {queue : List StoredMessage}
    (h : checkSequence (m :: queue)) : ∀ x ∈ queue, x.get.deathtime = m.get.deathtime := by
  induction queue generalizing m with
  | nil => simp
  | cons next queue ih =>
    simp only [checkSequence, inSequence, Bool.and_eq_true, beq_iff_eq] at h
    obtain ⟨⟨hd, -⟩, hrest⟩ := h
    intro x hx
    rcases List.mem_cons.mp hx with rfl | hx
    · exact hd.symm
    · exact (ih hrest x hx).trans hd.symm

/-- The dead messages in front of the first live one are the only dead ones if the flag is set. -/
private theorem dropWhile_dead_eq_filter {mq : MessageQueue} (h : mq.Sequenced)
    (hflag : mq.sequencedFlag = true) (now : TimeT) :
    mq.queue.dropWhile (fDeathtimeLess now) =
      mq.queue.filter fun m => !fDeathtimeLess now m := by
  obtain ⟨t, ht⟩ := h hflag
  by_cases hnow : t < now
  · have hall : ∀ m ∈ mq.queue, fDeathtimeLess now m := fun m hm => by
      simpa [fDeathtimeLess, ht m hm] using hnow
    rw [List.dropWhile_eq_nil_iff.mpr hall, eq_comm, List.filter_eq_nil_iff]
    simpa using hall
  · have hall : ∀ m ∈ mq.queue, ¬ fDeathtimeLess now m := fun m hm => by
      simpa [fDeathtimeLess, ht m hm] using hnow
    rw [List.filter_eq_self.mpr (by simpa using hall), List.dropWhile_eq_self_iff]
    exact fun hl => hall _ (List.getElem_mem hl)

/-- Popping dead messages off the front changes nothing for a scan. -/
private theorem filter_dropWhile_dead (now : TimeT) (queue : List StoredMessage) :
    (queue.dropWhile (fDeathtimeLess now)).filter (fun m => !fDeathtimeLess now m) =
      queue.filter fun m => !fDeathtimeLess now m := by
  induction queue with
  | nil => rfl
  | cons m queue ih =>
    by_cases hm : fDeathtimeLess now m
    · simpa [hm] using ih
    · simp [hm]

/-- `remove_death` keeps exactly the live messages, in their order. -/
theorem removeDeath_queue {mq : MessageQueue} (h : mq.Sequenced) (now : TimeT) :
    (mq.removeDeath now).queue = mq.queue.filter fun m => !fDeathtimeLess now m := by
  simp only [removeDeath, popFrontDead_eq]
  split
  · exact filter_dropWhile_dead now mq.queue
  · next hcond =>
    by_cases hflag : mq.sequencedFlag = true
    · exact dropWhile_dead_eq_filter h hflag now
    · have hnil : mq.queue.dropWhile (fDeathtimeLess now) = [] := by simpa [hflag] using hcond
      rw [← filter_dropWhile_dead, hnil, List.filter_nil]

/-- With a live message in front, or none, and no dead one behind it that a scan would find, there
is nothing to do. -/
private theorem removeDeath_eq_self {mq : MessageQueue} {now : TimeT}
    (hfront : mq.queue.dropWhile (fDeathtimeLess now) = mq.queue)
    (hscan : mq.sequencedFlag = false → ∀ m ∈ mq.queue, fDeathtimeLess now m = false) :
    mq.removeDeath now = mq := by
  have htake : mq.queue.takeWhile (fDeathtimeLess now) = [] := by
    rw [List.dropWhile_eq_self_iff] at hfront
    simpa [List.takeWhile_eq_nil_iff] using hfront
  simp only [removeDeath, popFrontDead_eq, hfront, htake]
  split
  · next hcond =>
    have hflag : mq.sequencedFlag = false := by
      simpa using ((Bool.and_eq_true _ _).mp hcond).1
    have hfilter : (mq.queue.filter fun m => !fDeathtimeLess now m) = mq.queue :=
      List.filter_eq_self.mpr fun m hm => by rw [hscan hflag m hm, Bool.not_false]
    simp [hfilter]
  · rfl

/-- A second `remove_death` at the same time finds nothing to do. -/
theorem removeDeath_removeDeath (mq : MessageQueue) (now : TimeT) :
    (mq.removeDeath now).removeDeath now = mq.removeDeath now := by
  have hlive : ∀ m ∈ mq.queue.filter fun m => !fDeathtimeLess now m,
      fDeathtimeLess now m = false := fun m hm => by
    simpa using (List.mem_filter.mp hm).2
  apply removeDeath_eq_self
  · simp only [removeDeath, popFrontDead_eq]
    split
    · rw [filter_dropWhile_dead, List.dropWhile_eq_self_iff]
      exact fun hl => Bool.not_eq_true _ ▸ hlive _ (List.getElem_mem hl)
    · exact List.dropWhile_idempotent _ _
  · simp only [removeDeath, popFrontDead_eq]
    split
    · intro _
      rwa [filter_dropWhile_dead]
    · next hcond =>
      intro (hflag : mq.sequencedFlag = false)
      have hnil : mq.queue.dropWhile (fDeathtimeLess now) = [] := by simpa [hflag] using hcond
      simp [hnil]

/-- Every message that leaves is counted once. -/
theorem removeDeath_removed (mq : MessageQueue) (now : TimeT) :
    (mq.removeDeath now).removed = mq.removed + (mq.size - (mq.removeDeath now).size) := by
  have hsplit := congrArg List.length
    (List.takeWhile_append_dropWhile (p := fDeathtimeLess now) (l := mq.queue))
  rw [List.length_append] at hsplit
  simp only [removeDeath, popFrontDead_eq, size]
  split
  · have := List.length_filter_le (fun m => !fDeathtimeLess now m)
      (mq.queue.dropWhile (fDeathtimeLess now))
    dsimp only
    omega
  · dsimp only
    omega

@[simp] theorem removeDeath_lastRemoveDeath (mq : MessageQueue) (now : TimeT) :
    (mq.removeDeath now).lastRemoveDeath = mq.lastRemoveDeath := by
  simp only [removeDeath]
  split <;> rfl

/-- `remove_death` only drops messages. -/
theorem removeDeath_sublist (mq : MessageQueue) (now : TimeT) :
    (mq.removeDeath now).queue.Sublist mq.queue := by
  simp only [removeDeath, popFrontDead_eq]
  split
  · exact List.filter_sublist.trans (List.dropWhile_sublist _)
  · exact List.dropWhile_sublist _

theorem Sequenced.removeDeath {mq : MessageQueue} (h : mq.Sequenced) (now : TimeT) :
    (mq.removeDeath now).Sequenced := by
  by_cases hflag : mq.sequencedFlag = true
  · exact h.of_subset (fun _ => hflag) fun m hm =>
      (removeDeath_sublist mq now).subset hm
  · -- The flag was off, so if it is on now the last loop or an almost empty queue set it.
    simp only [MessageQueue.removeDeath, popFrontDead_eq]
    split
    · intro hf
      dsimp only at hf ⊢
      generalize (mq.queue.dropWhile (fDeathtimeLess now)).filter
        (fun m => !fDeathtimeLess now m) = queue at hf ⊢
      match queue with
      | [] => exact ⟨0, by simp⟩
      | [m] => exact ⟨m.get.deathtime, by simp⟩
      | m :: next :: queue =>
        have hcheck : checkSequence (m :: next :: queue) := by
          split_ifs at hf with h1 h2
          · exact hf
          · simp at h2
          · exact absurd hf hflag
        refine ⟨m.get.deathtime, fun x hx => ?_⟩
        rcases List.mem_cons.mp hx with rfl | hx
        · rfl
        · exact deathtime_eq_of_checkSequence hcheck x hx
    · exact fun hf => absurd hf hflag

end MessageQueue

/-! ### The queue that always scans -/

/-- `message_queue` without `_sequenced_flag`. -/
structure ReferenceQueue where
  queue : List StoredMessage := []
  lastRemoveDeath : TimeT := 0
  removed : ℕ := 0

namespace ReferenceQueue

open MessageQueue (upperBound bornAt)

/-- Scan the whole queue and drop every message that died before `now`. -/
def removeDeath (now : TimeT) (rq : ReferenceQueue) : ReferenceQueue :=
  let queue := rq.queue.filter fun m => !fDeathtimeLess now m
  { rq with queue := queue, removed := rq.removed + (rq.queue.length - queue.length) }

def resize (limit : ℕ) (rq : ReferenceQueue) : ReferenceQueue :=
  if rq.queue.length ≤ limit then rq
  else
    let queue := rq.queue.drop (rq.queue.length - limit)
    { rq with queue := queue, removed := rq.removed + rq.queue.length - queue.length }

def clear (rq : ReferenceQueue) : ReferenceQueue := { rq with queue := [] }

def getRemoved (reset : Bool) (rq : ReferenceQueue) : ReferenceQueue × ℕ :=
  (if reset then { rq with removed := 0 } else rq, rq.removed)

/-- The stored messages after `publish_`. -/
def publish_ (now : TimeT) (m : StoredMessage) (queue : List StoredMessage) :
    List StoredMessage :=
  queue.insertIdx (upperBound m.get.cursor queue) (bornAt now m)

/-- The stored messages after `update_` or `modify_`, `f` being the effect of the functor. -/
def rewriteOrPublish (f : StoredMessage → StoredMessage) (now : TimeT) (m : StoredMessage)
    (queue : List StoredMessage) : List StoredMessage :=
  if m.get.lifetime ≠ 0 ∧ queue.countP (fIdentityEqual m.get) = 0 then
    publish_ now m (queue.map f)
  else queue.map f

/-- The stored messages after `remove_(now, const message&)`. -/
def removeIdentity (m : Message) (queue : List StoredMessage) : List StoredMessage :=
  queue.filter fun msg => !fIdentityEqual m msg

/-- The stored messages after the `switch` of `push`. -/
def dispatch (now : TimeT) (m : StoredMessage) (queue : List StoredMessage) :
    List StoredMessage :=
  match m.get.action with
  | .publish => publish_ now m queue
  | .modify => rewriteOrPublish (fModifyIfIdentityEqual m.get) now m queue
  | .update => rewriteOrPublish (fUpdateIfIdentityEqual now m.get) now m queue
  | .replace => publish_ now m (removeIdentity m.get queue)
  | .remove =>
    if m.get.lifetime ≠ 0 then publish_ now m (removeIdentity m.get queue)
    else removeIdentity m.get queue

/-- `push`, with the scan for `remove_death`. -/
def push (now : TimeT) (m : StoredMessage) (rq : ReferenceQueue) :
    ReferenceQueue × Option StoredMessage :=
  let rq :=
    if rq.lastRemoveDeath ≠ now then { rq.removeDeath now with lastRemoveDeath := now } else rq
  if m.get.action = .publish then
    let rq := if m.get.limit = 0 then rq.resize 0 else rq
    if m.get.unlimited then (rq, some m)
    else ((({ rq with queue := dispatch now m rq.queue } : ReferenceQueue).resize m.get.limit),
      none)
  else ((({ rq with queue := dispatch now m rq.queue } : ReferenceQueue).resize m.get.limit),
    none)

end ReferenceQueue

/-! ### The methods of the queue against those of the reference -/

namespace MessageQueue

/-- Forget the flag. -/
def toReference (mq : MessageQueue) : ReferenceQueue where
  queue := mq.queue
  lastRemoveDeath := mq.lastRemoveDeath
  removed := mq.removed

/-- `publish_` inserts the message and decides about the flag; nothing else changes. -/
theorem publish_toReference (mq : MessageQueue) (now : TimeT) (m : StoredMessage) :
    (mq.publish_ now m).toReference =
      { mq.toReference with queue := ReferenceQueue.publish_ now m mq.queue } :=
  rfl

private theorem rewriteOrPublish_toReference {mq mq' : MessageQueue}
    {f : StoredMessage → StoredMessage} (now : TimeT) (m : StoredMessage)
    (h : mq'.toReference = { mq.toReference with queue := mq.queue.map f }) :
    (if m.get.lifetime ≠ 0 ∧ mq.queue.countP (fIdentityEqual m.get) = 0 then mq'.publish_ now m
      else mq').toReference =
    { mq.toReference with queue := ReferenceQueue.rewriteOrPublish f now m mq.queue } := by
  have hq : mq'.queue = mq.queue.map f := congrArg ReferenceQueue.queue h
  rw [ReferenceQueue.rewriteOrPublish]
  split
  · rw [publish_toReference, h, hq]
  · exact h

/-- The `switch` changes the stored messages as in the reference, and no counter. -/
theorem dispatch_toReference (mq : MessageQueue) (now : TimeT) (m : StoredMessage) :
    (mq.dispatch now m).toReference =
      { mq.toReference with queue := ReferenceQueue.dispatch now m mq.queue } := by
  simp only [dispatch, ReferenceQueue.dispatch]
  cases m.get.action with
  | publish => exact publish_toReference mq now m
  | modify =>
    refine rewriteOrPublish_toReference now m ?_
    split <;> rfl
  | update =>
    refine rewriteOrPublish_toReference now m ?_
    split <;> rfl
  | replace => exact publish_toReference (mq.removeIdentity m.get) now m
  | remove =>
    simp only [remove_]
    split
    · exact publish_toReference (mq.removeIdentity m.get) now m
    · rfl

/-- The stored messages after the `switch`. -/
theorem dispatch_queue (mq : MessageQueue) (now : TimeT) (m : StoredMessage) :
    (mq.dispatch now m).queue = ReferenceQueue.dispatch now m mq.queue :=
  congrArg ReferenceQueue.queue (dispatch_toReference mq now m)

theorem resize_toReference (mq : MessageQueue) (limit : ℕ) :
    (mq.resize limit).toReference = mq.toReference.resize limit := by
  rw [resize, apply_ite toReference]
  rfl

/-- Under the invariant the shortcut and the scan agree. -/
theorem removeDeath_toReference {mq : MessageQueue} (h : mq.Sequenced) (now : TimeT) :
    (mq.removeDeath now).toReference = mq.toReference.removeDeath now := by
  have hrem := removeDeath_removed mq now
  simp only [size, removeDeath_queue h] at hrem
  simp only [toReference, ReferenceQueue.removeDeath, removeDeath_queue h, hrem,
    removeDeath_lastRemoveDeath]

theorem push_toReference {mq : MessageQueue} (h : mq.Sequenced) (now : TimeT)
    (m : StoredMessage) :
    (mq.push now m).1.toReference = (mq.toReference.push now m).1 ∧
      (mq.push now m).2 = (mq.toReference.push now m).2 := by
  have hpurge : (mq.purge now).toReference =
      if mq.toReference.lastRemoveDeath ≠ now then
        { mq.toReference.removeDeath now with lastRemoveDeath := now }
      else mq.toReference := by
    rw [purge, ← removeDeath_toReference h, apply_ite toReference]
    rfl
  have hclear (q : MessageQueue) : (if m.get.limit = 0 then q.resize 0 else q).toReference =
      if m.get.limit = 0 then q.toReference.resize 0 else q.toReference := by
    rw [← resize_toReference, apply_ite toReference]
  have hdispatch (q : MessageQueue) : ((q.dispatch now m).resize m.get.limit).toReference =
      ReferenceQueue.resize m.get.limit
        { q.toReference with queue := ReferenceQueue.dispatch now m q.toReference.queue } := by
    rw [resize_toReference, dispatch_toReference]
    rfl
  simp only [push, ReferenceQueue.push, ← hpurge, ← hclear, ← hdispatch]
  split
  · split <;> exact ⟨rfl, rfl⟩
  · exact ⟨rfl, rfl⟩

/-! ### The invariant along runs -/

/-- Where the flag survives `publish_`, the new message dies with a neighbour. -/
private theorem publish_flag {mq : MessageQueue} {now : TimeT} {m : StoredMessage}
    (hf : (mq.publish_ now m).sequencedFlag = true) :
    mq.sequencedFlag = true ∧
      (mq.queue = [] ∨ ∃ x ∈ mq.queue, x.get.deathtime = (bornAt now m).get.deathtime) := by
  have hle : upperBound m.get.cursor mq.queue ≤ mq.queue.length := Bisection.bisect_le_length ..
  obtain ⟨hflag, hcheck⟩ := (Bool.and_eq_true _ _).mp hf
  refine ⟨hflag, ?_⟩
  change checkNeighbours now (mq.queue.insertIdx (upperBound m.get.cursor mq.queue)
    (bornAt now m)) (upperBound m.get.cursor mq.queue) = true at hcheck
  generalize upperBound m.get.cursor mq.queue = itr at hcheck hle
  rw [checkNeighbours, List.getElem?_insertIdx_self, if_pos (by omega), Option.all_some] at hcheck
  obtain ⟨hprev, hnext⟩ := (Bool.and_eq_true _ _).mp hcheck
  cases itr with
  | zero =>
    -- Inserted in front: the neighbour is the old head.
    cases hq : mq.queue with
    | nil => exact Or.inl rfl
    | cons x queue =>
      simp [hq] at hnext
      exact Or.inr ⟨x, List.mem_cons_self, hnext.1⟩
  | succ i =>
    have hi : i < mq.queue.length := by omega
    rw [Nat.add_sub_cancel, List.getElem?_insertIdx_of_lt (by omega),
      List.getElem?_eq_getElem hi] at hprev
    simp at hprev
    exact Or.inr ⟨mq.queue[i], List.getElem_mem hi, hprev.1⟩

theorem Sequenced.publish_ {mq : MessageQueue} (h : mq.Sequenced) (now : TimeT)
    (m : StoredMessage) : (mq.publish_ now m).Sequenced := by
  intro hf
  obtain ⟨hflag, hnear⟩ := publish_flag hf
  obtain ⟨t, ht⟩ := h hflag
  have hmem : ∀ x ∈ (mq.publish_ now m).queue, x = bornAt now m ∨ x ∈ mq.queue :=
    fun x hx => List.eq_or_mem_of_mem_insertIdx hx
  rcases hnear with hnil | ⟨y, hy, hty⟩
  · refine ⟨(bornAt now m).get.deathtime, fun x hx => ?_⟩
    rcases hmem x hx with rfl | hx
    · rfl
    · simp [hnil] at hx
  · refine ⟨t, fun x hx => ?_⟩
    rcases hmem x hx with rfl | hx
    · rw [← hty, ht y hy]
    · exact ht x hx

theorem Sequenced.removeIdentity {mq : MessageQueue} (h : mq.Sequenced) (m : Message) :
    (mq.removeIdentity m).Sequenced :=
  h.of_subset id fun _ hx => List.mem_of_mem_filter hx

theorem Sequenced.modify_ {mq : MessageQueue} (h : mq.Sequenced) (now : TimeT)
    (m : StoredMessage) : (mq.modify_ now m).Sequenced := by
  -- `modify` changes no death time, whatever it decides about the flag.
  have hmap : ∀ flag, (flag = true → mq.sequencedFlag = true) →
      ({ mq with
        queue := mq.queue.map (fModifyIfIdentityEqual m.get)
        sequencedFlag := flag } : MessageQueue).Sequenced := by
    intro flag hflag hf
    obtain ⟨t, ht⟩ := h (hflag hf)
    refine ⟨t, fun x hx => ?_⟩
    obtain ⟨y, hy, rfl⟩ := List.mem_map.mp hx
    rw [fModifyIfIdentityEqual, ← ht y hy]
    split
    · exact Message.modify_deathtime _ _
    · rfl
  have hmq : (if mq.sequencedFlag && (mq.queue.any fun msg =>
        fIdentityEqual m.get msg && msg.get.limit != m.get.limit) then
        { mq with queue := mq.queue.map (fModifyIfIdentityEqual m.get), sequencedFlag := false }
      else { mq with queue := mq.queue.map (fModifyIfIdentityEqual m.get) }).Sequenced := by
    split
    · exact hmap false (by simp)
    · exact hmap mq.sequencedFlag id
  rw [MessageQueue.modify_]
  split
  · exact hmq.publish_ now m
  · exact hmq

theorem Sequenced.update_ {mq : MessageQueue} (h : mq.Sequenced) (now : TimeT)
    (m : StoredMessage) : (mq.update_ now m).Sequenced := by
  have hmq : (if mq.queue.countP (fIdentityEqual m.get) > 0 then
        { mq with
          queue := mq.queue.map (fUpdateIfIdentityEqual now m.get), sequencedFlag := false }
      else { mq with queue := mq.queue.map (fUpdateIfIdentityEqual now m.get) }).Sequenced := by
    split
    · exact fun hf => absurd hf (by simp)
    · next hcount =>
      -- No match: the functor has changed nothing.
      have hnone : ∀ x ∈ mq.queue, fIdentityEqual m.get x = false := by
        simpa [List.countP_eq_zero] using hcount
      refine h.of_subset id fun x hx => ?_
      obtain ⟨y, hy, rfl⟩ := List.mem_map.mp hx
      simpa [fUpdateIfIdentityEqual, hnone y hy] using hy
  rw [MessageQueue.update_]
  split
  · exact hmq.publish_ now m
  · exact hmq

theorem Sequenced.dispatch {mq : MessageQueue} (h : mq.Sequenced) (now : TimeT)
    (m : StoredMessage) : (mq.dispatch now m).Sequenced := by
  rw [MessageQueue.dispatch]
  split
  · exact h.publish_ now m
  · exact h.modify_ now m
  · exact h.update_ now m
  · exact (h.removeIdentity m.get).publish_ now m
  · rw [remove_]
    split
    · exact (h.removeIdentity m.get).publish_ now m
    · exact h.removeIdentity m.get

theorem Sequenced.resize {mq : MessageQueue} (h : mq.Sequenced) (limit : ℕ) :
    (mq.resize limit).Sequenced := by
  rw [MessageQueue.resize]
  split
  · exact h
  · exact h.of_subset id fun x hx => List.mem_of_mem_drop hx

theorem Sequenced.purge {mq : MessageQueue} (h : mq.Sequenced) (now : TimeT) :
    (mq.purge now).Sequenced := by
  rw [MessageQueue.purge]
  split
  · exact h.removeDeath now
  · exact h

theorem Sequenced.push {mq : MessageQueue} (h : mq.Sequenced) (now : TimeT)
    (m : StoredMessage) : (mq.push now m).1.Sequenced := by
  have hp := h.purge now
  simp only [MessageQueue.push]
  split
  · split
    · split
      · exact hp.resize 0
      · exact hp
    · split
      · exact ((hp.resize 0).dispatch now m).resize _
      · exact (hp.dispatch now m).resize _
  · exact (hp.dispatch now m).resize _

end MessageQueue

namespace QueueState

open MessageQueue (Sequenced)

theorem sequenced_step (s : QueueState) (op : QueueOp) (h : s.mq.Sequenced) :
    (machine.step s op).1.mq.Sequenced := by
  cases op with
  | push now m => exact h.push now _
  | removeDeath now => exact h.removeDeath now
  | resize limit => exact h.resize limit
  | clear => exact h.of_subset id fun m hm => by simp [step, machine, MessageQueue.clear] at hm
  | getRemoved reset =>
    simp only [machine, step, MessageQueue.getRemoved]
    cases reset <;> exact h

/-- The invariant behind the flag holds in every reachable state. -/
theorem sequenced_run (ops : List QueueOp) : (machine.run new ops).mq.Sequenced :=
  Machine.invariant_run (I := fun s : QueueState => s.mq.Sequenced) sequenced_step
    (fun _ => ⟨0, by simp [new, MessageQueue.new]⟩) ops

end QueueState

/-! ### The run of the reference -/

/-- The reference queue with the number of messages pushed so far. -/
structure ReferenceState where
  rq : ReferenceQueue := {}
  pushes : ℕ := 0

namespace ReferenceState

def new : ReferenceState := {}

def step (s : ReferenceState) : QueueOp → ReferenceState × Option StoredMessage
  | .push now m =>
    let (rq, result) := s.rq.push now ⟨s.pushes, m⟩
    (⟨rq, s.pushes + 1⟩, result)
  | .removeDeath now => ({ s with rq := s.rq.removeDeath now }, none)
  | .resize limit => ({ s with rq := s.rq.resize limit }, none)
  | .clear => ({ s with rq := s.rq.clear }, none)
  | .getRemoved reset => ({ s with rq := (s.rq.getRemoved reset).1 }, none)

def view (s : ReferenceState) (result : Option StoredMessage) : QueueView where
  messages := s.rq.queue
  size := s.rq.queue.length
  removed := (s.rq.getRemoved false).2
  result := result

def machine : Machine ReferenceState QueueOp QueueView where
  step s op := ((s.step op).1, (s.step op).1.view (s.step op).2)

end ReferenceState

namespace QueueState

/-- The two queues differ in the flag only, and the flag tells the truth. -/
def Simulates (s : QueueState) (r : ReferenceState) : Prop :=
  s.mq.Sequenced ∧ s.mq.toReference = r.rq ∧ s.pushes = r.pushes

private theorem simulates_step (s : QueueState) (r : ReferenceState) (op : QueueOp)
    (h : s.Simulates r) :
    (machine.step s op).1.Simulates (ReferenceState.machine.step r op).1 ∧
      (machine.step s op).2 = (ReferenceState.machine.step r op).2 := by
  have hstep : (s.step op).1.mq.toReference = (r.step op).1.rq ∧
      (s.step op).1.pushes = (r.step op).1.pushes ∧ (s.step op).2 = (r.step op).2 := by
    obtain ⟨rq, n⟩ := r
    obtain ⟨hseq, rfl, rfl⟩ := h
    cases op with
    | push now m =>
      obtain ⟨h1, h2⟩ := MessageQueue.push_toReference hseq now ⟨s.pushes, m⟩
      exact ⟨h1, rfl, h2⟩
    | removeDeath now => exact ⟨MessageQueue.removeDeath_toReference hseq now, rfl, rfl⟩
    | resize limit => exact ⟨MessageQueue.resize_toReference s.mq limit, rfl, rfl⟩
    | clear => exact ⟨rfl, rfl, rfl⟩
    | getRemoved reset => cases reset <;> exact ⟨rfl, rfl, rfl⟩
  obtain ⟨href, hn, hres⟩ := hstep
  refine ⟨⟨sequenced_step s op h.1, href, hn⟩, ?_⟩
  simp only [machine, ReferenceState.machine, view, ReferenceState.view, ← href, hres]
  rfl

/-- **The expiry shortcut is unobservable.** Along every run the stored messages in their
order, the size, the number of removed messages and the result of each call are those of the
queue that always scans; and in every state reached `remove_death` drops the dead messages and
only them. -/
theorem sequencedFlag_unobservable (ops : List QueueOp) :
    machine.trace new ops = ReferenceState.machine.trace .new ops ∧
      ∀ now, ((machine.run new ops).mq.removeDeath now).queue =
        (machine.run new ops).mq.queue.filter fun m => !decide (m.get.deathtime < now) := by
  refine ⟨Machine.trace_eq_of_simulation simulates_step ⟨?_, rfl, rfl⟩ ops, fun now => ?_⟩
  · exact sequenced_run []
  · exact MessageQueue.removeDeath_queue (sequenced_run ops) now

end QueueState

end WfcPubsub
