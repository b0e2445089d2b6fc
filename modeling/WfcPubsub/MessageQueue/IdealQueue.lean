import Mathlib.Data.List.Chain
import WfcPubsub.MessageQueue.Specification

/-!
# The ideal queue

By the comment of the class, a queue is in order of time if its messages have one lifetime and
increasing birthtimes; then `remove_death` is fast. The flag asks for more. All three places
that decide about it compare *death* times for equality, so it stays set only while all stored
messages were born at the same time.

Along an ideal run the flag survives a push where the clock stands still, or where it has moved
beyond the death of all earlier messages, which have then left an empty queue
(`QueueState.sequenced_push_iff`). The check at the end of `remove_death` sets the flag again
where the remaining messages have one birthtime.

## Main definitions

* `IdealRun` : the pushes that the comment calls ideal.

## Main results

* `MessageQueue.checkSequence_iff` : what the last loop of `remove_death` checks.
* `QueueState.sequenced_ideal_iff` : when the flag is set in an ideal queue.
-/

namespace WfcPubsub

open StableOrder (rtake_sublist)

namespace MessageQueue

/-! ### What the three checks compare -/

/-- The last loop of `remove_death` passes where all messages die together and are in order of
birth. -/
theorem checkSequence_iff {queue : List StoredMessage} :
    checkSequence queue = true ↔ queue.Pairwise fun a b =>
      a.get.deathtime = b.get.deathtime ∧ a.get.birthtime ≤ b.get.birthtime := by
  have : IsTrans StoredMessage fun a b =>
      a.get.deathtime = b.get.deathtime ∧ a.get.birthtime ≤ b.get.birthtime :=
    ⟨fun _ _ _ hab hbc => ⟨hab.1.trans hbc.1, hab.2.trans hbc.2⟩⟩
  rw [← List.isChain_iff_pairwise]
  induction queue with
  | nil => simp [checkSequence]
  | cons m queue ih =>
    cases queue with
    | nil => simp [checkSequence]
    | cons next queue =>
      simp only [checkSequence, inSequence, Bool.and_eq_true, beq_iff_eq, decide_eq_true_eq, ih,
        List.isChain_cons_cons]

/-- Where `remove_death` has dropped a message and left others, its last loop decides about the
flag. -/
theorem removeDeath_sequencedFlag {mq : MessageQueue} (h : mq.Sequenced) {now : TimeT}
    (hsize : (mq.removeDeath now).size < mq.size) (hne : (mq.removeDeath now).queue ≠ []) :
    (mq.removeDeath now).sequencedFlag = checkSequence (mq.removeDeath now).queue := by
  -- With the flag set all messages die together, so either none or all of them go.
  have hflag : mq.sequencedFlag = false := by
    by_contra hset
    obtain ⟨t, ht⟩ := h (Bool.eq_true_of_not_eq_false hset)
    rw [removeDeath_queue h] at hne
    obtain ⟨x, hx⟩ := List.exists_mem_of_ne_nil _ hne
    obtain ⟨hxmem, hxlive⟩ := List.mem_filter.mp hx
    have hall : ∀ y ∈ mq.queue, (!fDeathtimeLess now y) = true := fun y hy => by
      rw [fDeathtimeLess, ht y hy, ← ht x hxmem]
      exact hxlive
    rw [size, size, removeDeath_queue h, List.filter_eq_self.mpr hall] at hsize
    exact lt_irrefl _ hsize
  have hsplit := congrArg List.length
    (List.takeWhile_append_dropWhile (p := fDeathtimeLess now) (l := mq.queue))
  rw [List.length_append] at hsplit
  simp only [removeDeath, popFrontDead_eq, hflag, size, Bool.not_false, Bool.true_and]
    at hsize hne ⊢
  generalize mq.queue.takeWhile (fDeathtimeLess now) = dead at *
  generalize mq.queue.dropWhile (fDeathtimeLess now) = queue at *
  split at hsize
  · next hcond =>
    rw [if_pos hcond] at hne ⊢
    dsimp only at hsize hne ⊢
    generalize queue.filter (fun m => !fDeathtimeLess now m) = live at *
    have hremoved : (false || !dead.isEmpty || queue.length != live.length) = true := by
      by_contra hnone
      have hnil : dead = [] ∧ queue.length = live.length := by simpa using hnone
      rw [hnil.1, List.length_nil] at hsplit
      omega
    rw [if_pos hremoved]
    rcases live with _ | ⟨m, _ | ⟨next, live⟩⟩
    · rfl
    · rfl
    · exact if_pos (by simp)
  · next hcond =>
    rw [if_neg hcond] at hne
    exact absurd (by simpa using hcond) hne

/-- A message published at the end is compared with the message before it. -/
theorem publish_of_forall_le {mq : MessageQueue} (h : CursorOrdered mq.queue) {m : StoredMessage}
    (hcur : ∀ x ∈ mq.queue, x.get.cursor ≤ m.get.cursor) (now : TimeT) :
    (mq.publish_ now m).queue = mq.queue ++ [bornAt now m] ∧
      (mq.publish_ now m).sequencedFlag =
        (mq.sequencedFlag && mq.queue.getLast?.all fun prev =>
          prev.get.deathtime == (bornAt now m).get.deathtime && prev.get.birthtime ≤ now) := by
  have hend : upperBound m.get.cursor mq.queue = mq.queue.length := by
    rw [upperBound, Bisection.bisect_eq_length_takeWhile (partitioned_upperBound h _),
      List.takeWhile_eq_self_iff.mpr]
    intro x hx
    simpa using hcur x hx
  have hinsert : (mq.publish_ now m).queue = mq.queue ++ [bornAt now m] := by
    change mq.queue.insertIdx (upperBound m.get.cursor mq.queue) (bornAt now m) = _
    rw [hend, List.insertIdx_length_self]
  refine ⟨hinsert, ?_⟩
  change (mq.sequencedFlag && checkNeighbours now (mq.publish_ now m).queue
    (upperBound m.get.cursor mq.queue)) = _
  rw [hinsert, hend, checkNeighbours]
  rcases List.eq_nil_or_concat mq.queue with hnil | ⟨queue, prev, hconcat⟩
  · simp [hnil]
  · simp [hconcat]

@[simp] theorem resize_sequencedFlag (mq : MessageQueue) (limit : ℕ) :
    (mq.resize limit).sequencedFlag = mq.sequencedFlag := by
  rw [resize]
  split <;> rfl

end MessageQueue

/-! ### Ideal runs -/

/-- The time and the message of a push in an ideal run. -/
structure IdealPush (lifetime : TimeT) (p : TimeT × Message) : Prop where
  action : p.2.action = .publish
  limit : 0 < p.2.limit
  lifetime_eq : p.2.lifetime = lifetime
  birthtime : p.2.birthtime = 0
  clock : Representable p.1

/-- Publish pushes with one lifetime, the clock and the cursors never decreasing. -/
structure IdealRun (lifetime : TimeT) (pushes : List (TimeT × Message)) : Prop where
  lifetime_pos : 0 < lifetime
  push : ∀ p ∈ pushes, IdealPush lifetime p
  sorted : pushes.IsChain fun p q => p.1 ≤ q.1 ∧ p.2.cursor ≤ q.2.cursor

theorem IdealRun.of_append {lifetime : TimeT} {pushes rest : List (TimeT × Message)}
    (h : IdealRun lifetime (pushes ++ rest)) : IdealRun lifetime pushes where
  lifetime_pos := h.lifetime_pos
  push p hp := h.push p (List.mem_append_left _ hp)
  sorted := (List.isChain_append.mp h.sorted).1

theorem IdealRun.last_le {lifetime : TimeT} {pushes : List (TimeT × Message)}
    {p q : TimeT × Message} (h : IdealRun lifetime (pushes ++ [p] ++ [q])) :
    p.1 ≤ q.1 ∧ p.2.cursor ≤ q.2.cursor :=
  (List.isChain_append.mp h.sorted).2.2 p (by simp) q (by simp)

/-- Two pushes of an ideal run at one value of the clock, or so far apart that the first message
has died before the second one comes. -/
def KeepsFlag (p q : TimeT × Message) : Prop :=
  p.1 = q.1 ∨ (p.2.reborn p.1).deathtime < q.1

namespace MessageQueue

/-- What the latest push of an ideal run leaves. -/
structure LeftBy (p : TimeT × Message) (mq : MessageQueue) : Prop where
  last : mq.queue.getLast?.map StoredMessage.get = some (p.2.reborn p.1)
  cursor : ∀ x ∈ mq.queue, x.get.cursor ≤ p.2.cursor
  purged : mq.lastRemoveDeath = p.1

variable {lifetime : TimeT} {q : TimeT × Message} {mq : MessageQueue}

/-- A push of an ideal run appends its message to what is found. -/
theorem push_of_idealPush (hq : IdealPush lifetime q) (hlife : 0 < lifetime)
    (hwf : mq.WellFormed) (hcur : ∀ x ∈ mq.queue, x.get.cursor ≤ q.2.cursor) (addr : ℕ) :
    (mq.push q.1 ⟨addr, q.2⟩).1.queue =
        ((mq.purge q.1).queue ++ [(⟨addr, q.2.reborn q.1⟩ : StoredMessage)]).rtake q.2.limit ∧
      (mq.push q.1 ⟨addr, q.2⟩).1.sequencedFlag =
        ((mq.purge q.1).sequencedFlag && (mq.purge q.1).queue.getLast?.all fun prev =>
          prev.get.deathtime == (q.2.reborn q.1).deathtime && prev.get.birthtime ≤ q.1) := by
  have hlim : q.2.limit ≠ 0 := hq.limit.ne'
  have hun : q.2.unlimited = false :=
    Message.unlimited_eq_false_iff.mpr ⟨hq.lifetime_eq ▸ hlife.ne', hlim⟩
  have hborn : bornAt q.1 ⟨addr, q.2⟩ = ⟨addr, q.2.reborn q.1⟩ := by
    rw [bornAt, if_pos (by simp [hq.birthtime])]
  have hsub := purge_sublist mq q.1
  obtain ⟨hqueue, hflag⟩ := publish_of_forall_le (m := ⟨addr, q.2⟩) (hwf.ordered.sublist hsub)
    (fun x hx => hcur x (hsub.subset hx)) q.1
  simp only [push, hq.action, hlim, hun, if_true, if_false, Bool.false_eq_true, dispatch,
    resize_queue, resize_sequencedFlag, hqueue, hflag, hborn, and_self]

/-- The first push finds an empty queue and keeps the flag. -/
theorem sequencedFlag_push_new (hq : IdealPush lifetime q) (hlife : 0 < lifetime) (addr : ℕ) :
    (new.push q.1 ⟨addr, q.2⟩).1.sequencedFlag = true := by
  have hpurge : (new.purge q.1).sequencedFlag = true ∧ (new.purge q.1).queue = [] := by
    rw [purge]
    split <;> exact ⟨rfl, rfl⟩
  rw [(push_of_idealPush hq hlife wellFormed_new (List.forall_mem_nil _) addr).2, hpurge.1,
    hpurge.2]
  rfl

theorem LeftBy.push (hq : IdealPush lifetime q) (hlife : 0 < lifetime) (hwf : mq.WellFormed)
    (hcur : ∀ x ∈ mq.queue, x.get.cursor ≤ q.2.cursor) (addr : ℕ) :
    (mq.push q.1 ⟨addr, q.2⟩).1.LeftBy q := by
  have hqueue := (push_of_idealPush hq hlife hwf hcur addr).1
  refine ⟨?_, fun x hx => ?_, push_lastRemoveDeath mq q.1 _⟩
  · have hlim := hq.limit
    rw [hqueue, List.rtake, List.getLast?_drop, if_neg (by simp; omega), List.getLast?_concat]
    rfl
  · rw [hqueue] at hx
    rcases List.mem_append.mp ((rtake_sublist _ _).subset hx) with hx | hx
    · exact hcur x ((purge_sublist mq q.1).subset hx)
    · rw [List.mem_singleton.mp hx]
      exact le_rfl

/-- The step of an ideal run: whether the next push keeps the flag. -/
theorem LeftBy.sequencedFlag_push {p : TimeT × Message} (h : mq.LeftBy p)
    (hflag : mq.sequencedFlag = true) (hwf : mq.WellFormed) (hlife : 0 < lifetime)
    (hp : IdealPush lifetime p) (hq : IdealPush lifetime q) (hclock : p.1 ≤ q.1)
    (hcursor : p.2.cursor ≤ q.2.cursor) (addr : ℕ) :
    (mq.push q.1 ⟨addr, q.2⟩).1.sequencedFlag = true ↔ KeepsFlag p q := by
  have hdeath : (p.2.reborn p.1).deathtime = (q.2.reborn q.1).deathtime ↔ p.1 = q.1 :=
    Message.deathtime_eq_iff (hp.lifetime_eq.trans hq.lifetime_eq.symm) hp.clock hq.clock
  obtain ⟨last, hlast, hget⟩ := Option.map_eq_some_iff.mp h.last
  have hmem : last ∈ mq.queue := List.mem_of_getLast? hlast
  -- What the comparison with the last message comes to, if that one is still there.
  have hcompare : (mq.queue.getLast?.all fun prev =>
      prev.get.deathtime == (q.2.reborn q.1).deathtime && prev.get.birthtime ≤ q.1) = true ↔
      p.1 = q.1 := by
    rw [hlast, Option.all_some, hget, Bool.and_eq_true, beq_iff_eq, hdeath, decide_eq_true_eq]
    exact and_iff_left hclock
  rw [(push_of_idealPush hq hlife hwf (fun x hx => (h.cursor x hx).trans hcursor) addr).2]
  by_cases hsame : p.1 = q.1
  · have hpurge : mq.purge q.1 = mq := if_neg (not_not.mpr (h.purged.trans hsame))
    rw [hpurge, hflag, Bool.true_and, hcompare]
    exact ⟨Or.inl, fun _ => hsame⟩
  · have hpurge : mq.purge q.1 = { mq.removeDeath q.1 with lastRemoveDeath := q.1 } :=
      if_pos fun heq => hsame (h.purged.symm.trans heq)
    have hset : (mq.removeDeath q.1).sequencedFlag = true := by
      simp [removeDeath, hflag]
    obtain ⟨t, ht⟩ := hwf.sequenced hflag
    have hlate : (p.2.reborn p.1).deathtime = t := by rw [← hget, ht last hmem]
    rw [hpurge, hset, Bool.true_and]
    dsimp only
    rw [removeDeath_queue hwf.sequenced, KeepsFlag, hlate]
    by_cases hdead : t < q.1
    · -- All earlier messages have died.
      rw [List.filter_eq_nil_iff.mpr fun x hx => by simp [fDeathtimeLess, ht x hx, hdead]]
      exact ⟨fun _ => Or.inr hdead, fun _ => rfl⟩
    · rw [List.filter_eq_self.mpr fun x hx => by simp [fDeathtimeLess, ht x hx, hdead], hcompare]
      exact ⟨Or.inl, fun h => h.resolve_right hdead⟩

end MessageQueue

namespace QueueState

open MessageQueue (LeftBy)

/-- The calls of a run that only pushes. -/
def pushOps (pushes : List (TimeT × Message)) : List QueueOp :=
  pushes.map fun p => .push p.1 p.2

theorem run_pushOps_concat (pushes : List (TimeT × Message)) (p : TimeT × Message) :
    machine.run new (pushOps (pushes ++ [p])) =
      (machine.step (machine.run new (pushOps pushes)) (.push p.1 p.2)).1 := by
  rw [pushOps, List.map_append, List.map_singleton, Machine.run_concat]
  rfl

theorem leftBy_run {lifetime : TimeT} {pushes : List (TimeT × Message)} {p : TimeT × Message}
    (h : IdealRun lifetime (pushes ++ [p])) :
    (machine.run new (pushOps (pushes ++ [p]))).mq.LeftBy p := by
  induction pushes using List.reverseRecOn generalizing p with
  | nil =>
    rw [run_pushOps_concat]
    exact LeftBy.push (h.push p (by simp)) h.lifetime_pos (wellFormed_run _)
      (List.forall_mem_nil _) _
  | append_singleton pushes o ih =>
    have hsorted : o.1 ≤ p.1 ∧ o.2.cursor ≤ p.2.cursor := h.last_le
    rw [run_pushOps_concat]
    exact LeftBy.push (h.push p (by simp)) h.lifetime_pos (wellFormed_run _)
      (fun x hx => ((ih h.of_append).cursor x hx).trans hsorted.2) _

/-- Along an ideal run the flag stays set exactly as long as the clock stands still or passes
the death of what is stored. -/
theorem sequenced_push_iff {lifetime : TimeT} {pushes : List (TimeT × Message)}
    (h : IdealRun lifetime pushes) :
    (∀ before, before <+: pushes →
        (machine.run new (pushOps before)).mq.sequenced = true) ↔ pushes.IsChain KeepsFlag := by
  induction pushes using List.reverseRecOn with
  | nil =>
    simp [pushOps, new, MessageQueue.new, MessageQueue.sequenced]
  | append_singleton pushes q ih =>
    have hq : IdealPush lifetime q := h.push q (by simp)
    have hprefixes : (∀ before, before <+: pushes ++ [q] →
        (machine.run new (pushOps before)).mq.sequenced = true) ↔
        (∀ before, before <+: pushes →
          (machine.run new (pushOps before)).mq.sequenced = true) ∧
        (machine.run new (pushOps (pushes ++ [q]))).mq.sequenced = true := by
      simp only [List.prefix_concat_iff, or_imp, forall_and, forall_eq]
      exact and_comm
    rw [hprefixes, ih h.of_append, run_pushOps_concat]
    rcases List.eq_nil_or_concat' pushes with rfl | ⟨pushes, p, rfl⟩
    · -- The first push finds an empty queue.
      have hfirst : (MessageQueue.push q.1 ⟨0, q.2⟩ .new).1.sequencedFlag = true :=
        MessageQueue.sequencedFlag_push_new hq h.lifetime_pos 0
      exact iff_of_true ⟨List.isChain_nil, hfirst⟩ (List.isChain_singleton _)
    · have hp : IdealPush lifetime p := h.push p (by simp)
      rw [show (pushes ++ [p] ++ [q]).IsChain KeepsFlag ↔ _ from List.isChain_append]
      refine and_congr_right fun hchain => ?_
      have hset := (ih h.of_append).mpr hchain _ List.prefix_rfl
      have hpush := (leftBy_run h.of_append).sequencedFlag_push hset (wellFormed_run _)
        h.lifetime_pos hp hq h.last_le.1 h.last_le.2
        (machine.run new (pushOps (pushes ++ [p]))).pushes
      refine hpush.trans ?_
      simp

/-- **When the ideal queue keeps the fast path.** Along an ideal run the flag is set after every
push if and only if each two pushes in a row come at one value of the clock, or the second one
after the first message has died. In every reachable state, behind a `remove_death` that has
dropped a message and left messages of one lifetime in order of birth, it is set if and only if
all of these were born at the same time. -/
theorem sequenced_ideal_iff (lifetime : TimeT) (pushes : List (TimeT × Message))
    (ops : List QueueOp) (now : TimeT) :
    (IdealRun lifetime pushes →
      ((∀ before, before <+: pushes →
          (machine.run new (pushOps before)).mq.sequenced = true) ↔
        pushes.IsChain KeepsFlag)) ∧
    (let mq := (machine.run new ops).mq
      let remaining := (mq.removeDeath now).messages
      remaining.length < mq.messages.length → remaining ≠ [] →
      (∀ a ∈ remaining, ∀ b ∈ remaining, a.lifetime = b.lifetime) →
      remaining.Pairwise (fun a b => a.birthtime ≤ b.birthtime) →
      (∀ a ∈ remaining, Representable a.birthtime) →
      ((mq.removeDeath now).sequenced = true ↔
        ∀ a ∈ mq.messages, ∀ b ∈ mq.messages,
          now ≤ a.deathtime → now ≤ b.deathtime → a.birthtime = b.birthtime)) := by
  refine ⟨fun h => sequenced_push_iff h, ?_⟩
  intro mq remaining hsize hne hlife hborn hrep
  have hwf : mq.WellFormed := wellFormed_run ops
  have hremaining : remaining = Contents.live now mq.messages :=
    MessageQueue.messages_removeDeath hwf now
  have hmem : ∀ a, a ∈ remaining ↔ a ∈ mq.messages ∧ now ≤ a.deathtime := fun a => by
    rw [hremaining, Contents.mem_live]
  have hflag : (mq.removeDeath now).sequencedFlag =
      MessageQueue.checkSequence (mq.removeDeath now).queue := by
    refine MessageQueue.removeDeath_sequencedFlag hwf.sequenced ?_ ?_
    · simpa [remaining, MessageQueue.messages, MessageQueue.size] using hsize
    · simpa [remaining, MessageQueue.messages] using hne
  have hdeath : ∀ a ∈ remaining, ∀ b ∈ remaining,
      (a.deathtime = b.deathtime ↔ a.birthtime = b.birthtime) := fun a ha b hb =>
    Message.deathtime_eq_iff (hlife a ha b hb) (hrep a ha) (hrep b hb)
  have hpairs : (mq.removeDeath now).sequenced = true ↔
      remaining.Pairwise fun a b => a.deathtime = b.deathtime ∧ a.birthtime ≤ b.birthtime := by
    change _ ↔ ((mq.removeDeath now).queue.map StoredMessage.get).Pairwise _
    rw [MessageQueue.sequenced, hflag, MessageQueue.checkSequence_iff, List.pairwise_map]
  rw [hpairs]
  constructor
  · intro h a ha b hb hla hlb
    have hsame : remaining.Pairwise fun a b => a.birthtime = b.birthtime :=
      h.imp_of_mem fun ha hb hab => (hdeath _ ha _ hb).mp hab.1
    exact List.Pairwise.forall_of_forall_of_flip
      (R := fun a b : Message => a.birthtime = b.birthtime) (fun _ _ => rfl) hsame
      (hsame.imp Eq.symm) ((hmem a).mpr ⟨ha, hla⟩) ((hmem b).mpr ⟨hb, hlb⟩)
  · intro h
    refine hborn.imp_of_mem fun ha hb hle => ⟨(hdeath _ ha _ hb).mpr ?_, hle⟩
    have ha := (hmem _).mp ha
    have hb := (hmem _).mp hb
    exact h _ ha.1 _ hb.1 ha.2 hb.2

/-- Messages published one second apart, each with a lifetime of ten seconds: the flag goes with
the second one and does not come back when the first one has died. -/
theorem not_sequenced_ideal :
    let m : Message := { limit := 10, lifetime := 10 }
    let mq := (machine.run new (pushOps [(100, m), (101, m), (102, m)])).mq
    IdealRun 10 [(100, m), (101, m), (102, m)] ∧
    (machine.run new (pushOps [(100, m), (101, m)])).mq.sequenced = false ∧
    mq.messages.length = 3 ∧
    (mq.removeDeath 111).messages = [m.reborn 101, m.reborn 102] ∧
    (mq.removeDeath 111).sequenced = false := by
  refine ⟨⟨by decide, ?_, by decide⟩, by decide, by decide, by decide, by decide⟩
  simp only [List.forall_mem_cons, List.not_mem_nil, false_imp_iff, implies_true, and_true]
  exact ⟨⟨rfl, by decide, rfl, rfl, by decide⟩, ⟨rfl, by decide, rfl, rfl, by decide⟩,
    ⟨rfl, by decide, rfl, rfl, by decide⟩⟩

theorem sequenced_ideal_iff_sparse :
    let m : Message := { limit := 10, lifetime := 10 }
    let ops := pushOps [(100, m), (105, m), (105, m)]
    (∀ before, before <+: [(100, m), (100, m), (111, m)] →
      (machine.run new (pushOps before)).mq.sequenced = true) ∧
    ((machine.run new ops).mq.removeDeath 112).sequenced = true := by
  intro m ops
  have hpush : ∀ t, Representable t → IdealPush 10 (t, m) := fun t ht =>
    ⟨rfl, Nat.succ_pos 9, rfl, rfl, ht⟩
  obtain ⟨hrun, hdrop⟩ := sequenced_ideal_iff 10 [(100, m), (100, m), (111, m)] ops 112
  refine ⟨(hrun ⟨by decide, ?_, by decide⟩).mpr ?_,
    (hdrop (by decide) (by decide) (by decide) (by decide) (by decide)).mpr (by decide)⟩
  · simp only [List.forall_mem_cons, List.not_mem_nil, false_imp_iff, implies_true, and_true]
    exact ⟨hpush 100 (by decide), hpush 100 (by decide), hpush 111 (by decide)⟩
  · simp only [List.isChain_cons_cons, List.isChain_singleton, and_true]
    exact ⟨Or.inl rfl, Or.inr (by decide)⟩

end QueueState

end WfcPubsub
