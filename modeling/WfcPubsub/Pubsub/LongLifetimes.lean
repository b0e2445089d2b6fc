import WfcPubsub.MessageQueue.Retention
import WfcPubsub.Pubsub.Lifetime

/-!
# Long lifetimes

The death time of a message is the sum of its birthtime and its lifetime. Both can come from the
client, neither is bounded, and the sum is one of `time_t`: a lifetime meant to last forever puts
the death of a message before its birth, and the next expiry removes it.

Published with another lifetime, a message leaves the same queue behind but for the messages that
carry the lifetime (`MessageQueue.push_lifetime`): the new one, or those that an update rewrites.
So what is kept with the longer lifetime includes what is kept with the shorter one unless only
the longer one leaves the range and something carries it.

## Main definitions

* `Contents.Carried` : whether a message behind the push carries the lifetime.

## Main results

* `QueueState.outlives_iff` : when a longer lifetime never means an earlier death.
-/

namespace WfcPubsub

open Contents
open StableOrder (rtake_sublist)

/-- With a lifetime given, `publish` fills in the same whatever it is. -/
theorem Pubsub.complete_lifetime (opt : PubsubOptions) (now : TimeT) (m : Message)
    {l l' : TimeT} (hl : l ≠ 0) (hl' : l' ≠ 0) :
    Pubsub.complete opt now { m with lifetime := l' } =
      { Pubsub.complete opt now { m with lifetime := l } with lifetime := l' } := by
  simp only [Pubsub.complete, beq_iff_eq]
  split_ifs <;> rfl

/-- A message in the queue carries the lifetime of `m` after its push: `m` itself, or one that it
updates and its limit does not cut off. -/
def Contents.Carried (m : Message) (q : List Message) : Prop :=
  Stays m q ∨ m.action = .update ∧ ∃ x ∈ q.rtake m.limit, x.identity = m.identity

/-! ### Every object has its own address -/

namespace MessageQueue

private theorem nodup_publish {queue : List StoredMessage} (hord : CursorOrdered queue)
    (h : (queue.map StoredMessage.addr).Nodup) {m : StoredMessage}
    (hnew : ∀ x ∈ queue, x.addr ≠ m.addr) (now : TimeT) :
    ((ReferenceQueue.publish_ now m queue).map StoredMessage.addr).Nodup := by
  rw [publish_eq_orderedInsert hord, ((List.perm_orderedInsert _ _ _).map _).nodup_iff,
    List.map_cons, bornAt_addr, List.nodup_cons]
  refine ⟨fun hmem => ?_, h⟩
  obtain ⟨x, hx, haddr⟩ := List.mem_map.mp hmem
  exact hnew x hx haddr

private theorem nodup_rewriteOrPublish {queue : List StoredMessage} (hord : CursorOrdered queue)
    (h : (queue.map StoredMessage.addr).Nodup) {m : StoredMessage}
    (hnew : ∀ x ∈ queue, x.addr ≠ m.addr) (now : TimeT) {f : StoredMessage → StoredMessage}
    (hf : ∀ x, (f x).get.cursor = x.get.cursor ∧ (f x).addr = x.addr) :
    ((ReferenceQueue.rewriteOrPublish f now m queue).map StoredMessage.addr).Nodup := by
  have hmap : ((queue.map f).map StoredMessage.addr).Nodup := by
    rw [List.map_map]
    exact (List.map_congr_left fun x _ => (hf x).2) ▸ h
  rw [ReferenceQueue.rewriteOrPublish]
  split
  · refine nodup_publish (hord.map f fun a b hab => ?_) hmap (fun x hx => ?_) now
    · rwa [(hf a).1, (hf b).1]
    · obtain ⟨y, hy, rfl⟩ := List.mem_map.mp hx
      exact (hf y).2 ▸ hnew y hy
  · exact hmap

theorem nodup_push {mq : MessageQueue} (hord : CursorOrdered mq.queue)
    (h : (mq.queue.map StoredMessage.addr).Nodup) {m : StoredMessage}
    (hnew : ∀ x ∈ mq.queue, x.addr ≠ m.addr) (now : TimeT) :
    ((mq.push now m).1.queue.map StoredMessage.addr).Nodup := by
  by_cases hstored : m.get.action = .publish → m.get.unlimited = false
  · have hsub := purge_sublist mq now
    have hord' : CursorOrdered (mq.purge now).queue := hord.sublist hsub
    have hpurged := h.sublist (hsub.map StoredMessage.addr)
    have hnew' : ∀ x ∈ (mq.purge now).queue, x.addr ≠ m.addr := fun x hx =>
      hnew x (hsub.subset hx)
    have hothers : (ReferenceQueue.removeIdentity m.get (mq.purge now).queue).Sublist
        (mq.purge now).queue := List.filter_sublist
    have hreplaced := nodup_publish (hord'.sublist hothers)
      (hpurged.sublist (hothers.map _)) (fun x hx => hnew' x (hothers.subset hx)) now
    rw [push_queue_eq mq now hstored]
    refine List.Nodup.sublist ((rtake_sublist _ _).map _) ?_
    rw [ReferenceQueue.dispatch]
    split
    · exact nodup_publish hord' hpurged hnew' now
    · refine nodup_rewriteOrPublish hord' hpurged hnew' now fun x => ?_
      rw [fModifyIfIdentityEqual]
      split <;> simp
    · refine nodup_rewriteOrPublish hord' hpurged hnew' now fun x => ?_
      rw [fUpdateIfIdentityEqual]
      split <;> simp
    · exact hreplaced
    · split
      · exact hreplaced
      · exact hpurged.sublist (hothers.map _)
  · obtain ⟨hact, hun⟩ := Classical.not_imp.mp hstored
    exact h.sublist ((push_queue_of_unlimited mq now hact (by simpa using hun)).map _)

end MessageQueue

theorem QueueState.nodup_run (ops : List QueueOp) :
    ((machine.run new ops).mq.queue.map StoredMessage.addr).Nodup := by
  refine (Machine.invariant_run (M := machine)
    (I := fun s => s.Ordered ∧ (s.mq.queue.map StoredMessage.addr).Nodup)
    (fun s op h => ⟨ordered_step s op h.1, ?_⟩) (s := new)
    ⟨⟨.nil, List.forall_mem_nil _⟩, .nil⟩ ops).2
  have hsub : ∀ q : List StoredMessage, q.Sublist s.mq.queue →
      (q.map StoredMessage.addr).Nodup := fun q hq => h.2.sublist (hq.map _)
  cases op with
  | push now m =>
    exact MessageQueue.nodup_push
      (MessageQueue.RefinesCursor.cursorOrdered refinesCursor_arrivedBefore h.1.1) h.2
      (fun x hx => (h.1.2 x hx).ne) now
  | removeDeath now => exact hsub _ (MessageQueue.removeDeath_sublist _ _)
  | resize limit => exact hsub _ (MessageQueue.resize_sublist _ _)
  | clear => exact .nil
  | getRemoved reset => cases reset <;> exact h.2

/-! ### Two lifetimes -/

namespace MessageQueue

/-- The new message is the one that `insert_` has put into the queue. -/
theorem eq_bornAt_of_mem_push {mq : MessageQueue} {m x : StoredMessage} {now : TimeT}
    (hnew : ∀ x ∈ mq.queue, x.addr ≠ m.addr) (hx : x ∈ (mq.push now m).1.queue)
    (haddr : x.addr = m.addr) : x = bornAt now m := by
  refine forall_mem_push (P := fun x => x.addr = m.addr → x = bornAt now m)
    (fun y hy h => absurd h (hnew y hy)) (fun _ => rfl) (fun _ y hy _ h => ?_)
    (fun _ y hy _ h => ?_) x hx haddr
  · exact absurd h (hnew y hy)
  · exact absurd h (hnew y hy)

theorem push_queue_of_limit_eq_zero {mq : MessageQueue} {now : TimeT} {m : StoredMessage}
    (h : m.get.limit = 0) : (mq.push now m).1.queue = [] := by
  have hun : m.get.unlimited = true := by
    rw [Message.unlimited, h, beq_self_eq_true, Bool.or_true]
  simp only [push, h, hun, if_true]
  split <;> rw [resize_queue, List.rtake_zero]

/-- Which objects an expiry keeps. -/
theorem exists_mem_removeDeath_iff {mq : MessageQueue} (h : mq.Sequenced) {t : TimeT} {b : ℕ} :
    (∃ x ∈ (mq.removeDeath t).queue, x.addr = b) ↔
      ∃ x ∈ mq.queue, x.addr = b ∧ t ≤ x.get.deathtime := by
  rw [removeDeath_queue h]
  simp only [List.mem_filter, fDeathtimeLess, Bool.not_eq_true', decide_eq_false_iff_not, not_lt,
    and_assoc]
  exact exists_congr fun x => and_congr_right fun _ => and_comm

/-- Give `l'` for a lifetime to the object `a`, and to the messages that an update rewrites. -/
private def relive (a : ℕ) (m : Message) (l' : TimeT) (x : StoredMessage) : StoredMessage :=
  if x.addr = a ∨ m.action = .update ∧ x.get.identity = m.identity then
    { x with get := { x.get with lifetime := l' } }
  else x

section Relive

variable {a : ℕ} {m : Message} {l' : TimeT} {queue : List StoredMessage}

private theorem map_relive_eq_self
    (h : ∀ x ∈ queue, x.addr ≠ a ∧ (m.action = .update → x.get.identity ≠ m.identity)) :
    queue.map (relive a m l') = queue := by
  refine (List.map_congr_left fun x hx => if_neg ?_).trans (List.map_id queue)
  rintro (haddr | ⟨hact, hid⟩)
  · exact (h x hx).1 haddr
  · exact (h x hx).2 hact hid

private theorem publish_relive (now : TimeT)
    (h : ∀ x ∈ queue, x.addr ≠ a ∧ (m.action = .update → x.get.identity ≠ m.identity)) :
    ReferenceQueue.publish_ now ⟨a, { m with lifetime := l' }⟩ queue =
      (ReferenceQueue.publish_ now ⟨a, m⟩ queue).map (relive a m l') := by
  have hnew : relive a m l' (bornAt now ⟨a, m⟩) = bornAt now ⟨a, { m with lifetime := l' }⟩ := by
    rw [relive, if_pos (Or.inl (bornAt_addr now ⟨a, m⟩)), bornAt, bornAt]
    dsimp only
    split <;> rfl
  rw [ReferenceQueue.publish_, ReferenceQueue.publish_, List.map_insertIdx, hnew,
    map_relive_eq_self h]

/-- Rewriting with the one message or the other. -/
private theorem rewriteOrPublish_relive (now : TimeT) (hlife : m.lifetime ≠ 0) (hl' : l' ≠ 0)
    {f f' : StoredMessage → StoredMessage}
    (hrewrite : ∀ x ∈ queue, f' x = relive a m l' (f x))
    (hf : ∀ x, x.get.identity ≠ m.identity → f x = x) (hnew : ∀ x ∈ queue, x.addr ≠ a) :
    ReferenceQueue.rewriteOrPublish f' now ⟨a, { m with lifetime := l' }⟩ queue =
      (ReferenceQueue.rewriteOrPublish f now ⟨a, m⟩ queue).map (relive a m l') := by
  have hmap : queue.map f' = (queue.map f).map (relive a m l') := by
    rw [List.map_map]
    exact List.map_congr_left hrewrite
  rw [ReferenceQueue.rewriteOrPublish, ReferenceQueue.rewriteOrPublish]
  by_cases hnone : queue.countP (fIdentityEqual m) = 0
  · -- Nothing is rewritten, and the new message is inserted.
    have hid : ∀ x ∈ queue, x.get.identity ≠ m.identity := by
      simpa [List.countP_eq_zero, fIdentityEqual] using hnone
    have hsame : queue.map f = queue :=
      (List.map_congr_left fun x hx => hf x (hid x hx)).trans (List.map_id queue)
    have hothers : ∀ x ∈ queue, x.addr ≠ a ∧ (m.action = .update → x.get.identity ≠ m.identity) :=
      fun x hx => ⟨hnew x hx, fun _ => hid x hx⟩
    rw [if_pos ⟨hl', hnone⟩, if_pos ⟨hlife, hnone⟩, hmap, hsame, map_relive_eq_self hothers]
    exact publish_relive now hothers
  · rw [if_neg fun hcond => hnone hcond.2, if_neg fun hcond => hnone hcond.2, hmap]

private theorem dispatch_relive (now : TimeT) (hlife : m.lifetime ≠ 0) (hl' : l' ≠ 0)
    (hnew : ∀ x ∈ queue, x.addr ≠ a) {m' : Message} (hm' : m' = { m with lifetime := l' }) :
    ReferenceQueue.dispatch now ⟨a, m'⟩ queue =
      (ReferenceQueue.dispatch now ⟨a, m⟩ queue).map (relive a m l') := by
  have hothers : m.action ≠ .update → ∀ q ⊆ queue,
      ∀ x ∈ q, x.addr ≠ a ∧ (m.action = .update → x.get.identity ≠ m.identity) :=
    fun hne q hq x hx => ⟨hnew x (hq hx), fun hact => absurd hact hne⟩
  have hremove : ReferenceQueue.removeIdentity m queue ⊆ queue := List.filter_sublist.subset
  have hact' : m'.action = m.action := by rw [hm']
  have hlife' : m'.lifetime = l' := by rw [hm']
  rw [ReferenceQueue.dispatch, ReferenceQueue.dispatch]
  simp only [hact', hlife']
  cases hact : m.action with
  | publish =>
    subst hm'
    exact publish_relive now (hothers (by simp [hact]) queue (List.Subset.refl _))
  | modify =>
    subst hm'
    refine rewriteOrPublish_relive now hlife hl' (fun x hx => ?_) (fun x hid => ?_) hnew
    · have haddr : (fModifyIfIdentityEqual m x).addr = x.addr := by
        rw [fModifyIfIdentityEqual]
        split <;> rfl
      rw [relive, if_neg]
      · rfl
      · rintro (heq | ⟨hupdate, -⟩)
        · exact hnew x hx (haddr ▸ heq)
        · cases hact.symm.trans hupdate
    · rw [fModifyIfIdentityEqual, fIdentityEqual, if_neg (by simpa using hid)]
  | update =>
    subst hm'
    refine rewriteOrPublish_relive now hlife hl' (fun x hx => ?_) (fun x hid => ?_) hnew
    · rw [fUpdateIfIdentityEqual, fUpdateIfIdentityEqual, fIdentityEqual, fIdentityEqual]
      by_cases hid : x.get.identity = m.identity
      · rw [if_pos (by simpa using hid), if_pos (by simpa using hid), relive,
          if_pos (Or.inr ⟨hact, by simpa using hid⟩), Message.update_eq, Message.update_eq]
      · rw [if_neg (by simpa using hid), if_neg (by simpa using hid), relive, if_neg]
        exact fun hcond => hcond.elim (hnew x hx) fun h => hid h.2
    · rw [fUpdateIfIdentityEqual, fIdentityEqual, if_neg (by simpa using hid)]
  | replace =>
    subst hm'
    exact publish_relive now (hothers (by simp [hact]) _ hremove)
  | remove =>
    subst hm'
    dsimp only
    rw [if_pos hlife, if_pos hl']
    exact publish_relive now (hothers (by simp [hact]) _ hremove)

/-- Pushed with another lifetime, a message leaves the same queue behind but for the messages that
carry it. -/
private theorem push_lifetime {mq : MessageQueue} (now : TimeT) (hlife : m.lifetime ≠ 0)
    (hl' : l' ≠ 0) (hnew : ∀ x ∈ mq.queue, x.addr ≠ a) :
    (mq.push now ⟨a, { m with lifetime := l' }⟩).1.queue =
      (mq.push now ⟨a, m⟩).1.queue.map (relive a m l') := by
  have hnew' : ∀ x ∈ (mq.purge now).queue, x.addr ≠ a := fun x hx =>
    hnew x ((purge_sublist mq now).subset hx)
  by_cases hlimit : m.limit = 0
  · rw [push_queue_of_limit_eq_zero (m := ⟨a, m⟩) hlimit,
      push_queue_of_limit_eq_zero (m := ⟨a, { m with lifetime := l' }⟩) hlimit, List.map_nil]
  · have hun : ∀ l, l ≠ 0 → ({ m with lifetime := l } : Message).unlimited = false := fun l hl =>
      Message.unlimited_eq_false_iff.mpr ⟨hl, hlimit⟩
    rw [push_queue_eq mq now fun _ => hun l' hl', push_queue_eq mq now fun _ => hun m.lifetime hlife,
      dispatch_relive now hlife hl' hnew' rfl, StableOrder.rtake_map]

/-- The messages that carry the lifetime. -/
private theorem carries {mq : MessageQueue} (h : mq.WellFormed) (hnew : ∀ x ∈ mq.queue, x.addr ≠ a)
    {now : TimeT} (hborn : (Contents.bornAt now m).birthtime = m.birthtime) {x : StoredMessage}
    (hx : x ∈ (mq.push now ⟨a, m⟩).1.queue)
    (hcarries : x.addr = a ∨ m.action = .update ∧ x.get.identity = m.identity) :
    x.get.birthtime = m.birthtime ∧ x.get.lifetime = m.lifetime := by
  have hnewest : x.get = Contents.bornAt now m →
      x.get.birthtime = m.birthtime ∧ x.get.lifetime = m.lifetime := by
    intro heq
    obtain ⟨t, ht⟩ := bornAt_eq now m
    exact ⟨heq ▸ hborn, by rw [heq, ht]⟩
  rcases hcarries with haddr | ⟨hact, hid⟩
  · refine hnewest ?_
    rw [eq_bornAt_of_mem_push (m := ⟨a, m⟩) hnew hx haddr, bornAt_get]
  · have hmem : x.get ∈ store now m (mq.foundAt now) :=
      messages_push h now ⟨a, m⟩ ▸ List.mem_map_of_mem hx
    cases origin_store hmem with
    | kept _ hpublish => cases hact.symm.trans (hpublish hid)
    | born heq => exact hnewest heq
    | modified _ _ _ hmodify => cases hact.symm.trans hmodify
    | updated y _ _ _ heq =>
      rw [heq, Message.update_eq]
      exact ⟨rfl, rfl⟩

/-- Each expiry that keeps an object keeps it with the other lifetime as well, unless that means an
earlier death and something carries it. -/
private theorem kept_lifetime_iff {mq : MessageQueue} (h : mq.WellFormed)
    (hnodup : (mq.queue.map StoredMessage.addr).Nodup) (hnew : ∀ x ∈ mq.queue, x.addr ≠ a)
    {now : TimeT} (hborn : (Contents.bornAt now m).birthtime = m.birthtime)
    (hlife : m.lifetime ≠ 0) (hl' : l' ≠ 0) :
    (∀ t b, (∃ x ∈ ((mq.push now ⟨a, m⟩).1.removeDeath t).queue, x.addr = b) →
        ∃ x ∈ ((mq.push now ⟨a, { m with lifetime := l' }⟩).1.removeDeath t).queue, x.addr = b) ↔
      m.deathtime ≤ ({ m with lifetime := l' } : Message).deathtime ∨
        ¬ ∃ x ∈ (mq.push now ⟨a, m⟩).1.queue,
          x.addr = a ∨ m.action = .update ∧ x.get.identity = m.identity := by
  set q := (mq.push now ⟨a, m⟩).1.queue with hq
  have hkept' : ∀ t b,
      (∃ x ∈ ((mq.push now ⟨a, { m with lifetime := l' }⟩).1.removeDeath t).queue, x.addr = b) ↔
        ∃ x ∈ q, x.addr = b ∧ t ≤ (relive a m l' x).get.deathtime := by
    intro t b
    have haddr : ∀ x, (relive a m l' x).addr = x.addr := by
      intro x
      rw [relive]
      split <;> rfl
    rw [exists_mem_removeDeath_iff (h.sequenced.push now _), push_lifetime now hlife hl' hnew, ← hq]
    simp only [List.mem_map, exists_exists_and_eq_and, haddr]
  have hcarried : ∀ x ∈ q, (x.addr = a ∨ m.action = .update ∧ x.get.identity = m.identity) →
      x.get.deathtime = m.deathtime ∧
        (relive a m l' x).get.deathtime = ({ m with lifetime := l' } : Message).deathtime := by
    intro x hx hcarries
    obtain ⟨hbirth, hlife⟩ := carries h hnew hborn hx hcarries
    rw [relive, if_pos hcarries, Message.deathtime, Message.deathtime, Message.deathtime,
      Message.deathtime, hbirth, hlife]
    exact ⟨rfl, rfl⟩
  simp only [exists_mem_removeDeath_iff (h.sequenced.push now ⟨a, m⟩), ← hq, hkept']
  constructor
  · intro hall
    refine or_iff_not_imp_right.mpr fun hexists => ?_
    obtain ⟨x, hx, hcarries⟩ := not_not.mp hexists
    obtain ⟨y, hy, haddr, hle⟩ := hall x.get.deathtime x.addr ⟨x, hx, rfl, le_rfl⟩
    -- There is only one object of this address.
    obtain rfl := List.inj_on_of_nodup_map (nodup_push h.ordered hnodup hnew now) hy hx haddr
    obtain ⟨hdeath, hdeath'⟩ := hcarried y hx hcarries
    rwa [hdeath, hdeath'] at hle
  · rintro hcond t b ⟨x, hx, haddr, ht⟩
    refine ⟨x, hx, haddr, ?_⟩
    by_cases hcarries : x.addr = a ∨ m.action = .update ∧ x.get.identity = m.identity
    · obtain ⟨hdeath, hdeath'⟩ := hcarried x hx hcarries
      rw [hdeath] at ht
      rw [hdeath']
      exact ht.trans (hcond.resolve_right fun hnone => hnone ⟨x, hx, hcarries⟩)
    · rwa [relive, if_neg hcarries]

/-- Whether something carries the lifetime. -/
private theorem exists_carries_iff {mq : MessageQueue} (h : mq.WellFormed)
    (hnew : ∀ x ∈ mq.queue, x.addr ≠ a) (now : TimeT) (hlife : m.lifetime ≠ 0) :
    (∃ x ∈ (mq.push now ⟨a, m⟩).1.queue,
        x.addr = a ∨ m.action = .update ∧ x.get.identity = m.identity) ↔
      Carried m (mq.foundAt now) := by
  have hstays := stays_push_iff h (m := ⟨a, m⟩) hnew hlife now
  have hmem : ∀ y, (∃ x ∈ (mq.push now ⟨a, m⟩).1.queue, x.get = y) ↔
      y ∈ store now m (mq.foundAt now) := fun y =>
    List.mem_map.symm.trans (messages_push h now ⟨a, m⟩ ▸ Iff.rfl)
  have hrewritten : m.action = .update → (∃ y ∈ mq.foundAt now, y.identity = m.identity) →
      store now m (mq.foundAt now) =
        rewrite Message.update m ((mq.foundAt now).rtake m.limit) := by
    intro hact hfound
    rw [store_of_ne_publish (by simp [hact]), place, hact]
    dsimp only
    rw [rewriteOrInsert_of_exists hfound, rtake_rewrite]
  constructor
  · rintro ⟨x, hx, haddr | ⟨hact, hid⟩⟩
    · exact Or.inl (hstays.mp ⟨x, hx, haddr⟩)
    · have hxmem := (hmem x.get).mp ⟨x, hx, rfl⟩
      by_cases hfound : ∃ y ∈ mq.foundAt now, y.identity = m.identity
      · rw [hrewritten hact hfound] at hxmem
        obtain ⟨y, hy, heq⟩ := List.mem_map.mp hxmem
        refine Or.inr ⟨hact, y, hy, ?_⟩
        by_contra hne
        rw [if_neg hne] at heq
        exact hne (heq ▸ hid)
      · -- The message of the identity is the one inserted, so the limit has left room for it.
        have hnone : ∀ y ∈ mq.foundAt now, y.identity ≠ m.identity := fun y hy heq =>
          hfound ⟨y, hy, heq⟩
        refine Or.inl ?_
        rw [Stays, hact]
        refine ⟨hnone, not_le.mp fun hcut => ?_⟩
        rw [store_of_ne_publish (by simp [hact]), place, hact] at hxmem
        dsimp only at hxmem
        rw [rewriteOrInsert_of_forall_ne hnone, if_pos hlife, insert_eq (h.ordered_foundAt now),
          StableOrder.rtake_append_cons, ← behind, if_pos hcut] at hxmem
        exact hnone _ (List.mem_of_mem_filter ((rtake_sublist _ _).subset hxmem)) hid
  · rintro (hstay | ⟨hact, y, hy, hid⟩)
    · obtain ⟨x, hx, haddr⟩ := hstays.mpr hstay
      exact ⟨x, hx, Or.inl haddr⟩
    · have hfound : ∃ y ∈ mq.foundAt now, y.identity = m.identity :=
        ⟨y, (rtake_sublist _ _).subset hy, hid⟩
      obtain ⟨x, hx, heq⟩ := (hmem (y.update m)).mpr
        (hrewritten hact hfound ▸ List.mem_map.mpr ⟨y, hy, if_pos hid⟩)
      exact ⟨x, hx, Or.inr ⟨hact, by rw [heq, Message.update_identity, hid]⟩⟩

end Relive

end MessageQueue

namespace QueueState

/-- **When a longer lifetime never means an earlier death.** Of a message published with two
lifetimes at one time, each expiry that keeps an object where the lifetime is the shorter one keeps
it where it is the longer one, if and only if the death time of the longer one fits `time_t`, or
that of the shorter one does not fit either, or nothing in the queue carries the lifetime. That both
death times fit as well is so exactly where the longer one does. -/
theorem outlives_iff (ops : List QueueOp) (opt : PubsubOptions) (now : TimeT) (m : Message)
    (l l' : TimeT) (hpos : 0 < l) (hle : l ≤ l') (hl' : Representable l')
    (hnow : Representable now) (hbirth : Representable m.birthtime) :
    let s := machine.run new ops
    let published := fun l : TimeT => Pubsub.complete opt now { m with lifetime := l }
    let kept := fun (l t : TimeT) (a : ℕ) =>
      ∃ x ∈ ((machine.step s (.push now (published l))).1.mq.removeDeath t).queue, x.addr = a
    let fits := fun l : TimeT => Representable ((published l).birthtime + (published l).lifetime)
    let birthtime := if m.birthtime = 0 then now else m.birthtime
    ((∀ t a, kept l t a → kept l' t a) ↔
      birthtime + l' < 2 ^ 63 ∨ 2 ^ 63 ≤ birthtime + l ∨
        ¬ Carried (published l) (s.mq.foundAt now)) ∧
    ((∀ t a, kept l t a → kept l' t a) ∧ fits l ∧ fits l' ↔ birthtime + l' < 2 ^ 63) := by
  intro s published kept fits birthtime
  have hne : l ≠ 0 := hpos.ne'
  have hne' : l' ≠ 0 := (hpos.trans_le hle).ne'
  have hlife : ∀ l, l ≠ 0 → (published l).lifetime = l := fun l hl =>
    congrArg Message.lifetime (Pubsub.complete_lifetime opt now m hl hl)
  have hborn : ∀ l, (published l).birthtime = birthtime := fun l =>
    PubsubState.complete_birthtime opt now { m with lifetime := l }
  have hsame : published l' = { published l with lifetime := l' } :=
    Pubsub.complete_lifetime opt now m hne hne'
  have hrep : Representable birthtime := by
    change Representable (if m.birthtime = 0 then now else m.birthtime)
    split
    · exact hnow
    · exact hbirth
  have hnew : ∀ x ∈ s.mq.queue, x.addr ≠ s.pushes := fun x hx => ((ordered_run ops).2 x hx).ne
  have hdeath : (published l).deathtime ≤ (published l').deathtime ↔
      birthtime + l' < 2 ^ 63 ∨ 2 ^ 63 ≤ birthtime + l := by
    have hiff := @Message.deathtime_le_iff (published l) (published l')
    rw [hborn, hborn, hlife l hne, hlife l' hne'] at hiff
    exact hiff hrep rfl hpos hle hl'
  have hbornAt : (bornAt now (published l)).birthtime = (published l).birthtime := by
    rw [PubsubState.bornAt_complete, hborn]
  have hkept : (∀ t a, kept l t a → kept l' t a) ↔ birthtime + l' < 2 ^ 63 ∨
      2 ^ 63 ≤ birthtime + l ∨ ¬ Carried (published l) (s.mq.foundAt now) := by
    have hlifes : (published l).lifetime ≠ 0 := (hlife l hne).trans_ne hne
    rw [← or_assoc, ← hdeath, ← MessageQueue.exists_carries_iff (wellFormed_run ops) hnew now hlifes,
      hsame]
    have hiff := MessageQueue.kept_lifetime_iff (wellFormed_run ops) (nodup_run ops) hnew hbornAt
      hlifes hne'
    rw [← hsame] at hiff ⊢
    exact hiff
  refine ⟨hkept, ?_⟩
  have hfits : ∀ l, l ≠ 0 → (fits l ↔ Representable (birthtime + l)) := by
    intro l hl
    change Representable _ ↔ _
    rw [hborn, hlife l hl]
  rw [hkept, hfits l hne, hfits l' hne']
  constructor
  · exact fun h => h.2.2.2
  · intro h
    have hfit : ∀ k, 0 < k → k ≤ l' → Representable (birthtime + k) := fun k hk hkl =>
      ⟨hrep.1.trans (le_add_of_nonneg_right hk.le), (add_le_add_right hkl birthtime).trans_lt h⟩
    exact ⟨Or.inl h, hfit l hpos hle, hfit l' (hpos.trans_le hle) le_rfl⟩

/-- A message meant to live forever dies before its birth, also where it updates a stored one. -/
theorem not_outlives :
    let m : Message := { limit := 10, identity := "a" }
    let published := fun (m : Message) (l : TimeT) =>
      Pubsub.complete {} 100 { m with lifetime := l }
    let s := machine.run new [.push 99 { m with lifetime := 60 }]
    let kept := fun (s : QueueState) (m : Message) (l t : TimeT) (a : ℕ) =>
      ∃ x ∈ ((machine.step s (.push 100 (published m l))).1.mq.removeDeath t).queue, x.addr = a
    (kept new m 60 101 0 ∧ ¬ kept new m (2 ^ 63 - 1) 101 0) ∧
      (kept s { m with action := .update } 60 101 0 ∧
        ¬ kept s { m with action := .update } (2 ^ 63 - 1) 101 0) ∧
      (published m (2 ^ 63 - 1)).deathtime = 99 - 2 ^ 63 := by
  decide

theorem outlives_iff_minutes :
    let s := machine.run new [.push 99 { limit := 10, lifetime := 60 }]
    let m : Message := { limit := 10 }
    let published := fun l : TimeT => Pubsub.complete {} 100 { m with lifetime := l }
    let kept := fun (l t : TimeT) (a : ℕ) =>
      ∃ x ∈ ((machine.step s (.push 100 (published l))).1.mq.removeDeath t).queue, x.addr = a
    let fits := fun l : TimeT => Representable ((published l).birthtime + (published l).lifetime)
    let birthtime : TimeT := if m.birthtime = 0 then 100 else m.birthtime
    ((∀ t a, kept 60 t a → kept 120 t a) ↔
      birthtime + 120 < 2 ^ 63 ∨ 2 ^ 63 ≤ birthtime + 60 ∨
        ¬ Carried (published 60) (s.mq.foundAt 100)) ∧
    ((∀ t a, kept 60 t a → kept 120 t a) ∧ fits 60 ∧ fits 120 ↔ birthtime + 120 < 2 ^ 63) :=
  outlives_iff [.push 99 { limit := 10, lifetime := 60 }] {} 100 { limit := 10 } 60 120
    (by decide) (by decide) (by decide) (by decide) (by decide)

end QueueState

end WfcPubsub
