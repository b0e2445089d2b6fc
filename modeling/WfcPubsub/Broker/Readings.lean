import WfcPubsub.Broker.Refinement
import WfcPubsub.Broker.Relations
import WfcPubsub.Rocksdb.Agreement

/-!
# Readings go unnoticed

A reading is not without effect: it takes dead messages out of the cache and discards a channel
that is empty then. A later call notices this only if it comes at an earlier time, or if a message
was dead when it was stored: such a message is still found by a push in the same second, unless
a reading comes between. Where no cached message was dead at its publication, what a push finds
are the messages that live at its time, whatever was read before (`Channel.Sound.found_eq`); so
nobody notices readings at earlier times.

## Main definitions

* `Channel.Sound` : no message was dead when the last one was stored.
* `Channel.Alike` : what calls at given times cannot tell apart.
* `PubsubOp.reading`, `PubsubOp.Lively`

## Main results

* `Channel.congruence_alike`, `Broker.Sound.readings`
* `PubsubMt.readings_unnoticed`
-/

namespace WfcPubsub

open Contents

variable {V H : Type}

/-! ### Channels that differ in dead messages -/

/-- A message that `publish` has completed has its birthtime. -/
theorem bornAt_complete_eq (opt : PubsubOptions) (now : TimeT) (msg : Message) :
    bornAt now (Pubsub.complete opt now msg) = Pubsub.complete opt now msg := by
  rw [PubsubState.bornAt_complete]
  simp only [Pubsub.complete, beq_iff_eq]
  split_ifs <;> rfl

namespace Channel

/-- No message was dead when the last one was stored. -/
def Sound (ch : Channel V H) : Prop := ∀ m ∈ ch.messages, ch.pushed ≤ m.deathtime

variable {ch ch' : Channel V H} {now : TimeT}

/-- What a push finds are the live messages. -/
theorem Sound.found_eq (h : ch.Sound) (now : TimeT) : ch.found now = live now ch.messages := by
  rw [found]
  split
  · rfl
  · next heq => exact (live_eq_self fun m hm => not_not.mp heq ▸ h m hm).symm

theorem Sound.cache (h : ch.Sound) {m : Message} (hm : now ≤ (bornAt now m).deathtime)
    (hupdate : m.action = .update → now ≤ m.deathtime) : (ch.cache now m).Sound := by
  intro x hx
  have hfound : ∀ y ∈ ch.found now, now ≤ y.deathtime := fun y hy => by
    rw [h.found_eq] at hy
    exact (mem_live.mp hy).2
  cases origin_store hx with
  | kept hmem hid => exact hfound x hmem
  | born hx => exact hx ▸ hm
  | modified y hy hid hact hx =>
    rw [hx, Message.modify_deathtime]
    exact hfound y hy
  | updated y hy hid hact hx =>
    rw [hx, Message.update_deathtime]
    exact hupdate hact

/-- Where a message is left, the channel is not forgotten. -/
theorem expire_pushed {m : Message} (hm : m ∈ live now ch.messages) :
    (ch.expire now).pushed = ch.pushed :=
  if_neg fun hempty => List.ne_nil_of_mem hm (List.isEmpty_iff.mp hempty)

theorem Sound.expire (h : ch.Sound) (now : TimeT) : (ch.expire now).Sound := by
  intro m hm
  rw [expire_pushed hm]
  exact h m ((live_sublist _ _).subset hm)

theorem Sound.afterLoad (h : ch.Sound) (json : Wjson V) (opt : PubsubOptions) (now : TimeT)
    (cursor : CursorT) (limit : ℕ) : (ch.afterLoad json opt now cursor limit).Sound := by
  rw [Channel.afterLoad]
  split
  · exact h.expire now
  · exact h

theorem Sound.publish (h : ch.Sound) (json : Wjson V) (opt : PubsubOptions) {msg : Message}
    (hlive : Pubsub.Caches opt msg → now ≤ (Pubsub.complete opt now msg).deathtime)
    (name : String) : (ch.publish json opt now name msg).1.Sound := by
  have hlogged : ∀ m, (if Pubsub.Records opt msg then ch.log json m else ch).Sound := by
    intro m
    split
    · rw [log_eq]
      exact h
    · exact h
  rw [publish_fst]
  dsimp only
  split
  · next hcaches =>
    have hlive := hlive hcaches
    exact (hlogged _).cache ((bornAt_complete_eq opt now msg).symm ▸ hlive) fun _ => hlive
  · exact hlogged _

/-- What calls at the times `P` cannot tell apart. -/
structure Alike (P : TimeT → Prop) (ch ch' : Channel V H) : Prop where
  subscribers : ch.subscribers = ch'.subscribers
  logs : ch.logs = ch'.logs
  live : ∀ t, P t → live t ch.messages = live t ch'.messages
  found : ∀ t, P t → ch.found t = ch'.found t

theorem Alike.refl (P : TimeT → Prop) (ch : Channel V H) : ch.Alike P ch :=
  ⟨rfl, rfl, fun _ _ => rfl, fun _ _ => rfl⟩

theorem Alike.trans {P : TimeT → Prop} {ch'' : Channel V H} (h : ch.Alike P ch')
    (h' : ch'.Alike P ch'') : ch.Alike P ch'' where
  subscribers := h.subscribers.trans h'.subscribers
  logs := h.logs.trans h'.logs
  live t ht := (h.live t ht).trans (h'.live t ht)
  found t ht := (h.found t ht).trans (h'.found t ht)

/-- An expiry up to now is not noticed later. -/
theorem Sound.alike_expire (h : ch.Sound) {P : TimeT → Prop} (hnow : ∀ t, P t → now ≤ t) :
    (ch.expire now).Alike P ch := by
  have hlive : ∀ t, P t → Contents.live t (ch.expire now).messages =
      Contents.live t ch.messages := fun t ht => live_live (hnow t ht) ch.messages
  refine ⟨rfl, rfl, hlive, fun t ht => ?_⟩
  rw [(h.expire now).found_eq, h.found_eq, hlive t ht]

section Operations

variable {P : TimeT → Prop} (h : ch.Alike P ch')

include h

/-- After an expiry on both sides. -/
theorem Alike.expire (hnow : P now) : (ch.expire now).Alike P (ch'.expire now) := by
  have hmessages := h.live now hnow
  refine ⟨h.subscribers, h.logs, fun t _ => congrArg (Contents.live t) hmessages, fun t ht => ?_⟩
  -- Where one side has pushed at `t` and the other has not, there is nothing that is dead at `t`.
  have hside : ∀ c : Channel V H, (∀ m ∈ c.found t, t ≤ m.deathtime) →
      (c.expire now).found t = Contents.live t (Contents.live now c.messages) := by
    intro c hc
    rw [Channel.found]
    split
    · rfl
    · next heq =>
      refine (live_eq_self fun m hm => hc m ?_).symm
      rw [expire_pushed hm] at heq
      rw [Channel.found, if_neg heq]
      exact (live_sublist _ _).subset hm
  by_cases hall : ∀ m ∈ ch.found t, t ≤ m.deathtime
  · rw [hside ch hall, hside ch' (h.found t ht ▸ hall), hmessages]
  · have hpushed : ∀ c : Channel V H, ¬ (∀ m ∈ c.found t, t ≤ m.deathtime) → c.pushed = t := by
      intro c hc
      by_contra hne
      rw [Channel.found, if_pos hne] at hc
      exact hc fun m hm => (mem_live.mp hm).2
    simp only [Channel.expire, Channel.found, hmessages, hpushed ch hall,
      hpushed ch' (h.found t ht ▸ hall)]

/-- A push leaves nothing of the difference. -/
theorem Alike.cache (hnow : P now) (m : Message) : (ch.cache now m).Alike P (ch'.cache now m) := by
  have hmessages : (ch.cache now m).messages = (ch'.cache now m).messages :=
    congrArg (store now m) (h.found now hnow)
  refine ⟨h.subscribers, h.logs, fun t _ => congrArg (Contents.live t) hmessages, fun t _ => ?_⟩
  rw [Channel.found, Channel.found, hmessages]
  rfl

theorem Alike.log (json : Wjson V) (m : Message) : (ch.log json m).Alike P (ch'.log json m) := by
  have hroute : ch.route m.lifetime = ch'.route m.lifetime := by rw [route, route, h.logs]
  rw [Channel.log, Channel.log, hroute]
  cases ch'.route m.lifetime with
  | none => exact h
  | some ttl =>
    refine ⟨h.subscribers, ?_, h.live, h.found⟩
    dsimp only
    rw [h.logs]

theorem Alike.publish (json : Wjson V) (opt : PubsubOptions) (hnow : P now) (name : String)
    (msg : Message) :
    (ch.publish json opt now name msg).1.Alike P (ch'.publish json opt now name msg).1 := by
  have hlogged : ∀ m, (if Pubsub.Records opt msg then ch.log json m else ch).Alike P
      (if Pubsub.Records opt msg then ch'.log json m else ch') := by
    intro m
    split
    · exact h.log json m
    · exact h
  rw [publish_fst, publish_fst]
  dsimp only
  split
  · exact (hlogged _).cache hnow _
  · exact hlogged _

theorem Alike.load (json : Wjson V) (opt : PubsubOptions) (hnow : P now) (cursor : CursorT)
    (limit : ℕ) :
    (ch.afterLoad json opt now cursor limit).Alike P (ch'.afterLoad json opt now cursor limit) ∧
      ch.load json opt now cursor limit = ch'.load json opt now cursor limit := by
  have hlogged : ch.logged json opt now = ch'.logged json opt now := by
    rw [logged, logged, h.logs]
  have hreads : ch.Reads json opt now cursor limit ↔ ch'.Reads json opt now cursor limit := by
    rw [Reads, Reads, answered, answered, hlogged]
  constructor
  · rw [afterLoad, afterLoad]
    simp only [hreads]
    split
    · exact h.expire hnow
    · exact h
  · rw [Channel.load, Channel.load, hlogged]
    simp only [hreads, h.live now hnow]

end Operations

/-- Calls at such times keep channels alike, and do not notice the difference. -/
theorem congruence_alike (json : Wjson V) (opt : PubsubOptions) (P : TimeT → Prop) :
    Congruence json opt P (Alike (H := H) P) where
  subscribers h := h.subscribers
  publish h _ name msg hnow := h.publish json opt hnow name msg
  load h _ cursor limit hnow := h.load json opt hnow cursor limit
  subscribe h id handler :=
    ⟨congrArg (fun subscribers => subscribers.set id handler) h.subscribers, h.logs, h.live,
      h.found⟩
  describe h id :=
    ⟨congrArg (fun subscribers => subscribers.erase id) h.subscribers, h.logs, h.live, h.found⟩
  reset h := ⟨rfl, h.logs, fun _ _ => rfl, fun _ _ => rfl⟩

end Channel

/-! ### Brokers -/

/-- The calls that only read. -/
def PubsubOp.reading : PubsubOp H → Bool
  | .getMessages _ _ => true
  | op => op.statistic

/-- No message that the cache takes is dead when it is published. -/
def PubsubOp.Lively (opt : PubsubOptions) : PubsubOp H → Prop
  | .publish now _ msg => Pubsub.Caches opt msg → now ≤ (Pubsub.complete opt now msg).deathtime
  | _ => True

instance (opt : PubsubOptions) : DecidablePred (PubsubOp.Lively (H := H) opt)
  | .publish _ _ _ => inferInstanceAs (Decidable (_ → _))
  | .getMessages _ _ | .subscribe _ _ | .subscribeAs _ _ _ | .describe _ | .describeChannel _ _
  | .reset | .size _ | .emptyCount | .getRemoved _ | .subscriberCount => isTrue trivial

namespace Broker

/-- No message was dead when the last one was stored on its channel. -/
def Sound (b : Broker V H) : Prop := ∀ name, (b.channels name).Sound

variable {P : TimeT → Prop} {b b' : Broker V H}

/-- A call that does not publish a dead message. -/
theorem Sound.step (h : b.Sound) (json : Wjson V) {op : PubsubOp H} (hop : op.Lively b.opt) :
    (b.step json op).1.Sound := by
  intro name
  have hch := h name
  have hmoves := moves_step json b op name
  generalize (b.step json op).1.channels name = ch at hmoves ⊢
  cases hmoves with
  | publish now msg => exact hch.publish json b.opt hop name
  | same => exact hch
  | load _ _ cursor limit => exact hch.afterLoad json b.opt _ cursor limit
  | subscribe _ _ id handler cursor limit =>
    have hsub : ((b.channels name).subscribe id handler).Sound := hch
    exact hsub.afterLoad json b.opt _ cursor limit
  | describe hop id => exact hch
  | reset => exact List.forall_mem_nil _

/-- A reading is not noticed by calls that do not come at an earlier time. -/
theorem Sound.reading (h : b.Sound) (json : Wjson V) {op : PubsubOp H} (hop : op.reading = true)
    (hclock : ∀ now ∈ op.clock, ∀ t, P t → now ≤ t) :
    (b.step json op).1.Related (Channel.Alike P) b := by
  have hstatistic : op.statistic = true →
      (b.step json op).1.Related (Channel.Alike P) b := fun hop => by
    rw [step_statistic json hop]
    exact ⟨fun _ => .refl P _, rfl, rfl⟩
  cases op with
  | getMessages now params =>
    refine ⟨fun name => ?_, rfl, rfl⟩
    simp only [Broker.step, Broker.setChannel, Function.update_apply]
    split
    · next hname =>
      subst hname
      rw [Channel.afterLoad]
      split
      · exact (h _).alike_expire (hclock now rfl)
      · exact .refl P _
    · exact .refl P _
  | _ => exact hstatistic hop

theorem sound_new (opt : PubsubOptions) (sh : Shared V) : (new opt sh : Broker V H).Sound :=
  fun _ => List.forall_mem_nil _

theorem Sound.run (h : b.Sound) (json : Wjson V) {ops : List (PubsubOp H)}
    (hops : ∀ op ∈ ops, op.Lively b.opt) : ((machine json).run b ops).Sound := by
  induction ops generalizing b with
  | nil => exact h
  | cons op ops ih =>
    obtain ⟨hop, hops⟩ := List.forall_mem_cons.mp hops
    refine ih (h.step json hop) fun op' hop' => ?_
    rw [show ((machine json).step b op).1.opt = b.opt from step_opt json b op]
    exact hops op' hop'

/-- Nor are any number of them. -/
theorem Sound.readings (h : b.Sound) (json : Wjson V) {ops : List (PubsubOp H)}
    (hops : ∀ op ∈ ops, op.reading = true)
    (hclock : ∀ op ∈ ops, ∀ now ∈ op.clock, ∀ t, P t → now ≤ t) :
    ((machine json).run b ops).Related (Channel.Alike P) b := by
  induction ops generalizing b with
  | nil => exact ⟨fun _ => .refl P _, rfl, rfl⟩
  | cons op ops ih =>
    obtain ⟨hop, hops⟩ := List.forall_mem_cons.mp hops
    obtain ⟨hnow, hclock⟩ := List.forall_mem_cons.mp hclock
    have hlively : op.Lively b.opt := by
      cases op <;> trivial
    have hrest := ih (h.step json hlively) hops hclock
    have hfirst := h.reading json hop hnow
    exact ⟨fun name => (hrest.channels name).trans (hfirst.channels name),
      hrest.opt.trans hfirst.opt, hrest.idCounter.trans hfirst.idCounter⟩

end Broker

namespace PubsubMt

/-- **Readings go unnoticed.** After any run in which no cached message was dead at its
publication, any number of readings, of any channels and with any cursors and limits, changes
none of the replies and none of the calls of handlers of any calls that come at the same time or
later, those apart that count what is in the caches. -/
theorem readings_unnoticed (hash : String → ℕ) (json : Wjson V) (opt : PubsubOptions)
    (sh : Shared V) (before readings after : List (PubsubOp H))
    (hlively : ∀ op ∈ before, op.Lively opt) (hreadings : ∀ op ∈ readings, op.reading = true)
    (hclock : ∀ op ∈ readings, ∀ now ∈ op.clock, ∀ op' ∈ after, ∀ t ∈ op'.clock, now ≤ t) :
    let M := machine hash json
    let start : PubsubMt V H opt.shardCount := PubsubMt.new opt sh
    M.observed answer (M.run start (before ++ readings)) after =
      M.observed answer (M.run start before) after := by
  intro M start
  have hbefore := (represents_new (H := H) hash opt sh).run json before
  have hreading := hbefore.run json readings
  rw [← Machine.run_append] at hreading
  have hsound : ((Broker.machine json).run (Broker.new opt sh : Broker V H) before).Sound :=
    (Broker.sound_new opt sh).run json hlively
  have halike := hsound.readings json (P := fun t => ∃ op ∈ after, t ∈ op.clock) hreadings
    fun op hop now hnow t ⟨op', hop', ht⟩ => hclock op hop now hnow op' hop' t ht
  calc
    _ = _ := hreading.observed json after
    _ = _ := halike.observed (Channel.congruence_alike json _ _)
      (fun op hop t ht => ⟨op, hop, ht⟩) answer
    _ = _ := (hbefore.observed json after).symm

open Message (sample)

/-- A reading after the message has died, and an update in the same second. -/
theorem readings_unnoticed_dead :
    let M := machine (V := Option (List Message)) (H := Unit) String.length .plain
    let start := PubsubMt.new (H := Unit) {} {}
    let params : SubscribeParams Unit := { channel := "channel", limit := 10, handler := () }
    let before := [.publish 100 "channel" (sample "a" 1)]
    let after := [.publish 900 "channel" { sample "a" 2 with action := .update },
      .getMessages 900 params]
    M.observed answer (M.run start (before ++ [.getMessages 900 params, .emptyCount])) after =
      M.observed answer (M.run start before) after :=
  readings_unnoticed String.length .plain {} {} [.publish 100 "channel" (sample "a" 1)]
    [.getMessages 900 { channel := "channel", limit := 10, handler := () }, .emptyCount]
    [.publish 900 "channel" { sample "a" 2 with action := .update },
      .getMessages 900 { channel := "channel", limit := 10, handler := () }]
    (by decide) (by decide) (by decide)

end PubsubMt

end WfcPubsub
