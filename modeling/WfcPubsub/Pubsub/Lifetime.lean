import WfcPubsub.Pubsub.ReadYourWrites
import WfcPubsub.Pubsub.Storing

/-!
# The life of a published message

The comments on `message` and on `message_queue` say that the server sets the birthtime of a
message when it stores it. The code does so where the client has sent none, so a birthtime sent
by a client decides when the message expires.

A stored message is returned by no reading after its death time, and it is stored up to then
unless a call takes it away: a reset, a message that addresses its identity, or one whose limit
cuts it off (`PubsubState.kept_or_evicted`).

## Main definitions

* `PubsubOp.clock`, `PubsubState.Evicts`

## Main results

* `Pubsub.not_mem_getMessages` : no reading returns a dead message.
* `PubsubState.kept_or_evicted` : a message is stored until it dies or is taken away.
* `PubsubState.starts_life_iff` : when a published message lives from the time of its publication.
-/

namespace WfcPubsub

open Contents

/-! ### What a push takes away -/

namespace Contents

/-- A message that is not addressed is not touched by the action. -/
theorem mem_place {now : TimeT} {m x : Message} {q : List Message} (hx : x ∈ q)
    (hid : m.action = .publish ∨ x.identity ≠ m.identity) : x ∈ place now m q := by
  have hrewrite : ∀ f, x.identity ≠ m.identity → x ∈ rewriteOrInsert f now m q := by
    intro f hne
    rw [rewriteOrInsert]
    split
    · exact mem_insert.mpr (Or.inr hx)
    · exact List.mem_map.mpr ⟨x, hx, if_neg hne⟩
  have hwithout : x.identity ≠ m.identity → x ∈ without m q := fun hne =>
    List.mem_filter.mpr ⟨hx, by simpa using hne⟩
  rw [place]
  cases hact : m.action with
  | publish => exact mem_insert.mpr (Or.inr hx)
  | modify => exact hrewrite _ (hid.resolve_left (by simp [hact]))
  | update => exact hrewrite _ (hid.resolve_left (by simp [hact]))
  | replace => exact mem_insert.mpr (Or.inr (hwithout (hid.resolve_left (by simp [hact]))))
  | remove =>
    have hmem := hwithout (hid.resolve_left (by simp [hact]))
    dsimp only
    split
    · exact mem_insert.mpr (Or.inr hmem)
    · exact hmem

/-- A message that is not addressed stays or is cut off. -/
theorem mem_store_or_mem_cutOff {now : TimeT} {m x : Message} {q : List Message} (hx : x ∈ q)
    (hid : m.action = .publish ∨ x.identity ≠ m.identity) :
    x ∈ store now m q ∨ x ∈ cutOff now m q := by
  rw [store, cutOff]
  split
  · split
    · exact Or.inr hx
    · exact Or.inl hx
  · have hplace : x ∈ (place now m q).rdrop m.limit ++ (place now m q).rtake m.limit := by
      rw [List.rdrop, List.rtake, List.take_append_drop]
      exact mem_place hx hid
    exact (List.mem_append.mp hplace).symm

end Contents

variable {V H : Type}

/-! ### Reading -/

theorem Rocksdb.live_held (json : Wjson V) (now : TimeT) (name : String) (r : Rocksdb V) :
    ∀ x ∈ r.held json now name, now ≤ x.deathtime := by
  intro x hx
  rw [held, Entry.held] at hx
  split at hx
  · cases hx
  · split at hx
    · cases hx
    · exact (mem_live.mp hx).2

namespace Pubsub

theorem live_stores (json : Wjson V) (now : TimeT) (params : SubscribeParams H) (ps : Pubsub H)
    (sh : Shared V) : ∀ q ∈ stores json now params ps sh, ∀ x ∈ q, now ≤ x.deathtime := by
  intro q hq x hx
  rw [stores] at hq
  rcases List.mem_append.mp hq with hq | hq
  · cases hstore : store ps.opt sh with
    | none => simp [hstore] at hq
    | some mr =>
      rw [hstore] at hq
      obtain ⟨db, -, rfl⟩ := List.mem_map.mp hq
      exact db.2.live_held json now params.channel x hx
  · split at hq
    · cases hq
    · rw [List.mem_singleton.mp hq] at hx
      exact (mem_live.mp hx).2

/-- No reading returns a dead message. -/
theorem not_mem_getMessages {ps : Pubsub H} (h : ps.channelMap.WellFormed) (json : Wjson V)
    {now : TimeT} {x : Message} (hdead : x.deathtime < now) (params : SubscribeParams H)
    (sh : Shared V) : x ∉ (ps.getMessages json now [] params sh).2 := by
  rw [getMessages_eq json now params h]
  intro hx
  obtain ⟨q, hq, hx⟩ := List.mem_flatMap.mp hx
  have hlive := live_stores json now params ps sh q hq x ((select_sublist _ _ _).subset hx)
  exact absurd hdead (not_lt.mpr hlive)

/-- A reading keeps what lives. -/
theorem mem_messages_getMessages {ps : Pubsub H} (h : ps.channelMap.WellFormed) (json : Wjson V)
    {now : TimeT} {x : Message} {name : String} (hx : x ∈ ps.channelMap.messages name)
    (hlive : now ≤ x.deathtime) (ml : List Message) (params : SubscribeParams H)
    (sh : Shared V) :
    x ∈ (ps.getMessages json now ml params sh).1.channelMap.messages name := by
  rcases messages_getMessages h json now ml params sh with heq | heq
  · rw [heq]
    split
    · exact mem_live.mpr ⟨hx, hlive⟩
    · exact hx
  · rwa [heq]

end Pubsub

/-! ### Runs -/

/-- The clock that a call reads. -/
def PubsubOp.clock : PubsubOp H → Option TimeT
  | .publish now _ _ => some now
  | .getMessages now _ => some now
  | .subscribe now _ => some now
  | .subscribeAs now _ _ => some now
  | _ => none

namespace PubsubState

/-- The call takes a stored message off its channel whatever its death time: it resets the
object, or it stores a message that addresses the identity or whose limit cuts the message off. -/
def Evicts (channel : String) (x : Message) (s : PubsubState V H) : PubsubOp H → Prop
  | .publish now name msg =>
    let m := Pubsub.complete s.ps.opt now msg
    name = channel ∧ Pubsub.Caches s.ps.opt msg ∧
      ((m.action ≠ .publish ∧ x.identity = m.identity) ∨
        x ∈ cutOff now m (s.ps.channelMap.foundAt now channel))
  | .reset => True
  | _ => False

/-- A call before the death time keeps the message unless it takes it away. -/
theorem mem_messages_step {s : PubsubState V H} (h : s.ps.channelMap.WellFormed)
    (json : Wjson V) {channel : String} {x : Message}
    (hx : x ∈ s.ps.channelMap.messages channel) {op : PubsubOp H}
    (hclock : ∀ now ∈ op.clock, now ≤ x.deathtime) (hevict : ¬ Evicts channel x s op) :
    x ∈ (step json s op).1.ps.channelMap.messages channel := by
  have hread : ∀ (ps : Pubsub H) now params (sh : Shared V),
      ps.channelMap = s.ps.channelMap → now ≤ x.deathtime →
      x ∈ (ps.getMessages json now [] params sh).1.channelMap.messages channel := by
    intro ps now params sh heq hlive
    exact Pubsub.mem_messages_getMessages (heq ▸ h) json (heq ▸ hx) hlive [] params sh
  have hdescribe : ∀ id name, (s.ps.describe_ id name).1.channelMap = s.ps.channelMap :=
    fun id name => (Pubsub.describe_pair_rest id name s.ps).1
  cases op with
  | publish now name msg =>
    change x ∈ (s.ps.publish json now name msg s.sh).1.channelMap.messages channel
    rw [Pubsub.messages_publish h]
    split
    · next hcond =>
      obtain ⟨rfl, hcaches⟩ := hcond
      have hfound : x ∈ s.ps.channelMap.foundAt now channel :=
        MessageQueue.mem_foundAt hx (hclock now rfl)
      have hid : (Pubsub.complete s.ps.opt now msg).action = .publish ∨
          x.identity ≠ (Pubsub.complete s.ps.opt now msg).identity := by
        by_contra hno
        rw [not_or, not_not] at hno
        exact hevict ⟨rfl, hcaches, Or.inl hno⟩
      exact (mem_store_or_mem_cutOff hfound hid).resolve_right fun hcut =>
        hevict ⟨rfl, hcaches, Or.inr hcut⟩
    · exact hx
  | getMessages now params => exact hread s.ps now params s.sh rfl (hclock now rfl)
  | subscribe now params => exact hread _ now params _ (hdescribe _ _) (hclock now rfl)
  | subscribeAs now id params => exact hread _ now params _ (hdescribe _ _) (hclock now rfl)
  | describe id => exact hx
  | describeChannel id name =>
    change x ∈ (s.ps.describe_ id name).1.channelMap.messages channel
    rwa [hdescribe]
  | reset => exact absurd trivial hevict
  | size count => exact hx
  | emptyCount => exact hx
  | getRemoved reset =>
    change x ∈ (s.ps.channelMap.getRemoved reset).1.messages channel
    rwa [ChannelMap.messages_getRemoved]
  | subscriberCount => exact hx

/-- In a run up to its death time a stored message stays until a call takes it away. -/
theorem kept_or_evicted {s : PubsubState V H} (h : s.ps.channelMap.WellFormed)
    (json : Wjson V) {channel : String} {x : Message}
    (hx : x ∈ s.ps.channelMap.messages channel) {ops : List (PubsubOp H)}
    (hclock : ∀ op ∈ ops, ∀ now ∈ op.clock, now ≤ x.deathtime) :
    x ∈ ((machine json).run s ops).ps.channelMap.messages channel ∨
      ∃ before op after, ops = before ++ op :: after ∧
        Evicts channel x ((machine json).run s before) op := by
  refine (Machine.invariant_or_exists (M := machine json) (I := fun s : PubsubState V H =>
    s.ps.channelMap.WellFormed ∧ x ∈ s.ps.channelMap.messages channel)
    (B := Evicts channel x) (fun s op hop hI hevict => ?_) ⟨h, hx⟩).imp_left And.right
  exact ⟨wellFormed_step json s op hI.1,
    mem_messages_step hI.1 json hI.2 (hclock op hop) hevict⟩

/-! ### The message just published -/

/-- Two messages stand for each other behind an insertion if they are equal or cut off. -/
theorem rtake_append_cons_inj {n : ℕ} {pre post : List Message} {x y : Message} :
    (pre ++ x :: post).rtake n = (pre ++ y :: post).rtake n ↔ x = y ∨ n ≤ post.length := by
  rw [StableOrder.rtake_append_cons, StableOrder.rtake_append_cons]
  split
  · next hle => exact iff_of_true rfl (Or.inr hle)
  · next hlt =>
    rw [List.append_cancel_left_eq, List.cons.injEq, or_iff_left hlt]
    exact and_iff_left rfl

theorem complete_birthtime (opt : PubsubOptions) (now : TimeT) (m : Message) :
    (Pubsub.complete opt now m).birthtime = if m.birthtime = 0 then now else m.birthtime := by
  simp only [Pubsub.complete, beq_iff_eq]
  split_ifs <;> rfl

/-- What the queue makes of a message that `publish` has completed. -/
theorem bornAt_complete (opt : PubsubOptions) (now : TimeT) (m : Message) :
    bornAt now (Pubsub.complete opt now m) =
      { Pubsub.complete opt now m with
        birthtime := if m.birthtime = 0 then now else m.birthtime } := by
  have hbirth := complete_birthtime opt now m
  by_cases hzero : (Pubsub.complete opt now m).birthtime = 0
  · rw [bornAt, if_pos (by simpa using hzero), Message.reborn]
    rw [hbirth] at hzero
    split at hzero
    · next hm => rw [if_pos hm]
    · next hm => exact absurd hzero hm
  · rw [bornAt_of_ne hzero, ← hbirth]

/-- The channel behind the publication of a message with a lifetime. -/
theorem messages_step_publish {s : PubsubState V H} (h : s.ps.channelMap.WellFormed)
    (json : Wjson V) (now : TimeT) (channel : String) {m : Message} (hact : m.action = .publish)
    (hcaches : Pubsub.Caches s.ps.opt m) (hlife : (Pubsub.complete s.ps.opt now m).lifetime ≠ 0) :
    (step json s (.publish now channel m)).1.ps.channelMap.messages channel =
      (((s.ps.channelMap.foundAt now channel).filter fun y => y.cursor ≤ m.cursor) ++
        bornAt now (Pubsub.complete s.ps.opt now m) ::
          (s.ps.channelMap.foundAt now channel).filter fun y => m.cursor < y.cursor).rtake
        (Pubsub.complete s.ps.opt now m).limit := by
  have hcomplete : (Pubsub.complete s.ps.opt now m).action = .publish ∧
      (Pubsub.complete s.ps.opt now m).cursor = m.cursor := by
    simp only [Pubsub.complete]
    split_ifs <;> exact ⟨hact, rfl⟩
  change (s.ps.publish json now channel m s.sh).1.channelMap.messages channel = _
  rw [Pubsub.messages_publish h, if_pos ⟨rfl, hcaches⟩]
  by_cases hlimit : (Pubsub.complete s.ps.opt now m).limit = 0
  · rw [Contents.store, if_pos ⟨hcomplete.1, by simp [Message.unlimited, hlimit]⟩, if_pos hlimit,
      hlimit, List.rtake_zero]
  · rw [store_of_publish hcomplete.1 hlife hlimit, insert_eq (h.ordered_foundAt now channel),
      hcomplete.2]

/-- **When the server starts a message's life.** A published message that the cache takes is
stored with the birthtime `t` of its publication, no reading after its life returns it, and up to
the end of its life it is stored unless a call takes it away, if and only if the client has sent
no birthtime, or has sent `t`, or the message is cut off at once by its own limit. -/
theorem starts_life_iff (json : Wjson V) (opt : PubsubOptions) (sh₀ : Shared V)
    (ops : List (PubsubOp H)) (t : TimeT) (channel : String) (m : Message)
    (hact : m.action = .publish) (hcaches : Pubsub.Caches opt m)
    (hlife : 0 < (Pubsub.complete opt t m).lifetime) (hlo : -2 ^ 63 ≤ t)
    (hhi : t + (Pubsub.complete opt t m).lifetime < 2 ^ 63) :
    let s := (machine json).run (new opt sh₀) ops
    let s' := (step json s (.publish t channel m)).1
    let found := s.ps.channelMap.foundAt t channel
    let x := { Pubsub.complete opt t m with birthtime := t }
    (s'.ps.channelMap.messages channel =
        ((found.filter fun y => y.cursor ≤ m.cursor) ++
          x :: found.filter fun y => m.cursor < y.cursor).rtake x.limit ∧
      (∀ (later : List (PubsubOp H)) (params : SubscribeParams H) (sh : Shared V) (now : TimeT),
        params.channel = channel → t + x.lifetime < now →
          x ∉ (((machine json).run s' later).ps.getMessages json now [] params sh).2) ∧
      (x ∈ s'.ps.channelMap.messages channel → ∀ later : List (PubsubOp H),
        (∀ op ∈ later, ∀ now ∈ op.clock, now ≤ t + x.lifetime) →
          (∀ now, now ≤ t + x.lifetime →
            x ∈ ((machine json).run s' later).ps.cached now channel) ∨
          ∃ before op after, later = before ++ op :: after ∧
            Evicts channel x ((machine json).run s' before) op)) ↔
      m.birthtime = 0 ∨ m.birthtime = t ∨
        x.limit ≤ (found.filter fun y => m.cursor < y.cursor).length := by
  intro s s' found x
  have hwf : s.ps.channelMap.WellFormed := wellFormed_run json opt sh₀ ops
  have hopt : s.ps.opt = opt := opt_run json opt sh₀ ops
  have hdeath : x.deathtime = t + x.lifetime :=
    Message.deathtime_eq_add (hlo.trans (le_add_of_nonneg_right hlife.le)) hhi
  have hwf' : s'.ps.channelMap.WellFormed := wellFormed_step json s _ hwf
  have hread : ∀ (later : List (PubsubOp H)) (params : SubscribeParams H) (sh : Shared V)
      (now : TimeT), params.channel = channel → t + x.lifetime < now →
        x ∉ (((machine json).run s' later).ps.getMessages json now [] params sh).2 := by
    intro later params sh now _ hlate
    refine Pubsub.not_mem_getMessages ?_ json (hdeath ▸ hlate) params sh
    exact Machine.invariant_run (I := fun s : PubsubState V H => s.ps.channelMap.WellFormed)
      (wellFormed_step json) hwf' later
  have hkept : x ∈ s'.ps.channelMap.messages channel → ∀ later : List (PubsubOp H),
      (∀ op ∈ later, ∀ now ∈ op.clock, now ≤ t + x.lifetime) →
        (∀ now, now ≤ t + x.lifetime →
          x ∈ ((machine json).run s' later).ps.cached now channel) ∨
        ∃ before op after, later = before ++ op :: after ∧
          Evicts channel x ((machine json).run s' before) op := by
    intro hx later hclock
    refine (kept_or_evicted hwf' json hx (hdeath ▸ hclock)).imp_left fun hmem now hnow => ?_
    exact mem_live.mpr ⟨hmem, hdeath ▸ hnow⟩
  have hstored : s'.ps.channelMap.messages channel =
      ((found.filter fun y => y.cursor ≤ m.cursor) ++
        bornAt t (Pubsub.complete opt t m) ::
          found.filter fun y => m.cursor < y.cursor).rtake x.limit := by
    have := messages_step_publish hwf json t channel hact (hopt ▸ hcaches)
      (hopt.symm ▸ hlife.ne')
    rwa [hopt] at this
  have hborn : bornAt t (Pubsub.complete opt t m) = x ↔ m.birthtime = 0 ∨ m.birthtime = t := by
    rw [bornAt_complete]
    constructor
    · intro heq
      have hbirth := congrArg Message.birthtime heq
      dsimp only [x] at hbirth
      split at hbirth
      · next hzero => exact Or.inl hzero
      · exact Or.inr hbirth
    · rintro (hzero | hnow)
      · rw [if_pos hzero]
      · rw [hnow, ite_self]
  rw [and_iff_left ⟨hread, hkept⟩, hstored, rtake_append_cons_inj, hborn, or_assoc]

/-- A message born in the future is returned after its life, and one born in the past is gone at
the next reading. -/
theorem not_starts_life :
    let published := fun birthtime : TimeT => (step .plain (new {} {} : PubsubState _ Unit)
      (.publish 100 "channel" { birthtime := birthtime, lifetime := 60, limit := 10 })).1
    let params : SubscribeParams Unit := { channel := "channel", limit := 1, handler := () }
    ((published 1000).ps.getMessages .plain 161 [] params {}).2 =
        [{ birthtime := 1000, lifetime := 60, limit := 10 }] ∧
      (published 1).ps.channelMap.messages "channel" =
        [{ birthtime := 1, lifetime := 60, limit := 10 }] ∧
      (published 1).ps.cached 101 "channel" = [] := by
  decide

theorem starts_life_iff_unborn :
    let m : Message := { lifetime := 60, limit := 10 }
    let s := (machine .plain).run (new {} {} : PubsubState _ Unit)
      [.publish 99 "channel" { lifetime := 60, limit := 10, cursor := 2 }]
    let s' := (step .plain s (.publish 100 "channel" m)).1
    let found := s.ps.channelMap.foundAt 100 "channel"
    let x := { Pubsub.complete {} 100 m with birthtime := 100 }
    (s'.ps.channelMap.messages "channel" =
        ((found.filter fun y => y.cursor ≤ m.cursor) ++
          x :: found.filter fun y => m.cursor < y.cursor).rtake x.limit ∧
      (∀ (later : List (PubsubOp Unit)) (params : SubscribeParams Unit) (sh : Shared _)
        (now : TimeT), params.channel = "channel" → 100 + x.lifetime < now →
          x ∉ (((machine .plain).run s' later).ps.getMessages .plain now [] params sh).2) ∧
      (x ∈ s'.ps.channelMap.messages "channel" → ∀ later : List (PubsubOp Unit),
        (∀ op ∈ later, ∀ now ∈ op.clock, now ≤ 100 + x.lifetime) →
          (∀ now, now ≤ 100 + x.lifetime →
            x ∈ ((machine .plain).run s' later).ps.cached now "channel") ∨
          ∃ before op after, later = before ++ op :: after ∧
            Evicts "channel" x ((machine .plain).run s' before) op)) ↔
      m.birthtime = 0 ∨ m.birthtime = 100 ∨
        x.limit ≤ (found.filter fun y => m.cursor < y.cursor).length :=
  starts_life_iff .plain {} {} [.publish 99 "channel" { lifetime := 60, limit := 10, cursor := 2 }]
    100 "channel" { lifetime := 60, limit := 10 } rfl (by decide) (by decide) (by decide)
    (by decide)

end PubsubState

end WfcPubsub
