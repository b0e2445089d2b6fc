import WfcPubsub.MessageQueue.Specification

/-!
# `modify` and `update`

Both rewrite every message of the identity in place. By the comments on `push`, `modify` renews
the content and the lifetime, and `update` sets the birthtime to the current time as well. The
methods of `stored_message` that do it leave the lifetime alone in `modify`, and take the
birthtime of the incoming message in `update`. So each does what its comment says exactly where
this makes no difference.

## Main results

* `QueueState.messages_step_rewrite` : where the identity is found and the limit cuts nothing, the
  messages are rewritten in place.
* `QueueState.modifies_iff`, `QueueState.updates_iff`
-/

namespace WfcPubsub

open Contents
open StableOrder (rtake_of_length_le)

namespace Contents

/-- Two rewritings agree if they agree on the messages of the identity. -/
theorem rewrite_eq_rewrite_iff {f g : Message → Message → Message} {m : Message}
    {q : List Message} :
    rewrite f m q = rewrite g m q ↔ ∀ x ∈ q, x.identity = m.identity → f x m = g x m := by
  rw [rewrite, rewrite, List.map_inj_left]
  refine forall₂_congr fun x _ => ?_
  by_cases hid : x.identity = m.identity
  · rw [if_pos hid, if_pos hid]
    exact ⟨fun h _ => h, fun h => h hid⟩
  · rw [if_neg hid, if_neg hid]
    exact ⟨fun _ h => absurd h hid, fun _ => rfl⟩

/-- What `modify` is meant to do to a message. -/
def modified (x m : Message) : Message :=
  { x with content := m.content, key := m.key, limit := m.limit, lifetime := m.lifetime }

/-- What `update` is meant to do to a message. -/
def updated (now : TimeT) (x m : Message) : Message :=
  { modified x m with birthtime := now }

theorem modify_eq_modified_iff {x m : Message} :
    x.modify m = modified x m ↔ x.lifetime = m.lifetime := by
  rw [Message.modify_eq, modified]
  constructor
  · intro h
    have hlife := congrArg Message.lifetime h
    exact hlife
  · intro h
    rw [← h]

theorem update_eq_updated_iff {now : TimeT} {x m : Message} :
    x.update m = updated now x m ↔ m.birthtime = now := by
  rw [Message.update_eq, updated, modified]
  constructor
  · intro h
    have hbirth := congrArg Message.birthtime h
    exact hbirth
  · intro h
    rw [h]

/-- Expiries by two kinds of death time agree at all times iff these are the same. -/
theorem forall_filter_le_eq_iff {f g : Message → TimeT} {q : List Message} :
    (∀ t, (q.filter fun x => t ≤ f x) = q.filter fun x => t ≤ g x) ↔ ∀ x ∈ q, f x = g x := by
  refine ⟨fun h x hx => le_antisymm ?_ ?_, fun h t => List.filter_congr fun x hx => by rw [h x hx]⟩
  · have hmem : x ∈ q.filter fun y => f x ≤ f y := List.mem_filter.mpr ⟨hx, by simp⟩
    rw [h] at hmem
    simpa using (List.mem_filter.mp hmem).2
  · have hmem : x ∈ q.filter fun y => g x ≤ g y := List.mem_filter.mpr ⟨hx, by simp⟩
    rw [← h] at hmem
    simpa using (List.mem_filter.mp hmem).2

/-- Every message of the identity in a rewritten list is one rewritten. -/
theorem exists_of_mem_rewrite {f : Message → Message → Message} {m x : Message}
    {q : List Message} (hx : x ∈ rewrite f m q) (hid : x.identity = m.identity) :
    ∃ y ∈ q, x = f y m := by
  obtain ⟨y, hy, rfl⟩ := List.mem_map.mp hx
  by_cases hy' : y.identity = m.identity
  · exact ⟨y, hy, if_pos hy'⟩
  · rw [if_neg hy'] at hid
    exact absurd hid hy'

end Contents

namespace QueueState

/-- Where the identity is found and the limit cuts nothing, the messages are rewritten in
place. -/
theorem messages_step_rewrite {s : QueueState} (h : s.mq.WellFormed) {now : TimeT} {m : Message}
    {f : Message → Message → Message} (hact : m.action ≠ .publish)
    (hplace : ∀ q, place now m q = rewriteOrInsert f now m q) (hlimit : s.mq.size ≤ m.limit)
    (hmatch : ∃ x ∈ s.mq.messages, now ≤ x.deathtime ∧ x.identity = m.identity) :
    (machine.step s (.push now m)).1.mq.messages = rewrite f m (s.mq.foundAt now) := by
  obtain ⟨x, hx, hlive, hid⟩ := hmatch
  have hfound : ∃ x ∈ s.mq.foundAt now, x.identity = m.identity :=
    ⟨x, MessageQueue.mem_foundAt hx hlive, hid⟩
  have hlen : (rewrite f m (s.mq.foundAt now)).length ≤ m.limit := by
    have hsize : s.mq.messages.length = s.mq.size := List.length_map _
    rw [rewrite, List.length_map]
    have := (MessageQueue.foundAt_sublist now s.mq).length_le
    omega
  rw [messages_step_push h, store_of_ne_publish hact, hplace, rewriteOrInsert_of_exists hfound,
    rtake_of_length_le hlen]

/-- **When `modify` does what its documentation says.** A push of a `modify` with a limit that
cuts nothing and an identity that is found alive gives exactly the messages of the identity the
content, key, limit and lifetime of the new message, and from then on an expiry removes exactly
the messages whose birthtime plus lifetime lies before it, if and only if the messages of the
identity have that lifetime already and no sum leaves the range of `time_t`. -/
theorem modifies_iff (ops : List QueueOp) (now : TimeT) (m : Message)
    (hact : m.action = .modify) (hlimit : (machine.run new ops).mq.size ≤ m.limit)
    (hmatch : ∃ x ∈ (machine.run new ops).mq.messages,
      now ≤ x.deathtime ∧ x.identity = m.identity) :
    let q0 := (machine.run new ops).mq.foundAt now
    let after := (machine.step (machine.run new ops) (.push now m)).1.mq
    let expected := q0.map fun x =>
      if x.identity = m.identity then
        { x with content := m.content, key := m.key, limit := m.limit, lifetime := m.lifetime }
      else x
    (after.messages = expected ∧
        ∀ t, (after.removeDeath t).messages =
          expected.filter fun x => t ≤ x.birthtime + x.lifetime) ↔
      ∀ x ∈ q0, Representable (x.birthtime + x.lifetime) ∧
        (x.identity = m.identity → x.lifetime = m.lifetime) := by
  intro q0 after expected
  have hwf := wellFormed_run ops
  have hafter : after.messages = rewrite Message.modify m q0 :=
    messages_step_rewrite hwf (by simp [hact]) (fun q => by rw [place, hact]) hlimit hmatch
  have hexpected : expected = rewrite modified m q0 := rfl
  have hiff : after.messages = expected ↔
      ∀ x ∈ q0, x.identity = m.identity → x.lifetime = m.lifetime := by
    simp only [hafter, hexpected, rewrite_eq_rewrite_iff, modify_eq_modified_iff]
  have hsums : after.messages = expected →
      ((∀ x ∈ expected, Representable (x.birthtime + x.lifetime)) ↔
        ∀ x ∈ q0, Representable (x.birthtime + x.lifetime)) := by
    intro hsame
    rw [← hsame, hafter, rewrite, List.forall_mem_map]
    refine forall₂_congr fun x _ => ?_
    split
    · rw [Message.modify_eq]
    · rfl
  have hexpiry : after.messages = expected →
      ((∀ t, (after.removeDeath t).messages =
          expected.filter fun x => t ≤ x.birthtime + x.lifetime) ↔
        ∀ x ∈ expected, Representable (x.birthtime + x.lifetime)) := by
    intro hsame
    have hwf' : after.WellFormed := hwf.push now _
    simp only [MessageQueue.messages_removeDeath hwf', hsame, live]
    exact forall_filter_le_eq_iff.trans
      (forall₂_congr fun x _ => Message.deathtime_eq_add_iff)
  constructor
  · rintro ⟨hsame, hremoved⟩ x hx
    exact ⟨(hsums hsame).mp ((hexpiry hsame).mp hremoved) x hx, hiff.mp hsame x hx⟩
  · intro h
    have hsame : after.messages = expected := hiff.mpr fun x hx => (h x hx).2
    exact ⟨hsame, (hexpiry hsame).mpr ((hsums hsame).mpr fun x hx => (h x hx).1)⟩

/-- A lifetime given by `modify` is not taken over. -/
theorem not_modifies :
    let s := machine.run new [.push 100 { limit := 10, lifetime := 5, identity := "a" }]
    let m : Message := { action := .modify, limit := 10, lifetime := 60, identity := "a" }
    let after := (machine.step s (.push 101 m)).1.mq
    m.action = .modify ∧ s.mq.size ≤ m.limit ∧
    s.mq.messages = [{ limit := 10, birthtime := 100, lifetime := 5, identity := "a" }] ∧
    after.messages ≠ [{ limit := 10, birthtime := 100, lifetime := 60, identity := "a" }] ∧
    (after.removeDeath 106).messages = [] := by
  decide

theorem modifies_iff_same_lifetime :
    let s := machine.run new [.push 100 { limit := 10, lifetime := 5, identity := "a" }]
    let m : Message := { action := .modify, limit := 10, lifetime := 5, identity := "a", key := 7 }
    let q0 := s.mq.foundAt 101
    let after := (machine.step s (.push 101 m)).1.mq
    let expected := q0.map fun x =>
      if x.identity = m.identity then
        { x with content := m.content, key := m.key, limit := m.limit, lifetime := m.lifetime }
      else x
    (after.messages = expected ∧
        ∀ t, (after.removeDeath t).messages =
          expected.filter fun x => t ≤ x.birthtime + x.lifetime) ↔
      ∀ x ∈ q0, Representable (x.birthtime + x.lifetime) ∧
        (x.identity = m.identity → x.lifetime = m.lifetime) :=
  modifies_iff [.push 100 { limit := 10, lifetime := 5, identity := "a" }] 101
    { action := .modify, limit := 10, lifetime := 5, identity := "a", key := 7 } rfl (by decide)
    (by decide)

/-- **When `update` restarts a message's life.** A push of an `update` with a lifetime, a limit
that cuts nothing and an identity that is found alive gives exactly the messages of the identity
the content, key, limit and lifetime of the new message and the birthtime `now`, and they outlive
every expiry up to `now` plus the lifetime, if and only if the new message brings the birthtime
`now` with it. -/
theorem updates_iff (ops : List QueueOp) (now : TimeT) (m : Message)
    (hact : m.action = .update) (hlife : 0 < m.lifetime)
    (hlimit : (machine.run new ops).mq.size ≤ m.limit)
    (hmatch : ∃ x ∈ (machine.run new ops).mq.messages,
      now ≤ x.deathtime ∧ x.identity = m.identity) :
    let q0 := (machine.run new ops).mq.foundAt now
    let after := (machine.step (machine.run new ops) (.push now m)).1.mq
    let expected := q0.map fun x =>
      if x.identity = m.identity then
        { x with
          content := m.content, key := m.key, limit := m.limit, lifetime := m.lifetime
          birthtime := now }
      else x
    (after.messages = expected ∧
        ∀ t, now ≤ t → t ≤ now + m.lifetime → -2 ^ 63 ≤ now → now + m.lifetime < 2 ^ 63 →
          ∀ x ∈ after.messages, x.identity = m.identity → x ∈ (after.removeDeath t).messages) ↔
      m.birthtime = now := by
  intro q0 after expected
  have hwf := wellFormed_run ops
  have hafter : after.messages = rewrite Message.update m q0 :=
    messages_step_rewrite hwf (by simp [hact]) (fun q => by rw [place, hact]) hlimit hmatch
  have hexpected : expected = rewrite (updated now) m q0 := rfl
  obtain ⟨x, hx, hlive, hid⟩ := hmatch
  have hfound : x ∈ q0 := MessageQueue.mem_foundAt hx hlive
  have hiff : after.messages = expected ↔ m.birthtime = now := by
    simp only [hafter, hexpected, rewrite_eq_rewrite_iff, update_eq_updated_iff]
    exact ⟨fun h => h x hfound hid, fun h _ _ _ => h⟩
  rw [← hiff]
  refine ⟨fun h => h.1, fun h => ⟨h, fun t hlo hhi hmin hmax y hy hyid => ?_⟩⟩
  have hwf' : after.WellFormed := hwf.push now _
  rw [MessageQueue.messages_removeDeath hwf', mem_live]
  refine ⟨hy, ?_⟩
  rw [h, hexpected] at hy
  obtain ⟨z, -, rfl⟩ := exists_of_mem_rewrite hy hyid
  have hdeath : (updated now z m).deathtime = now + m.lifetime :=
    Message.deathtime_eq_add (hmin.trans (le_add_of_nonneg_right hlife.le)) hmax
  rw [hdeath]
  exact hhi

/-- An update without a birthtime makes its messages born at the epoch: the next expiry removes
them. -/
theorem not_updates :
    let s := machine.run new [.push 100 { limit := 10, lifetime := 60, identity := "a" }]
    let m : Message := { action := .update, limit := 10, lifetime := 60, identity := "a" }
    let after := (machine.step s (.push 101 m)).1.mq
    m.action = .update ∧ s.mq.size ≤ m.limit ∧
    s.mq.messages = [{ limit := 10, birthtime := 100, lifetime := 60, identity := "a" }] ∧
    after.messages ≠ [{ limit := 10, birthtime := 101, lifetime := 60, identity := "a" }] ∧
    (after.removeDeath 102).messages = [] := by
  decide

theorem updates_iff_born_now :
    let s := machine.run new [.push 100 { limit := 10, lifetime := 60, identity := "a" }]
    let m : Message :=
      { action := .update, limit := 10, birthtime := 101, lifetime := 60, identity := "a" }
    let q0 := s.mq.foundAt 101
    let after := (machine.step s (.push 101 m)).1.mq
    let expected := q0.map fun x =>
      if x.identity = m.identity then
        { x with
          content := m.content, key := m.key, limit := m.limit, lifetime := m.lifetime
          birthtime := 101 }
      else x
    (after.messages = expected ∧
        ∀ t, 101 ≤ t → t ≤ 101 + m.lifetime → -2 ^ 63 ≤ 101 → 101 + m.lifetime < 2 ^ 63 →
          ∀ x ∈ after.messages, x.identity = m.identity → x ∈ (after.removeDeath t).messages) ↔
      m.birthtime = 101 :=
  updates_iff [.push 100 { limit := 10, lifetime := 60, identity := "a" }] 101
    { action := .update, limit := 10, birthtime := 101, lifetime := 60, identity := "a" } rfl
    (by decide) (by decide) (by decide)

end QueueState

end WfcPubsub
