import WfcPubsub.MessageQueue.Specification

/-!
# Replaying a queue

The persistent store keeps no queue. It keeps the messages of one and pushes them again, in
cursor order, whenever it needs the queue back. Each message then acts once more, with its own
action and limit, on those before it. `Contents.Settled` says when this reproduces the queue: no
message cuts off what is before it, and none but a published one finds its identity there.

A queue is settled if no published message has been inserted before a rewriting or removing one
of its identity, and none with a larger limit before one that its own limit then cuts off
(`Contents.Replayable`).

## Main definitions

* `Contents.Settled`, `Contents.Replayable`

## Main results

* `Contents.storeAll_settled` : a settled queue is what its replay gives.
* `Contents.settled_of_length_le` : a queue of which a replay loses nothing is settled.
* `Contents.settled_storeAll` : replayable messages give a settled queue.
-/

namespace WfcPubsub

open StableOrder (rtake_of_length_le rtake_sublist)

namespace Contents

/-- From the position `n` on, every message stands within its own limit. -/
def Fits : ℕ → List Message → Prop
  | _, [] => True
  | n, m :: q => n < m.limit ∧ Fits (n + 1) q

/-- How a message before another one may stand to it in a settled queue. -/
def Settles (a b : Message) : Prop :=
  a.cursor ≤ b.cursor ∧ (b.action ≠ .publish → a.identity ≠ b.identity)

/-- Stored as it is, and stored at all, when it is pushed again. -/
def Lasting (m : Message) : Prop := m.birthtime ≠ 0 ∧ (m.action = .replace ∨ m.lifetime ≠ 0)

/-- Reproduced by a replay of its messages. -/
structure Settled (q : List Message) : Prop where
  settles : q.Pairwise Settles
  lasting : ∀ m ∈ q, Lasting m
  fits : Fits 0 q

/-! ### Positions and limits -/

theorem Fits.mono {n k : ℕ} (hkn : k ≤ n) {q : List Message} (h : Fits n q) : Fits k q := by
  induction q generalizing n k with
  | nil => trivial
  | cons m q ih => exact ⟨by have := h.1; omega, ih (by omega) h.2⟩

theorem Fits.sublist {n : ℕ} {q q' : List Message} (hsub : q'.Sublist q) (h : Fits n q) :
    Fits n q' := by
  induction hsub generalizing n with
  | slnil => trivial
  | cons m _ ih => exact (ih h.2).mono (Nat.le_succ n)
  | cons_cons m _ ih => exact ⟨h.1, ih h.2⟩

theorem fits_append {n : ℕ} {q q' : List Message} :
    Fits n (q ++ q') ↔ Fits n q ∧ Fits (n + q.length) q' := by
  induction q generalizing n with
  | nil => simp [Fits]
  | cons a q ih =>
    have hlen : n + (a :: q).length = n + 1 + q.length := by
      rw [List.length_cons]
      omega
    rw [List.cons_append, Fits, Fits, ih, hlen, and_assoc]

theorem fits_concat {n : ℕ} {q : List Message} {m : Message} :
    Fits n (q ++ [m]) ↔ Fits n q ∧ n + q.length < m.limit := by
  rw [fits_append, Fits, Fits, and_true]

theorem fits_of_length_le {n : ℕ} {q : List Message} (h : ∀ m ∈ q, n + q.length ≤ m.limit) :
    Fits n q := by
  induction q generalizing n with
  | nil => trivial
  | cons m q ih =>
    have hm := h m List.mem_cons_self
    rw [List.length_cons] at hm
    refine ⟨by omega, ih fun x hx => ?_⟩
    have hx := h x (List.mem_cons_of_mem _ hx)
    rw [List.length_cons] at hx
    omega

/-- Limits may be replaced by others that reach to the end. -/
theorem Fits.map {n : ℕ} {q : List Message} (h : Fits n q) {f : Message → Message}
    (hf : ∀ x ∈ q, (f x).limit = x.limit ∨ n + q.length ≤ (f x).limit) : Fits n (q.map f) := by
  induction q generalizing n with
  | nil => trivial
  | cons m q ih =>
    refine ⟨?_, ih h.2 fun x hx => ?_⟩
    · have := h.1
      rcases hf m List.mem_cons_self with hm | hm <;> rw [List.length_cons] at * <;> omega
    · refine (hf x (List.mem_cons_of_mem _ hx)).imp_right fun hle => ?_
      rw [List.length_cons] at hle
      omega

theorem Settled.sublist {q q' : List Message} (h : Settled q) (hsub : q'.Sublist q) :
    Settled q' where
  settles := h.settles.sublist hsub
  lasting m hm := h.lasting m (hsub.subset hm)
  fits := h.fits.sublist hsub

theorem Settled.ordered {q : List Message} (h : Settled q) : Ordered q :=
  h.settles.imp fun hab => hab.1

theorem settled_nil : Settled [] := ⟨.nil, List.forall_mem_nil _, trivial⟩

/-! ### The replay of a settled queue -/

/-- The last message of a settled queue is stored at its place, and nothing is cut off. -/
private theorem store_settled_concat {now : TimeT} {q : List Message} {m : Message}
    (h : Settled (q ++ [m])) : store now m q = q ++ [m] := by
  obtain ⟨-, -, hlast⟩ := List.pairwise_append.mp h.settles
  obtain ⟨hbirth, hlife⟩ := h.lasting m (List.mem_append_right _ List.mem_cons_self)
  obtain ⟨-, hlimit⟩ := fits_concat.mp h.fits
  have hbefore : ∀ x ∈ q, Settles x m := fun x hx => hlast x hx m List.mem_cons_self
  have hinsert : insert now m q = q ++ [m] := by
    rw [insert_eq_concat fun x hx => (hbefore x hx).1, bornAt_of_ne hbirth]
  have hplace : place now m q = q ++ [m] := by
    by_cases hact : m.action = .publish
    · rw [place, hact]
      exact hinsert
    · have hid : ∀ x ∈ q, x.identity ≠ m.identity := fun x hx => (hbefore x hx).2 hact
      have hwithout : without m q = q :=
        List.filter_eq_self.mpr fun x hx => by simpa using hid x hx
      have hreplace : m.action ≠ .replace → m.lifetime ≠ 0 := fun hne => hlife.resolve_left hne
      rw [place]
      cases hm : m.action with
      | publish => exact absurd hm hact
      | modify =>
        dsimp only
        rw [rewriteOrInsert, if_pos ⟨hreplace (by simp [hm]), hid⟩, hinsert]
      | update =>
        dsimp only
        rw [rewriteOrInsert, if_pos ⟨hreplace (by simp [hm]), hid⟩, hinsert]
      | replace =>
        dsimp only
        rw [hwithout, hinsert]
      | remove =>
        dsimp only
        rw [if_pos (hreplace (by simp [hm])), hwithout, hinsert]
  have hstored : ¬ (m.action = .publish ∧ m.unlimited = true) := by
    rintro ⟨hact, hun⟩
    have hne : m.lifetime ≠ 0 := hlife.resolve_left (by simp [hact])
    have hpos : m.limit ≠ 0 := by omega
    rw [Message.unlimited_eq_false_iff.mpr ⟨hne, hpos⟩] at hun
    cases hun
  rw [store, if_neg hstored, hplace, rtake_of_length_le]
  rw [List.length_append, List.length_singleton]
  omega

/-- The replay of a settled queue reproduces it. -/
theorem storeAll_settled (now : TimeT) {q : List Message} (h : Settled q) :
    storeAll now q [] = q := by
  induction q using List.reverseRecOn with
  | nil => rfl
  | append_singleton q m ih =>
    rw [storeAll_append, ih (h.sublist (List.sublist_append_left _ _)), storeAll_cons,
      storeAll_nil, store_settled_concat h]

/-! ### A queue of which a replay loses nothing -/

theorem length_place_le (now : TimeT) (m : Message) (q : List Message) :
    (place now m q).length ≤ q.length + 1 := by
  have hwithout : (without m q).length ≤ q.length := List.length_filter_le _ _
  have hrewrite : ∀ f : Message → Message → Message,
      (rewriteOrInsert f now m q).length ≤ q.length + 1 := by
    intro f
    rw [rewriteOrInsert, rewrite]
    split
    · rw [length_insert]
    · rw [List.length_map]
      omega
  rw [place]
  split
  · rw [length_insert]
  · exact hrewrite _
  · exact hrewrite _
  · rw [length_insert]
    omega
  · split
    · rw [length_insert]
      omega
    · omega

theorem length_store_le (now : TimeT) (m : Message) (q : List Message) :
    (store now m q).length ≤ q.length + 1 := by
  rw [store]
  split
  · split
    · simp
    · omega
  · exact (rtake_sublist _ _).length_le.trans (length_place_le now m q)

theorem length_storeAll_le (now : TimeT) (ms q : List Message) :
    (storeAll now ms q).length ≤ q.length + ms.length := by
  induction ms generalizing q with
  | nil => simp
  | cons m ms ih =>
    have := ih (store now m q)
    have := length_store_le now m q
    rw [storeAll_cons, List.length_cons]
    omega

/-- A push makes a queue longer only by inserting a message that removes nothing, rewrites nothing
and cuts nothing off. -/
private theorem inserts_of_length {now : TimeT} {q : List Message} {m : Message}
    (h : (store now m q).length = q.length + 1) :
    (m.action ≠ .publish → ∀ x ∈ q, x.identity ≠ m.identity) ∧
      (m.action = .replace ∨ m.lifetime ≠ 0) ∧ q.length < m.limit := by
  have hwithout : (without m q).length = q.length → ∀ x ∈ q, x.identity ≠ m.identity := by
    intro hlen x hx
    simpa using List.length_filter_eq_length_iff.mp hlen x hx
  have hle : (without m q).length ≤ q.length := List.length_filter_le _ _
  have hrewrite : ∀ f : Message → Message → Message,
      q.length + 1 ≤ (rewriteOrInsert f now m q).length →
        m.lifetime ≠ 0 ∧ ∀ x ∈ q, x.identity ≠ m.identity := by
    intro f hlong
    rw [rewriteOrInsert] at hlong
    split at hlong
    · next hcond => exact hcond
    · rw [rewrite, List.length_map] at hlong
      omega
  rw [store] at h
  split at h
  · split at h
    · cases h
    · omega
  · next hstored =>
    rw [StableOrder.length_rtake] at h
    have hlimit : q.length < m.limit := by omega
    have hlong : q.length + 1 ≤ (place now m q).length := by omega
    rw [place] at hlong
    cases hact : m.action with
    | publish =>
      refine ⟨absurd rfl, Or.inr fun hlife => hstored ⟨hact, ?_⟩, hlimit⟩
      rw [Message.unlimited, hlife]
      rfl
    | modify =>
      rw [hact] at hlong
      exact ⟨fun _ => (hrewrite _ hlong).2, Or.inr (hrewrite _ hlong).1, hlimit⟩
    | update =>
      rw [hact] at hlong
      exact ⟨fun _ => (hrewrite _ hlong).2, Or.inr (hrewrite _ hlong).1, hlimit⟩
    | replace =>
      rw [hact] at hlong
      dsimp only at hlong
      rw [length_insert] at hlong
      exact ⟨fun _ => hwithout (by omega), Or.inl rfl, hlimit⟩
    | remove =>
      rw [hact] at hlong
      dsimp only at hlong
      split at hlong
      · next hlife =>
        rw [length_insert] at hlong
        exact ⟨fun _ => hwithout (by omega), Or.inr hlife, hlimit⟩
      · omega

/-- A queue in cursor order of which a replay loses no message is settled. -/
theorem settled_of_length_le {now : TimeT} {q : List Message} (hord : Ordered q)
    (hbirth : ∀ m ∈ q, m.birthtime ≠ 0) (h : q.length ≤ (storeAll now q []).length) :
    Settled q := by
  induction q using List.reverseRecOn with
  | nil => exact settled_nil
  | append_singleton q m ih =>
    have hm : m ∈ q ++ [m] := List.mem_append_right _ List.mem_cons_self
    rw [storeAll_append, storeAll_cons, storeAll_nil, List.length_append,
      List.length_singleton] at h
    have hstore := length_store_le now m (storeAll now q [])
    have hbefore := length_storeAll_le now q []
    rw [List.length_nil, Nat.zero_add] at hbefore
    have hq : Settled q := ih (hord.sublist (List.sublist_append_left _ _))
      (fun a ha => hbirth a (List.mem_append_left _ ha)) (by omega)
    rw [storeAll_settled now hq] at h hstore
    obtain ⟨hid, hlife, hlimit⟩ := inserts_of_length (Nat.le_antisymm hstore h)
    refine ⟨List.pairwise_append.mpr ⟨hq.settles, List.pairwise_singleton _ _, ?_⟩, ?_,
      fits_concat.mpr ⟨hq.fits, by omega⟩⟩
    · rintro a ha b hb
      obtain rfl := List.mem_singleton.mp hb
      exact ⟨(List.pairwise_append.mp hord).2.2 a ha b List.mem_cons_self,
        fun hact => hid hact a ha⟩
    · intro x hx
      refine ⟨hbirth x hx, ?_⟩
      rcases List.mem_append.mp hx with hx | hx
      · exact (hq.lasting x hx).2
      · exact List.mem_singleton.mp hx ▸ hlife

/-! ### What `push` keeps settled -/

/-- The messages around the place of a new one keep clear of it. -/
private theorem pairwise_settles_insert {now : TimeT} {q : List Message} {m : Message}
    (h : q.Pairwise Settles)
    (hcross : ∀ a ∈ q, m.cursor < a.cursor → a.action = .publish ∨ a.identity ≠ m.identity)
    (hid : m.action ≠ .publish → ∀ x ∈ q, x.identity ≠ m.identity) :
    (insert now m q).Pairwise Settles := by
  obtain ⟨t, ht⟩ := bornAt_eq now m
  rw [insert, ht]
  refine Bisection.pairwise_orderedInsert h (fun b hb hlt => ⟨hlt.le, fun hact => ?_⟩)
    (fun b hb hle => ⟨not_lt.mp hle, fun hact => hid hact b hb⟩)
    fun b _ x _ hlt hbx => lt_of_lt_of_le hlt hbx.1
  exact ((hcross b hb hlt).resolve_left hact).symm

/-- A new message among others, cut to its limit: those behind it move by one, but not beyond
that limit. -/
private theorem fits_rtake_append_cons {pre post : List Message} {m : Message} (h : Fits 0 pre)
    (hpost : ∀ x ∈ post, m.limit ≤ x.limit ∨ pre.length + post.length < x.limit) :
    Fits 0 ((pre ++ m :: post).rtake m.limit) := by
  rw [StableOrder.rtake_append_cons]
  split
  · next hcut =>
    refine fits_of_length_le fun x hx => ?_
    have hx := hpost x ((rtake_sublist _ _).subset hx)
    rw [StableOrder.length_rtake]
    omega
  · next hroom =>
    refine fits_append.mpr ⟨h.sublist (rtake_sublist _ _), fits_of_length_le fun x hx => ?_⟩
    rw [Nat.zero_add, List.length_cons, StableOrder.length_rtake]
    rcases List.mem_cons.mp hx with rfl | hx
    · omega
    · have := hpost x hx
      omega

private theorem fits_insert {now : TimeT} {q : List Message} {m : Message} (hord : Ordered q)
    (h : Fits 0 q)
    (hfit : ∀ a ∈ q, m.cursor < a.cursor → m.limit ≤ a.limit ∨ q.length < a.limit) :
    Fits 0 ((insert now m q).rtake m.limit) := by
  obtain ⟨t, ht⟩ := bornAt_eq now m
  have hlen := List.length_eq_length_filter_add (l := q) fun x => decide (x.cursor ≤ m.cursor)
  simp only [← decide_not, not_le] at hlen
  rw [insert_eq hord, ht]
  refine fits_rtake_append_cons (h.sublist List.filter_sublist) fun x hx => ?_
  obtain ⟨hmem, hlt⟩ := List.mem_filter.mp hx
  refine (hfit x hmem (by simpa using hlt)).imp_right fun hroom => hlen ▸ hroom

private theorem settled_insert {now : TimeT} {q q' : List Message} {m : Message}
    (h : Settled q) (hsub : q'.Sublist q) (hlast : Lasting m)
    (hid : m.action ≠ .publish → ∀ x ∈ q', x.identity ≠ m.identity)
    (hcross : m.action = .publish → ∀ a ∈ q, m.cursor < a.cursor →
      a.action = .publish ∨ a.identity ≠ m.identity)
    (hfit : ∀ a ∈ q, m.cursor < a.cursor → m.limit ≤ a.limit ∨ q.length < a.limit) :
    Settled ((insert now m q').rtake m.limit) where
  settles := by
    refine (pairwise_settles_insert (h.settles.sublist hsub) (fun a ha hlt => ?_) hid).sublist
      (rtake_sublist _ _)
    by_cases hact : m.action = .publish
    · exact hcross hact a (hsub.subset ha) hlt
    · exact Or.inr (hid hact a ha)
  lasting x hx := by
    rcases mem_insert.mp ((rtake_sublist _ _).subset hx) with rfl | hx
    · rwa [bornAt_of_ne hlast.1]
    · exact h.lasting x (hsub.subset hx)
  fits := fits_insert (h.ordered.sublist hsub) (h.fits.sublist hsub) fun a ha hlt =>
    (hfit a (hsub.subset ha) hlt).imp_right hsub.length_le.trans_lt

private theorem settled_rewrite {q : List Message} {m : Message} (h : Settled q)
    {f : Message → Message → Message}
    (hf : ∀ x, (f x m).cursor = x.cursor ∧ (f x m).identity = x.identity ∧
      (f x m).action = x.action ∧ (f x m).limit = m.limit)
    (hlast : ∀ x, Lasting x → Lasting (f x m)) :
    Settled ((rewrite f m q).rtake m.limit) := by
  set g : Message → Message := fun x => if x.identity = m.identity then f x m else x with hg
  have hkeep : ∀ x, (g x).cursor = x.cursor ∧ (g x).identity = x.identity ∧
      (g x).action = x.action := by
    intro x
    simp only [hg]
    split
    · exact ⟨(hf x).1, (hf x).2.1, (hf x).2.2.1⟩
    · exact ⟨rfl, rfl, rfl⟩
  have hcut : (rewrite f m q).rtake m.limit = (q.rtake m.limit).map g :=
    rtake_rewrite f m m.limit q
  have hq := h.sublist (rtake_sublist m.limit q)
  rw [hcut]
  refine ⟨hq.settles.map g fun a b hab => ?_, fun x hx => ?_, hq.fits.map fun x _ => ?_⟩
  · rwa [Settles, (hkeep a).1, (hkeep a).2.1, (hkeep b).1, (hkeep b).2.1, (hkeep b).2.2]
  · obtain ⟨y, hy, rfl⟩ := List.mem_map.mp hx
    simp only [hg]
    split
    · exact hlast y (hq.lasting y hy)
    · exact hq.lasting y hy
  · simp only [hg]
    split
    · refine Or.inr ?_
      rw [(hf x).2.2.2, Nat.zero_add]
      exact StableOrder.length_rtake_le _ _
    · exact Or.inl rfl

/-- `push` keeps a queue settled if a published message gets before no message that would address
it, and moves none beyond the limit of that one. -/
theorem Settled.store {q : List Message} (h : Settled q) (now : TimeT) {m : Message}
    (hbirth : m.birthtime ≠ 0) (hupd : m.action = .update → m.lifetime ≠ 0)
    (hcross : m.action = .publish → ∀ a ∈ q, m.cursor < a.cursor →
      a.action = .publish ∨ a.identity ≠ m.identity)
    (hfit : ∀ a ∈ q, m.cursor < a.cursor → m.limit ≤ a.limit ∨ q.length < a.limit) :
    Settled (store now m q) := by
  have hwithout : ∀ x ∈ without m q, x.identity ≠ m.identity := fun x hx => by
    simpa using (List.mem_filter.mp hx).2
  have hsub : (without m q).Sublist q := List.filter_sublist
  have hrewrite : ∀ f : Message → Message → Message,
      (∀ x, (f x m).cursor = x.cursor ∧ (f x m).identity = x.identity ∧
        (f x m).action = x.action ∧ (f x m).limit = m.limit) →
      (∀ x, Lasting x → Lasting (f x m)) →
      Settled ((rewriteOrInsert f now m q).rtake m.limit) := by
    intro f hf hlast
    rw [rewriteOrInsert]
    split
    · next hcond =>
      exact settled_insert h (List.Sublist.refl q) ⟨hbirth, Or.inr hcond.1⟩
        (fun _ => hcond.2) hcross hfit
    · exact settled_rewrite h hf hlast
  rw [Contents.store]
  split
  · split
    · exact settled_nil
    · exact h
  · next hstored =>
    rw [place]
    cases hact : m.action with
    | publish =>
      have hlife : m.lifetime ≠ 0 := fun h0 => hstored ⟨hact, by simp [Message.unlimited, h0]⟩
      exact settled_insert h (List.Sublist.refl q) ⟨hbirth, Or.inr hlife⟩
        (fun hne => absurd hact hne) hcross hfit
    | modify =>
      refine hrewrite Message.modify (fun x => ?_) fun x hx => ?_
      · rw [Message.modify_eq]
        exact ⟨rfl, rfl, rfl, rfl⟩
      · rwa [Message.modify_eq]
    | update =>
      refine hrewrite Message.update (fun x => ?_) fun x _ => ?_
      · rw [Message.update_eq]
        exact ⟨rfl, rfl, rfl, rfl⟩
      · rw [Message.update_eq]
        exact ⟨hbirth, Or.inr (hupd hact)⟩
    | replace =>
      exact settled_insert h hsub ⟨hbirth, Or.inl hact⟩ (fun _ => hwithout) hcross hfit
    | remove =>
      dsimp only
      split
      · next hlife =>
        exact settled_insert h hsub ⟨hbirth, Or.inr hlife⟩ (fun _ => hwithout) hcross hfit
      · exact h.sublist ((rtake_sublist _ _).trans hsub)

/-! ### Messages in order of arrival -/

/-- The limit of `c` reaches a message that has arrived as `a`. -/
def Limits (c a : Message) : Prop :=
  c = a ∨ (c.action = .modify ∨ c.action = .update) ∧ c.identity = a.identity

/-- Messages in order of arrival whose queue a replay reproduces: each has a birthtime and no
update comes without a lifetime; none that addresses others arrives before a published one of its
identity and a smaller cursor; and where one arrives before another of a smaller cursor, the other
one has no larger limit, or the limit has room for all messages so far. -/
structure Replayable (ms : List Message) : Prop where
  birthtime : ∀ m ∈ ms, m.birthtime ≠ 0
  lifetime : ∀ m ∈ ms, m.action = .update → m.lifetime ≠ 0
  crossing : ms.Pairwise fun a b => b.cursor < a.cursor → b.action = .publish →
    a.action = .publish ∨ a.identity ≠ b.identity
  fits : ∀ p b s, ms = p ++ b :: s → ∀ a ∈ p, b.cursor < a.cursor → ∀ c ∈ p, Limits c a →
    b.limit ≤ c.limit ∨ p.length < c.limit

theorem Replayable.left {ms ms' : List Message} (h : Replayable (ms ++ ms')) :
    Replayable ms where
  birthtime a ha := h.birthtime a (List.mem_append_left _ ha)
  lifetime a ha := h.lifetime a (List.mem_append_left _ ha)
  crossing := h.crossing.sublist (List.sublist_append_left _ _)
  fits p b s hms := h.fits p b (s ++ ms') (by rw [hms, List.append_assoc, List.cons_append])

/-- No limit matters that has room for all messages, or is the largest of them. -/
theorem fits_of_forall_le {ms : List Message}
    (h : ∀ c ∈ ms, ms.length ≤ c.limit ∨ ∀ b ∈ ms, b.limit ≤ c.limit) :
    ∀ p b s, ms = p ++ b :: s → ∀ a ∈ p, b.cursor < a.cursor → ∀ c ∈ p, Limits c a →
      b.limit ≤ c.limit ∨ p.length < c.limit := by
  rintro p b s rfl - - - c hc -
  rcases h c (List.mem_append_left _ hc) with hroom | hleast
  · rw [List.length_append, List.length_cons] at hroom
    exact Or.inr (by omega)
  · exact Or.inl (hleast b (List.mem_append_right _ List.mem_cons_self))

/-- Cursor, identity and action of a stored message are those of one that has arrived, and its
limit is that of one that has rewritten it since or of the same one. -/
theorem exists_arrival {now : TimeT} {ms : List Message} {x : Message}
    (hx : x ∈ storeAll now ms []) :
    ∃ a ∈ ms, (x.cursor = a.cursor ∧ x.identity = a.identity ∧ x.action = a.action) ∧
      ∃ c ∈ ms, Limits c a ∧ x.limit = c.limit := by
  refine forall_mem_storeAll
    (P := fun x => ∃ a ∈ ms, (x.cursor = a.cursor ∧ x.identity = a.identity ∧
      x.action = a.action) ∧ ∃ c ∈ ms, Limits c a ∧ x.limit = c.limit)
    (List.forall_mem_nil _) (fun m hm => ?_) (fun m hm hact x hx hid => ?_)
    (fun m hm hact x hx hid => ?_) x hx
  · obtain ⟨t, ht⟩ := bornAt_eq now m
    rw [ht]
    exact ⟨m, hm, ⟨rfl, rfl, rfl⟩, m, hm, Or.inl rfl, rfl⟩
  · obtain ⟨a, ha, hkept, -⟩ := hx
    refine ⟨a, ha, by simpa using hkept, m, hm, ?_, by rw [Message.modify_eq]⟩
    exact Or.inr ⟨Or.inl hact, hid.symm.trans hkept.2.1⟩
  · obtain ⟨a, ha, hkept, -⟩ := hx
    refine ⟨a, ha, by simpa using hkept, m, hm, ?_, by rw [Message.update_eq]⟩
    exact Or.inr ⟨Or.inr hact, hid.symm.trans hkept.2.1⟩

/-- The queue of replayable messages is settled. -/
theorem settled_storeAll (now : TimeT) {ms : List Message} (h : Replayable ms) :
    Settled (storeAll now ms []) := by
  induction ms using List.reverseRecOn with
  | nil => exact settled_nil
  | append_singleton ms m ih =>
    have hm : m ∈ ms ++ [m] := List.mem_append_right _ List.mem_cons_self
    have hlen := length_storeAll_le now ms []
    rw [List.length_nil, Nat.zero_add] at hlen
    rw [storeAll_append, storeAll_cons, storeAll_nil]
    refine (ih h.left).store now (h.birthtime m hm) (h.lifetime m hm)
      (fun hact x hx hlt => ?_) fun x hx hlt => ?_
    · obtain ⟨a, ha, ⟨hcursor, hid, haction⟩, -⟩ := exists_arrival hx
      rw [hcursor] at hlt
      rw [hid, haction]
      exact (List.pairwise_append.mp h.crossing).2.2 a ha m List.mem_cons_self hlt hact
    · obtain ⟨a, ha, ⟨hcursor, -, -⟩, c, hc, hlimits, hlimit⟩ := exists_arrival hx
      rw [hcursor] at hlt
      rw [hlimit]
      exact (h.fits ms m [] rfl a ha hlt c hc hlimits).imp_right hlen.trans_lt

/-- Messages with birthtimes give a queue of such. -/
theorem birthtime_ne_of_mem_storeAll {now : TimeT} {ms : List Message}
    (h : ∀ m ∈ ms, m.birthtime ≠ 0) : ∀ x ∈ storeAll now ms [], x.birthtime ≠ 0 := by
  refine forall_mem_storeAll (List.forall_mem_nil _) (fun m hm => ?_) (fun m _ _ x hx _ => ?_)
    fun m hm _ x _ _ => ?_
  · rw [bornAt_of_ne (h m hm)]
    exact h m hm
  · rwa [Message.modify_eq]
  · rw [Message.update_eq]
    exact h m hm

/-- Messages none of which is dead give a queue without dead ones. -/
theorem forall_live_storeAll {now now' : TimeT} {ms q : List Message}
    (hq : ∀ m ∈ q, now ≤ m.deathtime) (hbirth : ∀ m ∈ ms, m.birthtime ≠ 0)
    (hlive : ∀ m ∈ ms, now ≤ m.deathtime) :
    ∀ x ∈ storeAll now' ms q, now ≤ x.deathtime := by
  refine forall_mem_storeAll hq (fun m hm => ?_) (fun m _ _ x hx _ => ?_) fun m hm _ x _ _ => ?_
  · rw [bornAt_of_ne (hbirth m hm)]
    exact hlive m hm
  · rwa [Message.modify_deathtime]
  · rw [Message.update_deathtime]
    exact hlive m hm

end Contents

end WfcPubsub
