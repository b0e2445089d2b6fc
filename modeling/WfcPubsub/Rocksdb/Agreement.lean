import WfcPubsub.Rocksdb.Reading

/-!
# The cache and the persistent store

A message accepted by `publish` may go to the cache, to the persistent store or to both, and
`get_messages` reads the one where the other is empty. The cache drops dead messages at each
push; the store replays all of them at the time of the reading and drops the dead ones at the
end, and then replays what is left. So two things can bring them apart. Dead messages may matter
to a push of the replay: it rewrites one, or its limit cuts off a live one and keeps a dead one
(`Contents.Untouched`). And the second replay may lose messages: it does not exactly where the
live messages of the cache are settled.

## Main definitions

* `cacheOf`, `databaseOf` : where a sequence of messages goes.
* `Contents.Untouched`, `Agreeable`

## Main results

* `live_cacheOf` : what is live in the cache is live in the replay.
* `cacheOf_eq_databaseOf` : when the cache and the store give the same history.
* `cacheOf_ne_databaseOf` : what goes wrong elsewhere.
-/

namespace WfcPubsub

open Contents MessageQueue
open StableOrder (rtake_of_length_le rtake_sublist)

variable {V : Type}

/-- The queue after the messages have been pushed, each at its own birthtime. -/
def cacheOf (ms : List Message) : MessageQueue :=
  ms.foldl (fun mq m => (mq.pushMessage m.birthtime m).1) .new

/-- The database after the messages have been recorded as operands. -/
def databaseOf (json : Wjson V) (name : String) (ms : List Message) : Rocksdb V :=
  ms.foldl (fun r m => (r.push json name m).1) {}

theorem cacheOf_concat (ms : List Message) (m : Message) :
    cacheOf (ms ++ [m]) = ((cacheOf ms).push m.birthtime (.make m)).1 :=
  List.foldl_concat ..

theorem wellFormed_cacheOf (ms : List Message) : (cacheOf ms).WellFormed := by
  induction ms using List.reverseRecOn with
  | nil => exact wellFormed_new
  | append_singleton ms m ih =>
    rw [cacheOf_concat]
    exact ih.push _ _

namespace Contents

/-! ### A push that no dead message touches -/

/-- At the time `t`, dead messages do not matter to the push of `m` on `q`: it rewrites none, and
its limit cuts off none but dead messages or keeps none of them. -/
structure Untouched (t : TimeT) (m : Message) (q : List Message) : Prop where
  found : m.action = .modify ∨ m.action = .update → ∀ x ∈ q, x.identity = m.identity →
    t ≤ x.deathtime
  cut : (∀ x ∈ cutOff t m q, x.deathtime < t) ∨ ∀ x ∈ store t m q, x ∈ q → t ≤ x.deathtime

instance (t : TimeT) (m : Message) (q : List Message) : Decidable (Untouched t m q) :=
  decidable_of_iff ((m.action = .modify ∨ m.action = .update → ∀ x ∈ q,
      x.identity = m.identity → t ≤ x.deathtime) ∧
      ((∀ x ∈ cutOff t m q, x.deathtime < t) ∨ ∀ x ∈ store t m q, x ∈ q → t ≤ x.deathtime))
    ⟨fun h => ⟨h.1, h.2⟩, fun h => ⟨h.found, h.cut⟩⟩

theorem untouched_of_live {t : TimeT} {m : Message} {q : List Message}
    (h : ∀ x ∈ q, t ≤ x.deathtime) : Untouched t m q :=
  ⟨fun _ x hx _ => h x hx, Or.inr fun x _ hx => h x hx⟩

/-- The messages of `l` are those of `l'` and, between them, dead messages of `q`: of a list that
marks the ones and the others, `l` are all and `l'` the marked ones. -/
private def Marked (t : TimeT) (q l l' : List Message) : Prop :=
  ∃ z : List (Bool × Message), z.map Prod.snd = l ∧ (z.filter Prod.fst).map Prod.snd = l' ∧
    ∀ a ∈ z, a.1 = false → a.2 ∈ q ∧ a.2.deathtime < t

section Marked

variable {t : TimeT} {m : Message} {q q' l₁ l₁' l₂ l₂' : List Message}

private theorem Marked.append (h₁ : Marked t q l₁ l₁') (h₂ : Marked t q l₂ l₂') :
    Marked t q (l₁ ++ l₂) (l₁' ++ l₂') := by
  obtain ⟨z₁, rfl, rfl, hdead₁⟩ := h₁
  obtain ⟨z₂, rfl, rfl, hdead₂⟩ := h₂
  refine ⟨z₁ ++ z₂, List.map_append, by rw [List.filter_append, List.map_append], ?_⟩
  exact fun a ha => (List.mem_append.mp ha).elim (hdead₁ a) (hdead₂ a)

private theorem Marked.cons (h : Marked t q l₁ l₁') (m : Message) :
    Marked t q (m :: l₁) (m :: l₁') := by
  obtain ⟨z, rfl, rfl, hdead⟩ := h
  refine ⟨(true, m) :: z, rfl, by rw [List.filter_cons_of_pos rfl, List.map_cons], ?_⟩
  rintro a ha hmark
  rcases List.mem_cons.mp ha with rfl | ha
  · cases hmark
  · exact hdead a ha hmark

/-- A change that leaves the dead messages alone. -/
private theorem marked_map (hsub : q' ⊆ q) {f : Message → Message}
    (hf : ∀ x ∈ q', x.deathtime < t → f x = x) : Marked t q (q'.map f) ((live t q').map f) := by
  refine ⟨q'.map fun x => (decide (t ≤ x.deathtime), f x), ?_, ?_, fun a ha hmark => ?_⟩
  · rw [List.map_map]
    rfl
  · rw [List.filter_map, List.map_map]
    rfl
  · obtain ⟨x, hx, rfl⟩ := List.mem_map.mp ha
    have hlt : x.deathtime < t := by simpa using hmark
    dsimp only
    rw [hf x hx hlt]
    exact ⟨hsub hx, hlt⟩

private theorem marked_live (hsub : q' ⊆ q) : Marked t q q' (live t q') := by
  have hmarked := marked_map (t := t) hsub (f := id) fun _ _ _ => rfl
  rwa [List.map_id, List.map_id] at hmarked

private theorem marked_insert (hord : Ordered q') (hsub : q' ⊆ q) :
    Marked t q (insert t m q') (insert t m (live t q')) := by
  have hlive : ∀ p : Message → Bool, (live t q').filter p = live t (q'.filter p) := fun p =>
    List.filter_comm ..
  have hpart : ∀ p : Message → Bool, q'.filter p ⊆ q := fun p x hx =>
    hsub (List.mem_of_mem_filter hx)
  rw [insert_eq hord, insert_eq (hord.sublist (live_sublist t q')), hlive, hlive]
  exact (marked_live (hpart _)).append ((marked_live (hpart _)).cons _)

/-- Where the messages found are alive, the live part is rewritten alike. -/
private theorem marked_rewriteOrInsert (hord : Ordered q)
    (hfound : ∀ x ∈ q, x.identity = m.identity → t ≤ x.deathtime)
    (f : Message → Message → Message) :
    Marked t q (rewriteOrInsert f t m q) (rewriteOrInsert f t m (live t q)) := by
  by_cases hid : ∀ x ∈ q, x.identity ≠ m.identity
  · rw [rewriteOrInsert_of_forall_ne hid,
      rewriteOrInsert_of_forall_ne fun x hx => hid x ((live_sublist t q).subset hx)]
    split
    · exact marked_insert hord (List.Subset.refl q)
    · exact marked_live (List.Subset.refl q)
  · obtain ⟨y, hy, hyid⟩ : ∃ y ∈ q, y.identity = m.identity := by simpa using hid
    rw [rewriteOrInsert_of_exists ⟨y, hy, hyid⟩,
      rewriteOrInsert_of_exists ⟨y, mem_live.mpr ⟨hy, hfound y hy hyid⟩, hyid⟩]
    refine marked_map (List.Subset.refl q) fun x hx hlt => if_neg fun heq => ?_
    exact absurd (hfound x hx heq) (not_le.mpr hlt)

/-- What an action makes of a queue and of its live part. -/
private theorem marked_place (hord : Ordered q)
    (h : m.action = .modify ∨ m.action = .update → ∀ x ∈ q, x.identity = m.identity →
      t ≤ x.deathtime) :
    Marked t q (place t m q) (place t m (live t q)) := by
  have hwithout : without m (live t q) = live t (without m q) := List.filter_comm ..
  have hsub : without m q ⊆ q := List.filter_sublist.subset
  rw [place, place]
  cases hact : m.action with
  | publish => exact marked_insert hord (List.Subset.refl q)
  | modify => exact marked_rewriteOrInsert hord (h (Or.inl hact)) _
  | update => exact marked_rewriteOrInsert hord (h (Or.inr hact)) _
  | replace =>
    dsimp only
    rw [hwithout]
    exact marked_insert (hord.without m) hsub
  | remove =>
    dsimp only
    rw [hwithout]
    split
    · exact marked_insert (hord.without m) hsub
    · exact marked_live hsub

end Marked

/-- A push that no dead message touches leaves alive what it leaves alive without them. -/
theorem Untouched.live_store {t : TimeT} {m : Message} {q : List Message}
    (h : Untouched t m q) (hord : Ordered q) (hlife : m.lifetime ≠ 0) (hlimit : m.limit ≠ 0) :
    live t (store t m (live t q)) = live t (store t m q) := by
  have hun : ¬ (m.action = .publish ∧ m.unlimited = true) := by
    simp [Message.unlimited_eq_false_iff.mpr ⟨hlife, hlimit⟩]
  have hcut := h.cut
  rw [cutOff, if_neg hun, store_of_not_unlimited hlife hlimit] at hcut
  obtain ⟨z, hz, hkept, hdead⟩ := marked_place hord h.found
  rw [store_of_not_unlimited hlife hlimit, store_of_not_unlimited hlife hlimit, ← hz, ← hkept]
  rw [← hz] at hcut
  simp only [live, StableOrder.rtake_map, List.rdrop, ← List.map_take, List.length_map,
    List.filter_map] at hcut ⊢
  refine congrArg (List.map Prod.snd) (StableOrder.filter_rtake_filter (fun a ha halive => ?_) ?_)
  · by_contra hmark
    have hlt := (hdead a ha (by simpa using hmark)).2
    exact absurd (by simpa using halive) (not_le.mpr hlt)
  · refine hcut.imp (fun hall a ha => ?_) fun hall a ha => ?_
    · have hlt := hall a.2 (List.mem_map_of_mem ha)
      simpa using hlt
    · by_contra hmark
      obtain ⟨hmem, hlt⟩ := hdead a ((rtake_sublist _ _).subset ha) (by simpa using hmark)
      exact absurd (hall a.2 (List.mem_map_of_mem ha) hmem) (not_le.mpr hlt)

/-- A message with a birthtime is stored alike at all times. -/
theorem store_congr_now {m : Message} (hbirth : m.birthtime ≠ 0) (now now' : TimeT)
    (q : List Message) : store now m q = store now' m q := by
  have hinsert : ∀ q, insert now m q = insert now' m q := fun q => by
    rw [insert, insert, bornAt_of_ne hbirth, bornAt_of_ne hbirth]
  simp only [store, place, rewriteOrInsert, hinsert]

end Contents

/-! ### Cache and replay step by step -/

/-- Accepted by `publish` at non-decreasing times up to `now`. -/
structure Accepted (now : TimeT) (ms : List Message) : Prop where
  birthtime : ∀ m ∈ ms, 0 < m.birthtime ∧ m.birthtime ≤ now
  increasing : ms.Pairwise fun a b => a.birthtime ≤ b.birthtime
  lifetime : ∀ m ∈ ms, 0 < m.lifetime
  limit : ∀ m ∈ ms, 0 < m.limit

instance (now : TimeT) (ms : List Message) : Decidable (Accepted now ms) :=
  decidable_of_iff ((∀ m ∈ ms, 0 < m.birthtime ∧ m.birthtime ≤ now) ∧
      (ms.Pairwise fun a b => a.birthtime ≤ b.birthtime) ∧ (∀ m ∈ ms, 0 < m.lifetime) ∧
      ∀ m ∈ ms, 0 < m.limit)
    ⟨fun h => ⟨h.1, h.2.1, h.2.2.1, h.2.2.2⟩,
      fun h => ⟨h.birthtime, h.increasing, h.lifetime, h.limit⟩⟩

/-- Dead messages do not matter to any of the pushes, on the replay of the messages before and on
what the push finds of them in the cache. -/
def Agreeable (now : TimeT) (ms : List Message) : Prop :=
  ∀ p m s, ms = p ++ m :: s → Untouched m.birthtime m (storeAll now p []) ∧
    Untouched m.birthtime m ((cacheOf p).foundAt m.birthtime)

variable {now : TimeT} {ms : List Message}

theorem Accepted.left {ms' : List Message} (h : Accepted now (ms ++ ms')) : Accepted now ms where
  birthtime a ha := h.birthtime a (List.mem_append_left _ ha)
  increasing := h.increasing.sublist (List.sublist_append_left _ _)
  lifetime a ha := h.lifetime a (List.mem_append_left _ ha)
  limit a ha := h.limit a (List.mem_append_left _ ha)

theorem Agreeable.left {ms' : List Message} (h : Agreeable now (ms ++ ms')) : Agreeable now ms :=
  fun p a s hms => h p a (s ++ ms') (by rw [hms, List.append_assoc, List.cons_append])

/-- From the last push on, what is alive in the cache is what is alive in the replay. -/
private theorem live_cacheOf_of_le (h : Accepted now ms) (hagree : Agreeable now ms) (t : TimeT)
    (ht : ∀ m ∈ ms, m.birthtime ≤ t) :
    live t (cacheOf ms).messages = live t (storeAll now ms []) := by
  induction ms using List.reverseRecOn generalizing t with
  | nil => rfl
  | append_singleton ms m ih =>
    have hm : m ∈ ms ++ [m] := List.mem_append_right _ List.mem_cons_self
    have hlife := (h.lifetime m hm).ne'
    have hlimit := (h.limit m hm).ne'
    obtain ⟨hreplay, hcache⟩ := hagree ms m [] rfl
    have hbefore := ih h.left hagree.left m.birthtime fun a ha =>
      (List.pairwise_append.mp h.increasing).2.2 a ha m List.mem_cons_self
    have hfound : live m.birthtime ((cacheOf ms).foundAt m.birthtime) =
        live m.birthtime (cacheOf ms).messages := by
      rw [foundAt]
      split
      · exact live_live le_rfl _
      · rfl
    have hordered : Ordered ((cacheOf ms).foundAt m.birthtime) :=
      (wellFormed_cacheOf ms).ordered_messages.sublist (foundAt_sublist _ _)
    have hpush : (cacheOf (ms ++ [m])).messages =
        store m.birthtime m ((cacheOf ms).foundAt m.birthtime) := by
      rw [cacheOf_concat, messages_push (wellFormed_cacheOf ms)]
      rfl
    have hnow : live m.birthtime (cacheOf (ms ++ [m])).messages =
        live m.birthtime (storeAll now (ms ++ [m]) []) := by
      rw [hpush, ← hcache.live_store hordered hlife hlimit, hfound, hbefore,
        hreplay.live_store (ordered_storeAll now ms) hlife hlimit, storeAll_append, storeAll_cons,
        storeAll_nil, store_congr_now (h.birthtime m hm).1.ne' now m.birthtime]
    rw [← live_live (ht m hm), hnow, live_live (ht m hm)]

/-- What is live in the cache at the end is what is live in the replay. -/
theorem live_cacheOf (h : Accepted now ms) (hagree : Agreeable now ms) :
    live now (cacheOf ms).messages = live now (storeAll now ms []) :=
  live_cacheOf_of_le h hagree now fun m hm => (h.birthtime m hm).2

/-- A cache of messages none of which is dead has none. -/
private theorem forall_live_cacheOf (h : Accepted now ms) (hlive : ∀ m ∈ ms, now ≤ m.deathtime) :
    ∀ x ∈ (cacheOf ms).messages, now ≤ x.deathtime := by
  induction ms using List.reverseRecOn with
  | nil => exact List.forall_mem_nil _
  | append_singleton ms m ih =>
    have hm : m ∈ ms ++ [m] := List.mem_append_right _ List.mem_cons_self
    have hfound : ∀ x ∈ (cacheOf ms).foundAt m.birthtime, now ≤ x.deathtime := fun x hx =>
      ih h.left (fun a ha => hlive a (List.mem_append_left _ ha)) x
        ((foundAt_sublist _ _).subset hx)
    rw [cacheOf_concat, messages_push (wellFormed_cacheOf ms)]
    exact forall_live_storeAll hfound
      (List.forall_mem_singleton.mpr (h.birthtime m hm).1.ne')
      (List.forall_mem_singleton.mpr (hlive m hm))

/-- Dead messages do not matter where there are none. -/
theorem agreeable_of_live (h : Accepted now ms) (hlive : ∀ m ∈ ms, now ≤ m.deathtime) :
    Agreeable now ms := by
  rintro p m s rfl
  have hnow : m.birthtime ≤ now :=
    (h.birthtime m (List.mem_append_right _ List.mem_cons_self)).2
  have hbefore : ∀ a ∈ p, now ≤ a.deathtime := fun a ha => hlive a (List.mem_append_left _ ha)
  refine ⟨untouched_of_live fun x hx => hnow.trans ?_, untouched_of_live fun x hx => hnow.trans ?_⟩
  · exact forall_live_storeAll (List.forall_mem_nil _)
      (fun a ha => (h.left.birthtime a ha).1.ne') hbefore x hx
  · exact forall_live_cacheOf h.left hbefore x ((foundAt_sublist _ _).subset hx)

/-! ### The two histories -/

theorem databaseOf_db (json : Wjson V) (name : String) (ms : List Message) :
    (databaseOf json name ms).db name = { operands := ms.map fun m => json.write [m] } := by
  induction ms using List.reverseRecOn with
  | nil => rfl
  | append_singleton ms m ih =>
    have hlast : databaseOf json name (ms ++ [m]) =
        ((databaseOf json name ms).push json name m).1 := List.foldl_concat ..
    rw [hlast, Rocksdb.push_db, ih, List.map_append]
    rfl

/-- A database holds what a second replay leaves of the live part of the first. -/
theorem held_databaseOf (json : Wjson V) (name : String) {now : TimeT} {ms : List Message}
    (hwire : ∀ m ∈ ms, m.wire = m) :
    (databaseOf json name ms).held json now name =
      live now (storeAll now (live now (storeAll now ms [])) []) := by
  have harrivals : ((databaseOf json name ms).db name).arrivals json = ms := by
    rw [databaseOf_db, Rocksdb.Entry.arrivals, Option.toList_none, List.nil_append,
      List.flatMap_map]
    simp only [Wjson.decode_write, List.map_cons, List.map_nil, ← List.map_eq_flatMap]
    exact map_wire_eq_self hwire
  cases ms with
  | nil => rfl
  | cons m ms =>
    have hne : ((databaseOf json name (m :: ms)).db name).operands ≠ [] := by
      rw [databaseOf_db]
      simp
    have hmap : (live now (storeAll now (m :: ms) [])).map Message.wire =
        live now (storeAll now (m :: ms) []) :=
      map_wire_eq_self fun x hx => wire_of_mem_storeAll hwire x ((live_sublist _ _).subset hx)
    rw [Rocksdb.held, Rocksdb.Entry.held_of_operands json now hne, harrivals, hmap]

theorem exists_cursor_le (q : List Message) : ∃ c : CursorT, ∀ x ∈ q, c ≤ x.cursor := by
  induction q with
  | nil => exact ⟨0, List.forall_mem_nil _⟩
  | cons a q ih =>
    obtain ⟨c, hc⟩ := ih
    exact ⟨min a.cursor c, List.forall_mem_cons.mpr
      ⟨min_le_left _ _, fun x hx => (min_le_right _ _).trans (hc x hx)⟩⟩

/-- Queues that are read alike are the same. -/
theorem eq_of_select_eq {q q' : List Message}
    (h : ∀ cursor limit, select cursor limit q = select cursor limit q') : q = q' := by
  obtain ⟨c, hc⟩ := exists_cursor_le (q ++ q')
  have hall : ∀ l : List Message, l.length ≤ max q.length q'.length → l ⊆ q ++ q' →
      select c (max q.length q'.length) l = l := by
    intro l hlen hsub
    rw [select, List.filter_eq_self.mpr fun x hx => decide_eq_true (hc x (hsub hx)),
      rtake_of_length_le hlen]
  rw [← hall q (le_max_left _ _) (List.subset_append_left _ _), h,
    hall q' (le_max_right _ _) (List.subset_append_right _ _)]

/-- **The cache and the store give the same history.** Let messages be accepted at non-decreasing
times, and dead ones not matter to any push. Then they are read alike from the queue to which each
was pushed at its time and from the database where all of them were recorded iff what is alive in
the queue is settled. It is so where the messages are replayable. -/
theorem cacheOf_eq_databaseOf (json : Wjson V) (name : String) {now : TimeT} {ms : List Message}
    (h : Accepted now ms) (hwire : ∀ m ∈ ms, m.wire = m) (hagree : Agreeable now ms) :
    ((∀ cursor limit, ((cacheOf ms).removeDeath now).copyTo cursor limit [] =
        ((databaseOf json name ms).getMessages json now [] name cursor limit).2) ↔
      Settled (live now (cacheOf ms).messages)) ∧
    (Replayable ms → ∀ cursor limit, ((cacheOf ms).removeDeath now).copyTo cursor limit [] =
        ((databaseOf json name ms).getMessages json now [] name cursor limit).2) := by
  set q := live now (cacheOf ms).messages with hq
  have hlive : live now (storeAll now ms []) = q := (live_cacheOf h hagree).symm
  have hread : ∀ cursor limit, (((cacheOf ms).removeDeath now).copyTo cursor limit [] =
      ((databaseOf json name ms).getMessages json now [] name cursor limit).2) ↔
        select cursor limit q = select cursor limit (live now (storeAll now q [])) := by
    intro cursor limit
    rw [copyTo_messages ((wellFormed_cacheOf ms).removeDeath now),
      messages_removeDeath (wellFormed_cacheOf ms), ← hq, Rocksdb.getMessages_eq,
      held_databaseOf json name hwire, hlive, List.nil_append, List.nil_append]
  have hsettles : Settled q → ∀ cursor limit,
      select cursor limit q = select cursor limit (live now (storeAll now q [])) := by
    intro hsettled cursor limit
    rw [storeAll_settled now hsettled, hq, live_live le_rfl]
  simp only [hread]
  refine ⟨⟨fun hsame => ?_, hsettles⟩, fun hreplay => hsettles ?_⟩
  · have hreplayed : q = live now (storeAll now q []) := eq_of_select_eq hsame
    have hbirth : ∀ m ∈ q, m.birthtime ≠ 0 := fun m hm =>
      birthtime_ne_of_mem_storeAll (fun a ha => (h.birthtime a ha).1.ne') m
        ((live_sublist _ _).subset (hlive ▸ hm))
    have hord : Ordered q := (wellFormed_cacheOf ms).ordered_messages.sublist (live_sublist _ _)
    exact settled_of_length_le hord hbirth
      ((congrArg List.length hreplayed).le.trans (live_sublist _ _).length_le)
  · exact hlive ▸ (settled_storeAll now hreplay).sublist (live_sublist _ _)

section Examples

open Message (sample)

/-- A live message, a later one that replaces it, and a third one of a smaller cursor and with the
same limit. -/
theorem cacheOf_eq_databaseOf_live :
    let ms := [sample "a" 1, { sample "a" 3 with action := .replace }, sample "b" 2]
    ∀ cursor limit, ((cacheOf ms).removeDeath 120).copyTo cursor limit [] =
      ((databaseOf .plain "channel" ms).getMessages .plain 120 [] "channel" cursor limit).2 :=
  (cacheOf_eq_databaseOf .plain "channel" (by decide) (by decide)
    (agreeable_of_live (by decide) (by decide))).2
    ⟨by decide, by decide, by decide, fits_of_forall_le (by decide)⟩

/-- The histories differ where a dead message is updated, where a dead one takes up the slot of
a live one, where a message with the limit 1 arrives before one of a smaller cursor, and where
a `replace` does. -/
theorem cacheOf_ne_databaseOf :
    let histories := [[{ sample "a" 1 with birthtime := 1, lifetime := 1 },
        { sample "a" 5 with action := .update }],
      [{ sample "a" 1 with birthtime := 1, lifetime := 200 },
        { sample "b" 2 with birthtime := 1, lifetime := 1 }, { sample "c" 3 with limit := 2 }],
      [{ sample "b" 2 with limit := 1 }, sample "a" 1],
      [{ sample "a" 2 with action := .replace }, sample "a" 1]]
    (∀ ms ∈ histories, Accepted 100 ms ∧ ∀ m ∈ ms, m.wire = m) ∧
      ∀ ms ∈ histories, ((cacheOf ms).removeDeath 100).copyTo 0 10 [] ≠
        ((databaseOf .plain "channel" ms).getMessages .plain 100 [] "channel" 0 10).2 := by
  decide

end Examples

end WfcPubsub
