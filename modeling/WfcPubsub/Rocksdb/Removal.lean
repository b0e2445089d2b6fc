import WfcPubsub.Rocksdb.Reading

/-!
# Removal by identity in the persistent store

`remove` and `replace` remove the earlier messages of their identity from the queue they are
pushed to. The persistent store pushes a message to one database, which the lifetime of that
very message selects, and a reading collects from all of them. So the removal reaches the
messages of its own database only, and those of the same identity in another one are still read.

## Main definitions

* `MultiRocksdb.recorded` : the databases after a history of pushes on one channel.
* `Supersedes` : nothing of the identity but the message itself.

## Main results

* `Rocksdb.supersedes_held_push` : removal within one database.
* `MultiRocksdb.supersedes_iff` : when it works for all of them.
* `MultiRocksdb.not_supersedes` : a history for which it does not.
-/

namespace WfcPubsub

open Contents

variable {V : Type}

/-- Of the identity of `m` there is nothing but `m`, born at some time. -/
def Supersedes (m : Message) (ml : List Message) : Prop :=
  ∀ x ∈ ml, x.identity = m.identity → x = { m.wire with birthtime := x.birthtime }

instance (m : Message) (ml : List Message) : Decidable (Supersedes m ml) :=
  inferInstanceAs (Decidable (∀ x ∈ ml, x.identity = m.identity →
    x = { m.wire with birthtime := x.birthtime }))

/-! ### Within one database -/

section Removing

variable {m : Message}

/-- Behind a push of `remove` or `replace` nothing else of its identity is left. -/
theorem supersedes_store (hact : m.action = .remove ∨ m.action = .replace) (now : TimeT)
    (q : List Message) : Supersedes m ((store now m.wire q).map Message.wire) := by
  have hnot : m.action ≠ .publish ∧ m.action ≠ .modify ∧ m.action ≠ .update := by
    rcases hact with h | h <;> simp [h]
  rintro x hx hid
  obtain ⟨y, hy, rfl⟩ := List.mem_map.mp hx
  cases origin_store hy with
  | kept hmem hkept => exact absurd (hkept hid) hnot.1
  | born hy =>
    obtain ⟨t, ht⟩ := bornAt_eq now m.wire
    rw [hy, ht]
    rfl
  | modified z hz hzid hmodify hy => exact absurd hmodify hnot.2.1
  | updated z hz hzid hupdate hy => exact absurd hupdate hnot.2.2

/-- Messages that have nothing else of the identity have nothing to rewrite it with when they are
pushed again. -/
theorem supersedes_storeAll (hact : m.action = .remove ∨ m.action = .replace) (now : TimeT)
    {ms : List Message} (h : Supersedes m ms) : Supersedes m (storeAll now ms []) := by
  have hrewrite : ∀ a ∈ ms, (a.action = .modify ∨ a.action = .update) →
      a.identity ≠ m.identity := by
    rintro a ha haction hid
    have haeq : a.action = m.action := by
      rw [h a ha hid]
      rfl
    rw [haeq] at haction
    rcases hact with hm | hm <;> simp [hm] at haction
  refine forall_mem_storeAll
    (P := fun x => x.identity = m.identity → x = { m.wire with birthtime := x.birthtime })
    (List.forall_mem_nil _) (fun a ha => ?_) (fun a ha hmod y _ hid hyid => ?_)
    (fun a ha hupd y _ hid hyid => ?_)
  · obtain ⟨t, ht⟩ := bornAt_eq now a
    rw [ht]
    rintro hid
    rw [h a ha hid]
  · rw [Message.modify_identity] at hyid
    exact absurd (hid.symm.trans hyid) (hrewrite a ha (Or.inl hmod))
  · rw [Message.update_identity] at hyid
    exact absurd (hid.symm.trans hyid) (hrewrite a ha (Or.inr hupd))

end Removing

namespace Rocksdb

/-- A database to which `remove` or `replace` has been pushed holds nothing else of its
identity. -/
theorem supersedes_held_push (json : Wjson V) (now : TimeT) (name : String) {m : Message}
    (hact : m.action = .remove ∨ m.action = .replace) (r : Rocksdb V) :
    Supersedes m ((r.push json name m).1.held json now name) := by
  have hmerge := supersedes_store hact now (storeAll now ((r.db name).arrivals json) [])
  have hlive : Supersedes m ((live now (store now m.wire (storeAll now
      ((r.db name).arrivals json) []))).map Message.wire) :=
    fun x hx => hmerge x ((List.Sublist.map _ (live_sublist _ _)).subset hx)
  rw [held_push]
  exact fun x hx => supersedes_storeAll hact now hlive x (mem_live.mp hx).1

/-- Identity and lifetime of a message held are those of one that has arrived, the lifetime
perhaps of a later one. -/
theorem exists_arrival_of_mem_held {json : Wjson V} {now : TimeT} {name : String}
    {r : Rocksdb V} {x : Message} (hx : x ∈ r.held json now name) :
    (∃ a ∈ (r.db name).arrivals json, x.identity = a.identity) ∧
      ∃ a ∈ (r.db name).arrivals json, x.lifetime = a.lifetime := by
  set arrivals := (r.db name).arrivals json with harrivals
  have hstore : ∀ ms : List Message,
      (∀ m ∈ ms, (∃ a ∈ arrivals, m.identity = a.identity) ∧
        ∃ a ∈ arrivals, m.lifetime = a.lifetime) →
      ∀ y ∈ storeAll now ms [], (∃ a ∈ arrivals, y.identity = a.identity) ∧
        ∃ a ∈ arrivals, y.lifetime = a.lifetime := by
    intro ms hms
    refine forall_mem_storeAll (List.forall_mem_nil _) (fun m hm => ?_) (fun m _ _ y hy _ => ?_)
      fun m hm _ y hy _ => ?_
    · obtain ⟨t, ht⟩ := bornAt_eq now m
      rw [ht]
      exact hms m hm
    · rwa [Message.modify_eq]
    · rw [Message.update_eq]
      exact ⟨hy.1, (hms m hm).2⟩
  by_cases hne : (r.db name).operands = []
  · -- Nothing to merge: the value itself is replayed.
    rw [held, Entry.held, Entry.get, if_pos (by simpa using hne)] at hx
    split at hx
    · cases hx
    · next value hvalue =>
      split at hx
      · cases hx
      · have hdecode : json.decode value = arrivals := by
          rw [harrivals, Entry.arrivals, hvalue, hne]
          simp
        rw [hdecode] at hx
        exact hstore arrivals (fun m hm => ⟨⟨m, hm, rfl⟩, m, hm, rfl⟩) x (mem_live.mp hx).1
  · rw [held, Entry.held_of_operands json now hne] at hx
    refine hstore _ (fun m hm => ?_) x (mem_live.mp hx).1
    obtain ⟨y, hy, rfl⟩ := List.mem_map.mp hm
    exact hstore arrivals (fun m hm => ⟨⟨m, hm, rfl⟩, m, hm, rfl⟩) y (mem_live.mp hy).1

end Rocksdb

/-! ### All databases -/

namespace MultiRocksdb

/-- Databases just opened for a list of times to live, with nothing in them. -/
def opened (ttls : List TimeT) : MultiRocksdb V :=
  (new.configure (fun _ => some {}) true ttls).1

/-- The databases after a history of pushes on one channel. -/
def recorded (json : Wjson V) (ttls : List TimeT) (channel : String) (history : List Message) :
    MultiRocksdb V :=
  history.foldl (fun mr m => (mr.push json channel m).1) (opened ttls)

private theorem find?_openAll (ttls : List TimeT) {map : OrderedMap TimeT (Rocksdb V)}
    (olds : OrderedSet TimeT) (hmap : ∀ ttl db, map.find? ttl = some db → db = {}) :
    ∀ ttl db, (openAll (fun _ => some {}) ttls map olds).1.find? ttl = some db → db = {} := by
  induction ttls generalizing map olds with
  | nil => exact hmap
  | cons t ttls ih =>
    refine ih _ fun ttl db hfind => ?_
    rw [OrderedMap.find?_set] at hfind
    split at hfind
    · exact (Option.some.inj hfind).symm
    · exact hmap ttl db hfind

theorem find?_opened {ttls : List TimeT} {ttl : TimeT} {db : Rocksdb V}
    (hfind : (opened ttls).rocksdbMap.find? ttl = some db) : db = {} := by
  have hnone : ∀ ttl db, (new : MultiRocksdb V).rocksdbMap.find? ttl = some db → db = {} :=
    fun ttl db hfind => by cases hfind
  have hall := find?_openAll ttls ((new : MultiRocksdb V).rocksdbMap.mapValues fun _ => ()) hnone
  simp only [opened, configure] at hfind
  split at hfind
  · next map heq =>
    exact hall ttl db (by rw [heq]; exact hfind)
  · next map olds heq =>
    simp only [OrderedMap.find?_filterKeys] at hfind
    split at hfind
    · exact hall ttl db (by rw [heq]; exact hfind)
    · cases hfind

/-- A database holds arrivals of the history, those whose lifetime selects it. -/
theorem routed_recorded (json : Wjson V) (ttls : List TimeT) (channel : String)
    (history : List Message) {ttl : TimeT} {db : Rocksdb V}
    (hfind : (recorded json ttls channel history).rocksdbMap.find? ttl = some db) :
    ∀ a ∈ (db.db channel).arrivals json, (∃ m ∈ history, a = m.wire) ∧
      (recorded json ttls channel history).getDb a.lifetime = some ttl := by
  induction history using List.reverseRecOn generalizing db with
  | nil =>
    obtain rfl := find?_opened hfind
    rintro a ha
    cases ha
  | append_singleton history m ih =>
    have hlast : recorded json ttls channel (history ++ [m]) =
        ((recorded json ttls channel history).push json channel m).1 := List.foldl_concat ..
    rw [hlast, find?_push] at hfind
    simp only [hlast, getDb_push]
    have hold : ∀ {db}, (recorded json ttls channel history).rocksdbMap.find? ttl = some db →
        ∀ a ∈ (db.db channel).arrivals json, (∃ x ∈ history ++ [m], a = x.wire) ∧
          (recorded json ttls channel history).getDb a.lifetime = some ttl := by
      intro db hdb a ha
      obtain ⟨⟨x, hx, rfl⟩, hget⟩ := ih hdb a ha
      exact ⟨⟨x, List.mem_append_left _ hx, rfl⟩, hget⟩
    split at hfind
    · next hcond =>
      obtain ⟨db', hdb', rfl⟩ := Option.map_eq_some_iff.mp hfind
      rw [Rocksdb.arrivals_push]
      rintro a ha
      rcases List.mem_append.mp ha with ha | ha
      · exact hold hdb' a ha
      · obtain rfl := List.mem_singleton.mp ha
        exact ⟨⟨m, List.mem_append_right _ List.mem_cons_self, rfl⟩, hcond.2⟩
    · exact hold hfind

/-- **Removal by identity.** A reading after `remove` or `replace` finds no earlier message of
the identity, whatever its cursor and limit, iff before the push no database but the one that
the lifetime of the new message selects holds one. This is so if all earlier messages of
the identity have been pushed to that database. -/
theorem supersedes_iff (json : Wjson V) (ttls : List TimeT) (channel : String)
    (history : List Message) (m : Message) (hact : m.action = .remove ∨ m.action = .replace)
    (hlimit : m.limit ≠ 0) (now : TimeT) :
    let mr := recorded json ttls channel history
    let others := ∀ ttl db, mr.rocksdbMap.find? ttl = some db → mr.getDb m.lifetime ≠ some ttl →
      ∀ x ∈ db.held json now channel, x.identity ≠ m.identity
    ((∀ cursor limit, Supersedes m
      ((mr.push json channel m).1.getMessages json now [] channel cursor limit).2) ↔ others) ∧
    ((∀ a ∈ history, a.identity = m.identity → mr.getDb a.lifetime = mr.getDb m.lifetime) →
      others) := by
  intro mr others
  have hfind : ∀ ttl, (mr.push json channel m).1.rocksdbMap.find? ttl =
      if mr.getDb m.lifetime = some ttl then
        (mr.rocksdbMap.find? ttl).map fun db => (db.push json channel m).1
      else mr.rocksdbMap.find? ttl := by
    intro ttl
    rw [find?_push]
    simp only [hlimit, ne_eq, not_false_eq_true, or_true, true_and]
  refine ⟨⟨fun h ttl db hdb hne x hx hid => ?_, fun h cursor limit x hx hid => ?_⟩,
    fun h ttl db hdb hne x hx hid => ?_⟩
  · -- The message is still read from its database, so its lifetime would select that database.
    have hread := mem_getMessages.mpr ⟨ttl, db, by rw [hfind, if_neg hne, hdb], mem_select_self hx⟩
    have hlife := congrArg Message.lifetime (h _ _ x hread hid)
    obtain ⟨-, a, ha, hxa⟩ := Rocksdb.exists_arrival_of_mem_held hx
    have hroute := (routed_recorded json ttls channel history hdb a ha).2
    rw [← hxa, hlife] at hroute
    exact hne hroute
  · obtain ⟨ttl, db, hdb, hsel⟩ := mem_getMessages.mp hx
    have hheld := (select_sublist _ _ _).subset hsel
    rw [hfind] at hdb
    split at hdb
    · obtain ⟨db', -, rfl⟩ := Option.map_eq_some_iff.mp hdb
      exact Rocksdb.supersedes_held_push json now channel hact db' x hheld hid
    · next hne => exact absurd hid (h ttl db hdb hne x hheld)
  · obtain ⟨⟨a, ha, hxa⟩, -⟩ := Rocksdb.exists_arrival_of_mem_held hx
    obtain ⟨⟨b, hb, rfl⟩, hroute⟩ := routed_recorded json ttls channel history hdb a ha
    exact hne ((h b hb (hxa.symm.trans hid)).symm.trans hroute)

section Examples

open Message (sample)

/-- A `remove` with the lifetime of the message to be removed. -/
theorem supersedes_iff_sample :
    let m := { sample "a" 1 with action := Actions.remove }
    let mr := recorded .plain [10, 100] "channel" [sample "a" 1]
    let others := ∀ ttl db, mr.rocksdbMap.find? ttl = some db → mr.getDb m.lifetime ≠ some ttl →
      ∀ x ∈ db.held .plain 101 "channel", x.identity ≠ m.identity
    ((∀ cursor limit, Supersedes m
      ((mr.push .plain "channel" m).1.getMessages .plain 101 [] "channel" cursor limit).2) ↔
        others) ∧
    ((∀ a ∈ [sample "a" 1], a.identity = m.identity → mr.getDb a.lifetime = mr.getDb m.lifetime) →
      others) :=
  supersedes_iff .plain [10, 100] "channel" [sample "a" 1]
    { sample "a" 1 with action := Actions.remove } (Or.inl rfl) (by decide) 101

/-- With databases for the times to live 10 and 100, a `remove` of lifetime 5 leaves a message of
lifetime 60 to be read. -/
theorem not_supersedes :
    let m := { sample "a" 1 with action := Actions.remove, lifetime := 5 }
    let mr := recorded .plain [10, 100] "channel" [sample "a" 1]
    ¬ Supersedes m ((mr.push .plain "channel" m).1.getMessages .plain 101 [] "channel" 0 10).2 := by
  decide

end Examples

end MultiRocksdb

end WfcPubsub
