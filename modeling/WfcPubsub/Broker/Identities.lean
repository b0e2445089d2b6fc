import WfcPubsub.Broker.Interleaving
import WfcPubsub.Broker.Readings
import WfcPubsub.Broker.Records
import WfcPubsub.MessageQueue.Strands

/-!
# Identities as keys

A channel can be used as a table: the identities are its keys. Where no limit cuts, no message
is dead when it is published and nothing is recorded in a store, what a reading finds of an
identity depends on the messages of this identity alone (`PubsubMt.identities_independent`). And
where no message is published with the action `publish`, there is at most one message of each
identity, the value of a register that each message writes (`PubsubMt.registers_exact`).

## Main definitions

* `strandMachine`, `registerMachine` : an identity of a channel on its own.
* `PubsubOp.Roomy`, `Broker.Stranded`

## Main results

* `Broker.Stranded.step`
* `PubsubMt.identities_independent`, `PubsubMt.registers_exact`
-/

namespace WfcPubsub

open Contents

variable {V H : Type} {n : ℕ}

/-! ### One identity on its own -/

/-- The messages that a call returns. -/
def Reply.list? : Reply H → Option (List Message)
  | .messages ml => some ml
  | _ => none

namespace PubsubOp

/-- The reading of the channel that the call makes, if it makes one: its time and what it asks
for. -/
def reading? (name : String) : PubsubOp H → Option (TimeT × SubscribeParams H)
  | .getMessages now params => if params.channel = name then some (now, params) else none
  | .subscribeAs now _ params => if params.channel = name then some (now, params) else none
  | _ => none

/-- What a reading of the channel shows of an identity. -/
def readsOf (name : String) (identity : IdentityT) (op : PubsubOp H) (reply : Reply H) :
    Option (List Message) :=
  (op.reading? name).bind fun _ => reply.list?.map (strand identity)

/-- The message that the call stores in the cache for an identity of the channel. -/
def stored? (opt : PubsubOptions) (name : String) (identity : IdentityT) :
    PubsubOp H → Option (TimeT × Message)
  | .publish now channel msg =>
    if channel = name ∧ msg.identity = identity ∧ Pubsub.Caches opt msg then
      some (now, Pubsub.complete opt now msg)
    else none
  | _ => none

/-- The call is a reset. -/
def resets : PubsubOp H → Bool
  | .reset => true
  | _ => false

/-- A reading of the channel is seen, and nothing else. -/
def showsReading (name : String) (op : PubsubOp H) (ml : List Message) : Option (List Message) :=
  (op.reading? name).map fun _ => ml

/-- The call publishes nothing on the channel but messages of the identity. -/
def spares (name : String) (identity : IdentityT) : PubsubOp H → Bool
  | .publish _ channel msg => channel != name || msg.identity == identity
  | _ => true

/-- No limit is below `N`. -/
def Roomy (opt : PubsubOptions) (name : String) (N : ℕ) (op : PubsubOp H) : Prop :=
  (∀ m ∈ op.arrival opt name, N ≤ m.limit) ∧ ∀ r ∈ op.reading? name, N ≤ r.2.limit

instance (opt : PubsubOptions) (name : String) (N : ℕ) :
    DecidablePred (Roomy (H := H) opt name N) := fun _ => inferInstanceAs (Decidable (_ ∧ _))

end PubsubOp

/-- What is stored of an identity, as if there was no other. -/
def strandMachine (opt : PubsubOptions) (name : String) (identity : IdentityT) :
    Machine (List Message) (PubsubOp H) (List Message) where
  step q op :=
    (match op.stored? opt name identity with
      | some (now, m) => store now m (live now q)
      | none => if op.resets then [] else q,
    match op.reading? name with
      | some (now, params) =>
        if opt.cacheDisabled then [] else (live now q).filter fun m => params.cursor ≤ m.cursor
      | none => [])

/-- The same, where nothing is published with the action `publish`: a register. -/
def registerMachine (opt : PubsubOptions) (name : String) (identity : IdentityT) :
    Machine (Option Message) (PubsubOp H) (List Message) where
  step register op :=
    (match op.stored? opt name identity with
      | some (now, m) => write now m (register.filter fun x => now ≤ x.deathtime)
      | none => if op.resets then none else register,
    match op.reading? name with
      | some (now, params) =>
        if opt.cacheDisabled then [] else
          (register.filter fun x => now ≤ x.deathtime ∧ params.cursor ≤ x.cursor).toList
      | none => [])

/-! ### The channel -/

namespace Channel

variable {json : Wjson V} {opt : PubsubOptions} {ch : Channel V H} {identity : IdentityT}
  {q : List Message} {now : TimeT}

/-- At the times `P` the channel has of the identity what `q` has, and its logs are empty. -/
structure Stranded (P : TimeT → Prop) (identity : IdentityT) (ch : Channel V H)
    (q : List Message) : Prop where
  sound : ch.Sound
  ordered : Ordered ch.messages
  logs : ch.logs.keys = []
  strand : ∀ t, P t → Contents.strand identity (live t ch.messages) = live t q

variable {P P' : TimeT → Prop}

theorem Stranded.mono (h : ch.Stranded P identity q) (hP : ∀ t, P' t → P t) :
    ch.Stranded P' identity q :=
  { h with strand := fun t ht => h.strand t (hP t ht) }

/-- Without a log nothing is logged. -/
theorem Stranded.logged_eq (h : ch.Stranded P identity q) (json : Wjson V) (opt : PubsubOptions)
    (now : TimeT) : ch.logged json opt now = [] := by
  have hentries : ch.logs.entries = [] := List.map_eq_nil_iff.mp h.logs
  rw [logged, hentries]
  split <;> rfl

theorem Stranded.reads_iff (h : ch.Stranded P identity q) (json : Wjson V) (opt : PubsubOptions)
    (now : TimeT) (cursor : CursorT) (limit : ℕ) :
    ch.Reads json opt now cursor limit ↔ opt.cacheDisabled = false := by
  rw [Reads, answered, h.logged_eq]
  simp

/-- A reading. -/
theorem Stranded.strand_load (h : ch.Stranded P identity q) (json : Wjson V)
    (opt : PubsubOptions) (hnow : P now) (cursor : CursorT) {limit : ℕ}
    (hlimit : ch.messages.length ≤ limit) :
    Contents.strand identity (ch.load json opt now cursor limit) =
      if opt.cacheDisabled then [] else (live now q).filter fun m => cursor ≤ m.cursor := by
  have hselect : select cursor limit (live now ch.messages) =
      (live now ch.messages).filter fun m => cursor ≤ m.cursor :=
    StableOrder.rtake_of_length_le ((List.filter_sublist.trans (live_sublist _ _)).length_le.trans
      hlimit)
  rw [load, h.logged_eq, List.nil_append]
  simp only [h.reads_iff]
  cases opt.cacheDisabled with
  | true => rfl
  | false =>
    rw [if_pos rfl, List.flatMap_singleton, hselect, ← h.strand now hnow]
    exact List.filter_comm ..

/-- Later, a reading makes no difference. -/
theorem Stranded.afterLoad (h : ch.Stranded P identity q) (json : Wjson V) (opt : PubsubOptions)
    (hnow : ∀ t, P t → now ≤ t) (cursor : CursorT) (limit : ℕ) :
    (ch.afterLoad json opt now cursor limit).Stranded P identity q := by
  refine ⟨h.sound.afterLoad json opt now cursor limit, ?_, ?_, fun t ht => ?_⟩
  · rw [Channel.afterLoad]
    split
    · exact h.ordered.sublist (live_sublist _ _)
    · exact h.ordered
  · rw [logs_afterLoad]
    exact h.logs
  · rw [← h.strand t ht, Channel.afterLoad]
    split
    · exact congrArg _ (live_live (hnow t ht) ch.messages)
    · rfl

/-- A message is stored in the strand of its identity. -/
theorem Stranded.publish (h : ch.Stranded P identity q) (json : Wjson V) {name : String}
    {msg : Message} (hnow : P now) (hlater : ∀ t, P' t → P t ∧ now ≤ t)
    (hlive : (PubsubOp.publish (H := H) now name msg).Lively opt)
    (hlimit : ch.messages.length < (Pubsub.complete opt now msg).limit) :
    (ch.publish json opt now name msg).1.Stranded P' identity
      (if msg.identity = identity ∧ Pubsub.Caches opt msg then
        store now (Pubsub.complete opt now msg) (live now q) else q) := by
  have hid : (Pubsub.complete opt now msg).identity = msg.identity := by
    simp only [Pubsub.complete]
    split_ifs <;> rfl
  have hmessages := messages_publish json opt now name msg ch
  rw [h.sound.found_eq] at hmessages
  have hlivelen := (live_sublist now ch.messages).length_le
  have hordered : Ordered (live now ch.messages) := h.ordered.sublist (live_sublist _ _)
  refine ⟨h.sound.publish json opt hlive name, ?_, ?_, fun t ht => ?_⟩
  · rw [hmessages]
    split
    · exact hordered.store now _
    · exact h.ordered
  · rw [keys_publish]
    exact h.logs
  · obtain ⟨hPt, hle⟩ := hlater t ht
    rw [hmessages]
    by_cases hcaches : Pubsub.Caches opt msg
    · have hstore : Contents.strand identity
          (store now (Pubsub.complete opt now msg) (live now ch.messages)) = _ :=
        strand_store hordered now (by omega)
      rw [if_pos hcaches, strand_live, hstore, h.strand now hnow, hid]
      by_cases hmsg : msg.identity = identity
      · rw [if_pos hmsg, if_pos ⟨hmsg, hcaches⟩]
      · rw [if_neg hmsg, if_neg fun hcond => hmsg hcond.1, live_live hle]
    · rw [if_neg hcaches, if_neg fun hcond => hcaches hcond.2]
      exact h.strand t hPt

end Channel

/-! ### The broker -/

/-- What the machine of the strand makes of the messages. -/
theorem strandMachine_of_changes {opt : PubsubOptions} {name : String} {identity : IdentityT}
    {op : PubsubOp H} (hop : op.changes name = false) (q : List Message) :
    ((strandMachine opt name identity).step q op).1 = q := by
  have hstored : op.stored? opt name identity = none := by
    cases op with
    | publish now channel msg => exact if_neg fun h => beq_eq_false_iff_ne.mp hop h.1
    | _ => rfl
  have hresets : op.resets = false := by
    cases op with
    | reset => cases hop
    | _ => rfl
  simp only [strandMachine, hstored, hresets]
  rfl

namespace Broker

variable {json : Wjson V} {opt : PubsubOptions} {name : String} {identity : IdentityT} {N : ℕ}
  {op : PubsubOp H} {ops : List (PubsubOp H)} {b : Broker V H} {q : List Message}

/-- What holds between the broker and one strand of a channel, while `ops` are to come: the
channel has the strand, and there is room for what is to come. -/
structure Stranded (opt : PubsubOptions) (name : String) (identity : IdentityT) (N : ℕ)
    (ops : List (PubsubOp H)) (b : Broker V H) (q : List Message) : Prop where
  options : b.opt = opt
  channel : (b.channels name).Stranded (· ∈ ops.filterMap PubsubOp.clock) identity q
  clock : (ops.filterMap PubsubOp.clock).Pairwise (· ≤ ·)
  lively : ∀ op ∈ ops, op.Lively opt
  roomy : ∀ op ∈ ops, op.Roomy opt name N
  room : (b.channels name).messages.length +
    (ops.filterMap (PubsubOp.arrival opt name)).length ≤ N

/-- The clock of a call, and those of the later calls. -/
theorem Stranded.clock_cons (h : Stranded opt name identity N (op :: ops) b q) :
    (∀ t ∈ op.clock, t ∈ (op :: ops).filterMap PubsubOp.clock) ∧
      ∀ t ∈ ops.filterMap PubsubOp.clock,
        t ∈ (op :: ops).filterMap PubsubOp.clock ∧ ∀ now ∈ op.clock, now ≤ t := by
  refine ⟨fun t ht => List.mem_filterMap.mpr ⟨op, List.mem_cons_self, ht⟩, fun t ht => ⟨?_, ?_⟩⟩
  · exact ((List.sublist_cons_self ..).filterMap _).subset ht
  · intro now hnow
    have hclock := h.clock
    rw [List.filterMap_cons_some hnow, List.pairwise_cons] at hclock
    exact hclock.1 t ht

/-- What a call leaves of the channel. -/
theorem Stranded.channel_step (h : Stranded opt name identity N (op :: ops) b q) (json : Wjson V) :
    ((b.step json op).1.channels name).Stranded (· ∈ ops.filterMap PubsubOp.clock) identity
      ((strandMachine opt name identity).step q op).1 := by
  obtain ⟨hnow, hlater⟩ := h.clock_cons
  have hch := h.channel.mono fun t ht => (hlater t ht).1
  have hmoves := moves_step json b op name
  generalize (b.step json op).1.channels name = ch at hmoves ⊢
  rw [h.options] at hmoves
  cases hmoves with
  | publish now msg =>
    have harrival : (PubsubOp.publish (H := H) now name msg).arrival opt name =
        some (Pubsub.complete opt now msg) := if_pos rfl
    have hlimit := (h.roomy _ List.mem_cons_self).1 _ harrival
    have hroom := h.room
    rw [List.filterMap_cons_some harrival, List.length_cons] at hroom
    have hstep : ((strandMachine (H := H) opt name identity).step q (.publish now name msg)).1 =
        if msg.identity = identity ∧ Pubsub.Caches opt msg then
          store now (Pubsub.complete opt now msg) (live now q) else q := by
      by_cases hcond : msg.identity = identity ∧ Pubsub.Caches opt msg
      · simp [strandMachine, PubsubOp.stored?, hcond]
      · simp [strandMachine, PubsubOp.stored?, PubsubOp.resets, hcond]
    rw [hstep]
    exact h.channel.publish json (hnow now rfl)
      (fun t ht => ⟨(hlater t ht).1, (hlater t ht).2 now rfl⟩) (h.lively _ List.mem_cons_self)
      (by omega)
  | same hop =>
    rw [strandMachine_of_changes hop]
    exact hch
  | load hop hclock cursor limit =>
    rw [strandMachine_of_changes hop]
    exact hch.afterLoad json opt (fun t ht => (hlater t ht).2 _ hclock) cursor limit
  | subscribe hop hclock id handler cursor limit =>
    rw [strandMachine_of_changes hop]
    have hsub : ((b.channels name).subscribe id handler).Stranded
        (· ∈ ops.filterMap PubsubOp.clock) identity q := { hch with }
    exact hsub.afterLoad json opt (fun t ht => (hlater t ht).2 _ hclock) cursor limit
  | describe hop id =>
    rw [strandMachine_of_changes hop]
    exact { hch with }
  | reset => exact ⟨List.forall_mem_nil _, .nil, hch.logs, fun _ _ => rfl⟩

/-- A call takes up the room of one message at most. -/
theorem Stranded.room_step (h : Stranded opt name identity N (op :: ops) b q) (json : Wjson V) :
    ((b.step json op).1.channels name).messages.length +
      (ops.filterMap (PubsubOp.arrival opt name)).length ≤ N := by
  have hroom := h.room
  have hkeep : op.changes name = false → ∀ ch : Channel V H,
      ch.messages.length ≤ (b.channels name).messages.length →
      ch.messages.length + (ops.filterMap (PubsubOp.arrival opt name)).length ≤ N := by
    intro hop ch hle
    rw [List.filterMap_cons_none (PubsubOp.arrival_eq_none hop)] at hroom
    omega
  have hload : ∀ (ch : Channel V H) now cursor limit,
      (ch.afterLoad json b.opt now cursor limit).messages.length ≤ ch.messages.length := by
    intro ch now cursor limit
    rw [Channel.afterLoad]
    split
    · exact (live_sublist _ _).length_le
    · exact le_rfl
  have hmoves := moves_step json b op name
  generalize (b.step json op).1.channels name = ch at hmoves ⊢
  cases hmoves with
  | publish now msg =>
    have harrival : (PubsubOp.publish (H := H) now name msg).arrival opt name =
        some (Pubsub.complete opt now msg) := if_pos rfl
    rw [List.filterMap_cons_some harrival, List.length_cons] at hroom
    have hfound : ((b.channels name).found now).length ≤ (b.channels name).messages.length := by
      rw [h.channel.sound.found_eq]
      exact (live_sublist _ _).length_le
    have hlength : ((b.channels name).publish json b.opt now name msg).1.messages.length ≤
        (b.channels name).messages.length + 1 := by
      rw [Channel.messages_publish]
      split
      · exact (length_store_le ..).trans (by omega)
      · omega
    omega
  | same hop => exact hkeep hop _ le_rfl
  | load hop _ cursor limit => exact hkeep hop _ (hload _ _ cursor limit)
  | subscribe hop _ id handler cursor limit =>
    exact hkeep hop _ (hload ((b.channels name).subscribe id handler) _ cursor limit)
  | describe hop id => exact hkeep hop _ le_rfl
  | reset =>
    have hrest : (ops.filterMap (PubsubOp.arrival opt name)).length ≤
        ((PubsubOp.reset :: ops).filterMap (PubsubOp.arrival opt name)).length :=
      ((List.sublist_cons_self ..).filterMap _).length_le
    exact (Nat.zero_add _).trans_le (hrest.trans (by omega))

/-- A call. -/
theorem Stranded.step (h : Stranded opt name identity N (op :: ops) b q) (json : Wjson V) :
    Stranded opt name identity N ops (b.step json op).1
      ((strandMachine opt name identity).step q op).1 where
  options := (step_opt json b op).trans h.options
  channel := h.channel_step json
  clock := h.clock.sublist ((List.sublist_cons_self ..).filterMap _)
  lively op' hop' := h.lively op' (List.mem_cons_of_mem _ hop')
  roomy op' hop' := h.roomy op' (List.mem_cons_of_mem _ hop')
  room := h.room_step json

/-- What a reading shows of the identity is the strand. -/
theorem Stranded.readsOf_eq (h : Stranded opt name identity N (op :: ops) b q) (json : Wjson V) :
    op.readsOf name identity (b.step json op).2 =
      (op.reading? name).map fun _ => ((strandMachine opt name identity).step q op).2 := by
  cases hread : op.reading? name with
  | none => rw [PubsubOp.readsOf, hread]; rfl
  | some r =>
    obtain ⟨now, params⟩ := r
    have hlimit : N ≤ params.limit := (h.roomy op List.mem_cons_self).2 _ hread
    have hlength : (b.channels name).messages.length ≤ params.limit := by
      have := h.room
      omega
    have hreply : ((strandMachine opt name identity).step q op).2 =
        if opt.cacheDisabled then [] else
          (live now q).filter fun m => params.cursor ≤ m.cursor := by
      simp only [strandMachine, hread]
    have hclock := h.clock_cons.1
    rw [PubsubOp.readsOf, hread, Option.bind_some, Option.map_some, hreply]
    cases op with
    | getMessages now' params' =>
      obtain ⟨hname, hread⟩ : params'.channel = name ∧ (now', params') = (now, params) := by
        simpa [PubsubOp.reading?] using hread
      cases hread
      have hload := h.channel.strand_load json opt (hclock now rfl) params.cursor hlength
      rw [← hname, ← h.options] at hload
      exact congrArg some (h.options ▸ hload)
    | subscribeAs now' id params' =>
      obtain ⟨hname, hread⟩ : params'.channel = name ∧ (now', params') = (now, params) := by
        simpa [PubsubOp.reading?] using hread
      cases hread
      have hsub : ((b.channels name).subscribe id params.handler).Stranded
          (· ∈ (PubsubOp.subscribeAs now id params :: ops).filterMap PubsubOp.clock) identity q :=
        { h.channel with }
      have hload := hsub.strand_load json opt (hclock now rfl) params.cursor hlength
      rw [← hname, ← h.options] at hload
      exact congrArg some (h.options ▸ hload)
    | _ => cases hread

theorem Stranded.observed (h : Stranded opt name identity N ops b q) (json : Wjson V) :
    (machine json).observed (PubsubOp.readsOf name identity) b ops =
      (strandMachine opt name identity).observed (PubsubOp.showsReading name) q ops :=
  Machine.observed_eq_of_simulation
    (R := fun rem b q => Stranded opt name identity N rem b q)
    (fun _ _ _ _ h => ⟨h.step json, h.readsOf_eq json⟩) h

/-- Fewer calls need no more room. -/
theorem Stranded.sublist (h : Stranded opt name identity N ops b q) {ops' : List (PubsubOp H)}
    (hsub : ops'.Sublist ops) : Stranded opt name identity N ops' b q where
  options := h.options
  channel := h.channel.mono fun _ ht => (hsub.filterMap _).subset ht
  clock := h.clock.sublist (hsub.filterMap _)
  lively op hop := h.lively op (hsub.subset hop)
  roomy op hop := h.roomy op (hsub.subset hop)
  room := (Nat.add_le_add_left (hsub.filterMap _).length_le _).trans h.room

theorem stranded_new {sh : Shared V} (hsh : sh.rocksdb = none) (identity : IdentityT)
    (hclock : (ops.filterMap PubsubOp.clock).Pairwise (· ≤ ·))
    (hlively : ∀ op ∈ ops, op.Lively opt)
    (hroomy : ∀ op ∈ ops,
      op.Roomy opt name (ops.filterMap (PubsubOp.arrival opt name)).length) :
    Stranded opt name identity (ops.filterMap (PubsubOp.arrival opt name)).length ops
      (Broker.new opt sh : Broker V H) [] where
  options := rfl
  channel := by
    refine ⟨List.forall_mem_nil _, .nil, ?_, fun _ _ => rfl⟩
    show (sh.logsOf name).keys = []
    rw [Shared.logsOf, hsh]
    rfl
  clock := hclock
  lively := hlively
  roomy := hroomy
  room := (Nat.zero_add _).le

end Broker

/-! ### Machines of one identity -/

section Strands

variable {opt : PubsubOptions} {name : String} {identity : IdentityT}

/-- A strand is not concerned with other identities. -/
theorem strandMachine_spares (q : List Message) (ops : List (PubsubOp H)) :
    (strandMachine opt name identity).observed (PubsubOp.showsReading name) q ops =
      (strandMachine opt name identity).observed (PubsubOp.showsReading name) q
        (ops.filter (PubsubOp.spares name identity)) := by
  refine Machine.observed_filter_eq (R := fun _ q q' => q = q') (fun q q' op _ hop heq => ?_)
    (fun q q' op _ _ heq => ?_) rfl
  · subst heq
    cases op with
    | publish now channel msg =>
      have hne : ¬ (channel = name ∧ msg.identity = identity ∧ Pubsub.Caches opt msg) := by
        simp only [PubsubOp.spares, Bool.or_eq_false_iff, bne_eq_false_iff_eq,
          beq_eq_false_iff_ne] at hop
        exact fun h => hop.2 h.2.1
      refine ⟨?_, rfl⟩
      simp only [strandMachine, PubsubOp.stored?, if_neg hne]
      rfl
    | _ => cases hop
  · subst heq
    exact ⟨rfl, rfl⟩

/-- What holds between the strand and the register, while `ops` are to come. -/
structure Registered (opt : PubsubOptions) (name : String) (identity : IdentityT)
    (ops : List (PubsubOp H)) (q : List Message) (register : Option Message) : Prop where
  toList : q = register.toList
  own : ∀ x ∈ register, x.identity = identity
  writes : ∀ op ∈ ops, ∀ r ∈ op.stored? opt name identity,
    r.2.action ≠ .publish ∧ r.2.limit ≠ 0

theorem PubsubOp.arrival_of_stored {op : PubsubOp H} {r : TimeT × Message}
    (hr : r ∈ op.stored? opt name identity) : r.2 ∈ op.arrival opt name := by
  cases op with
  | publish now channel msg =>
    rw [stored?] at hr
    split at hr
    · next hcond =>
      cases hr
      exact if_pos hcond.1
    · cases hr
  | _ => cases hr

theorem PubsubOp.identity_of_stored {op : PubsubOp H} {r : TimeT × Message}
    (hr : r ∈ op.stored? opt name identity) : r.2.identity = identity := by
  cases op with
  | publish now channel msg =>
    rw [stored?] at hr
    split at hr
    · next hcond =>
      cases hr
      rw [← hcond.2.1]
      simp only [Pubsub.complete]
      split_ifs <;> rfl
    · cases hr
  | _ => cases hr

theorem Registered.step {op : PubsubOp H} {ops : List (PubsubOp H)} {q : List Message}
    {register : Option Message} (h : Registered opt name identity (op :: ops) q register) :
    Registered opt name identity ops ((strandMachine opt name identity).step q op).1
        ((registerMachine opt name identity).step register op).1 ∧
      ((strandMachine opt name identity).step q op).2 =
        ((registerMachine opt name identity).step register op).2 := by
  obtain ⟨rfl, hidentity, hwrites⟩ := h
  have hrest : ∀ op ∈ ops, ∀ r ∈ op.stored? opt name identity,
      r.2.action ≠ .publish ∧ r.2.limit ≠ 0 := fun op hop => hwrites op (List.mem_cons_of_mem _ hop)
  constructor
  · simp only [strandMachine, registerMachine]
    cases hstored : op.stored? opt name identity with
    | none =>
      dsimp only
      split
      · exact ⟨rfl, (fun _ hx => nomatch hx), hrest⟩
      · exact ⟨rfl, hidentity, hrest⟩
    | some r =>
      obtain ⟨now, m⟩ := r
      obtain ⟨hact, hlimit⟩ := hwrites op List.mem_cons_self _ hstored
      have hm : m.identity = identity := PubsubOp.identity_of_stored hstored
      have hlive : ∀ x ∈ register.filter fun x => now ≤ x.deathtime, x.identity = m.identity :=
        fun x hx => hm ▸ hidentity x (Option.mem_filter_iff.mp hx).1
      refine ⟨?_, fun x hx => hm ▸ identity_write hlive now x hx, hrest⟩
      dsimp only
      rw [live_toList, store_toList hact hlimit hlive]
  · simp only [strandMachine, registerMachine]
    cases op.reading? name with
    | none => rfl
    | some r =>
      dsimp only
      split
      · rfl
      · rw [live_toList]
        cases register with
        | none => rfl
        | some x =>
          by_cases hlive : r.1 ≤ x.deathtime
          · by_cases hcursor : r.2.cursor ≤ x.cursor <;> simp [Option.filter, hlive, hcursor]
          · simp [Option.filter, hlive]

/-- Where nothing is published with the action `publish`, the strand is a register. -/
theorem strandMachine_register {ops : List (PubsubOp H)}
    (hops : ∀ op ∈ ops, ∀ r ∈ op.stored? opt name identity,
      r.2.action ≠ .publish ∧ r.2.limit ≠ 0) :
    (strandMachine opt name identity).observed (PubsubOp.showsReading name) [] ops =
      (registerMachine opt name identity).observed (PubsubOp.showsReading name) none ops := by
  refine Machine.observed_eq_of_simulation
    (R := fun rem q register => Registered opt name identity rem q register)
    (fun q register op rem h => ⟨h.step.1, congrArg _ h.step.2⟩) ⟨rfl, fun x hx => ?_, hops⟩
  cases hx

end Strands

/-! ### Threads -/

section Accesses

variable [NeZero n] (hash : String → ℕ) (name : String) (identity : IdentityT)

namespace Access

/-- What a reading of the channel shows of an identity. -/
def readsOf (access : Access H n) (reply : Reply H) : Option (List Message) :=
  (access.onto hash name).bind fun op => op.readsOf name identity reply

/-- The step publishes nothing on the channel but messages of the identity. -/
def spares (access : Access H n) : Bool := (access.onto hash name).all (PubsubOp.spares name identity)

end Access

end Accesses

namespace PubsubMt

/-- Only what is shown of a call counts. -/
private theorem readsOf_congr (name : String) (identity : IdentityT) (op : PubsubOp H)
    (reply reply' : Reply H) (h : op.shown reply = op.shown reply') :
    op.readsOf name identity reply = op.readsOf name identity reply' := by
  cases op with
  | describe => rfl
  | reset => rfl
  | _ => rw [Option.some.inj h]

/-- **Identities do not interfere.** Any number of threads use a `pubsub_mt` without a store. On
one channel the clock does not run backwards, no message is dead when it is published, and no
limit, of a message or of a reading, is below the number of all messages published there. Then
what the readings of the channel find of one identity is what they find if all other messages
on the channel are never published, whatever their actions are. -/
theorem identities_independent (hash : String → ℕ) (json : Wjson V) (opt : PubsubOptions)
    (sh : Shared V) (steps : List (Access H opt.shardCount)) (name : String)
    (identity : IdentityT) (hsh : sh.rocksdb = none) :
    let ops := steps.filterMap (Access.onto hash name)
    (ops.filterMap PubsubOp.clock).Pairwise (· ≤ ·) → (∀ op ∈ ops, op.Lively opt) →
      (∀ op ∈ ops, op.Roomy opt name (ops.filterMap (PubsubOp.arrival opt name)).length) →
      (accessMachine hash json).observed (Access.readsOf hash name identity)
          (PubsubMt.new opt sh) steps =
        (accessMachine hash json).observed (Access.readsOf hash name identity)
          (PubsubMt.new opt sh) (steps.filter (Access.spares hash name identity)) := by
  intro ops hclock hlively hroomy
  have hnew := Broker.stranded_new (V := V) hsh identity hclock hlively hroomy
  have hfilter : (steps.filter (Access.spares hash name identity)).filterMap
      (Access.onto hash name) = ops.filter (PubsubOp.spares name identity) := by
    rw [List.filterMap_filter, List.filter_filterMap]
    refine List.filterMap_congr fun a _ => ?_
    rw [Access.spares]
    cases a.onto hash name <;> rfl
  have hall := (follows_new (H := H) hash name opt sh).observed json
    (readsOf_congr name identity)
  calc
    _ = _ := hall steps
    _ = _ := hnew.observed json
    _ = _ := strandMachine_spares [] ops
    _ = _ := ((hnew.sublist List.filter_sublist).observed json).symm
    _ = _ := hfilter ▸ (hall _).symm

/-- **Identities are registers.** If besides nothing is published on the channel with the action
`publish`, a reading finds of each identity at most one message, which is alive: the value of a
register that the messages of this identity write one after the other. -/
theorem registers_exact (hash : String → ℕ) (json : Wjson V) (opt : PubsubOptions)
    (sh : Shared V) (steps : List (Access H opt.shardCount)) (name : String)
    (identity : IdentityT) (hsh : sh.rocksdb = none) :
    let ops := steps.filterMap (Access.onto hash name)
    (ops.filterMap PubsubOp.clock).Pairwise (· ≤ ·) → (∀ op ∈ ops, op.Lively opt) →
      (∀ op ∈ ops, op.Roomy opt name (ops.filterMap (PubsubOp.arrival opt name)).length) →
      (∀ op ∈ ops, ∀ m ∈ op.arrival opt name, m.action ≠ .publish) →
      (accessMachine hash json).observed (Access.readsOf hash name identity)
          (PubsubMt.new opt sh) steps =
        (registerMachine opt name identity).observed (PubsubOp.showsReading name) none ops := by
  intro ops hclock hlively hroomy hact
  have hnew := Broker.stranded_new (V := V) hsh identity hclock hlively hroomy
  have hwrites : ∀ op ∈ ops, ∀ r ∈ op.stored? opt name identity,
      r.2.action ≠ .publish ∧ r.2.limit ≠ 0 := by
    intro op hop r hr
    have harrival := PubsubOp.arrival_of_stored hr
    have hroom := (hroomy op hop).1 r.2 harrival
    have hone := List.length_pos_of_mem (List.mem_filterMap.mpr ⟨op, hop, harrival⟩)
    exact ⟨hact op hop r.2 harrival, by omega⟩
  calc
    _ = _ := (follows_new hash name opt sh).observed json
      (readsOf_congr name identity) steps
    _ = _ := hnew.observed json
    _ = _ := strandMachine_register hwrites

section Examples

open Message (sample)

/-- A message of another identity comes between a message and its update. -/
theorem identities_independent_two :
    let start : PubsubMt (Option (List Message)) Unit (PubsubOptions.shardCount {}) :=
      PubsubMt.new {} {}
    let M := accessMachine String.length .plain
    let params : SubscribeParams Unit := { channel := "channel", limit := 3, handler := () }
    let steps := [.lock (.publish 100 "channel" (sample "a" 1)),
      .lock (.publish 110 "channel" { sample "b" 2 with action := .replace }),
      .lock (.publish 120 "channel" { sample "a" 3 with action := .update }),
      .getMessages 130 params]
    M.observed (Access.readsOf String.length "channel" "a") start steps =
      M.observed (Access.readsOf String.length "channel" "a") start
        (steps.filter (Access.spares String.length "channel" "a")) := by
  intro start M params steps
  exact identities_independent String.length .plain {} {} steps "channel" "a" rfl (by decide)
    (by decide) (by decide)

/-- A value, an update and a removal, which leaves its own message. -/
theorem registers_exact_two :
    let start : PubsubMt (Option (List Message)) Unit (PubsubOptions.shardCount {}) :=
      PubsubMt.new {} {}
    let params : SubscribeParams Unit := { channel := "channel", limit := 3, handler := () }
    let steps := [.lock (.publish 100 "channel" { sample "a" 1 with action := .replace }),
      .lock (.publish 110 "channel" { sample "a" 2 with action := .update }),
      .getMessages 120 params,
      .lock (.publish 120 "channel" { sample "a" 3 with action := .remove }),
      .getMessages 130 params]
    (accessMachine String.length .plain).observed (Access.readsOf String.length "channel" "a")
        start steps =
      (registerMachine {} "channel" "a").observed (PubsubOp.showsReading "channel") none
        (steps.filterMap (Access.onto String.length "channel")) := by
  intro start params steps
  exact registers_exact String.length .plain {} {} steps "channel" "a" rfl (by decide)
    (by decide) (by decide) (by decide)

end Examples

end PubsubMt

end WfcPubsub
