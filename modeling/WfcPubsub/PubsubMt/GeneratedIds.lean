import WfcPubsub.Lib.Threads
import WfcPubsub.PubsubMt.Delivery

/-!
# Generated subscriber ids

`subscribe(ml, params)` goes to the counter `_id_counter` three times: it increments it, it loads
it for the argument of the registration and it loads it again for its result. The counter is
shared by all shards while the call holds the lock of one, so calls on other shards may come
between. Here each of these accesses, the registration and both ends of the lock are a step of
their own, and any number of calls take their steps in any order (`PubsubMt.subscribers`). The
counter is a natural number and does not wrap around.

A call counts from its increment to the load of its result. As long as no call increments the
counter while another counts, all calls register under the ids they return and these are
distinct. Once one does, the ids of the calls that end from then on do not suffice: there is
one id less than there are calls (`PubsubMt.Crowded`).

Sources: `pubsub/pubsub.hpp`, `pubsub/pubsub.cpp`, `pubsub/pubsub_mt.cpp`.

## Main definitions

* `SubscribePhase`, `PubsubMt.subscribers` : the calls, step by step.
* `PubsubMt.Overtakes` : an increment while another call counts.
* `PubsubMt.IdsInForce` : the ids returned are distinct and those in force.

## Main results

* `PubsubMt.run_alone` : the steps of one call, taken together, are `PubsubMt.subscribe`.
* `PubsubMt.orderly_run`, `PubsubMt.crowded_run` : what holds without and with an overtaking.
* `PubsubMt.inTurn_of_one_shard` : on channels of one shard no call overtakes another.
* `PubsubMt.generated_ids` : the ids are in force if no call overtakes another, and only then.
-/

namespace WfcPubsub

variable {V H ι : Type} {n : ℕ}

/-- A call of `subscribe(ml, params)`, with the time at which it reads the clock. -/
structure SubscribeCall (H : Type) where
  now : TimeT
  params : SubscribeParams H

/-- How far a call has come, and the values it has loaded from the counter: the argument of the
registration and the result. -/
inductive SubscribePhase
  | called
  | locked
  | incremented
  | loadedArgument (id : SubscriberId)
  | registered (id : SubscriberId)
  | loadedResult (id result : SubscriberId)
  | returned (id result : SubscriberId)
  deriving DecidableEq, Repr

namespace SubscribePhase

/-- Between the increment and the load of the result. -/
def Counting : SubscribePhase → Prop
  | incremented | loadedArgument _ | registered _ => True
  | called | locked | loadedResult .. | returned .. => False

/-- Between the lock and the unlock. -/
def Inside : SubscribePhase → Prop
  | called | returned .. => False
  | locked | incremented | loadedArgument _ | registered _ | loadedResult .. => True

/-- After the increment. -/
def Numbered : SubscribePhase → Prop
  | called | locked => False
  | incremented | loadedArgument _ | registered _ | loadedResult .. | returned .. => True

/-- The id of a call: the one it has loaded, or the one that the counter shows. -/
def number (counter : SubscriberId) : SubscribePhase → Option SubscriberId
  | called | locked => none
  | incremented => some counter
  | loadedArgument id | registered id | loadedResult id _ | returned id _ => some id

/-- The result of a call that has loaded it. -/
def result? : SubscribePhase → Option SubscriberId
  | called | locked | incremented | loadedArgument _ | registered _ => none
  | loadedResult _ result | returned _ result => some result

theorem number_of_not_counting {p : SubscribePhase} (h : ¬ p.Counting) (c c' : SubscriberId) :
    p.number c = p.number c' := by
  cases p with
  | incremented => exact absurd trivial h
  | _ => rfl

theorem Counting.inside {p : SubscribePhase} (h : p.Counting) : p.Inside := by
  cases p with
  | called => exact h
  | returned => exact h
  | _ => trivial

/-- A step that neither increments nor registers, where the counter shows `counter`. -/
inductive Reads (counter : SubscriberId) : SubscribePhase → SubscribePhase → Prop
  | wait (p : SubscribePhase) : Reads counter p p
  | lock : Reads counter called locked
  | loadArgument : Reads counter incremented (loadedArgument counter)
  | loadResult (id : SubscriberId) : Reads counter (registered id) (loadedResult id counter)
  | unlock (id result : SubscriberId) :
    Reads counter (loadedResult id result) (returned id result)

end SubscribePhase

namespace PubsubMt

/-- The shards and the holders of their locks. -/
structure Guarded (V H : Type) (n : ℕ) (ι : Type) where
  mt : PubsubMt V H n
  holder : Fin n → Option ι

/-- `++_id_counter`. -/
def incrementIdCounter (mt : PubsubMt V H n) : PubsubMt V H n :=
  { mt with sh := { mt.sh with idCounter := mt.sh.idCounter + 1 } }

section System

variable [NeZero n] (hash : String → ℕ) (json : Wjson V) (call : ι → SubscribeCall H)

/-- The next step of the call `k`. -/
def subscribeAct (k : ι) (g : Guarded V H n ι) :
    SubscribePhase → Guarded V H n ι × SubscribePhase
  | .called =>
    let index := index_ hash (call k).params.channel
    match g.holder index with
    | none => ({ g with holder := Function.update g.holder index (some k) }, .locked)
    | some _ => (g, .called)
  | .locked => ({ g with mt := g.mt.incrementIdCounter }, .incremented)
  | .incremented => (g, .loadedArgument g.mt.sh.idCounter)
  | .loadedArgument id =>
    ({ g with mt := (g.mt.subscribeAs hash json (call k).now [] id (call k).params).1 },
      .registered id)
  | .registered id => (g, .loadedResult id g.mt.sh.idCounter)
  | .loadedResult id result =>
    let index := index_ hash (call k).params.channel
    ({ g with holder := Function.update g.holder index none }, .returned id result)
  | .returned id result => (g, .returned id result)

/-- Concurrent calls of `subscribe(ml, params)`. -/
def subscribers : Threads ι (Guarded V H n ι) SubscribePhase where
  act := subscribeAct hash json call

end System

/-- No call has begun and no lock is held. -/
def beforeCalls (mt : PubsubMt V H n) :
    Threads.State ι (Guarded V H n ι) SubscribePhase where
  shared := { mt := mt, holder := fun _ => none }
  phase _ := .called

/-- The call `k` is about to increment the counter while another call counts. -/
def Overtakes (s : Threads.State ι (Guarded V H n ι) SubscribePhase) (k : ι) : Prop :=
  s.phase k = .locked ∧ ∃ j, (s.phase j).Counting

/-- The ids returned are distinct and are those under which the handlers are registered, so
what one caller describes is not the subscription of another. -/
structure IdsInForce [NeZero n] (hash : String → ℕ) (call : ι → SubscribeCall H)
    (s : Threads.State ι (Guarded V H n ι) SubscribePhase) : Prop where
  inForce : ∀ k id result, s.phase k = .returned id result →
    id = result ∧
      s.shared.mt.handlerOf hash result (call k).params.channel = some (call k).params.handler
  unique : ∀ j k, j ≠ k → ∀ id id' result result', s.phase j = .returned id result →
    s.phase k = .returned id' result' → result ≠ result'
  describe : ∀ j k, j ≠ k → ∀ id id' result result', s.phase j = .returned id result →
    s.phase k = .returned id' result' →
    (s.shared.mt.describe result).1.handlerOf hash result' (call k).params.channel =
      some (call k).params.handler

/-- No call is between its increment and its end. -/
def Settled (s : Threads.State ι (Guarded V H n ι) SubscribePhase) : Prop :=
  ∀ k, (s.phase k).Numbered → ∃ id result, s.phase k = .returned id result

section Steps

variable [NeZero n] {hash : String → ℕ} {json : Wjson V} {call : ι → SubscribeCall H}

/-- What a step does: it increments the counter, it registers, or it does neither. -/
theorem subscribeAct_cases (hash : String → ℕ) (json : Wjson V) (call : ι → SubscribeCall H)
    (k : ι) (g : Guarded V H n ι) (p : SubscribePhase) :
    (p = .locked ∧ subscribeAct hash json call k g p =
      ({ g with mt := g.mt.incrementIdCounter }, .incremented)) ∨
    (∃ id, p = .loadedArgument id ∧ subscribeAct hash json call k g p =
      ({ g with
        mt := (g.mt.lockStep hash json (.subscribe (call k).now id (call k).params)).1 },
        .registered id)) ∨
    (∃ holder p', subscribeAct hash json call k g p = ({ g with holder := holder }, p') ∧
      p.Reads g.mt.sh.idCounter p') := by
  cases p with
  | called =>
    refine Or.inr (Or.inr ?_)
    simp only [subscribeAct]
    split
    · exact ⟨_, _, rfl, .lock⟩
    · exact ⟨_, _, rfl, .wait _⟩
  | locked => exact Or.inl ⟨rfl, rfl⟩
  | incremented => exact Or.inr (Or.inr ⟨_, _, rfl, .loadArgument⟩)
  | loadedArgument id => exact Or.inr (Or.inl ⟨id, rfl, rfl⟩)
  | registered id => exact Or.inr (Or.inr ⟨_, _, rfl, .loadResult id⟩)
  | loadedResult id result => exact Or.inr (Or.inr ⟨_, _, rfl, .unlock id result⟩)
  | returned id result => exact Or.inr (Or.inr ⟨_, _, rfl, .wait _⟩)

/-! ### Without an overtaking -/

/-- What holds of one call. -/
def Own (hash : String → ℕ) (call : SubscribeCall H) (mt : PubsubMt V H n) :
    SubscribePhase → Prop
  | .called | .locked | .incremented => True
  | .loadedArgument id => id = mt.sh.idCounter
  | .registered id =>
    id = mt.sh.idCounter ∧
      mt.handlerOf hash id call.params.channel = some call.params.handler
  | .loadedResult id result | .returned id result =>
    id = result ∧ result ≤ mt.sh.idCounter ∧
      mt.handlerOf hash result call.params.channel = some call.params.handler

/-- What holds of two calls. -/
def Apart (counter : SubscriberId) (p q : SubscribePhase) : Prop :=
  ¬ (p.Counting ∧ q.Counting) ∧ ∀ id, p.number counter = some id → q.number counter ≠ some id

theorem Apart.symm {counter : SubscriberId} {p q : SubscribePhase} (h : Apart counter p q) :
    Apart counter q p :=
  ⟨fun hc => h.1 hc.symm, fun id hq hp => h.2 id hp hq⟩

/-- The invariant of the runs in which no call overtakes another. -/
structure Orderly (hash : String → ℕ) (call : ι → SubscribeCall H)
    (s : Threads.State ι (Guarded V H n ι) SubscribePhase) : Prop where
  mirrored : s.shared.mt.AllMirrored
  own : ∀ k, Own hash (call k) s.shared.mt (s.phase k)
  apart : ∀ j k, j ≠ k → Apart s.shared.mt.sh.idCounter (s.phase j) (s.phase k)

/-- Reading keeps what holds of a call and its id. -/
theorem Own.reads {call : SubscribeCall H} {mt : PubsubMt V H n} {p p' : SubscribePhase}
    (h : Own hash call mt p) (hr : p.Reads mt.sh.idCounter p') :
    Own hash call mt p' ∧ p'.number mt.sh.idCounter = p.number mt.sh.idCounter ∧
      (p'.Counting → p.Counting) := by
  cases hr with
  | wait => exact ⟨h, rfl, id⟩
  | lock => exact ⟨h, rfl, id⟩
  | loadArgument => exact ⟨rfl, rfl, id⟩
  | loadResult id => exact ⟨⟨h.1, le_rfl, h.1 ▸ h.2⟩, rfl, False.elim⟩
  | unlock => exact ⟨h, rfl, id⟩

/-- The id of a call that does not count is at most what the counter shows. -/
theorem Own.number_le {call : SubscribeCall H} {mt : PubsubMt V H n} {p : SubscribePhase}
    (h : Own hash call mt p) {id : SubscriberId} (hid : p.number mt.sh.idCounter = some id) :
    id ≤ mt.sh.idCounter := by
  cases p with
  | called => cases hid
  | locked => cases hid
  | incremented =>
    cases hid
    exact le_rfl
  | loadedArgument =>
    cases hid
    exact h.le
  | registered =>
    cases hid
    exact h.1.le
  | loadedResult =>
    cases hid
    exact h.1 ▸ h.2.1
  | returned =>
    cases hid
    exact h.1 ▸ h.2.1

/-- A call that does not count is not touched by an increment. -/
theorem Own.increment {call : SubscribeCall H} {mt : PubsubMt V H n} {p : SubscribePhase}
    (h : Own hash call mt p) (hp : ¬ p.Counting) : Own hash call mt.incrementIdCounter p := by
  cases p with
  | called => trivial
  | locked => trivial
  | incremented => trivial
  | loadedArgument => exact absurd trivial hp
  | registered => exact absurd trivial hp
  | loadedResult => exact ⟨h.1, h.2.1.trans (Nat.le_succ _), h.2.2⟩
  | returned => exact ⟨h.1, h.2.1.trans (Nat.le_succ _), h.2.2⟩

/-- A call is not touched by a registration under another id. -/
theorem Own.register {call : SubscribeCall H} {mt : PubsubMt V H n} {p : SubscribePhase}
    (h : Own hash call mt p) (hm : mt.AllMirrored) (now : TimeT) {id : SubscriberId}
    (params : SubscribeParams H) (hid : p.number mt.sh.idCounter ≠ some id) :
    Own hash call (mt.lockStep hash json (.subscribe now id params)).1 p := by
  have hkeep : ∀ id', id' ≠ id → mt.handlerOf hash id' call.params.channel =
      some call.params.handler →
      (mt.lockStep hash json (.subscribe now id params)).1.handlerOf hash id'
        call.params.channel = some call.params.handler := by
    intro id' hne hold
    rw [lockStep_handlerOf json hm, LockStep.subscription, if_neg fun heq => hne heq.1.symm]
    exact hold
  have hne : ∀ id', p.number mt.sh.idCounter = some id' → id' ≠ id :=
    fun id' hn heq => hid (heq ▸ hn)
  cases p with
  | called => trivial
  | locked => trivial
  | incremented => trivial
  | loadedArgument => exact h
  | registered => exact ⟨h.1, hkeep _ (hne _ rfl) h.2⟩
  | loadedResult => exact ⟨h.1, h.2.1, hkeep _ (h.1 ▸ hne _ rfl) h.2.2⟩
  | returned => exact ⟨h.1, h.2.1, hkeep _ (h.1 ▸ hne _ rfl) h.2.2⟩

variable {s : Threads.State ι (Guarded V H n ι) SubscribePhase} {k : ι}

theorem orderly_beforeCalls {mt : PubsubMt V H n} (h : mt.AllMirrored) :
    Orderly hash call (beforeCalls mt) where
  mirrored := h
  own _ := trivial
  apart _ _ _ := ⟨fun hc => hc.1, nofun⟩

/-- In an orderly state the ids returned are in force. -/
theorem Orderly.idsInForce (h : Orderly hash call s) : IdsInForce hash call s := by
  have hown : ∀ k id result, s.phase k = .returned id result →
      id = result ∧
        s.shared.mt.handlerOf hash result (call k).params.channel =
          some (call k).params.handler := by
    intro k id result hk
    have := h.own k
    rw [hk] at this
    exact ⟨this.1, this.2.2⟩
  have hunique : ∀ j k, j ≠ k → ∀ id id' result result', s.phase j = .returned id result →
      s.phase k = .returned id' result' → result ≠ result' := by
    intro j k hjk id id' result result' hj hk heq
    refine (h.apart j k hjk).2 id ?_ ?_
    · rw [hj]
      rfl
    · rw [hk, (hown j id result hj).1, heq, ← (hown k id' result' hk).1]
      rfl
  refine ⟨hown, hunique, fun j k hjk id id' result result' hj hk => ?_⟩
  rw [handlerOf, describe_pubsubList, ((h.mirrored _).find?_describe ..).2,
    if_neg (hunique j k hjk id id' result result' hj hk).symm]
  exact (hown k id' result' hk).2

section Step

variable [DecidableEq ι]

/-- What a step has to keep, given where it leads. -/
private theorem orderly_of_act {g' : Guarded V H n ι} {p' : SubscribePhase}
    (hact : subscribeAct hash json call k s.shared (s.phase k) = (g', p'))
    (hmirrored : g'.mt.AllMirrored) (hself : Own hash (call k) g'.mt p')
    (hother : ∀ j, j ≠ k → Own hash (call j) g'.mt (s.phase j))
    (hpair : ∀ j, j ≠ k → Apart g'.mt.sh.idCounter p' (s.phase j))
    (hothers : ∀ i j, i ≠ j → Apart g'.mt.sh.idCounter (s.phase i) (s.phase j)) :
    Orderly hash call ((subscribers hash json call).next s k) := by
  obtain ⟨hshared, hphase⟩ := Threads.next_of_act (T := subscribers hash json call) hact
  refine ⟨hshared ▸ hmirrored,
    Threads.forall_step (P := fun j (g : Guarded V H n ι) => Own hash (call j) g.mt) ?_
      fun j hj => ?_,
    Threads.forall_pair_step (R := fun g : Guarded V H n ι => Apart g.mt.sh.idCounter)
      (fun _ _ _ => Apart.symm) (fun j hj => ?_) fun i j _ _ hij => ?_⟩
  · rw [hphase, hshared]
    exact hself
  · rw [hshared]
    exact hother j hj
  · rw [hphase, hshared]
    exact hpair j hj
  · rw [hshared]
    exact hothers i j hij

theorem orderly_step (h : Orderly hash call s) (hk : ¬ Overtakes s k) :
    Orderly hash call ((subscribers hash json call).next s k) := by
  rcases subscribeAct_cases hash json call k s.shared (s.phase k) with
    ⟨hp, hact⟩ | ⟨id, hp, hact⟩ | ⟨holder, p', hact, hreads⟩
  · -- Nobody counts, so the ids there are at most the old value of the counter.
    have hidle : ∀ j, ¬ (s.phase j).Counting := fun j hj => hk ⟨hp, j, hj⟩
    have hnumber : ∀ j, (s.phase j).number (s.shared.mt.sh.idCounter + 1) =
        (s.phase j).number s.shared.mt.sh.idCounter :=
      fun j => SubscribePhase.number_of_not_counting (hidle j) _ _
    refine orderly_of_act hact h.mirrored trivial (fun j _ => (h.own j).increment (hidle j))
      (fun j _ => ⟨fun hc => hidle j hc.2, fun id hid hj => ?_⟩)
      fun i j hij => ⟨fun hc => hidle i hc.1, fun id hi hj => ?_⟩
    · cases hid
      exact absurd ((h.own j).number_le ((hnumber j).symm.trans hj)) (Nat.not_succ_le_self _)
    · exact (h.apart i j hij).2 id ((hnumber i).symm.trans hi) ((hnumber j).symm.trans hj)
  · have hown := h.own k
    have hapart := h.apart k
    rw [hp] at hown hapart
    refine orderly_of_act hact (lockStep_mirrored json h.mirrored _) ⟨hown, ?_⟩
      (fun j hj => (h.own j).register h.mirrored _ _ ((hapart j hj.symm).2 id rfl))
      (fun j hj => hapart j hj.symm) h.apart
    rw [lockStep_handlerOf json h.mirrored, LockStep.subscription, if_pos ⟨rfl, rfl⟩]
  · obtain ⟨hown, hnumber, hcount⟩ := (h.own k).reads hreads
    refine orderly_of_act hact h.mirrored hown (fun j _ => h.own j) (fun j hj => ?_) h.apart
    exact ⟨fun hc => (h.apart k j hj.symm).1 ⟨hcount hc.1, hc.2⟩,
      fun id hid => (h.apart k j hj.symm).2 id (hnumber ▸ hid)⟩

end Step

/-! ### With an overtaking -/

/-- A call after its increment, whose result is above `c` once it has one. -/
def LateResult (c counter : SubscriberId) (p : SubscribePhase) : Prop :=
  p.Numbered ∧ ∀ result, p.result? = some result → c < result ∧ result ≤ counter

/-- There is one call more with a result above `c` than there are ids above `c`. -/
def Crowded (c : SubscriberId) (s : Threads.State ι (Guarded V H n ι) SubscribePhase) : Prop :=
  c < s.shared.mt.sh.idCounter ∧ ∃ calls : Finset ι,
    s.shared.mt.sh.idCounter + 1 = c + calls.card ∧
      ∀ k ∈ calls, LateResult c s.shared.mt.sh.idCounter (s.phase k)

theorem LateResult.reads {c counter : SubscriberId} {p p' : SubscribePhase}
    (h : LateResult c counter p) (hc : c < counter) (hr : p.Reads counter p') :
    LateResult c counter p' := by
  cases hr with
  | wait => exact h
  | lock => exact h.1.elim
  | loadArgument => exact ⟨trivial, nofun⟩
  | loadResult id =>
    refine ⟨trivial, fun result hresult => ?_⟩
    cases hresult
    exact ⟨hc, le_rfl⟩
  | unlock => exact h

/-- A call that counts has no result yet. -/
theorem lateResult_of_counting {c counter : SubscriberId} {p : SubscribePhase}
    (h : p.Counting) : LateResult c counter p := by
  cases p with
  | called => exact h.elim
  | locked => exact h.elim
  | incremented => exact ⟨trivial, nofun⟩
  | loadedArgument => exact ⟨trivial, nofun⟩
  | registered => exact ⟨trivial, nofun⟩
  | loadedResult => exact h.elim
  | returned => exact h.elim

theorem LateResult.mono {c counter counter' : SubscriberId} {p : SubscribePhase}
    (h : LateResult c counter p) (hle : counter ≤ counter') : LateResult c counter' p :=
  ⟨h.1, fun result hresult => ⟨(h.2 result hresult).1, (h.2 result hresult).2.trans hle⟩⟩

/-- Once all calls that counted have returned, two of those that share ids have the same one. -/
theorem Crowded.not_idsInForce {c : SubscriberId} (h : Crowded c s) (hs : Settled s) :
    ¬ IdsInForce hash call s := by
  obtain ⟨hc, calls, hcard, hlate⟩ := h
  intro hids
  have hmaps : ∀ k ∈ calls, ((s.phase k).result?.getD 0) ∈
      Finset.Ioc c s.shared.mt.sh.idCounter := by
    intro k hk
    obtain ⟨id, result, hret⟩ := hs k (hlate k hk).1
    rw [Finset.mem_Ioc]
    refine (hlate k hk).2 _ ?_
    rw [hret]
    rfl
  have hfew : (Finset.Ioc c s.shared.mt.sh.idCounter).card < calls.card := by
    rw [Nat.card_Ioc]
    exact Nat.sub_lt_left_of_lt_add (Nat.le_of_lt hc) (hcard ▸ Nat.lt_succ_self _)
  obtain ⟨j, hj, k, hk, hjk, heq⟩ := Finset.exists_ne_map_eq_of_card_lt_of_maps_to hfew hmaps
  obtain ⟨id, result, hretj⟩ := hs j (hlate j hj).1
  obtain ⟨id', result', hretk⟩ := hs k (hlate k hk).1
  rw [hretj, hretk] at heq
  exact hids.unique j k hjk id id' result result' hretj hretk heq

section Step

variable [DecidableEq ι]

/-- The call that overtakes and the one that it overtakes both have to share what the first
increments. -/
theorem crowded_of_overtakes (h : Overtakes s k) :
    Crowded s.shared.mt.sh.idCounter ((subscribers hash json call).next s k) := by
  obtain ⟨hk, j, hj⟩ := h
  have hjk : j ≠ k := by
    rintro rfl
    rw [hk] at hj
    exact hj
  have hself : ((subscribers hash json call).next s k).phase k = .incremented := by
    rw [Threads.next_phase_self, hk]
    rfl
  have hcounter : ((subscribers hash json call).next s k).shared.mt.sh.idCounter =
      s.shared.mt.sh.idCounter + 1 := by
    rw [Threads.next, hk]
    rfl
  refine ⟨hcounter ▸ Nat.lt_succ_self _, {j, k}, by rw [hcounter, Finset.card_pair hjk],
    fun i hi => lateResult_of_counting ?_⟩
  rcases Finset.mem_insert.mp hi with rfl | hi
  · rwa [Threads.next_phase_of_ne hjk]
  · rw [Finset.mem_singleton.mp hi, hself]
    trivial

/-- What a step has to keep, given where it leads and the calls that share the ids then. -/
private theorem crowded_of_act {c : SubscriberId} {calls : Finset ι}
    (hc : c < s.shared.mt.sh.idCounter)
    (hlate : ∀ j ∈ calls, LateResult c s.shared.mt.sh.idCounter (s.phase j))
    {g' : Guarded V H n ι} {p' : SubscribePhase}
    (hact : subscribeAct hash json call k s.shared (s.phase k) = (g', p'))
    (hle : s.shared.mt.sh.idCounter ≤ g'.mt.sh.idCounter) {calls' : Finset ι}
    (hcard : g'.mt.sh.idCounter + 1 = c + calls'.card)
    (hself : k ∈ calls' → LateResult c g'.mt.sh.idCounter p')
    (hother : ∀ j ∈ calls', j ≠ k → j ∈ calls) :
    Crowded c ((subscribers hash json call).next s k) := by
  obtain ⟨hshared, hphase⟩ := Threads.next_of_act (T := subscribers hash json call) hact
  refine ⟨hshared ▸ hc.trans_le hle, calls', hshared ▸ hcard,
    Threads.forall_step (P := fun j (g : Guarded V H n ι) p =>
      j ∈ calls' → LateResult c g.mt.sh.idCounter p) ?_ fun j hj hmem => ?_⟩
  · rw [hphase, hshared]
    exact hself
  · rw [hshared]
    exact (hlate j (hother j hmem hj)).mono hle

theorem crowded_step {c : SubscriberId} (h : Crowded c s) :
    Crowded c ((subscribers hash json call).next s k) := by
  obtain ⟨hc, calls, hcard, hlate⟩ := h
  rcases subscribeAct_cases hash json call k s.shared (s.phase k) with
    ⟨hp, hact⟩ | ⟨id, hp, hact⟩ | ⟨holder, p', hact, hreads⟩
  · -- The call that increments comes in for the id that it adds.
    have hk : k ∉ calls := by
      intro hmem
      have hnumbered := (hlate k hmem).1
      rw [hp] at hnumbered
      exact hnumbered
    have hcard' : s.shared.mt.sh.idCounter + 1 + 1 = c + (insert k calls).card := by
      rw [Finset.card_insert_of_notMem hk, hcard]
      rfl
    exact crowded_of_act hc hlate hact (Nat.le_succ _) hcard' (fun _ => ⟨trivial, nofun⟩)
      fun j hj hjk => Finset.mem_of_mem_insert_of_ne hj hjk
  · exact crowded_of_act hc hlate hact le_rfl hcard (fun _ => ⟨trivial, nofun⟩) fun j hj _ => hj
  · exact crowded_of_act hc hlate hact le_rfl hcard (fun hmem => (hlate k hmem).reads hc hreads)
      fun j hj _ => hj

end Step

end Steps

/-! ### Runs -/

section Runs

variable [NeZero n] [DecidableEq ι] (hash : String → ℕ) (json : Wjson V)
  (call : ι → SubscribeCall H)

/-- A call that nobody interrupts does what `subscribe` does. -/
theorem run_alone {s : Threads.State ι (Guarded V H n ι) SubscribePhase} {k : ι}
    (hk : s.phase k = .called)
    (hfree : s.shared.holder (index_ hash (call k).params.channel) = none) :
    let s' := (subscribers hash json call).machine.run s (List.replicate 6 k)
    let out := s.shared.mt.subscribe hash json (call k).now [] (call k).params
    s'.shared.mt = out.1 ∧ s'.phase k = .returned out.2.2 out.2.2 := by
  simp [Machine.run, Threads.machine, Threads.next, subscribers, subscribeAct, hk, hfree,
    incrementIdCounter, subscribe, subscribeAs, Pubsub.subscribe, setShard, List.replicate]

/-- No call of the schedule increments the counter while another counts. -/
def InTurn (s : Threads.State ι (Guarded V H n ι) SubscribePhase) (schedule : List ι) : Prop :=
  ∀ before k after, schedule = before ++ k :: after →
    ¬ Overtakes ((subscribers hash json call).machine.run s before) k

variable {hash json call}

theorem orderly_run {mt : PubsubMt V H n} (h : mt.AllMirrored) {schedule : List ι}
    (hturn : InTurn hash json call (beforeCalls mt) schedule) :
    Orderly hash call ((subscribers hash json call).machine.run (beforeCalls mt) schedule) :=
  Machine.invariant_run_of (M := (subscribers hash json call).machine)
    (C := fun s k => ¬ Overtakes s k) (fun _ _ hk hs => orderly_step hs hk)
    (orderly_beforeCalls h) hturn

theorem crowded_run {s : Threads.State ι (Guarded V H n ι) SubscribePhase} {schedule : List ι}
    (h : ¬ InTurn hash json call s schedule) :
    ∃ c, Crowded c ((subscribers hash json call).machine.run s schedule) := by
  simp only [InTurn, not_forall, not_not] at h
  obtain ⟨before, k, after, rfl, hk⟩ := h
  refine ⟨((subscribers hash json call).machine.run s before).shared.mt.sh.idCounter, ?_⟩
  rw [Machine.run_append, Machine.run]
  exact Machine.invariant_run (fun _ _ => crowded_step) (crowded_of_overtakes hk) after

omit [DecidableEq ι] in
/-- A call takes the lock of its shard where it is free and gives back its own; the locks that
other calls hold stay theirs. -/
theorem subscribeAct_holder {k : ι} {g : Guarded V H n ι} {p : SubscribePhase}
    (h : p.Inside → g.holder (index_ hash (call k).params.channel) = some k) :
    ((subscribeAct hash json call k g p).2.Inside →
      (subscribeAct hash json call k g p).1.holder (index_ hash (call k).params.channel) =
        some k) ∧
    ∀ index j, j ≠ k → g.holder index = some j →
      (subscribeAct hash json call k g p).1.holder index = some j := by
  cases p with
  | called =>
    simp only [subscribeAct]
    split
    · next hfree =>
      refine ⟨fun _ => Function.update_self .., fun index j hj hold => ?_⟩
      have hne : index ≠ index_ hash (call k).params.channel := by
        rintro rfl
        rw [hfree] at hold
        cases hold
      exact (Function.update_of_ne hne ..).trans hold
    · exact ⟨False.elim, fun _ _ _ hold => hold⟩
  | loadedResult id result =>
    refine ⟨False.elim, fun index j hj hold => ?_⟩
    have hne : index ≠ index_ hash (call k).params.channel := by
      rintro rfl
      rw [h trivial] at hold
      exact hj (Option.some.inj hold).symm
    exact (Function.update_of_ne hne ..).trans hold
  | returned id result => exact ⟨False.elim, fun _ _ _ hold => hold⟩
  | locked => exact ⟨h, fun _ _ _ hold => hold⟩
  | incremented => exact ⟨h, fun _ _ _ hold => hold⟩
  | loadedArgument id => exact ⟨h, fun _ _ _ hold => hold⟩
  | registered id => exact ⟨h, fun _ _ _ hold => hold⟩

/-- A call inside holds the lock of its shard. -/
theorem holder_run {mt : PubsubMt V H n} {schedule : List ι} {k : ι}
    (hk : (((subscribers hash json call).machine.run (beforeCalls mt) schedule).phase k).Inside) :
    ((subscribers hash json call).machine.run (beforeCalls mt) schedule).shared.holder
      (index_ hash (call k).params.channel) = some k := by
  refine Machine.invariant_run (M := (subscribers hash json call).machine)
    (I := fun s => ∀ k, (s.phase k).Inside →
      s.shared.holder (index_ hash (call k).params.channel) = some k)
    (fun s i h => ?_) (fun _ => False.elim) schedule k hk
  refine Threads.forall_step (P := fun k (g : Guarded V H n ι) (p : SubscribePhase) =>
    p.Inside → g.holder (index_ hash (call k).params.channel) = some k) ?_ fun j hj hin => ?_
  · rw [Threads.next_phase_self]
    exact (subscribeAct_holder (h i)).1
  · exact (subscribeAct_holder (h i)).2 _ j hj (h j hin)

/-- On channels of one shard the lock puts the calls in turn. -/
theorem inTurn_of_one_shard (mt : PubsubMt V H n) (schedule : List ι)
    (hshard : ∀ j k, index_ (n := n) hash (call j).params.channel =
      index_ hash (call k).params.channel) :
    InTurn hash json call (beforeCalls mt) schedule := by
  rintro before k after - ⟨hk, j, hj⟩
  have hholdj := holder_run hj.inside
  have hholdk := holder_run (by rw [hk]; trivial)
  rw [hshard j k, hholdk] at hholdj
  obtain rfl : k = j := Option.some.inj hholdj
  rw [hk] at hj
  exact hj

end Runs

/-- **Generated ids.** As long as no call increments the counter while another one counts, the
ids returned are distinct and in force in every state reached. Where all calls that have
incremented the counter have returned, this is so only if none of them overtook another. -/
theorem generated_ids [DecidableEq ι] (hash : String → ℕ) (json : Wjson V) (opt : PubsubOptions)
    (sh : Shared V) (steps : List (LockStep H opt.shardCount)) (call : ι → SubscribeCall H)
    (schedule : List ι) :
    let s₀ := beforeCalls ((lockMachine hash json).run (new opt sh) steps)
    let s := (subscribers hash json call).machine.run s₀ schedule
    (InTurn hash json call s₀ schedule → IdsInForce hash call s) ∧
      (Settled s → (IdsInForce hash call s ↔ InTurn hash json call s₀ schedule)) := by
  intro s₀ s
  have hmirrored : ((lockMachine hash json).run (new opt sh) steps).AllMirrored :=
    Machine.invariant_run (I := AllMirrored) (fun _ step h => lockStep_mirrored json h step)
      (fun _ _ _ => rfl) steps
  have hforce : InTurn hash json call s₀ schedule → IdsInForce hash call s :=
    fun hturn => (orderly_run hmirrored hturn).idsInForce
  refine ⟨hforce, fun hsettled => ⟨fun hids => ?_, hforce⟩⟩
  by_contra hturn
  obtain ⟨c, hcrowded⟩ := crowded_run hturn
  exact hcrowded.not_idsInForce hsettled hids

/-- Two calls on different shards, the second of which increments the counter while the first
counts. Both return the id 2, under which the first is not registered. -/
theorem not_generated_ids :
    let call : Fin 2 → SubscribeCall Unit :=
      fun k => { now := 100, params := { channel := if k = 0 then "a" else "bb", handler := () } }
    let s := (subscribers String.length .plain call).machine.run
      (beforeCalls (new { hashSize := 2 } {})) [0, 1, 0, 0, 0, 1, 0, 0, 1, 1, 1, 1]
    ¬ IdsInForce String.length call s ∧
      s.phase 0 = .returned 1 2 ∧ s.phase 1 = .returned 2 2 := by
  intro call s
  have h₀ : s.phase 0 = .returned 1 2 := by decide
  have h₁ : s.phase 1 = .returned 2 2 := by decide
  exact ⟨fun h => h.unique 0 1 (by decide) 1 2 2 2 h₀ h₁ rfl, h₀, h₁⟩

end PubsubMt

end WfcPubsub
