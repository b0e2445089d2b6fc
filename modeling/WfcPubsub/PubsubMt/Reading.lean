import WfcPubsub.PubsubMt.Basic
import WfcPubsub.Pubsub.Loading

/-!
# Reading from the shards

A reading changes the caches: it takes dead messages away, and discards a channel that it leaves
empty. While the clock stands still no other reading notices, neither on the same channel nor on
another one of the same shard, in whatever state the caches are.

What a call of `pubsub_mt` does to a shard is nothing or what the call of `pubsub` does, so the
shards keep what every call of `pubsub` keeps.

## Main results

* `PubsubMt.getMessages_again` : what a reading returns does not depend on a reading before it.
* `PubsubMt.shards_run` : invariants of the shards.
-/

namespace WfcPubsub

variable {V H : Type} {n : ℕ}

namespace PubsubMt

section Shards

variable [NeZero n] (hash : String → ℕ) (json : Wjson V)

/-- What a reading returns does not depend on a reading before it at the same time. -/
theorem getMessages_again (now : TimeT) (ml ml' : List Message)
    (params params' : SubscribeParams H) (mt : PubsubMt V H n) :
    ((mt.getMessages hash json now ml params).1.getMessages hash json now ml' params').2 =
      (mt.getMessages hash json now ml' params').2 := by
  simp only [getMessages, setShard_pubsubList, setShard_sh]
  by_cases hindex : index_ (n := n) hash params'.channel = index_ hash params.channel
  · rw [hindex, Function.update_self, Pubsub.getMessages_again]
  · rw [Function.update_of_ne hindex]

/-- What a call does to a shard. -/
theorem step_pubsubList (mt : PubsubMt V H n) (op : PubsubOp H) (i : Fin n) :
    (mt.step hash json op).1.pubsubList i = mt.pubsubList i ∨
      (mt.step hash json op).1.pubsubList i =
        (PubsubState.step json ⟨mt.pubsubList i, mt.sh⟩ op).1.ps := by
  have hset : ∀ (channel : String) (f : Pubsub H → Pubsub H),
      Function.update mt.pubsubList (index_ hash channel)
          (f (mt.pubsubList (index_ hash channel))) i = mt.pubsubList i ∨
        Function.update mt.pubsubList (index_ hash channel)
          (f (mt.pubsubList (index_ hash channel))) i = f (mt.pubsubList i) := by
    intro channel f
    by_cases hi : i = index_ hash channel
    · rw [hi, Function.update_self]
      exact Or.inr rfl
    · rw [Function.update_of_ne hi]
      exact Or.inl rfl
  cases op with
  | publish now channel msg =>
    exact hset channel fun ps => (ps.publish json now channel msg mt.sh).1
  | getMessages now params =>
    exact hset params.channel fun ps => (ps.getMessages json now [] params mt.sh).1
  | subscribe now params =>
    exact hset params.channel fun ps => (ps.subscribe json now [] params mt.sh).1
  | subscribeAs now id params =>
    exact hset params.channel fun ps => (ps.subscribeAs json now [] id params mt.sh).1
  | describe id => exact Or.inr (describe_pubsubList id mt i)
  | describeChannel id channel => exact hset channel fun ps => (ps.describeChannel id channel).1
  | reset =>
    right
    show mt.reset.pubsubList i = _
    rw [reset, forEachShard_eq]
    rfl
  | size count => exact Or.inl rfl
  | emptyCount => exact Or.inl rfl
  | getRemoved reset =>
    right
    show (mt.getRemoved reset).1.pubsubList i = _
    rw [getRemoved, forEachShard_eq]
    rfl
  | subscriberCount => exact Or.inl rfl

/-- What every call of `pubsub` keeps holds of all shards in every state. -/
theorem shards_run {I : Pubsub H → Prop}
    (hstep : ∀ (s : PubsubState V H) op, I s.ps → I (s.step json op).1.ps)
    {mt : PubsubMt V H n} (hinit : ∀ i, I (mt.pubsubList i)) (ops : List (PubsubOp H)) :
    ∀ i, I (((machine hash json).run mt ops).pubsubList i) := by
  refine Machine.invariant_run (I := fun mt : PubsubMt V H n => ∀ i, I (mt.pubsubList i))
    (fun mt op h i => ?_) hinit ops
  show I ((mt.step hash json op).1.pubsubList i)
  rcases step_pubsubList hash json mt op i with hshard | hshard
  · rw [hshard]
    exact h i
  · rw [hshard]
    exact hstep _ op (h i)

end Shards

end PubsubMt

end WfcPubsub
