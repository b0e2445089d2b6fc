import WfcPubsub.CometAdapter.Basic

/-!
# Subscriptions and adapters

A subscription in the target is of use as long as the adapter it refers to is in the map of the
`comet_adapter_domain`. Two kinds of steps break this, and they always do
(`CometAdapterDomain.Orphans`): a `subscribe` that registers an adapter which the map has lost
since, and an `unreg_io` that erases an adapter for which the target has got a subscription
since. They are taken only where a `subscribe` and an `unreg_io` of the same connection
cross (`CometAdapterDomain.Crosses`).

## Main definitions

* `CometAdapterDomain.Attached` : no subscription without its adapter.
* `CometAdapterDomain.Orphans`, `CometAdapterDomain.Crosses`

## Main results

* `CometAdapterDomain.attached_act_iff` : the steps that break it.
* `CometAdapterDomain.attached_iff` : the runs in which no subscription outlives its adapter.
* `CometAdapterDomain.attached_of_not_crosses` : calls that do not cross.
-/

namespace WfcPubsub

variable {V C ι : Type} {n : ℕ}

namespace CometAdapterDomain

/-- Every subscription in the target refers to the adapter in the map. -/
def Attached (d : CometAdapterDomain V C n) : Prop :=
  ∀ ioId padapt, d.target.Subscribed ioId padapt → d.adapterMap.find? ioId = some padapt

/-- The step registers an adapter that is not in the map, or erases one that is subscribed. -/
def Orphans (call : AdapterCall C) (d : CometAdapterDomain V C n) (p : AdapterPhase C) : Prop :=
  match call, p with
  | .subscribe _ _ ioId _, .found padapt => d.adapterMap.find? ioId ≠ some padapt
  | .unregIo ioId, .unregistered => ∃ padapt, d.target.Subscribed ioId padapt
  | _, _ => False

/-! ### Single steps -/

section Steps

variable {d : CometAdapterDomain V C n} {ioId : IoId} {padapt : AdapterImpl C}

/-- What is found or made is in the map then, and other entries stay. -/
theorem find?_findOrMake (ioId : IoId) (wcometAdapter : C) (d : CometAdapterDomain V C n) :
    (d.findOrMake ioId wcometAdapter).1.adapterMap.find? ioId =
        some (d.findOrMake ioId wcometAdapter).2 ∧
      ∀ io padapt, d.adapterMap.find? io = some padapt →
        (d.findOrMake ioId wcometAdapter).1.adapterMap.find? io = some padapt := by
  rw [findOrMake]
  split
  · next hnone =>
    refine ⟨by rw [OrderedMap.find?_set, if_pos rfl], fun io padapt hio => ?_⟩
    rw [OrderedMap.find?_set, if_neg]
    · exact hio
    · rintro rfl
      rw [hnone] at hio
      cases hio
  · next padapt hsome => exact ⟨hsome, fun io padapt hio => hio⟩

theorem findOrMake_target (ioId : IoId) (wcometAdapter : C) (d : CometAdapterDomain V C n) :
    (d.findOrMake ioId wcometAdapter).1.target = d.target := by
  rw [findOrMake]
  split <;> rfl

theorem Attached.findOrMake (h : d.Attached) (ioId : IoId) (wcometAdapter : C) :
    (d.findOrMake ioId wcometAdapter).1.Attached := by
  intro io padapt hsub
  rw [findOrMake_target] at hsub
  exact (find?_findOrMake ioId wcometAdapter d).2 io padapt (h io padapt hsub)

theorem Attached.unregTarget (h : d.Attached) (hm : d.target.AllMirrored) (ioId : IoId) :
    (d.unregTarget ioId).Attached :=
  fun io padapt hsub => h io padapt ((PubsubDomain.subscribed_unregIo hm).mp hsub).2

/-- Registering is sound exactly where the map has the adapter. -/
theorem Attached.subscribeTarget_iff [NeZero n] (h : d.Attached) (hm : d.target.AllMirrored)
    (hash : String → ℕ) (json : Wjson V) (now : TimeT) (channel : String) :
    (d.subscribeTarget hash json now channel ioId padapt).Attached ↔
      d.adapterMap.find? ioId = some padapt := by
  obtain ⟨-, hnew, hold⟩ := PubsubDomain.subscribed_subscribe hash json now hm
    [{ channel := channel, handler := padapt }] ioId padapt
  constructor
  · intro hattached
    exact hattached ioId padapt (hnew (List.cons_ne_nil _ _))
  · intro hfind io padapt' hsub
    rcases hold io padapt' hsub with ⟨rfl, rfl⟩ | hsub'
    · exact hfind
    · exact h io padapt' hsub'

/-- Erasing is sound exactly where the client has no subscription. -/
theorem Attached.eraseAdapter_iff (h : d.Attached) :
    (d.eraseAdapter ioId).Attached ↔ ¬ ∃ padapt, d.target.Subscribed ioId padapt := by
  constructor
  · rintro hattached ⟨padapt, hsub⟩
    have hfind := hattached ioId padapt hsub
    rw [eraseAdapter, OrderedMap.find?_erase, if_pos rfl] at hfind
    cases hfind
  · intro hnone io padapt hsub
    rw [eraseAdapter, OrderedMap.find?_erase, if_neg]
    · exact h io padapt hsub
    · rintro rfl
      exact hnone ⟨padapt, hsub⟩

variable [NeZero n] {hash : String → ℕ} {json : Wjson V} {call : AdapterCall C}
  {p : AdapterPhase C}

theorem act_mirrored (h : d.target.AllMirrored) :
    (act hash json call d p).1.target.AllMirrored := by
  cases call with
  | subscribe now channel ioId wcometAdapter =>
    cases p with
    | called =>
      show (d.findOrMake ioId wcometAdapter).1.target.AllMirrored
      rwa [findOrMake_target]
    | found padapt => exact (PubsubDomain.subscribed_subscribe hash json now h _ ioId padapt).1
    | unregistered => exact h
    | returned => exact h
  | unregIo ioId =>
    cases p with
    | called => exact PubsubDomain.unregIo_mirrored h ioId
    | found padapt => exact h
    | unregistered => exact h
    | returned => exact h

/-- The steps that leave a subscription without its adapter are those that orphan one. -/
theorem attached_act_iff (hm : d.target.AllMirrored) (h : d.Attached) :
    (act hash json call d p).1.Attached ↔ ¬ Orphans call d p := by
  cases call with
  | subscribe now channel ioId wcometAdapter =>
    cases p with
    | called => exact iff_of_true (h.findOrMake ioId wcometAdapter) id
    | found padapt =>
      rw [Orphans, not_not]
      exact h.subscribeTarget_iff hm hash json now channel
    | unregistered => exact iff_of_true h id
    | returned => exact iff_of_true h id
  | unregIo ioId =>
    cases p with
    | called => exact iff_of_true (h.unregTarget hm ioId) id
    | found padapt => exact iff_of_true h id
    | unregistered => exact h.eraseAdapter_iff
    | returned => exact iff_of_true h id

end Steps

/-! ### Calls that do not cross -/

/-- The second step of the call `k` comes while a call of the other kind for the same connection
is between its two steps. -/
def Crosses (call : ι → AdapterCall C)
    (s : Threads.State ι (CometAdapterDomain V C n) (AdapterPhase C)) (k : ι) : Prop :=
  ∃ j, (call j).ioId = (call k).ioId ∧
    ((∃ padapt, s.phase k = .found padapt) ∧ s.phase j = .unregistered ∨
      s.phase k = .unregistered ∧ ∃ padapt, s.phase j = .found padapt)

/-- What a call between its two steps may rely on as long as no call crosses it. -/
def Own (ioId : IoId) (d : CometAdapterDomain V C n) : AdapterPhase C → Prop
  | .called | .returned => True
  | .found padapt => d.adapterMap.find? ioId = some padapt
  | .unregistered => ∀ padapt, ¬ d.target.Subscribed ioId padapt

section Own

variable {d : CometAdapterDomain V C n} {io ioId : IoId} {p : AdapterPhase C}

theorem Own.not_orphans {call : AdapterCall C} (h : Own call.ioId d p) : ¬ Orphans call d p := by
  cases call with
  | subscribe now channel ioId wcometAdapter =>
    cases p with
    | found padapt => exact not_not.mpr h
    | _ => exact id
  | unregIo ioId =>
    cases p with
    | unregistered => exact not_exists.mpr h
    | _ => exact id

theorem Own.findOrMake (h : Own io d p) (ioId : IoId) (wcometAdapter : C) :
    Own io (d.findOrMake ioId wcometAdapter).1 p := by
  cases p with
  | called => trivial
  | returned => trivial
  | found padapt => exact (find?_findOrMake ioId wcometAdapter d).2 io padapt h
  | unregistered =>
    rw [Own, findOrMake_target]
    exact h

theorem Own.unregTarget (h : Own io d p) (hm : d.target.AllMirrored) (ioId : IoId) :
    Own io (d.unregTarget ioId) p := by
  cases p with
  | called => trivial
  | returned => trivial
  | found padapt => exact h
  | unregistered =>
    exact fun padapt hsub => h padapt ((PubsubDomain.subscribed_unregIo hm).mp hsub).2

theorem Own.subscribeTarget [NeZero n] (h : Own io d p) (hm : d.target.AllMirrored)
    (hash : String → ℕ) (json : Wjson V) (now : TimeT) (channel : String)
    (padapt : AdapterImpl C) (hp : p = .unregistered → io ≠ ioId) :
    Own io (d.subscribeTarget hash json now channel ioId padapt) p := by
  cases p with
  | called => trivial
  | returned => trivial
  | found padapt => exact h
  | unregistered =>
    intro padapt' hsub
    obtain ⟨-, -, hold⟩ := PubsubDomain.subscribed_subscribe hash json now hm
      [{ channel := channel, handler := padapt }] ioId padapt
    rcases hold io padapt' hsub with ⟨heq, -⟩ | hsub'
    · exact hp rfl heq
    · exact h padapt' hsub'

theorem Own.eraseAdapter (h : Own io d p) (hp : ∀ padapt, p = .found padapt → io ≠ ioId) :
    Own io (d.eraseAdapter ioId) p := by
  cases p with
  | called => trivial
  | returned => trivial
  | found padapt =>
    rw [Own, CometAdapterDomain.eraseAdapter, OrderedMap.find?_erase, if_neg (hp padapt rfl)]
    exact h
  | unregistered => exact h

variable [NeZero n] {hash : String → ℕ} {json : Wjson V}

/-- The first step of a call gives it what it relies on until its second. -/
theorem own_act_self {call : AdapterCall C} (hm : d.target.AllMirrored)
    (h : Own call.ioId d p) :
    Own call.ioId (act hash json call d p).1 (act hash json call d p).2 := by
  cases call with
  | subscribe now channel ioId wcometAdapter =>
    cases p with
    | called => exact (find?_findOrMake ioId wcometAdapter d).1
    | found padapt => trivial
    | unregistered => exact h
    | returned => trivial
  | unregIo ioId =>
    cases p with
    | called => exact fun padapt hsub => ((PubsubDomain.subscribed_unregIo hm).mp hsub).1 rfl
    | found padapt => exact h
    | unregistered => trivial
    | returned => trivial

/-- A second step harms a call of the other kind for the same connection only. -/
theorem own_act_other {call : AdapterCall C} {q : AdapterPhase C} (hm : d.target.AllMirrored)
    (h : Own io d q)
    (hio : (∃ padapt, p = .found padapt) ∧ q = .unregistered ∨
      p = .unregistered ∧ (∃ padapt, q = .found padapt) → io ≠ call.ioId) :
    Own io (act hash json call d p).1 q := by
  cases call with
  | subscribe now channel ioId wcometAdapter =>
    cases p with
    | called => exact h.findOrMake ioId wcometAdapter
    | found padapt =>
      exact h.subscribeTarget hm hash json now channel padapt
        fun hq => hio (Or.inl ⟨⟨padapt, rfl⟩, hq⟩)
    | unregistered => exact h
    | returned => exact h
  | unregIo ioId =>
    cases p with
    | called => exact h.unregTarget hm ioId
    | found padapt => exact h
    | unregistered => exact h.eraseAdapter fun padapt hq => hio (Or.inr ⟨rfl, padapt, hq⟩)
    | returned => exact h

/-- The invariant of the runs in which no call crosses another. -/
structure Unharmed (call : ι → AdapterCall C)
    (s : Threads.State ι (CometAdapterDomain V C n) (AdapterPhase C)) : Prop where
  mirrored : s.shared.target.AllMirrored
  attached : s.shared.Attached
  own : ∀ j, Own (call j).ioId s.shared (s.phase j)

theorem unharmed_step [DecidableEq ι] {call : ι → AdapterCall C} {k : ι}
    {s : Threads.State ι (CometAdapterDomain V C n) (AdapterPhase C)} (h : Unharmed call s)
    (hk : ¬ Crosses call s k) : Unharmed call ((calls hash json call).next s k) := by
  refine ⟨act_mirrored h.mirrored,
    (attached_act_iff h.mirrored h.attached).mpr (h.own k).not_orphans,
    Threads.forall_step
      (P := fun j (d : CometAdapterDomain V C n) => Own (call j).ioId d) ?_ fun j _ => ?_⟩
  · rw [Threads.next_phase_self]
    exact own_act_self h.mirrored (h.own k)
  · exact own_act_other h.mirrored (h.own j) fun hphases hio => hk ⟨j, hio, hphases⟩

end Own

/-! ### Runs -/

theorem beforeCalls_unharmed (opt : PubsubOptions) (sh : Shared V) (call : ι → AdapterCall C) :
    Unharmed call (beforeCalls (PubsubMt.new opt sh)) where
  mirrored _ _ _ := rfl
  attached := by
    rintro ioId padapt ⟨i, channel, hfind⟩
    cases hfind
  own _ := trivial

/-- **Calls that do not cross.** If the second step of no call comes while one of the other kind
for the same connection is between its two steps, no subscription outlives its adapter. -/
theorem attached_of_not_crosses [DecidableEq ι] (hash : String → ℕ) (json : Wjson V)
    (opt : PubsubOptions) (sh : Shared V) {call : ι → AdapterCall C} {schedule : List ι}
    (h : ∀ before k after, schedule = before ++ k :: after → ¬ Crosses call
      ((calls (n := opt.shardCount) hash json call).machine.run
        (beforeCalls (PubsubMt.new opt sh)) before) k) :
    ((calls (n := opt.shardCount) hash json call).machine.run
      (beforeCalls (PubsubMt.new opt sh)) schedule).shared.Attached :=
  (Machine.invariant_run_of (I := Unharmed call) (C := fun s k => ¬ Crosses call s k)
    (fun _ _ hk hs => unharmed_step hs hk) (beforeCalls_unharmed opt sh call) h).attached

/-- **No subscription outlives its adapter.** In a run of concurrent calls every subscription
that the target has refers to the adapter in the map, in every state reached, iff no step
registers an adapter that has left the map or erases one that is subscribed. -/
theorem attached_iff [DecidableEq ι] (hash : String → ℕ) (json : Wjson V) (opt : PubsubOptions)
    (sh : Shared V) (call : ι → AdapterCall C) (schedule : List ι) :
    let M := (calls (n := opt.shardCount) hash json call).machine
    let s₀ := beforeCalls (PubsubMt.new opt sh)
    (∀ before after, schedule = before ++ after → (M.run s₀ before).shared.Attached) ↔
      ∀ before k after, schedule = before ++ k :: after →
        ¬ Orphans (call k) (M.run s₀ before).shared ((M.run s₀ before).phase k) := by
  intro M s₀
  exact Machine.forall_reached_iff (M := M) (I := fun s => s.shared.Attached)
    (J := fun s => s.shared.target.AllMirrored)
    (B := fun s k => Orphans (call k) s.shared (s.phase k))
    (fun s k h => act_mirrored h) (fun s k hm h => attached_act_iff hm h) (fun _ _ _ => rfl)
    (beforeCalls_unharmed opt sh call).attached schedule

/-- A client disconnects while its `subscribe` is between the two steps. When both calls have
returned, the target has the subscription and the map has lost the adapter. -/
theorem not_attached :
    let call : Fin 2 → AdapterCall Unit := fun k =>
      if k = 0 then .subscribe 100 "channel" 7 () else .unregIo 7
    let s := (calls String.length .plain call).machine.run
      (beforeCalls (PubsubMt.new { hashSize := 1 } {})) [0, 1, 1, 0]
    Idle s ∧ ¬ s.shared.Attached := by
  intro call s
  have hreturned : ∀ k, s.phase k = .returned := by decide
  have hlost : s.shared.adapterMap.find? 7 = none := by decide
  have hsub : s.shared.target.Subscribed 7 { object := 0, ca := () } :=
    ⟨0, "channel", by decide⟩
  refine ⟨fun k => Or.inr (hreturned k), fun h => ?_⟩
  have hfind := h 7 _ hsub
  rw [hlost] at hfind
  cases hfind

end CometAdapterDomain

end WfcPubsub
