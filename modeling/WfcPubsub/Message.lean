import Mathlib.Data.Int.Basic
import Mathlib.Tactic.NormNum

/-!
# Messages

The types of `pubsub/api` and the class `stored_message`. A `stored_message` has the message
as its only member, so its methods are definitions on `Message`; the queue holds it through
a `stored_message::ptr`, here `StoredMessage`, which besides the message carries the identity
of the heap object. No function of the library compares pointers, so the identity has
no influence on any result; it lets a statement say *which* pushed message it is about.

Sources: `pubsub/api/types.hpp`, `pubsub/api/actions.hpp`, `pubsub/api/message.hpp`,
`pubsub/stored_message.hpp`.
-/

namespace WfcPubsub

/-- `time_t`, a signed 64-bit number. -/
abbrev TimeT := ℤ

/-- `cursor_t` is `time_t`. -/
abbrev CursorT := TimeT

/-- A number that fits `time_t`. -/
def Representable (t : TimeT) : Prop := -2 ^ 63 ≤ t ∧ t < 2 ^ 63

instance : DecidablePred Representable := fun t =>
  inferInstanceAs (Decidable (-2 ^ 63 ≤ t ∧ t < 2 ^ 63))

theorem Representable.bmod_eq {t : TimeT} (h : Representable t) : Int.bmod t (2 ^ 64) = t := by
  obtain ⟨hlo, hhi⟩ := h
  norm_num at hlo hhi
  exact Int.bmod_eq_of_le (by norm_num; omega) (by norm_num; omega)

abbrev IdentityT := String

abbrev ContentT := String

/-- `key_t` is `long`. -/
abbrev KeyT := ℤ

/-- `subscriber_id_t` is `size_t`. -/
abbrev SubscriberId := ℕ

/-- `enum class actions`. -/
inductive Actions
  | publish
  | modify
  | update
  | replace
  | remove
  deriving DecidableEq, Repr

/-- `struct message`; `content` is a pointer that may be null. -/
structure Message where
  action : Actions := .publish
  limit : ℕ := 0
  birthtime : TimeT := 0
  lifetime : TimeT := 0
  cursor : CursorT := 1
  identity : IdentityT := ""
  content : Option ContentT := none
  key : KeyT := 0
  persistent : Bool := false
  deriving DecidableEq, Repr

namespace Message

/-- `stored_message::unlimited`. -/
def unlimited (m : Message) : Bool := m.lifetime == 0 || m.limit == 0

theorem unlimited_eq_false_iff {m : Message} :
    m.unlimited = false ↔ m.lifetime ≠ 0 ∧ m.limit ≠ 0 := by
  rw [unlimited, Bool.or_eq_false_iff, beq_eq_false_iff_ne, beq_eq_false_iff_ne]

/-- `stored_message::deathtime`. The sum is one of `time_t`: outside its range it wraps. -/
def deathtime (m : Message) : TimeT := (m.birthtime + m.lifetime).bmod (2 ^ 64)

/-- `stored_message::reborn(now)`. -/
def reborn (now : TimeT) (m : Message) : Message := { m with birthtime := now }

/-- `stored_message::update_content`: the content is copied, or reset where `m` has none. -/
def updateContent (self m : Message) : Message :=
  match m.content with
  | some c => { self with content := some c }
  | none => { self with content := none }

/-- `stored_message::update_key`. -/
def updateKey (self m : Message) : Message := { self with key := m.key }

/-- `stored_message::update`. -/
def update (self m : Message) : Message :=
  (({ self with limit := m.limit, birthtime := m.birthtime, lifetime := m.lifetime } :
    Message).updateContent m).updateKey m

/-- `stored_message::modify`. -/
def modify (self m : Message) : Message :=
  (({ self with limit := m.limit } : Message).updateContent m).updateKey m

/-- `stored_message::copy`: every member is copied, the content into a new string. -/
def copy (m : Message) : Message where
  action := m.action
  limit := m.limit
  birthtime := m.birthtime
  lifetime := m.lifetime
  cursor := m.cursor
  identity := m.identity
  persistent := m.persistent
  key := m.key
  content := m.content

@[simp] theorem copy_eq (m : Message) : m.copy = m := rfl

/-- A death time within the range of `time_t` is the plain sum. -/
theorem deathtime_eq_add {m : Message} (hlo : -2 ^ 63 ≤ m.birthtime + m.lifetime)
    (hhi : m.birthtime + m.lifetime < 2 ^ 63) : m.deathtime = m.birthtime + m.lifetime :=
  Representable.bmod_eq ⟨hlo, hhi⟩

/-- The death time is the plain sum exactly where that is in range. -/
theorem deathtime_eq_add_iff {m : Message} :
    m.deathtime = m.birthtime + m.lifetime ↔ Representable (m.birthtime + m.lifetime) := by
  refine ⟨fun h => ?_, fun h => deathtime_eq_add h.1 h.2⟩
  have hlo := Int.le_bmod (x := m.birthtime + m.lifetime) (m := 2 ^ 64) (by norm_num)
  have hhi := Int.bmod_lt (x := m.birthtime + m.lifetime) (m := 2 ^ 64) (by norm_num)
  rw [deathtime] at h
  rw [h] at hlo hhi
  norm_num at hlo hhi
  exact ⟨by norm_num; omega, by norm_num; omega⟩

/-- A sum of two 64-bit numbers, the second one positive, leaves the range at its upper end, and
then wraps once. -/
private theorem bmod_add_eq {a b : ℤ} (ha : -2 ^ 63 ≤ a) (ha' : a < 2 ^ 63) (hb : 0 < b)
    (hb' : b < 2 ^ 63) :
    (a + b).bmod (2 ^ 64) = if a + b < 2 ^ 63 then a + b else a + b - 2 ^ 64 := by
  split
  · exact Int.bmod_eq_of_le (by norm_num; omega) (by norm_num; omega)
  · have hwrap : (a + b).bmod (2 ^ 64) = (a + b - 2 ^ 64).bmod (2 ^ 64) :=
      (Int.sub_bmod_right _ (2 ^ 64)).symm
    rw [hwrap]
    exact Int.bmod_eq_of_le (by norm_num; omega) (by norm_num; omega)

private theorem bmod_add_le_iff {a b c : ℤ} (ha : -2 ^ 63 ≤ a) (ha' : a < 2 ^ 63) (hb : 0 < b)
    (hbc : b ≤ c) (hc : c < 2 ^ 63) :
    (a + b).bmod (2 ^ 64) ≤ (a + c).bmod (2 ^ 64) ↔ a + c < 2 ^ 63 ∨ 2 ^ 63 ≤ a + b := by
  rw [bmod_add_eq ha ha' hb (hbc.trans_lt hc), bmod_add_eq ha ha' (hb.trans_le hbc) hc]
  split_ifs <;> omega

/-- Adding one lifetime keeps birthtimes apart, whether the sum wraps or not. -/
theorem deathtime_eq_iff {m m' : Message} (hlife : m.lifetime = m'.lifetime)
    (hm : Representable m.birthtime) (hm' : Representable m'.birthtime) :
    m.deathtime = m'.deathtime ↔ m.birthtime = m'.birthtime := by
  rw [deathtime, deathtime, ← hlife, Int.bmod_add_cancel_right, hm.bmod_eq,
    hm'.bmod_eq]

/-- A longer lifetime brings the death forward iff only the longer one leaves the range. -/
theorem deathtime_le_iff {m m' : Message} (hm : Representable m.birthtime)
    (hbirth : m'.birthtime = m.birthtime) (hpos : 0 < m.lifetime)
    (hle : m.lifetime ≤ m'.lifetime) (hm' : Representable m'.lifetime) :
    m.deathtime ≤ m'.deathtime ↔
      m.birthtime + m'.lifetime < 2 ^ 63 ∨ 2 ^ 63 ≤ m.birthtime + m.lifetime := by
  rw [deathtime, deathtime, hbirth]
  exact bmod_add_le_iff hm.1 hm.2 hpos hle hm'.2

/-! ### What the rewriting operations keep -/

@[simp] theorem updateContent_content (self m : Message) :
    (self.updateContent m).content = m.content := by
  unfold updateContent
  cases m.content <;> rfl

theorem updateContent_eq (self m : Message) :
    self.updateContent m = { self with content := m.content } := by
  unfold updateContent
  cases m.content <;> rfl

/-- `update` takes everything from `m` but the action, cursor, identity and persistence. -/
theorem update_eq (self m : Message) : self.update m =
    { self with
      limit := m.limit, birthtime := m.birthtime, lifetime := m.lifetime, content := m.content
      key := m.key } := by
  rw [update, updateContent_eq]
  rfl

/-- `modify` takes the limit, content and key from `m`. -/
theorem modify_eq (self m : Message) :
    self.modify m = { self with limit := m.limit, content := m.content, key := m.key } := by
  rw [modify, updateContent_eq]
  rfl

@[simp] theorem update_cursor (self m : Message) : (self.update m).cursor = self.cursor := by
  rw [update_eq]

@[simp] theorem update_identity (self m : Message) :
    (self.update m).identity = self.identity := by
  rw [update_eq]

@[simp] theorem update_action (self m : Message) : (self.update m).action = self.action := by
  rw [update_eq]

@[simp] theorem update_deathtime (self m : Message) :
    (self.update m).deathtime = m.deathtime := by
  rw [update_eq]
  rfl

@[simp] theorem modify_cursor (self m : Message) : (self.modify m).cursor = self.cursor := by
  rw [modify_eq]

@[simp] theorem modify_identity (self m : Message) :
    (self.modify m).identity = self.identity := by
  rw [modify_eq]

@[simp] theorem modify_action (self m : Message) : (self.modify m).action = self.action := by
  rw [modify_eq]

/-- `modify` keeps the lifetime of the stored message, so it also keeps its death time. -/
@[simp] theorem modify_deathtime (self m : Message) :
    (self.modify m).deathtime = self.deathtime := by
  rw [modify_eq]
  rfl

end Message

/-- `stored_message::ptr`: the owned message and the heap object that holds it. -/
structure StoredMessage where
  addr : ℕ
  get : Message
  deriving DecidableEq, Repr

/-- `std::make_unique<stored_message>(std::move(m))`. Where nothing is said about which
object is which, the address is left at its default. -/
def StoredMessage.make (m : Message) (addr : ℕ := 0) : StoredMessage := ⟨addr, m⟩

end WfcPubsub
