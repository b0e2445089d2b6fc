import WfcPubsub.Lib.Bisection
import WfcPubsub.Lib.Machine
import WfcPubsub.Message

/-!
# The message queue of a channel

The class `message_queue`, function by function. The deque is a list, an iterator into it is
an index. A method that changes the queue returns the changed queue; a result of the method
comes beside it.

The two searches by cursor are the bisections of the standard library, so nothing in
the definitions assumes that the deque is in cursor order.

Sources: `pubsub/message_queue.hpp`, `pubsub/message_queue.cpp`.
-/

namespace WfcPubsub

/-- `f_deathtime_less`. -/
def fDeathtimeLess (now : TimeT) (m : StoredMessage) : Bool := m.get.deathtime < now

/-- `f_identity_equal`. -/
def fIdentityEqual (m : Message) (msg : StoredMessage) : Bool := msg.get.identity == m.identity

/-- `f_modify_if_identity_equal`, the effect of one call on the stored message. -/
def fModifyIfIdentityEqual (m : Message) (msg : StoredMessage) : StoredMessage :=
  if fIdentityEqual m msg then { msg with get := msg.get.modify m } else msg

/-- `f_update_if_identity_equal`, the effect of one call on the stored message. The functor is
given the current time and does not use it. -/
def fUpdateIfIdentityEqual (_now : TimeT) (m : Message) (msg : StoredMessage) : StoredMessage :=
  if fIdentityEqual m msg then { msg with get := msg.get.update m } else msg

/-- `class message_queue`. -/
structure MessageQueue where
  queue : List StoredMessage := []
  sequencedFlag : Bool := true
  lastRemoveDeath : TimeT := 0
  removed : ℕ := 0
  deriving DecidableEq, Repr

namespace MessageQueue

/-- The constructor. -/
def new : MessageQueue := {}

def size (mq : MessageQueue) : ℕ := mq.queue.length

def empty (mq : MessageQueue) : Bool := mq.queue.isEmpty

def sequenced (mq : MessageQueue) : Bool := mq.sequencedFlag

/-- `get_removed`: a `const` method that may reset the mutable counter. -/
def getRemoved (reset : Bool) (mq : MessageQueue) : MessageQueue × ℕ :=
  (if reset then { mq with removed := 0 } else mq, mq.removed)

def clear (mq : MessageQueue) : MessageQueue := { mq with queue := [] }

/-- Drop the front until `limit` messages are left; the counter grows by the size before and
shrinks by the size after. -/
def resize (limit : ℕ) (mq : MessageQueue) : MessageQueue :=
  if mq.size ≤ limit then mq
  else
    let queue := mq.queue.drop (mq.size - limit)
    { mq with queue := queue, removed := mq.removed + mq.size - queue.length }

/-! ### Expiry -/

/-- The first loop of `remove_death`: pop dead messages off the front, count them in `removed`,
and note in `hasRemoved` whether there was one. -/
def popFrontDead (now : TimeT) :
    List StoredMessage → ℕ → Bool → List StoredMessage × ℕ × Bool
  | [], removed, hasRemoved => ([], removed, hasRemoved)
  | m :: queue, removed, hasRemoved =>
    if fDeathtimeLess now m then popFrontDead now queue (removed + 1) true
    else (m :: queue, removed, hasRemoved)

/-- The condition on two neighbours in the last loop of `remove_death`. -/
def inSequence (m next : StoredMessage) : Bool :=
  m.get.deathtime == next.get.deathtime && m.get.birthtime ≤ next.get.birthtime

/-- The last loop of `remove_death`: walk over all neighbours while the flag holds. -/
def checkSequence : List StoredMessage → Bool
  | m :: next :: queue => inSequence m next && checkSequence (next :: queue)
  | _ => true

/-- `remove_death(now)`. -/
def removeDeath (now : TimeT) (mq : MessageQueue) : MessageQueue :=
  let (queue, removed, hasRemoved) := popFrontDead now mq.queue mq.removed false
  if !mq.sequencedFlag && !queue.isEmpty then
    let size1 := queue.length
    let queue := queue.filter fun m => !fDeathtimeLess now m
    let hasRemoved := hasRemoved || size1 != queue.length
    { mq with
      queue := queue
      removed := removed + (size1 - queue.length)
      sequencedFlag :=
        if hasRemoved then (if queue.length > 1 then checkSequence queue else true)
        else mq.sequencedFlag }
  else { mq with queue := queue, removed := removed }

/-! ### The five actions -/

/-- `std::upper_bound` by cursor: the first position whose cursor is larger. -/
def upperBound (cursor : CursorT) (queue : List StoredMessage) : ℕ :=
  Bisection.bisect (fun m => !decide (cursor < m.get.cursor)) queue

/-- `std::lower_bound` by cursor: the first position whose cursor is not smaller. -/
def lowerBound (cursor : CursorT) (queue : List StoredMessage) : ℕ :=
  Bisection.bisect (fun m => m.get.cursor < cursor) queue

/-- The message as `insert_` leaves it in the deque. -/
def bornAt (now : TimeT) (m : StoredMessage) : StoredMessage :=
  if m.get.birthtime == 0 then { m with get := m.get.reborn now } else m

/-- `insert_`: the queue and the position of the new message. The deque returns an iterator
to the inserted element, so the test for `end()` that follows never holds. -/
def insert_ (now : TimeT) (m : StoredMessage) (mq : MessageQueue) : MessageQueue × ℕ :=
  let itr := upperBound m.get.cursor mq.queue
  ({ mq with queue := mq.queue.insertIdx itr (bornAt now m) }, itr)

/-- The comparisons that `publish_` makes for the message at `itr` with the message before it
and, where that one passes, with the message behind it. At `end()` there is nothing to compare. -/
def checkNeighbours (now : TimeT) (queue : List StoredMessage) (itr : ℕ) : Bool :=
  (queue[itr]?).all fun m =>
    (itr == 0 || (queue[itr - 1]?).all fun prev =>
      prev.get.deathtime == m.get.deathtime && prev.get.birthtime ≤ now) &&
    (queue[itr + 1]?).all fun next =>
      next.get.deathtime == m.get.deathtime && next.get.birthtime ≥ now

/-- `publish_`: insert, then see whether the flag can stay. -/
def publish_ (now : TimeT) (m : StoredMessage) (mq : MessageQueue) : MessageQueue :=
  let (mq, itr) := mq.insert_ now m
  { mq with sequencedFlag := mq.sequencedFlag && checkNeighbours now mq.queue itr }

/-- `update_`. -/
def update_ (now : TimeT) (m : StoredMessage) (mq : MessageQueue) : MessageQueue :=
  let count := mq.queue.countP (fIdentityEqual m.get)
  let mq := { mq with queue := mq.queue.map (fUpdateIfIdentityEqual now m.get) }
  let mq := if count > 0 then { mq with sequencedFlag := false } else mq
  if m.get.lifetime ≠ 0 ∧ count = 0 then mq.publish_ now m else mq

/-- `modify_`. The functor suspects the order of the queue where a message it rewrites had
another *limit*. -/
def modify_ (now : TimeT) (m : StoredMessage) (mq : MessageQueue) : MessageQueue :=
  let count := mq.queue.countP (fIdentityEqual m.get)
  let possibleViolationOfSequence :=
    mq.queue.any fun msg => fIdentityEqual m.get msg && msg.get.limit != m.get.limit
  let mq := { mq with queue := mq.queue.map (fModifyIfIdentityEqual m.get) }
  let mq :=
    if mq.sequencedFlag && possibleViolationOfSequence then { mq with sequencedFlag := false }
    else mq
  if m.get.lifetime ≠ 0 ∧ count = 0 then mq.publish_ now m else mq

/-- `remove_(now, const message&)`: erase all messages of the identity. -/
def removeIdentity (m : Message) (mq : MessageQueue) : MessageQueue :=
  { mq with queue := mq.queue.filter fun msg => !fIdentityEqual m msg }

/-- `remove_(now, ptr)`. -/
def remove_ (now : TimeT) (m : StoredMessage) (mq : MessageQueue) : MessageQueue :=
  let mq := mq.removeIdentity m.get
  if m.get.lifetime ≠ 0 then mq.publish_ now m else mq

/-- `replace_`. -/
def replace_ (now : TimeT) (m : StoredMessage) (mq : MessageQueue) : MessageQueue :=
  (mq.removeIdentity m.get).publish_ now m

/-! ### `push` and `copy_to` -/

/-- The first step of `push`: expire, at most once for one value of the clock. -/
def purge (now : TimeT) (mq : MessageQueue) : MessageQueue :=
  if mq.lastRemoveDeath ≠ now then { mq.removeDeath now with lastRemoveDeath := now } else mq

/-- The `switch` of `push`. -/
def dispatch (now : TimeT) (m : StoredMessage) (mq : MessageQueue) : MessageQueue :=
  match m.get.action with
  | .publish => mq.publish_ now m
  | .modify => mq.modify_ now m
  | .update => mq.update_ now m
  | .replace => mq.replace_ now m
  | .remove => mq.remove_ now m

/-- `push(now, ptr)`. The pointer that comes back is `none` for `nullptr`. -/
def push (now : TimeT) (m : StoredMessage) (mq : MessageQueue) :
    MessageQueue × Option StoredMessage :=
  let mq := mq.purge now
  if m.get.action = .publish then
    let mq := if m.get.limit = 0 then mq.resize 0 else mq
    if m.get.unlimited then (mq, some m)
    else ((mq.dispatch now m).resize m.get.limit, none)
  else ((mq.dispatch now m).resize m.get.limit, none)

/-- `push(now, message&&)`; `addr` is the address of the object made for the message. -/
def pushMessage (now : TimeT) (m : Message) (mq : MessageQueue) (addr : ℕ := 0) :
    MessageQueue × Bool :=
  let (mq, res) := mq.push now (.make m addr)
  (mq, res.isNone)

/-- `copy_to(itr)` with a `back_inserter` into `out`. -/
def copyToAll (out : List Message) (mq : MessageQueue) : List Message :=
  out ++ mq.queue.map fun m => m.get.copy

/-- `copy_to(cursor, itr)` with a `back_inserter` into `out`. -/
def copyToFrom (cursor : CursorT) (out : List Message) (mq : MessageQueue) : List Message :=
  let beg := lowerBound cursor mq.queue
  out ++ (mq.queue.drop beg).map fun m => m.get.copy

/-- `copy_to(cursor, limit, itr)` with a `back_inserter` into `out`. -/
def copyTo (cursor : CursorT) (limit : ℕ) (out : List Message) (mq : MessageQueue) :
    List Message :=
  let beg := lowerBound cursor mq.queue
  let s := mq.queue.length - beg
  let beg := if limit < s then beg + (s - limit) else beg
  out ++ (mq.queue.drop beg).map fun m => m.get.copy

end MessageQueue

/-! ### Runs -/

/-- A call of one of the public methods that change the queue. -/
inductive QueueOp
  | push (now : TimeT) (m : Message)
  | removeDeath (now : TimeT)
  | resize (limit : ℕ)
  | clear
  | getRemoved (reset : Bool)

/-- A queue together with the number of messages pushed on it so far, which is the address of
the next message: along a run addresses tell in which order messages arrived. -/
structure QueueState where
  mq : MessageQueue := .new
  pushes : ℕ := 0

/-- What the caller can see of the queue after a step. -/
structure QueueView where
  messages : List StoredMessage
  size : ℕ
  removed : ℕ
  result : Option StoredMessage

namespace QueueState

/-- The queue as constructed. -/
def new : QueueState := {}

/-- One method call; `result` is what `push` returned. -/
def step (s : QueueState) : QueueOp → QueueState × Option StoredMessage
  | .push now m =>
    let (mq, result) := s.mq.push now ⟨s.pushes, m⟩
    (⟨mq, s.pushes + 1⟩, result)
  | .removeDeath now => ({ s with mq := s.mq.removeDeath now }, none)
  | .resize limit => ({ s with mq := s.mq.resize limit }, none)
  | .clear => ({ s with mq := s.mq.clear }, none)
  | .getRemoved reset => ({ s with mq := (s.mq.getRemoved reset).1 }, none)

def view (s : QueueState) (result : Option StoredMessage) : QueueView where
  messages := s.mq.queue
  size := s.mq.size
  removed := (s.mq.getRemoved false).2
  result := result

/-- The queue driven by its callers. -/
def machine : Machine QueueState QueueOp QueueView where
  step s op := ((s.step op).1, (s.step op).1.view (s.step op).2)

end QueueState

end WfcPubsub
