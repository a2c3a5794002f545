import Coroc.RingBuffer
import Coroc.TimerHeap

/-!
# The blocking part of the runtime: its state

Coroutines, the locks they take, and the objects they block on: channels
(`src/channel.c`, `src/message.c`), groups (`src/group.c`), the asynchronous pool
(`src/async.c`), the timer manager (`src/time.c`) and poll descriptors
(`src/netpoll.c`).  Objects are named by numbers, the order of the numbers being the
order of the addresses.

Some fields are not in the source.  They record what has happened and no branch of
the code reads them: which wait a coroutine is in and who has claimed it, which items
a call has moved, the log of each channel.  They are marked as such.
-/

namespace Coroc.Runtime

abbrev Coid := Nat
abbrev ChanId := Nat
abbrev GroupId := Nat
abbrev DescId := Nat

/-- The `elemsize` bytes of an element. -/
abbrev Item := Nat

/-- Who executes code: a coroutine, an asynchronous thread, a VPU's system context, or
    the VPU that finishes the suspension of a coroutine (`core_wait`). -/
inductive Tid where
  | co (k : Coid)
  | async (a : Nat)
  | sched (v : Nat)
  | vpu (k : Coid)
deriving DecidableEq, Repr

/-- Whoever executes modelled code. -/
def Tid.isThread : Tid → Bool
  | .vpu _ => false
  | _ => true

inductive Lock where
  | chan (c : ChanId)
  | group (g : GroupId)
  | async
  | timer
  | desc (d : DescId)
deriving DecidableEq, Repr

/-- `coroc_coroutine_status`.  `saving` is a coroutine inside `vpu_suspend` whose status
    word is still `RUNNING`: its context is being saved. -/
inductive Status where
  | unborn
  | running
  | saving
  | wait
  | ready
deriving DecidableEq, Repr

inductive Dir where
  | send
  | recv
deriving DecidableEq, Repr

/-- The results of the channel operations; `invalid` is the `-1` of an empty select. -/
inductive Ret where
  | success
  | awaken
  | busy
  | closed
  | invalid
deriving DecidableEq, Repr

/-- The fields of a `quantum` that are set once, by `quantum_init`, the queue it goes
    to, and its place in the array of a select. -/
structure Quantum where
  co : Coid
  chan : ChanId
  select : Bool
  dir : Dir
  idx : Nat
deriving DecidableEq, Repr

/-- The fields of a `quantum` that change: `close`, and what `itembuf` points to.  The
    other two are not in the source: the channel was open when the quantum was queued, and
    closed when it was marked. -/
structure Slot where
  close : Bool
  item : Item
  openAt : Bool
  closedAt : Bool
deriving DecidableEq, Repr

/-- `coroc_scase_t`. -/
structure Case where
  dir : Dir
  chan : ChanId
  item : Item
deriving DecidableEq, Repr

/-- An item moved through a channel, as one of the two ends sees it. -/
structure Xfer where
  dir : Dir
  chan : ChanId
  item : Item
deriving DecidableEq, Repr

/-- What an operation in this direction has in its caller's buffer once `y` has moved. -/
def Dir.got : Dir → Item → Option Item
  | .send, _ => none
  | .recv, y => some y

/-- A returned call, with what it has left in its caller's buffer.  `during`: the channel
    was open when the select queued its quantum on it, and closed when the quantum was
    marked. -/
inductive Entry where
  | send (c : ChanId) (x : Item) (block : Bool) (ret : Ret)
  | recv (c : ChanId) (block : Bool) (ret : Ret) (got : Option Item)
  | select (cases : List Case) (block : Bool) (ret : Ret) (active : Option ChanId)
      (during : Bool) (got : Option Item)
  | close (c : ChanId) (ret : Ret)
deriving DecidableEq, Repr

/-- A returned call with the items it moved; `late`: it is a send and the channel was
    closed before it began. -/
structure Record where
  entry : Entry
  late : Bool
  xfers : List Xfer
deriving DecidableEq, Repr

/-- What a suspended coroutine waits for; `born` is a new coroutine before its first
    `vpu_ready`. -/
inductive Site where
  | chans (qs : List Quantum)
  | group (g : GroupId)
  | async
  | timer
  | born
deriving DecidableEq, Repr

/-- How far a wait has come: nobody has claimed it, a thread has claimed it by the
    quantum `q`, a thread has done its part and is about to call `vpu_ready`, it is over
    and the coroutine has not looked yet. -/
inductive Phase where
  | idle
  | taken (t : Tid) (q : Quantum)
  | served (t : Tid) (q : Option Quantum)
  | woken (q : Quantum)
deriving DecidableEq, Repr

structure Wait where
  site : Site
  phase : Phase
deriving DecidableEq, Repr

/-- What a coroutine was created for. -/
inductive Role where
  | client
  | timer
deriving DecidableEq, Repr

/-- A coroutine, without its status.  The fields from `wait` on are not in the source. -/
structure Co where
  priority : Nat
  role : Role
  qtag : Option ChanId
  slots : Nat → Slot
  wait : Option Wait
  moved : List Xfer
  late : Bool
  history : List Record
  wakes : Nat

/-! ### Channels -/

/-- The element store of a channel, by the pair of handlers the channel has: none, the
    ring of a buffered channel, or the message queue of a coroutine's own channel. -/
inductive Buffer where
  | none
  | ring (r : Ring Item)
  | mque (l : List Item)

namespace Buffer

def contents : Buffer → List Item
  | none => []
  | ring r => r.contents
  | mque l => l

/-- There is no free slot. -/
def full : Buffer → Bool
  | none => true
  | ring r => r.nbuf == r.bufsize
  | mque _ => false

/-- `chan->copy_to_buff && chan->copy_to_buff(chan, buf)`. -/
def copyToBuff (b : Buffer) (x : Item) : Option Buffer :=
  match b with
  | none => Option.none
  | ring r => if h : r.nbuf < r.bufsize then some (ring (r.push x h)) else Option.none
  | mque l => some (mque (l ++ [x]))

/-- `chan->copy_from_buff && chan->copy_from_buff(chan, buf)`. -/
def copyFromBuff : Buffer → Option (Item × Buffer)
  | none => Option.none
  | ring r => if h : 0 < r.nbuf then some (r.buf r.recvx, ring (r.pop h)) else Option.none
  | mque [] => Option.none
  | mque (x :: l) => some (x, mque l)

/-- The loop of `__coroc_clean_buff`. -/
def drainRing : Nat → Ring Item → Ring Item
  | 0, r => r
  | n + 1, r => if h : 0 < r.nbuf then drainRing n (r.pop h) else r

/-- `__coroc_clean_buff`. -/
def cleanBuff : Buffer → Buffer
  | none => none
  | ring r => ring (drainRing r.nbuf r)
  | mque l => mque l

theorem copyToBuff_contents {b b' : Buffer} {x : Item} (h : b.copyToBuff x = some b') :
    b'.contents = b.contents ++ [x] := by
  cases b with
  | none => cases h
  | ring r =>
    simp only [copyToBuff] at h
    split at h
    · cases h
      exact r.contents_push x _
    · cases h
  | mque l =>
    cases h
    rfl

theorem copyToBuff_eq_none {b : Buffer} {x : Item} :
    b.copyToBuff x = Option.none ↔ b.full = true := by
  cases b with
  | none => simp [copyToBuff, full]
  | ring r =>
    have := r.nbuf_le
    simp only [copyToBuff, full, beq_iff_eq]
    split
    · simp
      omega
    · simp
      omega
  | mque l => simp [copyToBuff, full]

theorem copyFromBuff_contents {b b' : Buffer} {x : Item} (h : b.copyFromBuff = some (x, b')) :
    b.contents = x :: b'.contents := by
  cases b with
  | none => cases h
  | ring r =>
    simp only [copyFromBuff] at h
    split at h
    · rename_i hpos
      cases h
      exact r.contents_eq_cons hpos
    · cases h
  | mque l =>
    cases l with
    | nil => cases h
    | cons y l =>
      cases h
      rfl

theorem copyFromBuff_eq_none {b : Buffer} : b.copyFromBuff = Option.none ↔ b.contents = [] := by
  cases b with
  | none => simp [copyFromBuff, contents]
  | ring r =>
    simp only [copyFromBuff, contents]
    split
    · rename_i hpos
      simp [r.contents_eq_cons hpos]
    · rename_i hpos
      have hlen : r.contents.length = 0 := by
        rw [r.length_contents]
        omega
      simp [List.length_eq_zero_iff.mp hlen]
  | mque l => cases l <;> simp [copyFromBuff, contents]

end Buffer

/-- A channel.  `que .send` and `que .recv` are `send_que` and `recv_que`.  The fields
    from `inhand` on are not in the source: the select quantum removed from a queue and
    not yet claimed, whether `coroc_chan_close` is still waking the waiters, the items
    sent, with their senders, those taken out, with sender and receiver, and the senders
    of the items in the buffer. -/
structure Chan where
  close : Bool
  isref : Bool
  buffer : Buffer
  que : Dir → List Quantum
  inhand : Option Quantum
  draining : Bool
  sent : List (Coid × Item)
  taken : List (Coid × Coid × Item)
  pending : List (Coid × Item)

/-! ### The other objects -/

/-- A group.  The fields from `owner` on are not in the source: the parent task, the
    subtasks that have not called `coroc_group_notify` yet, those inside it that have
    not yet decremented the counter, whether the parent has called `coroc_group_sync`
    and has decremented the counter in it, who brought the counter to zero, and whether
    that one has looked for the parent. -/
structure Group where
  count : Nat
  errors : Nat
  parent : Option Coid
  owner : Coid
  tasks : Nat
  notifying : List Coid
  begun : Bool
  synced : Bool
  last : Option Tid
  looked : Bool

/-- A timer is the one inside a `coroc_timer`, named by its channel, or the deadline of
    a timed wait on a poll descriptor. -/
inductive TimerId where
  | chan (c : ChanId)
  | desc (d : DescId)
deriving DecidableEq, Repr

/-- `coroc_intertimer_manager`. -/
structure Timers where
  heap : TimerHeap.Manager TimerId
  suspend : Bool
  daemon : Option Coid

/-- `coroc_poll_desc`; `polled` is membership in the netpoll set. -/
structure Desc where
  used : Bool
  done : Bool
  mode : Nat
  wait : Coid
  polled : Bool

/-- The runtime.  Coroutines from `fresh` on have not been created.  `threads` is
    whether the asynchronous pool has threads, `notify` is `ENABLE_NOTIFY`. -/
structure State where
  locks : Lock → Option Tid
  status : Coid → Status
  cos : Coid → Co
  chans : ChanId → Chan
  groups : GroupId → Group
  requests : List Coid
  timers : Timers
  descs : DescId → Desc
  fresh : Coid
  clock : UInt64
  alive : Nat
  xtIndex : Nat
  threads : Bool
  notify : Bool

namespace State

def setLock (s : State) (l : Lock) (o : Option Tid) : State :=
  { s with locks := Function.update s.locks l o }

def setStatus (s : State) (k : Coid) (st : Status) : State :=
  { s with status := Function.update s.status k st }

def setCo (s : State) (k : Coid) (f : Co → Co) : State :=
  { s with cos := Function.update s.cos k (f (s.cos k)) }

def setChan (s : State) (c : ChanId) (f : Chan → Chan) : State :=
  { s with chans := Function.update s.chans c (f (s.chans c)) }

def setGroup (s : State) (g : GroupId) (f : Group → Group) : State :=
  { s with groups := Function.update s.groups g (f (s.groups g)) }

def setDesc (s : State) (d : DescId) (f : Desc → Desc) : State :=
  { s with descs := Function.update s.descs d (f (s.descs d)) }

/-- A coroutine only executes while it is running. -/
def active (s : State) : Tid → Bool
  | .co k => s.status k == .running
  | .async _ => true
  | .sched _ => true
  | .vpu _ => false

end State

end Coroc.Runtime
