import Coroc.Runtime.State

/-!
# The atomic steps of the runtime

Every access of the code to shared memory is a command, and a command is one step of
the thread that issues it.  Inside a critical section this is finer than necessary;
the compare-and-swap on `qtag`, the group counter and the lock hand-over of
`vpu_suspend` are where it matters.

Besides what the source does, a command keeps the recorded fields up to date: the step
that takes a waiter out of its queue, or wins the compare-and-swap, is the one that
*claims* its wait; the step that copies an item across is the one that logs it.
-/

namespace Coroc.Runtime

inductive LockCmd where
  | acquire (l : Lock)
  | release (l : Lock)

/-- `vpu_suspend` up to the swap to the scheduler, the state change of `vpu_ready`, its
    test for preemption, `core_yield`, the creation of a coroutine. -/
inductive CoCmd where
  | suspend (ls : List Lock)
  | ready (d : Coid)
  | preempts (d : Coid)
  | yield
  | allocate (priority : Nat) (role : Role)

inductive ChanCmd where
  | begin (c : ChanId)
  | queueRem (c : ChanId) (dir : Dir)
  | casTag (q : Quantum)
  | copyTo (q : Quantum) (x : Item)
  | copyFrom (q : Quantum)
  | markClosed (q : Quantum)
  | readClose (c : ChanId)
  | setClose (c : ChanId)
  | readIsref (c : ChanId)
  | cleanBuff (c : ChanId)
  | copyToBuff (c : ChanId) (x : Item)
  | copyFromBuff (c : ChanId)
  | queueAdd (q : Quantum) (x : Item)
  | readQuantum (q : Quantum)
  | readTag
  | clearTag
  | queueExtract (q : Quantum)
  | record (e : Entry)

/-- Which of the two decrements of the counter this is. -/
inductive Decrement where
  | notify
  | sync
deriving DecidableEq

inductive GroupCmd where
  | inc (g : GroupId)
  | incErrors (g : GroupId)
  | dec (g : GroupId) (by_ : Decrement)
  | readCount (g : GroupId)
  | readParent (g : GroupId)
  | setParent (g : GroupId)
  | readErrors (g : GroupId)

inductive AsyncCmd where
  | readThreads
  | queueAdd
  | readStatus
  | queueRem

inductive TimerCmd where
  | getMicrotime
  | setWhen (t : TimerId) (w : UInt64)
  | insert (t : TimerId)
  | delete (t : TimerId)
  | readSize
  | readRoot
  | fireRoot (now : UInt64)
  | readDaemon
  | setDaemon (d : Coid)
  | readSuspend
  | setSuspend
  | clearSuspend
  | readNotify

inductive NetCmd where
  | init (d : DescId) (mode : Nat)
  | netpollAdd (d : DescId)
  | netpollRem (d : DescId)
  | casDone (d : DescId)
  | setMode (d : DescId) (mode : Nat)
  | readMode (d : DescId)
  | readWait (d : DescId)

inductive Cmd where
  | lock (c : LockCmd)
  | co (c : CoCmd)
  | chan (c : ChanCmd)
  | group (c : GroupCmd)
  | async (c : AsyncCmd)
  | timer (c : TimerCmd)
  | net (c : NetCmd)

def CoCmd.Res : CoCmd → Type
  | suspend _ | ready _ | yield => Unit
  | preempts _ => Bool
  | allocate _ _ => Coid

def ChanCmd.Res : ChanCmd → Type
  | queueRem _ _ => Option Quantum
  | casTag _ | readClose _ | readIsref _ | copyToBuff _ _ => Bool
  | copyFrom _ => Item
  | copyFromBuff _ => Option Item
  | readQuantum _ => Slot
  | readTag => Option ChanId
  | begin _ | copyTo _ _ | markClosed _ | setClose _ | cleanBuff _ | queueAdd _ _ | clearTag
  | queueExtract _ | record _ => Unit

def GroupCmd.Res : GroupCmd → Type
  | inc _ | incErrors _ | setParent _ => Unit
  | dec _ _ | readCount _ | readErrors _ => Nat
  | readParent _ => Option Coid

def AsyncCmd.Res : AsyncCmd → Type
  | readThreads | readStatus => Bool
  | queueAdd => Unit
  | queueRem => Option Coid

def TimerCmd.Res : TimerCmd → Type
  | getMicrotime => UInt64
  | setWhen _ _ | fireRoot _ | setDaemon _ | setSuspend | clearSuspend => Unit
  | insert _ | readSize => Nat
  | delete _ => Int
  | readRoot => TimerId × UInt64
  | readDaemon => Option Coid
  | readSuspend | readNotify => Bool

def NetCmd.Res : NetCmd → Type
  | init _ _ | netpollAdd _ | netpollRem _ | setMode _ _ => Unit
  | casDone _ => Bool
  | readMode _ => Nat
  | readWait _ => Coid

def Cmd.Res : Cmd → Type
  | lock _ => Unit
  | co c => c.Res
  | chan c => c.Res
  | group c => c.Res
  | async c => c.Res
  | timer c => c.Res
  | net c => c.Res

/-! ### Locks and scheduling -/

/-- A spin lock is free or held; taking one that is held does not return. -/
def execLock (t : Tid) (s : State) : LockCmd → Option (Unit × State)
  | .acquire l => if s.locks l = none then some ((), s.setLock l (some t)) else none
  | .release l => some ((), s.setLock l none)

/-- The wait of `d` is over: a channel's waiter still has to look at its quantum. -/
def Wait.wake (w : Wait) : Option Wait :=
  match w.phase with
  | .served _ (some q) => some { w with phase := .woken q }
  | _ => none

namespace Co

def sleep (co : Co) : Co := { co with wakes := 0 }

def wake (co : Co) : Co := { co with wait := co.wait.bind Wait.wake, wakes := co.wakes + 1 }

/-- A newly created coroutine, readied by `t` next. -/
def create (t : Tid) (priority : Nat) (role : Role) (co : Co) : Co :=
  { co with
    priority := priority
    role := role
    qtag := none
    wait := some ⟨.born, .served t none⟩
    wakes := 0 }

/-- A coroutine publishes that it is going to wait. -/
def publish (site : Site) (co : Co) : Co := { co with wait := some ⟨site, .idle⟩ }

/-- The wait of a coroutine outside the channels is claimed for `vpu_ready`. -/
def call (t : Tid) (co : Co) : Co :=
  { co with wait := co.wait.map fun w => { w with phase := .served t none } }

end Co

/-- The locks after `vpu_suspend` has handed some of them to the VPU. -/
def handOver (locks : Lock → Option Tid) (k : Coid) (ls : List Lock) (l : Lock) : Option Tid :=
  if l ∈ ls then some (.vpu k) else locks l

def execCo (t : Tid) (s : State) : (c : CoCmd) → Option (c.Res × State)
  | .suspend ls => match t with
    | .co k => some ((), { (s.setCo k Co.sleep).setStatus k .saving with
        locks := handOver s.locks k ls })
    | _ => none
  | .ready d =>
    -- the assertion of `vpu_ready` aborts the program when it fails
    if s.status d = .wait then
      some ((), (s.setStatus d .ready).setCo d Co.wake)
    else none
  | .preempts d => match t with
    | .co k => some (decide ((s.cos k).priority > (s.cos d).priority ∧ s.alive = s.xtIndex), s)
    | _ => some (false, s)
  | .yield => match t with
    | .co k => some ((), s.setStatus k .ready)
    | _ => none
  | .allocate priority role =>
    some (s.fresh, { (s.setStatus s.fresh .wait).setCo s.fresh (Co.create t priority role) with
      fresh := s.fresh + 1 })

/-! ### Channels -/

def Wait.claim (t : Tid) (q : Quantum) (w : Wait) : Wait := { w with phase := .taken t q }

def Wait.serve (t : Tid) (q : Quantum) (w : Wait) : Wait :=
  { w with phase := .served t (some q) }

/-- A coroutine queues one more quantum. -/
def Wait.extend (q : Quantum) : Option Wait → Wait
  | some ⟨.chans qs, p⟩ => ⟨.chans (qs ++ [q]), p⟩
  | _ => ⟨.chans [q], .idle⟩

/-- A waiter whose only quantum is not a select's has looked at it. -/
def Wait.look (q : Quantum) (w : Option Wait) : Option Wait := if q.select then w else none

namespace Co

def begin (late : Bool) (co : Co) : Co := { co with late := late }

def move (x : Xfer) (co : Co) : Co := { co with moved := co.moved ++ [x] }

def claim (t : Tid) (q : Quantum) (co : Co) : Co :=
  { co with wait := co.wait.map (Wait.claim t q) }

def claimTag (t : Tid) (q : Quantum) (co : Co) : Co :=
  { co with qtag := some q.chan, wait := co.wait.map (Wait.claim t q) }

/-- The receiver behind `q` is given an item. -/
def receive (t : Tid) (q : Quantum) (x : Item) (co : Co) : Co :=
  { co with
    slots := Function.update co.slots q.idx { co.slots q.idx with item := x }
    wait := co.wait.map (Wait.serve t q)
    moved := [⟨.recv, q.chan, x⟩] }

/-- The item of the sender behind `q` is taken. -/
def give (t : Tid) (q : Quantum) (x : Item) (co : Co) : Co :=
  { co with wait := co.wait.map (Wait.serve t q), moved := [⟨.send, q.chan, x⟩] }

def markClosed (t : Tid) (q : Quantum) (closedAt : Bool) (co : Co) : Co :=
  { co with
    slots := Function.update co.slots q.idx
      { co.slots q.idx with close := true, closedAt := closedAt }
    wait := co.wait.map (Wait.serve t q) }

/-- `quantum_init`. -/
def post (q : Quantum) (x : Item) (openAt : Bool) (co : Co) : Co :=
  { co with
    slots := Function.update co.slots q.idx ⟨false, x, openAt, false⟩
    wait := some (Wait.extend q co.wait) }

def look (q : Quantum) (co : Co) : Co := { co with wait := Wait.look q co.wait }

def clearTag (co : Co) : Co := { co with qtag := none, wait := none }

def record (e : Entry) (co : Co) : Co :=
  { co with history := co.history ++ [⟨e, co.late, co.moved⟩], moved := [] }

end Co

namespace Chan

def pop (dir : Dir) (rest : List Quantum) (hand : Option Quantum) (ch : Chan) : Chan :=
  { ch with que := Function.update ch.que dir rest, inhand := hand }

def drop (ch : Chan) : Chan := { ch with inhand := none }

/-- An item goes from `j` to `k` without the buffer. -/
def pass (j k : Coid) (x : Item) (ch : Chan) : Chan :=
  { ch with sent := ch.sent ++ [(j, x)], taken := ch.taken ++ [(j, k, x)] }

def startClose (ch : Chan) : Chan := { ch with close := true, draining := true }

def endClose (ch : Chan) : Chan := { ch with draining := false }

def clean (ch : Chan) : Chan := { ch with buffer := ch.buffer.cleanBuff, pending := [] }

def push (k : Coid) (x : Item) (b : Buffer) (ch : Chan) : Chan :=
  { ch with buffer := b, sent := ch.sent ++ [(k, x)], pending := ch.pending ++ [(k, x)] }

def shift (k : Coid) (b : Buffer) (ch : Chan) : Chan :=
  { ch with
    buffer := b
    taken := ch.taken ++ ch.pending.head?.toList.map fun p => (p.1, k, p.2)
    pending := ch.pending.tail }

def add (q : Quantum) (ch : Chan) : Chan :=
  { ch with que := Function.update ch.que q.dir (ch.que q.dir ++ [q]) }

def extract (q : Quantum) (ch : Chan) : Chan :=
  { ch with que := Function.update ch.que q.dir ((ch.que q.dir).erase q) }

end Chan

namespace State

/-- The head of a queue is removed; a quantum that is not a select's is claimed thereby. -/
def popQuantum (s : State) (t : Tid) (c : ChanId) (dir : Dir) (q : Quantum)
    (rest : List Quantum) : State :=
  if q.select then s.setChan c (Chan.pop dir rest (some q))
  else (s.setChan c (Chan.pop dir rest none)).setCo q.co (Co.claim t q)

/-- The compare-and-swap on `qtag` succeeds. -/
def claimTag (s : State) (t : Tid) (q : Quantum) : State :=
  (s.setChan q.chan Chan.drop).setCo q.co (Co.claimTag t q)

/-- `k` gives an item to the receiver of `q`. -/
def copyTo (s : State) (k : Coid) (q : Quantum) (x : Item) : State :=
  ((s.setChan q.chan (Chan.pass k q.co x)).setCo q.co (Co.receive (.co k) q x)).setCo k
    (Co.move ⟨.send, q.chan, x⟩)

/-- `k` takes the item of the sender of `q`. -/
def copyFrom (s : State) (k : Coid) (q : Quantum) (x : Item) : State :=
  ((s.setChan q.chan (Chan.pass q.co k x)).setCo q.co (Co.give (.co k) q x)).setCo k
    (Co.move ⟨.recv, q.chan, x⟩)

def pushItem (s : State) (k : Coid) (c : ChanId) (x : Item) (b : Buffer) : State :=
  (s.setChan c (Chan.push k x b)).setCo k (Co.move ⟨.send, c, x⟩)

def popItem (s : State) (k : Coid) (c : ChanId) (x : Item) (b : Buffer) : State :=
  (s.setChan c (Chan.shift k b)).setCo k (Co.move ⟨.recv, c, x⟩)

def enqueue (s : State) (q : Quantum) (x : Item) : State :=
  (s.setChan q.chan (Chan.add q)).setCo q.co (Co.post q x (!(s.chans q.chan).close))

end State

def execChan (t : Tid) (s : State) : (c : ChanCmd) → Option (c.Res × State)
  | .begin c => match t with
    | .co k => some ((), s.setCo k (Co.begin (s.chans c).close))
    | _ => none
  | .queueRem c dir =>
    match (s.chans c).que dir with
    | [] => some (none, s)
    | q :: rest => some (some q, s.popQuantum t c dir q rest)
  | .casTag q =>
    if (s.cos q.co).qtag = none then some (true, s.claimTag t q)
    else some (false, s.setChan q.chan Chan.drop)
  | .copyTo q x => match t with
    | .co k => some ((), s.copyTo k q x)
    | _ => none
  | .copyFrom q => match t with
    | .co k =>
      let x := ((s.cos q.co).slots q.idx).item
      some (x, s.copyFrom k q x)
    | _ => none
  | .markClosed q => some ((), s.setCo q.co (Co.markClosed t q (s.chans q.chan).close))
  | .readClose c => some ((s.chans c).close, s)
  | .setClose c => some ((), s.setChan c Chan.startClose)
  | .readIsref c => some ((s.chans c).isref, s.setChan c Chan.endClose)
  | .cleanBuff c => some ((), s.setChan c Chan.clean)
  | .copyToBuff c x => match t with
    | .co k =>
      match (s.chans c).buffer.copyToBuff x with
      | none => some (false, s)
      | some b => some (true, s.pushItem k c x b)
    | _ => none
  | .copyFromBuff c => match t with
    | .co k =>
      match (s.chans c).buffer.copyFromBuff with
      | none => some (none, s)
      | some (x, b) => some (some x, s.popItem k c x b)
    | _ => none
  | .queueAdd q x => some ((), s.enqueue q x)
  | .readQuantum q => match t with
    | .co k => some ((s.cos k).slots q.idx, s.setCo k (Co.look q))
    | _ => none
  | .readTag => match t with
    | .co k => some ((s.cos k).qtag, s)
    | _ => none
  | .clearTag => match t with
    | .co k => some ((), s.setCo k Co.clearTag)
    | _ => none
  | .queueExtract q => some ((), s.setChan q.chan (Chan.extract q))
  | .record e => match t with
    | .co k => some ((), s.setCo k (Co.record e))
    | _ => none

/-! ### Groups, the asynchronous pool, timers and poll descriptors -/

def State.call (s : State) (t : Tid) (d : Option Coid) : State :=
  match d with
  | some d => s.setCo d (Co.call t)
  | none => s

namespace Group

def addTask (gr : Group) : Group := { gr with count := gr.count + 1, tasks := gr.tasks + 1 }

def addError (gr : Group) : Group := { gr with errors := gr.errors + 1 }

def notify (k : Coid) (gr : Group) : Group :=
  { gr with
    count := gr.count - 1
    notifying := gr.notifying.erase k
    last := if gr.count - 1 = 0 then some (.co k) else gr.last }

def sync (gr : Group) : Group := { gr with count := gr.count - 1, synced := true }

def look (gr : Group) : Group := { gr with looked := true }

def adopt (k : Coid) (gr : Group) : Group := { gr with parent := some k }

end Group

def execGroup (t : Tid) (s : State) : (c : GroupCmd) → Option (c.Res × State)
  | .inc g => some ((), s.setGroup g Group.addTask)
  | .incErrors g => some ((), s.setGroup g Group.addError)
  | .dec g by_ => match t with
    | .co k => some ((s.groups g).count - 1, s.setGroup g (match by_ with
        | .notify => Group.notify k
        | .sync => Group.sync))
    | _ => none
  | .readCount g => some ((s.groups g).count, s)
  | .readParent g => some ((s.groups g).parent,
      (s.setGroup g Group.look).call t (s.groups g).parent)
  | .setParent g => match t with
    | .co k => some ((), (s.setGroup g (Group.adopt k)).setCo k (Co.publish (.group g)))
    | _ => none
  | .readErrors g => some ((s.groups g).errors, s)

def execAsync (t : Tid) (s : State) : (c : AsyncCmd) → Option (c.Res × State)
  | .readThreads => some (s.threads, s)
  | .queueAdd => match t with
    | .co k => some ((), { s.setCo k (Co.publish .async) with requests := s.requests ++ [k] })
    | _ => none
  | .readStatus => some (!s.requests.isEmpty, s)
  | .queueRem => some (s.requests.head?,
      { s.call t s.requests.head? with requests := s.requests.tail })

def State.setTimers (s : State) (f : Timers → Timers) : State := { s with timers := f s.timers }

def Timers.setSuspend (b : Bool) (m : Timers) : Timers := { m with suspend := b }

def execTimer (t : Tid) (s : State) : (c : TimerCmd) → Option (c.Res × State)
  | .getMicrotime => some (s.clock, s)
  | .setWhen tm w => some ((), s.setTimers fun m => { m with heap := m.heap.setWhen tm w })
  | .insert tm => some (s.timers.heap.size,
      s.setTimers fun m => { m with heap := TimerHeap.addIntertimer m.heap tm })
  | .delete tm => some ((TimerHeap.delIntertimer s.timers.heap tm).1,
      s.setTimers fun m => { m with heap := (TimerHeap.delIntertimer m.heap tm).2 })
  | .readSize => some (s.timers.heap.size, s)
  | .readRoot => some ((s.timers.heap.timers 0, s.timers.heap.whenAt 0), s)
  | .fireRoot now => some ((),
      s.setTimers fun m => { m with heap := TimerHeap.fireRoot m.heap now })
  | .readDaemon => some (s.timers.daemon, s)
  | .setDaemon d => some ((), s.setTimers fun m => { m with daemon := some d })
  | .readSuspend => some (s.timers.suspend, s)
  | .setSuspend => match t with
    | .co k => some ((), (s.setTimers (Timers.setSuspend true)).setCo k (Co.publish .timer))
    | _ => none
  | .clearSuspend => some ((),
      (s.setTimers (Timers.setSuspend false)).call t s.timers.daemon)
  | .readNotify => some (s.notify, s)

def execNet (t : Tid) (s : State) : (c : NetCmd) → Option (c.Res × State)
  | .init d mode => match t with
    | .co k => some ((), s.setDesc d fun _ => ⟨true, false, mode, k, false⟩)
    | _ => none
  | .netpollAdd d => some ((), s.setDesc d fun x => { x with polled := true })
  | .netpollRem d => some ((), s.setDesc d fun x => { x with polled := false })
  | .casDone d =>
    if (s.descs d).done then some (false, s)
    else some (true, s.setDesc d fun x => { x with done := true })
  | .setMode d mode => some ((), s.setDesc d fun x => { x with mode := mode })
  | .readMode d => some ((s.descs d).mode, s)
  | .readWait d => some ((s.descs d).wait, s)

/-- One command of thread `t`. -/
def exec (t : Tid) (c : Cmd) (s : State) : Option (c.Res × State) :=
  if s.active t then
    match c with
    | .lock c => execLock t s c
    | .co c => execCo t s c
    | .chan c => execChan t s c
    | .group c => execGroup t s c
    | .async c => execAsync t s c
    | .timer c => execTimer t s c
    | .net c => execNet t s c
  else none

/-! ### The environment -/

/-- What happens outside the modelled code: a VPU finishes a suspension (`core_wait` sets
    the status, and only then runs the unlock handler), a VPU picks a ready coroutine,
    time passes, VPUs go to sleep and wake up. -/
inductive Env where
  | coreWait (k : Coid)
  | unlock (k : Coid) (l : Lock)
  | sched (k : Coid)
  | tick (us : UInt64)
  | alive (n : Nat)
deriving DecidableEq

def env (e : Env) (s : State) : Option State :=
  match e with
  | .coreWait k => if s.status k = .saving then some (s.setStatus k .wait) else none
  | .unlock k l =>
    if s.locks l = some (.vpu k) ∧ s.status k ≠ .saving then some (s.setLock l none) else none
  | .sched k => if s.status k = .ready then some (s.setStatus k .running) else none
  | .tick us => some { s with clock := s.clock + us }
  | .alive n => if n ≤ s.xtIndex then some { s with alive := n } else none

end Coroc.Runtime
