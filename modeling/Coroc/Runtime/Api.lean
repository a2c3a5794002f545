import Mathlib.Data.List.Nodup
import Coroc.Program
import Coroc.Runtime.Commands

/-!
# The operations of the runtime as programs

One program for each function of the source, over the commands.  `k` is the coroutine
that runs the code (`coroc_coroutine_self`).  The commands `begin` and `record` have no
counterpart in the source: they note the call that starts and the call that returns.
-/

namespace Coroc.Runtime

open Coroc.Program

abbrev RProg := Prog Cmd Cmd.Res

/-! ### The commands as programs -/

def issue (c : Cmd) : RProg c.Res := .perform c

def lockAcquire (l : Lock) : RProg Unit := issue (.lock (.acquire l))
def lockRelease (l : Lock) : RProg Unit := issue (.lock (.release l))

def vpuSuspend (ls : List Lock) : RProg Unit := issue (.co (.suspend ls))
def makeReady (d : Coid) : RProg Unit := issue (.co (.ready d))
def preempts (d : Coid) : RProg Bool := issue (.co (.preempts d))
def coroutineYield : RProg Unit := issue (.co .yield)
def allocate (priority : Nat) (role : Role) : RProg Coid := issue (.co (.allocate priority role))

def beginSend (c : ChanId) : RProg Unit := issue (.chan (.begin c))
def queueRem (c : ChanId) (dir : Dir) : RProg (Option Quantum) := issue (.chan (.queueRem c dir))
def casTag (q : Quantum) : RProg Bool := issue (.chan (.casTag q))
def copyTo (q : Quantum) (x : Item) : RProg Unit := issue (.chan (.copyTo q x))
def copyFrom (q : Quantum) : RProg Item := issue (.chan (.copyFrom q))
def markClosed (q : Quantum) : RProg Unit := issue (.chan (.markClosed q))
def readClose (c : ChanId) : RProg Bool := issue (.chan (.readClose c))
def setClose (c : ChanId) : RProg Unit := issue (.chan (.setClose c))
def readIsref (c : ChanId) : RProg Bool := issue (.chan (.readIsref c))
def cleanBuff (c : ChanId) : RProg Unit := issue (.chan (.cleanBuff c))
def copyToBuff (c : ChanId) (x : Item) : RProg Bool := issue (.chan (.copyToBuff c x))
def copyFromBuff (c : ChanId) : RProg (Option Item) := issue (.chan (.copyFromBuff c))
def queueAdd (q : Quantum) (x : Item) : RProg Unit := issue (.chan (.queueAdd q x))
def readQuantum (q : Quantum) : RProg Slot := issue (.chan (.readQuantum q))
def readTag : RProg (Option ChanId) := issue (.chan .readTag)
def clearTag : RProg Unit := issue (.chan .clearTag)
def queueExtract (q : Quantum) : RProg Unit := issue (.chan (.queueExtract q))
def record (e : Entry) : RProg Unit := issue (.chan (.record e))

def incCount (g : GroupId) : RProg Unit := issue (.group (.inc g))
def incErrors (g : GroupId) : RProg Unit := issue (.group (.incErrors g))
def decCount (g : GroupId) (by_ : Decrement) : RProg Nat := issue (.group (.dec g by_))
def readCount (g : GroupId) : RProg Nat := issue (.group (.readCount g))
def readParent (g : GroupId) : RProg (Option Coid) := issue (.group (.readParent g))
def setParent (g : GroupId) : RProg Unit := issue (.group (.setParent g))
def readErrors (g : GroupId) : RProg Nat := issue (.group (.readErrors g))

def readThreads : RProg Bool := issue (.async .readThreads)
def asyncQueueAdd : RProg Unit := issue (.async .queueAdd)
def asyncReadStatus : RProg Bool := issue (.async .readStatus)
def asyncQueueRem : RProg (Option Coid) := issue (.async .queueRem)

def getMicrotime : RProg UInt64 := issue (.timer .getMicrotime)
def setWhen (t : TimerId) (w : UInt64) : RProg Unit := issue (.timer (.setWhen t w))
def insertTimer (t : TimerId) : RProg Nat := issue (.timer (.insert t))
def deleteTimer (t : TimerId) : RProg Int := issue (.timer (.delete t))
def readSize : RProg Nat := issue (.timer .readSize)
def readRoot : RProg (TimerId × UInt64) := issue (.timer .readRoot)
def fireRoot (now : UInt64) : RProg Unit := issue (.timer (.fireRoot now))
def readDaemon : RProg (Option Coid) := issue (.timer .readDaemon)
def setDaemon (d : Coid) : RProg Unit := issue (.timer (.setDaemon d))
def readSuspend : RProg Bool := issue (.timer .readSuspend)
def setSuspend : RProg Unit := issue (.timer .setSuspend)
def clearSuspend : RProg Unit := issue (.timer .clearSuspend)
def readNotify : RProg Bool := issue (.timer .readNotify)

def initDesc (d : DescId) (mode : Nat) : RProg Unit := issue (.net (.init d mode))
def netpollAdd (d : DescId) : RProg Unit := issue (.net (.netpollAdd d))
def netpollRem (d : DescId) : RProg Unit := issue (.net (.netpollRem d))
def casDone (d : DescId) : RProg Bool := issue (.net (.casDone d))
def setMode (d : DescId) (mode : Nat) : RProg Unit := issue (.net (.setMode d mode))
def readMode (d : DescId) : RProg Nat := issue (.net (.readMode d))
def readWait (d : DescId) : RProg Coid := issue (.net (.readWait d))

/-! ### Scheduling -/

/-- `vpu_ready`, without the bookkeeping of the run queues. -/
def vpuReady (d : Coid) (preempt : Bool) : RProg Unit := do
  makeReady d
  if preempt then
    if ← preempts d then coroutineYield

/-- `coroc_coroutine_allocate`. -/
def coroutineAllocate (priority : Nat) (role : Role) : RProg Coid := do
  let d ← allocate priority role
  vpuReady d true
  return d

/-! ### Channels -/

/-- `fetch_quantum`. -/
def fetchQuantum (c : ChanId) (dir : Dir) : RProg (Option Quantum) :=
  .repeatUntil do
    let q ← queueRem c dir
    match q with
    | none => return some none
    | some q =>
      if q.select then
        let won ← casTag q
        return if won then some (some q) else none
      else return some (some q)

/-- `__coroc_chan_send`. -/
def chanSendLocked (k : Coid) (c : ChanId) (x : Item) (block : Bool) : RProg Ret := do
  match ← fetchQuantum c .recv with
  | some q =>
    copyTo q x
    vpuReady q.co false
    return .success
  | none =>
    if ← readClose c then return .closed
    else if ← copyToBuff c x then return .success
    else if block then
      let q : Quantum := ⟨k, c, false, .send, 0⟩
      queueAdd q x
      vpuSuspend [.chan c]
      lockAcquire (.chan c)
      let slot ← readQuantum q
      return if slot.close then .closed else .awaken
    else return .busy

/-- `__coroc_chan_recv`, with what it leaves in the caller's buffer.  The quantum's item
    is what the buffer holds before the call. -/
def chanRecvLocked (k : Coid) (c : ChanId) (x : Item) (block : Bool) :
    RProg (Ret × Option Item) := do
  match ← copyFromBuff c with
  | some y => return (.success, some y)
  | none =>
    match ← fetchQuantum c .send with
    | some q =>
      let y ← copyFrom q
      vpuReady q.co false
      return (.success, some y)
    | none =>
      if ← readClose c then return (.closed, none)
      else if block then
        let q : Quantum := ⟨k, c, false, .recv, 0⟩
        queueAdd q x
        vpuSuspend [.chan c]
        lockAcquire (.chan c)
        let slot ← readQuantum q
        return if slot.close then (.closed, none) else (.awaken, some slot.item)
      else return (.busy, none)

/-- `_coroc_chan_send`. -/
def chanSend (k : Coid) (c : ChanId) (x : Item) (block : Bool) : RProg Unit := do
  beginSend c
  lockAcquire (.chan c)
  let ret ← chanSendLocked k c x block
  lockRelease (.chan c)
  record (.send c x block ret)

/-- `_coroc_chan_recv`. -/
def chanRecv (k : Coid) (c : ChanId) (x : Item) (block : Bool) : RProg Unit := do
  lockAcquire (.chan c)
  let (ret, got) ← chanRecvLocked k c x block
  lockRelease (.chan c)
  record (.recv c block ret got)

/-- A loop of `coroc_chan_close`: wake every waiter of one queue. -/
def wakeAll (c : ChanId) (dir : Dir) : RProg Unit :=
  .repeatUntil do
    match ← fetchQuantum c dir with
    | none => return some ()
    | some q =>
      markClosed q
      vpuReady q.co false
      return none

/-- `coroc_chan_close`, with the lock held. -/
def chanCloseLocked (c : ChanId) : RProg Ret := do
  if ← readClose c then return .closed
  else
    setClose c
    wakeAll c .send
    wakeAll c .recv
    if ← readIsref c then cleanBuff c
    return .success

/-- `coroc_chan_close`. -/
def chanClose (c : ChanId) : RProg Unit := do
  lockAcquire (.chan c)
  let ret ← chanCloseLocked c
  lockRelease (.chan c)
  record (.close c ret)

/-! ### Select -/

/-- The loop of `lock_chain_acquire`, over the channels in the order in which the set has
    their locks. -/
def lockChainAcquire : List ChanId → RProg Unit
  | [] => return
  | c :: cs => do
    lockAcquire (.chan c)
    lockChainAcquire cs

/-- `lock_chain_release`, on the reversed chain. -/
def lockChainRelease : List ChanId → RProg Unit
  | [] => return
  | c :: cs => do
    lockRelease (.chan c)
    lockChainRelease cs

/-- One case of the polling loop, with what it leaves in the buffer of the case. -/
def pollCase (k : Coid) (e : Case) : RProg (Ret × Option Item) :=
  match e.dir with
  | .send => do
    let ret ← chanSendLocked k e.chan e.item false
    return (ret, none)
  | .recv => chanRecvLocked k e.chan e.item false

/-- The polling loop: the last result, the channel of the case that succeeded, if any, and
    what is in its buffer. -/
def pollCases (k : Coid) : Ret → List Case → RProg (Ret × Option ChanId × Option Item)
  | ret, [] => return (ret, none, none)
  | _, e :: es => do
    let (ret, got) ← pollCase k e
    if ret = .success then return (ret, some e.chan, got) else pollCases k ret es

/-- The quanta of a set, from index `i` on. -/
def selectQuanta (k : Coid) : Nat → List Case → List (Quantum × Item)
  | _, [] => []
  | i, e :: es => (⟨k, e.chan, true, e.dir, i⟩, e.item) :: selectQuanta k (i + 1) es

/-- The enqueueing loop. -/
def enqueueAll : List (Quantum × Item) → RProg Unit
  | [] => return
  | (q, x) :: qs => do
    queueAdd q x
    enqueueAll qs

/-- The dequeueing loop: whether the active quantum was closed, whether its channel was open
    when it was queued and closed when it was marked, and what is in the buffer of its case. -/
def dequeueAll (active : Option ChanId) : Ret × Bool × Option Item → List (Quantum × Item) →
    RProg (Ret × Bool × Option Item)
  | r, [] => return r
  | (ret, during, got), (q, _) :: qs => do
    let slot ← readQuantum q
    queueExtract q
    dequeueAll active
      (if active = some q.chan then
        (if slot.close then .closed else ret, slot.openAt && slot.closedAt,
          if slot.close then none else q.dir.got slot.item)
      else (ret, during, got)) qs

/-- The blocking part of `_coroc_chan_set_select`, with the lock chain held. -/
def selectBlocked (k : Coid) (cases : List Case) (chain : List ChanId) :
    RProg (Ret × Option ChanId × Bool × Option Item) := do
  clearTag
  enqueueAll (selectQuanta k 0 cases)
  vpuSuspend (chain.map .chan)
  lockChainAcquire chain
  let active ← readTag
  let (ret, during, got) ← dequeueAll active (.success, false, none) (selectQuanta k 0 cases)
  clearTag
  return (ret, active, during, got)

/-- `_coroc_chan_set_select`, with the lock chain held. -/
def selectLocked (k : Coid) (cases : List Case) (chain : List ChanId) (block : Bool) :
    RProg (Ret × Option ChanId × Bool × Option Item) := do
  let (ret, active, got) ← pollCases k .busy cases
  if active.isNone && block then selectBlocked k cases chain
  else return (ret, active, false, got)

/-- `_coroc_chan_set_select`.  `chain` is the order of the locks in the set: sorted by the
    first select, with the locks of cases added later behind. -/
def chanSetSelect (k : Coid) (cases : List Case) (chain : List ChanId) (block : Bool) :
    RProg Unit := do
  if cases.isEmpty then record (.select cases block .invalid none false none)
  else
    lockChainAcquire chain
    let (ret, active, during, got) ← selectLocked k cases chain block
    lockChainRelease chain.reverse
    record (.select cases block ret active during got)

/-! ### Groups -/

/-- `coroc_group_add_task`. -/
def groupAddTask (g : GroupId) : RProg Unit := incCount g

/-- `coroc_group_notify`. -/
def groupNotify (g : GroupId) (retval : Nat) : RProg Unit := do
  if retval ≠ 0 then incErrors g
  if (← decCount g .notify) = 0 then
    lockAcquire (.group g)
    let parent ← readParent g
    lockRelease (.group g)
    match parent with
    | some p => vpuReady p true
    | none => pure ()

/-- `coroc_group_sync`. -/
def groupSync (g : GroupId) : RProg Unit := do
  if (← decCount g .sync) > 0 then
    lockAcquire (.group g)
    if (← readCount g) > 0 then
      setParent g
      vpuSuspend [.group g]
  let _ ← readErrors g

/-! ### The asynchronous pool -/

/-- `coroc_async_request_submit`.  The callback itself does not touch the runtime. -/
def asyncRequestSubmit : RProg Unit := do
  if ← readThreads then
    lockAcquire .async
    asyncQueueAdd
    vpuSuspend [.async]

/-- `coroc_async_thread_routine`; waiting on the condition variable gives the mutex back
    and takes it again. -/
def asyncThreadRoutine : RProg Unit := do
  lockAcquire .async
  .repeatUntil do
    (.repeatUntil do
      if ← asyncReadStatus then return some ()
      else
        lockRelease .async
        lockAcquire .async
        return none : RProg Unit)
    let wait ← asyncQueueRem
    lockRelease .async
    match wait with
    | some d => vpuReady d false
    | none => pure ()
    lockAcquire .async
    return none

/-! ### Timers -/

/-- `coroc_send_timer`; the user's callback does not touch the runtime. -/
def sendTimer (k : Coid) (c : ChanId) (w : UInt64) : RProg Unit := chanSend k c w.toNat true

/-- `__coroc_netpoll_timeout`. -/
def netpollTimeout (d : DescId) : RProg Unit := do
  lockAcquire (.desc d)
  let succ ← casDone d
  if succ then
    setMode d 0
    netpollRem d
  lockRelease (.desc d)
  if succ then
    let wait ← readWait d
    vpuReady wait true

/-- `(t->func)((void *)t)`. -/
def timerFunc (k : Coid) (t : TimerId) (w : UInt64) : RProg Unit :=
  match t with
  | .chan c => sendTimer k c w
  | .desc d => netpollTimeout d

/-- The loop of `coroc_intertimer_routine` over the timers that are due. -/
def fireDue (k : Coid) (now : UInt64) : RProg Unit :=
  .repeatUntil do
    if (← readSize) > 0 then
      let (t, w) ← readRoot
      if w ≤ now then
        timerFunc k t w
        fireRoot now
        return none
      else return some ()
    else return some ()

/-- `coroc_notify_tsleep_u`; the note, and the sleep of the asynchronous thread on it, are in
    `Coroc.TimerDaemon`. -/
def notifyTsleepU (ns : Int64) : RProg Unit := if ns > 0 then asyncRequestSubmit else return

/-- `coroc_intertimer_routine`. -/
def intertimerRoutine (k : Coid) : RProg Unit :=
  .repeatUntil do
    lockAcquire .timer
    let now ← getMicrotime
    fireDue k now
    if (← readSize) = 0 then
      setSuspend
      vpuSuspend [.timer]
    else
      let (_, w) ← readRoot
      let left := 1000 * (w - now)
      lockRelease .timer
      if ← readNotify then notifyTsleepU left.toInt64
      else coroutineYield
    return none

/-- `TSC_PRIO_HIGH`. -/
def prioHigh : Nat := 1

/-- `coroc_intertimer_start`. -/
def intertimerStart : RProg Unit := do
  let daemon ← coroutineAllocate prioHigh .timer
  setDaemon daemon

/-- `coroc_add_intertimer`. -/
def addIntertimer (t : TimerId) : RProg Unit := do
  lockAcquire .timer
  let size ← insertTimer t
  match ← readDaemon with
  | none =>
    intertimerStart
    lockRelease .timer
  | some daemon =>
    if (← if size = 0 then readSuspend else pure false) then
      clearSuspend
      lockRelease .timer
      vpuReady daemon true
    else lockRelease .timer

/-- `coroc_del_intertimer`. -/
def delIntertimer (t : TimerId) : RProg Int := do
  lockAcquire .timer
  let ret ← deleteTimer t
  lockRelease .timer
  return ret

/-- `coroc_timer_at`, with `coroc_timer_start`. -/
def timerAt (k : Coid) (c : ChanId) (w : UInt64) : RProg Unit := do
  setWhen (.chan c) w
  let now ← getMicrotime
  if w ≤ now then sendTimer k c w else addIntertimer (.chan c)

/-- `coroc_timer_stop`. -/
def timerStop (c : ChanId) : RProg Unit := do
  let _ ← delIntertimer (.chan c)

/-! ### Poll descriptors -/

/-- `coroc_net_wait`. -/
def netWait (d : DescId) (mode : Nat) : RProg Unit := do
  initDesc d mode
  lockAcquire (.desc d)
  netpollAdd d
  vpuSuspend [.desc d]
  let _ ← readMode d

/-- `coroc_net_timedwait`. -/
def netTimedwait (d : DescId) (mode : Nat) (usec : UInt64) : RProg Unit := do
  initDesc d mode
  let now ← getMicrotime
  setWhen (.desc d) (now + usec)
  lockAcquire (.desc d)
  netpollAdd d
  addIntertimer (.desc d)
  vpuSuspend [.desc d]
  let _ ← delIntertimer (.desc d)
  let _ ← readMode d

/-- `coroc_netpoll_wakeup`. -/
def netpollWakeup (d : DescId) : RProg Unit := do
  lockAcquire (.desc d)
  netpollRem d
  lockRelease (.desc d)
  let wait ← readWait d
  vpuReady wait false

/-! ### The machine -/

/-- The operations a thread can start. -/
inductive Call where
  | chanSend (c : ChanId) (x : Item) (block : Bool)
  | chanRecv (c : ChanId) (x : Item) (block : Bool)
  | chanClose (c : ChanId)
  | select (cases : List Case) (chain : List ChanId) (block : Bool)
  | groupAddTask (g : GroupId)
  | groupNotify (g : GroupId) (retval : Nat)
  | groupSync (g : GroupId)
  | asyncRequestSubmit
  | timerAt (c : ChanId) (w : UInt64)
  | timerStop (c : ChanId)
  | netWait (d : DescId) (mode : Nat)
  | netTimedwait (d : DescId) (mode : Nat) (usec : UInt64)
  | spawn (priority : Nat)
  | yield
  | intertimerRoutine
  | asyncThreadRoutine
  | netpollWakeup (d : DescId)
deriving DecidableEq

def clientBody (k : Coid) : Call → RProg Unit
  | .chanSend c x block => chanSend k c x block
  | .chanRecv c x block => chanRecv k c x block
  | .chanClose c => chanClose c
  | .select cases chain block => chanSetSelect k cases chain block
  | .groupAddTask g => groupAddTask g
  | .groupNotify g retval => groupNotify g retval
  | .groupSync g => groupSync g
  | .asyncRequestSubmit => asyncRequestSubmit
  | .timerAt c w => timerAt k c w
  | .timerStop c => timerStop c
  | .netWait d mode => netWait d mode
  | .netTimedwait d mode usec => netTimedwait d mode usec
  | .spawn priority => do
    let _ ← coroutineAllocate priority .client
  | .yield => coroutineYield
  | .intertimerRoutine => intertimerRoutine k
  | .asyncThreadRoutine => return
  | .netpollWakeup _ => return

/-- The program of an operation started by a thread. -/
def body (t : Tid) (a : Call) : RProg Unit :=
  match t with
  | .co k => clientBody k a
  | .async _ => asyncThreadRoutine
  | .sched _ => match a with
    | .netpollWakeup d => netpollWakeup d
    | _ => return
  | .vpu _ => return

/-- A task is inside `coroc_group_notify`. -/
def Group.startNotify (k : Coid) (gr : Group) : Group :=
  { gr with
    tasks := gr.tasks - 1
    notifying := k :: gr.notifying }

/-- The parent is inside `coroc_group_sync`. -/
def Group.startSync (gr : Group) : Group := { gr with begun := true }

/-- What a coroutine may call.  The locks of a set are those of its cases, in some order.
    A group is used as its header says: the parent adds the tasks and then waits once, each
    task notifies once.  A poll descriptor is allocated by the call that uses it. -/
def enterCo (k : Coid) (s : State) : Call → Option State
  | .select cases chain _ => if chain.isPerm (cases.map Case.chan) then some s else none
  | .groupAddTask g =>
    if (s.groups g).owner = k ∧ (s.groups g).begun = false then some s else none
  | .groupNotify g _ =>
    if (s.groups g).tasks > 0 then some (s.setGroup g (Group.startNotify k)) else none
  | .groupSync g =>
    if (s.groups g).owner = k ∧ (s.groups g).begun = false then
      some (s.setGroup g Group.startSync)
    else none
  | .netWait d _ | .netTimedwait d _ _ => if (s.descs d).used then none else some s
  | .intertimerRoutine | .asyncThreadRoutine | .netpollWakeup _ => none
  | _ => some s

def enter (t : Tid) (a : Call) (s : State) : Option State :=
  match t with
  | .co k =>
    if s.status k = .running then
      match (s.cos k).role with
      | .client => enterCo k s a
      | .timer => if a = .intertimerRoutine then some s else none
    else none
  | .async _ => if a = .asyncThreadRoutine then some s else none
  | .sched _ => match a with
    | .netpollWakeup d => if (s.descs d).polled then some s else none
    | _ => none
  | .vpu _ => none

/-- The runtime as a machine of threads over the shared state. -/
def machine : Machine Tid Cmd Call Env State Cmd.Res where
  exec := exec
  enter := enter
  body := body
  env := env

end Coroc.Runtime
