import Mathlib.Data.Finset.Basic
import Coroc.ThreadPool

/-!
# Waiting for the network (`src/netpoll.c`, `src/netpoll_epoll.c`)

A call of `coroc_net_wait` or `coroc_net_timedwait` allocates a poll descriptor, registers it
with epoll, starts its deadline and suspends the calling coroutine.  It is ended by a poller
that got the descriptor from `epoll_wait` or by the timer daemon that fires the deadline,
whichever sets `done` first.  The caller, epoll and the timer hold a reference each.

The parties are the calls (one for each descriptor, which is never allocated again), any
number of pollers and the timer daemon.  The place of a call is kept with its descriptor.
Of epoll is modelled what the code relies on: one entry for each fd, `EPOLL_CTL_ADD` fails
on an fd that has one, `EPOLL_CTL_DEL` removes it, `epoll_wait` returns registered
descriptors.  The timer heap is the set of running deadlines, under the manager's lock,
which the daemon holds while it calls `__coroc_netpoll_timeout`.

* `DescOk` is the life of one descriptor: who has set `done`, who has dropped which
  reference, and how far the call is.
* `At` is what a poller and the daemon know at each of their places.  Whoever has set `done`
  owns the end of the call, and the lock tells it when the caller sleeps.
* `step_ok` is one step of one party, `good_reach` every run.
-/

namespace Coroc.NetPoll

open Coroc.Transition Coroc.ThreadPool

structure Mode where
  read : Bool
  write : Bool
  error : Bool
deriving DecidableEq, Repr

def Mode.none : Mode := ⟨false, false, false⟩

/-- What `epoll_wait` says about a descriptor: `EPOLLERR`, `EPOLLIN | EPOLLRDHUP`, `EPOLLOUT`. -/
structure Event where
  err : Bool
  input : Bool
  output : Bool
deriving DecidableEq, Repr

inductive Party (δ : Type) (n : Nat) where
  | call (d : δ)
  | poller (i : Fin n)
  | daemon
deriving DecidableEq

/-- `coroc_net_timedwait`; `coroc_net_wait` leaves the timer out. -/
inductive CallPc where
  | idle
  | timerGet
  | acquire
  -- `__coroc_netpoll_add`
  | addGet
  | addNum
  | addCtl
  -- `coroc_add_intertimer`
  | timerLock
  | timerInsert
  | timerUnlock
  -- `core_wait`
  | suspend
  | release
  | asleep
  -- `coroc_del_intertimer`
  | delLock
  | delTimer
  | delUnlock (found : Bool)
  | timerPut
  | readMode
  | put (mode : Mode)
  | returned (mode : Mode)
deriving DecidableEq, Repr

/-- The order of the places. -/
def CallPc.rank : CallPc → Nat
  | .idle => 0
  | .timerGet => 1
  | .acquire => 2
  | .addGet => 3
  | .addNum => 4
  | .addCtl => 5
  | .timerLock => 6
  | .timerInsert => 7
  | .timerUnlock => 8
  | .suspend => 9
  | .release => 10
  | .asleep => 11
  | .delLock => 12
  | .delTimer => 13
  | .delUnlock _ => 14
  | .timerPut => 15
  | .readMode => 16
  | .put _ => 17
  | .returned _ => 18

inductive Status where
  | running
  | wait
  | ready
deriving DecidableEq, Repr

/-- A poll descriptor, the status of `desc->wait`, whether the deadline is in the heap, and
    the call it belongs to.  The last fields are not in the source: who has set `done` and
    has not yet made the caller ready, whether it has been through `EPOLL_CTL_DEL`, and how
    often the caller was made ready, each reference dropped and the release handler run. -/
structure Desc (δ : Type) (n : Nat) where
  fd : Nat
  request : Mode
  timed : Bool
  pc : CallPc
  mode : Mode
  done : Bool
  lock : Option (Party δ n)
  refcnt : Nat
  wait : Status
  inHeap : Bool
  winner : Option (Party δ n)
  removed : Bool
  wakes : Nat
  waiterPuts : Nat
  netpollPuts : Nat
  timerPuts : Nat
  released : Nat

structure Shared (δ : Type) (n : Nat) where
  desc : δ → Desc δ n
  epoll : Nat → Option (δ × Mode)
  numOp : Int
  manager : Option (Party δ n)

/-- The place of a poller in `__coroc_netpoll_polling` and `coroc_netpoll_wakeup`, with what
    is left of its batch and its `mode`, and of the daemon in `coroc_intertimer_routine` and
    `__coroc_netpoll_timeout`. -/
inductive Pc (δ : Type) where
  | call
  | poll
  | cas (batch : List (δ × Event)) (mode : Mode)
  | setMode (d : δ) (ev : Event) (rest : List (δ × Event)) (mode : Mode)
  | lock (d : δ) (rest : List (δ × Event)) (mode : Mode)
  | remPut (d : δ) (rest : List (δ × Event)) (mode : Mode)
  | remNum (d : δ) (rest : List (δ × Event)) (mode : Mode)
  | remCtl (d : δ) (rest : List (δ × Event)) (mode : Mode)
  | unlock (d : δ) (rest : List (δ × Event)) (mode : Mode)
  | ready (d : δ) (rest : List (δ × Event)) (mode : Mode)
  | daemon
  | scan
  | fireLock (d : δ)
  | fireCas (d : δ)
  | fireMode (d : δ)
  | fireRemPut (d : δ)
  | fireRemNum (d : δ)
  | fireRemCtl (d : δ)
  | fireUnlock (d : δ) (succ : Bool)
  | fireReady (d : δ)
  | firePut (d : δ)
  | fireDel (d : δ)
deriving DecidableEq

inductive Choice (δ : Type) where
  | go
  | start (fd : Nat) (mode : Mode) (timed : Bool)
  | batch (events : List (δ × Event))
  | fire (d : δ)

section
variable {δ : Type} [DecidableEq δ] {n : Nat}

def Shared.modify (s : Shared δ n) (d : δ) (f : Desc δ n → Desc δ n) : Shared δ n :=
  { s with desc := Function.update s.desc d (f (s.desc d)) }

def Desc.goto (x : Desc δ n) (pc : CallPc) : Desc δ n := { x with pc := pc }

/-- `coroc_refcnt_get`. -/
def Desc.get (x : Desc δ n) : Desc δ n := { x with refcnt := x.refcnt + 1 }

/-- `coroc_refcnt_put`. -/
def Desc.put (x : Desc δ n) : Desc δ n :=
  { x with
    refcnt := x.refcnt - 1
    released := if x.refcnt - 1 = 0 then x.released + 1 else x.released }

/-- `__coroc_poll_desc_init`. -/
def Desc.init (x : Desc δ n) (fd : Nat) (mode : Mode) (timed : Bool) : Desc δ n :=
  { x with
    done := false
    fd := fd
    mode := mode
    request := mode
    timed := timed
    lock := none
    refcnt := 1
    pc := if timed then .timerGet else .acquire }

/-- `EPOLL_CTL_ADD`. -/
def Shared.ctlAdd (s : Shared δ n) (d : δ) : Shared δ n :=
  match s.epoll (s.desc d).fd with
  | some _ => s
  | none =>
      { s with epoll := Function.update s.epoll (s.desc d).fd (some (d, (s.desc d).mode)) }

/-- `EPOLL_CTL_DEL`. -/
def Shared.ctlDel (s : Shared δ n) (d : δ) : Shared δ n :=
  { s with epoll := Function.update s.epoll (s.desc d).fd none }

def callStep (d : δ) (s : Shared δ n) (ch : Choice δ) : Option (Shared δ n) :=
  match (s.desc d).pc with
  | .idle =>
      match ch with
      | .start fd mode timed => some (s.modify d fun x => x.init fd mode timed)
      | _ => none
  | .timerGet => some (s.modify d fun x => x.get.goto .acquire)
  | .acquire =>
      if (s.desc d).lock = none then
        some (s.modify d fun x => { x.goto .addGet with lock := some (.call d) })
      else none
  | .addGet => some (s.modify d fun x => x.get.goto .addNum)
  | .addNum => some { s.modify d fun x => x.goto .addCtl with numOp := s.numOp + 1 }
  -- the result is not looked at
  | .addCtl =>
      some ((s.ctlAdd d).modify d fun x => x.goto (if x.timed then .timerLock else .suspend))
  | .timerLock =>
      if s.manager = none then
        some { s.modify d fun x => x.goto .timerInsert with manager := some (.call d) }
      else none
  | .timerInsert => some (s.modify d fun x => { x.goto .timerUnlock with inHeap := true })
  | .timerUnlock => some { s.modify d fun x => x.goto .suspend with manager := none }
  | .suspend => some (s.modify d fun x => { x.goto .release with wait := .wait })
  | .release => some (s.modify d fun x => { x.goto .asleep with lock := none })
  | .asleep =>
      if (s.desc d).wait = .ready then
        some (s.modify d fun x =>
          { x.goto (if x.timed then .delLock else .readMode) with wait := .running })
      else none
  | .delLock =>
      if s.manager = none then
        some { s.modify d fun x => x.goto .delTimer with manager := some (.call d) }
      else none
  | .delTimer => some (s.modify d fun x => { x.goto (.delUnlock x.inHeap) with inHeap := false })
  | .delUnlock found =>
      some { s.modify d fun x => x.goto (if found then .timerPut else .readMode) with manager := none }
  | .timerPut =>
      some (s.modify d fun x => { x.put.goto .readMode with timerPuts := x.timerPuts + 1 })
  | .readMode => some (s.modify d fun x => x.goto (.put x.mode))
  | .put mode =>
      some (s.modify d fun x => { x.put.goto (.returned mode) with waiterPuts := x.waiterPuts + 1 })
  | .returned _ => none

/-- The loop body up to `desc->mode = mode`.  The local `mode` is not reset between events. -/
def eventMode (ev : Event) (want mode : Mode) : Mode :=
  if ev.err then ⟨false, false, true⟩
  else { mode with
    read := mode.read || (want.read && ev.input)
    write := mode.write || (want.write && ev.output) }

/-- `vpu_ready(desc->wait)`. -/
def vpuReady (s : Shared δ n) (d : δ) : Option (Shared δ n) :=
  if (s.desc d).wait = .wait then
    some (s.modify d fun x => { x with wait := .ready, winner := none, wakes := x.wakes + 1 })
  else none

def pollerStep (i : Fin n) (s : Shared δ n) (pc : Pc δ) (ch : Choice δ) :
    Option (Shared δ n × Pc δ) :=
  match pc with
  | .poll =>
      match ch with
      | .batch events =>
          if events.length ≤ 128 ∧ (events.map Prod.fst).Nodup ∧
              ∀ e ∈ events, (s.epoll (s.desc e.1).fd).map Prod.fst = some e.1 then
            some (s, .cas events .none)
          else none
      | _ => none
  | .cas [] _ => some (s, .poll)
  | .cas ((d, ev) :: rest) mode =>
      if (s.desc d).done = false then
        some (s.modify d fun x => { x with done := true, winner := some (.poller i) },
          .setMode d ev rest mode)
      else some (s, .cas rest mode)
  | .setMode d ev rest mode =>
      some (s.modify d fun x => { x with mode := eventMode ev x.mode mode },
        .lock d rest (eventMode ev (s.desc d).mode mode))
  | .lock d rest mode =>
      if (s.desc d).lock = none then
        some (s.modify d fun x => { x with lock := some (.poller i) }, .remPut d rest mode)
      else none
  | .remPut d rest mode =>
      some (s.modify d fun x => { x.put with netpollPuts := x.netpollPuts + 1 }, .remNum d rest mode)
  | .remNum d rest mode => some ({ s with numOp := s.numOp - 1 }, .remCtl d rest mode)
  | .remCtl d rest mode =>
      some ((s.ctlDel d).modify d fun x => { x with removed := true }, .unlock d rest mode)
  | .unlock d rest mode => some (s.modify d fun x => { x with lock := none }, .ready d rest mode)
  | .ready d rest mode => (vpuReady s d).map fun s' => (s', .cas rest mode)
  | _ => none

def daemonStep (s : Shared δ n) (pc : Pc δ) (ch : Choice δ) : Option (Shared δ n × Pc δ) :=
  match pc with
  | .daemon =>
      if s.manager = none then some ({ s with manager := some .daemon }, .scan) else none
  | .scan =>
      match ch with
      -- which deadlines are due is left open
      | .fire d => if (s.desc d).inHeap = true then some (s, .fireLock d) else none
      | .go => some ({ s with manager := none }, .daemon)
      | _ => none
  | .fireLock d =>
      if (s.desc d).lock = none then
        some (s.modify d fun x => { x with lock := some .daemon }, .fireCas d)
      else none
  | .fireCas d =>
      if (s.desc d).done = false then
        some (s.modify d fun x => { x with done := true, winner := some .daemon }, .fireMode d)
      else some (s, .fireUnlock d false)
  | .fireMode d => some (s.modify d fun x => { x with mode := .none }, .fireRemPut d)
  | .fireRemPut d =>
      some (s.modify d fun x => { x.put with netpollPuts := x.netpollPuts + 1 }, .fireRemNum d)
  | .fireRemNum d => some ({ s with numOp := s.numOp - 1 }, .fireRemCtl d)
  | .fireRemCtl d =>
      some ((s.ctlDel d).modify d fun x => { x with removed := true }, .fireUnlock d true)
  | .fireUnlock d succ =>
      some (s.modify d fun x => { x with lock := none }, if succ then .fireReady d else .firePut d)
  | .fireReady d => (vpuReady s d).map fun s' => (s', .firePut d)
  | .firePut d =>
      some (s.modify d fun x => { x.put with timerPuts := x.timerPuts + 1 }, .fireDel d)
  | .fireDel d => some (s.modify d fun x => { x with inHeap := false }, .scan)
  | _ => none

def step (t : Party δ n) (s : Shared δ n) (pc : Pc δ) (ch : Choice δ) :
    Option (Shared δ n × Pc δ) :=
  match t with
  | .call d => (callStep d s ch).map fun s' => (s', .call)
  | .poller i => pollerStep i s pc ch
  | .daemon => daemonStep s pc ch

abbrev State (δ : Type) (n : Nat) := Pool (Party δ n) (Shared δ n) (Pc δ)

/-- Nothing has been called yet. -/
structure Init (s : State δ n) : Prop where
  desc : ∀ d, (s.shared.desc d).pc = .idle ∧ (s.shared.desc d).done = false ∧
    (s.shared.desc d).lock = none ∧ (s.shared.desc d).refcnt = 0 ∧
    (s.shared.desc d).wait = .running ∧ (s.shared.desc d).inHeap = false ∧
    (s.shared.desc d).winner = none ∧ (s.shared.desc d).removed = false ∧
    (s.shared.desc d).wakes = 0 ∧ (s.shared.desc d).waiterPuts = 0 ∧
    (s.shared.desc d).netpollPuts = 0 ∧ (s.shared.desc d).timerPuts = 0 ∧
    (s.shared.desc d).released = 0
  epoll : ∀ f, s.shared.epoll f = none
  numOp : s.shared.numOp = 0
  manager : s.shared.manager = none
  calls : ∀ d, s.locals (.call d) = .call
  pollers : ∀ i, s.locals (.poller i) = .poll
  daemon : s.locals .daemon = .daemon

/-! ### The life of a descriptor -/

/-- The references taken so far. -/
def Desc.gets (x : Desc δ n) : Nat :=
  (if 1 ≤ x.pc.rank then 1 else 0) + (if x.timed = true ∧ 2 ≤ x.pc.rank then 1 else 0) +
    if 4 ≤ x.pc.rank then 1 else 0

structure DescOk (d : δ) (x : Desc δ n) : Prop where
  refs : x.refcnt + x.waiterPuts + x.netpollPuts + x.timerPuts = x.gets
  waiter : x.waiterPuts = if x.pc.rank = 18 then 1 else 0
  released : x.released = if x.pc.rank = 18 then 1 else 0
  early : x.pc.rank < 6 → x.done = false
  life :
    (x.done = false ∧ x.winner = none ∧ x.removed = false ∧ x.netpollPuts = 0 ∧ x.wakes = 0 ∧
      (1 ≤ x.pc.rank → x.mode = x.request)) ∨
    (x.done = true ∧ x.winner ≠ none ∧ x.netpollPuts ≤ 1 ∧ x.wakes = 0) ∨
    (x.done = true ∧ x.winner = none ∧ x.removed = true ∧ x.netpollPuts = 1 ∧ x.wakes = 1)
  fresh : x.pc.rank < 3 → x.lock = none
  lock : x.lock = some (.call d) ↔ 3 ≤ x.pc.rank ∧ x.pc.rank ≤ 10
  running : x.pc.rank < 10 → x.wait = .running
  asleep : x.pc.rank = 10 ∨ x.pc.rank = 11 → x.wakes = 0 → x.wait = .wait
  readied : x.wait = .ready → x.wakes = 1
  woken : x.wakes = 1 → 11 ≤ x.pc.rank
  awake : 12 ≤ x.pc.rank → x.wakes = 1
  heap : x.inHeap = true → x.timed = true ∧ 8 ≤ x.pc.rank ∧ x.pc.rank ≤ 13
  timer : x.timerPuts ≤ 1 ∧ (x.timerPuts = 1 → x.timed = true ∧ 8 ≤ x.pc.rank ∧ x.done = true)
  fired : x.timed = true → 8 ≤ x.pc.rank → x.inHeap = false →
    x.timerPuts = 1 ∨ x.pc = .delUnlock true ∨ x.pc = .timerPut
  found : x.pc = .delUnlock true ∨ x.pc = .timerPut → x.timerPuts = 0
  untimed : x.timed = false → x.pc.rank = 0 ∨ x.pc.rank = 2 ∨ x.pc.rank = 3 ∨ x.pc.rank = 4 ∨
    x.pc.rank = 5 ∨ x.pc.rank = 9 ∨ x.pc.rank = 10 ∨ x.pc.rank = 11 ∨ 16 ≤ x.pc.rank

/-- Places of a call that hold the lock of the timer manager. -/
def CallPc.manages : CallPc → Bool
  | .timerInsert | .timerUnlock | .delTimer | .delUnlock _ => true
  | _ => false

structure Keeps (s : Shared δ n) : Prop where
  desc : ∀ d, DescOk d (s.desc d)
  epoll : ∀ f d m, s.epoll f = some (d, m) → (s.desc d).fd = f ∧ m = (s.desc d).request ∧
    6 ≤ (s.desc d).pc.rank ∧ (s.desc d).removed = false
  manager : ∀ d, s.manager = some (.call d) ↔ (s.desc d).pc.manages = true
  heap : s.manager ≠ some .daemon → ∀ d, (s.desc d).inHeap = true → (s.desc d).timerPuts = 0

/-- The party has set `done`, has dropped epoll's reference so often, and has been through
    `EPOLL_CTL_DEL` or not. -/
def Desc.Won (x : Desc δ n) (t : Party δ n) (puts : Nat) (removed : Bool) : Prop :=
  x.done = true ∧ x.winner = some t ∧ x.netpollPuts = puts ∧ x.removed = removed

/-! ### What a party knows -/

/-- The part of a poller's batch it has not looked at. -/
def Pc.rest : Pc δ → List (δ × Event)
  | .cas rest _ | .setMode _ _ rest _ | .lock _ rest _ | .remPut _ rest _ | .remNum _ rest _
  | .remCtl _ rest _ | .unlock _ rest _ | .ready _ rest _ => rest
  | _ => []

/-- The descriptor whose lock it has. -/
def Pc.holds : Pc δ → Option δ
  | .remPut d _ _ | .remNum d _ _ | .remCtl d _ _ | .unlock d _ _ | .fireCas d | .fireMode d
  | .fireRemPut d | .fireRemNum d | .fireRemCtl d | .fireUnlock d _ => some d
  | _ => none

/-- The descriptor it has set `done` of, and how far it is with it. -/
def Pc.won : Pc δ → Option (δ × Nat × Bool)
  | .setMode d _ _ _ | .lock d _ _ | .remPut d _ _ | .fireMode d | .fireRemPut d => some (d, 0, false)
  | .remNum d _ _ | .remCtl d _ _ | .fireRemNum d | .fireRemCtl d => some (d, 1, false)
  | .unlock d _ _ | .ready d _ _ | .fireUnlock d true | .fireReady d => some (d, 1, true)
  | _ => none

/-- The same, once it has had the lock: the caller sleeps. -/
def Pc.ends : Pc δ → Option δ
  | .remPut d _ _ | .remNum d _ _ | .remCtl d _ _ | .unlock d _ _ | .ready d _ _ | .fireMode d
  | .fireRemPut d | .fireRemNum d | .fireRemCtl d | .fireUnlock d true | .fireReady d => some d
  | _ => none

/-- The deadline the daemon fires. -/
def Pc.fires : Pc δ → Option δ
  | .fireLock d | .fireCas d | .fireMode d | .fireRemPut d | .fireRemNum d | .fireRemCtl d
  | .fireUnlock d _ | .fireReady d | .firePut d | .fireDel d => some d
  | _ => none

/-- The same, once the daemon has been at `done`. -/
def Pc.ran : Pc δ → Option δ
  | .fireMode d | .fireRemPut d | .fireRemNum d | .fireRemCtl d | .fireUnlock d _ | .fireReady d
  | .firePut d => some d
  | _ => none

/-- The deadline whose reference the daemon has dropped. -/
def Pc.fired : Pc δ → Option δ
  | .fireDel d => some d
  | _ => none

def Pc.manages : Pc δ → Bool
  | .scan => true
  | pc => pc.fires.isSome

structure At (t : Party δ n) (pc : Pc δ) (s : Shared δ n) : Prop where
  rest : ∀ e ∈ pc.rest, 6 ≤ (s.desc e.1).pc.rank
  holds : ∀ d, pc.holds = some d → (s.desc d).lock = some t
  won : ∀ d puts removed, pc.won = some (d, puts, removed) → (s.desc d).Won t puts removed
  ends : ∀ d, pc.ends = some d → (s.desc d).pc = .asleep
  fires : ∀ d, pc.fires = some d → (s.desc d).inHeap = true
  ran : ∀ d, pc.ran = some d → (s.desc d).done = true
  manager : pc.manages = true → s.manager = some t ∧ ∀ e, (s.desc e).inHeap = true →
    (s.desc e).timerPuts = if pc.fired = some e then 1 else 0

/-- What a step of a party leaves alone. -/
structure Guar (t : Party δ n) (s s' : Shared δ n) : Prop where
  rank : ∀ e, (s.desc e).pc.rank ≤ (s'.desc e).pc.rank
  lock : ∀ e u, u ≠ t → (s.desc e).lock = some u → (s'.desc e).lock = some u
  won : ∀ e u puts removed, u ≠ t → (s.desc e).Won u puts removed →
    (s'.desc e).Won u puts removed ∧ ((s.desc e).pc = .asleep → (s'.desc e).pc = .asleep)
  manager : ∀ u, u ≠ t → s.manager = some u → s'.manager = some u ∧
    ∀ e, (s'.desc e).inHeap = (s.desc e).inHeap ∧
      ((s.desc e).inHeap = true → (s'.desc e).timerPuts = (s.desc e).timerPuts)
  done : ∀ e, (s.desc e).done = true → (s'.desc e).done = true

omit [DecidableEq δ] in
theorem Pc.won_of_ends {pc : Pc δ} {d : δ} (h : pc.ends = some d) :
    ∃ puts removed, pc.won = some (d, puts, removed) := by
  cases pc with
  | fireUnlock e succ =>
    cases succ
    · cases h
    · cases h
      exact ⟨1, true, rfl⟩
  | remPut | remNum | remCtl | unlock | ready | fireMode | fireRemPut | fireRemNum | fireRemCtl
  | fireReady =>
    cases h
    exact ⟨_, _, rfl⟩
  | call | poll | cas | setMode | lock | daemon | scan | fireLock | fireCas | firePut | fireDel =>
    cases h

omit [DecidableEq δ] in
theorem Pc.manages_of_fires {pc : Pc δ} {d : δ} (h : pc.fires = some d) : pc.manages = true := by
  cases pc <;> first | rfl | cases h

theorem At.stable {t u : Party δ n} {pc : Pc δ} {s s' : Shared δ n} (hne : t ≠ u) (h : At u pc s)
    (hG : Guar t s s') : At u pc s' := by
  constructor
  case rest => exact fun e he => Nat.le_trans (h.rest e he) (hG.rank e.1)
  case holds => exact fun d hd => hG.lock d u (Ne.symm hne) (h.holds d hd)
  case won => exact fun d puts removed hw => (hG.won d u puts removed (Ne.symm hne) (h.won d _ _ hw)).1
  case ends =>
    intro d hd
    obtain ⟨puts, removed, hw⟩ := Pc.won_of_ends hd
    exact (hG.won d u puts removed (Ne.symm hne) (h.won d _ _ hw)).2 (h.ends d hd)
  case fires =>
    intro d hd
    obtain ⟨hm, -⟩ := h.manager (Pc.manages_of_fires hd)
    rw [((hG.manager u (Ne.symm hne) hm).2 d).1]
    exact h.fires d hd
  case ran => exact fun d hd => hG.done d (h.ran d hd)
  case manager =>
    intro hm
    obtain ⟨hman, hputs⟩ := h.manager hm
    obtain ⟨hman', hsame⟩ := hG.manager u (Ne.symm hne) hman
    refine ⟨hman', fun e he => ?_⟩
    obtain ⟨hheap, ht⟩ := hsame e
    rw [hheap] at he
    rw [ht he]
    exact hputs e he

/-! ### Steps at one descriptor -/

/-- What a step of `t` does to the descriptor it works on.  `mine`: it has the lock of the
    timer manager. -/
structure Moves (t : Party δ n) (mine : Prop) (x x' : Desc δ n) : Prop where
  rank : x.pc.rank ≤ x'.pc.rank
  entry : 6 ≤ x.pc.rank → x'.fd = x.fd ∧ x'.request = x.request
  lock : ∀ u, u ≠ t → x.lock = some u → x'.lock = some u
  won : ∀ u puts removed, u ≠ t → x.Won u puts removed →
    x'.Won u puts removed ∧ (x.pc = .asleep → x'.pc = .asleep)
  timer : mine ∨ (x'.inHeap = x.inHeap ∧ (x.inHeap = true → x'.timerPuts = x.timerPuts))
  done : x.done = true → x'.done = true

/-- Who has the lock of the timer manager after a step at descriptor `d`. -/
def Manages (d : δ) (s s' : Shared δ n) (x x' : Desc δ n) : Prop :=
  (s'.manager = s.manager ∧ x'.pc.manages = x.pc.manages) ∨
  (s.manager = none ∧ s'.manager = some (.call d) ∧ x'.pc.manages = true) ∨
  (s.manager = some (.call d) ∧ s'.manager = none ∧ x'.pc.manages = false)

theorem guar_of_update {t : Party δ n} {s s' : Shared δ n} {d : δ} {x' : Desc δ n}
    (hdesc : s'.desc = Function.update s.desc d x')
    (hmoves : Moves t (s.manager = some t) (s.desc d) x')
    (hman : ∀ u, u ≠ t → s.manager = some u → s'.manager = some u) : Guar t s s' := by
  have hat : s'.desc d = x' := by rw [hdesc, Function.update_self]
  have hne : ∀ e, e ≠ d → s'.desc e = s.desc e := fun e he => by
    rw [hdesc, Function.update_of_ne he]
  constructor
  case rank =>
    intro e
    by_cases he : e = d
    · subst he
      rw [hat]
      exact hmoves.rank
    · rw [hne e he]
  case lock =>
    intro e u hu hl
    by_cases he : e = d
    · subst he
      rw [hat]
      exact hmoves.lock u hu hl
    · rw [hne e he]
      exact hl
  case won =>
    intro e u puts removed hu hw
    by_cases he : e = d
    · subst he
      rw [hat]
      exact hmoves.won u puts removed hu hw
    · rw [hne e he]
      exact ⟨hw, fun h => h⟩
  case manager =>
    intro u hu hm
    refine ⟨hman u hu hm, fun e => ?_⟩
    by_cases he : e = d
    · subst he
      rw [hat]
      refine hmoves.timer.resolve_left fun hmine => ?_
      rw [hm] at hmine
      exact hu (Option.some.inj hmine)
    · rw [hne e he]
      exact ⟨rfl, fun _ => rfl⟩
  case done =>
    intro e hd
    by_cases he : e = d
    · subst he
      rw [hat]
      exact hmoves.done hd
    · rw [hne e he]
      exact hd

theorem keeps_of_update {t : Party δ n} {mine : Prop} {s s' : Shared δ n} {d : δ} {x' : Desc δ n}
    (hk : Keeps s) (hdesc : s'.desc = Function.update s.desc d x') (hok : DescOk d x')
    (hmoves : Moves t mine (s.desc d) x')
    (hepoll : ∀ f e m, s'.epoll f = some (e, m) → s.epoll f = some (e, m) ∧
      (e = d → x'.removed = (s.desc d).removed))
    (hman : Manages d s s' (s.desc d) x')
    (hheap : s'.manager ≠ some .daemon → x'.inHeap = true → x'.timerPuts = 0) : Keeps s' := by
  have hat : s'.desc d = x' := by rw [hdesc, Function.update_self]
  have hne : ∀ e, e ≠ d → s'.desc e = s.desc e := fun e he => by
    rw [hdesc, Function.update_of_ne he]
  constructor
  case desc =>
    intro e
    by_cases he : e = d
    · subst he
      rw [hat]
      exact hok
    · rw [hne e he]
      exact hk.desc e
  case epoll =>
    intro f e m he
    obtain ⟨hold, hrem⟩ := hepoll f e m he
    obtain ⟨hfd, hreq, hrank, hremoved⟩ := hk.epoll f e m hold
    by_cases hed : e = d
    · subst hed
      rw [hat]
      obtain ⟨hfd', hreq'⟩ := hmoves.entry hrank
      exact ⟨hfd'.trans hfd, hreq.trans hreq'.symm, Nat.le_trans hrank hmoves.rank,
        (hrem rfl).trans hremoved⟩
    · rw [hne e hed]
      exact ⟨hfd, hreq, hrank, hremoved⟩
  case manager =>
    intro e
    by_cases he : e = d
    · subst he
      rw [hat]
      rcases hman with ⟨hm, hp⟩ | ⟨-, hm, hp⟩ | ⟨-, hm, hp⟩
      · rw [hm, hp]
        exact hk.manager e
      · rw [hm, hp]
        exact ⟨fun _ => rfl, fun _ => rfl⟩
      · rw [hm, hp]
        exact ⟨nofun, nofun⟩
    · rw [hne e he, ← hk.manager e]
      rcases hman with ⟨hm, -⟩ | ⟨hm, hm', -⟩ | ⟨hm, hm', -⟩
      · rw [hm]
      · rw [hm, hm']
        constructor
        · intro h
          cases h
          exact absurd rfl he
        · exact nofun
      · rw [hm, hm']
        constructor
        · exact nofun
        · intro h
          cases h
          exact absurd rfl he
  case heap =>
    intro hm e he
    by_cases hed : e = d
    · subst hed
      rw [hat] at he ⊢
      exact hheap hm he
    · rw [hne e hed] at he ⊢
      refine hk.heap ?_ e he
      rcases hman with ⟨hm', -⟩ | ⟨hm', -⟩ | ⟨hm', -⟩
      · rwa [hm'] at hm
      · rw [hm']
        exact nofun
      · rw [hm']
        exact nofun

theorem update_ok {t : Party δ n} {s s' : Shared δ n} {d : δ} {x' : Desc δ n}
    (hk : Keeps s) (hdesc : s'.desc = Function.update s.desc d x') (hok : DescOk d x')
    (hmoves : Moves t (s.manager = some t) (s.desc d) x')
    (hepoll : ∀ f e m, s'.epoll f = some (e, m) → s.epoll f = some (e, m) ∧
      (e = d → x'.removed = (s.desc d).removed))
    (hman : Manages d s s' (s.desc d) x') (hparty : t = .call d ∨ s'.manager = s.manager)
    (hheap : s'.manager ≠ some .daemon → x'.inHeap = true → x'.timerPuts = 0) :
    Keeps s' ∧ Guar t s s' := by
  refine ⟨keeps_of_update hk hdesc hok hmoves hepoll hman hheap,
    guar_of_update hdesc hmoves fun u hu hm => ?_⟩
  rcases hparty with rfl | hsame
  · rcases hman with ⟨hm', -⟩ | ⟨hm', -⟩ | ⟨hm', -⟩
    · rw [hm', hm]
    · exact nomatch hm'.symm.trans hm
    · rw [hm'] at hm
      exact absurd (Option.some.inj hm).symm hu
  · rw [hsame, hm]

/-! ### Steps of a call -/

/-- A call at one of its places, before and after a step that changes only its descriptor
    and the lock of the timer manager. -/
theorem call_ok {s s' : Shared δ n} {d : δ} {x' : Desc δ n} (hk : Keeps s)
    (hdesc : s'.desc = Function.update s.desc d x') (hepoll : s'.epoll = s.epoll)
    (hok : DescOk d x') (hmoves : Moves (.call d) (s.manager = some (.call d)) (s.desc d) x')
    (hremoved : x'.removed = (s.desc d).removed) (hman : Manages d s s' (s.desc d) x')
    (hheap : s'.manager ≠ some .daemon → x'.inHeap = true → x'.timerPuts = 0) :
    Keeps s' ∧ Guar (.call d) s s' := by
  refine update_ok hk hdesc hok hmoves (fun f e m he => ?_) hman (.inl rfl) hheap
  rw [hepoll] at he
  exact ⟨he, fun _ => hremoved⟩

/-- A step of a call changes only its descriptor, and the lock of the timer manager. -/
theorem callStep_frame {s s' : Shared δ n} {d : δ} {ch : Choice δ} (hne : (s.desc d).pc ≠ .addCtl)
    (hs : callStep d s ch = some s') : s'.desc = Function.update s.desc d (s'.desc d) ∧
      s'.epoll = s.epoll ∧ (s'.desc d).removed = (s.desc d).removed := by
  unfold callStep at hs
  cases hpc : (s.desc d).pc
  case addCtl => exact absurd hpc hne
  case idle =>
    simp only [hpc] at hs
    cases ch <;> cases hs
    simp [Shared.modify, Desc.init]
  all_goals
    simp only [hpc, Option.some.injEq, Option.ite_none_right_eq_some, reduceCtorEq] at hs
  all_goals
    first
      | subst hs
      | obtain ⟨hcond, rfl⟩ := hs
    simp [Shared.modify, Desc.goto, Desc.get, Desc.put]

/-- The life of the descriptor goes on. -/
theorem callStep_desc {s s' : Shared δ n} {d : δ} {ch : Choice δ} (hk : Keeps s)
    (hne : (s.desc d).pc ≠ .addCtl) (hs : callStep d s ch = some s') : DescOk d (s'.desc d) := by
  obtain ⟨hrefs, hwaiter, hreleased, hearly, hlife, hfresh, hlock, hrunning, hasleep, hreadied, hwoken,
    hawake, hinHeap, htimer, hfired, hfound, huntimed⟩ := hk.desc d
  have hman := hk.manager d
  have hheap := fun h => hk.heap h d
  unfold callStep at hs
  cases hpc : (s.desc d).pc
  case addCtl => exact absurd hpc hne
  case idle =>
    simp only [hpc] at hs
    cases ch <;> cases hs
    simp [hpc, Desc.gets, CallPc.rank] at hrefs hwaiter hreleased hearly hlife hfresh hlock hrunning
    simp [hpc, CallPc.rank] at hwoken hawake hinHeap htimer hfired hfound huntimed
    constructor
    all_goals
      simp only [Shared.modify, Function.update_self, Desc.init, Desc.gets]
      grind -ring -linarith [CallPc.rank]
  all_goals
    simp only [hpc, Option.some.injEq, Option.ite_none_right_eq_some, reduceCtorEq] at hs
  all_goals
    first
      | subst hs
      | obtain ⟨hcond, rfl⟩ := hs
    simp [hpc, Desc.gets, CallPc.rank, CallPc.manages] at hman hrefs hwaiter hreleased hearly hlife
    simp [hpc, CallPc.rank] at hfresh hlock hrunning hasleep hwoken hawake hinHeap htimer hfired hfound huntimed
    constructor
    all_goals simp -failIfUnchanged [Shared.modify, Desc.goto, Desc.get, Desc.put, Desc.gets, CallPc.rank]
    -- most fields are as they were
    all_goals
      first
        | assumption
        | omega
        | grind -ring -linarith [CallPc.rank]

theorem callStep_moves {s s' : Shared δ n} {d : δ} {ch : Choice δ} (hk : Keeps s)
    (hne : (s.desc d).pc ≠ .addCtl) (hs : callStep d s ch = some s') :
    Moves (.call d) (s.manager = some (.call d)) (s.desc d) (s'.desc d) := by
  obtain ⟨hrefs, hwaiter, hreleased, hearly, hlife, hfresh, hlock, hrunning, hasleep, hreadied, hwoken,
    hawake, hinHeap, htimer, hfired, hfound, huntimed⟩ := hk.desc d
  have hman := hk.manager d
  unfold callStep at hs
  cases hpc : (s.desc d).pc
  case addCtl => exact absurd hpc hne
  case idle =>
    simp only [hpc] at hs
    cases ch <;> cases hs
    constructor
    all_goals
      simp only [Shared.modify, Function.update_self, Desc.init, Desc.Won, hpc, CallPc.rank] at *
      grind -ring -linarith [CallPc.rank]
  all_goals
    simp only [hpc, Option.some.injEq, Option.ite_none_right_eq_some, reduceCtorEq] at hs
  all_goals
    first
      | subst hs
      | obtain ⟨hcond, rfl⟩ := hs
    simp [hpc, CallPc.rank, CallPc.manages] at hman hfresh hlock hwoken hawake hinHeap hlife htimer hfired
    constructor
    all_goals simp -failIfUnchanged [Shared.modify, Desc.goto, Desc.get, Desc.put, Desc.Won, hpc, CallPc.rank]
    all_goals grind -ring -linarith [CallPc.rank]

theorem callStep_manages {s s' : Shared δ n} {d : δ} {ch : Choice δ} (hk : Keeps s)
    (hne : (s.desc d).pc ≠ .addCtl) (hs : callStep d s ch = some s') :
    Manages d s s' (s.desc d) (s'.desc d) := by
  have hman := hk.manager d
  unfold callStep at hs
  cases hpc : (s.desc d).pc
  case addCtl => exact absurd hpc hne
  case idle =>
    simp only [hpc] at hs
    cases ch <;> cases hs
    simp only [Manages, Shared.modify, Function.update_self, Desc.init, hpc]
    grind -ring -linarith [CallPc.manages]
  all_goals
    simp only [hpc, Option.some.injEq, Option.ite_none_right_eq_some, reduceCtorEq] at hs
  all_goals
    first
      | subst hs
      | obtain ⟨hcond, rfl⟩ := hs
    simp [hpc, CallPc.manages] at hman
    simp only [Manages, Shared.modify, Function.update_self, Desc.goto, Desc.get, Desc.put, hpc]
    grind -ring -linarith [CallPc.manages]

/-- A deadline that is in the heap after a step of the call keeps its reference. -/
theorem callStep_heap {s s' : Shared δ n} {d : δ} {ch : Choice δ} (hk : Keeps s)
    (hne : (s.desc d).pc ≠ .addCtl) (hs : callStep d s ch = some s')
    (hm : s'.manager ≠ some .daemon) (hin : (s'.desc d).inHeap = true) : (s'.desc d).timerPuts = 0 := by
  obtain ⟨hrefs, hwaiter, hreleased, hearly, hlife, hfresh, hlock, hrunning, hasleep, hreadied, hwoken,
    hawake, hinHeap, htimer, hfired, hfound, huntimed⟩ := hk.desc d
  have hman := hk.manager d
  have hheap := fun h => hk.heap h d
  unfold callStep at hs
  cases hpc : (s.desc d).pc
  case addCtl => exact absurd hpc hne
  case idle =>
    simp only [hpc] at hs
    cases ch <;> cases hs
    simp only [Shared.modify, Function.update_self, Desc.init] at hm hin ⊢
    exact hheap hm hin
  all_goals
    simp only [hpc, Option.some.injEq, Option.ite_none_right_eq_some, reduceCtorEq] at hs
  all_goals
    first
      | subst hs
      | obtain ⟨hcond, rfl⟩ := hs
    simp only [hpc, CallPc.rank, CallPc.manages] at hman hinHeap htimer
    simp only [Shared.modify, Function.update_self, Desc.goto, Desc.get, Desc.put] at hm hin ⊢
    grind -ring -linarith

omit [DecidableEq δ] in
theorem Guar.congr {t : Party δ n} {s s' s₁ : Shared δ n} (h : Guar t s s₁) (hdesc : s'.desc = s₁.desc)
    (hman : s'.manager = s₁.manager) : Guar t s s' := by
  obtain ⟨hrank, hlock, hwon, hmanager, hdone⟩ := h
  rw [← hdesc] at hrank hlock hwon hmanager hdone
  rw [← hman] at hmanager
  exact ⟨hrank, hlock, hwon, hmanager, hdone⟩

/-- The call after `EPOLL_CTL_ADD`. -/
def added (x : Desc δ n) : Desc δ n := x.goto (if x.timed then .timerLock else .suspend)

/-- The call goes on, whatever `EPOLL_CTL_ADD` did. -/
theorem added_ok {s : Shared δ n} {d : δ} (hk : Keeps s) (hpc : (s.desc d).pc = .addCtl) :
    Keeps (s.modify d added) ∧ Guar (.call d) s (s.modify d added) := by
  obtain ⟨hrefs, hwaiter, hreleased, hearly, hlife, hfresh, hlock, hrunning, hasleep, hreadied, hwoken,
    hawake, hinHeap, htimer, hfired, hfound, huntimed⟩ := hk.desc d
  have hman := hk.manager d
  have hheap := fun h => hk.heap h d
  refine call_ok hk rfl rfl ?_ ?_ rfl ?_ ?_
  · constructor
    all_goals
      simp only [added, Desc.goto, Desc.gets, hpc, CallPc.rank] at *
      grind -ring -linarith [CallPc.rank]
  · constructor
    all_goals
      simp only [added, Desc.goto, Desc.Won, hpc, CallPc.rank] at *
      grind -ring -linarith [CallPc.rank]
  · unfold Manages
    simp only [Shared.modify, added, Desc.goto, hpc, CallPc.manages] at *
    grind -ring -linarith [CallPc.manages]
  · simp only [Shared.modify, added, Desc.goto, hpc, CallPc.rank] at *
    grind -ring -linarith

omit [DecidableEq δ] in
/-- What `EPOLL_CTL_ADD` does to the set. -/
theorem ctlAdd_epoll {s : Shared δ n} {d e : δ} {f : Nat} {m : Mode}
    (h : (s.ctlAdd d).epoll f = some (e, m)) :
    s.epoll f = some (e, m) ∨ (f = (s.desc d).fd ∧ e = d ∧ m = (s.desc d).mode) := by
  unfold Shared.ctlAdd at h
  split at h
  · exact .inl h
  · by_cases hf : f = (s.desc d).fd
    · subst hf
      simp only [Function.update_self, Option.some.injEq, Prod.mk.injEq] at h
      exact .inr ⟨rfl, h.1.symm, h.2.symm⟩
    · simp only [Function.update_of_ne hf] at h
      exact .inl h

omit [DecidableEq δ] in
theorem ctlAdd_desc (s : Shared δ n) (d : δ) :
    (s.ctlAdd d).desc = s.desc ∧ (s.ctlAdd d).manager = s.manager := by
  unfold Shared.ctlAdd
  split <;> exact ⟨rfl, rfl⟩

theorem addCtl_ok {s : Shared δ n} {d : δ} (hk : Keeps s) (hpc : (s.desc d).pc = .addCtl) :
    Keeps ((s.ctlAdd d).modify d added) ∧ Guar (.call d) s ((s.ctlAdd d).modify d added) := by
  obtain ⟨hkeeps, hguar⟩ := added_ok hk hpc
  obtain ⟨hdesc, hmanager⟩ := ctlAdd_desc s d
  have hdesc' : ((s.ctlAdd d).modify d added).desc = (s.modify d added).desc := by
    simp only [Shared.modify, hdesc]
  refine ⟨⟨?_, fun f e m he => ?_, ?_, ?_⟩, hguar.congr hdesc' hmanager⟩
  · rw [hdesc']
    exact hkeeps.desc
  · rw [hdesc']
    rcases ctlAdd_epoll he with hold | ⟨rfl, rfl, rfl⟩
    · exact hkeeps.epoll f e m hold
    · have hok := hk.desc e
      have hdone : (s.desc e).done = false := hok.early (by rw [hpc]; decide)
      obtain ⟨-, -, hremoved, -, -, hmode⟩ : _ ∧ _ ∧ _ ∧ _ ∧ _ ∧ _ := by
        rcases hok.life with h | ⟨h, -⟩ | ⟨h, -⟩
        · exact h
        · exact nomatch hdone.symm.trans h
        · exact nomatch hdone.symm.trans h
      have hrank : 6 ≤ (added (s.desc e)).pc.rank := by
        simp only [added, Desc.goto]
        split <;> decide
      simp only [Shared.modify, Function.update_self]
      exact ⟨rfl, hmode (by rw [hpc]; decide), hrank, hremoved⟩
  · rw [hdesc']
    intro e
    exact (show _ = _ from congrArg (· = some (Party.call e)) hmanager) ▸ hkeeps.manager e
  · rw [hdesc']
    intro hm
    refine hkeeps.heap ?_
    rwa [← show ((s.ctlAdd d).modify d added).manager = (s.modify d added).manager from hmanager]

theorem callStep_ok {s s' : Shared δ n} {d : δ} {ch : Choice δ} (hk : Keeps s)
    (hs : callStep d s ch = some s') : Keeps s' ∧ Guar (.call d) s s' := by
  by_cases hpc : (s.desc d).pc = .addCtl
  · simp only [callStep, hpc, Option.some.injEq] at hs
    subst hs
    exact addCtl_ok hk hpc
  · obtain ⟨hdesc, hepoll, hremoved⟩ := callStep_frame hpc hs
    exact call_ok hk hdesc hepoll (callStep_desc hk hpc hs) (callStep_moves hk hpc hs) hremoved
      (callStep_manages hk hpc hs) (callStep_heap hk hpc hs)

/-! ### Steps of pollers and the daemon -/

omit [DecidableEq δ] in
/-- A descriptor that somebody has won, or whose deadline is running, belongs to a caller
    that sleeps as soon as its lock is not the caller's. -/
theorem DescOk.sleeps {d : δ} {x : Desc δ n} (h : DescOk d x) (hrank : 6 ≤ x.pc.rank)
    (hlock : x.lock ≠ some (.call d)) (hwakes : x.wakes = 0) : x.pc = .asleep := by
  have hlow : ¬ (3 ≤ x.pc.rank ∧ x.pc.rank ≤ 10) := fun hr => hlock (h.lock.mpr hr)
  have hhigh : ¬ 12 ≤ x.pc.rank := fun hr => by
    have := h.awake hr
    omega
  have hrank' : x.pc.rank = 11 := by omega
  cases hpc : x.pc with
  | asleep => rfl
  | _ =>
    rw [hpc] at hrank'
    cases hrank'

structure StepOk (t : Party δ n) (s s' : Shared δ n) (pc' : Pc δ) : Prop where
  keeps : Keeps s'
  place : At t pc' s'
  guar : Guar t s s'

/-- A party other than the call works on one descriptor. -/
theorem StepOk.of_update {t : Party δ n} {s s' : Shared δ n} {pc pc' : Pc δ} {d : δ} {x' : Desc δ n}
    (hk : Keeps s) (hat : At t pc s) (hdesc : s'.desc = Function.update s.desc d x')
    (hman : s'.manager = s.manager) (hpc : x'.pc = (s.desc d).pc)
    (hepoll : ∀ f e m, s'.epoll f = some (e, m) → s.epoll f = some (e, m) ∧
      (e = d → x'.removed = (s.desc d).removed))
    (hok : DescOk d x') (hmoves : Moves t (s.manager = some t) (s.desc d) x')
    (hheap : s.manager ≠ some .daemon → x'.inHeap = true → x'.timerPuts = 0)
    (hrest : ∀ e ∈ pc'.rest, e ∈ pc.rest)
    (hholds : pc'.holds = none ∨ pc'.holds = some d ∧ x'.lock = some t)
    (hwon : pc'.won = none ∨ ∃ puts removed, pc'.won = some (d, puts, removed) ∧ x'.Won t puts removed)
    (hends : pc'.ends = none ∨ pc'.ends = some d ∧ (s.desc d).pc = .asleep)
    (hfires : pc'.fires = none ∨ pc'.fires = some d ∧ x'.inHeap = true)
    (hran : pc'.ran = none ∨ pc'.ran = some d ∧ x'.done = true)
    (hmanages : pc'.manages = true → pc.manages = true ∧
      (x'.inHeap = true → x'.timerPuts = if pc'.fired = some d then 1 else 0) ∧
      ∀ e, e ≠ d → pc'.fired ≠ some e ∧ pc.fired ≠ some e) : StepOk t s s' pc' := by
  have hself : s'.desc d = x' := by rw [hdesc, Function.update_self]
  have hne : ∀ e, e ≠ d → s'.desc e = s.desc e := fun e he => by
    rw [hdesc, Function.update_of_ne he]
  obtain ⟨hkeeps, hguar⟩ := update_ok hk hdesc hok hmoves hepoll
    (.inl ⟨hman, congrArg CallPc.manages hpc⟩) (.inr hman) (by rwa [hman])
  refine ⟨hkeeps, ?_, hguar⟩
  constructor
  case rest => exact fun e he => Nat.le_trans (hat.rest e (hrest e he)) (hguar.rank e.1)
  case holds =>
    intro e he
    rcases hholds with hnone | ⟨hsome, hl⟩
    · cases hnone.symm.trans he
    · cases hsome.symm.trans he
      rw [hself]
      exact hl
  case won =>
    intro e puts removed he
    rcases hwon with hnone | ⟨_, _, hsome, hw⟩
    · cases hnone.symm.trans he
    · cases hsome.symm.trans he
      rw [hself]
      exact hw
  case ends =>
    intro e he
    rcases hends with hnone | ⟨hsome, hasleep⟩
    · cases hnone.symm.trans he
    · cases hsome.symm.trans he
      rw [hself, hpc]
      exact hasleep
  case fires =>
    intro e he
    rcases hfires with hnone | ⟨hsome, hin⟩
    · cases hnone.symm.trans he
    · cases hsome.symm.trans he
      rw [hself]
      exact hin
  case ran =>
    intro e he
    rcases hran with hnone | ⟨hsome, hdone⟩
    · cases hnone.symm.trans he
    · cases hsome.symm.trans he
      rw [hself]
      exact hdone
  case manager =>
    intro hm
    obtain ⟨hm', hputs, hothers⟩ := hmanages hm
    obtain ⟨hmine, hall⟩ := hat.manager hm'
    refine ⟨hman.trans hmine, fun e he => ?_⟩
    by_cases hed : e = d
    · subst hed
      rw [hself] at he ⊢
      exact hputs he
    · rw [hne e hed] at he ⊢
      rw [hall e he, if_neg (hothers e hed).1, if_neg (hothers e hed).2]

omit [DecidableEq δ] in
theorem DescOk.winner {t : Party δ n} {d : δ} {x : Desc δ n} {puts : Nat} {removed : Bool}
    (h : DescOk d x) (hw : x.Won t puts removed) :
    6 ≤ x.pc.rank ∧ x.wakes = 0 ∧ x.winner ≠ none := by
  obtain ⟨hdone, hwinner, -, -⟩ := hw
  have hsome : x.winner ≠ none := by
    rw [hwinner]
    exact nofun
  refine ⟨?_, ?_, hsome⟩
  · by_contra hlt
    exact nomatch (h.early (by omega)).symm.trans hdone
  · rcases h.life with ⟨hf, -⟩ | ⟨-, -, -, hz⟩ | ⟨-, hnone, -⟩
    · exact nomatch hf.symm.trans hdone
    · exact hz
    · exact absurd hnone hsome

omit [DecidableEq δ] in
/-- The winner drops epoll's reference. -/
theorem Desc.Won.put {t : Party δ n} {x : Desc δ n} (h : x.Won t 0 false) :
    Desc.Won { x.put with netpollPuts := x.netpollPuts + 1 } t 1 false :=
  ⟨h.1, h.2.1, congrArg (· + 1) h.2.2.1, h.2.2.2⟩

omit [DecidableEq δ] in
theorem Desc.Won.removes {t : Party δ n} {x : Desc δ n} (h : x.Won t 1 false) :
    Desc.Won { x with removed := true } t 1 true :=
  ⟨h.1, h.2.1, h.2.2.1, rfl⟩

/-! What the steps of a poller and of the daemon do to the descriptor. -/

section
variable {t : Party δ n} {mine : Prop} {d : δ} {x : Desc δ n}

omit [DecidableEq δ] in
theorem cas_desc (h : DescOk d x) (hrank : 6 ≤ x.pc.rank) (hdone : x.done = false) :
    DescOk d { x with done := true, winner := some t } ∧
      Moves t mine x { x with done := true, winner := some t } := by
  obtain ⟨hrefs, hwaiter, hreleased, hearly, hlife, hfresh, hlock, hrunning, hasleep, hreadied, hwoken,
    hawake, hinHeap, htimer, hfired, hfound, huntimed⟩ := h
  constructor
  · refine ⟨hrefs, hwaiter, hreleased, ?_, ?_, hfresh, hlock, hrunning, hasleep, hreadied, hwoken,
      hawake, hinHeap, ?_, hfired, hfound, huntimed⟩
    all_goals grind -ring -linarith
  · refine ⟨Nat.le_refl _, fun _ => ⟨rfl, rfl⟩, fun _ _ hl => hl, fun u puts removed _ hw => ?_,
      .inr ⟨rfl, fun _ => rfl⟩, fun _ => rfl⟩
    exact nomatch hdone.symm.trans hw.1

omit [DecidableEq δ] in
theorem mode_desc {puts : Nat} {removed : Bool} (h : DescOk d x) (hwon : x.Won t puts removed)
    (mode : Mode) : DescOk d { x with mode := mode } ∧ Moves t mine x { x with mode := mode } := by
  obtain ⟨-, -, hsome⟩ := h.winner hwon
  obtain ⟨hrefs, hwaiter, hreleased, hearly, hlife, hfresh, hlock, hrunning, hasleep, hreadied, hwoken,
    hawake, hinHeap, htimer, hfired, hfound, huntimed⟩ := h
  constructor
  · refine ⟨hrefs, hwaiter, hreleased, hearly, ?_, hfresh, hlock, hrunning, hasleep, hreadied, hwoken,
      hawake, hinHeap, htimer, hfired, hfound, huntimed⟩
    grind -ring -linarith
  · exact ⟨Nat.le_refl _, fun _ => ⟨rfl, rfl⟩, fun _ _ hl => hl,
      fun u puts removed _ hw => ⟨hw, fun hpc => hpc⟩, .inr ⟨rfl, fun _ => rfl⟩, fun h => h⟩

omit [DecidableEq δ] in
theorem lock_desc (h : DescOk d x) (hrank : 6 ≤ x.pc.rank) (hl : x.lock = none) (ht : t ≠ .call d) :
    DescOk d { x with lock := some t } ∧ Moves t mine x { x with lock := some t } := by
  obtain ⟨hrefs, hwaiter, hreleased, hearly, hlife, hfresh, hlock, hrunning, hasleep, hreadied, hwoken,
    hawake, hinHeap, htimer, hfired, hfound, huntimed⟩ := h
  constructor
  · refine ⟨hrefs, hwaiter, hreleased, hearly, hlife, ?_, ?_, hrunning, hasleep, hreadied, hwoken,
      hawake, hinHeap, htimer, hfired, hfound, huntimed⟩
    all_goals grind -ring -linarith
  · refine ⟨Nat.le_refl _, fun _ => ⟨rfl, rfl⟩, fun _ _ hl' => ?_,
      fun u puts removed _ hw => ⟨hw, fun hpc => hpc⟩, .inr ⟨rfl, fun _ => rfl⟩, fun h => h⟩
    exact nomatch hl.symm.trans hl'

omit [DecidableEq δ] in
theorem unlock_desc (h : DescOk d x) (hl : x.lock = some t) (ht : t ≠ .call d) :
    DescOk d { x with lock := none } ∧ Moves t mine x { x with lock := none } := by
  obtain ⟨hrefs, hwaiter, hreleased, hearly, hlife, hfresh, hlock, hrunning, hasleep, hreadied, hwoken,
    hawake, hinHeap, htimer, hfired, hfound, huntimed⟩ := h
  constructor
  · refine ⟨hrefs, hwaiter, hreleased, hearly, hlife, ?_, ?_, hrunning, hasleep, hreadied, hwoken,
      hawake, hinHeap, htimer, hfired, hfound, huntimed⟩
    all_goals grind -ring -linarith
  · refine ⟨Nat.le_refl _, fun _ => ⟨rfl, rfl⟩, fun u hu hl' => ?_,
      fun u puts removed _ hw => ⟨hw, fun hpc => hpc⟩, .inr ⟨rfl, fun _ => rfl⟩, fun h => h⟩
    rw [hl] at hl'
    exact absurd (Option.some.inj hl').symm hu

omit [DecidableEq δ] in
/-- Epoll's reference goes: the caller's is still there. -/
theorem remPut_desc (h : DescOk d x) (hwon : x.Won t 0 false) (hpc : x.pc = .asleep) :
    DescOk d { x.put with netpollPuts := x.netpollPuts + 1 } ∧
      Moves t mine x { x.put with netpollPuts := x.netpollPuts + 1 } := by
  obtain ⟨hrank, hwakes, hsome⟩ := h.winner hwon
  obtain ⟨hdone, hwinner, hputs, hremoved⟩ := hwon
  obtain ⟨hrefs, hwaiter, hreleased, hearly, hlife, hfresh, hlock, hrunning, hasleep, hreadied, hwoken,
    hawake, hinHeap, htimer, hfired, hfound, huntimed⟩ := h
  constructor
  · constructor
    all_goals
      simp only [Desc.put, Desc.gets, hpc, CallPc.rank] at *
      grind -ring -linarith
  · refine ⟨Nat.le_refl _, fun _ => ⟨rfl, rfl⟩, fun _ _ hl => hl, fun u puts removed hu hw => ?_,
      .inr ⟨rfl, fun _ => rfl⟩, fun h => h⟩
    exact absurd (Option.some.inj (hwinner.symm.trans hw.2.1)).symm hu

omit [DecidableEq δ] in
theorem removed_desc (h : DescOk d x) (hwon : x.Won t 1 false) :
    DescOk d { x with removed := true } ∧ Moves t mine x { x with removed := true } := by
  obtain ⟨hrank, hwakes, hsome⟩ := h.winner hwon
  obtain ⟨hdone, hwinner, hputs, hremoved⟩ := hwon
  obtain ⟨hrefs, hwaiter, hreleased, hearly, hlife, hfresh, hlock, hrunning, hasleep, hreadied, hwoken,
    hawake, hinHeap, htimer, hfired, hfound, huntimed⟩ := h
  constructor
  · refine ⟨hrefs, hwaiter, hreleased, hearly, ?_, hfresh, hlock, hrunning, hasleep, hreadied, hwoken,
      hawake, hinHeap, htimer, hfired, hfound, huntimed⟩
    grind -ring -linarith
  · refine ⟨Nat.le_refl _, fun _ => ⟨rfl, rfl⟩, fun _ _ hl => hl, fun u puts removed hu hw => ?_,
      .inr ⟨rfl, fun _ => rfl⟩, fun h => h⟩
    exact absurd (Option.some.inj (hwinner.symm.trans hw.2.1)).symm hu

omit [DecidableEq δ] in
theorem ready_desc (h : DescOk d x) (hwon : x.Won t 1 true) (hpc : x.pc = .asleep) :
    DescOk d { x with wait := .ready, winner := none, wakes := x.wakes + 1 } ∧
      Moves t mine x { x with wait := .ready, winner := none, wakes := x.wakes + 1 } := by
  obtain ⟨hrank, hwakes, hsome⟩ := h.winner hwon
  obtain ⟨hdone, hwinner, hputs, hremoved⟩ := hwon
  obtain ⟨hrefs, hwaiter, hreleased, hearly, hlife, hfresh, hlock, hrunning, hasleep, hreadied, hwoken,
    hawake, hinHeap, htimer, hfired, hfound, huntimed⟩ := h
  constructor
  · constructor
    all_goals
      simp only [Desc.gets, hpc, CallPc.rank] at *
      grind -ring -linarith
  · refine ⟨Nat.le_refl _, fun _ => ⟨rfl, rfl⟩, fun _ _ hl => hl, fun u puts removed hu hw => ?_,
      .inr ⟨rfl, fun _ => rfl⟩, fun h => h⟩
    exact absurd (Option.some.inj (hwinner.symm.trans hw.2.1)).symm hu

omit [DecidableEq δ] in
/-- The timer's reference goes, while the caller cannot get at the timer. -/
theorem timerPut_desc (h : DescOk d x) (hmine : mine) (hin : x.inHeap = true)
    (hputs : x.timerPuts = 0) (hdone : x.done = true) : DescOk d { x.put with timerPuts := x.timerPuts + 1 } ∧
      Moves t mine x { x.put with timerPuts := x.timerPuts + 1 } := by
  obtain ⟨hrefs, hwaiter, hreleased, hearly, hlife, hfresh, hlock, hrunning, hasleep, hreadied, hwoken,
    hawake, hinHeap, htimer, hfired, hfound, huntimed⟩ := h
  constructor
  · constructor
    all_goals
      simp only [Desc.put, Desc.gets] at *
      grind -ring -linarith [CallPc.rank]
  · exact ⟨Nat.le_refl _, fun _ => ⟨rfl, rfl⟩, fun _ _ hl => hl,
      fun u puts removed _ hw => ⟨hw, fun hpc => hpc⟩, .inl hmine, fun h => h⟩

omit [DecidableEq δ] in
theorem unheap_desc (h : DescOk d x) (hmine : mine) (hputs : x.timerPuts = 1) :
    DescOk d { x with inHeap := false } ∧ Moves t mine x { x with inHeap := false } := by
  obtain ⟨hrefs, hwaiter, hreleased, hearly, hlife, hfresh, hlock, hrunning, hasleep, hreadied, hwoken,
    hawake, hinHeap, htimer, hfired, hfound, huntimed⟩ := h
  constructor
  · exact ⟨hrefs, hwaiter, hreleased, hearly, hlife, hfresh, hlock, hrunning, hasleep, hreadied, hwoken,
      hawake, nofun, htimer, fun _ _ _ => .inl hputs, hfound, huntimed⟩
  · exact ⟨Nat.le_refl _, fun _ => ⟨rfl, rfl⟩, fun _ _ hl => hl,
      fun u puts removed _ hw => ⟨hw, fun hpc => hpc⟩, .inl hmine, fun h => h⟩

end

/-- Steps that leave the descriptors, the epoll set and the manager alone. -/
theorem StepOk.of_same {t : Party δ n} {s s' : Shared δ n} {pc pc' : Pc δ} (hk : Keeps s)
    (hat : At t pc s) (hdesc : s'.desc = s.desc) (hepoll : s'.epoll = s.epoll)
    (hman : s'.manager = s.manager) (hrest : ∀ e ∈ pc'.rest, 6 ≤ (s.desc e.1).pc.rank)
    (hholds : pc'.holds = none ∨ pc'.holds = pc.holds) (hwon : pc'.won = none ∨ pc'.won = pc.won)
    (hends : pc'.ends = none ∨ pc'.ends = pc.ends)
    (hfires : ∀ d, pc'.fires = some d → (s.desc d).inHeap = true)
    (hran : ∀ d, pc'.ran = some d → (s.desc d).done = true)
    (hmanages : pc'.manages = true → pc.manages = true ∧ pc'.fired = pc.fired) :
    StepOk t s s' pc' := by
  refine ⟨⟨?_, ?_, ?_, ?_⟩, ⟨?_, ?_, ?_, ?_, ?_, ?_, ?_⟩, ⟨?_, ?_, ?_, ?_, ?_⟩⟩
  · rw [hdesc]
    exact hk.desc
  · rw [hdesc, hepoll]
    exact hk.epoll
  · rw [hdesc, hman]
    exact hk.manager
  · rw [hdesc, hman]
    exact hk.heap
  · rw [hdesc]
    exact hrest
  · rw [hdesc]
    intro d hd
    rcases hholds with h | h <;> rw [h] at hd
    · cases hd
    · exact hat.holds d hd
  · rw [hdesc]
    intro d puts removed hd
    rcases hwon with h | h <;> rw [h] at hd
    · cases hd
    · exact hat.won d puts removed hd
  · rw [hdesc]
    intro d hd
    rcases hends with h | h <;> rw [h] at hd
    · cases hd
    · exact hat.ends d hd
  · rw [hdesc]
    exact hfires
  · rw [hdesc]
    exact hran
  · rw [hdesc, hman]
    intro hm
    obtain ⟨hm', hfired⟩ := hmanages hm
    rw [hfired]
    exact hat.manager hm'
  · rw [hdesc]
    exact fun _ => Nat.le_refl _
  · rw [hdesc]
    exact fun _ _ _ hl => hl
  · rw [hdesc]
    exact fun _ _ _ _ _ hw => ⟨hw, fun hpc => hpc⟩
  · rw [hdesc, hman]
    exact fun _ _ hm => ⟨hm, fun _ => ⟨rfl, fun _ => rfl⟩⟩
  · rw [hdesc]
    exact fun _ h => h

omit [DecidableEq δ] in
/-- The fd's entry, if it is the descriptor's own, is gone after `EPOLL_CTL_DEL`. -/
theorem ctlDel_epoll {s : Shared δ n} {d e : δ} {f : Nat} {m : Mode} {r : Bool} (hk : Keeps s)
    (h : (s.ctlDel d).epoll f = some (e, m)) :
    s.epoll f = some (e, m) ∧ (e = d → r = (s.desc d).removed) := by
  unfold Shared.ctlDel at h
  by_cases hf : f = (s.desc d).fd
  · rw [hf] at h
    simp at h
  · simp only [Function.update_of_ne hf] at h
    refine ⟨h, ?_⟩
    rintro rfl
    exact absurd (hk.epoll f e m h).1.symm hf

theorem pollerStep_ok {i : Fin n} {s s' : Shared δ n} {pc pc' : Pc δ} {ch : Choice δ} (hk : Keeps s)
    (hat : At (.poller i) pc s) (hs : pollerStep i s pc ch = some (s', pc')) :
    StepOk (.poller i) s s' pc' := by
  have hheap := hk.heap
  cases pc with
  | poll =>
    simp only [pollerStep] at hs
    split at hs
    · split at hs
      · rename_i events hcond
        cases hs
        refine .of_same hk hat rfl rfl rfl (fun e he => ?_) (.inl rfl) (.inl rfl) (.inl rfl) nofun nofun nofun
        -- what `epoll_wait` returns is registered
        obtain ⟨⟨d, m⟩, hentry, hd⟩ := Option.map_eq_some_iff.mp (hcond.2.2 e he)
        cases hd
        exact (hk.epoll _ _ _ hentry).2.2.1
      · cases hs
    · cases hs
  | cas batch mode =>
    rcases batch with _ | ⟨⟨d, ev⟩, rest⟩
    · cases hs
      exact .of_same hk hat rfl rfl rfl nofun (.inl rfl) (.inl rfl) (.inl rfl) nofun nofun nofun
    · have hrank := hat.rest (d, ev) (List.mem_cons_self ..)
      have hrest : ∀ e ∈ rest, e ∈ (d, ev) :: rest := fun e he => List.mem_cons_of_mem _ he
      simp only [pollerStep] at hs
      split at hs
      · rename_i hdone
        cases hs
        obtain ⟨hok, hmoves⟩ := cas_desc (hk.desc d) hrank hdone
        have hlife := (hk.desc d).life
        exact .of_update hk hat rfl rfl rfl (fun _ _ _ he => ⟨he, fun _ => rfl⟩) hok hmoves
          (fun hm => hheap hm d) hrest (.inl rfl) (.inr ⟨0, false, rfl, rfl, rfl, by grind, by grind⟩)
          (.inl rfl) (.inl rfl) (.inl rfl) nofun
      · cases hs
        exact .of_same hk hat rfl rfl rfl (fun e he => hat.rest e (hrest e he)) (.inl rfl) (.inl rfl)
          (.inl rfl) nofun nofun nofun
  | setMode d ev rest mode =>
    have hwon := hat.won d 0 false rfl
    cases hs
    obtain ⟨hok, hmoves⟩ := mode_desc (hk.desc d) hwon (eventMode ev (s.desc d).mode mode)
    exact .of_update hk hat rfl rfl rfl (fun _ _ _ he => ⟨he, fun _ => rfl⟩) hok hmoves
      (fun hm => hheap hm d) (fun _ he => he) (.inl rfl) (.inr ⟨0, false, rfl, hwon⟩) (.inl rfl)
      (.inl rfl) (.inl rfl) nofun
  | lock d rest mode =>
    have hwon := hat.won d 0 false rfl
    simp only [pollerStep] at hs
    split at hs
    · rename_i hfree
      cases hs
      obtain ⟨hrank, hwakes, -⟩ := (hk.desc d).winner hwon
      have hpc := (hk.desc d).sleeps hrank (by rw [hfree]; nofun) hwakes
      obtain ⟨hok, hmoves⟩ := lock_desc (t := .poller i) (hk.desc d) hrank hfree nofun
      exact .of_update hk hat rfl rfl rfl (fun _ _ _ he => ⟨he, fun _ => rfl⟩) hok hmoves
        (fun hm => hheap hm d) (fun _ he => he) (.inr ⟨rfl, rfl⟩) (.inr ⟨0, false, rfl, hwon⟩)
        (.inr ⟨rfl, hpc⟩) (.inl rfl) (.inl rfl) nofun
    · cases hs
  | remPut d rest mode =>
    have hwon := hat.won d 0 false rfl
    have hpc := hat.ends d rfl
    have hlock := hat.holds d rfl
    cases hs
    obtain ⟨hok, hmoves⟩ := remPut_desc (hk.desc d) hwon hpc
    exact .of_update hk hat rfl rfl rfl (fun _ _ _ he => ⟨he, fun _ => rfl⟩) hok hmoves
      (fun hm => hheap hm d) (fun _ he => he) (.inr ⟨rfl, hlock⟩) (.inr ⟨1, false, rfl, hwon.put⟩)
      (.inr ⟨rfl, hpc⟩) (.inl rfl) (.inl rfl) nofun
  | remNum d rest mode =>
    cases hs
    exact .of_same hk hat rfl rfl rfl hat.rest (.inr rfl) (.inr rfl) (.inr rfl) nofun nofun nofun
  | remCtl d rest mode =>
    have hwon := hat.won d 1 false rfl
    have hpc := hat.ends d rfl
    have hlock := hat.holds d rfl
    cases hs
    obtain ⟨hok, hmoves⟩ := removed_desc (hk.desc d) hwon
    exact .of_update hk hat rfl rfl rfl (fun _ _ _ he => ctlDel_epoll hk he) hok hmoves
      (fun hm => hheap hm d) (fun _ he => he) (.inr ⟨rfl, hlock⟩) (.inr ⟨1, true, rfl, hwon.removes⟩)
      (.inr ⟨rfl, hpc⟩) (.inl rfl) (.inl rfl) nofun
  | unlock d rest mode =>
    have hwon := hat.won d 1 true rfl
    have hpc := hat.ends d rfl
    cases hs
    obtain ⟨hok, hmoves⟩ := unlock_desc (hk.desc d) (hat.holds d rfl) nofun
    exact .of_update hk hat rfl rfl rfl (fun _ _ _ he => ⟨he, fun _ => rfl⟩) hok hmoves
      (fun hm => hheap hm d) (fun _ he => he) (.inl rfl) (.inr ⟨1, true, rfl, hwon⟩) (.inr ⟨rfl, hpc⟩)
      (.inl rfl) (.inl rfl) nofun
  | ready d rest mode =>
    have hwon := hat.won d 1 true rfl
    simp only [pollerStep, vpuReady, Option.map_eq_some_iff, Option.ite_none_right_eq_some,
      Option.some.injEq, Prod.mk.injEq] at hs
    obtain ⟨_, ⟨-, rfl⟩, rfl, rfl⟩ := hs
    obtain ⟨hok, hmoves⟩ := ready_desc (hk.desc d) hwon (hat.ends d rfl)
    exact .of_update hk hat rfl rfl rfl (fun _ _ _ he => ⟨he, fun _ => rfl⟩) hok hmoves
      (fun hm => hheap hm d) (fun _ he => he) (.inl rfl) (.inl rfl) (.inl rfl) (.inl rfl) (.inl rfl) nofun
  | call => cases hs
  | daemon => cases hs
  | scan => cases hs
  | fireLock d => cases hs
  | fireCas d => cases hs
  | fireMode d => cases hs
  | fireRemPut d => cases hs
  | fireRemNum d => cases hs
  | fireRemCtl d => cases hs
  | fireUnlock d succ => cases hs
  | fireReady d => cases hs
  | firePut d => cases hs
  | fireDel d => cases hs

/-- The manager's lock passes between the daemon and nobody. -/
theorem daemon_lock_ok {s : Shared δ n} (hk : Keeps s) (hfree : s.manager = none) :
    StepOk .daemon s { s with manager := some .daemon } (.scan : Pc δ) := by
  have hheap := hk.heap (by rw [hfree]; nofun)
  refine ⟨⟨hk.desc, hk.epoll, fun d => ?_, (fun hm => absurd rfl hm)⟩,
    ⟨nofun, nofun, nofun, nofun, nofun, nofun, fun _ => ⟨rfl, hheap⟩⟩,
    ⟨fun _ => Nat.le_refl _, fun _ _ _ hl => hl, fun _ _ _ _ _ hw => ⟨hw, fun hpc => hpc⟩,
      fun u _ hm => ?_, fun _ h => h⟩⟩
  · rw [← hk.manager d, hfree]
    exact ⟨nofun, nofun⟩
  · exact nomatch hfree.symm.trans hm

theorem daemon_unlock_ok {s : Shared δ n} (hk : Keeps s) (hat : At .daemon .scan s) :
    StepOk .daemon s { s with manager := none } (.daemon : Pc δ) := by
  obtain ⟨hmine, hheap⟩ := hat.manager rfl
  refine ⟨⟨hk.desc, hk.epoll, fun d => ?_, fun _ => hheap⟩,
    ⟨nofun, nofun, nofun, nofun, nofun, nofun, nofun⟩,
    ⟨fun _ => Nat.le_refl _, fun _ _ _ hl => hl, fun _ _ _ _ _ hw => ⟨hw, fun hpc => hpc⟩,
      fun u hu hm => ?_, fun _ h => h⟩⟩
  · rw [← hk.manager d, hmine]
    exact ⟨nofun, nofun⟩
  · exact absurd (Option.some.inj (hmine.symm.trans hm)).symm hu

/-- The daemon works on the deadline it fires, which stays in the heap with its reference. -/
theorem StepOk.of_fire {s s' : Shared δ n} {pc pc' : Pc δ} {d : δ} {x' : Desc δ n} (hk : Keeps s)
    (hat : At .daemon pc s) (hpc : pc.fires = some d) (hpc' : pc'.fires = some d) (hfired : pc.fired = none)
    (hfired' : pc'.fired = none) (hrest : pc'.rest = []) (hdesc : s'.desc = Function.update s.desc d x')
    (hman : s'.manager = s.manager) (hplace : x'.pc = (s.desc d).pc)
    (hepoll : ∀ f e m, s'.epoll f = some (e, m) → s.epoll f = some (e, m) ∧
      (e = d → x'.removed = (s.desc d).removed))
    (hok : DescOk d x') (hmoves : Moves .daemon (s.manager = some .daemon) (s.desc d) x')
    (hin : x'.inHeap = (s.desc d).inHeap) (hputs : x'.timerPuts = (s.desc d).timerPuts)
    (hholds : pc'.holds = none ∨ pc'.holds = some d ∧ x'.lock = some .daemon)
    (hwon : pc'.won = none ∨ ∃ puts removed, pc'.won = some (d, puts, removed) ∧ x'.Won .daemon puts removed)
    (hends : pc'.ends = none ∨ pc'.ends = some d ∧ (s.desc d).pc = .asleep)
    (hran : pc'.ran = none ∨ pc'.ran = some d ∧ x'.done = true) : StepOk .daemon s s' pc' := by
  have hheap := hat.fires d hpc
  obtain ⟨hmine, hall⟩ := hat.manager (Pc.manages_of_fires hpc)
  refine .of_update hk hat hdesc hman hplace hepoll hok hmoves (fun hm => absurd hmine hm) ?_ hholds hwon hends
    (.inr ⟨hpc', hin.trans hheap⟩) hran fun _ => ⟨Pc.manages_of_fires hpc, fun _ => ?_, fun e _ => ?_⟩
  · rw [hrest]
    exact fun e he => absurd he List.not_mem_nil
  · rw [hputs, hall d hheap, hfired, hfired']
  · rw [hfired, hfired']
    exact ⟨(Option.some_ne_none e).symm, (Option.some_ne_none e).symm⟩

theorem daemonStep_ok {s s' : Shared δ n} {pc pc' : Pc δ} {ch : Choice δ} (hk : Keeps s)
    (hat : At .daemon pc s) (hs : daemonStep s pc ch = some (s', pc')) :
    StepOk .daemon s s' pc' := by
  cases pc with
  | daemon =>
    simp only [daemonStep, Option.ite_none_right_eq_some, Option.some.injEq, Prod.mk.injEq] at hs
    obtain ⟨hfree, rfl, rfl⟩ := hs
    exact daemon_lock_ok hk hfree
  | scan =>
    simp only [daemonStep] at hs
    split at hs
    · split at hs
      · rename_i d hin
        cases hs
        refine .of_same hk hat rfl rfl rfl nofun (.inl rfl) (.inl rfl) (.inl rfl) ?_ nofun
          fun _ => ⟨rfl, rfl⟩
        intro e he
        cases he
        exact hin
      · cases hs
    · cases hs
      exact daemon_unlock_ok hk hat
    · cases hs
  | fireLock d =>
    have hin := hat.fires d rfl
    simp only [daemonStep, Option.ite_none_right_eq_some, Option.some.injEq, Prod.mk.injEq] at hs
    obtain ⟨hfree, rfl, rfl⟩ := hs
    have hrank := ((hk.desc d).heap hin).2.1
    obtain ⟨hok, hmoves⟩ := lock_desc (t := .daemon) (hk.desc d) (by omega) hfree nofun
    exact .of_fire hk hat rfl rfl rfl rfl rfl rfl rfl rfl (fun _ _ _ he => ⟨he, fun _ => rfl⟩) hok hmoves
      rfl rfl (.inr ⟨rfl, rfl⟩) (.inl rfl) (.inl rfl) (.inl rfl)
  | fireCas d =>
    have hin := hat.fires d rfl
    have hlock := hat.holds d rfl
    have hrank := ((hk.desc d).heap hin).2.1
    simp only [daemonStep] at hs
    split at hs
    · rename_i hdone
      cases hs
      have hlife := (hk.desc d).life
      have hwakes : (s.desc d).wakes = 0 := by grind -ring -linarith
      have hpc := (hk.desc d).sleeps (by omega) (by rw [hlock]; nofun) hwakes
      obtain ⟨hok, hmoves⟩ := cas_desc (t := .daemon) (hk.desc d) (by omega) hdone
      exact .of_fire hk hat rfl rfl rfl rfl rfl rfl rfl rfl (fun _ _ _ he => ⟨he, fun _ => rfl⟩) hok hmoves
        rfl rfl (.inr ⟨rfl, hlock⟩) (.inr ⟨0, false, rfl, rfl, rfl, by grind, by grind⟩) (.inr ⟨rfl, hpc⟩)
        (.inr ⟨rfl, rfl⟩)
    · rename_i hdone
      cases hs
      refine .of_same hk hat rfl rfl rfl nofun (.inr rfl) (.inr rfl) (.inr rfl) hat.fires ?_
        fun _ => ⟨rfl, rfl⟩
      intro e he
      cases he
      simpa using hdone
  | fireMode d =>
    have hwon := hat.won d 0 false rfl
    cases hs
    obtain ⟨hok, hmoves⟩ := mode_desc (hk.desc d) hwon .none
    exact .of_fire hk hat rfl rfl rfl rfl rfl rfl rfl rfl (fun _ _ _ he => ⟨he, fun _ => rfl⟩) hok hmoves
      rfl rfl (.inr ⟨rfl, hat.holds d rfl⟩) (.inr ⟨0, false, rfl, hwon⟩) (.inr ⟨rfl, hat.ends d rfl⟩)
      (.inr ⟨rfl, hat.ran d rfl⟩)
  | fireRemPut d =>
    have hwon := hat.won d 0 false rfl
    have hpc := hat.ends d rfl
    cases hs
    obtain ⟨hok, hmoves⟩ := remPut_desc (hk.desc d) hwon hpc
    exact .of_fire hk hat rfl rfl rfl rfl rfl rfl rfl rfl (fun _ _ _ he => ⟨he, fun _ => rfl⟩) hok hmoves
      rfl rfl (.inr ⟨rfl, hat.holds d rfl⟩) (.inr ⟨1, false, rfl, hwon.put⟩) (.inr ⟨rfl, hpc⟩)
      (.inr ⟨rfl, hat.ran d rfl⟩)
  | fireRemNum d =>
    cases hs
    exact .of_same hk hat rfl rfl rfl nofun (.inr rfl) (.inr rfl) (.inr rfl) hat.fires hat.ran
      fun _ => ⟨rfl, rfl⟩
  | fireRemCtl d =>
    have hwon := hat.won d 1 false rfl
    cases hs
    obtain ⟨hok, hmoves⟩ := removed_desc (hk.desc d) hwon
    exact .of_fire hk hat rfl rfl rfl rfl rfl rfl rfl rfl (fun _ _ _ he => ctlDel_epoll hk he) hok hmoves
      rfl rfl (.inr ⟨rfl, hat.holds d rfl⟩) (.inr ⟨1, true, rfl, hwon.removes⟩) (.inr ⟨rfl, hat.ends d rfl⟩)
      (.inr ⟨rfl, hat.ran d rfl⟩)
  | fireUnlock d succ =>
    cases hs
    obtain ⟨hok, hmoves⟩ := unlock_desc (hk.desc d) (hat.holds d rfl) nofun
    cases succ with
    | true =>
      exact .of_fire hk hat rfl rfl rfl rfl rfl rfl rfl rfl (fun _ _ _ he => ⟨he, fun _ => rfl⟩) hok hmoves
        rfl rfl (.inl rfl) (.inr ⟨1, true, rfl, hat.won d 1 true rfl⟩) (.inr ⟨rfl, hat.ends d rfl⟩)
        (.inr ⟨rfl, hat.ran d rfl⟩)
    | false =>
      exact .of_fire hk hat rfl rfl rfl rfl rfl rfl rfl rfl (fun _ _ _ he => ⟨he, fun _ => rfl⟩) hok hmoves
        rfl rfl (.inl rfl) (.inl rfl) (.inl rfl) (.inr ⟨rfl, hat.ran d rfl⟩)
  | fireReady d =>
    simp only [daemonStep, vpuReady, Option.map_eq_some_iff, Option.ite_none_right_eq_some,
      Option.some.injEq, Prod.mk.injEq] at hs
    obtain ⟨_, ⟨-, rfl⟩, rfl, rfl⟩ := hs
    obtain ⟨hok, hmoves⟩ := ready_desc (hk.desc d) (hat.won d 1 true rfl) (hat.ends d rfl)
    exact .of_fire hk hat rfl rfl rfl rfl rfl rfl rfl rfl (fun _ _ _ he => ⟨he, fun _ => rfl⟩) hok hmoves
      rfl rfl (.inl rfl) (.inl rfl) (.inl rfl) (.inr ⟨rfl, hat.ran d rfl⟩)
  | firePut d =>
    have hin := hat.fires d rfl
    obtain ⟨hmine, hall⟩ := hat.manager rfl
    have hputs : (s.desc d).timerPuts = 0 := hall d hin
    cases hs
    obtain ⟨hok, hmoves⟩ := timerPut_desc (t := .daemon) (hk.desc d) hmine hin hputs (hat.ran d rfl)
    refine .of_update hk hat rfl rfl rfl (fun _ _ _ he => ⟨he, fun _ => rfl⟩) hok hmoves
      (fun hm => absurd hmine hm) nofun (.inl rfl) (.inl rfl) (.inl rfl) (.inr ⟨rfl, hin⟩) (.inl rfl)
      fun _ => ⟨rfl, fun _ => ?_, ?_⟩
    · simp [hputs, Pc.fired]
    · intro e he
      simp [Pc.fired, Ne.symm he]
  | fireDel d =>
    obtain ⟨hmine, hall⟩ := hat.manager rfl
    have hputs : (s.desc d).timerPuts = 1 := by
      have := hall d (hat.fires d rfl)
      simpa [Pc.fired] using this
    cases hs
    obtain ⟨hok, hmoves⟩ := unheap_desc (t := .daemon) (hk.desc d) hmine hputs
    refine .of_update hk hat rfl rfl rfl (fun _ _ _ he => ⟨he, fun _ => rfl⟩) hok hmoves
      (fun hm => absurd hmine hm) nofun (.inl rfl) (.inl rfl) (.inl rfl) (.inl rfl) (.inl rfl)
      fun _ => ⟨rfl, nofun, ?_⟩
    intro e he
    simp [Pc.fired, Ne.symm he]
  | call => cases hs
  | poll => cases hs
  | cas batch mode => cases hs
  | setMode d ev rest mode => cases hs
  | lock d rest mode => cases hs
  | remPut d rest mode => cases hs
  | remNum d rest mode => cases hs
  | remCtl d rest mode => cases hs
  | unlock d rest mode => cases hs
  | ready d rest mode => cases hs

/-! ### Every run -/

theorem step_ok {t : Party δ n} {s s' : Shared δ n} {pc pc' : Pc δ} {ch : Choice δ} (hk : Keeps s)
    (hat : At t pc s) (hs : step t s pc ch = some (s', pc')) : StepOk t s s' pc' := by
  cases t with
  | call d =>
    simp only [step, Option.map_eq_some_iff, Prod.mk.injEq] at hs
    obtain ⟨s₁, hs, rfl, rfl⟩ := hs
    obtain ⟨hkeeps, hguar⟩ := callStep_ok hk hs
    exact ⟨hkeeps, ⟨nofun, nofun, nofun, nofun, nofun, nofun, nofun⟩, hguar⟩
  | poller i => exact pollerStep_ok hk hat hs
  | daemon => exact daemonStep_ok hk hat hs

theorem modular : Modular (step (δ := δ) (n := n)) (fun _ _ _ _ => True) Keeps At Guar where
  own _ _ _ _ _ _ hk hat _ hs :=
    have h := step_ok hk hat hs
    ⟨h.keeps, h.place, h.guar⟩
  stable _ _ _ _ _ hne _ hat hG := hat.stable hne hG

theorem init_good {s : State δ n} (h : Init s) : s.Good Keeps At := by
  refine ⟨⟨fun d => ?_, fun f d m he => ?_, fun d => ?_, fun _ d hd => ?_⟩, fun t => ?_⟩
  · obtain ⟨hpc, hdone, hlock, hrefcnt, hwait, hheap, hwinner, hremoved, hwakes, hwaiter, hnetpoll,
      htimer, hreleased⟩ := h.desc d
    constructor
    all_goals
      simp only [Desc.gets, hpc, hdone, hlock, hrefcnt, hwait, hheap, hwinner, hremoved, hwakes, hwaiter,
        hnetpoll, htimer, hreleased, CallPc.rank]
      simp
  · rw [h.epoll f] at he
    cases he
  · obtain ⟨hpc, -⟩ := h.desc d
    rw [h.manager, hpc]
    exact ⟨nofun, nofun⟩
  · obtain ⟨-, -, -, -, -, hheap, -⟩ := h.desc d
    exact nomatch hheap.symm.trans hd
  · cases t with
    | call d =>
      rw [h.calls d]
      exact ⟨nofun, nofun, nofun, nofun, nofun, nofun, nofun⟩
    | poller i =>
      rw [h.pollers i]
      exact ⟨nofun, nofun, nofun, nofun, nofun, nofun, nofun⟩
    | daemon =>
      rw [h.daemon]
      exact ⟨nofun, nofun, nofun, nofun, nofun, nofun, nofun⟩

theorem good_reach {ok : State δ n → Party δ n × Choice δ → Prop} {s : State δ n}
    (h : Reach (poolStep step) ok Init s) : s.Good Keeps At :=
  modular.invariant (fun _ _ _ => trivial) (fun _ => init_good) h

end

end Coroc.NetPoll
