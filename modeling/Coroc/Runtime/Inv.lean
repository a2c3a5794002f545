import Coroc.Runtime.Api

/-!
# The invariant of the runtime and what threads may rely on

A coroutine that blocks publishes its wait under a lock, hands the lock to the VPU, and
is woken by whoever claims the wait.  The invariant ties the four together: the status
word, the published wait and how far it has come, the locks, and the queue or field by
which the wait can be found.

* `CoInv`: an unclaimed wait of a coroutine that is not asleep yet is protected by its
  own locks; a claimed one belongs to a coroutine in `WAIT`.
* `ChanInv`: every queued quantum belongs to a wait that is still there, and a receiver
  that nobody has claimed means an empty buffer.
* `GroupInv`, `AsyncInv`, `TimerInv`: the same for the other places to wait at.

`Rely` is what a thread knows the others will not do, `Allowed` what each command needs.
-/

namespace Coroc.Runtime

open Coroc.Program

def Site.quanta : Site → List Quantum
  | chans qs => qs
  | _ => []

/-- The locks under which a wait is published. -/
def Site.locks : Site → List Lock
  | chans qs => qs.map fun q => .chan q.chan
  | group g => [.group g]
  | async => [.async]
  | timer => [.timer]
  | born => []

/-- The `qtag` of a waiter claimed by the quantum `q`. -/
def Quantum.tag (q : Quantum) : Option ChanId := if q.select then some q.chan else none

/-- The quanta of a queue, with the one just removed from it whose tag has not been
    tried yet. -/
def Chan.held (ch : Chan) (dir : Dir) : List Quantum :=
  (ch.inhand.filter fun q => q.dir = dir).toList ++ ch.que dir

/-- A finished wait: closed with nothing moved, or one item moved through `q`. -/
def Co.Outcome (co : Co) (q : Quantum) : Prop :=
  ((co.slots q.idx).close = true ∧ (co.slots q.idx).openAt = true ∧
    (co.slots q.idx).closedAt = true ∧ co.moved = []) ∨
  ((co.slots q.idx).close = false ∧ co.moved = [⟨q.dir, q.chan, (co.slots q.idx).item⟩])

structure SiteOk (k : Coid) (site : Site) : Prop where
  ne : ∀ qs, site = .chans qs → qs ≠ []
  own : ∀ q ∈ site.quanta, q.co = k
  chans : (site.quanta.map Quantum.chan).Nodup
  idx_lt : ∀ q ∈ site.quanta, q.idx < site.quanta.length
  idx_inj : ∀ q ∈ site.quanta, ∀ q' ∈ site.quanta, q.idx = q'.idx → q = q'
  kind : (∀ q ∈ site.quanta, q.select = true) ∨ ∃ q, site.quanta = [q] ∧ q.select = false

/-- An unclaimed wait is out of reach of the others until the coroutine is asleep. -/
def Parked (s : State) (k : Coid) (site : Site) : Prop :=
  (s.status k = .running ∧ ∀ l ∈ site.locks, s.locks l = some (.co k)) ∨
  (s.status k = .saving ∧ ∀ l ∈ site.locks, s.locks l = some (.vpu k)) ∨
  s.status k = .wait

/-- No quantum of the wait has been closed and nothing has been moved. -/
def Co.Untouched (co : Co) (site : Site) : Prop :=
  co.moved = [] ∧ ∀ q ∈ site.quanta, (co.slots q.idx).close = false

def PhaseOk (s : State) (k : Coid) (w : Wait) : Prop :=
  match w.phase with
  | .idle => Parked s k w.site ∧ w.site ≠ .born ∧ (s.cos k).qtag = none ∧
      (s.cos k).Untouched w.site
  | .taken t q => s.status k = .wait ∧ q ∈ w.site.quanta ∧ (s.cos k).qtag = q.tag ∧
      (s.cos k).Untouched w.site ∧ s.locks (.chan q.chan) = some t ∧ t.isThread = true
  | .served _ (some q) => s.status k = .wait ∧ q ∈ w.site.quanta ∧ (s.cos k).qtag = q.tag ∧
      (s.cos k).Outcome q
  | .served _ none => s.status k = .wait ∧ w.site.quanta = [] ∧ (s.cos k).qtag = none
  | .woken q => (s.status k = .ready ∨ s.status k = .running) ∧ q ∈ w.site.quanta ∧
      (s.cos k).qtag = q.tag ∧ (s.cos k).Outcome q

structure CoInv (s : State) (k : Coid) : Prop where
  awake : (s.cos k).wait = none →
    s.status k ≠ .saving ∧ s.status k ≠ .wait ∧ (s.cos k).qtag = none
  site : ∀ w, (s.cos k).wait = some w → SiteOk k w.site
  phase : ∀ w, (s.cos k).wait = some w → PhaseOk s k w

/-- The wait a quantum belongs to: a plain quantum is queued only while unclaimed. -/
def Quantum.In (q : Quantum) (co : Co) : Prop :=
  ∃ w, co.wait = some w ∧ q ∈ w.site.quanta ∧ (q.select = false → w.phase = .idle)

def Co.unclaimed (co : Co) : Prop := ∃ w, co.wait = some w ∧ w.phase = .idle

structure ChanInv (s : State) (c : ChanId) : Prop where
  at_ : ∀ dir, ∀ q ∈ (s.chans c).held dir, q.chan = c ∧ q.dir = dir
  in_ : ∀ dir, ∀ q ∈ (s.chans c).held dir, q.In (s.cos q.co)
  nodup : ∀ dir, ((s.chans c).held dir).Nodup
  hand : ∀ q, (s.chans c).inhand = some q → q.select = true
  locked : (s.chans c).inhand ≠ none ∨ (s.chans c).draining = true →
    ∃ k, s.locks (.chan c) = some (.co k)
  empty : ∀ q ∈ (s.chans c).held .recv, (s.cos q.co).unclaimed →
    (s.chans c).buffer.contents = []
  openAt : ∀ dir, ∀ q ∈ (s.chans c).held dir,
    (s.chans c).close = false ∨ (s.chans c).draining = true →
    ((s.cos q.co).slots q.idx).openAt = true

structure GroupInv (s : State) (g : GroupId) : Prop where
  count : (s.groups g).count = (s.groups g).tasks + (s.groups g).notifying.length +
    if (s.groups g).synced then 0 else 1
  synced : (s.groups g).synced = true → (s.groups g).begun = true
  last : (s.groups g).count ≠ 0 → (s.groups g).last = none ∧ (s.groups g).looked = false
  parent : ∀ p, (s.groups g).parent = some p → (s.groups g).looked = false →
    (s.cos p).wait = some ⟨.group g, .idle⟩

structure AsyncInv (s : State) : Prop where
  nodup : s.requests.Nodup
  wait : ∀ k ∈ s.requests, (s.cos k).wait = some ⟨.async, .idle⟩

/-- The timer coroutine is the registered daemon. -/
def Settled (s : State) : Prop := ∀ k, (s.cos k).role = .timer → s.timers.daemon = some k

structure TimerInv (s : State) : Prop where
  chans : ∀ j < s.timers.heap.size, ∃ c, s.timers.heap.timers j = .chan c
  suspend : s.timers.suspend = true →
    ∃ d, s.timers.daemon = some d ∧ (s.cos d).wait = some ⟨.timer, .idle⟩
  unique : ∀ k k', (s.cos k).role = .timer → (s.cos k').role = .timer → k = k'
  settled : Settled s ∨ ∃ j, s.locks .timer = some (.co j) ∧ (s.cos j).role = .client ∧
    s.timers.daemon = none

structure FreshInv (s : State) (k : Coid) : Prop where
  status : s.fresh ≤ k → s.status k = .unborn
  born : k < s.fresh → s.status k ≠ .unborn
  wait : s.fresh ≤ k → (s.cos k).wait = none
  role : s.fresh ≤ k → (s.cos k).role = .client
  daemon : s.timers.daemon = some k → k < s.fresh

structure Inv (s : State) : Prop where
  co : ∀ k, CoInv s k
  chan : ∀ c, ChanInv s c
  group : ∀ g, GroupInv s g
  async : AsyncInv s
  timer : TimerInv s
  fresh : ∀ k, FreshInv s k

/-! ### Rely -/

/-- `t` has claimed the wait of `d` and has not called `vpu_ready` yet. -/
def State.Claimed (s : State) (t : Tid) (d : Coid) : Prop :=
  ∃ w, (s.cos d).wait = some w ∧ ((∃ q, w.phase = .taken t q) ∨ ∃ o, w.phase = .served t o)

/-- What others leave of a wait: its quanta and the items to send, until it is over; a
    wait outside the channels may be over, and moves nothing. -/
structure Co.Kept (co co' : Co) : Prop where
  late : co'.late = co.late
  none : co.wait = none → co' = co
  some : ∀ w, co.wait = some w →
    (∃ w', co'.wait = some w' ∧ w'.site = w.site ∧
      ∀ q ∈ w.site.quanta, q.dir = .send → (co'.slots q.idx).item = (co.slots q.idx).item) ∨
    (w.site.quanta = [] ∧ co'.wait = Option.none)
  moved : ∀ w, co.wait = Option.some w → w.site.quanta = [] → co'.moved = co.moved

/-- The coroutine has not waited for anything but its first `vpu_ready`. -/
def Co.Newborn (co : Co) : Prop := ∀ w, co.wait = some w → w.site = .born

structure Rely (t : Tid) (s s' : State) : Prop where
  locks : ∀ l, s.locks l = some t ↔ s'.locks l = some t
  chans : ∀ c, s.locks (.chan c) = some t → s'.chans c = s.chans c
  close : ∀ c, (s.chans c).close = true → (s'.chans c).close = true
  parent : ∀ g, s.locks (.group g) = some t →
    (s'.groups g).parent = (s.groups g).parent ∧ (s'.groups g).looked = (s.groups g).looked
  last : ∀ g, (s.groups g).last = some t → (s.groups g).looked = false →
    (s'.groups g).last = some t ∧ (s'.groups g).looked = false
  owner : ∀ g, (s'.groups g).owner = (s.groups g).owner
  begun : ∀ g k, t = .co k → (s.groups g).owner = k →
    (s'.groups g).begun = (s.groups g).begun ∧ (s'.groups g).synced = (s.groups g).synced
  notifying : ∀ g k, t = .co k → k ∈ (s.groups g).notifying → k ∈ (s'.groups g).notifying
  suspend : s.locks .timer = some t → s'.timers.suspend = s.timers.suspend
  daemon : ∀ d, s.timers.daemon = some d → s'.timers.daemon = some d
  settled : s.locks .timer = some t → Settled s → Settled s'
  vacant : s.locks .timer = some t → s.timers.daemon = none → s'.timers.daemon = none
  size : s.locks .timer = some t → s'.timers.heap.size = s.timers.heap.size
  fresh : s.fresh ≤ s'.fresh
  role : ∀ k, k < s.fresh → (s'.cos k).role = (s.cos k).role
  self : ∀ k, t = .co k → k < s.fresh → s.status k ≠ .wait → s.status k ≠ .saving →
    s'.cos k = s.cos k ∧ s'.status k ≠ .wait ∧ s'.status k ≠ .saving
  kept : ∀ k, t = .co k → k < s.fresh → (s.cos k).Kept (s'.cos k)
  newborn : ∀ k, t = .co k → s.fresh ≤ k → (s.cos k).Newborn →
    (s'.cos k).moved = (s.cos k).moved ∧ (s'.cos k).Newborn
  claims : ∀ d, s.Claimed t d ∨ s'.Claimed t d → s'.cos d = s.cos d

/-! ### Allowed commands -/

/-- `k` holds the lock of `c`, is in no wait, and has no removed quantum at hand. -/
structure InSection (s : State) (k : Coid) (c : ChanId) : Prop where
  lock : s.locks (.chan c) = some (.co k)
  wait : (s.cos k).wait = none
  hand : (s.chans c).inhand = none

/-- The claim `k` has on the waiter behind `q`. -/
structure Holds (s : State) (k : Coid) (q : Quantum) : Prop where
  wait : (s.cos k).wait = none
  taken : ∃ site, (s.cos q.co).wait = some ⟨site, .taken (.co k) q⟩

def recvXfers (c : ChanId) : Option Item → List Xfer
  | some y => [⟨.recv, c, y⟩]
  | none => []

/-- What a returned call says about the items it moved. -/
def Record.Ok (r : Record) : Prop :=
  match r.entry with
  | .send c x _ ret =>
    ((ret = .success ∨ ret = .awaken) ∧ r.xfers = [⟨.send, c, x⟩]) ∨
    ((ret = .busy ∨ ret = .closed) ∧ r.xfers = [] ∧ (r.late = true → ret = .closed))
  | .recv c _ ret got => r.xfers = recvXfers c got ∧
    ((ret = .success ∨ ret = .awaken) ∧ got.isSome ∨ (ret = .busy ∨ ret = .closed) ∧ got = none)
  | .select cases block ret active during got =>
    (cases = [] ∧ ret = .invalid ∧ active = none ∧ r.xfers = [] ∧ got = none) ∨
    (ret = .success ∧ ∃ e ∈ cases, active = some e.chan ∧ ∃ y, (e.dir = .send → y = e.item) ∧
      r.xfers = [⟨e.dir, e.chan, y⟩] ∧ got = e.dir.got y) ∨
    (block = true ∧ ret = .closed ∧ during = true ∧ r.xfers = [] ∧ got = none ∧
      ∃ e ∈ cases, active = some e.chan) ∨
    (block = false ∧ (ret = .busy ∨ ret = .closed) ∧ active = none ∧ r.xfers = [] ∧ got = none)
  | .close _ ret => (ret = .success ∨ ret = .closed) ∧ r.xfers = []

def AllowedLock (t : Tid) (s : State) : LockCmd → Prop
  | .acquire _ => True
  | .release l => s.locks l = some t ∧
      (∀ k, t = .co k → (s.cos k).wait = none) ∧
      (∀ c, l = .chan c → (s.chans c).inhand = none ∧ (s.chans c).draining = false ∧
        ∀ d, ¬ s.Claimed t d) ∧
      (l = .timer → Settled s)

def AllowedCo (t : Tid) (s : State) : CoCmd → Prop
  | .suspend ls => ∃ k site, t = .co k ∧ (s.cos k).wait = some ⟨site, .idle⟩ ∧
      (∀ l ∈ site.locks, l ∈ ls) ∧
      (∀ l ∈ ls, s.locks l = some t) ∧
      (∀ c, .chan c ∈ ls → (s.chans c).inhand = none ∧ (s.chans c).draining = false) ∧
      (∀ d, ¬ s.Claimed t d) ∧
      (.timer ∈ ls → Settled s)
  | .ready d => ∃ site o, (s.cos d).wait = some ⟨site, .served t o⟩
  | .preempts _ => True
  | .yield => ∃ k, t = .co k ∧ (s.cos k).wait = none
  | .allocate _ role => (∃ k, t = .co k ∧ (s.cos k).role = .client) ∧
      (role = .timer → s.locks .timer = some t ∧ s.timers.daemon = none ∧ Settled s)

def AllowedChan (t : Tid) (s : State) : ChanCmd → Prop
  | .begin _ => ∃ k, t = .co k ∧ (s.cos k).wait = none
  | .queueRem c _ => ∃ k, t = .co k ∧ InSection s k c
  | .casTag q => ∃ k, t = .co k ∧ s.locks (.chan q.chan) = some t ∧ (s.cos k).wait = none ∧
      (s.chans q.chan).inhand = some q
  | .copyTo q _ => ∃ k, t = .co k ∧ (s.cos k).moved = [] ∧ Holds s k q ∧ q.dir = .recv ∧
      (s.chans q.chan).buffer.contents = [] ∧ (s.chans q.chan).draining = false
  | .copyFrom q => ∃ k, t = .co k ∧ (s.cos k).moved = [] ∧ Holds s k q ∧ q.dir = .send ∧
      (s.chans q.chan).buffer.contents = [] ∧ (s.chans q.chan).draining = false
  | .markClosed q => ∃ k, t = .co k ∧ Holds s k q ∧
      ((s.cos q.co).slots q.idx).openAt = true ∧ (s.chans q.chan).close = true ∧
      (s.chans q.chan).draining = true
  | .readClose _ => True
  | .setClose c => ∃ k, t = .co k ∧ InSection s k c ∧ (s.chans c).close = false ∧
      ∀ d, ¬ s.Claimed t d
  | .readIsref c => ∃ k, t = .co k ∧ InSection s k c ∧ (∀ dir, (s.chans c).que dir = []) ∧
      ∀ d, ¬ s.Claimed t d
  | .cleanBuff c => ∃ k, t = .co k ∧ InSection s k c ∧ (∀ dir, (s.chans c).que dir = []) ∧
      (s.chans c).isref = true
  | .copyToBuff c _ => ∃ k, t = .co k ∧ (s.cos k).moved = [] ∧ InSection s k c ∧
      (s.chans c).que .recv = [] ∧ (s.chans c).close = false ∧ (s.chans c).draining = false
  | .copyFromBuff c => ∃ k, t = .co k ∧ (s.cos k).moved = [] ∧ InSection s k c
  | .queueAdd q _ => ∃ k, t = .co k ∧ q.co = k ∧ s.locks (.chan q.chan) = some t ∧
      (s.cos k).moved = [] ∧ (s.cos k).qtag = none ∧
      (s.chans q.chan).inhand = none ∧ (s.chans q.chan).draining = false ∧
      ((s.cos k).wait = none ∧ q.idx = 0 ∨
        ∃ qs, (s.cos k).wait = some ⟨.chans qs, .idle⟩ ∧ q.idx = qs.length ∧
          q.chan ∉ qs.map Quantum.chan ∧ q.select = true ∧ ∀ q' ∈ qs, q'.select = true) ∧
      (q.select = false → (s.chans q.chan).close = false) ∧
      match q.dir with
      | .send => (s.chans q.chan).que .recv = [] ∧
          ((s.chans q.chan).close = true ∨ (s.chans q.chan).buffer.full = true)
      | .recv => (s.chans q.chan).que .send = [] ∧ (s.chans q.chan).buffer.contents = []
  | .readQuantum q => ∃ k qs q', t = .co k ∧ (s.cos k).wait = some ⟨.chans qs, .woken q'⟩ ∧
      q ∈ qs ∧ s.locks (.chan q.chan) = some t
  | .readTag => ∃ k, t = .co k
  | .clearTag => ∃ k, t = .co k ∧ ((s.cos k).wait = none ∨
      ∃ qs q', (s.cos k).wait = some ⟨.chans qs, .woken q'⟩ ∧
        ∀ q ∈ qs, s.locks (.chan q.chan) = some t ∧ (s.chans q.chan).inhand = none ∧
          q ∉ (s.chans q.chan).que q.dir)
  | .queueExtract q => ∃ k qs q', t = .co k ∧ (s.cos k).wait = some ⟨.chans qs, .woken q'⟩ ∧
      q ∈ qs ∧ s.locks (.chan q.chan) = some t
  | .record e => ∃ k, t = .co k ∧ (s.cos k).wait = none ∧
      Record.Ok ⟨e, (s.cos k).late, (s.cos k).moved⟩ ∧
      ∀ c x block ret, e = .send c x block ret → s.locks (.chan c) ≠ some t

def AllowedGroup (t : Tid) (s : State) : GroupCmd → Prop
  | .inc g => ∃ k, t = .co k ∧ (s.groups g).owner = k ∧ (s.groups g).synced = false
  | .dec g .notify => ∃ k, t = .co k ∧ k ∈ (s.groups g).notifying
  | .dec g .sync => ∃ k, t = .co k ∧ (s.groups g).owner = k ∧ (s.groups g).begun = true ∧
      (s.groups g).synced = false
  | .readParent g => s.locks (.group g) = some t ∧ (s.groups g).last = some t ∧
      (s.groups g).looked = false ∧ ∃ k, t = .co k ∧ (s.cos k).wait = none
  | .setParent g => ∃ k, t = .co k ∧ s.locks (.group g) = some t ∧
      (s.groups g).looked = false ∧ (s.groups g).owner = k ∧ (s.cos k).wait = none ∧
      (s.cos k).moved = []
  | .incErrors _ | .readCount _ | .readErrors _ => True

def AllowedAsync (t : Tid) (s : State) : AsyncCmd → Prop
  | .readThreads | .readStatus => True
  | .queueAdd => ∃ k, t = .co k ∧ s.locks .async = some t ∧ (s.cos k).wait = none ∧
      (s.cos k).moved = []
  | .queueRem => s.locks .async = some t ∧ ∃ a, t = .async a

def AllowedTimer (t : Tid) (s : State) : TimerCmd → Prop
  | .insert tm => s.locks .timer = some t ∧ ∃ c, tm = .chan c
  | .delete _ | .fireRoot _ => s.locks .timer = some t
  | .setDaemon d => s.locks .timer = some t ∧ s.timers.daemon = none ∧
      (s.cos d).role = .timer ∧ d < s.fresh
  | .setSuspend => ∃ k, t = .co k ∧ s.locks .timer = some t ∧ s.timers.daemon = some k ∧
      (s.cos k).wait = none ∧ (s.cos k).moved = []
  | .clearSuspend => s.locks .timer = some t ∧ s.timers.suspend = true ∧
      ∃ k, t = .co k ∧ (s.cos k).wait = none
  | .getMicrotime | .setWhen _ _ | .readSize | .readRoot | .readDaemon | .readSuspend
  | .readNotify => True

def Allowed (t : Tid) (c : Cmd) (s : State) : Prop :=
  match c with
  | .lock c => AllowedLock t s c
  | .co c => AllowedCo t s c
  | .chan c => AllowedChan t s c
  | .group c => AllowedGroup t s c
  | .async c => AllowedAsync t s c
  | .timer c => AllowedTimer t s c
  | .net _ => False

end Coroc.Runtime
