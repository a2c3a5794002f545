import Mathlib.Data.Fintype.Sum
import Mathlib.Data.Int.ModEq
import Mathlib.Algebra.Order.BigOperators.Group.Finset
import Mathlib.Tactic.Linarith
import Coroc.ThreadPool

/-!
# Idle VPUs and the wake-up of one (`src/vpu.c`: `core_sched`, `core_wait`, `core_yield`,
`vpu_ready`, `vpu_wakeup_one`)

A VPU that finds nothing to run goes to sleep on a condition variable, and whoever
makes a coroutine ready wakes a VPU.  The counters that both sides look at are not
updated together with the queues, so they are off by the threads that are in between.

The run queues are the sets of queued coroutines here: taking one out may fail at any
time, as a steal or a `lock_try_acquire` may.  A coroutine's `Status` says who has it
while it is in nobody's queue.  Threads are the VPUs and, on the right, those that are
none: async threads and the clock thread, which only call `vpu_ready`.  What a running
coroutine does is left open: it may create another one, ready any waiting one, suspend,
yield, exit.  The coroutines `κ` are all those of the run, those that come to be created
included; nothing bounds their number but what `Fits` asks for at a time.

Every access to a counter is a step of its own.  `alive` and `idle` are 16 bits wide,
`total_ready`, `total_iowait` and `ready[]` 32, and all of them wrap.
-/

namespace Coroc.Sched

open Coroc.Transition Coroc.ThreadPool

abbrev Thread (n m : Nat) := Fin n ⊕ Fin m

inductive Status (n m : Nat) where
  | unborn
  | wait
  | linking (t : Thread n m)     -- set READY by `vpu_ready`, not yet in a queue
  | queued
  | elected (t : Thread n m)     -- taken out of a queue by a VPU
  | running (t : Thread n m)
  | exited
deriving DecidableEq

/-- The thread that has a coroutine. -/
def Status.owner {n m : Nat} : Status n m → Option (Thread n m)
  | .linking t | .elected t | .running t => some t
  | .unborn | .wait | .queued | .exited => none

/-- Created and not exited: the coroutine has a stack. -/
def Status.present {n m : Nat} : Status n m → Bool
  | .unborn | .exited => false
  | .wait | .linking _ | .queued | .elected _ | .running _ => true

structure Shared (κ : Type) (n m P : Nat) where
  status : κ → Status n m
  asyncWait : κ → Bool
  totalReady : UInt32
  ready : Fin P → UInt32
  totalIowait : UInt32
  alive : UInt16
  idle : UInt16
  mutex : Option (Thread n m)
  blocked : Fin n → Bool         -- the waiters of `cond` that have not been woken

/-- Where `vpu_ready` returns to. -/
inductive Back (κ : Type) (P : Nat) where
  | outside                              -- a thread that is no VPU
  | coroutine (c : κ)
  | poll (loops : Nat) (prio : Fin P)    -- `__coroc_netpoll_polling(0)`
  | longPoll                             -- `__coroc_netpoll_polling(timeout)`

inductive Pc (κ : Type) (P : Nat) where
  | outside
  | running (c : κ)
  -- `vpu_ready(d, preempt)`
  | readyPut (k : Back κ P) (d : κ) (preempt : Bool)
  | readyTotal (k : Back κ P) (d : κ) (preempt : Bool)
  | readyPrio (k : Back κ P) (d : κ) (preempt : Bool)
  | readyIowait (k : Back κ P) (d : κ) (preempt : Bool)
  | readyDecide (k : Back κ P) (d : κ) (preempt : Bool)
  -- `vpu_wakeup_one`
  | wakeLock (k : Back κ P)
  | wakeTest (k : Back κ P)
  | wakeIdle (k : Back κ P)
  | wakeReady (k : Back κ P)
  | wakeSignal (k : Back κ P)
  | wakeUnlock (k : Back κ P)
  -- `core_wait`
  | waitStatus (c : κ)
  | waitIowait (c : κ)
  -- `core_yield`
  | yieldPut (c : κ)
  | yieldPrio (c : κ)
  | yieldTotal
  -- `core_sched`: looking for a coroutine
  | schedEnter
  | schedLoop (loops prio : Nat)
  | schedGet (loops : Nat) (prio : Fin P)
  | schedPoll (loops : Nat) (prio : Fin P)
  | schedElect (loops : Nat) (prio : Fin P)
  | schedIdle (c : κ)
  | schedTotal (c : κ)
  | schedPrio (c : κ)
  | schedRun (c : κ)
  | schedCount (loops : Nat)
  -- `core_sched`: nothing found; `last`: the second disjunct of the test held
  | sleepLock
  | sleepAlive
  | sleepTest
  | sleepReady
  | sleepIowait
  | sleepIdle (last : Bool)
  | sleepWait (last : Bool)
  | waiting
  | wokenIdle
  | sleepAgain
  | pollSize
  | pollAlive
  | pollUnlock
  | polling
  | pollTest
  | aliveUp
  | sleepUnlock
  | backtrace

inductive Choice (κ : Type) (n : Nat) where
  | go
  | create (d : κ)
  | ready (d : κ) (preempt : Bool)
  | suspend (async : Bool)
  | yield
  | exit
  | take (c : κ)
  | wake (ws : List (Fin n))
  | answer (b : Bool)      -- of `__coroc_netpoll_polling`, `__coroc_netpoll_size() > 0`
  | spurious

section
variable {κ : Type} [DecidableEq κ] {n m P : Nat} (priority : κ → Fin P)

def Shared.setStatus (s : Shared κ n m P) (c : κ) (st : Status n m) : Shared κ n m P :=
  { s with status := Function.update s.status c st }

def Back.pc : Back κ P → Pc κ P
  | .outside => .outside
  | .coroutine c => .running c
  | .poll loops prio => .schedPoll loops prio
  | .longPoll => .polling

/-- The entry of `vpu_ready`: its assertion, and the status. -/
def vpuReady (t : Thread n m) (s : Shared κ n m P) (k : Back κ P) (d : κ) (preempt : Bool) :
    Option (Shared κ n m P × Pc κ P) :=
  if s.status d = .wait then some (s.setStatus d (.linking t), .readyPut k d preempt) else none

/-- `coroc_coroutine_yield` instead of `vpu_wakeup_one`. -/
def preempts (s : Shared κ n m P) (d : κ) (preempt : Bool) : Back κ P → Option κ
  | .coroutine c =>
      if preempt = true ∧ priority c > priority d ∧ s.alive.toNat = n then some c else none
  | _ => none

/-- Take a coroutine of the given priority out of some queue. -/
def takeQueued (t : Thread n m) (s : Shared κ n m P) (prio : Fin P) (c : κ) :
    Option (Shared κ n m P × Pc κ P) :=
  if s.status c = .queued ∧ priority c = prio then
    some (s.setStatus c (.elected t), .schedIdle c)
  else none

def step (t : Thread n m) (s : Shared κ n m P) (pc : Pc κ P) (ch : Choice κ n) :
    Option (Shared κ n m P × Pc κ P) :=
  match pc with
  | .outside =>
      match ch with
      | .ready d preempt => vpuReady t s .outside d preempt
      | _ => none
  | .running c =>
      match ch with
      -- `coroc_coroutine_allocate`, up to its call of `vpu_ready`
      | .create d =>
          if s.status d = .unborn then
            some ({ s.setStatus d .wait with asyncWait := Function.update s.asyncWait d false },
              .running c)
          else none
      | .ready d preempt => vpuReady t s (.coroutine c) d preempt
      | .suspend async =>
          some ({ s with asyncWait := Function.update s.asyncWait c async }, .waitStatus c)
      | .yield => some (s, .yieldPut c)
      | .exit => some (s.setStatus c .exited, .schedEnter)
      | _ => none
  | .readyPut k d preempt => some (s.setStatus d .queued, .readyTotal k d preempt)
  | .readyTotal k d preempt =>
      some ({ s with totalReady := s.totalReady + 1 }, .readyPrio k d preempt)
  | .readyPrio k d preempt =>
      some ({ s with ready := Function.update s.ready (priority d) (s.ready (priority d) + 1) },
        .readyIowait k d preempt)
  | .readyIowait k d preempt =>
      if s.asyncWait d then
        some ({ s with totalIowait := s.totalIowait - 1 }, .readyDecide k d preempt)
      else some (s, .readyDecide k d preempt)
  | .readyDecide k d preempt =>
      match preempts priority s d preempt k with
      | some c => some (s, .yieldPut c)
      | none => some (s, .wakeLock k)
  | .wakeLock k => if s.mutex = none then some ({ s with mutex := some t }, .wakeTest k) else none
  | .wakeTest k =>
      if s.alive = 0 then some (s, .wakeSignal k)
      else if s.alive.toNat < n then some (s, .wakeIdle k)
      else some (s, .wakeUnlock k)
  | .wakeIdle k => if s.idle = 0 then some (s, .wakeReady k) else some (s, .wakeUnlock k)
  | .wakeReady k =>
      -- `WAKEUP_THRESHOLD`
      if s.totalReady.toNat > 2 * s.alive.toNat then some (s, .wakeSignal k)
      else some (s, .wakeUnlock k)
  | .wakeSignal k =>
      match ch with
      | .wake ws =>
          -- a signal wakes at least one of the waiters, if there are any
          if (∀ v, s.blocked v = false) ∨ ∃ w ∈ ws, s.blocked w = true then
            some ({ s with blocked := fun v => s.blocked v && !decide (v ∈ ws) }, .wakeUnlock k)
          else none
      | _ => none
  | .wakeUnlock k => some ({ s with mutex := none }, k.pc)
  | .waitStatus c => some (s.setStatus c .wait, .waitIowait c)
  | .waitIowait c =>
      if s.asyncWait c then some ({ s with totalIowait := s.totalIowait + 1 }, .schedEnter)
      else some (s, .schedEnter)
  | .yieldPut c => some (s.setStatus c .queued, .yieldPrio c)
  | .yieldPrio c =>
      some ({ s with ready := Function.update s.ready (priority c) (s.ready (priority c) + 1) },
        .yieldTotal)
  | .yieldTotal => some ({ s with totalReady := s.totalReady + 1 }, .schedEnter)
  | .schedEnter => some ({ s with idle := s.idle + 1 }, .schedLoop 0 0)
  | .schedLoop loops prio =>
      if h : prio < P then
        if s.ready ⟨prio, h⟩ = 0 then some (s, .schedLoop loops (prio + 1))
        else some (s, .schedGet loops ⟨prio, h⟩)
      else some (s, .schedCount loops)
  | .schedGet loops prio =>
      match ch with
      | .take c => takeQueued priority t s prio c
      | .go => some (s, .schedPoll loops prio)
      | _ => none
  | .schedPoll loops prio =>
      match ch with
      | .ready d _ => vpuReady t s (.poll loops prio) d false
      | .go => some (s, .schedElect loops prio)
      | _ => none
  | .schedElect loops prio =>
      match ch with
      | .take c => takeQueued priority t s prio c
      | .go => some (s, .schedLoop loops (prio + 1))
      | _ => none
  | .schedIdle c => some ({ s with idle := s.idle - 1 }, .schedTotal c)
  | .schedTotal c => some ({ s with totalReady := s.totalReady - 1 }, .schedPrio c)
  | .schedPrio c =>
      some ({ s with ready := Function.update s.ready (priority c) (s.ready (priority c) - 1) },
        .schedRun c)
  | .schedRun c =>
      some ({ s.setStatus c (.running t) with asyncWait := Function.update s.asyncWait c false },
        .running c)
  | .schedCount loops =>
      -- `++idle_loops > MAX_SPIN_LOOP_NUM`
      if loops + 1 > 1 then some (s, .sleepLock) else some (s, .schedLoop (loops + 1) 0)
  | .sleepLock => if s.mutex = none then some ({ s with mutex := some t }, .sleepAlive) else none
  | .sleepAlive => some ({ s with alive := s.alive - 1 }, .sleepTest)
  | .sleepTest => if s.alive > 0 then some (s, .sleepIdle false) else some (s, .sleepReady)
  | .sleepReady => if s.totalReady = 0 then some (s, .sleepIowait) else some (s, .sleepAgain)
  | .sleepIowait => if s.totalIowait > 0 then some (s, .sleepIdle true) else some (s, .sleepAgain)
  | .sleepIdle last => some ({ s with idle := s.idle - 1 }, .sleepWait last)
  | .sleepWait _ =>
      match t with
      | .inl v =>
          some ({ s with mutex := none, blocked := Function.update s.blocked v true }, .waiting)
      | .inr _ => none
  | .waiting =>
      match t, ch with
      | .inl v, .go =>
          if s.blocked v = false ∧ s.mutex = none then
            some ({ s with mutex := some t }, .wokenIdle)
          else none
      | .inl v, .spurious => some ({ s with blocked := Function.update s.blocked v false }, .waiting)
      | _, _ => none
  | .wokenIdle => some ({ s with idle := s.idle + 1 }, .aliveUp)
  | .sleepAgain => if s.totalReady = 0 then some (s, .pollSize) else some (s, .aliveUp)
  | .pollSize =>
      match ch with
      | .answer true => some (s, .pollAlive)
      | .answer false => some (s, .backtrace)
      | _ => none
  | .pollAlive => some ({ s with alive := s.alive + 1 }, .pollUnlock)
  | .pollUnlock => some ({ s with mutex := none }, .polling)
  | .polling =>
      match ch with
      | .ready d _ => vpuReady t s .longPoll d false
      | .answer true => some (s, .schedLoop 0 0)
      | .answer false => some (s, .pollTest)
      | _ => none
  | .pollTest => if s.totalReady = 0 then some (s, .polling) else some (s, .schedLoop 0 0)
  | .aliveUp => some ({ s with alive := s.alive + 1 }, .sleepUnlock)
  | .sleepUnlock => some ({ s with mutex := none }, .schedLoop 0 0)
  -- runs that enter `vpu_backtrace` are not followed
  | .backtrace => none

abbrev State (κ : Type) (n m P : Nat) := Pool (Thread n m) (Shared κ n m P) (Pc κ P)

/-- Nothing is ready, all VPUs enter `core_sched`. -/
def Init (s : State κ n m P) : Prop :=
  (∀ c, s.shared.status c = .unborn ∨ s.shared.status c = .wait) ∧ s.shared.totalReady = 0 ∧
    s.shared.alive = UInt16.ofNat n ∧
  s.shared.mutex = none ∧ (∀ v, s.shared.blocked v = false) ∧
  (∀ v, s.locals (.inl v) = .schedEnter) ∧ ∀ x, s.locals (.inr x) = .outside

/-! ### Places of a thread -/

def Back.external : Back κ P → Bool
  | .outside => true
  | _ => false

/-- Places of threads that are no VPU. -/
def Pc.external : Pc κ P → Bool
  | .outside => true
  | .readyPut k _ _ | .readyTotal k _ _ | .readyPrio k _ _ | .readyIowait k _ _
  | .readyDecide k _ _ | .wakeLock k | .wakeTest k | .wakeIdle k | .wakeReady k | .wakeSignal k
  | .wakeUnlock k => k.external
  | _ => false

/-- Places between `alive--` and `alive++`. -/
def Pc.down : Pc κ P → Bool
  | .sleepTest | .sleepReady | .sleepIowait | .sleepIdle _ | .sleepWait _ | .waiting | .wokenIdle
  | .sleepAgain | .pollSize | .pollAlive | .aliveUp | .backtrace => true
  | _ => false

/-- Places that hold `vpu_manager.lock`. -/
def Pc.locked : Pc κ P → Bool
  | .wakeTest _ | .wakeIdle _ | .wakeReady _ | .wakeSignal _ | .wakeUnlock _ | .sleepAlive
  | .sleepTest | .sleepReady | .sleepIowait | .sleepIdle _ | .sleepWait _ | .wokenIdle | .sleepAgain
  | .pollSize | .pollAlive | .pollUnlock | .aliveUp | .sleepUnlock | .backtrace => true
  | _ => false

/-- A VPU counted in `alive`. -/
def Pc.up (pc : Pc κ P) : Int := if pc.external || pc.down then 0 else 1

/-- What `total_ready` lacks because of a thread between a queue and the counter. -/
def Pc.debt : Pc κ P → Int
  | .readyTotal _ _ _ | .yieldPrio _ | .yieldTotal => 1
  | .schedIdle _ | .schedTotal _ => -1
  | _ => 0

/-- A `vpu_ready` that has enqueued its coroutine and has not been through
    `vpu_wakeup_one`. -/
def Pc.owes : Pc κ P → Int
  | .readyTotal _ _ _ | .readyPrio _ _ _ | .readyIowait _ _ _ | .readyDecide _ _ _ | .wakeLock _
  | .wakeTest _ | .wakeSignal _ => 1
  | _ => 0

variable {priority} [Fintype κ]

/-- The number of coroutines in the run queues. -/
def Shared.queued (s : Shared κ n m P) : Int :=
  ∑ c, if s.status c = .queued then (1 : Int) else 0

/-- The number of coroutines that exist. -/
def Shared.existing (s : Shared κ n m P) : Int :=
  ∑ c, if (s.status c).present = true then (1 : Int) else 0

omit [DecidableEq κ] in
theorem queued_le_existing (s : Shared κ n m P) : s.queued ≤ s.existing := by
  apply Finset.sum_le_sum
  intro c _
  split
  · rename_i hq
    rw [hq]
    exact le_refl _
  · split <;> decide

/-- `total_ready` can count the coroutines there are. -/
def Fits (s : State κ n m P) (_ : Thread n m × Choice κ n) : Prop := s.shared.existing < 2 ^ 32

instance (s : State κ n m P) (l : Thread n m × Choice κ n) : Decidable (Fits s l) :=
  inferInstanceAs (Decidable (s.shared.existing < 2 ^ 32))

def Back.At (k : Back κ P) (t : Thread n m) (s : Shared κ n m P) : Prop :=
  match k with
  | .coroutine c => s.status c = .running t
  | _ => True

/-- The coroutines a thread has at each of its places. -/
def Has (t : Thread n m) (pc : Pc κ P) (s : Shared κ n m P) : Prop :=
  match pc with
  | .running c | .waitStatus c | .yieldPut c => s.status c = .running t
  | .readyPut k d _ => s.status d = .linking t ∧ k.At t s
  | .readyTotal k _ _ | .readyPrio k _ _ | .readyIowait k _ _ | .readyDecide k _ _ | .wakeLock k
  | .wakeTest k | .wakeIdle k | .wakeReady k | .wakeSignal k | .wakeUnlock k => k.At t s
  | .schedIdle c | .schedTotal c | .schedPrio c | .schedRun c => s.status c = .elected t
  | _ => True

structure At (t : Thread n m) (pc : Pc κ P) (s : Shared κ n m P) : Prop where
  kind : pc.external = t.isRight
  mutex : pc.locked = true → s.mutex = some t
  has : Has t pc s

/-- What a step of thread `t` leaves alone. -/
structure Guar (t : Thread n m) (s s' : Shared κ n m P) : Prop where
  status : ∀ c u, u ≠ t → (s.status c).owner = some u → s'.status c = s.status c
  mutex : ∀ u, u ≠ t → s.mutex = some u → s'.mutex = some u

omit [Fintype κ] [DecidableEq κ] in
theorem Back.At.stable {k : Back κ P} {t u : Thread n m} {s s' : Shared κ n m P} (hne : t ≠ u)
    (hG : Guar t s s') (h : k.At u s) : k.At u s' := by
  cases k with
  | coroutine c => exact (hG.status c u (Ne.symm hne) (by rw [h]; rfl)).trans h
  | outside | poll | longPoll => trivial

omit [Fintype κ] [DecidableEq κ] in
theorem At.stable {t u : Thread n m} {pc : Pc κ P} {s s' : Shared κ n m P} (hne : t ≠ u)
    (h : At u pc s) (hG : Guar t s s') : At u pc s' := by
  have hkeep : ∀ {c st}, s.status c = st → st.owner = some u → s'.status c = st :=
    fun hst ho => (hG.status _ u (Ne.symm hne) (hst ▸ ho)).trans hst
  refine ⟨h.kind, fun hl => hG.mutex u (Ne.symm hne) (h.mutex hl), ?_⟩
  have hhas := h.has
  cases pc <;> simp only [Has] at hhas ⊢
  case running c | waitStatus c | yieldPut c => exact hkeep hhas rfl
  case schedIdle c | schedTotal c | schedPrio c | schedRun c => exact hkeep hhas rfl
  case readyPut k d b => exact ⟨hkeep hhas.1 rfl, hhas.2.stable hne hG⟩
  all_goals exact hhas.stable hne hG

/-! ### One step of one thread -/

structure StepOk (t : Thread n m) (s : Shared κ n m P) (pc : Pc κ P) (s' : Shared κ n m P)
    (pc' : Pc κ P) : Prop where
  place : At t pc' s'
  guar : Guar t s s'
  total : ∃ d, s'.totalReady = s.totalReady + UInt32.ofInt d ∧
    s'.queued - pc'.debt = s.queued - pc.debt + d
  alive : ∃ d, s'.alive = s.alive + UInt16.ofInt d ∧ pc'.up = pc.up + d
  upMutex : pc'.up ≠ pc.up → s.mutex = some t
  -- what a thread that is no VPU enqueues it owes a wake-up for, until it has seen a
  -- VPU alive or has woken one
  covers : pc.external = true → s'.queued - pc'.owes ≤ s.queued - pc.owes ∨
    (s.mutex = some t ∧ (s.alive ≠ 0 ∨ (∀ v, s.blocked v = false) ∨
      ∃ w, s.blocked w = true ∧ s'.blocked w = false))
  blocked : ∀ v, t ≠ .inl v → s'.blocked v = true → s.blocked v = true

theorem queued_setStatus (s : Shared κ n m P) (c : κ) (st : Status n m) :
    (s.setStatus c st).queued + (if s.status c = .queued then 1 else 0) =
      s.queued + (if st = .queued then 1 else 0) :=
  sum_update (fun st : Status n m => if st = .queued then (1 : Int) else 0) s.status c st

omit [Fintype κ] in
theorem guar_setStatus {t : Thread n m} {s : Shared κ n m P} {c : κ}
    (h : (s.status c).owner = none ∨ (s.status c).owner = some t) (st : Status n m) :
    Guar t s (s.setStatus c st) := by
  refine ⟨fun d u hne ho => ?_, fun _ _ hm => hm⟩
  have hd : d ≠ c := by
    rintro rfl
    rcases h with h | h <;> rw [ho] at h
    · cases h
    · exact hne (Option.some.inj h)
  simp [Shared.setStatus, hd]

omit [Fintype κ] in
/-- A running coroutine keeps running when the status of another one changes. -/
theorem Back.At.stable_setStatus {k : Back κ P} {t : Thread n m} {s : Shared κ n m P} {c : κ}
    {st₀ st : Status n m} (h : k.At t s) (hc : s.status c = st₀)
    (hne : st₀.owner = none ∨ st₀ = .linking t) : k.At t (s.setStatus c st) := by
  cases k with
  | coroutine x =>
    have hx : x ≠ c := by
      rintro rfl
      rw [Back.At, hc] at h
      subst h
      rcases hne with hne | hne <;> cases hne
    simpa [Back.At, Shared.setStatus, hx] using h
  | outside | poll | longPoll => trivial

omit [Fintype κ] [DecidableEq κ] in
theorem Guar.refl (t : Thread n m) (s : Shared κ n m P) : Guar t s s :=
  ⟨fun _ _ _ _ => rfl, fun _ _ h => h⟩

omit [DecidableEq κ] in
/-- Steps that touch no queue, no `total_ready`, no `alive` and no waiter, and stay on
    the same side of all of them. -/
theorem StepOk.of_same {t : Thread n m} {s s' : Shared κ n m P} {pc pc' : Pc κ P}
    (hplace : At t pc' s') (hguar : Guar t s s') (hstatus : s'.status = s.status)
    (htotal : s'.totalReady = s.totalReady) (halive : s'.alive = s.alive)
    (hblocked : s'.blocked = s.blocked) (hdebt : pc'.debt = pc.debt) (hup : pc'.up = pc.up)
    (howes : pc.external = true → pc.owes ≤ pc'.owes) : StepOk t s pc s' pc' := by
  have hq : s'.queued = s.queued := by simp only [Shared.queued, hstatus]
  refine ⟨hplace, hguar, ⟨0, htotal.trans (UInt32.add_zero _).symm, by rw [hq, hdebt]; omega⟩,
    ⟨0, halive.trans (UInt16.add_zero _).symm, by rw [hup]; omega⟩, fun h => absurd hup h, fun hx => Or.inl ?_,
    fun v _ h => by rw [← hblocked]; exact h⟩
  have := howes hx
  rw [hq]
  omega

omit [DecidableEq κ] in
/-- Steps that change nothing but the place. -/
theorem StepOk.of_local {t : Thread n m} {s : Shared κ n m P} {pc pc' : Pc κ P}
    (hat : At t pc s) (hkind : pc'.external = pc.external)
    (hlocked : pc'.locked = true → pc.locked = true) (hhas : Has t pc' s)
    (hdebt : pc'.debt = pc.debt) (hup : pc'.up = pc.up)
    (howes : pc.external = true → pc.owes ≤ pc'.owes) : StepOk t s pc s pc' :=
  .of_same ⟨hkind.trans hat.kind, fun h => hat.mutex (hlocked h), hhas⟩ (Guar.refl t s) rfl rfl rfl
    rfl hdebt hup howes

omit [DecidableEq κ] in
/-- Steps that change a counter nobody's safety rests on. -/
theorem StepOk.of_counter {t : Thread n m} {s s' : Shared κ n m P} {pc pc' : Pc κ P}
    (hat : At t pc s) (hstatus : s'.status = s.status) (htotal : s'.totalReady = s.totalReady)
    (halive : s'.alive = s.alive) (hblocked : s'.blocked = s.blocked) (hmutex : s'.mutex = s.mutex)
    (hkind : pc'.external = pc.external) (hlocked : pc'.locked = true → pc.locked = true)
    (hhas : Has t pc' s') (hdebt : pc'.debt = pc.debt) (hup : pc'.up = pc.up)
    (howes : pc.external = true → pc.owes ≤ pc'.owes) : StepOk t s pc s' pc' :=
  .of_same ⟨hkind.trans hat.kind, fun h => hmutex.trans (hat.mutex (hlocked h)), hhas⟩
    ⟨fun _ _ _ _ => by rw [hstatus], fun _ _ h => hmutex.trans h⟩ hstatus htotal halive hblocked
    hdebt hup howes

omit [DecidableEq κ] in
/-- Taking or releasing the mutex. -/
theorem StepOk.of_mutex {t : Thread n m} {s : Shared κ n m P} {pc pc' : Pc κ P}
    {o : Option (Thread n m)} (hat : At t pc s) (hfree : s.mutex = none ∨ s.mutex = some t)
    (hkind : pc'.external = pc.external) (hlocked : pc'.locked = true → o = some t)
    (hhas : Has t pc' s) (hdebt : pc'.debt = pc.debt) (hup : pc'.up = pc.up)
    (howes : pc.external = true → pc.owes ≤ pc'.owes) :
    StepOk t s pc { s with mutex := o } pc' := by
  refine .of_same ⟨hkind.trans hat.kind, hlocked, by cases pc' <;> exact hhas⟩
    ⟨fun _ _ _ _ => rfl, fun u hne h => ?_⟩ rfl rfl rfl rfl hdebt hup howes
  rcases hfree with hf | hf <;> rw [h] at hf
  · cases hf
  · exact absurd (Option.some.inj hf) hne

/-- Handing a coroutine on: the thread that has it (or finds it in nobody's hands)
    changes its status. -/
theorem StepOk.of_status {t : Thread n m} {s : Shared κ n m P} {pc pc' : Pc κ P} {c : κ}
    {st : Status n m} (hat : At t pc s)
    (hown : (s.status c).owner = none ∨ (s.status c).owner = some t)
    (hkind : pc'.external = pc.external) (hlocked : pc'.locked = true → pc.locked = true)
    (hhas : Has t pc' (s.setStatus c st)) (hup : pc'.up = pc.up)
    (hdebt : (if st = .queued then 1 else 0) - pc'.debt =
      (if s.status c = .queued then 1 else 0) - pc.debt)
    (howes : pc.external = true → (if st = .queued then 1 else 0) - pc'.owes ≤
      (if s.status c = .queued then 1 else 0) - pc.owes) :
    StepOk t s pc (s.setStatus c st) pc' := by
  have hq := queued_setStatus s c st
  refine ⟨⟨hkind.trans hat.kind, fun h => hat.mutex (hlocked h), hhas⟩, guar_setStatus hown st,
    ⟨0, (UInt32.add_zero _).symm, by omega⟩, ⟨0, (UInt16.add_zero _).symm, by rw [hup]; omega⟩,
    fun h => absurd hup h, fun hx => Or.inl ?_, fun _ _ h => h⟩
  have := howes hx
  omega

omit [DecidableEq κ] in
/-- The step at a counter of ready coroutines. -/
theorem StepOk.of_total {t : Thread n m} {s : Shared κ n m P} {pc pc' : Pc κ P} {d : Int}
    (hat : At t pc s) (hkind : pc'.external = pc.external)
    (hlocked : pc'.locked = true → pc.locked = true) (hhas : Has t pc' s)
    (hdebt : pc'.debt + d = pc.debt) (hup : pc'.up = pc.up)
    (howes : pc.external = true → pc.owes ≤ pc'.owes) :
    StepOk t s pc { s with totalReady := s.totalReady + UInt32.ofInt d } pc' := by
  refine ⟨⟨hkind.trans hat.kind, fun h => hat.mutex (hlocked h), by cases pc' <;> exact hhas⟩,
    ⟨fun _ _ _ _ => rfl, fun _ _ h => h⟩, ⟨d, rfl, ?_⟩,
    ⟨0, (UInt16.add_zero _).symm, by rw [hup]; omega⟩, fun h => absurd hup h, fun hx => Or.inl ?_,
    fun _ _ h => h⟩
  · show s.queued - pc'.debt = s.queued - pc.debt + d
    omega
  · have := howes hx
    show s.queued - pc'.owes ≤ s.queued - pc.owes
    omega

omit [DecidableEq κ] in
/-- The step at `alive`, under the mutex. -/
theorem StepOk.of_alive {t : Thread n m} {s : Shared κ n m P} {pc pc' : Pc κ P} {d : Int}
    (hat : At t pc s) (hlock : pc.locked = true) (hkind : pc'.external = pc.external)
    (hhas : Has t pc' s) (hdebt : pc'.debt = pc.debt) (hup : pc'.up = pc.up + d)
    (hvpu : pc.external = false) :
    StepOk t s pc { s with alive := s.alive + UInt16.ofInt d } pc' := by
  refine ⟨⟨hkind.trans hat.kind, fun _ => hat.mutex hlock, by cases pc' <;> exact hhas⟩,
    ⟨fun _ _ _ _ => rfl, fun _ _ h => h⟩, ⟨0, (UInt32.add_zero _).symm, ?_⟩, ⟨d, rfl, hup⟩,
    fun _ => hat.mutex hlock, fun hx => ?_, fun _ _ h => h⟩
  · show s.queued - pc'.debt = s.queued - pc.debt + 0
    omega
  · rw [hvpu] at hx; cases hx

theorem vpuReady_ok {t : Thread n m} {s s' : Shared κ n m P} {pc pc' : Pc κ P} {k : Back κ P} {d : κ}
    {b : Bool} (hat : At t pc s) (hkind : k.external = pc.external) (hk : k.At t s)
    (hdebt : pc.debt = 0) (hup : pc.up = if k.external then 0 else 1)
    (howes : pc.owes = 0) (hs : vpuReady t s k d b = some (s', pc')) : StepOk t s pc s' pc' := by
  simp only [vpuReady, Option.ite_none_right_eq_some, Option.some.injEq, Prod.mk.injEq] at hs
  obtain ⟨hwait, rfl, rfl⟩ := hs
  refine .of_status hat (Or.inl (by rw [hwait]; rfl)) hkind (fun h => by cases h) ⟨?_, ?_⟩ ?_ ?_ ?_
  · simp [Shared.setStatus]
  · exact hk.stable_setStatus hwait (Or.inl rfl)
  · rw [hup]; simp [Pc.up, Pc.external, Pc.down]
  · rw [hwait, hdebt]; simp [Pc.debt]
  · intro _; rw [hwait, howes]; simp [Pc.owes]

theorem takeQueued_ok {t : Thread n m} {s s' : Shared κ n m P} {pc pc' : Pc κ P} {prio : Fin P}
    {c : κ} (hat : At t pc s) (hvpu : pc.external = false) (hdebt : pc.debt = 0) (hup : pc.up = 1)
    (hs : takeQueued priority t s prio c = some (s', pc')) : StepOk t s pc s' pc' := by
  simp only [takeQueued, Option.ite_none_right_eq_some, Option.some.injEq, Prod.mk.injEq] at hs
  obtain ⟨⟨hq, -⟩, rfl, rfl⟩ := hs
  refine .of_status hat (Or.inl (by rw [hq]; rfl)) hvpu.symm (fun h => by cases h) ?_ ?_ ?_ ?_
  · simp [Has, Shared.setStatus]
  · rw [hup]; rfl
  · rw [hq, hdebt]; simp [Pc.debt]
  · intro hx; rw [hvpu] at hx; cases hx

/-- The wake-up: a VPU is seen alive, or the waiters are signalled. -/
theorem wakeup_ok {t : Thread n m} {s s' : Shared κ n m P} {pc pc' : Pc κ P} {k : Back κ P}
    {ch : Choice κ n} (hat : At t pc s) (hpc : pc = .wakeTest k ∨ pc = .wakeSignal k)
    (hs : step priority t s pc ch = some (s', pc')) : StepOk t s pc s' pc' := by
  rcases hpc with rfl | rfl
  · have hlock := hat.mutex rfl
    simp only [step] at hs
    split at hs
    · simp only [Option.some.injEq, Prod.mk.injEq] at hs
      obtain ⟨rfl, rfl⟩ := hs
      exact .of_local hat rfl (fun _ => rfl) hat.has rfl rfl (fun _ => le_refl _)
    · rename_i halive
      -- from here on nothing is owed any more
      have hdone : ∀ pc₁ : Pc κ P, pc₁ = .wakeIdle k ∨ pc₁ = .wakeUnlock k →
          StepOk t s (.wakeTest k) s pc₁ := by
        rintro pc₁ (rfl | rfl) <;>
        exact ⟨⟨hat.kind, fun _ => hlock, hat.has⟩, Guar.refl t s,
          ⟨0, (UInt32.add_zero _).symm, (add_zero _).symm⟩, ⟨0, (UInt16.add_zero _).symm, (add_zero _).symm⟩,
          fun h => absurd rfl h, fun _ => Or.inr ⟨hlock, Or.inl halive⟩, fun _ _ h => h⟩
      split at hs <;> simp only [Option.some.injEq, Prod.mk.injEq] at hs <;>
        obtain ⟨rfl, rfl⟩ := hs
      · exact hdone _ (Or.inl rfl)
      · exact hdone _ (Or.inr rfl)
  · have hlock := hat.mutex rfl
    simp only [step] at hs
    split at hs
    · rename_i ws
      simp only [Option.ite_none_right_eq_some, Option.some.injEq, Prod.mk.injEq] at hs
      obtain ⟨hwake, rfl, rfl⟩ := hs
      have hq : Shared.queued { s with blocked := fun v => s.blocked v && !decide (v ∈ ws) } =
          s.queued := rfl
      refine ⟨⟨hat.kind, fun _ => hlock, hat.has⟩, ⟨fun _ _ _ _ => rfl, fun _ _ h => h⟩,
        ⟨0, (UInt32.add_zero _).symm, (add_zero _).symm⟩, ⟨0, (UInt16.add_zero _).symm, (add_zero _).symm⟩,
        fun h => absurd rfl h, fun _ => Or.inr ⟨hlock, Or.inr ?_⟩, fun v _ h => ?_⟩
      · rcases hwake with hnone | ⟨w, hw, hb⟩
        · exact Or.inl hnone
        · exact Or.inr ⟨w, hb, by simp [hw]⟩
      · simp only [Bool.and_eq_true] at h
        exact h.1
    · cases hs

/-- Blocking on the condition variable, and being let go. -/
theorem waiting_ok {t : Thread n m} {s s' : Shared κ n m P} {pc pc' : Pc κ P} {ch : Choice κ n}
    (hat : At t pc s) (hpc : (∃ last, pc = .sleepWait last) ∨ pc = .waiting)
    (hs : step priority t s pc ch = some (s', pc')) : StepOk t s pc s' pc' := by
  have hmine : ∀ {v u : Fin n} {b : Bool}, t = .inl v → t ≠ .inl u →
      Function.update s.blocked v b u = true → s.blocked u = true := by
    intro v u b ht hne h
    have hu : u ≠ v := fun heq => hne (by rw [ht, heq])
    rwa [Function.update_of_ne hu] at h
  rcases hpc with ⟨last, rfl⟩ | rfl
  · have hlock := hat.mutex rfl
    simp only [step] at hs
    split at hs
    · rename_i v
      simp only [Option.some.injEq, Prod.mk.injEq] at hs
      obtain ⟨rfl, rfl⟩ := hs
      refine ⟨⟨hat.kind, nofun, trivial⟩, ⟨fun _ _ _ _ => rfl, fun u hne h => ?_⟩,
        ⟨0, (UInt32.add_zero _).symm, (add_zero _).symm⟩, ⟨0, (UInt16.add_zero _).symm, (add_zero _).symm⟩,
        fun h => absurd rfl h, nofun, fun u hne h => hmine rfl hne h⟩
      rw [h] at hlock
      exact absurd (Option.some.inj hlock) hne
    · cases hs
  · simp only [step] at hs
    split at hs
    · rename_i v
      simp only [Option.ite_none_right_eq_some, Option.some.injEq, Prod.mk.injEq] at hs
      obtain ⟨⟨-, hfree⟩, rfl, rfl⟩ := hs
      exact .of_mutex hat (Or.inl hfree) rfl (fun _ => rfl) trivial rfl rfl (fun hx => by cases hx)
    · rename_i v
      simp only [Option.some.injEq, Prod.mk.injEq] at hs
      obtain ⟨rfl, rfl⟩ := hs
      exact ⟨⟨hat.kind, nofun, trivial⟩, ⟨fun _ _ _ _ => rfl, fun _ _ h => h⟩,
        ⟨0, (UInt32.add_zero _).symm, (add_zero _).symm⟩, ⟨0, (UInt16.add_zero _).symm, (add_zero _).symm⟩,
        fun h => absurd rfl h, nofun, fun u hne h => hmine rfl hne h⟩
    · cases hs

theorem step_ok {t : Thread n m} {s s' : Shared κ n m P} {pc pc' : Pc κ P} {ch : Choice κ n}
    (hat : At t pc s) (hs : step priority t s pc ch = some (s', pc')) : StepOk t s pc s' pc' := by
  have hs₀ := hs
  have hhas := hat.has
  -- the two counters move by one
  have hinc : s.totalReady + 1 = s.totalReady + UInt32.ofInt 1 := rfl
  have hdec : s.totalReady - 1 = s.totalReady + UInt32.ofInt (-1) := UInt32.sub_eq_add_neg _ _
  have hup : s.alive + 1 = s.alive + UInt16.ofInt 1 := rfl
  have hdown : s.alive - 1 = s.alive + UInt16.ofInt (-1) := UInt16.sub_eq_add_neg _ _
  cases pc <;> simp only [step] at hs <;> simp only [Has] at hhas
  case outside =>
    split at hs
    · exact vpuReady_ok hat rfl (by trivial) rfl rfl rfl hs
    · cases hs
  case running c =>
    split at hs
    · rename_i d
      simp only [Option.ite_none_right_eq_some, Option.some.injEq, Prod.mk.injEq] at hs
      obtain ⟨hd, rfl, rfl⟩ := hs
      have hrun : Back.At (.coroutine c) t s := hhas
      have h : StepOk t s (.running c) (s.setStatus d .wait) (.running c) :=
        .of_status hat (Or.inl (by rw [hd]; rfl)) rfl id (hrun.stable_setStatus hd (Or.inl rfl)) rfl
          (by rw [hd]; simp [Pc.debt]) (fun hx => by cases hx)
      exact ⟨⟨h.place.kind, h.place.mutex, h.place.has⟩, ⟨h.guar.status, h.guar.mutex⟩, h.total,
        h.alive, h.upMutex, h.covers, h.blocked⟩
    · exact vpuReady_ok hat rfl (by exact hhas) rfl rfl rfl hs
    · simp only [Option.some.injEq, Prod.mk.injEq] at hs
      obtain ⟨rfl, rfl⟩ := hs
      exact .of_counter hat rfl rfl rfl rfl rfl rfl id hhas rfl rfl (fun _ => le_refl _)
    · simp only [Option.some.injEq, Prod.mk.injEq] at hs
      obtain ⟨rfl, rfl⟩ := hs
      exact .of_local hat rfl id hhas rfl rfl (fun _ => le_refl _)
    · simp only [Option.some.injEq, Prod.mk.injEq] at hs
      obtain ⟨rfl, rfl⟩ := hs
      exact .of_status hat (Or.inr (by rw [hhas]; rfl)) rfl id trivial rfl
        (by rw [hhas]; simp [Pc.debt]) (fun hx => by cases hx)
    · cases hs
  case readyPut k d b =>
    simp only [Option.some.injEq, Prod.mk.injEq] at hs
    obtain ⟨rfl, rfl⟩ := hs
    exact .of_status hat (Or.inr (by rw [hhas.1]; rfl)) rfl id
      (hhas.2.stable_setStatus hhas.1 (Or.inr rfl)) rfl (by rw [hhas.1]; simp [Pc.debt])
      (fun _ => by rw [hhas.1]; simp [Pc.owes])
  case readyTotal k d b =>
    simp only [Option.some.injEq, Prod.mk.injEq] at hs
    obtain ⟨rfl, rfl⟩ := hs
    rw [hinc]
    exact .of_total hat rfl id hhas rfl rfl (fun _ => le_refl _)
  case readyPrio k d b =>
    simp only [Option.some.injEq, Prod.mk.injEq] at hs
    obtain ⟨rfl, rfl⟩ := hs
    exact .of_counter hat rfl rfl rfl rfl rfl rfl id hhas rfl rfl (fun _ => le_refl _)
  case readyIowait k d b =>
    split at hs <;> simp only [Option.some.injEq, Prod.mk.injEq] at hs <;> obtain ⟨rfl, rfl⟩ := hs
    · exact .of_counter hat rfl rfl rfl rfl rfl rfl id hhas rfl rfl (fun _ => le_refl _)
    · exact .of_local hat rfl id hhas rfl rfl (fun _ => le_refl _)
  case readyDecide k d b =>
    split at hs <;> simp only [Option.some.injEq, Prod.mk.injEq] at hs <;> obtain ⟨rfl, rfl⟩ := hs
    · -- the coroutine that called `vpu_ready` yields
      rename_i c hpre
      cases k with
      | coroutine x =>
        simp only [preempts, Option.ite_none_right_eq_some, Option.some.injEq] at hpre
        obtain ⟨-, rfl⟩ := hpre
        exact .of_local hat rfl id hhas rfl rfl (fun hx => by cases hx)
      | outside | poll | longPoll => cases hpre
    · exact .of_local hat rfl id hhas rfl rfl (fun _ => le_refl _)
  case wakeLock k =>
    simp only [Option.ite_none_right_eq_some, Option.some.injEq, Prod.mk.injEq] at hs
    obtain ⟨hfree, rfl, rfl⟩ := hs
    exact .of_mutex hat (Or.inl hfree) rfl (fun _ => rfl) hhas rfl rfl (fun _ => le_refl _)
  case wakeTest k => exact wakeup_ok hat (Or.inl rfl) hs₀
  case wakeSignal k => exact wakeup_ok hat (Or.inr rfl) hs₀
  case wakeIdle k | wakeReady k =>
    split at hs <;> simp only [Option.some.injEq, Prod.mk.injEq] at hs <;>
      obtain ⟨rfl, rfl⟩ := hs <;>
      exact .of_local hat rfl id hhas rfl rfl (fun _ => by simp [Pc.owes])
  case wakeUnlock k =>
    simp only [Option.some.injEq, Prod.mk.injEq] at hs
    obtain ⟨rfl, rfl⟩ := hs
    have hfree : s.mutex = none ∨ s.mutex = some t := Or.inr (hat.mutex rfl)
    cases k <;>
      exact .of_mutex hat hfree rfl (fun h => by cases h) hhas rfl rfl (fun _ => le_refl _)
  case waitStatus c =>
    simp only [Option.some.injEq, Prod.mk.injEq] at hs
    obtain ⟨rfl, rfl⟩ := hs
    exact .of_status hat (Or.inr (by rw [hhas]; rfl)) rfl id trivial rfl
      (by rw [hhas]; simp [Pc.debt]) (fun hx => by cases hx)
  case yieldPut c =>
    simp only [Option.some.injEq, Prod.mk.injEq] at hs
    obtain ⟨rfl, rfl⟩ := hs
    exact .of_status hat (Or.inr (by rw [hhas]; rfl)) rfl id trivial rfl
      (by rw [hhas]; simp [Pc.debt]) (fun hx => by cases hx)
  case waitIowait c =>
    split at hs <;> simp only [Option.some.injEq, Prod.mk.injEq] at hs <;> obtain ⟨rfl, rfl⟩ := hs
    · exact .of_counter hat rfl rfl rfl rfl rfl rfl id trivial rfl rfl (fun _ => le_refl _)
    · exact .of_local hat rfl id trivial rfl rfl (fun _ => le_refl _)
  case yieldTotal =>
    simp only [Option.some.injEq, Prod.mk.injEq] at hs
    obtain ⟨rfl, rfl⟩ := hs
    rw [hinc]
    exact .of_total hat rfl id trivial rfl rfl (fun _ => le_refl _)
  case schedTotal c =>
    simp only [Option.some.injEq, Prod.mk.injEq] at hs
    obtain ⟨rfl, rfl⟩ := hs
    rw [hdec]
    exact .of_total hat rfl id hhas rfl rfl (fun _ => le_refl _)
  case schedIdle c | schedPrio c =>
    simp only [Option.some.injEq, Prod.mk.injEq] at hs
    obtain ⟨rfl, rfl⟩ := hs
    exact .of_counter hat rfl rfl rfl rfl rfl rfl id hhas rfl rfl (fun _ => le_refl _)
  case schedRun c =>
    simp only [Option.some.injEq, Prod.mk.injEq] at hs
    obtain ⟨rfl, rfl⟩ := hs
    have h : StepOk t s (.schedRun c) (s.setStatus c (.running t)) (.running c) :=
      .of_status hat (Or.inr (by rw [hhas]; rfl)) rfl id (by simp [Has, Shared.setStatus]) rfl
        (by rw [hhas]; simp [Pc.debt]) (fun hx => by cases hx)
    exact ⟨⟨h.place.kind, h.place.mutex, h.place.has⟩, ⟨h.guar.status, h.guar.mutex⟩, h.total,
      h.alive, h.upMutex, h.covers, h.blocked⟩
  case schedLoop loops prio =>
    split at hs
    · split at hs <;> simp only [Option.some.injEq, Prod.mk.injEq] at hs <;>
        obtain ⟨rfl, rfl⟩ := hs <;>
        exact .of_local hat rfl id trivial rfl rfl (fun _ => le_refl _)
    · simp only [Option.some.injEq, Prod.mk.injEq] at hs
      obtain ⟨rfl, rfl⟩ := hs
      exact .of_local hat rfl id trivial rfl rfl (fun _ => le_refl _)
  case schedGet loops prio | schedElect loops prio =>
    split at hs
    · exact takeQueued_ok hat rfl rfl rfl hs
    · simp only [Option.some.injEq, Prod.mk.injEq] at hs
      obtain ⟨rfl, rfl⟩ := hs
      exact .of_local hat rfl id trivial rfl rfl (fun _ => le_refl _)
    · cases hs
  case schedPoll loops prio =>
    split at hs
    · exact vpuReady_ok hat rfl (by trivial) rfl rfl rfl hs
    · simp only [Option.some.injEq, Prod.mk.injEq] at hs
      obtain ⟨rfl, rfl⟩ := hs
      exact .of_local hat rfl id trivial rfl rfl (fun _ => le_refl _)
    · cases hs
  case polling =>
    split at hs
    · exact vpuReady_ok hat rfl (by trivial) rfl rfl rfl hs
    · simp only [Option.some.injEq, Prod.mk.injEq] at hs
      obtain ⟨rfl, rfl⟩ := hs
      exact .of_local hat rfl id trivial rfl rfl (fun _ => le_refl _)
    · simp only [Option.some.injEq, Prod.mk.injEq] at hs
      obtain ⟨rfl, rfl⟩ := hs
      exact .of_local hat rfl id trivial rfl rfl (fun _ => le_refl _)
    · cases hs
  case sleepLock =>
    simp only [Option.ite_none_right_eq_some, Option.some.injEq, Prod.mk.injEq] at hs
    obtain ⟨hfree, rfl, rfl⟩ := hs
    exact .of_mutex hat (Or.inl hfree) rfl (fun _ => rfl) trivial rfl rfl (fun _ => le_refl _)
  case sleepAlive =>
    simp only [Option.some.injEq, Prod.mk.injEq] at hs
    obtain ⟨rfl, rfl⟩ := hs
    rw [hdown]
    exact .of_alive hat rfl rfl trivial rfl rfl rfl
  case pollAlive | aliveUp =>
    simp only [Option.some.injEq, Prod.mk.injEq] at hs
    obtain ⟨rfl, rfl⟩ := hs
    rw [hup]
    exact .of_alive hat rfl rfl trivial rfl rfl rfl
  case sleepWait last => exact waiting_ok hat (Or.inl ⟨last, rfl⟩) hs₀
  case waiting => exact waiting_ok hat (Or.inr rfl) hs₀
  case pollUnlock | sleepUnlock =>
    simp only [Option.some.injEq, Prod.mk.injEq] at hs
    obtain ⟨rfl, rfl⟩ := hs
    exact .of_mutex hat (Or.inr (hat.mutex rfl)) rfl (fun h => by cases h) trivial rfl rfl
      (fun _ => le_refl _)
  case yieldPrio | schedEnter | sleepIdle | wokenIdle =>
    simp only [Option.some.injEq, Prod.mk.injEq] at hs
    obtain ⟨rfl, rfl⟩ := hs
    exact .of_counter hat rfl rfl rfl rfl rfl rfl id trivial rfl rfl (fun _ => le_refl _)
  case pollSize =>
    split at hs
    · simp only [Option.some.injEq, Prod.mk.injEq] at hs
      obtain ⟨rfl, rfl⟩ := hs
      exact .of_local hat rfl id trivial rfl rfl (fun _ => le_refl _)
    · simp only [Option.some.injEq, Prod.mk.injEq] at hs
      obtain ⟨rfl, rfl⟩ := hs
      exact .of_local hat rfl id trivial rfl rfl (fun _ => le_refl _)
    · cases hs
  case backtrace => cases hs
  case schedCount | sleepTest | sleepReady | sleepIowait | sleepAgain | pollTest =>
    split at hs <;> simp only [Option.some.injEq, Prod.mk.injEq] at hs <;>
      obtain ⟨rfl, rfl⟩ := hs <;>
      exact .of_local hat rfl (fun h => h) trivial rfl rfl (fun _ => le_refl _)

/-! ### Whole runs

Nobody may go to sleep for good while there is work.  A VPU that blocks because
another one is alive leaves that one behind (`notLast`); one that blocks because it
read `total_ready == 0` knows, if all others are asleep, that every queued coroutine
still has its `vpu_ready` under way (`last`); from then on every enqueue adds a wake-up
that is owed, and the first one paid wakes a VPU (`asleep`). -/

/-- Blocked in `pthread_cond_wait` with no signal pending. -/
def Asleep (s : State κ n m P) (v : Fin n) : Prop :=
  s.locals (.inl v) = .waiting ∧ s.shared.blocked v = true

/-- On the way to block because no other VPU was alive and nothing was ready. -/
def Pc.goesLast : Pc κ P → Bool
  | .sleepIowait | .sleepIdle true | .sleepWait true => true
  | _ => false

/-- On the way to block because another VPU was alive. -/
def Pc.leavesOther : Pc κ P → Bool
  | .sleepIdle false | .sleepWait false => true
  | _ => false

/-- Every queued coroutine has its `vpu_ready` under way. -/
def Owed (s : State κ n m P) : Prop := s.shared.queued ≤ ∑ t, (s.locals t).owes

structure Inv (s : State κ n m P) : Prop where
  place : ∀ t, At t (s.locals t) s.shared
  total : s.shared.totalReady = UInt32.ofInt (s.shared.queued - ∑ t, (s.locals t).debt)
  alive : s.shared.alive = UInt16.ofInt (∑ t, (s.locals t).up)
  notLast : ∀ v, (s.locals (.inl v)).leavesOther = true →
    ∃ u, u ≠ v ∧ (s.locals (.inl u)).up = 1
  last : ∀ v, (s.locals (.inl v)).goesLast = true → (∀ u, u ≠ v → Asleep s u) → Owed s
  asleep : (∀ v, Asleep s v) → Owed s

/-- The part of the invariant that does not rest on `total_ready`. -/
structure Placed (s : State κ n m P) : Prop where
  place : ∀ t, At t (s.locals t) s.shared
  alive : s.shared.alive = UInt16.ofInt (∑ t, (s.locals t).up)
  notLast : ∀ v, (s.locals (.inl v)).leavesOther = true →
    ∃ u, u ≠ v ∧ (s.locals (.inl u)).up = 1

omit [DecidableEq κ] in
theorem Inv.placed {s : State κ n m P} (h : Inv s) : Placed s :=
  ⟨h.place, h.alive, h.notLast⟩

omit [DecidableEq κ] [Fintype κ] in
/-- A thread counted in `alive` is a VPU. -/
theorem Placed.exists_up {s : State κ n m P} (h : Placed s) (halive : s.shared.alive ≠ 0) :
    ∃ v, (s.locals (.inl v)).up = 1 := by
  have hsum : ∑ t, (s.locals t).up ≠ 0 := fun hz => halive (by rw [h.alive, hz]; rfl)
  obtain ⟨t, -, ht⟩ := Finset.exists_ne_zero_of_sum_ne_zero hsum
  have hup : (s.locals t).up = 1 := by
    simp only [Pc.up] at ht ⊢
    split at ht
    · exact absurd rfl ht
    · rename_i hc; rw [if_neg hc]
  rcases t with v | x
  · exact ⟨v, hup⟩
  · have hk := (h.place (.inr x)).kind
    rw [Sum.isRight_inr] at hk
    simp [Pc.up, hk] at hup

omit [DecidableEq κ] [Fintype κ] in
theorem Asleep.not_up {s : State κ n m P} {v : Fin n} (h : Asleep s v) :
    (s.locals (.inl v)).up ≠ 1 := by
  rw [h.1]
  simp [Pc.up, Pc.down]

omit [DecidableEq κ] [Fintype κ] in
/-- What a thread that is no VPU keeps from the counter it owes a wake-up for. -/
theorem debt_le_owes {pc : Pc κ P} (h : pc.external = true) : 0 ≤ pc.debt ∧ pc.debt ≤ pc.owes := by
  cases pc <;> first | (simp [Pc.debt, Pc.owes]; done) | cases h

omit [DecidableEq κ] in
/-- The reading of `total_ready` by the last VPU up: fewer than `2^32` coroutines
    cannot make the counter zero unless each has its `vpu_ready` under way. -/
theorem Inv.owed_of_zero {s : State κ n m P} (h : Inv s) (hfit : s.shared.existing < 2 ^ 32)
    {v : Fin n} (hv : s.locals (.inl v) = .sleepReady) (hzero : s.shared.totalReady = 0)
    (hothers : ∀ u, u ≠ v → Asleep s u) : Owed s := by
  -- sleepers have no debt, and what the others have they owe
  have hdebt : ∀ t, 0 ≤ (s.locals t).debt ∧ (s.locals t).debt ≤ (s.locals t).owes := by
    rintro (u | x)
    · by_cases hu : u = v
      · rw [hu, hv]; exact ⟨le_refl _, le_refl _⟩
      · rw [(hothers u hu).1]; exact ⟨le_refl _, le_refl _⟩
    · have hk := (h.place (.inr x)).kind
      exact debt_le_owes (hk.trans Sum.isRight_inr)
  have hsum : 0 ≤ ∑ t, (s.locals t).debt := Finset.sum_nonneg fun t _ => (hdebt t).1
  have hle : ∑ t, (s.locals t).debt ≤ ∑ t, (s.locals t).owes :=
    Finset.sum_le_sum fun t _ => (hdebt t).2
  have hcard : s.shared.queued < 4294967296 := by
    have hb := queued_le_existing s.shared
    omega
  have hmod : (s.shared.queued - ∑ t, (s.locals t).debt) % 4294967296 = 0 := by
    have hz := h.total
    rw [hzero] at hz
    have := congrArg UInt32.toNat hz
    simp only [UInt32.ofInt, UInt32.toNat_ofNat', UInt32.toNat_zero] at this
    omega
  show s.shared.queued ≤ _
  omega

/-- What one step of a pool is, for the invariant. -/
structure PoolStepOk (t : Thread n m) (s s' : State κ n m P) : Prop where
  ok : StepOk t s.shared (s.locals t) s'.shared (s'.locals t)
  others : ∀ u, u ≠ t → s'.locals u = s.locals u
  sum : ∀ f : Pc κ P → Int,
    ∑ u, f (s'.locals u) + f (s.locals t) = ∑ u, f (s.locals u) + f (s'.locals t)

theorem poolStep_ok {s s' : State κ n m P} (h : Placed s) {l : Thread n m × Choice κ n}
    (hl : poolStep (step priority) s l = some s') : PoolStepOk l.1 s s' := by
  obtain ⟨⟨σ, pc⟩, hr, hshared, hlocals⟩ := poolStep_eq_some hl
  simp only at hshared hlocals
  refine ⟨?_, fun u hu => ?_, fun f => ?_⟩
  · rw [hshared, hlocals, Function.update_self]
    exact step_ok (h.place l.1) hr
  · rw [hlocals, Function.update_of_ne hu]
  · rw [hlocals, Function.update_self]
    exact sum_update f s.locals l.1 pc

omit [DecidableEq κ] in
theorem inv_total {s s' : State κ n m P} (h : Inv s) {t : Thread n m} (hp : PoolStepOk t s s') :
    s'.shared.totalReady = UInt32.ofInt (s'.shared.queued - ∑ t, (s'.locals t).debt) := by
  obtain ⟨d, htotal, hd⟩ := hp.ok.total
  have hsum := hp.sum Pc.debt
  rw [htotal, h.total, ← UInt32.ofInt_add]
  congr 1
  omega

omit [DecidableEq κ] in
theorem placed_counters {s s' : State κ n m P} (h : Placed s) {t : Thread n m}
    (hp : PoolStepOk t s s') : (∀ u, At u (s'.locals u) s'.shared) ∧
      s'.shared.alive = UInt16.ofInt (∑ t, (s'.locals t).up) := by
  refine ⟨fun u => ?_, ?_⟩
  · by_cases hu : u = t
    · exact hu ▸ hp.ok.place
    · rw [hp.others u hu]
      exact (h.place u).stable (Ne.symm hu) hp.ok.guar
  · obtain ⟨d, halive, hd⟩ := hp.ok.alive
    have hsum := hp.sum Pc.up
    rw [halive, h.alive, ← UInt16.ofInt_add]
    congr 1
    omega

omit [DecidableEq κ] in
/-- Only under the mutex does a VPU leave or join those counted in `alive`. -/
theorem notLast_other {s s' : State κ n m P} (h : Placed s) {t : Thread n m}
    (hp : PoolStepOk t s s') {v : Fin n} (hv : t ≠ .inl v)
    (hpc : (s'.locals (.inl v)).leavesOther = true) :
    ∃ u, u ≠ v ∧ (s'.locals (.inl u)).up = 1 := by
  rw [hp.others _ (Ne.symm hv)] at hpc
  obtain ⟨u, hne, hup⟩ := h.notLast v hpc
  refine ⟨u, hne, ?_⟩
  by_cases hu : Sum.inl u = t
  · -- `v` holds the mutex
    have hmutex : s.shared.mutex = some (.inl v) := by
      refine (h.place (.inl v)).mutex ?_
      cases hvpc : s.locals (.inl v) <;> rw [hvpc] at hpc <;> first | rfl | cases hpc
    by_contra hchange
    rw [hu] at hup hchange
    have := hp.ok.upMutex (by rw [hup]; exact hchange)
    rw [hmutex] at this
    exact hv (Option.some.inj this).symm
  · rw [hp.others _ hu]
    exact hup

/-- A place that is not on the way to the condition variable. -/
def Pc.awayFromSleep (pc : Pc κ P) : Prop :=
  pc.goesLast = false ∧ pc.leavesOther = false ∧ pc ≠ .waiting

omit [Fintype κ] in
/-- The steps that can lead to the condition variable. -/
theorem step_into {t : Thread n m} {s s' : Shared κ n m P} {pc pc' : Pc κ P} {ch : Choice κ n}
    (hs : step priority t s pc ch = some (s', pc')) :
    pc'.awayFromSleep ∨ pc = .sleepTest ∨ pc = .sleepReady ∨ pc = .sleepIowait ∨
      (∃ b, pc = .sleepIdle b) ∨ (∃ b, pc = .sleepWait b) ∨ pc = .waiting := by
  cases pc
  case sleepTest | sleepReady | sleepIowait | sleepIdle | sleepWait | waiting => simp
  all_goals
    refine Or.inl ?_
    simp only [step, vpuReady, takeQueued] at hs
  case wakeUnlock k =>
    simp only [Option.some.injEq, Prod.mk.injEq] at hs
    obtain ⟨-, rfl⟩ := hs
    cases k <;> exact ⟨rfl, rfl, nofun⟩
  all_goals
    repeat' split at hs
  all_goals
    first
      | cases hs; done
      | (simp only [Option.some.injEq, Prod.mk.injEq] at hs
         obtain ⟨-, rfl⟩ := hs
         exact ⟨rfl, rfl, nofun⟩)

omit [Fintype κ] in
/-- What a VPU has just seen when it decides to block because of another one. -/
theorem step_leavesOther {t : Thread n m} {s s' : Shared κ n m P} {pc pc' : Pc κ P}
    {ch : Choice κ n} (hs : step priority t s pc ch = some (s', pc'))
    (h : pc'.leavesOther = true) : pc.leavesOther = true ∨ (pc.up = 0 ∧ s.alive ≠ 0) := by
  rcases step_into hs with haway | rfl | rfl | rfl | ⟨b, rfl⟩ | ⟨b, rfl⟩ | rfl
  · rw [haway.2.1] at h; cases h
  · simp only [step] at hs
    split at hs <;> simp only [Option.some.injEq, Prod.mk.injEq] at hs <;> obtain ⟨rfl, rfl⟩ := hs
    · rename_i hpos
      exact Or.inr ⟨rfl, fun hz => by rw [hz] at hpos; exact absurd hpos (by decide)⟩
    · cases h
  · simp only [step] at hs
    split at hs <;> simp only [Option.some.injEq, Prod.mk.injEq] at hs <;>
      obtain ⟨rfl, rfl⟩ := hs <;> cases h
  · simp only [step] at hs
    split at hs <;> simp only [Option.some.injEq, Prod.mk.injEq] at hs <;>
      obtain ⟨rfl, rfl⟩ := hs <;> cases h
  · simp only [step, Option.some.injEq, Prod.mk.injEq] at hs
    obtain ⟨-, rfl⟩ := hs
    cases b with
    | false => exact Or.inl rfl
    | true => cases h
  · cases t <;> simp only [step, Option.some.injEq, Prod.mk.injEq, reduceCtorEq] at hs
    obtain ⟨-, rfl⟩ := hs
    cases h
  · simp only [step] at hs
    repeat' split at hs
    all_goals
      first
        | cases hs; done
        | (simp only [Option.some.injEq, Prod.mk.injEq] at hs
           obtain ⟨-, rfl⟩ := hs
           cases h)

omit [Fintype κ] in
/-- What a VPU has just seen when it decides to block although it is the last one. -/
theorem step_goesLast {t : Thread n m} {s s' : Shared κ n m P} {pc pc' : Pc κ P}
    {ch : Choice κ n} (hs : step priority t s pc ch = some (s', pc'))
    (h : pc'.goesLast = true) :
    s'.status = s.status ∧ s'.blocked = s.blocked ∧ pc'.owes = pc.owes ∧
      (pc.goesLast = true ∨ (pc = .sleepReady ∧ s.totalReady = 0)) := by
  rcases step_into hs with haway | rfl | rfl | rfl | ⟨b, rfl⟩ | ⟨b, rfl⟩ | rfl
  · rw [haway.1] at h; cases h
  · simp only [step] at hs
    split at hs <;> simp only [Option.some.injEq, Prod.mk.injEq] at hs <;>
      obtain ⟨rfl, rfl⟩ := hs <;> cases h
  · simp only [step] at hs
    split at hs <;> simp only [Option.some.injEq, Prod.mk.injEq] at hs <;> obtain ⟨rfl, rfl⟩ := hs
    · rename_i hzero
      exact ⟨rfl, rfl, rfl, Or.inr ⟨rfl, hzero⟩⟩
    · cases h
  · simp only [step] at hs
    split at hs <;> simp only [Option.some.injEq, Prod.mk.injEq] at hs <;> obtain ⟨rfl, rfl⟩ := hs
    · exact ⟨rfl, rfl, rfl, Or.inl rfl⟩
    · cases h
  · simp only [step, Option.some.injEq, Prod.mk.injEq] at hs
    obtain ⟨rfl, rfl⟩ := hs
    cases b with
    | false => cases h
    | true => exact ⟨rfl, rfl, rfl, Or.inl rfl⟩
  · cases t <;> simp only [step, Option.some.injEq, Prod.mk.injEq, reduceCtorEq] at hs
    obtain ⟨-, rfl⟩ := hs
    cases h
  · simp only [step] at hs
    repeat' split at hs
    all_goals
      first
        | cases hs; done
        | (simp only [Option.some.injEq, Prod.mk.injEq] at hs
           obtain ⟨-, rfl⟩ := hs
           cases h)

omit [Fintype κ] in
/-- Only `pthread_cond_wait` puts a VPU to sleep. -/
theorem step_asleep {v : Fin n} {s s' : Shared κ n m P} {pc pc' : Pc κ P} {ch : Choice κ n}
    (hs : step priority (.inl v) s pc ch = some (s', pc')) (hpc : pc' = .waiting)
    (hb : s'.blocked v = true) :
    (∃ b, pc = .sleepWait b) ∧ s'.status = s.status ∧ pc'.owes = pc.owes ∧
      ∀ u, u ≠ v → s'.blocked u = s.blocked u := by
  rcases step_into hs with haway | rfl | rfl | rfl | ⟨b, rfl⟩ | ⟨b, rfl⟩ | rfl
  · exact absurd hpc haway.2.2
  case inr.inr.inr.inr.inr.inl =>
    simp only [step, Option.some.injEq, Prod.mk.injEq] at hs
    obtain ⟨rfl, rfl⟩ := hs
    exact ⟨⟨b, rfl⟩, rfl, rfl, fun u hu => Function.update_of_ne hu _ _⟩
  all_goals
    simp only [step] at hs
    repeat' split at hs
  all_goals
    simp only [Option.some.injEq, Prod.mk.injEq, reduceCtorEq] at hs
  all_goals
    obtain ⟨rfl, rfl⟩ := hs
    first | cases hpc; done | skip
  -- a spurious wake-up
  rename_i heq
  cases heq
  simp at hb

omit [DecidableEq κ] in
/-- A step that takes away no more from the queues' cover than it adds. -/
theorem owed_of_le {s s' : State κ n m P} {t : Thread n m} (hp : PoolStepOk t s s') (h : Owed s)
    (hle : s'.shared.queued - (s'.locals t).owes ≤ s.shared.queued - (s.locals t).owes) :
    Owed s' := by
  have hsum := hp.sum Pc.owes
  have h : s.shared.queued ≤ ∑ t, (s.locals t).owes := h
  show s'.shared.queued ≤ ∑ t, (s'.locals t).owes
  omega

omit [DecidableEq κ] in
theorem owed_of_same {s s' : State κ n m P} {t : Thread n m} (hp : PoolStepOk t s s') (h : Owed s)
    (hstatus : s'.shared.status = s.shared.status)
    (howes : (s'.locals t).owes = (s.locals t).owes) : Owed s' := by
  refine owed_of_le hp h (le_of_eq ?_)
  rw [howes, show s'.shared.queued = s.shared.queued by simp only [Shared.queued, hstatus]]

omit [Fintype κ] in
/-- A VPU put to sleep by a step of its own was about to block. -/
theorem asleep_own {s s' : State κ n m P} {v : Fin n} {ch : Choice κ n}
    (hl : poolStep (step priority) s (.inl v, ch) = some s') (h : Asleep s' v) :
    (∃ b, s.locals (.inl v) = .sleepWait b) ∧ s'.shared.status = s.shared.status ∧
      (s'.locals (.inl v)).owes = (s.locals (.inl v)).owes ∧
      ∀ u, u ≠ v → s'.shared.blocked u = s.shared.blocked u := by
  obtain ⟨⟨σ, pc⟩, hr, hshared, hlocals⟩ := poolStep_eq_some hl
  simp only at hshared hlocals
  have hpc : s'.locals (.inl v) = pc := by rw [hlocals, Function.update_self]
  obtain ⟨h1, h2⟩ := h
  rw [hpc] at h1 ⊢
  rw [hshared] at h2 ⊢
  exact step_asleep hr h1 h2

omit [DecidableEq κ] in
/-- A step of somebody else leaves asleep only those that were. -/
theorem asleep_other {s s' : State κ n m P} {t : Thread n m} {u : Fin n}
    (hp : PoolStepOk t s s') (hu : t ≠ .inl u) (h : Asleep s' u) : Asleep s u :=
  ⟨(hp.others _ (Ne.symm hu)).symm.trans h.1, hp.ok.blocked u hu h.2⟩

theorem inv_asleep {s s' : State κ n m P} (h : Inv s) (hn : 0 < n) {l : Thread n m × Choice κ n}
    (hl : poolStep (step priority) s l = some s') (hall : ∀ v, Asleep s' v) : Owed s' := by
  have hp := poolStep_ok h.placed hl
  obtain ⟨t, ch⟩ := l
  rcases t with v | x
  · -- the last VPU blocks
    obtain ⟨⟨b, hb⟩, hstatus, howes, hblocked⟩ := asleep_own hl (hall v)
    have hothers : ∀ u, u ≠ v → Asleep s u := fun u hu =>
      asleep_other hp (fun heq => hu (Sum.inl.inj heq).symm) (hall u)
    cases b with
    | false =>
      obtain ⟨u, hu, hup⟩ := h.notLast v (by rw [hb]; rfl)
      exact absurd hup (hothers u hu).not_up
    | true => exact owed_of_same hp (h.last v (by rw [hb]; rfl) hothers) hstatus howes
  · -- all were asleep before
    have hwere : ∀ u, Asleep s u := fun u => asleep_other hp nofun (hall u)
    rcases hp.ok.covers ((h.place (.inr x)).kind) with hle | ⟨-, halive | hnone | ⟨w, -, hw⟩⟩
    · exact owed_of_le hp (h.asleep hwere) hle
    · obtain ⟨v, hv⟩ := h.placed.exists_up halive
      exact absurd hv (hwere v).not_up
    · have := hnone ⟨0, hn⟩
      rw [(hwere ⟨0, hn⟩).2] at this
      cases this
    · rw [(hall w).2] at hw
      cases hw

theorem inv_last {s s' : State κ n m P} (h : Inv s) (hfit : s.shared.existing < 2 ^ 32)
    {l : Thread n m × Choice κ n} (hl : poolStep (step priority) s l = some s') {v : Fin n}
    (hv : (s'.locals (.inl v)).goesLast = true) (hothers : ∀ u, u ≠ v → Asleep s' u) : Owed s' := by
  have hp := poolStep_ok h.placed hl
  by_cases ht : l.1 = .inl v
  · -- its own step
    obtain ⟨⟨σ, pc⟩, hr, hshared, hlocals⟩ := poolStep_eq_some hl
    simp only at hshared hlocals
    rw [ht] at hr hlocals hp
    have hpc : s'.locals (.inl v) = pc := by rw [hlocals, Function.update_self]
    rw [hpc] at hv
    obtain ⟨hstatus, hblocked, howes, hbefore⟩ := step_goesLast hr hv
    have hwere : ∀ u, u ≠ v → Asleep s u := fun u hu =>
      asleep_other hp (fun heq => hu (Sum.inl.inj heq).symm) (hothers u hu)
    refine owed_of_same hp ?_ (hshared ▸ hstatus) (hpc ▸ howes)
    rcases hbefore with hlast | ⟨hready, hzero⟩
    · exact h.last v hlast hwere
    · exact h.owed_of_zero hfit hready hzero hwere
  · -- `v` holds the mutex, so nobody else can block or pay what it owes
    have hpcv := hp.others _ (fun heq => ht heq.symm)
    rw [hpcv] at hv
    have hmutex : s.shared.mutex = some (.inl v) := by
      refine (h.place (.inl v)).mutex ?_
      cases hvpc : s.locals (.inl v) <;> rw [hvpc] at hv <;> first | rfl | cases hv
    obtain ⟨t, ch⟩ := l
    rcases t with w | x
    · have hw : w ≠ v := fun heq => ht (by rw [heq])
      obtain ⟨⟨b, hb⟩, -⟩ := asleep_own hl (hothers w hw)
      have := (h.place (.inl w)).mutex (by rw [hb]; rfl)
      rw [hmutex] at this
      exact absurd (Sum.inl.inj (Option.some.inj this)).symm hw
    · have hwere : ∀ u, u ≠ v → Asleep s u := fun u hu => asleep_other hp nofun (hothers u hu)
      rcases hp.ok.covers ((h.place (.inr x)).kind) with hle | ⟨hx, -⟩
      · exact owed_of_le hp (h.last v hv hwere) hle
      · rw [hmutex] at hx
        cases hx

theorem notLast_step {s s' : State κ n m P} (h : Placed s) {l : Thread n m × Choice κ n}
    (hl : poolStep (step priority) s l = some s') {v : Fin n}
    (hv : (s'.locals (.inl v)).leavesOther = true) :
    ∃ u, u ≠ v ∧ (s'.locals (.inl u)).up = 1 := by
  have hp := poolStep_ok h hl
  by_cases ht : l.1 = .inl v
  · obtain ⟨⟨σ, pc⟩, hr, hshared, hlocals⟩ := poolStep_eq_some hl
    simp only at hshared hlocals
    rw [ht] at hr hlocals hp
    have hpc : s'.locals (.inl v) = pc := by rw [hlocals, Function.update_self]
    rw [hpc] at hv
    have hbefore : ∃ u, u ≠ v ∧ (s.locals (.inl u)).up = 1 := by
      rcases step_leavesOther hr hv with hsame | ⟨hdown, halive⟩
      · exact h.notLast v hsame
      · obtain ⟨u, hu⟩ := h.exists_up halive
        refine ⟨u, fun heq => ?_, hu⟩
        rw [heq, hdown] at hu
        cases hu
    obtain ⟨u, hu, hup⟩ := hbefore
    exact ⟨u, hu, by rw [hp.others _ fun heq => hu (Sum.inl.inj heq)]; exact hup⟩
  · exact notLast_other h hp ht hv

theorem placed_step {s s' : State κ n m P} (h : Placed s) {l : Thread n m × Choice κ n}
    (hl : poolStep (step priority) s l = some s') : Placed s' := by
  obtain ⟨hplace, halive⟩ := placed_counters h (poolStep_ok h hl)
  exact ⟨hplace, halive, fun v => notLast_step h hl⟩

omit [DecidableEq κ] in
theorem inv_init {s : State κ n m P} (h : Init s) : Inv s := by
  obtain ⟨hstatus, htotal, halive, hmutex, hblocked, hvpu, hext⟩ := h
  have hq : s.shared.queued = 0 := by
    apply Finset.sum_eq_zero
    intro c _
    rcases hstatus c with hc | hc <;> rw [hc] <;> rfl
  have hdebt : ∑ t, (s.locals t).debt = 0 := Finset.sum_eq_zero fun t _ => by
    rcases t with v | x
    · rw [hvpu v]; rfl
    · rw [hext x]; rfl
  have hup : ∑ t, (s.locals t).up = n := by
    simp [Fintype.sum_sum_type, hvpu, hext, Pc.up, Pc.external, Pc.down]
  have howed : Owed s := by
    show s.shared.queued ≤ _
    rw [hq]
    refine Finset.sum_nonneg fun t _ => ?_
    cases s.locals t <;> simp [Pc.owes]
  refine ⟨?_, ?_, ?_, fun v hv => ?_, fun _ _ _ => howed, fun _ => howed⟩
  · rintro (v | x)
    · rw [hvpu v]; exact ⟨rfl, nofun, trivial⟩
    · rw [hext x]; exact ⟨rfl, nofun, trivial⟩
  · rw [htotal, hq, hdebt]; rfl
  · rw [halive, hup]
    apply UInt16.toNat_inj.mp
    rw [UInt16.ofInt, UInt16.toNat_ofNat', UInt16.toNat_ofNat']
    omega
  · rw [hvpu v] at hv; cases hv

theorem inv_of_reach {s : State κ n m P} (hn : 0 < n) (h : Reach (poolStep (step priority)) Fits Init s) :
    Inv s := by
  refine h.invariant (fun _ => inv_init) fun s l s' hi hfit hl => ?_
  have hp := poolStep_ok hi.placed hl
  obtain ⟨hplace, halive, hnotLast⟩ := placed_step hi.placed hl
  exact ⟨hplace, inv_total hi hp, halive, hnotLast, fun v => inv_last hi hfit hl,
    inv_asleep hi hn hl⟩

/-- **No runnable coroutine is forgotten**: with any number of VPUs and other threads, and
    fewer than `2^32` coroutines at a time, in no reachable state is a coroutine in a run
    queue, every VPU blocked with no signal pending, and no `vpu_ready` between its enqueue
    and its wake-up. -/
theorem no_forgotten_coroutine {s : State κ n m P} (hn : 0 < n)
    (h : Reach (poolStep (step priority)) Fits Init s) :
    ¬ ((∃ c, s.shared.status c = .queued) ∧ (∀ v, Asleep s v) ∧
      ∀ t, (s.locals t).owes = 0) := by
  rintro ⟨⟨c, hc⟩, hasleep, howes⟩
  have howed : s.shared.queued ≤ ∑ t, (s.locals t).owes := (inv_of_reach hn h).asleep hasleep
  rw [Finset.sum_eq_zero fun t _ => howes t] at howed
  have hone : (1 : Int) ≤ s.shared.queued := by
    have := Finset.single_le_sum (f := fun c => if s.shared.status c = .queued then (1 : Int) else 0)
      (fun c _ => by split <;> decide) (Finset.mem_univ c)
    simp only [hc, if_true] at this
    exact this
  omega

end

/-- The place of a VPU that sleeps. -/
def isWaiting {κ : Type} {P : Nat} : Pc κ P → Bool
  | .waiting => true
  | _ => false

theorem eq_waiting {κ : Type} {P : Nat} {pc : Pc κ P} (h : isWaiting pc = true) : pc = .waiting := by
  cases pc with
  | waiting => rfl
  | _ => cases h

/-- One VPU, one async thread and one coroutine. -/
def idleState : State (Fin 1) 1 1 1 :=
  { shared :=
      { status := fun _ => .wait, asyncWait := fun _ => false, totalReady := 0, ready := fun _ => 0,
        totalIowait := 0, alive := 1, idle := 0, mutex := none, blocked := fun _ => false }
    locals := fun t => match t with
      | .inl _ => .schedEnter
      | .inr _ => .outside }

/-- The coroutine runs, waits for an async request, and the VPU goes to sleep; when the
    async thread has put the coroutine back into a queue it owes the VPU a wake-up. -/
theorem idleState_wakeup :
    ∃ s : State (Fin 1) 1 1 1, s.shared.status 0 = .queued ∧ (∀ v, Asleep s v) ∧
      ¬ ∀ t, (s.locals t).owes = 0 := by
  have hinit : Init idleState :=
    ⟨fun _ => .inr rfl, rfl, rfl, rfl, fun _ => rfl, fun _ => rfl, fun _ => rfl⟩
  obtain ⟨s, hs, hP⟩ := Reach.exists_of_runOk (poolStep (step (fun _ : Fin 1 => (0 : Fin 1)))) Fits Init
    hinit
    (.flatten [[(.inr 0, .ready 0 false)], .replicate 8 (.inr 0, .go),
      [(.inl 0, .go), (.inl 0, .go), (.inl 0, .take 0)], .replicate 4 (.inl 0, .go),
      [(.inl 0, .suspend true)], .replicate 16 (.inl 0, .go), [(.inr 0, .ready 0 false), (.inr 0, .go)]])
    (fun s => decide (s.shared.status 0 = .queued) && s.shared.blocked 0 && isWaiting (s.locals (.inl 0)))
    (by decide +kernel)
  simp only [Bool.and_eq_true, decide_eq_true_eq] at hP
  obtain ⟨⟨hq, hb⟩, hw⟩ := hP
  have hasleep : ∀ v, Asleep s v := fun v => by
    obtain rfl : v = 0 := Subsingleton.elim _ _
    exact ⟨eq_waiting hw, hb⟩
  refine ⟨s, hq, hasleep, fun howes => ?_⟩
  exact no_forgotten_coroutine (by decide) hs ⟨⟨0, hq⟩, hasleep, howes⟩

/-! ### As many coroutines as `total_ready` cannot count -/

/-- The main coroutine runs on the only VPU; it has created `k` others, which are queued. -/
def crowd (k : Nat) : Shared Nat 1 1 1 :=
  { status := fun c => if c = 0 then .running (.inl 0) else if c ≤ k then .queued else .unborn
    asyncWait := fun _ => false, totalReady := UInt32.ofNat k, ready := fun _ => UInt32.ofNat k
    totalIowait := 0, alive := 1, idle := 0, mutex := none, blocked := fun _ => false }

/-- The places of the threads when the VPU is at `pc`. -/
def crowdLocals (pc : Pc Nat 1) : Thread 1 1 → Pc Nat 1 := Function.update (fun _ => .outside) (.inl 0) pc

/-- `vpu_ready` from the store of `status` on, when the VPU is alive. -/
theorem reach_readyPut {s : Shared Nat 1 1 1} {t : Thread 1 1} {f : Thread 1 1 → Pc Nat 1}
    {k : Back Nat 1} {d : Nat} {b : Bool}
    (h : Reach (poolStep (step fun _ => 0)) (fun _ _ => True) Init
      ⟨s, Function.update f t (.readyPut k d b)⟩)
    (hasync : s.asyncWait d = false) (halive : s.alive = 1) (hmutex : s.mutex = none) :
    Reach (poolStep (step fun _ => 0)) (fun _ _ => True) Init
      ⟨{ s.setStatus d .queued with
          totalReady := s.totalReady + 1, ready := Function.update s.ready 0 (s.ready 0 + 1) },
        Function.update f t k.pc⟩ := by
  let put : Shared Nat 1 1 1 := s.setStatus d .queued
  have h := reach_alone .go put (.readyTotal k d b) h trivial rfl
  let counted : Shared Nat 1 1 1 := { put with totalReady := put.totalReady + 1 }
  have h := reach_alone .go counted (.readyPrio k d b) h trivial rfl
  let ready : Shared Nat 1 1 1 :=
    { counted with ready := Function.update counted.ready 0 (counted.ready 0 + 1) }
  have h := reach_alone .go ready (.readyIowait k d b) h trivial rfl
  have h := reach_alone .go ready (.readyDecide k d b) h trivial (by
    simp [step, ready, counted, put, Shared.setStatus, hasync])
  have h := reach_alone .go ready (.wakeLock k) h trivial (by cases k <;> simp [step, preempts])
  let locked : Shared Nat 1 1 1 := { ready with mutex := some t }
  have h := reach_alone .go locked (.wakeTest k) h trivial (by
    simp [step, locked, ready, counted, put, Shared.setStatus, hmutex])
  have h := reach_alone .go locked (.wakeUnlock k) h trivial (by
    simp [step, locked, ready, counted, put, Shared.setStatus, halive])
  have h := reach_alone .go { locked with mutex := none } k.pc h trivial rfl
  rw [← hmutex] at h
  exact h

theorem crowd_zero :
    Reach (poolStep (step fun _ => 0)) (fun _ _ => True) Init ⟨crowd 0, crowdLocals (.running 0)⟩ := by
  let start : Shared Nat 1 1 1 := { crowd 0 with status := fun c => if c = 0 then .wait else .unborn }
  have h : Reach (poolStep (step fun _ => (0 : Fin 1))) (fun _ _ => True) Init
      ⟨start, crowdLocals .schedEnter⟩ := by
    refine .start ⟨fun c => ?_, rfl, rfl, rfl, fun _ => rfl, fun v => ?_, fun _ => rfl⟩
    · by_cases hc : c = 0
      · exact .inr (if_pos hc)
      · exact .inl (if_neg hc)
    · obtain rfl : v = 0 := Subsingleton.elim _ _
      rfl
  -- the thread that boots the system makes the main coroutine ready
  rw [← Function.update_eq_self (.inr 0) (crowdLocals .schedEnter)] at h
  let linking : Shared Nat 1 1 1 := start.setStatus 0 (.linking (.inr 0))
  have h := reach_alone (.ready 0 false) linking (.readyPut .outside 0 false) h trivial rfl
  have h := reach_readyPut h rfl rfl rfl
  rw [show Function.update (crowdLocals .schedEnter) (.inr 0) Back.outside.pc = crowdLocals .schedEnter from
    Function.update_eq_self _ _] at h
  -- the VPU takes it from the queue
  let queued : Shared Nat 1 1 1 :=
    { linking.setStatus 0 .queued with totalReady := 1, ready := Function.update (fun _ => 0) 0 1, idle := 1 }
  have h := reach_alone .go queued (.schedLoop 0 0) h trivial rfl
  have h := reach_alone .go queued (.schedGet 0 0) h trivial rfl
  let elected : Shared Nat 1 1 1 := queued.setStatus 0 (.elected (.inl 0))
  have h := reach_alone (.take 0) elected (.schedIdle 0) h trivial rfl
  let left : Shared Nat 1 1 1 := { elected with idle := elected.idle - 1 }
  have h := reach_alone .go left (.schedTotal 0) h trivial rfl
  let counted : Shared Nat 1 1 1 := { left with totalReady := left.totalReady - 1 }
  have h := reach_alone .go counted (.schedPrio 0) h trivial rfl
  let emptied : Shared Nat 1 1 1 :=
    { counted with ready := Function.update counted.ready 0 (counted.ready 0 - 1) }
  have h := reach_alone .go emptied (.schedRun 0) h trivial rfl
  have h := reach_alone .go { emptied.setStatus 0 (.running (.inl 0)) with
    asyncWait := Function.update emptied.asyncWait 0 false } (.running 0) h trivial rfl
  have hrunning : { emptied.setStatus 0 (.running (.inl 0)) with
      asyncWait := Function.update emptied.asyncWait 0 false } = crowd 0 := by
    simp only [emptied, counted, left, elected, queued, linking, start, crowd, Shared.setStatus,
      Function.update_idem]
    congr 1
    case e_status =>
      funext c
      by_cases hc : c = 0
      · subst hc
        rfl
      · rw [Function.update_of_ne hc, if_neg hc, if_neg hc, if_neg (by omega)]
    case e_asyncWait => exact Function.update_eq_self _ _
    case e_ready =>
      funext p
      obtain rfl : p = 0 := Subsingleton.elim _ _
      rfl
  rw [hrunning] at h
  exact h

/-- One coroutine more. -/
theorem crowd_succ (k : Nat)
    (h : Reach (poolStep (step fun _ => 0)) (fun _ _ => True) Init ⟨crowd k, crowdLocals (.running 0)⟩) :
    Reach (poolStep (step fun _ => 0)) (fun _ _ => True) Init ⟨crowd (k + 1), crowdLocals (.running 0)⟩ := by
  have hborn : (crowd k).status (k + 1) = .unborn := by simp [crowd]
  let created : Shared Nat 1 1 1 := (crowd k).setStatus (k + 1) .wait
  have hasync : { created with asyncWait := Function.update created.asyncWait (k + 1) false } = created := by
    simp [created, crowd, Shared.setStatus]
  have h := reach_alone (.create (k + 1)) created (.running 0) h trivial (by
    simp only [step, if_pos hborn]
    exact congrArg (fun s => some (s, _)) hasync)
  let linking : Shared Nat 1 1 1 := created.setStatus (k + 1) (.linking (.inl 0))
  have h := reach_alone (.ready (k + 1) true) linking (.readyPut (.coroutine 0) (k + 1) true) h trivial (by
    simp [step, vpuReady, created, linking, Shared.setStatus])
  have h := reach_readyPut h rfl rfl rfl
  have hready : { linking.setStatus (k + 1) .queued with
      totalReady := linking.totalReady + 1, ready := Function.update linking.ready 0 (linking.ready 0 + 1) } =
        crowd (k + 1) := by
    simp only [linking, created, crowd, Shared.setStatus, Function.update_idem]
    congr 1
    case e_status =>
      funext c
      by_cases hc : c = k + 1
      · subst hc
        simp
      · rw [Function.update_of_ne hc]
        have hle : c ≤ k + 1 ↔ c ≤ k := by omega
        simp only [hle]
    case e_totalReady => exact (UInt32.ofNat_add k 1).symm
    case e_ready =>
      funext p
      obtain rfl : p = 0 := Subsingleton.elim _ _
      rw [Function.update_self, UInt32.ofNat_add]
      rfl
  rw [hready] at h
  exact h

theorem reach_crowd (k : Nat) :
    Reach (poolStep (step fun _ => 0)) (fun _ _ => True) Init ⟨crowd k, crowdLocals (.running 0)⟩ := by
  induction k with
  | zero => exact crowd_zero
  | succ k ih => exact crowd_succ k ih

/-- With `2^32` coroutines queued `total_ready` is zero.  The main coroutine waits for an async
    request, and the VPU goes to sleep. -/
theorem forgotten_coroutine : ¬ ∀ s : State Nat 1 1 1,
    Reach (poolStep (step fun _ => 0)) (fun _ _ => True) Init s →
      ¬ ((∃ c, s.shared.status c = .queued) ∧ (∀ v, Asleep s v) ∧ ∀ t, (s.locals t).owes = 0) := by
  intro hall
  have h := reach_crowd (2 ^ 32)
  have hP : (run (poolStep (step fun _ => (0 : Fin 1))) ⟨crowd (2 ^ 32), crowdLocals (.running 0)⟩
      ((.inl 0, .suspend true) :: List.replicate 16 (.inl 0, .go))).any (fun s : State Nat 1 1 1 =>
        decide (s.shared.status 1 = .queued) && s.shared.blocked 0 && isWaiting (s.locals (.inl 0)) &&
          decide ((s.locals (.inr 0)).owes = 0)) = true := by decide +kernel
  rcases hr : run (poolStep (step fun _ => (0 : Fin 1))) ⟨crowd (2 ^ 32), crowdLocals (.running 0)⟩
      ((.inl 0, .suspend true) :: List.replicate 16 (.inl 0, .go)) with _ | s
  · rw [hr] at hP
    cases hP
  · rw [hr] at hP
    simp only [Option.any_some, Bool.and_eq_true, decide_eq_true_eq] at hP
    obtain ⟨⟨⟨hq, hb⟩, hw⟩, howes⟩ := hP
    have hpc : s.locals (.inl 0) = .waiting := eq_waiting hw
    refine hall s (Reach.of_run _ h hr) ⟨⟨1, hq⟩, fun v => ?_, ?_⟩
    · obtain rfl : v = 0 := Subsingleton.elim _ _
      exact ⟨hpc, hb⟩
    · rintro (v | x)
      · obtain rfl : v = 0 := Subsingleton.elim _ _
        rw [hpc]
        rfl
      · obtain rfl : x = 0 := Subsingleton.elim _ _
        exact howes

end Coroc.Sched
