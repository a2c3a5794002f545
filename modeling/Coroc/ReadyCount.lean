import Mathlib.Data.Fintype.Sum
import Mathlib.Data.UInt
import Mathlib.Algebra.Order.BigOperators.Group.Finset
import Coroc.ThreadPool

/-!
# The ready counters and the io-wait counter (`src/vpu.c`, `src/async.c`)

`ready[p]` and `total_ready` count the run queues, `total_iowait` the coroutines that are
suspended in an async request.  All of them are updated by separate atomic operations: the
thread that makes a coroutine ready has already published it, and reads its `priority`
and `async_wait` again although it may be running elsewhere by then.

The threads are the VPUs and the async threads.  A run queue is the set of coroutines that
are queued with its priority; taking one out may fail at any time.  A coroutine is made
ready only after the `core_wait` that suspended it has released its lock, under which
the others find it.  The part of `core_sched` that puts a VPU to sleep changes none of
these counters and is left out, as is what `vpu_wakeup_one` does.

* Each counter lacks, at any time, what the threads between a queue and the counter still
  owe it.  A step of one thread moves the balance between the counter and the thread.
* `ready_counts` and `iowait_counts` are the counters in states in which nobody is in
  between.  Either needs that the field that is read again has not changed meanwhile.
-/

namespace Coroc.ReadyCount

open Coroc.Transition Coroc.ThreadPool

/-- VPUs, and async threads on the right. -/
abbrev Thread (n m : Nat) := Fin n ⊕ Fin m

inductive Status (n m P : Nat) where
  | asleep                                  -- WAIT
  | waiting (t : Thread n m) (req : Bool)   -- WAIT, its VPU is still in `core_wait`
  | requested                               -- WAIT, in an async request that is queued
  | served (t : Thread n m)                 -- WAIT, in an async request that is being served
  | linking (t : Thread n m)                -- READY, not yet in a queue
  | queued (p : Fin P)
  | elected (t : Thread n m)                -- taken out of a queue
  | running (t : Thread n m)
  | exited
deriving DecidableEq

/-- The thread that has a coroutine. -/
def Status.owner {n m P : Nat} : Status n m P → Option (Thread n m)
  | .waiting t _ | .served t | .linking t | .elected t | .running t => some t
  | .asleep | .requested | .queued _ | .exited => none

/-- Suspended in an async request. -/
def Status.inRequest {n m P : Nat} : Status n m P → Bool
  | .waiting _ true | .requested | .served _ => true
  | _ => false

structure Shared (κ : Type) (n m P : Nat) where
  status : κ → Status n m P
  priority : κ → Fin P
  asyncWait : κ → Bool
  totalReady : UInt32
  ready : Fin P → UInt32
  totalIowait : UInt32
  -- `coroc_async_pool_manager`
  mutex : Option (Thread n m)
  waitQue : List κ

/-- Where `vpu_ready` returns to. -/
inductive Back (κ : Type) (P : Nat) where
  | outside
  | coroutine (c : κ)
  | poll (prio : Fin P)
deriving DecidableEq

/-- `req`: the coroutine is suspended in, or made ready out of, an async request. -/
inductive Pc (κ : Type) (P : Nat) where
  -- `coroc_async_thread_routine`
  | outside
  | poolGet
  | poolUnlock (c : κ)
  | serve (c : κ)
  | running (c : κ)
  -- `coroc_async_request_submit`
  | submitLock (c : κ)
  | submitAdd (c : κ)
  | submitFlag (c : κ)
  -- `core_wait`
  | waitStatus (c : κ) (req : Bool)
  | waitIowait (c : κ) (req : Bool)
  | waitUnlock (c : κ) (req : Bool)
  -- `core_yield`; `q` is the queue the coroutine was added to
  | yieldPut (c : κ)
  | yieldPrio (c : κ) (q : Fin P)
  | yieldTotal
  -- `vpu_ready(d, preempt)` with its local `p`
  | readyPut (k : Back κ P) (d : κ) (p : Fin P) (req preempt : Bool)
  | readyTotal (k : Back κ P) (d : κ) (p : Fin P) (req preempt : Bool)
  | readyPrio (k : Back κ P) (d : κ) (p : Fin P) (req preempt : Bool)
  | readyIowait (k : Back κ P) (d : κ) (req preempt : Bool)
  | readyDecide (k : Back κ P) (d : κ) (preempt : Bool)
  -- `core_sched`
  | schedLoop (prio : Nat)
  | schedGet (prio : Fin P)
  | schedPoll (prio : Fin P)
  | schedElect (prio : Fin P)
  | dispTotal (c : κ) (prio : Fin P)
  | dispPrio (c : κ) (prio : Fin P)
  | dispStatus (c : κ)
  | dispAsync (c : κ)
deriving DecidableEq

inductive Choice (κ : Type) (P : Nat) where
  | go
  | ready (d : κ) (preempt : Bool)
  | suspend
  | submit
  | yield
  | setPriority (p : Fin P)
  | exit
  | take (c : κ)

section
variable {κ : Type} [DecidableEq κ] {n m P : Nat}

def Shared.setStatus (s : Shared κ n m P) (c : κ) (st : Status n m P) : Shared κ n m P :=
  { s with status := Function.update s.status c st }

def Shared.setAsyncWait (s : Shared κ n m P) (c : κ) (b : Bool) : Shared κ n m P :=
  { s with asyncWait := Function.update s.asyncWait c b }

def Shared.addReady (s : Shared κ n m P) (p : Fin P) (d : UInt32) : Shared κ n m P :=
  { s with ready := Function.update s.ready p (s.ready p + d) }

def Back.pc : Back κ P → Pc κ P
  | .outside => .outside
  | .coroutine c => .running c
  | .poll prio => .schedPoll prio

/-- The entry of `vpu_ready`, on a coroutine that is suspended outside async requests. -/
def vpuReady (t : Thread n m) (s : Shared κ n m P) (k : Back κ P) (d : κ) (preempt : Bool) :
    Option (Shared κ n m P × Pc κ P) :=
  if s.status d = .asleep then
    some (s.setStatus d (.linking t), .readyPut k d (s.priority d) false preempt)
  else none

/-- Take a coroutine of the given priority out of some queue; `core_sched` asserts that it
    has this priority. -/
def takeQueued (t : Thread n m) (s : Shared κ n m P) (prio : Fin P) (c : κ) :
    Option (Shared κ n m P × Pc κ P) :=
  if s.status c = .queued prio ∧ s.priority c = prio then
    some (s.setStatus c (.elected t), .dispTotal c prio)
  else none

def step (t : Thread n m) (s : Shared κ n m P) (pc : Pc κ P) (ch : Choice κ P) :
    Option (Shared κ n m P × Pc κ P) :=
  match pc with
  | .outside => if s.mutex = none then some ({ s with mutex := some t }, .poolGet) else none
  | .poolGet =>
      match s.waitQue with
      -- `pthread_cond_wait` gives the mutex up
      | [] => some ({ s with mutex := none }, .outside)
      | c :: rest => some ({ s.setStatus c (.served t) with waitQue := rest }, .poolUnlock c)
  | .poolUnlock c => some ({ s with mutex := none }, .serve c)
  | .serve c =>
      some (s.setStatus c (.linking t), .readyPut .outside c (s.priority c) true false)
  | .running c =>
      match ch with
      | .ready d preempt => vpuReady t s (.coroutine c) d preempt
      | .suspend => some (s, .waitStatus c false)
      -- without async threads the request is served in place
      | .submit => if m = 0 then some (s, .running c) else some (s, .submitLock c)
      | .yield => some (s, .yieldPut c)
      | .setPriority p =>
          some ({ s with priority := Function.update s.priority c p }, .running c)
      | .exit => some (s.setStatus c .exited, .schedLoop 0)
      | _ => none
  | .submitLock c => if s.mutex = none then some ({ s with mutex := some t }, .submitAdd c) else none
  | .submitAdd c => some ({ s with waitQue := s.waitQue ++ [c] }, .submitFlag c)
  | .submitFlag c => some (s.setAsyncWait c true, .waitStatus c true)
  | .waitStatus c req => some (s.setStatus c (.waiting t req), .waitIowait c req)
  | .waitIowait c req =>
      if s.asyncWait c then some ({ s with totalIowait := s.totalIowait + 1 }, .waitUnlock c req)
      else some (s, .waitUnlock c req)
  | .waitUnlock c true => some ({ s.setStatus c .requested with mutex := none }, .schedLoop 0)
  | .waitUnlock c false => some (s.setStatus c .asleep, .schedLoop 0)
  | .yieldPut c => some (s.setStatus c (.queued (s.priority c)), .yieldPrio c (s.priority c))
  | .yieldPrio c _ => some (s.addReady (s.priority c) 1, .yieldTotal)
  | .yieldTotal => some ({ s with totalReady := s.totalReady + 1 }, .schedLoop 0)
  | .readyPut k d p req preempt => some (s.setStatus d (.queued p), .readyTotal k d p req preempt)
  | .readyTotal k d p req preempt =>
      some ({ s with totalReady := s.totalReady + 1 }, .readyPrio k d p req preempt)
  | .readyPrio k d p req preempt => some (s.addReady p 1, .readyIowait k d req preempt)
  | .readyIowait k d _ preempt =>
      if s.asyncWait d then
        some ({ s with totalIowait := s.totalIowait - 1 }, .readyDecide k d preempt)
      else some (s, .readyDecide k d preempt)
  | .readyDecide k d preempt =>
      match k, ch with
      -- whether all VPUs are awake is left open
      | .coroutine c, .yield =>
          if preempt = true ∧ s.priority c > s.priority d then some (s, .yieldPut c) else none
      | k, .go => some (s, k.pc)
      | _, _ => none
  | .schedLoop prio =>
      if h : prio < P then
        if s.ready ⟨prio, h⟩ = 0 then some (s, .schedLoop (prio + 1))
        else some (s, .schedGet ⟨prio, h⟩)
      else some (s, .schedLoop 0)
  | .schedGet prio =>
      match ch with
      | .take c => takeQueued t s prio c
      | .go => some (s, .schedPoll prio)
      | _ => none
  | .schedPoll prio =>
      match ch with
      | .ready d _ => vpuReady t s (.poll prio) d false
      | .go => some (s, .schedElect prio)
      | _ => none
  | .schedElect prio =>
      match ch with
      | .take c => takeQueued t s prio c
      | .go => some (s, .schedLoop (prio + 1))
      | _ => none
  | .dispTotal c prio => some ({ s with totalReady := s.totalReady - 1 }, .dispPrio c prio)
  | .dispPrio c _ => some (s.addReady (s.priority c) (-1), .dispStatus c)
  | .dispStatus c => some (s.setStatus c (.running t), .dispAsync c)
  | .dispAsync c => some (s.setAsyncWait c false, .running c)

abbrev State (κ : Type) (n m P : Nat) := Pool (Thread n m) (Shared κ n m P) (Pc κ P)

/-- After `coroc_vpu_initialize`: the first coroutine is in the global queue, and all VPUs
    enter `core_sched`.  The other coroutines are those that will be allocated. -/
structure Init (s : State κ n m P) : Prop where
  main : ∃ c, s.shared.status = Function.update (fun _ => .asleep) c (.queued (s.shared.priority c)) ∧
    s.shared.ready = Function.update (fun _ => 0) (s.shared.priority c) 1
  totalReady : s.shared.totalReady = 1
  totalIowait : s.shared.totalIowait = 0
  asyncWait : ∀ c, s.shared.asyncWait c = false
  mutex : s.shared.mutex = none
  waitQue : s.shared.waitQue = []
  vpus : ∀ v, s.locals (.inl v) = .schedLoop 0
  asyncs : ∀ x, s.locals (.inr x) = .outside

/-! ### What a thread knows -/

/-- Places that hold the mutex of the pool. -/
def Pc.locked : Pc κ P → Bool
  | .poolGet | .poolUnlock _ | .submitAdd _ | .submitFlag _ | .waitStatus _ true
  | .waitIowait _ true | .waitUnlock _ true => true
  | _ => false

/-- The request that is in the queue before its coroutine is suspended. -/
def Pc.submits : Pc κ P → Option κ
  | .submitFlag c | .waitStatus c true | .waitIowait c true | .waitUnlock c true => some c
  | _ => none

def Back.At (k : Back κ P) (t : Thread n m) (s : Shared κ n m P) : Prop :=
  match k with
  | .coroutine c => s.status c = .running t ∧ s.asyncWait c = false
  | _ => True

/-- The coroutines a thread has at each of its places. -/
def Has (t : Thread n m) (pc : Pc κ P) (s : Shared κ n m P) : Prop :=
  match pc with
  | .running c | .submitLock c | .submitAdd c => s.status c = .running t ∧ s.asyncWait c = false
  | .submitFlag c | .yieldPut c | .dispAsync c => s.status c = .running t
  | .waitStatus c req => s.status c = .running t ∧ s.asyncWait c = req
  | .waitIowait c req => s.status c = .waiting t req ∧ s.asyncWait c = req
  | .waitUnlock c req => s.status c = .waiting t req
  | .poolUnlock c | .serve c => s.status c = .served t
  | .readyPut k d p _ _ => s.status d = .linking t ∧ s.priority d = p ∧ k.At t s
  | .readyTotal k _ _ _ _ | .readyPrio k _ _ _ _ | .readyIowait k _ _ _ | .readyDecide k _ _ =>
      k.At t s
  | .dispTotal c prio | .dispPrio c prio => s.status c = .elected t ∧ s.priority c = prio
  | .dispStatus c => s.status c = .elected t
  | _ => True

structure At (t : Thread n m) (pc : Pc κ P) (s : Shared κ n m P) : Prop where
  has : Has t pc s
  mutex : pc.locked = true → s.mutex = some t ∧
    ∀ d ∈ s.waitQue, s.status d = .requested ∨ pc.submits = some d

/-- What holds of the shared state between any two steps. -/
structure Keeps (s : Shared κ n m P) : Prop where
  priority : ∀ c p, s.status c = .queued p → s.priority c = p
  waits : s.mutex = none → ∀ c ∈ s.waitQue, s.status c = .requested
  once : s.waitQue.Nodup

/-- What a step of thread `t` leaves alone. -/
structure Guar (t : Thread n m) (s s' : Shared κ n m P) : Prop where
  owned : ∀ c u, u ≠ t → (s.status c).owner = some u → s'.status c = s.status c ∧
    s'.priority c = s.priority c ∧ s'.asyncWait c = s.asyncWait c
  mutex : ∀ u, u ≠ t → s.mutex = some u → s'.mutex = some u ∧ s'.waitQue = s.waitQue ∧
    ∀ c, s.status c = .requested → s'.status c = .requested

omit [DecidableEq κ] in
theorem Back.At.stable {k : Back κ P} {t u : Thread n m} {s s' : Shared κ n m P} (hne : t ≠ u)
    (hG : Guar t s s') (h : k.At u s) : k.At u s' := by
  cases k with
  | coroutine c =>
    obtain ⟨hst, -, haw⟩ := hG.owned c u (Ne.symm hne) (by rw [h.1]; rfl)
    exact ⟨hst.trans h.1, haw.trans h.2⟩
  | outside | poll => trivial

omit [DecidableEq κ] in
theorem At.stable {t u : Thread n m} {pc : Pc κ P} {s s' : Shared κ n m P} (hne : t ≠ u)
    (h : At u pc s) (hG : Guar t s s') : At u pc s' := by
  have hkeep : ∀ {c st}, s.status c = st → st.owner = some u → s'.status c = st ∧
      s'.priority c = s.priority c ∧ s'.asyncWait c = s.asyncWait c := fun hst ho => by
    obtain ⟨h₁, h₂⟩ := hG.owned _ u (Ne.symm hne) (hst ▸ ho)
    exact ⟨h₁.trans hst, h₂⟩
  constructor
  case has =>
    have hhas := h.has
    cases pc <;> simp only [Has] at hhas ⊢
    case running c | submitLock c | submitAdd c | waitStatus c req | waitIowait c req =>
      obtain ⟨hst, -, haw⟩ := hkeep hhas.1 rfl
      exact ⟨hst, haw.trans hhas.2⟩
    case readyPut k d p req b =>
      obtain ⟨hst, hp, -⟩ := hkeep hhas.1 rfl
      exact ⟨hst, hp.trans hhas.2.1, hhas.2.2.stable hne hG⟩
    case readyTotal | readyPrio | readyIowait | readyDecide => exact hhas.stable hne hG
    case dispTotal c prio | dispPrio c prio =>
      obtain ⟨hst, hp, -⟩ := hkeep hhas.1 rfl
      exact ⟨hst, hp.trans hhas.2⟩
    all_goals exact (hkeep hhas rfl).1
  case mutex =>
    intro hl
    obtain ⟨hm, hq⟩ := h.mutex hl
    obtain ⟨hm', hque, hreq⟩ := hG.mutex u (Ne.symm hne) hm
    rw [hque]
    exact ⟨hm', fun d hd => (hq d hd).imp_left (hreq d)⟩

/-! ### Balances -/

def Status.isQueued (p : Fin P) : Status n m P → Bool
  | .queued q => decide (q = p)
  | _ => false

def Status.anyQueued : Status n m P → Bool
  | .queued _ => true
  | _ => false

/-- What a thread between a queue of priority `p` and `ready[p]` owes the counter. -/
def Pc.owesReady (p : Fin P) : Pc κ P → UInt32
  | .readyTotal _ _ q _ _ | .readyPrio _ _ q _ _ | .yieldPrio _ q => if q = p then 1 else 0
  | .dispTotal _ q | .dispPrio _ q => if q = p then -1 else 0
  | _ => 0

def Pc.owesTotal : Pc κ P → UInt32
  | .readyTotal _ _ _ _ _ | .yieldPrio _ _ | .yieldTotal => 1
  | .dispTotal _ _ => -1
  | _ => 0

def Pc.owesIowait : Pc κ P → UInt32
  | .waitIowait _ true => 1
  | .readyPut _ _ _ true _ | .readyTotal _ _ _ true _ | .readyPrio _ _ _ true _
  | .readyIowait _ _ true _ => -1
  | _ => 0

/-- `core_yield` reads the priority with which it has queued the coroutine. -/
def PriorityKept (s : Shared κ n m P) : Pc κ P → Bool
  | .yieldPrio c q => decide (s.priority c = q)
  | _ => true

/-- `vpu_ready` reads in `async_wait` whether the coroutine came out of a request. -/
def AsyncWaitKept (s : Shared κ n m P) : Pc κ P → Bool
  | .readyIowait _ d req _ => decide (s.asyncWait d = req)
  | _ => true

variable [Fintype κ]

/-- The number of coroutines with a status of some kind, as a counter holds it. -/
def Shared.count (s : Shared κ n m P) (w : Status n m P → Bool) : UInt32 :=
  ∑ c, if w (s.status c) then 1 else 0

/-- A step moves the balance of each counter between the counter and the thread. -/
structure Balanced (s : Shared κ n m P) (pc : Pc κ P) (s' : Shared κ n m P) (pc' : Pc κ P) :
    Prop where
  ready : PriorityKept s pc = true → ∀ p, s'.ready p - s'.count (Status.isQueued p) + pc'.owesReady p =
    s.ready p - s.count (Status.isQueued p) + pc.owesReady p
  total : s'.totalReady - s'.count Status.anyQueued + pc'.owesTotal =
    s.totalReady - s.count Status.anyQueued + pc.owesTotal
  iowait : AsyncWaitKept s pc = true → s'.totalIowait - s'.count Status.inRequest + pc'.owesIowait =
    s.totalIowait - s.count Status.inRequest + pc.owesIowait

theorem count_update {s s' : Shared κ n m P} {c : κ} {st : Status n m P}
    (h : s'.status = Function.update s.status c st) (w : Status n m P → Bool) :
    s'.count w + (if w (s.status c) then 1 else 0) = s.count w + if w st then 1 else 0 := by
  unfold Shared.count
  rw [h]
  exact sum_update (fun st : Status n m P => if w st then (1 : UInt32) else 0) s.status c st

/-- The status of one coroutine changes, and no counter. -/
theorem Balanced.of_status {s s' : Shared κ n m P} {pc pc' : Pc κ P} {c : κ} {st : Status n m P}
    (hstatus : s'.status = Function.update s.status c st)
    (hcounters : s'.ready = s.ready ∧ s'.totalReady = s.totalReady ∧ s'.totalIowait = s.totalIowait)
    (hready : ∀ p, pc'.owesReady p + (if (s.status c).isQueued p then 1 else 0) =
      pc.owesReady p + if st.isQueued p then 1 else 0)
    (htotal : pc'.owesTotal + (if (s.status c).anyQueued then 1 else 0) =
      pc.owesTotal + if st.anyQueued then 1 else 0)
    (hiowait : pc'.owesIowait + (if (s.status c).inRequest then 1 else 0) =
      pc.owesIowait + if st.inRequest then 1 else 0) : Balanced s pc s' pc' := by
  obtain ⟨h₁, h₂, h₃⟩ := hcounters
  refine ⟨fun _ p => ?_, ?_, fun _ => ?_⟩
  · have hc := count_update hstatus (Status.isQueued p)
    have := hready p
    rw [h₁]
    grind
  · have hc := count_update hstatus Status.anyQueued
    rw [h₂]
    grind
  · have hc := count_update hstatus Status.inRequest
    rw [h₃]
    grind

omit [DecidableEq κ] in
/-- No status changes, and no counter. -/
theorem Balanced.of_same {s s' : Shared κ n m P} {pc pc' : Pc κ P} (hstatus : s'.status = s.status)
    (hcounters : s'.ready = s.ready ∧ s'.totalReady = s.totalReady ∧ s'.totalIowait = s.totalIowait)
    (hready : ∀ p, pc'.owesReady p = pc.owesReady p) (htotal : pc'.owesTotal = pc.owesTotal)
    (hiowait : AsyncWaitKept s pc = true → pc'.owesIowait = pc.owesIowait) : Balanced s pc s' pc' := by
  have hcount : ∀ w, s'.count w = s.count w := fun w => by simp only [Shared.count, hstatus]
  obtain ⟨h₁, h₂, h₃⟩ := hcounters
  refine ⟨fun _ p => ?_, ?_, fun hkept => ?_⟩
  · rw [hcount, h₁, hready]
  · rw [hcount, h₂, htotal]
  · rw [hcount, h₃, hiowait hkept]

/-! ### One step of one thread -/

structure StepOk (t : Thread n m) (s : Shared κ n m P) (pc : Pc κ P) (s' : Shared κ n m P)
    (pc' : Pc κ P) : Prop where
  keeps : Keeps s'
  place : At t pc' s'
  guar : Guar t s s'
  balanced : Balanced s pc s' pc'

omit [Fintype κ] in
theorem guar_setStatus {t : Thread n m} {s : Shared κ n m P} {c : κ}
    (hown : (s.status c).owner = none ∨ (s.status c).owner = some t)
    (hreq : s.status c ≠ .requested) (st : Status n m P) : Guar t s (s.setStatus c st) := by
  refine ⟨fun d u hne ho => ?_, fun _ _ hm => ⟨hm, rfl, fun d hd => ?_⟩⟩
  · have hd : d ≠ c := by
      rintro rfl
      rcases hown with h | h <;> rw [ho] at h
      · cases h
      · exact hne (Option.some.inj h)
    simp [Shared.setStatus, hd]
  · have hdc : d ≠ c := by
      rintro rfl
      exact hreq hd
    simpa [Shared.setStatus, hdc] using hd

omit [Fintype κ] in
theorem keeps_setStatus {s : Shared κ n m P} {c : κ} {st : Status n m P} (hk : Keeps s)
    (hreq : s.status c ≠ .requested) (hprio : ∀ p, st = .queued p → s.priority c = p) :
    Keeps (s.setStatus c st) := by
  refine ⟨fun d p hd => ?_, fun hm d hd => ?_, hk.once⟩
  · by_cases hdc : d = c
    · subst hdc
      exact hprio p (by simpa [Shared.setStatus] using hd)
    · exact hk.priority d p (by simpa [Shared.setStatus, hdc] using hd)
  · have hwait := hk.waits hm d hd
    have hdc : d ≠ c := by
      rintro rfl
      exact hreq hwait
    simpa [Shared.setStatus, hdc] using hwait

/-- Handing a coroutine on: the thread that has it (or finds it in nobody's hands)
    changes its status. -/
theorem StepOk.of_status {t : Thread n m} {s : Shared κ n m P} {pc pc' : Pc κ P} {c : κ}
    {st : Status n m P} (hk : Keeps s) (hat : At t pc s)
    (hown : (s.status c).owner = none ∨ (s.status c).owner = some t)
    (hreq : s.status c ≠ .requested) (hprio : ∀ p, st = .queued p → s.priority c = p)
    (hhas : Has t pc' (s.setStatus c st))
    (hlocked : pc'.locked = true → pc.locked = true ∧ pc'.submits = pc.submits)
    (hready : ∀ p, pc'.owesReady p + (if (s.status c).isQueued p then 1 else 0) =
      pc.owesReady p + if st.isQueued p then 1 else 0)
    (htotal : pc'.owesTotal + (if (s.status c).anyQueued then 1 else 0) =
      pc.owesTotal + if st.anyQueued then 1 else 0)
    (hiowait : pc'.owesIowait + (if (s.status c).inRequest then 1 else 0) =
      pc.owesIowait + if st.inRequest then 1 else 0) :
    StepOk t s pc (s.setStatus c st) pc' := by
  refine ⟨keeps_setStatus hk hreq hprio, ⟨hhas, fun hl => ?_⟩, guar_setStatus hown hreq st,
    .of_status rfl ⟨rfl, rfl, rfl⟩ hready htotal hiowait⟩
  obtain ⟨hl', hsub⟩ := hlocked hl
  obtain ⟨hm, hq⟩ := hat.mutex hl'
  refine ⟨hm, fun d hd => ?_⟩
  rw [hsub]
  refine (hq d hd).imp_left fun hwait => ?_
  have hdc : d ≠ c := by
    rintro rfl
    exact hreq hwait
  simpa [Shared.setStatus, hdc] using hwait

omit [DecidableEq κ] in
/-- Steps at counters, and steps that change nothing but the place. -/
theorem StepOk.of_counters {t : Thread n m} {s s' : Shared κ n m P} {pc pc' : Pc κ P}
    (hk : Keeps s) (hat : At t pc s) (hstatus : s'.status = s.status)
    (hpriority : s'.priority = s.priority) (hasync : s'.asyncWait = s.asyncWait)
    (hmutex : s'.mutex = s.mutex) (hque : s'.waitQue = s.waitQue) (hhas : Has t pc' s')
    (hlocked : pc'.locked = true → pc.locked = true ∧ pc'.submits = pc.submits)
    (hbal : Balanced s pc s' pc') : StepOk t s pc s' pc' := by
  refine ⟨⟨?_, ?_, ?_⟩, ⟨hhas, fun hl => ?_⟩, ⟨?_, ?_⟩, hbal⟩
  · rw [hstatus, hpriority]
    exact hk.priority
  · rw [hstatus, hmutex, hque]
    exact hk.waits
  · rw [hque]
    exact hk.once
  · obtain ⟨hl', hsub⟩ := hlocked hl
    rw [hmutex, hque, hstatus, hsub]
    exact hat.mutex hl'
  · intro c u _ _
    rw [hstatus, hpriority, hasync]
    exact ⟨rfl, rfl, rfl⟩
  · intro u _ hm
    rw [hmutex, hque, hstatus]
    exact ⟨hm, rfl, fun _ h => h⟩

omit [DecidableEq κ] in
theorem StepOk.of_local {t : Thread n m} {s : Shared κ n m P} {pc pc' : Pc κ P} (hk : Keeps s)
    (hat : At t pc s) (hhas : Has t pc' s)
    (hlocked : pc'.locked = true → pc.locked = true ∧ pc'.submits = pc.submits)
    (hready : ∀ p, pc'.owesReady p = pc.owesReady p) (htotal : pc'.owesTotal = pc.owesTotal)
    (hiowait : AsyncWaitKept s pc = true → pc'.owesIowait = pc.owesIowait) : StepOk t s pc s pc' :=
  .of_counters hk hat rfl rfl rfl rfl rfl hhas hlocked
    (.of_same rfl ⟨rfl, rfl, rfl⟩ hready htotal hiowait)

omit [DecidableEq κ] in
/-- Taking the mutex of the pool. -/
theorem StepOk.of_lock {t : Thread n m} {s : Shared κ n m P} {pc pc' : Pc κ P} (hk : Keeps s)
    (hfree : s.mutex = none) (hhas : Has t pc' s)
    (hready : ∀ p, pc'.owesReady p = pc.owesReady p) (htotal : pc'.owesTotal = pc.owesTotal)
    (hiowait : pc'.owesIowait = pc.owesIowait) :
    StepOk t s pc { s with mutex := some t } pc' := by
  refine ⟨⟨hk.priority, (fun hm => nomatch hm), hk.once⟩,
    ⟨by cases pc' <;> exact hhas, fun _ => ⟨rfl, fun d hd => .inl (hk.waits hfree d hd)⟩⟩,
    ⟨fun _ _ _ _ => ⟨rfl, rfl, rfl⟩, fun u _ hm => ?_⟩,
    .of_same rfl ⟨rfl, rfl, rfl⟩ hready htotal fun _ => hiowait⟩
  rw [hfree] at hm
  cases hm

omit [DecidableEq κ] in
/-- Releasing it. -/
theorem StepOk.of_unlock {t : Thread n m} {s : Shared κ n m P} {pc pc' : Pc κ P} (hk : Keeps s)
    (hat : At t pc s) (hlocked : pc.locked = true) (hsub : pc.submits = none)
    (hopen : pc'.locked = false) (hhas : Has t pc' s)
    (hready : ∀ p, pc'.owesReady p = pc.owesReady p) (htotal : pc'.owesTotal = pc.owesTotal)
    (hiowait : pc'.owesIowait = pc.owesIowait) :
    StepOk t s pc { s with mutex := none } pc' := by
  obtain ⟨hm, hq⟩ := hat.mutex hlocked
  refine ⟨⟨hk.priority, fun _ d hd => ?_, hk.once⟩,
    ⟨by cases pc' <;> exact hhas, fun hl => ?_⟩, ⟨fun _ _ _ _ => ⟨rfl, rfl, rfl⟩, fun u hne hm' => ?_⟩,
    .of_same rfl ⟨rfl, rfl, rfl⟩ hready htotal fun _ => hiowait⟩
  · rcases hq d hd with hwait | hsome
    · exact hwait
    · rw [hsub] at hsome
      cases hsome
  · rw [hopen] at hl
    cases hl
  · rw [hm] at hm'
    exact absurd (Option.some.inj hm').symm hne

omit [Fintype κ] in
/-- `Back.At` after a status change of a coroutine that is not running. -/
theorem Back.At.setStatus {k : Back κ P} {t : Thread n m} {s : Shared κ n m P} {d : κ}
    {st : Status n m P} (h : k.At t s) (hne : s.status d ≠ .running t) :
    k.At t (s.setStatus d st) := by
  cases k with
  | coroutine c =>
    have hc : c ≠ d := by
      rintro rfl
      exact hne h.1
    exact ⟨by simpa [Shared.setStatus, hc] using h.1, h.2⟩
  | outside | poll => trivial

theorem vpuReady_ok {t : Thread n m} {s s' : Shared κ n m P} {pc pc' : Pc κ P} {k : Back κ P} {d : κ}
    {b : Bool} (hk : Keeps s) (hat : At t pc s) (hback : k.At t s)
    (hready : ∀ p, pc.owesReady p = 0) (htotal : pc.owesTotal = 0) (hiowait : pc.owesIowait = 0)
    (hs : vpuReady t s k d b = some (s', pc')) : StepOk t s pc s' pc' := by
  simp only [vpuReady, Option.ite_none_right_eq_some, Option.some.injEq, Prod.mk.injEq] at hs
  obtain ⟨hasleep, rfl, rfl⟩ := hs
  refine .of_status hk hat (.inl (by rw [hasleep]; rfl)) (by rw [hasleep]; nofun) (fun _ h => nomatch h)
    ⟨by simp [Shared.setStatus], rfl, hback.setStatus (by rw [hasleep]; nofun)⟩ (fun h => nomatch h)
    (fun p => ?_) ?_ ?_
  · rw [hready, hasleep]
    rfl
  · rw [htotal, hasleep]
    rfl
  · rw [hiowait, hasleep]
    rfl

theorem takeQueued_ok {t : Thread n m} {s s' : Shared κ n m P} {pc pc' : Pc κ P} {prio : Fin P}
    {c : κ} (hk : Keeps s) (hat : At t pc s) (hready : ∀ p, pc.owesReady p = 0)
    (htotal : pc.owesTotal = 0) (hiowait : pc.owesIowait = 0)
    (hs : takeQueued t s prio c = some (s', pc')) : StepOk t s pc s' pc' := by
  simp only [takeQueued, Option.ite_none_right_eq_some, Option.some.injEq, Prod.mk.injEq] at hs
  obtain ⟨⟨hq, hp⟩, rfl, rfl⟩ := hs
  refine .of_status hk hat (.inl (by rw [hq]; rfl)) (by rw [hq]; nofun) (fun _ h => nomatch h)
    ⟨by simp [Shared.setStatus], hp⟩ (fun h => nomatch h) (fun p => ?_) ?_ ?_
  · rw [hready, hq]
    by_cases h : prio = p
    · simp [Pc.owesReady, Status.isQueued, h]
    · simp [Pc.owesReady, Status.isQueued, h]
  · rw [htotal, hq]
    simp [Pc.owesTotal, Status.anyQueued]
  · rw [hiowait, hq]
    rfl

/-- An async thread takes the first request. -/
theorem poolGet_ok {t : Thread n m} {s : Shared κ n m P} {c : κ} {rest : List κ} (hk : Keeps s)
    (hat : At t .poolGet s) (hque : s.waitQue = c :: rest) :
    StepOk t s .poolGet { s.setStatus c (.served t) with waitQue := rest } (.poolUnlock c) := by
  obtain ⟨hm, hall⟩ := hat.mutex rfl
  have hwait : ∀ d ∈ s.waitQue, s.status d = .requested := fun d hd =>
    (hall d hd).resolve_right nofun
  have hc : s.status c = .requested := hwait c (by simp [hque])
  have hnodup := hk.once
  rw [hque, List.nodup_cons] at hnodup
  have hrest : ∀ d ∈ rest, (s.setStatus c (.served t)).status d = .requested := by
    intro d hd
    have hdc : d ≠ c := by
      rintro rfl
      exact hnodup.1 hd
    have := hwait d (by simp [hque, hd])
    simpa [Shared.setStatus, hdc] using this
  refine ⟨⟨fun d p hd => ?_, fun _ => hrest, hnodup.2⟩,
    ⟨by simp [Has, Shared.setStatus], fun _ => ⟨hm, fun d hd => .inl (hrest d hd)⟩⟩,
    ⟨fun d u hne ho => ?_, fun u hne hm' => ?_⟩,
    .of_status rfl ⟨rfl, rfl, rfl⟩ (fun p => ?_) ?_ ?_⟩
  · by_cases hdc : d = c
    · subst hdc
      simp [Shared.setStatus] at hd
    · exact hk.priority d p (by simpa [Shared.setStatus, hdc] using hd)
  · have hdc : d ≠ c := by
      rintro rfl
      rw [hc] at ho
      cases ho
    simp [Shared.setStatus, hdc]
  · rw [hm] at hm'
    exact absurd (Option.some.inj hm').symm hne
  · rw [hc]
    rfl
  · rw [hc]
    rfl
  · rw [hc]
    rfl

/-- The end of `core_wait` in an async request. -/
theorem waitUnlock_ok {t : Thread n m} {s : Shared κ n m P} {c : κ} (hk : Keeps s)
    (hat : At t (.waitUnlock c true) s) :
    StepOk t s (.waitUnlock c true) { s.setStatus c .requested with mutex := none }
      (.schedLoop 0) := by
  have hc : s.status c = .waiting t true := hat.has
  obtain ⟨hm, hall⟩ := hat.mutex rfl
  refine ⟨⟨fun d p hd => ?_, fun _ d hd => ?_, hk.once⟩, ⟨trivial, nofun⟩,
    ⟨fun d u hne ho => ?_, fun u hne hm' => ?_⟩,
    .of_status rfl ⟨rfl, rfl, rfl⟩ (fun p => ?_) ?_ ?_⟩
  · by_cases hdc : d = c
    · subst hdc
      simp [Shared.setStatus] at hd
    · exact hk.priority d p (by simpa [Shared.setStatus, hdc] using hd)
  · by_cases hdc : d = c
    · subst hdc
      simp [Shared.setStatus]
    · have hwait : s.status d = .requested := (hall d hd).resolve_right fun h => by
        cases h
        exact hdc rfl
      simpa [Shared.setStatus, hdc] using hwait
  · have hdc : d ≠ c := by
      rintro rfl
      rw [hc] at ho
      exact hne (Option.some.inj ho).symm
    simp [Shared.setStatus, hdc]
  · rw [hm] at hm'
    exact absurd (Option.some.inj hm').symm hne
  · rw [hc]
    rfl
  · rw [hc]
    rfl
  · rw [hc]
    rfl

omit [Fintype κ] [DecidableEq κ] in
/-- A thread that has a coroutine is the only one. -/
theorem ne_of_owner {t u : Thread n m} {s : Shared κ n m P} {c d : κ}
    (hc : (s.status c).owner = some t) (hne : u ≠ t) (hd : (s.status d).owner = some u) : d ≠ c := by
  rintro rfl
  rw [hc] at hd
  exact hne (Option.some.inj hd).symm

theorem setPriority_ok {t : Thread n m} {s : Shared κ n m P} {c : κ} {p : Fin P} (hk : Keeps s)
    (hat : At t (.running c) s) :
    StepOk t s (.running c) { s with priority := Function.update s.priority c p } (.running c) := by
  have hc : s.status c = .running t := hat.has.1
  refine ⟨⟨fun d q hd => ?_, hk.waits, hk.once⟩, ⟨hat.has, nofun⟩,
    ⟨fun d u hne ho => ?_, fun _ _ hm => ⟨hm, rfl, fun _ h => h⟩⟩,
    .of_same rfl ⟨rfl, rfl, rfl⟩ (fun _ => rfl) rfl fun _ => rfl⟩
  · have hdc : d ≠ c := by
      rintro rfl
      exact nomatch hc.symm.trans hd
    simpa [hdc] using hk.priority d q hd
  · have hdc := ne_of_owner (by rw [hc]; rfl) hne ho
    simp [hdc]

/-- The owner of a running coroutine writes `async_wait`. -/
theorem setAsyncWait_ok {t : Thread n m} {s : Shared κ n m P} {pc pc' : Pc κ P} {c : κ} {b : Bool}
    (hk : Keeps s) (hat : At t pc s) (hc : s.status c = .running t)
    (hhas : Has t pc' (s.setAsyncWait c b))
    (hlocked : pc'.locked = true → pc.locked = true ∧ pc'.submits = pc.submits)
    (hready : ∀ p, pc'.owesReady p = pc.owesReady p) (htotal : pc'.owesTotal = pc.owesTotal)
    (hiowait : pc'.owesIowait = pc.owesIowait) : StepOk t s pc (s.setAsyncWait c b) pc' := by
  refine ⟨⟨hk.priority, hk.waits, hk.once⟩, ⟨hhas, fun hl => ?_⟩,
    ⟨fun d u hne ho => ?_, fun _ _ hm => ⟨hm, rfl, fun _ h => h⟩⟩,
    .of_same rfl ⟨rfl, rfl, rfl⟩ hready htotal fun _ => hiowait⟩
  · obtain ⟨hl', hsub⟩ := hlocked hl
    rw [hsub]
    exact hat.mutex hl'
  · have hdc := ne_of_owner (by rw [hc]; rfl) hne ho
    simp [Shared.setAsyncWait, hdc]

omit [DecidableEq κ] in
theorem submitAdd_ok {t : Thread n m} {s : Shared κ n m P} {c : κ} (hk : Keeps s)
    (hat : At t (.submitAdd c) s) :
    StepOk t s (.submitAdd c) { s with waitQue := s.waitQue ++ [c] } (.submitFlag c) := by
  have hc : s.status c = .running t := hat.has.1
  obtain ⟨hm, hall⟩ := hat.mutex rfl
  have hwait : ∀ d ∈ s.waitQue, s.status d = .requested := fun d hd =>
    (hall d hd).resolve_right nofun
  refine ⟨⟨hk.priority, fun hm' => ?_, ?_⟩, ⟨hc, fun _ => ⟨hm, fun d hd => ?_⟩⟩,
    ⟨fun _ _ _ _ => ⟨rfl, rfl, rfl⟩, fun u hne hm' => ?_⟩,
    .of_same rfl ⟨rfl, rfl, rfl⟩ (fun _ => rfl) rfl fun _ => rfl⟩
  · exact nomatch hm.symm.trans hm'
  · refine List.nodup_append.mpr ⟨hk.once, List.nodup_singleton c, fun d hd e he => ?_⟩
    rintro rfl
    rw [List.mem_singleton] at he
    subst he
    exact nomatch hc.symm.trans (hwait d hd)
  · rcases List.mem_append.mp hd with hd | hd
    · exact .inl (hwait d hd)
    · rw [List.mem_singleton] at hd
      subst hd
      exact .inr rfl
  · rw [hm] at hm'
    exact absurd (Option.some.inj hm').symm hne

/-- Steps of `core_wait`. -/
theorem wait_ok {t : Thread n m} {s s' : Shared κ n m P} {pc pc' : Pc κ P} {ch : Choice κ P} {c : κ}
    {req : Bool} (hk : Keeps s) (hat : At t pc s)
    (hpc : pc = .waitStatus c req ∨ pc = .waitIowait c req ∨ pc = .waitUnlock c req)
    (hs : step t s pc ch = some (s', pc')) : StepOk t s pc s' pc' := by
  rcases hpc with rfl | rfl | rfl
  · obtain ⟨hc, haw⟩ := hat.has
    simp only [step, Option.some.injEq, Prod.mk.injEq] at hs
    obtain ⟨rfl, rfl⟩ := hs
    refine .of_status hk hat (.inr (by rw [hc]; rfl)) (by rw [hc]; nofun) nofun
      ⟨by simp [Shared.setStatus], haw⟩ ?_ (fun p => ?_) ?_ ?_
    · cases req
      · exact nofun
      · exact fun _ => ⟨rfl, rfl⟩
    · rw [hc]
      rfl
    · rw [hc]
      rfl
    · rw [hc]
      cases req <;> simp [Pc.owesIowait, Status.inRequest]
  · obtain ⟨hc, haw⟩ := hat.has
    -- the thread has the coroutine, so its own test reads what it has set
    simp only [step, haw] at hs
    cases req
    · simp only [Bool.false_eq_true, if_false, Option.some.injEq, Prod.mk.injEq] at hs
      obtain ⟨rfl, rfl⟩ := hs
      exact .of_local hk hat hc nofun (fun _ => rfl) rfl fun _ => rfl
    · simp only [if_true, Option.some.injEq, Prod.mk.injEq] at hs
      obtain ⟨rfl, rfl⟩ := hs
      refine .of_counters hk hat rfl rfl rfl rfl rfl hc (fun _ => ⟨rfl, rfl⟩)
        ⟨fun _ _ => rfl, rfl, fun _ => ?_⟩
      simp only [Pc.owesIowait, Shared.count]
      grind
  · cases req
    · have hc : s.status c = .waiting t false := hat.has
      simp only [step, Option.some.injEq, Prod.mk.injEq] at hs
      obtain ⟨rfl, rfl⟩ := hs
      refine .of_status hk hat (.inr (by rw [hc]; rfl)) (by rw [hc]; nofun) nofun trivial nofun
        (fun p => ?_) ?_ ?_
      · rw [hc]
        rfl
      · rw [hc]
        rfl
      · rw [hc]
        rfl
    · simp only [step, Option.some.injEq, Prod.mk.injEq] at hs
      obtain ⟨rfl, rfl⟩ := hs
      exact waitUnlock_ok hk hat

omit [DecidableEq κ] in
/-- The step at `ready[p]`. -/
theorem Balanced.of_ready {s : Shared κ n m P} {pc pc' : Pc κ P} {p : Fin P} {d : UInt32}
    (hready : PriorityKept s pc = true → ∀ q, pc'.owesReady q + (if p = q then d else 0) = pc.owesReady q)
    (htotal : pc'.owesTotal = pc.owesTotal) (hiowait : pc'.owesIowait = pc.owesIowait) :
    Balanced s pc (s.addReady p d) pc' := by
  refine ⟨fun hkept q => ?_, ?_, fun _ => ?_⟩
  · have hq := hready hkept q
    change Function.update s.ready p (s.ready p + d) q - s.count _ + _ = _
    by_cases h : q = p
    · subst h
      rw [Function.update_self]
      rw [if_pos rfl] at hq
      grind
    · rw [Function.update_of_ne h]
      rw [if_neg (Ne.symm h)] at hq
      grind
  · rw [htotal]
    rfl
  · rw [hiowait]
    rfl

/-- Steps of `core_yield`. -/
theorem yield_ok {t : Thread n m} {s s' : Shared κ n m P} {pc pc' : Pc κ P} {ch : Choice κ P}
    (hk : Keeps s) (hat : At t pc s)
    (hpc : (∃ c, pc = .yieldPut c) ∨ (∃ c q, pc = .yieldPrio c q) ∨ pc = .yieldTotal)
    (hs : step t s pc ch = some (s', pc')) : StepOk t s pc s' pc' := by
  rcases hpc with ⟨c, rfl⟩ | ⟨c, q, rfl⟩ | rfl <;>
    simp only [step, Option.some.injEq, Prod.mk.injEq] at hs <;> obtain ⟨rfl, rfl⟩ := hs
  · have hc : s.status c = .running t := hat.has
    refine .of_status hk hat (.inr (by rw [hc]; rfl)) (by rw [hc]; nofun) ?_ trivial nofun
      (fun p => ?_) ?_ ?_
    · rintro p hp
      cases hp
      rfl
    · rw [hc]
      simp [Pc.owesReady, Status.isQueued]
    · rw [hc]
      simp [Pc.owesTotal, Status.anyQueued]
    · rw [hc]
      rfl
  · -- the priority is read again
    refine .of_counters hk hat rfl rfl rfl rfl rfl trivial nofun (.of_ready (fun hkept p => ?_) rfl rfl)
    have hkept : s.priority c = q := of_decide_eq_true hkept
    simp [Pc.owesReady, hkept]
  · refine .of_counters hk hat rfl rfl rfl rfl rfl trivial nofun ⟨fun _ _ => rfl, ?_, fun _ => rfl⟩
    simp only [Pc.owesTotal, Shared.count]
    grind

/-- Steps of `vpu_ready` after its entry. -/
theorem ready_ok {t : Thread n m} {s s' : Shared κ n m P} {pc pc' : Pc κ P} {ch : Choice κ P}
    {k : Back κ P} {d : κ} {p : Fin P} {req b : Bool} (hk : Keeps s) (hat : At t pc s)
    (hpc : pc = .readyPut k d p req b ∨ pc = .readyTotal k d p req b ∨ pc = .readyPrio k d p req b ∨
      pc = .readyIowait k d req b) (hs : step t s pc ch = some (s', pc')) : StepOk t s pc s' pc' := by
  rcases hpc with rfl | rfl | rfl | rfl
  · obtain ⟨hd, hp, hback⟩ := hat.has
    simp only [step, Option.some.injEq, Prod.mk.injEq] at hs
    obtain ⟨rfl, rfl⟩ := hs
    refine .of_status hk hat (.inr (by rw [hd]; rfl)) (by rw [hd]; nofun) ?_
      (hback.setStatus (by rw [hd]; nofun)) nofun (fun q => ?_) ?_ ?_
    · rintro q hq
      cases hq
      exact hp
    · rw [hd]
      simp [Pc.owesReady, Status.isQueued]
    · rw [hd]
      simp [Pc.owesTotal, Status.anyQueued]
    · rw [hd]
      cases req <;> simp [Pc.owesIowait, Status.inRequest]
  · have hback : k.At t s := hat.has
    simp only [step, Option.some.injEq, Prod.mk.injEq] at hs
    obtain ⟨rfl, rfl⟩ := hs
    refine .of_counters hk hat rfl rfl rfl rfl rfl (by cases k <;> exact hback) nofun
      ⟨fun _ _ => rfl, ?_, fun _ => ?_⟩
    · simp only [Pc.owesTotal, Shared.count]
      grind
    · cases req <;> rfl
  · have hback : k.At t s := hat.has
    simp only [step, Option.some.injEq, Prod.mk.injEq] at hs
    obtain ⟨rfl, rfl⟩ := hs
    refine .of_counters hk hat rfl rfl rfl rfl rfl (by cases k <;> exact hback) nofun
      (.of_ready (fun _ q => ?_) rfl ?_)
    · simp [Pc.owesReady]
    · cases req <;> rfl
  · have hback : k.At t s := hat.has
    by_cases haw : s.asyncWait d = true
    · simp only [step, haw, if_true, Option.some.injEq, Prod.mk.injEq] at hs
      obtain ⟨rfl, rfl⟩ := hs
      refine .of_counters hk hat rfl rfl rfl rfl rfl (by cases k <;> exact hback) nofun
        ⟨fun _ _ => rfl, rfl, fun hkept => ?_⟩
      have hreq : req = true := (of_decide_eq_true hkept).symm.trans haw
      subst hreq
      simp only [Pc.owesIowait, Shared.count]
      grind
    · simp only [step, if_neg haw, Option.some.injEq, Prod.mk.injEq] at hs
      obtain ⟨rfl, rfl⟩ := hs
      refine .of_local hk hat (by cases k <;> exact hback) nofun (fun _ => rfl) rfl fun hkept => ?_
      have hreq : req = false := by
        rw [← of_decide_eq_true hkept]
        simpa using haw
      subst hreq
      rfl

/-- Steps of the dispatch. -/
theorem dispatch_ok {t : Thread n m} {s s' : Shared κ n m P} {pc pc' : Pc κ P} {ch : Choice κ P}
    {c : κ} {p : Fin P} (hk : Keeps s) (hat : At t pc s)
    (hpc : pc = .dispTotal c p ∨ pc = .dispPrio c p ∨ pc = .dispStatus c ∨ pc = .dispAsync c)
    (hs : step t s pc ch = some (s', pc')) : StepOk t s pc s' pc' := by
  rcases hpc with rfl | rfl | rfl | rfl <;>
    simp only [step, Option.some.injEq, Prod.mk.injEq] at hs <;> obtain ⟨rfl, rfl⟩ := hs
  · refine .of_counters hk hat rfl rfl rfl rfl rfl hat.has nofun ⟨fun _ _ => rfl, ?_, fun _ => rfl⟩
    simp only [Pc.owesTotal, Shared.count]
    grind
  · obtain ⟨hc, hp⟩ := hat.has
    refine .of_counters hk hat rfl rfl rfl rfl rfl hc nofun (.of_ready (fun _ q => ?_) rfl rfl)
    simp [Pc.owesReady, hp]
  · have hc : s.status c = .elected t := hat.has
    refine .of_status hk hat (.inr (by rw [hc]; rfl)) (by rw [hc]; nofun) nofun
      (by simp [Has, Shared.setStatus]) nofun (fun q => ?_) ?_ ?_
    · rw [hc]
      rfl
    · rw [hc]
      rfl
    · rw [hc]
      rfl
  · have hc : s.status c = .running t := hat.has
    exact setAsyncWait_ok hk hat hc ⟨hc, by simp [Shared.setAsyncWait]⟩ nofun (fun _ => rfl) rfl rfl

theorem running_ok {t : Thread n m} {s s' : Shared κ n m P} {pc' : Pc κ P} {ch : Choice κ P}
    {c : κ} (hk : Keeps s) (hat : At t (.running c) s)
    (hs : step t s (.running c) ch = some (s', pc')) : StepOk t s (.running c) s' pc' := by
  obtain ⟨hc, haw⟩ := hat.has
  simp only [step] at hs
  cases ch with
  | ready d b => exact vpuReady_ok (k := .coroutine c) hk hat ⟨hc, haw⟩ (fun _ => rfl) rfl rfl hs
  | suspend =>
    cases hs
    exact .of_local hk hat ⟨hc, haw⟩ nofun (fun _ => rfl) rfl fun _ => rfl
  | submit =>
    dsimp only at hs
    split at hs <;> cases hs
    · exact .of_local hk hat ⟨hc, haw⟩ nofun (fun _ => rfl) rfl fun _ => rfl
    · exact .of_local hk hat ⟨hc, haw⟩ nofun (fun _ => rfl) rfl fun _ => rfl
  | yield =>
    cases hs
    exact .of_local hk hat hc nofun (fun _ => rfl) rfl fun _ => rfl
  | setPriority p =>
    cases hs
    exact setPriority_ok hk hat
  | exit =>
    cases hs
    refine .of_status hk hat (.inr (by rw [hc]; rfl)) (by rw [hc]; nofun) nofun trivial nofun
      (fun p => ?_) ?_ ?_
    · rw [hc]
      rfl
    · rw [hc]
      rfl
    · rw [hc]
      rfl
  | go => cases hs
  | take d => cases hs

theorem step_ok {t : Thread n m} {s s' : Shared κ n m P} {pc pc' : Pc κ P} {ch : Choice κ P}
    (hk : Keeps s) (hat : At t pc s) (hs : step t s pc ch = some (s', pc')) :
    StepOk t s pc s' pc' := by
  cases pc with
  | running c => exact running_ok hk hat hs
  | waitStatus c req => exact wait_ok hk hat (.inl rfl) hs
  | waitIowait c req => exact wait_ok hk hat (.inr (.inl rfl)) hs
  | waitUnlock c req => exact wait_ok hk hat (.inr (.inr rfl)) hs
  | yieldPut c => exact yield_ok hk hat (.inl ⟨c, rfl⟩) hs
  | yieldPrio c q => exact yield_ok hk hat (.inr (.inl ⟨c, q, rfl⟩)) hs
  | yieldTotal => exact yield_ok hk hat (.inr (.inr rfl)) hs
  | readyPut k d p req b => exact ready_ok hk hat (.inl rfl) hs
  | readyTotal k d p req b => exact ready_ok hk hat (.inr (.inl rfl)) hs
  | readyPrio k d p req b => exact ready_ok hk hat (.inr (.inr (.inl rfl))) hs
  | readyIowait k d req b =>
    exact ready_ok (p := s.priority d) hk hat (.inr (.inr (.inr rfl))) hs
  | dispTotal c p => exact dispatch_ok hk hat (.inl rfl) hs
  | dispPrio c p => exact dispatch_ok hk hat (.inr (.inl rfl)) hs
  | dispStatus c => exact dispatch_ok (p := s.priority c) hk hat (.inr (.inr (.inl rfl))) hs
  | dispAsync c => exact dispatch_ok (p := s.priority c) hk hat (.inr (.inr (.inr rfl))) hs
  | outside =>
    simp only [step, Option.ite_none_right_eq_some, Option.some.injEq, Prod.mk.injEq] at hs
    obtain ⟨hfree, rfl, rfl⟩ := hs
    exact .of_lock hk hfree trivial (fun _ => rfl) rfl rfl
  | poolGet =>
    simp only [step] at hs
    split at hs
    · cases hs
      have hhas : Has t .outside s := trivial
      exact .of_unlock hk hat rfl rfl rfl hhas (fun _ => rfl) rfl rfl
    · rename_i c rest hq
      cases hs
      exact poolGet_ok hk hat hq
  | poolUnlock c =>
    cases hs
    exact .of_unlock hk hat rfl rfl rfl hat.has (fun _ => rfl) rfl rfl
  | serve c =>
    have hc : s.status c = .served t := hat.has
    cases hs
    refine .of_status hk hat (.inr (by rw [hc]; rfl)) (by rw [hc]; nofun) nofun
      ⟨by simp [Shared.setStatus], rfl, trivial⟩ nofun (fun p => ?_) ?_ ?_
    · rw [hc]
      rfl
    · rw [hc]
      rfl
    · rw [hc]
      simp [Pc.owesIowait, Status.inRequest]
  | submitLock c =>
    simp only [step, Option.ite_none_right_eq_some, Option.some.injEq, Prod.mk.injEq] at hs
    obtain ⟨hfree, rfl, rfl⟩ := hs
    exact .of_lock hk hfree hat.has (fun _ => rfl) rfl rfl
  | submitAdd c =>
    cases hs
    exact submitAdd_ok hk hat
  | submitFlag c =>
    have hc : s.status c = .running t := hat.has
    cases hs
    exact setAsyncWait_ok hk hat hc ⟨hc, by simp [Shared.setAsyncWait]⟩ (fun _ => ⟨rfl, rfl⟩)
      (fun _ => rfl) rfl rfl
  | readyDecide k d b =>
    have hback : k.At t s := hat.has
    simp only [step] at hs
    split at hs
    · rename_i c
      split at hs <;> cases hs
      exact .of_local hk hat hback.1 nofun (fun _ => rfl) rfl fun _ => rfl
    · cases hs
      cases k with
      | coroutine c => exact .of_local hk hat hback nofun (fun _ => rfl) rfl fun _ => rfl
      | outside => exact .of_local hk hat trivial nofun (fun _ => rfl) rfl fun _ => rfl
      | poll prio => exact .of_local hk hat trivial nofun (fun _ => rfl) rfl fun _ => rfl
    · cases hs
  | schedLoop prio =>
    simp only [step] at hs
    split at hs
    · split at hs <;> cases hs
      · exact .of_local hk hat trivial nofun (fun _ => rfl) rfl fun _ => rfl
      · exact .of_local hk hat trivial nofun (fun _ => rfl) rfl fun _ => rfl
    · cases hs
      exact .of_local hk hat trivial nofun (fun _ => rfl) rfl fun _ => rfl
  | schedGet prio =>
    simp only [step] at hs
    split at hs
    · exact takeQueued_ok hk hat (fun _ => rfl) rfl rfl hs
    · cases hs
      exact .of_local hk hat trivial nofun (fun _ => rfl) rfl fun _ => rfl
    · cases hs
  | schedPoll prio =>
    simp only [step] at hs
    split at hs
    · exact vpuReady_ok (k := .poll prio) hk hat trivial (fun _ => rfl) rfl rfl hs
    · cases hs
      exact .of_local hk hat trivial nofun (fun _ => rfl) rfl fun _ => rfl
    · cases hs
  | schedElect prio =>
    simp only [step] at hs
    split at hs
    · exact takeQueued_ok hk hat (fun _ => rfl) rfl rfl hs
    · cases hs
      exact .of_local hk hat trivial nofun (fun _ => rfl) rfl fun _ => rfl
    · cases hs

/-! ### Every run -/

theorem modular : Modular (step (κ := κ) (n := n) (m := m) (P := P)) (fun _ _ _ _ => True) Keeps At
    Guar where
  own _ _ _ _ _ _ hk hat _ hs :=
    have h := step_ok hk hat hs
    ⟨h.keeps, h.place, h.guar⟩
  stable _ _ _ _ _ hne _ hat hG := hat.stable hne hG

omit [Fintype κ] in
theorem init_good {s : State κ n m P} (h : Init s) : s.Good Keeps At := by
  obtain ⟨c, hstatus, -⟩ := h.main
  refine ⟨⟨fun d p hd => ?_, fun _ d hd => ?_, ?_⟩, fun t => ?_⟩
  · rw [hstatus] at hd
    by_cases hdc : d = c
    · subst hdc
      rw [Function.update_self] at hd
      cases hd
      rfl
    · rw [Function.update_of_ne hdc] at hd
      cases hd
  · rw [h.waitQue] at hd
    cases hd
  · rw [h.waitQue]
    exact List.nodup_nil
  · cases t with
    | inl v =>
      rw [h.vpus v]
      exact ⟨trivial, nofun⟩
    | inr x =>
      rw [h.asyncs x]
      exact ⟨trivial, nofun⟩

/-- Nobody owes anything in the beginning. -/
theorem init_count {s : State κ n m P} (h : Init s) (own : Pc κ P → UInt32)
    (hvpu : own (.schedLoop 0) = 0) (hasync : own .outside = 0) (w : Status n m P → Bool)
    (hw : w .asleep = false) :
    ∑ t, own (s.locals t) = 0 ∧ ∃ c, (∀ p, s.shared.ready p = if s.shared.priority c = p then 1 else 0) ∧
      s.shared.count w = if w (.queued (s.shared.priority c)) then 1 else 0 := by
  obtain ⟨c, hstatus, hready⟩ := h.main
  refine ⟨Finset.sum_eq_zero fun t _ => ?_, c, fun p => ?_, ?_⟩
  · cases t with
    | inl v => rw [h.vpus v, hvpu]
    | inr x => rw [h.asyncs x, hasync]
  · rw [hready]
    by_cases hp : s.shared.priority c = p
    · subst hp
      simp
    · simp [hp, Function.update_of_ne (Ne.symm hp)]
  · have hsum := sum_update (fun st : Status n m P => if w st then (1 : UInt32) else 0)
      (fun _ : κ => .asleep) c (.queued (s.shared.priority c))
    simp only [hw, Bool.false_eq_true, if_false, Finset.sum_const_zero, add_zero, zero_add] at hsum
    unfold Shared.count
    rw [hstatus]
    exact hsum

/-- The steps of runs in which the field that is read again has not changed. -/
def priorityKept (s : State κ n m P) (l : Thread n m × Choice κ P) : Prop :=
  PriorityKept s.shared (s.locals l.1) = true

def asyncWaitKept (s : State κ n m P) (l : Thread n m × Choice κ P) : Prop :=
  AsyncWaitKept s.shared (s.locals l.1) = true

instance (s : State κ n m P) (l : Thread n m × Choice κ P) : Decidable (priorityKept s l) :=
  inferInstanceAs (Decidable (PriorityKept s.shared (s.locals l.1) = true))

instance (s : State κ n m P) (l : Thread n m × Choice κ P) : Decidable (asyncWaitKept s l) :=
  inferInstanceAs (Decidable (AsyncWaitKept s.shared (s.locals l.1) = true))

theorem step_balanced {s s' : State κ n m P} {l : Thread n m × Choice κ P} (hs : s.Good Keeps At)
    (hl : poolStep step s l = some s') :
    Balanced s.shared (s.locals l.1) s'.shared (s'.locals l.1) := by
  obtain ⟨⟨sh, pc⟩, hstep, hsh, hloc⟩ := poolStep_eq_some hl
  have hok := step_ok hs.1 (hs.2 l.1) hstep
  rw [hsh, hloc, Function.update_self]
  exact hok.balanced

/-- A balance that every permitted step keeps is zero in every state reached. -/
theorem balance_reach {ok : State κ n m P → Thread n m × Choice κ P → Prop}
    (lacks : Shared κ n m P → UInt32) (own : Pc κ P → UInt32)
    (hinit : ∀ s, Init s → lacks s.shared + ∑ t, own (s.locals t) = 0)
    (hstep : ∀ (s s' : State κ n m P) l, ok s l →
      Balanced s.shared (s.locals l.1) s'.shared (s'.locals l.1) →
      lacks s'.shared + own (s'.locals l.1) = lacks s.shared + own (s.locals l.1))
    {s : State κ n m P} (h : Reach (poolStep step) ok Init s) :
    lacks s.shared + ∑ t, own (s.locals t) = 0 := by
  refine (h.invariant (I := fun s => s.Good Keeps At ∧ lacks s.shared + ∑ t, own (s.locals t) = 0)
    (fun s hs => ⟨init_good hs, hinit s hs⟩) ?_).2
  rintro s l s' ⟨hgood, hzero⟩ hok hl
  refine ⟨modular.good_step hgood trivial hl, ?_⟩
  have hmove := Pool.sum_step lacks own (d := 0) hl
    (by rw [add_zero]; exact hstep s s' l hok (step_balanced hgood hl))
  rw [hmove, hzero, add_zero]

omit [DecidableEq κ] in
theorem count_eq_card (s : Shared κ n m P) (w : Status n m P → Bool) :
    s.count w = UInt32.ofNat (Finset.univ.filter fun c => w (s.status c) = true).card := by
  have hsum : ∀ T : Finset κ, (∑ c ∈ T, if w (s.status c) then (1 : UInt32) else 0) =
      UInt32.ofNat (T.filter fun c => w (s.status c) = true).card := by
    intro T
    induction T using Finset.cons_induction with
    | empty => rfl
    | cons c T hc ih =>
      rw [Finset.sum_cons, ih, Finset.filter_cons]
      by_cases hw : w (s.status c) = true
      · simp only [hw, if_true, Finset.card_cons]
        rw [UInt32.ofNat_add, UInt32.add_comm]
        rfl
      · simp [hw]
  exact hsum Finset.univ

/-! ### The ready counters -/

/-- Inside `vpu_ready`. -/
def Pc.inReady : Pc κ P → Bool
  | .readyPut _ _ _ _ _ | .readyTotal _ _ _ _ _ | .readyPrio _ _ _ _ _ | .readyIowait _ _ _ _
  | .readyDecide _ _ _ => true
  | _ => false

/-- Inside `core_yield`. -/
def Pc.inYield : Pc κ P → Bool
  | .yieldPut _ | .yieldPrio _ _ | .yieldTotal => true
  | _ => false

/-- A coroutine has been taken out of a queue and does not run yet. -/
def Pc.inDispatch : Pc κ P → Bool
  | .dispTotal _ _ | .dispPrio _ _ | .dispStatus _ | .dispAsync _ => true
  | _ => false

/-- Inside `core_wait`. -/
def Pc.inWait : Pc κ P → Bool
  | .waitStatus _ _ | .waitIowait _ _ | .waitUnlock _ _ => true
  | _ => false

theorem ready_balance {s : State κ n m P} (h : Reach (poolStep step) priorityKept Init s)
    (p : Fin P) : s.shared.ready p - s.shared.count (Status.isQueued p) +
      ∑ t, (s.locals t).owesReady p = 0 := by
  refine balance_reach (fun s => s.ready p - s.count (Status.isQueued p)) (Pc.owesReady p) ?_
    (fun s s' l hok hbal => hbal.ready hok p) h
  intro s hs
  obtain ⟨hzero, c, hready, hcount⟩ := init_count hs (Pc.owesReady p) rfl rfl (Status.isQueued p) rfl
  rw [hzero, hready, hcount]
  simp [Status.isQueued]

theorem total_balance {ok : State κ n m P → Thread n m × Choice κ P → Prop} {s : State κ n m P}
    (h : Reach (poolStep step) ok Init s) : s.shared.totalReady - s.shared.count Status.anyQueued +
      ∑ t, (s.locals t).owesTotal = 0 := by
  refine balance_reach (fun s => s.totalReady - s.count Status.anyQueued) Pc.owesTotal ?_
    (fun s s' l _ hbal => hbal.total) h
  intro s hs
  obtain ⟨hzero, c, -, hcount⟩ := init_count hs Pc.owesTotal rfl rfl Status.anyQueued rfl
  rw [hzero, hs.totalReady, hcount]
  simp [Status.anyQueued]

omit [DecidableEq κ] in
/-- Every queued coroutine is queued with one priority. -/
theorem count_anyQueued (s : Shared κ n m P) :
    s.count Status.anyQueued = ∑ p, s.count (Status.isQueued p) := by
  unfold Shared.count
  rw [Finset.sum_comm]
  refine Finset.sum_congr rfl fun c _ => ?_
  cases hc : s.status c <;> simp [Status.anyQueued, Status.isQueued]

/-- The counters agree with the queues. -/
def ReadyCounts (s : Shared κ n m P) : Prop :=
  (∀ p, s.ready p = UInt32.ofNat (Finset.univ.filter fun c => s.status c = .queued p).card) ∧
  s.totalReady = ∑ p, s.ready p

/-- No `vpu_ready`, `core_yield` or dispatch is half done. -/
def ReadyQuiet (s : State κ n m P) : Prop :=
  ∀ t, (s.locals t).inReady = false ∧ (s.locals t).inYield = false ∧ (s.locals t).inDispatch = false

omit [Fintype κ] [DecidableEq κ] in
theorem ReadyQuiet.owes {s : State κ n m P} (hq : ReadyQuiet s) (t : Thread n m) :
    (∀ p, (s.locals t).owesReady p = 0) ∧ (s.locals t).owesTotal = 0 := by
  obtain ⟨h₁, h₂, h₃⟩ := hq t
  cases hpc : s.locals t with
  | readyTotal | readyPrio =>
    rw [hpc] at h₁
    cases h₁
  | yieldPrio | yieldTotal =>
    rw [hpc] at h₂
    cases h₂
  | dispTotal | dispPrio =>
    rw [hpc] at h₃
    cases h₃
  | _ => exact ⟨fun _ => rfl, rfl⟩

/-- **The ready counters count the run queues**, in every run in which `core_yield`, when it
    comes to its counter, still reads the priority with which it has queued the coroutine. -/
theorem ready_counts {s : State κ n m P} (h : Reach (poolStep step) priorityKept Init s)
    (hquiet : ReadyQuiet s) : ReadyCounts s.shared := by
  have hready : ∀ p, s.shared.ready p = s.shared.count (Status.isQueued p) := by
    intro p
    have hbal := ready_balance h p
    rw [Finset.sum_eq_zero fun t _ => (hquiet.owes t).1 p, add_zero] at hbal
    exact sub_eq_zero.mp hbal
  constructor
  · intro p
    rw [hready, count_eq_card]
    congr 3
    funext c
    cases s.shared.status c <;> simp [Status.isQueued]
  · have hbal := total_balance h
    rw [Finset.sum_eq_zero fun t _ => (hquiet.owes t).2, add_zero] at hbal
    rw [sub_eq_zero.mp hbal, count_anyQueued]
    exact Finset.sum_congr rfl fun p _ => (hready p).symm

/-- All coroutines have the lowest of four priorities, and the first is queued. -/
def booted (k n m : Nat) [NeZero k] : State (Fin k) n m 4 :=
  { shared :=
      { status := Function.update (fun _ => .asleep) 0 (.queued 3)
        priority := fun _ => 3
        asyncWait := fun _ => false
        totalReady := 1
        ready := Function.update (fun _ => 0) 3 1
        totalIowait := 0
        mutex := none
        waitQue := [] }
    locals := Sum.elim (fun _ => .schedLoop 0) fun _ => .outside }

omit [Fintype κ] [DecidableEq κ] in
theorem booted_init (k n m : Nat) [NeZero k] : Init (booted k n m) :=
  ⟨⟨0, rfl, rfl⟩, rfl, rfl, fun _ => rfl, rfl, rfl, fun _ => rfl, fun _ => rfl⟩

/-- VPU `v` takes coroutine `c` from a queue of priority 3 and dispatches it. -/
def dispatch {k n m : Nat} (v : Fin n) (c : Fin k) : List (Thread n m × Choice (Fin k) 4) :=
  List.replicate 4 (.inl v, .go) ++ [(.inl v, .take c)] ++ List.replicate 4 (.inl v, .go)

/-- The first coroutine makes the second one ready and yields: VPU 0 has queued it and is
    before its counter. -/
def yielding : List (Thread 2 0 × Choice (Fin 2) 4) :=
  dispatch 0 0 ++ [(.inl 0, .ready 1 false)] ++ List.replicate 5 (.inl 0, .go) ++
    [(.inl 0, .yield), (.inl 0, .go)]

theorem yielding_ready_counts :
    ∃ s : State (Fin 2) 2 0 4, (s.shared.status 0 = .queued 3 ∧ s.shared.status 1 = .queued 3 ∧
      s.shared.ready 3 = 2) ∧ ReadyCounts s.shared := by
  obtain ⟨s, hs, hp⟩ := Reach.exists_of_runOk (poolStep step) priorityKept Init
    (booted_init 2 2 0) (yielding ++ List.replicate 2 (.inl 0, .go))
    (fun s => decide ((s.shared.status 0 = .queued 3 ∧ s.shared.status 1 = .queued 3 ∧
      s.shared.ready 3 = 2) ∧ ∀ t, (s.locals t).inReady = false ∧ (s.locals t).inYield = false ∧
      (s.locals t).inDispatch = false)) (by decide +kernel)
  have hp' := of_decide_eq_true hp
  exact ⟨s, hp'.1, ready_counts hs hp'.2⟩

/-- Meanwhile the first coroutine runs on VPU 1 and gives itself the highest priority: the
    counter of the second one's queue stays at zero. -/
theorem ready_miscounts :
    ¬ ∀ s : State (Fin 2) 2 0 4, Reach (poolStep step) (fun _ _ => True) Init s → ReadyQuiet s →
      ReadyCounts s.shared := by
  intro hall
  obtain ⟨s, hs, hp⟩ := Reach.exists_of_run (poolStep step) Init (booted_init 2 2 0)
    (yielding ++ dispatch 1 0 ++ [(.inl 1, .setPriority 0)] ++ List.replicate 2 (.inl 0, .go))
    (fun s => decide ((s.shared.ready 3 = 0 ∧
      (Finset.univ.filter fun c => s.shared.status c = .queued 3).card = 1) ∧
      ∀ t, (s.locals t).inReady = false ∧ (s.locals t).inYield = false ∧
      (s.locals t).inDispatch = false)) (by decide +kernel)
  obtain ⟨⟨hready, hcard⟩, hquiet⟩ := of_decide_eq_true hp
  have hcounts := (hall s hs hquiet).1 3
  rw [hready, hcard] at hcounts
  exact absurd hcounts (by decide)

/-! ### The io-wait counter -/

theorem iowait_balance {s : State κ n m P} (h : Reach (poolStep step) asyncWaitKept Init s) :
    s.shared.totalIowait - s.shared.count Status.inRequest +
      ∑ t, (s.locals t).owesIowait = 0 := by
  refine balance_reach (fun s => s.totalIowait - s.count Status.inRequest) Pc.owesIowait ?_
    (fun s s' l hok hbal => hbal.iowait hok) h
  intro s hs
  obtain ⟨hzero, c, -, hcount⟩ := init_count hs Pc.owesIowait rfl rfl Status.inRequest rfl
  rw [hzero, hs.totalIowait, hcount]
  simp [Status.inRequest]

/-- The counter agrees with the requests. -/
def IowaitCounts (s : Shared κ n m P) : Prop :=
  s.totalIowait =
    UInt32.ofNat (Finset.univ.filter fun c => (s.status c).inRequest = true).card ∧
  ((∀ c, (s.status c).inRequest = false) → s.totalIowait = 0)

/-- No `vpu_ready`, `core_wait` or dispatch is half done. -/
def IowaitQuiet (s : State κ n m P) : Prop :=
  ∀ t, (s.locals t).inReady = false ∧ (s.locals t).inWait = false ∧ (s.locals t).inDispatch = false

omit [Fintype κ] [DecidableEq κ] in
theorem IowaitQuiet.owes {s : State κ n m P} (hq : IowaitQuiet s) (t : Thread n m) :
    (s.locals t).owesIowait = 0 := by
  obtain ⟨h₁, h₂, -⟩ := hq t
  cases hpc : s.locals t with
  | readyPut | readyTotal | readyPrio | readyIowait =>
    rw [hpc] at h₁
    cases h₁
  | waitIowait =>
    rw [hpc] at h₂
    cases h₂
  | _ => rfl

/-- **`total_iowait` counts the coroutines in async requests**, in every run in which
    `vpu_ready`, when it looks at `async_wait`, still finds there whether the coroutine was
    in a request. -/
theorem iowait_counts {s : State κ n m P} (h : Reach (poolStep step) asyncWaitKept Init s)
    (hquiet : IowaitQuiet s) : IowaitCounts s.shared := by
  have hcount : s.shared.totalIowait = s.shared.count Status.inRequest := by
    have hbal := iowait_balance h
    rw [Finset.sum_eq_zero fun t _ => hquiet.owes t, add_zero] at hbal
    exact sub_eq_zero.mp hbal
  rw [count_eq_card] at hcount
  refine ⟨hcount, fun hnone => ?_⟩
  rw [hcount]
  simp [hnone]

/-- The only coroutine submits a request and is suspended. -/
def submitting : List (Thread 1 1 × Choice (Fin 1) 4) :=
  dispatch 0 0 ++ [(.inl 0, .submit)] ++ List.replicate 6 (.inl 0, .go)

theorem submitting_iowait_counts :
    ∃ s : State (Fin 1) 1 1 4, (s.shared.status 0 = .requested ∧ s.shared.totalIowait = 1) ∧
      IowaitCounts s.shared := by
  obtain ⟨s, hs, hp⟩ := Reach.exists_of_runOk (poolStep step) asyncWaitKept Init
    (booted_init 1 1 1) submitting
    (fun s => decide ((s.shared.status 0 = .requested ∧ s.shared.totalIowait = 1) ∧
      ∀ t, (s.locals t).inReady = false ∧ (s.locals t).inWait = false ∧
      (s.locals t).inDispatch = false)) (by decide +kernel)
  have hp' := of_decide_eq_true hp
  exact ⟨s, hp'.1, iowait_counts hs hp'.2⟩

/-- The VPU dispatches the coroutine, and clears `async_wait`, before the async thread that
    has made it ready looks there: nobody takes it off `total_iowait`. -/
theorem iowait_miscounts :
    ¬ ∀ s : State (Fin 1) 1 1 4, Reach (poolStep step) (fun _ _ => True) Init s → IowaitQuiet s →
      IowaitCounts s.shared := by
  intro hall
  obtain ⟨s, hs, hp⟩ := Reach.exists_of_run (poolStep step) Init (booted_init 1 1 1)
    (submitting ++ List.replicate 7 (.inr 0, .go) ++ dispatch 0 0 ++ List.replicate 2 (.inr 0, .go))
    (fun s => decide ((s.shared.totalIowait = 1 ∧ ∀ c, (s.shared.status c).inRequest = false) ∧
      ∀ t, (s.locals t).inReady = false ∧ (s.locals t).inWait = false ∧
      (s.locals t).inDispatch = false)) (by decide +kernel)
  obtain ⟨⟨htotal, hnone⟩, hquiet⟩ := of_decide_eq_true hp
  have hzero := (hall s hs hquiet).2 hnone
  rw [htotal] at hzero
  exact absurd hzero (by decide)

end

end Coroc.ReadyCount
