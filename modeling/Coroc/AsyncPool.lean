import Coroc.ThreadPool

/-!
# The pool of async threads (`src/async.c`)

`coroc_async_request_submit` puts a request from the stack of the calling coroutine into
the queue of the pool and suspends the coroutine; the mutex of the pool is released by the
scheduler, in `core_wait`, after the status of the coroutine is set.  `n` threads take the
requests from the queue, call their `func` and make the coroutines ready.

A request is named by the call that made it, so a coroutine that calls again makes another
one.  Every access to the mutex, the queue, a request or a status is a step of its own, and
an access to a request whose coroutine was already made ready is recorded (`faults`).

* `Inv` relates the pool to the life of a request as its submitter sees it (`Job`): not in
  the queue yet, queued, held by one thread, over.
* `requests_once` is about every run of the pool; `requests_out_of_order` is the run of two
  threads in which the later request is started first.
-/

namespace Coroc.AsyncPool

open Coroc.Transition Coroc.ThreadPool

/-- A call of `coroc_async_request_submit`, which has the request in its frame. -/
abbrev Req := Nat

/-- `coroc_async_request_submit`, place by place; from `coreWait` to `unlock` the scheduler
    runs in the place of the coroutine. -/
inductive Submit where
  | uncalled
  | start
  | inline
  | lock
  | add
  | signal
  | suspend
  | coreWait
  | unlock
  | suspended
  | returned
deriving DecidableEq, Repr

/-- `coroc_async_thread_routine`, place by place, with its variable `req`; `ready` and
    `wakeup` are the two halves of `vpu_ready`. -/
inductive Routine where
  | lock
  | check
  | wait
  | relock
  | rem
  | unlock (req : Req)
  | func (req : Req)
  | running (req : Req)
  | readWait (req : Req)
  | ready (req : Req) (wait : Nat)
  | wakeup
deriving DecidableEq, Repr

inductive Owner (n : Nat) where
  | submit (r : Req)
  | thread (i : Fin n)
deriving DecidableEq, Repr

inductive Status where
  | running
  | wait
  | ready
deriving DecidableEq, Repr

/-- The pool, the calls and the coroutines; `frame k` is the call coroutine `k` is in.  The
    fields from `calls` on are not in the source: how often `func` was called and has
    returned, the order in which requests were queued, taken and started, and the requests
    that were touched too late. -/
structure State (n : Nat) where
  mutex : Option (Owner n)
  waitQue : List Req
  threads : Fin n → Routine
  fresh : Req
  submit : Req → Submit
  wait : Req → Nat
  frame : Nat → Option Req
  status : Nat → Status
  calls : Req → Nat
  returns : Req → Nat
  submitted : List Req
  taken : List Req
  started : List Req
  faults : List Req

section
variable {n : Nat}

def State.setSubmit (s : State n) (r : Req) (p : Submit) : State n :=
  { s with submit := Function.update s.submit r p }

def State.setThread (s : State n) (i : Fin n) (p : Routine) : State n :=
  { s with threads := Function.update s.threads i p }

/-- The frame of the request is gone, or may be at any moment. -/
def State.gone (s : State n) (r : Req) : Bool :=
  match s.submit r with
  | .uncalled | .returned => true
  | .suspended => decide (s.status (s.wait r) = .ready)
  | _ => false

/-- The requests are read or written. -/
def State.touch (s : State n) (rs : List Req) : State n :=
  { s with faults := s.faults ++ rs.filter s.gone }

def bump (f : Req → Nat) (r : Req) : Req → Nat := Function.update f r (f r + 1)

/-- Coroutine `k` calls `coroc_async_request_submit`. -/
def callStep (s : State n) (k : Nat) : Option (State n) :=
  if s.frame k = none then
    some { s with
      fresh := s.fresh + 1
      submit := Function.update s.submit s.fresh .start
      wait := Function.update s.wait s.fresh k
      frame := Function.update s.frame k (some s.fresh) }
  else none

/-- The return from `coroc_async_request_submit`. -/
def State.leave (s : State n) (r : Req) : State n :=
  { s.setSubmit r .returned with frame := Function.update s.frame (s.wait r) none }

/-- One step of a call, or of the scheduler that suspends or resumes its coroutine. -/
def submitStep (s : State n) (r : Req) : Option (State n) :=
  match s.submit r with
  | .uncalled | .signal | .returned => none
  | .start =>
    -- `coroc_async_pool_manager.threads == NULL`
    if n = 0 then
      some { s.setSubmit r .inline with calls := bump s.calls r, started := s.started ++ [r] }
    else some (s.setSubmit r .lock)
  | .inline => some { s.leave r with returns := bump s.returns r }
  | .lock =>
    if s.mutex = none then some { s.setSubmit r .add with mutex := some (.submit r) } else none
  | .add =>
    -- `queue_add` links the request behind the last one
    some { (s.touch s.waitQue.getLast?.toList).setSubmit r .signal with
      waitQue := s.waitQue ++ [r]
      submitted := s.submitted ++ [r] }
  | .suspend => some (s.setSubmit r .coreWait)
  | .coreWait =>
    some { s.setSubmit r .unlock with status := Function.update s.status (s.wait r) .wait }
  | .unlock => some { s.setSubmit r .suspended with mutex := none }
  | .suspended =>
    if s.status (s.wait r) = .ready then
      some { s.leave r with status := Function.update s.status (s.wait r) .running }
    else none

/-- `pthread_cond_signal` wakes one of the waiting threads, if there is one. -/
def signalStep (s : State n) (r : Req) : Option (Fin n) → Option (State n)
  | none =>
    if s.submit r = .signal ∧ ∀ i, s.threads i ≠ .wait then some (s.setSubmit r .suspend)
    else none
  | some i =>
    if s.submit r = .signal ∧ s.threads i = .wait then
      some ((s.setSubmit r .suspend).setThread i .relock)
    else none

/-- One step of thread `i`. -/
def routineStep (s : State n) (i : Fin n) : Option (State n) :=
  match s.threads i with
  | .lock | .relock =>
    if s.mutex = none then some { s.setThread i .check with mutex := some (.thread i) } else none
  | .check =>
    if s.waitQue = [] then some { s.setThread i .wait with mutex := none }
    else some (s.setThread i .rem)
  | .wait => none
  | .rem =>
    match s.waitQue with
    -- `assert(req != 0)`
    | [] => none
    | r :: rest =>
      some { (s.touch (r :: rest.head?.toList)).setThread i (.unlock r) with
        waitQue := rest
        taken := s.taken ++ [r] }
  | .unlock r => some { s.setThread i (.func r) with mutex := none }
  | .func r =>
    some { (s.touch [r]).setThread i (.running r) with
      calls := bump s.calls r
      started := s.started ++ [r] }
  | .running r => some { s.setThread i (.readWait r) with returns := bump s.returns r }
  | .readWait r => some ((s.touch [r]).setThread i (.ready r (s.wait r)))
  -- the assertion of `vpu_ready` aborts the program when it fails
  | .ready _ k =>
    if s.status k = .wait then
      some { s.setThread i .wakeup with status := Function.update s.status k .ready }
    else none
  | .wakeup => some (s.setThread i .lock)

inductive Label (n : Nat) where
  | call (k : Nat)
  | submit (r : Req)
  | signal (r : Req) (woken : Option (Fin n))
  | thread (i : Fin n)
  | spurious (i : Fin n)
deriving DecidableEq

def step (s : State n) : Label n → Option (State n)
  | .call k => callStep s k
  | .submit r => submitStep s r
  | .signal r woken => signalStep s r woken
  | .thread i => routineStep s i
  -- `pthread_cond_wait` may return without a signal
  | .spurious i => if s.threads i = .wait then some (s.setThread i .relock) else none

/-- After `coroc_async_pool_initialize(n)`. -/
def init (n : Nat) : State n where
  mutex := none
  waitQue := []
  threads := fun _ => .lock
  fresh := 0
  submit := fun _ => .uncalled
  wait := fun _ => 0
  frame := fun _ => none
  status := fun _ => .running
  calls := fun _ => 0
  returns := fun _ => 0
  submitted := []
  taken := []
  started := []
  faults := []

/-- The states of the pool with `n` threads. -/
def Reachable (n : Nat) : State n → Prop :=
  Reach step (fun _ _ => True) (· = init n)

/-! ### The life of a request -/

inductive Job (n : Nat) where
  | outside
  | queued
  | held (i : Fin n)
  | over
deriving DecidableEq

/-- Where the call and its coroutine are at that time. -/
def Job.At : Job n → Submit → Status → Prop
  | .outside, p, _ => p = .uncalled ∨ p = .start ∨ p = .lock ∨ p = .add
  | .queued, p, st =>
    p = .signal ∨ p = .suspend ∨ p = .coreWait ∨ (p = .unlock ∨ p = .suspended) ∧ st = .wait
  | .held _, p, st => p = .suspended ∧ st = .wait
  | .over, p, st => p = .returned ∨ p = .suspended ∧ st = .ready

/-- The request a thread works on. -/
@[grind]
def Routine.req : Routine → Option Req
  | .unlock r | .func r | .running r | .readWait r | .ready r _ => some r
  | _ => none

/-- How often the thread has called `func` of this request. -/
@[grind]
def Routine.calls : Routine → Nat
  | .running _ | .readWait _ | .ready _ _ => 1
  | _ => 0

@[grind]
def Routine.returns : Routine → Nat
  | .readWait _ | .ready _ _ => 1
  | _ => 0

@[grind]
def Routine.locked : Routine → Bool
  | .check | .rem | .unlock _ => true
  | _ => false

@[grind]
def Submit.locked : Submit → Bool
  | .add | .signal | .suspend | .coreWait | .unlock => true
  | _ => false

@[grind]
def Submit.live : Submit → Bool
  | .uncalled | .returned => false
  | _ => true

/-- How often `func` was called for the request. -/
def Job.calls (threads : Fin n → Routine) : Job n → Nat
  | .outside | .queued => 0
  | .held i => (threads i).calls
  | .over => 1

def Job.returns (threads : Fin n → Routine) : Job n → Nat
  | .outside | .queued => 0
  | .held i => (threads i).returns
  | .over => 1

/-- The pool agrees with the life of its requests.  `awake` is why no wake-up is lost: with a
    request in the queue some thread is awake, or some call is about to signal. -/
structure Inv (s : State n) (job : Req → Job n) : Prop where
  fresh : ∀ r, s.submit r = .uncalled ↔ s.fresh ≤ r
  frame : ∀ k r, s.frame k = some r ↔ (s.submit r).live = true ∧ s.wait r = k
  place : ∀ r, (job r).At (s.submit r) (s.status (s.wait r))
  held : ∀ i r, (s.threads i).req = some r ↔ job r = .held i
  local_wait : ∀ i r k, s.threads i = .ready r k → s.wait r = k
  calls : ∀ r, s.calls r = (job r).calls s.threads
  returns : ∀ r, s.returns r = (job r).returns s.threads
  queued : ∀ r, r ∈ s.waitQue ↔ job r = .queued
  nodup : s.submitted.Nodup
  order : s.submitted = s.taken ++ s.waitQue
  outside : ∀ r, r ∈ s.submitted ↔ job r ≠ .outside
  submit_locked : ∀ r, s.mutex = some (.submit r) ↔ (s.submit r).locked = true
  thread_locked : ∀ i, s.mutex = some (.thread i) ↔ (s.threads i).locked = true
  rem : ∀ i, s.threads i = .rem → s.waitQue ≠ []
  awake : s.waitQue ≠ [] → (∃ i, s.threads i ≠ .wait) ∨ ∃ r, s.submit r = .signal
  faults : s.faults = []

theorem inv_init : Inv (init n) fun _ => .outside := by
  constructor <;> simp [init, Job.At, Submit.live, Routine.req, Job.calls, Job.returns,
    Submit.locked, Routine.locked]

variable {s s' : State n} {job : Req → Job n}

theorem Job.calls_update {j : Job n} {threads : Fin n → Routine} {i : Fin n} (w : Routine)
    (hj : j ≠ .held i) : j.calls (Function.update threads i w) = j.calls threads := by
  rcases j with _ | _ | j | _
  · rfl
  · rfl
  · have hji : j ≠ i := fun hji => hj (by rw [hji])
    simp [Job.calls, hji]
  · rfl

theorem Job.returns_update {j : Job n} {threads : Fin n → Routine} {i : Fin n} (w : Routine)
    (hj : j ≠ .held i) : j.returns (Function.update threads i w) = j.returns threads := by
  rcases j with _ | _ | j | _
  · rfl
  · rfl
  · have hji : j ≠ i := fun hji => hj (by rw [hji])
    simp [Job.returns, hji]
  · rfl

/-! ### One step keeps it -/

theorem Inv.not_gone (h : Inv s job) {r : Req} (hr : job r = .queued ∨ ∃ i, job r = .held i) :
    s.gone r = false := by
  have hat := h.place r
  rcases hr with hr | ⟨i, hr⟩ <;> rw [hr] at hat
  · rcases hat with hp | hp | hp | ⟨hp | hp, hst⟩ <;> simp [State.gone, *]
  · obtain ⟨hp, hst⟩ := hat
    simp [State.gone, hp, hst]

theorem Inv.touch_eq (h : Inv s job) {rs : List Req}
    (hrs : ∀ r ∈ rs, job r = .queued ∨ ∃ i, job r = .held i) : s.touch rs = s := by
  have hnil : rs.filter s.gone = [] := by
    rw [List.filter_eq_nil_iff]
    intro r hr
    simp [h.not_gone (hrs r hr)]
  simp [State.touch, hnil]

theorem Inv.moveThread (h : Inv s job) (i : Fin n) (w : Routine) (m : Option (Owner n))
    (c d : Req → Nat) (started : List Req) (hreq : w.req = (s.threads i).req)
    (hwait : ∀ r k, w = .ready r k → s.wait r = k)
    (hc : ∀ r, c r = if w.req = some r then w.calls else s.calls r)
    (hd : ∀ r, d r = if w.req = some r then w.returns else s.returns r)
    (hsub : ∀ r, m = some (.submit r) ↔ s.mutex = some (.submit r))
    (hthr : ∀ j, m = some (.thread j) ↔ if j = i then w.locked = true else s.mutex = some (.thread j))
    (hrem : w = .rem → s.waitQue ≠ []) (hawake : w = .wait → s.waitQue = []) :
    Inv { s with
      threads := Function.update s.threads i w
      mutex := m
      calls := c
      returns := d
      started := started } job where
  fresh := h.fresh
  frame := h.frame
  place := h.place
  held := by
    intro j r
    rw [← h.held j r]
    by_cases hji : j = i
    · subst hji
      simp [hreq]
    · simp [hji]
  local_wait := by
    intro j r k
    have := h.local_wait j r k
    grind [Function.update_apply]
  calls := by
    intro r
    have hw : w.req = some r ↔ job r = .held i := by
      rw [hreq]
      exact h.held i r
    dsimp only
    by_cases hj : job r = .held i
    · rw [hc, if_pos (hw.mpr hj), hj]
      simp [Job.calls]
    · rw [hc, if_neg (hw.not.mpr hj), Job.calls_update w hj]
      exact h.calls r
  returns := by
    intro r
    have hw : w.req = some r ↔ job r = .held i := by
      rw [hreq]
      exact h.held i r
    dsimp only
    by_cases hj : job r = .held i
    · rw [hd, if_pos (hw.mpr hj), hj]
      simp [Job.returns]
    · rw [hd, if_neg (hw.not.mpr hj), Job.returns_update w hj]
      exact h.returns r
  queued := h.queued
  nodup := h.nodup
  order := h.order
  outside := h.outside
  submit_locked := by
    intro r
    rw [← h.submit_locked r]
    exact hsub r
  thread_locked := by
    intro j
    have := h.thread_locked j
    grind [Function.update_apply]
  rem := by
    intro j
    have := h.rem j
    grind [Function.update_apply]
  awake := by
    intro hq
    refine .inl ⟨i, ?_⟩
    grind [Function.update_apply]
  faults := h.faults

theorem Inv.moveSubmit (h : Inv s job) (r : Req) (p : Submit) (m : Option (Owner n))
    (hlive : (s.submit r).live = true) (hp : p.live = true)
    (hat : (job r).At p (s.status (s.wait r)))
    (hsub : ∀ q, m = some (.submit q) ↔
      if q = r then p.locked = true else s.mutex = some (.submit q))
    (hthr : ∀ i, m = some (.thread i) ↔ s.mutex = some (.thread i))
    (hawake : s.submit r = .signal → ∃ i, s.threads i ≠ .wait) :
    Inv { s with submit := Function.update s.submit r p, mutex := m } job where
  fresh := by
    intro q
    have := h.fresh q
    grind [Function.update_apply]
  frame := by
    intro k q
    have := h.frame k q
    grind [Function.update_apply]
  place := by
    intro q
    have := h.place q
    grind [Function.update_apply]
  held := h.held
  local_wait := h.local_wait
  calls := h.calls
  returns := h.returns
  queued := h.queued
  nodup := h.nodup
  order := h.order
  outside := h.outside
  submit_locked := by
    intro q
    have := h.submit_locked q
    grind [Function.update_apply]
  thread_locked := by
    intro i
    rw [← h.thread_locked i]
    exact hthr i
  rem := h.rem
  awake := by
    intro hq
    rcases h.awake hq with hi | ⟨q, hsignal⟩
    · exact .inl hi
    · by_cases hqr : q = r
      · exact .inl (hawake (hqr ▸ hsignal))
      · refine .inr ⟨q, ?_⟩
        rw [← hsignal]
        exact Function.update_of_ne hqr _ _
  faults := h.faults

/-- Only the call the coroutine is in notices a change of its status. -/
theorem Inv.setStatus (h : Inv s job) {k : Nat} {st : Status}
    (hat : ∀ r, s.frame k = some r → (job r).At (s.submit r) st) :
    Inv { s with status := Function.update s.status k st } job where
  fresh := h.fresh
  frame := h.frame
  place := by
    intro q
    have hq := h.place q
    dsimp only
    by_cases hk : s.wait q = k
    · rw [hk, Function.update_self]
      by_cases hlive : (s.submit q).live = true
      · exact hat q ((h.frame k q).mpr ⟨hlive, hk⟩)
      · grind [Job.At.eq_def]
    · rwa [Function.update_of_ne hk]
  held := h.held
  local_wait := h.local_wait
  calls := h.calls
  returns := h.returns
  queued := h.queued
  nodup := h.nodup
  order := h.order
  outside := h.outside
  submit_locked := h.submit_locked
  thread_locked := h.thread_locked
  rem := h.rem
  awake := h.awake
  faults := h.faults

/-- The coroutine goes on, and the frame with the request is gone. -/
theorem Inv.leave (h : Inv s job) {r : Req} (hp : s.submit r = .suspended)
    (hst : s.status (s.wait r) = .ready) : Inv (s.leave r) job where
  fresh := by
    intro q
    have := h.fresh q
    simp only [State.leave, State.setSubmit]
    grind [Function.update_apply]
  frame := by
    intro k q
    have hr := h.frame (s.wait r) r
    have hq := h.frame k q
    simp only [State.leave, State.setSubmit]
    grind [Function.update_apply]
  place := by
    intro q
    by_cases hqr : q = r
    · subst hqr
      have hat := h.place q
      have hover : job q = .over := by
        rcases hj : job q with _ | _ | j | _ <;> simp [hj, hp, hst, Job.At] at hat
        rfl
      simp [hover, Job.At, State.leave, State.setSubmit]
    · simpa [State.leave, State.setSubmit, Function.update_of_ne hqr] using h.place q
  held := h.held
  local_wait := h.local_wait
  calls := h.calls
  returns := h.returns
  queued := h.queued
  nodup := h.nodup
  order := h.order
  outside := h.outside
  submit_locked := by
    intro q
    have hr := h.submit_locked r
    have hq := h.submit_locked q
    simp only [State.leave, State.setSubmit]
    grind [Function.update_apply]
  thread_locked := h.thread_locked
  rem := h.rem
  awake := by
    intro hne
    rcases h.awake hne with hi | ⟨q, hq⟩
    · exact .inl hi
    · refine .inr ⟨q, ?_⟩
      have hqr : q ≠ r := by
        rintro rfl
        rw [hp] at hq
        cases hq
      rw [← hq]
      exact Function.update_of_ne hqr _ _
  faults := h.faults

/-- `vpu_ready`: the request is over for its thread. -/
theorem Inv.readied (h : Inv s job) {i : Fin n} {r : Req} {k : Nat}
    (hi : s.threads i = .ready r k) :
    Inv { s.setThread i .wakeup with status := Function.update s.status k .ready }
      (Function.update job r .over) := by
  have hheld : job r = .held i := (h.held i r).mp (by rw [hi]; rfl)
  obtain ⟨hp, hst⟩ : s.submit r = .suspended ∧ s.status (s.wait r) = .wait := by
    have := h.place r
    rwa [hheld] at this
  obtain rfl := h.local_wait i r k hi
  have hother : ∀ q, q ≠ r → job q ≠ .held i := by
    intro q hqr hq
    have hreq := (h.held i q).mpr hq
    rw [hi] at hreq
    exact hqr (Option.some.inj hreq).symm
  have hlocked := h.thread_locked i
  have hcalls := h.calls r
  have hreturns := h.returns r
  rw [hheld] at hcalls hreturns
  simp only [Job.calls, Job.returns, hi, Routine.calls, Routine.returns] at hcalls hreturns
  constructor
  case fresh => exact h.fresh
  case frame => exact h.frame
  case place =>
    intro q
    by_cases hqr : q = r
    · subst hqr
      simp [State.setThread, Job.At, hp]
    · have hq := h.place q
      have hframe := h.frame (s.wait r)
      simp only [State.setThread, Function.update_of_ne hqr]
      by_cases hk : s.wait q = s.wait r
      · have hlive : (s.submit q).live = false := by
          have h1 := hframe q
          have h2 := hframe r
          grind
        rw [hk, Function.update_self]
        grind [Job.At.eq_def]
      · rwa [Function.update_of_ne hk]
  case held =>
    intro j q
    have hjq := h.held j q
    simp only [State.setThread]
    by_cases hji : j = i
    · subst hji
      by_cases hqr : q = r
      · simp [hqr, Routine.req]
      · simp [hqr, hother q hqr, Routine.req]
    · by_cases hqr : q = r
      · subst hqr
        simpa [hji, hheld, Ne.symm hji] using hjq
      · simpa [hji, hqr] using hjq
  case local_wait =>
    intro j q
    have := h.local_wait j q
    simp only [State.setThread]
    grind [Function.update_apply]
  case calls =>
    intro q
    simp only [State.setThread]
    by_cases hqr : q = r
    · subst hqr
      simpa [Job.calls] using hcalls
    · rw [Function.update_of_ne hqr, Job.calls_update _ (hother q hqr)]
      exact h.calls q
  case returns =>
    intro q
    simp only [State.setThread]
    by_cases hqr : q = r
    · subst hqr
      simpa [Job.returns] using hreturns
    · rw [Function.update_of_ne hqr, Job.returns_update _ (hother q hqr)]
      exact h.returns q
  case queued =>
    intro q
    have := h.queued q
    simp only [State.setThread]
    grind [Function.update_apply]
  case nodup => exact h.nodup
  case order => exact h.order
  case outside =>
    intro q
    have := h.outside q
    simp only [State.setThread]
    grind [Function.update_apply]
  case submit_locked => exact h.submit_locked
  case thread_locked =>
    intro j
    have := h.thread_locked j
    simp only [State.setThread]
    grind [Function.update_apply]
  case rem =>
    intro j
    have := h.rem j
    simp only [State.setThread]
    grind [Function.update_apply]
  case awake =>
    intro hne
    exact .inl ⟨i, by simp [State.setThread]⟩
  case faults => exact h.faults

/-- A thread takes the first request. -/
theorem Inv.taken (h : Inv s job) {i : Fin n} {r : Req} {rest : List Req}
    (hi : s.threads i = .rem) (hq : s.waitQue = r :: rest) :
    Inv { s.setThread i (.unlock r) with waitQue := rest, taken := s.taken ++ [r] }
      (Function.update job r (.held i)) := by
  have hmutex : s.mutex = some (.thread i) := (h.thread_locked i).mpr (by rw [hi]; rfl)
  have hqueued : job r = .queued := (h.queued r).mp (by simp [hq])
  have hnone : ∀ q, job q ≠ .held i := by
    intro q hheld
    have hreq := (h.held i q).mpr hheld
    rw [hi] at hreq
    cases hreq
  have hnodup : (s.taken ++ r :: rest).Nodup := by
    rw [← hq, ← h.order]
    exact h.nodup
  have hplace : s.submit r = .suspended ∧ s.status (s.wait r) = .wait := by
    -- the other places hold the mutex, which is the thread's
    have hunlocked : ¬ (s.submit r).locked = true := by
      rw [← h.submit_locked r, hmutex]
      simp
    have hat := h.place r
    rw [hqueued] at hat
    rcases hat with hp | hp | hp | ⟨hp | hp, hst⟩
    · simp [hp, Submit.locked] at hunlocked
    · simp [hp, Submit.locked] at hunlocked
    · simp [hp, Submit.locked] at hunlocked
    · simp [hp, Submit.locked] at hunlocked
    · exact ⟨hp, hst⟩
  constructor
  case fresh => exact h.fresh
  case frame => exact h.frame
  case place =>
    intro q
    by_cases hqr : q = r
    · subst hqr
      simpa [State.setThread, Job.At] using hplace
    · simpa [State.setThread, hqr] using h.place q
  case held =>
    intro j q
    have hjq := h.held j q
    have hiq := hnone q
    simp only [State.setThread]
    by_cases hji : j = i
    · subst hji
      by_cases hqr : q = r
      · simp [hqr, Routine.req]
      · simp [hqr, hiq, Routine.req, Ne.symm hqr]
    · by_cases hqr : q = r
      · subst hqr
        simpa [hji, hqueued, Ne.symm hji] using hjq
      · simpa [hji, hqr] using hjq
  case local_wait =>
    intro j q
    have := h.local_wait j q
    simp only [State.setThread]
    grind [Function.update_apply]
  case calls =>
    intro q
    have hcalls := h.calls q
    simp only [State.setThread]
    by_cases hqr : q = r
    · subst hqr
      simpa [hqueued, Job.calls, Routine.calls] using hcalls
    · rw [Function.update_of_ne hqr, Job.calls_update _ (hnone q)]
      exact hcalls
  case returns =>
    intro q
    have hreturns := h.returns q
    simp only [State.setThread]
    by_cases hqr : q = r
    · subst hqr
      simpa [hqueued, Job.returns, Routine.returns] using hreturns
    · rw [Function.update_of_ne hqr, Job.returns_update _ (hnone q)]
      exact hreturns
  case queued =>
    intro q
    have hmem := h.queued q
    rw [hq] at hmem
    by_cases hqr : q = r
    · subst hqr
      have hnot : q ∉ rest := (List.nodup_cons.mp (List.nodup_append.mp hnodup).2.1).1
      simp [hnot]
    · simpa [State.setThread, hqr] using hmem
  case nodup => exact h.nodup
  case order =>
    show s.submitted = s.taken ++ [r] ++ rest
    rw [h.order, hq, List.append_assoc]
    rfl
  case outside =>
    intro q
    have hmem := h.outside q
    by_cases hqr : q = r
    · subst hqr
      simpa [State.setThread, hqueued] using hmem
    · simpa [State.setThread, hqr] using hmem
  case submit_locked => exact h.submit_locked
  case thread_locked =>
    intro j
    have := h.thread_locked j
    simp only [State.setThread]
    grind [Function.update_apply]
  case rem =>
    intro j hj
    have hji : j ≠ i := by
      rintro rfl
      simp [State.setThread] at hj
    have hlocked : (s.threads j).locked = true := by
      simp only [State.setThread, Function.update_of_ne hji] at hj
      rw [hj]
      rfl
    rw [← h.thread_locked j, hmutex] at hlocked
    exact absurd (Owner.thread.inj (Option.some.inj hlocked)).symm hji
  case awake =>
    intro hne
    exact .inl ⟨i, by simp [State.setThread]⟩
  case faults => exact h.faults

/-- A call queues its request. -/
theorem Inv.added (h : Inv s job) {r : Req} (hp : s.submit r = .add) :
    Inv { s.setSubmit r .signal with
      waitQue := s.waitQue ++ [r]
      submitted := s.submitted ++ [r] } (Function.update job r .queued) := by
  have hmutex : s.mutex = some (.submit r) := (h.submit_locked r).mpr (by rw [hp]; rfl)
  have houtside : job r = .outside := by
    have hat := h.place r
    rcases hj : job r with _ | _ | j | _ <;> simp [hj, hp, Job.At] at hat
    rfl
  have hnotmem : r ∉ s.submitted := by
    rw [h.outside r]
    simp [houtside]
  constructor
  case fresh =>
    intro q
    have := h.fresh q
    simp only [State.setSubmit]
    grind [Function.update_apply]
  case frame =>
    intro k q
    have := h.frame k q
    simp only [State.setSubmit]
    grind [Function.update_apply]
  case place =>
    intro q
    by_cases hqr : q = r
    · subst hqr
      simp [State.setSubmit, Job.At]
    · simpa [State.setSubmit, hqr] using h.place q
  case held =>
    intro j q
    refine (h.held j q).trans ?_
    by_cases hqr : q = r
    · simp [hqr, houtside]
    · simp [hqr]
  case local_wait => exact h.local_wait
  case calls =>
    intro q
    have hcalls := h.calls q
    by_cases hqr : q = r
    · subst hqr
      simpa [State.setSubmit, houtside, Job.calls] using hcalls
    · rwa [Function.update_of_ne hqr]
  case returns =>
    intro q
    have hreturns := h.returns q
    by_cases hqr : q = r
    · subst hqr
      simpa [State.setSubmit, houtside, Job.returns] using hreturns
    · rwa [Function.update_of_ne hqr]
  case queued =>
    intro q
    have hmem := h.queued q
    by_cases hqr : q = r
    · simp [hqr]
    · simpa [hqr] using hmem
  case nodup =>
    show (s.submitted ++ [r]).Nodup
    rw [List.nodup_append]
    refine ⟨h.nodup, List.nodup_singleton r, ?_⟩
    grind
  case order =>
    show s.submitted ++ [r] = s.taken ++ (s.waitQue ++ [r])
    rw [h.order, List.append_assoc]
  case outside =>
    intro q
    have hmem := h.outside q
    by_cases hqr : q = r
    · simp [hqr]
    · simpa [hqr] using hmem
  case submit_locked =>
    intro q
    have := h.submit_locked q
    simp only [State.setSubmit]
    grind [Function.update_apply]
  case thread_locked => exact h.thread_locked
  case rem =>
    intro j hj
    simp
  case awake =>
    intro hne
    exact .inr ⟨r, by simp [State.setSubmit]⟩
  case faults => exact h.faults

/-- A new call. -/
theorem Inv.called (h : Inv s job) {k : Nat} (hk : s.frame k = none) :
    Inv { s with
      fresh := s.fresh + 1
      submit := Function.update s.submit s.fresh .start
      wait := Function.update s.wait s.fresh k
      frame := Function.update s.frame k (some s.fresh) } job := by
  have huncalled : s.submit s.fresh = .uncalled := (h.fresh _).mpr le_rfl
  have houtside : job s.fresh = .outside := by
    have hat := h.place s.fresh
    rcases hj : job s.fresh with _ | _ | j | _ <;> simp [hj, huncalled, Job.At] at hat
    rfl
  constructor
  case fresh =>
    intro q
    have := h.fresh q
    grind [Function.update_apply]
  case frame =>
    intro k' q
    have hq := h.frame k' q
    have hkq := h.frame k q
    have hkf := h.frame k' s.fresh
    grind [Function.update_apply]
  case place =>
    intro q
    by_cases hqr : q = s.fresh
    · simp [hqr, houtside, Job.At]
    · simpa [hqr] using h.place q
  case local_wait =>
    intro j q k' hj
    have hne : q ≠ s.fresh := by
      rintro rfl
      have hheld := (h.held j s.fresh).mp (by rw [show s.threads j = _ from hj]; rfl)
      rw [houtside] at hheld
      cases hheld
    rw [← h.local_wait j q k' hj]
    exact Function.update_of_ne hne _ _
  case submit_locked =>
    intro q
    have := h.submit_locked q
    grind [Function.update_apply]
  case awake =>
    intro hne
    rcases h.awake hne with hi | ⟨q, hq⟩
    · exact .inl hi
    · refine .inr ⟨q, ?_⟩
      have hqr : q ≠ s.fresh := by
        rintro rfl
        rw [huncalled] at hq
        cases hq
      rw [← hq]
      exact Function.update_of_ne hqr _ _
  case held => exact h.held
  case calls => exact h.calls
  case returns => exact h.returns
  case queued => exact h.queued
  case nodup => exact h.nodup
  case order => exact h.order
  case outside => exact h.outside
  case thread_locked => exact h.thread_locked
  case rem => exact h.rem
  case faults => exact h.faults

theorem Inv.outside_of_start (h : Inv s job) {r : Req}
    (hp : s.submit r = .start ∨ s.submit r = .lock) : job r = .outside := by
  have hat := h.place r
  rcases hp with hp | hp <;>
    rcases hj : job r with _ | _ | j | _ <;> simp [hj, hp, Job.At] at hat <;> rfl

theorem Inv.queued_of_locked (h : Inv s job) {r : Req} (hp : (s.submit r).locked = true)
    (hne : s.submit r ≠ .add) : job r = .queued := by
  have hat := h.place r
  cases hj : job r with
  | outside =>
    rw [hj] at hat
    rcases hat with hat | hat | hat | hat <;> simp [hat, Submit.locked] at hp hne
  | queued => rfl
  | held j =>
    rw [hj] at hat
    obtain ⟨hat, -⟩ := hat
    simp [hat, Submit.locked] at hp
  | _ =>
    rw [hj] at hat
    rcases hat with hat | ⟨hat, -⟩ <;> simp [hat, Submit.locked] at hp

/-- A call goes on to `p` with the mutex as it is. -/
theorem Inv.goSubmit (h : Inv s job) {r : Req} (p : Submit) (hlive : (s.submit r).live = true)
    (hp : p.live = true) (hat : (job r).At p (s.status (s.wait r)))
    (hlocked : p.locked = (s.submit r).locked)
    (hawake : s.submit r = .signal → ∃ i, s.threads i ≠ .wait) : Inv (s.setSubmit r p) job := by
  refine h.moveSubmit r p s.mutex hlive hp hat ?_ (fun _ => Iff.rfl) hawake
  intro q
  by_cases hqr : q = r
  · rw [if_pos hqr, hqr, hlocked]
    exact h.submit_locked r
  · rw [if_neg hqr]

theorem Inv.submitStep (hn : 0 < n) (h : Inv s job) {r : Req}
    (hs : submitStep s r = some s') : ∃ job', Inv s' job' := by
  unfold AsyncPool.submitStep at hs
  split at hs
  next => cases hs
  next => cases hs
  next => cases hs
  next hp =>
    rw [if_neg (by omega)] at hs
    cases hs
    refine ⟨job, h.goSubmit .lock ?_ rfl ?_ ?_ ?_⟩
    · rw [hp]; rfl
    · simp [h.outside_of_start (.inl hp), Job.At]
    · rw [hp]; rfl
    · simp [hp]
  next hp =>
    have hat := h.place r
    rcases hj : job r with _ | _ | j | _ <;> simp [hj, hp, Job.At] at hat
  next hp =>
    split at hs
    next hm =>
      cases hs
      refine ⟨job, h.moveSubmit r .add (some (.submit r)) ?_ rfl ?_ ?_ ?_ ?_⟩
      · rw [hp]; rfl
      · simp [h.outside_of_start (.inr hp), Job.At]
      · intro q
        by_cases hqr : q = r
        · simp [hqr, Submit.locked]
        · simp [hqr, hm, Ne.symm hqr]
      · simp [hm]
      · simp [hp]
    next => cases hs
  next hp =>
    cases hs
    refine ⟨Function.update job r .queued, ?_⟩
    rw [h.touch_eq]
    · exact h.added hp
    · intro q hq
      have hmem : q ∈ s.waitQue := List.mem_of_getLast? (by simpa using hq)
      exact .inl ((h.queued q).mp hmem)
  next hp =>
    cases hs
    have hqueued := h.queued_of_locked (r := r) (by rw [hp]; rfl) (by simp [hp])
    refine ⟨job, h.goSubmit .coreWait ?_ rfl ?_ ?_ ?_⟩
    · rw [hp]; rfl
    · simp [hqueued, Job.At]
    · rw [hp]; rfl
    · simp [hp]
  next hp =>
    cases hs
    have hlive : (s.submit r).live = true := by rw [hp]; rfl
    have hqueued := h.queued_of_locked (r := r) (by rw [hp]; rfl) (by simp [hp])
    have hframe : s.frame (s.wait r) = some r := (h.frame _ r).mpr ⟨hlive, rfl⟩
    have hstatus : Inv { s with status := Function.update s.status (s.wait r) .wait } job := by
      apply h.setStatus
      intro q hq
      rw [hframe] at hq
      cases hq
      simp [hqueued, hp, Job.At]
    refine ⟨job, hstatus.goSubmit .unlock hlive rfl ?_ ?_ ?_⟩
    · simp [hqueued, Job.At]
    · simp [hp, Submit.locked]
    · simp [hp]
  next hp =>
    cases hs
    have hlocked : s.mutex = some (.submit r) := (h.submit_locked r).mpr (by rw [hp]; rfl)
    have hqueued := h.queued_of_locked (r := r) (by rw [hp]; rfl) (by simp [hp])
    have hat := h.place r
    refine ⟨job, h.moveSubmit r .suspended none ?_ rfl ?_ ?_ ?_ ?_⟩
    · rw [hp]; rfl
    · simpa [hqueued, hp, Job.At] using hat
    · intro q
      by_cases hqr : q = r
      · simp [hqr, Submit.locked]
      · simp [hqr, hlocked, Ne.symm hqr]
    · simp [hlocked]
    · simp [hp]
  next hp =>
    split at hs
    next hst =>
      cases hs
      refine ⟨job, (h.leave hp hst).setStatus ?_⟩
      intro q hq
      simp [State.leave, State.setSubmit] at hq
    next => cases hs

theorem Inv.calls_of_req (h : Inv s job) {i : Fin n} {r : Req} (hi : (s.threads i).req = some r) :
    s.calls r = (s.threads i).calls ∧ s.returns r = (s.threads i).returns := by
  have hheld := (h.held i r).mp hi
  rw [h.calls r, h.returns r, hheld]
  exact ⟨rfl, rfl⟩

/-- A thread goes on to `w` without a call. -/
theorem Inv.goThread (h : Inv s job) {i : Fin n} (w : Routine) (m : Option (Owner n))
    (hreq : w.req = (s.threads i).req) (hwait : ∀ r k, w = .ready r k → s.wait r = k)
    (hcalls : w.calls = (s.threads i).calls) (hreturns : w.returns = (s.threads i).returns)
    (hsub : ∀ r, m = some (.submit r) ↔ s.mutex = some (.submit r))
    (hthr : ∀ j, m = some (.thread j) ↔ if j = i then w.locked = true else s.mutex = some (.thread j))
    (hrem : w = .rem → s.waitQue ≠ []) (hawake : w = .wait → s.waitQue = []) :
    Inv { s with threads := Function.update s.threads i w, mutex := m } job := by
  refine h.moveThread i w m s.calls s.returns s.started hreq hwait ?_ ?_ hsub hthr hrem hawake
  · intro r
    by_cases hr : w.req = some r
    · rw [if_pos hr, hcalls]
      exact (h.calls_of_req (hreq.symm.trans hr)).1
    · rw [if_neg hr]
  · intro r
    by_cases hr : w.req = some r
    · rw [if_pos hr, hreturns]
      exact (h.calls_of_req (hreq.symm.trans hr)).2
    · rw [if_neg hr]

/-- The mutex is as before, and so is the thread's need for it. -/
theorem Inv.same_mutex (h : Inv s job) {i : Fin n} {w : Routine}
    (hw : w.locked = (s.threads i).locked) (j : Fin n) :
    s.mutex = some (.thread j) ↔ if j = i then w.locked = true else s.mutex = some (.thread j) := by
  by_cases hji : j = i
  · rw [if_pos hji, hji, hw]
    exact h.thread_locked i
  · rw [if_neg hji]

theorem Inv.relock (h : Inv s job) {i : Fin n} (hi : s.threads i = .wait) :
    Inv (s.setThread i .relock) job := by
  refine h.goThread .relock s.mutex ?_ (by simp) ?_ ?_ (by simp) ?_ (by simp) (by simp)
  · rw [hi]; rfl
  · rw [hi]; rfl
  · rw [hi]; rfl
  · apply h.same_mutex
    rw [hi]
    rfl

theorem Inv.acquired (h : Inv s job) {i : Fin n} (hi : s.threads i = .lock ∨ s.threads i = .relock)
    (hm : s.mutex = none) :
    Inv { s.setThread i .check with mutex := some (.thread i) } job := by
  refine h.goThread .check (some (.thread i)) ?_ (by simp) ?_ ?_ (by simp [hm]) ?_ (by simp) (by simp)
  · rcases hi with hi | hi <;> rw [hi] <;> rfl
  · rcases hi with hi | hi <;> rw [hi] <;> rfl
  · rcases hi with hi | hi <;> rw [hi] <;> rfl
  · intro j
    by_cases hji : j = i
    · simp [hji, Routine.locked]
    · simp [hji, hm, Ne.symm hji]

/-- A thread gives up the mutex. -/
theorem Inv.released (h : Inv s job) {i : Fin n} {w : Routine}
    (hi : (s.threads i).locked = true) (hw : w.locked = false)
    (hreq : w.req = (s.threads i).req) (hwait : ∀ r k, w = .ready r k → s.wait r = k)
    (hcalls : w.calls = (s.threads i).calls) (hreturns : w.returns = (s.threads i).returns)
    (hrem : w ≠ .rem) (hawake : w = .wait → s.waitQue = []) :
    Inv { s.setThread i w with mutex := none } job := by
  have hm : s.mutex = some (.thread i) := (h.thread_locked i).mpr hi
  refine h.goThread w none hreq hwait hcalls hreturns (by simp [hm]) ?_ (absurd · hrem) hawake
  intro j
  by_cases hji : j = i
  · simp [hji, hw]
  · simp [hji, hm, Ne.symm hji]

theorem Inv.signalStep (hn : 0 < n) (h : Inv s job) {r : Req} {woken : Option (Fin n)}
    (hs : signalStep s r woken = some s') : ∃ job', Inv s' job' := by
  have hgo : ∀ {s : State n}, Inv s job → s.submit r = .signal → (∃ i, s.threads i ≠ .wait) →
      Inv (s.setSubmit r .suspend) job := by
    intro s h hp hawake
    have hqueued := h.queued_of_locked (r := r) (by rw [hp]; rfl) (by simp [hp])
    refine h.goSubmit .suspend ?_ rfl ?_ ?_ (fun _ => hawake)
    · rw [hp]; rfl
    · simp [hqueued, Job.At]
    · rw [hp]; rfl
  rcases woken with _ | i
  · simp only [AsyncPool.signalStep] at hs
    split at hs
    next hcond =>
      cases hs
      exact ⟨job, hgo h hcond.1 ⟨⟨0, hn⟩, hcond.2 _⟩⟩
    next => cases hs
  · simp only [AsyncPool.signalStep] at hs
    split at hs
    next hcond =>
      cases hs
      exact ⟨job, hgo (h.relock hcond.2) hcond.1 ⟨i, by simp [State.setThread]⟩⟩
    next => cases hs

theorem Inv.routineStep (h : Inv s job) {i : Fin n}
    (hs : routineStep s i = some s') : ∃ job', Inv s' job' := by
  have htouch : ∀ r, (s.threads i).req = some r → s.touch [r] = s := by
    intro r hr
    apply h.touch_eq
    intro q hq
    rw [List.mem_singleton.mp hq]
    exact .inr ⟨i, (h.held i r).mp hr⟩
  unfold AsyncPool.routineStep at hs
  split at hs
  next hi =>
    split at hs
    next hm =>
      cases hs
      exact ⟨job, h.acquired (.inl hi) hm⟩
    next => cases hs
  next hi =>
    split at hs
    next hm =>
      cases hs
      exact ⟨job, h.acquired (.inr hi) hm⟩
    next => cases hs
  next hi =>
    split at hs
    next hq =>
      cases hs
      refine ⟨job, h.released ?_ rfl ?_ (by simp) ?_ ?_ (by simp) (fun _ => hq)⟩
      all_goals rw [hi]; rfl
    next hq =>
      cases hs
      refine ⟨job, h.goThread .rem s.mutex ?_ (by simp) ?_ ?_ (by simp) ?_ (fun _ => hq) (by simp)⟩
      · rw [hi]; rfl
      · rw [hi]; rfl
      · rw [hi]; rfl
      · apply h.same_mutex
        rw [hi]
        rfl
  next hi => cases hs
  next hi =>
    split at hs
    next => cases hs
    next r rest hq =>
      cases hs
      refine ⟨Function.update job r (.held i), ?_⟩
      rw [h.touch_eq]
      · exact h.taken hi hq
      · intro q hmem
        refine .inl ((h.queued q).mp ?_)
        rw [hq]
        rcases rest with _ | ⟨r', rest⟩ <;> simp at hmem ⊢ <;> tauto
  next r hi =>
    cases hs
    refine ⟨job, h.released ?_ rfl ?_ (by simp) ?_ ?_ (by simp) (by simp)⟩
    all_goals rw [hi]; rfl
  next r hi =>
    cases hs
    have hreq : (s.threads i).req = some r := by rw [hi]; rfl
    obtain ⟨hcalls, hreturns⟩ := h.calls_of_req hreq
    rw [htouch r hreq]
    refine ⟨job, h.moveThread i (.running r) s.mutex (bump s.calls r) s.returns _ hreq.symm
      (by simp) ?_ ?_ (by simp) ?_ (by simp) (by simp)⟩
    · intro q
      by_cases hqr : q = r
      · simp [hqr, bump, hcalls, hi, Routine.req, Routine.calls]
      · simp [hqr, Ne.symm hqr, bump, Routine.req]
    · intro q
      by_cases hqr : q = r
      · simp [hqr, hreturns, hi, Routine.req, Routine.returns]
      · simp [Ne.symm hqr, Routine.req]
    · apply h.same_mutex
      rw [hi]
      rfl
  next r hi =>
    cases hs
    have hreq : (s.threads i).req = some r := by rw [hi]; rfl
    obtain ⟨hcalls, hreturns⟩ := h.calls_of_req hreq
    refine ⟨job, h.moveThread i (.readWait r) s.mutex s.calls (bump s.returns r) _ hreq.symm
      (by simp) ?_ ?_ (by simp) ?_ (by simp) (by simp)⟩
    · intro q
      by_cases hqr : q = r
      · simp [hqr, hcalls, hi, Routine.req, Routine.calls]
      · simp [Ne.symm hqr, Routine.req]
    · intro q
      by_cases hqr : q = r
      · simp [hqr, bump, hreturns, hi, Routine.req, Routine.returns]
      · simp [hqr, Ne.symm hqr, bump, Routine.req]
    · apply h.same_mutex
      rw [hi]
      rfl
  next r hi =>
    cases hs
    have hreq : (s.threads i).req = some r := by rw [hi]; rfl
    rw [htouch r hreq]
    refine ⟨job, h.goThread (.ready r (s.wait r)) s.mutex hreq.symm ?_ ?_ ?_ (by simp) ?_ (by simp)
      (by simp)⟩
    · rintro q k ⟨⟩
      rfl
    · rw [hi]; rfl
    · rw [hi]; rfl
    · apply h.same_mutex
      rw [hi]
      rfl
  next r k hi =>
    split at hs
    next =>
      cases hs
      exact ⟨_, h.readied hi⟩
    next => cases hs
  next hi =>
    cases hs
    refine ⟨job, h.goThread .lock s.mutex ?_ (by simp) ?_ ?_ (by simp) ?_ (by simp) (by simp)⟩
    · rw [hi]; rfl
    · rw [hi]; rfl
    · rw [hi]; rfl
    · apply h.same_mutex
      rw [hi]
      rfl

theorem Inv.step (hn : 0 < n) (h : Inv s job) {l : Label n} (hs : step s l = some s') :
    ∃ job', Inv s' job' := by
  cases l with
  | call k =>
    simp only [AsyncPool.step, callStep] at hs
    split at hs
    next hk =>
      cases hs
      exact ⟨job, h.called hk⟩
    next => cases hs
  | submit r => exact h.submitStep hn hs
  | signal r woken => exact h.signalStep hn hs
  | thread i => exact h.routineStep hs
  | spurious i =>
    simp only [AsyncPool.step] at hs
    split at hs
    next hi =>
      cases hs
      exact ⟨job, h.relock hi⟩
    next => cases hs

theorem Reachable.inv (hn : 0 < n) (h : Reachable n s) : ∃ job, Inv s job := by
  refine Reach.invariant (I := fun s => ∃ job, Inv s job) ?_ ?_ h
  · rintro _ rfl
    exact ⟨_, inv_init⟩
  · rintro s l s' ⟨job, hinv⟩ _ hl
    exact hinv.step hn hl

/-! ### What a run of the pool can do -/

/-- The requests a thread has taken and not started. -/
def Routine.toStart : Routine → List Req
  | .unlock r | .func r => [r]
  | _ => []

theorem taken_eq_step {s s' : State 1} {l : Label 1} (hs : step s l = some s')
    (h : s.taken = s.started ++ (s.threads 0).toStart) :
    s'.taken = s'.started ++ (s'.threads 0).toStart := by
  cases l with
  | call k =>
    simp only [step, callStep] at hs
    split at hs <;> cases hs
    exact h
  | submit r =>
    simp only [step, submitStep] at hs
    split at hs <;> (try split at hs) <;> cases hs <;> first | exact h | omega
  | signal r woken =>
    rcases woken with _ | i <;> simp only [step, signalStep] at hs <;> split at hs <;> cases hs
    next => exact h
    next hcond =>
      have hi : s.threads 0 = .wait := by
        rw [← hcond.2, Subsingleton.elim i 0]
      rw [hi] at h
      simpa [State.setThread, State.setSubmit, Subsingleton.elim i 0, Routine.toStart] using h
  | thread i =>
    obtain rfl : i = 0 := Subsingleton.elim i 0
    simp only [step, routineStep] at hs
    split at hs <;> (try split at hs) <;> cases hs
    all_goals simp_all [State.setThread, State.touch, Routine.toStart]
  | spurious i =>
    obtain rfl : i = 0 := Subsingleton.elim i 0
    simp only [step] at hs
    split at hs <;> cases hs
    next hi =>
      rw [hi] at h
      simpa [State.setThread, Routine.toStart] using h

/-- A single thread starts the requests as it takes them. -/
theorem Reachable.taken_eq {s : State 1} (h : Reachable 1 s) :
    s.taken = s.started ++ (s.threads 0).toStart := by
  refine Reach.invariant (I := fun s : State 1 => s.taken = s.started ++ (s.threads 0).toStart) ?_ ?_ h
  · rintro _ rfl
    rfl
  · intro s l s' hinv _ hl
    exact taken_eq_step hl hinv

/-- The steps left to a call, and to a thread with what it holds. -/
def Submit.work : Submit → Nat
  | .start => 23
  | .inline => 22
  | .lock => 22
  | .add => 21
  | .signal => 11
  | .suspend => 6
  | .coreWait => 5
  | .unlock => 4
  | .suspended => 3
  | .uncalled | .returned => 0

def Routine.work : Routine → Nat
  | .wait => 0
  | .rem => 1
  | .check => 2
  | .lock | .relock => 3
  | .wakeup => 4
  | .ready _ _ => 5
  | .readWait _ => 6
  | .running _ => 7
  | .func _ => 8
  | .unlock _ => 9

/-- A bound on the steps of the pool when nobody calls. -/
def State.work (s : State n) : Nat :=
  (∑ r ∈ Finset.range s.fresh, (s.submit r).work) + (∑ i, (s.threads i).work) + 9 * s.waitQue.length

/-- A call or a thread that moves changes the work by its own. -/
theorem State.work_setSubmit (s : State n) {r : Req} (hr : r < s.fresh) (p : Submit) :
    (s.setSubmit r p).work + (s.submit r).work = s.work + p.work := by
  have hsum : ∑ q ∈ Finset.range s.fresh, (Function.update s.submit r p q).work + (s.submit r).work =
      ∑ q ∈ Finset.range s.fresh, (s.submit q).work + p.work :=
    sum_update_of_mem Submit.work s.submit (Finset.mem_range.mpr hr) p
  simp only [State.work, State.setSubmit]
  omega

theorem State.work_setThread (s : State n) (i : Fin n) (w : Routine) :
    (s.setThread i w).work + (s.threads i).work = s.work + w.work := by
  have hsum := sum_update Routine.work s.threads i w
  simp only [State.work, State.setThread]
  omega

/-- The work of a state is in its calls, its threads and its queue. -/
theorem State.work_congr {t : State n} (hfresh : t.fresh = s.fresh) (hsubmit : t.submit = s.submit)
    (hthreads : t.threads = s.threads) :
    t.work + 9 * s.waitQue.length = s.work + 9 * t.waitQue.length := by
  simp only [State.work, hfresh, hsubmit, hthreads]
  omega

theorem work_submitStep {r : Req} (hr : s.submit r ≠ .uncalled → r < s.fresh)
    (hs : submitStep s r = some s') : s'.work < s.work := by
  -- how the call moves, and how the queue grows meanwhile
  have key : ∀ p t, s.submit r ≠ .uncalled → State.fresh t = s.fresh →
      t.submit = (s.setSubmit r p).submit → t.threads = s.threads →
      p.work + 9 * t.waitQue.length < (s.submit r).work + 9 * s.waitQue.length → t.work < s.work := by
    intro p t hne hfresh hsubmit hthreads hlt
    have hmove := s.work_setSubmit (hr hne) p
    have hcongr := State.work_congr (s := s.setSubmit r p) hfresh hsubmit hthreads
    simp only [State.setSubmit] at hmove hcongr
    omega
  unfold submitStep at hs
  split at hs
  next => cases hs
  next => cases hs
  next => cases hs
  next hp =>
    split at hs <;> cases hs
    · exact key .inline _ (by simp [hp]) rfl rfl rfl (by simp [hp, Submit.work, State.setSubmit])
    · exact key .lock _ (by simp [hp]) rfl rfl rfl (by simp [hp, Submit.work, State.setSubmit])
  next hp =>
    cases hs
    exact key .returned _ (by simp [hp]) rfl rfl rfl
      (by simp [hp, Submit.work, State.leave, State.setSubmit])
  next hp =>
    split at hs <;> cases hs
    exact key .add _ (by simp [hp]) rfl rfl rfl (by simp [hp, Submit.work, State.setSubmit])
  next hp =>
    cases hs
    refine key .signal _ (by simp [hp]) rfl rfl rfl ?_
    simp [hp, Submit.work]
    omega
  next hp =>
    cases hs
    exact key .coreWait _ (by simp [hp]) rfl rfl rfl (by simp [hp, Submit.work, State.setSubmit])
  next hp =>
    cases hs
    exact key .unlock _ (by simp [hp]) rfl rfl rfl (by simp [hp, Submit.work, State.setSubmit])
  next hp =>
    cases hs
    exact key .suspended _ (by simp [hp]) rfl rfl rfl (by simp [hp, Submit.work, State.setSubmit])
  next hp =>
    split at hs <;> cases hs
    exact key .returned _ (by simp [hp]) rfl rfl rfl
      (by simp [hp, Submit.work, State.leave, State.setSubmit])

theorem work_routineStep {i : Fin n} (hs : routineStep s i = some s') : s'.work < s.work := by
  have key : ∀ w t, State.fresh t = s.fresh → t.submit = s.submit →
      t.threads = (s.setThread i w).threads →
      w.work + 9 * t.waitQue.length < (s.threads i).work + 9 * s.waitQue.length → t.work < s.work := by
    intro w t hfresh hsubmit hthreads hlt
    have hmove := s.work_setThread i w
    have hcongr := State.work_congr (s := s.setThread i w) hfresh hsubmit hthreads
    simp only [State.setThread] at hmove hcongr
    omega
  unfold routineStep at hs
  split at hs
  next hi =>
    split at hs <;> cases hs
    exact key .check _ rfl rfl rfl (by simp [hi, Routine.work, State.setThread])
  next hi =>
    split at hs <;> cases hs
    exact key .check _ rfl rfl rfl (by simp [hi, Routine.work, State.setThread])
  next hi =>
    split at hs <;> cases hs
    · exact key .wait _ rfl rfl rfl (by simp [hi, Routine.work, State.setThread])
    · exact key .rem _ rfl rfl rfl (by simp [hi, Routine.work, State.setThread])
  next => cases hs
  next hi =>
    split at hs
    next => cases hs
    next r rest hq =>
      cases hs
      refine key (.unlock r) _ rfl rfl rfl ?_
      simp [hi, hq, Routine.work]
      omega
  next r hi =>
    cases hs
    exact key (.func r) _ rfl rfl rfl (by simp [hi, Routine.work, State.setThread])
  next r hi =>
    cases hs
    exact key (.running r) _ rfl rfl rfl (by simp [hi, Routine.work, State.setThread, State.touch])
  next r hi =>
    cases hs
    exact key (.readWait r) _ rfl rfl rfl (by simp [hi, Routine.work, State.setThread])
  next r hi =>
    cases hs
    exact key (.ready r (s.wait r)) _ rfl rfl rfl
      (by simp [hi, Routine.work, State.setThread, State.touch])
  next r k hi =>
    split at hs <;> cases hs
    exact key .wakeup _ rfl rfl rfl (by simp [hi, Routine.work, State.setThread])
  next hi =>
    cases hs
    exact key .lock _ rfl rfl rfl (by simp [hi, Routine.work, State.setThread])

/-- A step of the pool: anything but a new call. -/
def Label.internal : Label n → Bool
  | .call _ => false
  | _ => true

def Label.isSpurious : Label n → Bool
  | .spurious _ => true
  | _ => false

theorem work_signalStep {r : Req} {woken : Option (Fin n)}
    (hr : s.submit r ≠ .uncalled → r < s.fresh) (hs : signalStep s r woken = some s') :
    s'.work < s.work := by
  rcases woken with _ | i <;> simp only [signalStep] at hs <;> split at hs
  next hcond =>
    cases hs
    have hmove := s.work_setSubmit (hr (by simp [hcond.1])) .suspend
    rw [hcond.1] at hmove
    simp only [Submit.work] at hmove
    omega
  next => cases hs
  next hcond =>
    cases hs
    have hmove := s.work_setSubmit (hr (by simp [hcond.1])) .suspend
    have hwake := (s.setSubmit r .suspend).work_setThread i .relock
    have hi : (s.setSubmit r .suspend).threads i = .wait := hcond.2
    rw [hcond.1] at hmove
    rw [hi] at hwake
    simp only [Submit.work, Routine.work] at hmove hwake
    omega
  next => cases hs

theorem work_step (h : Inv s job) {l : Label n} (hl : l.internal = true) (hs : step s l = some s') :
    s'.work + 1 ≤ s.work + if l.isSpurious then 4 else 0 := by
  have hfresh : ∀ r, s.submit r ≠ .uncalled → r < s.fresh := by
    intro r hr
    exact Nat.lt_of_not_le fun hle => hr ((h.fresh r).mpr hle)
  cases l with
  | call k => cases hl
  | submit r => exact work_submitStep (hfresh r) hs
  | signal r woken => exact work_signalStep (hfresh r) hs
  | thread i => exact work_routineStep hs
  | spurious i =>
    simp only [step] at hs
    split at hs
    next hi =>
      cases hs
      have hmove := s.work_setThread i .relock
      rw [hi] at hmove
      simp only [Routine.work] at hmove
      simp only [Label.isSpurious, if_true]
      omega
    next => cases hs

/-- The pool comes to rest, up to threads that wake without a signal. -/
theorem run_length (hn : 0 < n) (ls : List (Label n)) :
    ∀ {s : State n} {job}, Inv s job → (∀ l ∈ ls, l.internal = true) → run step s ls = some s' →
      ls.length ≤ s.work + 4 * ls.countP Label.isSpurious := by
  induction ls with
  | nil =>
    intro s job _ _ _
    simp
  | cons l ls ih =>
    intro s job h hall hrun
    simp only [run, Option.bind_eq_some_iff] at hrun
    obtain ⟨s₁, hl, hrest⟩ := hrun
    obtain ⟨job₁, h₁⟩ := h.step hn hl
    have hone := work_step h (hall l (by simp)) hl
    have htail := ih h₁ (fun l' hl' => hall l' (by simp [hl'])) hrest
    simp only [List.length_cons, List.countP_cons]
    split at hone <;> simp_all <;> omega

/-- Nobody in the pool can go on. -/
def State.AtRest (s : State n) : Prop :=
  ∀ l : Label n, l.internal = true → l.isSpurious = false → step s l = none

theorem AtRest.mutex_free (h : Inv s job) (hrest : s.AtRest) : s.mutex = none := by
  rcases hm : s.mutex with _ | r | i
  · rfl
  · have hlocked := (h.submit_locked r).mp hm
    have hsubmit := hrest (.submit r) rfl rfl
    have hsignal := hrest (.signal r none) rfl rfl
    have hwoken := fun i => hrest (.signal r (some i)) rfl rfl
    rcases hp : s.submit r <;> simp [hp, Submit.locked] at hlocked <;>
      simp [step, submitStep, hp] at hsubmit
    simp only [step, signalStep, hp, true_and, ite_eq_right_iff, reduceCtorEq, imp_false] at hsignal hwoken
    exact absurd hwoken hsignal
  · have hlocked := (h.thread_locked i).mp hm
    have hthread := hrest (.thread i) rfl rfl
    rcases hi : s.threads i with _ | _ | _ | _ | _ | r | r | r | r | ⟨r, k⟩ | _ <;>
      simp [hi, Routine.locked] at hlocked <;>
      simp [step, routineStep, hi] at hthread
    · split at hthread <;> cases hthread
    · have hne := h.rem i hi
      split at hthread
      next hq => exact absurd hq hne
      next => cases hthread

theorem AtRest.threads_wait (h : Inv s job) (hrest : s.AtRest) (i : Fin n) : s.threads i = .wait := by
  have hm := AtRest.mutex_free h hrest
  have hunlocked := (h.thread_locked i).not.mp (by rw [hm]; simp)
  have hthread := hrest (.thread i) rfl rfl
  rcases hi : s.threads i with _ | _ | _ | _ | _ | r | r | r | r | ⟨r, k⟩ | _ <;>
    simp [hi, Routine.locked] at hunlocked <;> simp [step, routineStep, hi, hm] at hthread
  · rfl
  · -- the assertion of `vpu_ready`
    have hheld := (h.held i r).mp (by rw [hi]; rfl)
    have hat := h.place r
    rw [hheld] at hat
    rw [h.local_wait i r k hi] at hat
    exact absurd hat.2 hthread

/-- **When the pool is at rest all calls have returned.** -/
theorem AtRest.all_returned (h : Inv s job) (hrest : s.AtRest) {r : Req}
    (hr : r < s.fresh) : s.submit r = .returned ∧ job r = .over := by
  have hm := AtRest.mutex_free h hrest
  have hwait := AtRest.threads_wait h hrest
  have hsubmit := hrest (.submit r) rfl rfl
  have hunlocked := (h.submit_locked r).not.mp (by rw [hm]; simp)
  have hat := h.place r
  cases hj : job r with
  | outside =>
    rw [hj] at hat
    rcases hat with hp | hp | hp | hp
    · exact absurd ((h.fresh r).mp hp) (Nat.not_le.mpr hr)
    · simp only [step, submitStep, hp] at hsubmit
      split at hsubmit <;> cases hsubmit
    · simp [step, submitStep, hp, hm] at hsubmit
    · simp [hp, Submit.locked] at hunlocked
  | queued =>
    have hne : s.waitQue ≠ [] := List.ne_nil_of_mem ((h.queued r).mpr hj)
    rcases h.awake hne with ⟨i, hi⟩ | ⟨q, hq⟩
    · exact absurd (hwait i) hi
    · have hlocked := (h.submit_locked q).mpr (by rw [hq]; rfl)
      rw [hm] at hlocked
      cases hlocked
  | held i =>
    have hreq := (h.held i r).mpr hj
    rw [hwait i] at hreq
    cases hreq
  | _ =>
    rw [hj] at hat
    rcases hat with hp | ⟨hp, hst⟩
    · exact ⟨hp, rfl⟩
    · simp [step, submitStep, hp, hst] at hsubmit

theorem Inv.mem_taken (h : Inv s job) {r : Req} (hr : 0 < s.calls r) : r ∈ s.taken := by
  rw [h.calls r] at hr
  have hsub : r ∈ s.submitted := by
    rw [h.outside r]
    rintro hj
    simp [hj, Job.calls] at hr
  rw [h.order, List.mem_append] at hsub
  rcases hsub with hsub | hsub
  · exact hsub
  · rw [h.queued r] at hsub
    simp [hsub, Job.calls] at hr

theorem Routine.returns_le (w : Routine) : w.returns ≤ w.calls ∧ w.calls ≤ 1 := by
  cases w <;> simp [Routine.returns, Routine.calls]

theorem Job.returns_le (threads : Fin n → Routine) (j : Job n) :
    j.returns threads ≤ j.calls threads ∧ j.calls threads ≤ 1 := by
  rcases j with _ | _ | i | _
  · simp [Job.returns, Job.calls]
  · simp [Job.returns, Job.calls]
  · exact (threads i).returns_le
  · simp [Job.returns, Job.calls]

theorem Inv.over_of_gone (h : Inv s job) {r : Req} (hr : r < s.fresh) (hgone : s.gone r = true) :
    job r = .over := by
  have hat := h.place r
  have hcalled := (h.fresh r).not.mpr (Nat.not_le.mpr hr)
  rcases hj : job r with _ | _ | i | _ <;> rw [hj] at hat
  · rcases hat with hp | hp | hp | hp <;> simp [State.gone, hp] at hgone hcalled
  · rw [h.not_gone (.inl hj)] at hgone
    cases hgone
  · rw [h.not_gone (.inr ⟨i, hj⟩)] at hgone
    cases hgone

/-- **Every request runs once, before its caller goes on.**  `func` of a request is called at
    most once, and only for requests taken from the queue, which are taken in the order of
    their submission (a single thread also starts them in that order).  When a coroutine was
    made ready its `func` has returned, and from then on no thread touches the request.  The
    pool always comes to rest, up to threads that wake without a signal, and then every call
    has had its `func` called and has returned. -/
theorem requests_once (hn : 0 < n) (h : Reachable n s) :
    (∀ r, s.returns r ≤ s.calls r ∧ s.calls r ≤ 1 ∧ (0 < s.calls r → r ∈ s.taken)) ∧
    s.submitted.Nodup ∧ s.taken <+: s.submitted ∧ (n = 1 → s.started <+: s.submitted) ∧
    (∀ r < s.fresh, s.gone r = true → s.calls r = 1 ∧ s.returns r = 1) ∧
    s.faults = [] ∧
    ∀ ls s', (∀ l ∈ ls, Label.internal l = true) → run step s ls = some s' →
      ls.length ≤ s.work + 4 * ls.countP Label.isSpurious ∧
      (s'.AtRest → ∀ r < s'.fresh, s'.submit r = .returned ∧ s'.calls r = 1 ∧ s'.returns r = 1) := by
  obtain ⟨job, hinv⟩ := h.inv hn
  have htaken : s.taken <+: s.submitted := ⟨s.waitQue, hinv.order.symm⟩
  refine ⟨?_, hinv.nodup, htaken, ?_, ?_, hinv.faults, ?_⟩
  · intro r
    have hle := Job.returns_le s.threads (job r)
    rw [← hinv.calls r, ← hinv.returns r] at hle
    exact ⟨hle.1, hle.2, hinv.mem_taken⟩
  · rintro rfl
    exact List.IsPrefix.trans ⟨_, h.taken_eq.symm⟩ htaken
  · intro r hr hgone
    have hover := hinv.over_of_gone hr hgone
    rw [hinv.calls r, hinv.returns r, hover]
    exact ⟨rfl, rfl⟩
  · intro ls s' hall hrun
    refine ⟨run_length hn ls hinv hall hrun, ?_⟩
    intro hrest r hr
    obtain ⟨job', hinv'⟩ := Reachable.inv hn (Reach.of_run ls h hrun)
    obtain ⟨hp, hover⟩ := AtRest.all_returned hinv' hrest hr
    rw [hinv'.calls r, hinv'.returns r, hover]
    exact ⟨hp, rfl, rfl⟩

/-- A call up to the suspension of its coroutine, with no thread waiting for a signal. -/
def submitRun (k : Nat) (r : Req) : List (Label n) :=
  [.call k, .submit r, .submit r, .submit r, .signal r none, .submit r, .submit r, .submit r]

theorem requests_once_oneCall : ∃ s : State 1, s.submit 0 = .suspended ∧ s.gone 0 = true ∧
    s.calls 0 = 1 ∧ s.returns 0 = 1 ∧ s.faults = [] := by
  obtain ⟨s, hs, hcheck⟩ := Reach.exists_of_run step (· = init 1) rfl
    (submitRun 0 0 ++ List.replicate 8 (.thread 0))
    (fun s => decide (s.submit 0 = .suspended ∧ s.gone 0 = true ∧ 0 < s.fresh)) (by decide)
  obtain ⟨hp, hgone, hfresh⟩ := of_decide_eq_true hcheck
  obtain ⟨-, -, -, -, hover, hfaults, -⟩ := requests_once Nat.one_pos hs
  obtain ⟨hcalls, hreturns⟩ := hover 0 hfresh hgone
  exact ⟨s, hp, hgone, hcalls, hreturns, hfaults⟩

/-- Two threads take two requests, and the second is started first. -/
theorem requests_out_of_order :
    ¬ ∀ s : State 2, Reachable 2 s → s.started <+: s.submitted := by
  intro hall
  obtain ⟨s, hs, hcheck⟩ := Reach.exists_of_run step (· = init 2) rfl
    (submitRun 0 0 ++ submitRun 1 1 ++ List.replicate 4 (.thread 0) ++ List.replicate 5 (.thread 1))
    (fun s => decide (s.submitted = [0, 1] ∧ s.started = [1])) (by decide)
  obtain ⟨hsubmitted, hstarted⟩ := of_decide_eq_true hcheck
  have hprefix := hall s hs
  rw [hsubmitted, hstarted] at hprefix
  simp at hprefix

end

end Coroc.AsyncPool
