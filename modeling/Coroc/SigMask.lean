import Mathlib.Logic.Function.Basic
import Coroc.Program

/-!
# The nesting of the signal mask

With `ENABLE_TIMESHARE` a coroutine is preempted by a signal.  `TSC_SIGNAL_MASK` and
`TSC_SIGNAL_UNMASK` (`src/include/inter/support.h`) count in a variable of the OS thread how
often it is masked; `vpu_syscall` saves the counter with the coroutine, and the scheduler
loads it when the coroutine runs again, maybe on another thread.

The public operations are modelled by what they do to the counter: every call between
`TSC_SIGNAL_MASK` and `TSC_SIGNAL_UNMASK` that masks or switches the context is there, and
every branch around such a call.  What decides a branch is left open (`test`).

`nest_restored_iff`: whatever happens meanwhile, a call leaves the counter as it found it
unless it is a select over an empty set, or runs a callback on the coroutine's own stack
that makes such a call.
-/

namespace Coroc.SigMask

open Coroc.Program Coroc.Transition

/-- `readThreads`: `coroc_async_pool_manager.threads != NULL`. -/
inductive Cmd where
  | mask
  | unmask
  | syscall
  | test
  | readThreads

def Cmd.Res : Cmd → Type
  | mask | unmask | syscall => Unit
  | test | readThreads => Bool

abbrev MProg := Prog Cmd Cmd.Res

/-! ### The operations -/

def issue (c : Cmd) : MProg c.Res := .perform c

/-- `TSC_SIGNAL_MASK`. -/
def signalMask : MProg Unit := issue .mask

/-- `TSC_SIGNAL_UNMASK`. -/
def signalUnmask : MProg Unit := issue .unmask

/-- `vpu_syscall`, from the save of the context to its return. -/
def vpuSyscall : MProg Unit := issue .syscall

def test : MProg Bool := issue .test

def readThreads : MProg Bool := issue .readThreads

/-- `vpu_suspend`. -/
def vpuSuspend : MProg Unit := vpuSyscall

/-- `coroc_coroutine_yield`. -/
def coroutineYield : MProg Unit := do
  signalMask
  vpuSyscall
  signalUnmask

/-- `coroc_coroutine_self`. -/
def coroutineSelf : MProg Unit := do
  signalMask
  signalUnmask

/-- `vpu_ready`. -/
def vpuReady (preempt : Bool) : MProg Unit := do
  if preempt then
    if ← test then coroutineYield

/-- `coroc_coroutine_allocate`. -/
def coroutineAllocate (idle : Bool) : MProg Unit := do
  signalMask
  if !idle then vpuReady true
  signalUnmask

/-- `__coroc_chan_send`: whether it returns `CHAN_SUCCESS`. -/
def chanSendLocked (block : Bool) : MProg Bool := do
  coroutineSelf
  -- a waiting receiver
  if ← test then
    vpuReady false
    return true
  -- closed
  else if ← test then return false
  -- a free slot
  else if ← test then return true
  else if block then
    vpuSuspend
    return false
  else return false

/-- `__coroc_chan_recv`. -/
def chanRecvLocked (block : Bool) : MProg Bool := do
  coroutineSelf
  if ← test then return true
  else if ← test then
    vpuReady false
    return true
  else if ← test then return false
  else if block then
    vpuSuspend
    return false
  else return false

/-- `_coroc_chan_send`. -/
def chanSend (block : Bool) : MProg Unit := do
  signalMask
  let _ ← chanSendLocked block
  signalUnmask

/-- `_coroc_chan_recv`; without a channel the coroutine's own is meant. -/
def chanRecv (null block : Bool) : MProg Unit := do
  signalMask
  if null then coroutineSelf
  let _ ← chanRecvLocked block
  signalUnmask

/-- A loop of `coroc_chan_close`. -/
def wakeAll : MProg Unit :=
  .repeatUntil do
    if ← test then
      vpuReady false
      return none
    else return some ()

/-- `coroc_chan_close`. -/
def chanClose : MProg Unit := do
  signalMask
  if ← test then pure ()
  else
    wakeAll
    wakeAll
  signalUnmask

inductive CaseType where
  | send
  | recv
deriving DecidableEq, Repr

/-- The polling loop of a select: whether a case succeeded. -/
def pollCases : List CaseType → MProg Bool
  | [] => return false
  | e :: es => do
    let success ← match e with
      | .send => chanSendLocked false
      | .recv => chanRecvLocked false
    if success then return true else pollCases es

/-- `_coroc_chan_set_select`. -/
def chanSetSelect (cases : List CaseType) (block : Bool) : MProg Unit := do
  signalMask
  if cases.isEmpty then return
  else
    coroutineSelf
    let success ← pollCases cases
    if !success && block then vpuSuspend
    signalUnmask

/-- `coroc_intertimer_start`. -/
def intertimerStart : MProg Unit := coroutineAllocate false

/-- `coroc_add_intertimer`. -/
def addIntertimer : MProg Unit := do
  signalMask
  -- there is no daemon yet
  if ← test then intertimerStart
  -- it is the first timer and the daemon sleeps
  else if ← test then vpuReady true
  signalUnmask

/-- `coroc_net_wait`; `__coroc_poll_desc_init` asks for the coroutine. -/
def netWait : MProg Unit := do
  coroutineSelf
  signalMask
  vpuSuspend
  signalUnmask

/-- `coroc_net_timedwait`. -/
def netTimedwait : MProg Unit := do
  coroutineSelf
  signalMask
  addIntertimer
  vpuSuspend
  signalUnmask

/-- `coroc_async_request_submit`. -/
def asyncRequestSubmit (func : MProg Unit) : MProg Unit := do
  signalMask
  if ← readThreads then
    coroutineSelf
    vpuSuspend
  else func
  signalUnmask

/-- The public operations.  A callback is a sequence of them. -/
inductive Call where
  | chanSend (block : Bool)
  | chanRecv (null block : Bool)
  | chanClose
  | select (cases : List CaseType) (block : Bool)
  | addIntertimer
  | netWait
  | netTimedwait
  | asyncRequestSubmit (func : List Call)
  | coroutineAllocate (idle : Bool)
  | coroutineYield
  | coroutineSelf

mutual

def body : Call → MProg Unit
  | .chanSend block => chanSend block
  | .chanRecv null block => chanRecv null block
  | .chanClose => chanClose
  | .select cases block => chanSetSelect cases block
  | .addIntertimer => addIntertimer
  | .netWait => netWait
  | .netTimedwait => netTimedwait
  | .asyncRequestSubmit func => asyncRequestSubmit (bodies func)
  | .coroutineAllocate idle => coroutineAllocate idle
  | .coroutineYield => coroutineYield
  | .coroutineSelf => coroutineSelf

def bodies : List Call → MProg Unit
  | [] => return
  | a :: as => do
    body a
    bodies as

end

/-! ### The machine -/

/-- `nest` is `__vpu_sigmask_nest` of every VPU, `saved` is the `sigmask_nest` of every
    coroutine; `current v` is the coroutine that runs on `v`, and `loc` the other way round.
    `coin` decides the next test.  `call` and `entry` are not in the source: the last call
    of a coroutine and the counter when it was made. -/
structure State where
  nest : Nat → Int
  saved : Nat → Int
  current : Nat → Option Nat
  loc : Nat → Option Nat
  threads : Bool
  coin : Bool
  call : Nat → Option Call
  entry : Nat → Int

inductive Env where
  | toss (b : Bool)
  | preempt (v : Nat)
  | sched (v k : Nat)

namespace State

/-- The counter of a coroutine, where it is now. -/
def level (s : State) (k : Nat) : Int :=
  match s.loc k with
  | some v => s.nest v
  | none => s.saved k

/-- `TSC_SIGNAL_STATE_SAVE` and the switch to the scheduler of `v`. -/
def leave (s : State) (v k : Nat) : State :=
  { s with
    saved := Function.update s.saved k (s.nest v)
    current := Function.update s.current v none
    loc := Function.update s.loc k none }

/-- `TSC_SIGNAL_STATE_LOAD` and the switch to the coroutine. -/
def resume (s : State) (v k : Nat) : State :=
  { s with
    nest := Function.update s.nest v (s.saved k)
    current := Function.update s.current v (some k)
    loc := Function.update s.loc k (some v) }

def add (s : State) (v : Nat) (d : Int) : State :=
  { s with nest := Function.update s.nest v (s.nest v + d) }

end State

def exec (k : Nat) (c : Cmd) (s : State) : Option (c.Res × State) :=
  match s.loc k with
  | none => none
  | some v =>
    match c with
    | .mask => some ((), s.add v 1)
    | .unmask => some ((), s.add v (-1))
    | .syscall => some ((), s.leave v k)
    | .test => some (s.coin, s)
    | .readThreads => some (s.threads, s)

def enter (k : Nat) (a : Call) (s : State) : Option State :=
  match s.loc k with
  | none => none
  | some v =>
    some { s with
      call := Function.update s.call k (some a)
      entry := Function.update s.entry k (s.nest v) }

/-- A coroutine is preempted by `vpu_clock_handler`, or an idle VPU runs one that is not
    running. -/
def env (e : Env) (s : State) : Option State :=
  match e with
  | .toss b => some { s with coin := b }
  | .preempt v => (s.current v).map fun k => s.leave v k
  | .sched v k => if s.current v = none ∧ s.loc k = none then some (s.resume v k) else none

def machine : Machine Nat Cmd Call Env State Cmd.Res where
  exec := exec
  enter := enter
  body := fun _ => body
  env := env

abbrev Config := Conf Nat Cmd State Cmd.Res

/-- All coroutines are new: their `sigmask_nest` is 0. -/
structure Start (c : Config) : Prop where
  saved : ∀ k, c.shared.saved k = 0
  current : ∀ v, c.shared.current v = none
  loc : ∀ k, c.shared.loc k = none
  call : ∀ k, c.shared.call k = none
  prog : ∀ k, c.prog k = .ret ()

/-- The configurations reached by any run. -/
def Reachable (c : Config) : Prop := Reach machine.step (fun _ _ => True) Start c

/-! ### What a call leaves behind -/

mutual

/-- How many masks a call leaves behind. -/
def masksLeft (threads : Bool) : Call → Nat
  | .select cases _ => if cases = [] then 1 else 0
  | .asyncRequestSubmit func => if threads then 0 else masksLeftAll threads func
  | _ => 0

def masksLeftAll (threads : Bool) : List Call → Nat
  | [] => 0
  | a :: as => masksLeft threads a + masksLeftAll threads as

end

mutual

/-- The call is not a select over an empty set, and the callback that it runs itself makes
    no such call. -/
def Clean (threads : Bool) : Call → Prop
  | .select cases _ => cases ≠ []
  | .asyncRequestSubmit func => threads = true ∨ CleanAll threads func
  | _ => True

def CleanAll (threads : Bool) : List Call → Prop
  | [] => True
  | a :: as => Clean threads a ∧ CleanAll threads as

end

mutual

theorem masksLeft_eq_zero (threads : Bool) : ∀ a, masksLeft threads a = 0 ↔ Clean threads a
  | .select cases _ => by
    simp only [masksLeft, Clean]
    split <;> simp_all
  | .asyncRequestSubmit func => by
    simp only [masksLeft, Clean]
    cases threads with
    | true => simp
    | false => simpa using masksLeftAll_eq_zero false func
  | .chanSend _ | .chanRecv _ _ | .chanClose | .addIntertimer | .netWait | .netTimedwait
  | .coroutineAllocate _ | .coroutineYield | .coroutineSelf => by simp [masksLeft, Clean]

theorem masksLeftAll_eq_zero (threads : Bool) :
    ∀ as, masksLeftAll threads as = 0 ↔ CleanAll threads as
  | [] => by simp [masksLeftAll, CleanAll]
  | a :: as => by
    simp only [masksLeftAll, CleanAll, Nat.add_eq_zero_iff]
    rw [masksLeft_eq_zero threads a, masksLeftAll_eq_zero threads as]

end

/-! ### Programs -/

def weight : Cmd → Int
  | .mask => 1
  | .unmask => -1
  | _ => 0

def answers (threads : Bool) : (c : Cmd) → c.Res → Prop
  | .readThreads, r => r = threads
  | _, _ => True

/-- Every way through the program adds `d` to the counter. -/
def Nets (threads : Bool) : {α : Type} → MProg α → Int → Prop
  | _, .ret _, d => d = 0
  | _, .cmd c k, d => ∀ r, answers threads c r → Nets threads (k r) (d - weight c)
  | _, .loop body k, d => Nets threads body 0 ∧ ∀ b, Nets threads (k b) d

section
variable {threads : Bool} {α β : Type} {d d₁ d₂ : Int}

theorem Nets.bind {p : MProg α} {f : α → MProg β} (hp : Nets threads p d₁)
    (hf : ∀ a, Nets threads (f a) d₂) : Nets threads (p.bind f) (d₁ + d₂) := by
  induction p generalizing d₁ with
  | ret a =>
    have hd : d₁ = 0 := hp
    rw [hd, Int.zero_add]
    exact hf a
  | cmd c k ih =>
    intro r hr
    have hrest := ih r (hp r hr) hf
    have heq : d₁ + d₂ - weight c = d₁ - weight c + d₂ := by omega
    rw [heq]
    exact hrest
  | loop body k _ ih =>
    exact ⟨hp.1, fun b => ih b (hp.2 b) hf⟩

/-- A part that leaves the counter as it is. -/
theorem Nets.zero_bind {p : MProg α} {f : α → MProg β} (hp : Nets threads p 0)
    (hf : ∀ a, Nets threads (f a) d) : Nets threads (p.bind f) d := by
  have h := hp.bind hf
  rw [Int.zero_add] at h
  exact h

theorem Nets.unfold {body : MProg (Option β)} {k : β → MProg α}
    (h : Nets threads (.loop body k) d) : Nets threads (Prog.unfold body k) d := by
  refine h.1.zero_bind fun o => ?_
  cases o with
  | none => exact h
  | some b => exact h.2 b

theorem ret_nets (a : α) : Nets threads (.ret a : MProg α) 0 := rfl

theorem signalUnmask_nets : Nets threads signalUnmask (-1) := fun _ _ => ret_nets ()

theorem vpuSyscall_nets : Nets threads vpuSyscall 0 := fun _ _ => ret_nets ()

/-- A masked section. -/
theorem Nets.masked {p : MProg α} (hp : Nets threads p d) :
    Nets threads (p.bind fun _ => signalUnmask) (d - 1) :=
  hp.bind fun _ => signalUnmask_nets

theorem coroutineYield_nets : Nets threads coroutineYield 0 := fun _ _ => vpuSyscall_nets.masked

theorem coroutineSelf_nets : Nets threads coroutineSelf 0 := fun _ _ => signalUnmask_nets

theorem vpuReady_nets (preempt : Bool) : Nets threads (vpuReady preempt) 0 := by
  cases preempt with
  | false => exact ret_nets ()
  | true =>
    intro r _
    cases r with
    | true => exact coroutineYield_nets
    | false => exact ret_nets ()

theorem coroutineAllocate_nets (idle : Bool) : Nets threads (coroutineAllocate idle) 0 := by
  intro _ _
  cases idle with
  | true => exact signalUnmask_nets
  | false => exact (vpuReady_nets true).masked

theorem chanSendLocked_nets (block : Bool) : Nets threads (chanSendLocked block) 0 := by
  refine coroutineSelf_nets.zero_bind fun _ waiting _ => ?_
  cases waiting with
  | true => exact (vpuReady_nets false).zero_bind fun _ => ret_nets true
  | false =>
    intro closed _
    cases closed with
    | true => exact ret_nets false
    | false =>
      intro stored _
      cases stored with
      | true => exact ret_nets true
      | false =>
        cases block with
        | true => exact vpuSyscall_nets.zero_bind fun _ => ret_nets false
        | false => exact ret_nets false

theorem chanRecvLocked_nets (block : Bool) : Nets threads (chanRecvLocked block) 0 := by
  refine coroutineSelf_nets.zero_bind fun _ stored _ => ?_
  cases stored with
  | true => exact ret_nets true
  | false =>
    intro waiting _
    cases waiting with
    | true => exact (vpuReady_nets false).zero_bind fun _ => ret_nets true
    | false =>
      intro closed _
      cases closed with
      | true => exact ret_nets false
      | false =>
        cases block with
        | true => exact vpuSyscall_nets.zero_bind fun _ => ret_nets false
        | false => exact ret_nets false

theorem chanSend_nets (block : Bool) : Nets threads (chanSend block) 0 :=
  fun _ _ => (chanSendLocked_nets block).masked

theorem chanRecv_nets (null block : Bool) : Nets threads (chanRecv null block) 0 := by
  intro _ _
  cases null with
  | true => exact coroutineSelf_nets.zero_bind fun _ => (chanRecvLocked_nets block).masked
  | false => exact (chanRecvLocked_nets block).masked

theorem wakeAll_nets : Nets threads wakeAll 0 := by
  refine ⟨fun found _ => ?_, fun _ => ret_nets ()⟩
  cases found with
  | true => exact (vpuReady_nets false).zero_bind fun _ => ret_nets none
  | false => exact ret_nets (some ())

theorem chanClose_nets : Nets threads chanClose 0 := by
  intro _ _ closed _
  cases closed with
  | true => exact signalUnmask_nets
  | false => exact wakeAll_nets.zero_bind fun _ => wakeAll_nets.masked

theorem pollCases_nets (cases : List CaseType) : Nets threads (pollCases cases) 0 := by
  induction cases with
  | nil => exact ret_nets false
  | cons e es ih =>
    have hrest : ∀ success : Bool,
        Nets threads (if success = true then return true else pollCases es : MProg Bool) 0 := by
      intro success
      cases success with
      | true => exact ret_nets true
      | false => exact ih
    cases e with
    | send => exact (chanSendLocked_nets false).zero_bind hrest
    | recv => exact (chanRecvLocked_nets false).zero_bind hrest

/-- A select over an empty set returns masked. -/
theorem chanSetSelect_nets (cases : List CaseType) (block : Bool) :
    Nets threads (chanSetSelect cases block) (if cases = [] then 1 else 0) := by
  intro _ _
  cases cases with
  | nil => exact ret_nets ()
  | cons e es =>
    refine coroutineSelf_nets.zero_bind fun _ => (pollCases_nets (e :: es)).zero_bind fun success => ?_
    cases success with
    | true => exact signalUnmask_nets
    | false =>
      cases block with
      | true => exact vpuSyscall_nets.masked
      | false => exact signalUnmask_nets

theorem addIntertimer_nets : Nets threads addIntertimer 0 := by
  intro _ _ first _
  cases first with
  | true => exact (coroutineAllocate_nets false).masked
  | false =>
    intro sleeps _
    cases sleeps with
    | true => exact (vpuReady_nets true).masked
    | false => exact signalUnmask_nets

theorem netWait_nets : Nets threads netWait 0 :=
  coroutineSelf_nets.zero_bind fun _ _ _ => vpuSyscall_nets.masked

theorem netTimedwait_nets : Nets threads netTimedwait 0 :=
  coroutineSelf_nets.zero_bind fun _ _ _ => addIntertimer_nets.zero_bind fun _ => vpuSyscall_nets.masked

theorem asyncRequestSubmit_nets {func : MProg Unit} (hfunc : Nets threads func d) :
    Nets threads (asyncRequestSubmit func) (if threads then 0 else d) := by
  rintro _ _ r rfl
  cases r with
  | true => exact coroutineSelf_nets.zero_bind fun _ => vpuSyscall_nets.masked
  | false =>
    change Nets false (func.bind fun _ => signalUnmask) (d - 1 - 0)
    rw [Int.sub_zero]
    exact hfunc.masked

mutual

theorem body_nets (threads : Bool) : ∀ a, Nets threads (body a) (masksLeft threads a)
  | .chanSend block => chanSend_nets block
  | .chanRecv null block => chanRecv_nets null block
  | .chanClose => chanClose_nets
  | .select cases block => by
    have h : Nets threads (chanSetSelect cases block) _ := chanSetSelect_nets cases block
    unfold masksLeft
    split <;> simp_all [body]
  | .addIntertimer => addIntertimer_nets
  | .netWait => netWait_nets
  | .netTimedwait => netTimedwait_nets
  | .asyncRequestSubmit func => by
    have h := asyncRequestSubmit_nets (bodies_nets threads func)
    unfold masksLeft
    split <;> simp_all [body]
  | .coroutineAllocate idle => coroutineAllocate_nets idle
  | .coroutineYield => coroutineYield_nets
  | .coroutineSelf => coroutineSelf_nets

theorem bodies_nets (threads : Bool) : ∀ as, Nets threads (bodies as) (masksLeftAll threads as)
  | [] => by
    simp only [bodies, masksLeftAll]
    exact ret_nets ()
  | a :: as => by
    simp only [bodies, masksLeftAll]
    have h := (body_nets threads a).bind (f := fun _ => bodies as) fun _ => bodies_nets threads as
    exact h

end

end

/-! ### Runs -/

/-- A VPU runs the coroutine that runs on it. -/
def Placed (s : State) : Prop := ∀ v k, s.loc k = some v ↔ s.current v = some k

/-- What the rest of its program adds to the counter of a coroutine brings it to where its
    call leaves it. -/
structure Inv (c : Config) : Prop where
  placed : Placed c.shared
  level : ∀ k a, c.shared.call k = some a → ∃ d, Nets c.shared.threads (c.prog k) d ∧
    c.shared.level k + d = c.shared.entry k + masksLeft c.shared.threads a

variable {s : State} {v j k : Nat} {c c' : Config}

theorem Start.inv (h : Start c) : Inv c where
  placed v k := by
    rw [h.loc, h.current]
    exact ⟨nofun, nofun⟩
  level k a hk := by
    rw [h.call] at hk
    cases hk

theorem Placed.unique (h : Placed s) (hk : s.loc k = some v) (hj : s.loc j = some v) : j = k := by
  have hck := (h v k).mp hk
  have hcj := (h v j).mp hj
  exact Option.some.inj (hcj.symm.trans hck)

theorem level_add_self (hk : s.loc k = some v) (d : Int) : (s.add v d).level k = s.level k + d := by
  simp [State.level, State.add, hk]

theorem level_add_ne (h : Placed s) (hk : s.loc k = some v) (hjk : j ≠ k) (d : Int) :
    (s.add v d).level j = s.level j := by
  unfold State.level State.add
  rcases hj : s.loc j with _ | u
  · rfl
  · have hne : u ≠ v := by
      rintro rfl
      exact hjk (h.unique hk hj)
    simp only [Function.update_of_ne hne]

/-- The counter of a coroutine does not change when it stops running ... -/
theorem level_leave (hk : s.loc k = some v) (j : Nat) : (s.leave v k).level j = s.level j := by
  unfold State.level State.leave
  by_cases hj : j = k
  · subst hj
    simp [hk]
  · simp [Function.update_of_ne hj]

theorem placed_leave (h : Placed s) (hk : s.loc k = some v) : Placed (s.leave v k) := by
  intro u j
  unfold State.leave
  by_cases hu : u = v
  · subst hu
    simp only [Function.update_self]
    by_cases hj : j = k
    · subst hj
      simp
    · rw [Function.update_of_ne hj]
      exact ⟨fun hl => absurd (h.unique hk hl) hj, nofun⟩
  · simp only [Function.update_of_ne hu]
    by_cases hj : j = k
    · subst hj
      rw [Function.update_self]
      refine ⟨nofun, fun hc => ?_⟩
      rw [← h, hk] at hc
      exact absurd (Option.some.inj hc).symm hu
    · rw [Function.update_of_ne hj]
      exact h u j

/-- ... and when it goes on, on whatever VPU. -/
theorem level_resume (h : Placed s) (hv : s.current v = none) (hk : s.loc k = none) (j : Nat) :
    (s.resume v k).level j = s.level j := by
  unfold State.level State.resume
  by_cases hj : j = k
  · subst hj
    simp [hk]
  · simp only [Function.update_of_ne hj]
    rcases hl : s.loc j with _ | u
    · rfl
    · have hne : u ≠ v := by
        rintro rfl
        rw [h, hv] at hl
        cases hl
      simp only [Function.update_of_ne hne]

theorem placed_resume (h : Placed s) (hv : s.current v = none) (hk : s.loc k = none) :
    Placed (s.resume v k) := by
  intro u j
  unfold State.resume
  by_cases hu : u = v
  · subst hu
    simp only [Function.update_self]
    by_cases hj : j = k
    · subst hj
      simp
    · rw [Function.update_of_ne hj, h, hv]
      exact ⟨nofun, fun he => absurd (Option.some.inj he).symm hj⟩
  · simp only [Function.update_of_ne hu]
    by_cases hj : j = k
    · subst hj
      rw [Function.update_self, ← h, hk]
      exact ⟨fun he => absurd (Option.some.inj he).symm hu, nofun⟩
    · rw [Function.update_of_ne hj]
      exact h u j

/-- What one command does: it answers as it should, and moves the counter of the coroutine
    that issues it. -/
theorem exec_level {cmd : Cmd} {r : cmd.Res} {s' : State} (h : Placed s)
    (he : exec k cmd s = some (r, s')) :
    answers s.threads cmd r ∧ Placed s' ∧ s'.threads = s.threads ∧ s'.call = s.call ∧
      s'.entry = s.entry ∧ s'.level k = s.level k + weight cmd ∧ ∀ j, j ≠ k → s'.level j = s.level j := by
  unfold exec at he
  split at he
  · cases he
  · rename_i v hk
    cases cmd with
    | mask =>
      cases he
      exact ⟨trivial, h, rfl, rfl, rfl, level_add_self hk 1, fun j hj => level_add_ne h hk hj 1⟩
    | unmask =>
      cases he
      exact ⟨trivial, h, rfl, rfl, rfl, level_add_self hk (-1), fun j hj => level_add_ne h hk hj (-1)⟩
    | syscall =>
      cases he
      refine ⟨trivial, placed_leave h hk, rfl, rfl, rfl, ?_, fun j _ => level_leave hk j⟩
      rw [level_leave hk]
      exact (Int.add_zero _).symm
    | test =>
      cases he
      exact ⟨trivial, h, rfl, rfl, rfl, (Int.add_zero _).symm, fun _ _ => rfl⟩
    | readThreads =>
      cases he
      exact ⟨rfl, h, rfl, rfl, rfl, (Int.add_zero _).symm, fun _ _ => rfl⟩

theorem env_level {e : Env} {s' : State} (h : Placed s) (he : env e s = some s') :
    Placed s' ∧ s'.threads = s.threads ∧ s'.call = s.call ∧ s'.entry = s.entry ∧
      ∀ j, s'.level j = s.level j := by
  cases e with
  | toss b =>
    cases he
    exact ⟨h, rfl, rfl, rfl, fun _ => rfl⟩
  | preempt v =>
    obtain ⟨k, hv, rfl⟩ := Option.map_eq_some_iff.mp he
    have hk := (h v k).mpr hv
    exact ⟨placed_leave h hk, rfl, rfl, rfl, level_leave hk⟩
  | sched v k =>
    simp only [env] at he
    split at he
    · rename_i hfree
      cases he
      exact ⟨placed_resume h hfree.1 hfree.2, rfl, rfl, rfl, level_resume h hfree.1 hfree.2⟩
    · cases he

theorem Inv.step (h : Inv c) {l : Label Nat Call Env} (hstep : machine.step c l = some c') : Inv c' := by
  obtain ⟨k, cmd, f, r, -, hp, he, hprog⟩ | ⟨k, β, body, f, -, hp, hsh, hprog⟩ |
    ⟨k, a, -, hret, he, hprog⟩ | ⟨e, -, he, hprog⟩ := Machine.step_cases hstep
  · obtain ⟨hans, hplaced, hthreads, hcall, hentry, hself, hother⟩ := exec_level h.placed he
    refine ⟨hplaced, fun j a hj => ?_⟩
    rw [hcall] at hj
    obtain ⟨d, hnets, hlevel⟩ := h.level j a hj
    rw [hprog, hthreads, hentry]
    by_cases hjk : j = k
    · subst hjk
      rw [hp] at hnets
      refine ⟨d - weight cmd, ?_, by omega⟩
      rw [Function.update_self]
      exact hnets r hans
    · refine ⟨d, ?_, by rw [hother j hjk]; exact hlevel⟩
      rw [Function.update_of_ne hjk]
      exact hnets
  · refine ⟨hsh ▸ h.placed, fun j a hj => ?_⟩
    rw [hsh] at hj ⊢
    obtain ⟨d, hnets, hlevel⟩ := h.level j a hj
    refine ⟨d, ?_, hlevel⟩
    rw [hprog]
    by_cases hjk : j = k
    · subst hjk
      rw [hp] at hnets
      rw [Function.update_self]
      exact hnets.unfold
    · rw [Function.update_of_ne hjk]
      exact hnets
  · change enter k a c.shared = some c'.shared at he
    unfold enter at he
    split at he
    · cases he
    · rename_i v hk
      have hsh := (Option.some.inj he).symm
      refine ⟨by rw [hsh]; exact h.placed, fun j b hj => ?_⟩
      rw [hsh] at hj ⊢
      rw [hprog]
      by_cases hjk : j = k
      · subst hjk
        simp only [Function.update_self, Option.some.injEq] at hj ⊢
        subst hj
        refine ⟨masksLeft c.shared.threads a, body_nets _ a, ?_⟩
        have hlevel : c.shared.level j = c.shared.nest v := by simp [State.level, hk]
        rw [← hlevel]
        rfl
      · simp only [Function.update_of_ne hjk] at hj ⊢
        exact h.level j b hj
  · obtain ⟨hplaced, hthreads, hcall, hentry, hlevels⟩ := env_level h.placed he
    refine ⟨hplaced, fun j a hj => ?_⟩
    rw [hcall] at hj
    obtain ⟨d, hnets, hlevel⟩ := h.level j a hj
    refine ⟨d, ?_, ?_⟩
    · rw [hprog, hthreads]
      exact hnets
    · rw [hlevels, hentry, hthreads]
      exact hlevel

theorem Reachable.inv (h : Reachable c) : Inv c :=
  Reach.invariant (fun _ h => h.inv) (fun _ _ _ h _ hs => h.step hs) h

/-- **The nesting of the mask.**  In every run, a call that has returned has left the counter
    of its coroutine as it was when the call was made, exactly when the call is not a select
    over an empty set and runs no callback that makes one. -/
theorem nest_restored_iff (h : Reachable c) {a : Call} (hcall : c.shared.call k = some a)
    (hret : c.prog k = .ret ()) : c.shared.level k = c.shared.entry k ↔ Clean c.shared.threads a := by
  obtain ⟨d, hnets, hlevel⟩ := h.inv.level k a hcall
  rw [hret] at hnets
  have hd : d = 0 := hnets
  rw [← masksLeft_eq_zero]
  omega

/-- No coroutine runs yet. -/
def initial : Config where
  shared :=
    { nest := fun _ => 0, saved := fun _ => 0, current := fun _ => none, loc := fun _ => none,
      threads := true, coin := false, call := fun _ => none, entry := fun _ => 0 }
  prog := fun _ => .ret ()

theorem initial_start : Start initial := ⟨fun _ => rfl, fun _ => rfl, fun _ => rfl, fun _ => rfl, fun _ => rfl⟩

def Call.isChanSend : Call → Bool
  | .chanSend _ => true
  | _ => false

theorem Call.isChanSend_iff {k : Call} : k.isChanSend ↔ ∃ block, k = .chanSend block := by
  cases k <;> simp [Call.isChanSend]

def Call.isEmptySelect : Call → Bool
  | .select [] _ => true
  | _ => false

theorem Call.isEmptySelect_iff {k : Call} : k.isEmptySelect ↔ ∃ block, k = .select [] block := by
  rcases k with _ | _ | _ | ⟨_ | _, _⟩ <;> simp [Call.isEmptySelect]

/-- A blocking send that goes on on another VPU. -/
theorem nest_restored_iff_send : ∃ c, Reachable c ∧ (∃ block, c.shared.call 0 = some (.chanSend block)) ∧
    c.prog 0 = .ret () ∧ c.shared.loc 0 = some 1 ∧ c.shared.level 0 = c.shared.entry 0 := by
  obtain ⟨c, hc, hP⟩ := Reach.exists_of_run machine.step Start initial_start
    ([.env (.sched 0 0), .call 0 (.chanSend true)] ++ List.replicate 7 (.run 0) ++
      [.env (.sched 1 0), .run 0])
    (fun c => (c.prog 0).isRet && c.shared.loc 0 == some 1 && (c.shared.call 0).any Call.isChanSend)
    (by decide +kernel)
  simp only [Bool.and_eq_true, beq_iff_eq, Option.any_eq_true] at hP
  obtain ⟨⟨hret, hloc⟩, k, hk, hcall⟩ := hP
  obtain ⟨block, rfl⟩ := Call.isChanSend_iff.mp hcall
  have hprog := Prog.eq_ret_of_isRet hret
  have hmain := nest_restored_iff hc hk hprog
  exact ⟨c, hc, ⟨block, hk⟩, hprog, hloc, hmain.mpr (by simp [Clean])⟩

/-- A select over an empty set: preemption stays off. -/
theorem nest_not_restored : ∃ c, Reachable c ∧ (∃ block, c.shared.call 0 = some (.select [] block)) ∧
    c.prog 0 = .ret () ∧ c.shared.entry 0 = 0 ∧ c.shared.level 0 = 1 := by
  obtain ⟨c, hc, hP⟩ := Reach.exists_of_run machine.step Start initial_start
    [.env (.sched 0 0), .call 0 (.select [] true), .run 0]
    (fun c => (c.prog 0).isRet && (c.shared.entry 0 == 0 && c.shared.level 0 == 1) &&
      (c.shared.call 0).any Call.isEmptySelect) (by decide +kernel)
  simp only [Bool.and_eq_true, beq_iff_eq, Option.any_eq_true] at hP
  obtain ⟨⟨hret, hentry, hlevel⟩, k, hk, hcall⟩ := hP
  obtain ⟨block, rfl⟩ := Call.isEmptySelect_iff.mp hcall
  exact ⟨c, hc, ⟨block, hk⟩, Prog.eq_ret_of_isRet hret, hentry, hlevel⟩

end Coroc.SigMask
