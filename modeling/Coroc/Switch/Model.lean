import Coroc.Switch.Lifecycle

/-!
# Switching contexts

`vpu_syscall`, `vpu_suspend`, `per_vpu_initalize`, `core_wait`, `core_yield`, `core_exit`, the
dispatch of `core_sched` and the clock signal (`src/vpu.c`), with `coroc_coroutine_allocate`,
`coroc_coroutine_deallocate` and `coroc_coroutine_exit` (`src/coroutine.c`).

A VPU is an OS thread.  Its registers say on which stack it executes and where; `getcontext`
stores them, together with the signal mask, and `setcontext` loads them, so nothing but the
code keeps two threads off one stack.  One statement is one step.

What the coroutines do between their calls is left open: they nest the signal mask, take and
release locks, register for a wake-up under the locks they hold, wake others that have, and
create coroutines.  `vpu_backtrace`, the counters and the inside of the run queues are not here
(`Coroc.Backtrace`, `Coroc.ReadyCount`, `Coroc.RunQueue`).

Some fields are not in the source and no branch reads them: `waiting`, `left`, `calls`, `ran`
and `returned` of a coroutine and `num` of a call.
-/

namespace Coroc.Switch

open Coroc.Transition

abbrev LockId := Nat

/-- What `vpu_syscall` is called with. -/
inductive SysFn where
  | coreWait
  | coreYield
  | coreExit
deriving DecidableEq, Repr

/-- `coroc_coroutine_type`, without the schedulers. -/
inductive CoType where
  | normal
  | main
deriving DecidableEq, Repr

/-- `coroc_coroutine_status`. -/
inductive Status where
  | wait
  | ready
  | running
  | exit
deriving DecidableEq, Repr

/-- The statement of `vpu_syscall` that comes next. -/
inductive SysPc where
  | flag
  | saveNest
  | saveCtx
  | test
  | setEntry
  | setArguments
  | setCurrent
  | load
deriving DecidableEq, Repr

/-- The frame of `vpu_syscall`: where it is, its argument and its variables.  `num` counts the
    calls made on this stack. -/
structure SysCall where
  pc : SysPc
  pfn : SysFn
  vpu : Vid
  self : Coid
  num : Nat
deriving DecidableEq, Repr

/-- Where the code on a coroutine's stack is: before `bootstrap`, in code of its own, between the
    counter and the `sigprocmask` of `TSC_SIGNAL_MASK` and of `TSC_SIGNAL_UNMASK`, in
    `vpu_suspend`, in `vpu_syscall`. -/
inductive Frame where
  | boot
  | user
  | masking
  | unmasking
  | suspend (ls : List LockId) (vpu : Vid)
  | syscall (c : SysCall)
deriving DecidableEq, Repr

/-- `vpu_clock_handler`. -/
inductive Handler where
  | tick
  | syscall (c : SysCall)
  | done
deriving DecidableEq, Repr

/-- The code of a coroutine, or the signal handler on top of it. -/
inductive Code where
  | base (f : Frame)
  | handler (h : Handler) (ret : Frame)
deriving DecidableEq, Repr

/-- What `getcontext` stores: the stack, the place in the code, and whether the clock signal is
    blocked. -/
structure Context where
  stack : Coid
  code : Code
  blocked : Bool
deriving DecidableEq, Repr

/-- The code on the system stack of a VPU, from the point where its context was saved:
    `per_vpu_initalize`, `core_wait`, `core_yield`, `core_exit`, `core_sched`. -/
inductive SchedPc where
  | resume
  | waitStatus (k : Coid)
  | unlock (ls : List LockId)
  | yieldStatus (k : Coid)
  | yieldAdd (k : Coid)
  | exitType (k : Coid)
  | exitStatus (k : Coid)
  | exitList (k : Coid)
  | exitFree (k : Coid)
  | start
  | sched
  | mark (k : Coid)
  | loadNest (k : Coid)
  | setCurrent (k : Coid)
  | load (k : Coid)
deriving DecidableEq, Repr

/-- The first statement of the function that was handed over. -/
def SysFn.begin (k : Coid) : SysFn → SchedPc
  | .coreWait => .waitStatus k
  | .coreYield => .yieldStatus k
  | .coreExit => .exitType k

/-- The registers of a VPU.  The first four are `per_vpu_initalize` up to the save. -/
inductive Regs where
  | init
  | mask
  | barrier
  | save
  | co (k : Coid) (code : Code)
  | sys (u : Vid) (pc : SchedPc)
deriving DecidableEq, Repr

/-- `vpu_t`, with the thread's mask (`nest` is `__vpu_sigmask_nest`) and the `entry`,
    `arguments` and saved mask of its scheduler.  `current` is `none` for the scheduler. -/
structure Vpu where
  regs : Regs
  initialized : Bool
  current : Option Coid
  entry : Option SysFn
  arguments : Coid
  schedMask : Option Bool
  hold : List LockId
  nest : Nat
  blocked : Bool
  watchdog : Nat

/-- `coroc_coroutine`; `stack`: its stack is allocated.  `waiting`: the locks under which it has
    registered for a wake-up and not been claimed; `left`: where it last gave up its stack;
    `calls`, `ran`: what `vpu_syscall` was called with here, and what a scheduler has begun to
    run for it; `returned`: how many calls have returned. -/
structure Co where
  type : CoType
  status : Status
  syscall : Bool
  sigmaskNest : Nat
  ctx : Option Context
  stack : Bool
  waiting : Option (List LockId)
  left : Option Code
  calls : List SysFn
  ran : List SysFn
  returned : Nat

/-- Who has a lock: a coroutine, the VPU it was handed to by `vpu_suspend`, another thread. -/
inductive Holder where
  | co (k : Coid)
  | handed (v : Vid)
  | other (n : Nat)
deriving DecidableEq, Repr

/-- How the process ends: `exit(0)`, a failed assertion, or what has no meaning in C. -/
inductive Stop where
  | exited
  | abort
  | crash
deriving DecidableEq, Repr

/-- `vpu_manager`.  `claims`: coroutines for which somebody is about to call `vpu_ready`;
    `readied`: those that it has not put into a queue yet. -/
structure State where
  timeshare : Bool
  nvpu : Nat
  mainArrived : Bool
  vpu : Vid → Vpu
  co : Coid → Co
  lastPid : Nat
  runq : List Coid
  coroutineList : List Coid
  owner : LockId → Option Holder
  claims : List Coid
  readied : List Coid
  stopped : Option Stop

namespace State

def setVpu (s : State) (v : Vid) (x : Vpu) : State := { s with vpu := Function.update s.vpu v x }

def setCo (s : State) (k : Coid) (c : Co) : State := { s with co := Function.update s.co k c }

def setOwner (s : State) (l : LockId) (o : Option Holder) : State :=
  { s with owner := Function.update s.owner l o }

def jump (s : State) (v : Vid) (r : Regs) : State := s.setVpu v { s.vpu v with regs := r }

def stop (s : State) (e : Stop) : State := { s with stopped := some e }

/-- `TSC_BARRIER_WAIT` lets everybody go on. -/
def isOpen (s : State) : Bool :=
  s.mainArrived && (List.range s.nvpu).all fun v => match (s.vpu v).regs with
    | .init | .mask => false
    | _ => true

/-! ### `vpu_syscall` and `vpu_suspend` -/

/-- The call of `vpu_syscall`, which reads the VPU and its current coroutine. -/
def beginCall (s : State) (v : Vid) (k : Coid) (wrap : SysCall → Code) (f : SysFn) : State :=
  match (s.vpu v).current with
  | none => s.stop .crash
  | some self =>
    let c := s.co k
    (s.setCo k { c with calls := c.calls ++ [f] }).jump v
      (.co k (wrap { pc := .flag, pfn := f, vpu := v, self := self, num := c.calls.length + 1 }))

/-- A statement of `vpu_syscall`, executed by `v` on the stack of `k`. -/
def callStep (s : State) (v : Vid) (k : Coid) (wrap : SysCall → Code) (ret : Code) (c : SysCall) : State :=
  let self := s.co c.self
  let x := s.vpu c.vpu
  let next (pc : SysPc) : Regs := .co k (wrap { c with pc := pc })
  match c.pc with
  | .flag => (s.setCo c.self { self with syscall := true }).jump v (next .saveNest)
  | .saveNest => (s.setCo c.self { self with sigmaskNest := (s.vpu v).nest }).jump v (next .saveCtx)
  | .saveCtx =>
    (s.setCo c.self
      { self with ctx := some ⟨k, wrap { c with pc := .test }, (s.vpu v).blocked⟩ }).jump v (next .test)
  | .test =>
    -- set on the way in, and cleared when the context is loaded
    if self.syscall then s.jump v (next .setEntry)
    else (s.setCo k { s.co k with returned := (s.co k).returned + 1 }).jump v (.co k ret)
  | .setEntry => (s.setVpu c.vpu { x with entry := some c.pfn }).jump v (next .setArguments)
  | .setArguments => (s.setVpu c.vpu { x with arguments := c.self }).jump v (next .setCurrent)
  | .setCurrent => (s.setVpu c.vpu { x with current := none }).jump v (next .load)
  | .load =>
    match x.schedMask with
    | none => s.stop .crash
    | some m =>
      (s.setCo k { s.co k with left := some (wrap c) }).setVpu v
        { s.vpu v with regs := .sys c.vpu .resume, blocked := m }

/-- A step of the code on the stack of `k`, other than code of its own. -/
def codeStep (s : State) (v : Vid) (k : Coid) : Code → Option State
  | .base .boot => some (s.jump v (.co k (.base .user)))
  | .base .user => none
  | .base .masking => some (s.setVpu v { s.vpu v with regs := .co k (.base .user), blocked := true })
  | .base .unmasking => some (s.setVpu v { s.vpu v with regs := .co k (.base .user), blocked := false })
  | .base (.suspend ls u) =>
    some ((s.setVpu u { s.vpu u with hold := ls }).beginCall v k (fun c => .base (.syscall c)) .coreWait)
  | .base (.syscall c) => some (s.callStep v k (fun c => .base (.syscall c)) (.base .user) c)
  | .handler .tick ret =>
    let x := s.vpu v
    match x.current with
    | none => some (s.stop .abort)
    | some _ =>
      let s' := s.setVpu v { x with watchdog := x.watchdog + 1 }
      -- `TSC_RESCHED_THRESHOLD`
      if x.watchdog + 1 > 5 then some (s'.beginCall v k (fun c => .handler (.syscall c) ret) .coreYield)
      else some (s'.jump v (.co k (.handler .done ret)))
  | .handler (.syscall c) ret => some (s.callStep v k (fun c => .handler (.syscall c) ret) (.handler .done ret) c)
  | .handler .done ret => some (s.setVpu v { s.vpu v with regs := .co k (.base ret), blocked := false })

/-! ### The system stack -/

/-- A step of `v` on the system stack of `u`; `per_vpu_initalize` has its VPU in a variable, the
    others ask the thread. -/
def sysStep (s : State) (v u : Vid) : SchedPc → Option State
  | .resume =>
    let x := s.vpu u
    match x.entry with
    | none => some ((s.setVpu u { x with schedMask := some true }).jump v (.sys u .start))
    | some f =>
      let c := s.co x.arguments
      some ((s.setCo x.arguments { c with ran := c.ran ++ [f] }).jump v (.sys u (f.begin x.arguments)))
  | .waitStatus k =>
    some ((s.setCo k { s.co k with status := .wait }).jump v (.sys u (.unlock (s.vpu v).hold)))
  | .unlock (l :: ls) => some ((s.setOwner l none).jump v (.sys u (.unlock ls)))
  | .unlock [] => some (s.setVpu v { s.vpu v with hold := [], regs := .sys u .start })
  | .yieldStatus k => some ((s.setCo k { s.co k with status := .ready }).jump v (.sys u (.yieldAdd k)))
  | .yieldAdd k => some ({ s with runq := s.runq ++ [k] }.jump v (.sys u .start))
  | .exitType k =>
    if (s.co k).type = .main then some (s.stop .exited) else some (s.jump v (.sys u (.exitStatus k)))
  | .exitStatus k =>
    if (s.co k).status = .running then
      some ((s.setCo k { s.co k with status := .exit }).jump v (.sys u (.exitList k)))
    else some (s.stop .abort)
  | .exitList k =>
    some ({ s with coroutineList := s.coroutineList.erase k }.jump v (.sys u (.exitFree k)))
  | .exitFree k =>
    if (s.co k).stack then some ((s.setCo k { s.co k with stack := false }).jump v (.sys u .start))
    else some (s.stop .crash)
  | .start => some (s.setVpu v { s.vpu v with watchdog := 0, regs := .sys u .sched })
  | .sched => none
  | .mark k =>
    some ((s.setCo k { s.co k with syscall := false, status := .running }).jump v (.sys u (.loadNest k)))
  | .loadNest k =>
    some (s.setVpu v { s.vpu v with nest := (s.co k).sigmaskNest, regs := .sys u (.setCurrent k) })
  | .setCurrent k => some (s.setVpu v { s.vpu v with current := some k, regs := .sys u (.load k) })
  | .load k =>
    match (s.co k).ctx with
    | none => some (s.stop .crash)
    | some c =>
      if (s.co c.stack).stack then
        some (s.setVpu v { s.vpu v with regs := .co c.stack c.code, blocked := c.blocked })
      else some (s.stop .crash)

/-- The next statement of a VPU. -/
def vpuStep (s : State) (v : Vid) : Option State :=
  let x := s.vpu v
  match x.regs with
  | .init =>
    some (s.setVpu v { x with regs := .mask, initialized := true, current := none, entry := none, watchdog := 0 })
  | .mask => some (s.setVpu v { x with regs := .barrier, nest := x.nest + 1, blocked := true })
  | .barrier => if s.isOpen then some (s.jump v .save) else none
  | .save => some (s.setVpu v { x with regs := .sys v .resume, schedMask := some x.blocked })
  | .co k code => s.codeStep v k code
  | .sys u pc => s.sysStep v u pc

end State

/-! ### What the coroutines do by themselves -/

/-- What code of a coroutine's own does; `mask` and `unmask` are `TSC_SIGNAL_MASK` and
    `TSC_SIGNAL_UNMASK`, `claim` takes a waiting coroutine out of what `l` protects. -/
inductive Act where
  | mask
  | unmask
  | acquire (l : LockId)
  | release (l : LockId)
  | claim (l : LockId) (k : Coid)
  | allocate
  | suspend (ls : List LockId)
  | yield
  | exit

inductive LockAct where
  | acquire (l : LockId)
  | release (l : LockId)
  | claim (l : LockId) (k : Coid)

namespace State

/-- A thread takes a lock, gives it back, or takes a waiting coroutine out under it. -/
def lockStep (s : State) (h : Holder) : LockAct → Option State
  | .acquire l => if s.owner l = none then some (s.setOwner l (some h)) else none
  | .release l => if s.owner l = some h then some (s.setOwner l none) else none
  | .claim l k =>
    if s.owner l = some h ∧ l ∈ (s.co k).waiting.getD [] then
      some { s.setCo k { s.co k with waiting := none } with claims := s.claims ++ [k] }
    else none

/-- `coroc_coroutine_allocate`, up to its call of `vpu_ready`. -/
def allocate (s : State) (type : CoType) : State :=
  let k := s.lastPid + 1
  { s.setCo k
      { type := type
        status := .wait
        syscall := false
        sigmaskNest := 0
        ctx := some ⟨k, .base .boot, false⟩
        stack := true
        waiting := none
        left := none
        calls := []
        ran := []
        returned := 0 } with
    lastPid := k
    coroutineList := s.coroutineList ++ [k]
    claims := s.claims ++ [k] }

/-- `hand` the locks `ls` to the VPU: from here on it is the one that gives them back. -/
def handOver (s : State) (v : Vid) (ls : List LockId) : State :=
  { s with owner := fun l => if l ∈ ls then some (.handed v) else s.owner l }

def actStep (s : State) (v : Vid) (k : Coid) : Act → Option State
  | .mask =>
    let x := s.vpu v
    if x.nest = 0 then some (s.setVpu v { x with nest := 1, regs := .co k (.base .masking) })
    else some (s.setVpu v { x with nest := x.nest + 1 })
  | .unmask =>
    let x := s.vpu v
    if x.nest = 0 then none
    else if x.nest = 1 then some (s.setVpu v { x with nest := 0, regs := .co k (.base .unmasking) })
    else some (s.setVpu v { x with nest := x.nest - 1 })
  | .acquire l => s.lockStep (.co k) (.acquire l)
  | .release l => s.lockStep (.co k) (.release l)
  | .claim l j => s.lockStep (.co k) (.claim l j)
  | .allocate => some (s.allocate .normal)
  | .suspend ls =>
    if ls.Nodup ∧ ∀ l ∈ ls, s.owner l = some (.co k) then
      some (((s.handOver v ls).setCo k { s.co k with waiting := some ls }).jump v
        (.co k (.base (.suspend ls v))))
    else none
  | .yield => some (s.beginCall v k (fun c => .base (.syscall c)) .coreYield)
  | .exit =>
    match (s.vpu v).current with
    | none => some (s.stop .crash)
    | some self =>
      if (s.co self).status = .running then
        some (s.beginCall v k (fun c => .base (.syscall c)) .coreExit)
      else some (s.stop .abort)

/-- `vpu_ready` up to the queue. -/
def ready (s : State) (k : Coid) : State :=
  if (s.co k).status = .wait then
    { s.setCo k { s.co k with status := .ready } with claims := s.claims.erase k, readied := s.readied ++ [k] }
  else s.stop .abort

/-- The clock signal interrupts `v`. -/
def deliver (s : State) (v : Vid) : State :=
  let x := s.vpu v
  match x.regs with
  | .co k (.base f) => s.setVpu v { x with regs := .co k (.handler .tick f), blocked := true }
  | .co _ (.handler _ _) => s.stop .crash
  | _ => if x.current = none then s.stop .abort else s.stop .crash

end State

/-- Who moves: a VPU by itself; a coroutine's own code; the scheduler of `v`, which takes `k` from a
    queue; a thread in `vpu_ready`; the clock; the main thread at the barrier; other threads, and
    schedulers that poll, at the locks. -/
inductive Label where
  | vpu (v : Vid)
  | act (v : Vid) (a : Act)
  | elect (v : Vid) (k : Coid)
  | ready (k : Coid)
  | enqueue (k : Coid)
  | signal (v : Vid)
  | main
  | other (n : Nat) (a : LockAct)

def step (s : State) (l : Label) : Option State :=
  if s.stopped.isSome then none
  else match l with
    | .vpu v => if v < s.nvpu then s.vpuStep v else none
    | .act v a => match (s.vpu v).regs with
      | .co k (.base .user) => s.actStep v k a
      | _ => none
    | .elect v k => match (s.vpu v).regs with
      | .sys u .sched => if k ∈ s.runq then some ({ s with runq := s.runq.erase k }.jump v (.sys u (.mark k))) else none
      | _ => none
    | .ready k => if k ∈ s.claims then some (s.ready k) else none
    | .enqueue k =>
      if k ∈ s.readied then some { s with readied := s.readied.erase k, runq := s.runq ++ [k] } else none
    | .signal v => if s.timeshare && s.isOpen && v < s.nvpu && !(s.vpu v).blocked then some (s.deliver v) else none
    | .main => some { s with mainArrived := true }
    | .other n a => s.lockStep (.other n) a

/-- With `ENABLE_TIMESHARE`, the signal is masked where `vpu_suspend` and `vpu_syscall` are called. -/
def Masked (s : State) : Label → Prop
  | .act v (.suspend _) | .act v .yield | .act v .exit => s.timeshare = true → 0 < (s.vpu v).nest
  | _ => True

instance (s : State) (l : Label) : Decidable (Masked s l) := by
  unfold Masked
  split <;> infer_instance

/-- A coroutine that has not been allocated, and a VPU that has not been started. -/
def unbornCo : Co :=
  { type := .normal, status := .wait, syscall := false, sigmaskNest := 0, ctx := none, stack := false,
    waiting := none, left := none, calls := [], ran := [], returned := 0 }

def offVpu : Vpu :=
  { regs := .init, initialized := false, current := none, entry := none, arguments := 0, schedMask := none,
    hold := [], nest := 0, blocked := false, watchdog := 0 }

/-- No thread has been started, and the main coroutine is the only one: `coroc_vpu_initialize` has
    allocated it. -/
def initial (timeshare : Bool) (nvpu : Nat) : State :=
  State.allocate
    { timeshare := timeshare, nvpu := nvpu, mainArrived := false, vpu := fun _ => offVpu, co := fun _ => unbornCo,
      lastPid := 0, runq := [], coroutineList := [], owner := fun _ => none, claims := [], readied := [],
      stopped := none } .main

def Initial (s : State) : Prop := ∃ timeshare nvpu, s = initial timeshare nvpu

def Reachable (s : State) : Prop := Reach step Masked Initial s

end Coroc.Switch
