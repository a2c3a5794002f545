import Coroc.Switch.Model

/-!
# Where everything is while contexts are switched

A VPU *owns* the coroutine whose code it executes or for which it executes system code; every
other coroutine is at rest.  `Fits` relates a state to the places of the coroutines: what the
registers of a VPU imply about the VPU and the coroutine it owns (`VpuOk`), what is known of a
coroutine at rest (`RestOk`), who is in which list (`Listed`), and that the locks marked as
handed over are those a VPU still has to give back (`Handed`).
-/

namespace Coroc.Switch

open Coroc.Transition

/-! ### The coroutine of a VPU -/

/-- The coroutine the system code is about. -/
def SchedPc.arg : SchedPc → Option Coid
  | .waitStatus k | .yieldStatus k | .yieldAdd k | .exitType k | .exitStatus k | .exitList k | .exitFree k
  | .mark k | .loadNest k | .setCurrent k | .load k => some k
  | .resume | .unlock _ | .start | .sched => none

namespace Vpu

def own (x : Vpu) : Option Coid :=
  match x.regs with
  | .co k _ => some k
  | .sys _ .resume => x.entry.map fun _ => x.arguments
  | .sys _ pc => pc.arg
  | _ => none

/-- The locks it has to give back. -/
def pending (x : Vpu) : List LockId :=
  match x.regs with
  | .co _ (.base (.suspend ls _)) => ls
  | .sys _ (.unlock ls) => ls
  | _ => x.hold

/-- The coroutine whose stack it is about to free. -/
def freeing (x : Vpu) : Option Coid :=
  match x.regs with
  | .sys _ (.exitFree k) => some k
  | _ => none

end Vpu

/-! ### What a VPU and its coroutine know of each other -/

/-- `waiting` is what the VPU holds, while a suspension is on its way. -/
def Published (c : Co) (hold : List LockId) : SysFn → Prop
  | .coreWait => c.waiting = some hold
  | .coreYield | .coreExit => c.waiting = none ∧ hold = []

/-- No call is on its way. -/
structure Quiet (c : Co) : Prop where
  ran : c.calls = c.ran
  returned : c.calls.length = c.returned

/-- The last call has not been run yet. -/
structure Entered (c : Co) (hold : List LockId) (f : SysFn) : Prop where
  calls : c.calls = c.ran ++ [f]
  returned : c.calls.length = c.returned + 1
  published : Published c hold f

/-- The last call has been run, and has not returned. -/
structure Executed (c : Co) : Prop where
  ran : c.calls = c.ran
  returned : c.calls.length = c.returned + 1

/-- The code inside `vpu_syscall`, called from the coroutine's code or from a handler that
    interrupted it in `ret`. -/
def inCall (ret : Option Frame) (c : SysCall) : Code :=
  match ret with
  | none => .base (.syscall c)
  | some f => .handler (.syscall c) f

/-- Where the call goes back to. -/
def afterCall : Option Frame → Code
  | none => .base .user
  | some f => .handler .done f

/-- Where a signal can have come: with the mask down, or on its way up. -/
def Interrupted (nest : Nat) : Frame → Prop
  | .boot | .user => nest = 0
  | .masking => nest = 1
  | _ => False

/-- The counter and the mask inside a call. -/
def CallMask (timeshare : Bool) (nest : Nat) (blocked : Bool) : Option Frame → Prop
  | none => timeshare = true → 0 < nest ∧ blocked = true
  | some f => blocked = true ∧ Interrupted nest f

/-- The context of the call has been stored. -/
structure Stored (k : Coid) (x : Vpu) (c : Co) (ret : Option Frame) (n : SysCall) : Prop where
  nest : c.sigmaskNest = x.nest
  ctx : c.ctx = some ⟨k, inCall ret { n with pc := .test }, x.blocked⟩

/-- What holds at each statement of `vpu_syscall`.  At the test there are two ways to have come. -/
def CallOk (v : Vid) (k : Coid) (x : Vpu) (c : Co) (ret : Option Frame) (n : SysCall) : Prop :=
  n.self = k ∧ n.num = c.calls.length ∧ (ret.isSome = true → n.pfn = .coreYield) ∧
    match n.pc with
    | .flag => n.vpu = v ∧ x.current = some k ∧ Entered c x.hold n.pfn
    | .saveNest => n.vpu = v ∧ x.current = some k ∧ Entered c x.hold n.pfn ∧ c.syscall = true
    | .saveCtx => n.vpu = v ∧ x.current = some k ∧ Entered c x.hold n.pfn ∧ c.syscall = true ∧
        c.sigmaskNest = x.nest
    | .test => x.current = some k ∧
        (n.vpu = v ∧ Entered c x.hold n.pfn ∧ c.syscall = true ∧ Stored k x c ret n ∨
          c.syscall = false ∧ Executed c ∧ c.waiting = none ∧ x.hold = [])
    | .setEntry => n.vpu = v ∧ x.current = some k ∧ Entered c x.hold n.pfn ∧ Stored k x c ret n
    | .setArguments => n.vpu = v ∧ x.current = some k ∧ Entered c x.hold n.pfn ∧ Stored k x c ret n ∧
        x.entry = some n.pfn
    | .setCurrent => n.vpu = v ∧ Entered c x.hold n.pfn ∧ Stored k x c ret n ∧ x.entry = some n.pfn ∧
        x.arguments = k
    | .load => n.vpu = v ∧ Entered c x.hold n.pfn ∧ Stored k x c ret n ∧ x.entry = some n.pfn ∧
        x.arguments = k ∧ x.current = none

/-- The coroutine runs code outside `vpu_syscall`. -/
structure Free (k : Coid) (x : Vpu) (c : Co) : Prop where
  current : x.current = some k
  quiet : Quiet c
  waiting : c.waiting = none
  hold : x.hold = []

/-- What holds at each place in the code of a coroutine. -/
def CodeOk (timeshare : Bool) (v : Vid) (k : Coid) (x : Vpu) (c : Co) : Code → Prop
  | .base .boot => Free k x c ∧ (timeshare = true → x.nest = 0 ∧ x.blocked = false)
  | .base .user => Free k x c ∧ (timeshare = true → (x.blocked = true ↔ 0 < x.nest))
  | .base .masking => Free k x c ∧ (timeshare = true → x.nest = 1 ∧ x.blocked = false)
  | .base .unmasking => Free k x c ∧ (timeshare = true → x.nest = 0 ∧ x.blocked = true)
  | .base (.suspend ls u) => u = v ∧ x.current = some k ∧ x.hold = [] ∧ Quiet c ∧ c.waiting = some ls ∧
      (timeshare = true → 0 < x.nest ∧ x.blocked = true)
  | .base (.syscall n) => CallOk v k x c none n ∧ CallMask timeshare x.nest x.blocked none
  | .handler .tick f => Free k x c ∧ x.blocked = true ∧ Interrupted x.nest f
  | .handler (.syscall n) f => CallOk v k x c (some f) n ∧ CallMask timeshare x.nest x.blocked (some f)
  | .handler .done f => Free k x c ∧ x.blocked = true ∧ Interrupted x.nest f

/-- The context of a coroutine that has not run. -/
structure Fresh (k : Coid) (c : Co) : Prop where
  ctx : c.ctx = some ⟨k, .base .boot, false⟩
  nest : c.sigmaskNest = 0
  left : c.left = none
  calls : c.calls = []
  returned : c.returned = 0

/-- The context of a coroutine that has given up its stack: it was stored in the call in which the
    stack was left. -/
def Called (timeshare : Bool) (k : Coid) (c : Co) : Prop :=
  ∃ (ret : Option Frame) (n : SysCall) (blocked : Bool), c.left = some (inCall ret { n with pc := .load }) ∧
    c.ctx = some ⟨k, inCall ret { n with pc := .test }, blocked⟩ ∧ n.self = k ∧ n.num = c.calls.length ∧
    (ret.isSome = true → n.pfn = .coreYield) ∧
    CallMask timeshare c.sigmaskNest blocked ret ∧ c.calls.length = c.returned + 1

/-- A coroutine that nobody executes and that can be loaded. -/
structure Parked (timeshare : Bool) (k : Coid) (c : Co) : Prop where
  context : Fresh k c ∨ Called timeshare k c
  ran : c.calls = c.ran
  stack : c.stack = true

/-- What holds at each place of the system code. -/
def SysOk (timeshare : Bool) (x : Vpu) (co : Coid → Co) : SchedPc → Prop
  | .resume => x.current = none ∧
      match x.entry with
      | none => x.hold = []
      | some f => (co x.arguments).status = .running ∧ (co x.arguments).stack = true ∧
          Entered (co x.arguments) x.hold f ∧ Called timeshare x.arguments (co x.arguments)
  | .waitStatus k => x.current = none ∧ (co k).waiting = some x.hold ∧ Parked timeshare k (co k)
  | .unlock _ => x.current = none
  | .yieldStatus k => x.current = none ∧ x.hold = [] ∧ (co k).waiting = none ∧ Parked timeshare k (co k)
  | .yieldAdd k | .mark k => x.current = none ∧ x.hold = [] ∧ (co k).status = .ready ∧ (co k).waiting = none ∧
      Parked timeshare k (co k)
  | .exitType k | .exitStatus k => x.current = none ∧ x.hold = [] ∧ (co k).status = .running ∧
      (co k).waiting = none ∧ Executed (co k) ∧ (co k).stack = true
  | .exitList k | .exitFree k => x.current = none ∧ x.hold = [] ∧ (co k).status = .exit ∧
      (co k).waiting = none ∧ Executed (co k) ∧ (co k).stack = true
  | .start | .sched => x.current = none ∧ x.hold = []
  | .loadNest k => x.current = none ∧ x.hold = [] ∧ (co k).status = .running ∧ (co k).syscall = false ∧
      (co k).waiting = none ∧ Parked timeshare k (co k)
  | .setCurrent k => x.current = none ∧ x.hold = [] ∧ (co k).status = .running ∧ (co k).syscall = false ∧
      (co k).waiting = none ∧ Parked timeshare k (co k) ∧ x.nest = (co k).sigmaskNest
  | .load k => x.current = some k ∧ x.hold = [] ∧ (co k).status = .running ∧ (co k).syscall = false ∧
      (co k).waiting = none ∧ Parked timeshare k (co k) ∧ x.nest = (co k).sigmaskNest

/-- What the registers of a VPU imply. -/
def VpuOk (timeshare : Bool) (v : Vid) (x : Vpu) (co : Coid → Co) : Prop :=
  match x.regs with
  | .init => x.entry = none ∧ x.hold = [] ∧ x.current = none
  | .mask => x.entry = none ∧ x.hold = [] ∧ x.current = none ∧ x.initialized = true
  | .barrier | .save => x.entry = none ∧ x.hold = [] ∧ x.current = none ∧ x.initialized = true ∧ x.blocked = true
  | .co k code => x.schedMask = some true ∧ x.initialized = true ∧ (co k).status = .running ∧
      (co k).stack = true ∧ CodeOk timeshare v k x (co k) code
  | .sys u pc => u = v ∧ x.schedMask = some true ∧ x.initialized = true ∧ x.blocked = true ∧
      SysOk timeshare x co pc

/-- What is known of a coroutine at rest. -/
def RestOk (timeshare : Bool) (k : Coid) (c : Co) : Place → Prop
  | .unborn => c.waiting = none ∧ Quiet c
  | .claimed => c.status = .wait ∧ c.waiting = none ∧ Parked timeshare k c
  | .readied | .queued => c.status = .ready ∧ c.waiting = none ∧ Parked timeshare k c
  | .asleep => c.status = .wait ∧ c.waiting.isSome = true ∧ Parked timeshare k c
  | .exited => c.status = .exit ∧ c.waiting = none ∧ Executed c ∧ c.stack = false
  | .on _ => True

/-! ### The invariant -/

/-- Every coroutine is owned by its VPU or at rest. -/
structure Placed (s : State) (place : Coid → Place) : Prop where
  own : ∀ v k, place k = .on v ↔ (s.vpu v).own = some k
  vpu : ∀ v, VpuOk s.timeshare v (s.vpu v) s.co
  rest : ∀ k, RestOk s.timeshare k (s.co k) (place k)

/-- The list holds the coroutines that are in the place `p`, once each. -/
structure ListOf (l : List Coid) (place : Coid → Place) (p : Place) : Prop where
  nodup : l.Nodup
  mem : ∀ k, k ∈ l ↔ place k = p

/-- The coroutine has been created, and `coroc_coroutine_deallocate` has not come to its stack. -/
def Live (s : State) (place : Coid → Place) (k : Coid) : Prop :=
  place k ≠ .unborn ∧ place k ≠ .exited ∧ ∀ v, (s.vpu v).freeing ≠ some k

/-- The lists hold what they should. -/
structure Listed (s : State) (place : Coid → Place) : Prop where
  unborn : ∀ k, place k = .unborn ↔ k = 0 ∨ s.lastPid < k
  claims : ListOf s.claims place .claimed
  readied : ListOf s.readied place .readied
  runq : ListOf s.runq place .queued
  nodup : s.coroutineList.Nodup
  live : ∀ k, k ∈ s.coroutineList ↔ Live s place k

/-- A lock has been handed to a VPU as long as the VPU has to give it back. -/
structure Handed (s : State) : Prop where
  nodup : ∀ v, (s.vpu v).pending.Nodup
  owner : ∀ l v, s.owner l = some (.handed v) ↔ l ∈ (s.vpu v).pending

/-- No assertion has failed. -/
def Sound (s : State) : Prop := s.stopped ≠ some .abort ∧ s.stopped ≠ some .crash

structure Fits (s : State) (place : Coid → Place) : Prop where
  placed : Placed s place
  listed : Listed s place
  handed : Handed s
  sound : Sound s

/-! ### What depends on what -/

variable {timeshare : Bool} {v : Vid} {k : Coid} {x x' : Vpu} {co co' : Coid → Co} {c : Co}

/-- The condition on a VPU is about its own coroutine only. -/
theorem VpuOk.congr (h : VpuOk timeshare v x co) (hco : ∀ k, x.own = some k → co' k = co k) :
    VpuOk timeshare v x co' := by
  unfold VpuOk at h ⊢
  unfold Vpu.own at hco
  rcases hr : x.regs with _ | _ | _ | _ | ⟨k, code⟩ | ⟨u, pc⟩ <;> rw [hr] at h hco
  · exact h
  · exact h
  · exact h
  · exact h
  · simp only [hco k rfl]
    exact h
  · obtain ⟨hu, hm, hi, hb, hpc⟩ := h
    refine ⟨hu, hm, hi, hb, ?_⟩
    unfold SysOk at hpc ⊢
    cases pc with
    | resume =>
      rcases he : x.entry with _ | f
      · simpa [he] using hpc
      · rw [he] at hpc hco
        simp only [hco x.arguments rfl]
        exact hpc
    | waitStatus k | yieldStatus k | yieldAdd k | exitType k | exitStatus k | exitList k | exitFree k
    | mark k | loadNest k | setCurrent k | load k =>
      simp only [hco k rfl]
      exact hpc
    | unlock ls => exact hpc
    | start => exact hpc
    | sched => exact hpc

/-! ### One VPU moves -/

variable {s s' : State} {place : Coid → Place} {p : Place}

/-- A VPU `v` and a coroutine `k` that is not with another one change. -/
theorem Placed.change (h : Placed s place) (hts : s'.timeshare = s.timeshare)
    (hvpu : s'.vpu = Function.update s.vpu v x') (hco : s'.co = Function.update s.co k c)
    (hout : ∀ w, w ≠ v → place k ≠ .on w ∧ p ≠ .on w) (hold : ∀ j, (s.vpu v).own = some j → j = k)
    (hnew : ∀ j, x'.own = some j ↔ j = k ∧ p = .on v)
    (hx : VpuOk s.timeshare v x' (Function.update s.co k c)) (hrest : RestOk s.timeshare k c p) :
    Placed s' (Function.update place k p) where
  own := by
    intro w j
    rw [hvpu]
    by_cases hw : w = v
    · subst hw
      rw [Function.update_self, hnew]
      by_cases hj : j = k
      · subst hj
        simp
      · rw [Function.update_of_ne hj, h.own]
        simp only [hj, false_and, iff_false]
        intro ho
        exact hj (hold j ho)
    · rw [Function.update_of_ne hw, ← h.own]
      by_cases hj : j = k
      · subst hj
        rw [Function.update_self]
        simp only [(hout w hw).1, (hout w hw).2]
      · rw [Function.update_of_ne hj]
  vpu := by
    intro w
    rw [hvpu, hco, hts]
    by_cases hw : w = v
    · subst hw
      rw [Function.update_self]
      exact hx
    · rw [Function.update_of_ne hw]
      refine (h.vpu w).congr ?_
      intro j hj
      have hne : j ≠ k := by
        rintro rfl
        exact (hout w hw).1 ((h.own w j).mpr hj)
      rw [Function.update_of_ne hne]
  rest := by
    intro j
    rw [hco, hts]
    by_cases hj : j = k
    · subst hj
      rw [Function.update_self, Function.update_self]
      exact hrest
    · rw [Function.update_of_ne hj, Function.update_of_ne hj]
      exact h.rest j

/-- The VPU works on for its coroutine. -/
theorem Placed.keep (h : Placed s place) (hk : (s.vpu v).own = some k) (hts : s'.timeshare = s.timeshare)
    (hvpu : s'.vpu = Function.update s.vpu v x') (hco : s'.co = Function.update s.co k c) (hown : x'.own = some k)
    (hx : VpuOk s.timeshare v x' (Function.update s.co k c)) : Placed s' place := by
  have hp := (h.own v k).mpr hk
  have hchange : Placed s' (Function.update place k (.on v)) := by
    refine h.change hts hvpu hco ?_ ?_ ?_ hx trivial
    · intro w hw
      rw [hp]
      simp [Ne.symm hw]
    · intro j hj
      rw [hk] at hj
      exact (Option.some.inj hj).symm
    · intro j
      rw [hown]
      simp [eq_comm]
  rwa [← hp, Function.update_eq_self] at hchange

/-- The VPU is done with its coroutine. -/
theorem Placed.leave (h : Placed s place) (hk : (s.vpu v).own = some k) (hts : s'.timeshare = s.timeshare)
    (hvpu : s'.vpu = Function.update s.vpu v x') (hco : s'.co = Function.update s.co k c) (hown : x'.own = none)
    (hp : ∀ w, p ≠ .on w) (hx : VpuOk s.timeshare v x' (Function.update s.co k c))
    (hrest : RestOk s.timeshare k c p) : Placed s' (Function.update place k p) := by
  have hplace := (h.own v k).mpr hk
  refine h.change hts hvpu hco ?_ ?_ ?_ hx hrest
  · intro w hw
    rw [hplace]
    exact ⟨by simp [Ne.symm hw], hp w⟩
  · intro j hj
    rw [hk] at hj
    exact (Option.some.inj hj).symm
  · intro j
    rw [hown]
    simp [hp v]

/-- The VPU takes a coroutine that is at rest. -/
theorem Placed.take (h : Placed s place) (hv : (s.vpu v).own = none) (hk : ∀ w, place k ≠ .on w)
    (hts : s'.timeshare = s.timeshare) (hvpu : s'.vpu = Function.update s.vpu v x') (hco : s'.co = s.co)
    (hown : x'.own = some k) (hx : VpuOk s.timeshare v x' s.co) : Placed s' (Function.update place k (.on v)) := by
  have hco' : s'.co = Function.update s.co k (s.co k) := by rw [hco, Function.update_eq_self]
  refine h.change hts hvpu hco' ?_ ?_ ?_ (by rwa [Function.update_eq_self]) trivial
  · intro w hw
    exact ⟨hk w, by simp [Ne.symm hw]⟩
  · intro j hj
    rw [hv] at hj
    cases hj
  · intro j
    rw [hown]
    simp [eq_comm]

/-- A VPU without a coroutine moves. -/
theorem Placed.idle (h : Placed s place) (hv : (s.vpu v).own = none) (hts : s'.timeshare = s.timeshare)
    (hvpu : s'.vpu = Function.update s.vpu v x') (hco : s'.co = s.co) (hown : x'.own = none)
    (hx : VpuOk s.timeshare v x' s.co) : Placed s' place where
  own := by
    intro w j
    rw [hvpu, h.own]
    by_cases hw : w = v
    · subst hw
      rw [Function.update_self, hown, hv]
    · rw [Function.update_of_ne hw]
  vpu := by
    intro w
    rw [hvpu, hco, hts]
    by_cases hw : w = v
    · subst hw
      rw [Function.update_self]
      exact hx
    · rw [Function.update_of_ne hw]
      exact h.vpu w
  rest := by
    intro j
    rw [hco, hts]
    exact h.rest j

/-- A coroutine at rest changes. -/
theorem Placed.move (h : Placed s place) (hk : ∀ w, place k ≠ .on w) (hts : s'.timeshare = s.timeshare)
    (hvpu : s'.vpu = s.vpu) (hco : s'.co = Function.update s.co k c) (hp : ∀ w, p ≠ .on w)
    (hrest : RestOk s.timeshare k c p) : Placed s' (Function.update place k p) where
  own := by
    intro w j
    rw [hvpu, ← h.own]
    by_cases hj : j = k
    · subst hj
      rw [Function.update_self]
      simp only [hk w, hp w]
    · rw [Function.update_of_ne hj]
  vpu := by
    intro w
    rw [hvpu, hco, hts]
    refine (h.vpu w).congr ?_
    intro j hj
    have hne : j ≠ k := by
      rintro rfl
      exact hk w ((h.own w j).mpr hj)
    rw [Function.update_of_ne hne]
  rest := by
    intro j
    rw [hco, hts]
    by_cases hj : j = k
    · subst hj
      rw [Function.update_self, Function.update_self]
      exact hrest
    · rw [Function.update_of_ne hj, Function.update_of_ne hj]
      exact h.rest j

/-- Nobody moves. -/
theorem Placed.same (h : Placed s place) (hts : s'.timeshare = s.timeshare) (hvpu : s'.vpu = s.vpu)
    (hco : s'.co = s.co) : Placed s' place where
  own w j := by rw [hvpu, h.own]
  vpu w := by
    rw [hvpu, hco, hts]
    exact h.vpu w
  rest j := by
    rw [hco, hts]
    exact h.rest j

/-- The lists when everybody stays where they are, and no VPU comes to free a stack or has done so. -/
theorem Listed.same (h : Listed s place) (hfree : ∀ w, (s'.vpu w).freeing = (s.vpu w).freeing)
    (hlast : s'.lastPid = s.lastPid) (hclaims : s'.claims = s.claims) (hreadied : s'.readied = s.readied)
    (hrunq : s'.runq = s.runq) (hlive : s'.coroutineList = s.coroutineList) : Listed s' place where
  unborn := by
    rw [hlast]
    exact h.unborn
  claims := by
    rw [hclaims]
    exact h.claims
  readied := by
    rw [hreadied]
    exact h.readied
  runq := by
    rw [hrunq]
    exact h.runq
  nodup := by
    rw [hlive]
    exact h.nodup
  live := by
    intro j
    rw [hlive, h.live]
    unfold Live
    simp only [hfree]

theorem freeing_update (hvpu : s'.vpu = Function.update s.vpu v x') (hfree : x'.freeing = (s.vpu v).freeing)
    (w : Vid) : (s'.vpu w).freeing = (s.vpu w).freeing := by
  rw [hvpu]
  by_cases hw : w = v
  · subst hw
    rw [Function.update_self, hfree]
  · rw [Function.update_of_ne hw]

section
variable {l : List Coid} {q : Place}

/-- A coroutine comes to the place of the list, ... -/
theorem ListOf.append (h : ListOf l place q) (hk : place k ≠ q) :
    ListOf (l ++ [k]) (Function.update place k q) q where
  nodup := by
    rw [List.nodup_append]
    refine ⟨h.nodup, by simp, ?_⟩
    intro j hj i hi hij
    rw [List.mem_singleton] at hi
    subst hi hij
    exact hk ((h.mem j).mp hj)
  mem := by
    intro j
    rw [List.mem_append, List.mem_singleton, h.mem]
    by_cases hj : j = k
    · subst hj
      simp
    · rw [Function.update_of_ne hj]
      simp [hj]

/-- ... leaves it, ... -/
theorem ListOf.erase (h : ListOf l place q) (hp : p ≠ q) : ListOf (l.erase k) (Function.update place k p) q where
  nodup := h.nodup.erase k
  mem := by
    intro j
    rw [h.nodup.mem_erase_iff, h.mem]
    by_cases hj : j = k
    · subst hj
      simp [hp]
    · rw [Function.update_of_ne hj]
      simp [hj]

/-- ... or has nothing to do with it. -/
theorem ListOf.other (h : ListOf l place q) (hk : place k ≠ q) (hp : p ≠ q) :
    ListOf l (Function.update place k p) q where
  nodup := h.nodup
  mem := by
    intro j
    rw [h.mem]
    by_cases hj : j = k
    · subst hj
      simp [hk, hp]
    · rw [Function.update_of_ne hj]

end

/-- A live coroutine stays alive when it goes somewhere else. -/
theorem Live.update_iff (hfree : ∀ w, (s'.vpu w).freeing = (s.vpu w).freeing) (hk : place k ≠ .unborn)
    (hx : place k ≠ .exited) (hp : p ≠ .unborn) (hpx : p ≠ .exited) (j : Coid) :
    Live s' (Function.update place k p) j ↔ Live s place j := by
  unfold Live
  simp only [hfree]
  by_cases hj : j = k
  · subst hj
    simp [hk, hx, hp, hpx]
  · rw [Function.update_of_ne hj]

theorem Listed.unborn_update (h : Listed s place) (hk : place k ≠ .unborn) (hp : p ≠ .unborn) (j : Coid) :
    Function.update place k p j = .unborn ↔ j = 0 ∨ s.lastPid < j := by
  rw [← h.unborn]
  by_cases hj : j = k
  · subst hj
    simp [hk, hp]
  · rw [Function.update_of_ne hj]

/-- The locks when a VPU moves and has the same ones to give back. -/
theorem Handed.vpu (h : Handed s) (hvpu : s'.vpu = Function.update s.vpu v x') (howner : s'.owner = s.owner)
    (hpending : x'.pending = (s.vpu v).pending) : Handed s' := by
  have hsame : ∀ w, (s'.vpu w).pending = (s.vpu w).pending := by
    intro w
    rw [hvpu]
    by_cases hw : w = v
    · subst hw
      rw [Function.update_self, hpending]
    · rw [Function.update_of_ne hw]
  constructor
  · intro w
    rw [hsame]
    exact h.nodup w
  · intro l w
    rw [hsame, howner]
    exact h.owner l w

/-- The locks when a thread takes or gives back one of its own. -/
theorem Handed.setOwner (h : Handed s) {l : LockId} {o : Option Holder} (hvpu : s'.vpu = s.vpu)
    (howner : s'.owner = Function.update s.owner l o) (hl : ∀ v, s.owner l ≠ some (.handed v))
    (ho : ∀ v, o ≠ some (.handed v)) : Handed s' := by
  constructor
  · intro w
    rw [hvpu]
    exact h.nodup w
  · intro m w
    rw [hvpu, howner, ← h.owner]
    by_cases hm : m = l
    · subst hm
      rw [Function.update_self]
      simp only [ho w, hl w]
    · rw [Function.update_of_ne hm]

theorem Handed.same (h : Handed s) (hvpu : s'.vpu = s.vpu) (howner : s'.owner = s.owner) : Handed s' := by
  constructor
  · rw [hvpu]
    exact h.nodup
  · rw [hvpu, howner]
    exact h.owner

end Coroc.Switch
