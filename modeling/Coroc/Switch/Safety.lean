import Coroc.Switch.Steps

/-!
# Switching contexts is safe

For any number of VPUs, in every run in which the signal is masked where `vpu_suspend` and
`vpu_syscall` are called (`Masked`; without `ENABLE_TIMESHARE` this asks for nothing):

* `switch_refines`: a call into the system is one step of the specification, and every other step none;
* `stack_exclusive`: no two threads execute on one stack, and nobody on a stack that is not the
  one of a coroutine that runs;
* `load_complete`: `setcontext` finds the context that was stored in the call in which the stack was
  given up, or the first one;
* `syscall_once`: what `vpu_syscall` is called with is run once, for its caller, before the call
  returns;
* `locks_handed`, `call_completes`: the locks given to `vpu_suspend` are released by the VPU, after the
  context is stored, and the VPU gets there by itself;
* `signal_safe`: the handler never runs on a system stack or inside a masked section;
* `exited_for_good`: a stack is freed when nobody executes on it, and the coroutine is not seen again.

`unmasked_shares_stack` is a run of `vpu_suspend` without the mask, as `coroc_group_sync` calls it: a
signal between its statements, and two VPUs are on one system stack.
-/

namespace Coroc.Switch

open Coroc.Transition

variable {s s' : State} {v w u : Vid} {k : Coid} {code code' : Code} {pc : SchedPc} {place : Coid → Place}

/-! ### Runs on two VPUs -/

/-- Both VPUs are in the loop of `core_sched`, and the main coroutine is queued. -/
def bootRun : List Label :=
  [.ready 1, .enqueue 1, .main, .vpu 0, .vpu 0, .vpu 1, .vpu 1] ++ List.replicate 4 (.vpu 0) ++
    List.replicate 4 (.vpu 1)

def dispatchRun (v : Vid) (k : Coid) : List Label := .elect v k :: List.replicate 4 (.vpu v)

/-- The main coroutine creates another one; it runs on the first VPU, with the signal masked, and the other one on the
    second. -/
def bothRun : List Label :=
  bootRun ++ dispatchRun 0 1 ++ [.vpu 0, .act 0 .allocate, .ready 2, .enqueue 2] ++ dispatchRun 1 2 ++
    [.vpu 1, .act 0 .mask, .vpu 0]

/-- It takes a lock and is suspended under it, up to the release. -/
def suspendRun : List Label :=
  bothRun ++ [.act 0 (.acquire 7), .act 0 (.suspend [7])] ++ List.replicate 11 (.vpu 0)

/-- It yields, and the other VPU is about to load its context. -/
def yieldRun : List Label :=
  bothRun ++ [.act 0 .yield] ++ List.replicate 12 (.vpu 0) ++
    [.act 1 .mask, .vpu 1, .act 1 .yield] ++ List.replicate 12 (.vpu 1) ++ [.elect 1 1] ++ List.replicate 3 (.vpu 1)

/-- The other one exits, up to the release of its stack. -/
def exitRun : List Label :=
  bothRun ++ [.act 1 .mask, .vpu 1, .act 1 .exit] ++ List.replicate 12 (.vpu 1)

theorem reachable_of_run (ls : List Label) (P : State → Bool)
    (h : (runOk step Masked (initial true 2) ls && (run step (initial true 2) ls).any P) = true) :
    ∃ s, Reachable s ∧ P s = true :=
  Reach.exists_of_runOk step Masked Initial ⟨true, 2, rfl⟩ ls P h

/-! ### The specification -/

theorem Reachable.matches (h : Reachable s) :
    ∃ a, Reach Life.move (fun _ _ => True) Life.Start a ∧ Matches s a :=
  h.simulate simulates

/-- **A call into the system is one step.**  Each step of the code is one move of `Life`, where a
    coroutine goes from its VPU to sleep, to a queue or to its end in one move, or it is none; so
    every run of the code is a run of `Life`. -/
theorem switch_refines : Simulates step Masked Initial Life.move Life.Start Matches ∧
    ∀ s, Reachable s → ∃ a, Reach Life.move (fun _ _ => True) Life.Start a ∧ Matches s a := by
  constructor
  · exact simulates
  · intro s hs
    exact hs.matches

theorem switch_refines_both : ∃ s, Reachable s ∧ (s.vpu 0).regs = .co 1 (.base .user) ∧
    (s.vpu 1).regs = .co 2 (.base .user) ∧ ∃ a, Reach Life.move (fun _ _ => True) Life.Start a ∧ Matches s a := by
  obtain ⟨s, hs, hP⟩ := reachable_of_run bothRun
    (fun s => (s.vpu 0).regs == .co 1 (.base .user) && (s.vpu 1).regs == .co 2 (.base .user)) (by decide +kernel)
  simp only [Bool.and_eq_true, beq_iff_eq] at hP
  exact ⟨s, hs, hP.1, hP.2, switch_refines.2 s hs⟩

theorem Reachable.fits (h : Reachable s) : ∃ place, Fits s place := by
  obtain ⟨a, -, hm⟩ := h.matches
  exact ⟨a.place, hm.1⟩

/-! ### Stacks -/

theorem Fits.place_of_code (h : Fits s place) (hr : (s.vpu v).regs = .co k code) : place k = .on v :=
  (h.placed.own v k).mpr (by simp [Vpu.own, hr])

theorem Fits.live_of_code (h : Fits s place) (hr : (s.vpu v).regs = .co k code) : k ∈ s.coroutineList := by
  have hk := h.place_of_code hr
  rw [h.listed.live]
  refine ⟨by simp [hk], by simp [hk], ?_⟩
  intro w hw
  have hown := (h.placed.own w k).mpr (own_of_freeing hw)
  rw [hk] at hown
  obtain rfl := Place.on.inj hown
  simp [Vpu.freeing, hr] at hw

/-- **One thread on a stack**, and none on the stack of a coroutine that does not run. -/
theorem stack_exclusive (h : Reachable s) :
    (∀ v w k code code', (s.vpu v).regs = .co k code → (s.vpu w).regs = .co k code' → v = w) ∧
      (∀ v u pc, (s.vpu v).regs = .sys u pc → u = v) ∧
      ∀ v k code, (s.vpu v).regs = .co k code → (s.co k).stack = true ∧ (s.co k).status = .running ∧
        k ∈ s.coroutineList ∧ k ∉ s.runq ∧ k ∉ s.claims ∧ k ∉ s.readied := by
  obtain ⟨place, hf⟩ := h.fits
  refine ⟨?_, ?_, ?_⟩
  · intro v w k code code' hv hw
    have hkv := hf.place_of_code hv
    rw [hf.place_of_code hw] at hkv
    exact (Place.on.inj hkv).symm
  · intro v u pc hr
    exact (hf.sysOk hr).1
  · intro v k code hr
    obtain ⟨-, -, hst, hsk, -⟩ := hf.codeOk hr
    have hk := hf.place_of_code hr
    refine ⟨hsk, hst, hf.live_of_code hr, ?_, ?_, ?_⟩
    · simp [hf.listed.runq.mem, hk]
    · simp [hf.listed.claims.mem, hk]
    · simp [hf.listed.readied.mem, hk]

theorem stack_exclusive_both : ∃ s, Reachable s ∧ (s.vpu 0).regs = .co 1 (.base .user) ∧
    (s.vpu 1).regs = .co 2 (.base .user) ∧ 1 ∉ s.runq ∧ 2 ∉ s.runq := by
  obtain ⟨s, hs, hP⟩ := reachable_of_run bothRun
    (fun s => (s.vpu 0).regs == .co 1 (.base .user) && (s.vpu 1).regs == .co 2 (.base .user)) (by decide +kernel)
  simp only [Bool.and_eq_true, beq_iff_eq] at hP
  obtain ⟨-, -, hrun⟩ := stack_exclusive hs
  exact ⟨s, hs, hP.1, hP.2, (hrun 0 1 _ hP.1).2.2.2.1, (hrun 1 2 _ hP.2).2.2.2.1⟩

/-- **No assertion fails**, and no context is loaded that was not stored, no stack freed twice. -/
theorem never_aborts (h : Reachable s) : s.stopped ≠ some .abort ∧ s.stopped ≠ some .crash := by
  obtain ⟨place, hf⟩ := h.fits
  exact hf.sound

theorem never_aborts_both : ∃ s, Reachable s ∧ (s.vpu 0).regs = .co 1 (.base .user) ∧ s.stopped ≠ some .abort ∧
    s.stopped ≠ some .crash := by
  obtain ⟨s, hs, hP⟩ := reachable_of_run bothRun (fun s => (s.vpu 0).regs == .co 1 (.base .user)) (by decide +kernel)
  exact ⟨s, hs, by simpa using hP, never_aborts hs⟩

/-- **Contexts are loaded complete.**  When a scheduler is about to load a context, nobody executes on that stack;
    the coroutine has never run, or the context is the one stored by its last call of `vpu_syscall`, in which the
    stack was given up. -/
theorem load_complete (h : Reachable s) (hr : (s.vpu v).regs = .sys u (.load k)) :
    (∀ w code, (s.vpu w).regs ≠ .co k code) ∧ (s.co k).stack = true ∧
      ((s.co k).left = none ∧ (s.co k).calls = [] ∧ (s.co k).ctx = some ⟨k, .base .boot, false⟩ ∨
        ∃ (ret : Option Frame) (n : SysCall) (blocked : Bool), (s.co k).left = some (inCall ret { n with pc := .load }) ∧
          (s.co k).ctx = some ⟨k, inCall ret { n with pc := .test }, blocked⟩ ∧ n.self = k ∧
          n.num = (s.co k).calls.length) := by
  obtain ⟨place, hf⟩ := h.fits
  obtain ⟨rfl, -, -, -, -, -, -, -, -, hparked, -⟩ := hf.sysOk hr
  have hk : place k = .on u := (hf.placed.own u k).mpr (by simp [Vpu.own, hr, SchedPc.arg])
  refine ⟨?_, hparked.stack, ?_⟩
  · intro w code hw
    have hkw := hf.place_of_code hw
    rw [hk] at hkw
    obtain rfl := Place.on.inj hkw
    rw [hr] at hw
    cases hw
  · rcases hparked.context with hfresh | ⟨ret, n, blocked, hleft, hctx, hself, hnum, -⟩
    · exact .inl ⟨hfresh.left, hfresh.calls, hfresh.ctx⟩
    · exact .inr ⟨ret, n, blocked, hleft, hctx, hself, hnum⟩

theorem load_complete_yield : ∃ s, Reachable s ∧ (s.vpu 1).regs = .sys 1 (.load 1) ∧ (s.co 1).calls = [.coreYield] ∧
    ∀ w code, (s.vpu w).regs ≠ .co 1 code := by
  obtain ⟨s, hs, hP⟩ := reachable_of_run yieldRun
    (fun s => (s.vpu 1).regs == .sys 1 (.load 1) && (s.co 1).calls == [.coreYield]) (by decide +kernel)
  simp only [Bool.and_eq_true, beq_iff_eq] at hP
  exact ⟨s, hs, hP.1, hP.2, (load_complete hs hP.1).1⟩

/-! ### Calls -/

theorem Fits.counts (h : Fits s place) (k : Coid) : Counts (s.co k) := by
  have hrest := h.placed.rest k
  rcases hp : place k with _ | _ | _ | _ | v | _ | _ <;> rw [hp] at hrest
  · exact hrest.2.counts
  · exact hrest.2.2.counts
  · exact hrest.2.2.counts
  · exact hrest.2.2.counts
  · exact (h.owned ((h.placed.own v k).mp hp)).counts
  · exact hrest.2.2.counts
  · exact hrest.2.2.1.counts

/-- **A system call is run once, for its caller, and before it returns.**  What the schedulers have begun to run for a
    coroutine is what it called `vpu_syscall` with, in this order; at most the last call is still on its way; and a
    scheduler runs it when its caller has left its stack. -/
theorem syscall_once (h : Reachable s) :
    (∀ k, (s.co k).ran <+: (s.co k).calls ∧ (s.co k).returned ≤ (s.co k).ran.length ∧
      (s.co k).calls.length ≤ (s.co k).returned + 1) ∧
    (∀ v k, (s.vpu v).regs = .co k (.base .user) →
      (s.co k).ran = (s.co k).calls ∧ (s.co k).returned = (s.co k).calls.length) ∧
    ∀ v u f, (s.vpu v).regs = .sys u .resume → (s.vpu v).entry = some f →
      (s.co (s.vpu v).arguments).calls = (s.co (s.vpu v).arguments).ran ++ [f] ∧
        (s.co (s.vpu v).arguments).status = .running ∧ ∀ w code, (s.vpu w).regs ≠ .co (s.vpu v).arguments code := by
  obtain ⟨place, hf⟩ := h.fits
  refine ⟨?_, ?_, ?_⟩
  · intro k
    have hc := hf.counts k
    exact ⟨hc.ran, hc.returned, hc.calls⟩
  · intro v k hr
    have hq := (hf.userOk hr).1.quiet
    exact ⟨hq.ran.symm, hq.returned.symm⟩
  · intro v u f hr he
    obtain ⟨rfl, -, -, -, -, hent⟩ := hf.sysOk hr
    rw [he] at hent
    obtain ⟨hst, -, hentered, -⟩ := hent
    refine ⟨hentered.calls, hst, ?_⟩
    intro w code hw
    have hk := (hf.placed.own u _).mpr (show (s.vpu u).own = some (s.vpu u).arguments by simp [Vpu.own, hr, he])
    rw [hf.place_of_code hw] at hk
    obtain rfl := Place.on.inj hk
    rw [hr] at hw
    cases hw

theorem syscall_once_yield : ∃ s, Reachable s ∧ (s.vpu 1).regs = .sys 1 (.load 1) ∧ (s.co 1).calls = [.coreYield] ∧
    (s.co 1).ran <+: [.coreYield] := by
  obtain ⟨s, hs, hP⟩ := reachable_of_run yieldRun
    (fun s => (s.vpu 1).regs == .sys 1 (.load 1) && (s.co 1).calls == [.coreYield]) (by decide +kernel)
  simp only [Bool.and_eq_true, beq_iff_eq] at hP
  have hran := ((syscall_once hs).1 1).1
  rw [hP.2] at hran
  exact ⟨s, hs, hP.1, hP.2, hran⟩

/-! ### Locks -/

/-- **Locks are handed over.**  A lock that was given to `vpu_suspend` is one its VPU still has to release; when it
    releases one, the lock is the VPU's, and every coroutine that has registered under it sleeps, with its context
    stored and its stack left; and a VPU that runs a coroutine's own code holds nothing. -/
theorem locks_handed (h : Reachable s) :
    (∀ v u l ls, (s.vpu v).regs = .sys u (.unlock (l :: ls)) → s.owner l = some (.handed v)) ∧
    (∀ l n k, s.owner l = some n → (∀ v, n ≠ .handed v) → l ∈ (s.co k).waiting.getD [] →
      (s.co k).status = .wait ∧ Parked s.timeshare k (s.co k) ∧ ∀ v, (s.vpu v).own ≠ some k) ∧
    ∀ v k, (s.vpu v).regs = .co k (.base .user) → (s.vpu v).hold = [] ∧ ∀ l, s.owner l ≠ some (.handed v) := by
  obtain ⟨place, hf⟩ := h.fits
  refine ⟨?_, ?_, ?_⟩
  · intro v u l ls hr
    rw [hf.handed.owner]
    simp [Vpu.pending, hr]
  · intro l n k hl hn hw
    have hk := hf.asleep_of_claim hn hl hw
    have hrest := hf.placed.rest k
    rw [hk] at hrest
    refine ⟨hrest.1, hrest.2.2, ?_⟩
    intro v hv
    rw [← hf.placed.own, hk] at hv
    cases hv
  · intro v k hr
    obtain ⟨hfree, hpending, -⟩ := hf.userOk hr
    refine ⟨hfree.hold, ?_⟩
    intro l hl
    rw [hf.handed.owner, hpending, hfree.hold] at hl
    cases hl

theorem locks_handed_suspend : ∃ s, Reachable s ∧ (s.vpu 0).regs = .sys 0 (.unlock [7]) ∧
    s.owner 7 = some (.handed 0) := by
  obtain ⟨s, hs, hP⟩ := reachable_of_run suspendRun (fun s => (s.vpu 0).regs == .sys 0 (.unlock [7]))
    (by decide +kernel)
  have hr : (s.vpu 0).regs = .sys 0 (.unlock [7]) := by simpa using hP
  exact ⟨s, hs, hr, (locks_handed hs).1 0 0 7 [] hr⟩

/-! ### The clock signal -/

/-- **Preemption is safe.**  A VPU that does not block the signal executes a coroutine that it calls its current one,
    where the mask is down or on its way up; and a handler that has interrupted something has interrupted it there. -/
theorem signal_safe (h : Reachable s) :
    (∀ v, s.timeshare = true → s.isOpen = true → v < s.nvpu → (s.vpu v).blocked = false →
      ∃ k f, (s.vpu v).regs = .co k (.base f) ∧ (s.vpu v).current = some k ∧ Interrupted (s.vpu v).nest f) ∧
    ∀ v k hd f, (s.vpu v).regs = .co k (.handler hd f) → Interrupted (s.vpu v).nest f := by
  obtain ⟨place, hf⟩ := h.fits
  constructor
  · intro v hts hopen hv hb
    obtain ⟨k, f, hr, hfree, hint⟩ := hf.unblocked hv hts hopen hb
    exact ⟨k, f, hr, hfree.current, hint⟩
  · intro v k hd f hr
    obtain ⟨-, -, -, -, hcode⟩ := hf.codeOk hr
    cases hd with
    | tick => exact hcode.2.2
    | syscall n => exact hcode.2.2
    | done => exact hcode.2.2

theorem signal_safe_both : ∃ s, Reachable s ∧ (s.vpu 1).regs = .co 2 (.handler .tick .user) ∧
    (s.vpu 0).blocked = true ∧ Interrupted (s.vpu 1).nest .user := by
  obtain ⟨s, hs, hP⟩ := reachable_of_run (bothRun ++ [.signal 1])
    (fun s => (s.vpu 1).regs == .co 2 (.handler .tick .user) && (s.vpu 0).blocked) (by decide +kernel)
  simp only [Bool.and_eq_true, beq_iff_eq] at hP
  exact ⟨s, hs, hP.1, hP.2, (signal_safe hs).2 1 2 .tick .user hP.1⟩

/-- **The mask is needed.**  `vpu_suspend` with the mask down, interrupted in `vpu_syscall` by its sixth signal: the
    coroutine goes on on the second VPU, with the first one in its variable, and both are on one system stack. -/
theorem unmasked_shares_stack : ∃ s, Reach step (fun _ _ => True) Initial s ∧ (s.vpu 0).regs = .sys 0 .sched ∧
    (s.vpu 1).regs = .sys 0 .resume := by
  obtain ⟨s, hs, hP⟩ := Reach.exists_of_run step Initial ⟨true, 2, rfl⟩
    (bootRun ++ dispatchRun 0 1 ++ [.vpu 0, .act 0 (.acquire 7), .act 0 (.suspend [7])] ++ List.replicate 5 (.vpu 0) ++
      (List.replicate 6 [.signal 0, .vpu 0, .vpu 0]).flatten ++ List.replicate 11 (.vpu 0) ++ dispatchRun 1 1 ++
      List.replicate 6 (.vpu 1))
    (fun s => (s.vpu 0).regs == .sys 0 .sched && (s.vpu 1).regs == .sys 0 .resume) (by decide +kernel)
  simp only [Bool.and_eq_true, beq_iff_eq] at hP
  exact ⟨s, hs, hP.1, hP.2⟩

/-! ### The end of a coroutine -/

/-- A created coroutine without a stack has exited. -/
theorem Fits.exited_iff (h : Fits s place) (hk : 0 < k ∧ k ≤ s.lastPid) : place k = .exited ↔ (s.co k).stack = false := by
  have hrest := h.placed.rest k
  have hborn : place k ≠ .unborn := by
    intro hu
    rcases (h.listed.unborn k).mp hu with h0 | hlt
    · exact absurd h0 (Nat.pos_iff_ne_zero.mp hk.1)
    · exact absurd hk.2 (Nat.not_le_of_lt hlt)
  rcases hp : place k with _ | _ | _ | _ | v | _ | _ <;> rw [hp] at hrest
  · exact absurd hp hborn
  · simp [hrest.2.2.stack]
  · simp [hrest.2.2.stack]
  · simp [hrest.2.2.stack]
  · simp [(h.owned ((h.placed.own v k).mp hp)).stack]
  · simp [hrest.2.2.stack]
  · simp [hrest.2.2.2]

/-- A coroutine that has exited is nowhere. -/
theorem Fits.gone (h : Fits s place) (hk : place k = .exited) :
    (s.co k).stack = false ∧ (s.co k).status = .exit ∧ (∀ v, (s.vpu v).own ≠ some k) ∧ k ∉ s.runq ∧ k ∉ s.claims ∧
      k ∉ s.readied ∧ k ∉ s.coroutineList := by
  have hrest := h.placed.rest k
  rw [hk] at hrest
  refine ⟨hrest.2.2.2, hrest.1, ?_, ?_, ?_, ?_, ?_⟩
  · intro v hv
    rw [← h.placed.own, hk] at hv
    cases hv
  · simp [h.listed.runq.mem, hk]
  · simp [h.listed.claims.mem, hk]
  · simp [h.listed.readied.mem, hk]
  · rw [h.listed.live]
    exact fun hl => hl.2.1 hk

/-- **A stack is freed once, when nobody is on it, and for good.**  The coroutine has left `coroutine_list` by then, and
    in no later state it runs, is in a queue or is made ready. -/
theorem exited_for_good (h : Reachable s) :
    (∀ v u k, (s.vpu v).regs = .sys u (.exitFree k) →
      (s.co k).stack = true ∧ (∀ w code, (s.vpu w).regs ≠ .co k code) ∧ k ∉ s.coroutineList) ∧
    ∀ k, 0 < k → k ≤ s.lastPid → (s.co k).stack = false → ∀ s', Reach step Masked (fun x => x = s) s' →
      (s'.co k).stack = false ∧ (s'.co k).status = .exit ∧ (∀ v, (s'.vpu v).own ≠ some k) ∧ k ∉ s'.runq ∧
        k ∉ s'.claims ∧ k ∉ s'.readied ∧ k ∉ s'.coroutineList := by
  obtain ⟨a, -, hm⟩ := h.matches
  have hf := hm.1
  constructor
  · intro v u k hr
    have hown : (s.vpu v).own = some k := by simp [Vpu.own, hr, SchedPc.arg]
    refine ⟨(hf.owned hown).stack, ?_, ?_⟩
    · intro w code hw
      have hk := (hf.placed.own v k).mpr hown
      rw [hf.place_of_code hw] at hk
      obtain rfl := Place.on.inj hk
      rw [hr] at hw
      cases hw
    · rw [hf.listed.live]
      intro hl
      exact hl.2.2 v (by simp [Vpu.freeing, hr])
  · intro k h0 hlast hstack s' hs'
    have hk := (hf.exited_iff ⟨h0, hlast⟩).mpr hstack
    have hsim : Simulates step Masked (fun x => x = s) Life.move (fun x => x = a) Matches :=
      { starts := fun _ hx => ⟨a, rfl, hx ▸ hm⟩
        steps := fun _ _ _ _ hx hok hstep => matches_step hx hok hstep }
    obtain ⟨a', ha', hm'⟩ := hs'.simulate hsim
    have hk' : a'.place k = .exited := by
      refine ha'.invariant (I := fun b : Life => b.place k = .exited) ?_ ?_
      · rintro b rfl
        exact hk
      · intro b m b' hb _ hmove
        exact Life.exited_move hmove hb
    exact hm'.1.gone hk'

theorem exited_for_good_exit : ∃ s, Reachable s ∧ (s.vpu 1).regs = .sys 1 (.exitFree 2) ∧ (s.co 2).stack = true ∧
    2 ∉ s.coroutineList := by
  obtain ⟨s, hs, hP⟩ := reachable_of_run exitRun (fun s => (s.vpu 1).regs == .sys 1 (.exitFree 2)) (by decide +kernel)
  have hr : (s.vpu 1).regs = .sys 1 (.exitFree 2) := by simpa using hP
  have hfree := (exited_for_good hs).1 1 1 2 hr
  exact ⟨s, hs, hr, hfree.1, hfree.2.2⟩

end Coroc.Switch
