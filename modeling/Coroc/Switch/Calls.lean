import Coroc.Switch.Inv

/-!
# The code on the coroutines' stacks keeps the invariant

Every statement of `vpu_syscall`, `vpu_suspend` and `vpu_clock_handler`, and what a coroutine
does by itself, leaves the coroutine with its VPU: `Fits.callStep`, `Fits.codeStep`,
`Fits.deliver`, `Fits.actStep`.
-/

namespace Coroc.Switch

open Coroc.Transition

variable {timeshare : Bool} {v : Vid} {k : Coid} {x x' : Vpu} {c : Co} {s s' : State} {place : Coid → Place}
  {code code' : Code} {ret : Option Frame} {n : SysCall}

/-- The VPU works on for its coroutine. -/
theorem Fits.keep (h : Fits s place) (hk : (s.vpu v).own = some k) (hown : x'.own = some k)
    (hx : VpuOk s.timeshare v x' (Function.update s.co k c)) (hpending : x'.pending = (s.vpu v).pending)
    (hfree : x'.freeing = (s.vpu v).freeing) : Fits ((s.setCo k c).setVpu v x') place where
  placed := h.placed.keep hk rfl rfl rfl hown hx
  listed := h.listed.same (freeing_update rfl hfree) rfl rfl rfl rfl rfl
  handed := h.handed.vpu rfl rfl hpending
  sound := h.sound

theorem setCo_self (s : State) (k : Coid) : s.setCo k (s.co k) = s := by
  unfold State.setCo
  rw [Function.update_eq_self]

theorem setVpu_jump (s : State) (v : Vid) (x : Vpu) (r : Regs) :
    (s.setVpu v x).jump v r = s.setVpu v { x with regs := r } := by
  unfold State.jump State.setVpu
  simp only [Function.update_self, Function.update_idem]

/-- The VPU goes from one place in the code of its coroutine to another. -/
theorem Fits.moveTo (h : Fits s place) (hr : (s.vpu v).regs = .co k code) (hr' : x'.regs = .co k code')
    (hmask : x'.schedMask = (s.vpu v).schedMask) (hinit : x'.initialized = (s.vpu v).initialized)
    (hstatus : c.status = (s.co k).status) (hstack : c.stack = (s.co k).stack)
    (hcode : CodeOk s.timeshare v k x' c code') (hpending : x'.pending = (s.vpu v).pending) :
    Fits ((s.setCo k c).setVpu v x') place := by
  have hvpu := h.placed.vpu v
  unfold VpuOk at hvpu
  rw [hr] at hvpu
  obtain ⟨hm, hi, hst, hsk, -⟩ := hvpu
  refine h.keep (by simp [Vpu.own, hr]) (by simp [Vpu.own, hr']) ?_ hpending (by simp [Vpu.freeing, hr, hr'])
  unfold VpuOk
  rw [hr']
  simp only [Function.update_self]
  exact ⟨hmask.trans hm, hinit.trans hi, hstatus.trans hst, hstack.trans hsk, hcode⟩

/-- The same without a change of the coroutine. -/
theorem Fits.moveVpu (h : Fits s place) (hr : (s.vpu v).regs = .co k code) (hr' : x'.regs = .co k code')
    (hmask : x'.schedMask = (s.vpu v).schedMask) (hinit : x'.initialized = (s.vpu v).initialized)
    (hcode : CodeOk s.timeshare v k x' (s.co k) code') (hpending : x'.pending = (s.vpu v).pending) :
    Fits (s.setVpu v x') place := by
  rw [← setCo_self s k]
  exact h.moveTo hr hr' hmask hinit rfl rfl hcode hpending

/-- What is known of a VPU that executes code of a coroutine. -/
theorem Fits.codeOk (h : Fits s place) (hr : (s.vpu v).regs = .co k code) :
    (s.vpu v).schedMask = some true ∧ (s.vpu v).initialized = true ∧ (s.co k).status = .running ∧
      (s.co k).stack = true ∧ CodeOk s.timeshare v k (s.vpu v) (s.co k) code := by
  have hvpu := h.placed.vpu v
  unfold VpuOk at hvpu
  rwa [hr] at hvpu

theorem codeOk_inCall : CodeOk timeshare v k x c (inCall ret n) ↔
    CallOk v k x c ret n ∧ CallMask timeshare x.nest x.blocked ret := by
  cases ret <;> exact Iff.rfl

theorem pending_inCall (hr : x.regs = .co k (inCall ret n)) : x.pending = x.hold := by
  unfold Vpu.pending
  rw [hr]
  cases ret <;> rfl

/-! ### `vpu_syscall` -/

theorem Published.congr {c c' : Co} {hold : List LockId} {f : SysFn} (hw : c'.waiting = c.waiting)
    (h : Published c hold f) : Published c' hold f := by
  unfold Published at h ⊢
  rw [hw]
  exact h

/-- An entered call depends on the record of the calls and on what is published. -/
theorem Entered.congr {c c' : Co} {hold : List LockId} {f : SysFn} (h : Entered c hold f)
    (hcalls : c'.calls = c.calls) (hran : c'.ran = c.ran) (hret : c'.returned = c.returned)
    (hw : c'.waiting = c.waiting) : Entered c' hold f where
  calls := by
    rw [hcalls, hran]
    exact h.calls
  returned := by
    rw [hcalls, hret]
    exact h.returned
  published := h.published.congr hw

/-- Inside a call a VPU goes from one statement to the next. -/
theorem Fits.next (h : Fits s place) (hr : (s.vpu v).regs = .co k (inCall ret n)) {n' : SysCall}
    (hr' : x'.regs = .co k (inCall ret n'))
    (hmask : x'.schedMask = (s.vpu v).schedMask) (hinit : x'.initialized = (s.vpu v).initialized)
    (hnest : x'.nest = (s.vpu v).nest) (hblocked : x'.blocked = (s.vpu v).blocked)
    (hhold : x'.hold = (s.vpu v).hold) (hstatus : c.status = (s.co k).status) (hstack : c.stack = (s.co k).stack)
    (hcall : CallOk v k x' c ret n') : Fits ((s.setCo k c).setVpu v x') place := by
  obtain ⟨-, -, -, -, hcode⟩ := h.codeOk hr
  have hcm := (codeOk_inCall.mp hcode).2
  refine h.moveTo hr hr' hmask hinit hstatus hstack ?_ ?_
  · rw [codeOk_inCall, hnest, hblocked]
    exact ⟨hcall, hcm⟩
  · rw [pending_inCall hr, pending_inCall hr', hhold]

/-- **The statements of `vpu_syscall`.** -/
theorem Fits.callStep (h : Fits s place) (ret : Option Frame) (hr : (s.vpu v).regs = .co k (inCall ret n)) :
    Fits (s.callStep v k (inCall ret) (afterCall ret) n) place := by
  obtain ⟨hmask, hinit, hstatus, hstack, hcode⟩ := h.codeOk hr
  obtain ⟨⟨hself, hnum, hpfn, hpc⟩, hcm⟩ := codeOk_inCall.mp hcode
  obtain ⟨pc, pfn, u, self, num⟩ := n
  simp only at hself hnum hpfn
  subst hself
  cases pc with
  | flag =>
    obtain ⟨hu, hcur, hent⟩ := hpc
    exact h.next hr rfl rfl rfl rfl rfl rfl rfl rfl
      ⟨rfl, hnum, hpfn, hu, hcur, hent.congr rfl rfl rfl rfl, rfl⟩
  | saveNest =>
    obtain ⟨hu, hcur, hent, hsys⟩ := hpc
    exact h.next hr rfl rfl rfl rfl rfl rfl rfl rfl
      ⟨rfl, hnum, hpfn, hu, hcur, hent.congr rfl rfl rfl rfl, hsys, rfl⟩
  | saveCtx =>
    obtain ⟨hu, hcur, hent, hsys, hnest⟩ := hpc
    exact h.next hr rfl rfl rfl rfl rfl rfl rfl rfl
      ⟨rfl, hnum, hpfn, hcur, .inl ⟨hu, hent.congr rfl rfl rfl rfl, hsys, hnest, rfl⟩⟩
  | test =>
    obtain ⟨hcur, hin⟩ := hpc
    rcases hin with ⟨hu, hent, hsys, hsto⟩ | ⟨hsys, hexe, hwait, hhold⟩
    · unfold State.callStep State.jump
      dsimp only
      rw [if_pos hsys, ← setCo_self s self]
      exact h.next hr rfl rfl rfl rfl rfl rfl rfl rfl ⟨rfl, hnum, hpfn, hu, hcur, hent, hsto.nest, hsto.ctx⟩
    · unfold State.callStep State.jump
      dsimp only
      rw [if_neg (by simp [hsys])]
      refine h.moveTo hr rfl rfl rfl rfl rfl ?_ ?_
      · cases ret with
        | none =>
          refine ⟨⟨hcur, ⟨hexe.ran, hexe.returned⟩, hwait, hhold⟩, ?_⟩
          intro hts
          have hm := hcm hts
          exact iff_of_true hm.2 hm.1
        | some f => exact ⟨⟨hcur, ⟨hexe.ran, hexe.returned⟩, hwait, hhold⟩, hcm.1, hcm.2⟩
      · rw [pending_inCall hr]
        cases ret <;> rfl
  | setEntry =>
    obtain ⟨rfl, hcur, hent, hsto⟩ := hpc
    unfold State.callStep
    dsimp only
    rw [setVpu_jump, ← setCo_self s self]
    exact h.next hr rfl rfl rfl rfl rfl rfl rfl rfl ⟨rfl, hnum, hpfn, rfl, hcur, hent, ⟨hsto.nest, hsto.ctx⟩, rfl⟩
  | setArguments =>
    obtain ⟨rfl, hcur, hent, hsto, hentry⟩ := hpc
    unfold State.callStep
    dsimp only
    rw [setVpu_jump, ← setCo_self s self]
    exact h.next hr rfl rfl rfl rfl rfl rfl rfl rfl
      ⟨rfl, hnum, hpfn, rfl, hent, ⟨hsto.nest, hsto.ctx⟩, hentry, rfl⟩
  | setCurrent =>
    obtain ⟨rfl, hent, hsto, hentry, hargs⟩ := hpc
    unfold State.callStep
    dsimp only
    rw [setVpu_jump, ← setCo_self s self]
    exact h.next hr rfl rfl rfl rfl rfl rfl rfl rfl
      ⟨rfl, hnum, hpfn, rfl, hent, ⟨hsto.nest, hsto.ctx⟩, hentry, hargs, rfl⟩
  | load =>
    obtain ⟨hu, hent, hsto, hentry, hargs, hcur⟩ := hpc
    obtain rfl : u = v := hu
    unfold State.callStep
    simp only [hmask]
    refine h.keep (by simp [Vpu.own, hr]) (by simp [Vpu.own, hentry, hargs]) ?_ ?_ (by simp [Vpu.freeing, hr])
    · unfold VpuOk SysOk
      simp only [hcur, hentry, hargs, Function.update_self]
      refine ⟨trivial, trivial, hinit, trivial, trivial, hstatus, hstack, hent.congr rfl rfl rfl rfl, ?_⟩
      refine ⟨ret, ⟨.load, pfn, u, self, num⟩, (s.vpu u).blocked, rfl, hsto.ctx, rfl, hnum, hpfn, ?_, hent.returned⟩
      rw [hsto.nest]
      exact hcm
    · rw [pending_inCall hr]
      rfl

theorem setVpu_self (s : State) (v : Vid) : s.setVpu v (s.vpu v) = s := by
  unfold State.setVpu
  rw [Function.update_eq_self]

/-- A call begins, after the VPU has been changed to `x`. -/
theorem Fits.beginCall (h : Fits s place) (ret : Option Frame) (hr : (s.vpu v).regs = .co k code)
    (hmask : x.schedMask = (s.vpu v).schedMask) (hinit : x.initialized = (s.vpu v).initialized) {f : SysFn}
    (hcur : x.current = some k) (hquiet : Quiet (s.co k)) (hpub : Published (s.co k) x.hold f)
    (hpfn : ret.isSome = true → f = .coreYield) (hcm : CallMask s.timeshare x.nest x.blocked ret)
    (hpending : x.hold = (s.vpu v).pending) :
    Fits ((s.setVpu v x).beginCall v k (inCall ret) f) place := by
  unfold State.beginCall State.jump State.setVpu State.setCo
  simp only [Function.update_self, hcur, Function.update_idem]
  refine h.moveTo hr rfl hmask hinit rfl rfl ?_ ?_
  · rw [codeOk_inCall]
    refine ⟨⟨rfl, ?_, hpfn, rfl, rfl, ?_, ?_, hpub.congr rfl⟩, hcm⟩
    · simp
    · simp only [hquiet.ran]
    · simp only [List.length_append, List.length_cons, List.length_nil, hquiet.returned]
  · rw [pending_inCall rfl]
    exact hpending

/-! ### The rest of the code -/

theorem Free.congr {x' : Vpu} (h : Free k x c) (hcur : x'.current = x.current) (hhold : x'.hold = x.hold) :
    Free k x' c where
  current := hcur.trans h.current
  quiet := h.quiet
  waiting := h.waiting
  hold := hhold.trans h.hold

theorem Free.pending (h : Free k x c) (hr : x.regs = .co k code) (hcode : ∀ ls u, code ≠ .base (.suspend ls u)) :
    x.pending = [] := by
  rw [← h.hold]
  unfold Vpu.pending
  rw [hr]
  split
  · rename_i ls u heq
    cases heq
    exact absurd rfl (hcode ls u)
  · rename_i heq
    cases heq
  · rfl

/-- **The statements of a coroutine's code**, other than its own: they keep the invariant, and only
    code of its own leaves open what comes next. -/
theorem Fits.codeStep (h : Fits s place) (hr : (s.vpu v).regs = .co k code) (hs : s.codeStep v k code = some s') :
    Fits s' place := by
  obtain ⟨-, -, -, -, hcode⟩ := h.codeOk hr
  unfold State.codeStep at hs
  split at hs
  · -- `bootstrap` calls the entry of the coroutine
    obtain rfl := Option.some.inj hs
    obtain ⟨hfree, hm⟩ := hcode
    refine h.moveVpu hr rfl rfl rfl ⟨hfree.congr rfl rfl, ?_⟩ ?_
    · intro hts
      have hm := hm hts
      simp [hm.1, hm.2]
    · rw [hfree.pending hr (by simp)]
      exact hfree.hold
  · cases hs
  · obtain rfl := Option.some.inj hs
    obtain ⟨hfree, hm⟩ := hcode
    refine h.moveVpu hr rfl rfl rfl ⟨hfree.congr rfl rfl, ?_⟩ ?_
    · intro hts
      simp [(hm hts).1]
    · rw [hfree.pending hr (by simp)]
      exact hfree.hold
  · obtain rfl := Option.some.inj hs
    obtain ⟨hfree, hm⟩ := hcode
    refine h.moveVpu hr rfl rfl rfl ⟨hfree.congr rfl rfl, ?_⟩ ?_
    · intro hts
      simp [(hm hts).1]
    · rw [hfree.pending hr (by simp)]
      exact hfree.hold
  · rename_i ls u
    obtain rfl := Option.some.inj hs
    obtain ⟨rfl, hcur, -, hquiet, hwait, hm⟩ := hcode
    refine h.beginCall (x := { s.vpu u with hold := ls }) (f := .coreWait) none hr rfl rfl hcur hquiet hwait
      (by simp) hm ?_
    simp [Vpu.pending, hr]
  · obtain rfl := Option.some.inj hs
    exact h.callStep none hr
  · rename_i f
    obtain ⟨hfree, hblocked, hint⟩ := hcode
    dsimp only at hs
    split at hs
    · rename_i hnone
      rw [hfree.current] at hnone
      cases hnone
    split at hs
    · obtain rfl := Option.some.inj hs
      refine h.beginCall (x := { s.vpu v with watchdog := (s.vpu v).watchdog + 1 }) (f := .coreYield) (some f) hr rfl
        rfl hfree.current hfree.quiet ⟨hfree.waiting, hfree.hold⟩ (fun _ => rfl) ⟨hblocked, hint⟩ ?_
      rw [hfree.pending hr (by simp)]
      exact hfree.hold
    · obtain rfl := Option.some.inj hs
      rw [setVpu_jump]
      refine h.moveVpu hr rfl rfl rfl ⟨hfree.congr rfl rfl, hblocked, hint⟩ ?_
      rw [hfree.pending hr (by simp)]
      exact hfree.hold
  · rename_i n f
    obtain rfl := Option.some.inj hs
    exact h.callStep (some f) hr
  · rename_i f
    obtain rfl := Option.some.inj hs
    obtain ⟨hfree, hblocked, hint⟩ := hcode
    refine h.moveVpu hr rfl rfl rfl ?_ ?_
    · cases f with
      | boot => exact ⟨hfree.congr rfl rfl, fun _ => ⟨hint, rfl⟩⟩
      | user =>
        refine ⟨hfree.congr rfl rfl, fun _ => ?_⟩
        have hnest : (s.vpu v).nest = 0 := hint
        simp [hnest]
      | masking => exact ⟨hfree.congr rfl rfl, fun _ => ⟨hint, rfl⟩⟩
      | unmasking => exact hint.elim
      | suspend ls u => exact hint.elim
      | syscall n => exact hint.elim
    · rw [hfree.pending hr (by simp)]
      cases f with
      | boot | user | masking => exact hfree.hold
      | unmasking | suspend ls u | syscall n => exact hint.elim

/-- Where a VPU that does not block the signal is. -/
theorem Fits.unblocked (h : Fits s place) (hv : v < s.nvpu) (hts : s.timeshare = true) (hopen : s.isOpen = true)
    (hb : (s.vpu v).blocked = false) :
    ∃ k f, (s.vpu v).regs = .co k (.base f) ∧ Free k (s.vpu v) (s.co k) ∧ Interrupted (s.vpu v).nest f := by
  have hvpu := h.placed.vpu v
  unfold VpuOk at hvpu
  unfold State.isOpen at hopen
  simp only [Bool.and_eq_true, List.all_eq_true, List.mem_range] at hopen
  have hbarrier := hopen.2 v hv
  rcases hr : (s.vpu v).regs with _ | _ | _ | _ | ⟨k, f | ⟨hd, f⟩⟩ | ⟨u, pc⟩ <;> rw [hr] at hvpu hbarrier
  · cases hbarrier
  · cases hbarrier
  · simp [hb] at hvpu
  · simp [hb] at hvpu
  · obtain ⟨-, -, -, -, hcode⟩ := hvpu
    refine ⟨k, f, rfl, ?_⟩
    cases f with
    | boot => exact ⟨hcode.1, (hcode.2 hts).1⟩
    | user =>
      have hnest := hcode.2 hts
      rw [hb] at hnest
      simp only [Bool.false_eq_true, false_iff, Nat.not_lt, Nat.le_zero_eq] at hnest
      exact ⟨hcode.1, hnest⟩
    | masking => exact ⟨hcode.1, (hcode.2 hts).1⟩
    | unmasking => simp [(hcode.2 hts).2] at hb
    | suspend ls u => simp [(hcode.2.2.2.2.2 hts).2] at hb
    | syscall n => simp [(hcode.2 hts).2] at hb
  · obtain ⟨-, -, -, -, hcode⟩ := hvpu
    cases hd with
    | tick => simp [hcode.2.1] at hb
    | syscall n => simp [hcode.2.1] at hb
    | done => simp [hcode.2.1] at hb
  · simp [hb] at hvpu

/-- **The clock signal** keeps the invariant. -/
theorem Fits.deliver (h : Fits s place) (hv : v < s.nvpu) (hts : s.timeshare = true) (hopen : s.isOpen = true)
    (hb : (s.vpu v).blocked = false) : Fits (s.deliver v) place := by
  obtain ⟨k, f, hr, hfree, hint⟩ := h.unblocked hv hts hopen hb
  unfold State.deliver
  simp only [hr]
  refine h.moveVpu hr rfl rfl rfl ⟨hfree.congr rfl rfl, rfl, hint⟩ ?_
  rw [hfree.pending hr ?_]
  · exact hfree.hold
  · rintro ls u ⟨⟩
    exact hint

end Coroc.Switch
