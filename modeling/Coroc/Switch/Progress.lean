import Coroc.Switch.Safety

/-!
# A call into the system comes to its end

From its first statement on, a VPU that is in `vpu_suspend`, in `vpu_syscall` or in the function that was
handed over needs nobody else to get to the loop of `core_sched`, and then it has released the locks
it was handed.
-/

namespace Coroc.Switch

open Coroc.Transition

variable {s s' : State} {v u : Vid} {k : Coid} {code : Code} {pc : SchedPc} {place : Coid → Place}
  {ret : Option Frame} {n : SysCall} {x : Vpu}

/-- How many statements `vpu_syscall` has left. -/
def SysPc.left : SysPc → Nat
  | .flag => 8
  | .saveNest => 7
  | .saveCtx => 6
  | .test => 5
  | .setEntry => 4
  | .setArguments => 3
  | .setCurrent => 2
  | .load => 1

/-- How many statements there are at most to the loop of `core_sched`, when `hold` is to be released; `none` for the
    dispatch. -/
def SchedPc.left (hold : Nat) : SchedPc → Option Nat
  | .resume => some (hold + 6)
  | .waitStatus _ => some (hold + 3)
  | .unlock ls => some (ls.length + 2)
  | .yieldStatus _ => some 3
  | .yieldAdd _ => some 2
  | .exitType _ => some 5
  | .exitStatus _ => some 4
  | .exitList _ => some 3
  | .exitFree _ => some 2
  | .start => some 1
  | .sched => some 0
  | .mark _ | .loadNest _ | .setCurrent _ | .load _ => none

/-- The same for a VPU that is on its way into the system: `none` if it is not. -/
def toSched (s : State) (v : Vid) : Option Nat :=
  let x := s.vpu v
  match x.regs with
  | .co _ (.base (.suspend ls _)) => some (ls.length + 15)
  | .co k (.base (.syscall n)) | .co k (.handler (.syscall n) _) =>
    if n.pc = .test ∧ (s.co k).syscall = false then none else some (x.hold.length + 6 + n.pc.left)
  | .sys _ pc => pc.left x.hold.length
  | _ => none

theorem toSched_inCall (hr : (s.vpu v).regs = .co k (inCall ret n)) : toSched s v =
    if n.pc = .test ∧ (s.co k).syscall = false then none else some ((s.vpu v).hold.length + 6 + n.pc.left) := by
  unfold toSched
  simp only [hr]
  cases ret <;> rfl

theorem toSched_sys (hr : (s.vpu v).regs = .sys u pc) : toSched s v = pc.left (s.vpu v).hold.length := by
  unfold toSched
  simp only [hr]

theorem toSched_resume (hr : (s.vpu v).regs = .sys u .resume) : toSched s v = some ((s.vpu v).hold.length + 6) :=
  toSched_sys hr

/-- A step on the way: it is possible, ends nothing but the process, and leads on. -/
def Advances (s : State) (v : Vid) (s' : State) : Prop :=
  s'.nvpu = s.nvpu ∧ (s'.stopped = some .exited ∧ (∃ a, toSched s v = some (a + 1)) ∨
    s'.stopped = s.stopped ∧ ∃ a b, toSched s v = some a ∧ toSched s' v = some b ∧ b < a)

/-- From one statement of `vpu_syscall` to the next. -/
theorem advances_next (hr : (s.vpu v).regs = .co k (inCall ret n)) (m : SysCall) {c : Co}
    (hin : ¬ (n.pc = .test ∧ (s.co k).syscall = false)) (hr' : x.regs = .co k (inCall ret m))
    (hin' : ¬ (m.pc = .test ∧ c.syscall = false)) (hhold : x.hold = (s.vpu v).hold)
    (hlt : m.pc.left < n.pc.left) : Advances s v ((s.setCo k c).setVpu v x) := by
  have hx : ((s.setCo k c).setVpu v x).vpu v = x := Function.update_self _ _ _
  have hc : ((s.setCo k c).setVpu v x).co k = c := Function.update_self _ _ _
  refine ⟨rfl, .inr ⟨rfl, _, _, (toSched_inCall hr).trans (if_neg hin),
    (toSched_inCall (by rw [hx]; exact hr')).trans (if_neg (by rw [hc]; exact hin')), ?_⟩⟩
  rw [hx, hhold]
  omega

theorem advances_vpu (hr : (s.vpu v).regs = .co k (inCall ret n)) (m : SysCall)
    (hin : ¬ (n.pc = .test ∧ (s.co k).syscall = false)) (hr' : x.regs = .co k (inCall ret m))
    (hin' : ¬ (m.pc = .test ∧ (s.co k).syscall = false)) (hhold : x.hold = (s.vpu v).hold)
    (hlt : m.pc.left < n.pc.left) : Advances s v (s.setVpu v x) := by
  have hnext := advances_next (c := s.co k) hr m hin hr' hin' hhold hlt
  rwa [setCo_self] at hnext

/-- On the way in, `vpu_syscall` goes on. -/
theorem Fits.advances_call (ret : Option Frame) (h : Fits s place) (hr : (s.vpu v).regs = .co k (inCall ret n))
    (hin : ¬ (n.pc = .test ∧ (s.co k).syscall = false)) :
    Advances s v (s.callStep v k (inCall ret) (afterCall ret) n) := by
  obtain ⟨hmask, -, -, -, hcode⟩ := h.codeOk hr
  obtain ⟨⟨hself, -, -, hpc⟩, -⟩ := codeOk_inCall.mp hcode
  obtain ⟨pc, pfn, u, self, num⟩ := n
  simp only at hself
  subst hself
  cases pc with
  | flag => exact advances_next hr ⟨.saveNest, pfn, u, self, num⟩ hin rfl (by simp) rfl (by simp [SysPc.left])
  | saveNest => exact advances_next hr ⟨.saveCtx, pfn, u, self, num⟩ hin rfl (by simp) rfl (by simp [SysPc.left])
  | saveCtx =>
    obtain ⟨-, -, -, hsys, -⟩ := hpc
    exact advances_next hr ⟨.test, pfn, u, self, num⟩ hin rfl (by simp [hsys]) rfl (by simp [SysPc.left])
  | test =>
    have hsys : (s.co self).syscall = true := by simpa using hin
    unfold State.callStep State.jump
    dsimp only
    rw [if_pos hsys]
    exact advances_vpu hr ⟨.setEntry, pfn, u, self, num⟩ hin rfl (by simp) rfl (by simp [SysPc.left])
  | setEntry =>
    obtain ⟨hu, -⟩ := hpc
    obtain rfl : u = v := hu
    unfold State.callStep
    dsimp only
    rw [setVpu_jump]
    exact advances_vpu hr ⟨.setArguments, pfn, u, self, num⟩ hin rfl (by simp) rfl (by simp [SysPc.left])
  | setArguments =>
    obtain ⟨hu, -⟩ := hpc
    obtain rfl : u = v := hu
    unfold State.callStep
    dsimp only
    rw [setVpu_jump]
    exact advances_vpu hr ⟨.setCurrent, pfn, u, self, num⟩ hin rfl (by simp) rfl (by simp [SysPc.left])
  | setCurrent =>
    obtain ⟨hu, -⟩ := hpc
    obtain rfl : u = v := hu
    unfold State.callStep
    dsimp only
    rw [setVpu_jump]
    exact advances_vpu hr ⟨.load, pfn, u, self, num⟩ hin rfl (by simp) rfl (by simp [SysPc.left])
  | load =>
    obtain ⟨hu, -⟩ := hpc
    obtain rfl : u = v := hu
    unfold State.callStep
    simp only [hmask]
    refine ⟨rfl, .inr ⟨rfl, _, _, (toSched_inCall hr).trans (if_neg hin), toSched_resume (u := u) ?_, ?_⟩⟩
    · simp [State.setVpu]
    · simp [State.setVpu, SysPc.left]

/-- From one statement of the system code to another. -/
theorem advances_sys (hr : (s.vpu v).regs = .sys u pc) {pc' : SchedPc} (hvpu : s'.vpu = Function.update s.vpu v x)
    (hr' : x.regs = .sys u pc') (hn : s'.nvpu = s.nvpu) (hst : s'.stopped = s.stopped) {a b : Nat}
    (ha : pc.left (s.vpu v).hold.length = some a) (hb : pc'.left x.hold.length = some b) (hlt : b < a) :
    Advances s v s' := by
  have hx : s'.vpu v = x := by rw [hvpu, Function.update_self]
  refine ⟨hn, .inr ⟨hst, a, b, (toSched_sys hr).trans ha, ?_, hlt⟩⟩
  rw [toSched_sys (by rw [hx]; exact hr'), hx]
  exact hb

/-- What was handed over goes on, too. -/
theorem Fits.advances_system (h : Fits s place) (hr : (s.vpu v).regs = .sys u pc)
    (hpc : (pc.left (s.vpu v).hold.length).isSome = true) (hsched : pc ≠ .sched) :
    ∃ s', s.sysStep v u pc = some s' ∧ Advances s v s' := by
  obtain ⟨rfl, -, -, -, hsys⟩ := h.sysOk hr
  cases pc with
  | resume =>
    unfold State.sysStep
    dsimp only
    rcases (s.vpu u).entry with _ | f
    · refine ⟨_, rfl, ?_⟩
      rw [setVpu_jump]
      exact advances_sys hr rfl rfl rfl rfl rfl rfl (by omega)
    · refine ⟨_, rfl, ?_⟩
      cases f with
      | coreWait => exact advances_sys hr rfl rfl rfl rfl rfl rfl (Nat.add_lt_add_left (by decide) _)
      | coreYield => exact advances_sys hr rfl rfl rfl rfl rfl rfl (by omega)
      | coreExit => exact advances_sys hr rfl rfl rfl rfl rfl rfl (by omega)
  | waitStatus k => exact ⟨_, rfl, advances_sys hr rfl rfl rfl rfl rfl rfl (by omega)⟩
  | unlock ls =>
    cases ls with
    | nil => exact ⟨_, rfl, advances_sys hr rfl rfl rfl rfl rfl rfl (by simp)⟩
    | cons l ls => exact ⟨_, rfl, advances_sys hr rfl rfl rfl rfl rfl rfl (by simp)⟩
  | yieldStatus k => exact ⟨_, rfl, advances_sys hr rfl rfl rfl rfl rfl rfl (by omega)⟩
  | yieldAdd k => exact ⟨_, rfl, advances_sys hr rfl rfl rfl rfl rfl rfl (by omega)⟩
  | exitType k =>
    unfold State.sysStep
    dsimp only
    split
    · exact ⟨_, rfl, rfl, .inl ⟨rfl, 4, toSched_sys hr⟩⟩
    · exact ⟨_, rfl, advances_sys hr rfl rfl rfl rfl rfl rfl (by omega)⟩
  | exitStatus k =>
    obtain ⟨-, -, hst, -⟩ := hsys
    unfold State.sysStep
    dsimp only
    rw [if_pos hst]
    exact ⟨_, rfl, advances_sys hr rfl rfl rfl rfl rfl rfl (by omega)⟩
  | exitList k => exact ⟨_, rfl, advances_sys hr rfl rfl rfl rfl rfl rfl (by omega)⟩
  | exitFree k =>
    obtain ⟨-, -, -, -, -, hstack⟩ := hsys
    unfold State.sysStep
    dsimp only
    rw [if_pos hstack]
    exact ⟨_, rfl, advances_sys hr rfl rfl rfl rfl rfl rfl (by omega)⟩
  | start => exact ⟨_, rfl, advances_sys hr rfl rfl rfl rfl rfl rfl (by omega)⟩
  | sched => exact absurd rfl hsched
  | mark k | loadNest k | setCurrent k | load k => cases hpc

/-- `vpu_suspend` stores what is to be released and calls `vpu_syscall`. -/
theorem Fits.advances_suspend (h : Fits s place) {ls : List LockId} (hr : (s.vpu v).regs = .co k (.base (.suspend ls u))) :
    ∃ s', s.codeStep v k (.base (.suspend ls u)) = some s' ∧ Advances s v s' := by
  obtain ⟨-, -, -, -, hcode⟩ := h.codeOk hr
  obtain ⟨rfl, hcur, -⟩ := hcode
  refine ⟨_, rfl, ?_⟩
  unfold State.beginCall State.jump State.setVpu State.setCo
  simp only [Function.update_self, hcur, Function.update_idem]
  refine ⟨rfl, .inr ⟨rfl, ls.length + 15, ls.length + 14, ?_, ?_, by omega⟩⟩
  · simp [toSched, hr]
  · simp [toSched, SysPc.left]

/-- **One step on the way.** -/
theorem Fits.advances (h : Fits s place) (hv : v < s.nvpu) (hst : s.stopped = none) (hin : (toSched s v).isSome = true)
    (hsched : (s.vpu v).regs ≠ .sys v .sched) : ∃ s', step s (.vpu v) = some s' ∧ Advances s v s' := by
  have hstep : step s (.vpu v) = s.vpuStep v := by simp [step, hst, hv]
  rw [hstep]
  unfold State.vpuStep
  dsimp only
  unfold toSched at hin
  dsimp only at hin
  rcases hr : (s.vpu v).regs with _ | _ | _ | _ | ⟨k, code⟩ | ⟨u, pc⟩ <;> rw [hr] at hin
  · cases hin
  · cases hin
  · cases hin
  · cases hin
  · rcases code with f | ⟨hd, f⟩
    · cases f with
      | boot | user | masking | unmasking => cases hin
      | suspend ls u => exact h.advances_suspend hr
      | syscall n =>
        refine ⟨_, rfl, h.advances_call none hr ?_⟩
        intro hret
        simp [hret] at hin
    · cases hd with
      | tick | done => cases hin
      | syscall n =>
        refine ⟨_, rfl, h.advances_call (some f) hr ?_⟩
        intro hret
        simp [hret] at hin
  · obtain ⟨rfl, -⟩ := h.sysOk hr
    refine h.advances_system hr hin ?_
    rintro rfl
    exact hsched hr

/-- What is known on the way. -/
structure OnTheWay (v : Vid) (s : State) : Prop where
  reachable : Reachable s
  vpu : v < s.nvpu
  going : s.stopped = some .exited ∨ s.stopped = none ∧ (toSched s v).isSome = true

/-- The process has ended, or the VPU is in the loop of `core_sched` and has no lock to release. -/
def Arrived (v : Vid) (s : State) : Prop :=
  s.stopped = some .exited ∨ (s.vpu v).regs = .sys v .sched ∧ ∀ l, s.owner l ≠ some (.handed v)

theorem OnTheWay.arrived (h : OnTheWay v s) (hr : (s.vpu v).regs = .sys v .sched) : Arrived v s := by
  obtain ⟨place, hf⟩ := h.reachable.fits
  obtain ⟨-, -, -, -, -, hhold⟩ := hf.sysOk hr
  refine .inr ⟨hr, ?_⟩
  intro l hl
  rw [hf.handed.owner, pending_sys hr (by simp), hhold] at hl
  cases hl

/-- **A call into the system ends**, without help from anybody: in no more statements than `toSched` says the VPU is in
    the loop of `core_sched`, and all locks that were handed to it are released. -/
theorem call_completes (h : Reachable s) (hv : v < s.nvpu) (hst : s.stopped = none) {n : Nat} (hn : toSched s v = some n) :
    ∃ m s', m ≤ n ∧ run step s (List.replicate m (.vpu v)) = some s' ∧ Reachable s' ∧ Arrived v s' := by
  have hrank := run_replicate_of_rank step (I := OnTheWay v) (Q := Arrived v) (.vpu v : Label)
    (fun s => if s.stopped.isSome then 0 else (toSched s v).getD 0) ?_ n s
    ⟨h, hv, .inr ⟨hst, by simp [hn]⟩⟩ (by simp [hst, hn])
  · obtain ⟨m, s', hm, hrun, hI, hQ⟩ := hrank
    exact ⟨m, s', hm, hrun, hI.reachable, hQ⟩
  · intro t ht harr
    rcases ht.going with hex | ⟨hst, hin⟩
    · exact absurd (.inl hex) harr
    · obtain ⟨place, hf⟩ := ht.reachable.fits
      have hsched : (t.vpu v).regs ≠ .sys v .sched := fun hr => harr (ht.arrived hr)
      obtain ⟨t', hstep, hn, hgo⟩ := hf.advances ht.vpu hst hin hsched
      refine ⟨t', hstep, ⟨.next (.vpu v) ht.reachable trivial hstep, by rw [hn]; exact ht.vpu, ?_⟩, ?_⟩
      · rcases hgo with ⟨hex, -⟩ | ⟨hst', a, b, -, hb, -⟩
        · exact .inl hex
        · exact .inr ⟨hst'.trans hst, by simp [hb]⟩
      · rcases hgo with ⟨hex, a, ha⟩ | ⟨hst', a, b, ha, hb, hlt⟩
        · simp [hst, hex, ha]
        · simpa [hst, hst', ha, hb] using hlt

/-- A suspension, from its first statement on. -/
theorem call_completes_suspend : ∃ s, Reachable s ∧ (s.vpu 0).regs = .co 1 (.base (.suspend [7] 0)) ∧
    ∃ m s', m ≤ 16 ∧ run step s (List.replicate m (.vpu 0)) = some s' ∧ Reachable s' ∧ Arrived 0 s' := by
  obtain ⟨s, hs, hP⟩ := reachable_of_run (bothRun ++ [.act 0 (.acquire 7), .act 0 (.suspend [7])])
    (fun s => (s.vpu 0).regs == .co 1 (.base (.suspend [7] 0)) && s.stopped.isNone && s.nvpu == 2) (by decide +kernel)
  simp only [Bool.and_eq_true, beq_iff_eq, Option.isNone_iff_eq_none] at hP
  obtain ⟨⟨hr, hst⟩, hn⟩ := hP
  have hv : 0 < s.nvpu := by
    rw [hn]
    decide
  exact ⟨s, hs, hr, call_completes hs hv hst (by simp [toSched, hr])⟩

end Coroc.Switch
