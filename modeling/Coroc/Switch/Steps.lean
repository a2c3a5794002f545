import Coroc.Switch.Calls

/-!
# Every step is a step of the specification

The code on the system stacks, and with it every step of the model: it leaves the coroutines
where they are, or it is a move of `Life` (`matches_step`).
-/

namespace Coroc.Switch

open Coroc.Transition

variable {timeshare : Bool} {v u : Vid} {k : Coid} {x x' : Vpu} {c : Co} {s s' : State} {place : Coid → Place}
  {p : Place} {a : Life} {pc pc' : SchedPc}

/-- The state fits the places of the specification. -/
def Matches (s : State) (a : Life) : Prop := Fits s a.place ∧ a.Coherent

/-- Nothing has happened in the specification, or one move. -/
def Goes (s : State) (a : Life) : Prop := Matches s a ∨ ∃ m a', a.move m = some a' ∧ Matches s a'

theorem Goes.stay (h : Matches s a) (hs : Fits s' a.place) : Goes s' a := .inl ⟨hs, h.2⟩

theorem Goes.move (h : Matches s a) {m : Move} {a' : Life} (hm : a.move m = some a') (hs : Fits s' a'.place) :
    Goes s' a := .inr ⟨m, a', hm, hs, h.2.move hm⟩

/-! ### The system stack -/

theorem Fits.sysOk (h : Fits s place) (hr : (s.vpu v).regs = .sys u pc) :
    u = v ∧ (s.vpu v).schedMask = some true ∧ (s.vpu v).initialized = true ∧ (s.vpu v).blocked = true ∧
      SysOk s.timeshare (s.vpu v) s.co pc := by
  have hvpu := h.placed.vpu v
  unfold VpuOk at hvpu
  rwa [hr] at hvpu

/-- What has to be shown of a VPU that goes to another place of the system code. -/
theorem Fits.vpuOk (h : Fits s place) (hr : (s.vpu v).regs = .sys u pc) {co : Coid → Co}
    (hr' : x'.regs = .sys u pc') (hmask : x'.schedMask = (s.vpu v).schedMask)
    (hinit : x'.initialized = (s.vpu v).initialized) (hblocked : x'.blocked = (s.vpu v).blocked)
    (hsys : SysOk s.timeshare x' co pc') : VpuOk s.timeshare v x' co := by
  obtain ⟨hu, hm, hi, hb, -⟩ := h.sysOk hr
  unfold VpuOk
  rw [hr']
  exact ⟨hu, hmask.trans hm, hinit.trans hi, hblocked.trans hb, hsys⟩

theorem pending_sys (hr : x.regs = .sys u pc) (hpc : ∀ ls, pc ≠ .unlock ls) : x.pending = x.hold := by
  unfold Vpu.pending
  rw [hr]
  cases pc with
  | unlock ls => exact absurd rfl (hpc ls)
  | _ => rfl

/-- From one place of the system code to another, with the same coroutine. -/
theorem Fits.sysKeep (h : Fits s place) (hr : (s.vpu v).regs = .sys u pc) (hr' : x'.regs = .sys u pc')
    (hk : (s.vpu v).own = some k) (hown : x'.own = some k) (hmask : x'.schedMask = (s.vpu v).schedMask)
    (hinit : x'.initialized = (s.vpu v).initialized) (hblocked : x'.blocked = (s.vpu v).blocked)
    (hhold : x'.hold = (s.vpu v).hold) (hfree : x'.freeing = (s.vpu v).freeing)
    (hpc : ∀ ls, pc ≠ .unlock ls) (hpc' : ∀ ls, pc' ≠ .unlock ls)
    (hsys : SysOk s.timeshare x' (Function.update s.co k c) pc') :
    Fits ((s.setCo k c).setVpu v x') place := by
  refine h.keep hk hown (h.vpuOk hr hr' hmask hinit hblocked hsys) ?_ hfree
  rw [pending_sys hr hpc, pending_sys hr' hpc', hhold]

/-- The same without a change of the coroutine. -/
theorem Fits.sysVpu (h : Fits s place) (hr : (s.vpu v).regs = .sys u pc) (hr' : x'.regs = .sys u pc')
    (hk : (s.vpu v).own = some k) (hown : x'.own = some k) (hmask : x'.schedMask = (s.vpu v).schedMask)
    (hinit : x'.initialized = (s.vpu v).initialized) (hblocked : x'.blocked = (s.vpu v).blocked)
    (hhold : x'.hold = (s.vpu v).hold) (hfree : x'.freeing = (s.vpu v).freeing)
    (hpc : ∀ ls, pc ≠ .unlock ls) (hpc' : ∀ ls, pc' ≠ .unlock ls)
    (hsys : SysOk s.timeshare x' s.co pc') : Fits (s.setVpu v x') place := by
  rw [← setCo_self s k]
  refine h.sysKeep hr hr' hk hown hmask hinit hblocked hhold hfree hpc hpc' ?_
  rwa [Function.update_eq_self]

/-- The VPU has no coroutine and goes on. -/
theorem Fits.sysIdle (h : Fits s place) (hr : (s.vpu v).regs = .sys u pc) (hr' : x'.regs = .sys u pc')
    (hv : (s.vpu v).own = none) (hown : x'.own = none) (hmask : x'.schedMask = (s.vpu v).schedMask)
    (hinit : x'.initialized = (s.vpu v).initialized) (hblocked : x'.blocked = (s.vpu v).blocked)
    (hpending : x'.pending = (s.vpu v).pending) (hfree : x'.freeing = (s.vpu v).freeing)
    (hsys : SysOk s.timeshare x' s.co pc') : Fits (s.setVpu v x') place where
  placed := h.placed.idle hv rfl rfl rfl hown (h.vpuOk hr hr' hmask hinit hblocked hsys)
  listed := h.listed.same (freeing_update rfl hfree) rfl rfl rfl rfl rfl
  handed := h.handed.vpu rfl rfl hpending
  sound := h.sound

theorem Called.congr {c c' : Co} (h : Called timeshare k c) (hleft : c'.left = c.left) (hctx : c'.ctx = c.ctx)
    (hcalls : c'.calls = c.calls) (hnest : c'.sigmaskNest = c.sigmaskNest) (hret : c'.returned = c.returned) :
    Called timeshare k c' := by
  unfold Called at h ⊢
  rw [hleft, hctx, hcalls, hnest, hret]
  exact h

theorem Parked.congr {c c' : Co} (h : Parked timeshare k c) (hleft : c'.left = c.left) (hctx : c'.ctx = c.ctx)
    (hcalls : c'.calls = c.calls) (hnest : c'.sigmaskNest = c.sigmaskNest) (hret : c'.returned = c.returned)
    (hran : c'.ran = c.ran) (hstack : c'.stack = c.stack) : Parked timeshare k c' where
  context := by
    rcases h.context with hf | hc
    · exact .inl ⟨hctx.trans hf.ctx, hnest.trans hf.nest, hleft.trans hf.left, hcalls.trans hf.calls,
        hret.trans hf.returned⟩
    · exact .inr (hc.congr hleft hctx hcalls hnest hret)
  ran := by
    rw [hcalls, hran]
    exact h.ran
  stack := hstack.trans h.stack

/-- The scheduler begins to run what was handed over. -/
theorem Fits.resume (h : Fits s place) (hr : (s.vpu v).regs = .sys u .resume)
    (hs : s.sysStep v u .resume = some s') : Fits s' place := by
  obtain ⟨rfl, hm, hi, hb, hsys⟩ := h.sysOk hr
  obtain ⟨hcur, hent⟩ := hsys
  unfold State.sysStep at hs
  dsimp only at hs
  rcases he : (s.vpu u).entry with _ | f
  · rw [he] at hs hent
    obtain rfl := Option.some.inj hs
    rw [setVpu_jump]
    refine h.sysIdle hr rfl (by simp [Vpu.own, hr, he]) rfl hm.symm rfl rfl ?_ (by simp [Vpu.freeing, hr]) ⟨hcur, hent⟩
    simp [Vpu.pending, hr]
  · rw [he] at hs hent
    obtain rfl := Option.some.inj hs
    obtain ⟨hst, hsk, hentered, hcalled⟩ := hent
    have hown : (s.vpu u).own = some (s.vpu u).arguments := by simp [Vpu.own, hr, he]
    have hparked : Parked s.timeshare (s.vpu u).arguments
        { s.co (s.vpu u).arguments with ran := (s.co (s.vpu u).arguments).ran ++ [f] } :=
      ⟨.inr (hcalled.congr rfl rfl rfl rfl rfl), hentered.calls, hsk⟩
    have hpub := hentered.published
    cases f with
    | coreWait =>
      refine h.sysKeep hr rfl hown rfl rfl rfl rfl rfl (by simp [Vpu.freeing, hr, SysFn.begin]) (by simp)
        (by simp [SysFn.begin]) ?_
      unfold SysOk
      simp only [SysFn.begin, Function.update_self]
      exact ⟨hcur, hpub, hparked⟩
    | coreYield =>
      refine h.sysKeep hr rfl hown rfl rfl rfl rfl rfl (by simp [Vpu.freeing, hr, SysFn.begin]) (by simp)
        (by simp [SysFn.begin]) ?_
      unfold SysOk
      simp only [SysFn.begin, Function.update_self]
      exact ⟨hcur, hpub.2, hpub.1, hparked⟩
    | coreExit =>
      refine h.sysKeep hr rfl hown rfl rfl rfl rfl rfl (by simp [Vpu.freeing, hr, SysFn.begin]) (by simp)
        (by simp [SysFn.begin]) ?_
      unfold SysOk
      simp only [SysFn.begin, Function.update_self]
      exact ⟨hcur, hpub.2, hst, hpub.1, ⟨hentered.calls, hentered.returned⟩, hsk⟩

/-- The lists when a coroutine is moved that none of them is about. -/
theorem Listed.other (h : Listed s place) (hfree : ∀ w, (s'.vpu w).freeing = (s.vpu w).freeing)
    (hlast : s'.lastPid = s.lastPid) (hclaims : s'.claims = s.claims) (hreadied : s'.readied = s.readied)
    (hrunq : s'.runq = s.runq) (hlive : s'.coroutineList = s.coroutineList)
    (hk : place k = .on v) (hp : p = .asleep) : Listed s' (Function.update place k p) where
  unborn := by
    rw [hlast]
    exact h.unborn_update (by simp [hk]) (by simp [hp])
  claims := by
    rw [hclaims]
    exact h.claims.other (by simp [hk]) (by simp [hp])
  readied := by
    rw [hreadied]
    exact h.readied.other (by simp [hk]) (by simp [hp])
  runq := by
    rw [hrunq]
    exact h.runq.other (by simp [hk]) (by simp [hp])
  nodup := by
    rw [hlive]
    exact h.nodup
  live := by
    intro j
    rw [hlive, h.live]
    exact (Live.update_iff hfree (by simp [hk]) (by simp [hk]) (by simp [hp]) (by simp [hp]) j).symm

/-- `core_wait` marks the coroutine: from here on it sleeps. -/
theorem Goes.waitStatus (h : Matches s a) (hr : (s.vpu v).regs = .sys u (.waitStatus k))
    (hs : s.sysStep v u (.waitStatus k) = some s') : Goes s' a := by
  obtain ⟨rfl, hm, hi, hb, hcur, hwait, hparked⟩ := h.1.sysOk hr
  obtain rfl := Option.some.inj hs
  have hown : (s.vpu u).own = some k := by simp [Vpu.own, hr, SchedPc.arg]
  have hk : a.place k = .on u := (h.1.placed.own u k).mpr hown
  have hfree : ∀ w, ((((s.setCo k { s.co k with status := .wait }).jump u (.sys u (.unlock (s.vpu u).hold))).vpu w)).freeing =
      (s.vpu w).freeing := freeing_update rfl (by simp [Vpu.freeing, hr])
  refine Goes.move (m := .suspend u k) h (if_pos hk) ⟨?_, ?_, ?_, h.1.sound⟩
  · refine h.1.placed.leave hown rfl rfl rfl rfl (by simp) ?_ ⟨rfl, ?_, hparked.congr rfl rfl rfl rfl rfl rfl rfl⟩
    · exact h.1.vpuOk hr rfl rfl rfl rfl hcur
    · simp [hwait]
  · exact h.1.listed.other hfree rfl rfl rfl rfl rfl hk rfl
  · refine h.1.handed.vpu rfl rfl ?_
    simp [Vpu.pending, hr]

/-- `lock_release`, by the VPU. -/
theorem Fits.unlock (h : Fits s place) {l : LockId} {ls : List LockId} (hr : (s.vpu v).regs = .sys u (.unlock (l :: ls)))
    (hs : s.sysStep v u (.unlock (l :: ls)) = some s') : Fits s' place := by
  obtain ⟨rfl, hm, hi, hb, hcur⟩ := h.sysOk hr
  obtain rfl := Option.some.inj hs
  have hv : (s.vpu u).own = none := by simp [Vpu.own, hr, SchedPc.arg]
  have hpend : (s.vpu u).pending = l :: ls := by simp [Vpu.pending, hr]
  have hnodup := h.handed.nodup u
  rw [hpend, List.nodup_cons] at hnodup
  refine ⟨?_, ?_, ?_, h.sound⟩
  · exact h.placed.idle hv rfl rfl rfl rfl (h.vpuOk hr rfl rfl rfl rfl hcur)
  · exact h.listed.same (freeing_update rfl (by simp [Vpu.freeing, hr])) rfl rfl rfl rfl rfl
  · constructor
    · intro w
      unfold State.jump State.setVpu State.setOwner
      by_cases hw : w = u
      · subst hw
        simpa [Vpu.pending] using hnodup.2
      · simp only [Function.update_of_ne hw]
        exact h.handed.nodup w
    · intro m w
      have howner := h.handed.owner m w
      unfold State.jump State.setVpu State.setOwner
      by_cases hw : w = u
      · subst hw
        rw [hpend] at howner
        by_cases hml : m = l
        · subst hml
          simpa [Vpu.pending] using hnodup.1
        · simpa [Vpu.pending, hml] using howner
      · simp only [Function.update_of_ne hw]
        by_cases hml : m = l
        · subst hml
          have hmine := (h.handed.owner m u).mpr (by rw [hpend]; exact List.mem_cons_self)
          rw [hmine] at howner
          rw [Function.update_self, ← howner]
          simp [Ne.symm hw]
        · rw [Function.update_of_ne hml]
          exact howner

/-- All locks are back. -/
theorem Fits.unlocked (h : Fits s place) (hr : (s.vpu v).regs = .sys u (.unlock []))
    (hs : s.sysStep v u (.unlock []) = some s') : Fits s' place := by
  obtain ⟨rfl, hm, hi, hb, hcur⟩ := h.sysOk hr
  obtain rfl := Option.some.inj hs
  refine h.sysIdle hr rfl (by simp [Vpu.own, hr, SchedPc.arg]) rfl rfl rfl rfl ?_ (by simp [Vpu.freeing, hr]) ⟨hcur, rfl⟩
  simp [Vpu.pending, hr]

/-- `core_yield`. -/
theorem Fits.yieldStatus (h : Fits s place) (hr : (s.vpu v).regs = .sys u (.yieldStatus k))
    (hs : s.sysStep v u (.yieldStatus k) = some s') : Fits s' place := by
  obtain ⟨rfl, hm, hi, hb, hcur, hhold, hwait, hparked⟩ := h.sysOk hr
  obtain rfl := Option.some.inj hs
  refine h.sysKeep hr rfl (by simp [Vpu.own, hr, SchedPc.arg]) rfl rfl rfl rfl rfl (by simp [Vpu.freeing, hr])
    (by simp) (by simp) ?_
  unfold SysOk
  simp only [Function.update_self]
  exact ⟨hcur, hhold, trivial, hwait, hparked.congr rfl rfl rfl rfl rfl rfl rfl⟩

theorem Goes.yieldAdd (h : Matches s a) (hr : (s.vpu v).regs = .sys u (.yieldAdd k))
    (hs : s.sysStep v u (.yieldAdd k) = some s') : Goes s' a := by
  obtain ⟨rfl, hm, hi, hb, hcur, hhold, hst, hwait, hparked⟩ := h.1.sysOk hr
  obtain rfl := Option.some.inj hs
  have hown : (s.vpu u).own = some k := by simp [Vpu.own, hr, SchedPc.arg]
  have hk : a.place k = .on u := (h.1.placed.own u k).mpr hown
  have hfree : ∀ w, (({ s with runq := s.runq ++ [k] }.jump u (.sys u .start)).vpu w).freeing = (s.vpu w).freeing :=
    freeing_update rfl (by simp [Vpu.freeing, hr])
  refine Goes.move (m := .yield u k) h (if_pos hk) ⟨?_, ?_, ?_, h.1.sound⟩
  · refine h.1.placed.leave (c := s.co k) hown rfl rfl (Function.update_eq_self k s.co).symm rfl (by simp) ?_
      ⟨hst, hwait, hparked⟩
    exact h.1.vpuOk hr rfl rfl rfl rfl ⟨hcur, hhold⟩
  · exact
      { unborn := h.1.listed.unborn_update (by simp [hk]) (by simp)
        claims := h.1.listed.claims.other (by simp [hk]) (by simp)
        readied := h.1.listed.readied.other (by simp [hk]) (by simp)
        runq := h.1.listed.runq.append (by simp [hk])
        nodup := h.1.listed.nodup
        live := fun j => (h.1.listed.live j).trans
          (Live.update_iff hfree (by simp [hk]) (by simp [hk]) (by simp) (by simp) j).symm }
  · refine h.1.handed.vpu rfl rfl ?_
    simp [Vpu.pending, hr]

/-- `core_exit` and `coroc_coroutine_deallocate`, up to the list. -/
theorem Fits.exitType (h : Fits s place) (hr : (s.vpu v).regs = .sys u (.exitType k))
    (hs : s.sysStep v u (.exitType k) = some s') : Fits s' place := by
  obtain ⟨rfl, hm, hi, hb, hsys⟩ := h.sysOk hr
  unfold State.sysStep at hs
  dsimp only at hs
  split at hs
  · obtain rfl := Option.some.inj hs
    exact ⟨h.placed.same rfl rfl rfl, h.listed.same (fun _ => rfl) rfl rfl rfl rfl rfl, h.handed.same rfl rfl,
      by simp [Sound, State.stop]⟩
  · obtain rfl := Option.some.inj hs
    exact h.sysVpu hr rfl (by simp [Vpu.own, hr, SchedPc.arg]) rfl rfl rfl rfl rfl (by simp [Vpu.freeing, hr]) (by simp)
      (by simp) hsys

theorem Fits.exitStatus (h : Fits s place) (hr : (s.vpu v).regs = .sys u (.exitStatus k))
    (hs : s.sysStep v u (.exitStatus k) = some s') : Fits s' place := by
  obtain ⟨rfl, hm, hi, hb, hcur, hhold, hst, hwait, hexe, hsk⟩ := h.sysOk hr
  unfold State.sysStep at hs
  dsimp only at hs
  rw [if_pos hst] at hs
  obtain rfl := Option.some.inj hs
  refine h.sysKeep hr rfl (by simp [Vpu.own, hr, SchedPc.arg]) rfl rfl rfl rfl rfl (by simp [Vpu.freeing, hr])
    (by simp) (by simp) ?_
  unfold SysOk
  simp only [Function.update_self]
  exact ⟨hcur, hhold, trivial, hwait, ⟨hexe.ran, hexe.returned⟩, hsk⟩

theorem own_of_freeing (hf : x.freeing = some k) : x.own = some k := by
  unfold Vpu.freeing at hf
  split at hf
  · rename_i j hr
    obtain rfl := Option.some.inj hf
    simp [Vpu.own, hr, SchedPc.arg]
  · cases hf

/-- The coroutine leaves `coroutine_list`. -/
theorem Fits.exitList (h : Fits s place) (hr : (s.vpu v).regs = .sys u (.exitList k))
    (hs : s.sysStep v u (.exitList k) = some s') : Fits s' place := by
  obtain ⟨rfl, hm, hi, hb, hsys⟩ := h.sysOk hr
  obtain rfl := Option.some.inj hs
  have hown : (s.vpu u).own = some k := by simp [Vpu.own, hr, SchedPc.arg]
  have hk : place k = .on u := (h.placed.own u k).mpr hown
  refine ⟨?_, ?_, ?_, h.sound⟩
  · refine h.placed.keep (c := s.co k) hown rfl rfl (Function.update_eq_self k s.co).symm rfl ?_
    rw [Function.update_eq_self]
    exact h.vpuOk hr rfl rfl rfl rfl hsys
  · refine ⟨h.listed.unborn, h.listed.claims, h.listed.readied, h.listed.runq, h.listed.nodup.erase k, ?_⟩
    intro j
    have hfree : ∀ w, (({ s with coroutineList := s.coroutineList.erase k }.jump u (.sys u (.exitFree k))).vpu w).freeing =
        if w = u then some k else (s.vpu w).freeing := by
      intro w
      unfold State.jump State.setVpu
      by_cases hw : w = u
      · subst hw
        simp [Vpu.freeing]
      · simp [hw]
    change j ∈ s.coroutineList.erase k ↔ _
    rw [h.listed.nodup.mem_erase_iff, h.listed.live]
    unfold Live
    simp only [hfree]
    constructor
    · rintro ⟨hj, hb, hx, hf⟩
      refine ⟨hb, hx, ?_⟩
      intro w
      by_cases hw : w = u
      · rw [if_pos hw]
        intro he
        exact hj (Option.some.inj he).symm
      · rw [if_neg hw]
        exact hf w
    · rintro ⟨hb, hx, hf⟩
      have hj : j ≠ k := by
        rintro rfl
        exact hf u (if_pos rfl)
      refine ⟨hj, hb, hx, ?_⟩
      intro w
      by_cases hw : w = u
      · subst hw
        simp [Vpu.freeing, hr]
      · have hfw := hf w
        rwa [if_neg hw] at hfw
  · refine h.handed.vpu rfl rfl ?_
    simp [Vpu.pending, hr]

/-- The stack is freed: the coroutine is no more. -/
theorem Goes.exitFree (h : Matches s a) (hr : (s.vpu v).regs = .sys u (.exitFree k))
    (hs : s.sysStep v u (.exitFree k) = some s') : Goes s' a := by
  obtain ⟨rfl, hm, hi, hb, hcur, hhold, hst, hwait, hexe, hsk⟩ := h.1.sysOk hr
  unfold State.sysStep at hs
  dsimp only at hs
  rw [if_pos hsk] at hs
  obtain rfl := Option.some.inj hs
  have hown : (s.vpu u).own = some k := by simp [Vpu.own, hr, SchedPc.arg]
  have hk : a.place k = .on u := (h.1.placed.own u k).mpr hown
  refine Goes.move (m := .exit u k) h (if_pos hk) ⟨?_, ?_, ?_, h.1.sound⟩
  · refine h.1.placed.leave hown rfl rfl rfl rfl (by simp) ?_ ⟨hst, hwait, ⟨hexe.ran, hexe.returned⟩, rfl⟩
    exact h.1.vpuOk hr rfl rfl rfl rfl ⟨hcur, hhold⟩
  · refine
      { unborn := h.1.listed.unborn_update (by simp [hk]) (by simp)
        claims := h.1.listed.claims.other (by simp [hk]) (by simp)
        readied := h.1.listed.readied.other (by simp [hk]) (by simp)
        runq := h.1.listed.runq.other (by simp [hk]) (by simp)
        nodup := h.1.listed.nodup
        live := ?_ }
    intro j
    have hfree : ∀ w, (((s.setCo k { s.co k with stack := false }).jump u (.sys u .start)).vpu w).freeing =
        if w = u then none else (s.vpu w).freeing := by
      intro w
      unfold State.jump State.setVpu
      by_cases hw : w = u
      · subst hw
        simp [Vpu.freeing]
      · simp [hw, State.setCo]
    change j ∈ s.coroutineList ↔ _
    rw [h.1.listed.live]
    unfold Live Life.leave
    simp only [hfree]
    by_cases hj : j = k
    · subst hj
      rw [Function.update_self]
      simp only [ne_eq, reduceCtorEq, not_false_eq_true, not_true_eq_false, false_and, and_false, iff_false, not_and,
        not_forall, not_not]
      intro _ _
      exact ⟨u, by simp [Vpu.freeing, hr]⟩
    · rw [Function.update_of_ne hj]
      refine and_congr_right fun _ => and_congr_right fun _ => forall_congr' fun w => ?_
      by_cases hw : w = u
      · subst hw
        simp [Vpu.freeing, hr, Ne.symm hj]
      · rw [if_neg hw]
  · refine h.1.handed.vpu rfl rfl ?_
    simp [Vpu.pending, hr, State.setCo]

/-! ### The dispatch -/

/-- A candidate is taken from a queue. -/
theorem Goes.elect (h : Matches s a) (hr : (s.vpu v).regs = .sys u .sched) (hk : k ∈ s.runq) :
    Goes ({ s with runq := s.runq.erase k }.jump v (.sys u (.mark k))) a := by
  obtain ⟨rfl, hm, hi, hb, hcur, hhold⟩ := h.1.sysOk hr
  have hplace : a.place k = .queued := (h.1.listed.runq.mem k).mp hk
  have hown : (s.vpu u).own = none := by simp [Vpu.own, hr, SchedPc.arg]
  have hrun : a.running u = none := by
    rw [Option.eq_none_iff_forall_not_mem]
    intro j hj
    have hp := (h.1.placed.own u j).mp ((h.2 u j).mpr hj)
    rw [hown] at hp
    cases hp
  have hrest := h.1.placed.rest k
  rw [hplace] at hrest
  obtain ⟨hst, hwait, hparked⟩ := hrest
  have hfree : ∀ w, (({ s with runq := s.runq.erase k }.jump u (.sys u (.mark k))).vpu w).freeing =
      (s.vpu w).freeing := freeing_update rfl (by simp [Vpu.freeing, hr])
  refine Goes.move (m := .dispatch u k) h (if_pos ⟨hplace, hrun⟩) ⟨?_, ?_, ?_, h.1.sound⟩
  · refine h.1.placed.take hown (by simp [hplace]) rfl rfl rfl rfl ?_
    exact h.1.vpuOk hr rfl rfl rfl rfl ⟨hcur, hhold, hst, hwait, hparked⟩
  · exact
      { unborn := h.1.listed.unborn_update (by simp [hplace]) (by simp)
        claims := h.1.listed.claims.other (by simp [hplace]) (by simp)
        readied := h.1.listed.readied.other (by simp [hplace]) (by simp)
        runq := h.1.listed.runq.erase (by simp)
        nodup := h.1.listed.nodup
        live := fun j => (h.1.listed.live j).trans
          (Live.update_iff hfree (by simp [hplace]) (by simp [hplace]) (by simp) (by simp) j).symm }
  · refine h.1.handed.vpu rfl rfl ?_
    simp [Vpu.pending, hr]

theorem Fits.mark (h : Fits s place) (hr : (s.vpu v).regs = .sys u (.mark k))
    (hs : s.sysStep v u (.mark k) = some s') : Fits s' place := by
  obtain ⟨rfl, hm, hi, hb, hcur, hhold, hst, hwait, hparked⟩ := h.sysOk hr
  obtain rfl := Option.some.inj hs
  refine h.sysKeep hr rfl (by simp [Vpu.own, hr, SchedPc.arg]) rfl rfl rfl rfl rfl (by simp [Vpu.freeing, hr])
    (by simp) (by simp) ?_
  unfold SysOk
  simp only [Function.update_self]
  exact ⟨hcur, hhold, trivial, trivial, hwait, hparked.congr rfl rfl rfl rfl rfl rfl rfl⟩

/-- `TSC_SIGNAL_STATE_LOAD`. -/
theorem Fits.loadNest (h : Fits s place) (hr : (s.vpu v).regs = .sys u (.loadNest k))
    (hs : s.sysStep v u (.loadNest k) = some s') : Fits s' place := by
  obtain ⟨rfl, hm, hi, hb, hcur, hhold, hst, hsys, hwait, hparked⟩ := h.sysOk hr
  obtain rfl := Option.some.inj hs
  exact h.sysVpu hr rfl (by simp [Vpu.own, hr, SchedPc.arg]) rfl rfl rfl rfl rfl (by simp [Vpu.freeing, hr]) (by simp)
    (by simp) ⟨hcur, hhold, hst, hsys, hwait, hparked, rfl⟩

theorem Fits.setCurrent (h : Fits s place) (hr : (s.vpu v).regs = .sys u (.setCurrent k))
    (hs : s.sysStep v u (.setCurrent k) = some s') : Fits s' place := by
  obtain ⟨rfl, hm, hi, hb, hcur, hhold, hst, hsys, hwait, hparked, hnest⟩ := h.sysOk hr
  obtain rfl := Option.some.inj hs
  exact h.sysVpu hr rfl (by simp [Vpu.own, hr, SchedPc.arg]) rfl rfl rfl rfl rfl (by simp [Vpu.freeing, hr]) (by simp)
    (by simp) ⟨rfl, hhold, hst, hsys, hwait, hparked, hnest⟩

/-- What is loaded is a context of the coroutine itself, and its code can go on. -/
theorem Parked.loaded (h : Parked timeshare k c) (hsys : c.syscall = false) (hwait : c.waiting = none)
    (hcur : x.current = some k) (hhold : x.hold = []) (hnest : x.nest = c.sigmaskNest) :
    ∃ ctx, c.ctx = some ctx ∧ ctx.stack = k ∧ (∀ ls u, ctx.code ≠ .base (.suspend ls u)) ∧
      ∀ x' : Vpu, x'.current = x.current → x'.hold = x.hold → x'.nest = x.nest → x'.blocked = ctx.blocked →
        CodeOk timeshare v k x' c ctx.code := by
  rcases h.context with hf | ⟨ret, n, blocked, hleft, hctx, hself, hnum, hpfn, hcm, hret⟩
  · refine ⟨_, hf.ctx, rfl, by simp, ?_⟩
    intro x' hc hh hn hb
    have hquiet : Quiet c := ⟨h.ran, by simp [hf.calls, hf.returned]⟩
    refine ⟨⟨hc.trans hcur, hquiet, hwait, hh.trans hhold⟩, fun _ => ⟨?_, hb⟩⟩
    rw [hn, hnest, hf.nest]
  · refine ⟨_, hctx, rfl, ?_, ?_⟩
    · intro ls u
      cases ret <;> simp [inCall]
    · intro x' hc hh hn hb
      rw [codeOk_inCall, hn, hb, hnest]
      exact ⟨⟨hself, hnum, hpfn, hc.trans hcur, .inr ⟨hsys, ⟨h.ran, hret⟩, hwait, hh.trans hhold⟩⟩, hcm⟩

/-- `TSC_CONTEXT_LOAD`: the VPU is on the stack of its candidate. -/
theorem Fits.load (h : Fits s place) (hr : (s.vpu v).regs = .sys u (.load k))
    (hs : s.sysStep v u (.load k) = some s') : Fits s' place := by
  obtain ⟨rfl, hm, hi, hb, hcur, hhold, hst, hsys, hwait, hparked, hnest⟩ := h.sysOk hr
  obtain ⟨ctx, hctx, hstack, hne, hcode⟩ := hparked.loaded (v := u) hsys hwait hcur hhold hnest
  unfold State.sysStep at hs
  simp only [hctx, hstack, hparked.stack, if_true, Option.some.injEq] at hs
  subst hs
  rw [← setCo_self s k]
  refine h.keep (by simp [Vpu.own, hr, SchedPc.arg]) rfl ?_ ?_ (by simp [Vpu.freeing, hr])
  · unfold VpuOk
    simp only [Function.update_self]
    exact ⟨hm, hi, hst, hparked.stack, hcode _ rfl rfl rfl rfl⟩
  · rw [pending_sys hr (by simp)]
    unfold Vpu.pending
    split
    · rename_i ls w heq
      exact absurd (Regs.co.inj heq).2 (hne ls w)
    · rename_i heq
      cases heq
    · rfl

theorem Fits.start (h : Fits s place) (hr : (s.vpu v).regs = .sys u .start)
    (hs : s.sysStep v u .start = some s') : Fits s' place := by
  obtain ⟨rfl, hm, hi, hb, hcur, hhold⟩ := h.sysOk hr
  obtain rfl := Option.some.inj hs
  refine h.sysIdle hr rfl (by simp [Vpu.own, hr, SchedPc.arg]) rfl rfl rfl rfl ?_ (by simp [Vpu.freeing, hr])
    ⟨hcur, hhold⟩
  simp [Vpu.pending, hr]

/-- **The system code.** -/
theorem Goes.sysStep (h : Matches s a) (hr : (s.vpu v).regs = .sys u pc) (hs : s.sysStep v u pc = some s') :
    Goes s' a := by
  cases pc with
  | resume => exact .stay h (h.1.resume hr hs)
  | waitStatus k => exact .waitStatus h hr hs
  | unlock ls =>
    cases ls with
    | nil => exact .stay h (h.1.unlocked hr hs)
    | cons l ls => exact .stay h (h.1.unlock hr hs)
  | yieldStatus k => exact .stay h (h.1.yieldStatus hr hs)
  | yieldAdd k => exact .yieldAdd h hr hs
  | exitType k => exact .stay h (h.1.exitType hr hs)
  | exitStatus k => exact .stay h (h.1.exitStatus hr hs)
  | exitList k => exact .stay h (h.1.exitList hr hs)
  | exitFree k => exact .exitFree h hr hs
  | start => exact .stay h (h.1.start hr hs)
  | sched => cases hs
  | mark k => exact .stay h (h.1.mark hr hs)
  | loadNest k => exact .stay h (h.1.loadNest hr hs)
  | setCurrent k => exact .stay h (h.1.setCurrent hr hs)
  | load k => exact .stay h (h.1.load hr hs)

/-- **The code of a VPU**, on whatever stack. -/
theorem Goes.vpuStep (h : Matches s a) (hs : s.vpuStep v = some s') : Goes s' a := by
  have hboot : ∀ {x'}, (s.vpu v).own = none → x'.own = none → VpuOk s.timeshare v x' s.co →
      x'.pending = (s.vpu v).pending → x'.freeing = (s.vpu v).freeing → Goes (s.setVpu v x') a := by
    intro x' hv hown hx hpend hfree
    exact .stay h ⟨h.1.placed.idle hv rfl rfl rfl hown hx,
      h.1.listed.same (freeing_update rfl hfree) rfl rfl rfl rfl rfl, h.1.handed.vpu rfl rfl hpend, h.1.sound⟩
  have hvpu := h.1.placed.vpu v
  unfold VpuOk at hvpu
  unfold State.vpuStep at hs
  dsimp only at hs
  rcases hr : (s.vpu v).regs with _ | _ | _ | _ | ⟨k, code⟩ | ⟨u, pc⟩ <;> rw [hr] at hs hvpu
  · obtain rfl := Option.some.inj hs
    exact hboot (by simp [Vpu.own, hr]) rfl ⟨rfl, hvpu.2.1, rfl, rfl⟩ (by simp [Vpu.pending, hr]) (by simp [Vpu.freeing, hr])
  · obtain rfl := Option.some.inj hs
    exact hboot (by simp [Vpu.own, hr]) rfl ⟨hvpu.1, hvpu.2.1, hvpu.2.2.1, hvpu.2.2.2, rfl⟩ (by simp [Vpu.pending, hr])
      (by simp [Vpu.freeing, hr])
  · dsimp only at hs hvpu
    split at hs
    · obtain rfl := Option.some.inj hs
      exact hboot (by simp [Vpu.own, hr]) rfl hvpu (by simp [Vpu.pending, hr]) (by simp [Vpu.freeing, hr])
    · cases hs
  · obtain rfl := Option.some.inj hs
    obtain ⟨hentry, hhold, hcur, hinit, hblocked⟩ := hvpu
    refine hboot (by simp [Vpu.own, hr]) (by simp [Vpu.own, hentry]) ?_ (by simp [Vpu.pending, hr])
      (by simp [Vpu.freeing, hr])
    exact ⟨rfl, by rw [hblocked], hinit, hblocked, hcur, by simp [hentry, hhold]⟩
  · exact .stay h (h.1.codeStep hr hs)
  · exact .sysStep h hr hs

/-! ### Locks and wake-ups -/

/-- The calls of a coroutine: what has been run is what was asked for, in this order, nothing returns
    before it has been run, and only the last call is on its way. -/
structure Counts (c : Co) : Prop where
  ran : c.ran <+: c.calls
  returned : c.returned ≤ c.ran.length
  calls : c.calls.length ≤ c.returned + 1

theorem Quiet.counts {c : Co} (h : Quiet c) : Counts c where
  ran := h.ran ▸ List.prefix_refl _
  returned := Nat.le_of_eq (by rw [← h.ran, h.returned])
  calls := Nat.le_succ_of_le (Nat.le_of_eq h.returned)

theorem Executed.counts {c : Co} (h : Executed c) : Counts c where
  ran := h.ran ▸ List.prefix_refl _
  returned := by
    rw [← h.ran, h.returned]
    exact Nat.le_succ _
  calls := Nat.le_of_eq h.returned

theorem Entered.counts {c : Co} {hold : List LockId} {f : SysFn} (h : Entered c hold f) : Counts c where
  ran := by
    rw [h.calls]
    exact List.prefix_append _ _
  returned := by
    have hlen := h.returned
    rw [h.calls, List.length_append, List.length_singleton] at hlen
    omega
  calls := Nat.le_of_eq h.returned

theorem Parked.counts {c : Co} (h : Parked timeshare k c) : Counts c := by
  rcases h.context with hf | ⟨ret, n, blocked, -, -, -, -, -, -, hret⟩
  · exact Quiet.counts ⟨h.ran, by simp [hf.calls, hf.returned]⟩
  · exact Executed.counts ⟨h.ran, hret⟩

/-- What is known of a coroutine that a VPU owns: if it has registered for a wake-up, the VPU has all the
    locks. -/
structure Owned (x : Vpu) (c : Co) : Prop where
  waiting : ∀ ls, c.waiting = some ls → x.pending = ls
  counts : Counts c
  stack : c.stack = true

theorem Owned.of_none {c : Co} (hw : c.waiting = none) (hc : Counts c) (hs : c.stack = true) : Owned x c where
  waiting := by
    intro ls hls
    rw [hw] at hls
    cases hls
  counts := hc
  stack := hs

theorem Owned.of_entered {c : Co} {f : SysFn} (h : Entered c x.hold f) (hpending : x.pending = x.hold)
    (hs : c.stack = true) : Owned x c where
  waiting := by
    intro ls hls
    rw [hpending]
    have hp := h.published
    cases f with
    | coreWait => exact Option.some.inj (hp.symm.trans hls)
    | coreYield | coreExit =>
      rw [hp.1] at hls
      cases hls
  counts := h.counts
  stack := hs

theorem CallOk.owned {ret : Option Frame} {n : SysCall} (h : CallOk v k x c ret n)
    (hr : x.regs = .co k (inCall ret n)) (hs : c.stack = true) : Owned x c := by
  have hpending := pending_inCall hr
  obtain ⟨pc, pfn, u, self, num⟩ := n
  obtain ⟨-, -, -, hpc⟩ := h
  cases pc with
  | flag => exact .of_entered hpc.2.2 hpending hs
  | saveNest | saveCtx => exact .of_entered hpc.2.2.1 hpending hs
  | test =>
    rcases hpc.2 with hin | ⟨-, hexe, hwait, -⟩
    · exact .of_entered hin.2.1 hpending hs
    · exact .of_none hwait hexe.counts hs
  | setEntry | setArguments => exact .of_entered hpc.2.2.1 hpending hs
  | setCurrent | load => exact .of_entered hpc.2.1 hpending hs

theorem Fits.owned (h : Fits s place) (hk : (s.vpu v).own = some k) : Owned (s.vpu v) (s.co k) := by
  rcases hr : (s.vpu v).regs with _ | _ | _ | _ | ⟨j, code⟩ | ⟨u, pc⟩
  · simp [Vpu.own, hr] at hk
  · simp [Vpu.own, hr] at hk
  · simp [Vpu.own, hr] at hk
  · simp [Vpu.own, hr] at hk
  · obtain rfl : j = k := by simpa [Vpu.own, hr] using hk
    obtain ⟨-, -, -, hstack, hcode⟩ := h.codeOk hr
    rcases code with f | ⟨hd, f⟩
    · cases f with
      | boot | user | masking | unmasking => exact .of_none hcode.1.waiting hcode.1.quiet.counts hstack
      | suspend ls u =>
        obtain ⟨-, -, -, hquiet, hwait, -⟩ := hcode
        refine ⟨?_, hquiet.counts, hstack⟩
        intro ms hms
        rw [hwait] at hms
        simp [Vpu.pending, hr, Option.some.inj hms]
      | syscall n => exact CallOk.owned hcode.1 hr hstack
    · cases hd with
      | tick | done => exact .of_none hcode.1.waiting hcode.1.quiet.counts hstack
      | syscall n => exact CallOk.owned hcode.1 hr hstack
  · obtain ⟨-, -, -, -, hsys⟩ := h.sysOk hr
    cases pc with
    | resume =>
      obtain ⟨-, hent⟩ := hsys
      rcases he : (s.vpu v).entry with _ | f
      · simp [Vpu.own, hr, he] at hk
      · obtain rfl : (s.vpu v).arguments = k := by simpa [Vpu.own, hr, he] using hk
        rw [he] at hent
        exact .of_entered hent.2.2.1 (pending_sys hr (by simp)) hent.2.1
    | waitStatus j =>
      obtain rfl : j = k := by simpa [Vpu.own, hr, SchedPc.arg] using hk
      obtain ⟨-, hwait, hparked⟩ := hsys
      refine ⟨?_, hparked.counts, hparked.stack⟩
      intro ls hls
      rw [pending_sys hr (by simp)]
      exact Option.some.inj (hwait.symm.trans hls)
    | unlock ms => simp [Vpu.own, hr, SchedPc.arg] at hk
    | start => simp [Vpu.own, hr, SchedPc.arg] at hk
    | sched => simp [Vpu.own, hr, SchedPc.arg] at hk
    | yieldStatus j =>
      obtain rfl : j = k := by simpa [Vpu.own, hr, SchedPc.arg] using hk
      exact .of_none hsys.2.2.1 hsys.2.2.2.counts hsys.2.2.2.stack
    | exitType j | exitStatus j | exitList j | exitFree j =>
      obtain rfl : j = k := by simpa [Vpu.own, hr, SchedPc.arg] using hk
      obtain ⟨-, -, -, hwait, hexe, hstack⟩ := hsys
      exact .of_none hwait hexe.counts hstack
    | yieldAdd j | mark j =>
      obtain rfl : j = k := by simpa [Vpu.own, hr, SchedPc.arg] using hk
      obtain ⟨-, -, -, hwait, hparked⟩ := hsys
      exact .of_none hwait hparked.counts hparked.stack
    | loadNest j =>
      obtain rfl : j = k := by simpa [Vpu.own, hr, SchedPc.arg] using hk
      obtain ⟨-, -, -, -, hwait, hparked⟩ := hsys
      exact .of_none hwait hparked.counts hparked.stack
    | setCurrent j | load j =>
      obtain rfl : j = k := by simpa [Vpu.own, hr, SchedPc.arg] using hk
      obtain ⟨-, -, -, -, hwait, hparked, -⟩ := hsys
      exact .of_none hwait hparked.counts hparked.stack

/-- **Who can be claimed sleeps**, with its context saved: a thread that has one of its locks has got it
    back from the VPU. -/
theorem Fits.asleep_of_claim (h : Fits s place) {l : LockId} {o : Holder} (ho : ∀ v, o ≠ .handed v)
    (hl : s.owner l = some o) (hw : l ∈ (s.co k).waiting.getD []) : place k = .asleep := by
  have hrest := h.placed.rest k
  rcases hls : (s.co k).waiting with _ | ls
  · simp [hls] at hw
  rw [hls, Option.getD_some] at hw
  rcases hp : place k with _ | _ | _ | _ | v | _ | _ <;> rw [hp] at hrest
  · rw [hrest.1] at hls
    cases hls
  · rw [hrest.2.1] at hls
    cases hls
  · rw [hrest.2.1] at hls
    cases hls
  · rw [hrest.2.1] at hls
    cases hls
  · have hpending := (h.owned ((h.placed.own v k).mp hp)).waiting ls hls
    rw [← hpending] at hw
    have hown := (h.handed.owner l v).mpr hw
    rw [hl] at hown
    exact absurd (Option.some.inj hown) (ho v)
  · rw [hrest.2.1] at hls
    cases hls

theorem Goes.lockStep (h : Matches s a) {o : Holder} (ho : ∀ v, o ≠ .handed v) {b : LockAct}
    (hs : s.lockStep o b = some s') : Goes s' a := by
  cases b with
  | acquire l =>
    simp only [State.lockStep, Option.ite_none_right_eq_some, Option.some.injEq] at hs
    obtain ⟨hl, rfl⟩ := hs
    refine .stay h ⟨h.1.placed.same rfl rfl rfl, h.1.listed.same (fun _ => rfl) rfl rfl rfl rfl rfl, ?_, h.1.sound⟩
    exact h.1.handed.setOwner rfl rfl (by simp [hl]) (by simpa using ho)
  | release l =>
    simp only [State.lockStep, Option.ite_none_right_eq_some, Option.some.injEq] at hs
    obtain ⟨hl, rfl⟩ := hs
    refine .stay h ⟨h.1.placed.same rfl rfl rfl, h.1.listed.same (fun _ => rfl) rfl rfl rfl rfl rfl, ?_, h.1.sound⟩
    exact h.1.handed.setOwner rfl rfl (by simpa [hl] using ho) (by simp)
  | claim l k =>
    simp only [State.lockStep, Option.ite_none_right_eq_some, Option.some.injEq] at hs
    obtain ⟨⟨hl, hw⟩, rfl⟩ := hs
    have hk := h.1.asleep_of_claim ho hl hw
    have hrest := h.1.placed.rest k
    rw [hk] at hrest
    obtain ⟨hst, -, hparked⟩ := hrest
    refine Goes.move (m := .wake k) h (if_pos hk) ⟨?_, ?_, h.1.handed.same rfl rfl, h.1.sound⟩
    · exact h.1.placed.move (by simp [hk]) rfl rfl rfl (by simp)
        ⟨hst, rfl, hparked.congr rfl rfl rfl rfl rfl rfl rfl⟩
    · exact
        { unborn := h.1.listed.unborn_update (by simp [hk]) (by simp)
          claims := h.1.listed.claims.append (by simp [hk])
          readied := h.1.listed.readied.other (by simp [hk]) (by simp)
          runq := h.1.listed.runq.other (by simp [hk]) (by simp)
          nodup := h.1.listed.nodup
          live := fun j => (h.1.listed.live j).trans
            (Live.update_iff (fun _ => rfl) (by simp [hk]) (by simp [hk]) (by simp) (by simp) j).symm }

/-- **`vpu_ready` finds the coroutine waiting.** -/
theorem Goes.ready (h : Matches s a) (hk : k ∈ s.claims) : Goes (s.ready k) a := by
  have hplace : a.place k = .claimed := (h.1.listed.claims.mem k).mp hk
  have hrest := h.1.placed.rest k
  rw [hplace] at hrest
  obtain ⟨hst, hwait, hparked⟩ := hrest
  unfold State.ready
  rw [if_pos hst]
  refine Goes.move (m := .ready k) h (if_pos hplace) ⟨?_, ?_, h.1.handed.same rfl rfl, h.1.sound⟩
  · exact h.1.placed.move (by simp [hplace]) rfl rfl rfl (by simp)
      ⟨rfl, hwait, hparked.congr rfl rfl rfl rfl rfl rfl rfl⟩
  · exact
      { unborn := h.1.listed.unborn_update (by simp [hplace]) (by simp)
        claims := h.1.listed.claims.erase (by simp)
        readied := h.1.listed.readied.append (by simp [hplace])
        runq := h.1.listed.runq.other (by simp [hplace]) (by simp)
        nodup := h.1.listed.nodup
        live := fun j => (h.1.listed.live j).trans
          (Live.update_iff (fun _ => rfl) (by simp [hplace]) (by simp [hplace]) (by simp) (by simp) j).symm }

theorem Goes.enqueue (h : Matches s a) (hk : k ∈ s.readied) :
    Goes { s with readied := s.readied.erase k, runq := s.runq ++ [k] } a := by
  have hplace : a.place k = .readied := (h.1.listed.readied.mem k).mp hk
  have hrest := h.1.placed.rest k
  rw [hplace] at hrest
  refine Goes.move (m := .enqueue k) h (if_pos hplace) ⟨?_, ?_, h.1.handed.same rfl rfl, h.1.sound⟩
  · exact h.1.placed.move (by simp [hplace]) rfl rfl (Function.update_eq_self k s.co).symm (by simp) hrest
  · exact
      { unborn := h.1.listed.unborn_update (by simp [hplace]) (by simp)
        claims := h.1.listed.claims.other (by simp [hplace]) (by simp)
        readied := h.1.listed.readied.erase (by simp)
        runq := h.1.listed.runq.append (by simp [hplace])
        nodup := h.1.listed.nodup
        live := fun j => (h.1.listed.live j).trans
          (Live.update_iff (fun _ => rfl) (by simp [hplace]) (by simp [hplace]) (by simp) (by simp) j).symm }

/-! ### What a coroutine does by itself -/

/-- `coroc_coroutine_allocate`. -/
theorem Goes.allocate (h : Matches s a) (type : CoType) : Goes (s.allocate type) a := by
  have hplace : a.place (s.lastPid + 1) = .unborn := (h.1.listed.unborn _).mpr (.inr (Nat.lt_succ_self _))
  have hnew : s.lastPid + 1 ∉ s.coroutineList := by
    intro hmem
    exact ((h.1.listed.live _).mp hmem).1 hplace
  refine Goes.move (m := .create (s.lastPid + 1)) h (if_pos hplace) ⟨?_, ?_, h.1.handed.same rfl rfl, h.1.sound⟩
  · exact h.1.placed.move (by simp [hplace]) rfl rfl rfl (by simp)
      ⟨rfl, rfl, .inl ⟨rfl, rfl, rfl, rfl, rfl⟩, rfl, rfl⟩
  · refine
      { unborn := ?_
        claims := h.1.listed.claims.append (by simp [hplace])
        readied := h.1.listed.readied.other (by simp [hplace]) (by simp)
        runq := h.1.listed.runq.other (by simp [hplace]) (by simp)
        nodup := ?_
        live := ?_ }
    · intro j
      change Function.update a.place (s.lastPid + 1) .claimed j = .unborn ↔ j = 0 ∨ s.lastPid + 1 < j
      by_cases hj : j = s.lastPid + 1
      · subst hj
        simp
      · rw [Function.update_of_ne hj, h.1.listed.unborn]
        refine or_congr_right ?_
        rcases Nat.lt_or_gt_of_ne hj with hlt | hgt
        · omega
        · omega
    · change (s.coroutineList ++ [s.lastPid + 1]).Nodup
      rw [List.nodup_append]
      refine ⟨h.1.listed.nodup, by simp, ?_⟩
      intro i hi j hj hij
      rw [List.mem_singleton] at hj
      subst hj hij
      exact hnew hi
    · intro j
      change j ∈ s.coroutineList ++ [s.lastPid + 1] ↔ _
      rw [List.mem_append, List.mem_singleton, h.1.listed.live]
      unfold Live
      change _ ↔ Function.update a.place (s.lastPid + 1) .claimed j ≠ .unborn ∧
        Function.update a.place (s.lastPid + 1) .claimed j ≠ .exited ∧ ∀ v, (s.vpu v).freeing ≠ some j
      by_cases hj : j = s.lastPid + 1
      · subst hj
        simp only [or_true, Function.update_self, ne_eq, reduceCtorEq, not_false_eq_true, true_and, true_iff]
        intro w hf
        have hown : (s.vpu w).own = some (s.lastPid + 1) := own_of_freeing hf
        rw [← h.1.placed.own, hplace] at hown
        cases hown
      · rw [Function.update_of_ne hj]
        simp [hj]

/-- What is known of a VPU that executes a coroutine's own code. -/
theorem Fits.userOk (h : Fits s place) (hr : (s.vpu v).regs = .co k (.base .user)) :
    Free k (s.vpu v) (s.co k) ∧ (s.vpu v).pending = (s.vpu v).hold ∧
      (s.timeshare = true → ((s.vpu v).blocked = true ↔ 0 < (s.vpu v).nest)) := by
  obtain ⟨-, -, -, -, hfree, hm⟩ := h.codeOk hr
  refine ⟨hfree, ?_, hm⟩
  rw [hfree.pending hr (by simp), hfree.hold]

/-- A call of `vpu_syscall` where the signal is masked. -/
theorem Fits.userCall (h : Fits s place) (hr : (s.vpu v).regs = .co k (.base .user)) {f : SysFn}
    (hf : f = .coreYield ∨ f = .coreExit) (hmasked : s.timeshare = true → 0 < (s.vpu v).nest) :
    Fits (s.beginCall v k (fun c => .base (.syscall c)) f) place := by
  obtain ⟨hfree, hpending, hm⟩ := h.userOk hr
  rw [← setVpu_self s v]
  refine h.beginCall none hr rfl rfl hfree.current hfree.quiet ?_ (by simp) ?_ hpending.symm
  · rcases hf with rfl | rfl
    · exact ⟨hfree.waiting, hfree.hold⟩
    · exact ⟨hfree.waiting, hfree.hold⟩
  · intro hts
    exact ⟨hmasked hts, (hm hts).mpr (hmasked hts)⟩

/-- `vpu_suspend` is called: the locks are the VPU's from here on. -/
theorem Fits.suspend (h : Fits s place) (hr : (s.vpu v).regs = .co k (.base .user)) {ls : List LockId}
    (hnodup : ls.Nodup) (hls : ∀ l ∈ ls, s.owner l = some (.co k))
    (hmasked : s.timeshare = true → 0 < (s.vpu v).nest) :
    Fits (((s.handOver v ls).setCo k { s.co k with waiting := some ls }).jump v (.co k (.base (.suspend ls v)))) place := by
  obtain ⟨hfree, hpending, hm⟩ := h.userOk hr
  obtain ⟨hmask, hinit, hst, hsk, -⟩ := h.codeOk hr
  refine ⟨?_, ?_, ?_, h.sound⟩
  · refine h.placed.keep (by simp [Vpu.own, hr]) rfl rfl rfl rfl ?_
    unfold VpuOk
    simp only [Function.update_self]
    refine ⟨hmask, hinit, hst, hsk, rfl, hfree.current, hfree.hold, ⟨hfree.quiet.ran, hfree.quiet.returned⟩, rfl, ?_⟩
    intro hts
    exact ⟨hmasked hts, (hm hts).mpr (hmasked hts)⟩
  · exact h.listed.same (freeing_update rfl (by simp [Vpu.freeing, hr])) rfl rfl rfl rfl rfl
  · rw [hfree.hold] at hpending
    have hpend : ∀ w, ((((s.handOver v ls).setCo k { s.co k with waiting := some ls }).jump v
        (.co k (.base (.suspend ls v)))).vpu w).pending = if w = v then ls else (s.vpu w).pending := by
      intro w
      unfold State.jump State.setVpu
      by_cases hw : w = v
      · subst hw
        simp [Vpu.pending]
      · simp [hw, State.setCo, State.handOver]
    constructor
    · intro w
      rw [hpend]
      split
      · exact hnodup
      · exact h.handed.nodup w
    · intro l w
      rw [hpend]
      change (if l ∈ ls then some (Holder.handed v) else s.owner l) = _ ↔ _
      have howner := h.handed.owner l w
      by_cases hl : l ∈ ls
      · rw [hls l hl] at howner
        rw [if_pos hl]
        by_cases hw : w = v
        · subst hw
          simp [hl]
        · rw [if_neg hw, ← howner]
          simp [Ne.symm hw]
      · rw [if_neg hl]
        by_cases hw : w = v
        · subst hw
          rw [if_pos rfl, howner, hpending]
          simp [hl]
        · rw [if_neg hw]
          exact howner

/-- **A coroutine's own code.** -/
theorem Goes.actStep (h : Matches s a) (hr : (s.vpu v).regs = .co k (.base .user)) {b : Act}
    (hok : Masked s (.act v b)) (hs : s.actStep v k b = some s') : Goes s' a := by
  obtain ⟨hfree, hpending, hm⟩ := h.1.userOk hr
  cases b with
  | mask =>
    unfold State.actStep at hs
    dsimp only at hs
    split at hs
    · rename_i hnest
      obtain rfl := Option.some.inj hs
      refine .stay h (h.1.moveVpu hr rfl rfl rfl ⟨hfree.congr rfl rfl, ?_⟩ hpending.symm)
      intro hts
      refine ⟨rfl, ?_⟩
      have hb := hm hts
      rw [hnest] at hb
      simpa using hb
    · rename_i hnest
      obtain rfl := Option.some.inj hs
      refine .stay h (h.1.moveVpu hr hr rfl rfl ⟨hfree.congr rfl rfl, ?_⟩ ?_)
      · intro hts
        have hb := (hm hts).mpr (Nat.pos_of_ne_zero hnest)
        exact iff_of_true hb (Nat.succ_pos _)
      · simp [Vpu.pending, hr]
  | unmask =>
    unfold State.actStep at hs
    dsimp only at hs
    split at hs
    · cases hs
    rename_i hnest
    split at hs
    · obtain rfl := Option.some.inj hs
      refine .stay h (h.1.moveVpu hr rfl rfl rfl ⟨hfree.congr rfl rfl, ?_⟩ hpending.symm)
      intro hts
      exact ⟨rfl, (hm hts).mpr (Nat.pos_of_ne_zero hnest)⟩
    · rename_i hone
      obtain rfl := Option.some.inj hs
      refine .stay h (h.1.moveVpu hr hr rfl rfl ⟨hfree.congr rfl rfl, ?_⟩ ?_)
      · intro hts
        have hb := (hm hts).mpr (Nat.pos_of_ne_zero hnest)
        refine iff_of_true hb ?_
        change 0 < (s.vpu v).nest - 1
        omega
      · simp [Vpu.pending, hr]
  | acquire l => exact .lockStep (o := .co k) (b := .acquire l) h (by simp) hs
  | release l => exact .lockStep (o := .co k) (b := .release l) h (by simp) hs
  | claim l j => exact .lockStep (o := .co k) (b := .claim l j) h (by simp) hs
  | allocate =>
    obtain rfl := Option.some.inj hs
    exact .allocate h .normal
  | suspend ls =>
    simp only [State.actStep, Option.ite_none_right_eq_some, Option.some.injEq] at hs
    obtain ⟨⟨hnodup, hls⟩, rfl⟩ := hs
    exact .stay h (h.1.suspend hr hnodup hls hok)
  | yield =>
    obtain rfl := Option.some.inj hs
    exact .stay h (h.1.userCall hr (.inl rfl) hok)
  | exit =>
    obtain ⟨-, -, hst, -, -⟩ := h.1.codeOk hr
    unfold State.actStep at hs
    simp only [hfree.current, hst, if_true, Option.some.injEq] at hs
    subst hs
    exact .stay h (h.1.userCall hr (.inr rfl) hok)

/-! ### All steps -/

/-- **One step of the model** is at most one move of the specification. -/
theorem matches_step {l : Label} (h : Matches s a) (hok : Masked s l) (hs : step s l = some s') : Goes s' a := by
  unfold step at hs
  split at hs
  · cases hs
  cases l with
  | vpu v =>
    simp only [Option.ite_none_right_eq_some] at hs
    exact .vpuStep h hs.2
  | act v b =>
    dsimp only at hs
    split at hs
    · rename_i k hr
      exact .actStep h hr hok hs
    · cases hs
  | elect v k =>
    dsimp only at hs
    split at hs
    · rename_i u hr
      simp only [Option.ite_none_right_eq_some, Option.some.injEq] at hs
      obtain ⟨hk, rfl⟩ := hs
      exact .elect h hr hk
    · cases hs
  | ready k =>
    simp only [Option.ite_none_right_eq_some, Option.some.injEq] at hs
    obtain ⟨hk, rfl⟩ := hs
    exact .ready h hk
  | enqueue k =>
    simp only [Option.ite_none_right_eq_some, Option.some.injEq] at hs
    obtain ⟨hk, rfl⟩ := hs
    exact .enqueue h hk
  | signal v =>
    simp only [Option.ite_none_right_eq_some, Option.some.injEq, Bool.and_eq_true, Bool.not_eq_true',
      decide_eq_true_eq] at hs
    obtain ⟨⟨⟨⟨hts, hopen⟩, hv⟩, hb⟩, rfl⟩ := hs
    exact .stay h (h.1.deliver hv hts hopen hb)
  | main =>
    obtain rfl := Option.some.inj hs
    exact .stay h ⟨h.1.placed.same rfl rfl rfl, h.1.listed.same (fun _ => rfl) rfl rfl rfl rfl rfl,
      h.1.handed.same rfl rfl, h.1.sound⟩
  | other n b => exact .lockStep h (by simp) hs

theorem initial_fits (timeshare : Bool) (nvpu : Nat) : Fits (initial timeshare nvpu) Life.firstPlace where
  placed :=
    { own := by
        intro v k
        unfold Life.firstPlace
        split <;> simp [initial, State.allocate, State.setCo, Vpu.own, offVpu]
      vpu := fun v => ⟨rfl, rfl, rfl⟩
      rest := by
        intro k
        unfold Life.firstPlace
        split
        · rename_i hk
          subst hk
          exact ⟨rfl, rfl, .inl ⟨rfl, rfl, rfl, rfl, rfl⟩, rfl, rfl⟩
        · rename_i hk
          have hco : (initial timeshare nvpu).co k = unbornCo := Function.update_of_ne hk _ _
          rw [hco]
          exact ⟨rfl, rfl, rfl⟩ }
  listed :=
    { unborn := by
        intro k
        unfold Life.firstPlace
        change _ ↔ k = 0 ∨ 0 + 1 < k
        split
        · rename_i hk
          subst hk
          simp
        · rename_i hk
          simp only [true_iff]
          rcases Nat.lt_or_gt_of_ne hk with hlt | hgt
          · exact .inl (Nat.lt_one_iff.mp hlt)
          · exact .inr hgt
      claims := ⟨by simp [initial, State.allocate],
        fun k => by simp [initial, State.allocate, Life.firstPlace]⟩
      readied := ⟨List.nodup_nil,
        fun k => by simp [initial, State.allocate, State.setCo, Life.firstPlace_ne]⟩
      runq := ⟨List.nodup_nil,
        fun k => by simp [initial, State.allocate, State.setCo, Life.firstPlace_ne]⟩
      nodup := by simp [initial, State.allocate]
      live := by
        intro k
        have hx : Life.firstPlace k ≠ .exited := Life.firstPlace_ne (by simp) (by simp)
        have hu : ¬ Life.firstPlace k = .unborn ↔ k = 1 := by simp [Life.firstPlace]
        simp [initial, State.allocate, State.setCo, Live, Vpu.freeing, offVpu, hx, hu] }
  handed :=
    { nodup := fun v => List.nodup_nil
      owner := fun l v => by simp [initial, State.allocate, State.setCo, Vpu.pending, offVpu] }
  sound := by simp [Sound, initial, State.allocate, State.setCo]

/-- **Switching contexts refines the specification**: every step of every run is a step of a run of it,
    or nothing. -/
theorem simulates : Simulates step Masked Initial Life.move Life.Start Matches where
  starts := by
    rintro s ⟨timeshare, nvpu, rfl⟩
    exact ⟨.first, rfl, initial_fits timeshare nvpu, Life.Start.coherent rfl⟩
  steps s a l s' h hok hs := matches_step h hok hs

end Coroc.Switch
