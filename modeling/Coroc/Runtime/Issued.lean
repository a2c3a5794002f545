import Coroc.Runtime.Safety

/-!
# The commands a program contains

`Prog.Issues φ ψ` says that a program only issues commands of `φ` as long as the results
are among `ψ`.  For a property of the channel commands, the operations that do not use
channels hold nothing to look at (`body_contains`), so it is shown for the four channel
operations only.  The timer daemon sends on channels.
-/

namespace Coroc.Runtime

open Coroc.Program

/-! ### The other operations -/

/-- A command that is not about channels. -/
def Cmd.other : Cmd → Prop
  | .chan _ => False
  | _ => True

section
variable {φ : Cmd → Prop} {ψ : (c : Cmd) → c.Res → Prop} (hq : ∀ c : Cmd, c.other → φ c)
include hq

theorem vpuReady_contains (d : Coid) (preempt : Bool) : (vpuReady d preempt).Issues φ ψ fun _ => True := by
  refine ⟨hq _ trivial, fun _ _ => ?_⟩
  cases preempt with
  | false => trivial
  | true =>
    refine ⟨hq _ trivial, fun b _ => ?_⟩
    cases b with
    | false => trivial
    | true => exact ⟨hq _ trivial, fun _ _ => trivial⟩

theorem lockChainAcquire_contains (chain : List ChanId) :
    (lockChainAcquire chain).Issues φ ψ fun _ => True := by
  induction chain with
  | nil => trivial
  | cons c cs ih => exact ⟨hq _ trivial, fun _ _ => ih⟩

theorem lockChainRelease_contains (chain : List ChanId) :
    (lockChainRelease chain).Issues φ ψ fun _ => True := by
  induction chain with
  | nil => trivial
  | cons c cs ih => exact ⟨hq _ trivial, fun _ _ => ih⟩

theorem groupNotify_contains (g : GroupId) (retval : Nat) :
    (groupNotify g retval).Issues φ ψ fun _ => True := by
  unfold groupNotify
  split
  on_goal 1 => refine ⟨hq _ trivial, fun _ _ => ?_⟩
  -- the count has been taken care of, and both ways go on with the last of the group
  all_goals
    refine ⟨hq _ trivial, fun (n : Nat) _ => ?_⟩
    change Prog.Issues φ ψ (if n = 0 then _ else _) fun _ => True
    split
    · refine ⟨hq _ trivial, fun _ _ => ⟨hq _ trivial, fun parent _ => ⟨hq _ trivial, fun _ _ => ?_⟩⟩⟩
      cases parent with
      | some p => exact vpuReady_contains hq p true
      | none => trivial
    · trivial

theorem groupSync_contains (g : GroupId) : (groupSync g).Issues φ ψ fun _ => True := by
  refine ⟨hq _ trivial, fun (n : Nat) _ => ?_⟩
  change Prog.Issues φ ψ (if n > 0 then _ else _) fun _ => True
  split
  · refine ⟨hq _ trivial, fun _ _ => ⟨hq _ trivial, fun (n' : Nat) _ => ?_⟩⟩
    change Prog.Issues φ ψ (if n' > 0 then _ else _) fun _ => True
    split
    · exact ⟨hq _ trivial, fun _ _ => ⟨hq _ trivial, fun _ _ => ⟨hq _ trivial, fun _ _ => trivial⟩⟩⟩
    · exact ⟨hq _ trivial, fun _ _ => trivial⟩
  · exact ⟨hq _ trivial, fun _ _ => trivial⟩

theorem asyncRequestSubmit_contains : asyncRequestSubmit.Issues φ ψ fun _ => True := by
  refine ⟨hq _ trivial, fun threads _ => ?_⟩
  cases threads with
  | false => trivial
  | true => exact ⟨hq _ trivial, fun _ _ => ⟨hq _ trivial, fun _ _ => ⟨hq _ trivial, fun _ _ => trivial⟩⟩⟩

theorem notifyTsleepU_contains (ns : Int64) : (notifyTsleepU ns).Issues φ ψ fun _ => True := by
  unfold notifyTsleepU
  split
  · exact asyncRequestSubmit_contains hq
  · trivial

theorem asyncThreadRoutine_contains : asyncThreadRoutine.Issues φ ψ fun _ => True := by
  refine ⟨hq _ trivial, fun _ _ => Prog.Issues.loop ?_ fun _ => trivial⟩
  refine Prog.Issues.loop ⟨hq _ trivial, fun status _ => ?_⟩
    fun _ => ⟨hq _ trivial, fun wait _ => ⟨hq _ trivial, fun _ _ => ?_⟩⟩
  · cases status with
    | true => trivial
    | false => exact ⟨hq _ trivial, fun _ _ => ⟨hq _ trivial, fun _ _ => trivial⟩⟩
  · cases wait with
    | some d => exact (vpuReady_contains hq d false).bind fun _ _ => ⟨hq _ trivial, fun _ _ => trivial⟩
    | none => exact ⟨hq _ trivial, fun _ _ => trivial⟩

theorem coroutineAllocate_contains (priority : Nat) (role : Role) :
    (coroutineAllocate priority role).Issues φ ψ fun _ => True :=
  ⟨hq _ trivial, fun d _ => (vpuReady_contains hq d true).bind fun _ _ => trivial⟩

theorem addIntertimer_contains (tm : TimerId) : (addIntertimer tm).Issues φ ψ fun _ => True := by
  refine ⟨hq _ trivial, fun _ _ => ⟨hq _ trivial, fun (size : Nat) _ => ⟨hq _ trivial, fun daemon _ => ?_⟩⟩⟩
  cases daemon with
  | none =>
    refine Prog.Issues.bind (p := intertimerStart) (ρ := fun _ => True) ?_ fun _ _ => ⟨hq _ trivial, fun _ _ => trivial⟩
    exact (coroutineAllocate_contains hq prioHigh .timer).bind fun d _ => ⟨hq _ trivial, fun _ _ => trivial⟩
  | some daemon =>
    change Prog.Issues φ ψ (if size = 0 then _ else _) fun _ => True
    split
    · refine ⟨hq _ trivial, fun suspend _ => ?_⟩
      cases suspend with
      | true => exact ⟨hq _ trivial, fun _ _ => ⟨hq _ trivial, fun _ _ => vpuReady_contains hq daemon true⟩⟩
      | false => exact ⟨hq _ trivial, fun _ _ => trivial⟩
    · exact ⟨hq _ trivial, fun _ _ => trivial⟩

theorem timerStop_contains (c : ChanId) : (timerStop c).Issues φ ψ fun _ => True :=
  ⟨hq _ trivial, fun _ _ => ⟨hq _ trivial, fun _ _ => ⟨hq _ trivial, fun _ _ => trivial⟩⟩⟩

theorem netpollTimeout_contains (d : DescId) : (netpollTimeout d).Issues φ ψ fun _ => True := by
  refine ⟨hq _ trivial, fun _ _ => ⟨hq _ trivial, fun succ _ => ?_⟩⟩
  cases succ with
  | true =>
    refine ⟨hq _ trivial, fun _ _ => ⟨hq _ trivial, fun _ _ => ⟨hq _ trivial, fun _ _ => ⟨hq _ trivial, fun wait _ => ?_⟩⟩⟩⟩
    exact vpuReady_contains hq wait true
  | false => exact ⟨hq _ trivial, fun _ _ => trivial⟩

section
variable (hsend : ∀ k c w, (sendTimer k c w).Issues φ ψ fun _ => True)
include hsend

theorem timerAt_contains (k : Coid) (c : ChanId) (w : UInt64) :
    (timerAt k c w).Issues φ ψ fun _ => True := by
  refine ⟨hq _ trivial, fun _ _ => ⟨hq _ trivial, fun (now : UInt64) _ => ?_⟩⟩
  change Prog.Issues φ ψ (if w ≤ now then _ else _) fun _ => True
  split
  · exact hsend k c w
  · exact addIntertimer_contains hq (.chan c)

theorem fireDue_contains (k : Coid) (now : UInt64) : (fireDue k now).Issues φ ψ fun _ => True := by
  refine Prog.Issues.loop ⟨hq _ trivial, fun (size : Nat) _ => ?_⟩ fun _ => trivial
  change Prog.Issues φ ψ (if size > 0 then _ else _) fun _ => True
  split
  · refine ⟨hq _ trivial, fun root _ => ?_⟩
    obtain ⟨tm, w⟩ := root
    change Prog.Issues φ ψ (if w ≤ now then _ else _) fun _ => True
    split
    · refine Prog.Issues.bind (p := timerFunc k tm w) (ρ := fun _ => True) ?_
        fun _ _ => ⟨hq _ trivial, fun _ _ => trivial⟩
      cases tm with
      | chan c => exact hsend k c w
      | desc d => exact netpollTimeout_contains hq d
    · trivial
  · trivial

theorem intertimerRoutine_contains (k : Coid) : (intertimerRoutine k).Issues φ ψ fun _ => True := by
  refine Prog.Issues.loop ⟨hq _ trivial, fun _ _ => ⟨hq _ trivial, fun now _ => ?_⟩⟩ fun _ => trivial
  refine Prog.Issues.bind (p := fireDue k now) (fireDue_contains hq hsend k now) fun _ _ => ⟨hq _ trivial, fun (size : Nat) _ => ?_⟩
  change Prog.Issues φ ψ (if size = 0 then _ else _) fun _ => True
  split
  · exact ⟨hq _ trivial, fun _ _ => ⟨hq _ trivial, fun _ _ => trivial⟩⟩
  · refine ⟨hq _ trivial, fun _ _ => ⟨hq _ trivial, fun _ _ => ⟨hq _ trivial, fun notify _ => ?_⟩⟩⟩
    cases notify with
    | true => exact (notifyTsleepU_contains hq _).bind fun _ _ => trivial
    | false => exact ⟨hq _ trivial, fun _ _ => trivial⟩

/-- The commands of every operation, given those of the channel operations. -/
theorem body_contains {t : Tid} {a : Call} {s : State} (hok : okCall t a s)
    (hcall : ∀ k, t = .co k → match a with
      | .chanSend c x block => (chanSend k c x block).Issues φ ψ fun _ => True
      | .chanRecv c x block => (chanRecv k c x block).Issues φ ψ fun _ => True
      | .chanClose c => (chanClose c).Issues φ ψ fun _ => True
      | .select cases chain block => (chanSetSelect k cases chain block).Issues φ ψ fun _ => True
      | _ => True) :
    (body t a).Issues φ ψ fun _ => True := by
  cases t with
  | co k =>
    have hk := hcall k rfl
    cases a with
    | chanSend c x block => exact hk
    | chanRecv c x block => exact hk
    | chanClose c => exact hk
    | select cases chain block => exact hk
    | groupAddTask g => exact ⟨hq _ trivial, fun _ _ => trivial⟩
    | groupNotify g retval => exact groupNotify_contains hq g retval
    | groupSync g => exact groupSync_contains hq g
    | asyncRequestSubmit => exact asyncRequestSubmit_contains hq
    | timerAt c w => exact timerAt_contains hq hsend k c w
    | timerStop c => exact timerStop_contains hq c
    | netWait d mode => cases hok
    | netTimedwait d mode usec => cases hok
    | spawn priority => exact (coroutineAllocate_contains hq priority .client).bind fun _ _ => trivial
    | yield => exact ⟨hq _ trivial, fun _ _ => trivial⟩
    | intertimerRoutine => exact intertimerRoutine_contains hq hsend k
    | asyncThreadRoutine => trivial
    | netpollWakeup d => trivial
  | async i => exact asyncThreadRoutine_contains hq
  | sched v =>
    cases a with
    | netpollWakeup d => cases hok
    | _ => trivial
  | vpu k => trivial

end

end

/-! ### The channel operations -/

/-- A quantum that is taken out of a queue belongs to the channel of the queue. -/
def queueRes : (c : Cmd) → c.Res → Prop
  | .chan (.queueRem c _), r => ∀ q, r = some q → q.chan = c
  | _, _ => True

/-- The result of a command on a queue is about its channel. -/
theorem exec_queueRes {t : Tid} {s s' : State} {cmd : Cmd} {r : cmd.Res} (hi : Inv s)
    (he : exec t cmd s = some (r, s')) :
    queueRes cmd r := by
  cases cmd with
  | chan cmd =>
    cases cmd with
    | queueRem c dir =>
      intro q hq
      change r = some q at hq
      subst hq
      unfold exec at he
      split at he
      · simp only [execChan] at he
        split at he
        · cases he
        · rename_i q' rest hque
          cases he
          have hmem : q ∈ (s.chans c).que dir := hque ▸ List.mem_cons_self
          exact ((hi.chan c).at_ dir q (List.mem_append_right _ hmem)).1
      · cases he
    | _ => trivial
  | _ => trivial

/-- The commands of `fetch_quantum`. -/
def fetchCmd (c : ChanId) (dir : Dir) : Cmd → Prop
  | .chan (.queueRem c' dir') => c' = c ∧ dir' = dir
  | .chan (.casTag _) => True
  | _ => False

/-- A call that does not block is not awakened, one that blocks does not find the channel
    busy. -/
def Ret.Fits (block : Bool) (ret : Ret) : Prop :=
  (block = false → ret ≠ .awaken) ∧ (block = true → ret ≠ .busy)

/-- The commands of `_coroc_chan_send`, by the coroutine `k`. -/
def sendCmd (k : Coid) (c : ChanId) (x : Item) (block : Bool) : Cmd → Prop
  | .chan (.begin c') | .chan (.readClose c') => c' = c
  | .chan (.queueRem c' dir) => c' = c ∧ dir = .recv
  | .chan (.casTag _) | .chan (.readQuantum _) => True
  | .chan (.copyTo q y) => q.chan = c ∧ y = x
  | .chan (.copyToBuff c' y) => c' = c ∧ y = x
  | .chan (.queueAdd q y) => block = true ∧ q = ⟨k, c, false, .send, 0⟩ ∧ y = x
  | .chan (.record e) => ∃ ret, e = .send c x block ret ∧ ret.Fits block
  | .chan _ => False
  | _ => True

/-- The commands of `_coroc_chan_recv`. -/
def recvCmd (k : Coid) (c : ChanId) (block : Bool) : Cmd → Prop
  | .chan (.copyFromBuff c') | .chan (.readClose c') => c' = c
  | .chan (.queueRem c' dir) => c' = c ∧ dir = .send
  | .chan (.casTag _) | .chan (.readQuantum _) => True
  | .chan (.copyFrom q) => q.chan = c
  | .chan (.queueAdd q _) => block = true ∧ q = ⟨k, c, false, .recv, 0⟩
  | .chan (.record e) => ∃ ret got, e = .recv c block ret got ∧ ret.Fits block
  | .chan _ => False
  | _ => True

/-- The commands of `coroc_chan_close`. -/
def closeCmd (c : ChanId) : Cmd → Prop
  | .chan (.readClose c') | .chan (.setClose c') | .chan (.readIsref c') | .chan (.cleanBuff c') => c' = c
  | .chan (.queueRem c' _) => c' = c
  | .chan (.casTag _) => True
  | .chan (.markClosed q) => q.chan = c
  | .chan (.record e) => ∃ ret, e = .close c ret
  | .chan _ => False
  | _ => True

/-- A command before the one that notes the return of the call. -/
def before (φ : Cmd → Prop) : Cmd → Prop
  | .chan (.record _) => False
  | cmd => φ cmd

theorem before.cmd {φ : Cmd → Prop} (cmd : Cmd) (h : before φ cmd) : φ cmd := by
  cases cmd with
  | chan cmd =>
    cases cmd with
    | record e => exact h.elim
    | _ => exact h
  | _ => exact h

theorem before_other {φ : Cmd → Prop} (hq : ∀ cmd : Cmd, cmd.other → φ cmd) (cmd : Cmd)
    (h : cmd.other) : before φ cmd := by
  cases cmd with
  | chan cmd => exact h.elim
  | _ => exact hq _ h

/-- The note of the return, and nothing after it. -/
def last (φ : Entry → Prop) : (cmd : Cmd) → (cmd.Res → RProg Unit) → Prop
  | .chan (.record e), p => φ e ∧ ∀ u, p u = .ret ()
  | _, _ => False

variable {k : Coid} {c : ChanId} {x : Item} {block : Bool} {dir : Dir}

theorem sendCmd_other (cmd : Cmd) (h : cmd.other) : sendCmd k c x block cmd := by
  cases cmd with
  | chan cmd => exact h.elim
  | _ => trivial

theorem recvCmd_other (cmd : Cmd) (h : cmd.other) : recvCmd k c block cmd := by
  cases cmd with
  | chan cmd => exact h.elim
  | _ => trivial

theorem closeCmd_other (cmd : Cmd) (h : cmd.other) : closeCmd c cmd := by
  cases cmd with
  | chan cmd => exact h.elim
  | _ => trivial

theorem fetchQuantum_issues (c : ChanId) (dir : Dir) :
    (fetchQuantum c dir).Issues (fetchCmd c dir) queueRes fun r => ∀ q, r = some q → q.chan = c := by
  refine ⟨fun r => ∀ q, r = some q → q.chan = c, ⟨⟨rfl, rfl⟩, fun q hq => ?_⟩, fun r hr => hr⟩
  cases q with
  | none =>
    intro r hr
    cases hr
    exact fun _ h => nomatch h
  | some q =>
    change Prog.Issues _ _ (if q.select = true then _ else _) _
    split
    · refine ⟨trivial, fun (won : Bool) _ => ?_⟩
      intro r hr
      cases won with
      | true =>
        cases hr
        exact hq
      | false => cases hr
    · intro r hr
      cases hr
      exact hq

theorem Ret.fits_success (block : Bool) : Ret.Fits block .success := ⟨nofun, nofun⟩

theorem Ret.fits_closed (block : Bool) : Ret.Fits block .closed := ⟨nofun, nofun⟩

theorem Ret.fits_busy : Ret.Fits false .busy := ⟨nofun, nofun⟩

theorem Ret.fits_awaken : Ret.Fits true .awaken := ⟨nofun, nofun⟩

theorem chanSendLocked_issues (k : Coid) (c : ChanId) (x : Item) (block : Bool) :
    (chanSendLocked k c x block).Issues (before (sendCmd k c x block)) queueRes
      fun ret => ret.Fits block := by
  have hfetch := (fetchQuantum_issues c .recv).mono (θ := before (sendCmd k c x block)) (fun cmd hcmd => by
    cases cmd with
    | chan cmd => cases cmd <;> first | exact hcmd | trivial
    | _ => trivial) (fun _ _ h => h) fun _ h => h
  refine hfetch.bind fun q hq => ?_
  cases q with
  | some q =>
    refine ⟨⟨hq q rfl, rfl⟩, fun _ _ => ?_⟩
    exact (vpuReady_contains (before_other sendCmd_other) q.co false).bind fun _ _ =>
      Ret.fits_success block
  | none =>
    refine ⟨rfl, fun closed _ => ?_⟩
    cases closed with
    | true => exact Ret.fits_closed block
    | false =>
      refine ⟨⟨rfl, rfl⟩, fun stored _ => ?_⟩
      cases stored with
      | true => exact Ret.fits_success block
      | false =>
        cases block with
        | false => exact Ret.fits_busy
        | true =>
          refine ⟨⟨rfl, rfl, rfl⟩, fun _ _ => ⟨trivial, fun _ _ => ⟨trivial, fun _ _ =>
            ⟨trivial, fun slot _ => ?_⟩⟩⟩⟩
          change Ret.Fits true (if slot.close = true then .closed else .awaken)
          split
          · exact Ret.fits_closed true
          · exact Ret.fits_awaken

theorem chanRecvLocked_issues (k : Coid) (c : ChanId) (x : Item) (block : Bool) :
    (chanRecvLocked k c x block).Issues (before (recvCmd k c block)) queueRes
      fun res => res.1.Fits block := by
  have hfetch := (fetchQuantum_issues c .send).mono (θ := before (recvCmd k c block)) (fun cmd hcmd => by
    cases cmd with
    | chan cmd => cases cmd <;> first | exact hcmd | trivial
    | _ => trivial) (fun _ _ h => h) fun _ h => h
  refine ⟨rfl, fun y _ => ?_⟩
  cases y with
  | some y => exact Ret.fits_success block
  | none =>
    refine hfetch.bind fun q hq => ?_
    cases q with
    | some q =>
      refine ⟨hq q rfl, fun y _ => ?_⟩
      exact (vpuReady_contains (before_other recvCmd_other) q.co false).bind fun _ _ =>
        Ret.fits_success block
    | none =>
      refine ⟨rfl, fun closed _ => ?_⟩
      cases closed with
      | true => exact Ret.fits_closed block
      | false =>
        cases block with
        | false => exact Ret.fits_busy
        | true =>
          refine ⟨⟨rfl, rfl⟩, fun _ _ => ⟨trivial, fun _ _ => ⟨trivial, fun _ _ =>
            ⟨trivial, fun slot _ => ?_⟩⟩⟩⟩
          change Ret.Fits true (Prod.fst (if slot.close = true then (.closed, none)
            else (.awaken, some slot.item)))
          split
          · exact Ret.fits_closed true
          · exact Ret.fits_awaken

/-- `_coroc_chan_send` notes its return last. -/
theorem chanSend_until (k : Coid) (c : ChanId) (x : Item) (block : Bool) :
    (chanSend k c x block).Until (before (sendCmd k c x block)) queueRes
      (last fun e => ∃ ret, e = .send c x block ret ∧ ret.Fits block) fun _ => False := by
  refine .inr ⟨rfl, fun _ _ => .inr ⟨trivial, fun _ _ => ?_⟩⟩
  refine (chanSendLocked_issues k c x block).until fun ret hret => ?_
  exact .inr ⟨trivial, fun _ _ => .inl ⟨⟨ret, rfl, hret⟩, fun _ => rfl⟩⟩

theorem chanSend_issues (k : Coid) (c : ChanId) (x : Item) (block : Bool) :
    (chanSend k c x block).Issues (sendCmd k c x block) queueRes fun _ => True := by
  have hlocked : (chanSendLocked k c x block).Issues (sendCmd k c x block) queueRes
      fun ret => ret.Fits block :=
    (chanSendLocked_issues k c x block).mono before.cmd (fun _ _ h => h) fun _ h => h
  refine ⟨rfl, fun _ _ => ⟨trivial, fun _ _ => hlocked.bind fun ret hret => ?_⟩⟩
  exact ⟨trivial, fun _ _ => ⟨⟨ret, rfl, hret⟩, fun _ _ => trivial⟩⟩

theorem chanRecv_issues (k : Coid) (c : ChanId) (x : Item) (block : Bool) :
    (chanRecv k c x block).Issues (recvCmd k c block) queueRes fun _ => True := by
  have hlocked : (chanRecvLocked k c x block).Issues (recvCmd k c block) queueRes
      fun res => res.1.Fits block :=
    (chanRecvLocked_issues k c x block).mono before.cmd (fun _ _ h => h) fun _ h => h
  refine ⟨trivial, fun _ _ => hlocked.bind fun res hres => ?_⟩
  exact ⟨trivial, fun _ _ => ⟨⟨res.1, res.2, rfl, hres⟩, fun _ _ => trivial⟩⟩

theorem wakeAll_issues (c : ChanId) (dir : Dir) :
    (wakeAll c dir).Issues (closeCmd c) queueRes fun _ => True := by
  have hfetch := (fetchQuantum_issues c dir).mono (θ := closeCmd c) (fun cmd hcmd => by
    cases cmd with
    | chan cmd => cases cmd <;> first | exact hcmd.1 | trivial
    | _ => trivial) (fun _ _ h => h) fun _ h => h
  refine Prog.Issues.loop (hfetch.bind fun q hq => ?_) fun _ => trivial
  cases q with
  | none => trivial
  | some q =>
    refine ⟨hq q rfl, fun _ _ => ?_⟩
    exact (vpuReady_contains closeCmd_other q.co false).bind fun _ _ => trivial

theorem chanClose_issues (c : ChanId) : (chanClose c).Issues (closeCmd c) queueRes fun _ => True := by
  refine ⟨trivial, fun _ _ => Prog.Issues.bind (p := chanCloseLocked c) (ρ := fun _ => True) ?_
    fun ret _ => ⟨trivial, fun _ _ => ⟨⟨ret, rfl⟩, fun _ _ => trivial⟩⟩⟩
  refine ⟨rfl, fun closed _ => ?_⟩
  cases closed with
  | true => trivial
  | false =>
    refine ⟨rfl, fun _ _ => ?_⟩
    refine (wakeAll_issues c .send).bind fun _ _ => (wakeAll_issues c .recv).bind fun _ _ => ?_
    refine ⟨rfl, fun isref _ => ?_⟩
    cases isref with
    | false => trivial
    | true => exact ⟨rfl, fun _ _ => trivial⟩

end Coroc.Runtime
