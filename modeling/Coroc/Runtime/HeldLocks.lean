import Mathlib.Data.Finset.Basic
import Mathlib.Data.Finset.Insert
import Mathlib.Data.Finset.Lattice.Lemmas
import Coroc.Protocol
import Coroc.Runtime.Safety

/-!
# Which locks a coroutine holds when it is switched out

`vpu_suspend` takes the locks that are to be given back once the coroutine is off its stack;
`coroc_coroutine_yield` takes none.  Every operation is followed here with the set of locks it
holds (`heldLocks`).  Three things can go wrong.  `vpu_ready` with `preempt` yields inside its
caller's critical section: in `coroc_intertimer_start`, in the callback of a net-wait, and in
`coroc_add_intertimer` under the lock of a poll descriptor.  The callback of a timer blocks in
`coroc_chan_send` when the timer's channel is full.  And `coroc_group_sync` does not give its
lock back when the last task has gone meanwhile.

With `ENABLE_TIMESHARE` there is a fourth: `coroc_del_intertimer`, `coroc_group_notify` and
`coroc_group_sync` hold their locks with the clock signal unmasked, so it may preempt them
(`timeshared`).

`locks_released` is about the runs in which none of them happens, over all operations, net-waits
included; `locks_kept` is a run in which the lock of the timer manager is kept.
-/

namespace Coroc.Runtime

open Coroc.Program Coroc.Transition

/-! ### The protocol -/

def nextHeld (h : Finset Lock) : (c : Cmd) → c.Res → Finset Lock
  | .lock (.acquire l), _ => insert l h
  | .lock (.release l), _ => h.erase l
  | .co (.suspend _), _ => ∅
  | _, _ => h

/-- A suspension hands over all the locks held, and a yield finds none. -/
def heldOk (h : Finset Lock) : Cmd → Prop
  | .lock (.release l) => l ∈ h
  | .co (.suspend ls) => ls.toFinset = h
  | .co .yield => h = ∅
  | _ => True

/-- No lock is taken twice; no coroutine that holds a lock is preempted, the callback of a
    timer finds room in the channel, and `coroc_group_sync` finds tasks to wait for. -/
def heldGets (h : Finset Lock) : (c : Cmd) → c.Res → Prop
  | .lock (.acquire l), _ => l ∉ h
  | .co (.preempts _), (b : Bool) => b = true → h = ∅
  | .chan (.copyToBuff _ _), (b : Bool) => .timer ∈ h → b = true
  | .group (.readCount g), (n : Nat) => .group g ∈ h → n > 0
  | _, _ => True

def heldLocks : Protocol Cmd Cmd.Res (Finset Lock) := ⟨heldOk, heldGets, nextHeld⟩

/-! ### The operations follow it -/

variable {h : Finset Lock}

theorem vpuReady_held (d : Coid) (preempt : Bool) :
    (vpuReady d preempt).Follows heldLocks h fun b _ => b = h := by
  refine ⟨trivial, fun _ _ => ?_⟩
  cases preempt with
  | false => rfl
  | true =>
    refine ⟨trivial, fun b hb => ?_⟩
    cases b with
    | false => rfl
    | true => exact ⟨hb rfl, fun _ _ => rfl⟩

theorem coroutineAllocate_held (priority : Nat) (role : Role) :
    (coroutineAllocate priority role).Follows heldLocks h fun b _ => b = h :=
  ⟨trivial, fun d _ => (vpuReady_held d true).bind fun _ _ hb => hb⟩

theorem fetchQuantum_held (c : ChanId) (dir : Dir) :
    (fetchQuantum c dir).Follows heldLocks h fun b _ => b = h := by
  refine Prog.Follows.loop ⟨trivial, fun q _ => ?_⟩ fun _ => rfl
  cases q with
  | none => rfl
  | some q =>
    change Prog.Follows heldLocks h (if q.select = true then _ else _) _
    split
    · exact ⟨trivial, fun _ _ => rfl⟩
    · rfl

/-- The lock of the channel is handed over and taken again. -/
theorem suspend_held {α : Type} {c : ChanId} {f : RProg α} {ρ : Finset Lock → α → Prop}
    (hf : f.Follows heldLocks {.chan c} ρ) :
    (do
      vpuSuspend [.chan c]
      lockAcquire (.chan c)
      f : RProg α).Follows heldLocks {.chan c} ρ :=
  ⟨rfl, fun _ _ => ⟨trivial, fun _ _ => hf⟩⟩

theorem chanSendLocked_held {k : Coid} {c : ChanId} {x : Item} {block : Bool}
    (hblock : block = true → h = {.chan c} ∨ .timer ∈ h) :
    (chanSendLocked k c x block).Follows heldLocks h fun b _ => b = h := by
  refine (fetchQuantum_held c .recv).bind ?_
  rintro b q rfl
  cases q with
  | some q => exact ⟨trivial, fun _ _ => (vpuReady_held q.co false).bind fun _ _ hb => hb⟩
  | none =>
    refine ⟨trivial, fun closed _ => ?_⟩
    cases closed with
    | true => rfl
    | false =>
      refine ⟨trivial, fun stored hstored => ?_⟩
      cases stored with
      | true => rfl
      | false =>
        cases block with
        | false => rfl
        | true =>
          rcases hblock rfl with rfl | htimer
          · exact ⟨trivial, fun _ _ => suspend_held ⟨trivial, fun _ _ => rfl⟩⟩
          · exact nomatch hstored htimer

theorem chanRecvLocked_held {k : Coid} {c : ChanId} {x : Item} {block : Bool}
    (hblock : block = true → h = {.chan c}) :
    (chanRecvLocked k c x block).Follows heldLocks h fun b _ => b = h := by
  refine ⟨trivial, fun y _ => ?_⟩
  cases y with
  | some y => rfl
  | none =>
    refine (fetchQuantum_held c .send).bind ?_
    rintro b q rfl
    cases q with
    | some q =>
      exact ⟨trivial, fun _ _ => (vpuReady_held q.co false).bind fun _ _ hb => hb⟩
    | none =>
      refine ⟨trivial, fun closed _ => ?_⟩
      cases closed with
      | true => rfl
      | false =>
        cases block with
        | false => rfl
        | true =>
          obtain rfl := hblock rfl
          exact ⟨trivial, fun _ _ => suspend_held ⟨trivial, fun _ _ => rfl⟩⟩

theorem chanSend_held {k : Coid} {c : ChanId} {x : Item} {block : Bool}
    (hblock : block = true → h = ∅ ∨ .timer ∈ h) :
    (chanSend k c x block).Follows heldLocks h fun b _ => b = h := by
  refine ⟨trivial, fun _ _ => ⟨trivial, fun _ hc => ?_⟩⟩
  refine (chanSendLocked_held (h := insert (.chan c) h) fun hb => ?_).bind ?_
  · rcases hblock hb with rfl | htimer
    · exact Or.inl rfl
    · exact Or.inr (Finset.mem_insert_of_mem htimer)
  · rintro b ret rfl
    refine ⟨Finset.mem_insert_self _ _, fun _ _ => ⟨trivial, fun _ _ => ?_⟩⟩
    exact Finset.erase_insert hc

theorem chanRecv_held (k : Coid) (c : ChanId) (x : Item) (block : Bool) :
    (chanRecv k c x block).Follows heldLocks ∅ fun b _ => b = ∅ := by
  refine ⟨trivial, fun _ hc => ?_⟩
  refine (chanRecvLocked_held (h := insert (.chan c) ∅) fun _ => rfl).bind ?_
  rintro b ret rfl
  exact ⟨Finset.mem_insert_self _ _, fun _ _ => ⟨trivial, fun _ _ => Finset.erase_insert hc⟩⟩

theorem wakeAll_held (c : ChanId) (dir : Dir) :
    (wakeAll c dir).Follows heldLocks h fun b _ => b = h := by
  refine Prog.Follows.loop ((fetchQuantum_held c dir).bind ?_) fun _ => rfl
  rintro b q rfl
  cases q with
  | none => rfl
  | some q => exact ⟨trivial, fun _ _ => (vpuReady_held q.co false).bind fun _ _ hb => hb⟩

theorem chanClose_held (c : ChanId) : (chanClose c).Follows heldLocks ∅ fun b _ => b = ∅ := by
  refine ⟨trivial, fun _ hc => ?_⟩
  have hlocked : (chanCloseLocked c).Follows heldLocks {.chan c} fun b _ => b = {.chan c} := by
    refine ⟨trivial, fun closed _ => ?_⟩
    cases closed with
    | true => rfl
    | false =>
      refine ⟨trivial, fun _ _ => (wakeAll_held c .send).bind ?_⟩
      rintro b _ rfl
      refine (wakeAll_held c .recv).bind ?_
      rintro b _ rfl
      refine ⟨trivial, fun isref _ => ?_⟩
      cases isref with
      | false => rfl
      | true => exact ⟨trivial, fun _ _ => rfl⟩
  refine hlocked.bind ?_
  rintro b ret rfl
  exact ⟨Finset.mem_singleton_self _, fun _ _ => ⟨trivial, fun _ _ => Finset.erase_insert hc⟩⟩

/-! ### Select -/

/-- The locks of a chain. -/
def chainLocks (chain : List ChanId) : Finset Lock := (chain.map Lock.chan).toFinset

theorem lockChainAcquire_held (chain : List ChanId) :
    (lockChainAcquire chain).Follows heldLocks h fun b _ => b = h ∪ chainLocks chain ∧ chain.Nodup ∧
      ∀ c ∈ chain, .chan c ∉ h := by
  induction chain generalizing h with
  | nil => exact ⟨(Finset.union_empty h).symm, List.nodup_nil, nofun⟩
  | cons c cs ih =>
    refine ⟨trivial, fun _ hc => (ih (h := insert (.chan c) h)).mono ?_⟩
    rintro b _ ⟨rfl, hnodup, hnot⟩
    refine ⟨?_, List.nodup_cons.mpr ⟨fun hmem => ?_, hnodup⟩, ?_⟩
    · simp only [chainLocks, List.map_cons, List.toFinset_cons, Finset.union_insert, Finset.insert_union]
    · exact hnot c hmem (Finset.mem_insert_self _ _)
    · intro c' hc'
      rcases List.mem_cons.mp hc' with rfl | hmem
      · exact hc
      · exact fun hin => hnot c' hmem (Finset.mem_insert_of_mem hin)

theorem lockChainRelease_held {chain : List ChanId} (hnodup : chain.Nodup) :
    (lockChainRelease chain).Follows heldLocks (chainLocks chain) fun b _ => b = ∅ := by
  induction chain with
  | nil => rfl
  | cons c cs ih =>
    obtain ⟨hc, hcs⟩ := List.nodup_cons.mp hnodup
    refine ⟨by simp [heldLocks, heldOk, chainLocks], fun _ _ => ?_⟩
    have herase : (chainLocks (c :: cs)).erase (.chan c) = chainLocks cs := by
      simp only [chainLocks, List.map_cons, List.toFinset_cons]
      refine Finset.erase_insert ?_
      simpa using hc
    change Prog.Follows heldLocks ((chainLocks (c :: cs)).erase (.chan c)) _ _
    rw [herase]
    exact ih hcs

theorem pollCase_held (k : Coid) (e : Case) :
    (pollCase k e).Follows heldLocks h fun b _ => b = h := by
  unfold pollCase
  split
  · have hsend : (chanSendLocked k e.chan e.item false).Follows heldLocks h fun b _ => b = h :=
      chanSendLocked_held fun hb => nomatch hb
    exact hsend.bind fun _ _ hb => hb
  · exact chanRecvLocked_held nofun

theorem pollCases_held (k : Coid) (ret : Ret) (cases : List Case) :
    (pollCases k ret cases).Follows heldLocks h fun b _ => b = h := by
  induction cases generalizing ret with
  | nil => rfl
  | cons e es ih =>
    refine (pollCase_held k e).bind ?_
    rintro b ⟨ret', got⟩ rfl
    change Prog.Follows heldLocks b (if ret' = .success then _ else _) _
    split
    · rfl
    · exact ih ret'

theorem enqueueAll_held (qs : List (Quantum × Item)) :
    (enqueueAll qs).Follows heldLocks h fun b _ => b = h := by
  induction qs with
  | nil => rfl
  | cons p qs ih => exact ⟨trivial, fun _ _ => ih⟩

theorem dequeueAll_held (active : Option ChanId) (r : Ret × Bool × Option Item) (qs : List (Quantum × Item)) :
    (dequeueAll active r qs).Follows heldLocks h fun b _ => b = h := by
  induction qs generalizing r with
  | nil => rfl
  | cons p qs ih => exact ⟨trivial, fun _ _ => ⟨trivial, fun _ _ => ih _⟩⟩

theorem selectBlocked_held (k : Coid) (cases : List Case) (chain : List ChanId) :
    (selectBlocked k cases chain).Follows heldLocks (chainLocks chain)
      fun b _ => b = chainLocks chain := by
  refine ⟨trivial, fun _ _ => (enqueueAll_held _).bind ?_⟩
  rintro b _ rfl
  refine ⟨rfl, fun _ _ => (lockChainAcquire_held chain).bind ?_⟩
  rintro b _ ⟨rfl, -, -⟩
  refine ⟨trivial, fun active _ => (dequeueAll_held active _ _).bind ?_⟩
  rintro b r rfl
  exact ⟨trivial, fun _ _ => Finset.empty_union _⟩

theorem chanSetSelect_held (k : Coid) (cases : List Case) (chain : List ChanId) (block : Bool) :
    (chanSetSelect k cases chain block).Follows heldLocks ∅ fun b _ => b = ∅ := by
  unfold chanSetSelect
  split
  · exact ⟨trivial, fun _ _ => rfl⟩
  · refine (lockChainAcquire_held chain).bind ?_
    rintro b _ ⟨rfl, hnodup, -⟩
    rw [Finset.empty_union]
    refine Prog.Follows.bind (ρ := fun b _ => b = chainLocks chain) ?_ ?_
    · refine (pollCases_held k .busy cases).bind ?_
      rintro b ⟨ret, active, got⟩ rfl
      change Prog.Follows heldLocks _ (if (active.isNone && block) = true then _ else _) _
      split
      · exact selectBlocked_held k cases chain
      · rfl
    · rintro b r rfl
      have hreverse : chainLocks chain = chainLocks chain.reverse := by
        simp [chainLocks, List.map_reverse]
      rw [hreverse]
      exact (lockChainRelease_held (List.nodup_reverse.mpr hnodup)).bind fun b _ hb => ⟨trivial, fun _ _ => hb⟩

/-! ### Groups, the asynchronous pool, timers and poll descriptors -/

/-- A lock that was not held is taken and given back. -/
theorem release_held {l : Lock} (hl : l ∉ h) {α : Type} {f : Unit → RProg α}
    {ρ : Finset Lock → α → Prop} (hf : (f ()).Follows heldLocks h ρ) :
    (Prog.bind (lockRelease l) f).Follows heldLocks (insert l h) ρ := by
  refine ⟨Finset.mem_insert_self _ _, fun _ _ => ?_⟩
  change Prog.Follows heldLocks ((insert l h).erase l) _ _
  rw [Finset.erase_insert hl]
  exact hf

theorem groupNotify_held (g : GroupId) (retval : Nat) :
    (groupNotify g retval).Follows heldLocks ∅ fun b _ => b = ∅ := by
  unfold groupNotify
  split
  on_goal 1 => refine ⟨trivial, fun _ _ => ?_⟩
  all_goals
    refine ⟨trivial, fun (n : Nat) _ => ?_⟩
    change Prog.Follows heldLocks ∅ (if n = 0 then _ else _) _
    split
    · refine ⟨trivial, fun _ hg => ⟨trivial, fun parent _ => release_held hg ?_⟩⟩
      cases parent with
      | some p => exact vpuReady_held p true
      | none => rfl
    · rfl

theorem groupSync_held (g : GroupId) : (groupSync g).Follows heldLocks ∅ fun b _ => b = ∅ := by
  refine ⟨trivial, fun (n : Nat) _ => ?_⟩
  change Prog.Follows heldLocks ∅ (if n > 0 then _ else _) _
  split
  · refine ⟨trivial, fun _ _ => ⟨trivial, fun (n' : Nat) hn => ?_⟩⟩
    change Prog.Follows heldLocks _ (if n' > 0 then _ else _) _
    rw [if_pos (hn (Finset.mem_singleton_self _))]
    exact ⟨trivial, fun _ _ => ⟨rfl, fun _ _ => ⟨trivial, fun _ _ => rfl⟩⟩⟩
  · exact ⟨trivial, fun _ _ => rfl⟩

theorem asyncRequestSubmit_held : asyncRequestSubmit.Follows heldLocks ∅ fun b _ => b = ∅ := by
  refine ⟨trivial, fun threads _ => ?_⟩
  cases threads with
  | false => rfl
  | true => exact ⟨trivial, fun _ _ => ⟨trivial, fun _ _ => ⟨rfl, fun _ _ => rfl⟩⟩⟩

theorem notifyTsleepU_held (ns : Int64) : (notifyTsleepU ns).Follows heldLocks ∅ fun b _ => b = ∅ := by
  unfold notifyTsleepU
  split
  · exact asyncRequestSubmit_held
  · rfl

theorem asyncThreadRoutine_held : asyncThreadRoutine.Follows heldLocks ∅ fun b _ => b = ∅ := by
  refine ⟨trivial, fun _ hasync => ⟨fun b => b = insert .async ∅, fun _ _ => False, rfl, ?_, fun _ _ hv => hv.elim⟩⟩
  rintro b rfl
  refine Prog.Follows.loop ⟨trivial, fun status _ => ?_⟩ fun _ => ⟨trivial, fun wait _ => release_held hasync ?_⟩
  · cases status with
    | true => rfl
    | false => exact release_held hasync ⟨trivial, fun _ _ => rfl⟩
  · cases wait with
    | none => exact ⟨trivial, fun _ _ => rfl⟩
    | some d =>
      refine (vpuReady_held d false).bind ?_
      rintro b _ rfl
      exact ⟨trivial, fun _ _ => rfl⟩

theorem addIntertimer_held (tm : TimerId) (h : Finset Lock) :
    (addIntertimer tm).Follows heldLocks h fun b _ => b = h := by
  refine ⟨trivial, fun _ htimer => ⟨trivial, fun (size : Nat) _ => ⟨trivial, fun daemon _ => ?_⟩⟩⟩
  cases daemon with
  | none =>
    refine Prog.Follows.bind (p := intertimerStart) (ρ := fun b _ => b = insert .timer h) ?_ ?_
    · exact (coroutineAllocate_held prioHigh .timer).bind fun b d hb => ⟨trivial, fun _ _ => hb⟩
    · rintro b _ rfl
      exact release_held htimer rfl
  | some daemon =>
    change Prog.Follows heldLocks _ (if size = 0 then _ else _) _
    split
    · refine ⟨trivial, fun suspend _ => ?_⟩
      cases suspend with
      | true => exact ⟨trivial, fun _ _ => release_held htimer (vpuReady_held daemon true)⟩
      | false => exact release_held htimer rfl
    · exact release_held htimer rfl

theorem delIntertimer_held (tm : TimerId) : (delIntertimer tm).Follows heldLocks ∅ fun b _ => b = ∅ :=
  ⟨trivial, fun _ htimer => ⟨trivial, fun _ _ => release_held htimer rfl⟩⟩

theorem timerAt_held (k : Coid) (c : ChanId) (w : UInt64) :
    (timerAt k c w).Follows heldLocks ∅ fun b _ => b = ∅ := by
  refine ⟨trivial, fun _ _ => ⟨trivial, fun (now : UInt64) _ => ?_⟩⟩
  change Prog.Follows heldLocks ∅ (if w ≤ now then _ else _) _
  split
  · exact chanSend_held fun _ => Or.inl rfl
  · exact addIntertimer_held (.chan c) ∅

theorem netpollTimeout_held (d : DescId) (h : Finset Lock) :
    (netpollTimeout d).Follows heldLocks h fun b _ => b = h := by
  refine ⟨trivial, fun _ hd => ⟨trivial, fun succ _ => ?_⟩⟩
  cases succ with
  | true =>
    refine ⟨trivial, fun _ _ => ⟨trivial, fun _ _ => release_held hd ⟨trivial, fun wait _ => ?_⟩⟩⟩
    exact vpuReady_held wait true
  | false => exact release_held hd rfl

theorem fireDue_held (k : Coid) (now : UInt64) :
    (fireDue k now).Follows heldLocks {.timer} fun b _ => b = {.timer} := by
  refine Prog.Follows.loop ⟨trivial, fun (size : Nat) _ => ?_⟩ fun _ => rfl
  change Prog.Follows heldLocks _ (if size > 0 then _ else _) _
  split
  · refine ⟨trivial, fun root _ => ?_⟩
    obtain ⟨tm, w⟩ := root
    change Prog.Follows heldLocks _ (if w ≤ now then _ else _) _
    split
    · refine Prog.Follows.bind (p := timerFunc k tm w) (ρ := fun b _ => b = {.timer}) ?_ ?_
      · cases tm with
        | chan c => exact chanSend_held fun _ => Or.inr (Finset.mem_singleton_self _)
        | desc d => exact netpollTimeout_held d _
      · rintro b _ rfl
        exact ⟨trivial, fun _ _ => rfl⟩
    · rfl
  · rfl

theorem intertimerRoutine_held (k : Coid) :
    (intertimerRoutine k).Follows heldLocks ∅ fun b _ => b = ∅ := by
  refine Prog.Follows.loop ⟨trivial, fun _ htimer => ⟨trivial, fun now _ => ?_⟩⟩ fun _ => rfl
  refine Prog.Follows.bind (p := fireDue k now) (fireDue_held k now) ?_
  rintro b _ rfl
  refine ⟨trivial, fun (size : Nat) _ => ?_⟩
  change Prog.Follows heldLocks _ (if size = 0 then _ else _) _
  split
  · exact ⟨trivial, fun _ _ => ⟨rfl, fun _ _ => rfl⟩⟩
  · refine ⟨trivial, fun root _ => release_held htimer ⟨trivial, fun notify _ => ?_⟩⟩
    cases notify with
    | true => exact (notifyTsleepU_held _).bind fun _ _ hb => hb
    | false => exact ⟨rfl, fun _ _ => rfl⟩

theorem netWait_held (d : DescId) (mode : Nat) :
    (netWait d mode).Follows heldLocks ∅ fun b _ => b = ∅ :=
  ⟨trivial, fun _ _ => ⟨trivial, fun _ _ => ⟨trivial, fun _ _ => ⟨rfl, fun _ _ =>
    ⟨trivial, fun _ _ => rfl⟩⟩⟩⟩⟩

theorem netTimedwait_held (d : DescId) (mode : Nat) (usec : UInt64) :
    (netTimedwait d mode usec).Follows heldLocks ∅ fun b _ => b = ∅ := by
  refine ⟨trivial, fun _ _ => ⟨trivial, fun _ _ => ⟨trivial, fun _ _ => ⟨trivial, fun _ _ =>
    ⟨trivial, fun _ _ => (addIntertimer_held (.desc d) _).bind ?_⟩⟩⟩⟩⟩
  rintro b _ rfl
  refine ⟨rfl, fun _ _ => (delIntertimer_held (.desc d)).bind ?_⟩
  rintro b _ rfl
  exact ⟨trivial, fun _ _ => rfl⟩

theorem netpollWakeup_held (d : DescId) :
    (netpollWakeup d).Follows heldLocks ∅ fun b _ => b = ∅ :=
  ⟨trivial, fun _ hd => ⟨trivial, fun _ _ => release_held hd
    ⟨trivial, fun wait _ => vpuReady_held wait false⟩⟩⟩

theorem body_held (t : Tid) (a : Call) : (body t a).Follows heldLocks ∅ fun b _ => b = ∅ := by
  cases t with
  | co k =>
    cases a with
    | chanSend c x block => exact chanSend_held fun _ => Or.inl rfl
    | chanRecv c x block => exact chanRecv_held k c x block
    | chanClose c => exact chanClose_held c
    | select cases chain block => exact chanSetSelect_held k cases chain block
    | groupAddTask g => exact ⟨trivial, fun _ _ => rfl⟩
    | groupNotify g retval => exact groupNotify_held g retval
    | groupSync g => exact groupSync_held g
    | asyncRequestSubmit => exact asyncRequestSubmit_held
    | timerAt c w => exact timerAt_held k c w
    | timerStop c => exact (delIntertimer_held (.chan c)).bind fun _ _ hb => hb
    | netWait d mode => exact netWait_held d mode
    | netTimedwait d mode usec => exact netTimedwait_held d mode usec
    | spawn priority => exact (coroutineAllocate_held priority .client).bind fun _ _ hb => hb
    | yield => exact ⟨rfl, fun _ _ => rfl⟩
    | intertimerRoutine => exact intertimerRoutine_held k
    | asyncThreadRoutine => rfl
    | netpollWakeup d => rfl
  | async i => exact asyncThreadRoutine_held
  | sched v =>
    cases a with
    | netpollWakeup d => exact netpollWakeup_held d
    | _ => rfl
  | vpu k => rfl

/-! ### The locks of the runtime -/

/-- The condition on the commands of a run.
    * No coroutine that holds a lock finds, in `vpu_ready`, that it is to be preempted.
    * A send under the lock of the timer manager finds room in the buffer.
    * `coroc_group_sync` finds, under its lock, that there are tasks to wait for. -/
def NotKept (t : Tid) (c : Cmd) (s : State) : Prop :=
  match c with
  | .co (.preempts d) => ∀ k l, t = .co k → s.locks l = some t →
      ¬ ((s.cos k).priority > (s.cos d).priority ∧ s.alive = s.xtIndex)
  | .chan (.copyToBuff c _) => s.locks .timer = some t → (s.chans c).buffer.full = false
  | .group (.readCount g) => s.locks (.group g) = some t → (s.groups g).count > 0
  | _ => True

/-- The moves of the environment when clock signals reach the coroutines. -/
inductive ClockEnv where
  | plain (e : Env)
  | signal (k : Coid)
deriving DecidableEq

/-- The runtime with `ENABLE_TIMESHARE`: `vpu_clock_handler` makes the coroutine it interrupts
    yield.  Here it may interrupt any; those that have the signal masked are not, in the source. -/
def timeshared : Machine Tid Cmd Call ClockEnv State Cmd.Res where
  exec := exec
  enter := enter
  body := body
  env e s := match e with
    | .plain e => env e s
    | .signal k => if s.status k = .running then some (s.setStatus k .ready) else none

/-- The condition on the steps of a run: that on the commands, and no clock signal preempts a
    coroutine that holds a lock. -/
def ReleasedStep (c : Config) : Label Tid Call ClockEnv → Prop
  | .env (.signal k) => ∀ l, c.shared.locks l ≠ some (.co k)
  | l => stepOk NotKept (fun _ _ _ => True) c l

theorem ReleasedStep.ok {c : Config} {l : Label Tid Call ClockEnv} (h : ReleasedStep c l) :
    stepOk NotKept (fun _ _ _ => True) c l := by
  cases l with
  | env e => trivial
  | _ => exact h

/-- The states of the protocol are the locks held, and only running coroutines hold any. -/
structure Holding (auto : Tid → Finset Lock) (s : State) : Prop where
  locks : ∀ t l, t.isThread = true → (l ∈ auto t ↔ s.locks l = some t)
  running : ∀ k, s.status k ≠ .running → auto (.co k) = ∅
  unborn : ∀ k, s.fresh ≤ k → s.status k = .unborn

/-- A step that leaves the locks and the status words alone. -/
structure Placid (s s' : State) : Prop where
  locks : s'.locks = s.locks
  status : s'.status = s.status
  fresh : s'.fresh = s.fresh

variable {s s' : State} {t : Tid} {auto : Tid → Finset Lock}

theorem Holding.placid (hh : Holding auto s) (hp : Placid s s') : Holding auto s' := by
  obtain ⟨hlocks, hstatus, hfresh⟩ := hp
  refine ⟨?_, ?_, ?_⟩
  · rw [hlocks]
    exact hh.locks
  · rw [hstatus]
    exact hh.running
  · rw [hstatus, hfresh]
    exact hh.unborn

theorem Placid.of_spared (h : Spared s s') : Placid s s' := ⟨h.locks, h.status, h.fresh⟩

theorem Placid.of_apart {cmd : Cmd} (h : Apart t cmd s s') : Placid s s' := ⟨h.locks, h.status, h.fresh⟩

theorem execChan_placid {cmd : ChanCmd} {r : cmd.Res} (he : execChan t s cmd = some (r, s')) :
    Placid s s' := by
  cases cmd with
  | queueRem c dir =>
    simp only [execChan] at he
    split at he
    · cases he
      exact ⟨rfl, rfl, rfl⟩
    · cases he
      unfold State.popQuantum
      split <;> exact ⟨rfl, rfl, rfl⟩
  | _ => cases t <;> simp only [execChan] at he <;> (repeat' split at he) <;> cases he <;> exact ⟨rfl, rfl, rfl⟩

theorem isThread_of_active (h : s.active t = true) : t.isThread = true := by
  cases t with
  | vpu k => exact nomatch h
  | _ => rfl

/-- Taking a lock that is free. -/
theorem Holding.acquire {l : Lock} (hh : Holding auto s) (hact : s.active t = true) (hfree : s.locks l = none) :
    l ∉ auto t ∧ Holding (Function.update auto t (insert l (auto t))) (s.setLock l (some t)) := by
  have hthread := isThread_of_active hact
  have hnot : ∀ u, u.isThread = true → l ∉ auto u := fun u hu hl =>
    nomatch hfree.symm.trans ((hh.locks u l hu).mp hl)
  refine ⟨hnot t hthread, ?_, ?_, hh.unborn⟩
  · intro u l' hu
    by_cases hll : l' = l
    · subst hll
      rw [State.setLock_locks_self]
      by_cases hut : u = t
      · subst hut
        simp
      · rw [Function.update_of_ne hut]
        exact iff_of_false (hnot u hu) fun he => hut (Option.some.inj he).symm
    · rw [State.setLock_locks_ne _ _ hll, ← hh.locks u l' hu]
      by_cases hut : u = t
      · subst hut
        simp [hll]
      · rw [Function.update_of_ne hut]
  · intro k hk
    have hne : Tid.co k ≠ t := by
      rintro rfl
      exact hk (active_running hact)
    rw [Function.update_of_ne hne]
    exact hh.running k hk

/-- Giving back a lock that is held. -/
theorem Holding.release {l : Lock} (hh : Holding auto s) (hact : s.active t = true) (hl : l ∈ auto t) :
    Holding (Function.update auto t ((auto t).erase l)) (s.setLock l none) := by
  have hheld := (hh.locks t l (isThread_of_active hact)).mp hl
  refine ⟨?_, ?_, hh.unborn⟩
  · intro u l' hu
    by_cases hll : l' = l
    · subst hll
      rw [State.setLock_locks_self]
      by_cases hut : u = t
      · subst hut
        simp
      · rw [Function.update_of_ne hut, hh.locks u l' hu, hheld]
        exact iff_of_false (fun he => hut (Option.some.inj he).symm) nofun
    · rw [State.setLock_locks_ne _ _ hll, ← hh.locks u l' hu]
      by_cases hut : u = t
      · subst hut
        simp [hll]
      · rw [Function.update_of_ne hut]
  · intro k hk
    by_cases hkt : Tid.co k = t
    · subst hkt
      exact absurd (active_running hact) hk
    · rw [Function.update_of_ne hkt]
      exact hh.running k hk

/-- Handing over all the locks that are held. -/
theorem Holding.suspend {k : Coid} {ls : List Lock} {co : Co → Co} (hh : Holding auto s)
    (hrun : s.status k = .running) (hls : ls.toFinset = auto (.co k)) :
    Holding (Function.update auto (.co k) ∅)
      { (s.setCo k co).setStatus k .saving with locks := handOver s.locks k ls } := by
  have hmem : ∀ l, l ∈ ls ↔ s.locks l = some (.co k) := fun l => by
    rw [← hh.locks (.co k) l rfl, ← hls, List.mem_toFinset]
  refine ⟨?_, ?_, ?_⟩
  · intro u l hu
    simp only [handOver]
    by_cases hl : l ∈ ls
    · rw [if_pos hl]
      refine iff_of_false ?_ ?_
      · by_cases huk : u = .co k
        · subst huk
          simp
        · rw [Function.update_of_ne huk, hh.locks u l hu, (hmem l).mp hl]
          exact fun he => huk (Option.some.inj he).symm
      · intro he
        cases he
        cases hu
    · rw [if_neg hl]
      by_cases huk : u = .co k
      · subst huk
        simp only [Function.update_self]
        exact iff_of_false (Finset.notMem_empty l) fun he => hl ((hmem l).mpr he)
      · rw [Function.update_of_ne huk]
        exact hh.locks u l hu
  · intro j hj
    by_cases hjk : j = k
    · subst hjk
      simp
    · rw [Function.update_of_ne (by simpa using hjk)]
      exact hh.running j (by simpa [State.setStatus, Function.update_of_ne hjk] using hj)
  · intro j hj
    have hjk : j ≠ k := by
      rintro rfl
      cases hrun.symm.trans (hh.unborn j hj)
    simpa [State.setStatus, Function.update_of_ne hjk] using hh.unborn j hj

/-- A coroutine that holds no lock changes its status. -/
theorem Holding.setStatus {k : Coid} {st : Status} (hh : Holding auto s) (hk : auto (.co k) = ∅)
    (hborn : s.status k ≠ .unborn) : Holding auto (s.setStatus k st) := by
  refine ⟨hh.locks, ?_, ?_⟩
  · intro j hj
    by_cases hjk : j = k
    · rw [hjk]
      exact hk
    · exact hh.running j (by simpa [State.setStatus, Function.update_of_ne hjk] using hj)
  · intro j hj
    have hjk : j ≠ k := by
      rintro rfl
      exact hborn (hh.unborn j hj)
    simpa [State.setStatus, Function.update_of_ne hjk] using hh.unborn j hj

/-- A coroutine is created. -/
theorem Holding.allocate {co : Co → Co} (hh : Holding auto s) :
    Holding auto { (s.setStatus s.fresh .wait).setCo s.fresh co with fresh := s.fresh + 1 } := by
  have hfresh := hh.unborn s.fresh (Nat.le_refl _)
  refine ⟨hh.locks, ?_, ?_⟩
  · intro j hj
    by_cases hjk : j = s.fresh
    · rw [hjk]
      exact hh.running s.fresh (by rw [hfresh]; exact nofun)
    · exact hh.running j (by simpa [State.setStatus, Function.update_of_ne hjk] using hj)
  · intro j hj
    have hjk : j ≠ s.fresh := by
      rintro rfl
      exact Nat.not_succ_le_self _ hj
    simpa [State.setStatus, Function.update_of_ne hjk] using hh.unborn j (Nat.le_of_succ_le hj)

theorem Holding.execCo {c : CoCmd} {r : c.Res} (hh : Holding auto s) (hact : s.active t = true)
    (hok : NotKept t (.co c) s) (hp : heldOk (auto t) (.co c)) (he : execCo t s c = some (r, s')) :
    heldGets (auto t) (.co c) r ∧
      Holding (Function.update auto t (nextHeld (auto t) (.co c) r)) s' := by
  cases c with
  | suspend ls =>
    cases t with
    | co k =>
      cases he
      exact ⟨trivial, hh.suspend (active_running hact) hp⟩
    | _ => cases he
  | ready d =>
    simp only [Runtime.execCo] at he
    split at he
    · next hwait =>
      cases he
      refine ⟨trivial, ?_⟩
      change Holding (Function.update auto t (auto t)) _
      rw [Function.update_eq_self]
      have hd : auto (.co d) = ∅ := hh.running d (by rw [hwait]; intro h; cases h)
      have hready : Holding auto (s.setStatus d .ready) := hh.setStatus hd (by rw [hwait]; intro h; cases h)
      exact hready.placid ⟨rfl, rfl, rfl⟩
    · cases he
  | preempts d =>
    cases t with
    | co k =>
      cases he
      constructor
      · intro hb
        by_contra hne
        obtain ⟨l, hl⟩ := Finset.nonempty_iff_ne_empty.mpr hne
        exact hok k l rfl ((hh.locks (.co k) l rfl).mp hl) (of_decide_eq_true hb)
      · change Holding (Function.update auto (.co k) (auto (.co k))) s
        rw [Function.update_eq_self]
        exact hh
    | _ =>
      cases he
      refine ⟨(fun h => by cases h), ?_⟩
      change Holding (Function.update auto _ (auto _)) s
      rw [Function.update_eq_self]
      exact hh
  | yield =>
    cases t with
    | co k =>
      cases he
      refine ⟨trivial, ?_⟩
      change Holding (Function.update auto (.co k) (auto (.co k))) _
      rw [Function.update_eq_self]
      have hrun := active_running hact
      exact hh.setStatus hp (by rw [hrun]; intro h; cases h)
    | _ => cases he
  | allocate priority role =>
    cases he
    refine ⟨trivial, ?_⟩
    change Holding (Function.update auto t (auto t)) _
    rw [Function.update_eq_self]
    exact hh.allocate

theorem Holding.exec {c : Cmd} {r : c.Res} (hh : Holding auto s) (hok : NotKept t c s)
    (hp : heldOk (auto t) c) (he : exec t c s = some (r, s')) :
    heldGets (auto t) c r ∧ Holding (Function.update auto t (nextHeld (auto t) c r)) s' := by
  obtain ⟨hact, he⟩ := exec_inv he
  have hplacid : Placid s s' → Holding (Function.update auto t (auto t)) s' := fun hp => by
    rw [Function.update_eq_self]
    exact hh.placid hp
  have hthread := isThread_of_active hact
  cases c with
  | lock c =>
    cases c with
    | acquire l =>
      simp only [execLock] at he
      split at he
      · next hfree =>
        cases he
        exact hh.acquire hact hfree
      · cases he
    | release l =>
      cases he
      exact ⟨trivial, hh.release hact hp⟩
  | co c => exact hh.execCo hact hok hp he
  | chan c =>
    refine ⟨?_, hplacid (execChan_placid he)⟩
    cases c with
    | copyToBuff c x =>
      intro htimer
      have hroom := (Buffer.copyToBuff_eq_none (b := (s.chans c).buffer) (x := x)).not.mpr (by
        rw [hok ((hh.locks t .timer hthread).mp htimer)]
        intro h; cases h)
      cases t with
      | co k =>
        simp only [execChan] at he
        split at he
        · next hnone => exact absurd hnone hroom
        · cases he
          rfl
      | _ => cases he
    | _ => trivial
  | group c =>
    refine ⟨?_, hplacid (.of_apart (execGroup_apart he))⟩
    cases c with
    | readCount g =>
      intro hg
      cases he
      exact hok ((hh.locks t (.group g) hthread).mp hg)
    | _ => trivial
  | async c => exact ⟨trivial, hplacid (.of_apart (execAsync_apart he))⟩
  | timer c => exact ⟨trivial, hplacid (.of_apart (execTimer_apart he))⟩
  | net c => exact ⟨trivial, hplacid (.of_apart (execNet_apart he))⟩

theorem Holding.env {e : Env} (hh : Holding auto s) (he : env e s = some s') : Holding auto s' := by
  cases e with
  | coreWait k =>
    simp only [Runtime.env] at he
    split at he
    · next hst =>
      cases he
      exact hh.setStatus (hh.running k (by rw [hst]; intro h; cases h)) (by rw [hst]; intro h; cases h)
    · cases he
  | unlock k l =>
    simp only [Runtime.env] at he
    split at he
    · next hvpu =>
      cases he
      refine ⟨fun u l' hu => ?_, hh.running, hh.unborn⟩
      rw [hh.locks u l' hu]
      by_cases hll : l' = l
      · subst hll
        rw [State.setLock_locks_self, hvpu.1]
        refine iff_of_false (fun he => ?_) (fun h => by cases h)
        cases he
        cases hu
      · rw [State.setLock_locks_ne _ _ hll]
    · cases he
  | sched k =>
    simp only [Runtime.env] at he
    split at he
    · next hst =>
      cases he
      exact hh.setStatus (hh.running k (by rw [hst]; intro h; cases h)) (by rw [hst]; intro h; cases h)
    · cases he
  | tick us =>
    cases he
    exact hh.placid ⟨rfl, rfl, rfl⟩
  | alive n =>
    simp only [Runtime.env] at he
    split at he
    · cases he
      exact hh.placid ⟨rfl, rfl, rfl⟩
    · cases he

theorem Holding.signal {k : Coid} (hh : Holding auto s) (hrun : s.status k = .running)
    (hfree : ∀ l, s.locks l ≠ some (.co k)) : Holding auto (s.setStatus k .ready) := by
  refine hh.setStatus (Finset.eq_empty_of_forall_notMem fun l hl => ?_) (by rw [hrun]; intro h; cases h)
  exact hfree l ((hh.locks (.co k) l rfl).mp hl)

theorem Start.holding {c : Config} (h : Start c) : Holding (fun _ => ∅) c.shared := by
  refine ⟨?_, fun _ _ => rfl, ?_⟩
  · intro t l _
    rw [h.locks l]
    exact iff_of_false (Finset.notMem_empty l) nofun
  · intro k hk
    rw [h.status k, if_neg (Nat.not_lt.mpr hk)]

/-- **No coroutine is switched out while it holds a lock**, but for those it hands to the VPU:
    in every run in which nobody is preempted with a lock held, timers find room in their
    channels and groups that are waited for have tasks left. -/
theorem locks_released {c : Config} (h : Reach timeshared.step ReleasedStep Start c) (k : Coid) (l : Lock)
    (hk : c.shared.status k ≠ .running) : c.shared.locks l ≠ some (.co k) := by
  obtain ⟨auto, hh, -⟩ := Machine.follows (P := heldLocks) (K := fun _ => True) (J := Holding)
    (fun _ _ hok => hok.ok)
    (fun _ _ => trivial) (fun _ hs => hs.prog) (fun t a _ _ => body_held t a) (fun _ hs => hs.holding)
    (fun auto s t c f r s' _ hh _ hok hp he => hh.exec hok hp he)
    (fun auto s t a s' _ hh _ _ _ he => hh.placid (.of_spared (enter_spared he)))
    (fun auto s e s' _ hh hok he => by
      cases e with
      | plain e => exact hh.env he
      | signal k =>
        simp only [timeshared] at he
        split at he
        · next hrun =>
          cases he
          exact hh.signal hrun hok
        · cases he) h
  intro hl
  have hmem := (hh.locks (.co k) l rfl).mpr hl
  rw [hh.running k hk] at hmem
  exact Finset.notMem_empty l hmem

/-! ### Runs -/

/-- A stronger condition that can be checked along a run. -/
def neverKept (t : Tid) (c : Cmd) (s : State) : Bool :=
  match c with
  | .co (.preempts d) => match t with
    | .co k => !decide ((s.cos k).priority > (s.cos d).priority ∧ s.alive = s.xtIndex)
    | _ => true
  | .chan (.copyToBuff c _) => !(s.chans c).buffer.full
  | .group (.readCount g) => decide ((s.groups g).count > 0)
  | _ => true

theorem notKept_of_neverKept {c : Cmd} (h : neverKept t c s = true) : NotKept t c s := by
  cases c with
  | co c =>
    cases c with
    | preempts d =>
      rintro k l rfl _
      simp only [neverKept, Bool.not_eq_true', decide_eq_false_iff_not] at h
      exact h
    | _ => trivial
  | chan c =>
    cases c with
    | copyToBuff c x => exact fun _ => by simpa [neverKept] using h
    | _ => trivial
  | group c =>
    cases c with
    | readCount g => exact fun _ => by simpa [neverKept] using h
    | _ => trivial
  | _ => trivial

/-- The channel 1 has one slot, as that of a timer. -/
def oneSlot (c : ChanId) : Buffer := if c = 1 then .ring (.empty 1 (by decide) 0) else .none

theorem oneSlot_empty (c : ChanId) : (oneSlot c).contents = [] := by
  unfold oneSlot
  split <;> rfl

/-- No clock signal. -/
def plainStep : Label Tid Call ClockEnv → Bool
  | .env (.signal _) => false
  | _ => true

theorem ReleasedStep.of_checked {c : Config} {l : Label Tid Call ClockEnv}
    (h : stepOk (fun t c s => neverKept t c s = true) (fun _ _ _ => True) c l ∧ plainStep l = true) :
    ReleasedStep c l := by
  obtain ⟨hok, hplain⟩ := h
  cases l with
  | run t => exact fun cmd hcmd => notKept_of_neverKept (hok cmd hcmd)
  | call t a => trivial
  | env e =>
    cases e with
    | plain e => trivial
    | signal k => cases hplain

/-- The coroutine 0 starts a timer, and the daemon fires it and has nothing left to do. -/
def timerFires : List (Label Tid Call ClockEnv) :=
  [.env (.plain (.sched 0)), .call (.co 0) (.timerAt 1 10)] ++ List.replicate 10 (.run (.co 0)) ++
  [.env (.plain (.tick 20)), .env (.plain (.sched 1)), .call (.co 1) .intertimerRoutine] ++
  List.replicate 20 (.run (.co 1)) ++ [.env (.plain (.coreWait 1))]

/-- A clock signal interrupts the coroutine 0 before. -/
theorem locks_released_timerFires : ∃ c : Config, c.shared.status 1 = .wait ∧
    c.shared.locks .timer = some (.vpu 1) ∧ ∀ l, c.shared.locks l ≠ some (.co 1) := by
  have hstart : Reach timeshared.step ReleasedStep Start (initial 1 oneSlot) :=
    .start (initial_start 1 oneSlot oneSlot_empty)
  let c₁ : Config := { initial 1 oneSlot with shared := (initial 1 oneSlot).shared.setStatus 0 .running }
  have hrun : Reach timeshared.step ReleasedStep Start c₁ :=
    .next (.env (.plain (.sched 0))) hstart trivial rfl
  let c₂ : Config := { c₁ with shared := c₁.shared.setStatus 0 .ready }
  have hsignal : Reach timeshared.step ReleasedStep Start c₂ := by
    refine .next (.env (.signal 0)) hrun ?_ rfl
    intro l hl
    cases hl
  obtain ⟨c, hc, hP⟩ := Reach.exists_of_runOk timeshared.step
    (fun c l => stepOk (fun t c s => neverKept t c s = true) (fun _ _ _ => True) c l ∧ plainStep l = true)
    (fun c => c = c₂) rfl timerFires
    (fun c => c.shared.status 1 == .wait && c.shared.locks .timer == some (.vpu 1)) (by decide +kernel)
  simp only [Bool.and_eq_true, beq_iff_eq] at hP
  have hreach := hsignal.trans (hc.mono fun _ _ h => ReleasedStep.of_checked h)
  refine ⟨c, hP.1, hP.2, fun l => locks_released hreach 1 l ?_⟩
  rw [hP.1]
  intro h
  cases h

/-- A coroutine of low priority starts the first timer: it creates the daemon, of high priority,
    and yields to it with the lock of the manager held. -/
theorem locks_kept : ¬ ∀ c : Config,
    Reach machine.step (stepOk (fun _ _ _ => True) fun _ _ _ => True) Start c →
      ∀ k l, c.shared.status k ≠ .running → c.shared.locks l ≠ some (.co k) := by
  intro hall
  obtain ⟨c, hc, hP⟩ := Reach.exists_of_runOk machine.step
    (stepOk (fun _ _ _ => True) fun _ _ _ => True) Start (initial_start 1 oneSlot oneSlot_empty)
    ([.env (.sched 0), .call (.co 0) (.spawn 2)] ++ steps (.co 0) 3 ++
      [.env (.sched 1), .call (.co 1) (.timerAt 1 10)] ++ steps (.co 1) 9)
    (fun c => c.shared.status 1 == .ready && c.shared.locks .timer == some (.co 1)) (by decide +kernel)
  simp only [Bool.and_eq_true, beq_iff_eq] at hP
  exact hall c hc 1 .timer (by rw [hP.1]; exact nofun) hP.2

/-- The daemon waits at the full channel of a timer, with the lock of the manager. -/
example : (run machine.step (initial 1 oneSlot)
    ([.env (.sched 0), .call (.co 0) (.chanSend 1 7 true)] ++ steps (.co 0) 8 ++
      [.call (.co 0) (.timerAt 1 10)] ++ steps (.co 0) 10 ++
      [.env (.tick 20), .env (.sched 1), .call (.co 1) .intertimerRoutine] ++ steps (.co 1) 14 ++
      [.env (.coreWait 1)])).any
    (fun c => c.shared.status 1 == .wait && c.shared.locks .timer == some (.co 1)) = true := by
  decide +kernel

/-- The last task goes between the two readings of the counter in `coroc_group_sync`. -/
example : (run machine.step (initial 2 oneSlot)
    ([.env (.sched 0), .env (.sched 1), .call (.co 0) (.groupAddTask 0)] ++ steps (.co 0) 1 ++
      [.call (.co 0) (.groupSync 0)] ++ steps (.co 0) 1 ++ [.call (.co 1) (.groupNotify 0 0)] ++
      steps (.co 1) 1 ++ steps (.co 0) 3 ++ [.call (.co 0) .yield, .run (.co 0)])).any
    (fun c => c.shared.status 0 == .ready && c.shared.locks (.group 0) == some (.co 0)) = true := by
  decide +kernel

end Coroc.Runtime
