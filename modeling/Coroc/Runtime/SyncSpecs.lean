import Coroc.Runtime.SelectSpecs

/-!
# Groups, the asynchronous pool and timers

The other operations that block or wake.  Their objects are not part of `Here`: what a
coroutine knows about a group or about the timer daemon stands beside it.
-/

namespace Coroc.Runtime

open Coroc.Program

variable {s s' : State} {t : Tid} {x : Ctx} {cl : Claim} {k d : Coid} {g : GroupId}
variable {r : Role} {late : Bool} {ls : List Lock} {know : ChanId → Chan → Prop}

/-! ### Steps that publish or claim a wait outside the channels -/

/-- Steps on groups, requests and timers leave a coroutine where it is. -/
theorem Here.outside (h : Here x cl s) (hcos : s'.cos = s.cos) (hstatus : s'.status = s.status)
    (hlocks : s'.locks = s.locks) (hchans : s'.chans = s.chans) (hfresh : s'.fresh = s.fresh)
    (hsettled : .timer ∈ x.locks → Settled s → Settled s') : Here x cl s' := by
  obtain ⟨hat, hcl⟩ := h
  refine ⟨⟨by rw [hfresh]; exact hat.born, by rw [hstatus]; exact hat.awake, by rw [hcos]; exact hat.self,
    by rw [hlocks]; exact hat.locks, by rw [hchans]; exact hat.chans,
    fun hm => hsettled hm (hat.settled hm)⟩, ?_⟩
  exact hcl.of_cos (fun _ => by rw [hcos]) fun _ => by rw [hcos]

/-- The coroutine publishes that it is going to wait. -/
theorem Here.publish {site : Site} {items : Quantum → Item}
    (h : Here ⟨k, Plain r late [], ls, know⟩ .free s) (hq : site.quanta = []) :
    Here ⟨k, Publishes r late site items, ls, know⟩ .free (s.setCo k (Co.publish site)) := by
  have hself : Plain r late [] (s.cos k) := h.1.self
  refine ⟨h.1.own (f := Co.publish site) rfl ⟨rfl, hself.role, hself.late, hself.moved, ?_⟩, ?_⟩
  · rw [hq]
    nofun
  · rintro e ⟨w, hw, hp⟩
    by_cases hek : e = k
    · rw [hek, State.setCo_cos_self] at hw
      cases hw
      rcases hp with ⟨q, hp⟩ | ⟨o, hp⟩ <;> cases hp
    · rw [State.setCo_cos_ne _ _ hek] at hw
      exact h.2 e ⟨w, hw, hp⟩

/-- A thread claims the wait of `d` for `vpu_ready`. -/
theorem Claim.Ok.call {site : Site} (h : Claim.Ok t s .free)
    (hw : (s.cos d).wait = some ⟨site, .idle⟩) : Claim.Ok t (s.setCo d (Co.call t)) (.serve d) := by
  refine ⟨⟨site, none, ?_⟩, ?_⟩
  · rw [State.setCo_cos_self]
    simp [Co.call, hw]
  · rintro e ⟨w, hwe, hp⟩
    by_contra hed
    rw [State.setCo_cos_ne _ _ hed] at hwe
    exact h e ⟨w, hwe, hp⟩

theorem Here.call {site : Site} (h : Here x .free s) (hself : ∀ co, x.self co → co.wait = none)
    (hw : (s.cos d).wait = some ⟨site, .idle⟩) :
    Here x (.serve d) (s.setCo d (Co.call (.co x.k))) := by
  have hne : x.k ≠ d := by
    rintro rfl
    exact nomatch (hself _ h.1.self).symm.trans hw
  refine ⟨⟨h.1.born, h.1.awake, ?_, h.1.locks, h.1.chans, fun hm j hj => h.1.settled hm j ?_⟩,
    h.2.call hw⟩
  · rw [State.setCo_cos_ne _ _ hne]
    exact h.1.self
  · by_cases hjd : j = d
    · rw [hjd, State.setCo_cos_self] at hj
      rw [hjd]
      exact hj
    · rwa [State.setCo_cos_ne _ _ hjd] at hj

/-! ### Groups -/

/-- `k` is the parent of `g` and has not decremented the counter. -/
def Owns (k : Coid) (g : GroupId) (b : Bool) (s : State) : Prop :=
  (s.groups g).owner = k ∧ (s.groups g).begun = b ∧ (s.groups g).synced = false

theorem Owns.stable {b : Bool} : Stable rules (.co k) (Owns k g b) := by
  rintro s s' - - hr ⟨howner, hbegun, hsynced⟩
  obtain ⟨hb, hs⟩ := (hr rfl).begun g k rfl howner
  exact ⟨((hr rfl).owner g).trans howner, hb.trans hbegun, hs.trans hsynced⟩

theorem notifying_stable : Stable rules (.co k) fun s => k ∈ (s.groups g).notifying :=
  fun _ _ _ _ hr h => (hr rfl).notifying g k rfl h

/-- **`coroc_group_add_task`**. -/
theorem groupAddTask_spec (k : Coid) (g : GroupId) :
    Triple rules (.co k) (fun s => Free k r [] s ∧ Owns k g false s) (groupAddTask g)
      fun _ => Free k r [] := by
  refine issue_spec (Free.stable.and Owns.stable) (fun _ => Free.stable) fun s hi h => ?_
  obtain ⟨⟨late, h⟩, howner, -, hsynced⟩ := h
  refine ⟨⟨k, rfl, howner, hsynced⟩, fun u s' he _ => ⟨late, ?_⟩⟩
  obtain ⟨-, he⟩ := exec_inv he
  cases he
  exact h.outside rfl rfl rfl rfl rfl fun _ h => h

theorem incErrors_spec (k : Coid) (g : GroupId) :
    Triple rules (.co k) (fun s => Free k r [] s ∧ k ∈ (s.groups g).notifying) (incErrors g)
      fun _ s => Free k r [] s ∧ k ∈ (s.groups g).notifying := by
  refine issue_spec (Free.stable.and notifying_stable) (fun _ => Free.stable.and notifying_stable)
    fun s hi h => ⟨trivial, fun u s' he _ => ?_⟩
  obtain ⟨⟨late, h⟩, hk⟩ := h
  obtain ⟨-, he⟩ := exec_inv he
  cases he
  refine ⟨⟨late, h.outside rfl rfl rfl rfl rfl fun _ h => h⟩, ?_⟩
  rw [State.setGroup_groups_self]
  exact hk

/-- `t` has brought the counter of `g` to zero and has not looked for the parent. -/
def Last (t : Tid) (g : GroupId) (s : State) : Prop :=
  (s.groups g).last = some t ∧ (s.groups g).looked = false

theorem Last.stable (ht : t.isThread = true) : Stable rules t (Last t g) :=
  fun _ _ _ _ hr h => (hr ht).last g h.1 h.2

theorem decNotify_spec (k : Coid) (g : GroupId) :
    Triple rules (.co k) (fun s => Free k r [] s ∧ k ∈ (s.groups g).notifying) (decCount g .notify)
      fun n s => Free k r [] s ∧ (n = 0 → Last (.co k) g s) := by
  refine issue_spec (Free.stable.and notifying_stable) (fun n => Free.stable.and ?_)
    fun s hi h => ⟨⟨k, rfl, h.2⟩, fun n s' he _ => ?_⟩
  · exact fun s s' hi hi' hr h hn => Last.stable rfl s s' hi hi' hr (h hn)
  · obtain ⟨⟨late, h⟩, hk⟩ := h
    obtain ⟨-, he⟩ := exec_inv he
    cases he
    refine ⟨⟨late, h.outside rfl rfl rfl rfl rfl fun _ h => h⟩, fun hn => ?_⟩
    have hcount := (hi.group g).count
    have hpos := List.length_pos_of_mem hk
    have hlooked := ((hi.group g).last (by omega)).2
    unfold Last
    rw [State.setGroup_groups_self]
    exact ⟨if_pos hn, hlooked⟩

theorem readParent_spec (k : Coid) (g : GroupId) :
    Triple rules (.co k)
      (fun s => Here ⟨k, Plain r late [], [.group g], fun _ _ => True⟩ .free s ∧ Last (.co k) g s)
      (readParent g) fun p => Here ⟨k, Plain r late [], [.group g], fun _ _ => True⟩
        (match p with
          | some p => .serve p
          | none => .free) := by
  have hstable : Stable rules (.co k) (Here ⟨k, Plain r late [], [.group g], fun _ _ => True⟩ .free) :=
    Here.stable_of rfl
  refine issue_spec (hstable.and (Last.stable rfl)) (fun p => Here.stable_of rfl) fun s hi h => ?_
  obtain ⟨h, hlast, hlooked⟩ := h
  have hself : Plain r late [] (s.cos k) := h.1.self
  refine ⟨⟨h.1.locks _ List.mem_cons_self, hlast, hlooked, k, rfl, hself.wait⟩, fun p s' he _ => ?_⟩
  obtain ⟨-, he⟩ := exec_inv he
  cases he
  have hlook : Here ⟨k, Plain r late [], [.group g], fun _ _ => True⟩ .free (s.setGroup g Group.look) :=
    h.outside rfl rfl rfl rfl rfl fun _ h => h
  cases hp : (s.groups g).parent with
  | none => exact hlook
  | some p => exact hlook.call Plain.waits_not ((hi.group g).parent p hp hlooked)

/-- A lock taken outside the channel operations, also as the first command after a sleep. -/
theorem acquireFirst_spec (k : Coid) (l : Lock) {P F : State → Prop} (hP : Stable rules (.co k) P)
    (hF : Stable rules (.co k) F) (hlock : ∀ s, F s → F (s.setLock l (some (.co k))))
    (hfree : ∀ s, Inv s → s.status k = .running → P s → Free k r ls s ∧ F s) :
    Triple rules (.co k) P (lockAcquire l) fun _ s => Free k r (l :: ls) s ∧ F s := by
  refine issue_spec hP (fun _ => Free.stable.and hF) fun s hi h => ⟨trivial, fun u s' he _ => ?_⟩
  obtain ⟨hact, hnone, rfl⟩ := acquire_inv he
  obtain ⟨⟨late, hat, hcl⟩, hs⟩ := hfree s hi (active_running hact) h
  obtain ⟨hat', -⟩ := At.of_acquire hi hat.born hat.awake hat.self hat.locks hat.chans
    hat.settled hnone
  have hhere : Here (Ctx.lock ⟨k, Plain r late [], ls, fun _ _ => True⟩ l) .free
      (s.setLock l (some (.co k))) :=
    ⟨hat', by rw [Ctx.lock_k]; exact hcl.of_cos (fun _ => rfl) fun _ => rfl⟩
  refine ⟨⟨late, hhere.mono (Ctx.lock_k ⟨k, Plain r late [], ls, fun _ _ => True⟩ l).symm
    (fun co hp => by rwa [Ctx.lock_self] at hp)
    (fun m hm => by rw [Ctx.lock_locks]; exact hm) fun _ _ _ _ => trivial⟩, hlock s hs⟩

theorem acquireFree_spec (k : Coid) (l : Lock) {F : State → Prop} (hF : Stable rules (.co k) F)
    (hlock : ∀ s, F s → F (s.setLock l (some (.co k)))) :
    Triple rules (.co k) (fun s => Free k r ls s ∧ F s) (lockAcquire l)
      fun _ s => Free k r (l :: ls) s ∧ F s :=
  acquireFirst_spec k l (Free.stable.and hF) hF hlock fun _ _ _ h => h

theorem releaseFree_spec (k : Coid) (l : Lock) (hl : ∀ c, l ≠ .chan c) :
    Triple rules (.co k) (Here ⟨k, Plain r late [], [l], fun _ _ => True⟩ cl) (lockRelease l)
      fun _ => Here ⟨k, Plain r late [], [], fun _ _ => True⟩ cl :=
  (release_spec ⟨k, Plain r late [], [l], fun _ _ => True⟩ cl l [] Plain.waits_not List.mem_cons_self
    nofun fun c hc => absurd hc (hl c)).post fun _ _ _ h => h.1

/-- **`coroc_group_notify`**. -/
theorem groupNotify_spec (k : Coid) (g : GroupId) (retval : Nat) :
    Triple rules (.co k) (fun s => Free k r [] s ∧ k ∈ (s.groups g).notifying) (groupNotify g retval)
      fun _ => Free k r [] := by
  have hdec : Triple rules (.co k) (fun s => Free k r [] s ∧ k ∈ (s.groups g).notifying)
      (do
        if (← decCount g .notify) = 0 then
          lockAcquire (.group g)
          let parent ← readParent g
          lockRelease (.group g)
          match parent with
          | some p => vpuReady p true
          | none => pure ()) fun _ => Free k r [] := by
    refine Triple.bind (decNotify_spec k g) fun n => ?_
    by_cases hn : n = 0
    · rw [if_pos hn]
      refine Triple.bind ((acquireFree_spec k (.group g) (Last.stable rfl) fun _ h => h).pre
        fun s _ h => ⟨h.1, h.2 hn⟩) fun _ => ?_
      refine Triple.pre (P := fun s => ∃ late, Here ⟨k, Plain r late [], [.group g], fun _ _ => True⟩ .free s ∧
        Last (.co k) g s) ?_ fun s _ h => ?_
      · refine Triple.of_forall fun late => ?_
        refine Triple.bind (readParent_spec k g) fun p => ?_
        refine Triple.bind (releaseFree_spec k (.group g) nofun) fun _ => ?_
        cases p with
        | none => exact Triple.ret (Here.stable_of rfl) fun _ _ h => ⟨late, h⟩
        | some p => exact (vpuReady_spec _ p true Plain.waits_not).post fun _ _ _ h => ⟨late, h⟩
      · obtain ⟨⟨late, h⟩, hlast⟩ := h
        exact ⟨late, h, hlast⟩
    · rw [if_neg hn]
      exact Triple.pre (Triple.ret Free.stable fun _ _ h => h) fun s _ h => h.1
  unfold groupNotify
  by_cases hret : retval = 0
  · rw [if_neg (not_not.mpr hret)]
    exact hdec
  · rw [if_pos hret]
    exact Triple.bind (incErrors_spec k g) fun _ => hdec

/-- `k` is the parent of `g`, has its lock, and nobody has looked for the parent yet. -/
def Unlooked (k : Coid) (g : GroupId) (s : State) : Prop :=
  (s.groups g).owner = k ∧ s.locks (.group g) = some (.co k) ∧ (s.groups g).looked = false

theorem Unlooked.stable : Stable rules (.co k) (Unlooked k g) := by
  rintro s s' - - hr ⟨howner, hlock, hlooked⟩
  exact ⟨((hr rfl).owner g).trans howner, ((hr rfl).locks _).mp hlock,
    ((hr rfl).parent g hlock).2.trans hlooked⟩

theorem owner_stable : Stable rules (.co k) fun s => (s.groups g).owner = k :=
  fun _ _ _ _ hr h => ((hr rfl).owner g).trans h

theorem decSync_spec (k : Coid) (g : GroupId) :
    Triple rules (.co k) (fun s => Free k r [] s ∧ Owns k g true s) (decCount g .sync)
      fun _ s => Free k r [] s ∧ (s.groups g).owner = k := by
  refine issue_spec (Free.stable.and Owns.stable) (fun _ => Free.stable.and owner_stable) fun s hi h => ?_
  obtain ⟨⟨late, h⟩, howner, hbegun, hsynced⟩ := h
  refine ⟨⟨k, rfl, howner, hbegun, hsynced⟩, fun u s' he _ => ?_⟩
  obtain ⟨-, he⟩ := exec_inv he
  cases he
  refine ⟨⟨late, h.outside rfl rfl rfl rfl rfl fun _ h => h⟩, ?_⟩
  rw [State.setGroup_groups_self]
  exact howner

theorem readCount_spec (k : Coid) (g : GroupId) :
    Triple rules (.co k) (fun s => Free k r [.group g] s ∧ (s.groups g).owner = k) (readCount g)
      fun n s => Free k r [.group g] s ∧ (n > 0 → Unlooked k g s) := by
  refine issue_spec (Free.stable.and owner_stable) (fun n => Free.stable.and ?_)
    fun s hi h => ⟨trivial, fun n s' he _ => ?_⟩
  · exact fun s s' hi hi' hr h hn => Unlooked.stable s s' hi hi' hr (h hn)
  · obtain ⟨-, he⟩ := exec_inv he
    cases he
    refine ⟨h.1, fun hn => ⟨h.2, ?_, ((hi.group g).last (by omega)).2⟩⟩
    obtain ⟨late, h, -⟩ := h.1
    exact h.locks _ List.mem_cons_self

theorem setParent_spec (k : Coid) (g : GroupId) :
    Triple rules (.co k)
      (fun s => Here ⟨k, Plain r late [], [.group g], fun _ _ => True⟩ .free s ∧ Unlooked k g s)
      (setParent g)
      fun _ => Here ⟨k, Publishes r late (.group g) fun _ => 0, [.group g], fun _ _ => True⟩ .free := by
  have hstable : Stable rules (.co k) (Here ⟨k, Plain r late [], [.group g], fun _ _ => True⟩ .free) :=
    Here.stable_of rfl
  refine issue_spec (hstable.and Unlooked.stable) (fun _ => Here.stable_of rfl) fun s hi h => ?_
  obtain ⟨h, howner, hlock, hlooked⟩ := h
  have hself : Plain r late [] (s.cos k) := h.1.self
  refine ⟨⟨k, rfl, hlock, hlooked, howner, hself.wait, hself.moved⟩, fun u s' he _ => ?_⟩
  obtain ⟨-, he⟩ := exec_inv he
  cases he
  have hadopt : Here ⟨k, Plain r late [], [.group g], fun _ _ => True⟩ .free (s.setGroup g (Group.adopt k)) :=
    h.outside rfl rfl rfl rfl rfl fun _ h => h
  exact hadopt.publish rfl

/-- A lock may be forgotten. -/
theorem Free.forget (h : Free k r ls s) : Free k r [] s := by
  obtain ⟨late, h⟩ := h
  exact ⟨late, h.mono rfl (fun _ h => h) nofun nofun⟩

theorem readErrors_spec (k : Coid) (g : GroupId) {P : State → Prop} (hP : Stable rules (.co k) P)
    (hfree : ∀ s, Inv s → s.status k = .running → P s → Free k r [] s) :
    Triple rules (.co k) P (readErrors g) fun _ => Free k r [] := by
  refine issue_spec hP (fun _ => Free.stable) fun s hi h => ⟨trivial, fun u s' he _ => ?_⟩
  obtain ⟨hact, he⟩ := exec_inv he
  cases he
  exact hfree s hi (active_running hact) h

/-- **`coroc_group_sync`**.  When the last subtask was faster, the lock is kept. -/
theorem groupSync_spec (k : Coid) (g : GroupId) :
    Triple rules (.co k) (fun s => Free k r [] s ∧ Owns k g true s) (groupSync g)
      fun _ => Free k r [] := by
  have hlast : ∀ {P : State → Prop}, Stable rules (.co k) P →
      (∀ s, Inv s → s.status k = .running → P s → Free k r [] s) →
      Triple rules (.co k) P (do let _ ← readErrors g) fun _ => Free k r [] := fun hP hfree =>
    Triple.bind (readErrors_spec k g hP hfree) fun _ => Triple.ret Free.stable fun _ _ h => h
  refine Triple.bind (decSync_spec k g) fun n => ?_
  by_cases hn : n > 0
  · rw [if_pos hn]
    refine Triple.bind (acquireFree_spec k (.group g) owner_stable fun _ h => h) fun _ => ?_
    refine Triple.bind (readCount_spec k g) fun m => ?_
    by_cases hm : m > 0
    · rw [if_pos hm]
      refine Triple.pre (P := fun s => ∃ late, Here ⟨k, Plain r late [], [.group g], fun _ _ => True⟩ .free s ∧
        Unlooked k g s) ?_ fun s _ h => ?_
      · refine Triple.of_forall fun late => Triple.bind (setParent_spec k g) fun _ => ?_
        refine Triple.bind (suspend_spec k [.group g] [] [.group g] (fun _ _ => True) (fun _ h => h)
          (fun _ h => h) nofun fun c _ hc => absurd hc (by simp)) fun _ => ?_
        exact hlast Asleep.stable fun s hi hrun h =>
          ⟨late, h.resume hi hrun rfl (by simp [Site.locks])⟩
      · obtain ⟨⟨late, h⟩, hun⟩ := h
        exact ⟨late, h, hun hm⟩
    · rw [if_neg hm]
      exact (hlast Free.stable fun s _ _ h => h.forget).pre fun s _ h => h.1
  · rw [if_neg hn]
    exact (hlast Free.stable fun s _ _ h => h).pre fun s _ h => h.1

/-- Between two calls, or still asleep in the last step of one. -/
def Rest (k : Coid) (r : Role) (s : State) : Prop :=
  Free k r [] s ∨ ∃ late site items, site.quanta = [] ∧ site.locks ≠ [] ∧
    Asleep k r late [] site items s

theorem Rest.stable : Stable rules (.co k) (Rest k r) := by
  rintro s s' hi hi' hr (h | ⟨late, site, items, hq, hne, h⟩)
  · exact .inl (Free.stable s s' hi hi' hr h)
  · exact .inr ⟨late, site, items, hq, hne, Asleep.stable s s' hi hi' hr h⟩

theorem Rest.free (h : Rest k r s) (hi : Inv s) (hrun : s.status k = .running) : Free k r [] s := by
  rcases h with h | ⟨late, site, items, hq, hne, h⟩
  · exact h
  · exact ⟨late, h.resume hi hrun hq hne⟩

/-! ### The asynchronous pool -/

theorem readThreads_spec (k : Coid) :
    Triple rules (.co k) (Free k r []) readThreads fun _ => Free k r [] := by
  refine issue_spec Free.stable (fun _ => Free.stable) fun s hi h => ⟨trivial, fun u s' he _ => ?_⟩
  obtain ⟨-, he⟩ := exec_inv he
  cases he
  exact h

theorem asyncQueueAdd_spec (k : Coid) :
    Triple rules (.co k) (Here ⟨k, Plain r late [], [.async], fun _ _ => True⟩ .free) asyncQueueAdd
      fun _ => Here ⟨k, Publishes r late .async fun _ => 0, [.async], fun _ _ => True⟩ .free := by
  refine issue_spec (Here.stable_of rfl) (fun _ => Here.stable_of rfl) fun s hi h => ?_
  have hself : Plain r late [] (s.cos k) := h.1.self
  refine ⟨⟨k, rfl, h.1.locks _ List.mem_cons_self, hself.wait, hself.moved⟩, fun u s' he _ => ?_⟩
  obtain ⟨-, he⟩ := exec_inv he
  cases he
  exact (h.publish rfl).outside rfl rfl rfl rfl rfl fun _ h => h

/-- **`coroc_async_request_submit`**. -/
theorem asyncRequestSubmit_spec (k : Coid) :
    Triple rules (.co k) (Free k r []) asyncRequestSubmit fun _ => Rest k r := by
  refine Triple.bind (readThreads_spec k) fun b => ?_
  cases b with
  | false => exact Triple.ret Free.stable fun _ _ h => .inl h
  | true =>
    refine Triple.bind ((acquireFree_spec k .async (.const True) fun _ h => h).conseq
      (fun s _ h => ⟨h, trivial⟩) fun _ _ _ h => h.1) fun _ => ?_
    refine Triple.of_forall fun late => Triple.bind (asyncQueueAdd_spec k) fun _ => ?_
    have hsite : ∀ l ∈ Site.async.locks, l ∈ [Lock.async] := fun _ h => h
    refine (suspend_spec k [.async] [] [.async] (fun _ _ => True) hsite (fun _ h => h) nofun
      fun c _ hc => absurd hc (by simp)).post fun _ s _ h => ?_
    exact .inr ⟨late, .async, fun _ => 0, rfl, by simp [Site.locks], h⟩

/-- **`coroc_notify_tsleep_u`**: the daemon sleeps in an asynchronous request. -/
theorem notifyTsleepU_spec (k : Coid) (ns : Int64) :
    Triple rules (.co k) (Free k r []) (notifyTsleepU ns) fun _ => Rest k r := by
  unfold notifyTsleepU
  split
  · exact asyncRequestSubmit_spec k
  · exact Triple.ret Free.stable fun _ _ h => .inl h

/-- A thread of the pool that has the mutex. -/
def Pool (a : Nat) (s : State) : Prop :=
  s.locks .async = some (.async a) ∧ Claim.Ok (.async a) s .free

variable {a : Nat}

theorem Pool.stable : Stable rules (.async a) (Pool a) :=
  fun _ _ _ _ hr h => ⟨((hr rfl).locks _).mp h.1, h.2.rely (hr rfl)⟩

theorem acquireAsync_spec (a : Nat) :
    Triple rules (.async a) (fun s => Claim.Ok (.async a) s .free) (lockAcquire .async)
      fun _ => Pool a := by
  refine issue_spec (claim_stable rfl) (fun _ => Pool.stable) fun s hi h => ⟨trivial, fun u s' he _ => ?_⟩
  obtain ⟨-, -, rfl⟩ := acquire_inv he
  exact ⟨State.setLock_locks_self _ _ _, h.of_cos (fun _ => rfl) fun _ => rfl⟩

theorem releaseAsync_spec (a : Nat) (cl : Claim) :
    Triple rules (.async a) (fun s => s.locks .async = some (.async a) ∧ cl.Ok (.async a) s)
      (lockRelease .async) fun _ s => cl.Ok (.async a) s := by
  refine issue_spec ?_ (fun _ => claim_stable rfl) fun s hi h => ⟨⟨h.1, nofun, nofun, nofun⟩, fun u s' he _ => ?_⟩
  · exact fun _ _ _ _ hr h => ⟨((hr rfl).locks _).mp h.1, h.2.rely (hr rfl)⟩
  · obtain ⟨-, he⟩ := exec_inv he
    cases he
    exact h.2.of_cos (fun _ => rfl) fun _ => rfl

theorem asyncReadStatus_spec (a : Nat) :
    Triple rules (.async a) (Pool a) asyncReadStatus fun _ => Pool a := by
  refine issue_spec Pool.stable (fun _ => Pool.stable) fun s hi h => ⟨trivial, fun u s' he _ => ?_⟩
  obtain ⟨-, he⟩ := exec_inv he
  cases he
  exact h

/-- The claim that comes with a request. -/
def requestClaim : Option Coid → Claim
  | some d => .serve d
  | none => .free

theorem asyncQueueRem_spec (a : Nat) :
    Triple rules (.async a) (Pool a) asyncQueueRem
      fun o s => s.locks .async = some (.async a) ∧ (requestClaim o).Ok (.async a) s := by
  refine issue_spec Pool.stable (fun o => ?_) fun s hi h => ⟨⟨h.1, a, rfl⟩, fun o s' he _ => ?_⟩
  · exact fun _ _ _ _ hr h => ⟨((hr rfl).locks _).mp h.1, h.2.rely (hr rfl)⟩
  · obtain ⟨-, he⟩ := exec_inv he
    cases he
    cases hreq : s.requests.head? with
    | none => exact ⟨h.1, h.2⟩
    | some d =>
      have hw := hi.async.wait d (List.mem_of_mem_head? hreq)
      exact ⟨h.1, h.2.call hw⟩

theorem wakeRequest_spec (a : Nat) (d : Coid) :
    Triple rules (.async a) (fun s => Claim.Ok (.async a) s (.serve d)) (vpuReady d false)
      fun _ s => Claim.Ok (.async a) s .free := by
  refine Triple.bind (M := fun _ s => Claim.Ok (.async a) s .free) ?_ fun _ =>
    Triple.ret (claim_stable rfl) fun _ _ h => h
  refine issue_spec (claim_stable rfl) (fun _ => claim_stable rfl) fun s hi h => ⟨h.1, fun u s' he _ => ?_⟩
  obtain ⟨-, -, hs'⟩ := ready_inv he
  exact h.ready hs'

/-- **`coroc_async_thread_routine`**. -/
theorem asyncThreadRoutine_spec (a : Nat) :
    Triple rules (.async a) (fun s => Claim.Ok (.async a) s .free) asyncThreadRoutine
      fun _ s => Claim.Ok (.async a) s .free := by
  refine Triple.bind (acquireAsync_spec a) fun _ => ?_
  refine Triple.loop Pool.stable (fun _ s => Claim.Ok (.async a) s .free) ?_
    fun _ => Triple.ret (claim_stable rfl) fun _ _ h => h
  refine Triple.bind (M := fun _ => Pool a) ?_ fun _ => ?_
  · -- wait for a request
    refine Triple.loop Pool.stable (fun _ => Pool a) ?_ fun _ => Triple.ret Pool.stable fun _ _ h => h
    refine Triple.bind (asyncReadStatus_spec a) fun b => ?_
    cases b with
    | true => exact Triple.ret Pool.stable fun _ _ h => h
    | false =>
      refine Triple.bind (releaseAsync_spec a .free) fun _ => ?_
      exact Triple.bind (acquireAsync_spec a) fun _ => Triple.ret Pool.stable fun _ _ h => h
  · refine Triple.bind (asyncQueueRem_spec a) fun o => ?_
    refine Triple.bind (releaseAsync_spec a _) fun _ => ?_
    cases o with
    | none => exact Triple.bind (acquireAsync_spec a) fun _ => Triple.ret Pool.stable fun _ _ h => h
    | some d =>
      refine Triple.bind (wakeRequest_spec a d) fun _ => ?_
      exact Triple.bind (acquireAsync_spec a) fun _ => Triple.ret Pool.stable fun _ _ h => h

/-! ### Creating coroutines -/

/-- A coroutine that was created by `k` for the role `role` and is not registered yet. -/
def Created (k : Coid) (role : Role) (d : Coid) (s : State) : Prop :=
  (s.cos d).role = role ∧ d < s.fresh ∧
    (role = .timer → s.locks .timer = some (.co k) ∧ s.timers.daemon = none)

variable {role : Role}

theorem Created.stable : Stable rules (.co k) (Created k role d) := by
  rintro s s' - - hr ⟨hrole, hd, htimer⟩
  refine ⟨((hr rfl).role d hd).trans hrole, Nat.lt_of_lt_of_le hd (hr rfl).fresh, fun h => ?_⟩
  obtain ⟨hlock, hnone⟩ := htimer h
  exact ⟨((hr rfl).locks _).mp hlock, (hr rfl).vacant hlock hnone⟩

/-- The commands of `vpu_ready`. -/
def isReady : Cmd → Prop
  | .co (.ready _) | .co (.preempts _) | .co .yield => True
  | _ => False

theorem vpuReady_issues (e : Coid) (preempt : Bool) :
    (vpuReady e preempt).Issues isReady (fun _ _ => True) fun _ => True := by
  refine ⟨trivial, fun _ _ => ?_⟩
  cases preempt with
  | false => trivial
  | true =>
    refine ⟨trivial, fun b _ => ?_⟩
    cases b with
    | false => trivial
    | true => exact ⟨trivial, fun _ _ => trivial⟩

theorem Created.ready {c : Cmd} {res : c.Res} (hc : isReady c) (h : Created k role d s)
    (he : machine.exec (.co k) c s = some (res, s')) : Created k role d s' := by
  obtain ⟨-, he⟩ := exec_inv he
  unfold isReady at hc
  split at hc
  · rename_i e _
    simp only [execCo] at he
    split at he
    · cases he
      refine ⟨Eq.trans ?_ h.1, h.2⟩
      by_cases hde : d = e
      · rw [hde, State.setCo_cos_self]
        rfl
      · rw [State.setCo_cos_ne _ _ hde]
        rfl
    · cases he
  · cases he
    exact h
  · cases he
    exact h
  · exact hc.elim

theorem allocate_spec (k : Coid) (late : Bool) (priority : Nat) (role : Role) {P : State → Prop}
    (hP : Stable rules (.co k) P)
    (hpre : ∀ s, P s → Here ⟨k, Plain .client late [], [], fun _ _ => True⟩ .free s ∧
      (role = .timer → s.locks .timer = some (.co k) ∧ s.timers.daemon = none ∧ Settled s)) :
    Triple rules (.co k) P (allocate priority role)
      fun d s => Here ⟨k, Plain .client late [], [], fun _ _ => True⟩ (.serve d) s ∧
        Created k role d s := by
  refine issue_spec hP (fun d => ?_) fun s hi h => ?_
  · exact fun s s' hi hi' hr h => ⟨Here.stable_of rfl s s' hi hi' hr h.1,
      Created.stable s s' hi hi' hr h.2⟩
  obtain ⟨h, htimer⟩ := hpre s h
  have hself : Plain .client late [] (s.cos k) := h.1.self
  refine ⟨⟨⟨k, rfl, hself.role⟩, fun hr => ?_⟩, fun d s' he _ => ?_⟩
  · obtain ⟨hlock, hnone, hset⟩ := htimer hr
    exact ⟨hlock, hnone, hset⟩
  · obtain ⟨-, he⟩ := exec_inv he
    cases he
    have hborn : k < s.fresh := h.1.born
    have hne : k ≠ s.fresh := Nat.ne_of_lt hborn
    have hnew : (((s.setStatus s.fresh .wait).setCo s.fresh (Co.create (.co k) priority role)).cos
        s.fresh) = Co.create (.co k) priority role (s.cos s.fresh) := State.setCo_cos_self _ _ _
    have hold : ∀ j, j ≠ s.fresh → ((s.setStatus s.fresh .wait).setCo s.fresh
        (Co.create (.co k) priority role)).cos j = s.cos j := fun j hj => State.setCo_cos_ne _ _ hj
    refine ⟨⟨⟨Nat.lt_succ_of_lt hborn, ?_, ?_, nofun, nofun, nofun⟩, ⟨.born, none, ?_⟩, ?_⟩, ?_, ?_, ?_⟩
    · change Function.update s.status s.fresh .wait k ≠ _ ∧ Function.update s.status s.fresh .wait k ≠ _
      rw [Function.update_of_ne hne]
      exact h.1.awake
    · exact (hold k hne).symm ▸ hself
    · exact congrArg Co.wait hnew
    · rintro e ⟨w, hw, hp⟩
      by_contra hed
      exact h.2 e ⟨w, (congrArg Co.wait (hold e hed)).symm.trans hw, hp⟩
    · exact congrArg Co.role hnew
    · exact Nat.lt_succ_self _
    · exact fun hr => ⟨(htimer hr).1, (htimer hr).2.1⟩

/-- **`coroc_coroutine_allocate`**. -/
theorem coroutineAllocate_spec (k : Coid) (late : Bool) (priority : Nat) (role : Role) {P : State → Prop}
    (hP : Stable rules (.co k) P)
    (hpre : ∀ s, P s → Here ⟨k, Plain .client late [], [], fun _ _ => True⟩ .free s ∧
      (role = .timer → s.locks .timer = some (.co k) ∧ s.timers.daemon = none ∧ Settled s)) :
    Triple rules (.co k) P (coroutineAllocate priority role)
      fun d s => Here ⟨k, Plain .client late [], [], fun _ _ => True⟩ .free s ∧ Created k role d s := by
  refine Triple.bind (allocate_spec k late priority role hP hpre) fun d => ?_
  refine Triple.bind ((vpuReady_spec ⟨k, Plain .client late [], [], fun _ _ => True⟩ d true
    Plain.waits_not).frame Created.stable (fun _ _ _ _ hc h he => ⟨trivial, h.ready hc he⟩)
    (vpuReady_issues d true)) fun _ => ?_
  have hstable : Stable rules (.co k) (Here ⟨k, Plain .client late [], [], fun _ _ => True⟩ .free) :=
    Here.stable_of rfl
  exact Triple.ret (hstable.and Created.stable) fun _ _ h => h

/-! ### Timers -/

/-- A step on the timers that keeps the daemon. -/
theorem Free.timers {f : Timers → Timers} (h : Free k r ls s)
    (hf : (f s.timers).daemon = s.timers.daemon) : Free k r ls (s.setTimers f) := by
  obtain ⟨late, h⟩ := h
  refine ⟨late, h.outside rfl rfl rfl rfl rfl fun _ hs j hj => ?_⟩
  exact hf.trans (hs j hj)

theorem getMicrotime_spec (k : Coid) :
    Triple rules (.co k) (Free k r ls) getMicrotime fun _ => Free k r ls := by
  refine issue_spec Free.stable (fun _ => Free.stable) fun s hi h => ⟨trivial, fun u s' he _ => ?_⟩
  obtain ⟨-, he⟩ := exec_inv he
  cases he
  exact h

theorem setWhen_spec (k : Coid) (tm : TimerId) (w : UInt64) :
    Triple rules (.co k) (Free k r ls) (setWhen tm w) fun _ => Free k r ls := by
  refine issue_spec Free.stable (fun _ => Free.stable) fun s hi h => ⟨trivial, fun u s' he _ => ?_⟩
  obtain ⟨-, he⟩ := exec_inv he
  cases he
  exact h.timers rfl

theorem Free.lock {l : Lock} (h : Free k r ls s) (hl : l ∈ ls) : s.locks l = some (.co k) := by
  obtain ⟨late, h⟩ := h
  exact h.1.locks l hl

theorem insertTimer_spec (k : Coid) (c : ChanId) :
    Triple rules (.co k) (Free k r [.timer]) (insertTimer (.chan c)) fun _ => Free k r [.timer] := by
  refine issue_spec Free.stable (fun _ => Free.stable) fun s hi h =>
    ⟨⟨h.lock List.mem_cons_self, c, rfl⟩, fun u s' he _ => ?_⟩
  obtain ⟨-, he⟩ := exec_inv he
  cases he
  exact h.timers rfl

theorem deleteTimer_spec (k : Coid) (tm : TimerId) :
    Triple rules (.co k) (Free k r [.timer]) (deleteTimer tm) fun _ => Free k r [.timer] := by
  refine issue_spec Free.stable (fun _ => Free.stable) fun s hi h =>
    ⟨h.lock List.mem_cons_self, fun u s' he _ => ?_⟩
  obtain ⟨-, he⟩ := exec_inv he
  cases he
  exact h.timers rfl

theorem fireRoot_spec (k : Coid) (now : UInt64) :
    Triple rules (.co k) (Free k r [.timer]) (fireRoot now) fun _ => Free k r [.timer] := by
  refine issue_spec Free.stable (fun _ => Free.stable) fun s hi h =>
    ⟨h.lock List.mem_cons_self, fun u s' he _ => ?_⟩
  obtain ⟨-, he⟩ := exec_inv he
  cases he
  exact h.timers rfl

theorem releaseTimer_spec (k : Coid) :
    Triple rules (.co k) (Free k r [.timer]) (lockRelease .timer) fun _ => Free k r [] :=
  Triple.of_forall fun late => (releaseFree_spec k .timer nofun).post fun _ _ _ h => ⟨late, h⟩

theorem acquireTimer_spec (k : Coid) :
    Triple rules (.co k) (Rest k r) (lockAcquire .timer) fun _ => Free k r [.timer] :=
  (acquireFirst_spec k .timer Rest.stable (.const True) (fun _ h => h) fun _ hi hrun h =>
    ⟨h.free hi hrun, trivial⟩).post fun _ _ _ h => h.1

/-- **`coroc_timer_stop`**. -/
theorem timerStop_spec (k : Coid) (c : ChanId) :
    Triple rules (.co k) (Free k r []) (timerStop c) fun _ => Free k r [] := by
  refine Triple.bind ?_ fun _ => Triple.ret Free.stable fun _ _ h => h
  refine Triple.bind ((acquireTimer_spec k).pre fun s _ h => .inl h) fun _ => ?_
  refine Triple.bind (deleteTimer_spec k (.chan c)) fun ret => ?_
  exact Triple.bind (releaseTimer_spec k) fun _ => Triple.ret Free.stable fun _ _ h => h

/-! ### The timer daemon -/

/-- What a coroutine with the timer lock knows about the daemon. -/
def Daemon (k : Coid) (o : Option Coid) (s : State) : Prop :=
  s.locks .timer = some (.co k) ∧ s.timers.daemon = o

theorem Daemon.stable {o : Option Coid} : Stable rules (.co k) (Daemon k o) := by
  rintro s s' - - hr ⟨hlock, hd⟩
  refine ⟨((hr rfl).locks _).mp hlock, ?_⟩
  cases o with
  | none => exact (hr rfl).vacant hlock hd
  | some d => exact (hr rfl).daemon d hd

theorem readDaemon_spec (k : Coid) :
    Triple rules (.co k) (Free k r [.timer]) readDaemon
      fun o s => Free k r [.timer] s ∧ Daemon k o s := by
  refine issue_spec Free.stable (fun _ => Free.stable.and Daemon.stable) fun s hi h =>
    ⟨trivial, fun u s' he _ => ?_⟩
  obtain ⟨-, he⟩ := exec_inv he
  cases he
  exact ⟨h, h.lock List.mem_cons_self, rfl⟩

theorem setDaemon_spec (k d : Coid) :
    Triple rules (.co k)
      (fun s => Here ⟨k, Plain .client late [], [], fun _ _ => True⟩ .free s ∧ Created k .timer d s)
      (setDaemon d) fun _ => Free k .client [.timer] := by
  have hstable : Stable rules (.co k) (Here ⟨k, Plain .client late [], [], fun _ _ => True⟩ .free) :=
    Here.stable_of rfl
  refine issue_spec (hstable.and Created.stable) (fun _ => Free.stable) fun s hi h => ?_
  obtain ⟨h, hrole, hd, htimer⟩ := h
  obtain ⟨hlock, hnone⟩ := htimer rfl
  refine ⟨⟨hlock, hnone, hrole, hd⟩, fun u s' he _ => ⟨late, ?_⟩⟩
  obtain ⟨-, he⟩ := exec_inv he
  cases he
  refine ⟨⟨h.1.born, h.1.awake, h.1.self, ?_, nofun, fun _ j hj => ?_⟩,
    h.2.of_cos (fun _ => rfl) fun _ => rfl⟩
  · intro l hl
    obtain rfl : l = .timer := by simpa using hl
    exact hlock
  · exact congrArg some (hi.timer.unique d j hrole hj)

/-- **`coroc_intertimer_start`**. -/
theorem intertimerStart_spec (k : Coid) :
    Triple rules (.co k) (fun s => Free k .client [.timer] s ∧ Daemon k none s) intertimerStart
      fun _ => Free k .client [.timer] := by
  refine Triple.pre (P := fun s => ∃ late, Here ⟨k, Plain .client late [], [.timer], fun _ _ => True⟩ .free s ∧
    Daemon k none s) ?_ fun s _ h => ?_
  · refine Triple.of_forall fun late => ?_
    have hstable : Stable rules (.co k)
        (Here ⟨k, Plain .client late [], [.timer], fun _ _ => True⟩ .free) := Here.stable_of rfl
    refine Triple.bind (coroutineAllocate_spec k late prioHigh .timer (hstable.and Daemon.stable)
      fun s h => ⟨?_, fun _ => ⟨h.2.1, h.2.2, ?_⟩⟩) fun d => setDaemon_spec k d
    · exact h.1.mono rfl (fun _ h => h) nofun nofun
    · exact h.1.1.settled List.mem_cons_self
  · obtain ⟨⟨late, h⟩, hd⟩ := h
    exact ⟨late, h, hd⟩

/-- The daemon `d` is suspended. -/
def Suspended (k d : Coid) (b : Bool) (s : State) : Prop :=
  Daemon k (some d) s ∧ (b = true → s.timers.suspend = true)

theorem Suspended.stable {b : Bool} : Stable rules (.co k) (Suspended k d b) := by
  rintro s s' hi hi' hr ⟨hd, hb⟩
  refine ⟨Daemon.stable s s' hi hi' hr hd, fun h => ?_⟩
  rw [(hr rfl).suspend hd.1]
  exact hb h

theorem readSuspend_spec (k d : Coid) :
    Triple rules (.co k) (fun s => Free k r [.timer] s ∧ Daemon k (some d) s) readSuspend
      fun b s => Free k r [.timer] s ∧ Suspended k d b s := by
  refine issue_spec (Free.stable.and Daemon.stable) (fun _ => Free.stable.and Suspended.stable)
    fun s hi h => ⟨trivial, fun u s' he _ => ?_⟩
  obtain ⟨-, he⟩ := exec_inv he
  cases he
  exact ⟨h.1, h.2, fun h => h⟩

theorem clearSuspend_spec (k d : Coid) :
    Triple rules (.co k)
      (fun s => Here ⟨k, Plain r late [], [.timer], fun _ _ => True⟩ .free s ∧ Suspended k d true s)
      clearSuspend fun _ => Here ⟨k, Plain r late [], [.timer], fun _ _ => True⟩ (.serve d) := by
  have hstable : Stable rules (.co k) (Here ⟨k, Plain r late [], [.timer], fun _ _ => True⟩ .free) :=
    Here.stable_of rfl
  refine issue_spec (hstable.and Suspended.stable) (fun _ => Here.stable_of rfl) fun s hi h => ?_
  obtain ⟨h, ⟨hlock, hd⟩, hsusp⟩ := h
  have hself : Plain r late [] (s.cos k) := h.1.self
  refine ⟨⟨hlock, hsusp rfl, k, rfl, hself.wait⟩, fun u s' he _ => ?_⟩
  obtain ⟨-, he⟩ := exec_inv he
  cases he
  obtain ⟨d', hd', hw⟩ := hi.timer.suspend (hsusp rfl)
  obtain rfl : d = d' := Option.some.inj (hd.symm.trans hd')
  have hclear : Here ⟨k, Plain r late [], [.timer], fun _ _ => True⟩ .free
      (s.setTimers (Timers.setSuspend false)) := h.outside rfl rfl rfl rfl rfl fun _ h => h
  rw [hd]
  exact hclear.call Plain.waits_not hw

/-- **`coroc_add_intertimer`** for the timer of a channel. -/
theorem addIntertimer_spec (k : Coid) (c : ChanId) :
    Triple rules (.co k) (Free k .client []) (addIntertimer (.chan c)) fun _ => Free k .client [] := by
  refine Triple.bind ((acquireTimer_spec k).pre fun s _ h => .inl h) fun _ => ?_
  refine Triple.bind (insertTimer_spec k c) fun size => ?_
  refine Triple.bind (readDaemon_spec k) fun o => ?_
  cases o with
  | none => exact Triple.bind (intertimerStart_spec k) fun _ => releaseTimer_spec k
  | some d =>
    have hwake : ∀ b, Triple rules (.co k) (fun s => Free k .client [.timer] s ∧ Suspended k d b s)
        (if b = true then do
          clearSuspend
          lockRelease .timer
          vpuReady d true
        else lockRelease .timer) fun _ => Free k .client [] := by
      intro b
      cases b with
      | false => exact (releaseTimer_spec k).pre fun s _ h => h.1
      | true =>
        refine Triple.pre (P := fun s => ∃ late,
          Here ⟨k, Plain .client late [], [.timer], fun _ _ => True⟩ .free s ∧ Suspended k d true s) ?_
          fun s _ h => ?_
        · refine Triple.of_forall fun late => Triple.bind (clearSuspend_spec k d) fun _ => ?_
          refine Triple.bind (releaseFree_spec k .timer nofun) fun _ => ?_
          exact (vpuReady_spec _ d true Plain.waits_not).post fun _ _ _ h => ⟨late, h⟩
        · obtain ⟨⟨late, h⟩, hs⟩ := h
          exact ⟨late, h, hs⟩
    by_cases hsize : size = 0
    · simp only [if_pos hsize]
      exact Triple.bind (readSuspend_spec k d) hwake
    · simp only [if_neg hsize]
      exact (hwake false).pre fun s _ h => ⟨h.1, h.2, nofun⟩

/-- **`coroc_timer_at`**. -/
theorem timerAt_spec (k : Coid) (c : ChanId) (w : UInt64) :
    Triple rules (.co k) (Free k .client []) (timerAt k c w) fun _ => Free k .client [] := by
  refine Triple.bind (setWhen_spec k (.chan c) w) fun _ => ?_
  refine Triple.bind (getMicrotime_spec k) fun now => ?_
  by_cases hw : w ≤ now
  · rw [if_pos hw]
    exact chanSend_spec k c w.toNat true nofun
  · rw [if_neg hw]
    exact addIntertimer_spec k c

theorem readSize_spec (k : Coid) :
    Triple rules (.co k) (Free k r [.timer]) readSize
      fun n s => Free k r [.timer] s ∧ s.timers.heap.size = n := by
  refine issue_spec Free.stable (fun n => ?_) fun s hi h => ⟨trivial, fun u s' he _ => ?_⟩
  · rintro s s' hi hi' hr ⟨h, hn⟩
    exact ⟨Free.stable s s' hi hi' hr h, ((hr rfl).size (h.lock List.mem_cons_self)).trans hn⟩
  · obtain ⟨-, he⟩ := exec_inv he
    cases he
    exact ⟨h, rfl⟩

theorem readRoot_spec (k : Coid) {n : Nat} (hn : n > 0) :
    Triple rules (.co k) (fun s => Free k r [.timer] s ∧ s.timers.heap.size = n) readRoot
      fun root s => (∃ c, root.1 = .chan c) ∧ Free k r [.timer] s := by
  refine issue_spec ?_ (fun _ => (Stable.const _).and Free.stable) fun s hi h =>
    ⟨trivial, fun u s' he _ => ?_⟩
  · rintro s s' hi hi' hr ⟨h, hs⟩
    exact ⟨Free.stable s s' hi hi' hr h, ((hr rfl).size (h.lock List.mem_cons_self)).trans hs⟩
  · obtain ⟨-, he⟩ := exec_inv he
    cases he
    exact ⟨hi.timer.chans 0 (by rw [h.2]; exact hn), h.1⟩

/-- Firing the timers that are due, with the lock of the timer manager held all along. -/
theorem fireDue_spec (k : Coid) (now : UInt64) :
    Triple rules (.co k) (Free k r [.timer]) (fireDue k now) fun _ => Free k r [.timer] := by
  refine Triple.loop Free.stable (fun _ => Free k r [.timer]) ?_
    fun _ => Triple.ret Free.stable fun _ _ h => h
  refine Triple.bind (readSize_spec k) fun n => ?_
  by_cases hn : n > 0
  · rw [if_pos hn]
    refine Triple.bind (readRoot_spec k hn) fun root => ?_
    obtain ⟨tm, w⟩ := root
    refine Triple.of_pure fun hc => ?_
    obtain ⟨c, rfl⟩ := hc
    by_cases hw : w ≤ now
    · simp only [hw, if_true]
      refine Triple.bind (chanSend_spec k c w.toNat true fun l hl c' hc => ?_) fun _ => ?_
      · obtain rfl : l = .timer := by simpa using hl
        cases hc
      · exact Triple.bind (fireRoot_spec k now) fun _ => Triple.ret Free.stable fun _ _ h => h
    · simp only [hw, if_false]
      exact Triple.ret Free.stable fun _ _ h => h
  · rw [if_neg hn]
    exact Triple.pre (Triple.ret (P := Free k r [.timer]) Free.stable fun _ _ h => h) fun s _ h => h.1

theorem setSuspend_spec (k : Coid) :
    Triple rules (.co k) (Here ⟨k, Plain .timer late [], [.timer], fun _ _ => True⟩ .free) setSuspend
      fun _ => Here ⟨k, Publishes .timer late .timer fun _ => 0, [.timer], fun _ _ => True⟩ .free := by
  refine issue_spec (Here.stable_of rfl) (fun _ => Here.stable_of rfl) fun s hi h => ?_
  have hself : Plain .timer late [] (s.cos k) := h.1.self
  have hdaemon := h.1.settled List.mem_cons_self k hself.role
  refine ⟨⟨k, rfl, h.1.locks _ List.mem_cons_self, hdaemon, hself.wait, hself.moved⟩, fun u s' he _ => ?_⟩
  obtain ⟨-, he⟩ := exec_inv he
  cases he
  have hsusp : Here ⟨k, Plain .timer late [], [.timer], fun _ _ => True⟩ .free
      (s.setTimers (Timers.setSuspend true)) := h.outside rfl rfl rfl rfl rfl fun _ h => h
  exact hsusp.publish rfl

theorem readNotify_spec (k : Coid) :
    Triple rules (.co k) (Free k r ls) readNotify fun _ => Free k r ls := by
  refine issue_spec Free.stable (fun _ => Free.stable) fun s hi h => ⟨trivial, fun u s' he _ => ?_⟩
  obtain ⟨-, he⟩ := exec_inv he
  cases he
  exact h

theorem yieldFree_spec (k : Coid) :
    Triple rules (.co k) (Free k r []) coroutineYield fun _ => Free k r [] :=
  Triple.of_forall fun late => (yield_spec ⟨k, Plain r late [], [], fun _ _ => True⟩ .free
    Plain.waits_not).post fun _ _ _ h => ⟨late, h⟩

/-- **`coroc_intertimer_routine`**. -/
theorem intertimerRoutine_spec (k : Coid) :
    Triple rules (.co k) (Rest k .timer) (intertimerRoutine k) fun _ => Rest k .timer := by
  refine Triple.loop Rest.stable (fun _ => Rest k .timer) ?_
    fun _ => Triple.ret Rest.stable fun _ _ h => h
  refine Triple.bind (acquireTimer_spec k) fun _ => ?_
  refine Triple.bind (getMicrotime_spec k) fun now => ?_
  refine Triple.bind (fireDue_spec k now) fun _ => ?_
  refine Triple.bind (readSize_spec k) fun n => ?_
  by_cases hn : n = 0
  · rw [if_pos hn]
    refine Triple.pre (P := Free k .timer [.timer]) ?_ fun s _ h => h.1
    refine Triple.of_forall fun late => Triple.bind (setSuspend_spec k) fun _ => ?_
    have hsite : ∀ l ∈ Site.timer.locks, l ∈ [Lock.timer] := fun _ h => h
    refine Triple.bind (suspend_spec k [.timer] [] [.timer] (fun _ _ => True) hsite (fun _ h => h) nofun
      fun c _ hc => absurd hc (by simp)) fun _ => ?_
    exact Triple.ret Asleep.stable fun _ _ h =>
      .inr ⟨late, .timer, fun _ => 0, rfl, by simp [Site.locks], h⟩
  · rw [if_neg hn]
    refine Triple.bind (readRoot_spec k (Nat.pos_of_ne_zero hn)) fun root => ?_
    refine Triple.bind ((releaseTimer_spec k).pre fun s _ h => h.2) fun _ => ?_
    refine Triple.bind (readNotify_spec k) fun b => ?_
    cases b with
    | true =>
      exact Triple.bind (notifyTsleepU_spec k _) fun _ => Triple.ret Rest.stable fun _ _ h => h
    | false =>
      exact Triple.bind (yieldFree_spec k) fun _ => Triple.ret Free.stable fun _ _ h => .inl h

/-- The creation of a coroutine by a client. -/
theorem spawn_spec (k : Coid) (priority : Nat) :
    Triple rules (.co k) (Free k .client [])
      (do
        let _ ← coroutineAllocate priority .client) fun _ => Free k .client [] := by
  refine Triple.of_forall fun late => ?_
  refine Triple.bind (coroutineAllocate_spec k late priority .client (Here.stable_of rfl)
    fun s h => ⟨h, nofun⟩) fun d => ?_
  exact Triple.pre (Triple.ret (P := Free k .client []) Free.stable fun _ _ h => h) fun s _ h => ⟨late, h.1⟩

end Coroc.Runtime
