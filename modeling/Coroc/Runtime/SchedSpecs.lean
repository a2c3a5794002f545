import Coroc.Runtime.Assert

/-!
# Locking, waking and sleeping

The rules of the commands that do not belong to one kind of object.  Taking a lock
gives what holds of its object whenever the lock is free; handing locks over to the
VPU ends what the coroutine knew about itself (`Asleep`), and taking the first lock
after that is where it learns that its wait is over.
-/

namespace Coroc.Runtime

open Coroc.Program

variable {s s' : State} {t : Tid} {x : Ctx} {cl : Claim} {k d : Coid} {l : Lock}

/-! ### Locks -/

/-- The point after taking the lock `l`. -/
def Ctx.lock (x : Ctx) (l : Lock) : Ctx :=
  match l with
  | .chan c => { x with locks := l :: x.locks, know := Function.update x.know c Chan.Quiet }
  | _ => { x with locks := l :: x.locks }

@[simp] theorem Ctx.lock_k (x : Ctx) (l : Lock) : (x.lock l).k = x.k := by cases l <;> rfl

@[simp] theorem Ctx.lock_self (x : Ctx) (l : Lock) : (x.lock l).self = x.self := by
  cases l <;> rfl

@[simp] theorem Ctx.lock_locks (x : Ctx) (l : Lock) : (x.lock l).locks = l :: x.locks := by
  cases l <;> rfl

theorem Ctx.lock_know (x : Ctx) {l : Lock} {c : ChanId} (h : l ≠ .chan c) :
    (x.lock l).know c = x.know c := by
  cases l with
  | chan c' =>
    have hc : c ≠ c' := by
      rintro rfl
      exact h rfl
    exact Function.update_of_ne hc _ _
  | group g => rfl
  | async => rfl
  | timer => rfl
  | desc d => rfl

theorem Ctx.lock_know_chan (x : Ctx) (c : ChanId) : (x.lock (.chan c)).know c = Chan.Quiet :=
  Function.update_self _ _ _

/-- A free channel is quiet. -/
theorem Inv.quiet_of_free (hi : Inv s) {c : ChanId} (h : s.locks (.chan c) = none) :
    (s.chans c).Quiet := by
  constructor
  · by_contra hne
    obtain ⟨j, hj⟩ := (hi.chan c).locked (.inl hne)
    exact nomatch h.symm.trans hj
  · rcases hd : (s.chans c).draining with _ | _
    · rfl
    · obtain ⟨j, hj⟩ := (hi.chan c).locked (.inr hd)
      exact nomatch h.symm.trans hj

theorem Inv.settled_of_free (hi : Inv s) (h : s.locks .timer = none) : Settled s := by
  rcases hi.timer.settled with hs | ⟨j, hj, -⟩
  · exact hs
  · exact nomatch h.symm.trans hj

/-- The locks of a coroutine, once it has taken a free one. -/
theorem At.of_acquire (hi : Inv s) (hborn : x.k < s.fresh)
    (hawake : s.status x.k ≠ .wait ∧ s.status x.k ≠ .saving) (hself : x.self (s.cos x.k))
    (hlocks : ∀ l ∈ x.locks, s.locks l = some (.co x.k))
    (hchans : ∀ c, .chan c ∈ x.locks → x.know c (s.chans c))
    (hsettled : .timer ∈ x.locks → Settled s) (hfree : s.locks l = none) :
    At (x.lock l) (s.setLock l (some (.co x.k))) ∧ l ∉ x.locks := by
  have hnew : l ∉ x.locks := fun hm => nomatch hfree.symm.trans (hlocks l hm)
  refine ⟨⟨by rw [Ctx.lock_k]; exact hborn, by rw [Ctx.lock_k]; exact hawake, ?_, ?_, ?_, ?_⟩, hnew⟩
  · rw [Ctx.lock_self, Ctx.lock_k]
    exact hself
  · rw [Ctx.lock_locks, Ctx.lock_k]
    intro m hm
    by_cases hml : m = l
    · subst hml
      exact State.setLock_locks_self _ _ _
    · rw [State.setLock_locks_ne _ _ hml]
      exact hlocks m ((List.mem_cons.mp hm).resolve_left hml)
  · rw [Ctx.lock_locks]
    intro c hm
    by_cases hml : l = .chan c
    · subst hml
      rw [Ctx.lock_know_chan]
      exact hi.quiet_of_free hfree
    · rw [Ctx.lock_know _ hml]
      exact hchans c ((List.mem_cons.mp hm).resolve_left (Ne.symm hml))
  · rw [Ctx.lock_locks]
    intro hm
    by_cases hml : l = .timer
    · subst hml
      exact hi.settled_of_free hfree
    · exact hsettled ((List.mem_cons.mp hm).resolve_left (Ne.symm hml))

theorem acquire_inv {r : Unit} (h : machine.exec t (.lock (.acquire l)) s = some (r, s')) :
    s.active t = true ∧ s.locks l = none ∧ s' = s.setLock l (some t) := by
  obtain ⟨hact, he⟩ := exec_inv h
  simp only [execLock] at he
  split at he
  · rename_i hfree
    cases he
    exact ⟨hact, hfree, rfl⟩
  · cases he

theorem acquire_spec (x : Ctx) (cl : Claim) (l : Lock) :
    Triple rules (.co x.k) (Here x cl) (lockAcquire l)
      fun _ s => Here (x.lock l) cl s ∧ l ∉ x.locks := by
  refine issue_spec Here.stable (fun _ => ?_) fun s hi h => ⟨trivial, fun r s' he _ => ?_⟩
  · exact (Here.stable_of (Ctx.lock_k x l)).and (.const _)
  · obtain ⟨-, hfree, rfl⟩ := acquire_inv he
    obtain ⟨hat, hcl⟩ := h
    obtain ⟨hat', hnew⟩ := At.of_acquire hi hat.born hat.awake hat.self hat.locks hat.chans
      hat.settled hfree
    exact ⟨⟨hat', by rw [Ctx.lock_k]; exact hcl.of_cos (fun _ => rfl) fun _ => rfl⟩, hnew⟩

theorem unlocked_stable (ht : t.isThread = true) : Stable rules t fun s => s.locks l ≠ some t :=
  fun _ _ _ _ hr h hl => h (((hr ht).locks l).mpr hl)

theorem release_spec (x : Ctx) (cl : Claim) (l : Lock) (ls : List Lock)
    (hself : ∀ co, x.self co → co.wait = none) (hl : l ∈ x.locks)
    (hls : ∀ m ∈ ls, m ∈ x.locks ∧ m ≠ l)
    (hchan : ∀ c, l = .chan c → (∀ ch, x.know c ch → ch.Quiet) ∧ cl = .free) :
    Triple rules (.co x.k) (Here x cl) (lockRelease l)
      fun _ s => Here (x.setLocks ls) cl s ∧ s.locks l ≠ some (.co x.k) := by
  have hstable : Stable rules (.co x.k) (Here (x.setLocks ls) cl) := Here.stable_of rfl
  refine issue_spec Here.stable (fun _ => hstable.and (unlocked_stable rfl)) fun s hi h =>
    ⟨⟨?_, ?_, ?_, ?_⟩, fun r s' he _ => ?_⟩
  · exact h.1.locks l hl
  · rintro j ⟨⟩
    exact hself _ h.1.self
  · rintro c rfl
    obtain ⟨hquiet, rfl⟩ := hchan c rfl
    have hq := hquiet _ (h.1.chans c hl)
    exact ⟨hq.hand, hq.drain, h.2⟩
  · rintro rfl
    exact h.1.settled hl
  · obtain ⟨-, he⟩ := exec_inv he
    cases he
    obtain ⟨hat, hcl⟩ := h
    refine ⟨⟨⟨hat.born, hat.awake, hat.self, fun m hm => ?_, fun c hm => ?_, fun hm => ?_⟩,
      hcl.of_cos (fun _ => rfl) fun _ => rfl⟩, ?_⟩
    · rw [State.setLock_locks_ne _ _ (hls m hm).2]
      exact hat.locks m (hls m hm).1
    · exact hat.chans c (hls _ hm).1
    · exact hat.settled (hls _ hm).1
    · rw [State.setLock_locks_self]
      nofun

/-! ### Waking -/

/-- Ending the wait one has claimed leaves no claim. -/
theorem Claim.Ok.ready (hc : Claim.Ok t s (.serve d))
    (hs' : s' = (s.setStatus d .ready).setCo d Co.wake) : Claim.Ok t s' .free := by
  obtain ⟨⟨site, o, hw⟩, hone⟩ := hc
  rintro e ⟨w, hwe, hp⟩
  by_cases hed : e = d
  · subst hed
    rw [hs', State.setCo_cos_self] at hwe
    simp only [State.setStatus, Co.wake, hw, Option.bind_some, Wait.wake] at hwe
    cases o with
    | none => cases hwe
    | some q =>
      cases hwe
      rcases hp with ⟨q, hp⟩ | ⟨o, hp⟩ <;> cases hp
  · have hcos : s'.cos e = s.cos e := by
      rw [hs', State.setCo_cos_ne _ _ hed]
      rfl
    exact hed (hone e ⟨w, by rw [← hcos]; exact hwe, hp⟩)

theorem ready_inv {r : Unit} (h : machine.exec t (.co (.ready d)) s = some (r, s')) :
    s.active t = true ∧ s.status d = .wait ∧ s' = (s.setStatus d .ready).setCo d Co.wake := by
  obtain ⟨hact, he⟩ := exec_inv h
  simp only [execCo] at he
  split at he
  · rename_i hst
    cases he
    exact ⟨hact, hst, rfl⟩
  · cases he

theorem makeReady_spec (x : Ctx) (d : Coid) :
    Triple rules (.co x.k) (Here x (.serve d)) (makeReady d) fun _ => Here x .free := by
  refine issue_spec Here.stable (fun _ => Here.stable) fun s hi h => ⟨h.2.1, fun r s' he _ => ?_⟩
  obtain ⟨-, hst, hs'⟩ := ready_inv he
  obtain ⟨hat, hcl⟩ := h
  have hne : x.k ≠ d := by
    rintro rfl
    exact hat.awake.1 hst
  have hself : s'.cos x.k = s.cos x.k := by
    rw [hs', State.setCo_cos_ne _ _ hne]
    rfl
  refine ⟨⟨?_, ?_, by rw [hself]; exact hat.self, ?_, ?_, ?_⟩, hcl.ready hs'⟩
  · rw [hs']
    exact hat.born
  · have : s'.status x.k = s.status x.k := by
      rw [hs']
      exact State.setStatus_status_ne _ _ hne
    rw [this]
    exact hat.awake
  · rw [hs']
    exact hat.locks
  · rw [hs']
    exact hat.chans
  · intro hm j hj
    rw [hs']
    refine hat.settled hm j ?_
    by_cases hjd : j = d
    · subst hjd
      rw [hs', State.setCo_cos_self] at hj
      exact hj
    · rw [hs', State.setCo_cos_ne _ _ hjd] at hj
      exact hj

theorem preempts_spec (x : Ctx) (cl : Claim) (d : Coid) :
    Triple rules (.co x.k) (Here x cl) (preempts d) fun _ => Here x cl := by
  refine issue_spec Here.stable (fun _ => Here.stable) fun s hi h => ⟨trivial, fun r s' he _ => ?_⟩
  obtain ⟨-, he⟩ := exec_inv he
  cases he
  exact h

theorem yield_spec (x : Ctx) (cl : Claim) (hself : ∀ co, x.self co → co.wait = none) :
    Triple rules (.co x.k) (Here x cl) coroutineYield fun _ => Here x cl := by
  refine issue_spec Here.stable (fun _ => Here.stable) fun s hi h =>
    ⟨⟨x.k, rfl, hself _ h.1.self⟩, fun r s' he _ => ?_⟩
  obtain ⟨-, he⟩ := exec_inv he
  cases he
  obtain ⟨hat, hcl⟩ := h
  refine ⟨⟨hat.born, ?_, hat.self, hat.locks, hat.chans, hat.settled⟩,
    hcl.of_cos (fun _ => rfl) fun _ => rfl⟩
  rw [State.setStatus_status_self]
  exact ⟨nofun, nofun⟩

/-- **`vpu_ready`** by a coroutine. -/
theorem vpuReady_spec (x : Ctx) (d : Coid) (preempt : Bool)
    (hself : ∀ co, x.self co → co.wait = none) :
    Triple rules (.co x.k) (Here x (.serve d)) (vpuReady d preempt) fun _ => Here x .free := by
  refine Triple.bind (makeReady_spec x d) fun _ => ?_
  cases preempt with
  | false => exact Triple.ret Here.stable fun _ _ h => h
  | true =>
    refine Triple.bind (preempts_spec x .free d) fun b => ?_
    cases b with
    | false => exact Triple.ret Here.stable fun _ _ h => h
    | true => exact yield_spec x .free hself

/-! ### Sleeping -/

/-- The record of a coroutine that runs ordinary code. -/
structure Plain (r : Role) (late : Bool) (m : List Xfer) (co : Co) : Prop where
  wait : co.wait = none
  role : co.role = r
  late : co.late = late
  moved : co.moved = m

/-- The record of a coroutine that has published its wait. -/
structure Publishes (r : Role) (late : Bool) (site : Site) (items : Quantum → Item) (co : Co) :
    Prop where
  wait : co.wait = some ⟨site, .idle⟩
  role : co.role = r
  late : co.late = late
  moved : co.moved = []
  items : ∀ q ∈ site.quanta, q.dir = .send → (co.slots q.idx).item = items q

/-- The record of a coroutine whose wait at channels is over. -/
structure Awoken (r : Role) (late : Bool) (qs : List Quantum) (items : Quantum → Item) (q : Quantum)
    (co : Co) : Prop where
  wait : co.wait = some ⟨.chans qs, .woken q⟩
  role : co.role = r
  late : co.late = late
  items : ∀ q ∈ qs, q.dir = .send → (co.slots q.idx).item = items q

/-- A suspended coroutine, between `vpu_suspend` and its next command.  The locks in
    `ls` are those it has not handed over. -/
structure Asleep (k : Coid) (r : Role) (late : Bool) (ls : List Lock) (site : Site)
    (items : Quantum → Item) (s : State) : Prop where
  born : k < s.fresh
  role : (s.cos k).role = r
  late : (s.cos k).late = late
  wait : (∃ w, (s.cos k).wait = some w ∧ w.site = site ∧
    ∀ q ∈ site.quanta, q.dir = .send → ((s.cos k).slots q.idx).item = items q) ∨
    (site.quanta = [] ∧ (s.cos k).wait = none)
  moved : site.quanta = [] → (s.cos k).moved = []
  out : ∀ l ∈ site.locks, s.locks l ≠ some (.co k)
  locks : ∀ l ∈ ls, s.locks l = some (.co k) ∧ ∀ c, l ≠ .chan c
  settled : .timer ∈ ls → Settled s
  free : ∀ d, ¬ s.Claimed (.co k) d

variable {r : Role} {late : Bool} {ls : List Lock} {site : Site} {items : Quantum → Item}

theorem Asleep.stable : Stable rules (.co k) (Asleep k r late ls site items) := by
  intro s s' hi hi' hr h
  replace hr := hr rfl
  have hkept := hr.kept k rfl h.born
  have hfree : Claim.Ok (.co k) s .free := h.free
  refine ⟨Nat.lt_of_lt_of_le h.born hr.fresh, ?_, hkept.late.trans h.late, ?_, fun hq => ?_, ?_, ?_,
    ?_, hfree.rely hr⟩
  · rw [hr.role k h.born]
    exact h.role
  · rcases h.wait with ⟨w, hw, hs, hitem⟩ | ⟨hq, hw⟩
    · rcases hkept.some w hw with ⟨w', hw', hs', hitem'⟩ | ⟨hq, hw'⟩
      · refine .inl ⟨w', hw', hs'.trans hs, fun q hq hd => ?_⟩
        rw [hitem' q (by rw [hs]; exact hq) hd]
        exact hitem q hq hd
      · exact .inr ⟨by rw [← hs]; exact hq, hw'⟩
    · rw [hkept.none hw]
      exact .inr ⟨hq, hw⟩
  · rcases h.wait with ⟨w, hw, hs, -⟩ | ⟨-, hw⟩
    · rw [hkept.moved w hw (by rw [hs]; exact hq)]
      exact h.moved hq
    · rw [hkept.none hw]
      exact h.moved hq
  · exact fun l hl hown => h.out l hl ((hr.locks l).mpr hown)
  · exact fun l hl => ⟨(hr.locks l).mp (h.locks l hl).1, (h.locks l hl).2⟩
  · exact fun hl => hr.settled (h.locks _ hl).1 (h.settled hl)

/-- When it runs again, its wait is over. -/
theorem Asleep.wake (h : Asleep k r late ls site items s) (hi : Inv s)
    (hrun : s.status k = .running) (hne : site.locks ≠ []) :
    (site.quanta = [] ∧ (s.cos k).wait = none) ∨
      ∃ q, (s.cos k).wait = some ⟨site, .woken q⟩ := by
  rcases h.wait with ⟨w, hw, rfl, -⟩ | hn
  · right
    have hphase := (hi.co k).phase w hw
    unfold PhaseOk at hphase
    rcases hp : w.phase with _ | ⟨u, q⟩ | ⟨u, o⟩ | q
    · simp only [hp] at hphase
      obtain ⟨l, hl⟩ := List.exists_mem_of_ne_nil _ hne
      rcases hphase.1 with ⟨-, hlk⟩ | ⟨hst, -⟩ | hst
      · exact absurd (hlk l hl) (h.out l hl)
      · exact nomatch hrun.symm.trans hst
      · exact nomatch hrun.symm.trans hst
    · simp only [hp] at hphase
      exact nomatch hrun.symm.trans hphase.1
    · cases o <;> simp only [hp] at hphase <;> exact nomatch hrun.symm.trans hphase.1
    · exact ⟨q, by rw [hw, ← hp]⟩
  · exact .inl hn

/-- **`vpu_suspend`**: the locks `hs` are handed over. -/
theorem suspend_spec (k : Coid) (hs ls ls₀ : List Lock) (know : ChanId → Chan → Prop)
    (hsite : ∀ l ∈ site.locks, l ∈ hs) (hhs : ∀ l ∈ hs, l ∈ ls₀)
    (hls : ∀ l ∈ ls, l ∈ ls₀ ∧ l ∉ hs ∧ ∀ c, l ≠ .chan c)
    (hquiet : ∀ c ch, .chan c ∈ hs → know c ch → ch.Quiet) :
    Triple rules (.co k) (Here ⟨k, Publishes r late site items, ls₀, know⟩ .free) (vpuSuspend hs)
      fun _ => Asleep k r late ls site items := by
  refine issue_spec (Here.stable_of rfl) (fun _ => Asleep.stable) fun s hi h => ?_
  obtain ⟨hat, hfree⟩ := h
  have hpub := hat.self
  refine ⟨⟨k, site, rfl, hpub.wait, hsite, fun l hl => hat.locks l (hhs l hl), fun c hc => ?_, hfree,
    fun hl => hat.settled (hhs _ hl)⟩, fun u s' he _ => ?_⟩
  · have hq := hquiet c _ hc (hat.chans c (hhs _ hc))
    exact ⟨hq.hand, hq.drain⟩
  · obtain ⟨-, he⟩ := exec_inv he
    cases he
    have hk : ((s.setCo k Co.sleep).setStatus k .saving).cos k = (s.cos k).sleep :=
      State.setCo_cos_self s k _
    have hclaim : ∀ d, (((s.setCo k Co.sleep).setStatus k .saving).cos d).wait =
        (s.cos d).wait := by
      intro d
      by_cases hd : d = k
      · subst hd
        rw [hk]
        rfl
      · exact congrArg Co.wait (State.setCo_cos_ne s _ hd)
    refine ⟨hat.born, ?_, ?_, .inl ⟨⟨site, .idle⟩, ?_, rfl, fun q hq hd => ?_⟩, fun _ => ?_,
      fun l hl => ?_, fun l hl => ⟨?_, (hls l hl).2.2⟩, fun hl j hj => ?_, fun d hd => ?_⟩
    · exact (congrArg Co.role hk).trans hpub.role
    · exact (congrArg Co.late hk).trans hpub.late
    · exact (hclaim k).trans hpub.wait
    · exact (congrArg (fun co : Co => (co.slots q.idx).item) hk).trans (hpub.items q hq hd)
    · exact (congrArg Co.moved hk).trans hpub.moved
    · change handOver s.locks k hs l ≠ _
      rw [handOver_mem (hsite l hl)]
      nofun
    · change handOver s.locks k hs l = _
      rw [handOver_not_mem (hls l hl).2.1]
      exact hat.locks l (hls l hl).1
    · refine hat.settled (hls _ hl).1 j ?_
      by_cases hjk : j = k
      · subst hjk
        exact (congrArg Co.role hk).symm.trans hj
      · exact (congrArg Co.role (State.setCo_cos_ne s Co.sleep hjk)).symm.trans hj
    · exact hfree d ((Claimed.congr (hclaim d)).mp hd)

/-- **The first lock after a suspension** at channels. -/
theorem wake_spec (k : Coid) (ls : List Lock) (qs : List Quantum) (hne : qs ≠ []) (l : Lock) :
    Triple rules (.co k) (Asleep k r late ls (.chans qs) items) (lockAcquire l)
      fun _ s => (∃ q, Here (Ctx.lock ⟨k, Awoken r late qs items q, ls, fun _ _ => True⟩ l) .free s) ∧
        l ∉ ls := by
  refine issue_spec Asleep.stable (fun _ => ?_) fun s hi h => ⟨trivial, fun u s' he _ => ?_⟩
  · refine Stable.and (fun s s' hi hi' hr h => ?_) (.const _)
    obtain ⟨q, h⟩ := h
    exact ⟨q, Here.stable_of (Ctx.lock_k _ l) s s' hi hi' hr h⟩
  · obtain ⟨hact, hfree, rfl⟩ := acquire_inv he
    have hrun := active_running hact
    have hlocks : (Site.chans qs).locks ≠ [] := by simpa [Site.locks] using hne
    rcases h.wake hi hrun hlocks with ⟨hq, -⟩ | ⟨q, hw⟩
    · exact absurd hq hne
    have hitems : ∀ q ∈ qs, q.dir = .send → ((s.cos k).slots q.idx).item = items q := by
      rcases h.wait with ⟨w, -, -, hitem⟩ | ⟨-, hn⟩
      · exact hitem
      · exact nomatch hn.symm.trans hw
    obtain ⟨hat, hnew⟩ := At.of_acquire (x := ⟨k, Awoken r late qs items q, ls, fun _ _ => True⟩) hi
      h.born (by rw [hrun]; exact ⟨nofun, nofun⟩) ⟨hw, h.role, h.late, hitems⟩
      (fun l hl => (h.locks l hl).1) (fun _ _ => trivial) h.settled hfree
    exact ⟨⟨q, hat, by rw [Ctx.lock_k]; exact fun d hd => h.free d hd⟩, hnew⟩

/-- A coroutine that runs again after a suspension outside the channels. -/
theorem Asleep.resume (h : Asleep k r late ls site items s) (hi : Inv s)
    (hrun : s.status k = .running) (hq : site.quanta = []) (hne : site.locks ≠ []) :
    Here ⟨k, Plain r late [], ls, fun _ _ => True⟩ .free s := by
  have hw : (s.cos k).wait = none := by
    rcases h.wake hi hrun hne with ⟨-, hw⟩ | ⟨q, hw⟩
    · exact hw
    · have hphase := (hi.co k).phase _ hw
      simp only [PhaseOk, hq] at hphase
      cases hphase.2.1
  exact ⟨⟨h.born, by rw [hrun]; exact ⟨(fun h => by cases h), (fun h => by cases h)⟩, ⟨hw, h.role, h.late, h.moved hq⟩,
    fun l hl => (h.locks l hl).1, fun _ _ => trivial, h.settled⟩, h.free⟩

end Coroc.Runtime
