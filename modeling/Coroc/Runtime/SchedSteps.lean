import Coroc.Runtime.ChanSteps

/-!
# Locking and scheduling keep the invariant

The commands on locks, and those on the status of coroutines: suspending oneself,
readying another, yielding, creating one.
-/

namespace Coroc.Runtime

open Coroc.Program

variable {s s' : State} {t : Tid} {k d : Coid} {c : ChanId} {q : Quantum}

/-! ### Steps that only change locks -/

theorem Inv.of_locks (hi : Inv s) (hcos : s'.cos = s.cos) (hstatus : s'.status = s.status)
    (hchans : s'.chans = s.chans) (hgroups : s'.groups = s.groups)
    (hreq : s'.requests = s.requests) (htimers : s'.timers = s.timers)
    (hfresh : s'.fresh = s.fresh)
    (hwait : ∀ k w, (s.cos k).wait = some w → ∀ l ∈ w.site.locks, ∀ u, s.locks l = some u →
      Guards s k w u → s'.locks l = some u)
    (hchan : ∀ c k, (s.chans c).inhand ≠ none ∨ (s.chans c).draining = true →
      s.locks (.chan c) = some (.co k) → ∃ k', s'.locks (.chan c) = some (.co k'))
    (htimer : Settled s ∨ ∃ j, s'.locks .timer = some (.co j) ∧ (s.cos j).role = .client ∧
      s.timers.daemon = none) : Inv s' where
  co := fun k => (hi.co k).frame (by rw [hcos]) (by rw [hstatus]) (hwait k)
  chan := fun c => (hi.chan c).frame (by rw [hchans]) (fun k => hchan c k)
    fun _ q _ => .of_eq (by rw [hcos])
  group := fun g => by
    have hg := hi.group g
    exact ⟨by rw [hgroups]; exact hg.count, by rw [hgroups]; exact hg.synced,
      by rw [hgroups]; exact hg.last, by rw [hgroups, hcos]; exact hg.parent⟩
  async := ⟨by rw [hreq]; exact hi.async.nodup, by rw [hreq, hcos]; exact hi.async.wait⟩
  timer := by
    refine ⟨by rw [htimers]; exact hi.timer.chans, by rw [htimers, hcos]; exact hi.timer.suspend,
      by rw [hcos]; exact hi.timer.unique, ?_⟩
    unfold Settled at htimer ⊢
    rw [hcos, htimers]
    exact htimer
  fresh := fun k => by
    have hf := hi.fresh k
    exact ⟨by rw [hfresh, hstatus]; exact hf.status, by rw [hfresh, hstatus]; exact hf.born,
      by rw [hfresh, hcos]; exact hf.wait, by rw [hfresh, hcos]; exact hf.role,
      by rw [htimers, hfresh]; exact hf.daemon⟩

/-- Steps that leave everything but the locks and other threads' statuses alone. -/
theorem Rely.of_locks {u : Tid} (hcos : s'.cos = s.cos) (hchans : s'.chans = s.chans)
    (hgroups : s'.groups = s.groups) (htimers : s'.timers = s.timers)
    (hfresh : s'.fresh = s.fresh) (hl : ∀ l, s.locks l = some u ↔ s'.locks l = some u)
    (hst : ∀ k, u = .co k → s.status k ≠ .wait → s.status k ≠ .saving →
      s'.status k ≠ .wait ∧ s'.status k ≠ .saving) : Rely u s s' where
  locks := hl
  chans := fun c _ => by rw [hchans]
  close := fun c hc => by rw [hchans]; exact hc
  parent := fun g _ => by rw [hgroups]; exact ⟨rfl, rfl⟩
  last := fun g h h' => by rw [hgroups]; exact ⟨h, h'⟩
  owner := fun g => by rw [hgroups]
  begun := fun g k _ _ => by rw [hgroups]; exact ⟨rfl, rfl⟩
  notifying := fun g k _ h => by rw [hgroups]; exact h
  suspend := fun _ => by rw [htimers]
  daemon := fun d h => by rw [htimers]; exact h
  settled := fun _ h => by unfold Settled; rw [hcos, htimers]; exact h
  vacant := fun _ h => by rw [htimers]; exact h
  size := fun _ => by rw [htimers]
  fresh := by rw [hfresh]
  role := fun k _ => by rw [hcos]
  self := fun k hk _ hw hs => ⟨by rw [hcos], hst k hk hw hs⟩
  kept := fun k _ _ => by rw [hcos]; exact Co.Kept.refl _
  newborn := fun k _ _ hn => by rw [hcos]; exact ⟨rfl, hn⟩
  claims := fun d _ => by rw [hcos]

theorem acquire_sound {l : Lock} (hi : Inv s) (hfree : s.locks l = none) :
    Inv (s.setLock l (some t)) ∧ ∀ u, u ≠ t → Rely u s (s.setLock l (some t)) := by
  have hkeep : ∀ m u, s.locks m = some u → (s.setLock l (some t)).locks m = some u := by
    intro m u hm
    rw [State.setLock_locks_ne]
    · exact hm
    · rintro rfl
      exact nomatch hfree.symm.trans hm
  refine ⟨hi.of_locks rfl rfl rfl rfl rfl rfl rfl (fun k w _ m _ u hu _ => hkeep m u hu)
    (fun c k _ hk => ⟨k, hkeep _ _ hk⟩) ?_, fun u hu => ?_⟩
  · rcases hi.timer.settled with hs | ⟨j, hj, hr⟩
    · exact .inl hs
    · exact .inr ⟨j, hkeep _ _ hj, hr⟩
  · refine .of_locks rfl rfl rfl rfl rfl (fun m => ⟨hkeep m u, fun hm => ?_⟩)
      fun _ _ hw hs => ⟨hw, hs⟩
    by_cases hml : m = l
    · subst hml
      rw [State.setLock_locks_self] at hm
      exact absurd (Option.some.inj hm).symm hu
    · rwa [State.setLock_locks_ne _ _ hml] at hm

/-- The locks of a wait at channels are channel locks. -/
theorem Site.lock_chan {site : Site} {l : Lock} (hq : q ∈ site.quanta) (hl : l ∈ site.locks) :
    ∃ c, l = .chan c := by
  cases site with
  | chans qs =>
    obtain ⟨q', -, rfl⟩ := List.mem_map.mp hl
    exact ⟨_, rfl⟩
  | group g => cases hq
  | async => cases hq
  | timer => cases hq
  | born => cases hq

theorem release_sound {l : Lock} (hi : Inv s) (ht : t.isThread = true)
    (ha : AllowedLock t s (.release l)) :
    Inv (s.setLock l none) ∧ ∀ u, u ≠ t → Rely u s (s.setLock l none) := by
  obtain ⟨hown, hwait, hchan, htimer⟩ := ha
  have hne : ∀ m, m ≠ l → (s.setLock l none).locks m = s.locks m := fun m hm =>
    s.setLock_locks_ne _ hm
  refine ⟨hi.of_locks rfl rfl rfl rfl rfl rfl rfl ?_ ?_ ?_, fun u hu => ?_⟩
  · intro k w hw m hm u hu hg
    rw [hne]
    · exact hu
    · rintro rfl
      rw [hown] at hu
      cases hu
      rcases hg with ⟨rfl, -⟩ | ⟨rfl, -⟩ | ⟨q, hp⟩
      · cases (hwait k rfl).symm.trans hw
      · cases ht
      · have hphase := (hi.co k).phase w hw
        simp only [PhaseOk, hp] at hphase
        obtain ⟨c, rfl⟩ := Site.lock_chan hphase.2.1 hm
        exact (hchan c rfl).2.2 k ⟨w, hw, .inl ⟨q, hp⟩⟩
  · intro c k hne' hk
    refine ⟨k, ?_⟩
    rw [hne]
    · exact hk
    · rintro rfl
      obtain ⟨hhand, hdrain, -⟩ := hchan c rfl
      rcases hne' with h | h
      · exact h hhand
      · rw [hdrain] at h
        cases h
  · by_cases hl : l = .timer
    · exact .inl (htimer hl)
    · rcases hi.timer.settled with hs | ⟨j, hj, hr⟩
      · exact .inl hs
      · exact .inr ⟨j, by rw [hne _ (Ne.symm hl)]; exact hj, hr⟩
  · refine .of_locks rfl rfl rfl rfl rfl (fun m => ?_) fun _ _ hw hs => ⟨hw, hs⟩
    by_cases hm : m = l
    · subst hm
      rw [State.setLock_locks_self, hown]
      exact ⟨fun h => absurd (Option.some.inj h).symm hu, (fun h => by cases h)⟩
    · rw [hne m hm]

/-! ### Scheduling -/

theorem handOver_mem {locks : Lock → Option Tid} {ls : List Lock} {l : Lock} (h : l ∈ ls) :
    handOver locks k ls l = some (.vpu k) := if_pos h

theorem handOver_not_mem {locks : Lock → Option Tid} {ls : List Lock} {l : Lock} (h : l ∉ ls) :
    handOver locks k ls l = locks l := if_neg h

/-- **Suspension**: the locks go to the VPU, the wait stays published. -/
theorem suspend_sound {ls : List Lock} (hi : Inv s) (hrun : s.status k = .running)
    (ha : AllowedCo (.co k) s (.suspend ls))
    (hs' : s' = { (s.setCo k Co.sleep).setStatus k .saving with
      locks := handOver s.locks k ls }) :
    Inv s' ∧ ∀ u, u ≠ .co k → u.isThread = true → Rely u s s' := by
  obtain ⟨k', site, hk', hw, hsite, hown, hchan, hclaims, hsettled⟩ := ha
  cases hk'
  have hlocks : s'.locks = handOver s.locks k ls := by rw [hs']
  have hself : s'.cos k = (s.cos k).sleep := by
    rw [hs']
    exact State.setCo_cos_self s k _
  have hcos : ∀ j, j ≠ k → s'.cos j = s.cos j := fun j hj => by
    rw [hs']
    exact State.setCo_cos_ne s _ hj
  have hwaits : ∀ j, (s'.cos j).wait = (s.cos j).wait ∧ (s'.cos j).role = (s.cos j).role ∧
      (s'.cos j).slots = (s.cos j).slots ∧ (s'.cos j).qtag = (s.cos j).qtag ∧
      (s'.cos j).moved = (s.cos j).moved := by
    intro j
    by_cases hj : j = k
    · subst hj
      rw [hself]
      exact ⟨rfl, rfl, rfl, rfl, rfl⟩
    · rw [hcos j hj]
      exact ⟨rfl, rfl, rfl, rfl, rfl⟩
  have hstatus : ∀ j, j ≠ k → s'.status j = s.status j := fun j hj => by
    rw [hs']
    exact State.setStatus_status_ne _ _ hj
  have hsaving : s'.status k = .saving := by
    rw [hs']
    exact State.setStatus_status_self _ _ _
  -- a lock handed over was the coroutine's own
  have hkeep : ∀ l u, s.locks l = some u → u ≠ .co k → s'.locks l = some u := by
    intro l u hl hu
    rw [hlocks, handOver_not_mem]
    · exact hl
    · intro hm
      rw [hown l hm] at hl
      exact hu (Option.some.inj hl).symm
  have hold : ∀ l u, s'.locks l = some u → u ≠ .vpu k → s.locks l = some u := by
    intro l u hl hu
    by_cases hm : l ∈ ls
    · rw [hlocks, handOver_mem hm] at hl
      exact absurd (Option.some.inj hl).symm hu
    · rwa [hlocks, handOver_not_mem hm] at hl
  have hsettle : Settled s → Settled s' := by
    intro h j hj
    rw [hs']
    exact h j (by rw [← (hwaits j).2.1]; exact hj)
  refine ⟨⟨?_, ?_, ?_, ?_, ?_, ?_⟩, ?_⟩
  · intro j
    by_cases hj : j = k
    · subst hj
      have hphase := (hi.co j).phase _ hw
      obtain ⟨-, hborn, htag, hmoved, hopen⟩ := hphase
      refine .of_wait_some (by rw [hself]; exact hw) ((hi.co j).site _ hw)
        ⟨.inr (.inl ⟨hsaving, fun l hl => ?_⟩), hborn, ?_, ?_, ?_⟩
      · rw [hlocks, handOver_mem (hsite l hl)]
      · rw [hself]
        exact htag
      · rw [hself]
        exact hmoved
      · rw [hself]
        exact hopen
    · refine (hi.co j).frame (hcos j hj) (hstatus j hj) fun w hw' l _ u hu hg => hkeep l u hu ?_
      rintro rfl
      rcases hg with ⟨h, -⟩ | ⟨h, -⟩ | ⟨q, hp⟩
      · cases h
        exact hj rfl
      · cases h
      · exact hclaims j ⟨w, hw', .inl ⟨q, hp⟩⟩
  · intro c
    refine (hi.chan c).frame (by rw [hs']; rfl) (fun j hne hj => ⟨j, ?_⟩) fun dir q _ => ?_
    · rw [hlocks, handOver_not_mem]
      · exact hj
      · intro hm
        obtain ⟨hhand, hdrain⟩ := hchan c hm
        rcases hne with h | h
        · exact h hhand
        · rw [hdrain] at h
          cases h
    · by_cases hq : q.co = k
      · rw [hq, hself]
        exact fun h => ⟨h, id, rfl⟩
      · exact .of_eq (hcos _ hq)
  · intro g
    have hg := hi.group g
    have hgr : s'.groups = s.groups := by rw [hs']; rfl
    refine ⟨by rw [hgr]; exact hg.count, by rw [hgr]; exact hg.synced, by rw [hgr]; exact hg.last,
      fun p hp hl => ?_⟩
    rw [hgr] at hp hl
    rw [(hwaits p).1]
    exact hg.parent p hp hl
  · have hreq : s'.requests = s.requests := by rw [hs']; rfl
    refine ⟨by rw [hreq]; exact hi.async.nodup, fun j hj => ?_⟩
    rw [hreq] at hj
    rw [(hwaits j).1]
    exact hi.async.wait j hj
  · have htm : s'.timers = s.timers := by rw [hs']; rfl
    refine ⟨by rw [htm]; exact hi.timer.chans, fun h => ?_, fun j j' hj hj' => ?_, ?_⟩
    · rw [htm] at h ⊢
      obtain ⟨d, hd, hwd⟩ := hi.timer.suspend h
      exact ⟨d, hd, by rw [(hwaits d).1]; exact hwd⟩
    · rw [(hwaits j).2.1] at hj
      rw [(hwaits j').2.1] at hj'
      exact hi.timer.unique j j' hj hj'
    · rcases hi.timer.settled with h | ⟨j, hj, hr, hd⟩
      · exact .inl (hsettle h)
      · by_cases hm : Lock.timer ∈ ls
        · exact .inl (hsettle (hsettled hm))
        · exact .inr ⟨j, by rw [hlocks, handOver_not_mem hm]; exact hj,
            by rw [(hwaits j).2.1]; exact hr, by rw [htm]; exact hd⟩
  · intro j
    have hf := hi.fresh j
    have hfr : s'.fresh = s.fresh := by rw [hs']; rfl
    have hkf : k < s.fresh := hi.lt_fresh (by rw [hrun]; nofun)
    refine ⟨fun hj => ?_, fun hj => ?_, fun hj => ?_, fun hj => ?_, fun hd => ?_⟩
    · rw [hfr] at hj
      rw [hstatus j (by rintro rfl; exact Nat.not_lt.mpr hj hkf)]
      exact hf.status hj
    · by_cases hjk : j = k
      · subst hjk
        rw [hsaving]
        nofun
      · rw [hstatus j hjk]
        rw [hfr] at hj
        exact hf.born hj
    · rw [hfr] at hj
      rw [(hwaits j).1]
      exact hf.wait hj
    · rw [hfr] at hj
      rw [(hwaits j).2.1]
      exact hf.role hj
    · rw [hfr]
      rw [hs'] at hd
      exact hf.daemon hd
  · intro u hu huth
    refine ⟨fun l => ⟨fun h => hkeep l u h hu, fun h => hold l u h ?_⟩, fun c _ => by rw [hs']; rfl,
      fun c h => by rw [hs']; exact h, fun g _ => by rw [hs']; exact ⟨rfl, rfl⟩,
      fun g h h' => by rw [hs']; exact ⟨h, h'⟩, fun g => by rw [hs']; rfl,
      fun g j _ _ => by rw [hs']; exact ⟨rfl, rfl⟩, fun g j _ h => by rw [hs']; exact h,
      fun _ => by rw [hs']; rfl, fun d h => by rw [hs']; exact h, fun _ => hsettle,
      fun _ h => by rw [hs']; exact h, fun _ => by rw [hs']; rfl, by rw [hs']; exact Nat.le_refl _,
      fun j _ => (hwaits j).2.1, fun j hj _ hw hsv => ?_, fun j hj _ => ?_, fun j hj _ hn => ?_,
      fun d hd => ?_⟩
    · rintro rfl
      cases huth
    · have hjk : j ≠ k := by
        rintro rfl
        exact hu hj
      rw [hstatus j hjk]
      exact ⟨hcos j hjk, hw, hsv⟩
    · rw [hcos j (by rintro rfl; exact hu hj)]
      exact Co.Kept.refl _
    · rw [hcos j (by rintro rfl; exact hu hj)]
      exact ⟨rfl, hn⟩
    · refine hcos d ?_
      rintro rfl
      have hno : ∀ s₁ : State, (s₁.cos d).wait = some ⟨site, .idle⟩ → ¬ s₁.Claimed u d := by
        rintro s₁ h₁ ⟨w, hw', hp⟩
        rw [h₁] at hw'
        cases hw'
        exact Phase.not_by_idle hp
      rcases hd with hd | hd
      · exact hno s hw hd
      · exact hno s' (by rw [hself]; exact hw) hd

/-- Steps that change nothing but one coroutine and its status. -/
structure OneCo (d : Coid) (s s' : State) : Prop where
  status : ∀ j, j ≠ d → s'.status j = s.status j
  cos : ∀ j, j ≠ d → s'.cos j = s.cos j
  locks : s'.locks = s.locks
  chans : s'.chans = s.chans
  groups : s'.groups = s.groups
  requests : s'.requests = s.requests
  timers : s'.timers = s.timers
  fresh : s'.fresh = s.fresh
  role : (s'.cos d).role = (s.cos d).role

theorem OneCo.roles (h : OneCo d s s') (j : Coid) : (s'.cos j).role = (s.cos j).role := by
  by_cases hj : j = d
  · subst hj
    exact h.role
  · rw [h.cos j hj]

theorem OneCo.settled (h : OneCo d s s') (hs : Settled s) : Settled s' := by
  intro j hj
  rw [h.timers]
  exact hs j (by rw [← h.roles j]; exact hj)

theorem OneCo.inv (h : OneCo d s s') (hi : Inv s) (hborn : d < s.fresh)
    (hne : s'.status d ≠ .unborn) (hco : CoInv s' d)
    (hkeeps : ∀ q : Quantum, q.Keeps (s.cos d) (s'.cos d)) (hidle : KeepsIdle s s') : Inv s' where
  co := by
    intro j
    by_cases hj : j = d
    · subst hj
      exact hco
    · exact (hi.co j).frame_locks (h.cos j hj) (h.status j hj) h.locks
  chan := by
    intro c
    refine (hi.chan c).frame (by rw [h.chans]) (fun k _ hk => ⟨k, by rw [h.locks]; exact hk⟩)
      fun dir q _ => ?_
    by_cases hq : q.co = d
    · rw [hq]
      exact hkeeps q
    · exact .of_eq (h.cos _ hq)
  group := by
    intro g
    have hg := hi.group g
    refine ⟨by rw [h.groups]; exact hg.count, by rw [h.groups]; exact hg.synced,
      by rw [h.groups]; exact hg.last, ?_⟩
    rw [h.groups]
    exact fun p hp hl => hidle p _ (hg.parent p hp hl) rfl
  async := by
    refine ⟨by rw [h.requests]; exact hi.async.nodup, ?_⟩
    rw [h.requests]
    exact fun k hk => hidle k _ (hi.async.wait k hk) rfl
  timer := by
    refine ⟨by rw [h.timers]; exact hi.timer.chans, ?_, fun j j' hj hj' => ?_, ?_⟩
    · rw [h.timers]
      intro hs
      obtain ⟨e, he, hw⟩ := hi.timer.suspend hs
      exact ⟨e, he, hidle e _ hw rfl⟩
    · rw [h.roles j] at hj
      rw [h.roles j'] at hj'
      exact hi.timer.unique j j' hj hj'
    · rcases hi.timer.settled with hs | ⟨j, hj, hr, hd⟩
      · exact .inl (h.settled hs)
      · exact .inr ⟨j, by rw [h.locks]; exact hj, by rw [h.roles j]; exact hr,
          by rw [h.timers]; exact hd⟩
  fresh := by
    intro j
    have hf := hi.fresh j
    have hjd : s.fresh ≤ j → j ≠ d := by
      rintro hj rfl
      exact Nat.not_lt.mpr hj hborn
    refine ⟨fun hj => ?_, fun hj => ?_, fun hj => ?_, fun hj => ?_, ?_⟩
    · rw [h.fresh] at hj
      rw [h.status j (hjd hj)]
      exact hf.status hj
    · by_cases hjd' : j = d
      · subst hjd'
        exact hne
      · rw [h.status j hjd']
        rw [h.fresh] at hj
        exact hf.born hj
    · rw [h.fresh] at hj
      rw [h.cos j (hjd hj)]
      exact hf.wait hj
    · rw [h.fresh] at hj
      rw [h.roles j]
      exact hf.role hj
    · rw [h.timers, h.fresh]
      exact hf.daemon

theorem OneCo.rely (h : OneCo d s s') {u : Tid}
    (hself : u = .co d → s.status d ≠ .wait → s.status d ≠ .saving →
      s'.cos d = s.cos d ∧ s'.status d ≠ .wait ∧ s'.status d ≠ .saving)
    (hkept : (s.cos d).Kept (s'.cos d))
    (hclaims : s.Claimed u d ∨ s'.Claimed u d → s'.cos d = s.cos d) : Rely u s s' where
  locks := fun l => by rw [h.locks]
  chans := fun c _ => by rw [h.chans]
  close := fun c hc => by rw [h.chans]; exact hc
  parent := fun g _ => by rw [h.groups]; exact ⟨rfl, rfl⟩
  last := fun g hl hk => by rw [h.groups]; exact ⟨hl, hk⟩
  owner := fun g => by rw [h.groups]
  begun := fun g k _ _ => by rw [h.groups]; exact ⟨rfl, rfl⟩
  notifying := fun g k _ hk => by rw [h.groups]; exact hk
  suspend := fun _ => by rw [h.timers]
  daemon := fun e he => by rw [h.timers]; exact he
  settled := fun _ => h.settled
  vacant := fun _ hd => by rw [h.timers]; exact hd
  size := fun _ => by rw [h.timers]
  fresh := by rw [h.fresh]
  role := fun j _ => h.roles j
  self := by
    intro j hj _ hw hs
    by_cases hjd : j = d
    · subst hjd
      exact hself hj hw hs
    · rw [h.status j hjd]
      exact ⟨h.cos j hjd, hw, hs⟩
  kept := by
    intro j _ _
    by_cases hjd : j = d
    · subst hjd
      exact hkept
    · rw [h.cos j hjd]
      exact Co.Kept.refl _
  newborn := by
    intro j _ _ hn
    by_cases hjd : j = d
    · subst hjd
      exact hkept.newborn hn
    · rw [h.cos j hjd]
      exact ⟨rfl, hn⟩
  claims := by
    intro e he
    by_cases hed : e = d
    · subst hed
      exact hclaims he
    · exact h.cos e hed

/-- A change of status alone. -/
theorem OneCo.of_status (s : State) (d : Coid) (st : Status) : OneCo d s (s.setStatus d st) where
  status := fun _ hj => State.setStatus_status_ne _ _ hj
  cos := fun _ _ => rfl
  locks := rfl
  chans := rfl
  groups := rfl
  requests := rfl
  timers := rfl
  fresh := rfl
  role := rfl

theorem setStatus_inv {st : Status} (hi : Inv s) (hborn : d < s.fresh) (hne : st ≠ .unborn)
    (hco : CoInv (s.setStatus d st) d) : Inv (s.setStatus d st) :=
  (OneCo.of_status s d st).inv hi hborn (by rw [State.setStatus_status_self]; exact hne) hco
    (fun _ => .of_eq rfl) fun _ _ hw _ => hw

theorem setStatus_rely {st : Status} (u : Tid)
    (h : u = .co d → s.status d ≠ .wait → s.status d ≠ .saving → st ≠ .wait ∧ st ≠ .saving) :
    Rely u s (s.setStatus d st) :=
  (OneCo.of_status s d st).rely
    (fun hu hw hs => ⟨rfl, by rw [State.setStatus_status_self]; exact h hu hw hs⟩)
    (Co.Kept.refl _) fun _ => rfl

theorem yield_sound (hi : Inv s) (hrun : s.status k = .running) (hw : (s.cos k).wait = none) :
    Inv (s.setStatus k .ready) ∧ ∀ u, u ≠ .co k → Rely u s (s.setStatus k .ready) := by
  refine ⟨setStatus_inv hi (hi.lt_fresh (by rw [hrun]; nofun)) nofun ?_,
    fun u hu => setStatus_rely u fun h => absurd h hu⟩
  refine ⟨fun h => ?_, fun w h => ?_, fun w h => ?_⟩
  · rw [State.setStatus_status_self]
    exact ⟨nofun, nofun, ((hi.co k).awake h).2.2⟩
  · exact nomatch hw.symm.trans h
  · exact nomatch hw.symm.trans h

/-- **`vpu_ready`** ends the wait its caller has claimed. -/
theorem ready_sound (hi : Inv s) {site : Site} {o : Option Quantum}
    (hw : (s.cos d).wait = some ⟨site, .served t o⟩) :
    Inv ((s.setStatus d .ready).setCo d Co.wake) ∧
      ∀ u, u ≠ t → Rely u s ((s.setStatus d .ready).setCo d Co.wake) := by
  generalize hs' : (s.setStatus d .ready).setCo d Co.wake = s'
  have hone : OneCo d s s' := by
    subst hs'
    exact ⟨fun _ hj => State.setStatus_status_ne _ _ hj, fun _ hj => State.setCo_cos_ne _ _ hj,
      rfl, rfl, rfl, rfl, rfl, rfl, by rw [State.setCo_cos_self]; rfl⟩
  have hd : s'.cos d = (s.cos d).wake := by
    subst hs'
    exact State.setCo_cos_self _ _ _
  have hready : s'.status d = .ready := by
    subst hs'
    exact State.setStatus_status_self _ _ _
  have hphase := (hi.co d).phase _ hw
  have hst : s.status d = .wait := (hi.co d).claimed_status ⟨_, hw, .inr ⟨o, rfl⟩⟩
  have hw' : (s'.cos d).wait = o.map fun q => ⟨site, .woken q⟩ := by
    rw [hd]
    simp only [Co.wake, hw, Option.bind_some, Wait.wake]
    cases o with
    | none => rfl
    | some q => rfl
  have hno : ∀ u, ¬ s'.Claimed u d := by
    rintro u ⟨w, hw₁, hp⟩
    rw [hw'] at hw₁
    cases o with
    | none => cases hw₁
    | some q =>
      cases hw₁
      rcases hp with ⟨q, hp⟩ | ⟨o, hp⟩ <;> cases hp
  refine ⟨hone.inv hi (hi.lt_fresh (by rw [hst]; intro h; cases h)) (by rw [hready]; intro h; cases h) ?_ ?_ ?_,
    fun u hu => hone.rely (fun _ h => absurd hst h) ?_ ?_⟩
  · cases o with
    | none =>
      refine ⟨fun _ => ?_, fun w h => ?_, fun w h => ?_⟩
      · rw [hready, hd]
        exact ⟨(fun h => by cases h), (fun h => by cases h), hphase.2.2⟩
      · cases hw'.symm.trans h
      · cases hw'.symm.trans h
    | some q =>
      have hsite : SiteOk d site := (hi.co d).site _ hw
      refine .of_wait_some hw' hsite ?_
      simp only [PhaseOk] at hphase ⊢
      rw [hready, hd]
      exact ⟨.inl rfl, hphase.2⟩
  · intro q'
    cases o with
    | none =>
      rintro ⟨w, hw₁, hm, -⟩
      rw [hw] at hw₁
      cases hw₁
      rw [hphase.2.1] at hm
      cases hm
    | some q =>
      exact .of_phase hw hw' rfl (fun _ _ hp => by cases hp) (fun hp => by cases hp)
        fun _ => by rw [hd]; rfl
  · refine KeepsIdle.of_changes fun p => ?_
    by_cases hp : p = d
    · subst hp
      exact .inr (.inr (.inl ⟨_, hw, .inr (fun h => by cases h)⟩))
    · exact .inl (hone.cos p hp)
  · refine ⟨by rw [hd]; rfl, fun h => (by cases h.symm.trans hw), fun w hw₁ => ?_,
      fun _ _ _ => by rw [hd]; rfl⟩
    rw [hw] at hw₁
    cases hw₁
    cases o with
    | none => exact .inr ⟨hphase.2.1, hw'⟩
    | some q => exact .inl ⟨_, hw', rfl, fun _ _ _ => by rw [hd]; rfl⟩
  · rintro (⟨w, hw₁, hp⟩ | hc)
    · rw [hw] at hw₁
      cases hw₁
      exact absurd (Phase.served_by hp) hu
    · exact absurd hc (hno u)

/-- A new coroutine starts in `WAIT`, claimed by its creator. -/
theorem allocate_sound {priority : Nat} {role : Role} (hi : Inv s)
    (hrun : s.status k = .running) (ha : AllowedCo (.co k) s (.allocate priority role))
    (hs' : s' = { (s.setStatus s.fresh .wait).setCo s.fresh (Co.create (.co k) priority role) with
      fresh := s.fresh + 1 }) :
    Inv s' ∧ ∀ u, u ≠ .co k → Rely u s s' := by
  obtain ⟨⟨k', hk', hclient⟩, htimer⟩ := ha
  cases hk'
  have hk : k < s.fresh := hi.lt_fresh (by rw [hrun]; nofun)
  have hnew : s'.cos s.fresh = (s.cos s.fresh).create (.co k) priority role := by
    rw [hs']
    exact State.setCo_cos_self _ _ _
  have hcos : ∀ j, j ≠ s.fresh → s'.cos j = s.cos j := fun j hj => by
    rw [hs']
    exact State.setCo_cos_ne _ _ hj
  have hstatus : ∀ j, j ≠ s.fresh → s'.status j = s.status j := fun j hj => by
    rw [hs']
    exact State.setStatus_status_ne _ _ hj
  have hwait : s'.status s.fresh = .wait := by
    rw [hs']
    exact State.setStatus_status_self _ _ _
  have hlocks : s'.locks = s.locks := by rw [hs']; rfl
  have hgroups : s'.groups = s.groups := by rw [hs']; rfl
  have hreq : s'.requests = s.requests := by rw [hs']; rfl
  have htimers : s'.timers = s.timers := by rw [hs']; rfl
  have hfresh : s'.fresh = s.fresh + 1 := by rw [hs']
  have hnone : (s.cos s.fresh).wait = none := (hi.fresh s.fresh).wait (Nat.le_refl _)
  have hidle : KeepsIdle s s' := by
    refine KeepsIdle.of_changes fun p => ?_
    by_cases hp : p = s.fresh
    · rw [hp]
      exact .inr (.inl hnone)
    · exact .inl (hcos p hp)
  -- no coroutine but the one being started can be the timer's
  have hnone' : role = .timer → ∀ j, (s.cos j).role ≠ .timer := by
    intro hr j hj
    obtain ⟨-, hd, hs⟩ := htimer hr
    exact nomatch hd.symm.trans (hs j hj)
  have hkne : k ≠ s.fresh := Nat.ne_of_lt hk
  refine ⟨⟨?_, ?_, ?_, ?_, ?_, ?_⟩, ?_⟩
  · intro j
    by_cases hj : j = s.fresh
    · subst hj
      refine .of_wait_some (w := ⟨.born, .served (.co k) none⟩) (by rw [hnew]; rfl) ?_
        ⟨hwait, rfl, by rw [hnew]; rfl⟩
      exact ⟨nofun, nofun, List.nodup_nil, nofun, nofun, .inl nofun⟩
    · exact (hi.co j).frame_locks (hcos j hj) (hstatus j hj) hlocks
  · intro c
    refine (hi.chan c).frame (by rw [hs']; rfl) (fun k _ hk => ⟨k, by rw [hlocks]; exact hk⟩)
      fun dir q _ => ?_
    by_cases hq : q.co = s.fresh
    · rw [hq]
      exact .of_wait_none hnone
    · exact .of_eq (hcos _ hq)
  · intro g
    have hg := hi.group g
    refine ⟨by rw [hgroups]; exact hg.count, by rw [hgroups]; exact hg.synced,
      by rw [hgroups]; exact hg.last, ?_⟩
    rw [hgroups]
    exact fun p hp hl => hidle p _ (hg.parent p hp hl) rfl
  · refine ⟨by rw [hreq]; exact hi.async.nodup, ?_⟩
    rw [hreq]
    exact fun j hj => hidle j _ (hi.async.wait j hj) rfl
  · refine ⟨by rw [htimers]; exact hi.timer.chans, ?_, ?_, ?_⟩
    · rw [htimers]
      intro h
      obtain ⟨e, he, hw⟩ := hi.timer.suspend h
      exact ⟨e, he, hidle e _ hw rfl⟩
    · intro j j' hj hj'
      by_cases hjf : j = s.fresh <;> by_cases hjf' : j' = s.fresh
      · rw [hjf, hjf']
      · rw [hjf, hnew] at hj
        rw [hcos j' hjf'] at hj'
        exact absurd hj' (hnone' hj j')
      · rw [hjf', hnew] at hj'
        rw [hcos j hjf] at hj
        exact absurd hj (hnone' hj' j)
      · rw [hcos j hjf] at hj
        rw [hcos j' hjf'] at hj'
        exact hi.timer.unique j j' hj hj'
    · cases hr : role with
      | timer =>
        obtain ⟨hl, hd, -⟩ := htimer hr
        exact .inr ⟨k, by rw [hlocks]; exact hl, by rw [hcos k hkne]; exact hclient,
          by rw [htimers]; exact hd⟩
      | client =>
        rcases hi.timer.settled with h | ⟨j, hj, hjr, hd⟩
        · left
          intro j hj
          rw [htimers]
          refine h j ?_
          rw [← hcos j]
          · exact hj
          · rintro rfl
            rw [hnew] at hj
            exact nomatch hr.symm.trans hj
        · have hjf : j ≠ s.fresh ∨ j = s.fresh := Decidable.em _ |>.symm
          refine .inr ⟨j, by rw [hlocks]; exact hj, ?_, by rw [htimers]; exact hd⟩
          rcases hjf with hjf | hjf
          · rw [hcos j hjf]
            exact hjr
          · rw [hjf, hnew]
            exact hr
  · intro j
    have hf := hi.fresh j
    refine ⟨fun hj => ?_, fun hj => ?_, fun hj => ?_, fun hj => ?_, fun hd => ?_⟩
    · rw [hfresh] at hj
      rw [hstatus j (Nat.ne_of_gt hj)]
      exact hf.status (Nat.le_of_succ_le hj)
    · by_cases hjf : j = s.fresh
      · rw [hjf, hwait]
        nofun
      · rw [hstatus j hjf]
        rw [hfresh] at hj
        exact hf.born (Nat.lt_of_le_of_ne (Nat.le_of_lt_succ hj) hjf)
    · rw [hfresh] at hj
      rw [hcos j (Nat.ne_of_gt hj)]
      exact hf.wait (Nat.le_of_succ_le hj)
    · rw [hfresh] at hj
      rw [hcos j (Nat.ne_of_gt hj)]
      exact hf.role (Nat.le_of_succ_le hj)
    · rw [htimers] at hd
      rw [hfresh]
      exact Nat.lt_succ_of_lt (hf.daemon hd)
  · intro u hu
    refine ⟨fun l => by rw [hlocks], fun c _ => by rw [hs']; rfl, fun c h => by rw [hs']; exact h,
      fun g _ => by rw [hgroups]; exact ⟨rfl, rfl⟩, fun g h h' => by rw [hgroups]; exact ⟨h, h'⟩,
      fun g => by rw [hgroups], fun g j _ _ => by rw [hgroups]; exact ⟨rfl, rfl⟩,
      fun g j _ h => by rw [hgroups]; exact h, fun _ => by rw [htimers],
      fun e h => by rw [htimers]; exact h, fun hl hset j hj => ?_,
      fun _ h => by rw [htimers]; exact h, fun _ => by rw [htimers],
      by rw [hfresh]; exact Nat.le_succ _, fun j hj => by rw [hcos j (Nat.ne_of_lt hj)],
      fun j _ hj hw hsv => ?_, fun j _ hj => ?_, fun j _ hj hn => ?_, fun e he => ?_⟩
    · rw [htimers]
      refine hset j ?_
      by_cases hjf : j = s.fresh
      · rw [hjf, hnew] at hj
        rw [(htimer hj).1] at hl
        exact absurd (Option.some.inj hl).symm hu
      · rw [← hcos j hjf]
        exact hj
    · rw [hstatus j (Nat.ne_of_lt hj)]
      exact ⟨hcos j (Nat.ne_of_lt hj), hw, hsv⟩
    · rw [hcos j (Nat.ne_of_lt hj)]
      exact Co.Kept.refl _
    · by_cases hjf : j = s.fresh
      · rw [hjf, hnew]
        refine ⟨rfl, fun w hw => ?_⟩
        cases hw
        rfl
      · rw [hcos j hjf]
        exact ⟨rfl, hn⟩
    · refine hcos e ?_
      rintro rfl
      rcases he with he | ⟨w, hw, hp⟩
      · exact not_claimed_of_wait_none hnone he
      · rw [hnew] at hw
        cases hw
        exact hu (Phase.served_by hp)

theorem execCo_sound {cmd : CoCmd} {r : cmd.Res} (hi : Inv s) (hact : s.active t = true)
    (ha : AllowedCo t s cmd) (he : execCo t s cmd = some (r, s')) :
    Inv s' ∧ ∀ u, u ≠ t → u.isThread = true → Rely u s s' := by
  have hrun : ∀ k, t = .co k → s.status k = .running := by
    rintro k rfl
    simpa [State.active] using hact
  cases cmd with
  | suspend ls =>
    obtain ⟨k, site, rfl, hrest⟩ := id ha
    cases he
    exact suspend_sound hi (hrun k rfl) ha rfl
  | ready d =>
    obtain ⟨site, o, hw⟩ := ha
    simp only [execCo] at he
    split at he
    · cases he
      obtain ⟨hi', hr⟩ := ready_sound hi hw
      exact ⟨hi', fun u hu _ => hr u hu⟩
    · cases he
  | preempts d =>
    simp only [execCo] at he
    split at he <;> cases he <;> exact ⟨hi, fun u _ _ => Rely.refl u s⟩
  | yield =>
    obtain ⟨k, rfl, hw⟩ := ha
    cases he
    obtain ⟨hi', hr⟩ := yield_sound hi (hrun k rfl) hw
    exact ⟨hi', fun u hu _ => hr u hu⟩
  | allocate priority role =>
    obtain ⟨⟨k, rfl, hclient⟩, htimer⟩ := id ha
    cases he
    obtain ⟨hi', hr⟩ := allocate_sound hi (hrun k rfl) ha rfl
    exact ⟨hi', fun u hu _ => hr u hu⟩

end Coroc.Runtime
