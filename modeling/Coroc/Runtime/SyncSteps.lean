import Coroc.Runtime.SchedSteps

/-!
# Groups, the asynchronous pool, timers and the environment keep the invariant

None of these touches a channel, and each moves at most one coroutine: the one that
publishes that it waits outside the channels, or the one whose wait is claimed.  What
is left after that (`Outside`) is to say what happens to the groups, the requests and
the timer manager.
-/

namespace Coroc.Runtime

open Coroc.Program

variable {s s' : State} {t u : Tid} {k d : Coid} {a : Nat}

/-- Steps outside the channels, that change at most the coroutine `d`. -/
structure Outside (t : Tid) (d : Coid) (s s' : State) : Prop where
  locks : s'.locks = s.locks
  status : s'.status = s.status
  chans : s'.chans = s.chans
  fresh : s'.fresh = s.fresh
  others : ∀ j, j ≠ d → s'.cos j = s.cos j
  change : CoChange t s s' d
  outside : s'.cos d = s.cos d ∨
    d < s.fresh ∧ CoInv s' d ∧ ∀ w, (s.cos d).wait = some w → w.site.quanta = []

namespace Outside

theorem role (h : Outside t d s s') (j : Coid) : (s'.cos j).role = (s.cos j).role := by
  by_cases hj : j = d
  · subst hj
    exact h.change.role
  · rw [h.others j hj]

theorem inv (h : Outside t d s s') (hi : Inv s) (hgroup : ∀ g, GroupInv s' g)
    (hasync : AsyncInv s') (htimer : TimerInv s')
    (hdaemon : ∀ j, s'.timers.daemon = some j → j < s.fresh) : Inv s' where
  co := by
    intro j
    by_cases hj : j = d
    · subst hj
      rcases h.outside with he | ⟨-, hco, -⟩
      · exact (hi.co j).frame_locks he (by rw [h.status]) h.locks
      · exact hco
    · exact (hi.co j).frame_locks (h.others j hj) (by rw [h.status]) h.locks
  chan := by
    intro c
    refine (hi.chan c).frame (by rw [h.chans]) (fun k _ hk => ⟨k, by rw [h.locks]; exact hk⟩)
      fun dir q _ => ?_
    by_cases hq : q.co = d
    · rw [hq]
      rcases h.outside with he | ⟨-, -, hout⟩
      · exact .of_eq he
      · -- a queued quantum cannot belong to a wait outside the channels
        rintro ⟨w, hw, hm, -⟩
        rw [hout w hw] at hm
        cases hm
    · exact .of_eq (h.others _ hq)
  group := hgroup
  async := hasync
  timer := htimer
  fresh := by
    intro j
    have hf := hi.fresh j
    have hcos : s.fresh ≤ j → s'.cos j = s.cos j := by
      intro hj
      by_cases hjd : j = d
      · subst hjd
        rcases h.outside with he | ⟨hlt, -⟩
        · exact he
        · exact absurd hlt (Nat.not_lt.mpr hj)
      · exact h.others j hjd
    refine ⟨by rw [h.fresh, h.status]; exact hf.status, by rw [h.fresh, h.status]; exact hf.born,
      fun hj => ?_, fun hj => ?_, by rw [h.fresh]; exact hdaemon j⟩
    · rw [h.fresh] at hj
      rw [hcos hj]
      exact hf.wait hj
    · rw [h.fresh] at hj
      rw [hcos hj]
      exact hf.role hj

end Outside

/-! ### What the others rely on -/

structure GroupsKept (u : Tid) (s s' : State) : Prop where
  parent : ∀ g, s.locks (.group g) = some u →
    (s'.groups g).parent = (s.groups g).parent ∧ (s'.groups g).looked = (s.groups g).looked
  last : ∀ g, (s.groups g).last = some u → (s.groups g).looked = false →
    (s'.groups g).last = some u ∧ (s'.groups g).looked = false
  owner : ∀ g, (s'.groups g).owner = (s.groups g).owner
  begun : ∀ g k, u = .co k → (s.groups g).owner = k →
    (s'.groups g).begun = (s.groups g).begun ∧ (s'.groups g).synced = (s.groups g).synced
  notifying : ∀ g k, u = .co k → k ∈ (s.groups g).notifying → k ∈ (s'.groups g).notifying

theorem GroupsKept.of_eq (h : s'.groups = s.groups) : GroupsKept u s s' where
  parent := fun g _ => by rw [h]; exact ⟨rfl, rfl⟩
  last := fun g hl hk => by rw [h]; exact ⟨hl, hk⟩
  owner := fun g => by rw [h]
  begun := fun g k _ _ => by rw [h]; exact ⟨rfl, rfl⟩
  notifying := fun g k _ hk => by rw [h]; exact hk

structure TimersKept (u : Tid) (s s' : State) : Prop where
  suspend : s.locks .timer = some u → s'.timers.suspend = s.timers.suspend
  daemon : ∀ e, s.timers.daemon = some e → s'.timers.daemon = some e
  vacant : s.locks .timer = some u → s.timers.daemon = none → s'.timers.daemon = none
  size : s.locks .timer = some u → s'.timers.heap.size = s.timers.heap.size

theorem TimersKept.of_eq (hs : s'.timers.suspend = s.timers.suspend)
    (hd : s'.timers.daemon = s.timers.daemon)
    (hsize : s'.timers.heap.size = s.timers.heap.size) : TimersKept u s s' where
  suspend := fun _ => hs
  daemon := fun e he => by rw [hd]; exact he
  vacant := fun _ he => by rw [hd]; exact he
  size := fun _ => hsize

/-- Only the holder of the manager's lock changes the manager. -/
theorem TimersKept.of_lock (hl : s.locks .timer = some t) (hu : u ≠ t)
    (hd : ∀ e, s.timers.daemon = some e → s'.timers.daemon = some e) : TimersKept u s s' where
  suspend := fun h => absurd (Option.some.inj (h.symm.trans hl)) hu
  daemon := hd
  vacant := fun h => absurd (Option.some.inj (h.symm.trans hl)) hu
  size := fun h => absurd (Option.some.inj (h.symm.trans hl)) hu

theorem Outside.rely (h : Outside t d s s') (hi : Inv s) (hu : u ≠ t) (hg : GroupsKept u s s')
    (ht : TimersKept u s s') : Rely u s s' where
  locks := fun l => by rw [h.locks]
  chans := fun c _ => by rw [h.chans]
  close := fun c hc => by rw [h.chans]; exact hc
  parent := hg.parent
  last := hg.last
  owner := hg.owner
  begun := hg.begun
  notifying := hg.notifying
  suspend := ht.suspend
  daemon := ht.daemon
  settled := by
    intro _ hs j hj
    exact ht.daemon j (hs j (by rw [← h.role j]; exact hj))
  vacant := ht.vacant
  size := ht.size
  fresh := by rw [h.fresh]
  role := fun j _ => h.role j
  self := by
    intro j hj _ hw hs
    rw [h.status]
    refine ⟨?_, hw, hs⟩
    by_cases hjd : j = d
    · subst hjd
      exact h.change.self hu hj hw
    · exact h.others j hjd
  kept := by
    intro j hj _
    by_cases hjd : j = d
    · subst hjd
      exact h.change.kept hu hj
    · rw [h.others j hjd]
      exact Co.Kept.refl _
  newborn := by
    intro j hj _ hn
    by_cases hjd : j = d
    · subst hjd
      exact (h.change.kept hu hj).newborn hn
    · rw [h.others j hjd]
      exact ⟨rfl, hn⟩
  claims := by
    intro e he
    by_cases hed : e = d
    · subst hed
      exact h.change.claims (hi.co e) hu he
    · exact h.others e hed

/-! ### The coroutine that moves -/

/-- The unclaimed waits at `site` stay. -/
def IdleKept (site : Site) (s s' : State) : Prop :=
  ∀ p, (s.cos p).wait = some ⟨site, .idle⟩ → (s'.cos p).wait = some ⟨site, .idle⟩

theorem IdleKept.of_cos {site : Site} (h : s'.cos = s.cos) : IdleKept site s s' :=
  fun p hp => by rw [h]; exact hp

theorem Outside.of_cos (hcos : s'.cos = s.cos) (hl : s'.locks = s.locks)
    (hst : s'.status = s.status) (hch : s'.chans = s.chans) (hf : s'.fresh = s.fresh) :
    Outside t 0 s s' :=
  ⟨hl, hst, hch, hf, fun j _ => by rw [hcos], .inl (by rw [hcos]), .inl (by rw [hcos])⟩

/-- A coroutine publishes a wait outside the channels. -/
theorem publish_outside (site : Site) (hi : Inv s) (hrun : s.status k = .running)
    (hw : (s.cos k).wait = none) (hmoved : (s.cos k).moved = [])
    (hown : ∀ l ∈ site.locks, s.locks l = some (.co k)) (hq : site.quanta = [])
    (hch : ∀ qs, site ≠ .chans qs) (hborn : site ≠ .born)
    (hcos : s'.cos = Function.update s.cos k ((s.cos k).publish site))
    (hl : s'.locks = s.locks) (hst : s'.status = s.status) (hc : s'.chans = s.chans)
    (hf : s'.fresh = s.fresh) : Outside (.co k) k s s' := by
  have hk : s'.cos k = (s.cos k).publish site := by
    rw [hcos, Function.update_self]
  refine ⟨hl, hst, hc, hf, fun j hj => by rw [hcos, Function.update_of_ne hj], ?_, .inr ⟨?_, ?_, ?_⟩⟩
  · refine .own hrun (by rw [hk]; rfl) ?_
    rintro u ⟨w, hw', hp⟩
    rw [hk] at hw'
    cases hw'
    exact Phase.not_by_idle hp
  · exact hi.lt_fresh (by rw [hrun]; nofun)
  · refine .of_wait_some (w := ⟨site, .idle⟩) (by rw [hk]; rfl) ?_
      ⟨.inl ⟨by rw [hst]; exact hrun, by rw [hl]; exact hown⟩, hborn, ?_, ?_, ?_⟩
    · exact ⟨fun qs h => absurd h (hch qs), by rw [hq]; nofun, by rw [hq]; exact List.nodup_nil,
        by rw [hq]; nofun, by rw [hq]; nofun, by rw [hq]; exact .inl nofun⟩
    · rw [hk]
      exact ((hi.co k).awake hw).2.2
    · rw [hk]
      exact hmoved
    · rw [hq]
      nofun
  · exact fun w h => nomatch hw.symm.trans h

theorem publish_idle {site site' : Site} (hw : (s.cos k).wait = none)
    (hcos : s'.cos = Function.update s.cos k ((s.cos k).publish site)) : IdleKept site' s s' := by
  intro p hp
  rw [hcos, Function.update_of_ne]
  · exact hp
  · rintro rfl
    exact nomatch hw.symm.trans hp

/-- A thread other than the waiter, holding the lock of the wait, finds it asleep. -/
theorem Inv.asleep_of_lock (hi : Inv s) {site : Site} {l : Lock}
    (hw : (s.cos d).wait = some ⟨site, .idle⟩) (hl : l ∈ site.locks) (hown : s.locks l = some t)
    (hne : t ≠ .co d) (hth : t.isThread = true) : s.status d = .wait := by
  obtain ⟨hpark, -⟩ := (hi.co d).phase _ hw
  rcases hpark with ⟨-, hlk⟩ | ⟨-, hlk⟩ | h
  · exact absurd (Option.some.inj (hown.symm.trans (hlk l hl))) hne
  · have := Option.some.inj (hown.symm.trans (hlk l hl))
    rw [this] at hth
    cases hth
  · exact h

/-- **A wait outside the channels is claimed** under its lock. -/
theorem call_outside {site : Site} {l : Lock} (hi : Inv s)
    (hw : (s.cos d).wait = some ⟨site, .idle⟩) (hq : site.quanta = []) (hl : l ∈ site.locks)
    (hown : s.locks l = some t) (hne : t ≠ .co d) (hth : t.isThread = true)
    (hcos : s'.cos = Function.update s.cos d ((s.cos d).call t))
    (hlk : s'.locks = s.locks) (hst : s'.status = s.status) (hc : s'.chans = s.chans)
    (hf : s'.fresh = s.fresh) : Outside t d s s' := by
  have hasleep := hi.asleep_of_lock hw hl hown hne hth
  have hd : s'.cos d = (s.cos d).call t := by
    rw [hcos, Function.update_self]
  have hw' : (s'.cos d).wait = some ⟨site, .served t none⟩ := by
    rw [hd]
    simp only [Co.call, hw, Option.map_some]
  refine ⟨hlk, hst, hc, hf, fun j hj => by rw [hcos, Function.update_of_ne hj], ?_, .inr ⟨?_, ?_, ?_⟩⟩
  · exact .waiter hasleep (by rw [hd]; rfl) (by rw [hd]; rfl) (fun _ => by rw [hd]; rfl) hw hw' (fun u h => absurd h Phase.not_by_idle)
      (fun u h => Phase.served_by h) rfl fun _ _ _ => by rw [hd]; rfl
  · exact hi.lt_fresh (by rw [hasleep]; nofun)
  · have hsite : SiteOk d site := (hi.co d).site _ hw
    obtain ⟨-, -, htag, -⟩ := (hi.co d).phase _ hw
    exact .of_wait_some hw' hsite ⟨by rw [hst]; exact hasleep, hq, by rw [hd]; exact htag⟩
  · intro w h
    rw [hw] at h
    cases h
    exact hq

theorem call_idle {site site' : Site} (hw : (s.cos d).wait = some ⟨site, .idle⟩)
    (hcos : s'.cos = Function.update s.cos d ((s.cos d).call t)) (hne : site' ≠ site) :
    IdleKept site' s s' := by
  intro p hp
  rw [hcos, Function.update_of_ne]
  · exact hp
  · rintro rfl
    rw [hw] at hp
    cases hp
    exact hne rfl

/-! ### The objects that do not move -/

theorem GroupInv.frame {g : GroupId} (h : GroupInv s g) (hg : s'.groups g = s.groups g)
    (hidle : IdleKept (.group g) s s') : GroupInv s' g where
  count := by rw [hg]; exact h.count
  synced := by rw [hg]; exact h.synced
  last := by rw [hg]; exact h.last
  parent := by
    rw [hg]
    exact fun p hp hl => hidle p (h.parent p hp hl)

theorem AsyncInv.frame (h : AsyncInv s) (hr : s'.requests = s.requests)
    (hidle : IdleKept .async s s') : AsyncInv s' where
  nodup := by rw [hr]; exact h.nodup
  wait := by
    rw [hr]
    exact fun j hj => hidle j (h.wait j hj)

theorem TimerInv.frame (h : TimerInv s) (hheap : s'.timers.heap.All s'.timers.heap.size
      fun tm => ∃ c, tm = .chan c)
    (hsusp : s'.timers.suspend = s.timers.suspend) (hd : s'.timers.daemon = s.timers.daemon)
    (hrole : ∀ j, (s'.cos j).role = (s.cos j).role) (hl : s'.locks = s.locks)
    (hidle : IdleKept .timer s s') : TimerInv s' where
  chans := hheap
  suspend := by
    rw [hsusp, hd]
    intro hs
    obtain ⟨e, he, hw⟩ := h.suspend hs
    exact ⟨e, he, hidle e hw⟩
  unique := by
    intro j j' hj hj'
    rw [hrole j] at hj
    rw [hrole j'] at hj'
    exact h.unique j j' hj hj'
  settled := by
    rw [hd, hl]
    rcases h.settled with hs | ⟨j, hj, hr, hn⟩
    · left
      intro j hj
      rw [hrole j] at hj
      rw [hd]
      exact hs j hj
    · exact .inr ⟨j, hj, by rw [hrole j]; exact hr, hn⟩

theorem TimerInv.of_eq (h : TimerInv s) (ht : s'.timers = s.timers)
    (hrole : ∀ j, (s'.cos j).role = (s.cos j).role) (hl : s'.locks = s.locks)
    (hidle : IdleKept .timer s s') : TimerInv s' :=
  h.frame (by rw [ht]; exact h.chans) (by rw [ht]) (by rw [ht]) hrole hl hidle

/-! ### Groups -/

/-- A step of `t` on the group `g`, without a coroutine. -/
theorem group_sound {g : GroupId} {f : Group → Group} (hi : Inv s)
    (hg : GroupInv (s.setGroup g f) g)
    (hk : ∀ u, u ≠ t → GroupsKept u s (s.setGroup g f)) :
    Inv (s.setGroup g f) ∧ ∀ u, u ≠ t → Rely u s (s.setGroup g f) := by
  have hout : Outside t 0 s (s.setGroup g f) := .of_cos rfl rfl rfl rfl rfl
  refine ⟨hout.inv hi (fun g' => ?_) (hi.async.frame rfl (.of_cos rfl))
    (hi.timer.of_eq rfl (fun _ => rfl) rfl (.of_cos rfl)) (fun j => (hi.fresh j).daemon),
    fun u hu => hout.rely hi hu (hk u hu) (.of_eq rfl rfl rfl)⟩
  by_cases hg' : g' = g
  · subst hg'
    exact hg
  · exact (hi.group g').frame (Function.update_of_ne hg' _ _) (.of_cos rfl)

/-- What the others rely on, when one group changes. -/
theorem GroupsKept.of_one {g : GroupId} (hother : ∀ g', g' ≠ g → s'.groups g' = s.groups g')
    (hparent : s.locks (.group g) = some u →
      (s'.groups g).parent = (s.groups g).parent ∧ (s'.groups g).looked = (s.groups g).looked)
    (hlast : (s.groups g).last = some u → (s.groups g).looked = false →
      (s'.groups g).last = some u ∧ (s'.groups g).looked = false)
    (howner : (s'.groups g).owner = (s.groups g).owner)
    (hbegun : ∀ k, u = .co k → (s.groups g).owner = k →
      (s'.groups g).begun = (s.groups g).begun ∧ (s'.groups g).synced = (s.groups g).synced)
    (hnot : ∀ k, u = .co k → k ∈ (s.groups g).notifying → k ∈ (s'.groups g).notifying) :
    GroupsKept u s s' := by
  refine ⟨fun g' => ?_, fun g' => ?_, fun g' => ?_, fun g' => ?_, fun g' => ?_⟩
  all_goals
    by_cases hg : g' = g
    · subst hg
      assumption
  · simp [hother g' hg]
  · rw [hother g' hg]
    exact fun h h' => ⟨h, h'⟩
  · rw [hother g' hg]
  · simp [hother g' hg]
  · rw [hother g' hg]
    exact fun _ _ h => h

section GroupSteps
variable {g : GroupId}

theorem setGroup_self (s : State) (g : GroupId) (f : Group → Group) :
    (s.setGroup g f).groups g = f (s.groups g) :=
  Function.update_self _ _ _

theorem setGroup_ne (s : State) (f : Group → Group) {g' : GroupId} (h : g' ≠ g) :
    (s.setGroup g f).groups g' = s.groups g' :=
  Function.update_of_ne h _ _

theorem addTask_sound (hi : Inv s) (hs : (s.groups g).synced = false) :
    Inv (s.setGroup g Group.addTask) ∧ ∀ u, u ≠ t → Rely u s (s.setGroup g Group.addTask) := by
  have hg := hi.group g
  have hcount := hg.count
  rw [hs] at hcount
  have hlast := hg.last (by rw [hcount]; simp)
  refine group_sound hi ⟨?_, ?_, ?_, ?_⟩ fun u _ => .of_one (fun g' h => setGroup_ne s _ h) ?_ ?_ ?_ ?_ ?_
  all_goals rw [setGroup_self]
  · simp only [Group.addTask, hs]
    omega
  · exact hg.synced
  · exact fun _ => hlast
  · exact hg.parent
  · exact fun _ => ⟨rfl, rfl⟩
  · exact fun h h' => ⟨h, h'⟩
  · rfl
  · exact fun _ _ _ => ⟨rfl, rfl⟩
  · exact fun _ _ h => h

theorem addError_sound (hi : Inv s) :
    Inv (s.setGroup g Group.addError) ∧ ∀ u, u ≠ t → Rely u s (s.setGroup g Group.addError) := by
  have hg := hi.group g
  refine group_sound hi ⟨?_, ?_, ?_, ?_⟩ fun u _ => .of_one (fun g' h => setGroup_ne s _ h) ?_ ?_ ?_ ?_ ?_
  all_goals rw [setGroup_self]
  · exact hg.count
  · exact hg.synced
  · exact hg.last
  · exact hg.parent
  · exact fun _ => ⟨rfl, rfl⟩
  · exact fun h h' => ⟨h, h'⟩
  · rfl
  · exact fun _ _ _ => ⟨rfl, rfl⟩
  · exact fun _ _ h => h

theorem notify_sound (hi : Inv s) (hk : k ∈ (s.groups g).notifying) :
    Inv (s.setGroup g (Group.notify k)) ∧
      ∀ u, u ≠ .co k → Rely u s (s.setGroup g (Group.notify k)) := by
  have hg := hi.group g
  have hcount := hg.count
  have hlen := List.length_erase_of_mem hk
  have hpos : 0 < (s.groups g).notifying.length := List.length_pos_of_mem hk
  have hlast := hg.last (by omega)
  refine group_sound hi ⟨?_, ?_, ?_, ?_⟩ fun u hu => .of_one (fun g' h => setGroup_ne s _ h) ?_ ?_ ?_ ?_ ?_
  all_goals rw [setGroup_self]
  · have hsame : ((s.groups g).notify k).synced = (s.groups g).synced := rfl
    simp only [hsame]
    change (s.groups g).count - 1 = _ + ((s.groups g).notifying.erase k).length + _
    rw [hlen, hcount]
    exact (Nat.sub_add_comm (by omega)).trans (by rw [Nat.add_sub_assoc hpos]; rfl)
  · exact hg.synced
  · intro hne
    simp only [Group.notify] at hne ⊢
    rw [if_neg hne]
    exact hlast
  · exact hg.parent
  · exact fun _ => ⟨rfl, rfl⟩
  · -- nobody has brought the counter to zero yet
    exact fun h => nomatch hlast.1.symm.trans h
  · rfl
  · exact fun _ _ _ => ⟨rfl, rfl⟩
  · intro j hj hm
    refine (List.mem_erase_of_ne ?_).mpr hm
    rintro rfl
    exact hu hj

theorem sync_sound (hi : Inv s) (howner : (s.groups g).owner = k)
    (hb : (s.groups g).begun = true) (hs : (s.groups g).synced = false) :
    Inv (s.setGroup g Group.sync) ∧ ∀ u, u ≠ .co k → Rely u s (s.setGroup g Group.sync) := by
  have hg := hi.group g
  have hcount := hg.count
  rw [hs] at hcount
  have hlast := hg.last (by rw [hcount]; simp)
  refine group_sound hi ⟨?_, ?_, ?_, ?_⟩ fun u hu => .of_one (fun g' h => setGroup_ne s _ h) ?_ ?_ ?_ ?_ ?_
  all_goals rw [setGroup_self]
  · simp only [Group.sync, hcount]
    simp
  · exact fun _ => hb
  · exact fun _ => hlast
  · exact hg.parent
  · exact fun _ => ⟨rfl, rfl⟩
  · exact fun h h' => ⟨h, h'⟩
  · rfl
  · rintro j rfl hj
    exact absurd (congrArg Tid.co (hj.symm.trans howner)) hu
  · exact fun _ _ h => h

/-- The last task looks for the parent, and claims its wait. -/
theorem readParent_sound (hi : Inv s) (hlock : s.locks (.group g) = some (.co k))
    (hlast : (s.groups g).last = some (.co k)) (hlooked : (s.groups g).looked = false)
    (hw : (s.cos k).wait = none)
    (hs' : s' = (s.setGroup g Group.look).call (.co k) (s.groups g).parent) :
    Inv s' ∧ ∀ u, u ≠ .co k → Rely u s s' := by
  have hg := hi.group g
  have hzero : (s.groups g).count = 0 := by
    by_contra hne
    exact nomatch (hg.last hne).1.symm.trans hlast
  have hgroups : s'.groups = (s.setGroup g Group.look).groups := by
    rw [hs']
    cases (s.groups g).parent <;> rfl
  have hself : s'.groups g = (s.groups g).look := by
    rw [hgroups, setGroup_self]
  have hne : ∀ g', g' ≠ g → s'.groups g' = s.groups g' := fun g' h => by
    rw [hgroups, setGroup_ne s _ h]
  have hinv : GroupInv s' g := by
    refine ⟨?_, ?_, ?_, ?_⟩ <;> rw [hself]
    · exact hg.count
    · exact hg.synced
    · exact fun h => absurd hzero h
    · exact fun _ _ h => nomatch h
  have hkept : ∀ u, u ≠ .co k → GroupsKept u s s' := by
    intro u hu
    refine .of_one hne ?_ ?_ ?_ ?_ ?_ <;> rw [hself]
    · exact fun h => absurd (Option.some.inj (h.symm.trans hlock)) hu
    · exact fun h => absurd (Option.some.inj (h.symm.trans hlast)) hu
    · rfl
    · exact fun _ _ _ => ⟨rfl, rfl⟩
    · exact fun _ _ h => h
  cases hp : (s.groups g).parent with
  | none =>
    rw [hp] at hs'
    subst hs'
    exact group_sound hi hinv hkept
  | some p =>
    rw [hp] at hs'
    have hwp := hg.parent p hp hlooked
    have hcos : s'.cos = Function.update s.cos p ((s.cos p).call (.co k)) := by
      rw [hs']
      rfl
    have hout : Outside (.co k) p s s' := by
      refine call_outside (l := .group g) hi hwp rfl List.mem_cons_self hlock ?_ rfl hcos
        (by rw [hs']; rfl) (by rw [hs']; rfl) (by rw [hs']; rfl) (by rw [hs']; rfl)
      rintro ⟨⟩
      exact nomatch hw.symm.trans hwp
    have htm : s'.timers = s.timers := by rw [hs']; rfl
    refine ⟨hout.inv hi (fun g' => ?_) (hi.async.frame (by rw [hs']; rfl) (call_idle hwp hcos nofun))
      (hi.timer.of_eq htm hout.role hout.locks (call_idle hwp hcos nofun))
      (by rw [htm]; exact fun j => (hi.fresh j).daemon),
      fun u hu => hout.rely hi hu (hkept u hu) (.of_eq (by rw [htm]) (by rw [htm]) (by rw [htm]))⟩
    by_cases hg' : g' = g
    · subst hg'
      exact hinv
    · refine (hi.group g').frame (hne g' hg') (call_idle hwp hcos ?_)
      rintro ⟨⟩
      exact hg' rfl

theorem setParent_sound (hi : Inv s) (hrun : s.status k = .running)
    (hlock : s.locks (.group g) = some (.co k)) (hlooked : (s.groups g).looked = false)
    (hw : (s.cos k).wait = none) (hm : (s.cos k).moved = [])
    (hs' : s' = (s.setGroup g (Group.adopt k)).setCo k (Co.publish (.group g))) :
    Inv s' ∧ ∀ u, u ≠ .co k → Rely u s s' := by
  have hg := hi.group g
  have hcos : s'.cos = Function.update s.cos k ((s.cos k).publish (.group g)) := by
    rw [hs']
    rfl
  have hself : s'.groups g = (s.groups g).adopt k := by
    rw [hs']
    exact setGroup_self s g _
  have hne : ∀ g', g' ≠ g → s'.groups g' = s.groups g' := fun g' h => by
    rw [hs']
    exact setGroup_ne s _ h
  have hout : Outside (.co k) k s s' := by
    refine publish_outside (.group g) hi hrun hw hm ?_ rfl nofun nofun hcos
      (by rw [hs']; rfl) (by rw [hs']; rfl) (by rw [hs']; rfl) (by rw [hs']; rfl)
    intro l hl
    rw [List.mem_singleton.mp hl]
    exact hlock
  have htm : s'.timers = s.timers := by rw [hs']; rfl
  refine ⟨hout.inv hi (fun g' => ?_) (hi.async.frame (by rw [hs']; rfl) (publish_idle hw hcos))
    (hi.timer.of_eq htm hout.role hout.locks (publish_idle hw hcos))
    (by rw [htm]; exact fun j => (hi.fresh j).daemon),
    fun u hu => hout.rely hi hu (.of_one hne ?_ ?_ ?_ ?_ ?_) (.of_eq (by rw [htm]) (by rw [htm]) (by rw [htm]))⟩
  · by_cases hg' : g' = g
    · subst hg'
      refine ⟨?_, ?_, ?_, ?_⟩ <;> rw [hself]
      · exact hg.count
      · exact hg.synced
      · exact hg.last
      · rintro p ⟨⟩ -
        rw [hcos, Function.update_self]
        rfl
    · exact (hi.group g').frame (hne g' hg') (publish_idle hw hcos)
  · exact fun h => absurd (Option.some.inj (h.symm.trans hlock)) hu
  all_goals rw [hself]
  · exact fun h h' => ⟨h, h'⟩
  · rfl
  · exact fun _ _ _ => ⟨rfl, rfl⟩
  · exact fun _ _ h => h

end GroupSteps

theorem execGroup_sound {cmd : GroupCmd} {r : cmd.Res} (hi : Inv s) (hact : s.active t = true)
    (ha : AllowedGroup t s cmd) (he : execGroup t s cmd = some (r, s')) :
    Inv s' ∧ ∀ u, u ≠ t → Rely u s s' := by
  have hrun : ∀ k, t = .co k → s.status k = .running := by
    rintro k rfl
    simpa [State.active] using hact
  have hsame : Inv s ∧ ∀ u, u ≠ t → Rely u s s := ⟨hi, fun u _ => Rely.refl u s⟩
  cases cmd with
  | inc g =>
    obtain ⟨k, rfl, -, hs⟩ := ha
    cases he
    exact addTask_sound hi hs
  | incErrors g =>
    cases he
    exact addError_sound hi
  | dec g by_ =>
    cases by_ with
    | notify =>
      obtain ⟨k, rfl, hk⟩ := ha
      cases he
      exact notify_sound hi hk
    | sync =>
      obtain ⟨k, rfl, howner, hb, hs⟩ := ha
      cases he
      exact sync_sound hi howner hb hs
  | readCount g =>
    cases he
    exact hsame
  | readParent g =>
    obtain ⟨hl, hlast, hlook, k, rfl, hw⟩ := ha
    cases he
    exact readParent_sound hi hl hlast hlook hw rfl
  | setParent g =>
    obtain ⟨k, rfl, hl, hlook, -, hw, hm⟩ := ha
    cases he
    exact setParent_sound hi (hrun k rfl) hl hlook hw hm rfl
  | readErrors g =>
    cases he
    exact hsame

/-! ### The asynchronous pool -/

theorem submit_sound (hi : Inv s) (hrun : s.status k = .running)
    (hlock : s.locks .async = some (.co k)) (hw : (s.cos k).wait = none)
    (hm : (s.cos k).moved = [])
    (hs' : s' = { s.setCo k (Co.publish .async) with requests := s.requests ++ [k] }) :
    Inv s' ∧ ∀ u, u ≠ .co k → Rely u s s' := by
  have hcos : s'.cos = Function.update s.cos k ((s.cos k).publish .async) := by
    rw [hs']
    rfl
  have hout : Outside (.co k) k s s' := by
    refine publish_outside .async hi hrun hw hm ?_ rfl nofun nofun hcos
      (by rw [hs']; rfl) (by rw [hs']; rfl) (by rw [hs']; rfl) (by rw [hs']; rfl)
    intro l hl
    rw [List.mem_singleton.mp hl]
    exact hlock
  have htm : s'.timers = s.timers := by rw [hs']; rfl
  have hgr : s'.groups = s.groups := by rw [hs']; rfl
  have hreq : s'.requests = s.requests ++ [k] := by rw [hs']
  have hnew : k ∉ s.requests := fun h => nomatch hw.symm.trans (hi.async.wait k h)
  refine ⟨hout.inv hi (fun g => (hi.group g).frame (by rw [hgr]) (publish_idle hw hcos)) ⟨?_, ?_⟩
    (hi.timer.of_eq htm hout.role hout.locks (publish_idle hw hcos))
    (by rw [htm]; exact fun j => (hi.fresh j).daemon),
    fun u hu => hout.rely hi hu (.of_eq hgr) (.of_eq (by rw [htm]) (by rw [htm]) (by rw [htm]))⟩
  · rw [hreq]
    exact hi.async.nodup.append (List.nodup_singleton k) (by simpa using hnew)
  · rw [hreq]
    intro j hj
    rcases List.mem_append.mp hj with hj | hj
    · exact publish_idle hw hcos j (hi.async.wait j hj)
    · rw [List.mem_singleton.mp hj, hcos, Function.update_self]
      rfl

/-- An asynchronous thread takes the first request, and claims the wait behind it. -/
theorem take_sound (hi : Inv s) (hlock : s.locks .async = some (.async a))
    (hs' : s' = { s.call (.async a) s.requests.head? with requests := s.requests.tail }) :
    Inv s' ∧ ∀ u, u ≠ .async a → Rely u s s' := by
  cases hr : s.requests with
  | nil =>
    have hsame : s' = s := by
      rw [hs']
      cases s
      cases hr
      rfl
    rw [hsame]
    exact ⟨hi, fun u _ => Rely.refl u s⟩
  | cons j rest =>
    rw [hr] at hs'
    have hwj := hi.async.wait j (by rw [hr]; exact List.mem_cons_self)
    have hnd := hi.async.nodup
    rw [hr, List.nodup_cons] at hnd
    have hcos : s'.cos = Function.update s.cos j ((s.cos j).call (.async a)) := by
      rw [hs']
      rfl
    have hout : Outside (.async a) j s s' :=
      call_outside (l := .async) hi hwj rfl List.mem_cons_self hlock nofun rfl hcos
        (by rw [hs']; rfl) (by rw [hs']; rfl) (by rw [hs']; rfl) (by rw [hs']; rfl)
    have htm : s'.timers = s.timers := by rw [hs']; rfl
    have hgr : s'.groups = s.groups := by rw [hs']; rfl
    have hreq : s'.requests = rest := by rw [hs']; rfl
    refine ⟨hout.inv hi (fun g => (hi.group g).frame (by rw [hgr]) (call_idle hwj hcos nofun))
      ⟨by rw [hreq]; exact hnd.2, ?_⟩
      (hi.timer.of_eq htm hout.role hout.locks (call_idle hwj hcos nofun))
      (by rw [htm]; exact fun j => (hi.fresh j).daemon),
      fun u hu => hout.rely hi hu (.of_eq hgr) (.of_eq (by rw [htm]) (by rw [htm]) (by rw [htm]))⟩
    rw [hreq]
    intro i hij
    rw [hcos, Function.update_of_ne]
    · exact hi.async.wait i (by rw [hr]; exact List.mem_cons_of_mem _ hij)
    · rintro rfl
      exact hnd.1 hij

theorem execAsync_sound {cmd : AsyncCmd} {r : cmd.Res} (hi : Inv s) (hact : s.active t = true)
    (ha : AllowedAsync t s cmd) (he : execAsync t s cmd = some (r, s')) :
    Inv s' ∧ ∀ u, u ≠ t → Rely u s s' := by
  have hsame : Inv s ∧ ∀ u, u ≠ t → Rely u s s := ⟨hi, fun u _ => Rely.refl u s⟩
  cases cmd with
  | readThreads =>
    cases he
    exact hsame
  | queueAdd =>
    obtain ⟨k, rfl, hl, hw, hm⟩ := ha
    cases he
    exact submit_sound hi (by simpa [State.active] using hact) hl hw hm rfl
  | readStatus =>
    cases he
    exact hsame
  | queueRem =>
    obtain ⟨hl, a, rfl⟩ := ha
    cases he
    exact take_sound hi hl rfl

/-! ### Timers -/

/-- A step on the heap of the manager. -/
theorem heap_sound {f : Timers → Timers} (hi : Inv s)
    (hheap : (f s.timers).heap.All (f s.timers).heap.size fun tm => ∃ c, tm = .chan c)
    (hsusp : (f s.timers).suspend = s.timers.suspend)
    (hd : (f s.timers).daemon = s.timers.daemon)
    (hsize : s.locks .timer = some t ∨ (f s.timers).heap.size = s.timers.heap.size) :
    Inv (s.setTimers f) ∧ ∀ u, u ≠ t → Rely u s (s.setTimers f) := by
  have hout : Outside t 0 s (s.setTimers f) := .of_cos rfl rfl rfl rfl rfl
  refine ⟨hout.inv hi (fun g => (hi.group g).frame rfl (.of_cos rfl)) (hi.async.frame rfl (.of_cos rfl))
    (hi.timer.frame hheap hsusp hd (fun _ => rfl) rfl (.of_cos rfl)) (fun j hj => ?_),
    fun u hu => hout.rely hi hu (.of_eq rfl) ?_⟩
  · exact (hi.fresh j).daemon (hd ▸ hj)
  · rcases hsize with hl | hsize
    · exact .of_lock hl hu fun e he => hd.trans he
    · exact .of_eq hsusp hd hsize

theorem setDaemon_sound (hi : Inv s) (hl : s.locks .timer = some t)
    (hnone : s.timers.daemon = none) (hrole : (s.cos d).role = .timer) (hlt : d < s.fresh)
    (hs' : s' = s.setTimers fun m => { m with daemon := some d }) :
    Inv s' ∧ ∀ u, u ≠ t → Rely u s s' := by
  subst hs'
  have hout : Outside t 0 s (s.setTimers fun m => { m with daemon := some d }) :=
    .of_cos rfl rfl rfl rfl rfl
  refine ⟨hout.inv hi (fun g => (hi.group g).frame rfl (.of_cos rfl)) (hi.async.frame rfl (.of_cos rfl))
    ⟨hi.timer.chans, fun h => ?_, hi.timer.unique, .inl fun j hj => ?_⟩ ?_,
    fun u hu => hout.rely hi hu (.of_eq rfl) (.of_lock hl hu ?_)⟩
  · obtain ⟨e, he, -⟩ := hi.timer.suspend h
    exact nomatch hnone.symm.trans he
  · rw [hi.timer.unique j d hj hrole]
    rfl
  · rintro j ⟨⟩
    exact hlt
  · exact fun e he => nomatch hnone.symm.trans he

/-- The daemon publishes that it has nothing to wait for. -/
theorem setSuspend_sound (hi : Inv s) (hrun : s.status k = .running)
    (hl : s.locks .timer = some (.co k)) (hd : s.timers.daemon = some k)
    (hw : (s.cos k).wait = none) (hm : (s.cos k).moved = [])
    (hs' : s' = (s.setTimers (Timers.setSuspend true)).setCo k (Co.publish .timer)) :
    Inv s' ∧ ∀ u, u ≠ .co k → Rely u s s' := by
  have hcos : s'.cos = Function.update s.cos k ((s.cos k).publish .timer) := by
    rw [hs']
    rfl
  have htm : s'.timers = s.timers.setSuspend true := by
    rw [hs']
    rfl
  have hout : Outside (.co k) k s s' := by
    refine publish_outside .timer hi hrun hw hm ?_ rfl nofun nofun hcos
      (by rw [hs']; rfl) (by rw [hs']; rfl) (by rw [hs']; rfl) (by rw [hs']; rfl)
    intro l hm
    rw [List.mem_singleton.mp hm]
    exact hl
  have hgr : s'.groups = s.groups := by rw [hs']; rfl
  refine ⟨hout.inv hi (fun g => (hi.group g).frame (by rw [hgr]) (publish_idle hw hcos))
    (hi.async.frame (by rw [hs']; rfl) (publish_idle hw hcos)) ⟨?_, ?_, ?_, ?_⟩ ?_,
    fun u hu => hout.rely hi hu (.of_eq hgr) (.of_lock hl hu ?_)⟩
  · rw [htm]
    exact hi.timer.chans
  · intro _
    refine ⟨k, by rw [htm]; exact hd, ?_⟩
    rw [hcos, Function.update_self]
    rfl
  · intro j j' hj hj'
    rw [hout.role] at hj hj'
    exact hi.timer.unique j j' hj hj'
  · rcases hi.timer.settled with hs | ⟨j, -, -, hn⟩
    · left
      intro j hj
      rw [hout.role] at hj
      rw [htm]
      exact hs j hj
    · exact nomatch hn.symm.trans hd
  · rw [htm]
    exact fun j => (hi.fresh j).daemon
  · rw [htm]
    exact fun e he => he

/-- The suspended daemon is claimed by whoever adds a timer. -/
theorem clearSuspend_sound (hi : Inv s) (hl : s.locks .timer = some (.co k))
    (hsusp : s.timers.suspend = true) (hw : (s.cos k).wait = none)
    (hs' : s' = (s.setTimers (Timers.setSuspend false)).call (.co k) s.timers.daemon) :
    Inv s' ∧ ∀ u, u ≠ .co k → Rely u s s' := by
  obtain ⟨e, he, hwe⟩ := hi.timer.suspend hsusp
  rw [he] at hs'
  have hcos : s'.cos = Function.update s.cos e ((s.cos e).call (.co k)) := by
    rw [hs']
    rfl
  have htm : s'.timers = s.timers.setSuspend false := by
    rw [hs']
    rfl
  have hout : Outside (.co k) e s s' := by
    refine call_outside (l := .timer) hi hwe rfl List.mem_cons_self hl ?_ rfl hcos
      (by rw [hs']; rfl) (by rw [hs']; rfl) (by rw [hs']; rfl) (by rw [hs']; rfl)
    rintro ⟨⟩
    exact nomatch hw.symm.trans hwe
  have hgr : s'.groups = s.groups := by rw [hs']; rfl
  refine ⟨hout.inv hi (fun g => (hi.group g).frame (by rw [hgr]) (call_idle hwe hcos nofun))
    (hi.async.frame (by rw [hs']; rfl) (call_idle hwe hcos nofun)) ⟨?_, ?_, ?_, ?_⟩ ?_,
    fun u hu => hout.rely hi hu (.of_eq hgr) (.of_lock hl hu ?_)⟩
  · rw [htm]
    exact hi.timer.chans
  · rw [htm]
    exact nofun
  · intro j j' hj hj'
    rw [hout.role] at hj hj'
    exact hi.timer.unique j j' hj hj'
  · rcases hi.timer.settled with hs | ⟨j, -, -, hn⟩
    · left
      intro j hj
      rw [hout.role] at hj
      rw [htm]
      exact hs j hj
    · exact nomatch hn.symm.trans he
  · rw [htm]
    exact fun j => (hi.fresh j).daemon
  · rw [htm]
    exact fun e he => he

theorem execTimer_sound {cmd : TimerCmd} {r : cmd.Res} (hi : Inv s) (hact : s.active t = true)
    (ha : AllowedTimer t s cmd) (he : execTimer t s cmd = some (r, s')) :
    Inv s' ∧ ∀ u, u ≠ t → Rely u s s' := by
  have hsame : Inv s ∧ ∀ u, u ≠ t → Rely u s s := ⟨hi, fun u _ => Rely.refl u s⟩
  cases cmd with
  | setWhen tm w =>
    cases he
    exact heap_sound hi hi.timer.chans rfl rfl (.inr rfl)
  | insert tm =>
    obtain ⟨hl, c, rfl⟩ := ha
    cases he
    exact heap_sound hi (TimerHeap.addIntertimer_all hi.timer.chans ⟨c, rfl⟩) rfl rfl (.inl hl)
  | delete tm =>
    cases he
    exact heap_sound hi (TimerHeap.delIntertimer_all tm hi.timer.chans) rfl rfl (.inl ha)
  | fireRoot now =>
    cases he
    exact heap_sound hi (TimerHeap.fireRoot_all now hi.timer.chans) rfl rfl (.inl ha)
  | setDaemon d =>
    obtain ⟨hl, hnone, hrole, hlt⟩ := ha
    cases he
    exact setDaemon_sound hi hl hnone hrole hlt rfl
  | setSuspend =>
    obtain ⟨k, rfl, hl, hd, hw, hm⟩ := ha
    cases he
    exact setSuspend_sound hi (by simpa [State.active] using hact) hl hd hw hm rfl
  | clearSuspend =>
    obtain ⟨hl, hs, k, rfl, hw⟩ := ha
    cases he
    exact clearSuspend_sound hi hl hs hw rfl
  | getMicrotime | readSize | readRoot | readDaemon | readSuspend | readNotify =>
    cases he
    exact hsame

/-! ### The environment -/

theorem coreWait_sound (hi : Inv s) (hst : s.status k = .saving) :
    Inv (s.setStatus k .wait) ∧ ∀ u, Rely u s (s.setStatus k .wait) := by
  refine ⟨setStatus_inv hi (hi.lt_fresh (by rw [hst]; nofun)) nofun ⟨fun h => ?_, ?_, ?_⟩,
    fun u => setStatus_rely u fun _ _ h => absurd hst h⟩
  · exact absurd hst ((hi.co k).awake h).1
  · exact (hi.co k).site
  · intro w hw
    have hphase := (hi.co k).phase w hw
    unfold PhaseOk at hphase ⊢
    -- only an unclaimed wait belongs to a coroutine whose context is being saved
    cases hp : w.phase with
    | idle =>
      simp only [hp] at hphase ⊢
      exact ⟨.inr (.inr (State.setStatus_status_self _ _ _)), hphase.2⟩
    | taken t q =>
      simp only [hp] at hphase
      exact nomatch hst.symm.trans hphase.1
    | served t o =>
      cases o <;> simp only [hp] at hphase <;> exact nomatch hst.symm.trans hphase.1
    | woken q =>
      simp only [hp] at hphase
      rcases hphase.1 with h | h <;> exact nomatch hst.symm.trans h

theorem sched_sound (hi : Inv s) (hst : s.status k = .ready) :
    Inv (s.setStatus k .running) ∧ ∀ u, Rely u s (s.setStatus k .running) := by
  refine ⟨setStatus_inv hi (hi.lt_fresh (by rw [hst]; nofun)) nofun ⟨fun h => ?_, ?_, ?_⟩,
    fun u => setStatus_rely u fun _ _ _ => ⟨nofun, nofun⟩⟩
  · rw [State.setStatus_status_self]
    exact ⟨nofun, nofun, ((hi.co k).awake h).2.2⟩
  · exact (hi.co k).site
  · intro w hw
    have hphase := (hi.co k).phase w hw
    unfold PhaseOk at hphase ⊢
    cases hp : w.phase with
    | idle =>
      simp only [hp] at hphase
      rcases hphase.1 with ⟨h, -⟩ | ⟨h, -⟩ | h <;> exact nomatch hst.symm.trans h
    | taken t q =>
      simp only [hp] at hphase
      exact nomatch hst.symm.trans hphase.1
    | served t o =>
      cases o <;> simp only [hp] at hphase <;> exact nomatch hst.symm.trans hphase.1
    | woken q =>
      simp only [hp] at hphase ⊢
      exact ⟨.inr (State.setStatus_status_self _ _ _), hphase.2⟩

theorem unlock_sound {l : Lock} (hi : Inv s) (hl : s.locks l = some (.vpu k))
    (hst : s.status k ≠ .saving) :
    Inv (s.setLock l none) ∧ ∀ u, u.isThread = true → Rely u s (s.setLock l none) := by
  have hne : ∀ m u, s.locks m = some u → u ≠ .vpu k → (s.setLock l none).locks m = some u := by
    intro m u hm hu
    rw [State.setLock_locks_ne]
    · exact hm
    · rintro rfl
      exact hu (Option.some.inj (hm.symm.trans hl))
  refine ⟨hi.of_locks rfl rfl rfl rfl rfl rfl rfl ?_ (fun c j _ hj => ⟨j, hne _ _ hj (fun h => by cases h)⟩) ?_,
    fun u hu => .of_locks rfl rfl rfl rfl rfl (fun m => ⟨fun hm => hne m u hm ?_, fun hm => ?_⟩)
      fun _ _ hw hs => ⟨hw, hs⟩⟩
  · intro j w hw m hm u hu hg
    refine hne m u hu ?_
    rintro rfl
    rcases hg with ⟨h, -⟩ | ⟨h, hsav⟩ | ⟨q, hp⟩
    · cases h
    · cases h
      exact hst hsav
    · have hphase := (hi.co j).phase w hw
      simp only [PhaseOk, hp] at hphase
      cases hphase.2.2.2.2.2
  · rcases hi.timer.settled with hs | ⟨j, hj, hr⟩
    · exact .inl hs
    · exact .inr ⟨j, hne _ _ hj (fun h => by cases h), hr⟩
  · rintro rfl
    cases hu
  · by_cases hml : m = l
    · subst hml
      rw [State.setLock_locks_self] at hm
      cases hm
    · rwa [State.setLock_locks_ne _ _ hml] at hm

/-- Time and the number of awake VPUs are read by no part of the invariant. -/
theorem ambient_sound (hi : Inv s) (hcos : s'.cos = s.cos) (hst : s'.status = s.status)
    (hch : s'.chans = s.chans) (hg : s'.groups = s.groups) (hr : s'.requests = s.requests)
    (ht : s'.timers = s.timers) (hf : s'.fresh = s.fresh) (hl : s'.locks = s.locks) :
    Inv s' ∧ ∀ u, Rely u s s' :=
  ⟨hi.of_locks hcos hst hch hg hr ht hf (fun _ _ _ _ _ _ hu _ => by rw [hl]; exact hu)
    (fun c k _ hk => ⟨k, by rw [hl]; exact hk⟩) (by rw [hl]; exact hi.timer.settled),
    fun u => .of_locks hcos hch hg ht hf (fun _ => by rw [hl]) fun _ _ hw hs => by
      rw [hst]
      exact ⟨hw, hs⟩⟩

theorem env_keeps {e : Env} (hi : Inv s) (he : env e s = some s') :
    Inv s' ∧ ∀ u, u.isThread = true → Rely u s s' := by
  cases e with
  | coreWait k =>
    simp only [env] at he
    split at he
    · rename_i hst
      cases he
      obtain ⟨hi', hr⟩ := coreWait_sound hi hst
      exact ⟨hi', fun u _ => hr u⟩
    · cases he
  | unlock k l =>
    simp only [env] at he
    split at he
    · rename_i h
      cases he
      exact unlock_sound hi h.1 h.2
    · cases he
  | sched k =>
    simp only [env] at he
    split at he
    · rename_i hst
      cases he
      obtain ⟨hi', hr⟩ := sched_sound hi hst
      exact ⟨hi', fun u _ => hr u⟩
    · cases he
  | tick us =>
    cases he
    have hsound : Inv { s with clock := s.clock + us } ∧ ∀ u, Rely u s { s with clock := s.clock + us } :=
      ambient_sound hi rfl rfl rfl rfl rfl rfl rfl rfl
    exact ⟨hsound.1, fun u _ => hsound.2 u⟩
  | alive n =>
    simp only [env] at he
    split at he
    · cases he
      have hsound : Inv { s with alive := n } ∧ ∀ u, Rely u s { s with alive := n } :=
        ambient_sound hi rfl rfl rfl rfl rfl rfl rfl rfl
      exact ⟨hsound.1, fun u _ => hsound.2 u⟩
    · cases he

/-! ### Every command -/

theorem execLock_sound {cmd : LockCmd} {r : Unit} (hi : Inv s) (hact : s.active t = true)
    (ha : AllowedLock t s cmd) (he : execLock t s cmd = some (r, s')) :
    Inv s' ∧ ∀ u, u ≠ t → Rely u s s' := by
  cases cmd with
  | acquire l =>
    simp only [execLock] at he
    split at he
    · rename_i hfree
      cases he
      exact acquire_sound hi hfree
    · cases he
  | release l =>
    cases he
    refine release_sound hi ?_ ha
    cases t with
    | vpu j => cases hact
    | co j => rfl
    | async a => rfl
    | sched v => rfl

/-- What a thread relies on.  The VPU that finishes a suspension runs no program. -/
def RelyOf (u : Tid) (s s' : State) : Prop := u.isThread = true → Rely u s s'

theorem exec_keeps {c : Cmd} {r : c.Res} (hi : Inv s) (ha : Allowed t c s)
    (he : exec t c s = some (r, s')) : Inv s' ∧ ∀ u, u ≠ t → RelyOf u s s' := by
  unfold exec at he
  split at he
  · rename_i hact
    have lift : (Inv s' ∧ ∀ u, u ≠ t → Rely u s s') → Inv s' ∧ ∀ u, u ≠ t → RelyOf u s s' :=
      fun h => ⟨h.1, fun u hu _ => h.2 u hu⟩
    cases c with
    | lock c => exact lift (execLock_sound hi hact ha he)
    | co c => exact execCo_sound hi hact ha he
    | chan c => exact lift (execChan_sound hi hact ha he)
    | group c => exact lift (execGroup_sound hi hact ha he)
    | async c => exact lift (execAsync_sound hi hact ha he)
    | timer c => exact lift (execTimer_sound hi hact ha he)
    | net c => cases ha
  · cases he

/-- **The logic of the runtime**: every allowed command keeps the invariant and does to
    the others only what they rely on. -/
def rules : Rules machine where
  ok := fun _ _ _ => True
  Inv := Inv
  Rely := RelyOf
  Allowed := Allowed
  rely_refl := fun u s _ => Rely.refl u s
  rely_trans := fun h h' hu => (h hu).trans (h' hu)
  exec_sound := fun hi _ ha he => exec_keeps hi ha he
  env_sound := fun hi he => env_keeps hi he

end Coroc.Runtime
