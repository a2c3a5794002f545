import Coroc.Runtime.SyncSpecs

/-!
# Every run of the runtime is safe

The operations have their triples, so the adequacy theorem of the logic applies: from
every initial configuration, in every interleaving of any number of coroutines, pool
threads and VPUs, the invariant holds and every command issued is allowed
(`Reachable.good`).
-/

namespace Coroc.Runtime

open Coroc.Program Coroc.Transition

abbrev Config := Conf Tid Cmd State Cmd.Res

variable {s s' : State} {t : Tid} {k : Coid} {g : GroupId} {r : Role}

/-! ### Between two operations -/

/-- A coroutine that has not run yet. -/
def Unused (k : Coid) (s : State) : Prop :=
  (s.cos k).moved = [] ∧ (s.cos k).Newborn ∧ ∀ d, ¬ s.Claimed (.co k) d

/-- What holds of a thread that has nothing to do. -/
def Idle (t : Tid) (s : State) : Prop :=
  match t with
  | .co k => Unused k s ∨ ∃ r, Rest k r s
  | .async a => Claim.Ok (.async a) s .free
  | .sched _ | .vpu _ => True

theorem Unused.stable : Stable rules (.co k) (Unused k) := by
  rintro s s' hi hi' hr ⟨hmoved, hborn, hfree⟩
  replace hr := hr rfl
  have hfree' : Claim.Ok (.co k) s .free := hfree
  suffices h : (s'.cos k).moved = (s.cos k).moved ∧ (s'.cos k).Newborn from
    ⟨h.1.trans hmoved, h.2, hfree'.rely hr⟩
  by_cases hk : k < s.fresh
  · have hkept := hr.kept k rfl hk
    exact hkept.newborn hborn
  · exact hr.newborn k rfl (Nat.le_of_not_lt hk) hborn

theorem Idle.stable (t : Tid) : Stable rules t (Idle t) := by
  intro s s' hi hi' hr h
  cases t with
  | co k =>
    rcases h with h | ⟨r, h⟩
    · exact .inl (Unused.stable s s' hi hi' hr h)
    · exact .inr ⟨r, Rest.stable s s' hi hi' hr h⟩
  | async a =>
    have hfree : Claim.Ok (.async a) s .free := h
    exact hfree.rely (hr rfl)
  | sched v => trivial
  | vpu k => trivial

/-- The first time a coroutine runs, its first wake-up is over. -/
theorem Unused.free (h : Unused k s) (hi : Inv s) (hrun : s.status k = .running) :
    Free k (s.cos k).role [] s := by
  obtain ⟨hmoved, hborn, hfree⟩ := h
  have hk : k < s.fresh := by
    by_contra hk
    exact nomatch ((hi.fresh k).status (Nat.le_of_not_lt hk)).symm.trans hrun
  have hw : (s.cos k).wait = none := by
    cases hw : (s.cos k).wait with
    | none => rfl
    | some w =>
      have hsite := hborn w hw
      have hphase := (hi.co k).phase w hw
      unfold PhaseOk at hphase
      split at hphase
      · exact absurd hsite hphase.2.1
      · exact nomatch hrun.symm.trans hphase.1
      · exact nomatch hrun.symm.trans hphase.1
      · exact nomatch hrun.symm.trans hphase.1
      · rw [hsite] at hphase
        exact nomatch hphase.2.1
  exact ⟨(s.cos k).late, ⟨hk, by rw [hrun]; exact ⟨nofun, nofun⟩, ⟨hw, rfl, rfl, hmoved⟩, nofun, nofun,
    nofun⟩, hfree⟩

theorem Free.role {ls : List Lock} (h : Free k r ls s) : (s.cos k).role = r := by
  obtain ⟨late, h⟩ := h
  exact h.1.self.role

theorem Idle.free (h : Idle (.co k) s) (hi : Inv s) (hrun : s.status k = .running) :
    Free k (s.cos k).role [] s := by
  rcases h with h | ⟨r, h⟩
  · exact h.free hi hrun
  · have hfree := h.free hi hrun
    rw [hfree.role]
    exact hfree

/-! ### Starting an operation -/

/-- The operations considered: selects are over pairwise distinct channels, and poll
    descriptors are left out. -/
def okCall (_ : Tid) (a : Call) (_ : State) : Prop :=
  match a with
  | .select cases _ _ => (cases.map Case.chan).Nodup
  | .netWait _ _ | .netTimedwait _ _ _ | .netpollWakeup _ => False
  | _ => True

theorem enterNotify_sound (hi : Inv s) (htasks : (s.groups g).tasks > 0) :
    Inv (s.setGroup g (Group.startNotify k)) ∧
      ∀ u, u ≠ .co k → Rely u s (s.setGroup g (Group.startNotify k)) := by
  have hg := hi.group g
  have hcount := hg.count
  refine group_sound hi ⟨?_, ?_, ?_, ?_⟩ fun u _ => .of_one (fun g' h => setGroup_ne s _ h) ?_ ?_ ?_ ?_ ?_
  all_goals rw [setGroup_self]
  · change (s.groups g).count = (s.groups g).tasks - 1 + ((s.groups g).notifying.length + 1) +
      if (s.groups g).synced then 0 else 1
    omega
  · exact hg.synced
  · exact hg.last
  · exact hg.parent
  · exact fun _ => ⟨rfl, rfl⟩
  · exact fun h h' => ⟨h, h'⟩
  · rfl
  · exact fun _ _ _ => ⟨rfl, rfl⟩
  · exact fun _ _ h => List.mem_cons_of_mem _ h

theorem enterSync_sound (hi : Inv s) (howner : (s.groups g).owner = k) :
    Inv (s.setGroup g Group.startSync) ∧ ∀ u, u ≠ .co k → Rely u s (s.setGroup g Group.startSync) := by
  have hg := hi.group g
  refine group_sound hi ⟨?_, ?_, ?_, ?_⟩ fun u hu => .of_one (fun g' h => setGroup_ne s _ h) ?_ ?_ ?_ ?_ ?_
  all_goals rw [setGroup_self]
  · exact hg.count
  · exact fun _ => rfl
  · exact hg.last
  · exact hg.parent
  · exact fun _ => ⟨rfl, rfl⟩
  · exact fun h h' => ⟨h, h'⟩
  · rfl
  · rintro j rfl hj
    exact absurd (congrArg Tid.co (hj.symm.trans howner)) hu
  · exact fun _ _ h => h

theorem Inv.unsynced (hi : Inv s) (hb : (s.groups g).begun = false) : (s.groups g).synced = false := by
  cases hs : (s.groups g).synced with
  | false => rfl
  | true => exact nomatch ((hi.group g).synced hs).symm.trans hb

/-- What starting the operation `a` of coroutine `k` must establish. -/
def Starts (k : Coid) (s : State) (a : Call) (s' : State) : Prop :=
  Inv s' ∧ (∀ u, u ≠ .co k → rules.Rely u s s') ∧
    ∀ n, Safe rules (.co k) n (body (.co k) a) (fun _ => Idle (.co k)) s'

/-- An operation that does nothing when it is started. -/
theorem Starts.of_free {a : Call} (hi : Inv s) (hfree : Free k r [] s)
    (h : Triple rules (.co k) (Free k r []) (clientBody k a) fun _ => Rest k r) :
    Starts k s a s :=
  ⟨hi, fun u _ => rules.rely_refl u s, fun n => (h s hi hfree n).post fun _ _ _ h => .inr ⟨r, h⟩⟩

theorem enterCo_starts {a : Call} (hi : Inv s) (hfree : Free k .client [] s) (hok : okCall (.co k) a s)
    (he : enterCo k s a = some s') : Starts k s a s' := by
  have hrest : ∀ {p : RProg Unit}, Triple rules (.co k) (Free k .client []) p
      (fun _ => Free k .client []) → Triple rules (.co k) (Free k .client []) p
        fun _ => Rest k .client := fun h => h.post fun _ _ _ h => .inl h
  cases a with
  | chanSend c x block =>
    cases he
    exact .of_free hi hfree (hrest (chanSend_spec k c x block nofun))
  | chanRecv c x block =>
    cases he
    exact .of_free hi hfree (hrest (chanRecv_spec k c x block nofun))
  | chanClose c =>
    cases he
    exact .of_free hi hfree (hrest (chanClose_spec k c nofun))
  | select cases chain block =>
    simp only [enterCo] at he
    split at he
    · rename_i hperm
      cases he
      exact .of_free hi hfree (hrest (chanSetSelect_spec k cases chain block hok
        (List.isPerm_iff.mp hperm)))
    · cases he
  | groupAddTask g =>
    simp only [enterCo] at he
    split at he
    · rename_i hown
      cases he
      refine ⟨hi, fun u _ => rules.rely_refl u s, fun n => ?_⟩
      exact (groupAddTask_spec k g s hi ⟨hfree, hown.1, hown.2, hi.unsynced hown.2⟩ n).post
        fun _ _ _ h => .inr ⟨.client, .inl h⟩
    · cases he
  | groupNotify g retval =>
    simp only [enterCo] at he
    split at he
    · rename_i htasks
      cases he
      obtain ⟨hi', hrely⟩ := enterNotify_sound (k := k) hi htasks
      refine ⟨hi', fun u hu _ => hrely u hu, fun n => ?_⟩
      obtain ⟨late, h⟩ := hfree
      refine (groupNotify_spec k g retval _ hi' ⟨⟨late, h.outside rfl rfl rfl rfl rfl fun _ h => h⟩, ?_⟩
        n).post fun _ _ _ h => .inr ⟨.client, .inl h⟩
      rw [setGroup_self]
      exact List.mem_cons_self
    · cases he
  | groupSync g =>
    simp only [enterCo] at he
    split at he
    · rename_i hown
      cases he
      obtain ⟨hi', hrely⟩ := enterSync_sound hi hown.1
      refine ⟨hi', fun u hu _ => hrely u hu, fun n => ?_⟩
      have hsynced := hi.unsynced hown.2
      obtain ⟨late, h⟩ := hfree
      refine (groupSync_spec k g _ hi' ⟨⟨late, h.outside rfl rfl rfl rfl rfl fun _ h => h⟩, ?_⟩
        n).post fun _ _ _ h => .inr ⟨.client, .inl h⟩
      unfold Owns
      rw [setGroup_self]
      exact ⟨hown.1, rfl, hsynced⟩
    · cases he
  | asyncRequestSubmit =>
    cases he
    exact .of_free hi hfree (asyncRequestSubmit_spec k)
  | timerAt c w =>
    cases he
    exact .of_free hi hfree (hrest (timerAt_spec k c w))
  | timerStop c =>
    cases he
    exact .of_free hi hfree (hrest (timerStop_spec k c))
  | netWait d mode => exact hok.elim
  | netTimedwait d mode usec => exact hok.elim
  | spawn priority =>
    cases he
    exact .of_free hi hfree (hrest (spawn_spec k priority))
  | yield =>
    cases he
    exact .of_free hi hfree (hrest (yieldFree_spec k))
  | intertimerRoutine => cases he
  | asyncThreadRoutine => cases he
  | netpollWakeup d => cases he

/-- **Every operation has a triple.** -/
theorem calls_sound : CallSound rules Idle okCall := by
  intro t a s s' hi hidle hok he
  change enter t a s = some s' at he
  cases t with
  | co k =>
    simp only [enter] at he
    split at he
    · rename_i hrun
      have hfree := hidle.free hi hrun
      split at he
      · rename_i hrole
        rw [hrole] at hfree
        exact enterCo_starts hi hfree hok he
      · rename_i hrole
        rw [hrole] at hfree
        split at he
        · rename_i ha
          subst ha
          cases he
          exact Starts.of_free (a := .intertimerRoutine) hi hfree ((intertimerRoutine_spec k).pre fun _ _ h => .inl h)
        · cases he
    · cases he
  | async a' =>
    simp only [enter] at he
    split at he
    · cases he
      exact ⟨hi, fun u _ => rules.rely_refl u s, asyncThreadRoutine_spec a' s hi hidle⟩
    · cases he
  | sched v =>
    cases a with
    | netpollWakeup d => exact hok.elim
    | _ => cases he
  | vpu k => cases he

/-! ### Initial configurations -/

/-- A new channel: `coroc_chan_init`, `coroc_buffered_chan_init`, `coroc_async_chan_init`. -/
structure Chan.Start (ch : Chan) : Prop where
  close : ch.close = false
  empty : ch.buffer.contents = []
  que : ∀ dir, ch.que dir = []
  inhand : ch.inhand = none
  draining : ch.draining = false
  sent : ch.sent = []
  taken : ch.taken = []
  pending : ch.pending = []

/-- A coroutine that has done nothing. -/
structure Co.Start (co : Co) : Prop where
  role : co.role = .client
  qtag : co.qtag = none
  wait : co.wait = none
  moved : co.moved = []
  history : co.history = []
  wakes : co.wakes = 0

/-- A new group. -/
structure Group.Start (gr : Group) : Prop where
  count : gr.count = 1
  parent : gr.parent = none
  tasks : gr.tasks = 0
  notifying : gr.notifying = []
  begun : gr.begun = false
  synced : gr.synced = false
  last : gr.last = none
  looked : gr.looked = false

/-- Any number of coroutines that are ready, any channels and groups, no timer, and no
    operation under way. -/
structure Start (s : Config) : Prop where
  prog : ∀ t, s.prog t = .ret ()
  locks : ∀ l, s.shared.locks l = none
  status : ∀ k, s.shared.status k = if k < s.shared.fresh then .ready else .unborn
  co : ∀ k, (s.shared.cos k).Start
  chan : ∀ c, (s.shared.chans c).Start
  group : ∀ g, (s.shared.groups g).Start
  requests : s.shared.requests = []
  heap : s.shared.timers.heap.size = 0
  suspend : s.shared.timers.suspend = false
  daemon : s.shared.timers.daemon = none

variable {c₀ c : Config}

theorem Start.held (h : Start c) (n : ChanId) (dir : Dir) : (c.shared.chans n).held dir = [] := by
  have hn := h.chan n
  rw [Chan.held, hn.inhand, hn.que]
  rfl

theorem Start.inv (h : Start c) : Inv c.shared where
  co := by
    intro k
    have hk := h.co k
    refine ⟨fun _ => ?_, fun w hw => ?_, fun w hw => ?_⟩
    · rw [h.status k]
      split
      · exact ⟨nofun, nofun, hk.qtag⟩
      · exact ⟨nofun, nofun, hk.qtag⟩
    · exact nomatch hk.wait.symm.trans hw
    · exact nomatch hk.wait.symm.trans hw
  chan := by
    intro n
    have hn := h.chan n
    have hheld := h.held n
    refine ⟨?_, ?_, ?_, ?_, ?_, ?_, ?_⟩
    · intro dir q hq
      rw [hheld dir] at hq
      cases hq
    · intro dir q hq
      rw [hheld dir] at hq
      cases hq
    · intro dir
      rw [hheld dir]
      exact List.nodup_nil
    · intro q hq
      exact nomatch hn.inhand.symm.trans hq
    · rintro (hh | hd)
      · exact absurd hn.inhand hh
      · exact nomatch hn.draining.symm.trans hd
    · exact fun _ _ _ => hn.empty
    · intro dir q hq
      rw [hheld dir] at hq
      cases hq
  group := by
    intro g
    have hg := h.group g
    refine ⟨?_, ?_, fun _ => ⟨hg.last, hg.looked⟩, fun p hp => ?_⟩
    · rw [hg.count, hg.tasks, hg.notifying, hg.synced]
      rfl
    · rw [hg.synced]
      nofun
    · exact nomatch hg.parent.symm.trans hp
  async := by
    constructor
    · rw [h.requests]
      exact List.nodup_nil
    · rw [h.requests]
      nofun
  timer := by
    refine ⟨?_, ?_, fun k _ hk => ?_, .inl fun k hk => ?_⟩
    · rw [h.heap]
      nofun
    · rw [h.suspend]
      nofun
    · exact nomatch (h.co k).role.symm.trans hk
    · exact nomatch (h.co k).role.symm.trans hk
  fresh := by
    intro k
    refine ⟨fun hk => ?_, fun hk => ?_, fun _ => (h.co k).wait, fun _ => (h.co k).role, fun hd => ?_⟩
    · rw [h.status k, if_neg (Nat.not_lt.mpr hk)]
    · rw [h.status k, if_pos hk]
      nofun
    · exact nomatch h.daemon.symm.trans hd

theorem Start.idle (h : Start c) (t : Tid) : Idle t c.shared := by
  have hfree : ∀ u d, ¬ c.shared.Claimed u d := by
    rintro u d ⟨w, hw, -⟩
    exact nomatch (h.co d).wait.symm.trans hw
  cases t with
  | co k => exact .inl ⟨(h.co k).moved, fun w hw => (nomatch (h.co k).wait.symm.trans hw), hfree _⟩
  | async a => exact hfree _
  | sched v => trivial
  | vpu k => trivial

theorem Start.good (h : Start c) : Good rules Idle c := by
  refine ⟨h.inv, fun t n => ?_⟩
  rw [h.prog t]
  have hret : Triple rules t (Idle t) (.ret ()) fun _ => Idle t :=
    Triple.ret (Idle.stable t) fun _ _ h => h
  exact hret _ h.inv (h.idle t) n

/-- `n` coroutines that are ready, and channels with the given buffers. -/
def initial (n : Nat) (buffers : ChanId → Buffer) : Config where
  prog := fun _ => .ret ()
  shared :=
    { locks := fun _ => none
      status := fun k => if k < n then .ready else .unborn
      cos := fun _ => ⟨1, .client, none, fun _ => ⟨false, 0, false, false⟩, none, [], false, [], 0⟩
      chans := fun c => ⟨false, false, buffers c, fun _ => [], none, false, [], [], []⟩
      groups := fun _ => ⟨1, 0, none, 0, 0, [], false, false, none, false⟩
      requests := []
      timers := ⟨⟨fun _ => .chan 0, 0, TimerHeap.defaultIntertimersCap, fun _ => ⟨0, 0, -1⟩⟩, false, none⟩
      descs := fun _ => ⟨false, false, 0, 0, false⟩
      fresh := n
      clock := 0
      alive := 1
      xtIndex := 1
      threads := true
      notify := false }

theorem initial_start (n : Nat) (buffers : ChanId → Buffer) (h : ∀ c, (buffers c).contents = []) :
    Start (initial n buffers) where
  prog := fun _ => rfl
  locks := fun _ => rfl
  status := fun _ => rfl
  co := fun _ => ⟨rfl, rfl, rfl, rfl, rfl, rfl⟩
  chan := fun c => ⟨rfl, h c, fun _ => rfl, rfl, rfl, rfl, rfl, rfl⟩
  group := fun _ => ⟨rfl, rfl, rfl, rfl, rfl, rfl, rfl, rfl⟩
  requests := rfl
  heap := rfl
  suspend := rfl
  daemon := rfl

/-! ### Runs -/

instance (t : Tid) (a : Call) (s : State) : Decidable (okCall t a s) :=
  match a with
  | .select cases _ _ => inferInstanceAs (Decidable (cases.map Case.chan).Nodup)
  | .netWait _ _ | .netTimedwait _ _ _ | .netpollWakeup _ => isFalse id
  | .chanSend _ _ _ | .chanRecv _ _ _ | .chanClose _ | .groupAddTask _ | .groupNotify _ _
  | .groupSync _ | .asyncRequestSubmit | .timerAt _ _ | .timerStop _ | .spawn _ | .yield
  | .intertimerRoutine | .asyncThreadRoutine => isTrue trivial

/-- The configurations reached in any interleaving. -/
def Reachable (c : Config) : Prop :=
  Reach machine.step (stepOk (fun _ _ _ => True) okCall) Start c

/-- **Safety**: the invariant, and only allowed commands. -/
theorem Reachable.good (h : Reachable c) : Good rules Idle c :=
  Rules.sound calls_sound (fun _ h => h.good) h

/-- `n` steps of one thread. -/
def steps (t : Tid) (n : Nat) : List (Label Tid Call Env) := List.replicate n (.run t)

/-- A run from an initial configuration, found by executing it. -/
theorem Reachable.of_run (n : Nat) (buffers : ChanId → Buffer) (hb : ∀ c, (buffers c).contents = [])
    (ls : List (Label Tid Call Env)) (P : Config → Bool)
    (h : (runOk machine.step (stepOk (fun _ _ _ => True) okCall) (initial n buffers) ls &&
      (run machine.step (initial n buffers) ls).any P) = true) :
    ∃ c, Reachable c ∧ P c = true :=
  Reach.exists_of_runOk _ _ _ (initial_start n buffers hb) ls P h

/-- No buffers but for the channel 1, which has two slots. -/
def someBuffers (c : ChanId) : Buffer := if c = 1 then .ring (.empty 2 (by decide) 0) else .none

theorem someBuffers_empty (c : ChanId) : (someBuffers c).contents = [] := by
  unfold someBuffers
  split <;> rfl

/-- A select waits at the channels 0 and 1. -/
def selectWaits : List (Label Tid Call Env) :=
  [.env (.sched 0), .env (.sched 1),
    .call (.co 0) (.select [⟨.recv, 0, 0⟩, ⟨.recv, 1, 0⟩] [0, 1] true)] ++
  steps (.co 0) 14 ++ [.env (.coreWait 0), .env (.unlock 0 (.chan 0)), .env (.unlock 0 (.chan 1))]

/-- It is given an item that is sent through the channel 1. -/
def selectServed : List (Label Tid Call Env) :=
  selectWaits ++ [.call (.co 1) (.chanSend 1 7 true)] ++ steps (.co 1) 9 ++ [.env (.sched 0)] ++
  steps (.co 0) 11

end Coroc.Runtime
