import Coroc.Sched

/-!
# Who polls the network (`src/vpu.c`: the idle section of `core_sched`, `src/netpoll.c`)

Network events are seen by VPUs that call `__coroc_netpoll_polling`, so somebody must stay
awake as long as a descriptor is registered.  To the scheduler of `Coroc.Sched` this adds the
number of registered descriptors, which `__coroc_netpoll_size` reads: a coroutine that runs
on a VPU registers one and then suspends itself, and a poller, or the coroutine of the timer
daemon, takes one out.

The last VPU that is awake polls when a descriptor is registered, but first it looks at
`total_iowait`, and if that is not zero it sleeps.  `someone_polls` is what holds in the runs
in which these two do not meet.
-/

namespace Coroc.IdlePoll

open Coroc.Transition Coroc.ThreadPool Coroc.Sched

structure State (κ : Type) (n m P : Nat) where
  sched : Sched.State κ n m P
  size : Nat

inductive Label (κ : Type) (n m : Nat) where
  | sched (t : Thread n m) (ch : Choice κ n)
  | register (v : Fin n)
  | unregister (v : Fin n)

section
variable {κ : Type} [DecidableEq κ] {n m P : Nat} (priority : κ → Fin P)

/-- A coroutine runs on the VPU. -/
def runs : Pc κ P → Bool
  | .running _ => true
  | _ => false

/-- The VPU is in `__coroc_netpoll_polling`. -/
def polls : Pc κ P → Bool
  | .schedPoll _ _ | .polling => true
  | _ => false

/-- `__coroc_netpoll_size() > 0` is answered by the number of registered descriptors. -/
def answers (size : Nat) : Pc κ P → Choice κ n → Bool
  | .pollSize, .answer b => b == decide (size > 0)
  | _, _ => true

def step (s : State κ n m P) : Label κ n m → Option (State κ n m P)
  | .sched t ch =>
      if answers s.size (s.sched.locals t) ch = true then
        (poolStep (Sched.step priority) s.sched (t, ch)).map fun sched => { s with sched := sched }
      else none
  | .register v =>
      if runs (s.sched.locals (.inl v)) = true then some { s with size := s.size + 1 } else none
  | .unregister v =>
      if s.size > 0 ∧ (runs (s.sched.locals (.inl v)) = true ∨ polls (s.sched.locals (.inl v)) = true) then
        some { s with size := s.size - 1 }
      else none

/-- Nothing is ready or registered. -/
def Init (s : State κ n m P) : Prop := Sched.Init s.sched ∧ s.size = 0

/-- The last awake VPU finds nobody registered when it goes to sleep because of
    `total_iowait`. -/
def unwatched (totalIowait : UInt32) (size : Nat) : Pc κ P → Bool
  | .sleepIowait => decide (totalIowait > 0 → size = 0)
  | _ => true

def noWaiter (s : State κ n m P) : Label κ n m → Bool
  | .sched t _ => unwatched s.sched.shared.totalIowait s.size (s.sched.locals t)
  | _ => true

/-- Blocked, or on the way with the decision made. -/
def Dozes (s : Sched.State κ n m P) (v : Fin n) : Prop :=
  Asleep s v ∨ ∃ last, s.locals (.inl v) = .sleepIdle last ∨ s.locals (.inl v) = .sleepWait last

variable {priority} [Fintype κ]

omit [DecidableEq κ] [Fintype κ] in
theorem Dozes.not_up {s : Sched.State κ n m P} {v : Fin n} (h : Dozes s v) :
    (s.locals (.inl v)).up ≠ 1 := by
  rcases h with h | ⟨last, h | h⟩
  · exact h.not_up
  · rw [h]
    simp [Pc.up, Pc.down]
  · rw [h]
    simp [Pc.up, Pc.down]

omit [DecidableEq κ] in
/-- Somebody else's step leaves dozing only those that were. -/
theorem dozes_other {s s' : Sched.State κ n m P} {t : Thread n m} {u : Fin n}
    (hp : PoolStepOk t s s') (hu : t ≠ .inl u) (h : Dozes s' u) : Dozes s u := by
  rcases h with h | ⟨last, h⟩
  · exact .inl (asleep_other hp hu h)
  · rw [hp.others _ (Ne.symm hu)] at h
    exact .inr ⟨last, h⟩

omit [Fintype κ] in
/-- A VPU that begins to doze has just seen another one alive, or `total_iowait`. -/
theorem dozes_own {s s' : Sched.State κ n m P} {v : Fin n} {ch : Choice κ n}
    (hl : poolStep (Sched.step priority) s (.inl v, ch) = some s') (h : Dozes s' v) :
    Dozes s v ∨ (s'.locals (.inl v)).leavesOther = true ∨
      (s.locals (.inl v) = .sleepIowait ∧ s.shared.totalIowait > 0) := by
  have hl₀ := hl
  obtain ⟨⟨σ, pc⟩, hr, hshared, hlocals⟩ := poolStep_eq_some hl
  dsimp only at hr hshared hlocals
  have hpc : s'.locals (.inl v) = pc := by rw [hlocals, Function.update_self]
  rcases h with hasleep | ⟨last, hdoze⟩
  · obtain ⟨⟨b, hb⟩, -⟩ := asleep_own hl₀ hasleep
    exact .inl (.inr ⟨b, .inr hb⟩)
  · rw [hpc] at hdoze ⊢
    rcases step_into hr with haway | h | h | h | ⟨b, h⟩ | ⟨b, h⟩ | h
    · rcases hdoze with rfl | rfl <;> cases last
      · exact nomatch haway.2.1
      · exact nomatch haway.1
      · exact nomatch haway.2.1
      · exact nomatch haway.1
    · -- `alive > 0`
      rw [h] at hr
      simp only [Sched.step] at hr
      split at hr <;> simp only [Option.some.injEq, Prod.mk.injEq] at hr <;> obtain ⟨-, rfl⟩ := hr
      · exact .inr (.inl rfl)
      · rcases hdoze with h | h <;> cases h
    · rw [h] at hr
      simp only [Sched.step] at hr
      split at hr <;> simp only [Option.some.injEq, Prod.mk.injEq] at hr <;> obtain ⟨-, rfl⟩ := hr <;>
        rcases hdoze with h | h <;> cases h
    · rw [h] at hr
      simp only [Sched.step] at hr
      split at hr <;> simp only [Option.some.injEq, Prod.mk.injEq] at hr <;> obtain ⟨-, rfl⟩ := hr
      · rename_i hpos
        exact .inr (.inr ⟨h, hpos⟩)
      · rcases hdoze with h | h <;> cases h
    · exact .inl (.inr ⟨b, .inl h⟩)
    · exact .inl (.inr ⟨b, .inr h⟩)
    · rw [h] at hr
      simp only [Sched.step] at hr
      repeat' split at hr
      all_goals
        simp only [Option.some.injEq, Prod.mk.injEq, reduceCtorEq] at hr
      all_goals
        obtain ⟨-, rfl⟩ := hr
        rcases hdoze with h | h <;> cases h

/-- When all VPUs doze, nobody is registered. -/
def Watched (s : State κ n m P) : Prop := (∀ v, Dozes s.sched v) → s.size = 0

theorem step_watched {s s' : State κ n m P} {l : Label κ n m} (hp : Placed s.sched)
    (hw : Watched s) (hok : noWaiter s l = true) (hl : step priority s l = some s') : Watched s' := by
  intro hall
  cases l with
  | sched t ch =>
    simp only [step, Option.ite_none_right_eq_some, Option.map_eq_some_iff] at hl
    obtain ⟨-, sched, hsched, rfl⟩ := hl
    have hpool := poolStep_ok hp hsched
    rcases t with v | x
    · have hothers : ∀ u, u ≠ v → Dozes s.sched u := fun u hu =>
        dozes_other hpool (fun heq => hu (Sum.inl.inj heq).symm) (hall u)
      rcases dozes_own hsched (hall v) with hself | hleaves | ⟨hpc, hpos⟩
      · refine hw fun u => ?_
        by_cases hu : u = v
        · rw [hu]
          exact hself
        · exact hothers u hu
      · -- the other VPU it has seen is still up
        obtain ⟨u, -, hup⟩ := (placed_step hp hsched).notLast v hleaves
        exact absurd hup (hall u).not_up
      · simp only [noWaiter, hpc] at hok
        exact of_decide_eq_true hok hpos
    · exact hw fun u => dozes_other hpool nofun (hall u)
  | register v =>
    simp only [step, Option.ite_none_right_eq_some, Option.some.injEq] at hl
    obtain ⟨hruns, rfl⟩ := hl
    -- the VPU that registers is awake
    have hdoze : Dozes s.sched v := hall v
    rcases hdoze with h | ⟨last, h | h⟩
    · rw [h.1] at hruns
      cases hruns
    · rw [h] at hruns
      cases hruns
    · rw [h] at hruns
      cases hruns
  | unregister v =>
    simp only [step, Option.ite_none_right_eq_some, Option.some.injEq] at hl
    obtain ⟨⟨hpos, -⟩, rfl⟩ := hl
    have hzero := hw hall
    omega

/-- **Someone always polls the network**: while a descriptor is registered not all VPUs are
    blocked, in every run in which the last awake VPU finds nobody registered whenever it goes
    to sleep because of `total_iowait`. -/
theorem someone_polls {s : State κ n m P} (h : Reach (step priority) (fun s l => noWaiter s l = true) Init s)
    (hsize : s.size > 0) : ¬ ∀ v, Asleep s.sched v := by
  have hwatched : Watched s := by
    refine (h.invariant (I := fun s => Placed s.sched ∧ Watched s) (fun s hs => ?_) ?_).2
    · exact ⟨(inv_init hs.1).placed, fun _ => hs.2⟩
    · rintro s l s' ⟨hp, hw⟩ hok hl
      refine ⟨?_, step_watched hp hw hok hl⟩
      cases l with
      | sched t ch =>
        simp only [step, Option.ite_none_right_eq_some, Option.map_eq_some_iff] at hl
        obtain ⟨-, sched, hsched, rfl⟩ := hl
        exact placed_step hp hsched
      | register v =>
        simp only [step, Option.ite_none_right_eq_some, Option.some.injEq] at hl
        obtain ⟨-, rfl⟩ := hl
        exact hp
      | unregister v =>
        simp only [step, Option.ite_none_right_eq_some, Option.some.injEq] at hl
        obtain ⟨-, rfl⟩ := hl
        exact hp
  intro hall
  have := hwatched fun v => .inl (hall v)
  omega

end

/-- One VPU, one other thread, two coroutines. -/
def idle : State (Fin 2) 1 1 1 :=
  { sched :=
      { shared :=
          { status := fun _ => .wait, asyncWait := fun _ => false, totalReady := 0
            ready := fun _ => 0, totalIowait := 0, alive := 1, idle := 0, mutex := none
            blocked := fun _ => false }
        locals := Sum.elim (fun _ => .schedEnter) fun _ => .outside }
    size := 0 }

theorem idle_init : Init idle :=
  ⟨⟨fun _ => .inr rfl, rfl, rfl, rfl, fun _ => rfl, fun _ => rfl, fun _ => rfl⟩, rfl⟩

/-- The other thread makes a coroutine ready, and the VPU takes it from the queue and runs it. -/
def wakeAndRun (c : Fin 2) : List (Label (Fin 2) 1 1) :=
  .sched (.inr 0) (.ready c false) :: List.replicate 8 (.sched (.inr 0) .go) ++
    [.sched (.inl 0) .go, .sched (.inl 0) .go, .sched (.inl 0) (.take c)] ++
    List.replicate 4 (.sched (.inl 0) .go)

/-- The first coroutine waits for the network. -/
def netWait : List (Label (Fin 2) 1 1) :=
  wakeAndRun 0 ++ [.register 0, .sched (.inl 0) (.suspend false)] ++
    List.replicate 2 (.sched (.inl 0) .go)

/-- The VPU finds nothing to run, and polls. -/
theorem netWait_polls :
    ∃ s : State (Fin 2) 1 1 1, (s.size = 1 ∧ polls (s.sched.locals (.inl 0)) = true) ∧
      ¬ ∀ v, Asleep s.sched v := by
  obtain ⟨s, hs, hp⟩ := Reach.exists_of_runOk (step fun _ : Fin 2 => (0 : Fin 1))
    (fun s l => noWaiter s l = true) Init idle_init
    (netWait ++ List.replicate 13 (.sched (.inl 0) .go) ++ [.sched (.inl 0) (.answer true)] ++
      List.replicate 2 (.sched (.inl 0) .go))
    (fun s => decide (s.size = 1 ∧ polls (s.sched.locals (.inl 0)) = true)) (by decide +kernel)
  have hp' := of_decide_eq_true hp
  exact ⟨s, hp', someone_polls hs (by rw [hp'.1]; decide)⟩

/-- The second coroutine is then suspended in an async request: the VPU sleeps, and nobody
    looks at the network until the request is served. -/
theorem nobody_polls :
    ¬ ∀ s : State (Fin 2) 1 1 1, Reach (step fun _ : Fin 2 => (0 : Fin 1)) (fun _ _ => True) Init s →
      s.size > 0 → ¬ ∀ v, Asleep s.sched v := by
  intro hall
  obtain ⟨s, hs, hp⟩ := Reach.exists_of_run (step fun _ : Fin 2 => (0 : Fin 1)) Init idle_init
    (netWait ++ wakeAndRun 1 ++ [.sched (.inl 0) (.suspend true)] ++
      List.replicate 16 (.sched (.inl 0) .go))
    (fun s => decide (s.size = 1 ∧ isWaiting (s.sched.locals (.inl 0)) = true ∧
      s.sched.shared.blocked 0 = true)) (by decide +kernel)
  obtain ⟨hsize, hpc, hblocked⟩ := of_decide_eq_true hp
  refine hall s hs (by rw [hsize]; decide) fun v => ?_
  obtain rfl : v = 0 := Subsingleton.elim _ _
  exact ⟨eq_waiting hpc, hblocked⟩

end Coroc.IdlePoll
