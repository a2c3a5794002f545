import Coroc.TimerHeap

/-!
# The timer daemon's sleep (`src/time.c` and `src/notify.c`, built with `ENABLE_NOTIFY`)

The daemon coroutine scans the heap under the manager's lock, then either suspends
itself (no timer is left) or gives the lock back and sleeps until the deadline of
the root.  `coroc_add_intertimer` has to bring it back when the new timer is due
before that: it starts the daemon, readies a suspended one, or sets `note.key`.

The model interleaves any number of callers of `coroc_add_intertimer` and
`coroc_del_intertimer` with the daemon and with the clock.  `holder` is who is in
the critical section and how far it is, `phase` is where the daemon is, and the
clock counts nanoseconds.  An adder that found the heap empty and the daemon in
its timed sleep does neither (`decide 0` with `suspend` unset), so the theorem at
the end has a condition on that step; two more conditions come from the deletions
of `TimerHeap` and from the sleep being relative to a clock read later than the
scan's.
-/

namespace Coroc.TimerDaemon

open Coroc.Transition Coroc.TimerHeap Coroc.ArrayHeap

/-- Who is inside the critical section of the manager's lock. -/
inductive Holder (τ : Type) where
  | free
  | adder (t : τ)          -- in `coroc_add_intertimer`, before the insertion
  | decide (size : Nat)    -- after it; `size` is `__size`, read before the insertion
  | notify                 -- at `coroc_notify_wakeup`
  | leave (ready : Bool)   -- at `lock_release`; `ready`: then calls `vpu_ready`
  | deleter (t : τ)        -- in `coroc_del_intertimer`
  | daemon
deriving DecidableEq, Repr

/-- Where the daemon coroutine is. -/
inductive Phase where
  | none                                      -- `daemon == NULL`
  | rescan                                    -- runnable, on its way to `lock_acquire`
  | scanning (now : UInt64)                   -- in the `while` loop, holding the lock
  | suspending                                -- in `vpu_suspend`, the lock not yet released
  | suspended
  | submitting (left : Int)                   -- lock released, `coroc_notify_tsleep_u` not begun
  | tsleep (deadline ns : Int)                -- at `_coroc_futex_sleep(&note->key, 0, ns)`
  | asleep (deadline timeout : Int)           -- blocked in it until the instant `timeout`
  | awake (deadline : Int)                    -- returned from it
  | clearing                                  -- at `coroc_notify_clear`
deriving DecidableEq, Repr

structure State (τ : Type) where
  mgr : Manager τ
  holder : Holder τ
  suspend : Bool
  phase : Phase
  waking : Nat     -- adders between their `lock_release` and `vpu_ready(daemon)`
  key : Nat        -- `note.key`
  clock : Nat      -- nanoseconds

variable {τ : Type} [DecidableEq τ]

/-- `coroc_getmicrotime`. -/
def State.getmicrotime (s : State τ) : UInt64 := UInt64.ofNat (s.clock / 1000)

/-- `int64_t left = 1000 * (timers[0]->when - now)`: unsigned arithmetic, read as signed. -/
def leftOf (w now : UInt64) : Int := (1000 * (w - now)).toBitVec.toInt

/-- The value of a signed 64-bit variable that `x` is stored in. -/
def int64 (x : Int) : Int := Int.bmod x 18446744073709551616   -- 2^64

inductive Label (τ : Type) where
  | setup (t : τ) (w : UInt64) (p : UInt32)
  | addLock (t : τ)
  | insert
  | decide
  | notify
  | release
  | ready
  | delLock (t : τ)
  | delete
  | daemon
  | tick (d : Nat)
deriving DecidableEq, Repr

/-- One step of the daemon, whatever its phase. -/
def daemonStep (s : State τ) : Option (State τ) :=
  match s.phase with
  | .none => none
  | .rescan =>
      if s.holder = .free then
        some { s with holder := .daemon, phase := .scanning s.getmicrotime }
      else none
  | .scanning now =>
      if s.mgr.size > 0 then
        if s.mgr.whenAt 0 ≤ now then some { s with mgr := fireRoot s.mgr now }
        else some { s with holder := .free, phase := .submitting (leftOf (s.mgr.whenAt 0) now) }
      else some { s with suspend := true, phase := .suspending }
  | .suspending => some { s with holder := .free, phase := .suspended }
  | .suspended => none
  | .submitting left =>
      if left > 0 then some { s with phase := .tsleep (int64 (left + s.clock)) left }
      else some { s with phase := .clearing }
  | .tsleep deadline ns =>
      -- the kernel compares `key` with 0 and blocks in one step
      if s.key = 0 then some { s with phase := .asleep deadline (s.clock + ns) }
      else some { s with phase := .awake deadline }
  | .asleep deadline _ => some { s with phase := .awake deadline }
  | .awake deadline =>
      if s.key ≠ 0 then some { s with phase := .clearing }
      else if s.clock ≥ deadline then some { s with phase := .clearing }
      else some { s with phase := .tsleep deadline (deadline - s.clock) }
  | .clearing => some { s with key := 0, phase := .rescan }

def step (s : State τ) : Label τ → Option (State τ)
  | .setup t w p => (TimerHeap.step s.mgr (.setup t w p)).map fun m => { s with mgr := m }
  | .addLock t => if s.holder = .free then some { s with holder := .adder t } else none
  | .insert =>
      match s.holder with
      | .adder t =>
          (TimerHeap.step s.mgr (.add t)).map fun m =>
            { s with mgr := m, holder := .decide s.mgr.size }
      | _ => none
  | .decide =>
      match s.holder with
      | .decide size =>
          if s.phase = .none then
            -- `coroc_intertimer_start`
            some { s with phase := .rescan, holder := .leave false }
          else if size = 0 then
            if s.suspend then some { s with suspend := false, holder := .leave true }
            else some { s with holder := .leave false }
          else some { s with holder := .notify }
      | _ => none
  | .notify =>
      match s.holder with
      | .notify => some { s with key := if s.key = 0 then 1 else s.key, holder := .leave false }
      | _ => none
  | .release =>
      match s.holder with
      | .leave ready =>
          some { s with holder := .free, waking := if ready then s.waking + 1 else s.waking }
      | _ => none
  | .ready =>
      if s.waking > 0 ∧ s.phase = .suspended then
        some { s with waking := s.waking - 1, phase := .rescan }
      else none
  | .delLock t => if s.holder = .free then some { s with holder := .deleter t } else none
  | .delete =>
      match s.holder with
      | .deleter t => some { s with mgr := (delIntertimer s.mgr t).2, holder := .leave false }
      | _ => none
  | .daemon => daemonStep s
  -- a reading of the clock fits the signed 64-bit type it is returned in
  | .tick d => if s.clock + d < 2 ^ 63 then some { s with clock := s.clock + d } else none

def Init (s : State τ) : Prop :=
  TimerHeap.Init s.mgr ∧ s.holder = .free ∧ s.suspend = false ∧ s.phase = .none ∧ s.waking = 0 ∧
    s.key = 0 ∧ s.clock < 2 ^ 63

/-! ### The property and the condition -/

/-- The instant at which the daemon's timed sleep ends if nobody wakes it: the one
    it is in, or the one it is about to begin. -/
def State.sleepEnd (s : State τ) : Option Int :=
  match s.phase with
  | .submitting left => if left > 0 then some (s.clock + left) else none
  | .tsleep _ ns => some (s.clock + ns)
  | .asleep _ timeout => some timeout
  | .awake deadline => some deadline
  | _ => none

/-- The condition on the steps of a run.
    * A timer put into the empty heap finds no daemon asleep (or going to sleep)
      past its deadline, unless the daemon has been notified.
    * Deletions move the last timer in order.
    * The clock does not advance between the daemon's reading of it in the scan and
      the start of the sleep that is computed from that reading. -/
def InTime (s : State τ) : Label τ → Prop
  | .insert =>
      match s.holder, s.sleepEnd with
      | .adder t, some e =>
          s.mgr.size = 0 → s.key ≠ 0 ∨ e / 1000 ≤ ((s.mgr.obj t).when.toNat : Int)
      | _, _ => True
  | .delete =>
      match s.holder with
      | .deleter t => MovesInOrder s.mgr (.del t)
      | _ => True
  | .tick _ =>
      match s.phase with
      | .scanning _ | .submitting _ | .tsleep _ _ => False
      | _ => True
  | _ => True

/-! ### The invariant

What is known of a state depends on who is in the critical section: between the
insertion and the wake-up that answers it, and while the daemon scans, the
property need not hold. -/

/-- No registered timer is due before the instant `e`. -/
def State.Covered (s : State τ) (e : Int) : Prop :=
  ∀ j < s.mgr.size, e / 1000 ≤ (s.mgr.keys j : Int)

/-- A daemon in its timed sleep is notified, or sleeps past no timer. -/
def State.Cover (s : State τ) : Prop := ∀ e, s.sleepEnd = some e → s.key ≠ 0 ∨ s.Covered e

/-- The daemon is outside the critical section. -/
def State.Outside (s : State τ) : Prop :=
  s.phase ≠ .suspending ∧ ∀ now, s.phase ≠ .scanning now

/-- A suspended daemon is flagged as such, or somebody is about to ready it. -/
def State.Awaited (s : State τ) : Prop :=
  s.phase = .suspended → s.suspend = true ∨ s.waking > 0

/-- Independent of the critical section. -/
structure Base (s : State τ) : Prop where
  valid : s.mgr.Valid
  clock : s.clock < 2 ^ 63
  deadline : ∀ dl ns, s.phase = .tsleep dl ns → dl ≤ s.clock + ns
  timeout : ∀ dl e, s.phase = .asleep dl e → dl ≤ e

/-- With the lock free, or held by somebody who has changed nothing yet or has
    nothing left to do. -/
structure Calm (s : State τ) : Prop where
  outside : s.Outside
  unborn : s.phase = .none → s.mgr.size = 0
  idle : s.suspend = true → s.phase = .suspended ∧ s.mgr.size = 0
  awaited : s.Awaited
  cover : s.Cover

/-- After an insertion into a heap of `n` timers. -/
structure Inserted (s : State τ) (n : Nat) : Prop where
  outside : s.Outside
  size : s.mgr.size = n + 1
  unborn : s.phase = .none → n = 0
  idle : s.suspend = true → s.phase = .suspended ∧ n = 0
  awaited : s.Awaited
  cover : n = 0 → s.Cover

/-- Before the notification that answers an insertion. -/
structure Notifying (s : State τ) : Prop where
  outside : s.Outside
  born : s.phase ≠ .none
  running : s.suspend = false
  awaited : s.Awaited

/-- Before the release after which the daemon is readied. -/
structure Readying (s : State τ) : Prop where
  outside : s.Outside
  born : s.phase ≠ .none
  running : s.suspend = false
  cover : s.Cover

/-- The daemon has the lock: it scans at the current time, or has found nothing. -/
def Scanning (s : State τ) : Prop :=
  (∃ now, s.phase = .scanning now ∧ now.toNat = s.clock / 1000 ∧ s.suspend = false) ∨
    (s.phase = .suspending ∧ s.suspend = true ∧ s.mgr.size = 0)

def AtHolder (s : State τ) : Holder τ → Prop
  | .decide n => Inserted s n
  | .notify => Notifying s
  | .leave true => Readying s
  | .daemon => Scanning s
  | .free | .adder _ | .deleter _ | .leave false => Calm s

def Inv (s : State τ) : Prop := Base s ∧ AtHolder s s.holder

omit [DecidableEq τ] in
theorem Inv.at {s : State τ} (h : Inv s) {hd : Holder τ} (hh : s.holder = hd) :
    AtHolder s hd :=
  hh ▸ h.2

omit [DecidableEq τ] in
/-- Only the daemon is in the critical section while it scans. -/
theorem Inv.outside {s : State τ} (h : Inv s) (hne : s.holder ≠ .daemon) : s.Outside := by
  have h2 := h.2
  rcases hh : s.holder with _ | t' | n | _ | ready | t' | _ <;> rw [hh] at h2
  case daemon => exact absurd hh hne
  case leave =>
    cases ready with
    | true => exact h2.outside
    | false => exact h2.outside
  all_goals exact h2.outside

omit [DecidableEq τ] in
theorem inv_init {s : State τ} (h : Init s) : Inv s := by
  obtain ⟨hm, hh, hs, hp, hw, hk, hc⟩ := h
  refine ⟨⟨valid_of_init hm, hc, ?_, ?_⟩, ?_⟩
  · rw [hp]; nofun
  · rw [hp]; nofun
  · rw [hh]
    refine ⟨⟨?_, ?_⟩, fun _ => hm.1, ?_, ?_, ?_⟩
    · rw [hp]; nofun
    · rw [hp]; nofun
    · rw [hs]; nofun
    · intro hp'; rw [hp] at hp'; cases hp'
    · intro e he; simp [State.sleepEnd, hp] at he

/-! ### The callers of add and delete -/

omit [DecidableEq τ] in
/-- Entering the critical section changes nothing yet. -/
theorem inv_acquire {s : State τ} (h : Inv s) (hfree : s.holder = .free) {holder : Holder τ}
    (hnew : (∃ t, holder = .adder t) ∨ ∃ t, holder = .deleter t) :
    Inv { s with holder := holder } := by
  have hc : Calm s := h.at hfree
  refine ⟨⟨h.1.valid, h.1.clock, h.1.deadline, h.1.timeout⟩, ?_⟩
  rcases hnew with ⟨t, rfl⟩ | ⟨t, rfl⟩
  · exact ⟨hc.outside, hc.unborn, hc.idle, hc.awaited, hc.cover⟩
  · exact ⟨hc.outside, hc.unborn, hc.idle, hc.awaited, hc.cover⟩

omit [DecidableEq τ] in
/-- A change of the heap that brings in no earlier timer. -/
theorem State.Cover.setMgr {s : State τ} (h : s.Cover) {m : Manager τ} (holder : Holder τ)
    (hfrom : ∀ j < m.size, ∃ i < s.mgr.size, s.mgr.keys i ≤ m.keys j) :
    State.Cover { s with mgr := m, holder := holder } := by
  intro e he
  refine (h e he).imp id fun hc j hj => ?_
  obtain ⟨i, hi, hle⟩ := hfrom j hj
  have := hc i hi
  show e / 1000 ≤ (m.keys j : Int)
  omega

omit [DecidableEq τ] in
theorem Calm.setMgr {s : State τ} (h : Calm s) {m : Manager τ} (holder : Holder τ)
    (hempty : s.mgr.size = 0 → m.size = 0)
    (hfrom : ∀ j < m.size, ∃ i < s.mgr.size, s.mgr.keys i ≤ m.keys j) :
    Calm { s with mgr := m, holder := holder } :=
  ⟨h.outside, fun hp => hempty (h.unborn hp), fun hs => ⟨(h.idle hs).1, hempty (h.idle hs).2⟩,
    h.awaited, h.cover.setMgr holder hfrom⟩

theorem inv_setup {s : State τ} (h : Inv s) {t : τ} {w : UInt64} {p : UInt32} {m : Manager τ}
    (hm : TimerHeap.step s.mgr (.setup t w p) = some m) : Inv { s with mgr := m } := by
  have hv : m.Valid := step_valid (o := .setup t w p) h.1.valid trivial hm
  obtain ⟨hsize, hkeys⟩ := step_setup hm
  have hfrom : ∀ j < m.size, ∃ i < s.mgr.size, s.mgr.keys i ≤ m.keys j := fun j hj =>
    ⟨j, by omega, le_of_eq (hkeys j (by omega)).symm⟩
  have hat : ∀ hd, AtHolder s hd → AtHolder { s with mgr := m } hd := by
    intro hd h2
    rcases hd with _ | t' | n | _ | ready | t' | _
    case decide =>
      exact ⟨h2.outside, hsize.trans h2.size, h2.unborn, h2.idle, h2.awaited,
        fun h0 => (h2.cover h0).setMgr _ hfrom⟩
    case notify => exact ⟨h2.outside, h2.born, h2.running, h2.awaited⟩
    case daemon =>
      rcases h2 with hscan | ⟨hp, hs, h0⟩
      · exact Or.inl hscan
      · exact Or.inr ⟨hp, hs, hsize.trans h0⟩
    case leave =>
      cases ready with
      | true => exact ⟨h2.outside, h2.born, h2.running, h2.cover.setMgr _ hfrom⟩
      | false => exact Calm.setMgr h2 _ hsize.trans hfrom
    all_goals exact Calm.setMgr h2 _ hsize.trans hfrom
  exact ⟨⟨hv, h.1.clock, h.1.deadline, h.1.timeout⟩, hat s.holder h.2⟩

theorem inv_insert {s : State τ} (h : Inv s) {t : τ} (hh : s.holder = .adder t)
    (hok : InTime s .insert) (hun : s.mgr.Unregistered t) :
    Inv { s with mgr := addIntertimer s.mgr t, holder := .decide s.mgr.size } := by
  have hc : Calm s := h.at hh
  refine ⟨⟨addIntertimer_valid h.1.valid hun, h.1.clock, h.1.deadline, h.1.timeout⟩,
    ⟨hc.outside, addIntertimer_size _ _, hc.unborn, hc.idle, hc.awaited, ?_⟩⟩
  -- the only timer is the new one, and the condition is about it
  intro h0 e he
  have he' : s.sleepEnd = some e := he
  simp only [InTime, hh, he'] at hok
  refine (hok h0).imp id fun hle j hj => ?_
  have hj : j < (addIntertimer s.mgr t).size := hj
  rw [addIntertimer_size, h0] at hj
  obtain rfl : j = 0 := by omega
  rw [addIntertimer_empty_keys h0]
  exact hle

theorem inv_delete {s : State τ} (h : Inv s) {t : τ} (hh : s.holder = .deleter t)
    (hok : MovesInOrder s.mgr (.del t)) :
    Inv { s with mgr := (delIntertimer s.mgr t).2, holder := .leave false } := by
  have hc : Calm s := h.at hh
  have hfrom := delIntertimer_keysFrom s.mgr t
  -- a deletion from the empty heap leaves it empty
  have hempty : s.mgr.size = 0 → (delIntertimer s.mgr t).2.size = 0 := by
    intro h0
    rcases Nat.eq_zero_or_pos (delIntertimer s.mgr t).2.size with hz | hpos
    · exact hz
    · obtain ⟨i, hi, _⟩ := hfrom 0 hpos
      omega
  refine ⟨⟨⟨delIntertimer_indexed h.1.valid.indexed t,
    delIntertimer_ordered h.1.valid.ordered hok⟩, h.1.clock, h.1.deadline, h.1.timeout⟩,
    hc.setMgr (.leave false) hempty fun j hj => ?_⟩
  obtain ⟨i, hi, heq⟩ := hfrom j hj
  exact ⟨i, hi, le_of_eq heq.symm⟩

theorem inv_decide {s s' : State τ} (h : Inv s) {n : Nat} (hh : s.holder = .decide n)
    (hs : step s .decide = some s') : Inv s' := by
  have hi : Inserted s n := h.at hh
  simp only [step, hh] at hs
  split at hs
  · -- the daemon is started
    rename_i hp
    simp only [Option.some.injEq] at hs
    subst hs
    refine ⟨⟨h.1.valid, h.1.clock, nofun, nofun⟩, ⟨⟨nofun, nofun⟩, nofun, fun hsus => ?_, nofun,
      nofun⟩⟩
    have := (hi.idle hsus).1
    rw [hp] at this; cases this
  · rename_i hp
    split at hs
    · rename_i h0
      split at hs
      · -- a suspended daemon: its flag is taken over by the coming `vpu_ready`
        simp only [Option.some.injEq] at hs
        subst hs
        exact ⟨⟨h.1.valid, h.1.clock, h.1.deadline, h.1.timeout⟩,
          ⟨hi.outside, hp, rfl, hi.cover h0⟩⟩
      · rename_i hsus
        simp only [Option.some.injEq] at hs
        subst hs
        exact ⟨⟨h.1.valid, h.1.clock, h.1.deadline, h.1.timeout⟩,
          ⟨hi.outside, fun hp' => absurd hp' hp, fun hs => absurd hs hsus, hi.awaited, hi.cover h0⟩⟩
    · rename_i hne
      simp only [Option.some.injEq] at hs
      subst hs
      refine ⟨⟨h.1.valid, h.1.clock, h.1.deadline, h.1.timeout⟩, ⟨hi.outside, hp, ?_, hi.awaited⟩⟩
      exact Bool.eq_false_iff.mpr fun hsus => hne (hi.idle hsus).2

omit [DecidableEq τ] in
theorem inv_notify {s : State τ} (h : Inv s) (hh : s.holder = .notify) :
    Inv { s with key := if s.key = 0 then 1 else s.key, holder := .leave false } := by
  have hn : Notifying s := h.at hh
  refine ⟨⟨h.1.valid, h.1.clock, h.1.deadline, h.1.timeout⟩,
    ⟨hn.outside, fun hp => absurd hp hn.born, fun hsus => ?_, hn.awaited, fun e _ => Or.inl ?_⟩⟩
  · rw [hn.running] at hsus; cases hsus
  · show (if s.key = 0 then 1 else s.key) ≠ 0
    split <;> omega

omit [DecidableEq τ] in
theorem inv_release {s : State τ} (h : Inv s) {ready : Bool} (hh : s.holder = .leave ready) :
    Inv { s with holder := .free, waking := if ready then s.waking + 1 else s.waking } := by
  cases ready with
  | true =>
    have hr : Readying s := h.at hh
    refine ⟨⟨h.1.valid, h.1.clock, h.1.deadline, h.1.timeout⟩,
      ⟨hr.outside, fun hp => absurd hp hr.born, fun hsus => ?_, fun _ => Or.inr ?_, hr.cover⟩⟩
    · rw [hr.running] at hsus; cases hsus
    · show s.waking + 1 > 0
      omega
  | false =>
    have hc : Calm s := h.at hh
    exact ⟨⟨h.1.valid, h.1.clock, h.1.deadline, h.1.timeout⟩,
      ⟨hc.outside, hc.unborn, hc.idle, hc.awaited, hc.cover⟩⟩

/-! ### The daemon -/

/-- A signed 64-bit variable holds at most the non-negative number stored in it. -/
theorem int64_le {x : Int} (h : 0 ≤ x) : int64 x ≤ x := by
  rw [int64, Int.bmod_def]
  split <;> omega

/-- The sleep asked for is at most the time to the deadline: the multiplication may
    wrap, which only shortens it. -/
theorem leftOf_le {w now : UInt64} (h : now < w) :
    leftOf w now ≤ 1000 * ((w.toNat : Int) - now.toNat) := by
  have hlt := UInt64.lt_iff_toNat_lt.mp h
  have hsub : (w - now).toNat = w.toNat - now.toNat :=
    UInt64.toNat_sub_of_le _ _ (UInt64.le_iff_toNat_le.mpr (Nat.le_of_lt hlt))
  have hmul : (1000 * (w - now)).toNat ≤ 1000 * (w.toNat - now.toNat) := by
    rw [UInt64.toNat_mul, hsub]
    exact Nat.mod_le _ _
  have hint : leftOf w now ≤ ((1000 * (w - now)).toNat : Int) := by
    rw [leftOf, BitVec.toInt_eq_toNat_cond]
    split
    · exact Int.le_refl _
    · exact Int.sub_le_self _ (by omega)
  omega

omit [DecidableEq τ] in
theorem getmicrotime_toNat {s : State τ} (h : s.clock < 2 ^ 63) :
    s.getmicrotime.toNat = s.clock / 1000 := by
  unfold State.getmicrotime
  rw [UInt64.toNat_ofNat_of_lt']
  exact lt_of_le_of_lt (Nat.div_le_self _ _) (lt_trans h (by decide))

omit [DecidableEq τ] in
/-- The sleep computed by a scan ends by every registered deadline. -/
theorem scan_covered {s : State τ} (hv : s.mgr.Valid) {now : UInt64}
    (hnow : now.toNat = s.clock / 1000) (hlate : ¬ s.mgr.whenAt 0 ≤ now) :
    s.Covered (s.clock + leftOf (s.mgr.whenAt 0) now) := by
  intro j hj
  have hroot := hv.ordered.root_le j hj
  have hlt : now < s.mgr.whenAt 0 := UInt64.not_le.mp hlate
  have hleft := leftOf_le hlt
  have hkey : s.mgr.keys 0 = (s.mgr.whenAt 0).toNat := rfl
  omega

omit [DecidableEq τ] in
/-- A step of the daemon, or of the clock, that leaves the lock and the heap alone
    and stays between `lock_release` and the next `lock_acquire`: what is left to
    show is the sleep. -/
theorem inv_setPhase {s s' : State τ} (h : Inv s) (hmgr : s'.mgr = s.mgr)
    (hholder : s'.holder = s.holder) (hsuspend : s'.suspend = s.suspend)
    (hwaking : s'.waking = s.waking)
    (hout : s.Outside) (hout' : s'.Outside) (hborn : s'.phase = .none → s.phase = .none)
    (hsus : s'.phase = .suspended ↔ s.phase = .suspended)
    (hbase : Base s') (hcov : s.Cover → s'.Cover) : Inv s' := by
  have hcalm : Calm s → Calm s' := by
    intro hc
    refine ⟨hout', fun hp => hmgr ▸ hc.unborn (hborn hp), fun hs => ?_, fun hp => ?_,
      hcov hc.cover⟩
    · rw [hmgr, hsus]
      exact hc.idle (hsuspend ▸ hs)
    · rw [hsuspend, hwaking]
      exact hc.awaited (hsus.mp hp)
  have hat : ∀ hd, AtHolder s hd → AtHolder s' hd := by
    intro hd h2
    rcases hd with _ | t' | n | _ | ready | t' | _
    case decide =>
      refine ⟨hout', hmgr ▸ h2.size, fun hp => h2.unborn (hborn hp), fun hs => ?_, fun hp => ?_,
        fun h0 => hcov (h2.cover h0)⟩
      · rw [hsus]
        exact h2.idle (hsuspend ▸ hs)
      · rw [hsuspend, hwaking]
        exact h2.awaited (hsus.mp hp)
    case notify =>
      refine ⟨hout', fun hp => h2.born (hborn hp), hsuspend ▸ h2.running, fun hp => ?_⟩
      rw [hsuspend, hwaking]
      exact h2.awaited (hsus.mp hp)
    case daemon =>
      rcases h2 with ⟨now, hp, _⟩ | ⟨hp, _⟩
      · exact absurd hp (hout.2 now)
      · exact absurd hp hout.1
    case leave =>
      cases ready with
      | true =>
        exact ⟨hout', fun hp => h2.born (hborn hp), hsuspend ▸ h2.running, hcov h2.cover⟩
      | false => exact hcalm h2
    all_goals exact hcalm h2
  exact ⟨hbase, hholder ▸ hat s.holder h.2⟩

theorem Inv.scanning {s : State τ} (h : Inv s) {now : UInt64} (hp : s.phase = .scanning now) :
    s.holder = .daemon ∧ now.toNat = s.clock / 1000 ∧ s.suspend = false := by
  by_cases hd : s.holder = .daemon
  · rcases h.at hd with ⟨now', hp', hnow, hsus⟩ | ⟨hp', _⟩
    · rw [hp] at hp'
      cases hp'
      exact ⟨hd, hnow, hsus⟩
    · rw [hp] at hp'; cases hp'
  · exact absurd hp ((h.outside hd).2 now)

theorem inv_scan {s s' : State τ} (h : Inv s) {now : UInt64} (hp : s.phase = .scanning now)
    (hs : daemonStep s = some s') : Inv s' := by
  obtain ⟨hd, hnow, hsus⟩ := h.scanning hp
  simp only [daemonStep, hp] at hs
  split at hs
  · rename_i hsize
    split at hs
    · -- the root is due: it is fired and the scan goes on
      simp only [Option.some.injEq] at hs
      subst hs
      refine ⟨⟨fireRoot_valid h.1.valid hsize now, h.1.clock, nofun, nofun⟩, ?_⟩
      rw [show AtHolder _ _ = Scanning _ by rw [hd]; rfl]
      exact Or.inl ⟨now, rfl, hnow, hsus⟩
    · -- nothing is due: the lock is released and the sleep computed
      rename_i hlate
      simp only [Option.some.injEq] at hs
      subst hs
      refine ⟨⟨h.1.valid, h.1.clock, nofun, nofun⟩, ⟨⟨nofun, nofun⟩, nofun, fun hs => ?_, nofun, ?_⟩⟩
      · have hs : s.suspend = true := hs
        rw [hsus] at hs; cases hs
      · intro e he
        simp only [State.sleepEnd] at he
        split at he
        · simp only [Option.some.injEq] at he
          subst he
          exact Or.inr (scan_covered h.1.valid hnow hlate)
        · cases he
  · rename_i hsize
    simp only [Option.some.injEq] at hs
    subst hs
    refine ⟨⟨h.1.valid, h.1.clock, nofun, nofun⟩, ?_⟩
    rw [show AtHolder _ _ = Scanning _ by rw [hd]; rfl]
    exact Or.inr ⟨rfl, rfl, Nat.eq_zero_of_not_pos hsize⟩

theorem inv_suspending {s : State τ} (h : Inv s) (hp : s.phase = .suspending) :
    Inv { s with holder := .free, phase := .suspended } := by
  have hd : s.holder = .daemon := by
    by_contra hd
    exact (h.outside hd).1 hp
  rcases h.at hd with ⟨now, hp', _⟩ | ⟨_, hsus, h0⟩
  · rw [hp] at hp'; cases hp'
  · exact ⟨⟨h.1.valid, h.1.clock, nofun, nofun⟩,
      ⟨⟨nofun, nofun⟩, nofun, fun _ => ⟨rfl, h0⟩, fun _ => Or.inl hsus, nofun⟩⟩

theorem inv_daemonStep {s s' : State τ} (h : Inv s) (hs : daemonStep s = some s') : Inv s' := by
  have hs₀ := hs
  unfold daemonStep at hs
  split at hs
  · cases hs
  · -- to the lock
    rename_i hp
    split at hs
    · rename_i hfree
      simp only [Option.some.injEq] at hs
      subst hs
      have hc : Calm s := h.at hfree
      refine ⟨⟨h.1.valid, h.1.clock, nofun, nofun⟩, Or.inl ⟨_, rfl, ?_, ?_⟩⟩
      · exact getmicrotime_toNat h.1.clock
      · refine Bool.eq_false_iff.mpr fun hsus => ?_
        have := (hc.idle hsus).1
        rw [hp] at this; cases this
    · cases hs
  · rename_i now hp
    exact inv_scan h hp hs₀
  · rename_i hp
    simp only [Option.some.injEq] at hs
    exact hs ▸ inv_suspending h hp
  · cases hs
  · rename_i left hp
    have hout : s.Outside := ⟨by rw [hp]; nofun, fun now => by rw [hp]; nofun⟩
    split at hs
    · rename_i hpos
      simp only [Option.some.injEq] at hs
      subst hs
      refine inv_setPhase h rfl rfl rfl rfl hout ⟨nofun, nofun⟩ nofun ⟨nofun, ?_⟩ ?_ ?_
      · rw [hp]; nofun
      · refine ⟨h.1.valid, h.1.clock, fun dl ns heq => ?_, nofun⟩
        cases heq
        have := int64_le (x := left + s.clock) (by omega)
        show int64 _ ≤ (s.clock : Int) + left
        omega
      · intro hc e he
        exact hc e (by simpa [State.sleepEnd, hp, hpos] using he)
    · simp only [Option.some.injEq] at hs
      subst hs
      refine inv_setPhase h rfl rfl rfl rfl hout ⟨nofun, nofun⟩ nofun ⟨nofun, ?_⟩
        ⟨h.1.valid, h.1.clock, nofun, nofun⟩ (fun _ => nofun)
      rw [hp]; nofun
  · rename_i dl ns hp
    have hout : s.Outside := ⟨by rw [hp]; nofun, fun now => by rw [hp]; nofun⟩
    split at hs
    · simp only [Option.some.injEq] at hs
      subst hs
      refine inv_setPhase h rfl rfl rfl rfl hout ⟨nofun, nofun⟩ nofun ⟨nofun, ?_⟩ ?_ ?_
      · rw [hp]; nofun
      · refine ⟨h.1.valid, h.1.clock, nofun, fun dl' e heq => ?_⟩
        cases heq
        exact h.1.deadline _ _ hp
      · intro hc e he
        exact hc e (by simpa [State.sleepEnd, hp] using he)
    · rename_i hkey
      simp only [Option.some.injEq] at hs
      subst hs
      refine inv_setPhase h rfl rfl rfl rfl hout ⟨nofun, nofun⟩ nofun ⟨nofun, ?_⟩
        ⟨h.1.valid, h.1.clock, nofun, nofun⟩ (fun _ _ _ => Or.inl hkey)
      rw [hp]; nofun
  · rename_i dl e' hp
    have hout : s.Outside := ⟨by rw [hp]; nofun, fun now => by rw [hp]; nofun⟩
    simp only [Option.some.injEq] at hs
    subst hs
    refine inv_setPhase h rfl rfl rfl rfl hout ⟨nofun, nofun⟩ nofun ⟨nofun, ?_⟩
      ⟨h.1.valid, h.1.clock, nofun, nofun⟩ ?_
    · rw [hp]; nofun
    · -- the deadline of the whole sleep is not after the end of this wait
      intro hc e he
      simp only [State.sleepEnd, Option.some.injEq] at he
      subst he
      have hle := h.1.timeout _ _ hp
      refine (hc e' (by simp only [State.sleepEnd, hp])).imp id fun hcov j hj => ?_
      have := hcov j hj
      show dl / 1000 ≤ (s.mgr.keys j : Int)
      omega
  · rename_i dl hp
    have hout : s.Outside := ⟨by rw [hp]; nofun, fun now => by rw [hp]; nofun⟩
    split at hs
    · simp only [Option.some.injEq] at hs
      subst hs
      refine inv_setPhase h rfl rfl rfl rfl hout ⟨nofun, nofun⟩ nofun ⟨nofun, ?_⟩
        ⟨h.1.valid, h.1.clock, nofun, nofun⟩ (fun _ => nofun)
      rw [hp]; nofun
    · split at hs
      · simp only [Option.some.injEq] at hs
        subst hs
        refine inv_setPhase h rfl rfl rfl rfl hout ⟨nofun, nofun⟩ nofun ⟨nofun, ?_⟩
          ⟨h.1.valid, h.1.clock, nofun, nofun⟩ (fun _ => nofun)
        rw [hp]; nofun
      · simp only [Option.some.injEq] at hs
        subst hs
        refine inv_setPhase h rfl rfl rfl rfl hout ⟨nofun, nofun⟩ nofun ⟨nofun, ?_⟩ ?_ ?_
        · rw [hp]; nofun
        · refine ⟨h.1.valid, h.1.clock, fun dl' ns heq => ?_, nofun⟩
          cases heq
          show dl ≤ (s.clock : Int) + (dl - s.clock)
          omega
        · intro hc e he
          refine hc e ?_
          simp only [State.sleepEnd, Option.some.injEq, hp] at he ⊢
          omega
  · rename_i hp
    have hout : s.Outside := ⟨by rw [hp]; nofun, fun now => by rw [hp]; nofun⟩
    simp only [Option.some.injEq] at hs
    subst hs
    refine inv_setPhase h rfl rfl rfl rfl hout ⟨nofun, nofun⟩ nofun ⟨nofun, ?_⟩
      ⟨h.1.valid, h.1.clock, nofun, nofun⟩ (fun _ => nofun)
    rw [hp]; nofun

/-! ### Every run -/

/-- At most one adder is about to ready the daemon, and it is still suspended then:
    the flag was taken back under the lock by the one who promised to. -/
structure Woken (s : State τ) : Prop where
  waking : s.waking > 0 → s.waking = 1 ∧ s.suspend = false ∧ s.phase = .suspended
  leaving : s.holder = .leave true → s.waking = 0 ∧ s.suspend = false ∧ s.phase = .suspended

omit [DecidableEq τ] in
theorem woken_init {s : State τ} (h : Init s) : Woken s := by
  obtain ⟨_, hh, _, _, hw, _⟩ := h
  refine ⟨fun hpos => absurd hpos (by omega), fun hl => ?_⟩
  rw [hh] at hl; cases hl

omit [DecidableEq τ] in
/-- A step of somebody who neither promises to ready the daemon nor does so. -/
theorem Woken.frame {s s' : State τ} (h : Woken s) (hwaking : s'.waking = s.waking)
    (hsuspend : s'.suspend = s.suspend) (hphase : s.phase = .suspended → s'.phase = .suspended)
    (hholder : s'.holder ≠ .leave true) : Woken s' := by
  refine ⟨fun hpos => ?_, fun hl => absurd hl hholder⟩
  rw [hwaking] at hpos ⊢
  obtain ⟨h1, hs, hp⟩ := h.waking hpos
  exact ⟨h1, hsuspend.trans hs, hphase hp⟩

theorem woken_decide {s s' : State τ} (h : Inv s) (hw : Woken s) {n : Nat}
    (hh : s.holder = .decide n) (hs : step s .decide = some s') : Woken s' := by
  have hi : Inserted s n := h.at hh
  simp only [step, hh] at hs
  split at hs
  · rename_i hp
    simp only [Option.some.injEq] at hs
    subst hs
    refine hw.frame rfl rfl (fun hp' => ?_) nofun
    rw [hp] at hp'; cases hp'
  · split at hs
    · split at hs
      · rename_i hsus
        simp only [Option.some.injEq] at hs
        subst hs
        -- the flag is set, so nobody is waking the daemon yet
        have hzero : s.waking = 0 := by
          rcases Nat.eq_zero_or_pos s.waking with hz | hpos
          · exact hz
          · obtain ⟨_, hf, _⟩ := hw.waking hpos
            rw [hsus] at hf; cases hf
        exact ⟨fun hpos => absurd hpos (by show ¬ s.waking > 0; omega),
          fun _ => ⟨hzero, rfl, (hi.idle hsus).1⟩⟩
      · simp only [Option.some.injEq] at hs
        exact hs ▸ hw.frame rfl rfl id nofun
    · simp only [Option.some.injEq] at hs
      exact hs ▸ hw.frame rfl rfl id nofun

omit [DecidableEq τ] in
theorem woken_release {s : State τ} (hw : Woken s) {ready : Bool}
    (hh : s.holder = .leave ready) :
    Woken { s with holder := .free, waking := if ready then s.waking + 1 else s.waking } := by
  cases ready with
  | true =>
    obtain ⟨hzero, hsus, hp⟩ := hw.leaving hh
    refine ⟨fun _ => ⟨?_, hsus, hp⟩, nofun⟩
    show s.waking + 1 = 1
    omega
  | false => exact hw.frame rfl rfl id nofun

/-- Only a scanning daemon sets the flag, and a suspended one takes no step. -/
theorem woken_daemonStep {s s' : State τ} (hw : Woken s)
    (hs : daemonStep s = some s') : Woken s' := by
  by_cases hp : s.phase = .suspended
  · simp [daemonStep, hp] at hs
  · have hzero : s.waking = 0 := by
      rcases Nat.eq_zero_or_pos s.waking with hz | hpos
      · exact hz
      · exact absurd (hw.waking hpos).2.2 hp
    have hsame : s'.waking = s.waking := by
      unfold daemonStep at hs
      split at hs <;> (try split at hs) <;> (try split at hs) <;>
        simp only [Option.some.injEq, reduceCtorEq] at hs <;> subst hs <;> rfl
    have hholder : s'.holder = s.holder ∨ s'.holder = .free ∨ s'.holder = .daemon := by
      unfold daemonStep at hs
      split at hs <;> (try split at hs) <;> (try split at hs) <;>
        simp only [Option.some.injEq, reduceCtorEq] at hs <;> subst hs <;> simp
    refine ⟨fun hpos => absurd hpos (by omega), fun hl => ?_⟩
    rw [hl] at hholder
    rcases hholder with heq | heq | heq
    · exact absurd (hw.leaving heq.symm).2.2 hp
    · cases heq
    · cases heq

theorem woken_step {s s' : State τ} {l : Label τ} (h : Inv s) (hw : Woken s)
    (hs : step s l = some s') : Woken s' := by
  cases l with
  | decide =>
    rcases hh : s.holder with _ | t | n | _ | ready | t | _
    case decide => exact woken_decide h hw hh hs
    all_goals simp [step, hh] at hs
  | release =>
    simp only [step] at hs
    split at hs
    · rename_i ready hh
      simp only [Option.some.injEq] at hs
      exact hs ▸ woken_release hw hh
    · cases hs
  | ready =>
    simp only [step] at hs
    split at hs
    · rename_i hr
      simp only [Option.some.injEq] at hs
      subst hs
      have hone := (hw.waking hr.1).1
      refine ⟨fun hpos => absurd hpos (by show ¬ s.waking - 1 > 0; omega), fun hl => ?_⟩
      exact absurd (hw.leaving hl).1 (by omega)
    · cases hs
  | daemon => exact woken_daemonStep hw hs
  | setup t w p =>
    simp only [step, Option.map_eq_some_iff] at hs
    obtain ⟨m, _, rfl⟩ := hs
    exact ⟨hw.waking, hw.leaving⟩
  | insert =>
    simp only [step] at hs
    split at hs
    · simp only [Option.map_eq_some_iff] at hs
      obtain ⟨m, _, rfl⟩ := hs
      exact hw.frame rfl rfl id nofun
    · cases hs
  | addLock t | delLock t | notify | delete =>
    simp only [step] at hs
    split at hs
    · simp only [Option.some.injEq] at hs
      exact hs ▸ hw.frame rfl rfl id nofun
    · cases hs
  | tick d =>
    simp only [step] at hs
    split at hs
    · simp only [Option.some.injEq] at hs
      exact hs ▸ ⟨hw.waking, hw.leaving⟩
    · cases hs

omit [DecidableEq τ] in
theorem inv_ready {s : State τ} (h : Inv s) (hw : Woken s) (hpos : s.waking > 0) :
    Inv { s with waking := s.waking - 1, phase := .rescan } := by
  obtain ⟨_, hsus, hp⟩ := hw.waking hpos
  have hcalm : Calm { s with waking := s.waking - 1, phase := .rescan } :=
    ⟨⟨nofun, nofun⟩, nofun, fun hs => absurd (hsus.symm.trans hs) nofun, nofun, nofun⟩
  have hat : ∀ hd, (hd = .leave true → False) → AtHolder s hd →
      AtHolder { s with waking := s.waking - 1, phase := .rescan } hd := by
    intro hd hne h2
    rcases hd with _ | t' | n | _ | ready | t' | _
    case decide =>
      exact ⟨hcalm.outside, h2.size, nofun, fun hs => absurd (hsus.symm.trans hs) nofun, nofun,
        fun _ => hcalm.cover⟩
    case notify => exact ⟨hcalm.outside, nofun, hsus, nofun⟩
    case daemon =>
      rcases h2 with ⟨now, hp', _⟩ | ⟨hp', _⟩ <;> rw [hp] at hp' <;> cases hp'
    case leave =>
      cases ready with
      | true => exact (hne rfl).elim
      | false => exact hcalm
    all_goals exact hcalm
  refine ⟨⟨h.1.valid, h.1.clock, nofun, nofun⟩, hat s.holder (fun hl => ?_) h.2⟩
  exact absurd (hw.leaving hl).1 (by omega)

/-- The clock advances outside the scan and the start of the sleep only. -/
theorem inv_tick {s : State τ} (h : Inv s) {d : Nat} (hok : InTime s (.tick d))
    (hd : s.clock + d < 2 ^ 63) : Inv { s with clock := s.clock + d } := by
  have hend : State.sleepEnd { s with clock := s.clock + d } = s.sleepEnd := by
    simp only [State.sleepEnd]
    cases hp : s.phase <;> simp_all [InTime]
  have hbase : Base { s with clock := s.clock + d } :=
    ⟨h.1.valid, hd, fun dl ns hp => absurd hp fun hp => by simp_all [InTime], h.1.timeout⟩
  by_cases hp : s.phase = .suspending
  · refine ⟨hbase, ?_⟩
    have hheld : s.holder = .daemon := by
      by_contra hd
      exact (h.outside hd).1 hp
    have hat := h.at hheld
    rw [show AtHolder _ _ = Scanning _ by rw [hheld]; rfl]
    rcases hat with ⟨now, hp', _⟩ | hat
    · rw [hp] at hp'; cases hp'
    · exact Or.inr hat
  · have hout : s.Outside := ⟨hp, fun now hp' => by simp_all [InTime]⟩
    refine inv_setPhase h rfl rfl rfl rfl hout hout id Iff.rfl hbase fun hc e he => ?_
    exact hc e (hend ▸ he)

theorem step_inv {s s' : State τ} {l : Label τ} (h : Inv s) (hw : Woken s) (hok : InTime s l)
    (hs : step s l = some s') : Inv s' := by
  cases l with
  | setup t w p =>
    simp only [step, Option.map_eq_some_iff] at hs
    obtain ⟨m, hm, rfl⟩ := hs
    exact inv_setup h hm
  | addLock t =>
    simp only [step] at hs
    split at hs
    · rename_i hfree
      simp only [Option.some.injEq] at hs
      exact hs ▸ inv_acquire h hfree (Or.inl ⟨t, rfl⟩)
    · cases hs
  | insert =>
    simp only [step] at hs
    split at hs
    · rename_i t hh
      simp only [TimerHeap.step, Option.map_eq_some_iff] at hs
      obtain ⟨m, hm, rfl⟩ := hs
      split at hm
      · rename_i hun
        simp only [Option.some.injEq] at hm
        subst hm
        exact inv_insert h hh hok hun
      · cases hm
    · cases hs
  | decide =>
    rcases hh : s.holder with _ | t | n | _ | ready | t | _
    case decide => exact inv_decide h hh hs
    all_goals simp [step, hh] at hs
  | notify =>
    simp only [step] at hs
    split at hs
    · rename_i hh
      simp only [Option.some.injEq] at hs
      exact hs ▸ inv_notify h hh
    · cases hs
  | release =>
    simp only [step] at hs
    split at hs
    · rename_i ready hh
      simp only [Option.some.injEq] at hs
      exact hs ▸ inv_release h hh
    · cases hs
  | ready =>
    simp only [step] at hs
    split at hs
    · rename_i hr
      simp only [Option.some.injEq] at hs
      exact hs ▸ inv_ready h hw hr.1
    · cases hs
  | delLock t =>
    simp only [step] at hs
    split at hs
    · rename_i hfree
      simp only [Option.some.injEq] at hs
      exact hs ▸ inv_acquire h hfree (Or.inr ⟨t, rfl⟩)
    · cases hs
  | delete =>
    simp only [step] at hs
    split at hs
    · rename_i t hh
      simp only [Option.some.injEq] at hs
      simp only [InTime, hh] at hok
      exact hs ▸ inv_delete h hh hok
    · cases hs
  | daemon => exact inv_daemonStep h hs
  | tick d =>
    simp only [step] at hs
    split at hs
    · rename_i hd
      simp only [Option.some.injEq] at hs
      exact hs ▸ inv_tick h hok hd
    · cases hs

theorem inv_of_reach {s : State τ} (h : Reach step InTime Init s) : Inv s ∧ Woken s := by
  refine h.invariant (I := fun s => Inv s ∧ Woken s) ?_ ?_
  · exact fun _ hi => ⟨inv_init hi, woken_init hi⟩
  · exact fun _ _ _ h hok hs => ⟨step_inv h.1 h.2 hok hs, woken_step h.1 h.2 hs⟩

instance (s : State τ) (l : Label τ) : Decidable (InTime s l) := by
  cases l <;> unfold InTime <;> simp only <;> (try split) <;> infer_instance

def emptyState : State Nat :=
  { mgr := emptyManager, holder := .free, suspend := false, phase := .none, waking := 0, key := 0,
    clock := 0 }

theorem emptyState_init : Init emptyState :=
  ⟨⟨rfl, rfl⟩, rfl, rfl, rfl, rfl, rfl, by decide⟩

end Coroc.TimerDaemon
