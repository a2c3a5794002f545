import Coroc.TimerScan

/-!
# Timers on the stack (`src/time.c`: `coroc_udelay`, `coroc_send_timer`,
`coroc_intertimer_routine`; `src/channel.c`)

`coroc_udelay` puts a timer into its own frame, gives it to the daemon and receives from the
timer's channel.  The daemon sends on that channel in the middle of its work on the timer: it
reads `t->period` and unlinks `timers[0]` only afterwards.  A woken owner synchronises with the
daemon on the lock of the channel, not on the lock of the manager, so on another VPU it can be
back from `coroc_udelay` before the timer is out of the array.

The model interleaves any number of owners with the daemon, at the steps at which one of them
takes or gives back a lock or touches a timer.  When the daemon comes to scan is left open, and
so is what other timers (those of `coroc_timer_allocate` and of net-waits) are used for.
`frame_safe` is about the runs in which no owner overtakes the daemon; `overtaken` says that one
that does can return at once.
-/

namespace Coroc.StackTimer

open Coroc.Transition Coroc.TimerHeap

/-- Where the coroutine whose frame holds the timer is. -/
inductive Owner where
  | out          -- not in `coroc_udelay`: the frame is dead
  | start        -- at the test of `coroc_timer_start`
  | send         -- it is late already: at `coroc_send_timer`
  | add          -- in `coroc_add_intertimer`, at `lock_acquire`
  | insert       -- holding the manager's lock
  | added        -- at `lock_release`
  | recv         -- in `coroc_chan_recv`, at `lock_acquire`
  | receiving    -- holding the channel's lock
  | waiting      -- suspended, in `recv_que`
  | ready        -- made ready by a sender, at `lock_acquire`
  | leave        -- at `lock_release`, then it returns
  | other        -- the timer is in no frame of `coroc_udelay`
deriving DecidableEq, Repr

/-- Where the daemon is; from `func` on with its local variable `t`. -/
inductive Daemon (τ : Type) where
  | out                             -- not in the critical section
  | scan (now : UInt64)             -- at the test of the `while` loop
  | func (t : τ) (now : UInt64)     -- in `t->func`, at `lock_acquire` of the channel
  | send (t : τ) (now : UInt64)     -- holding the channel's lock
  | sent (t : τ) (now : UInt64)     -- at `lock_release`
  | blocked (t : τ) (now : UInt64)  -- suspended, in `send_que`
  | period (t : τ) (now : UInt64)   -- at the test of `t->period`
  | unlink (t : τ) (now : UInt64)   -- it was 0
  | resched (t : τ) (now : UInt64)  -- it was not
deriving DecidableEq, Repr

/-- Who holds the manager's lock. -/
inductive Holder (τ : Type) where
  | free
  | owner (t : τ)
  | daemon
deriving DecidableEq, Repr

structure State (τ : Type) where
  mgr : Manager τ
  holder : Holder τ
  daemon : Daemon τ
  owner : τ → Owner
  locked : τ → Bool      -- the lock of the timer's channel
  nbuf : τ → Nat         -- `nbuf` of the channel, whose `bufsize` is 1
  clock : UInt64         -- `coroc_getmicrotime`

inductive Label (τ : Type) where
  | call (t : τ) (us : UInt64)     -- `coroc_udelay(us)`, up to `t->timer.when = when`
  | owner (t : τ)                  -- the next step of the owner
  | daemon                         -- the next step of the daemon
  | other (o : Op τ)               -- an operation on another timer
  | tick (clock : UInt64)
deriving DecidableEq, Repr

variable {τ : Type} [DecidableEq τ]

def State.setOwner (s : State τ) (t : τ) (o : Owner) : State τ :=
  { s with owner := Function.update s.owner t o }

def State.setLocked (s : State τ) (t : τ) (b : Bool) : State τ :=
  { s with locked := Function.update s.locked t b }

def State.setNbuf (s : State τ) (t : τ) (n : Nat) : State τ :=
  { s with nbuf := Function.update s.nbuf t n }

/-- One step of the owner, wherever it is. -/
def ownerStep (s : State τ) (t : τ) : Option (State τ) :=
  match s.owner t with
  | .start => some (s.setOwner t (if (s.mgr.obj t).when ≤ s.clock then .send else .add))
  | .send =>
      -- nobody else knows of this channel, so lock, copy and unlock are one step
      if s.locked t = false ∧ s.nbuf t < 1 then some ((s.setNbuf t (s.nbuf t + 1)).setOwner t .recv)
      else none
  | .add => if s.holder = .free then some ({ s with holder := .owner t }.setOwner t .insert) else none
  | .insert => some ({ s with mgr := addIntertimer s.mgr t }.setOwner t .added)
  | .added => some ({ s with holder := .free }.setOwner t .recv)
  | .recv =>
      if s.locked t = false then some ((s.setLocked t true).setOwner t .receiving) else none
  | .receiving =>
      if s.nbuf t > 0 then some ((s.setNbuf t (s.nbuf t - 1)).setOwner t .leave)
      else some ((s.setLocked t false).setOwner t .waiting)
  | .ready => if s.locked t = false then some ((s.setLocked t true).setOwner t .leave) else none
  | .leave => some ((s.setLocked t false).setOwner t .out)
  | .out | .waiting | .other => none

/-- `__coroc_chan_send`: a waiting owner is handed the item and made ready, else it goes to the
    buffer.  A sender that finds no room stays blocked: the owner receives only once. -/
def chanSend (s : State τ) (t : τ) (now : UInt64) : State τ :=
  if s.owner t = .waiting then { s with daemon := .sent t now }.setOwner t .ready
  else if s.nbuf t < 1 then { s with daemon := .sent t now }.setNbuf t (s.nbuf t + 1)
  else { s with daemon := .blocked t now }.setLocked t false

/-- The unlinking of a one-shot root, with the sift that follows. -/
def unlinkAdjust (m : Manager τ) : Manager τ :=
  let size := m.size - 1
  if size > 0 then downAdjustHeap (unlinkRoot m size) 0 size else unlinkRoot m size

/-- The rescheduling of a periodic root, with the sift that follows. -/
def reschedAdjust (m : Manager τ) (t : τ) (now : UInt64) : Manager τ :=
  downAdjustHeap (m.setWhen t (now + (m.obj t).period.toUInt64)) 0 m.size

/-- One step of the daemon, wherever it is. -/
def daemonStep (s : State τ) : Option (State τ) :=
  match s.daemon with
  | .out => if s.holder = .free then some { s with holder := .daemon, daemon := .scan s.clock } else none
  | .scan now =>
      if s.mgr.size > 0 ∧ s.mgr.whenAt 0 ≤ now then some { s with daemon := .func (s.mgr.timers 0) now }
      else some { s with holder := .free, daemon := .out }
  | .func t now =>
      if s.owner t = .other then some { s with daemon := .period t now }
      else if s.locked t = false then some ({ s with daemon := .send t now }.setLocked t true)
      else none
  | .send t now => some (chanSend s t now)
  | .sent t now => some ({ s with daemon := .period t now }.setLocked t false)
  | .blocked _ _ => none
  | .period t now =>
      some { s with daemon := if (s.mgr.obj t).period = 0 then .unlink t now else .resched t now }
  | .unlink _ now => some { s with mgr := unlinkAdjust s.mgr, daemon := .scan now }
  | .resched t now => some { s with mgr := reschedAdjust s.mgr t now, daemon := .scan now }

/-- The timer an operation is about. -/
def opTimer : Op τ → Option τ
  | .setup t _ _ | .add t | .del t => some t
  | .fire _ => none

/-- `__coroc_timer_init` of the frame of `coroc_udelay`, then `t->timer.when = when`. -/
def timerInit (s : State τ) (t : τ) (w : UInt64) : State τ :=
  let obj := { s.mgr.obj t with when := w, period := 0 }
  (({ s with mgr := { s.mgr with obj := Function.update s.mgr.obj t obj } }.setLocked t false).setNbuf
    t 0)

def step (s : State τ) : Label τ → Option (State τ)
  | .call t us =>
      if s.owner t = .out then some ((timerInit s t (s.clock + us)).setOwner t .start) else none
  | .owner t => ownerStep s t
  | .daemon => daemonStep s
  | .other o =>
      match opTimer o with
      | some t =>
          if s.owner t = .other ∧ s.holder = .free then
            (TimerHeap.step s.mgr o).map fun m => { s with mgr := m }
          else none
      | none => none
  | .tick clock => if s.clock ≤ clock then some { s with clock := clock } else none

def Init (s : State τ) : Prop :=
  TimerHeap.Init s.mgr ∧ s.holder = .free ∧ s.daemon = .out ∧ ∀ t, s.owner t = .out ∨ s.owner t = .other

/-! ### The property and the condition -/

/-- The timer the daemon still reads or writes. -/
def Daemon.timer : Daemon τ → Option τ
  | .out | .scan _ => none
  | .func t _ | .send t _ | .sent t _ | .blocked t _ | .period t _ | .unlink t _ | .resched t _ => some t

/-- A timer whose owner is back from `coroc_udelay` is in no slot of the array, and the daemon
    is not at work on it. -/
def State.FrameSafe (s : State τ) : Prop :=
  ∀ t, s.owner t = .out → s.mgr.Unregistered t ∧ s.daemon.timer ≠ some t

/-- The daemon has given back the lock of the channel of `t`, and `t` is not yet unlinked. -/
def Daemon.Behind (t : τ) : Daemon τ → Prop
  | .period u _ | .unlink u _ | .resched u _ => u = t
  | _ => False

instance (t : τ) (d : Daemon τ) : Decidable (d.Behind t) := by
  unfold Daemon.Behind
  split <;> infer_instance

/-- The condition on the steps of a run: no owner takes the lock of its channel, in
    `coroc_chan_recv`, between the daemon's release of it and the unlinking of the timer. -/
def NotOvertaken (s : State τ) : Label τ → Prop
  | .owner t => s.owner t = .recv ∨ s.owner t = .ready → ¬ s.daemon.Behind t
  | _ => True

instance (s : State τ) (l : Label τ) : Decidable (NotOvertaken s l) := by
  cases l <;> unfold NotOvertaken <;> infer_instance

/-! ### The invariant -/

/-- The owner has the lock of the channel. -/
def Owner.locks : Owner → Bool
  | .receiving | .leave => true
  | _ => false

/-- The daemon has sent on the channel of `t`, and `t` is not yet unlinked. -/
def Daemon.After (t : τ) : Daemon τ → Prop
  | .sent u _ | .period u _ | .unlink u _ | .resched u _ => u = t
  | _ => False

/-- The daemon has the lock of the channel of `t`. -/
def Daemon.Inside (t : τ) : Daemon τ → Prop
  | .send u _ | .sent u _ => u = t
  | _ => False

/-- `t` is registered and its send is still to come. -/
def State.Pending (s : State τ) (t : τ) : Prop := s.mgr.Holds s.mgr.size t ∧ ¬ s.daemon.After t

/-- What is known of a timer, by where its owner is. -/
def AtOwner (s : State τ) (t : τ) : Owner → Prop
  | .out => ¬ s.mgr.Holds s.mgr.size t
  | .start | .send | .add | .insert => ¬ s.mgr.Holds s.mgr.size t ∧ s.nbuf t = 0
  | .added | .recv => s.Pending t ∧ s.nbuf t = 0 ∨ ¬ s.Pending t ∧ s.nbuf t = 1
  | .receiving => s.Pending t ∧ s.nbuf t = 0 ∨ ¬ s.mgr.Holds s.mgr.size t ∧ s.nbuf t = 1
  | .waiting => s.Pending t ∧ s.nbuf t = 0
  | .ready => ¬ s.Pending t
  | .leave => ¬ s.mgr.Holds s.mgr.size t
  | .other => True

/-- The daemon works on the root. -/
def State.Root (s : State τ) (t : τ) : Prop := s.mgr.size > 0 ∧ s.mgr.timers 0 = t

/-- What is known by where the daemon is. -/
def AtDaemon (s : State τ) : Daemon τ → Prop
  | .out => s.holder ≠ .daemon
  | .scan _ => s.holder = .daemon
  | .func t _ => s.holder = .daemon ∧ s.Root t
  | .send t _ | .sent t _ =>
      s.holder = .daemon ∧ s.Root t ∧ s.locked t = true ∧ (s.owner t).locks = false ∧ s.owner t ≠ .other
  | .blocked _ _ => False
  | .period t _ => s.holder = .daemon ∧ s.Root t
  | .unlink t _ => s.holder = .daemon ∧ s.Root t ∧ (s.mgr.obj t).period = 0
  | .resched t _ => s.holder = .daemon ∧ s.Root t ∧ (s.mgr.obj t).period ≠ 0 ∧ s.owner t = .other

structure Inv (s : State τ) : Prop where
  indexed : s.mgr.Indexed s.mgr.size
  daemon : AtDaemon s s.daemon
  owner : ∀ t, AtOwner s t (s.owner t)
  adding : ∀ t, s.owner t = .insert ∨ s.owner t = .added → s.holder = .owner t
  locks : ∀ t, (s.owner t).locks = true → s.locked t = true
  oneShot : ∀ t, s.owner t ≠ .out → s.owner t ≠ .other → (s.mgr.obj t).period = 0

section
variable {s s' : State τ} {t u : τ}

omit [DecidableEq τ] in
theorem State.Root.holds (h : s.Root t) : s.mgr.Holds s.mgr.size t := ⟨0, h.1, h.2⟩

omit [DecidableEq τ] in
theorem Daemon.After.timer {d : Daemon τ} (h : d.After t) : d.timer = some t := by
  cases d <;> first | exact congrArg some h | exact h.elim

omit [DecidableEq τ] in
theorem Daemon.Inside.timer {d : Daemon τ} (h : d.Inside t) : d.timer = some t := by
  cases d <;> first | exact congrArg some h | exact h.elim

omit [DecidableEq τ] in
/-- What the daemon is at work on is registered. -/
theorem Inv.holds_of_timer (h : Inv s) (ht : s.daemon.timer = some t) : s.mgr.Holds s.mgr.size t := by
  have hd := h.daemon
  cases hdm : s.daemon <;> rw [hdm] at hd ht
  case out => exact nomatch ht
  case scan => exact nomatch ht
  case blocked => exact hd.elim
  case func =>
    cases ht
    exact hd.2.holds
  case period =>
    cases ht
    exact hd.2.holds
  all_goals
    cases ht
    exact hd.2.1.holds

omit [DecidableEq τ] in
theorem Inv.frameSafe (h : Inv s) : s.FrameSafe := by
  intro t ht
  have hnot : ¬ s.mgr.Holds s.mgr.size t := by
    have hat := h.owner t
    rw [ht] at hat
    exact hat
  constructor
  · exact (s.mgr.unregistered_iff t).mpr hnot
  · intro hd
    exact hnot (h.holds_of_timer hd)

omit [DecidableEq τ] in
theorem Inv.daemon_out (h : Inv s) (hh : s.holder ≠ .daemon) : s.daemon = .out := by
  have hd := h.daemon
  cases hdm : s.daemon <;> rw [hdm] at hd
  case scan => exact absurd hd hh
  case blocked => exact hd.elim
  all_goals exact absurd hd.1 hh

omit [DecidableEq τ] in
theorem Inv.inside (h : Inv s) (hin : s.daemon.Inside t) :
    s.holder = .daemon ∧ s.locked t = true ∧ (s.owner t).locks = false := by
  have hd := h.daemon
  cases hdm : s.daemon <;> rw [hdm] at hd hin
  case send =>
    cases hin
    exact ⟨hd.1, hd.2.2.1, hd.2.2.2.1⟩
  case sent =>
    cases hin
    exact ⟨hd.1, hd.2.2.1, hd.2.2.2.1⟩
  all_goals exact hin.elim

omit [DecidableEq τ] in
theorem AtOwner.congr {o : Owner} (h : AtOwner s u o)
    (hheld : s'.mgr.Holds s'.mgr.size u ↔ s.mgr.Holds s.mgr.size u)
    (hafter : s'.daemon.After u ↔ s.daemon.After u) (hnbuf : s'.nbuf u = s.nbuf u) : AtOwner s' u o := by
  have hpend : s'.Pending u ↔ s.Pending u := and_congr hheld (not_congr hafter)
  cases o <;> simp only [AtOwner, hheld, hpend, hnbuf] at h ⊢ <;> exact h

omit [DecidableEq τ] in
theorem inv_init (h : Init s) : Inv s := by
  obtain ⟨⟨hsize, -⟩, hholder, hdaemon, howner⟩ := h
  have hnone : ∀ t, ¬ s.mgr.Holds s.mgr.size t := by
    rintro t ⟨j, hj, -⟩
    omega
  refine ⟨?_, ?_, ?_, ?_, ?_, ?_⟩
  · intro j hj
    omega
  · rw [hdaemon]
    intro hd
    exact nomatch hholder.symm.trans hd
  · intro t
    rcases howner t with ho | ho <;> rw [ho]
    · exact hnone t
    · trivial
  · intro t ht
    rcases howner t with ho | ho <;> rw [ho] at ht <;> exact nomatch ht
  · intro t ht
    rcases howner t with ho | ho <;> rw [ho] at ht <;> exact nomatch ht
  · intro t hout hother
    rcases howner t with ho | ho
    · exact absurd ho hout
    · exact absurd ho hother

/-! ### Steps of the owners -/

/-- A step of the owner of `t` outside the array. -/
structure Moved (s s' : State τ) (t : τ) : Prop where
  slots : s'.mgr.timers = s.mgr.timers ∧ s'.mgr.size = s.mgr.size
  index : ∀ u, (s'.mgr.obj u).index = (s.mgr.obj u).index
  period : ∀ u, (u = t → s.mgr.Holds s.mgr.size t) → (s'.mgr.obj u).period = (s.mgr.obj u).period
  daemon : s'.daemon = s.daemon
  holder : s'.holder = s.holder ∨ s.daemon = .out ∧ s'.holder ≠ .daemon
  adder : ∀ u, u ≠ t → s.holder = .owner u → s'.holder = .owner u
  owner : ∀ u, u ≠ t → s'.owner u = s.owner u
  locked : ∀ u, u ≠ t → s'.locked u = s.locked u
  nbuf : ∀ u, u ≠ t → s'.nbuf u = s.nbuf u

omit [DecidableEq τ] in
theorem Moved.holds (hm : Moved s s' t) (u : τ) :
    s'.mgr.Holds s'.mgr.size u ↔ s.mgr.Holds s.mgr.size u := by
  unfold Manager.Holds
  rw [hm.slots.1, hm.slots.2]

omit [DecidableEq τ] in
theorem Moved.root (hm : Moved s s' t) (h : s.Root u) : s'.Root u := by
  unfold State.Root
  rw [hm.slots.1, hm.slots.2]
  exact h

omit [DecidableEq τ] in
/-- The daemon does not notice what an owner does, except inside its channel. -/
theorem Moved.atDaemon (hm : Moved s s' t) (h : Inv s) (hin : ¬ s.daemon.Inside t)
    (hother : s.owner t ≠ .other) : AtDaemon s' s.daemon := by
  have hd := h.daemon
  by_cases hout : s.daemon = .out
  · rw [hout] at hd ⊢
    rcases hm.holder with hh | ⟨-, hh⟩
    · exact fun h' => hd (hh.symm.trans h')
    · exact hh
  have hholder : s'.holder = s.holder := hm.holder.resolve_right fun hh => hout hh.1
  have hperiod : ∀ u, s.Root u → (s'.mgr.obj u).period = (s.mgr.obj u).period := fun u hr =>
    hm.period u fun hu => hu ▸ hr.holds
  cases hdm : s.daemon with
  | out => exact absurd hdm hout
  | scan now =>
    rw [hdm] at hd
    exact hholder.trans hd
  | func u now =>
    rw [hdm] at hd
    exact ⟨hholder.trans hd.1, hm.root hd.2⟩
  | send u now =>
    rw [hdm] at hd hin
    have hne : u ≠ t := hin
    refine ⟨hholder.trans hd.1, hm.root hd.2.1, ?_⟩
    rw [hm.locked u hne, hm.owner u hne]
    exact hd.2.2
  | sent u now =>
    rw [hdm] at hd hin
    have hne : u ≠ t := hin
    refine ⟨hholder.trans hd.1, hm.root hd.2.1, ?_⟩
    rw [hm.locked u hne, hm.owner u hne]
    exact hd.2.2
  | blocked u now =>
    rw [hdm] at hd
    exact hd
  | period u now =>
    rw [hdm] at hd
    exact ⟨hholder.trans hd.1, hm.root hd.2⟩
  | unlink u now =>
    rw [hdm] at hd
    exact ⟨hholder.trans hd.1, hm.root hd.2.1, (hperiod u hd.2.1).trans hd.2.2⟩
  | resched u now =>
    rw [hdm] at hd
    have hne : u ≠ t := fun hu => hother (hu ▸ hd.2.2.2)
    refine ⟨hholder.trans hd.1, hm.root hd.2.1, ?_, (hm.owner u hne).trans hd.2.2.2⟩
    rw [hperiod u hd.2.1]
    exact hd.2.2.1

theorem Inv.moved (h : Inv s) (hm : Moved s s' t) (hin : ¬ s.daemon.Inside t)
    (hother : s.owner t ≠ .other) (hat : AtOwner s' t (s'.owner t))
    (hadd : s'.owner t = .insert ∨ s'.owner t = .added → s'.holder = .owner t)
    (hlocks : (s'.owner t).locks = true → s'.locked t = true)
    (hperiod : s'.owner t ≠ .out → (s'.mgr.obj t).period = 0) : Inv s' := by
  refine ⟨?_, ?_, ?_, ?_, ?_, ?_⟩
  · intro j hj
    rw [hm.slots.2] at hj
    rw [hm.slots.1, hm.index]
    exact h.indexed j hj
  · rw [hm.daemon]
    exact hm.atDaemon h hin hother
  · intro u
    by_cases hu : u = t
    · rw [hu]
      exact hat
    · rw [hm.owner u hu]
      exact (h.owner u).congr (hm.holds u) (by rw [hm.daemon]) (hm.nbuf u hu)
  · intro u hins
    by_cases hu : u = t
    · rw [hu] at hins ⊢
      exact hadd hins
    · rw [hm.owner u hu] at hins
      exact hm.adder u hu (h.adding u hins)
  · intro u hl
    by_cases hu : u = t
    · rw [hu] at hl ⊢
      exact hlocks hl
    · rw [hm.owner u hu] at hl
      rw [hm.locked u hu]
      exact h.locks u hl
  · intro u hout hoth
    by_cases hu : u = t
    · rw [hu] at hout ⊢
      exact hperiod hout
    · rw [hm.owner u hu] at hout hoth
      rw [hm.period u fun he => absurd he hu]
      exact h.oneShot u hout hoth

/-- The daemon is not inside the channel of an owner that can step. -/
theorem Inv.not_inside (h : Inv s) (hs : ownerStep s t = some s') : ¬ s.daemon.Inside t := by
  intro hin
  have hheld := h.holds_of_timer hin.timer
  obtain ⟨hholder, hlocked, hlocks⟩ := h.inside hin
  have hat := h.owner t
  cases ho : s.owner t with
  | start | send | add | insert =>
    rw [ho] at hat
    exact hat.1 hheld
  | added =>
    have hadding := h.adding t (Or.inr ho)
    exact nomatch hholder.symm.trans hadding
  | recv | ready => simp [ownerStep, ho, hlocked] at hs
  | receiving | leave =>
    rw [ho] at hlocks
    exact nomatch hlocks
  | out | waiting | other => simp [ownerStep, ho] at hs

omit [DecidableEq τ] in
theorem Daemon.not_after {d : Daemon τ} (hin : ¬ d.Inside t) (hbehind : ¬ d.Behind t) : ¬ d.After t := by
  intro hafter
  cases d with
  | sent => exact hin hafter
  | period | unlink | resched => exact hbehind hafter
  | _ => exact hafter.elim

theorem Inv.insert (h : Inv s) (ho : s.owner t = .insert) :
    Inv ({ s with mgr := addIntertimer s.mgr t }.setOwner t .added) := by
  have hholder := h.adding t (Or.inl ho)
  have hout : s.daemon = .out := h.daemon_out (by rw [hholder]; exact nofun)
  have hat := h.owner t
  rw [ho] at hat
  obtain ⟨hnot, hnbuf⟩ := hat
  refine ⟨?_, ?_, ?_, ?_, ?_, ?_⟩
  · exact addIntertimer_indexed h.indexed ((s.mgr.unregistered_iff t).mpr hnot)
  · show AtDaemon _ s.daemon
    rw [hout]
    show s.holder ≠ .daemon
    rw [hholder]
    exact nofun
  · intro u
    by_cases hu : u = t
    · subst hu
      simp only [State.setOwner, Function.update_self]
      refine Or.inl ⟨⟨(addIntertimer_holds s.mgr u).mpr (Or.inl rfl), ?_⟩, hnbuf⟩
      rw [hout]
      exact id
    · simp only [State.setOwner, Function.update_of_ne hu]
      refine (h.owner u).congr ?_ Iff.rfl rfl
      rw [addIntertimer_holds]
      exact or_iff_right hu
  · intro u hins
    by_cases hu : u = t
    · rw [hu]
      exact hholder
    · simp only [State.setOwner, Function.update_of_ne hu] at hins
      exact h.adding u hins
  · intro u hl
    by_cases hu : u = t
    · subst hu
      simp [State.setOwner, Owner.locks] at hl
    · simp only [State.setOwner, Function.update_of_ne hu] at hl
      exact h.locks u hl
  · intro u hne hoth
    refine ((addIntertimer_kept s.mgr t u).2).trans ?_
    by_cases hu : u = t
    · subst hu
      exact h.oneShot u (by rw [ho]; exact nofun) (by rw [ho]; exact nofun)
    · simp only [State.setOwner, Function.update_of_ne hu] at hne hoth
      exact h.oneShot u hne hoth

omit [DecidableEq τ] in
/-- A step that leaves the manager and its lock alone. -/
theorem moved_of_eq (hmgr : s'.mgr = s.mgr) (hdaemon : s'.daemon = s.daemon)
    (hholder : s'.holder = s.holder) (howner : ∀ u, u ≠ t → s'.owner u = s.owner u)
    (hlocked : ∀ u, u ≠ t → s'.locked u = s.locked u) (hnbuf : ∀ u, u ≠ t → s'.nbuf u = s.nbuf u) :
    Moved s s' t where
  slots := by rw [hmgr]; exact ⟨rfl, rfl⟩
  index := fun _ => by rw [hmgr]
  period := fun _ _ => by rw [hmgr]
  daemon := hdaemon
  holder := Or.inl hholder
  adder := fun _ _ h => hholder.trans h
  owner := howner
  locked := hlocked
  nbuf := hnbuf

/-- A step of an owner inside `coroc_udelay`, by where it is then. -/
theorem Inv.moves {o o' : Owner} (h : Inv s) (hm : Moved s s' t) (hin : ¬ s.daemon.Inside t)
    (ho : s.owner t = o) (hne : o ≠ .out ∧ o ≠ .other) (ho' : s'.owner t = o')
    (hat : AtOwner s' t o') (hadd : o' = .insert ∨ o' = .added → s'.holder = .owner t)
    (hlocks : o'.locks = true → s'.locked t = true)
    (hperiod : (s'.mgr.obj t).period = (s.mgr.obj t).period) : Inv s' := by
  subst ho ho'
  refine h.moved hm hin hne.2 hat hadd hlocks fun _ => ?_
  rw [hperiod]
  exact h.oneShot t hne.1 hne.2

theorem Inv.ownerStep (h : Inv s) (hok : NotOvertaken s (.owner t)) (hs : ownerStep s t = some s') :
    Inv s' := by
  have hin := h.not_inside hs
  have hat := h.owner t
  have hupdate : ∀ {α : Type} {f : τ → α} {a : α} (u : τ), u ≠ t → Function.update f t a u = f u :=
    fun u hu => Function.update_of_ne hu _ _
  cases ho : s.owner t with
  | out | waiting | other => simp [StackTimer.ownerStep, ho] at hs
  | start =>
    simp only [StackTimer.ownerStep, ho] at hs
    cases hs
    rw [ho] at hat
    have hm : Moved s (s.setOwner t (if (s.mgr.obj t).when ≤ s.clock then .send else .add)) t :=
      moved_of_eq rfl rfl rfl hupdate (fun _ _ => rfl) fun _ _ => rfl
    refine h.moves hm hin ho ⟨nofun, nofun⟩ (Function.update_self ..) ?_ ?_ ?_ rfl
    · split
      · exact hat
      · exact hat
    · split <;> exact fun h => h.elim nofun nofun
    · split <;> exact nofun
  | send =>
    simp only [StackTimer.ownerStep, ho] at hs
    split at hs
    · cases hs
      rw [ho] at hat
      have hm : Moved s ((s.setNbuf t (s.nbuf t + 1)).setOwner t .recv) t :=
        moved_of_eq rfl rfl rfl hupdate (fun _ _ => rfl) hupdate
      refine h.moves hm hin ho ⟨nofun, nofun⟩ (Function.update_self ..) ?_ (fun h => h.elim nofun nofun)
        nofun rfl
      refine Or.inr ⟨fun hp => hat.1 hp.1, ?_⟩
      simp [State.setNbuf, State.setOwner, hat.2]
    · exact nomatch hs
  | add =>
    simp only [StackTimer.ownerStep, ho] at hs
    split at hs
    · next hfree =>
      cases hs
      rw [ho] at hat
      have hout : s.daemon = .out := h.daemon_out (by rw [hfree]; exact nofun)
      have hm : Moved s ({ s with holder := .owner t }.setOwner t .insert) t := by
        refine ⟨⟨rfl, rfl⟩, fun _ => rfl, fun _ _ => rfl, rfl, Or.inr ⟨hout, nofun⟩, ?_, hupdate,
          fun _ _ => rfl, fun _ _ => rfl⟩
        intro u hu hheld
        exact nomatch hfree.symm.trans hheld
      exact h.moves hm hin ho ⟨nofun, nofun⟩ (Function.update_self ..) hat (fun _ => rfl) nofun rfl
    · exact nomatch hs
  | insert =>
    simp only [StackTimer.ownerStep, ho] at hs
    cases hs
    exact h.insert ho
  | added =>
    simp only [StackTimer.ownerStep, ho] at hs
    cases hs
    rw [ho] at hat
    have hholder := h.adding t (Or.inr ho)
    have hout : s.daemon = .out := h.daemon_out (by rw [hholder]; exact nofun)
    have hm : Moved s ({ s with holder := .free }.setOwner t .recv) t := by
      refine ⟨⟨rfl, rfl⟩, fun _ => rfl, fun _ _ => rfl, rfl, Or.inr ⟨hout, nofun⟩, ?_, hupdate,
        fun _ _ => rfl, fun _ _ => rfl⟩
      intro u hu hheld
      cases hholder.symm.trans hheld
      exact absurd rfl hu
    exact h.moves hm hin ho ⟨nofun, nofun⟩ (Function.update_self ..) hat (fun h => h.elim nofun nofun)
      nofun rfl
  | recv =>
    simp only [StackTimer.ownerStep, ho] at hs
    split at hs
    · cases hs
      rw [ho] at hat
      have hafter := Daemon.not_after hin (hok (Or.inl ho))
      have hm : Moved s ((s.setLocked t true).setOwner t .receiving) t :=
        moved_of_eq rfl rfl rfl hupdate hupdate fun _ _ => rfl
      refine h.moves hm hin ho ⟨nofun, nofun⟩ (Function.update_self ..) ?_ (fun h => h.elim nofun nofun)
        (fun _ => Function.update_self ..) rfl
      rcases hat with hat | hat
      · exact Or.inl hat
      · exact Or.inr ⟨fun hheld => hat.1 ⟨hheld, hafter⟩, hat.2⟩
    · exact nomatch hs
  | receiving =>
    simp only [StackTimer.ownerStep, ho] at hs
    rw [ho] at hat
    split at hs
    · next hpos =>
      cases hs
      have hlocked := h.locks t (by rw [ho]; rfl)
      have hm : Moved s ((s.setNbuf t (s.nbuf t - 1)).setOwner t .leave) t :=
        moved_of_eq rfl rfl rfl hupdate (fun _ _ => rfl) hupdate
      refine h.moves hm hin ho ⟨nofun, nofun⟩ (Function.update_self ..) ?_ (fun h => h.elim nofun nofun)
        (fun _ => hlocked) rfl
      rcases hat with hat | hat
      · exact absurd hpos (by omega)
      · exact hat.1
    · next hempty =>
      cases hs
      have hm : Moved s ((s.setLocked t false).setOwner t .waiting) t :=
        moved_of_eq rfl rfl rfl hupdate hupdate fun _ _ => rfl
      refine h.moves hm hin ho ⟨nofun, nofun⟩ (Function.update_self ..) ?_ (fun h => h.elim nofun nofun)
        nofun rfl
      rcases hat with hat | hat
      · exact hat
      · exact absurd hempty (by omega)
  | ready =>
    simp only [StackTimer.ownerStep, ho] at hs
    split at hs
    · cases hs
      rw [ho] at hat
      have hafter := Daemon.not_after hin (hok (Or.inr ho))
      have hm : Moved s ((s.setLocked t true).setOwner t .leave) t :=
        moved_of_eq rfl rfl rfl hupdate hupdate fun _ _ => rfl
      refine h.moves hm hin ho ⟨nofun, nofun⟩ (Function.update_self ..) ?_ (fun h => h.elim nofun nofun)
        (fun _ => Function.update_self ..) rfl
      exact fun hheld => hat ⟨hheld, hafter⟩
    · exact nomatch hs
  | leave =>
    simp only [StackTimer.ownerStep, ho] at hs
    cases hs
    rw [ho] at hat
    have hm : Moved s ((s.setLocked t false).setOwner t .out) t :=
      moved_of_eq rfl rfl rfl hupdate hupdate fun _ _ => rfl
    exact h.moves hm hin ho ⟨nofun, nofun⟩ (Function.update_self ..) hat (fun h => h.elim nofun nofun)
      nofun rfl

/-- A new call, on a frame that was dead. -/
theorem Inv.call (h : Inv s) (ho : s.owner t = .out) (w : UInt64) :
    Inv ((timerInit s t w).setOwner t .start) := by
  have hnot : ¬ s.mgr.Holds s.mgr.size t := by
    have hat := h.owner t
    rw [ho] at hat
    exact hat
  have hin : ¬ s.daemon.Inside t := fun hin => hnot (h.holds_of_timer hin.timer)
  have hother : ∀ u, u ≠ t → ((timerInit s t w).setOwner t .start).mgr.obj u = s.mgr.obj u :=
    fun u hu => Function.update_of_ne hu _ _
  have hself : ((timerInit s t w).setOwner t .start).mgr.obj t =
      { s.mgr.obj t with when := w, period := 0 } := Function.update_self ..
  have howner : ((timerInit s t w).setOwner t .start).owner t = .start := Function.update_self ..
  have hm : Moved s ((timerInit s t w).setOwner t .start) t := by
    refine ⟨⟨rfl, rfl⟩, ?_, ?_, rfl, Or.inl rfl, fun _ _ h => h, fun u hu => Function.update_of_ne hu _ _,
      fun u hu => Function.update_of_ne hu _ _, fun u hu => Function.update_of_ne hu _ _⟩
    · intro u
      by_cases hu : u = t
      · rw [hu, hself]
      · rw [hother u hu]
    · intro u hheld
      by_cases hu : u = t
      · exact absurd (hheld hu) hnot
      · rw [hother u hu]
  refine h.moved hm hin (by rw [ho]; exact nofun) ?_ ?_ ?_ ?_
  · rw [howner]
    exact ⟨hnot, Function.update_self ..⟩
  · rw [howner]
    exact fun h => h.elim nofun nofun
  · rw [howner]
    exact nofun
  · intro _
    rw [hself]

/-! ### Operations on other timers -/

/-- An operation on a timer changes nothing about the others. -/
theorem op_frame {m m' : Manager τ} {o : Op τ} (hidx : m.Indexed m.size) (ht : opTimer o = some t)
    (hs : TimerHeap.step m o = some m') :
    m'.Indexed m'.size ∧ ∀ u, u ≠ t → (m'.Holds m'.size u ↔ m.Holds m.size u) ∧
      (m'.obj u).period = (m.obj u).period := by
  cases o with
  | setup t' w p =>
    cases ht
    simp only [TimerHeap.step] at hs
    split at hs
    · next hun =>
      cases hs
      refine ⟨fun j hj => ?_, fun u hu => ⟨Iff.rfl, ?_⟩⟩
      · dsimp only at hj ⊢
        rw [setup_obj hun w p hj]
        exact hidx j hj
      · dsimp only
        rw [Function.update_of_ne hu]
    · cases hs
  | add t' =>
    cases ht
    simp only [TimerHeap.step] at hs
    split at hs
    · next hun =>
      cases hs
      refine ⟨addIntertimer_indexed hidx hun, fun u hu => ⟨?_, (addIntertimer_kept m _ u).2⟩⟩
      rw [addIntertimer_holds]
      exact or_iff_right hu
    · cases hs
  | del t' =>
    cases ht
    simp only [TimerHeap.step] at hs
    cases hs
    refine ⟨delIntertimer_indexed hidx _, fun u hu => ⟨?_, (delIntertimer_kept m _ u).2⟩⟩
    by_cases hheld : m.Holds m.size t
    · rw [delIntertimer_holds hidx hheld]
      exact and_iff_left hu
    · rw [delIntertimer_absent hidx hheld]
  | fire now => cases ht

theorem Inv.other {o : Op τ} {m : Manager τ} (h : Inv s) (ht : opTimer o = some t)
    (hother : s.owner t = .other) (hfree : s.holder = .free) (hm : TimerHeap.step s.mgr o = some m) :
    Inv { s with mgr := m } := by
  obtain ⟨hidx, hframe⟩ := op_frame h.indexed ht hm
  have hout : s.daemon = .out := h.daemon_out (by rw [hfree]; exact nofun)
  refine ⟨hidx, ?_, ?_, h.adding, h.locks, ?_⟩
  · show AtDaemon _ s.daemon
    rw [hout]
    show s.holder ≠ .daemon
    rw [hfree]
    exact nofun
  · intro u
    by_cases hu : u = t
    · show AtOwner _ u (s.owner u)
      rw [hu, hother]
      trivial
    · exact (h.owner u).congr (hframe u hu).1 Iff.rfl rfl
  · intro u hne hoth
    have hu : u ≠ t := fun he => hoth (he ▸ hother)
    exact (hframe u hu).2.trans (h.oneShot u hne hoth)

/-! ### Steps of the daemon -/

/-- Unlinking and rescheduling are what a firing of `Coroc.TimerHeap` does after the callback. -/
theorem unlinkAdjust_eq {m : Manager τ} (hs : m.size > 0) (hp : (m.obj (m.timers 0)).period = 0)
    (now : UInt64) : unlinkAdjust m = fireRoot m now := by
  have hn : m.size = (m.size - 1) + 1 := by omega
  rw [fireRoot_oneShot hn hp]
  rfl

theorem reschedAdjust_eq {m : Manager τ} (hs : m.size > 0) (hp : (m.obj (m.timers 0)).period ≠ 0)
    (now : UInt64) : reschedAdjust m (m.timers 0) now = fireRoot m now := by
  rw [fireRoot_periodic hs hp]
  rfl

omit [DecidableEq τ] in
/-- A step of the daemon that leaves the heap and the channels alone. -/
theorem Inv.goes {d : Daemon τ} {holder : Holder τ} (h : Inv s)
    (hadder : ∀ t, s.holder = .owner t → holder = .owner t)
    (hat : AtDaemon { s with holder := holder, daemon := d } d)
    (hafter : ∀ t, s.owner t ≠ .other → (d.After t ↔ s.daemon.After t)) :
    Inv { s with holder := holder, daemon := d } := by
  refine ⟨h.indexed, hat, ?_, ?_, h.locks, h.oneShot⟩
  · intro t
    by_cases ho : s.owner t = .other
    · show AtOwner _ t (s.owner t)
      rw [ho]
      trivial
    · exact (h.owner t).congr Iff.rfl (hafter t ho) rfl
  · intro t ht
    exact hadder t (h.adding t ht)

omit [DecidableEq τ] in
/-- The owner of the timer the daemon is about to send on. -/
theorem Inv.at_send {now : UInt64} (h : Inv s) (hd : s.daemon = .send t now) :
    s.nbuf t = 0 ∧ (s.owner t = .recv ∨ s.owner t = .waiting) := by
  have hdm := h.daemon
  rw [hd] at hdm
  obtain ⟨hholder, hroot, -, hlocks, hother⟩ := hdm
  have hpend : s.Pending t := ⟨hroot.holds, by rw [hd]; exact id⟩
  have hat := h.owner t
  cases ho : s.owner t with
  | out =>
    rw [ho] at hat
    exact absurd hroot.holds hat
  | start | send | add | insert =>
    rw [ho] at hat
    exact absurd hroot.holds hat.1
  | added => exact nomatch hholder.symm.trans (h.adding t (Or.inr ho))
  | recv =>
    rw [ho] at hat
    exact ⟨(hat.resolve_right fun hr => hr.1 hpend).2, Or.inl rfl⟩
  | waiting =>
    rw [ho] at hat
    exact ⟨hat.2, Or.inr rfl⟩
  | ready =>
    rw [ho] at hat
    exact absurd hpend hat
  | receiving | leave =>
    rw [ho] at hlocks
    exact nomatch hlocks
  | other => exact absurd ho hother

theorem Inv.send {now : UInt64} (h : Inv s) (hd : s.daemon = .send t now) : Inv (chanSend s t now) := by
  obtain ⟨hnbuf, howner⟩ := h.at_send hd
  have hdm := h.daemon
  rw [hd] at hdm
  obtain ⟨hholder, hroot, hlocked, -, -⟩ := hdm
  have hafter : ∀ u, u ≠ t → (¬ (Daemon.sent t now).After u) ∧ ¬ s.daemon.After u := fun u hu =>
    ⟨fun he => hu he.symm, by rw [hd]; exact id⟩
  unfold chanSend
  rcases howner with ho | ho
  · -- to the buffer
    rw [if_neg (by rw [ho]; exact nofun), if_pos (by omega)]
    refine ⟨h.indexed, ⟨hholder, hroot, hlocked, ?_, ?_⟩, ?_, h.adding, h.locks, h.oneShot⟩
    · show (s.owner t).locks = false
      rw [ho]
      rfl
    · show s.owner t ≠ .other
      rw [ho]
      exact nofun
    · intro u
      by_cases hu : u = t
      · subst hu
        show AtOwner _ u (s.owner u)
        rw [ho]
        refine Or.inr ⟨fun hp => hp.2 rfl, ?_⟩
        simp [State.setNbuf, hnbuf]
      · have hafter := hafter u hu
        exact (h.owner u).congr Iff.rfl (iff_of_false hafter.1 hafter.2) (Function.update_of_ne hu _ _)
  · -- to the waiting owner
    rw [if_pos ho]
    have hself : ({ s with daemon := .sent t now }.setOwner t .ready).owner t = .ready :=
      Function.update_self ..
    have hother : ∀ u, u ≠ t → ({ s with daemon := .sent t now }.setOwner t .ready).owner u = s.owner u :=
      fun u hu => Function.update_of_ne hu _ _
    refine ⟨h.indexed, ⟨hholder, hroot, hlocked, ?_, ?_⟩, ?_, ?_, ?_, ?_⟩
    · rw [hself]
      rfl
    · rw [hself]
      exact nofun
    · intro u
      by_cases hu : u = t
      · subst hu
        rw [hself]
        exact fun hp => hp.2 rfl
      · have hafter := hafter u hu
        rw [hother u hu]
        exact (h.owner u).congr Iff.rfl (iff_of_false hafter.1 hafter.2) rfl
    · intro u hins
      by_cases hu : u = t
      · rw [hu, hself] at hins
        exact hins.elim nofun nofun
      · rw [hother u hu] at hins
        exact h.adding u hins
    · intro u hl
      by_cases hu : u = t
      · rw [hu, hself] at hl
        exact nomatch hl
      · rw [hother u hu] at hl
        exact h.locks u hl
    · intro u hne hoth
      by_cases hu : u = t
      · rw [hu]
        exact h.oneShot t (by rw [ho]; exact nofun) (by rw [ho]; exact nofun)
      · rw [hother u hu] at hne hoth
        exact h.oneShot u hne hoth

/-- The daemon takes or gives back the lock of a channel. -/
theorem Inv.setLocked {d : Daemon τ} {b : Bool} (h : Inv s) (hlocks : (s.owner t).locks = false)
    (hat : AtDaemon ({ s with daemon := d }.setLocked t b) d)
    (hafter : ∀ u, d.After u ↔ s.daemon.After u) : Inv ({ s with daemon := d }.setLocked t b) := by
  refine ⟨h.indexed, hat, ?_, h.adding, ?_, h.oneShot⟩
  · intro u
    exact (h.owner u).congr Iff.rfl (hafter u) rfl
  · intro u hl
    have hu : u ≠ t := by
      rintro rfl
      exact nomatch hlocks.symm.trans hl
    exact (Function.update_of_ne hu _ _).trans (h.locks u hl)

omit [DecidableEq τ] in
/-- What is known of a timer that was sent on does not depend on the array. -/
theorem AtOwner.unlinked {o : Owner} (h : AtOwner s t o) (hheld : s.mgr.Holds s.mgr.size t)
    (hafter : s.daemon.After t) (hnot : ¬ s'.mgr.Holds s'.mgr.size t) (hnbuf : s'.nbuf t = s.nbuf t) :
    AtOwner s' t o := by
  have hpend : ¬ s.Pending t := fun hp => hp.2 hafter
  have hpend' : ¬ s'.Pending t := fun hp => hnot hp.1
  cases o with
  | out | leave => exact hnot
  | start | send | add | insert => exact absurd hheld h.1
  | added | recv =>
    rcases h with h | h
    · exact absurd h.1 hpend
    · exact Or.inr ⟨hpend', hnbuf.trans h.2⟩
  | receiving =>
    rcases h with h | h
    · exact absurd h.1 hpend
    · exact absurd hheld h.1
  | waiting => exact absurd h.1 hpend
  | ready => exact hpend'
  | other => trivial

/-- The daemon is done with the root: a one-shot one is out of the array. -/
theorem Inv.fired {now : UInt64} (h : Inv s) (hholder : s.holder = .daemon) (hroot : s.Root t)
    (hafter : s.daemon.After t) (hother : (s.mgr.obj t).period ≠ 0 → s.owner t = .other) :
    Inv { s with mgr := fireRoot s.mgr now, daemon := .scan now } := by
  obtain ⟨hsize, rfl⟩ := hroot
  have hfired := fireRoot_fired h.indexed hsize now
  have hholds : ∀ u, (fireRoot s.mgr now).Holds (fireRoot s.mgr now).size u ↔ _ := fun u =>
    fireRoot_holds h.indexed hsize now
  refine ⟨fireRoot_indexed h.indexed hsize now, hholder, ?_, h.adding, h.locks, ?_⟩
  · intro u
    by_cases hu : u = s.mgr.timers 0
    · subst hu
      by_cases hp : (s.mgr.obj (s.mgr.timers 0)).period = 0
      · exact (h.owner _).unlinked ⟨0, hsize, rfl⟩ hafter (fun hu => ((hholds _).mp hu).2 hp rfl) rfl
      · show AtOwner _ _ (s.owner _)
        rw [hother hp]
        trivial
    · refine (h.owner u).congr ?_ ?_ rfl
      · exact (hholds u).trans (and_iff_left fun _ => hu)
      · exact iff_of_false id fun he => hu (Option.some.inj (he.timer.symm.trans hafter.timer))
  · intro u hne hoth
    exact (hfired.period u).trans (h.oneShot u hne hoth)

theorem Inv.daemonStep (h : Inv s) (hs : daemonStep s = some s') : Inv s' := by
  have hd := h.daemon
  cases hdm : s.daemon with
  | out =>
    simp only [StackTimer.daemonStep, hdm] at hs
    split at hs
    · next hfree =>
      cases hs
      refine h.goes ?_ rfl ?_
      · intro t ht
        exact nomatch hfree.symm.trans ht
      · intro t _
        rw [hdm]
        exact Iff.rfl
    · exact nomatch hs
  | scan now =>
    rw [hdm] at hd
    simp only [StackTimer.daemonStep, hdm] at hs
    split at hs
    · next hdue =>
      cases hs
      refine h.goes (fun _ ht => ht) ⟨hd, hdue.1, rfl⟩ ?_
      intro t _
      rw [hdm]
      exact Iff.rfl
    · cases hs
      refine h.goes ?_ nofun ?_
      · intro t ht
        exact nomatch hd.symm.trans ht
      · intro t _
        rw [hdm]
        exact Iff.rfl
  | func t now =>
    rw [hdm] at hd
    simp only [StackTimer.daemonStep, hdm] at hs
    split at hs
    · next hother =>
      cases hs
      refine h.goes (fun _ ht => ht) ⟨hd.1, hd.2⟩ ?_
      intro u hu
      rw [hdm]
      exact iff_of_false (fun he => hu (he ▸ hother)) id
    · next hother =>
      split at hs
      · next hfree =>
        cases hs
        have hlocks : (s.owner t).locks = false := by
          cases hl : (s.owner t).locks with
          | false => rfl
          | true => exact nomatch hfree.symm.trans (h.locks t hl)
        refine h.setLocked hlocks ⟨hd.1, hd.2, Function.update_self .., hlocks, hother⟩ ?_
        intro u
        rw [hdm]
        exact Iff.rfl
      · exact nomatch hs
  | send t now =>
    simp only [StackTimer.daemonStep, hdm] at hs
    cases hs
    exact h.send hdm
  | sent t now =>
    rw [hdm] at hd
    simp only [StackTimer.daemonStep, hdm] at hs
    cases hs
    refine h.setLocked hd.2.2.2.1 ⟨hd.1, hd.2.1⟩ ?_
    intro u
    rw [hdm]
    exact Iff.rfl
  | blocked t now => simp [StackTimer.daemonStep, hdm] at hs
  | period t now =>
    rw [hdm] at hd
    simp only [StackTimer.daemonStep, hdm] at hs
    cases hs
    split
    · next hp =>
      refine h.goes (fun _ ht => ht) ⟨hd.1, hd.2, hp⟩ ?_
      intro u _
      rw [hdm]
      exact Iff.rfl
    · next hp =>
      have hother : s.owner t = .other := by
        by_contra hother
        refine hp (h.oneShot t (fun hout => ?_) hother)
        have hat := h.owner t
        rw [hout] at hat
        exact hat hd.2.holds
      refine h.goes (fun _ ht => ht) ⟨hd.1, hd.2, hp, hother⟩ ?_
      intro u _
      rw [hdm]
      exact Iff.rfl
  | unlink t now =>
    rw [hdm] at hd
    simp only [StackTimer.daemonStep, hdm] at hs
    cases hs
    obtain ⟨hholder, hroot, hp⟩ := hd
    rw [unlinkAdjust_eq hroot.1 (hroot.2 ▸ hp) now]
    exact h.fired hholder hroot (by rw [hdm]; rfl) fun hne => absurd hp hne
  | resched t now =>
    rw [hdm] at hd
    simp only [StackTimer.daemonStep, hdm] at hs
    cases hs
    obtain ⟨hholder, hroot, hp, hother⟩ := hd
    obtain rfl := hroot.2
    rw [reschedAdjust_eq hroot.1 hp now]
    exact h.fired hholder hroot (by rw [hdm]; rfl) fun _ => hother

theorem Inv.step {l : Label τ} (h : Inv s) (hok : NotOvertaken s l) (hs : step s l = some s') :
    Inv s' := by
  cases l with
  | call t us =>
    simp only [StackTimer.step] at hs
    split at hs
    · next ho =>
      cases hs
      exact h.call ho _
    · exact nomatch hs
  | owner t => exact h.ownerStep hok hs
  | daemon => exact h.daemonStep hs
  | other o =>
    simp only [StackTimer.step] at hs
    split at hs
    · next t ht =>
      split at hs
      · next ho =>
        obtain ⟨m, hm, rfl⟩ := Option.map_eq_some_iff.mp hs
        exact h.other ht ho.1 ho.2 hm
      · exact nomatch hs
    · exact nomatch hs
  | tick clock =>
    simp only [StackTimer.step] at hs
    split at hs
    · cases hs
      refine ⟨h.indexed, ?_, fun t => ?_, h.adding, h.locks, h.oneShot⟩
      · have hd := h.daemon
        show AtDaemon _ s.daemon
        cases hdm : s.daemon <;> rw [hdm] at hd <;> exact hd
      · exact (h.owner t).congr Iff.rfl Iff.rfl rfl
    · exact nomatch hs

theorem inv_of_reach (h : Reach StackTimer.step NotOvertaken Init s) : Inv s :=
  h.invariant (fun _ => inv_init) fun _ _ _ hi hok hs => hi.step hok hs

/-- **A timer on the stack is out of the heap before its frame dies**, in every run in which no
    owner takes the lock of its channel between the daemon's send and the unlinking. -/
theorem frame_safe (h : Reach StackTimer.step NotOvertaken Init s) : s.FrameSafe :=
  (inv_of_reach h).frameSafe

/-! ### Overtaking -/

omit [DecidableEq τ] in
theorem Daemon.Behind.timer {d : Daemon τ} (h : d.Behind t) : d.timer = some t := by
  cases d <;> first | exact congrArg some h | exact h.elim

omit [DecidableEq τ] in
theorem Daemon.Behind.after {d : Daemon τ} (h : d.Behind t) : d.After t := by
  cases d <;> first | exact h | exact h.elim

omit [DecidableEq τ] in
theorem not_frameSafe (hout : s.owner t = .out) (hbehind : s.daemon.Behind t) : ¬ s.FrameSafe :=
  fun hsafe => (hsafe t hout).2 hbehind.timer

theorem leave_returns (ho : s.owner t = .leave) (hbehind : s.daemon.Behind t) :
    ∃ s₁, StackTimer.step s (.owner t) = some s₁ ∧ ¬ s₁.FrameSafe := by
  refine ⟨(s.setLocked t false).setOwner t .out, ?_, ?_⟩
  · simp only [StackTimer.step, ownerStep, ho]
  · exact not_frameSafe (Function.update_self ..) hbehind

/-- An owner that overtakes the daemon can return before the daemon goes on. -/
theorem overtaken (h : Inv s) (hok : ¬ NotOvertaken s (.owner t)) (hs : step s (.owner t) = some s') :
    ∃ ls s₁, run StackTimer.step s' ls = some s₁ ∧ ¬ s₁.FrameSafe := by
  obtain ⟨ho, hbehind⟩ : (s.owner t = .recv ∨ s.owner t = .ready) ∧ s.daemon.Behind t := by
    simpa [NotOvertaken] using hok
  have hat := h.owner t
  simp only [StackTimer.step] at hs
  rcases ho with ho | ho
  · -- the item is in the buffer
    simp only [ownerStep, ho] at hs
    rw [ho] at hat
    have hnbuf : s.nbuf t = 1 := (hat.resolve_left fun hl => hl.1.2 hbehind.after).2
    split at hs
    · cases hs
      have hleave : ownerStep ((s.setLocked t true).setOwner t .receiving) t =
          some ((((s.setLocked t true).setOwner t .receiving).setNbuf t 0).setOwner t .leave) := by
        simp [ownerStep, State.setOwner, State.setLocked, hnbuf]
      obtain ⟨s₁, hs₁, hsafe⟩ := leave_returns (t := t)
        (s := (((s.setLocked t true).setOwner t .receiving).setNbuf t 0).setOwner t .leave)
        (Function.update_self ..) hbehind
      refine ⟨[.owner t, .owner t], s₁, ?_, hsafe⟩
      rw [run, StackTimer.step, hleave, Option.bind_some, run, hs₁]
      rfl
    · cases hs
  · simp only [ownerStep, ho] at hs
    split at hs
    · cases hs
      obtain ⟨s₁, hs₁, hsafe⟩ := leave_returns (t := t) (s := (s.setLocked t true).setOwner t .leave)
        (Function.update_self ..) hbehind
      refine ⟨[.owner t], s₁, ?_, hsafe⟩
      rw [run, hs₁]
      rfl
    · cases hs

end

def emptyFrames : State Nat :=
  { mgr := emptyManager, holder := .free, daemon := .out, owner := fun _ => .out,
    locked := fun _ => false, nbuf := fun _ => 0, clock := 1 }

theorem emptyFrames_init : Init emptyFrames := ⟨⟨rfl, rfl⟩, rfl, rfl, fun _ => Or.inl rfl⟩

/-- `coroc_udelay(10)`, up to the suspension of its caller, and the daemon's scan at the instant
    20 up to the release of the channel. -/
def delayed : List (Label Nat) :=
  [.call 0 10] ++ List.replicate 6 (.owner 0) ++ [.tick 20] ++ List.replicate 5 .daemon

/-- The daemon goes on and unlinks the timer before its owner is dispatched. -/
theorem frame_safe_inOrder : ∃ s : State Nat,
    s.owner 0 = .out ∧ s.daemon = .scan 20 ∧ s.mgr.size = 0 ∧ s.FrameSafe := by
  obtain ⟨s, hs, hP⟩ := Reach.exists_of_runOk StackTimer.step NotOvertaken Init emptyFrames_init
    (delayed ++ [.daemon, .daemon, .owner 0, .owner 0])
    (fun s => s.owner 0 == .out && s.daemon == .scan 20 && s.mgr.size == 0) (by decide +kernel)
  simp only [Bool.and_eq_true, beq_iff_eq] at hP
  exact ⟨s, hP.1.1, hP.1.2, hP.2, frame_safe hs⟩

/-- The owner is dispatched on another VPU and is back before the daemon reads `t->period`: the
    array still has the dead timer. -/
theorem frame_not_safe :
    ¬ ∀ s : State Nat, Reach StackTimer.step (fun _ _ => True) Init s → s.FrameSafe := by
  intro hall
  obtain ⟨s, hs, hP⟩ := Reach.exists_of_run StackTimer.step Init emptyFrames_init
    (delayed ++ [.owner 0, .owner 0])
    (fun s => s.owner 0 == .out && s.daemon == .period 0 20 && s.mgr.size == 1 && s.mgr.timers 0 == 0)
    (by decide +kernel)
  simp only [Bool.and_eq_true, beq_iff_eq] at hP
  obtain ⟨⟨⟨hout, -⟩, hsize⟩, hroot⟩ := hP
  exact (hall s hs 0 hout).1 0 (by omega) hroot

end Coroc.StackTimer
