import Coroc.TimerDaemon
import Coroc.TimerScan

/-!
# Delays (`src/time.c`: `coroc_timer_after`, `coroc_timer_start`, `coroc_intertimer_routine`)

`coroc_timer_after` adds the delay to a reading of the clock; `coroc_timer_start` sends at once
if that is not later than a second reading, and else gives the timer to the daemon of
`Coroc.TimerDaemon`.  To the daemon's state this adds the callers, for each timer the instant
it was asked for, not wrapped, and a log of what was sent and when.

Both the deadline and the daemon's sleep are computed with 64-bit arithmetic that may wrap.
`never_cut_short` is about the runs in which it does not; `after_overflow` says that a deadline
that wraps is always sent early.
-/

namespace Coroc.TimerDelay

open Coroc.Transition Coroc.TimerHeap Coroc.TimerDaemon

/-- Where the owner of a timer is. -/
inductive Call where
  | idle
  | start        -- at `coroc_timer_start`, `when` is set
  | add          -- in `coroc_add_intertimer`, before the insertion
deriving DecidableEq, Repr

/-- A send on a timer's channel: when it happened, and when it was asked for. -/
structure Sent (τ : Type) where
  timer : τ
  time : Nat
  due : Nat
deriving DecidableEq, Repr

structure State (τ : Type) where
  daemon : TimerDaemon.State τ
  call : τ → Call
  due : τ → Nat
  sent : List (Sent τ)

inductive Label (τ : Type) where
  | after (t : τ) (after : UInt64) (p : UInt32)     -- `coroc_timer_after`
  | at_ (t : τ) (w : UInt64) (p : UInt32)           -- `coroc_timer_at`
  | start (t : τ)                                   -- `coroc_timer_start`
  | run (l : TimerDaemon.Label τ)                   -- the manager, the daemon and the clock
deriving DecidableEq, Repr

variable {τ : Type} [DecidableEq τ]

/-- `t->timer.when = when`, with the instant that is meant. -/
def setWhen (s : State τ) (t : τ) (w : UInt64) (p : UInt32) (due : Nat) : Option (State τ) :=
  if s.call t = .idle then
    (TimerDaemon.step s.daemon (.setup t w p)).map fun d =>
      { s with daemon := d, call := Function.update s.call t .start, due := Function.update s.due t due }
  else none

/-- `coroc_send_timer`, at the present reading of the clock. -/
def State.send (s : State τ) (t : τ) : State τ :=
  { s with sent := s.sent ++ [⟨t, s.daemon.clock / 1000, s.due t⟩] }

/-- The timer whose callback the next step of the daemon calls. -/
def firing (d : TimerDaemon.State τ) : Option τ :=
  match d.phase with
  | .scanning now => if d.mgr.size > 0 ∧ d.mgr.whenAt 0 ≤ now then some (d.mgr.timers 0) else none
  | _ => none

def step (s : State τ) : Label τ → Option (State τ)
  | .after t after p =>
      let curr := s.daemon.getmicrotime
      setWhen s t (curr + after) p (curr.toNat + after.toNat)
  | .at_ t w p => setWhen s t w p w.toNat
  | .start t =>
      if s.call t = .start then
        if (s.daemon.mgr.obj t).when ≤ s.daemon.getmicrotime then
          some { s.send t with call := Function.update s.call t .idle }
        else some { s with call := Function.update s.call t .add }
      else none
  | .run l =>
      match l with
      | .setup .. => none
      | .addLock t =>
          if s.call t = .add then
            (TimerDaemon.step s.daemon (.addLock t)).map fun d => { s with daemon := d }
          else none
      | .insert =>
          match s.daemon.holder with
          | .adder t =>
              (TimerDaemon.step s.daemon .insert).map fun d =>
                { s with daemon := d, call := Function.update s.call t .idle }
          | _ => none
      | .daemon =>
          (TimerDaemon.step s.daemon .daemon).map fun d =>
            match firing s.daemon with
            | some t => { s.send t with daemon := d }
            | none => { s with daemon := d }
      | l => (TimerDaemon.step s.daemon l).map fun d => { s with daemon := d }

def Init (s : State τ) : Prop :=
  TimerDaemon.Init s.daemon ∧ (∀ t, s.call t = .idle) ∧ (∀ t, s.due t = 0) ∧ s.sent = []

/-! ### The property and the condition -/

/-- Nothing was sent before it was asked for, and the daemon never asks for a sleep that is
    not positive. -/
def State.NeverShort (s : State τ) : Prop :=
  (∀ e ∈ s.sent, e.due ≤ e.time) ∧ ∀ left, s.daemon.phase = .submitting left → 0 < left

/-- The largest number of microseconds whose nanoseconds fit an `int64_t`. -/
def maxWait : Nat := 9223372036854775

/-- The condition on the steps of a run: deadlines do not wrap, and the daemon goes to sleep
    for a time whose nanoseconds fit. -/
def Exact (s : State τ) : Label τ → Prop
  | .after _ after _ => s.daemon.getmicrotime.toNat + after.toNat < 2 ^ 64
  | .run .daemon =>
      match s.daemon.phase with
      | .scanning now => s.daemon.mgr.size > 0 → (s.daemon.mgr.whenAt 0).toNat ≤ now.toNat + maxWait
      | _ => True
  | _ => True

/-! ### What a step does -/

/-- Labels of the manager and the clock. -/
def passive : TimerDaemon.Label τ → Bool
  | .setup .. | .daemon => false
  | _ => true

/-- A step of the manager's callers or of the clock. -/
structure Passed (d d' : TimerDaemon.State τ) : Prop where
  mgr : d'.mgr = d.mgr ∨ (∃ t, d.mgr.Unregistered t ∧ d'.mgr = addIntertimer d.mgr t) ∨
    ∃ t, d'.mgr = (delIntertimer d.mgr t).2
  phase : d'.phase = d.phase ∨ d'.phase = .rescan
  later : d.clock ≤ d'.clock
  clock : d.clock < 2 ^ 63 → d'.clock < 2 ^ 63

theorem passed_of_step {d d' : TimerDaemon.State τ} {l : TimerDaemon.Label τ} (hl : passive l = true)
    (h : TimerDaemon.step d l = some d') : Passed d d' := by
  cases l with
  | setup t w p => cases hl
  | daemon => cases hl
  | addLock t =>
    simp only [TimerDaemon.step] at h
    split at h
    · cases h
      exact ⟨.inl rfl, .inl rfl, le_refl _, id⟩
    · cases h
  | insert =>
    simp only [TimerDaemon.step] at h
    split at h
    · next t hholder =>
      obtain ⟨m, hm, rfl⟩ := Option.map_eq_some_iff.mp h
      simp only [TimerHeap.step] at hm
      split at hm
      · next hun =>
        cases hm
        exact ⟨.inr (.inl ⟨t, hun, rfl⟩), .inl rfl, le_refl _, id⟩
      · cases hm
    · cases h
  | decide =>
    simp only [TimerDaemon.step] at h
    split at h
    · split at h
      · cases h
        exact ⟨.inl rfl, .inr rfl, le_refl _, id⟩
      · split at h
        · split at h
          · cases h
            exact ⟨.inl rfl, .inl rfl, le_refl _, id⟩
          · cases h
            exact ⟨.inl rfl, .inl rfl, le_refl _, id⟩
        · cases h
          exact ⟨.inl rfl, .inl rfl, le_refl _, id⟩
    · cases h
  | notify =>
    simp only [TimerDaemon.step] at h
    split at h
    · cases h
      exact ⟨.inl rfl, .inl rfl, le_refl _, id⟩
    · cases h
  | release =>
    simp only [TimerDaemon.step] at h
    split at h
    · cases h
      exact ⟨.inl rfl, .inl rfl, le_refl _, id⟩
    · cases h
  | ready =>
    simp only [TimerDaemon.step] at h
    split at h
    · cases h
      exact ⟨.inl rfl, .inr rfl, le_refl _, id⟩
    · cases h
  | delLock t =>
    simp only [TimerDaemon.step] at h
    split at h
    · cases h
      exact ⟨.inl rfl, .inl rfl, le_refl _, id⟩
    · cases h
  | delete =>
    simp only [TimerDaemon.step] at h
    split at h
    · next t hholder =>
      cases h
      exact ⟨.inr (.inr ⟨t, rfl⟩), .inl rfl, le_refl _, id⟩
    · cases h
  | tick dt =>
    simp only [TimerDaemon.step] at h
    split at h
    · next hlt =>
      cases h
      exact ⟨.inl rfl, .inl rfl, Nat.le_add_right _ _, fun _ => hlt⟩
    · cases h

/-- A step of the daemon: it fires the root, or goes on with the heap as it is. -/
inductive Daemon (d d' : TimerDaemon.State τ) : Prop
  | fires {now : UInt64} (hphase : d.phase = .scanning now) (hsize : d.mgr.size > 0)
      (hdue : d.mgr.whenAt 0 ≤ now) (hd : d' = { d with mgr := fireRoot d.mgr now })
  | goes (hnone : firing d = none) (hmgr : d'.mgr = d.mgr) (hclock : d'.clock = d.clock)
      (hnow : ∀ now, d'.phase = .scanning now → now = d.getmicrotime)
      (hleft : ∀ left, d'.phase = .submitting left → ∃ now, d.phase = .scanning now ∧
        d.mgr.size > 0 ∧ now < d.mgr.whenAt 0 ∧ left = leftOf (d.mgr.whenAt 0) now)

/-- Outside a scan the daemon neither fires nor computes a sleep. -/
theorem Daemon.quiet {d d' : TimerDaemon.State τ} (hphase : ∀ now, d.phase ≠ .scanning now)
    (hmgr : d'.mgr = d.mgr) (hclock : d'.clock = d.clock)
    (hnow : ∀ now, d'.phase = .scanning now → now = d.getmicrotime)
    (hleft : ∀ left, d'.phase ≠ .submitting left) : Daemon d d' := by
  refine .goes ?_ hmgr hclock hnow fun left h => absurd h (hleft left)
  unfold firing
  split
  · next now h => exact absurd h (hphase now)
  · rfl

theorem daemon_of_step {d d' : TimerDaemon.State τ} (h : TimerDaemon.step d .daemon = some d') :
    Daemon d d' := by
  simp only [TimerDaemon.step, daemonStep] at h
  cases hphase : d.phase <;> simp only [hphase] at h
  case scanning now =>
    split at h
    · next hsize =>
      split at h
      · next hdue =>
        cases h
        exact .fires hphase hsize hdue (by rw [hphase])
      · next hlate =>
        cases h
        have hlt : now < d.mgr.whenAt 0 := UInt64.not_le.mp hlate
        refine .goes (by simp [firing, hphase, hlate]) rfl rfl (fun _ h => by cases h) fun left h => ?_
        cases h
        exact ⟨now, hphase, hsize, hlt, rfl⟩
    · next hsize =>
      cases h
      exact .goes (by simp [firing, hphase, hsize]) rfl rfl (fun _ h => by cases h) fun _ h => by cases h
  case rescan =>
    split at h
    · cases h
      refine .quiet (fun _ h => by cases hphase.symm.trans h) rfl rfl (fun now h => ?_) fun _ h => by cases h
      cases h
      rfl
    · cases h
  all_goals
    -- the way through the sleep
    repeat' split at h
    all_goals cases h
    all_goals
      exact .quiet (fun _ h => by cases hphase.symm.trans h) rfl rfl (fun _ h => by cases h)
        fun _ h => by cases h

/-! ### The invariant -/

structure Inv (s : State τ) : Prop where
  indexed : s.daemon.mgr.Indexed s.daemon.mgr.size
  clock : s.daemon.clock < 2 ^ 63
  due : ∀ t, s.due t ≤ (s.daemon.mgr.obj t).when.toNat
  now : ∀ now, s.daemon.phase = .scanning now → now.toNat ≤ s.daemon.clock / 1000
  short : s.NeverShort

section
variable {s s' : State τ} {t : τ}

omit [DecidableEq τ] in
theorem inv_init (h : Init s) : Inv s := by
  obtain ⟨⟨hmgr, -, -, hphase, -, -, hclock⟩, -, hdue, hsent⟩ := h
  refine ⟨?_, hclock, ?_, ?_, ?_, ?_⟩
  · intro j hj
    rw [hmgr.1] at hj
    exact absurd hj (Nat.not_lt_zero j)
  · intro t
    rw [hdue]
    exact Nat.zero_le _
  · intro now h
    exact nomatch hphase.symm.trans h
  · intro e he
    rw [hsent] at he
    exact nomatch he
  · intro left h
    exact nomatch hphase.symm.trans h

/-- Setting a deadline that is not earlier than the instant that is meant. -/
theorem Inv.setWhen (h : Inv s) {w : UInt64} {p : UInt32} {due : Nat} (hdue : due ≤ w.toNat)
    (hs : setWhen s t w p due = some s') : Inv s' := by
  unfold TimerDelay.setWhen at hs
  split at hs
  · obtain ⟨d, hd, rfl⟩ := Option.map_eq_some_iff.mp hs
    simp only [TimerDaemon.step] at hd
    obtain ⟨m, hm, rfl⟩ := Option.map_eq_some_iff.mp hd
    simp only [TimerHeap.step] at hm
    split at hm
    · next hun =>
      cases hm
      refine ⟨?_, h.clock, ?_, h.now, h.short⟩
      · intro j hj
        dsimp only at hj ⊢
        rw [setup_obj hun w p hj]
        exact h.indexed j hj
      · intro u
        by_cases hu : u = t
        · subst hu
          simpa using hdue
        · simpa [Function.update_of_ne hu] using h.due u
    · cases hm
  · cases hs

/-- A step of the manager's callers or of the clock. -/
theorem Inv.passed (h : Inv s) {d : TimerDaemon.State τ} (hp : Passed s.daemon d) {call : τ → Call} :
    Inv { s with daemon := d, call := call } := by
  have hwhen : ∀ u, (d.mgr.obj u).when = (s.daemon.mgr.obj u).when := by
    intro u
    rcases hp.mgr with hm | ⟨t, -, hm⟩ | ⟨t, hm⟩
    · rw [hm]
    · rw [hm]
      exact (addIntertimer_kept _ t u).1
    · rw [hm]
      exact (delIntertimer_kept _ t u).1
  refine ⟨?_, hp.clock h.clock, ?_, ?_, h.short.1, ?_⟩
  · dsimp only
    rcases hp.mgr with hm | ⟨t, hun, hm⟩ | ⟨t, hm⟩
    · rw [hm]
      exact h.indexed
    · rw [hm]
      exact addIntertimer_indexed h.indexed hun
    · rw [hm]
      exact delIntertimer_indexed h.indexed t
  · intro u
    dsimp only
    rw [hwhen]
    exact h.due u
  · intro now hnow
    dsimp only at hnow ⊢
    rcases hp.phase with hphase | hphase
    · have hle := h.now now (hphase ▸ hnow)
      have hmono := Nat.div_le_div_right (c := 1000) hp.later
      omega
    · exact nomatch hphase.symm.trans hnow
  · intro left hleft
    dsimp only at hleft
    rcases hp.phase with hphase | hphase
    · exact h.short.2 left (hphase ▸ hleft)
    · exact nomatch hphase.symm.trans hleft

/-- The product does not wrap, and fits a signed variable. -/
theorem leftOf_pos {w now : UInt64} (h : now < w) (hle : w.toNat ≤ now.toNat + maxWait) :
    0 < leftOf w now := by
  have hlt := UInt64.lt_iff_toNat_lt.mp h
  have hsub : (w - now).toNat = w.toNat - now.toNat :=
    UInt64.toNat_sub_of_le _ _ (UInt64.le_iff_toNat_le.mpr (Nat.le_of_lt hlt))
  unfold maxWait at hle
  have hmul : (1000 * (w - now)).toNat = 1000 * (w.toNat - now.toNat) := by
    rw [UInt64.toNat_mul, hsub, Nat.mod_eq_of_lt]
    · rfl
    · have hnum : (1000 : UInt64).toNat = 1000 := rfl
      rw [hnum]
      omega
  rw [leftOf, BitVec.toInt_eq_toNat_cond]
  have hbits : (1000 * (w - now)).toBitVec.toNat = 1000 * (w.toNat - now.toNat) := hmul
  rw [hbits, if_pos (by omega)]
  omega

/-- The next deadline of a periodic timer is not earlier than the last one. -/
theorem le_add_period {now : UInt64} {p : UInt32} (h : now.toNat < 2 ^ 63) :
    now.toNat ≤ (now + p.toUInt64).toNat := by
  have hp : p.toUInt64.toNat < 2 ^ 32 := by
    rw [UInt32.toNat_toUInt64]
    exact p.toNat_lt
  rw [UInt64.toNat_add, Nat.mod_eq_of_lt (by omega)]
  exact Nat.le_add_right _ _

theorem Inv.fires (h : Inv s) {now : UInt64} (hphase : s.daemon.phase = .scanning now)
    (hsize : s.daemon.mgr.size > 0) (hdue : s.daemon.mgr.whenAt 0 ≤ now) :
    Inv { s.send (s.daemon.mgr.timers 0) with
      daemon := { s.daemon with mgr := fireRoot s.daemon.mgr now } } := by
  have hfired := fireRoot_fired h.indexed hsize now
  have hnow := h.now now hphase
  have hroot : s.due (s.daemon.mgr.timers 0) ≤ now.toNat :=
    (h.due _).trans (UInt64.le_iff_toNat_le.mp hdue)
  refine ⟨fireRoot_indexed h.indexed hsize now, h.clock, ?_, h.now, ?_, h.short.2⟩
  · intro u
    change s.due u ≤ ((fireRoot s.daemon.mgr now).obj u).when.toNat
    by_cases hu : u = s.daemon.mgr.timers 0
    · subst hu
      by_cases hp : (s.daemon.mgr.obj (s.daemon.mgr.timers 0)).period = 0
      · rw [(hfired.oneShot hp).2]
        exact h.due _
      · rw [hfired.periodic hp]
        have hclock := h.clock
        exact hroot.trans (le_add_period (by omega))
    · rw [hfired.when u hu]
      exact h.due u
  · intro e he
    rcases List.mem_append.mp he with he | he
    · exact h.short.1 e he
    · rw [List.mem_singleton.mp he]
      exact hroot.trans hnow

theorem Inv.daemon (h : Inv s) {d : TimerDaemon.State τ} (hd : TimerDaemon.step s.daemon .daemon = some d)
    (hok : Exact s (.run .daemon)) :
    Inv (match firing s.daemon with
      | some t => { s.send t with daemon := d }
      | none => { s with daemon := d }) := by
  cases daemon_of_step hd with
  | @fires now hphase hsize hdue hd =>
    have hfiring : firing s.daemon = some (s.daemon.mgr.timers 0) := by
      simp only [firing, hphase, hsize, hdue, and_self, if_true]
    rw [hfiring, hd]
    exact h.fires hphase hsize hdue
  | goes hnone hmgr hclock hnow hleft =>
    rw [hnone]
    refine ⟨?_, ?_, ?_, ?_, h.short.1, ?_⟩
    · dsimp only
      rw [hmgr]
      exact h.indexed
    · exact hclock ▸ h.clock
    · intro t
      dsimp only
      rw [hmgr]
      exact h.due t
    · intro now hphase
      dsimp only
      rw [hnow now hphase, getmicrotime_toNat h.clock, hclock]
    · intro left hphase
      obtain ⟨now, hscan, hsize, hlt, rfl⟩ := hleft left hphase
      simp only [Exact, hscan] at hok
      exact leftOf_pos hlt (hok hsize)

omit [DecidableEq τ] in
theorem Inv.start (h : Inv s) (hdue : (s.daemon.mgr.obj t).when ≤ s.daemon.getmicrotime)
    (call : τ → Call) : Inv { s.send t with call := call } := by
  refine ⟨h.indexed, h.clock, h.due, h.now, ?_, h.short.2⟩
  intro e he
  rcases List.mem_append.mp he with he | he
  · exact h.short.1 e he
  · rw [List.mem_singleton.mp he]
    have hle := UInt64.le_iff_toNat_le.mp hdue
    rw [getmicrotime_toNat h.clock] at hle
    exact (h.due t).trans hle

theorem Inv.step {l : Label τ} (h : Inv s) (hok : Exact s l) (hs : step s l = some s') : Inv s' := by
  cases l with
  | after t after p =>
    refine h.setWhen ?_ hs
    rw [UInt64.toNat_add, Nat.mod_eq_of_lt hok]
  | at_ t w p => exact h.setWhen (le_refl _) hs
  | start t =>
    simp only [TimerDelay.step] at hs
    split at hs
    · split at hs
      · next hdue =>
        cases hs
        exact h.start hdue _
      · cases hs
        exact ⟨h.indexed, h.clock, h.due, h.now, h.short⟩
    · exact nomatch hs
  | run l =>
    have hpass : ∀ {d : TimerDaemon.State τ} {call : τ → Call}, passive l = true →
        TimerDaemon.step s.daemon l = some d → Inv { s with daemon := d, call := call } :=
      fun hl hd => h.passed (passed_of_step hl hd)
    cases l with
    | setup t w p => exact nomatch hs
    | daemon =>
      simp only [TimerDelay.step] at hs
      obtain ⟨d, hd, rfl⟩ := Option.map_eq_some_iff.mp hs
      exact h.daemon hd hok
    | addLock t =>
      simp only [TimerDelay.step] at hs
      split at hs
      · obtain ⟨d, hd, rfl⟩ := Option.map_eq_some_iff.mp hs
        exact hpass rfl hd
      · exact nomatch hs
    | insert =>
      simp only [TimerDelay.step] at hs
      split at hs
      · obtain ⟨d, hd, rfl⟩ := Option.map_eq_some_iff.mp hs
        exact hpass rfl hd
      · exact nomatch hs
    | _ =>
      simp only [TimerDelay.step] at hs
      obtain ⟨d, hd, rfl⟩ := Option.map_eq_some_iff.mp hs
      exact hpass rfl hd

/-- **A delay is never cut short**, in every run in which deadlines do not wrap and the daemon
    goes to sleep for a time whose nanoseconds fit. -/
theorem never_cut_short (h : Reach TimerDelay.step Exact Init s) : s.NeverShort :=
  (h.invariant (fun _ => inv_init) fun _ _ _ hi hok hs => hi.step hok hs).short

end

/-! ### Deadlines that wrap -/

section
variable {s : State τ} {t : τ} {after : UInt64}

omit [DecidableEq τ] in
/-- The wrapped deadline lies in the past. -/
theorem wrapped_le (h : 2 ^ 64 ≤ s.daemon.getmicrotime.toNat + after.toNat) :
    s.daemon.getmicrotime + after ≤ s.daemon.getmicrotime := by
  have hcurr := s.daemon.getmicrotime.toNat_lt
  have hafter := after.toNat_lt
  rw [UInt64.le_iff_toNat_le, UInt64.toNat_add]
  omega

/-- A delay whose deadline wraps is sent as soon as it is started, which is early. -/
theorem after_overflow {s₁ s₂ : State τ} {p : UInt32} (hclock : s.daemon.clock < 2 ^ 63)
    (h : 2 ^ 64 ≤ s.daemon.getmicrotime.toNat + after.toNat)
    (hafter : TimerDelay.step s (.after t after p) = some s₁)
    (hstart : TimerDelay.step s₁ (.start t) = some s₂) : ¬ s₂.NeverShort := by
  have hle := wrapped_le h
  have hnow := getmicrotime_toNat hclock
  simp only [TimerDelay.step, setWhen, TimerDaemon.step, TimerHeap.step] at hafter
  split at hafter
  · split at hafter
    · cases hafter
      simp only [TimerDelay.step, Function.update_self, if_true] at hstart
      rw [if_pos (by exact hle)] at hstart
      cases hstart
      intro hshort
      have hsent := hshort.1 ⟨t, s.daemon.clock / 1000, s.daemon.getmicrotime.toNat + after.toNat⟩
        (by simp [State.send])
      dsimp only at hsent
      omega
    · cases hafter
  · cases hafter

end

instance (s : State τ) (l : Label τ) : Decidable (Exact s l) := by
  unfold Exact
  split
  · infer_instance
  · split
    · infer_instance
    · infer_instance
  · infer_instance

def emptyDelay : State Nat := ⟨emptyState, fun _ => .idle, fun _ => 0, []⟩

theorem emptyDelay_init : Init emptyDelay := ⟨emptyState_init, fun _ => rfl, fun _ => rfl, rfl⟩

/-- `coroc_udelay(us)` at the instant 1, up to the computation of the daemon's sleep. -/
def udelay (us : UInt64) : List (Label Nat) :=
  [.run (.tick 1000), .after 0 us 0, .start 0, .run (.addLock 0), .run .insert, .run .decide,
    .run .release, .run .daemon, .run .daemon]

/-- A delay of 10 microseconds: the daemon sleeps as long, scans again and sends. -/
theorem never_cut_short_ten : ∃ s : State Nat, s.sent = [⟨0, 11, 11⟩] ∧ s.NeverShort := by
  obtain ⟨s, hs, hP⟩ := Reach.exists_of_runOk TimerDelay.step Exact Init emptyDelay_init
    (udelay 10 ++ [.run .daemon, .run .daemon, .run (.tick 10000), .run .daemon, .run .daemon,
      .run .daemon, .run .daemon, .run .daemon])
    (fun s => s.sent == [⟨0, 11, 11⟩]) (by decide +kernel)
  exact ⟨s, beq_iff_eq.mp hP, never_cut_short hs⟩

/-- A delay of `2^64 - 1` is sent at the instant 1, and one of `2^63` makes the daemon ask for
    a sleep of no time at all. -/
theorem not_neverShort :
    (¬ ∀ s : State Nat, Reach TimerDelay.step (fun _ _ => True) Init s → ∀ e ∈ s.sent, e.due ≤ e.time) ∧
    ¬ ∀ s : State Nat, Reach TimerDelay.step (fun _ _ => True) Init s →
      ∀ left, s.daemon.phase = .submitting left → 0 < left := by
  constructor
  · intro hall
    obtain ⟨s, hs, hP⟩ := Reach.exists_of_run TimerDelay.step Init emptyDelay_init
      [.run (.tick 1000), .after 0 (2 ^ 64 - 1) 0, .start 0]
      (fun s => s.sent == [⟨0, 1, 2 ^ 64⟩]) (by decide +kernel)
    have hle := hall s hs ⟨0, 1, 2 ^ 64⟩ (by rw [beq_iff_eq.mp hP]; exact List.mem_singleton.mpr rfl)
    exact absurd hle (by decide)
  · intro hall
    obtain ⟨s, hs, hP⟩ := Reach.exists_of_run TimerDelay.step Init emptyDelay_init
      (udelay (2 ^ 63)) (fun s => s.daemon.phase == .submitting 0) (by decide +kernel)
    exact absurd (hall s hs 0 (beq_iff_eq.mp hP)) (by decide)

end Coroc.TimerDelay
