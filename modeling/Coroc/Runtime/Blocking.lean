import Coroc.Runtime.Waiters
import Coroc.Runtime.Waits

/-!
# A coroutine waits only when it has to

A sender waits while there is no room and no receiver, a receiver while there is nothing to
receive.  Two paths of the source break this.  `__coroc_chan_recv` takes an item out of the
buffer and leaves the first of `send_que` where it is, although there is a free slot now; and a
select that finds a channel closed queues its quantum there all the same, room or not.

`waits_when_needed` is about the runs in which neither happens; `waits_with_room` is a run of
the first kind.
-/

namespace Coroc.Runtime

open Coroc.Program Coroc.Transition

variable {s s' : State} {t : Tid} {k : Coid} {c : ChanId} {q : Quantum}

/-- A waiting sender means no waiting receiver and no free slot, a waiting receiver an empty
    buffer. -/
structure State.Needed (s : State) (c : ChanId) : Prop where
  receivers : ∀ q ∈ (s.chans c).que .send, s.Unclaimed q → ∀ q' ∈ (s.chans c).que .recv,
    ¬ s.Unclaimed q'
  full : ∀ q ∈ (s.chans c).que .send, s.Unclaimed q → (s.chans c).buffer.full = true
  empty : ∀ q ∈ (s.chans c).que .recv, s.Unclaimed q → (s.chans c).buffer.contents = []

/-- A receive that makes room in the buffer while a sender waits, or a sender that is queued
    although there is room. -/
def strands (s : State) : Cmd → Bool
  | .chan (.copyFromBuff c) => !(s.chans c).buffer.contents.isEmpty &&
      ((s.chans c).que .send).any fun q => decide (s.Unclaimed q)
  | .chan (.queueAdd q _) => q.dir == .send && !(s.chans q.chan).buffer.full
  | _ => false

def NotStranded (_ : Tid) (cmd : Cmd) (s : State) : Prop := strands s cmd = false

instance (t : Tid) (cmd : Cmd) (s : State) : Decidable (NotStranded t cmd s) :=
  inferInstanceAs (Decidable (_ = _))

/-- The same of all the waiters, with the quantum at hand. -/
structure Needed (s : State) : Prop where
  receivers : ∀ c q q', s.Waiter c .send q → ¬ s.Waiter c .recv q'
  full : ∀ c q, s.Waiter c .send q → (s.chans c).buffer.full = true

/-- No waiter is added, and the buffers of the channels where senders wait are as before. -/
theorem Needed.fewer (h : Needed s) (hwait : ∀ c dir q, s'.Waiter c dir q → s.Waiter c dir q)
    (hbuf : ∀ c q, s.Waiter c .send q → (s'.chans c).buffer = (s.chans c).buffer) : Needed s' := by
  constructor
  · intro c q q' hq hq'
    exact h.receivers c q q' (hwait c .send q hq) (hwait c .recv q' hq')
  · intro c q hq
    have hwaiter := hwait c .send q hq
    rw [hbuf c q hwaiter]
    exact h.full c q hwaiter

theorem Needed.calm (h : Needed s) (hi : Inv s) (hcalm : Calm s s')
    (hbuf : ∀ c, (s'.chans c).buffer = (s.chans c).buffer) : Needed s' :=
  h.fewer (fun _ _ _ hq => hcalm.waiter hi hq) fun c _ _ => hbuf c

/-- The buffer of one channel changes, and no sender waits there. -/
theorem Needed.setBuffer {g : Chan → Chan} (h : Needed s) (hi : Inv s) (hcalm : Calm s s')
    (hchans : s'.chans = (s.setChan c g).chans) (hno : ∀ q, ¬ s.Waiter c .send q) : Needed s' := by
  refine h.fewer (fun _ _ _ hq => hcalm.waiter hi hq) fun c' q hq => ?_
  have hc : c' ≠ c := by
    rintro rfl
    exact hno q hq
  rw [hchans, State.setChan_chans_ne _ _ hc]

theorem no_waiter {dir : Dir} (hhand : (s.chans c).inhand = none) (hque : (s.chans c).que dir = [])
    (q : Quantum) : ¬ s.Waiter c dir q := by
  rintro ⟨hheld, -⟩
  rw [Chan.held_of_hand_none hhand, hque] at hheld
  cases hheld

theorem Needed.enqueue {x : Item} (h : Needed s) (hi : Inv s) (ha : AllowedChan t s (.queueAdd q x))
    (hok : strands s (.chan (.queueAdd q x)) = false) : Needed (s.enqueue q x) := by
  have hbuf : ∀ c, ((s.enqueue q x).chans c).buffer = (s.chans c).buffer :=
    s.setChan_proj Chan.buffer fun _ => rfl
  have hwaiter : ∀ {c dir q'}, (s.enqueue q x).Waiter c dir q' →
      s.Waiter c dir q' ∨ (q' = q ∧ c = q.chan ∧ dir = q.dir) := enqueue_waiter hi ha
  obtain ⟨k, -, -, -, -, -, hhand, -, -, -, hdir⟩ := ha
  constructor
  · intro c q₁ q₂ hsend hrecv
    rcases hwaiter hsend with hold | ⟨rfl, rfl, hd⟩
    · rcases hwaiter hrecv with hold' | ⟨rfl, rfl, hd⟩
      · exact h.receivers c q₁ q₂ hold hold'
      · rw [← hd] at hdir
        exact no_waiter hhand hdir.1 q₁ hold
    · rw [← hd] at hdir
      rcases hwaiter hrecv with hold' | ⟨rfl, -, hd'⟩
      · exact no_waiter hhand hdir.1 q₂ hold'
      · exact nomatch hd.trans hd'.symm
  · intro c q₁ hsend
    rw [hbuf]
    rcases hwaiter hsend with hsend | ⟨rfl, rfl, hd⟩
    · exact h.full c q₁ hsend
    · simpa [strands, ← hd] using hok

theorem Needed.exec {c : Cmd} {r : c.Res} (h : Needed s) (hi : Inv s) (ha : Allowed t c s)
    (hok : NotStranded t c s) (he : exec t c s = some (r, s')) : Needed s' := by
  have hcalm := exec_calm hi ha he
  have heff := exec_effect he
  cases c with
  | chan c =>
    cases c with
    | queueAdd q x =>
      obtain rfl := hcalm
      exact h.enqueue hi ha hok
    | setClose c =>
      obtain rfl := hcalm
      exact h.fewer (fun _ _ _ hq => setChan_waiter (g := Chan.startClose) (fun _ => rfl) hq)
        fun c' _ _ => (heff.chan c').buffer
    | readIsref c =>
      obtain rfl := hcalm
      exact h.fewer (fun _ _ _ hq => setChan_waiter (g := Chan.endClose) (fun _ => rfl) hq)
        fun c' _ _ => (heff.chan c').buffer
    | cleanBuff c =>
      obtain rfl := heff
      obtain ⟨k, -, hin, hque, -⟩ := ha
      exact h.setBuffer hi hcalm rfl (no_waiter hin.hand (hque .send))
    | copyToBuff c x =>
      rcases heff with rfl | ⟨k, b, -, hb, rfl⟩
      · exact h
      · refine h.setBuffer hi hcalm rfl fun q hq => ?_
        have hfull := Buffer.copyToBuff_eq_none (x := x).mpr (h.full c q hq)
        exact nomatch hb.symm.trans hfull
    | copyFromBuff c =>
      rcases heff with rfl | ⟨k, x, b, -, hb, rfl⟩
      · exact h
      · obtain ⟨k', -, -, hin⟩ := ha
        refine h.setBuffer hi hcalm rfl fun q hq => ?_
        have hmem : q ∈ (s.chans c).que .send := Chan.held_of_hand_none hin.hand .send ▸ hq.held
        have hun := (hi.unclaimed_iff hq.held).mpr hq.idle
        have hne := Buffer.copyFromBuff_contents hb
        have hstrands : strands s (.chan (.copyFromBuff c)) = true := by
          simp only [strands, hne, List.isEmpty_cons, Bool.not_false, Bool.true_and, List.any_eq_true,
            decide_eq_true_eq]
          exact ⟨q, hmem, hun⟩
        exact nomatch hstrands.symm.trans hok
    | copyTo q x | copyFrom q =>
      obtain ⟨k, -, rfl⟩ := heff
      exact h.calm hi hcalm (s.setChan_proj Chan.buffer fun _ => rfl)
    | record e =>
      obtain ⟨k, -, rfl⟩ := heff
      exact h.calm hi hcalm fun _ => rfl
    | _ => exact h.calm hi hcalm fun c => (heff.chan c).buffer
  | co c =>
    cases c with
    | suspend ls =>
      obtain ⟨k, -, rfl⟩ := heff
      exact h.calm hi hcalm fun _ => rfl
    | ready d =>
      obtain ⟨-, rfl⟩ := heff
      exact h.calm hi hcalm fun _ => rfl
    | allocate priority role =>
      obtain rfl := heff
      exact h.calm hi hcalm fun _ => rfl
    | _ => exact h.calm hi hcalm fun c => (heff.chan c).buffer
  | _ => exact h.calm hi hcalm fun c => (heff.chan c).buffer

theorem Needed.congr (h : Needed s) (hcos : s'.cos = s.cos) (hchans : s'.chans = s.chans) : Needed s' := by
  refine h.fewer (fun c dir q hq => ?_) fun c _ _ => by rw [hchans]
  obtain ⟨hheld, hidle⟩ := hq
  rw [hchans] at hheld
  rw [hcos] at hidle
  exact ⟨hheld, hidle⟩

theorem Start.needed {c : Config} (h : Start c) : Needed c.shared := by
  have hno : ∀ n dir q, ¬ c.shared.Waiter n dir q := fun n dir q hq => by
    have hheld := hq.held
    rw [h.held n dir] at hheld
    cases hheld
  exact ⟨fun n q _ hq => absurd hq (hno n .send q), fun n q hq => absurd hq (hno n .send q)⟩

/-- **A coroutine waits at a channel only when it has to**, in every run in which no receive makes
    room past a waiting sender and no sender is queued where there is room. -/
theorem waits_when_needed {c : Config} (h : Reach machine.step (stepOk NotStranded okCall) Start c)
    (n : ChanId) : c.shared.Needed n := by
  obtain ⟨hgood, hneeded⟩ := Rules.invariant calls_sound (fun _ hs => hs.good) (fun _ _ _ _ => trivial)
    (J := Needed) (fun _ hs => hs.needed) (fun _ _ _ _ _ hi hn ha hok he => hn.exec hi ha hok he)
    (fun _ _ _ _ _ hn he => hn.congr (enter_spared he).cos (enter_spared he).chans)
    (fun _ _ _ _ hn he => hn.congr (env_same he).1 (env_same he).2.1) h
  have hi : Inv c.shared := hgood.1
  constructor
  · intro q hq hun q' hq' hun'
    exact hneeded.receivers n q q' (hi.waiter hq hun) (hi.waiter hq' hun')
  · intro q hq hun
    exact hneeded.full n q (hi.waiter hq hun)
  · intro q hq hun
    have hwaiter := hi.waiter hq hun
    exact (hi.chan n).empty q hwaiter.held hwaiter.idle

/-- The channel 1 has two slots: two items are sent, and a third sender waits. -/
def thirdSender : List (Label Tid Call Env) :=
  [.env (.sched 0), .env (.sched 1), .call (.co 0) (.chanSend 1 7 true)] ++ steps (.co 0) 8 ++
  [.call (.co 0) (.chanSend 1 8 true)] ++ steps (.co 0) 8 ++
  [.call (.co 1) (.chanSend 1 9 true)] ++ steps (.co 1) 8 ++
  [.env (.coreWait 1), .env (.unlock 1 (.chan 1))]

/-- It waits with reason. -/
theorem waits_when_needed_thirdSender : ∃ c : Config,
    (c.shared.chans 1).que .send = [⟨1, 1, false, .send, 0⟩] ∧ c.shared.Needed 1 := by
  obtain ⟨c, hc, hP⟩ := Reach.exists_of_runOk machine.step (stepOk NotStranded okCall) Start
    (initial_start 2 someBuffers someBuffers_empty) thirdSender
    (fun c => decide ((c.shared.chans 1).que .send = [⟨1, 1, false, .send, 0⟩])) (by decide +kernel)
  exact ⟨c, of_decide_eq_true hP, waits_when_needed hc 1⟩

/-- A receive takes an item out of the buffer, and the sender goes on waiting. -/
theorem waits_with_room : ¬ ∀ c : Config, Reachable c →
    ∀ n, c.shared.locks (.chan n) = none → c.shared.Needed n := by
  intro hall
  obtain ⟨c, hc, hP⟩ := Reachable.of_run 2 someBuffers someBuffers_empty
    (thirdSender ++ [.call (.co 0) (.chanRecv 1 0 true)] ++ steps (.co 0) 4)
    (fun c => decide (c.shared.locks (.chan 1) = none) &&
      decide ((c.shared.chans 1).que .send = [⟨1, 1, false, .send, 0⟩]) &&
      !(c.shared.chans 1).buffer.full) (by decide +kernel)
  simp only [Bool.and_eq_true, decide_eq_true_eq, Bool.not_eq_true'] at hP
  obtain ⟨⟨hfree, hque⟩, hroom⟩ := hP
  have hfull := (hall c hc 1 hfree).full ⟨1, 1, false, .send, 0⟩ (by rw [hque]; exact List.mem_singleton_self _)
    (.inl rfl)
  exact nomatch hroom.symm.trans hfull

end Coroc.Runtime
