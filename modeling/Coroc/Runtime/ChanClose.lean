import Coroc.Runtime.LateCalls

/-!
# `coroc_chan_close`

`close_once` is about every run in which a coroutine closes an open channel: whom it wakes and what
their calls return, what becomes of the items in the buffer, and what calls that come later find.

Two things are not as one might expect (`close_not_all`).  A select that waits at several channels
can be claimed through another one between the step that sets the mark and the one that comes to its
quantum; and a select that was begun before the close does not look at the mark when it queues its
quanta, so that a later receive may be given its item.
-/

namespace Coroc.Runtime

open Coroc.Program Coroc.Transition

variable {s₀ s : State} {d j k : Coid} {n : ChanId} {q : Quantum} {c₀ c₁ c : Config}

/-- In its call the closer makes nobody ready but the waiters it has found, it returns
    `CHAN_SUCCESS` when none is left unclaimed, and each of them has its fate. -/
structure Wakes (s₀ : State) (c : Config) (j : Coid) (n : ChanId) : Prop where
  readies : (c.shared.cos j).history = (s₀.cos j).history →
    ∀ d, (c.prog (.co j)).next = some (.co (.ready d)) → ∃ dir q, s₀.Waiter n dir q ∧ q.co = d
  returns : ∀ rec rest, (c.shared.cos j).history = (s₀.cos j).history ++ rec :: rest →
    rec.entry = .close n .success ∧ rec.xfers = [] ∧ (c.shared.chans n).draining = false
  fates : ∀ dir q, s₀.Waiter n dir q → ∃ a, Fate s₀ c.shared j n q a

/-- What has been taken out of the channel since `s₀` were the first of its items, each receiver
    has got its own, and nothing has been put in. -/
structure Delivers (s₀ s : State) (n : ChanId) : Prop where
  sent : (s.chans n).sent = (s₀.chans n).sent
  taken : ∃ l, (s.chans n).taken = (s₀.chans n).taken ++ l ∧
    l.map (fun p => p.2.2) ++ (s.chans n).buffer.contents = (s₀.chans n).buffer.contents ∧
    ∀ k, items .recv n (s.cos k).log = items .recv n (s₀.cos k).log ++ takenBy k l

/-- The receive of `k` that began in the state `s₀` is not suspended, and returns an item or that the
    channel is closed; then the buffer is empty. -/
inductive ReceivesLate (s₀ : State) (c : Config) (k : Coid) (n : ChanId) (block : Bool) : Prop
  | inCall : (c.shared.cos k).history = (s₀.cos k).history →
      (∀ ls, (c.prog (.co k)).next ≠ some (.co (.suspend ls))) → ReceivesLate s₀ c k n block
  | received (rec : Record) (rest : List Record) (y : Item) :
      (c.shared.cos k).history = (s₀.cos k).history ++ rec :: rest →
      rec.entry = .recv n block .success (some y) → rec.xfers = [⟨.recv, n, y⟩] → ReceivesLate s₀ c k n block
  | closed (rec : Record) (rest : List Record) :
      (c.shared.cos k).history = (s₀.cos k).history ++ rec :: rest →
      rec.entry = .recv n block .closed none → rec.xfers = [] → (c.shared.chans n).buffer.contents = [] →
      ReceivesLate s₀ c k n block

/-- The close of `k` that began in the state `s₀` takes the lock, reads the mark, and returns that the
    channel is closed. -/
inductive ClosesAgain (s₀ : State) (c : Config) (k : Coid) (n : ChanId) : Prop
  | inCall : (c.shared.cos k).history = (s₀.cos k).history →
      (∀ cmd, (c.prog (.co k)).next = some cmd → cmd = .lock (.acquire (.chan n)) ∨
        cmd = .chan (.readClose n) ∨ cmd = .lock (.release (.chan n)) ∨
        cmd = .chan (.record (.close n .closed))) → ClosesAgain s₀ c k n
  | returned (rec : Record) (rest : List Record) :
      (c.shared.cos k).history = (s₀.cos k).history ++ rec :: rest → rec.entry = .close n .closed →
      rec.xfers = [] → ClosesAgain s₀ c k n

/-! ### The parts -/

theorem ClosedAt.call {c' : Config} {op : Call} {t : Tid} (h : ClosedAt n c.shared)
    (hstep : machine.step c (.call t op) = some c') : ClosedAt n c'.shared := by
  have he : enter t op c.shared = some c'.shared := (Machine.step_call hstep).2.1
  obtain ⟨-, -, hchans, -, hcos⟩ := enter_spared he
  exact h.congr hcos hchans

/-- The items of the channel, from the step that sets the mark. -/
theorem Reachable.keeps (h : Reachable c₀) (hnext : (c₀.prog (.co j)).next = some (.chan (.setClose n)))
    (hstep : machine.step c₀ (.run (.co j)) = some c₁) (hplain : (c₀.shared.chans n).isref = false)
    (hc : QuietFrom n c₁ c) : ClosedAt n c.shared ∧ Keeps n c₀.shared c.shared := by
  obtain ⟨f, -, -, he, -⟩ := h.setClose hnext hstep
  have h₁ : Reachable c₁ := .next (.run (.co j)) h (fun _ _ => trivial) hstep
  obtain ⟨-, hs⟩ := exec_inv he
  have hself : c₁.shared.chans n = (c₀.shared.chans n).startClose := by
    have hs' : c₀.shared.setChan n Chan.startClose = c₁.shared := (Prod.mk.inj (Option.some.inj hs)).2
    rw [← hs', State.setChan_chans_self]
  have hdrain : (c₁.shared.chans n).draining = true := by rw [hself]; rfl
  have hclosed : ClosedAt n c₁.shared :=
    ⟨by rw [hself]; rfl, by rw [hself]; exact hplain, fun _ _ _ _ => hdrain, fun _ _ _ _ _ _ _ => hdrain⟩
  obtain ⟨hclosed', hsent, l, htaken, hitems⟩ := keeps_from h₁ hclosed hc
  rw [hself] at hsent htaken hitems
  exact ⟨hclosed', hsent, l, htaken, hitems⟩

theorem Closing.alone {auto : Tid → Stage} (h : Closing s₀ j n auto c.shared)
    (hprogs : ProgsFollow calls .idle auto c) (hret : c.prog (.co k) = .ret ())
    (hdrain : (c.shared.chans n).draining = true) : c.shared.locks (.chan n) ≠ some (.co k) := by
  obtain ⟨hlock, hstage, -⟩ := h.drains hdrain
  rw [hlock]
  rintro ⟨⟩
  have hidle := hprogs (.co j)
  rw [hret] at hidle
  exact nomatch hstage.symm.trans hidle

/-- Whom the closer wakes has been claimed by it. -/
theorem Closing.readies {auto : Tid → Stage} (h : Closing s₀ j n auto c.shared) (hr : Reachable c)
    (hhist : (c.shared.cos j).history = (s₀.cos j).history)
    (hnext : (c.prog (.co j)).next = some (.co (.ready d))) : ∃ dir q, s₀.Waiter n dir q ∧ q.co = d := by
  obtain ⟨site, o, hw⟩ := hr.good.next_allowed hnext trivial
  have hclaimed : c.shared.Claimed (.co j) d := ⟨_, hw, .inr ⟨o, rfl⟩⟩
  cases h.closer with
  | draining _ _ hdrain =>
    obtain ⟨_, q, hq, hco, -⟩ := (h.drains hdrain).mine d hclaimed
    exact ⟨_, q, hq, hco⟩
  | done _ _ _ hfree => exact absurd hclaimed (hfree d)
  | returned rec rest hnew =>
    rw [hhist] at hnew
    exact absurd (List.self_eq_append_right.mp hnew) (List.cons_ne_nil rec rest)

theorem Closing.returns {auto : Tid → Stage} (h : Closing s₀ j n auto s) {rec : Record} {rest : List Record}
    (hhist : (s.cos j).history = (s₀.cos j).history ++ rec :: rest) :
    rec.entry = .close n .success ∧ rec.xfers = [] ∧ (s.chans n).draining = false := by
  have hnew : (s.cos j).history ≠ (s₀.cos j).history := by
    intro hsame
    rw [hsame] at hhist
    exact absurd (List.self_eq_append_right.mp hhist) (List.cons_ne_nil rec rest)
  cases h.closer with
  | draining hsame => exact absurd hsame hnew
  | done hsame => exact absurd hsame hnew
  | returned rec' rest' hhist' hentry hxfers hdrain =>
    obtain ⟨rfl, rfl⟩ := List.cons.inj (List.append_cancel_left (hhist.symm.trans hhist'))
    exact ⟨hentry, hxfers, hdrain⟩

theorem Keeps.delivers (h : Keeps n s₀ s) (h₀ : Ledger s₀ n) (hl : Ledger s n) : Delivers s₀ s n := by
  obtain ⟨hsent, l, htaken, hitems⟩ := h
  refine ⟨hsent, l, htaken, hitems, fun k => ?_⟩
  rw [← hl.taken, htaken, takenBy_append, h₀.taken]

/-- The record of a call that has returned is in the history. -/
theorem Reachable.returned (h : Reachable c) {l rest : List Record} {rec : Record}
    (hh : (c.shared.cos k).history = l ++ rec :: rest) : rec.Ok := by
  refine h.recorded k rec ?_
  rw [hh]
  exact List.mem_append_right _ List.mem_cons_self

theorem receives_late {block : Bool} {a : LateStage} (h : Reachable c) (hat : a.At s₀ c.shared k n (some block))
    (hf : (c.prog (.co k)).Follows (late n (some block)) a fun a _ => a = .free) :
    ReceivesLate s₀ c k n block := by
  have hsuspend : a ≠ .free → ∀ ls, (c.prog (.co k)).next ≠ some (.co (.suspend ls)) := by
    intro hne ls hnext
    have hok : a.ok n (some block) (.co (.suspend ls)) := hf.ok_next hnext
    cases a with
    | free => exact hne rfl
    | _ => exact hok
  cases a with
  | entered => exact .inCall hat (hsuspend nofun)
  | got y | missed | shut => exact .inCall hat.1 (hsuspend nofun)
  | free =>
    obtain ⟨rec, rest, o, hh, hentry, hempty⟩ := hat
    have hrec := h.returned hh
    unfold Record.Ok at hrec
    rw [hentry] at hrec
    cases o with
    | some y => exact .received rec rest y hh hentry hrec.1
    | none => exact .closed rec rest hh hentry hrec.1 (hempty nofun rfl)

theorem closes_again {a : LateStage} (h : Reachable c) (hat : a.At s₀ c.shared k n none)
    (hf : (c.prog (.co k)).Follows (late n none) a fun a _ => a = .free) : ClosesAgain s₀ c k n := by
  have hcmds : a = .entered ∨ a = .shut → ∀ cmd, (c.prog (.co k)).next = some cmd →
      cmd = .lock (.acquire (.chan n)) ∨ cmd = .chan (.readClose n) ∨ cmd = .lock (.release (.chan n)) ∨
        cmd = .chan (.record (.close n .closed)) := by
    intro ha cmd hnext
    have hok : a.ok n none cmd := hf.ok_next hnext
    cases cmd with
    | lock cmd =>
      cases cmd with
      | acquire l =>
        obtain rfl : l = .chan n := by rcases ha with rfl | rfl <;> exact hok
        exact .inl rfl
      | release l =>
        obtain rfl : l = .chan n := by rcases ha with rfl | rfl <;> exact hok
        exact .inr (.inr (.inl rfl))
    | chan cmd =>
      cases cmd with
      | readClose c =>
        rcases ha with rfl | rfl
        · obtain ⟨-, rfl⟩ := hok
          exact .inr (.inl rfl)
        · exact hok.elim
      | record e =>
        rcases ha with rfl | rfl
        · exact hok.elim
        · obtain rfl : e = .close n .closed := hok
          exact .inr (.inr (.inr rfl))
      | copyFromBuff c =>
        rcases ha with rfl | rfl
        · exact absurd rfl hok.1
        · exact hok.elim
      | _ => rcases ha with rfl | rfl <;> exact hok.elim
    | _ => rcases ha with rfl | rfl <;> exact hok.elim
  cases a with
  | entered => exact .inCall hat (hcmds (.inl rfl))
  | shut => exact .inCall hat.1 (hcmds (.inr rfl))
  | got y => exact absurd rfl hat.2
  | missed => exact absurd rfl hat.2.1
  | free =>
    obtain ⟨rec, rest, o, hh, hentry, -⟩ := hat
    have hrec := h.returned hh
    unfold Record.Ok at hrec
    rw [hentry] at hrec
    exact .returned rec rest hh hentry hrec.2

/-! ### Every close -/

/-- **`coroc_chan_close` on an open channel**, from the step that sets the mark.  In every run the
    closer makes nobody ready but coroutines that had an unclaimed quantum in the queues when it
    began; when it returns all of them are claimed, each is made ready once, and it returns
    `CHAN_CLOSED` with nothing moved, a select with this channel, unless it is a select that was
    claimed through another channel before.  On a channel without references, while no quantum is queued on it, the items in
    the buffer come out in order, and a receive that begins later is not suspended and returns one
    of them, or `CHAN_CLOSED` when there is none.  A second close changes nothing. -/
theorem close_once (h : Reachable c₀) (hnext : (c₀.prog (.co j)).next = some (.chan (.setClose n)))
    (hstep : machine.step c₀ (.run (.co j)) = some c₁) :
    (∀ c, ReachableFrom c₁ c → Wakes c₀.shared c j n) ∧
    ((c₀.shared.chans n).isref = false → ∀ c, QuietFrom n c₁ c → Delivers c₀.shared c.shared n ∧
      ∀ k x block c₂, machine.step c (.call (.co k) (.chanRecv n x block)) = some c₂ →
        ∀ c', QuietFrom n c₂ c' → ReceivesLate c.shared c' k n block) ∧
    ∀ c, ReachableFrom c₁ c → ∀ k c₂, machine.step c (.call (.co k) (.chanClose n)) = some c₂ →
      ∀ c', ReachableFrom c₂ c' → ClosesAgain c.shared c' k n := by
  have hi : Inv c₀.shared := h.good.1
  have h₁ : Reachable c₁ := .next (.run (.co j)) h (fun _ _ => trivial) hstep
  have hreach : ∀ c, ReachableFrom c₁ c → Reachable c := fun c hc => h₁.trans hc
  have hcall : ∀ c k op c₂, Reachable c → okCall (.co k) op c.shared →
      machine.step c (.call (.co k) op) = some c₂ → Reachable c₂ :=
    fun c k op c₂ hc hok hstep => .next (.call (.co k) op) hc hok hstep
  -- the lock of a channel that is being closed is the closer's, who is in no other call
  have halone : ∀ c k op c₂, ReachableFrom c₁ c → machine.step c (.call (.co k) op) = some c₂ →
      (c.shared.chans n).close = true ∧
        ((c.shared.chans n).draining = true → c.shared.locks (.chan n) ≠ some (.co k)) := by
    intro c k op c₂ hc hcall
    obtain ⟨auto, hclosing, hprogs⟩ := h.closing hnext hstep hc
    exact ⟨hclosing.closed, hclosing.alone hprogs (Machine.step_call hcall).1⟩
  refine ⟨fun c hc => ?_, fun hplain c hc => ?_, fun c hc k c₂ hcalled c' hc' => ?_⟩
  · obtain ⟨auto, hclosing, -⟩ := h.closing hnext hstep hc
    refine ⟨fun hhist d hd => hclosing.readies (hreach c hc) hhist hd, fun _ _ => hclosing.returns,
      fun dir q hq => ?_⟩
    · obtain ⟨hchan, rfl⟩ := (hi.chan n).at_ dir q hq.held
      exact ⟨_, hclosing.fates q hchan hq⟩
  · have hkeeps := h.keeps hnext hstep hplain hc
    have hr := hreach c hc.reachableFrom
    have hplain' : (c.shared.chans n).isref = false := hkeeps.1.plain
    refine ⟨hkeeps.2.delivers (h.books n hplain) (hr.books n hplain'), fun k x block c₂ hcalled c' hc' => ?_⟩
    have hr₂ := hcall c k (.chanRecv n x block) c₂ hr trivial hcalled
    obtain ⟨hclose, hlock⟩ := halone c k _ c₂ hc.reachableFrom hcalled
    have hclosed₂ := hkeeps.1.call hcalled
    obtain ⟨a, hat, hf⟩ := late_from (chanRecv_late k x block) hcalled hclose hlock
      (fun c' (hc' : QuietFrom n c₂ c') => ⟨hr₂.trans hc'.reachableFrom, fun _ => (keeps_from hr₂ hclosed₂ hc').1⟩) hc'
    exact receives_late (hr₂.trans hc'.reachableFrom) hat hf
  · have hr₂ := hcall c k (.chanClose n) c₂ (hreach c hc) trivial hcalled
    obtain ⟨hclose, hlock⟩ := halone c k _ c₂ hc hcalled
    obtain ⟨a, hat, hf⟩ := late_from chanClose_late hcalled hclose hlock
      (fun c' (hc' : ReachableFrom c₂ c') => ⟨hr₂.trans hc', fun hne => absurd rfl hne⟩) hc'
    exact closes_again (hr₂.trans hc') hat hf

/-- The next command sets the mark of the channel `n`. -/
def setsClose (n : ChanId) : Option Cmd → Bool
  | some (.chan (.setClose c)) => c = n
  | _ => false

theorem setsClose_iff {o : Option Cmd} : setsClose n o = true ↔ o = some (.chan (.setClose n)) := by
  constructor
  · intro h
    unfold setsClose at h
    split at h
    · exact congrArg _ (congrArg _ (congrArg _ (of_decide_eq_true h)))
    · cases h
  · rintro rfl
    exact decide_eq_true rfl

/-- A close that is found by execution, and what comes after it. -/
theorem exists_close (ls : List (Label Tid Call Env)) (P : Config → Config → Bool)
    (h : (runOk machine.step (stepOk (fun _ _ _ => True) okCall) (initial 3 someBuffers) ls &&
      (run machine.step (initial 3 someBuffers) ls).any fun c₀ => setsClose n (c₀.prog (.co j)).next &&
        (machine.step c₀ (.run (.co j))).any fun c₁ => P c₀ c₁) = true) :
    ∃ c₀ c₁, Reachable c₀ ∧ (c₀.prog (.co j)).next = some (.chan (.setClose n)) ∧
      machine.step c₀ (.run (.co j)) = some c₁ ∧ P c₀ c₁ = true := by
  obtain ⟨c₀, hc₀, hP⟩ := Reachable.of_run 3 someBuffers someBuffers_empty ls _ h
  rw [Bool.and_eq_true, Option.any_eq_true] at hP
  obtain ⟨hnext, c₁, hstep, hP⟩ := hP
  exact ⟨c₀, c₁, hc₀, setsClose_iff.mp hnext, hstep, hP⟩

/-- The coroutine 0 has filled the channel 1, the coroutine 2 waits to send to it, and the coroutine 1
    is about to close it. -/
def fullClosed : List (Label Tid Call Env) :=
  [.env (.sched 0), .env (.sched 1), .env (.sched 2), .call (.co 0) (.chanSend 1 7 true)] ++ steps (.co 0) 8 ++
  [.call (.co 0) (.chanSend 1 8 true)] ++ steps (.co 0) 8 ++ [.call (.co 2) (.chanSend 1 9 true)] ++
  steps (.co 2) 8 ++ [.env (.coreWait 2), .env (.unlock 2 (.chan 1)), .call (.co 1) (.chanClose 1)] ++
  steps (.co 1) 2

/-- The send is told, and a receive gets the first item. -/
theorem close_once_full : ∃ c₀ c₁ c : Config, (c₀.shared.chans 1).buffer.contents = [7, 8] ∧
    (c₀.shared.chans 1).que .send = [⟨2, 1, false, .send, 0⟩] ∧
    (c.shared.cos 2).history = [⟨.send 1 9 true .closed, false, []⟩] ∧
    (c.shared.chans 1).buffer.contents = [8] ∧ Wakes c₀.shared c 1 1 ∧ QuietFrom 1 c₁ c ∧
    Delivers c₀.shared c.shared 1 := by
  obtain ⟨c₀, c₁, hc₀, hnext, hstep, hP⟩ := exists_close (n := 1) (j := 1) fullClosed
    (fun c₀ c₁ => (c₀.shared.chans 1).buffer.contents == [7, 8] && !(c₀.shared.chans 1).isref &&
      (c₀.shared.chans 1).que .send == [⟨2, 1, false, .send, 0⟩] &&
      (runOk machine.step (stepOk (NotQueued 1) okCall) c₁ (steps (.co 1) 14 ++ [.env (.sched 2)] ++
          steps (.co 2) 4 ++ [.call (.co 0) (.chanRecv 1 0 true)] ++ steps (.co 0) 4) &&
        (run machine.step c₁ (steps (.co 1) 14 ++ [.env (.sched 2)] ++ steps (.co 2) 4 ++
          [.call (.co 0) (.chanRecv 1 0 true)] ++ steps (.co 0) 4)).any fun c =>
            (c.shared.cos 2).history == [⟨.send 1 9 true .closed, false, []⟩] &&
              (c.shared.chans 1).buffer.contents == [8])) (by decide +kernel)
  simp only [Bool.and_eq_true, beq_iff_eq, Bool.not_eq_true'] at hP
  obtain ⟨⟨⟨hitems, hplain⟩, hque⟩, hrun⟩ := hP
  obtain ⟨c, hc, hP⟩ := Reach.exists_of_runOk machine.step (stepOk (NotQueued 1) okCall) (fun c => c = c₁) rfl _ _
    ((Bool.and_eq_true _ _).mpr hrun)
  simp only [Bool.and_eq_true, beq_iff_eq] at hP
  have hclose := close_once hc₀ hnext hstep
  have hquiet : QuietFrom 1 c₁ c := hc
  exact ⟨c₀, c₁, c, hitems, hque, hP.1, hP.2, hclose.1 c hquiet.reachableFrom, hquiet,
    (hclose.2.1 hplain c hquiet).1⟩

/-! ### What does not hold -/

def startsSelect : Call → Bool
  | .select _ _ _ => true
  | _ => false

/-- No select is started. -/
def NoSelects (t : Tid) (op : Call) (s : State) : Prop := okCall t op s ∧ startsSelect op = false

instance (t : Tid) (op : Call) (s : State) : Decidable (NoSelects t op s) :=
  inferInstanceAs (Decidable (_ ∧ _))

/-- A select waits at the channels 0 and 1, and the coroutine 1 is about to close the channel 0. -/
def selectClosed : List (Label Tid Call Env) :=
  selectWaits ++ [.env (.sched 2), .call (.co 1) (.chanClose 0)] ++ steps (.co 1) 2

/-- It is given an item that is sent through the channel 1. -/
def overtakes : List (Label Tid Call Env) :=
  [.call (.co 2) (.chanSend 1 7 true)] ++ steps (.co 2) 9 ++ steps (.co 1) 12 ++ [.env (.sched 0)] ++
  steps (.co 0) 11

/-- A select has been called, but waits for the lock of the channel that is closed. -/
def selectComes : List (Label Tid Call Env) :=
  [.env (.sched 0), .env (.sched 1), .env (.sched 2), .call (.co 0) (.select [⟨.send, 0, 5⟩] [0] true),
    .call (.co 1) (.chanClose 0)] ++ steps (.co 1) 2

/-- It queues its quantum when the close is over. -/
def outlives : List (Label Tid Call Env) :=
  steps (.co 1) 9 ++ steps (.co 0) 7 ++ [.env (.coreWait 0), .env (.unlock 0 (.chan 0))]

/-- A waiter need not be told that the channel is closed, and a receive from an empty channel that
    has been closed need not be told either, although no select has been started since. -/
theorem close_not_all :
    (¬ ∀ {c₀ c₁ c : Config} {j : Coid} {n : ChanId}, Reachable c₀ →
      (c₀.prog (.co j)).next = some (.chan (.setClose n)) → machine.step c₀ (.run (.co j)) = some c₁ →
      ReachableFrom c₁ c → ∀ dir q, c₀.shared.Waiter n dir q → ∀ rec rest,
        (c.shared.cos q.co).history = (c₀.shared.cos q.co).history ++ rec :: rest → rec.ClosedAt n q) ∧
    ¬ ∀ {c₀ c₁ c c₂ c' : Config} {j : Coid} {n : ChanId} {k : Coid} {x : Item} {block : Bool}, Reachable c₀ →
      (c₀.prog (.co j)).next = some (.chan (.setClose n)) → machine.step c₀ (.run (.co j)) = some c₁ →
      (c₀.shared.chans n).isref = false →
      Reach machine.step (stepOk (fun _ _ _ => True) NoSelects) (fun c => c = c₁) c →
      (c.shared.chans n).buffer.contents = [] →
      machine.step c (.call (.co k) (.chanRecv n x block)) = some c₂ →
      Reach machine.step (stepOk (fun _ _ _ => True) NoSelects) (fun c => c = c₂) c' → ∀ rec rest,
        (c'.shared.cos k).history = (c.shared.cos k).history ++ rec :: rest →
          rec.entry = .recv n block .closed none := by
  constructor
  · intro hall
    obtain ⟨c₀, c₁, hc₀, hnext, hstep, hP⟩ := exists_close (n := 0) (j := 1) selectClosed
      (fun c₀ c₁ => (c₀.shared.chans 0).que .recv == [⟨0, 0, true, .recv, 0⟩] &&
        decide ((c₀.shared.cos 0).qtag = none) && (c₀.shared.cos 0).history == [] &&
        (runOk machine.step (stepOk (fun _ _ _ => True) okCall) c₁ overtakes &&
          (run machine.step c₁ overtakes).any fun c => (c.shared.cos 0).history ==
            [⟨.select [⟨.recv, 0, 0⟩, ⟨.recv, 1, 0⟩] true .success (some 1) false (some 7), false,
              [⟨.recv, 1, 7⟩]⟩]))
      (by decide +kernel)
    simp only [Bool.and_eq_true, beq_iff_eq, decide_eq_true_eq] at hP
    obtain ⟨⟨⟨hque, htag⟩, hnil⟩, hrun⟩ := hP
    obtain ⟨c, hc, hP⟩ := Reach.exists_of_runOk machine.step (stepOk (fun _ _ _ => True) okCall)
      (fun c => c = c₁) rfl _ _ ((Bool.and_eq_true _ _).mpr hrun)
    rw [beq_iff_eq] at hP
    have hwaiter : c₀.shared.Waiter 0 .recv ⟨0, 0, true, .recv, 0⟩ :=
      Inv.waiter hc₀.good.1 (by rw [hque]; exact List.mem_singleton_self _) (.inr htag)
    have hclosed := hall hc₀ hnext hstep hc .recv _ hwaiter _ [] (by rw [hP, hnil]; rfl)
    exact absurd hclosed.1 (List.cons_ne_nil _ _)
  · intro hall
    obtain ⟨c₀, c₁, hc₀, hnext, hstep, hP⟩ := exists_close (n := 0) (j := 1) selectComes
      (fun c₀ c₁ => !(c₀.shared.chans 0).isref &&
        (runOk machine.step (stepOk (fun _ _ _ => True) NoSelects) c₁ outlives &&
          (run machine.step c₁ outlives).any fun c => (c.shared.chans 0).buffer.contents == [] &&
            (c.shared.cos 2).history == [] &&
            (machine.step c (.call (.co 2) (.chanRecv 0 0 true))).any fun c₂ =>
              runOk machine.step (stepOk (fun _ _ _ => True) NoSelects) c₂ (steps (.co 2) 9) &&
                (run machine.step c₂ (steps (.co 2) 9)).any fun c' =>
                  (c'.shared.cos 2).history == [⟨.recv 0 true .success (some 5), false, [⟨.recv, 0, 5⟩]⟩]))
      (by decide +kernel)
    rw [Bool.and_eq_true, Bool.not_eq_true'] at hP
    obtain ⟨c, hc, hP'⟩ := Reach.exists_of_runOk machine.step (stepOk (fun _ _ _ => True) NoSelects)
      (fun c => c = c₁) rfl _ _ hP.2
    rw [Bool.and_eq_true, Bool.and_eq_true, Option.any_eq_true, beq_iff_eq, beq_iff_eq] at hP'
    obtain ⟨⟨hempty, hnil⟩, c₂, hcalled, hrun⟩ := hP'
    obtain ⟨c', hc', hhist⟩ := Reach.exists_of_runOk machine.step (stepOk (fun _ _ _ => True) NoSelects)
      (fun c => c = c₂) rfl _ _ hrun
    rw [beq_iff_eq] at hhist
    cases hall hc₀ hnext hstep hP.1 hc hempty hcalled hc' _ [] (by rw [hhist, hnil]; rfl)

end Coroc.Runtime
