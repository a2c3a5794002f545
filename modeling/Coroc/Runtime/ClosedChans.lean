import Coroc.Runtime.HeldLocks
import Coroc.Runtime.Ledger
import Coroc.Runtime.Stages
import Coroc.Runtime.Waiters
import Coroc.Runtime.Waits

/-!
# A closed channel has no waiters

`coroc_chan_close` wakes everybody and marks the channel, and a send or receive reads the mark
before it queues anything.  The polling loop of a select does not: `CHAN_CLOSED` is not
`CHAN_SUCCESS`, so a blocking select whose cases are closed or busy goes on to queue a quantum
on every channel, the closed ones included.

`closed_no_waiters` is about the runs in which no quantum is queued on a closed channel;
`closed_waiter` is a select that waits for ever.
-/

namespace Coroc.Runtime

open Coroc.Program Coroc.Transition

variable {s s' : State} {t : Tid} {a : Stage} {auto : Tid → Stage} {j k : Coid} {c : ChanId} {q : Quantum}

/-- A quantum is about to be queued on a closed channel. -/
def queuesClosed (s : State) : Cmd → Bool
  | .chan (.queueAdd q _) => (s.chans q.chan).close
  | _ => false

def OpenOnly (_ : Tid) (cmd : Cmd) (s : State) : Prop := queuesClosed s cmd = false

instance (t : Tid) (cmd : Cmd) (s : State) : Decidable (OpenOnly t cmd s) :=
  inferInstanceAs (Decidable (_ = _))

/-! ### The waiters of closed channels -/

/-- A closed channel has waiters, claimed or not, only as long as `coroc_chan_close` is at
    work. -/
structure Shut (s : State) : Prop where
  waiters : ∀ c dir q, s.Waiter c dir q → (s.chans c).close = true → (s.chans c).draining = true
  taken : ∀ j site t q, (s.cos j).wait = some ⟨site, .taken t q⟩ → (s.chans q.chan).close = true →
    (s.chans q.chan).draining = true
  queued : Queued s

/-- The same of one channel. -/
structure ShutAt (s : State) (c : ChanId) : Prop where
  waiters : ∀ dir q, s.Waiter c dir q → (s.chans c).close = true → (s.chans c).draining = true
  taken : ∀ j site t q, (s.cos j).wait = some ⟨site, .taken t q⟩ → q.chan = c →
    (s.chans c).close = true → (s.chans c).draining = true

theorem Shut.at (h : Shut s) (c : ChanId) : ShutAt s c :=
  ⟨h.waiters c, fun j site t q hw hq => hq ▸ h.taken j site t q hw⟩

theorem Calm.shut (hcalm : Calm s s') (h : ShutAt s c) (hi : Inv s) : ShutAt s' c := by
  refine ⟨fun dir q hq hclose => ?_, fun j site t q hw hq hclose => ?_⟩
  · rw [hcalm.close] at hclose
    rw [hcalm.draining]
    exact h.waiters dir q (hcalm.waiter hi hq) hclose
  · rw [hcalm.close] at hclose
    rw [hcalm.draining]
    rcases hcalm.taken j site t q hw with hold | hwaiter
    · exact h.taken j site t q hold hq hclose
    · rw [hq] at hwaiter
      exact h.waiters q.dir q hwaiter hclose

theorem ShutAt.enqueue {x : Item} (h : ShutAt s c) (hi : Inv s) (ha : AllowedChan t s (.queueAdd q x))
    (hopen : q.chan = c → (s.chans c).close = false) : ShutAt (s.enqueue q x) c := by
  have hclose : ((s.enqueue q x).chans c).close = (s.chans c).close :=
    s.setChan_proj (f := Chan.add q) Chan.close (fun _ => rfl) c
  have hdrain : ((s.enqueue q x).chans c).draining = (s.chans c).draining :=
    s.setChan_proj (f := Chan.add q) Chan.draining (fun _ => rfl) c
  refine ⟨fun dir q' hq hc => ?_, fun j site t q' hw hq hc => ?_⟩
  · rw [hclose] at hc
    rw [hdrain]
    rcases enqueue_waiter hi ha hq with hold | ⟨-, hchan, -⟩
    · exact h.waiters dir q' hold hc
    · exact nomatch (hopen hchan.symm).symm.trans hc
  · rw [hclose] at hc
    rw [hdrain]
    by_cases hj : j = q.co
    · subst hj
      obtain ⟨qs, hw', -⟩ := enqueue_site ha
      exact nomatch (Wait.mk.inj (Option.some.inj (hw'.symm.trans hw))).2
    · rw [enqueue_cos_ne s hj] at hw
      exact h.taken j site t q' hw hq hc

theorem ShutAt.exec {cmd : Cmd} {r : cmd.Res} (h : ShutAt s c) (hi : Inv s) (ha : Allowed t cmd s)
    (hok : ∀ q x, cmd = .chan (.queueAdd q x) → q.chan = c → (s.chans c).close = false)
    (he : exec t cmd s = some (r, s')) : ShutAt s' c := by
  have hcalm := exec_calm hi ha he
  cases cmd with
  | chan cmd =>
    cases cmd with
    | queueAdd q x =>
      obtain rfl := hcalm
      exact h.enqueue hi ha (hok q x rfl)
    | setClose c' =>
      obtain rfl := hcalm
      by_cases hc : c = c'
      · subst hc
        have hself : ((s.setChan c Chan.startClose).chans c).draining = true := by
          rw [State.setChan_chans_self]
          rfl
        exact ⟨fun _ _ _ _ => hself, fun _ _ _ _ _ _ _ => hself⟩
      · have hne : (s.setChan c' Chan.startClose).chans c = s.chans c := State.setChan_chans_ne _ _ hc
        refine ⟨fun dir q hq hclose => ?_, fun j site t q hw hq hclose => ?_⟩
        · rw [hne] at hclose ⊢
          exact h.waiters dir q (setChan_waiter (g := Chan.startClose) (fun _ => rfl) hq) hclose
        · rw [hne] at hclose ⊢
          exact h.taken j site t q hw hq hclose
    | readIsref c' =>
      obtain rfl := hcalm
      obtain ⟨k, rfl, hin, hque, hfree⟩ := ha
      by_cases hc : c = c'
      · subst hc
        refine ⟨fun dir q hq _ => ?_, fun j site t q hw hq _ => ?_⟩
        · have hheld := (setChan_waiter (g := Chan.endClose) (fun _ => rfl) hq).held
          rw [Chan.held_of_hand_none hin.hand, hque dir] at hheld
          cases hheld
        · -- the holder of the lock has no claim
          have hphase := (hi.co j).phase _ hw
          have hlock : s.locks (.chan q.chan) = some t := hphase.2.2.2.2.1
          rw [hq, hin.lock] at hlock
          cases hlock
          exact absurd ⟨_, hw, .inl ⟨q, rfl⟩⟩ (hfree j)
      · have hne : (s.setChan c' Chan.endClose).chans c = s.chans c := State.setChan_chans_ne _ _ hc
        refine ⟨fun dir q hq hclose => ?_, fun j site t q hw hq hclose => ?_⟩
        · rw [hne] at hclose ⊢
          exact h.waiters dir q (setChan_waiter (g := Chan.endClose) (fun _ => rfl) hq) hclose
        · rw [hne] at hclose ⊢
          exact h.taken j site t q hw hq hclose
    | _ => exact hcalm.shut h hi
  | _ => exact hcalm.shut h hi

theorem ShutAt.congr (h : ShutAt s c) (hcos : s'.cos = s.cos) (hchans : s'.chans = s.chans) : ShutAt s' c := by
  refine ⟨fun dir q hq => ?_, fun j site t q hw => ?_⟩
  · obtain ⟨hheld, hidle⟩ := hq
    rw [hchans] at hheld ⊢
    rw [hcos] at hidle
    exact h.waiters dir q ⟨hheld, hidle⟩
  · rw [hcos] at hw
    rw [hchans]
    exact h.taken j site t q hw

theorem Shut.of_at (h : ∀ c, ShutAt s c) (hqueued : Queued s) : Shut s :=
  ⟨fun c => (h c).waiters, fun j site t q hw => (h q.chan).taken j site t q hw rfl, hqueued⟩

theorem Shut.exec {cmd : Cmd} {r : cmd.Res} (h : Shut s) (hi : Inv s) (ha : Allowed t cmd s)
    (hok : OpenOnly t cmd s) (he : exec t cmd s = some (r, s')) : Shut s' := by
  refine .of_at (fun c => (h.at c).exec hi ha ?_ he)
    (h.queued.exec hi ha he (rules.exec_sound hi trivial ha he).1)
  rintro q x rfl rfl
  exact hok

theorem Shut.congr (h : Shut s) (hcos : s'.cos = s.cos) (hchans : s'.chans = s.chans) : Shut s' :=
  .of_at (fun c => (h.at c).congr hcos hchans) (h.queued.congr hcos hchans)

theorem Start.shut {c : Config} (h : Start c) : Shut c.shared := by
  refine ⟨fun n dir q hq => ?_, fun j site t q hw => ?_, fun j site hw => ?_⟩
  · have hheld := hq.held
    rw [h.held n dir] at hheld
    cases hheld
  · exact nomatch (h.co j).wait.symm.trans hw
  · exact nomatch (h.co j).wait.symm.trans hw

/-! ### Sends that come too late -/

/-- The wait, if there is one, is not at channels. -/
def Co.NoQuanta (co : Co) : Prop := ∀ w, co.wait = some w → w.site.quanta = []

theorem Co.NoQuanta.of_none {co : Co} (h : co.wait = none) : co.NoQuanta :=
  fun _ hw => nomatch h.symm.trans hw

/-- What is known at each stage of a call.  A send to a channel that was closed before moves
    nothing, and queues nothing. -/
def Stage.LateOk (s : State) (co : Co) : Stage → Prop
  | .idle => co.moved = [] ∧ co.NoQuanta
  | .sending c => co.NoQuanta ∧ (co.late = true → (s.chans c).close = true ∧ co.moved = [])
  | .blocked q => q.dir = .send → co.late = false
  | .queued | .chosen _ => True
  | .busy | .missed _ _ | .tested _ _ | .closing _ | .done _ => co.NoQuanta

/-- Every send to a channel that was closed before has returned `CHAN_CLOSED`. -/
def Co.LateSends (co : Co) : Prop :=
  ∀ r ∈ co.history, ∀ n x block ret, r.entry = .send n x block ret → r.late = true → ret = .closed

structure Late (auto : Tid → Stage) (s : State) : Prop where
  stage : ∀ k, (auto (.co k)).LateOk s (s.cos k)
  unborn : ∀ k, s.fresh ≤ k → auto (.co k) = .idle
  sends : ∀ k, (s.cos k).LateSends

theorem Co.Kept.noQuanta {co co' : Co} (h : co.Kept co') (hq : co.NoQuanta) :
    co'.NoQuanta ∧ co'.moved = co.moved := by
  cases hw : co.wait with
  | none =>
    rw [h.none hw]
    exact ⟨hq, rfl⟩
  | some w =>
    have hnil := hq w hw
    refine ⟨fun w' hw' => ?_, h.moved w hw hnil⟩
    rcases h.some w hw with ⟨w₁, hw₁, hsite, -⟩ | ⟨-, hnone⟩
    · obtain rfl := Option.some.inj (hw₁.symm.trans hw')
      rw [hsite]
      exact hnil
    · exact nomatch hnone.symm.trans hw'

theorem Stage.LateOk.kept {co co' : Co} (h : a.LateOk s co) (hk : co.Kept co')
    (hclose : ∀ c, (s.chans c).close = true → (s'.chans c).close = true) : a.LateOk s' co' := by
  cases a with
  | idle =>
    obtain ⟨hnone, hmoved⟩ := hk.noQuanta h.2
    exact ⟨hmoved.trans h.1, hnone⟩
  | sending c =>
    obtain ⟨hnone, hmoved⟩ := hk.noQuanta h.1
    refine ⟨hnone, fun hlate => ?_⟩
    rw [hk.late] at hlate
    obtain ⟨hc, hnil⟩ := h.2 hlate
    exact ⟨hclose c hc, hmoved.trans hnil⟩
  | blocked q =>
    intro hdir
    rw [hk.late]
    exact h hdir
  | queued | chosen active => trivial
  | busy | missed c closed | tested c closed | closing c | done c => exact (hk.noQuanta h).1

/-- The stages of the others, while one thread takes a step. -/
theorem Late.others (h : Late auto s) (hi : Inv s) (hr : Rely (.co j) s s') :
    (auto (.co j)).LateOk s' (s'.cos j) := by
  by_cases hj : j < s.fresh
  · exact (h.stage j).kept (hr.kept j rfl hj) hr.close
  · have hfresh := Nat.le_of_not_lt hj
    have hnone := (hi.fresh j).wait hfresh
    obtain ⟨hmoved, hborn⟩ := hr.newborn j rfl hfresh fun _ hw => nomatch hnone.symm.trans hw
    have hstage := h.stage j
    rw [h.unborn j hfresh] at hstage ⊢
    refine ⟨hmoved.trans hstage.1, fun w hw => ?_⟩
    rw [hborn w hw]
    rfl

/-! ### The steps of a call -/

/-- Only `begin` writes the mark of a late call. -/
theorem execChan_late {cmd : ChanCmd} {r : cmd.Res} (he : execChan t s cmd = some (r, s'))
    (hb : ∀ c, cmd ≠ .begin c) (j : Coid) : (s'.cos j).late = (s.cos j).late := by
  cases cmd with
  | begin c => exact absurd rfl (hb c)
  | queueRem c dir =>
    simp only [execChan] at he
    split at he
    · cases he
      rfl
    · next q rest _ =>
      cases he
      unfold State.popQuantum
      split
      · rfl
      · refine (State.setCo_proj _ Co.late ?_ j).trans rfl
        exact fun _ => rfl
  | _ =>
    cases t <;> simp only [execChan] at he <;> (repeat' split at he) <;> cases he
    -- each of them updates no coroutine, one, or the two ends of an exchange
    all_goals first
      | rfl
      | refine (State.setCo_proj _ Co.late ?_ j).trans rfl
        exact fun _ => rfl
      | refine (State.setCo_proj _ Co.late ?_ j).trans ((State.setCo_proj _ Co.late ?_ j).trans rfl)
        · exact fun _ => rfl
        · exact fun _ => rfl

/-- Outside the channels a call changes nothing of its coroutine while it is at work on one. -/
theorem exec_working {cmd : Cmd} {r : cmd.Res} (hok : a.ok cmd) (ha : a ≠ .idle) (hc : cmd.other)
    (he : exec (.co k) cmd s = some (r, s')) :
    (s'.cos k).moved = (s.cos k).moved ∧ (s'.cos k).late = (s.cos k).late ∧
      (s'.cos k).wait = (s.cos k).wait ∧ s'.chans = s.chans ∧ a.next cmd r = a := by
  obtain ⟨hact, he⟩ := exec_inv he
  cases cmd with
  | chan cmd => exact hc.elim
  | lock cmd =>
    obtain ⟨l, o, rfl⟩ := execLock_inv he
    exact ⟨rfl, rfl, rfl, rfl, rfl⟩
  | co cmd =>
    cases cmd with
    | suspend ls =>
      cases he
      exact ⟨s.setCo_proj (f := Co.sleep) Co.moved (fun _ => rfl) k,
        s.setCo_proj (f := Co.sleep) Co.late (fun _ => rfl) k,
        s.setCo_proj (f := Co.sleep) Co.wait (fun _ => rfl) k, rfl, rfl⟩
    | ready d =>
      simp only [execCo] at he
      split at he
      · next hwait =>
        cases he
        have hne : k ≠ d := by
          rintro rfl
          cases (active_running hact).symm.trans hwait
        rw [State.setCo_cos_ne _ _ hne]
        exact ⟨rfl, rfl, rfl, rfl, rfl⟩
      · cases he
    | _ => exact absurd hok ha
  | _ => exact absurd hok ha

theorem Still.noQuanta (h : Still s s') (hq : (s.cos j).NoQuanta) : (s'.cos j).NoQuanta := by
  intro w' hw'
  refine List.eq_nil_iff_forall_not_mem.mpr fun q hmem => ?_
  obtain ⟨w, hw, hmem'⟩ := h.quanta j w' hw' q hmem
  rw [hq w hw] at hmem'
  cases hmem'

/-- A stage at which nothing is queued. -/
theorem Stage.LateOk.noQuanta {co : Co} (h : a.LateOk s co) (hc : a.fetches c ∨ a.polls) : co.NoQuanta := by
  cases a with
  | idle => exact h.2
  | sending c' => exact h.1
  | busy | missed c' closed | tested c' closed | closing c' | done c' => exact h
  | blocked q | queued | chosen active => exact hc.elim (fun h => h.elim) fun h => h.elim

/-- A stage is kept with what it knows of its coroutine. -/
theorem Stage.LateOk.same {co co' : Co} (h : a.LateOk s co) (hmoved : co'.moved = co.moved)
    (hlate : co'.late = co.late) (hquanta : co.NoQuanta → co'.NoQuanta)
    (hclose : ∀ c, (s.chans c).close = true → (s'.chans c).close = true) : a.LateOk s' co' := by
  cases a with
  | idle => exact ⟨hmoved.trans h.1, hquanta h.2⟩
  | sending c =>
    refine ⟨hquanta h.1, fun hl => ?_⟩
    obtain ⟨hc, hnil⟩ := h.2 (hlate.symm.trans hl)
    exact ⟨hclose c hc, hmoved.trans hnil⟩
  | blocked q => exact fun hdir => hlate.trans (h hdir)
  | queued | chosen active => trivial
  | busy | missed c closed | tested c closed | closing c | done c => exact hquanta h

theorem Stage.LateOk.fetch {co : Co} (h : a.LateOk s co) (hf : a.fetches c) : a.fetch.LateOk s co := by
  cases a with
  | idle => exact h.2
  | missed c' closed => cases closed <;> exact h
  | _ => exact h

theorem Stage.LateOk.test {co : Co} {closed : Bool} (h : a.LateOk s co) : (a.test c closed).LateOk s co := by
  cases a with
  | idle => exact h.2
  | missed c' closed' => cases closed' <;> exact h
  | _ => exact h

/-- A command about channels leaves the coroutine as the next stage wants it. -/
theorem Stage.LateOk.exec {cmd : ChanCmd} {r : cmd.Res} (h : a.LateOk s (s.cos k)) (hshut : Shut s)
    (hi : Inv s) (ha : AllowedChan (.co k) s cmd) (hok : a.okChan cmd)
    (hopen : OpenOnly (.co k) (.chan cmd) s) (he : exec (.co k) (.chan cmd) s = some (r, s')) :
    (a.next (.chan cmd) r).LateOk s' (s'.cos k) := by
  have heff := exec_effect he
  have hgrows := exec_grows he
  have hmono : ∀ c, (s.chans c).close = true → (s'.chans c).close = true :=
    ((exec_keeps (c := .chan cmd) hi ha he).2 (.async 0) nofun rfl).close
  obtain ⟨-, he⟩ := exec_inv he
  have hlate := execChan_late he
  have hkept : (∀ c, cmd ≠ .begin c) → Kept s s' → Still s s' → a.LateOk s' (s'.cos k) :=
    fun hb hkept hstill => h.same (hkept.co k).moved (hlate hb k) hstill.noQuanta hmono
  cases cmd with
  | begin c =>
    obtain ⟨_, -, -⟩ := ha
    obtain rfl := hok
    cases he
    change Stage.LateOk _ _ (.sending c)
    rw [State.setCo_cos_self]
    exact ⟨h.2, fun hclose => ⟨hclose, h.1⟩⟩
  | record e =>
    obtain ⟨_, ⟨⟩, hwait, -⟩ := ha
    cases he
    change Stage.LateOk _ _ .idle
    rw [State.setCo_cos_self]
    exact ⟨rfl, .of_none hwait⟩
  | queueRem c dir => exact (hkept nofun heff hgrows).fetch hok
  | readClose c => exact (hkept nofun heff hgrows).test
  | casTag q => exact hkept nofun heff hgrows
  | markClosed q => exact hkept nofun heff hgrows
  | readIsref c =>
    obtain rfl := hok
    exact hkept nofun heff hgrows
  | readQuantum q => exact hkept nofun heff hgrows
  | queueExtract q => exact hkept nofun heff hgrows
  | clearTag => exact hkept nofun heff hgrows
  | readTag => trivial
  | setClose c =>
    obtain rfl := hok
    cases he
    exact h
  | cleanBuff c =>
    obtain rfl := hok
    cases he
    exact h
  | copyTo q x =>
    have hquanta := hgrows.noQuanta (h.noQuanta (c := q.chan) (by
      rcases hok with rfl | rfl
      · exact .inl rfl
      · exact .inl trivial))
    rcases hok with rfl | rfl
    · refine ⟨hquanta, fun hl => ?_⟩
      obtain ⟨_, ⟨⟩, -, hholds, -, -, hdrain⟩ := ha
      obtain ⟨site, hw⟩ := hholds.taken
      have hclose := (h.2 ((hlate nofun k).symm.trans hl)).1
      exact nomatch hdrain.symm.trans (hshut.taken q.co site _ q hw hclose)
    · exact hquanta
  | copyToBuff c x =>
    have hquanta := hgrows.noQuanta (h.noQuanta (c := c) (by
      rcases hok with rfl | rfl
      · exact .inl rfl
      · exact .inl trivial))
    rcases hok with rfl | rfl
    · refine ⟨hquanta, fun hl => ?_⟩
      obtain ⟨_, -, -, -, -, hclose, -⟩ := ha
      exact nomatch hclose.symm.trans (h.2 ((hlate nofun k).symm.trans hl)).1
    · exact hquanta
  | copyFrom q =>
    refine hgrows.noQuanta (h.noQuanta (c := q.chan) (.inl ?_))
    rcases hok with rfl | ⟨c, rfl⟩ <;> trivial
  | copyFromBuff c =>
    have hquanta := hgrows.noQuanta (h.noQuanta (c := c) (.inr hok))
    change Stage.LateOk _ _ (a.miss c r)
    rcases Stage.polls_miss (c := c) hok r with hbusy | ⟨hmissed, -⟩
    · rw [hbusy]
      exact hquanta
    · rw [hmissed]
      exact hquanta
  | queueAdd q x =>
    change Stage.LateOk _ _ (Stage.queue q)
    unfold Stage.queue
    split
    · trivial
    · next hplain =>
      intro hdir
      rw [hlate nofun k]
      -- a plain send is queued on an open channel only
      cases a with
      | sending c =>
        obtain ⟨-, rfl, -⟩ := hok
        refine Bool.eq_false_iff.mpr fun hl => ?_
        have hopen' : (s.chans q.chan).close = false := hopen
        exact nomatch hopen'.symm.trans (h.2 hl).1
      | missed c closed =>
        rcases hok with ⟨-, -, hrecv, -⟩ | ⟨hsel, -⟩
        · exact nomatch hdir.symm.trans hrecv
        · exact absurd hsel hplain
      | idle | busy | queued => exact absurd hok hplain
      | _ => exact hok.elim

theorem exec_moved_other {cmd : Cmd} {r : cmd.Res} (hi : Inv s) (ha : Allowed t cmd s) (hc : cmd.other)
    (he : exec t cmd s = some (r, s')) (j : Coid) : (s'.cos j).moved = (s.cos j).moved := by
  cases exec_acted hi ha he j with
  | none hsame => exact hsame.moved
  | gives n x _ _ _ hcmd =>
    rcases hcmd with ⟨-, rfl | ⟨q, rfl, -⟩⟩ | ⟨q, k, rfl, -⟩ <;> exact hc.elim
  | takes n x _ _ _ hcmd =>
    rcases hcmd with ⟨-, rfl | ⟨q, rfl⟩⟩ | ⟨q, k, y, rfl, -⟩ <;> exact hc.elim
  | records e _ hcmd =>
    subst hcmd
    exact hc.elim

theorem exec_still_other {cmd : Cmd} {r : cmd.Res} (hc : cmd.other)
    (he : exec t cmd s = some (r, s')) : Still s s' := by
  have hgrows := exec_grows he
  cases cmd with
  | chan cmd => exact hc.elim
  | _ => exact hgrows

theorem Late.own {cmd : Cmd} {r : cmd.Res} (h : Late auto s) (hshut : Shut s) (hi : Inv s)
    (ha : Allowed (.co k) cmd s) (hok : (auto (.co k)).ok cmd) (hopen : OpenOnly (.co k) cmd s)
    (he : exec (.co k) cmd s = some (r, s')) : ((auto (.co k)).next cmd r).LateOk s' (s'.cos k) := by
  by_cases hc : cmd.other
  · have hmoved := exec_moved_other hi ha hc he k
    have hstill := exec_still_other hc he
    by_cases hidle : auto (.co k) = .idle
    · have hstage := h.stage k
      rw [hidle] at hstage ⊢
      have hnext := (other_idle cmd hc).2 r (by cases cmd <;> trivial)
      change Stage.LateOk _ _ (calls.next .idle cmd r)
      rw [hnext]
      exact ⟨hmoved.trans hstage.1, hstill.noQuanta hstage.2⟩
    · obtain ⟨-, hlate, -, hchans, hnext⟩ := exec_working hok hidle hc he
      rw [hnext]
      exact (h.stage k).same hmoved hlate hstill.noQuanta fun c hclose => hchans ▸ hclose
  · cases cmd with
    | chan cmd => exact (h.stage k).exec hshut hi ha hok hopen he
    | _ => exact absurd trivial hc

theorem Late.sent {e : Entry} (h : Late auto s) (hok : (auto (.co k)).returns e)
    (hrec : Record.Ok ⟨e, (s.cos k).late, (s.cos k).moved⟩) {n : ChanId} {x : Item} {block : Bool} {ret : Ret}
    (he : e = .send n x block ret) (hl : (s.cos k).late = true) : ret = .closed := by
  subst he
  have hstage := h.stage k
  generalize auto (.co k) = a at hok hstage
  cases a with
  | sending c =>
    rcases hrec with ⟨-, hmoved⟩ | ⟨-, -, hclosed⟩
    · exact nomatch (hstage.2 hl).2.symm.trans hmoved
    · exact hclosed hl
  | blocked q => exact nomatch (hstage hok.1).symm.trans hl
  | missed c closed =>
    cases closed <;> exact hok.elim
  | _ => exact hok.elim

theorem Late.exec {cmd : Cmd} {r : cmd.Res} (h : Late auto s) (hshut : Shut s) (hi : Inv s)
    (ha : Allowed t cmd s) (hok : (auto t).ok cmd) (hopen : OpenOnly t cmd s)
    (he : exec t cmd s = some (r, s')) :
    Late (Function.update auto t ((auto t).next cmd r)) s' := by
  have hrely := (rules.exec_sound hi trivial ha he).2
  obtain ⟨hact, -⟩ := exec_inv he
  refine ⟨fun k => ?_, fun k hk => ?_, fun k rec hrec n x block ret hentry hl => ?_⟩
  · by_cases hkt : Tid.co k = t
    · subst hkt
      rw [Function.update_self]
      exact h.own hshut hi ha hok hopen he
    · rw [Function.update_of_ne hkt]
      exact h.others hi (hrely _ hkt rfl)
  · by_cases hkt : Tid.co k = t
    · subst hkt
      have hfresh := ((hrely (.async 0) nofun) rfl).fresh
      exact nomatch (active_running hact).symm.trans ((hi.fresh k).status (Nat.le_trans hfresh hk))
    · rw [Function.update_of_ne hkt]
      exact h.unborn k (Nat.le_trans ((hrely _ hkt) rfl).fresh hk)
  · rcases (exec_effect he).history k with hsame | ⟨e, rfl, rfl, hnew⟩
    · rw [hsame] at hrec
      exact h.sends k rec hrec n x block ret hentry hl
    · rw [hnew] at hrec
      rcases List.mem_append.mp hrec with hrec | hrec
      · exact h.sends k rec hrec n x block ret hentry hl
      · obtain rfl := List.mem_singleton.mp hrec
        obtain ⟨_, ⟨⟩, -, hrecord, -⟩ := ha
        exact h.sent hok hrecord hentry hl

theorem Late.congr (h : Late auto s) (hcos : s'.cos = s.cos) (hchans : s'.chans = s.chans)
    (hfresh : s'.fresh = s.fresh) : Late auto s' := by
  refine ⟨fun k => ?_, fun k hk => h.unborn k (hfresh ▸ hk), fun k => ?_⟩
  · rw [hcos]
    exact (h.stage k).same rfl rfl (fun hq => hq) fun c hc => hchans ▸ hc
  · rw [hcos]
    exact h.sends k

theorem Start.late {c : Config} (h : Start c) : Late (fun _ => .idle) c.shared := by
  refine ⟨fun k => ⟨(h.co k).moved, .of_none (h.co k).wait⟩, fun _ _ => rfl, fun k rec hrec => ?_⟩
  rw [(h.co k).history] at hrec
  cases hrec

/-! ### Runs -/

/-- Nobody waits at a closed channel whose lock is free: there is no unclaimed quantum in its
    queues, and no unclaimed wait has a quantum there.  A coroutine that is about to be suspended
    has queued no quantum on a closed channel, and a send to one returns `CHAN_CLOSED`. -/
structure NoWaiters (c : Config) : Prop where
  queues : ∀ n, c.shared.locks (.chan n) = none → (c.shared.chans n).close = true →
    ∀ dir, ∀ q ∈ (c.shared.chans n).que dir, ¬ c.shared.Unclaimed q
  waits : ∀ n, c.shared.locks (.chan n) = none → (c.shared.chans n).close = true →
    ∀ k w, (c.shared.cos k).wait = some w → w.phase = .idle → ∀ q ∈ w.site.quanta, q.chan ≠ n
  suspends : ∀ k ls, (c.prog (.co k)).next = some (.co (.suspend ls)) →
    ∀ w, (c.shared.cos k).wait = some w → ∀ q ∈ w.site.quanta, (c.shared.chans q.chan).close = false
  sends : ∀ k, (c.shared.cos k).LateSends

/-- A waiter of a closed channel is there while the closer holds the lock. -/
theorem Shut.no_waiter (h : Shut s) (hi : Inv s) (hfree : s.locks (.chan c) = none)
    (hclose : (s.chans c).close = true) {dir : Dir} : ¬ s.Waiter c dir q := by
  intro hq
  obtain ⟨k, hlock⟩ := (hi.chan c).locked (.inr (h.waiters c dir q hq hclose))
  exact nomatch hfree.symm.trans hlock

/-- **A closed channel has no waiters**, in every run in which no quantum is queued on a closed
    channel. -/
theorem closed_no_waiters {c : Config} (h : Reach machine.step (stepOk OpenOnly okCall) Start c) :
    NoWaiters c := by
  have hK : ∀ c, Reach machine.step (stepOk OpenOnly okCall) Start c → Good rules Idle c := fun c hc =>
    Rules.sound calls_sound (fun _ hs => hs.good) (hc.mono fun s l hl => by
      cases l with
      | run t => exact fun _ _ => trivial
      | call t op => exact hl
      | env e => trivial)
  obtain ⟨auto, ⟨hshut, hlate⟩, -⟩ := Machine.follows (P := calls) (J := fun auto s => Shut s ∧ Late auto s)
    (fun _ _ hok => hok) hK (fun _ hs => hs.prog) (fun t op s hok => body_calls hok)
    (fun _ hs => ⟨hs.shut, hs.late⟩)
    (fun auto s t cmd f r s' hg hJ hp hok hstage he => by
      have hi : Inv s.shared := hg.1
      have ha := hg.next_allowed (t := t) (c := cmd) (by rw [hp]; rfl) trivial
      exact ⟨exec_queueRes hi he, hJ.1.exec hi ha hok he, hJ.2.exec hJ.1 hi ha hstage hok he⟩)
    (fun auto s t op s' _ hJ _ _ _ he =>
      ⟨hJ.1.congr (enter_spared he).cos (enter_spared he).chans,
        hJ.2.congr (enter_spared he).cos (enter_spared he).chans (enter_spared he).fresh⟩)
    (fun auto s e s' _ hJ _ he =>
      ⟨hJ.1.congr (env_same he).1 (env_same he).2.1,
        hJ.2.congr (env_same he).1 (env_same he).2.1 (env_same he).2.2⟩) h
  have hgood := hK c h
  have hi : Inv c.shared := hgood.1
  constructor
  · intro n hfree hclose dir q hq hun
    exact hshut.no_waiter hi hfree hclose (hi.waiter hq hun)
  · rintro n hfree hclose k ⟨site, phase⟩ hw rfl q hq rfl
    have hown := ((hi.co k).site _ hw).own q hq
    exact hshut.no_waiter hi hfree hclose ⟨hshut.queued k site hw q hq, _, hown ▸ hw, rfl⟩
  · intro k ls hnext w hw q hq
    obtain ⟨_, site, ⟨⟩, hw', hlocks, -, hdrain, -⟩ := hgood.next_allowed hnext trivial
    obtain rfl := Option.some.inj (hw'.symm.trans hw)
    have hown := ((hi.co k).site _ hw).own q hq
    refine Bool.eq_false_iff.mpr fun hclose => ?_
    have hmem := hlocks (.chan q.chan) (Quantum.lock_mem hq)
    have hdraining := hshut.waiters q.chan q.dir q ⟨hshut.queued k site hw q hq, _, hown ▸ hw, rfl⟩ hclose
    exact nomatch (hdrain q.chan hmem).2.symm.trans hdraining
  · exact hlate.sends

/-- Coroutine 0 closes the channel 0, and coroutine 1 sends to it. -/
def sendsLate : List (Label Tid Call Env) :=
  [.env (.sched 0), .env (.sched 1), .call (.co 0) (.chanClose 0)] ++ steps (.co 0) 12 ++
  [.call (.co 1) (.chanSend 0 7 true)] ++ steps (.co 1) 7

theorem closed_no_waiters_sendsLate : ∃ c : Config, (c.shared.chans 0).close = true ∧
    (c.shared.cos 1).history = [⟨.send 0 7 true .closed, true, []⟩] ∧ NoWaiters c := by
  obtain ⟨c, hc, hP⟩ := Reach.exists_of_runOk machine.step (stepOk OpenOnly okCall) Start
    (initial_start 2 someBuffers someBuffers_empty) sendsLate
    (fun c => (c.shared.chans 0).close &&
      decide ((c.shared.cos 1).history = [⟨.send 0 7 true .closed, true, []⟩])) (by decide +kernel)
  simp only [Bool.and_eq_true, decide_eq_true_eq] at hP
  exact ⟨c, hP.1, hP.2, closed_no_waiters hc⟩

/-- A blocking select on a closed channel is suspended, and nobody will wake it. -/
theorem closed_waiter : ¬ ∀ c : Config, Reachable c → NoWaiters c := by
  intro hall
  obtain ⟨c, hc, hP⟩ := Reachable.of_run 2 someBuffers someBuffers_empty
    ([.env (.sched 0), .env (.sched 1), .call (.co 0) (.chanClose 0)] ++ steps (.co 0) 12 ++
      [.call (.co 1) (.select [⟨.recv, 0, 0⟩] [0] true)] ++ steps (.co 1) 8 ++
      [.env (.coreWait 1), .env (.unlock 1 (.chan 0))])
    (fun c => decide (c.shared.locks (.chan 0) = none) && (c.shared.chans 0).close &&
      decide ((c.shared.chans 0).que .recv = [⟨1, 0, true, .recv, 0⟩]) &&
      decide ((c.shared.cos 1).qtag = none)) (by decide +kernel)
  simp only [Bool.and_eq_true, decide_eq_true_eq] at hP
  obtain ⟨⟨⟨hfree, hclose⟩, hque⟩, htag⟩ := hP
  exact (hall c hc).queues 0 hfree hclose .recv ⟨1, 0, true, .recv, 0⟩
    (by rw [hque]; exact List.mem_singleton_self _) (.inr htag)

end Coroc.Runtime
