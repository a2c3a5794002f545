import Coroc.Runtime.Turns

/-!
# Whom `coroc_chan_close` wakes

`Closing` follows a run from the step in which a closer sets the mark of a channel.  As long as
it wakes the waiters it holds the lock, so nobody is queued, and whom it claims was a waiter when
it began (`Drains`).  Each of these waiters is claimed once, by the closer or through another
channel of its select, and what its call returns depends on that alone (`Fate`).
-/

namespace Coroc.Runtime

open Coroc.Program Coroc.Transition

variable {s₀ s s' : State} {t : Tid} {a : Stage} {auto : Tid → Stage} {d j k : Coid} {c n : ChanId}
  {q : Quantum} {cmd : Cmd} {r : cmd.Res} {r₀ : Record} {rest : List Record}

/-! ### One command -/

/-- A coroutine in a wait moves nothing but what it is served with. -/
theorem waiting_kept {w : Wait} (h : Acted t cmd s s' d) (ha : Allowed t cmd s)
    (hw : (s.cos d).wait = some w) :
    (s'.cos d).history = (s.cos d).history ∧ ((s'.cos d).moved = (s.cos d).moved ∨
      ∃ u q, w.phase = .taken u q ∧ ((∃ x, cmd = .chan (.copyTo q x)) ∨ cmd = .chan (.copyFrom q))) := by
  have hbusy : (s.cos d).wait ≠ none := fun hnone => nomatch hnone.symm.trans hw
  have hserved : ∀ q k, Holds s k q → q.co = d → w.phase = .taken (.co k) q := by
    rintro q k hholds rfl
    obtain ⟨site, hw'⟩ := hholds.taken
    rw [← Option.some.inj (hw'.symm.trans hw)]
  cases h with
  | none hsame => exact ⟨hsame.history, .inl hsame.moved⟩
  | gives n x _ _ hhist hcmd =>
    refine ⟨hhist, .inr ?_⟩
    rcases hcmd with ⟨rfl, rfl | ⟨q, rfl, -⟩⟩ | ⟨q, k, rfl, hholds, -, hco, -⟩
    · obtain ⟨_, ⟨⟩, -, hin, -⟩ := ha
      exact absurd hin.wait hbusy
    · obtain ⟨_, ⟨⟩, -, hholds, -⟩ := ha
      exact absurd hholds.wait hbusy
    · exact ⟨_, q, hserved q k hholds hco, .inr rfl⟩
  | takes n x _ _ hhist hcmd =>
    refine ⟨hhist, .inr ?_⟩
    rcases hcmd with ⟨rfl, rfl | ⟨q, rfl⟩⟩ | ⟨q, k, y, rfl, hholds, -, hco⟩
    · obtain ⟨_, ⟨⟩, -, hin⟩ := ha
      exact absurd hin.wait hbusy
    · obtain ⟨_, ⟨⟩, -, hholds, -⟩ := ha
      exact absurd hholds.wait hbusy
    · exact ⟨_, q, hserved q k hholds hco, .inl ⟨y, rfl⟩⟩
  | records e ht hcmd =>
    subst ht hcmd
    obtain ⟨_, ⟨⟩, hnone, -⟩ := ha
    exact absurd hnone hbusy

theorem exec_wakes (he : exec t cmd s = some (r, s')) (d : Coid) :
    (s'.cos d).wakes = (s.cos d).wakes ∨ (t = .co d ∧ ∃ ls, cmd = .co (.suspend ls)) ∨
      cmd = .co (.ready d) ∨ d = s.fresh := by
  have heff := exec_effect he
  cases cmd with
  | chan cmd => exact .inl (heff.undisturbed.wakes d)
  | co cmd =>
    cases cmd with
    | suspend ls =>
      obtain ⟨k, rfl, rfl⟩ := heff
      by_cases hd : d = k
      · subst hd
        exact .inr (.inl ⟨rfl, ls, rfl⟩)
      · exact .inl (congrArg Co.wakes (State.setCo_cos_ne s _ hd))
    | ready d' =>
      obtain ⟨-, rfl⟩ := heff
      by_cases hd : d = d'
      · subst hd
        exact .inr (.inr (.inl rfl))
      · exact .inl (congrArg Co.wakes (State.setCo_cos_ne (s.setStatus d' .ready) _ hd))
    | allocate priority role =>
      obtain rfl := heff
      by_cases hd : d = s.fresh
      · exact .inr (.inr (.inr hd))
      · exact .inl (congrArg Co.wakes (State.setCo_cos_ne (s.setStatus s.fresh .wait) _ hd))
    | preempts d' | yield => exact .inl (heff.wakes d)
  | lock cmd | group cmd | async cmd | timer cmd | net cmd => exact .inl (heff.wakes d)

theorem ready_wakes {r : Unit} (hw : Woken s) (he : exec t (.co (.ready d)) s = some (r, s')) :
    (s'.cos d).wakes = 1 := by
  obtain ⟨hst, rfl⟩ : s.status d = .wait ∧ s' = (s.setStatus d .ready).setCo d Co.wake := exec_effect he
  rw [State.setCo_cos_self]
  change (s.cos d).wakes + 1 = 1
  rw [(hw d).2 (.inr hst)]

theorem setChan_same {g : Chan → Chan} (hc : c = n → (s.chans c).Same (g (s.chans c))) :
    (s.chans n).Same ((s.setChan c g).chans n) := by
  by_cases h : n = c
  · subst h
    rw [State.setChan_chans_self]
    exact hc rfl
  · rw [State.setChan_chans_ne _ _ h]
    exact .refl _

theorem exec_draining (hi : Inv s) (ha : Allowed t cmd s) (he : exec t cmd s = some (r, s')) (n : ChanId) :
    (s'.chans n).draining = (s.chans n).draining ∨ cmd = .chan (.setClose n) ∨
      (cmd = .chan (.readIsref n) ∧ s' = s.setChan n Chan.endClose) := by
  have hcalm := exec_calm hi ha he
  cases cmd with
  | chan cmd =>
    cases cmd with
    | queueAdd q x =>
      obtain rfl := hcalm
      exact .inl (s.setChan_proj (f := Chan.add q) Chan.draining (fun _ => rfl) n)
    | setClose c =>
      obtain rfl := hcalm
      by_cases hc : n = c
      · exact .inr (.inl (congrArg _ (congrArg _ hc.symm)))
      · exact .inl (congrArg Chan.draining (State.setChan_chans_ne _ _ hc))
    | readIsref c =>
      obtain rfl := hcalm
      by_cases hc : n = c
      · subst hc
        exact .inr (.inr ⟨rfl, rfl⟩)
      · exact .inl (congrArg Chan.draining (State.setChan_chans_ne _ _ hc))
    | _ => exact .inl (Calm.draining hcalm n)
  | _ => exact .inl (Calm.draining hcalm n)

theorem exec_close (hi : Inv s) (ha : Allowed t cmd s) (he : exec t cmd s = some (r, s'))
    (hclose : (s.chans n).close = true) : (s'.chans n).close = true := by
  obtain ⟨-, hrely⟩ := rules.exec_sound hi trivial ha he
  by_cases ht : Tid.async 0 = t
  · exact (hrely (.async 1) (by rw [← ht]; nofun) rfl).close n hclose
  · exact (hrely (.async 0) ht rfl).close n hclose

/-- Nobody begins to drain a channel that is closed. -/
theorem draining_before (hi : Inv s) (ha : Allowed t cmd s) (he : exec t cmd s = some (r, s'))
    (hclose : (s.chans n).close = true) (hdrain : (s'.chans n).draining = true) :
    (s.chans n).draining = true := by
  rcases exec_draining hi ha he n with hsame | rfl | ⟨-, rfl⟩
  · exact hsame.symm.trans hdrain
  · obtain ⟨_, -, -, hopen, -⟩ := ha
    exact nomatch hopen.symm.trans hclose
  · rw [State.setChan_chans_self] at hdrain
    cases hdrain

/-- A call on channels keeps to commands that begin no other wait. -/
theorem Stage.ok_working (hok : a.ok cmd) (ha : a ≠ .idle) : cmd.working := by
  cases cmd with
  | chan cmd | lock cmd => trivial
  | co cmd =>
    cases cmd with
    | suspend ls | ready d => trivial
    | _ => exact absurd hok ha
  | _ => exact absurd hok ha

/-! ### The waiters of a channel that is being closed -/

/-- The call returned that the channel `n` is closed, and moved nothing. -/
def Record.ClosedAt (n : ChanId) (q : Quantum) (r : Record) : Prop :=
  r.xfers = [] ∧ match r.entry with
    | .send c _ block ret => q.select = false ∧ q.dir = .send ∧ c = n ∧ block = true ∧ ret = .closed
    | .recv c block ret got =>
      q.select = false ∧ q.dir = .recv ∧ c = n ∧ block = true ∧ ret = .closed ∧ got = none
    | .select _ block ret active _ _ => q.select = true ∧ block = true ∧ ret = .closed ∧ active = some n
    | .close _ _ => False

/-- The select was served through another channel. -/
def Record.ServedElsewhere (n : ChanId) (q : Quantum) (r : Record) : Prop :=
  q.select = true ∧ ∃ cases ret m during got,
    r.entry = .select cases true ret (some m) during got ∧ m ≠ n

/-- How far the wait of such a waiter has come: a claim through the channel is the closer's. -/
def Phase.Fate (draining : Bool) (j : Coid) (n : ChanId) (co : Co) : Phase → Prop
  | .idle => draining = true
  | .taken t q => q.chan = n → t = .co j ∧ draining = true
  | .served t (some q) => q.chan = n → t = .co j ∧ draining = true ∧ co.moved = []
  | .served _ none => True
  | .woken q => co.wakes = 1 ∧ (q.chan = n → co.moved = [])

/-- What becomes of the coroutine that was a waiter in the state `s₀`, at the stage `a` of its
    call. -/
inductive Fate (s₀ s : State) (j : Coid) (n : ChanId) (q : Quantum) (a : Stage) : Prop
  | waits (w : Wait) : (s.cos q.co).history = (s₀.cos q.co).history → (s.cos q.co).wait = some w →
      q ∈ w.site.quanta → w.phase.Fate (s.chans n).draining j n (s.cos q.co) → Fate s₀ s j n q a
  | leaves : (s.cos q.co).history = (s₀.cos q.co).history → (s.cos q.co).wait = none →
      (s.cos q.co).wakes = 1 →
      (a = .blocked q ∧ q.select = false ∧ (s.cos q.co).moved = []) ∨
        (∃ m, a = .chosen (some m) ∧ q.select = true ∧ (m = n → (s.cos q.co).moved = [])) →
      Fate s₀ s j n q a
  | returned (r : Record) (rest : List Record) :
      (s.cos q.co).history = (s₀.cos q.co).history ++ r :: rest →
      r.ClosedAt n q ∨ r.ServedElsewhere n q → Fate s₀ s j n q a

/-- The closer `j` of the channel `n` is at work, since the state `s₀`. -/
structure Drains (s₀ s : State) (j : Coid) (n : ChanId) (a : Stage) : Prop where
  lock : s.locks (.chan n) = some (.co j)
  stage : a = .closing n
  same : (s₀.chans n).Same (s.chans n)
  fewer : ∀ dir q, s.Waiter n dir q → s₀.Waiter n dir q
  mine : ∀ d, s.Claimed (.co j) d → ∃ site q, s₀.Waiter n q.dir q ∧ q.co = d ∧
    ((s.cos d).wait = some ⟨site, .taken (.co j) q⟩ ∨ (s.cos d).wait = some ⟨site, .served (.co j) (some q)⟩)

/-- The call of the closer, which claims nobody when it is done with the queues. -/
inductive Closer (s₀ s : State) (j : Coid) (n : ChanId) (a : Stage) : Prop
  | draining : (s.cos j).history = (s₀.cos j).history → a = .closing n → (s.chans n).draining = true →
      Closer s₀ s j n a
  | done : (s.cos j).history = (s₀.cos j).history → a = .done n → (s.chans n).draining = false →
      (∀ d, ¬ s.Claimed (.co j) d) → Closer s₀ s j n a
  | returned (r : Record) (rest : List Record) :
      (s.cos j).history = (s₀.cos j).history ++ r :: rest → r.entry = .close n .success → r.xfers = [] →
      (s.chans n).draining = false → Closer s₀ s j n a

structure Closing (s₀ : State) (j : Coid) (n : ChanId) (auto : Tid → Stage) (s : State) : Prop where
  staged : Staged auto s
  queued : Queued s
  closed : (s.chans n).close = true
  drains : (s.chans n).draining = true → Drains s₀ s j n (auto (.co j))
  closer : Closer s₀ s j n (auto (.co j))
  fates : ∀ q, q.chan = n → s₀.Waiter n q.dir q → Fate s₀ s j n q (auto (.co q.co))

/-! ### A step of another thread -/

theorem Fate.extends (hhist : (s.cos q.co).history = (s₀.cos q.co).history ++ r₀ :: rest)
    (hend : r₀.ClosedAt n q ∨ r₀.ServedElsewhere n q) (he : exec t cmd s = some (r, s')) :
    Fate s₀ s' j n q a := by
  rcases (exec_effect he).history q.co with hsame | ⟨e, -, -, hnew⟩
  · exact .returned r₀ rest (hsame.trans hhist) hend
  · refine .returned r₀ (rest ++ [⟨e, (s.cos q.co).late, (s.cos q.co).moved⟩]) ?_ hend
    rw [hnew, hhist, List.append_assoc]
    rfl

/-- The closer stops draining: nobody is left unclaimed, and it has no claim. -/
theorem Closing.stop {w : Wait} (h : Closing s₀ j n auto s) (ha : Allowed t (.chan (.readIsref n)) s)
    (hq : q.chan = n) (hwait : (s.cos q.co).wait = some w) (hmem : q ∈ w.site.quanta)
    (hfate : w.phase.Fate (s.chans n).draining j n (s.cos q.co)) :
    w.phase.Fate false j n (s.cos q.co) := by
  obtain ⟨k, rfl, hin, hque, hfree⟩ := ha
  have hown : ∀ u, u = .co j → (s.chans n).draining = true → ¬ s.Claimed u q.co := by
    rintro _ rfl hdrain
    have hlock := (h.drains hdrain).lock
    rw [hin.lock] at hlock
    cases hlock
    exact hfree q.co
  obtain ⟨site, phase⟩ := w
  cases phase with
  | idle =>
    subst hq
    have hheld := h.queued q.co site hwait q hmem
    rw [Chan.held_of_hand_none hin.hand, hque] at hheld
    cases hheld
  | taken u q' =>
    intro hq'
    obtain ⟨hu, hdrain⟩ := hfate hq'
    exact absurd ⟨_, hwait, .inl ⟨q', rfl⟩⟩ (hown u hu hdrain)
  | served u o =>
    cases o with
    | none => trivial
    | some q' =>
      intro hq'
      obtain ⟨hu, hdrain, -⟩ := hfate hq'
      exact absurd ⟨_, hwait, .inr ⟨_, rfl⟩⟩ (hown u hu hdrain)
  | woken q' => exact hfate

theorem Inv.waiting_born {w : Wait} (hi : Inv s) (hw : (s.cos d).wait = some w) : d < s.fresh := by
  refine Nat.lt_of_not_le fun hfresh => ?_
  exact nomatch ((hi.fresh d).wait hfresh).symm.trans hw

/-- A step that leaves the wait as it is. -/
theorem Phase.Fate.same {b : Bool} {w : Wait} (hi : Inv s) (ha : Allowed t cmd s)
    (he : exec t cmd s = some (r, s')) (hwait : (s.cos d).wait = some w) (hfate : w.phase.Fate b j n (s.cos d)) :
    w.phase.Fate b j n (s'.cos d) := by
  obtain ⟨-, hmoved⟩ := waiting_kept (exec_acted hi ha he d) ha hwait
  have hphase := (hi.co d).phase _ hwait
  obtain ⟨site, phase⟩ := w
  cases phase with
  | idle => exact hfate
  | taken u q' => exact hfate
  | served u o =>
    cases o with
    | none => trivial
    | some q' =>
      intro hq'
      obtain ⟨hu, hdrain, hnil⟩ := hfate hq'
      rcases hmoved with hmoved | ⟨u', q₁, hp, -⟩
      · exact ⟨hu, hdrain, hmoved.trans hnil⟩
      · cases hp
  | woken q' =>
    obtain ⟨hone, hnil⟩ := hfate
    refine ⟨?_, fun hq' => ?_⟩
    · rcases exec_wakes he d with hsame | ⟨rfl, ls, rfl⟩ | rfl | hfresh
      · exact hsame.trans hone
      · obtain ⟨_, site', ⟨⟩, hidle, -⟩ := ha
        exact nomatch hwait.symm.trans hidle
      · obtain ⟨site', o, hserved⟩ := ha
        exact nomatch hwait.symm.trans hserved
      · exact absurd hfresh (Nat.ne_of_lt (hi.waiting_born hwait))
    · rcases hmoved with hmoved | ⟨u', q₁, hp, -⟩
      · exact hmoved.trans (hnil hq')
      · cases hp

theorem Fate.others (h : Closing s₀ j n auto s) (hi : Inv s) (hw : Woken s) (ha : Allowed t cmd s)
    (he : exec t cmd s = some (r, s')) (hq : q.chan = n) (hne : Tid.co q.co ≠ t)
    (hfate : Fate s₀ s j n q (auto (.co q.co))) : Fate s₀ s' j n q (auto (.co q.co)) := by
  have hrely := (rules.exec_sound hi trivial ha he).2 (.co q.co) hne rfl
  cases hfate with
  | returned r₀ rest hhist hend => exact .extends hhist hend he
  | leaves hhist hwait hone hstage =>
    have hborn : q.co < s.fresh := by
      refine Nat.lt_of_not_le fun hfresh => ?_
      have hidle := h.staged.unborn q.co hfresh
      rcases hstage with ⟨hblocked, -⟩ | ⟨m, hchosen, -⟩
      · exact nomatch hblocked.symm.trans hidle
      · exact nomatch hchosen.symm.trans hidle
    obtain ⟨hsaving, hasleep, -⟩ := (hi.co q.co).awake hwait
    obtain ⟨hco, -⟩ := hrely.self q.co rfl hborn hasleep hsaving
    rw [← hco] at hhist hwait hone hstage
    exact .leaves hhist hwait hone hstage
  | waits w hhist hwait hmem hphase =>
    have hacted := exec_acted hi ha he q.co
    obtain ⟨hkept, hmoved⟩ := waiting_kept hacted ha hwait
    have hhist' := hkept.trans hhist
    have hsame : (s'.cos q.co).wait = (s.cos q.co).wait → (s'.chans n).draining = (s.chans n).draining →
        Fate s₀ s' j n q (auto (.co q.co)) := fun hwait' hdrain =>
      .waits w hhist' (hwait'.trans hwait) hmem (hdrain ▸ hphase.same hi ha he hwait)
    rcases exec_draining hi ha he n with hdrain | rfl | ⟨rfl, rfl⟩
    · have hturn := exec_turn hi ha he q.co
      have hok := (hi.co q.co).phase _ hwait
      rw [hwait] at hturn
      generalize hwait' : (s'.cos q.co).wait = w' at hturn
      cases hturn with
      | same => exact hsame (hwait'.trans hwait.symm) hdrain
      | queue qs q' x w ht => exact absurd ht.symm hne
      | finish qs q' ht => exact absurd ht.symm hne
      | call site hnil =>
        rw [hnil] at hmem
        cases hmem
      | rise site =>
        have hnil : site.quanta = [] := hok.2.1
        rw [hnil] at hmem
        cases hmem
      | claim site q' hco hwaiter hlock _ =>
        refine .waits _ hhist' hwait' hmem fun hq' => ?_
        have hold := (h.drains hphase).lock
        rw [hq', hold] at hlock
        exact ⟨(Option.some.inj hlock).symm, hdrain.trans hphase⟩
      | serve site q' x hco hcmd =>
        refine .waits _ hhist' hwait' hmem fun hq' => ?_
        obtain ⟨ht, hd⟩ := hphase hq'
        refine ⟨ht, hdrain.trans hd, ?_⟩
        have hnil : (s.cos q.co).moved = [] := hok.2.2.2.1.1
        -- the closer hands nothing over
        rcases hcmd with rfl | rfl | rfl
        · obtain ⟨_, -, -, -, -, -, hopen⟩ := ha
          rw [hq', hd] at hopen
          cases hopen
        · obtain ⟨_, -, -, -, -, -, hopen⟩ := ha
          rw [hq', hd] at hopen
          cases hopen
        · rcases hmoved with hmoved | ⟨u, q₁, -, ⟨x, hcopy⟩ | hcopy⟩
          · exact hmoved.trans hnil
          · cases hcopy
          · cases hcopy
      | wake site q' hcmd =>
        subst hcmd
        refine .waits _ hhist' hwait' hmem ⟨ready_wakes hw he, fun hq' => ?_⟩
        rcases hmoved with hmoved | ⟨u, q₁, hp, -⟩
        · exact hmoved.trans (hphase hq').2.2
        · cases hp
    · obtain ⟨_, -, -, hopen, -⟩ := ha
      exact nomatch hopen.symm.trans h.closed
    · have hdrain : ((s.setChan n Chan.endClose).chans n).draining = false := by
        rw [State.setChan_chans_self]
        rfl
      refine .waits w hhist hwait hmem ?_
      rw [hdrain]
      exact h.stop ha hq hwait hmem hphase

/-! ### A step of the coroutine itself -/

/-- What a wait on the channel `n` that is over makes the call return. -/
theorem returns_ends {e : Entry} (late : Bool) {l : List Xfer} (hret : a.returns e) (hok : Record.Ok ⟨e, late, l⟩)
    (hq : q.chan = n) (hstage : (a = .blocked q ∧ q.select = false ∧ l = []) ∨
      (∃ m, a = .chosen (some m) ∧ q.select = true ∧ (m = n → l = []))) :
    Record.ClosedAt n q ⟨e, late, l⟩ ∨ Record.ServedElsewhere n q ⟨e, late, l⟩ := by
  rcases hstage with ⟨rfl, hplain, rfl⟩ | ⟨m, rfl, hsel, hnil⟩
  · left
    refine ⟨rfl, ?_⟩
    cases e with
    | send c x block ret =>
      obtain ⟨hdir, hc, hblock, hbusy⟩ := hret
      refine ⟨hplain, hdir, hc.trans hq, hblock, ?_⟩
      rcases hok with ⟨-, hx⟩ | ⟨hbc, -⟩
      · cases hx
      · exact hbc.resolve_left hbusy
    | recv c block ret got =>
      obtain ⟨hdir, hc, hblock, hbusy⟩ := hret
      obtain ⟨hx, hgot⟩ := hok
      cases got with
      | some y => cases hx
      | none =>
        rcases hgot with ⟨-, hsome⟩ | ⟨hbc, -⟩
        · cases hsome
        · exact ⟨hplain, hdir, hc.trans hq, hblock, hbc.resolve_left hbusy, rfl⟩
    | select cases block ret active during got => exact hret.elim
    | close c ret => exact hret.elim
  · cases e with
    | select cases block ret active during got =>
      obtain ⟨hne, rfl, rfl⟩ := hret
      by_cases hm : m = n
      · obtain rfl := hnil hm
        left
        rcases hok with ⟨hnil, -⟩ | ⟨-, e, -, -, y, -, hx, -⟩ | ⟨-, hclosed, -⟩ | ⟨hb, -⟩
        · exact absurd hnil hne
        · cases hx
        · exact ⟨rfl, hsel, rfl, hclosed, congrArg some hm⟩
        · cases hb
      · exact .inr ⟨hsel, cases, ret, m, during, got, rfl, hm⟩
    | send c x block ret => exact hret.elim
    | recv c block ret got => exact hret.elim
    | close c ret => exact hret.elim

/-- The coroutine is on its way from its wait to the end of its call. -/
theorem Fate.leave (ha : Allowed (.co q.co) cmd s) (hok : a.ok cmd)
    (he : exec (.co q.co) cmd s = some (r, s')) (hq : q.chan = n)
    (hhist : (s.cos q.co).history = (s₀.cos q.co).history) (hwait : (s.cos q.co).wait = none)
    (hone : (s.cos q.co).wakes = 1)
    (hstage : (a = .blocked q ∧ q.select = false ∧ (s.cos q.co).moved = []) ∨
      (∃ m, a = .chosen (some m) ∧ q.select = true ∧ (m = n → (s.cos q.co).moved = []))) :
    Fate s₀ s' j n q (a.next cmd r) := by
  have hkeep : s'.cos q.co = s.cos q.co → a.next cmd r = a → Fate s₀ s' j n q (a.next cmd r) := by
    intro hco hnext
    rw [← hco] at hhist hwait hone hstage
    rw [hnext]
    exact .leaves hhist hwait hone hstage
  have hend := fun e (hret : a.returns e) hrec => returns_ends (s.cos q.co).late hret hrec hq hstage
  have hcase : (∃ q', a = .blocked q') ∨ ∃ m, a = .chosen m := by
    rcases hstage with ⟨rfl, -⟩ | ⟨m, rfl, -⟩
    · exact .inl ⟨q, rfl⟩
    · exact .inr ⟨some m, rfl⟩
  obtain ⟨hact, he⟩ := exec_inv he
  cases cmd with
  | lock cmd =>
    cases cmd with
    | acquire l =>
      simp only [execLock] at he
      split at he
      · cases he
        exact hkeep rfl rfl
      · cases he
    | release l =>
      cases he
      exact hkeep rfl rfl
  | co cmd =>
    cases cmd with
    | suspend ls =>
      obtain ⟨_, site, ⟨⟩, hidle, -⟩ := ha
      cases hwait.symm.trans hidle
    | ready d =>
      simp only [execCo] at he
      split at he
      · next hst =>
        cases he
        have hne : q.co ≠ d := by
          rintro rfl
          cases (active_running hact).symm.trans hst
        exact hkeep (State.setCo_cos_ne _ _ hne) rfl
      · cases he
    | _ => rcases hcase with ⟨q', rfl⟩ | ⟨m, rfl⟩ <;> cases hok
  | chan cmd =>
    cases cmd with
    | record e =>
      obtain ⟨_, ⟨⟩, -, hrec, -⟩ := ha
      cases he
      refine .returned ⟨e, (s.cos q.co).late, (s.cos q.co).moved⟩ [] ?_ (hend e hok hrec)
      rw [State.setCo_cos_self, ← hhist]
      rfl
    | readClose c =>
      cases he
      refine hkeep rfl ?_
      rcases hcase with ⟨q', rfl⟩ | ⟨m, rfl⟩ <;> rfl
    | readQuantum q' =>
      obtain ⟨_, qs, q₁, ⟨⟩, hwoken, -⟩ := ha
      cases hwait.symm.trans hwoken
    | queueExtract q' =>
      obtain ⟨_, qs, q₁, ⟨⟩, hwoken, -⟩ := ha
      cases hwait.symm.trans hwoken
    | clearTag =>
      cases he
      change Fate s₀ _ j n q a
      refine .leaves ?_ ?_ ?_ ?_
      · rw [State.setCo_cos_self]
        exact hhist
      · rw [State.setCo_cos_self]
        rfl
      · rw [State.setCo_cos_self]
        exact hone
      · rw [State.setCo_cos_self]
        exact hstage
    | copyTo q' x => rcases hcase with ⟨q', rfl⟩ | ⟨m, rfl⟩ <;> rcases hok with hok | hok <;> cases hok
    | copyToBuff c x => rcases hcase with ⟨q', rfl⟩ | ⟨m, rfl⟩ <;> rcases hok with hok | hok <;> cases hok
    | copyFrom q' => rcases hcase with ⟨q', rfl⟩ | ⟨m, rfl⟩ <;> rcases hok with hok | ⟨c, hok⟩ <;> cases hok
    | _ => rcases hcase with ⟨q', rfl⟩ | ⟨m, rfl⟩ <;> first | exact hok.elim | cases hok
  | _ => rcases hcase with ⟨q', rfl⟩ | ⟨m, rfl⟩ <;> cases hok

/-- A waiter of the channel sleeps until its wait is over. -/
theorem Closing.awake {w : Wait} (h : Closing s₀ j n auto s) (hi : Inv s) (hrun : s.status q.co = .running)
    (hq : q.chan = n) (hwait : (s.cos q.co).wait = some w) (hmem : q ∈ w.site.quanta)
    (hfate : w.phase.Fate (s.chans n).draining j n (s.cos q.co)) : ∃ q', w.phase = .woken q' := by
  have hphase := (hi.co q.co).phase _ hwait
  obtain ⟨site, phase⟩ := w
  cases phase with
  | woken q' => exact ⟨q', rfl⟩
  | idle =>
    have hdrains := h.drains hfate
    rcases hphase.1 with ⟨-, hlocks⟩ | ⟨hsaving, -⟩ | hasleep
    · have hlock := hlocks _ (Quantum.lock_mem hmem)
      rw [hq, hdrains.lock] at hlock
      obtain rfl : j = q.co := Tid.co.inj (Option.some.inj hlock)
      have hstage := h.staged.stage q.co
      rw [hdrains.stage] at hstage
      have hnil : site.quanta = [] := hstage _ hwait
      rw [hnil] at hmem
      cases hmem
    · exact nomatch hrun.symm.trans hsaving
    · exact nomatch hrun.symm.trans hasleep
  | taken u q' => exact nomatch hrun.symm.trans hphase.1
  | served u o => cases o <;> exact nomatch hrun.symm.trans hphase.1

theorem Fate.own (h : Closing s₀ j n auto s) (hi : Inv s) (ha : Allowed (.co q.co) cmd s)
    (hok : (auto (.co q.co)).ok cmd) (he : exec (.co q.co) cmd s = some (r, s')) (hq : q.chan = n)
    (hfate : Fate s₀ s j n q (auto (.co q.co))) :
    Fate s₀ s' j n q ((auto (.co q.co)).next cmd r) := by
  obtain ⟨hact, -⟩ := exec_inv he
  have hrun := active_running hact
  cases hfate with
  | returned r₀ rest hhist hend => exact .extends hhist hend he
  | leaves hhist hwait hone hstage => exact .leave ha hok he hq hhist hwait hone hstage
  | waits w hhist hwait hmem hphase =>
    obtain ⟨hkept, hmoved⟩ := waiting_kept (exec_acted hi ha he q.co) ha hwait
    obtain ⟨q', hwoken⟩ := h.awake hi hrun hq hwait hmem hphase
    obtain ⟨site, phase⟩ := w
    obtain rfl : phase = .woken q' := hwoken
    have hsame := hphase.same hi ha he hwait
    have hdrain : (s'.chans n).draining = (s.chans n).draining := by
      rcases exec_draining hi ha he n with hdrain | rfl | ⟨rfl, -⟩
      · exact hdrain
      · obtain ⟨_, ⟨⟩, hin, -⟩ := ha
        cases hwait.symm.trans hin.wait
      · obtain ⟨_, ⟨⟩, hin, -⟩ := ha
        cases hwait.symm.trans hin.wait
    have hturn := exec_turn hi ha he q.co
    have hok' := (hi.co q.co).phase _ hwait
    rw [hwait] at hturn
    generalize hwait' : (s'.cos q.co).wait = w' at hturn
    cases hturn with
    | same => exact .waits _ (hkept.trans hhist) hwait' hmem (hdrain ▸ hsame)
    | queue qs q₁ x w ht hcmd hold =>
      rcases hold with ⟨hnone, -⟩ | hidle
      · cases hnone
      · cases hidle
    | finish qs q₁ ht hlocks hcmd =>
      obtain ⟨hone, hnil⟩ := hsame
      have hstage := h.staged.stage q.co
      refine .leaves (hkept.trans hhist) hwait' hone ?_
      generalize auto (.co q.co) = a at hok hstage
      have hmem' : q' ∈ qs := hok'.2.1
      rcases hcmd with rfl | ⟨q₂, hq₂, rfl, hplain⟩
      · rcases hok with hpolls | ⟨active, rfl⟩
        · have hquiet : a.quiet := by cases a <;> trivial
          have hempty : qs = [] := (Stage.waitOk_quiet hquiet).mp hstage _ hwait
          rw [hempty] at hmem'
          cases hmem'
        · obtain ⟨htag, hall⟩ := hstage.2 _ hwait
          have htag' : (s.cos q.co).qtag = q'.tag := hok'.2.2.1
          rw [htag', Quantum.tag, if_pos (hall q' hmem')] at htag
          exact .inr ⟨q'.chan, congrArg Stage.chosen htag.symm, hall q hmem, hnil⟩
      · rcases hok with ⟨q₃, rfl⟩ | ⟨active, rfl⟩
        · obtain ⟨hqs, hplain'⟩ := hstage _ hwait
          have honly : ∀ q ∈ qs, q = q₃ := fun q hq => List.mem_singleton.mp (hqs ▸ hq)
          obtain rfl := honly q hmem
          obtain rfl := honly q' hmem'
          exact .inl ⟨rfl, hplain', hnil hq⟩
        · cases hplain.symm.trans ((hstage.2 _ hwait).2 q₂ hq₂)

/-! ### The closer at work -/

/-- **The items of a closed channel.**  Nobody has a claim through it unless it is being closed, and
    then nothing is handed over: what is left is to take items out of the buffer, or to drop them. -/
theorem exec_items (hi : Inv s) (ha : Allowed t cmd s) (hclose : (s.chans n).close = true)
    (htaken : ∀ k q, Holds s k q → q.chan = n → (s.chans n).draining = true)
    (he : exec t cmd s = some (r, s')) :
    (s.chans n).Same (s'.chans n) ∨ cmd = .chan (.cleanBuff n) ∨
      ∃ k x b, t = .co k ∧ cmd = .chan (.copyFromBuff n) ∧ (s.chans n).buffer.copyFromBuff = some (x, b) ∧
        s' = s.popItem k n x b := by
  have heff := exec_effect he
  unfold Effect at heff
  split at heff
  · obtain ⟨k, -, rfl⟩ := heff
    exact .inl (.refl _)
  · obtain ⟨-, rfl⟩ := heff
    exact .inl (.refl _)
  · subst heff
    exact .inl (.refl _)
  · obtain ⟨k, rfl, -, hholds, -, -, hopen⟩ := ha
    obtain ⟨_, -, rfl⟩ := heff
    refine .inl (setChan_same fun hq => ?_)
    rw [hq, htaken k _ hholds hq] at hopen
    cases hopen
  · obtain ⟨k, rfl, -, hholds, -, -, hopen⟩ := ha
    obtain ⟨_, -, rfl⟩ := heff
    refine .inl (setChan_same fun hq => ?_)
    rw [hq, htaken k _ hholds hq] at hopen
    cases hopen
  · next c =>
    subst heff
    by_cases hc : c = n
    · exact .inr (.inl (by rw [hc]))
    · exact .inl (setChan_same fun h => absurd h hc)
  · next c x =>
    obtain ⟨_, -, -, -, -, hopen, -⟩ := ha
    rcases heff with rfl | ⟨_, b, -, -, rfl⟩
    · exact .inl (.refl _)
    · refine .inl (setChan_same fun hc => ?_)
      rw [hc, hclose] at hopen
      cases hopen
  · next c =>
    rcases heff with rfl | ⟨k, x, b, rfl, hb, rfl⟩
    · exact .inl (.refl _)
    · by_cases hc : c = n
      · subst hc
        exact .inr (.inr ⟨k, x, b, rfl, rfl, hb, rfl⟩)
      · exact .inl (setChan_same fun h => absurd h hc)
  · obtain ⟨k, -, rfl⟩ := heff
    exact .inl (.refl _)
  · exact .inl (heff.chan n)

theorem Stage.closing_next (hok : (Stage.closing n).ok cmd) (hc : ∀ c, cmd ≠ .chan (.readIsref c)) :
    (Stage.closing n).next cmd r = .closing n := by
  cases cmd with
  | chan cmd =>
    cases cmd with
    | readIsref c => exact absurd rfl (hc c)
    | begin c | setClose c | readTag => cases hok
    | record e => cases e <;> exact hok.elim
    | readClose c => exact absurd rfl (hok n)
    | copyFromBuff c => exact hok.elim
    | queueAdd q x => exact hok.elim
    | copyFrom q => rcases hok with hok | ⟨c, hok⟩ <;> cases hok
    | _ => rfl
  | _ => rfl

/-- The lock stays with the closer. -/
theorem Drains.locked (h : Drains s₀ s j n a) (hi' : Inv s') (hdrain : (s'.chans n).draining = true)
    (hrely : ∀ u, u ≠ t → u.isThread = true → Rely u s s') : s'.locks (.chan n) = some (.co j) := by
  by_cases hj : Tid.co j = t
  · obtain ⟨k, hk⟩ := (hi'.chan n).locked (.inr hdrain)
    by_cases hkt : Tid.co k = t
    · rw [hk, hkt, hj]
    · have hold := ((hrely _ hkt rfl).locks (.chan n)).mpr hk
      rw [h.lock, hj] at hold
      exact absurd (Option.some.inj hold).symm hkt
  · exact ((hrely _ hj rfl).locks (.chan n)).mp h.lock

theorem Drains.same_exec (h : Drains s₀ s j n (auto (.co j))) (hi : Inv s) (ha : Allowed t cmd s)
    (hok : (auto t).ok cmd) (hclose : (s.chans n).close = true) (hdrain : (s.chans n).draining = true)
    (he : exec t cmd s = some (r, s')) : (s.chans n).Same (s'.chans n) := by
  have hstage : ∀ k, s.locks (.chan n) = some (.co k) → auto (.co k) = .closing n := by
    intro k hk
    rw [h.lock] at hk
    cases hk
    exact h.stage
  rcases exec_items hi ha hclose (fun _ _ _ _ => hdrain) he with hsame | rfl | ⟨k, x, b, rfl, rfl, -, -⟩
  · exact hsame
  · obtain ⟨k, rfl, hin, -⟩ := ha
    rw [hstage k hin.lock] at hok
    cases hok
  · obtain ⟨_, ⟨⟩, -, hin⟩ := ha
    rw [hstage k hin.lock] at hok
    exact hok.elim

theorem Drains.fewer_exec (h : Drains s₀ s j n a) (hi : Inv s) (ha : Allowed t cmd s)
    (hdrain : (s.chans n).draining = true) (he : exec t cmd s = some (r, s')) {dir : Dir}
    (hq : s'.Waiter n dir q) : s₀.Waiter n dir q := by
  apply h.fewer
  have hcalm := exec_calm hi ha he
  cases cmd with
  | chan cmd =>
    cases cmd with
    | queueAdd q' x =>
      obtain rfl := hcalm
      rcases enqueue_waiter hi ha hq with hold | ⟨-, rfl, -⟩
      · exact hold
      · obtain ⟨_, -, -, -, -, -, -, hopen, -⟩ := ha
        exact nomatch hopen.symm.trans hdrain
    | setClose c =>
      obtain rfl := hcalm
      exact setChan_waiter (g := Chan.startClose) (fun _ => rfl) hq
    | readIsref c =>
      obtain rfl := hcalm
      exact setChan_waiter (g := Chan.endClose) (fun _ => rfl) hq
    | _ => exact Calm.waiter hcalm hi hq
  | _ => exact Calm.waiter hcalm hi hq

/-- Whom the closer claims was a waiter when it began. -/
theorem Drains.mine_exec (h : Drains s₀ s j n (auto (.co j))) (hi : Inv s) (ha : Allowed t cmd s)
    (hok : (auto t).ok cmd) (he : exec t cmd s = some (r, s')) (hd : s'.Claimed (.co j) d) :
    ∃ site q, s₀.Waiter n q.dir q ∧ q.co = d ∧
      ((s'.cos d).wait = some ⟨site, .taken (.co j) q⟩ ∨
        (s'.cos d).wait = some ⟨site, .served (.co j) (some q)⟩) := by
  have hworking : t = .co j → cmd.working := by
    rintro rfl
    refine Stage.ok_working hok ?_
    rw [h.stage]
    nofun
  have hturn := exec_turn hi ha he d
  obtain ⟨w', hw', hphase⟩ := hd
  rw [hw'] at hturn ⊢
  generalize hw : (s.cos d).wait = w at hturn
  cases hturn with
  | same =>
    obtain ⟨site, q, hq, hco, hwait⟩ := h.mine d ⟨w', hw, hphase⟩
    rw [hw] at hwait
    exact ⟨site, q, hq, hco, hwait⟩
  | publish site => rcases hphase with ⟨q, hp⟩ | ⟨o, hp⟩ <;> cases hp
  | queue qs q x => rcases hphase with ⟨q, hp⟩ | ⟨o, hp⟩ <;> cases hp
  | claim site q hco hwaiter hlock hcmd =>
    have ht : t = .co j := by
      rcases hphase with ⟨q, hp⟩ | ⟨o, hp⟩ <;> cases hp
      rfl
    subst ht
    -- the closer takes quanta from the queues of its own channel
    have hq : q.chan = n := by
      rw [h.stage] at hok
      rcases hcmd with rfl | rfl <;> exact hok.symm
    rw [hq] at hwaiter
    exact ⟨site, q, h.fewer _ _ hwaiter, hco, .inl rfl⟩
  | serve site q x hco hcmd =>
    have ht : t = .co j := by
      rcases hphase with ⟨q, hp⟩ | ⟨o, hp⟩ <;> cases hp
      rfl
    subst ht
    obtain ⟨site', q', hq', hco', hwait⟩ := h.mine d ⟨_, hw, .inl ⟨q, rfl⟩⟩
    rw [hw] at hwait
    rcases hwait with hwait | hwait <;> cases hwait
    exact ⟨site, q, hq', hco', .inr rfl⟩
  | call site hnil hnot =>
    have ht : t = .co j := by
      rcases hphase with ⟨q, hp⟩ | ⟨o, hp⟩ <;> cases hp
      rfl
    exact absurd (hworking ht) hnot
  | born hnot =>
    have ht : t = .co j := by
      rcases hphase with ⟨q, hp⟩ | ⟨o, hp⟩ <;> cases hp
      rfl
    exact absurd (hworking ht) hnot
  | wake site q => rcases hphase with ⟨q, hp⟩ | ⟨o, hp⟩ <;> cases hp

theorem Closing.drains_exec (h : Closing s₀ j n auto s) (hi : Inv s) (ha : Allowed t cmd s)
    (hok : (auto t).ok cmd) (he : exec t cmd s = some (r, s')) (hdrain' : (s'.chans n).draining = true) :
    Drains s₀ s' j n (Function.update auto t ((auto t).next cmd r) (.co j)) := by
  obtain ⟨hi', hrely⟩ := rules.exec_sound hi trivial ha he
  have hdrain := draining_before hi ha he h.closed hdrain'
  have hold := h.drains hdrain
  refine ⟨hold.locked hi' hdrain' fun u hu ht => hrely u hu ht, ?_, ?_, ?_, ?_⟩
  · by_cases ht : Tid.co j = t
    · subst ht
      rw [Function.update_self]
      rw [hold.stage] at hok ⊢
      refine Stage.closing_next hok ?_
      rintro c rfl
      obtain rfl : n = c := Stage.closing.inj hok
      obtain ⟨-, he⟩ := exec_inv he
      cases he
      rw [State.setChan_chans_self] at hdrain'
      cases hdrain'
    · rw [Function.update_of_ne ht]
      exact hold.stage
  · exact hold.same.trans (hold.same_exec hi ha hok h.closed hdrain he)
  · exact fun dir q hq => hold.fewer_exec hi ha hdrain he hq
  · exact fun d hd => hold.mine_exec hi ha hok he hd

/-- A thread claims nobody but with the commands of `fetch_quantum`, and outside the channels. -/
theorem claimed_exec {u : Tid} (hi : Inv s) (ha : Allowed t cmd s) (he : exec t cmd s = some (r, s'))
    (hd : s'.Claimed u d) : s.Claimed u d ∨ (u = t ∧
      ((∃ q, cmd = .chan (.queueRem q.chan q.dir) ∨ cmd = .chan (.casTag q)) ∨ ¬ cmd.working)) := by
  have hturn := exec_turn hi ha he d
  obtain ⟨w', hw', hphase⟩ := hd
  rw [hw'] at hturn
  generalize hw : (s.cos d).wait = w at hturn
  cases hturn with
  | same => exact .inl ⟨w', hw, hphase⟩
  | publish site => rcases hphase with ⟨q, hp⟩ | ⟨o, hp⟩ <;> cases hp
  | queue qs q x => rcases hphase with ⟨q, hp⟩ | ⟨o, hp⟩ <;> cases hp
  | claim site q hco hwaiter hlock hcmd =>
    rcases hphase with ⟨q', hp⟩ | ⟨o, hp⟩ <;> cases hp
    exact .inr ⟨rfl, .inl ⟨q, hcmd⟩⟩
  | serve site q x hco hcmd =>
    rcases hphase with ⟨q', hp⟩ | ⟨o, hp⟩ <;> cases hp
    exact .inl ⟨_, hw, .inl ⟨q, rfl⟩⟩
  | call site hnil hnot =>
    rcases hphase with ⟨q', hp⟩ | ⟨o, hp⟩ <;> cases hp
    exact .inr ⟨rfl, .inr hnot⟩
  | born hnot =>
    rcases hphase with ⟨q', hp⟩ | ⟨o, hp⟩ <;> cases hp
    exact .inr ⟨rfl, .inr hnot⟩
  | wake site q => rcases hphase with ⟨q', hp⟩ | ⟨o, hp⟩ <;> cases hp

/-- The mark is set, so only the closer ends the draining of its channel. -/
theorem Closing.draining_exec (h : Closing s₀ j n auto s) (hi : Inv s) (ha : Allowed t cmd s)
    (he : exec t cmd s = some (r, s')) : (s'.chans n).draining = (s.chans n).draining ∨
      ((s.chans n).draining = true ∧ t = .co j ∧ cmd = .chan (.readIsref n) ∧
        s' = s.setChan n Chan.endClose) := by
  rcases exec_draining hi ha he n with hsame | rfl | ⟨rfl, rfl⟩
  · exact .inl hsame
  · obtain ⟨_, -, -, hopen, -⟩ := ha
    exact nomatch hopen.symm.trans h.closed
  · cases hdrain : (s.chans n).draining with
    | false =>
      rw [State.setChan_chans_self]
      exact .inl rfl
    | true =>
      obtain ⟨k, rfl, hin, -⟩ := ha
      have hlock := hin.lock.symm.trans (h.drains hdrain).lock
      exact .inr ⟨rfl, Option.some.inj hlock, rfl, rfl⟩

theorem Stage.done_next (hok : (Stage.done n).ok cmd) (hrec : ∀ e, cmd ≠ .chan (.record e)) :
    (Stage.done n).next cmd r = .done n := by
  cases cmd with
  | chan cmd =>
    cases cmd with
    | record e => exact absurd rfl (hrec e)
    | begin c | setClose c | readTag | readIsref c => cases hok
    | queueAdd q x => exact hok.elim
    | copyFromBuff c => exact hok.elim
    | copyFrom q => rcases hok with hok | ⟨c, hok⟩ <;> cases hok
    | _ => rfl
  | _ => rfl

theorem record_history {e : Entry} {r : Unit} (he : exec (.co k) (.chan (.record e)) s = some (r, s')) :
    (s'.cos k).history = (s.cos k).history ++ [⟨e, (s.cos k).late, (s.cos k).moved⟩] := by
  obtain ⟨-, he⟩ := exec_inv he
  cases he
  rw [State.setCo_cos_self]
  rfl

theorem exec_history {k : Coid} (he : exec t cmd s = some (r, s')) (hrec : t = .co k → ∀ e, cmd ≠ .chan (.record e)) :
    (s'.cos k).history = (s.cos k).history := by
  rcases (exec_effect he).history k with hsame | ⟨e, hcmd, ht, -⟩
  · exact hsame
  · exact absurd hcmd (hrec ht e)

theorem Closing.closer_exec (h : Closing s₀ j n auto s) (hi : Inv s) (ha : Allowed t cmd s)
    (hok : (auto t).ok cmd) (he : exec t cmd s = some (r, s')) :
    Closer s₀ s' j n (Function.update auto t ((auto t).next cmd r) (.co j)) := by
  have hdrain := h.draining_exec hi ha he
  have hfalse : (s.chans n).draining = false → (s'.chans n).draining = false := by
    intro hf
    rcases hdrain with hsame | ⟨ht, -⟩
    · exact hsame.trans hf
    · exact nomatch hf.symm.trans ht
  cases h.closer with
  | draining hhist hstage hd =>
    by_cases ht : Tid.co j = t
    · subst ht
      rw [Function.update_self]
      rw [hstage] at hok ⊢
      rcases hdrain with hsame | ⟨-, -, rfl, rfl⟩
      · have hrec : ∀ e, cmd ≠ .chan (.record e) := by
          rintro e rfl
          cases e <;> exact hok.elim
        refine .draining ((exec_history he fun _ => hrec).trans hhist) (Stage.closing_next hok ?_) (hsame.trans hd)
        rintro c rfl
        obtain rfl : n = c := Stage.closing.inj hok
        obtain ⟨-, he⟩ := exec_inv he
        cases he
        rw [State.setChan_chans_self, hd] at hsame
        cases hsame
      · obtain ⟨_, -, -, -, hfree⟩ := ha
        refine .done hhist rfl ?_ hfree
        rw [State.setChan_chans_self]
        rfl
    · rw [Function.update_of_ne ht]
      rcases hdrain with hsame | ⟨-, rfl, -⟩
      · exact .draining ((exec_history he fun h => absurd h.symm ht).trans hhist) hstage (hsame.trans hd)
      · exact absurd rfl ht
  | done hhist hstage hd hfree =>
    by_cases ht : Tid.co j = t
    · subst ht
      rw [Function.update_self]
      rw [hstage] at hok ⊢
      by_cases hrec : ∃ e, cmd = .chan (.record e)
      · obtain ⟨e, rfl⟩ := hrec
        obtain ⟨_, ⟨⟩, -, hrecord, -⟩ := ha
        cases e with
        | close c ret =>
          obtain ⟨rfl, rfl⟩ := hok
          refine .returned _ [] ?_ rfl hrecord.2 (hfalse hd)
          rw [record_history he, hhist]
        | _ => exact hok.elim
      · have hrec' : ∀ e, cmd ≠ .chan (.record e) := fun e h => hrec ⟨e, h⟩
        refine .done ((exec_history he fun _ => hrec').trans hhist) (Stage.done_next hok hrec') (hfalse hd) ?_
        intro d hclaimed
        rcases claimed_exec hi ha he hclaimed with hold | ⟨-, ⟨q, rfl | rfl⟩ | hnot⟩
        · exact hfree d hold
        · exact hok.elim
        · exact hok.elim
        · exact hnot (Stage.ok_working hok (by nofun))
    · rw [Function.update_of_ne ht]
      refine .done ((exec_history he fun h => absurd h.symm ht).trans hhist) hstage (hfalse hd) ?_
      intro d hclaimed
      rcases claimed_exec hi ha he hclaimed with hold | ⟨hu, -⟩
      · exact hfree d hold
      · exact ht hu
  | returned rec rest hhist hentry hxfers hd =>
    rcases (exec_effect he).history j with hsame | ⟨e, -, -, hnew⟩
    · exact .returned rec rest (hsame.trans hhist) hentry hxfers (hfalse hd)
    · refine .returned rec (rest ++ [⟨e, (s.cos j).late, (s.cos j).moved⟩]) ?_ hentry hxfers (hfalse hd)
      rw [hnew, hhist, List.append_assoc]
      rfl

theorem Closing.exec (h : Closing s₀ j n auto s) (hi : Inv s) (hw : Woken s) (ha : Allowed t cmd s)
    (hok : (auto t).ok cmd) (he : exec t cmd s = some (r, s')) :
    Closing s₀ j n (Function.update auto t ((auto t).next cmd r)) s' := by
  have hi' : Inv s' := (rules.exec_sound hi trivial ha he).1
  refine ⟨h.staged.exec hi ha hok he, h.queued.exec hi ha he hi', exec_close hi ha he h.closed,
    h.drains_exec hi ha hok he, h.closer_exec hi ha hok he, fun q hq hwaiter => ?_⟩
  have hfate := h.fates q hq hwaiter
  by_cases ht : Tid.co q.co = t
  · subst ht
    rw [Function.update_self]
    exact .own h hi ha hok he hq hfate
  · rw [Function.update_of_ne ht]
    exact .others h hi hw ha he hq ht hfate

/-- A step that leaves coroutines, channels and the lock as they are. -/
theorem Closing.congr (h : Closing s₀ j n auto s) (hstaged : Staged auto s') (hcos : s'.cos = s.cos)
    (hchans : s'.chans = s.chans)
    (hlock : s.locks (.chan n) = some (.co j) → s'.locks (.chan n) = some (.co j)) :
    Closing s₀ j n auto s' := by
  refine ⟨hstaged, h.queued.congr hcos hchans, hchans ▸ h.closed, fun hdrain => ?_, ?_, fun q hq hwaiter => ?_⟩
  · rw [hchans] at hdrain
    obtain ⟨hl, hstage, hsame, hfewer, hmine⟩ := h.drains hdrain
    refine ⟨hlock hl, hstage, hchans ▸ hsame, fun dir q hq => hfewer dir q ?_, fun d hd => ?_⟩
    · obtain ⟨hheld, hidle⟩ := hq
      exact ⟨hchans ▸ hheld, hcos ▸ hidle⟩
    · unfold State.Claimed at hd
      rw [hcos] at hd ⊢
      exact hmine d hd
  · cases h.closer with
    | draining hhist hstage hd => exact .draining (hcos ▸ hhist) hstage (hchans ▸ hd)
    | done hhist hstage hd hfree =>
      exact .done (hcos ▸ hhist) hstage (hchans ▸ hd) fun d hc => hfree d (by
        unfold State.Claimed at hc ⊢
        exact hcos ▸ hc)
    | returned rec rest hhist hentry hxfers hd =>
      exact .returned rec rest (hcos ▸ hhist) hentry hxfers (hchans ▸ hd)
  · cases h.fates q hq hwaiter with
    | waits w hhist hwait hmem hphase => exact .waits w (hcos ▸ hhist) (hcos ▸ hwait) hmem (hchans ▸ hcos ▸ hphase)
    | leaves hhist hwait hone hstage => exact .leaves (hcos ▸ hhist) (hcos ▸ hwait) (hcos ▸ hone) (hcos ▸ hstage)
    | returned r rest hhist hend => exact .returned r rest (hcos ▸ hhist) hend

theorem Closing.env {e : Env} (h : Closing s₀ j n auto s) (hi : Inv s) (he : env e s = some s') :
    Closing s₀ j n auto s' :=
  h.congr (h.staged.env hi he) (env_same he).1 (env_same he).2.1
    (((rules.env_sound hi he).2 (.co j) rfl).locks (.chan n)).mp

theorem Closing.enter {op : Call} (h : Closing s₀ j n auto s) (he : enter t op s = some s') :
    Closing s₀ j n auto s' :=
  h.congr (h.staged.enter he) (enter_spared he).cos (enter_spared he).chans fun hl => by
    rw [(enter_spared he).locks]
    exact hl

/-! ### Runs -/

/-- The configurations reached from `c₁` in any interleaving. -/
def ReachableFrom (c₁ : Config) : Config → Prop :=
  Reach machine.step (stepOk (fun _ _ _ => True) okCall) fun c => c = c₁

theorem Reachable.queued {c : Config} (h : Reachable c) : Queued c.shared :=
  (Rules.invariant calls_sound (fun _ h => h.good) (fun _ _ _ _ => trivial)
    (fun _ hs k _ hw => nomatch (hs.co k).wait.symm.trans hw)
    (fun _ _ _ _ _ hi h ha _ he => h.exec hi ha he (rules.exec_sound hi trivial ha he).1)
    (fun _ _ _ _ _ h he => h.congr (enter_spared he).cos (enter_spared he).chans)
    (fun _ _ _ _ h he => h.congr (env_same he).1 (env_same he).2.1) h).2

/-- What the step that sets the mark of a channel finds and leaves. -/
theorem Reachable.setClose {c₀ c₁ : Config} (h : Reachable c₀)
    (hnext : (c₀.prog (.co j)).next = some (.chan (.setClose n)))
    (hstep : machine.step c₀ (.run (.co j)) = some c₁) :
    ∃ f, c₀.prog (.co j) = .cmd (.chan (.setClose n)) f ∧ Allowed (.co j) (.chan (.setClose n)) c₀.shared ∧
      exec (.co j) (.chan (.setClose n)) c₀.shared = some ((), c₁.shared) ∧
      c₁.prog = Function.update c₀.prog (.co j) (f ()) := by
  obtain ⟨f, r, hp, he, hprog⟩ := Machine.step_next hnext hstep
  exact ⟨f, hp, h.good.next_allowed hnext trivial, he, hprog⟩

theorem Reachable.closing_start {c₀ c₁ : Config} (h : Reachable c₀)
    (hnext : (c₀.prog (.co j)).next = some (.chan (.setClose n)))
    (hstep : machine.step c₀ (.run (.co j)) = some c₁) :
    ∃ auto, Closing c₀.shared j n auto c₁.shared ∧ ProgsFollow calls .idle auto c₁ := by
  obtain ⟨auto, hstaged, hprogs⟩ := h.staged
  obtain ⟨f, hp, ha, he, hprog⟩ := h.setClose hnext hstep
  have hi : Inv c₀.shared := h.good.1
  have hfollows := hprogs (.co j)
  rw [hp] at hfollows
  obtain ⟨hok, hrest⟩ := hfollows
  refine ⟨_, ?_, hprogs.update hprog (hrest () trivial)⟩
  have hstaged' := hstaged.exec hi ha hok he
  have hkeeps : rules.Inv c₁.shared := (rules.exec_sound (t := .co j) (c := .chan (.setClose n)) hi trivial ha he).1
  have hqueued' := h.queued.exec hi ha he hkeeps
  obtain ⟨_, ⟨⟩, hin, -, hfree⟩ := ha
  obtain ⟨-, hs⟩ := exec_inv he
  have hs' : c₁.shared = c₀.shared.setChan n Chan.startClose := (Prod.mk.inj (Option.some.inj hs)).2.symm
  rw [hs'] at hstaged' hqueued' ⊢
  have hself : (c₀.shared.setChan n Chan.startClose).chans n = (c₀.shared.chans n).startClose :=
    State.setChan_chans_self _ _ _
  have hdrain : ((c₀.shared.setChan n Chan.startClose).chans n).draining = true := by
    rw [hself]
    rfl
  refine ⟨hstaged', hqueued', by rw [hself]; rfl, fun _ => ⟨hin.lock, ?_, ?_, ?_, ?_⟩,
    .draining rfl ?_ hdrain, fun q hq hwaiter => ?_⟩
  · rw [Function.update_self]
    rfl
  · rw [hself]
    exact ⟨rfl, rfl, rfl, rfl, rfl⟩
  · exact fun dir q hq => setChan_waiter (g := Chan.startClose) (fun _ => rfl) hq
  · exact fun d hd => absurd hd (hfree d)
  · rw [Function.update_self]
    rfl
  · obtain ⟨w, hw, hidle⟩ := hwaiter.idle
    obtain ⟨w', hw', hmem, -⟩ := (hi.chan n).in_ q.dir q hwaiter.held
    obtain rfl := Option.some.inj (hw.symm.trans hw')
    refine .waits w rfl hw hmem ?_
    rw [hidle, hself]
    rfl

/-- **What the close of a channel leads to**, in every run from the step that sets the mark. -/
theorem Reachable.closing {c₀ c₁ c : Config} (h : Reachable c₀)
    (hnext : (c₀.prog (.co j)).next = some (.chan (.setClose n)))
    (hstep : machine.step c₀ (.run (.co j)) = some c₁) (hc : ReachableFrom c₁ c) :
    ∃ auto, Closing c₀.shared j n auto c.shared ∧ ProgsFollow calls .idle auto c := by
  have h₁ : Reachable c₁ := .next (.run (.co j)) h (fun _ _ => trivial) hstep
  refine Machine.follows_from (K := Reachable) (fun _ _ hok => hok) (fun c hc => h₁.trans hc) ?_
    (fun _ _ _ hok => body_calls hok)
    ?_ (fun _ _ _ _ _ _ hJ _ _ _ he => hJ.enter he) (fun _ _ _ _ hr hJ _ he => hJ.env hr.good.1 he) hc
  · rintro _ rfl
    exact h.closing_start hnext hstep
  · intro auto s t cmd f r s' hr hJ hp _ hok he
    have hi : Inv s.shared := hr.good.1
    have ha := hr.good.next_allowed (t := t) (c := cmd) (by rw [hp]; rfl) trivial
    exact ⟨exec_queueRes hi he, hJ.exec hi hr.woken ha hok he⟩

end Coroc.Runtime
