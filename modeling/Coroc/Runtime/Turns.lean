import Coroc.Runtime.ClosedChans

/-!
# How a wait goes on

The wait of a coroutine begins with its own command, is claimed and served by a thread that
holds the lock of the channel, is over with `vpu_ready`, and is put away by the coroutine once
it has the locks again.  `exec_turn` says that no command does anything else to a wait.
-/

namespace Coroc.Runtime

open Coroc.Program Coroc.Transition

variable {s s' : State} {t : Tid} {a : Stage} {auto : Tid → Stage} {d j k : Coid} {c : ChanId}
  {q : Quantum}

/-- The commands that a call on channels uses. -/
def Cmd.working : Cmd → Prop
  | .chan _ | .lock _ | .co (.suspend _) | .co (.ready _) => True
  | _ => False

/-- What one command does to the wait of the coroutine `d`. -/
inductive Turn (t : Tid) (cmd : Cmd) (s : State) (d : Coid) : Option Wait → Option Wait → Prop
  | same (w : Option Wait) : Turn t cmd s d w w
  | publish (site : Site) : t = .co d → site.quanta = [] → ¬ cmd.working →
      Turn t cmd s d none (some ⟨site, .idle⟩)
  | queue (qs : List Quantum) (q : Quantum) (x : Item) (w : Option Wait) : t = .co d →
      cmd = .chan (.queueAdd q x) → w = none ∧ qs = [] ∨ w = some ⟨.chans qs, .idle⟩ →
      Turn t cmd s d w (some ⟨.chans (qs ++ [q]), .idle⟩)
  | claim (site : Site) (q : Quantum) : q.co = d → s.Waiter q.chan q.dir q →
      s.locks (.chan q.chan) = some t →
      cmd = .chan (.queueRem q.chan q.dir) ∨ cmd = .chan (.casTag q) →
      Turn t cmd s d (some ⟨site, .idle⟩) (some ⟨site, .taken t q⟩)
  | serve (site : Site) (q : Quantum) (x : Item) : q.co = d →
      cmd = .chan (.copyTo q x) ∨ cmd = .chan (.copyFrom q) ∨ cmd = .chan (.markClosed q) →
      Turn t cmd s d (some ⟨site, .taken t q⟩) (some ⟨site, .served t (some q)⟩)
  | call (site : Site) : site.quanta = [] → ¬ cmd.working →
      Turn t cmd s d (some ⟨site, .idle⟩) (some ⟨site, .served t none⟩)
  | born : ¬ cmd.working → Turn t cmd s d none (some ⟨.born, .served t none⟩)
  | wake (site : Site) (q : Quantum) : cmd = .co (.ready d) →
      Turn t cmd s d (some ⟨site, .served t (some q)⟩) (some ⟨site, .woken q⟩)
  | rise (site : Site) : cmd = .co (.ready d) → Turn t cmd s d (some ⟨site, .served t none⟩) none
  | finish (qs : List Quantum) (q : Quantum) : t = .co d →
      (∀ q' ∈ qs, s.locks (.chan q'.chan) = some t) →
      cmd = .chan .clearTag ∨ (∃ q' ∈ qs, cmd = .chan (.readQuantum q') ∧ q'.select = false) →
      Turn t cmd s d (some ⟨.chans qs, .woken q⟩) none

theorem Turn.of_eq {cmd : Cmd} {w w' : Option Wait} (h : w' = w) : Turn t cmd s d w w' := by
  subst h
  exact .same _

/-- The wait of one coroutine is changed. -/
theorem Turn.setCo {cmd : Cmd} {f : Co → Co} (hs : s'.cos = (s.setCo k f).cos)
    (hf : Turn t cmd s k (s.cos k).wait (f (s.cos k)).wait) (d : Coid) :
    Turn t cmd s d (s.cos d).wait (s'.cos d).wait := by
  rw [hs]
  by_cases hd : d = k
  · subst hd
    rw [State.setCo_cos_self]
    exact hf
  · rw [State.setCo_cos_ne _ _ hd]
    exact .same _

theorem Turn.setCo_same {cmd : Cmd} {f : Co → Co} (hs : s'.cos = (s.setCo k f).cos)
    (hf : ∀ co : Co, (f co).wait = co.wait) (d : Coid) :
    Turn t cmd s d (s.cos d).wait (s'.cos d).wait :=
  .setCo hs (.of_eq (hf _)) d

theorem Turn.call_of {cmd : Cmd} {o : Option Coid} (hs : s'.cos = (s.call t o).cos)
    (ho : ∀ p, o = some p → ∃ site, (s.cos p).wait = some ⟨site, .idle⟩ ∧ site.quanta = [])
    (hc : ¬ cmd.working) (d : Coid) : Turn t cmd s d (s.cos d).wait (s'.cos d).wait := by
  cases o with
  | none =>
    rw [hs]
    exact .same _
  | some p =>
    obtain ⟨site, hw, hnil⟩ := ho p rfl
    refine .setCo hs ?_ d
    change Turn t cmd s p (s.cos p).wait ((s.cos p).wait.map _)
    rw [hw]
    exact .call site hnil hc

/-- Serving the claimed wait behind `q`, and noting the item of the running coroutine. -/
theorem Turn.exchange {cmd : Cmd} {g : Chan → Chan} {f f' : Co → Co} {x : Item} (hh : Holds s k q)
    (hs : s'.cos = (((s.setChan c g).setCo q.co f).setCo k f').cos)
    (hf : ∀ co : Co, (f co).wait = co.wait.map (Wait.serve (.co k) q))
    (hf' : ∀ co : Co, (f' co).wait = co.wait)
    (hcmd : cmd = .chan (.copyTo q x) ∨ cmd = .chan (.copyFrom q)) (d : Coid) :
    Turn (.co k) cmd s d (s.cos d).wait (s'.cos d).wait := by
  have hserve : Turn (.co k) cmd s d (s.cos d).wait (((s.setChan c g).setCo q.co f).cos d).wait := by
    have hcos : ((s.setChan c g).setCo q.co f).cos = (s.setCo q.co f).cos := rfl
    refine .setCo hcos ?_ d
    obtain ⟨site, hw⟩ := hh.taken
    rw [hf, hw]
    exact .serve site q x rfl (hcmd.imp id .inl)
  have hsame : (s'.cos d).wait = (((s.setChan c g).setCo q.co f).cos d).wait := by
    rw [hs]
    exact State.setCo_proj _ Co.wait hf' d
  rw [hsame]
  exact hserve

theorem execCo_turn {cmd : CoCmd} {r : cmd.Res} (hi : Inv s) (ha : AllowedCo t s cmd)
    (he : execCo t s cmd = some (r, s')) (d : Coid) :
    Turn t (.co cmd) s d (s.cos d).wait (s'.cos d).wait := by
  cases cmd with
  | suspend ls =>
    cases t with
    | co k =>
      cases he
      exact .setCo_same (f := Co.sleep) rfl (fun _ => rfl) d
    | _ => cases he
  | ready p =>
    obtain ⟨site, o, hw⟩ := ha
    simp only [execCo] at he
    split at he
    · cases he
      refine .setCo (f := Co.wake) (k := p) rfl ?_ d
      change Turn t _ s p (s.cos p).wait ((s.cos p).wait.bind Wait.wake)
      rw [hw]
      cases o with
      | none => exact .rise site rfl
      | some q => exact .wake site q rfl
    · cases he
  | preempts p => cases t <;> cases he <;> exact .same _
  | yield =>
    cases t with
    | co k =>
      cases he
      exact .same _
    | _ => cases he
  | allocate priority role =>
    cases he
    refine .setCo (f := Co.create t priority role) (k := s.fresh) rfl ?_ d
    rw [(hi.fresh s.fresh).wait (Nat.le_refl _)]
    exact .born fun h => h

theorem execChan_turn {cmd : ChanCmd} {r : cmd.Res} (hi : Inv s) (ha : AllowedChan t s cmd)
    (he : execChan t s cmd = some (r, s')) (d : Coid) :
    Turn t (.chan cmd) s d (s.cos d).wait (s'.cos d).wait := by
  cases cmd with
  | begin c =>
    cases t with
    | co k =>
      cases he
      exact .setCo_same (f := Co.begin _) rfl (fun _ => rfl) d
    | _ => cases he
  | queueRem c dir =>
    obtain ⟨k, rfl, hlock, -, -⟩ := ha
    simp only [execChan] at he
    split at he
    · cases he
      exact .same _
    · next q rest hque =>
      cases he
      have hmem : q ∈ (s.chans c).held dir := by
        refine Chan.mem_held ?_
        rw [hque]
        exact List.mem_cons_self
      obtain ⟨hchan, hdir⟩ := (hi.chan c).at_ dir q hmem
      subst hchan hdir
      unfold State.popQuantum
      split
      · exact .same _
      · next hplain =>
        have hidle := (hi.unclaimed_iff hmem).mp (.inl (Bool.not_eq_true _ ▸ hplain))
        refine .setCo (f := Co.claim (.co k) q) (k := q.co) rfl ?_ d
        obtain ⟨⟨site, phase⟩, hw, rfl⟩ := hidle
        change Turn _ _ s q.co (s.cos q.co).wait ((s.cos q.co).wait.map _)
        rw [hw]
        exact .claim site q rfl ⟨hmem, _, hw, rfl⟩ hlock (.inl rfl)
  | casTag q =>
    obtain ⟨k, rfl, hlock, -, hhand⟩ := ha
    have hmem : q ∈ (s.chans q.chan).held q.dir := by
      simp [Chan.held, hhand, Option.filter]
    simp only [execChan] at he
    split at he
    · next htag =>
      cases he
      obtain ⟨⟨site, phase⟩, hw, rfl⟩ := (hi.unclaimed_iff hmem).mp (.inr htag)
      refine .setCo (f := Co.claimTag (.co k) q) (k := q.co) rfl ?_ d
      change Turn _ _ s q.co (s.cos q.co).wait ((s.cos q.co).wait.map _)
      rw [hw]
      exact .claim site q rfl ⟨hmem, _, hw, rfl⟩ hlock (.inr rfl)
    · cases he
      exact .same _
  | copyTo q x =>
    obtain ⟨k, rfl, -, hholds, -⟩ := ha
    cases he
    have hs : (s.copyTo k q x).cos = (((s.setChan q.chan (Chan.pass k q.co x)).setCo q.co
        (Co.receive (.co k) q x)).setCo k (Co.move ⟨.send, q.chan, x⟩)).cos := rfl
    exact .exchange hholds hs (fun _ => rfl) (fun _ => rfl) (.inl rfl) d
  | copyFrom q =>
    obtain ⟨k, rfl, -, hholds, -⟩ := ha
    cases he
    generalize ((s.cos q.co).slots q.idx).item = x
    have hs : (s.copyFrom k q x).cos = (((s.setChan q.chan (Chan.pass q.co k x)).setCo q.co
        (Co.give (.co k) q x)).setCo k (Co.move ⟨.recv, q.chan, x⟩)).cos := rfl
    exact .exchange (x := x) hholds hs (fun _ => rfl) (fun _ => rfl) (.inr rfl) d
  | markClosed q =>
    obtain ⟨k, rfl, hholds, -⟩ := ha
    cases he
    refine .setCo (f := Co.markClosed (.co k) q _) (k := q.co) rfl ?_ d
    obtain ⟨site, hw⟩ := hholds.taken
    change Turn _ _ s q.co (s.cos q.co).wait ((s.cos q.co).wait.map _)
    rw [hw]
    exact .serve site q 0 rfl (.inr (.inr rfl))
  | readClose c | setClose c | readIsref c | cleanBuff c | queueExtract q =>
    cases he
    exact .same _
  | copyToBuff c x =>
    cases t with
    | co k =>
      simp only [execChan] at he
      split at he
      · cases he
        exact .same _
      · cases he
        exact .setCo_same (f := Co.move _) rfl (fun _ => rfl) d
    | _ => cases he
  | copyFromBuff c =>
    cases t with
    | co k =>
      simp only [execChan] at he
      split at he
      · cases he
        exact .same _
      · cases he
        exact .setCo_same (f := Co.move _) rfl (fun _ => rfl) d
    | _ => cases he
  | queueAdd q x =>
    have hqueue := enqueue_site ha
    obtain ⟨k, rfl, rfl, -⟩ := ha
    cases he
    by_cases hd : d = q.co
    · subst hd
      obtain ⟨qs, hw', hw⟩ := hqueue
      rw [hw']
      refine .queue qs q x _ rfl rfl ?_
      rcases hw with ⟨hnone, hnil⟩ | hidle
      · exact .inl ⟨hnone, hnil⟩
      · exact .inr hidle
    · rw [enqueue_cos_ne s hd]
      exact .same _
  | readQuantum q =>
    obtain ⟨k, qs, q', rfl, hw, hmem, hlock⟩ := ha
    cases he
    refine .setCo (f := Co.look q) (k := k) rfl ?_ d
    by_cases hsel : q.select = true
    · exact .of_eq (if_pos hsel)
    · have hnone : ((s.cos k).look q).wait = none := if_neg hsel
      rw [hnone, hw]
      have hplain : q.select = false := Bool.not_eq_true _ ▸ hsel
      refine .finish qs q' rfl (fun q₁ hq₁ => ?_) (.inr ⟨q, hmem, rfl, hplain⟩)
      have hsite := (hi.co k).site _ hw
      rw [hsite.plain_unique hmem hq₁ hplain]
      exact hlock
  | readTag =>
    cases t with
    | co k =>
      cases he
      exact .same _
    | _ => cases he
  | clearTag =>
    obtain ⟨k, rfl, hwait⟩ := ha
    cases he
    refine .setCo (f := Co.clearTag) (k := k) rfl ?_ d
    rcases hwait with hnone | ⟨qs, q', hw, hlocks⟩
    · exact .of_eq hnone.symm
    · rw [hw]
      exact .finish qs q' rfl (fun q hq => (hlocks q hq).1) (.inl rfl)
  | record e =>
    cases t with
    | co k =>
      cases he
      exact .setCo_same (f := Co.record e) rfl (fun _ => rfl) d
    | _ => cases he

/-- **A wait goes on in no other way.** -/
theorem exec_turn {cmd : Cmd} {r : cmd.Res} (hi : Inv s) (ha : Allowed t cmd s)
    (he : exec t cmd s = some (r, s')) (d : Coid) : Turn t cmd s d (s.cos d).wait (s'.cos d).wait := by
  obtain ⟨-, he⟩ := exec_inv he
  cases cmd with
  | lock cmd =>
    obtain ⟨l, o, rfl⟩ := execLock_inv he
    exact .same _
  | co cmd => exact execCo_turn hi ha he d
  | chan cmd => exact execChan_turn hi ha he d
  | group cmd =>
    cases cmd with
    | inc g | incErrors g | readCount g | readErrors g =>
      cases he
      exact .same _
    | dec g by_ =>
      cases t with
      | co k =>
        cases he
        exact .same _
      | _ => cases he
    | readParent g =>
      cases he
      refine .call_of (o := (s.groups g).parent) ?_ (fun p hp => ⟨_, (hi.group g).parent p hp ha.2.2.1, rfl⟩)
        ?_ d
      · cases (s.groups g).parent <;> rfl
      · exact fun h => h
    | setParent g =>
      obtain ⟨k, rfl, -, -, -, hwait, -⟩ := ha
      cases he
      refine .setCo (f := Co.publish (.group g)) (k := k) rfl ?_ d
      rw [hwait]
      exact .publish _ rfl rfl fun h => h
  | async cmd =>
    cases cmd with
    | readThreads | readStatus =>
      cases he
      exact .same _
    | queueAdd =>
      obtain ⟨k, rfl, -, hwait, -⟩ := ha
      cases he
      refine .setCo (f := Co.publish .async) (k := k) rfl ?_ d
      rw [hwait]
      exact .publish _ rfl rfl fun h => h
    | queueRem =>
      cases he
      refine .call_of (o := s.requests.head?) rfl (fun p hp => ?_) ?_ d
      · exact ⟨_, hi.async.wait p (List.mem_of_mem_head? hp), rfl⟩
      · exact fun h => h
  | timer cmd =>
    cases cmd with
    | setSuspend =>
      obtain ⟨k, rfl, -, -, hwait, -⟩ := ha
      cases he
      refine .setCo (f := Co.publish .timer) (k := k) rfl ?_ d
      rw [hwait]
      exact .publish _ rfl rfl fun h => h
    | clearSuspend =>
      cases he
      refine .call_of (o := s.timers.daemon) ?_ (fun p hp => ?_) ?_ d
      · cases s.timers.daemon <;> rfl
      · obtain ⟨p', hp', hw⟩ := hi.timer.suspend ha.2.1
        rw [hp] at hp'
        cases hp'
        exact ⟨_, hw, rfl⟩
      · exact fun h => h
    | _ =>
      cases he
      exact .same _
  | net cmd => exact ha.elim

/-! ### Which wait belongs to which stage -/

/-- What is known of the wait of a coroutine at each stage of its call.  At `chosen` it is awake
    again, and has read its tag. -/
def Stage.WaitOk (st : Status) (co : Co) : Stage → Prop
  | .blocked q => ∀ w, co.wait = some w → w.site.quanta = [q] ∧ q.select = false
  | .queued => ∀ w, co.wait = some w → ∀ q ∈ w.site.quanta, q.select = true
  | .chosen active => (st ≠ .wait ∧ st ≠ .saving) ∧ ∀ w, co.wait = some w →
      co.qtag = active ∧ ∀ q ∈ w.site.quanta, q.select = true
  | .idle | .busy | .sending _ | .missed _ _ | .tested _ _ | .closing _ | .done _ => co.NoQuanta

/-- The stages at which nothing is queued. -/
def Stage.quiet : Stage → Prop
  | .blocked _ | .queued | .chosen _ => False
  | _ => True

theorem Stage.waitOk_quiet {st : Status} {co : Co} (h : a.quiet) : a.WaitOk st co ↔ co.NoQuanta := by
  cases a with
  | blocked q | queued | chosen active => exact h.elim
  | _ => exact Iff.rfl

structure Staged (auto : Tid → Stage) (s : State) : Prop where
  stage : ∀ k, (auto (.co k)).WaitOk (s.status k) (s.cos k)
  unborn : ∀ k, s.fresh ≤ k → auto (.co k) = .idle

/-- A stage goes on with the wait it has, or with none. -/
theorem Stage.WaitOk.keep {st st' : Status} {co co' : Co} (h : a.WaitOk st co)
    (hsite : ∀ w', co'.wait = some w' → ∃ w, co.wait = some w ∧ w'.site = w.site)
    (hchosen : ∀ active, a = .chosen active → (st' ≠ .wait ∧ st' ≠ .saving) ∧
      ∀ w', co'.wait = some w' → co'.qtag = co.qtag) : a.WaitOk st' co' := by
  cases a with
  | blocked q | queued =>
    intro w' hw'
    obtain ⟨w, hw, hs⟩ := hsite w' hw'
    rw [hs]
    exact h w hw
  | chosen active =>
    obtain ⟨hst, htag⟩ := hchosen active rfl
    refine ⟨hst, fun w' hw' => ?_⟩
    obtain ⟨w, hw, hs⟩ := hsite w' hw'
    rw [htag w' hw', hs]
    exact h.2 w hw
  | _ =>
    intro w' hw'
    obtain ⟨w, hw, hs⟩ := hsite w' hw'
    rw [hs]
    exact h w hw

theorem kept_site {co co' : Co} (h : co.Kept co') (w' : Wait) (hw' : co'.wait = some w') :
    ∃ w, co.wait = some w ∧ w'.site = w.site := by
  cases hw : co.wait with
  | none =>
    rw [h.none hw] at hw'
    exact nomatch hw.symm.trans hw'
  | some w =>
    refine ⟨w, rfl, ?_⟩
    rcases h.some w hw with ⟨w₁, hw₁, hsite, -⟩ | ⟨-, hnone⟩
    · obtain rfl := Option.some.inj (hw₁.symm.trans hw')
      exact hsite
    · exact nomatch hnone.symm.trans hw'

theorem Staged.others (h : Staged auto s) (hi : Inv s) (hr : Rely (.co j) s s') :
    (auto (.co j)).WaitOk (s'.status j) (s'.cos j) := by
  by_cases hj : j < s.fresh
  · refine (h.stage j).keep (kept_site (hr.kept j rfl hj)) fun active ha => ?_
    have hstage := h.stage j
    rw [ha] at hstage
    obtain ⟨hco, hwait, hsaving⟩ := hr.self j rfl hj hstage.1.1 hstage.1.2
    exact ⟨⟨hwait, hsaving⟩, fun _ _ => congrArg Co.qtag hco⟩
  · have hfresh := Nat.le_of_not_lt hj
    have hnone := (hi.fresh j).wait hfresh
    obtain ⟨-, hborn⟩ := hr.newborn j rfl hfresh fun _ hw => nomatch hnone.symm.trans hw
    rw [h.unborn j hfresh]
    intro w hw
    rw [hborn w hw]
    rfl

/-- A command of a call that is at work leaves the coroutine as its stage wants it. -/
theorem Staged.other {cmd : Cmd} {r : cmd.Res} (h : Staged auto s)
    (hok : (auto (.co k)).ok cmd) (hc : cmd.other) (he : exec (.co k) cmd s = some (r, s')) :
    ((auto (.co k)).next cmd r).WaitOk (s'.status k) (s'.cos k) := by
  have hstage := h.stage k
  generalize auto (.co k) = a at hok hstage
  by_cases hidle : a = .idle
  · subst hidle
    have hnext := (other_idle cmd hc).2 r (by cases cmd <;> trivial)
    change Stage.WaitOk _ _ (calls.next .idle cmd r)
    rw [hnext]
    exact (exec_still_other hc he).noQuanta hstage
  · obtain ⟨-, -, hwait, -, hnext⟩ := exec_working hok hidle hc he
    rw [hnext]
    refine hstage.keep (fun w' hw' => ⟨w', hwait.symm.trans hw', rfl⟩) ?_
    rintro active rfl
    obtain ⟨hact, he⟩ := exec_inv he
    have hrun := active_running hact
    cases cmd with
    | lock cmd =>
      cases cmd with
      | acquire l =>
        simp only [execLock] at he
        split at he
        · cases he
          exact ⟨hstage.1, fun _ _ => rfl⟩
        · cases he
      | release l =>
        cases he
        exact ⟨hstage.1, fun _ _ => rfl⟩
    | co cmd =>
      cases cmd with
      | ready d =>
        simp only [execCo] at he
        split at he
        · next hst =>
          cases he
          have hne : k ≠ d := by
            rintro rfl
            cases hrun.symm.trans hst
          rw [State.setCo_cos_ne _ _ hne, State.setCo_status, State.setStatus_status_ne _ _ hne]
          exact ⟨hstage.1, fun _ _ => rfl⟩
        · cases he
      | suspend ls => exact absurd hok (by rintro (h | h | ⟨q, h⟩) <;> cases h)
      | _ => cases hok
    | chan cmd => exact hc.elim
    | _ => cases hok

theorem Stage.WaitOk.exec {cmd : ChanCmd} {r : cmd.Res} (h : a.WaitOk (s.status k) (s.cos k))
    (ha : AllowedChan (.co k) s cmd) (hok : a.okChan cmd) (he : exec (.co k) (.chan cmd) s = some (r, s')) :
    (a.next (.chan cmd) r).WaitOk (s'.status k) (s'.cos k) := by
  have hgrows := exec_grows he
  obtain ⟨hact, he⟩ := exec_inv he
  have hrun := active_running hact
  -- a stage with nothing queued goes on to another one
  have hquiet : Still s s' → a.quiet → (a.next (.chan cmd) r).quiet →
      (a.next (.chan cmd) r).WaitOk (s'.status k) (s'.cos k) := fun hstill hq hq' =>
    (Stage.waitOk_quiet hq').mpr (hstill.noQuanta ((Stage.waitOk_quiet hq).mp h))
  cases cmd with
  | begin c =>
    obtain rfl := hok
    exact hquiet hgrows trivial trivial
  | record e =>
    obtain ⟨_, ⟨⟩, hwait, -⟩ := ha
    cases he
    change Stage.WaitOk _ _ .idle
    rw [State.setCo_cos_self]
    exact .of_none hwait
  | queueRem c dir =>
    have hq : a.quiet := by cases a <;> trivial
    exact hquiet hgrows hq (by
      change a.fetch.quiet
      cases a with
      | missed c' closed => cases closed <;> trivial
      | _ => trivial)
  | casTag q =>
    have hq : a.quiet := by cases a <;> trivial
    exact hquiet hgrows hq hq
  | markClosed q =>
    obtain rfl := hok
    exact hquiet hgrows trivial trivial
  | readIsref c =>
    obtain rfl := hok
    exact hquiet hgrows trivial trivial
  | setClose c =>
    obtain rfl := hok
    cases he
    exact h
  | cleanBuff c =>
    obtain rfl := hok
    exact hquiet hgrows trivial trivial
  | copyTo q x => rcases hok with rfl | rfl <;> exact hquiet hgrows trivial trivial
  | copyToBuff c x => rcases hok with rfl | rfl <;> exact hquiet hgrows trivial trivial
  | copyFrom q => rcases hok with rfl | ⟨c, rfl⟩ <;> exact hquiet hgrows trivial trivial
  | copyFromBuff c =>
    have hq : a.quiet := by cases a <;> trivial
    refine hquiet hgrows hq ?_
    change (a.miss c r).quiet
    rcases Stage.polls_miss (c := c) hok r with hbusy | ⟨hmissed, -⟩
    · rw [hbusy]
      trivial
    · rw [hmissed]
      trivial
  | readClose c =>
    cases he
    cases a with
    | missed c' closed => cases closed <;> exact h
    | _ => exact h
  | readTag =>
    obtain rfl := hok
    cases he
    exact ⟨⟨by rw [hrun]; nofun, by rw [hrun]; nofun⟩, fun w hw => ⟨rfl, h w hw⟩⟩
  | queueExtract q =>
    cases he
    exact h
  | readQuantum q =>
    cases he
    change a.WaitOk _ _
    rw [State.setCo_cos_self]
    refine h.keep (fun w' hw' => ?_) ?_
    · have hlook : Wait.look q (s.cos k).wait = some w' := hw'
      unfold Wait.look at hlook
      split at hlook
      · exact ⟨w', hlook, rfl⟩
      · cases hlook
    · rintro active rfl
      exact ⟨h.1, fun _ _ => rfl⟩
  | clearTag =>
    cases he
    change a.WaitOk _ _
    rw [State.setCo_cos_self]
    refine h.keep (fun w' hw' => nomatch hw') ?_
    rintro active rfl
    exact ⟨h.1, fun w' hw' => nomatch hw'⟩
  | queueAdd q x =>
    obtain ⟨qs, hw', hold⟩ := enqueue_site ha
    obtain ⟨_, ⟨⟩, rfl, -, -, -, -, -, hwait, -⟩ := ha
    cases he
    change Stage.WaitOk _ _ (Stage.queue q)
    unfold Stage.queue
    split
    · next hsel =>
      intro w hw
      obtain rfl := Option.some.inj (hw'.symm.trans hw)
      intro q' hq'
      rcases List.mem_append.mp hq' with hmem | hnew
      · rcases hwait with ⟨hnone, -⟩ | ⟨qs', hw₁, -, -, -, hall⟩
        · rcases hold with ⟨-, rfl⟩ | hw₁
          · cases hmem
          · exact nomatch hnone.symm.trans hw₁
        · rcases hold with ⟨hnone, -⟩ | hw₂
          · exact nomatch hnone.symm.trans hw₁
          · cases hw₁.symm.trans hw₂
            exact hall q' hmem
      · obtain rfl := List.mem_singleton.mp hnew
        exact hsel
    · next hplain =>
      intro w hw
      obtain rfl := Option.some.inj (hw'.symm.trans hw)
      rcases hwait with ⟨hnone, -⟩ | ⟨qs', -, -, -, hsel, -⟩
      · rcases hold with ⟨-, rfl⟩ | hw₁
        · exact ⟨rfl, Bool.not_eq_true _ ▸ hplain⟩
        · exact nomatch hnone.symm.trans hw₁
      · exact absurd hsel hplain

theorem Staged.exec {cmd : Cmd} {r : cmd.Res} (h : Staged auto s) (hi : Inv s) (ha : Allowed t cmd s)
    (hok : (auto t).ok cmd) (he : exec t cmd s = some (r, s')) :
    Staged (Function.update auto t ((auto t).next cmd r)) s' := by
  have hrely := (rules.exec_sound hi trivial ha he).2
  obtain ⟨hact, -⟩ := exec_inv he
  refine ⟨fun k => ?_, fun k hk => ?_⟩
  · by_cases hkt : Tid.co k = t
    · subst hkt
      rw [Function.update_self]
      cases cmd with
      | chan cmd => exact (h.stage k).exec ha hok he
      | _ => exact h.other hok trivial he
    · rw [Function.update_of_ne hkt]
      exact h.others hi (hrely _ hkt rfl)
  · by_cases hkt : Tid.co k = t
    · subst hkt
      have hfresh := ((hrely (.async 0) nofun) rfl).fresh
      exact nomatch (active_running hact).symm.trans ((hi.fresh k).status (Nat.le_trans hfresh hk))
    · rw [Function.update_of_ne hkt]
      exact h.unborn k (Nat.le_trans ((hrely _ hkt) rfl).fresh hk)

theorem Staged.env {e : Env} (h : Staged auto s) (hi : Inv s) (he : env e s = some s') : Staged auto s' :=
  ⟨fun _ => h.others hi ((rules.env_sound hi he).2 _ rfl), fun k hk => h.unborn k ((env_same he).2.2 ▸ hk)⟩

theorem Staged.enter {op : Call} (h : Staged auto s) (he : enter t op s = some s') : Staged auto s' := by
  have hspared := enter_spared he
  refine ⟨fun k => ?_, fun k hk => h.unborn k (hspared.fresh ▸ hk)⟩
  rw [hspared.cos, hspared.status]
  exact h.stage k

theorem Start.staged {c : Config} (h : Start c) : Staged (fun _ => .idle) c.shared :=
  ⟨fun k => .of_none (h.co k).wait, fun _ _ => rfl⟩

/-- **Every coroutine is at a stage of its call**, and its wait belongs to it. -/
theorem Reachable.staged {c : Config} (h : Reachable c) :
    ∃ auto, Staged auto c.shared ∧ ProgsFollow calls .idle auto c :=
  Machine.follows (fun _ _ hok => hok) (fun _ hc => Reachable.good hc) (fun _ hs => hs.prog)
    (fun _ _ _ hok => body_calls hok)
    (fun _ hs => hs.staged)
    (fun _ _ t cmd _ _ _ hg hJ hp _ hstage he =>
      ⟨exec_queueRes hg.1 he, hJ.exec hg.1
        (hg.next_allowed (t := t) (c := cmd) (by rw [hp]; rfl) trivial) hstage he⟩)
    (fun _ _ _ _ _ _ hJ _ _ _ he => hJ.enter he) (fun _ _ _ _ hg hJ _ he => hJ.env hg.1 he) h

end Coroc.Runtime
