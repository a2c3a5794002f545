import Coroc.Runtime.CloseKeeps

/-!
# Calls on a closed channel

The protocol `late` is a receive, or a second close, that begins when the channel is closed already:
which results it gets there and what it returns.  The other coroutines do what they like.
-/

namespace Coroc.Runtime

open Coroc.Program Coroc.Transition

variable {s₀ s s' : State} {t : Tid} {j k : Coid} {n : ChanId} {cmd : Cmd} {r : cmd.Res}
  {recv : Option Bool}

/-! ### The protocol -/

/-- How far the call has come.
    * `free`: it has returned; so are the stages of everybody else.
    * `got`: a receive that has its item; `missed`: one that found the buffer empty.
    * `shut`: it has read the mark. -/
inductive LateStage where
  | free
  | entered
  | got (y : Item)
  | missed
  | shut

/-- What the call returns: a receive, blocking or not, or a close. -/
def lateEntry (n : ChanId) : Option Bool → Option Item → Entry
  | some block, some y => .recv n block .success (some y)
  | some block, none => .recv n block .closed none
  | none, _ => .close n .closed

namespace LateStage

def ok (n : ChanId) (recv : Option Bool) : LateStage → Cmd → Prop
  | free, _ => True
  | _, .lock (.acquire l) | _, .lock (.release l) => l = .chan n
  | entered, .chan (.copyFromBuff c) => recv ≠ none ∧ c = n
  | entered, .chan (.readClose c) => recv = none ∧ c = n
  | missed, .chan (.queueRem c dir) => c = n ∧ dir = .send
  | missed, .chan (.casTag q) => q.chan = n
  | missed, .chan (.readClose c) => c = n
  | got y, .chan (.record e) => e = lateEntry n recv (some y)
  | shut, .chan (.record e) => e = lateEntry n recv none
  | _, _ => False

/-- Only quanta of selects are left in the queues, and their tags are taken. -/
def gets (n : ChanId) : LateStage → (cmd : Cmd) → cmd.Res → Prop
  | missed, .chan (.queueRem _ _), (r : Option Quantum) => ∀ q, r = some q → q.chan = n ∧ q.select = true
  | missed, .chan (.casTag _), (r : Bool) => r = false
  | entered, .chan (.readClose _), (r : Bool) | missed, .chan (.readClose _), (r : Bool) => r = true
  | _, _, _ => True

def next : LateStage → (cmd : Cmd) → cmd.Res → LateStage
  | entered, .chan (.copyFromBuff _), (r : Option Item) => match r with
    | some y => got y
    | none => missed
  | entered, .chan (.readClose _), _ | missed, .chan (.readClose _), _ => shut
  | got _, .chan (.record _), _ | shut, .chan (.record _), _ => free
  | a, _, _ => a

end LateStage

def late (n : ChanId) (recv : Option Bool) : Protocol Cmd Cmd.Res LateStage :=
  ⟨LateStage.ok n recv, LateStage.gets n, LateStage.next⟩

theorem late_free {α : Type} (p : RProg α) : p.Follows (late n recv) .free fun a _ => a = .free :=
  Prog.follows_free (fun _ => trivial) (fun _ _ => rfl) p

theorem fetchQuantum_late :
    (fetchQuantum n .send).Follows (late n recv) .missed fun a o => a = .missed ∧ o = none := by
  refine ⟨fun a => a = .missed, fun a o => a = .missed ∧ o = none, rfl, ?_, fun _ _ h => h⟩
  rintro _ rfl
  refine ⟨⟨rfl, rfl⟩, fun r hr => ?_⟩
  cases r with
  | none => exact ⟨rfl, rfl⟩
  | some q =>
    obtain ⟨hchan, hsel⟩ := hr q rfl
    change Prog.Follows (late n recv) .missed (if q.select = true then _ else _) _
    rw [if_pos hsel]
    refine ⟨hchan, fun won hwon => ?_⟩
    obtain rfl : won = false := hwon
    rfl

theorem chanRecv_late (k : Coid) (x : Item) (block : Bool) :
    (chanRecv k n x block).Follows (late n (some block)) .entered fun a _ => a = .free := by
  have hlocked : (chanRecvLocked k n x block).Follows (late n (some block)) .entered fun a res =>
      (∃ y, a = .got y ∧ res = (.success, some y)) ∨ (a = .shut ∧ res = (.closed, none)) := by
    refine ⟨⟨nofun, rfl⟩, fun r _ => ?_⟩
    cases r with
    | some y => exact .inl ⟨y, rfl, rfl⟩
    | none =>
      refine fetchQuantum_late.bind ?_
      rintro _ _ ⟨rfl, rfl⟩
      refine ⟨rfl, fun closed hclosed => ?_⟩
      obtain rfl : closed = true := hclosed
      exact .inr ⟨rfl, rfl⟩
  refine ⟨rfl, fun _ _ => hlocked.bind ?_⟩
  rintro _ _ (⟨y, rfl, rfl⟩ | ⟨rfl, rfl⟩)
  · exact ⟨rfl, fun _ _ => ⟨rfl, fun _ _ => rfl⟩⟩
  · exact ⟨rfl, fun _ _ => ⟨rfl, fun _ _ => rfl⟩⟩

theorem chanClose_late : (chanClose n).Follows (late n none) .entered fun a _ => a = .free := by
  refine ⟨rfl, fun _ _ => ⟨⟨rfl, rfl⟩, fun closed hclosed => ?_⟩⟩
  obtain rfl : closed = true := hclosed
  exact ⟨rfl, fun _ _ => ⟨rfl, fun _ _ => rfl⟩⟩

/-! ### What is known at each stage -/

/-- A receive that has found the mark has found the buffer empty before. -/
def LateStage.At (s₀ s : State) (k : Coid) (n : ChanId) (recv : Option Bool) : LateStage → Prop
  | entered => (s.cos k).history = (s₀.cos k).history
  | got _ => (s.cos k).history = (s₀.cos k).history ∧ recv ≠ none
  | missed => (s.cos k).history = (s₀.cos k).history ∧ recv ≠ none ∧ (s.chans n).buffer.contents = []
  | shut => (s.cos k).history = (s₀.cos k).history ∧
      (recv ≠ none → (s.chans n).buffer.contents = [])
  | free => ∃ rec rest o, (s.cos k).history = (s₀.cos k).history ++ rec :: rest ∧
      rec.entry = lateEntry n recv o ∧ (recv ≠ none → o = none → (s.chans n).buffer.contents = [])

/-- The coroutine `k` is in a call on the channel `n` that began in the state `s₀`, when the channel
    was closed, or has returned from it. -/
structure LateCall (s₀ : State) (k : Coid) (n : ChanId) (recv : Option Bool) (a : LateStage) (s : State) :
    Prop where
  close : (s.chans n).close = true
  alone : (s.chans n).draining = true → s.locks (.chan n) ≠ some (.co k)
  stage : a.At s₀ s k n recv

variable {a : LateStage}

theorem LateCall.alone_exec (h : LateCall s₀ k n recv a s) (hi : Inv s) (ha : Allowed t cmd s)
    (he : exec t cmd s = some (r, s')) (hdrain' : (s'.chans n).draining = true) :
    s'.locks (.chan n) ≠ some (.co k) := by
  obtain ⟨-, hrely⟩ := rules.exec_sound hi trivial ha he
  have hdrain := draining_before hi ha he h.close hdrain'
  have hold := h.alone hdrain
  intro hk
  by_cases ht : Tid.co k = t
  · -- the closer holds the lock
    obtain ⟨j, hj⟩ := (hi.chan n).locked (.inr hdrain)
    have hne : j ≠ k := fun hjk => hold (hjk ▸ hj)
    have hj' := ((hrely (.co j) (by rw [← ht]; exact fun h => hne (Tid.co.inj h)) rfl).locks _).mp hj
    rw [hk] at hj'
    cases hj'
    exact hne rfl
  · exact hold (((hrely (.co k) ht rfl).locks _).mpr hk)

/-- Nobody is unclaimed at a closed channel, when its closer is not at work. -/
theorem ClosedAt.claimed (h : ClosedAt n s) (hi : Inv s) (hdrain : (s.chans n).draining ≠ true) {dir : Dir}
    {q : Quantum} (hq : q ∈ (s.chans n).held dir) : ¬ s.Unclaimed q := fun hun =>
  hdrain (h.shut.waiters dir q ⟨hq, (hi.unclaimed_iff hq).mp hun⟩ h.close)

theorem LateCall.gets (h : LateCall s₀ k n recv a s) (hc : recv ≠ none → ClosedAt n s) (hi : Inv s)
    (ha : Allowed (.co k) cmd s) (hok : a.ok n recv cmd) (he : exec (.co k) cmd s = some (r, s')) :
    a.gets n cmd r := by
  have hstage := h.stage
  obtain ⟨-, he⟩ := exec_inv he
  cases cmd with
  | chan cmd =>
    cases cmd with
    | readClose c =>
      cases he
      cases a with
      | entered => exact hok.2 ▸ h.close
      | missed => exact (show c = n from hok) ▸ h.close
      | _ => trivial
    | queueRem c dir =>
      cases a with
      | missed =>
        obtain ⟨rfl, rfl⟩ := hok
        obtain ⟨_, ⟨⟩, hin⟩ := ha
        have hclosed := hc hstage.2.1
        have hdrain : (s.chans c).draining ≠ true := fun hd => h.alone hd hin.lock
        rintro q rfl
        simp only [execChan] at he
        split at he
        · cases he
        · next q' rest hque =>
          cases he
          have hmem : q ∈ (s.chans c).held .send := Chan.mem_held (by rw [hque]; exact List.mem_cons_self)
          refine ⟨((hi.chan c).at_ _ q hmem).1, ?_⟩
          refine Bool.not_eq_false _ ▸ fun hplain => ?_
          exact hclosed.claimed hi hdrain hmem (.inl hplain)
      | _ => trivial
    | casTag q =>
      cases a with
      | missed =>
        obtain rfl : q.chan = n := hok
        obtain ⟨_, ⟨⟩, hlock, -, hhand⟩ := ha
        have hclosed := hc hstage.2.1
        have hdrain : (s.chans q.chan).draining ≠ true := fun hd => h.alone hd hlock
        have hmem : q ∈ (s.chans q.chan).held q.dir := by
          simp [Chan.held, hhand, Option.filter]
        simp only [execChan] at he
        split at he
        · next htag => exact absurd (.inr htag) (hclosed.claimed hi hdrain hmem)
        · cases he
          rfl
      | _ => trivial
    | _ => cases a <;> trivial
  | _ => cases a <;> trivial

theorem LateStage.At.others (h : a.At s₀ s k n recv) (hhist : (s'.cos k).history = (s.cos k).history)
    (hempty : recv ≠ none → (s.chans n).buffer.contents = [] → (s'.chans n).buffer.contents = []) :
    a.At s₀ s' k n recv := by
  cases a with
  | entered => exact hhist.trans h
  | got y => exact ⟨hhist.trans h.1, h.2⟩
  | missed => exact ⟨hhist.trans h.1, h.2.1, hempty h.2.1 h.2.2⟩
  | shut => exact ⟨hhist.trans h.1, fun hr => hempty hr (h.2 hr)⟩
  | free =>
    obtain ⟨rec, rest, o, hh, hentry, he⟩ := h
    exact ⟨rec, rest, o, hhist.trans hh, hentry, fun hr ho => hempty hr (he hr ho)⟩

/-- The call returns, or one that comes after it. -/
theorem LateStage.At.records {e : Entry} (h : a.At s₀ s k n recv) (hok : a.ok n recv (.chan (.record e))) :
    LateStage.At s₀ (s.setCo k (Co.record e)) k n recv (a.next (.chan (.record e)) ()) := by
  have hnew : ((s.setCo k (Co.record e)).cos k).history =
      (s.cos k).history ++ [⟨e, (s.cos k).late, (s.cos k).moved⟩] := by
    rw [State.setCo_cos_self]
    rfl
  cases a with
  | entered => exact hok.elim
  | missed => exact hok.elim
  | got y => exact ⟨⟨e, (s.cos k).late, (s.cos k).moved⟩, [], some y, by rw [hnew, h.1], hok, nofun⟩
  | shut =>
    exact ⟨⟨e, (s.cos k).late, (s.cos k).moved⟩, [], none, by rw [hnew, h.1], hok, fun hr _ => h.2 hr⟩
  | free =>
    obtain ⟨rec, rest, o, hh, hentry, he⟩ := h
    exact ⟨rec, rest ++ [_], o, by rw [hnew, hh, List.append_assoc]; rfl, hentry, he⟩

theorem LateCall.own (h : LateCall s₀ k n recv a s) (hc : recv ≠ none → ClosedAt n s) (hi : Inv s)
    (ha : Allowed (.co k) cmd s) (hok : a.ok n recv cmd) (he : exec (.co k) cmd s = some (r, s')) :
    (a.next cmd r).At s₀ s' k n recv := by
  have hempty : recv ≠ none → (s.chans n).buffer.contents = [] → (s'.chans n).buffer.contents = [] :=
    fun hr => (hc hr).empty hi ha he
  have hstage := h.stage
  by_cases hrec : ∃ e, cmd = .chan (.record e)
  · obtain ⟨e, rfl⟩ := hrec
    obtain ⟨-, he⟩ := exec_inv he
    cases he
    exact hstage.records hok
  · have hhist : (s'.cos k).history = (s.cos k).history := by
      rcases (exec_effect he).history k with hsame | ⟨e, hcmd, -⟩
      · exact hsame
      · exact absurd ⟨e, hcmd⟩ hrec
    have hsame := hstage.others hhist hempty
    cases a with
    | free => exact hsame
    | entered =>
      cases cmd with
      | lock cmd => exact hsame
      | chan cmd =>
        cases cmd with
        | readClose c => exact ⟨hsame, fun hr => absurd hok.1 hr⟩
        | copyFromBuff c =>
          obtain ⟨hr, rfl⟩ := hok
          cases r with
          | some y => exact ⟨hsame, hr⟩
          | none =>
            refine ⟨hsame, hr, hempty hr ?_⟩
            obtain ⟨-, he⟩ := exec_inv he
            simp only [execChan] at he
            split at he
            · next hbuf => exact Buffer.copyFromBuff_eq_none.mp hbuf
            · cases he
        | _ => exact hok.elim
      | _ => exact hok.elim
    | got y =>
      cases cmd with
      | lock cmd => exact hsame
      | chan cmd =>
        cases cmd with
        | record e => exact absurd ⟨e, rfl⟩ hrec
        | _ => exact hok.elim
      | _ => exact hok.elim
    | missed =>
      cases cmd with
      | lock cmd => exact hsame
      | chan cmd =>
        cases cmd with
        | readClose c => exact ⟨hsame.1, fun _ => hsame.2.2⟩
        | queueRem c dir | casTag q => exact hsame
        | _ => exact hok.elim
      | _ => exact hok.elim
    | shut =>
      cases cmd with
      | lock cmd => exact hsame
      | chan cmd =>
        cases cmd with
        | record e => exact absurd ⟨e, rfl⟩ hrec
        | _ => exact hok.elim
      | _ => exact hok.elim

/-! ### Runs -/

/-- The call of `k`, while everybody else is free. -/
structure LateRun (s₀ : State) (k : Coid) (n : ChanId) (recv : Option Bool) (auto : Tid → LateStage)
    (s : State) : Prop where
  free : ∀ u, u ≠ .co k → auto u = .free
  call : LateCall s₀ k n recv (auto (.co k)) s

variable {auto : Tid → LateStage}

theorem LateRun.exec (h : LateRun s₀ k n recv auto s) (hc : recv ≠ none → ClosedAt n s) (hi : Inv s)
    (ha : Allowed t cmd s) (hok : (auto t).ok n recv cmd) (he : exec t cmd s = some (r, s')) :
    (auto t).gets n cmd r ∧ LateRun s₀ k n recv (Function.update auto t ((auto t).next cmd r)) s' := by
  have hclose := exec_close hi ha he h.call.close
  have halone := h.call.alone_exec hi ha he
  by_cases ht : t = .co k
  · subst ht
    refine ⟨h.call.gets hc hi ha hok he, fun u hu => ?_, ?_⟩
    · rw [Function.update_of_ne hu]
      exact h.free u hu
    · rw [Function.update_self]
      exact ⟨hclose, halone, h.call.own hc hi ha hok he⟩
  · rw [h.free t ht]
    refine ⟨by cases cmd <;> trivial, fun u hu => ?_, ?_⟩
    · by_cases hut : u = t
      · subst hut
        exact Function.update_self _ _ _
      · rw [Function.update_of_ne hut]
        exact h.free u hu
    · rw [Function.update_of_ne (Ne.symm ht)]
      refine ⟨hclose, halone, h.call.stage.others ?_ fun hr => (hc hr).empty hi ha he⟩
      rcases (exec_effect he).history k with hsame | ⟨e, -, hk, -⟩
      · exact hsame
      · exact absurd hk ht

theorem LateRun.congr (h : LateRun s₀ k n recv auto s) (hcos : s'.cos = s.cos) (hchans : s'.chans = s.chans)
    (hlock : s.locks (.chan n) = some (.co k) ↔ s'.locks (.chan n) = some (.co k)) :
    LateRun s₀ k n recv auto s' := by
  obtain ⟨hfree, hclose, halone, hstage⟩ := h
  refine ⟨hfree, hchans ▸ hclose, fun hdrain hk => ?_, hstage.others (by rw [hcos]) fun _ => by rw [hchans]; exact id⟩
  rw [hchans] at hdrain
  exact halone hdrain (hlock.mpr hk)

/-- **A call on a closed channel** that begins with the step from `c₃` to `c₄`. -/
theorem late_from {okCmd : Tid → Cmd → State → Prop} {c₃ c₄ c : Config} {op : Call}
    (hop : (machine.body (.co k) op).Follows (late n recv) .entered fun a _ => a = .free)
    (hstep : machine.step c₃ (.call (.co k) op) = some c₄) (hclose : (c₃.shared.chans n).close = true)
    (halone : (c₃.shared.chans n).draining = true → c₃.shared.locks (.chan n) ≠ some (.co k))
    (hK : ∀ c, Reach machine.step (stepOk okCmd okCall) (fun c => c = c₄) c →
      Reachable c ∧ (recv ≠ none → ClosedAt n c.shared))
    (hc : Reach machine.step (stepOk okCmd okCall) (fun c => c = c₄) c) :
    ∃ a, a.At c₃.shared c.shared k n recv ∧
      (c.prog (.co k)).Follows (late n recv) a fun a _ => a = .free := by
  have hstart : ∃ auto, LateRun c₃.shared k n recv auto c₄.shared ∧ ProgsFollow (late n recv) .free auto c₄ := by
    obtain ⟨-, he, hprog⟩ := Machine.step_call hstep
    have he : enter (.co k) op c₃.shared = some c₄.shared := he
    obtain ⟨-, -, hchans, -, hcos⟩ := enter_spared he
    have hcall : LateRun c₃.shared k n recv (Function.update (fun _ => .free) (.co k) .entered) c₃.shared := by
      refine ⟨fun u hu => Function.update_of_ne hu _ _, hclose, halone, ?_⟩
      rw [Function.update_self]
      rfl
    refine ⟨_, hcall.congr hcos hchans (by rw [(enter_spared he).locks]), ?_⟩
    exact ProgsFollow.update (s := c₃) (fun u => late_free _) hprog hop
  have hexec : ∀ auto (s : Config) t cmd f r s', Reachable s ∧ (recv ≠ none → ClosedAt n s.shared) →
      LateRun c₃.shared k n recv auto s.shared → s.prog t = .cmd cmd f → okCmd t cmd s.shared →
      (late n recv).ok (auto t) cmd → machine.exec t cmd s.shared = some (r, s') →
      (late n recv).gets (auto t) cmd r ∧
        LateRun c₃.shared k n recv (Function.update auto t ((late n recv).next (auto t) cmd r)) s' := by
    intro auto s t cmd f r s' hr hJ hp _ hok he
    have ha := hr.1.good.next_allowed (t := t) (c := cmd) (by rw [hp]; rfl) trivial
    exact hJ.exec hr.2 hr.1.good.1 ha hok he
  obtain ⟨auto, hJ, hprogs⟩ := Machine.follows_from (fun _ _ hok => hok) hK (by rintro _ rfl; exact hstart)
    (fun _ _ _ _ => late_free _) hexec
    (fun auto s t op s' _ hJ _ _ _ he =>
      hJ.congr (enter_spared he).cos (enter_spared he).chans (by rw [(enter_spared he).locks]))
    (fun auto s e s' hr hJ _ he =>
      hJ.congr (env_same he).1 (env_same he).2.1 (((rules.env_sound hr.1.good.1 he).2 (.co k) rfl).locks _)) hc
  exact ⟨_, hJ.call.stage, hprogs (.co k)⟩

end Coroc.Runtime
