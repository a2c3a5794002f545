import Coroc.Runtime.Waiters
import Coroc.Runtime.Waits
import Coroc.Runtime.Safety

/-!
# Waiters are served in order

The coroutines that wait at a channel, to send or to receive, form a queue.  The log of a run has
an event for each quantum that is queued, and one for each waiter that is taken out of the queue
while its wait is still unclaimed: it is served then, by a sender, a receiver or `coroc_chan_close`.

* `waiters_fifo`: the waiters are served in the order in which they were queued.  A select may
  leave its place, when it has been served elsewhere; the others stay until it is their turn.
-/

namespace Coroc.Runtime

open Coroc.Program Coroc.Transition

variable {s s' : State} {t : Tid} {k : Coid} {c n : ChanId} {dir : Dir} {q : Quantum}

inductive WaitEvent where
  | join (q : Quantum)
  | serve (q : Quantum)
deriving DecidableEq

/-- The quanta that were queued. -/
def joined (log : List WaitEvent) : List Quantum :=
  log.filterMap fun
    | .join q => some q
    | .serve _ => none

/-- The quanta that were served. -/
def served (log : List WaitEvent) : List Quantum :=
  log.filterMap fun
    | .join _ => none
    | .serve q => some q

/-- What a step adds to the queue. -/
def joins (n : ChanId) (dir : Dir) (s s' : State) : List Quantum :=
  ((s'.chans n).held dir).drop ((s.chans n).held dir).length

/-- The waiters that a step takes out of it. -/
def serves (n : ChanId) (dir : Dir) (s s' : State) : List Quantum :=
  ((s.chans n).held dir).filter fun q => decide (s.Unclaimed q) && decide (q ∉ (s'.chans n).held dir)

def observeWaits (n : ChanId) (dir : Dir) (c c' : Config) : List WaitEvent :=
  (joins n dir c.shared c'.shared).map .join ++ (serves n dir c.shared c'.shared).map .serve

/-- Not a select's. -/
def plain (l : List Quantum) : List Quantum := l.filter fun q => !q.select

/-! ### One command -/

/-- The queue moves on: what is served comes from its front, what is added goes to its end, and only selects leave
    in another way. -/
structure Advances (n : ChanId) (dir : Dir) (s s' : State) : Prop where
  order : (serves n dir s s' ++ (s'.chans n).held dir).Sublist ((s.chans n).held dir ++ joins n dir s s')
  plain : plain ((s.chans n).held dir ++ joins n dir s s') = plain (serves n dir s s' ++ (s'.chans n).held dir)

theorem Advances.of_same (h : (s'.chans n).held dir = (s.chans n).held dir) : Advances n dir s s' := by
  have hjoins : joins n dir s s' = [] := by
    rw [joins, h, List.drop_length]
  have hserves : serves n dir s s' = [] := by
    rw [serves, h]
    refine List.filter_eq_nil_iff.mpr ?_
    intro q hq
    simp [hq]
  constructor
  · rw [hjoins, hserves, h, List.append_nil, List.nil_append]
  · rw [hjoins, hserves, h, List.append_nil, List.nil_append]

theorem Advances.of_chans (h : s'.chans = s.chans) : Advances n dir s s' := .of_same (by rw [h])

/-- A quantum is queued. -/
theorem Advances.of_add (h : (s'.chans n).held dir = (s.chans n).held dir ++ [q]) : Advances n dir s s' := by
  have hjoins : joins n dir s s' = [q] := by
    rw [joins, h, List.drop_left]
  have hserves : serves n dir s s' = [] := by
    rw [serves, h]
    refine List.filter_eq_nil_iff.mpr ?_
    intro q hq
    simp [hq]
  constructor
  · rw [hjoins, hserves, h, List.nil_append]
  · rw [hjoins, hserves, h, List.nil_append]

/-- The first waiter is served. -/
theorem Advances.of_serve (hheld : (s.chans n).held dir = q :: (s'.chans n).held dir)
    (hnodup : ((s.chans n).held dir).Nodup) (hq : s.Unclaimed q) : Advances n dir s s' := by
  have hjoins : joins n dir s s' = [] := by
    rw [joins, hheld, List.length_cons]
    exact List.drop_eq_nil_of_le (Nat.le_succ _)
  have hserves : serves n dir s s' = [q] := by
    rw [hheld, List.nodup_cons] at hnodup
    rw [serves, hheld, List.filter_cons_of_pos (by simp [hq, hnodup.1])]
    congr 1
    refine List.filter_eq_nil_iff.mpr ?_
    intro q' hq'
    simp [hq']
  constructor
  · rw [hjoins, hserves, hheld, List.append_nil, List.singleton_append]
  · rw [hjoins, hserves, hheld, List.append_nil, List.singleton_append]

theorem plain_erase (hsel : q.select = true) (l : List Quantum) : plain l = plain (l.erase q) := by
  induction l with
  | nil => rfl
  | cons x l ih =>
    by_cases hx : x = q
    · subst hx
      simp [plain, hsel]
    · rw [List.erase_cons_tail (by simpa using hx)]
      simp only [plain, List.filter_cons] at ih ⊢
      rw [ih]

/-- A select's quantum, which has been claimed elsewhere, is taken out. -/
theorem Advances.of_leave (hheld : (s'.chans n).held dir = ((s.chans n).held dir).erase q) (hsel : q.select = true)
    (hq : ¬ s.Unclaimed q) : Advances n dir s s' := by
  have hjoins : joins n dir s s' = [] := by
    rw [joins, hheld]
    exact List.drop_eq_nil_of_le List.length_erase_le
  have hserves : serves n dir s s' = [] := by
    rw [serves, hheld]
    refine List.filter_eq_nil_iff.mpr ?_
    intro q' hq'
    by_cases heq : q' = q
    · subst heq
      simp [hq]
    · simp [List.mem_erase_of_ne heq, hq']
  constructor
  · rw [hjoins, hserves, hheld, List.append_nil, List.nil_append]
    exact List.erase_sublist
  · rw [hjoins, hserves, hheld, List.append_nil, List.nil_append]
    exact plain_erase hsel _

/-- A change of a channel that leaves its queues alone. -/
theorem Advances.of_setChan {g : Chan → Chan} (hg : ∀ ch : Chan, (g ch).held = ch.held) (h : s'.chans = (s.setChan c g).chans) :
    Advances n dir s s' := by
  refine .of_same ?_
  rw [h]
  exact setChan_held hg n dir

/-- A change of the queue `n`, `dir`, in which only one quantum takes part. -/
theorem Advances.at_ {g : Chan → Chan} (h : s'.chans = (s.setChan c g).chans)
    (hother : dir ≠ q.dir → (g (s.chans c)).held dir = (s.chans c).held dir)
    (hself : n = c → dir = q.dir → Advances n dir s s') : Advances n dir s s' := by
  by_cases hn : n = c
  · subst hn
    by_cases hd : dir = q.dir
    · exact hself rfl hd
    · refine .of_same ?_
      rw [h, State.setChan_chans_self]
      exact hother hd
  · refine .of_same ?_
    rw [h, State.setChan_chans_ne _ _ hn]

theorem queueRem_waits {r : Option Quantum} (hi : Inv s) (hin : InSection s k c) {dir' : Dir}
    (he : execChan t s (.queueRem c dir') = some (r, s')) : Advances n dir s s' := by
  simp only [execChan] at he
  split at he
  · cases he
    exact .of_chans rfl
  · next q rest hque =>
    cases he
    have hmem : q ∈ (s.chans c).held dir' := by
      refine Chan.mem_held ?_
      rw [hque]
      exact List.mem_cons_self
    obtain ⟨hchan, hdir⟩ := (hi.chan c).at_ dir' q hmem
    subst hdir
    by_cases hsel : q.select = true
    · have hpop : s.popQuantum t c q.dir q rest = s.setChan c (Chan.pop q.dir rest (some q)) := if_pos hsel
      refine Advances.of_same ?_
      rw [hpop]
      by_cases hn : n = c
      · subst hn
        rw [State.setChan_chans_self, Chan.held_pop_select hin.hand hque rfl]
      · rw [State.setChan_chans_ne _ _ hn]
    · have hpop : (s.popQuantum t c q.dir q rest).chans = (s.setChan c (Chan.pop q.dir rest none)).chans := by
        simp [State.popQuantum, hsel]
      have hafter (d : Dir) : ((s.chans c).pop q.dir rest none).held d = Function.update (s.chans c).que q.dir rest d := rfl
      refine Advances.at_ (q := q) hpop ?_ ?_
      · intro hd
        rw [hafter, Chan.held_of_hand_none hin.hand, Function.update_of_ne hd]
      · rintro rfl rfl
        refine .of_serve ?_ ((hi.chan n).nodup _) (.inl (Bool.not_eq_true _ ▸ hsel))
        rw [hpop, State.setChan_chans_self, hafter, Chan.held_of_hand_none hin.hand, Function.update_self, hque]

/-- The quantum at hand leaves it: served, or claimed elsewhere. -/
theorem drop_waits (hi : Inv s) (hhand : (s.chans q.chan).inhand = some q)
    (h : s'.chans = (s.setChan q.chan Chan.drop).chans) : Advances n dir s s' := by
  have hsel := (hi.chan q.chan).hand q hhand
  refine Advances.at_ (q := q) h ?_ ?_
  · intro hd
    simp [Chan.held, Chan.drop, hhand, Option.filter, Ne.symm hd]
  · rintro rfl rfl
    have hafter : (s'.chans q.chan).held q.dir = (s.chans q.chan).que q.dir := by
      rw [h, State.setChan_chans_self]
      rfl
    have hbefore : (s.chans q.chan).held q.dir = q :: (s'.chans q.chan).held q.dir := by
      rw [hafter]
      simp [Chan.held, hhand, Option.filter]
    by_cases hq : s.Unclaimed q
    · exact .of_serve hbefore ((hi.chan q.chan).nodup _) hq
    · refine .of_leave ?_ hsel hq
      rw [hbefore, List.erase_cons_head]

theorem extract_waits (hi : Inv s) {qs : List Quantum} {q' : Quantum} (hw : (s.cos k).wait = some ⟨.chans qs, .woken q'⟩)
    (hmem : q ∈ qs) (h : s'.chans = (s.setChan q.chan (Chan.extract q)).chans) : Advances n dir s s' := by
  have hown : q.co = k := ((hi.co k).site _ hw).own q hmem
  refine Advances.at_ (q := q) h ?_ ?_
  · intro hd
    simp only [Chan.held, Chan.extract, Function.update_of_ne hd]
  · rintro rfl rfl
    have hafter : (s'.chans q.chan).held q.dir =
        ((s.chans q.chan).inhand.filter fun x => x.dir = q.dir).toList ++ ((s.chans q.chan).que q.dir).erase q := by
      rw [h, State.setChan_chans_self]
      simp only [Chan.held, Chan.extract, Function.update_self]
    by_cases hque : q ∈ (s.chans q.chan).que q.dir
    · have hheld := Chan.mem_held hque
      have hclaimed : ¬ s.Unclaimed q := by
        rw [hi.unclaimed_iff hheld, hown]
        exact Co.not_unclaimed hw (fun hp => by cases hp)
      have hsel : q.select = true := by
        cases hplain : q.select with
        | true => rfl
        | false => exact absurd (.inl hplain) hclaimed
      have hhand : q ∉ ((s.chans q.chan).inhand.filter fun x => x.dir = q.dir).toList := by
        intro hh
        exact (List.nodup_append.mp ((hi.chan q.chan).nodup q.dir)).2.2 q hh q hque rfl
      refine .of_leave ?_ hsel hclaimed
      rw [hafter, Chan.held, List.erase_append_right _ hhand]
    · refine .of_same ?_
      rw [hafter, List.erase_of_not_mem hque]
      rfl

theorem execChan_waits {cmd : ChanCmd} {r : cmd.Res} (hi : Inv s) (ha : AllowedChan t s cmd)
    (he : execChan t s cmd = some (r, s')) : Advances n dir s s' := by
  cases cmd with
  | queueRem c dir' =>
    obtain ⟨k, rfl, hin⟩ := ha
    exact queueRem_waits hi hin he
  | casTag q =>
    obtain ⟨k, rfl, -, -, hhand⟩ := ha
    simp only [execChan] at he
    split at he
    all_goals
      cases he
      exact drop_waits hi hhand rfl
  | queueExtract q =>
    obtain ⟨k, qs, q', -, hw, hmem, -⟩ := ha
    cases he
    exact extract_waits hi hw hmem rfl
  | queueAdd q x =>
    cases he
    by_cases hat : n = q.chan ∧ dir = q.dir
    · refine .of_add (q := q) ?_
      rw [enqueue_held, if_pos hat]
    · refine .of_same ?_
      rw [enqueue_held, if_neg hat, List.append_nil]
  | copyToBuff c x =>
    cases t with
    | co k =>
      simp only [execChan] at he
      split at he
      all_goals cases he
      · exact .of_chans rfl
      · exact .of_setChan (g := Chan.push k x _) (fun _ => rfl) rfl
    | _ => cases he
  | copyFromBuff c =>
    cases t with
    | co k =>
      simp only [execChan] at he
      split at he
      all_goals cases he
      · exact .of_chans rfl
      · exact .of_setChan (g := Chan.shift k _) (fun _ => rfl) rfl
    | _ => cases he
  | copyTo q x =>
    cases t with
    | co k =>
      cases he
      exact .of_setChan (g := Chan.pass k q.co x) (fun _ => rfl) rfl
    | _ => cases he
  | copyFrom q =>
    cases t with
    | co k =>
      cases he
      exact .of_setChan (g := Chan.pass q.co k _) (fun _ => rfl) rfl
    | _ => cases he
  | setClose c =>
    cases he
    exact .of_setChan (g := Chan.startClose) (fun _ => rfl) rfl
  | readIsref c =>
    cases he
    exact .of_setChan (g := Chan.endClose) (fun _ => rfl) rfl
  | cleanBuff c =>
    cases he
    exact .of_setChan (g := Chan.clean) (fun _ => rfl) rfl
  | markClosed q | readClose c =>
    cases he
    exact .of_chans rfl
  | begin c | readQuantum q | readTag | clearTag | record e =>
    cases t with
    | co k =>
      cases he
      exact .of_chans rfl
    | _ => cases he

theorem execCo_chans {cmd : CoCmd} {r : cmd.Res} (he : execCo t s cmd = some (r, s')) : s'.chans = s.chans := by
  cases cmd with
  | suspend ls | preempts d | yield =>
    cases t
    all_goals cases he
    all_goals rfl
  | ready d =>
    simp only [execCo] at he
    split at he
    all_goals cases he
    rfl
  | allocate priority role =>
    cases he
    rfl

/-- Only the commands on channels change one. -/
theorem exec_waits {cmd : Cmd} {r : cmd.Res} (hi : Inv s) (ha : Allowed t cmd s) (he : exec t cmd s = some (r, s')) :
    Advances n dir s s' := by
  obtain ⟨-, he⟩ := exec_inv he
  cases cmd with
  | chan c => exact execChan_waits hi ha he
  | co c => exact .of_chans (execCo_chans he)
  | group c => exact .of_chans (execGroup_apart he).chans
  | async c => exact .of_chans (execAsync_apart he).chans
  | timer c => exact .of_chans (execTimer_apart he).chans
  | lock c =>
    obtain ⟨l, o, rfl⟩ := execLock_inv he
    exact .of_chans rfl
  | net c => exact ha.elim

/-! ### The log of a run -/

@[simp] theorem joined_append (l₁ l₂ : List WaitEvent) : joined (l₁ ++ l₂) = joined l₁ ++ joined l₂ :=
  List.filterMap_append

@[simp] theorem served_append (l₁ l₂ : List WaitEvent) : served (l₁ ++ l₂) = served l₁ ++ served l₂ :=
  List.filterMap_append

@[simp] theorem plain_append (l₁ l₂ : List Quantum) : plain (l₁ ++ l₂) = plain l₁ ++ plain l₂ := List.filter_append ..

theorem joined_observe (c c' : Config) : joined (observeWaits n dir c c') = joins n dir c.shared c'.shared := by
  simp [observeWaits, joined, List.filterMap_map]

theorem served_observe (c c' : Config) : served (observeWaits n dir c c') = serves n dir c.shared c'.shared := by
  simp [observeWaits, served, List.filterMap_map]

/-- What was served, and who still waits, in the order in which they were queued. -/
structure InOrder (n : ChanId) (dir : Dir) (s : State) (log : List WaitEvent) : Prop where
  order : (served log ++ (s.chans n).held dir).Sublist (joined log)
  plain : Runtime.plain (joined log) = Runtime.plain (served log ++ (s.chans n).held dir)

theorem InOrder.step {c c' : Config} {log : List WaitEvent} (h : InOrder n dir c.shared log)
    (hm : Advances n dir c.shared c'.shared) : InOrder n dir c'.shared (log ++ observeWaits n dir c c') := by
  constructor
  · rw [joined_append, served_append, joined_observe, served_observe, List.append_assoc]
    apply (hm.order.append_left (served log)).trans
    rw [← List.append_assoc]
    exact h.order.append_right _
  · have hplain := hm.plain
    have hold := h.plain
    simp only [plain_append] at hplain hold
    simp only [joined_append, served_append, joined_observe, served_observe, plain_append, hold, List.append_assoc]
    rw [hplain]

theorem InOrder.same {c c' : Config} {log : List WaitEvent} (h : InOrder n dir c.shared log)
    (hchans : c'.shared.chans = c.shared.chans) : InOrder n dir c'.shared (log ++ observeWaits n dir c c') :=
  h.step (.of_chans hchans)

/-- The runs, with the log of one queue. -/
def WaitLogged (n : ChanId) (dir : Dir) (c : Config) (log : List WaitEvent) : Prop :=
  Logged machine.step (stepOk (fun _ _ _ => True) okCall) Start (observeWaits n dir) c log

/-- **The waiters are served in order.**  Those that were served, followed by those that still wait, are in the order
    in which they were queued; of the waiters that are not selects none is left out. -/
theorem waiters_fifo {c : Config} {log : List WaitEvent} (h : WaitLogged n dir c log) :
    (served log ++ (c.shared.chans n).held dir).Sublist (joined log) ∧
      plain (joined log) = plain (served log ++ (c.shared.chans n).held dir) := by
  suffices hin : InOrder n dir c.shared log from ⟨hin.order, hin.plain⟩
  refine (Logged.invariant (I := fun c log => InOrder n dir c.shared log) ?_ ?_ h).2
  · intro c hs
    have hheld := hs.held n dir
    exact ⟨by simp [served, hheld], by simp [served, joined, hheld]⟩
  · intro c log l c' hreach hin _ hl
    have hgood : Good rules Idle c := Reachable.good hreach
    obtain ⟨t, cmd, p, r, rfl, hp, he, -⟩ | ⟨t, β, body, p, rfl, hp, hsh, -⟩ |
      ⟨t, a, rfl, -, he, -⟩ | ⟨e, rfl, he, -⟩ := Machine.step_cases hl
    · have ha := hgood.next_allowed (t := t) (c := cmd) (by rw [hp]; rfl) trivial
      exact hin.step (exec_waits hgood.1 ha he)
    · exact hin.same (by rw [hsh])
    · exact hin.same (enter_spared he).chans
    · exact hin.same (env_same he).2.1

/-- The coroutines 0 and 1 wait for a value, then 2 sends one: it goes to 0, and 1 still waits. -/
def twoReceivers : List (Label Tid Call Env) :=
  [.env (.sched 0), .env (.sched 1), .env (.sched 2), .call (.co 0) (.chanRecv 1 0 true)] ++
  steps (.co 0) 7 ++ [.env (.coreWait 0), .env (.unlock 0 (.chan 1))] ++
  [.call (.co 1) (.chanRecv 1 0 true)] ++
  steps (.co 1) 7 ++ [.env (.coreWait 1), .env (.unlock 1 (.chan 1))] ++
  [.call (.co 2) (.chanSend 1 7 true)] ++ steps (.co 2) 8

theorem waiters_fifo_run : ∃ (c : Config) (log : List WaitEvent), WaitLogged 1 .recv c log ∧
    (joined log).map Quantum.co = [0, 1] ∧ (served log).map Quantum.co = [0] ∧
    (served log ++ (c.shared.chans 1).held .recv).Sublist (joined log) ∧
    plain (joined log) = plain (served log ++ (c.shared.chans 1).held .recv) := by
  have hstart := initial_start 3 (fun _ => .none) (fun _ => rfl)
  obtain ⟨⟨c, log⟩, hc, hP⟩ := Reach.exists_of_runOk (logged machine.step (observeWaits 1 .recv))
    (fun p l => stepOk (fun _ _ _ => True) okCall p.1 l)
    (fun p => Start p.1 ∧ p.2 = []) (s := (initial 3 (fun _ => .none), [])) ⟨hstart, rfl⟩ twoReceivers
    (fun p => (joined p.2).map Quantum.co == [0, 1] && (served p.2).map Quantum.co == [0])
    (by decide +kernel)
  simp only [Bool.and_eq_true, beq_iff_eq] at hP
  exact ⟨c, log, hc, hP.1, hP.2, waiters_fifo hc⟩

end Coroc.Runtime
