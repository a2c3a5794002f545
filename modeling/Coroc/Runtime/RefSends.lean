import Coroc.Runtime.Issued
import Coroc.Runtime.Ledger
import Coroc.Runtime.RefOps
import Coroc.Runtime.Waits

/-!
# References sent through channels (`src/include/libcoroc.h`)

`__CoroC_Chan_SendRef` and `__CoroC_Chan_SendRef_NB` take a reference, call
`_coroc_chan_send`, and drop the reference again when the call fails.  `coroc_chan_close`
drops the references that it finds in the buffer (`__coroc_clean_buff`).

The macros run here around the machine of the runtime, and every `__coroc_refcnt_get` and
`__coroc_refcnt_put` is counted, by channel, sender and object.  Coroutines may also call
everything that neither sends nor selects.

* `Own` says what the macro of a coroutine has to do with its program, its quantum and its
  log.
* `references_owned`: a reference taken is with its sender, in a slot of the buffer, with a
  receiver, or dropped, and it is dropped once.
-/

namespace Coroc.Runtime

open Coroc.Program Coroc.Transition

namespace RefSends

/-- Where a coroutine is in the macro. -/
inductive SendRef where
  | outside
  | got (n : ChanId) (x : Item) (block : Bool)
  | sending (n : ChanId) (x : Item) (block : Bool)
  | failed (n : ChanId) (x : Item)
deriving DecidableEq, Repr

/-- The runtime with the macros.  The other fields are not in the source: the references
    taken by each sender for each object and dropped again by it, and those that a close has
    dropped, with their senders. -/
structure RefConf where
  conf : Config
  sends : Coid → SendRef
  gets : ChanId → Coid → Item → Nat
  puts : ChanId → Coid → Item → Nat
  cleaned : ChanId → List (Coid × Item)

def bump (f : ChanId → Coid → Item → Nat) (n : ChanId) (k : Coid) (x : Item) :
    ChanId → Coid → Item → Nat :=
  fun n' k' x' => if n' = n ∧ k' = k ∧ x' = x then f n' k' x' + 1 else f n' k' x'

/-- The calls of coroutines that neither send nor select. -/
def plainCall : Call → Bool
  | .chanRecv _ _ _ | .chanClose _ | .groupAddTask _ | .groupNotify _ _ | .groupSync _
  | .asyncRequestSubmit | .timerStop _ | .spawn _ | .yield => true
  | _ => false

/-- The sends are those of the macros. -/
def permitted (r : RefConf) : Label Tid Call Env → Bool
  | .call (.co k) (.chanSend n x block) => r.sends k = .got n x block
  | .call (.co k) a => r.sends k = .outside && plainCall a
  | .call _ (.netpollWakeup _) => false
  | _ => true

/-- The macro's test of the result: `== CHAN_CLOSED` if it blocks, else `!= CHAN_SUCCESS`. -/
def fails (block : Bool) (ret : Ret) : Bool :=
  if block then ret == .closed else ret != .success

/-- The macro of `k` after the send has returned. -/
def returned (n : ChanId) (x : Item) (block : Bool) (ret : Ret) : SendRef :=
  if fails block ret then .failed n x else .outside

/-- The macro after a command. -/
def SendRef.after (p : SendRef) : Cmd → SendRef
  | .chan (.record (.send n x block ret)) => returned n x block ret
  | _ => p

/-- What closes have dropped after a command: `__coroc_clean_buff` drops the references in
    the buffer. -/
def swept (cleaned : ChanId → List (Coid × Item)) (cmd : Cmd) (s : State) :
    ChanId → List (Coid × Item) :=
  match cmd with
  | .chan (.cleanBuff n) => Function.update cleaned n (cleaned n ++ (s.chans n).pending)
  | _ => cleaned

/-- The macros after a step of the runtime. -/
def nextSends (r : RefConf) : Label Tid Call Env → Coid → SendRef
  | .call (.co k) (.chanSend n x block) => Function.update r.sends k (.sending n x block)
  | .run (.co k) => match (r.conf.prog (.co k)).next with
    | some cmd => Function.update r.sends k ((r.sends k).after cmd)
    | none => r.sends
  | _ => r.sends

def nextCleaned (r : RefConf) : Label Tid Call Env → ChanId → List (Coid × Item)
  | .run t => match (r.conf.prog t).next with
    | some cmd => swept r.cleaned cmd r.conf.shared
    | none => r.cleaned
  | _ => r.cleaned

inductive RefLabel where
  | get (k : Coid) (n : ChanId) (x : Item) (block : Bool)
  | put (k : Coid)
  | run (l : Label Tid Call Env)

def refStep (r : RefConf) : RefLabel → Option RefConf
  | .get k n x block =>
    if r.sends k = .outside ∧ (r.conf.prog (.co k)).isRet = true then
      some { r with
        sends := Function.update r.sends k (.got n x block)
        gets := bump r.gets n k x }
    else none
  | .put k => match r.sends k with
    | .failed n x =>
      some { r with
        sends := Function.update r.sends k .outside
        puts := bump r.puts n k x }
    | _ => none
  | .run l =>
    if permitted r l then
      (machine.step r.conf l).map fun c =>
        { r with conf := c, sends := nextSends r l, cleaned := nextCleaned r l }
    else none

/-- No macro is under way. -/
structure RefStart (r : RefConf) : Prop where
  conf : Start r.conf
  sends : ∀ k, r.sends k = .outside
  gets : ∀ n k x, r.gets n k x = 0
  puts : ∀ n k x, r.puts n k x = 0
  cleaned : ∀ n, r.cleaned n = []

def RefReachable : RefConf → Prop := Reach refStep (fun _ _ => True) RefStart

/-! ### What the macros have to do with the runtime -/

/-- The commands of a coroutine outside the macro. -/
def outsideCmd : Cmd → Prop
  | .chan (.copyTo _ _) | .chan (.copyToBuff _ _) => False
  | .chan (.queueAdd q _) => q.dir = .recv
  | .chan (.record (.send _ _ _ _)) => False
  | _ => True

def SendRef.Runs (k : Coid) : SendRef → RProg Unit → Prop
  | .outside, p => p.Issues outsideCmd queueRes fun _ => True
  | .got _ _ _, p | .failed _ _, p => p = .ret ()
  | .sending n x block, p => p.Until (before (sendCmd k n x block)) queueRes
      (last fun e => ∃ ret, e = .send n x block ret ∧ ret.Fits block) fun _ => False

/-- A quantum of the coroutine, with the item it points to. -/
def SendRef.Posts (q : Quantum) (y : Item) : SendRef → Prop
  | .sending n x _ => q.chan = n ∧ q.dir = .send ∧ y = x
  | _ => q.dir = .recv

/-- The reference is still with the sender. -/
def SendRef.hand (moved : List Xfer) (n : ChanId) (x : Item) : SendRef → Nat
  | .outside => 0
  | .got n' x' _ | .failed n' x' => if n' = n ∧ x' = x then 1 else 0
  | .sending n' x' _ => if moved = [] ∧ n' = n ∧ x' = x then 1 else 0

/-- The record of a send that fails. -/
def Record.dropped (n : ChanId) (x : Item) (r : Record) : Bool :=
  match r.entry with
  | .send n' x' block ret => n' = n && x' = x && fails block ret
  | _ => false

variable {r r' : RefConf} {s s' : State} {t : Tid} {j k : Coid} {n c : ChanId} {x y : Item} {q : Quantum}

theorem permitted_ok {l : Label Tid Call Env} {c' : Config} (h : permitted r l = true)
    (hs : machine.step r.conf l = some c') : stepOk (fun _ _ _ => True) okCall r.conf l := by
  cases l with
  | run t => exact fun _ _ => trivial
  | env e => trivial
  | call t a =>
    obtain ⟨t', cmd, k, res, hl, -⟩ | ⟨t', β, body, k, hl, -⟩ | ⟨t', a', hl, -, he, -⟩ | ⟨e, hl, -⟩ :=
      Machine.step_cases hs
    · cases hl
    · cases hl
    · cases hl
      cases t with
      | co k => cases a <;> first | trivial | simp [permitted, plainCall] at h
      | async i =>
        change enter (.async i) a _ = _ at he
        simp only [enter] at he
        split at he
        · rename_i ha
          subst ha
          trivial
        · cases he
      | sched v =>
        cases a <;> first | cases he | simp [permitted] at h
      | vpu k => cases he
    · cases hl

theorem RefReachable.reachable (h : RefReachable r) : Reachable r.conf := by
  induction h with
  | start hs => exact .start hs.conf
  | next l _ _ hl ih =>
    cases l with
    | get k n x block =>
      simp only [refStep] at hl
      split at hl
      · cases hl
        exact ih
      · cases hl
    | put k =>
      simp only [refStep] at hl
      split at hl
      · cases hl
        exact ih
      · cases hl
    | run l =>
      simp only [refStep] at hl
      split at hl
      · rename_i hp
        obtain ⟨c', hc, rfl⟩ := Option.map_eq_some_iff.mp hl
        exact .next l ih (permitted_ok hp hc) hc
      · cases hl

/-! ### The programs -/

theorem outsideCmd_other (cmd : Cmd) (h : cmd.other) : outsideCmd cmd := by
  cases cmd with
  | chan cmd => exact h.elim
  | _ => trivial

theorem recvCmd.outside {block : Bool} (cmd : Cmd) (h : recvCmd k c block cmd) : outsideCmd cmd := by
  cases cmd with
  | chan cmd =>
    cases cmd with
    | queueAdd q y =>
      obtain ⟨-, rfl⟩ := h
      rfl
    | record e =>
      obtain ⟨ret, got, rfl, -⟩ := h
      trivial
    | copyTo q y => exact h
    | copyToBuff c' y => exact h
    | _ => trivial
  | _ => trivial

theorem closeCmd.outside (cmd : Cmd) (h : closeCmd c cmd) : outsideCmd cmd := by
  cases cmd with
  | chan cmd =>
    cases cmd with
    | queueAdd q y => exact h.elim
    | record e =>
      obtain ⟨ret, rfl⟩ := h
      trivial
    | copyTo q y => exact h
    | copyToBuff c' y => exact h
    | _ => trivial
  | _ => trivial

theorem plain_outside {a : Call} (h : plainCall a = true) :
    (clientBody k a).Issues outsideCmd queueRes fun _ => True := by
  have hq := outsideCmd_other
  cases a with
  | chanRecv c x block =>
    exact (chanRecv_issues k c x block).mono recvCmd.outside (fun _ _ h => h) fun _ h => h
  | chanClose c => exact (chanClose_issues c).mono closeCmd.outside (fun _ _ h => h) fun _ h => h
  | groupAddTask g => exact ⟨hq _ trivial, fun _ _ => trivial⟩
  | groupNotify g retval => exact groupNotify_contains hq g retval
  | groupSync g => exact groupSync_contains hq g
  | asyncRequestSubmit => exact asyncRequestSubmit_contains hq
  | timerStop c => exact timerStop_contains hq c
  | spawn priority => exact (coroutineAllocate_contains hq priority .client).bind fun _ _ => trivial
  | yield => exact ⟨hq _ trivial, fun _ _ => trivial⟩
  | _ => cases h

/-- The commands of a coroutine in the macro. -/
def SendRef.Issues (k : Coid) (cmd : Cmd) : SendRef → Prop
  | .outside => outsideCmd cmd
  | .got _ _ _ | .failed _ _ => False
  | .sending n x block => before (sendCmd k n x block) cmd ∨
      ∃ ret, cmd = .chan (.record (.send n x block ret)) ∧ ret.Fits block

theorem SendRef.after_outside {cmd : Cmd} (h : outsideCmd cmd) :
    SendRef.after .outside cmd = .outside := by
  cases cmd with
  | chan cmd =>
    cases cmd with
    | record e =>
      cases e with
      | send n x block ret => exact h.elim
      | _ => rfl
    | _ => rfl
  | _ => rfl

theorem SendRef.after_before {p : SendRef} {φ : Cmd → Prop} {cmd : Cmd} (h : before φ cmd) :
    p.after cmd = p := by
  cases cmd with
  | chan cmd =>
    cases cmd with
    | record e => exact h.elim
    | _ => rfl
  | _ => rfl

theorem SendRef.Runs.step {p : SendRef} {cmd : Cmd} {f : cmd.Res → RProg Unit} {res : cmd.Res}
    (h : p.Runs k (.cmd cmd f)) (hres : queueRes cmd res) :
    p.Issues k cmd ∧ (p.after cmd).Runs k (f res) := by
  cases p with
  | outside =>
    obtain ⟨hcmd, hrest⟩ := h
    rw [SendRef.after_outside hcmd]
    exact ⟨hcmd, hrest res hres⟩
  | got n x block => cases h
  | failed n x => cases h
  | sending n x block =>
    rcases h with hlast | ⟨hcmd, hrest⟩
    · unfold last at hlast
      split at hlast
      · obtain ⟨⟨ret, rfl, hfits⟩, hend⟩ := hlast
        refine ⟨.inr ⟨ret, rfl, hfits⟩, ?_⟩
        rw [hend res]
        unfold SendRef.after returned
        dsimp only
        split
        · rfl
        · trivial
      · exact hlast.elim
    · rw [SendRef.after_before hcmd]
      exact ⟨.inl hcmd, hrest res hres⟩

theorem SendRef.Runs.unfold {p : SendRef} {β : Type} {body : RProg (Option β)} {f : β → RProg Unit}
    (h : p.Runs k (.loop body f)) : p.Runs k (Prog.unfold body f) := by
  cases p with
  | outside => exact Prog.Issues.unfold h
  | got n x block => cases h
  | failed n x => cases h
  | sending n x block => exact Prog.Until.unfold h

/-! ### Quanta -/

/-- The quanta of a coroutine are those of its macro. -/
def Posted (sends : Coid → SendRef) (s : State) : Prop :=
  ∀ k w, (s.cos k).wait = some w → ∀ q ∈ w.site.quanta, (sends k).Posts q ((s.cos k).slots q.idx).item

/-- The macros after a command of `t`. -/
def acted (sends : Coid → SendRef) (t : Tid) (cmd : Cmd) (k : Coid) : SendRef :=
  if t = .co k then (sends k).after cmd else sends k

variable {sends : Coid → SendRef} {cmd : Cmd} {res : cmd.Res}

theorem acted_self : acted sends (.co k) cmd k = (sends k).after cmd := if_pos rfl

theorem acted_ne (h : t ≠ .co k) : acted sends t cmd k = sends k := if_neg h

theorem exec_fewer (he : exec t cmd s = some (res, s')) (hq : ∀ q y, cmd ≠ .chan (.queueAdd q y)) :
    (s.cos k).Fewer (s'.cos k) := by
  have hg := exec_grows he
  unfold Grows at hg
  split at hg
  · exact absurd rfl (hq _ _)
  · subst hg
    exact .refl _
  · exact hg.quanta k

theorem SendRef.Posts.item {p : SendRef} (h : p.Posts q y) {y' : Item}
    (hy : ∀ n x b, p = .sending n x b → y' = y) : p.Posts q y' := by
  cases p with
  | sending n x b =>
    obtain ⟨hchan, hdir, hitem⟩ := h
    exact ⟨hchan, hdir, (hy n x b rfl).trans hitem⟩
  | _ => exact h

/-- The others leave the items of a sender alone. -/
theorem Posted.rely (h : Posted sends s) (hi : Inv s) (hr : Rely (.co k) s s') {w w' : Wait}
    (hw : (s.cos k).wait = some w) (hq : q ∈ w.site.quanta) (hw' : (s'.cos k).wait = some w') :
    (sends k).Posts q ((s'.cos k).slots q.idx).item := by
  have hpost := h k w hw q hq
  apply hpost.item
  intro n x b hsend
  have hborn : k < s.fresh := by
    by_contra hge
    have hnone := (hi.fresh k).wait (Nat.le_of_not_lt hge)
    exact nomatch hnone.symm.trans hw
  rcases (hr.kept k rfl hborn).some w hw with ⟨w₁, hw₁, -, hitems⟩ | ⟨-, hnone⟩
  · rw [hsend] at hpost
    exact hitems q hq hpost.2.1
  · exact nomatch hnone.symm.trans hw'

theorem Posted.queueAdd {q₀ : Quantum} {y₀ : Item} (h : Posted sends s)
    (ha : AllowedChan t s (.queueAdd q₀ y₀))
    (hiss : ∀ k, t = .co k → (sends k).Issues k (.chan (.queueAdd q₀ y₀))) :
    Posted sends (s.enqueue q₀ y₀) := by
  obtain ⟨k₀, rfl, hown, -, -, -, -, -, hwait, -⟩ := ha
  subst hown
  intro k w' hw' q hq
  by_cases hk : k = q₀.co
  · subst hk
    have hiss := hiss q₀.co rfl
    have hslot : ((s.enqueue q₀ y₀).cos q₀.co).slots q₀.idx = ⟨false, y₀, !(s.chans q₀.chan).close, false⟩ := by
      unfold State.enqueue
      rw [State.setCo_cos_self]
      exact Function.update_self _ _ _
    rw [enqueue_wait] at hw'
    cases hw'
    cases hsend : sends q₀.co with
    | outside =>
      rw [hsend] at hiss
      rcases Wait.extend_quanta hq with rfl | ⟨w, hw, hmem⟩
      · exact hiss
      · have hold := h q₀.co w hw q hmem
        rw [hsend] at hold
        exact hold
    | got n x b =>
      rw [hsend] at hiss
      exact hiss.elim
    | failed n x =>
      rw [hsend] at hiss
      exact hiss.elim
    | sending n x b =>
      rw [hsend] at hiss
      rcases hiss with ⟨-, hq₀, hy⟩ | ⟨ret, hrec, -⟩
      · -- a plain quantum is the only one of its wait
        have hnone : (s.cos q₀.co).wait = none := by
          rcases hwait with ⟨hnone, -⟩ | ⟨qs, -, -, -, hselect, -⟩
          · exact hnone
          · rw [hq₀] at hselect
            cases hselect
        rcases Wait.extend_quanta hq with rfl | ⟨w, hw, -⟩
        · rw [hslot]
          exact ⟨congrArg Quantum.chan hq₀, congrArg Quantum.dir hq₀, hy⟩
        · exact nomatch hnone.symm.trans hw
      · cases hrec
  · have hsame : (s.enqueue q₀ y₀).cos k = s.cos k := State.setCo_cos_ne _ _ hk
    rw [hsame] at hw' ⊢
    exact h k w' hw' q hq

theorem Posted.exec (h : Posted sends s) (hi : Inv s) (ha : Allowed t cmd s)
    (he : exec t cmd s = some (res, s')) (hiss : ∀ k, t = .co k → (sends k).Issues k cmd) :
    Posted (acted sends t cmd) s' := by
  by_cases hadd : ∃ q y, cmd = .chan (.queueAdd q y)
  · obtain ⟨q₀, y₀, rfl⟩ := hadd
    have hs' : s' = s.enqueue q₀ y₀ := exec_grows he
    have hsame : acted sends t (.chan (.queueAdd q₀ y₀)) = sends := by
      funext k
      unfold acted
      split <;> rfl
    rw [hsame, hs']
    exact h.queueAdd ha hiss
  · have hfewer : ∀ k, (s.cos k).Fewer (s'.cos k) := fun k =>
      exec_fewer he fun q y hq => hadd ⟨q, y, hq⟩
    intro k w' hw' q hq
    obtain ⟨w, hw, hmem⟩ := hfewer k w' hw' q hq
    by_cases ht : t = .co k
    · subst ht
      have hiss := hiss k rfl
      have hpost := h k w hw q hmem
      rw [acted_self]
      cases hsend : sends k with
      | outside =>
        rw [hsend] at hiss hpost
        rw [SendRef.after_outside hiss]
        exact hpost
      | got n x b =>
        rw [hsend] at hiss
        exact hiss.elim
      | failed n x =>
        rw [hsend] at hiss
        exact hiss.elim
      | sending n x b =>
        rw [hsend] at hiss hpost
        rcases hiss with hcmd | ⟨ret, rfl, -⟩
        · rw [SendRef.after_before hcmd]
          have hsame : Unwritten s s' k := by
            apply exec_unwritten he
            intro hwrites
            unfold Cmd.writes at hwrites
            split at hwrites
            · obtain ⟨k', hk', -, hholds, -⟩ := ha
              cases hk'
              exact (hholds.moved_nil hi).2 hwrites
            · exact hcmd
            · exact hadd ⟨_, _, rfl⟩
            · exact hwrites
          rw [hsame]
          exact hpost
        · -- nobody waits when its call returns
          obtain ⟨k', hk', hnone, -⟩ := ha
          cases hk'
          exact nomatch hnone.symm.trans hw
    · rw [acted_ne ht]
      have hr : Rely (.co k) s s' := (exec_keeps hi ha he).2 (.co k) (fun hk => ht hk.symm) rfl
      exact h.rely hi hr hw hmem hw'

/-! ### Counting -/

/-- Every reference a coroutine has taken is in its hand, or has been sent, or was dropped. -/
def Counted (gets puts : ChanId → Coid → Item → Nat) (sends : Coid → SendRef) (s : State) : Prop :=
  ∀ n k x, gets n k x = puts n k x + (sends k).hand (s.cos k).moved n x +
    (items .send n (s.cos k).log).count x

/-- A coroutine drops a reference for each of its sends that fails. -/
def Dropped (puts : ChanId → Coid → Item → Nat) (sends : Coid → SendRef) (s : State) : Prop :=
  ∀ n k x, puts n k x + (if sends k = .failed n x then 1 else 0) =
    (s.cos k).history.countP (Record.dropped n x)

theorem count_items (dir : Dir) (n m : ChanId) (x y : Item) :
    (items .send n [⟨dir, m, y⟩]).count x = if dir = .send ∧ m = n ∧ y = x then 1 else 0 := by
  by_cases h : dir = .send ∧ m = n
  · obtain ⟨rfl, rfl⟩ := h
    by_cases hy : y = x
    · simp [items, hy]
    · simp [items, hy]
  · have hno : ¬ (dir = .send ∧ m = n ∧ y = x) := fun hc => h ⟨hc.1, hc.2.1⟩
    rw [if_neg hno]
    simp [items, h]

theorem acted_eq (h : ∀ e, cmd ≠ .chan (.record e)) : acted sends t cmd = sends := by
  have hafter : ∀ p : SendRef, p.after cmd = p := by
    intro p
    unfold SendRef.after
    split
    · exact absurd rfl (h _)
    · rfl
  funext k
  unfold acted
  split
  · exact hafter _
  · rfl

theorem SendRef.hand_of_ne {p : SendRef} (h : ∀ m y b, p ≠ .sending m y b) (l l' : List Xfer)
    (n : ChanId) (x : Item) : p.hand l n x = p.hand l' n x := by
  cases p with
  | sending m y b => exact absurd rfl (h m y b)
  | _ => rfl

theorem log_of_move {co co' : Co} {z : Xfer} (hmoved : co.moved = []) (hmoved' : co'.moved = [z])
    (hhist : co'.history = co.history) : co'.log = co.log ++ [z] := by
  rw [Co.log, Co.log, hmoved, hmoved', hhist, List.append_nil]

/-- What the macro's test of the result tells about the item. -/
theorem fails_iff {block late : Bool} {ret : Ret} {l : List Xfer} (hfits : ret.Fits block)
    (hok : Record.Ok ⟨.send n x block ret, late, l⟩) :
    (fails block ret = true ∧ l = []) ∨ (fails block ret = false ∧ l = [⟨.send, n, x⟩]) := by
  rcases hok with ⟨hret, hl⟩ | ⟨hret, hl, -⟩
  · right
    refine ⟨?_, hl⟩
    rcases hret with rfl | rfl
    · cases block <;> rfl
    · cases block with
      | true => rfl
      | false => exact absurd rfl (hfits.1 rfl)
  · left
    refine ⟨?_, hl⟩
    rcases hret with rfl | rfl
    · cases block with
      | true => exact absurd rfl (hfits.2 rfl)
      | false => rfl
    · cases block <;> rfl

/-- The commands that move an item out of the hand of `k`. -/
def GivesBy (t : Tid) (cmd : Cmd) (s : State) (k : Coid) (m : ChanId) (y : Item) : Prop :=
  (t = .co k ∧ (cmd = .chan (.copyToBuff m y) ∨ ∃ q, cmd = .chan (.copyTo q y) ∧ q.chan = m)) ∨
    ∃ q k', cmd = .chan (.copyFrom q) ∧ Holds s k' q ∧ q.dir = .send ∧ q.co = k ∧ q.chan = m ∧
      ((s.cos k).slots q.idx).item = y

/-- Only the macro sends. -/
theorem sending_of_gives (hp : Posted sends s) (hi : Inv s)
    (hiss : ∀ k, t = .co k → (sends k).Issues k cmd) (h : GivesBy t cmd s k n x) :
    ∃ b, sends k = .sending n x b := by
  rcases h with ⟨rfl, hcmd⟩ | ⟨q, k', rfl, hholds, hdir, rfl, hchan, hitem⟩
  · have hk := hiss k rfl
    cases hsk : sends k with
    | outside =>
      rw [hsk] at hk
      rcases hcmd with rfl | ⟨q, rfl, -⟩
      · exact hk.elim
      · exact hk.elim
    | got m y b =>
      rw [hsk] at hk
      exact hk.elim
    | failed m y =>
      rw [hsk] at hk
      exact hk.elim
    | sending m y b =>
      rw [hsk] at hk
      refine ⟨b, ?_⟩
      rcases hk with hk | ⟨ret, rfl, -⟩
      · rcases hcmd with rfl | ⟨q, rfl, rfl⟩
        · obtain ⟨rfl, rfl⟩ := hk
          rfl
        · obtain ⟨rfl, rfl⟩ := hk
          rfl
      · rcases hcmd with hcmd | ⟨q, hcmd, -⟩ <;> cases hcmd
  · obtain ⟨site, hw⟩ := hholds.taken
    have hmem : q ∈ site.quanta := ((hi.co q.co).phase _ hw).2.1
    have hpost := hp q.co _ hw q hmem
    cases hsk : sends q.co with
    | sending m y b =>
      rw [hsk] at hpost
      obtain ⟨hm, -, hy⟩ := hpost
      exact ⟨b, by rw [← hm, hchan, ← hy, hitem]⟩
    | _ =>
      rw [hsk] at hpost
      exact nomatch hdir.symm.trans hpost

/-- The commands by which `k` is given an item. -/
def TakesBy (t : Tid) (cmd : Cmd) (s : State) (k : Coid) (m : ChanId) : Prop :=
  (t = .co k ∧ (cmd = .chan (.copyFromBuff m) ∨ ∃ q, cmd = .chan (.copyFrom q))) ∨
    ∃ q k' y, cmd = .chan (.copyTo q y) ∧ Holds s k' q ∧ q.dir = .recv ∧ q.co = k

theorem not_sending_of_takes (hp : Posted sends s) (hi : Inv s)
    (hiss : ∀ k, t = .co k → (sends k).Issues k cmd) (h : TakesBy t cmd s k n) (m : ChanId)
    (y : Item) (b : Bool) : sends k ≠ .sending m y b := by
  intro hsk
  rcases h with ⟨rfl, hcmd⟩ | ⟨q, k', z, rfl, hholds, hdir, rfl⟩
  · have hk := hiss k rfl
    rw [hsk] at hk
    rcases hk with hk | ⟨ret, rfl, -⟩
    · rcases hcmd with rfl | ⟨q, rfl⟩
      · exact hk
      · exact hk
    · rcases hcmd with hcmd | ⟨q, hcmd⟩ <;> cases hcmd
  · obtain ⟨site, hw⟩ := hholds.taken
    have hmem : q ∈ site.quanta := ((hi.co q.co).phase _ hw).2.1
    have hpost := hp q.co _ hw q hmem
    rw [hsk] at hpost
    exact nomatch hdir.symm.trans hpost.2.1

/-- A call that returns is noted. -/
theorem acted_of_same (he : exec t cmd s = some (res, s')) (h : (s.cos k).Same (s'.cos k)) :
    acted sends t cmd k = sends k := by
  by_cases ht : t = .co k
  · subst ht
    by_cases hrec : ∃ e, cmd = .chan (.record e)
    · obtain ⟨e, rfl⟩ := hrec
      obtain ⟨k', hk', rfl⟩ := exec_effect he
      cases hk'
      have hlen := congrArg List.length h.history
      rw [State.setCo_cos_self] at hlen
      simp [Co.record] at hlen
    · rw [acted_eq fun e he => hrec ⟨e, he⟩]
  · exact acted_ne ht

theorem Counted.exec {gets puts : ChanId → Coid → Item → Nat} (h : Counted gets puts sends s)
    (hp : Posted sends s) (hi : Inv s) (ha : Allowed t cmd s) (he : exec t cmd s = some (res, s'))
    (hiss : ∀ k, t = .co k → (sends k).Issues k cmd) :
    Counted gets puts (acted sends t cmd) s' := by
  intro n k x
  have hold := h n k x
  cases exec_acted hi ha he k with
  | none hsame =>
    rw [acted_of_same he hsame, Co.log_of_same hsame, hsame.moved]
    exact hold
  | gives m y hmoved hmoved' hhist hwhy =>
    obtain ⟨b, hsend⟩ := sending_of_gives hp hi hiss hwhy
    have hacted : acted sends t cmd = sends := by
      apply acted_eq
      rintro e rfl
      rcases hwhy with ⟨-, hcmd | ⟨q, hcmd, -⟩⟩ | ⟨q, k', hcmd, -⟩ <;> cases hcmd
    rw [hacted, log_of_move hmoved hmoved' hhist, items_append, List.count_append, count_items, hold,
      hsend]
    simp [SendRef.hand, hmoved, hmoved']
    omega
  | takes m y hmoved hmoved' hhist hwhy =>
    have hnot := not_sending_of_takes hp hi hiss hwhy
    have hacted : acted sends t cmd = sends := by
      apply acted_eq
      rintro e rfl
      rcases hwhy with ⟨-, hcmd | ⟨q, hcmd⟩⟩ | ⟨q, k', z, hcmd, -⟩ <;> cases hcmd
    rw [hacted, log_of_move hmoved hmoved' hhist, items_append, List.count_append, count_items,
      SendRef.hand_of_ne hnot _ (s.cos k).moved, hold]
    simp
  | records e ht hcmd hco =>
    subst ht hcmd
    obtain ⟨k', hk', -, hok, -⟩ := ha
    cases hk'
    have hk := hiss k rfl
    have hlog : (s'.cos k).log = (s.cos k).log := by rw [hco, Co.log_record]
    rw [acted_self, hlog]
    cases hsk : sends k with
    | outside =>
      rw [hsk] at hk hold
      rw [SendRef.after_outside hk]
      exact hold
    | got m y b =>
      rw [hsk] at hk
      exact hk.elim
    | failed m y =>
      rw [hsk] at hk
      exact hk.elim
    | sending m y b =>
      rw [hsk] at hk hold
      rcases hk with hk | ⟨ret, hrec, hfits⟩
      · exact hk.elim
      · cases hrec
        simp only [SendRef.after, returned]
        rw [hold]
        rcases fails_iff hfits hok with ⟨hfail, hmoved⟩ | ⟨hfail, hmoved⟩
        · simp [hfail, hmoved, SendRef.hand]
        · simp [hfail, hmoved, SendRef.hand]

theorem Dropped.exec {puts : ChanId → Coid → Item → Nat} (h : Dropped puts sends s) (hi : Inv s)
    (ha : Allowed t cmd s) (he : exec t cmd s = some (res, s'))
    (hiss : ∀ k, t = .co k → (sends k).Issues k cmd) : Dropped puts (acted sends t cmd) s' := by
  intro n k x
  have hold := h n k x
  by_cases hrec : t = .co k ∧ ∃ e, cmd = .chan (.record e)
  · obtain ⟨rfl, e, rfl⟩ := hrec
    obtain ⟨k', hk', rfl⟩ := exec_effect he
    cases hk'
    have hk := hiss k rfl
    have hnew : (((s.setCo k (Co.record e)).cos k).history).countP (Record.dropped n x) =
        (s.cos k).history.countP (Record.dropped n x) +
          if Record.dropped n x ⟨e, (s.cos k).late, (s.cos k).moved⟩ then 1 else 0 := by
      rw [State.setCo_cos_self]
      simp only [Co.record, List.countP_append, List.countP_singleton]
    rw [hnew, acted_self, ← hold]
    cases hsk : sends k with
    | outside =>
      rw [hsk] at hk
      rw [SendRef.after_outside hk]
      cases e with
      | send m y b ret => exact hk.elim
      | _ => simp [Record.dropped]
    | got m y b =>
      rw [hsk] at hk
      exact hk.elim
    | failed m y =>
      rw [hsk] at hk
      exact hk.elim
    | sending m y b =>
      rw [hsk] at hk
      rcases hk with hk | ⟨ret, hrec, -⟩
      · exact hk.elim
      · cases hrec
        by_cases hfail : fails b ret = true
        · simp [SendRef.after, returned, Record.dropped, hfail]
        · simp [SendRef.after, returned, Record.dropped, hfail]
  · have hsame : acted sends t cmd k = sends k := by
      by_cases ht : t = .co k
      · rw [acted_eq fun e he => hrec ⟨ht, e, he⟩]
      · exact acted_ne ht
    have hhist : (s'.cos k).history = (s.cos k).history := by
      cases exec_acted hi ha he k with
      | none h => exact h.history
      | gives m y _ _ h _ => exact h
      | takes m y _ _ h _ => exact h
      | records e ht hcmd _ => exact absurd ⟨ht, e, hcmd⟩ hrec
    rw [hsame, hhist]
    exact hold

/-! ### The channel -/

/-- Every reference sent has been taken out, or is in a slot, or was dropped by a close. -/
def Swept (cleaned : ChanId → List (Coid × Item)) (s : State) (n : ChanId) : Prop :=
  ∀ p, (s.chans n).sent.count p = ((s.chans n).taken.map fun p => (p.1, p.2.2)).count p +
    (s.chans n).pending.count p + (cleaned n).count p

variable {cleaned : ChanId → List (Coid × Item)}

theorem swept_of_ne (h : cmd ≠ .chan (.cleanBuff n)) : swept cleaned cmd s n = cleaned n := by
  unfold swept
  split
  · rename_i m
    have hne : n ≠ m := by
      rintro rfl
      exact h rfl
    exact Function.update_of_ne hne _ _
  · rfl

theorem Swept.unmoved (h : Swept cleaned s n) (hu : Unmoved s s' n) : Swept cleaned s' n := by
  intro p
  rw [hu.same.sent, hu.same.taken, hu.same.pending]
  exact h p

theorem Swept.exec (h : Swept cleaned s n) (hent : Entries s n) (hi : Inv s) (ha : Allowed t cmd s)
    (he : exec t cmd s = some (res, s')) : Swept (swept cleaned cmd s) s' n := by
  by_cases hclean : cmd = .chan (.cleanBuff n)
  · subst hclean
    obtain rfl : s' = s.setChan n Chan.clean := exec_effect he
    intro p
    have hold := h p
    rw [State.setChan_chans_self]
    simp only [swept, Function.update_self, Chan.clean, List.count_append, List.count_nil]
    omega
  · have hsame : Swept (swept cleaned cmd s) s n := by
      intro p
      rw [swept_of_ne hclean]
      exact h p
    rcases exec_booked hent hi ha he with hu | ⟨new, d, e, hx⟩ | ⟨hcmd, -, -⟩
    · exact hsame.unmoved hu
    · intro p
      have hold := hsame p
      have hpending := congrArg (List.count p) hx.pending
      rw [List.count_append, List.count_append] at hpending
      rw [hx.sent, hx.taken, List.map_append, List.count_append, List.count_append]
      omega
    · exact absurd hcmd hclean

/-! ### Closing -/

/-- The commands between the closing of the channel and the clean-up of its buffer. -/
def drainCmd (n : ChanId) : Cmd → Prop
  | .chan (.readIsref c) => c = n
  | .chan (.queueRem _ _) | .chan (.casTag _) | .chan (.markClosed _) | .co (.ready _) => True
  | _ => False

def isrefRes : (cmd : Cmd) → cmd.Res → Prop
  | .chan (.readIsref _), isref => isref = true
  | _, _ => True

/-- The program cleans the buffer of `n` before it does anything but wake waiters. -/
def Cleans (n : ChanId) (p : RProg Unit) : Prop :=
  p.Until (drainCmd n) isrefRes (fun cmd _ => cmd = .chan (.cleanBuff n)) fun _ => False

def notClose : Cmd → Prop
  | .chan (.setClose _) => False
  | _ => True

/-- A channel is closed by a program that then cleans its buffer. -/
def closeThen : (cmd : Cmd) → (cmd.Res → RProg Unit) → Prop
  | .chan (.setClose n), f => Cleans n (f ()) ∧ (f ()).Issues notClose queueRes fun _ => True
  | _, _ => False

def Closes (p : RProg Unit) : Prop := p.Until notClose queueRes closeThen fun _ => True

theorem Closes.of_issues {p : RProg Unit} (h : p.Issues notClose queueRes fun _ => True) : Closes p := by
  unfold Closes
  rw [← p.bind_ret]
  exact h.until fun _ _ => trivial

theorem notClose_other (cmd : Cmd) (h : cmd.other) : notClose cmd := by
  cases cmd with
  | chan cmd => exact h.elim
  | _ => trivial

theorem sendCmd.notClose {block : Bool} (cmd : Cmd) (h : sendCmd k c x block cmd) :
    notClose cmd := by
  cases cmd with
  | chan cmd =>
    cases cmd with
    | setClose c' => exact h
    | _ => trivial
  | _ => trivial

theorem recvCmd.notClose {block : Bool} (cmd : Cmd) (h : recvCmd k c block cmd) : notClose cmd := by
  cases cmd with
  | chan cmd =>
    cases cmd with
    | setClose c' => exact h
    | _ => trivial
  | _ => trivial

/-- The loops of a close, when their commands are among `φ`. -/
theorem wakeAll_contains {φ : Cmd → Prop} {ψ : (cmd : Cmd) → cmd.Res → Prop}
    (hφ : ∀ cmd, drainCmd n cmd → φ cmd) (dir : Dir) : (wakeAll n dir).Issues φ ψ fun _ => True := by
  have hfetch : (fetchQuantum n dir).Issues φ ψ fun _ => True := by
    refine Prog.Issues.loop ⟨hφ _ trivial, fun q _ => ?_⟩ fun _ => trivial
    cases q with
    | none => trivial
    | some q =>
      change Prog.Issues _ _ (if q.select = true then _ else _) _
      split
      · exact ⟨hφ _ trivial, fun _ _ => trivial⟩
      · trivial
  refine Prog.Issues.loop (hfetch.bind fun q _ => ?_) fun _ => trivial
  cases q with
  | none => trivial
  | some q => exact ⟨hφ _ trivial, fun _ _ => ⟨hφ _ trivial, fun _ _ => trivial⟩⟩

theorem drainCmd.notClose (cmd : Cmd) (h : drainCmd n cmd) : notClose cmd := by
  unfold RefSends.notClose
  split
  · exact h
  · trivial

/-- A close from the closing of the channel on. -/
def closeRest (n : ChanId) : RProg Ret := do
  wakeAll n .send
  wakeAll n .recv
  if ← readIsref n then cleanBuff n
  return .success

theorem closeRest_cleans (n : ChanId) : (closeRest n).Until (drainCmd n) isrefRes
    (fun cmd _ => cmd = .chan (.cleanBuff n)) fun _ => False := by
  refine (wakeAll_contains (fun _ h => h) .send).until fun _ _ => ?_
  refine (wakeAll_contains (fun _ h => h) .recv).until fun _ _ => ?_
  refine .inr ⟨rfl, fun isref hisref => ?_⟩
  change isref = true at hisref
  subst hisref
  exact .inl rfl

theorem closeRest_notClose (n : ChanId) : (closeRest n).Issues notClose queueRes fun _ => True := by
  refine (wakeAll_contains drainCmd.notClose .send).bind fun _ _ => ?_
  refine (wakeAll_contains drainCmd.notClose .recv).bind fun _ _ => ?_
  refine ⟨trivial, fun isref _ => ?_⟩
  cases isref with
  | false => trivial
  | true => exact ⟨trivial, fun _ _ => trivial⟩

theorem chanClose_closes (n : ChanId) : Closes (chanClose n) := by
  refine .inr ⟨trivial, fun _ _ => .inr ⟨trivial, fun closed _ => ?_⟩⟩
  cases closed with
  | true => exact .inr ⟨trivial, fun _ _ => .inr ⟨trivial, fun _ _ => trivial⟩⟩
  | false =>
    exact .inl ⟨(closeRest_cleans n).bind fun _ h => h.elim,
      (closeRest_notClose n).bind fun _ _ => ⟨trivial, fun _ _ => ⟨trivial, fun _ _ => trivial⟩⟩⟩

theorem body_closes {a : Call} (hok : okCall t a s) (hsel : ∀ cases chain block, a ≠ .select cases chain block) :
    Closes (body t a) := by
  by_cases hclose : ∃ k n, t = .co k ∧ a = .chanClose n
  · obtain ⟨k, n, rfl, rfl⟩ := hclose
    exact chanClose_closes n
  · have hsend : ∀ k c x block, (chanSend k c x block).Issues notClose queueRes fun _ => True :=
      fun k c x block => (chanSend_issues k c x block).mono sendCmd.notClose (fun _ _ h => h) fun _ h => h
    apply Closes.of_issues
    apply body_contains notClose_other _ hok
    · rintro k rfl
      cases a with
      | chanSend c x block => exact hsend k c x block
      | chanRecv c x block =>
        exact (chanRecv_issues k c x block).mono recvCmd.notClose (fun _ _ h => h) fun _ h => h
      | chanClose c => exact absurd ⟨k, c, rfl, rfl⟩ hclose
      | select cases chain block => exact absurd rfl (hsel cases chain block)
      | _ => trivial
    · intro k c w
      exact hsend k c w.toNat true

/-- A closed channel of references has no items, unless its close is not yet at the
    clean-up. -/
def Emptied (c : Config) (n : ChanId) : Prop :=
  (c.shared.chans n).close = true → (c.shared.chans n).buffer.contents = [] ∨
    ∃ k, c.shared.locks (.chan n) = some (.co k) ∧ Cleans n (c.prog (.co k))

theorem exec_close (he : exec t cmd s = some (res, s')) (h : cmd ≠ .chan (.setClose n)) :
    (s'.chans n).close = (s.chans n).close := by
  have hg := exec_grows he
  unfold Grows at hg
  split at hg
  · rename_i q y
    subst hg
    change ((s.setChan q.chan (Chan.add q)).chans n).close = _
    by_cases hn : n = q.chan
    · subst hn
      rw [State.setChan_chans_self]
      rfl
    · rw [State.setChan_chans_ne _ _ hn]
  · rename_i m
    subst hg
    have hn : n ≠ m := by
      rintro rfl
      exact h rfl
    rw [State.setChan_chans_ne _ _ hn]
  · exact hg.close n

theorem drainCmd.locks (h : drainCmd n cmd) (he : exec t cmd s = some (res, s')) :
    s'.locks = s.locks := by
  unfold exec at he
  split at he
  · cases cmd with
    | chan cmd =>
      cases cmd with
      | queueRem c dir =>
        simp only [execChan] at he
        split at he
        · cases he
          rfl
        · cases he
          unfold State.popQuantum
          split <;> rfl
      | casTag q =>
        simp only [execChan] at he
        split at he <;> cases he <;> rfl
      | markClosed q | readIsref c =>
        cases he
        rfl
      | _ => exact h.elim
    | co cmd =>
      cases cmd with
      | ready d =>
        simp only [execCo] at he
        split at he
        · cases he
          rfl
        · cases he
      | _ => exact h.elim
    | _ => exact h.elim
  · cases he

theorem drainCmd.isrefRes (h : drainCmd n cmd) (hisref : (s.chans n).isref = true)
    (he : exec t cmd s = some (res, s')) : isrefRes cmd res := by
  cases cmd with
  | chan cmd =>
    cases cmd with
    | readIsref c =>
      obtain rfl : c = n := h
      unfold exec at he
      split at he
      · cases he
        exact hisref
      · cases he
    | _ => trivial
  | _ => trivial

/-- Nothing is stored in a closed channel. -/
theorem exec_contents_nil (ha : Allowed t cmd s) (he : exec t cmd s = some (res, s'))
    (hclose : (s.chans n).close = true) (hmque : (s.chans n).buffer.isMque = false)
    (h : (s.chans n).buffer.contents = []) : (s'.chans n).buffer.contents = [] := by
  have hset : ∀ {m : ChanId} {g : Chan → Chan}, (m = n → (g (s.chans n)).buffer.contents = []) →
      ((s.setChan m g).chans n).buffer.contents = [] := by
    intro m g hg
    by_cases hm : n = m
    · subst hm
      rw [State.setChan_chans_self]
      exact hg rfl
    · rw [State.setChan_chans_ne _ _ hm]
      exact h
  have heff := exec_effect he
  unfold Effect at heff
  split at heff
  · obtain ⟨k, -, rfl⟩ := heff
    exact h
  · obtain ⟨-, rfl⟩ := heff
    exact h
  · subst heff
    exact h
  · obtain ⟨k, -, rfl⟩ := heff
    exact hset (g := Chan.pass _ _ _) fun _ => h
  · obtain ⟨k, -, rfl⟩ := heff
    exact hset (g := Chan.pass _ _ _) fun _ => h
  · subst heff
    exact hset fun _ => Buffer.contents_cleanBuff hmque
  · rename_i m x
    obtain ⟨k', -, -, -, -, hopen, -⟩ := ha
    rcases heff with rfl | ⟨k, b, -, -, rfl⟩
    · exact h
    · refine hset (g := Chan.push k x b) ?_
      rintro rfl
      exact nomatch hopen.symm.trans hclose
  · rcases heff with rfl | ⟨k, x, b, -, hb, rfl⟩
    · exact h
    · refine hset (g := Chan.shift k b) ?_
      rintro rfl
      rw [Buffer.copyFromBuff_contents hb] at h
      cases h
  · obtain ⟨k, -, rfl⟩ := heff
    exact h
  · rw [(heff.chan n).buffer]
    exact h

theorem Emptied.exec {c c' : Config} {f : cmd.Res → RProg Unit} (h : Emptied c n)
    (hkind : (c.shared.chans n).kind = (true, false)) (hcl : Closes (c.prog t)) (hi : Inv c.shared)
    (ha : Allowed t cmd c.shared) (hp : c.prog t = .cmd cmd f)
    (he : exec t cmd c.shared = some (res, c'.shared))
    (hprog : c'.prog = Function.update c.prog t (f res)) : Emptied c' n := by
  have hisref : (c.shared.chans n).isref = true := congrArg Prod.fst hkind
  have hmque : (c.shared.chans n).buffer.isMque = false := congrArg Prod.snd hkind
  intro hclose'
  by_cases hset : cmd = .chan (.setClose n)
  · subst hset
    right
    obtain ⟨k, rfl, hsec, -⟩ := ha
    obtain hs' : c'.shared = c.shared.setChan n Chan.startClose := exec_grows he
    refine ⟨k, ?_, ?_⟩
    · rw [hs']
      exact hsec.lock
    · rw [hp] at hcl
      rcases hcl with ⟨hcleans, -⟩ | ⟨hnot, -⟩
      · rw [hprog, Function.update_self]
        exact hcleans
      · exact hnot.elim
  · have hclose := (exec_close he hset).symm.trans hclose'
    rcases h hclose with hempty | ⟨k, hlock, hcleans⟩
    · exact .inl (exec_contents_nil ha he hclose hmque hempty)
    · by_cases ht : t = .co k
      · subst ht
        rw [hp] at hcleans
        rcases hcleans with rfl | ⟨hdrain, hrest⟩
        · left
          obtain hs' : c'.shared = c.shared.setChan n Chan.clean := exec_effect he
          rw [hs', State.setChan_chans_self]
          exact Buffer.contents_cleanBuff hmque
        · right
          refine ⟨k, ?_, ?_⟩
          · rw [hdrain.locks he]
            exact hlock
          · rw [hprog, Function.update_self]
            exact hrest res (hdrain.isrefRes hisref he)
      · right
        have hr : Rely (.co k) c.shared c'.shared :=
          (exec_keeps hi ha he).2 (.co k) (fun hk => ht hk.symm) rfl
        refine ⟨k, (hr.locks _).mp hlock, ?_⟩
        rw [hprog, Function.update_of_ne fun hk => ht hk.symm]
        exact hcleans

theorem Closes.step {f : cmd.Res → RProg Unit} (h : Closes (.cmd cmd f)) (hres : queueRes cmd res) :
    Closes (f res) := by
  rcases h with hset | ⟨-, hrest⟩
  · unfold closeThen at hset
    split at hset
    · exact .of_issues hset.2
    · exact hset.elim
  · exact hrest res hres

/-! ### Every run -/

structure Own (r : RefConf) : Prop where
  runs : ∀ k, (r.sends k).Runs k (r.conf.prog (.co k))
  posted : Posted r.sends r.conf.shared
  counted : Counted r.gets r.puts r.sends r.conf.shared
  dropped : Dropped r.puts r.sends r.conf.shared
  swept : ∀ n, (r.conf.shared.chans n).Cleanable → Swept r.cleaned r.conf.shared n
  plain : ∀ n, (r.conf.shared.chans n).isref = false → r.cleaned n = []
  closes : ∀ t, Closes (r.conf.prog t)
  emptied : ∀ n, (r.conf.shared.chans n).kind = (true, false) → Emptied r.conf n

theorem Own.start (h : RefStart r) : Own r where
  runs := by
    intro k
    rw [h.sends k, h.conf.prog]
    trivial
  posted := fun k w hw => nomatch (h.conf.co k).wait.symm.trans hw
  counted := by
    intro n k x
    rw [h.gets, h.puts, h.sends, Co.log, (h.conf.co k).history, (h.conf.co k).moved]
    rfl
  dropped := by
    intro n k x
    rw [h.puts, h.sends, (h.conf.co k).history]
    rfl
  swept := by
    intro n _ p
    have hn := h.conf.chan n
    rw [h.cleaned, hn.sent, hn.taken, hn.pending]
    rfl
  plain := fun n _ => h.cleaned n
  closes := by
    intro t
    rw [h.conf.prog]
    trivial
  emptied := fun n _ _ => .inl (h.conf.chan n).empty

theorem bump_self (f : ChanId → Coid → Item → Nat) (n : ChanId) (k : Coid) (x : Item) :
    bump f n k x n k x = f n k x + 1 := if_pos ⟨rfl, rfl, rfl⟩

theorem bump_apply (f : ChanId → Coid → Item → Nat) (n m : ChanId) (k : Coid) (x y : Item) :
    bump f n k x m k y = f m k y + if n = m ∧ x = y then 1 else 0 := by
  by_cases h : n = m ∧ x = y
  · obtain ⟨rfl, rfl⟩ := h
    rw [bump_self, if_pos ⟨rfl, rfl⟩]
  · rw [if_neg h]
    exact if_neg fun hc => h ⟨hc.1.symm, hc.2.2.symm⟩

theorem bump_of_ne (f : ChanId → Coid → Item → Nat) {j k : Coid} (h : j ≠ k) (n m : ChanId)
    (x y : Item) : bump f n k x m j y = f m j y :=
  if_neg fun hc => h hc.2.1

/-- What the invariant says about one coroutine. -/
structure OwnCo (r : RefConf) (k : Coid) : Prop where
  runs : (r.sends k).Runs k (r.conf.prog (.co k))
  posted : ∀ w, (r.conf.shared.cos k).wait = some w → ∀ q ∈ w.site.quanta,
    (r.sends k).Posts q ((r.conf.shared.cos k).slots q.idx).item
  counted : ∀ n x, r.gets n k x = r.puts n k x + (r.sends k).hand (r.conf.shared.cos k).moved n x +
    (items .send n (r.conf.shared.cos k).log).count x
  dropped : ∀ n x, r.puts n k x + (if r.sends k = .failed n x then 1 else 0) =
    (r.conf.shared.cos k).history.countP (Record.dropped n x)

theorem Own.co (h : Own r) (k : Coid) : OwnCo r k :=
  ⟨h.runs k, h.posted k, fun n => h.counted n k, fun n => h.dropped n k⟩

/-- A thread with nothing to do starts something, or its macro goes on. -/
theorem Own.idle (h : Own r) (hret : r.conf.prog t = .ret ())
    (hcos : r'.conf.shared.cos = r.conf.shared.cos)
    (hchans : r'.conf.shared.chans = r.conf.shared.chans)
    (hlocks : r'.conf.shared.locks = r.conf.shared.locks) (hcleaned : r'.cleaned = r.cleaned)
    (hprog : ∀ u, u ≠ t → r'.conf.prog u = r.conf.prog u) (hcloses : Closes (r'.conf.prog t))
    (hother : ∀ j, t ≠ .co j → r'.sends j = r.sends j ∧ ∀ n x, r'.gets n j x = r.gets n j x ∧
      r'.puts n j x = r.puts n j x)
    (hself : ∀ j, t = .co j → OwnCo r' j) : Own r' := by
  have hco : ∀ j, OwnCo r' j := by
    intro j
    by_cases hj : t = .co j
    · exact hself j hj
    · obtain ⟨hsends, hcounts⟩ := hother j hj
      constructor
      · rw [hsends, hprog _ (Ne.symm hj)]
        exact h.runs j
      · rw [hsends, hcos]
        exact h.posted j
      · intro n x
        rw [hsends, hcos, (hcounts n x).1, (hcounts n x).2]
        exact h.counted n j x
      · intro n x
        rw [hsends, hcos, (hcounts n x).2]
        exact h.dropped n j x
  refine ⟨fun j => (hco j).runs, fun j => (hco j).posted, fun n j => (hco j).counted n,
    fun n j => (hco j).dropped n, ?_, ?_, ?_, ?_⟩
  · intro n hn p
    rw [hchans] at hn ⊢
    rw [hcleaned]
    exact h.swept n hn p
  · intro n hn
    rw [hchans] at hn
    rw [hcleaned]
    exact h.plain n hn
  · intro u
    by_cases hu : u = t
    · rw [hu]
      exact hcloses
    · rw [hprog u hu]
      exact h.closes u
  · intro n hn
    rw [hchans] at hn
    unfold Emptied
    rw [hchans, hlocks]
    intro hclose
    rcases h.emptied n hn hclose with hempty | ⟨k, hlock, hcleans⟩
    · exact .inl hempty
    · refine .inr ⟨k, hlock, ?_⟩
      by_cases hk : Tid.co k = t
      · rw [hk, hret] at hcleans
        exact hcleans.elim
      · rw [hprog _ hk]
        exact hcleans

/-- A macro starts. -/
theorem Own.get {b : Bool} (h : Own r) (hout : r.sends k = .outside)
    (hret : r.conf.prog (.co k) = .ret ()) :
    Own { r with
      sends := Function.update r.sends k (.got n x b)
      gets := bump r.gets n k x } := by
  refine h.idle hret rfl rfl rfl rfl (fun _ _ => rfl) (h.closes _) ?_ ?_
  · intro j hj
    have hne : j ≠ k := fun hc => hj (congrArg Tid.co hc.symm)
    exact ⟨Function.update_of_ne hne _ _, fun m y => ⟨bump_of_ne _ hne n m x y, rfl⟩⟩
  · rintro j hj
    cases hj
    have hself : Function.update r.sends k (.got n x b) k = .got n x b := Function.update_self _ _ _
    have hold := h.co k
    constructor
    · change (Function.update r.sends k (.got n x b) k).Runs k _
      rw [hself]
      exact hret
    · intro w hw q hq
      have hposted := hold.posted w hw q hq
      rw [hout] at hposted
      change (Function.update r.sends k (.got n x b) k).Posts q _
      rw [hself]
      exact hposted
    · intro m y
      have hcount := hold.counted m y
      rw [hout] at hcount
      change bump r.gets n k x m k y =
        r.puts m k y + (Function.update r.sends k (.got n x b) k).hand _ m y + _
      rw [hself, bump_apply, hcount]
      simp only [SendRef.hand]
      omega
    · intro m y
      have hcount := hold.dropped m y
      rw [hout] at hcount
      change r.puts m k y + (if Function.update r.sends k (.got n x b) k = _ then 1 else 0) = _
      rw [hself]
      exact hcount

/-- A macro drops its reference. -/
theorem Own.put (h : Own r) (hfail : r.sends k = .failed n x) :
    Own { r with
      sends := Function.update r.sends k .outside
      puts := bump r.puts n k x } := by
  have hold := h.co k
  have hret : r.conf.prog (.co k) = .ret () := by
    have hruns := hold.runs
    rw [hfail] at hruns
    exact hruns
  refine h.idle hret rfl rfl rfl rfl (fun _ _ => rfl) (h.closes _) ?_ ?_
  · intro j hj
    have hne : j ≠ k := fun hc => hj (congrArg Tid.co hc.symm)
    exact ⟨Function.update_of_ne hne _ _, fun m y => ⟨rfl, bump_of_ne _ hne n m x y⟩⟩
  · rintro j hj
    cases hj
    have hself : Function.update r.sends k .outside k = .outside := Function.update_self _ _ _
    constructor
    · change (Function.update r.sends k .outside k).Runs k (r.conf.prog (.co k))
      rw [hself, hret]
      trivial
    · intro w hw q hq
      have hposted := hold.posted w hw q hq
      rw [hfail] at hposted
      change (Function.update r.sends k .outside k).Posts q _
      rw [hself]
      exact hposted
    · intro m y
      have hcount := hold.counted m y
      rw [hfail] at hcount
      change r.gets m k y =
        bump r.puts n k x m k y + (Function.update r.sends k .outside k).hand _ m y + _
      rw [hself, bump_apply, hcount]
      simp only [SendRef.hand]
      omega
    · intro m y
      have hcount := hold.dropped m y
      rw [hfail] at hcount
      change bump r.puts n k x m k y +
        (if Function.update r.sends k .outside k = _ then 1 else 0) = _
      rw [hself, bump_apply, ← hcount]
      simp

theorem nextSends_exec {f : cmd.Res → RProg Unit} (hp : r.conf.prog t = .cmd cmd f) :
    nextSends r (.run t) = acted r.sends t cmd := by
  have hnext : (r.conf.prog t).next = some cmd := by
    rw [hp]
    rfl
  funext j
  cases t with
  | co k =>
    simp only [nextSends, hnext]
    by_cases hj : j = k
    · subst hj
      rw [acted_self, Function.update_self]
    · rw [acted_ne fun hc => hj (Tid.co.inj hc).symm, Function.update_of_ne hj]
  | _ => rfl

theorem nextCleaned_exec {f : cmd.Res → RProg Unit} (hp : r.conf.prog t = .cmd cmd f) :
    nextCleaned r (.run t) = swept r.cleaned cmd r.conf.shared := by
  have hnext : (r.conf.prog t).next = some cmd := by
    rw [hp]
    rfl
  simp only [nextCleaned, hnext]

theorem nextSends_loop (hp : (r.conf.prog t).next = none) : nextSends r (.run t) = r.sends := by
  cases t with
  | co k => simp only [nextSends, hp]
  | _ => rfl

theorem nextCleaned_loop (hp : (r.conf.prog t).next = none) : nextCleaned r (.run t) = r.cleaned := by
  simp only [nextCleaned, hp]

/-- A thread issues a command. -/
theorem Own.exec {c' : Config} {f : cmd.Res → RProg Unit} (h : Own r) (hreach : Reachable r.conf)
    (hp : r.conf.prog t = .cmd cmd f) (he : exec t cmd r.conf.shared = some (res, c'.shared))
    (hprog : c'.prog = Function.update r.conf.prog t (f res)) :
    Own { r with conf := c', sends := nextSends r (.run t), cleaned := nextCleaned r (.run t) } := by
  have hi : Inv r.conf.shared := hreach.good.1
  have hnext : (r.conf.prog t).next = some cmd := by
    rw [hp]
    rfl
  have ha : Allowed t cmd r.conf.shared := hreach.good.next_allowed hnext trivial
  have hres := exec_queueRes hi he
  have hstep : ∀ k, t = .co k →
      (r.sends k).Issues k cmd ∧ ((r.sends k).after cmd).Runs k (f res) := by
    rintro k rfl
    have hruns := h.runs k
    rw [hp] at hruns
    exact hruns.step hres
  have hiss := fun k hk => (hstep k hk).1
  rw [nextSends_exec hp, nextCleaned_exec hp]
  constructor
  · intro k
    change (acted r.sends t cmd k).Runs k (c'.prog (.co k))
    rw [hprog]
    by_cases ht : t = .co k
    · subst ht
      rw [acted_self, Function.update_self]
      exact (hstep k rfl).2
    · rw [acted_ne ht, Function.update_of_ne (Ne.symm ht)]
      exact h.runs k
  · exact h.posted.exec hi ha he hiss
  · exact h.counted.exec h.posted hi ha he hiss
  · exact h.dropped.exec hi ha he hiss
  · intro n hn
    have hold := hn.of_kind (exec_kind he n)
    exact (h.swept n hold).exec (hreach.entries n hold) hi ha he
  · intro n hn
    have hold : (r.conf.shared.chans n).isref = false := (exec_isref he n).symm.trans hn
    refine (swept_of_ne ?_).trans (h.plain n hold)
    rintro rfl
    obtain ⟨k, -, -, -, hisref⟩ := ha
    exact nomatch hisref.symm.trans hold
  · intro u
    change Closes (c'.prog u)
    rw [hprog]
    by_cases hu : u = t
    · subst hu
      have hcl := h.closes u
      rw [hp] at hcl
      rw [Function.update_self]
      exact hcl.step hres
    · rw [Function.update_of_ne hu]
      exact h.closes u
  · intro n hn
    have hkind := (exec_kind he n).symm.trans hn
    exact (h.emptied n hkind).exec hkind (h.closes t) hi ha hp he hprog

theorem Own.loop {c' : Config} {β : Type} {body : RProg (Option β)} {f : β → RProg Unit} (h : Own r)
    (hp : r.conf.prog t = .loop body f) (hshared : c'.shared = r.conf.shared)
    (hprog : c'.prog = Function.update r.conf.prog t (Prog.unfold body f)) :
    Own { r with conf := c', sends := nextSends r (.run t), cleaned := nextCleaned r (.run t) } := by
  have hnext : (r.conf.prog t).next = none := by
    rw [hp]
    rfl
  rw [nextSends_loop hnext, nextCleaned_loop hnext]
  have hself : c'.prog t = Prog.unfold body f := by rw [hprog, Function.update_self]
  have hother : ∀ u, u ≠ t → c'.prog u = r.conf.prog u := fun u hu => by
    rw [hprog, Function.update_of_ne hu]
  obtain ⟨shared, prog⟩ := c'
  obtain rfl : shared = r.conf.shared := hshared
  refine ⟨?_, h.posted, h.counted, h.dropped, h.swept, h.plain, ?_, ?_⟩
  · intro k
    by_cases ht : Tid.co k = t
    · have hruns := h.runs k
      rw [ht, hp] at hruns
      rw [ht]
      exact hself ▸ hruns.unfold
    · exact hother _ ht ▸ h.runs k
  · intro u
    by_cases hu : u = t
    · have hcl := h.closes t
      rw [hp] at hcl
      rw [hu]
      exact hself ▸ Prog.Until.unfold hcl
    · exact hother u hu ▸ h.closes u
  · intro n hn hclose
    rcases h.emptied n hn hclose with hempty | ⟨k, hlock, hcleans⟩
    · exact .inl hempty
    · refine .inr ⟨k, hlock, ?_⟩
      by_cases ht : Tid.co k = t
      · rw [ht, hp] at hcleans
        rw [ht]
        exact hself ▸ Prog.Until.unfold hcleans
      · exact hother _ ht ▸ hcleans

theorem Own.env {c' : Config} {e : Env} (h : Own r) (hi : Inv r.conf.shared)
    (he : env e r.conf.shared = some c'.shared) (hprog : c'.prog = r.conf.prog) :
    Own { r with conf := c' } := by
  obtain ⟨hcos, hchans, -⟩ := env_same he
  obtain ⟨-, hrely⟩ := env_keeps hi he
  refine ⟨?_, ?_, ?_, ?_, ?_, ?_, ?_, ?_⟩
  · intro k
    exact hprog ▸ h.runs k
  · intro k
    change ∀ w, (c'.shared.cos k).wait = some w → ∀ q ∈ w.site.quanta, _
    exact hcos ▸ h.posted k
  · intro n k x
    exact hcos ▸ h.counted n k x
  · intro n k x
    exact hcos ▸ h.dropped n k x
  · intro n hn p
    rw [hchans] at hn ⊢
    exact h.swept n hn p
  · intro n hn
    rw [hchans] at hn
    exact h.plain n hn
  · intro t
    exact hprog ▸ h.closes t
  · intro n hn hclose
    rw [hchans] at hn hclose ⊢
    rcases h.emptied n hn hclose with hempty | ⟨k, hlock, hcleans⟩
    · exact .inl hempty
    · exact .inr ⟨k, ((hrely (.co k) rfl).locks _).mp hlock, hprog ▸ hcleans⟩

/-- A coroutine that can call something is in no call. -/
theorem enter_free {c : Config} {a : Call} {s' : State} (h : Reachable c)
    (hret : c.prog (.co k) = .ret ()) (he : enter (.co k) a c.shared = some s') :
    (c.shared.cos k).wait = none ∧ (c.shared.cos k).moved = [] := by
  have hrun : c.shared.status k = .running := by
    by_contra hrun
    simp [enter, hrun] at he
  obtain ⟨late, hhere, -⟩ := (h.good.idle hret).free h.good.1 hrun
  exact ⟨hhere.self.wait, hhere.self.moved⟩

/-- The macro calls `_coroc_chan_send`. -/
theorem Own.send {c' : Config} {b : Bool} (h : Own r) (hreach : Reachable r.conf)
    (hgot : r.sends k = .got n x b) (hret : r.conf.prog (.co k) = .ret ())
    (he : enter (.co k) (.chanSend n x b) r.conf.shared = some c'.shared)
    (hprog : c'.prog = Function.update r.conf.prog (.co k) (chanSend k n x b)) :
    Own { r with conf := c', sends := Function.update r.sends k (.sending n x b) } := by
  obtain ⟨hlocks, -, hchans, -, hcos⟩ := enter_spared he
  obtain ⟨hwait, hmoved⟩ := enter_free hreach hret he
  have hself : c'.prog (.co k) = chanSend k n x b := by rw [hprog, Function.update_self]
  refine h.idle hret hcos hchans hlocks rfl (fun u hu => ?_) ?_ ?_ ?_
  · change c'.prog u = _
    rw [hprog, Function.update_of_ne hu]
  · change Closes (c'.prog _)
    rw [hself]
    exact Closes.of_issues ((chanSend_issues k n x b).mono sendCmd.notClose (fun _ _ h => h) fun _ h => h)
  · intro j hj
    have hne : j ≠ k := fun hc => hj (congrArg Tid.co hc.symm)
    exact ⟨Function.update_of_ne hne _ _, fun m y => ⟨rfl, rfl⟩⟩
  · rintro j hj
    cases hj
    have hphase : Function.update r.sends k (.sending n x b) k = .sending n x b :=
      Function.update_self _ _ _
    have hold := h.co k
    constructor
    · change (Function.update r.sends k (.sending n x b) k).Runs k (c'.prog (.co k))
      rw [hphase, hself]
      exact chanSend_until k n x b
    · intro w hw
      change (c'.shared.cos k).wait = some w at hw
      rw [hcos, hwait] at hw
      cases hw
    · intro m y
      have hcount := hold.counted m y
      rw [hgot] at hcount
      change r.gets m k y = r.puts m k y + (Function.update r.sends k (.sending n x b) k).hand
        (c'.shared.cos k).moved m y + (items .send m (c'.shared.cos k).log).count y
      rw [hphase, hcos, hcount, hmoved]
      simp [SendRef.hand]
    · intro m y
      have hcount := hold.dropped m y
      rw [hgot] at hcount
      change r.puts m k y + (if Function.update r.sends k (.sending n x b) k = _ then 1 else 0) =
        (c'.shared.cos k).history.countP _
      rw [hphase, hcos]
      exact hcount

/-- Another call starts. -/
theorem Own.call {c' : Config} {a : Call} (h : Own r) (hret : r.conf.prog t = .ret ())
    (hplain : ∀ k, t = .co k → r.sends k = .outside ∧ plainCall a = true)
    (hok : okCall t a r.conf.shared) (he : enter t a r.conf.shared = some c'.shared)
    (hprog : c'.prog = Function.update r.conf.prog t (body t a)) : Own { r with conf := c' } := by
  obtain ⟨hlocks, -, hchans, -, hcos⟩ := enter_spared he
  have hself : c'.prog t = body t a := by rw [hprog, Function.update_self]
  refine h.idle hret hcos hchans hlocks rfl (fun u hu => ?_) ?_
    (fun _ _ => ⟨rfl, fun _ _ => ⟨rfl, rfl⟩⟩) ?_
  · change c'.prog u = _
    rw [hprog, Function.update_of_ne hu]
  · change Closes (c'.prog t)
    rw [hself]
    apply body_closes hok
    rintro cases chain block rfl
    cases t with
    | co k => exact nomatch (hplain k rfl).2
    | async i => simp [enter] at he
    | _ => cases he
  · rintro k rfl
    obtain ⟨hout, ha⟩ := hplain k rfl
    have hold := h.co k
    constructor
    · change (r.sends k).Runs k (c'.prog (.co k))
      rw [hself, hout]
      exact plain_outside ha
    · change ∀ w, (c'.shared.cos k).wait = some w → ∀ q ∈ w.site.quanta, _
      exact hcos ▸ hold.posted
    · intro m y
      exact hcos ▸ hold.counted m y
    · intro m y
      exact hcos ▸ hold.dropped m y

theorem permitted_call {a : Call} (h : permitted r (.call (.co k) a) = true) :
    (∃ n x b, a = .chanSend n x b ∧ r.sends k = .got n x b) ∨
      (r.sends k = .outside ∧ plainCall a = true ∧ nextSends r (.call (.co k) a) = r.sends) := by
  cases a with
  | chanSend n x b => exact .inl ⟨n, x, b, rfl, by simpa [permitted] using h⟩
  | _ => first
    | exact .inr ⟨by simpa [permitted, plainCall] using h, rfl, rfl⟩
    | simp [permitted, plainCall] at h

theorem Own.run {c' : Config} {l : Label Tid Call Env} (h : Own r) (hreach : Reachable r.conf)
    (hper : permitted r l = true) (hstep : machine.step r.conf l = some c') :
    Own { r with conf := c', sends := nextSends r l, cleaned := nextCleaned r l } := by
  have hok := permitted_ok hper hstep
  obtain ⟨t, cmd, f, res, rfl, hp, he, hprog⟩ | ⟨t, β, body, f, rfl, hp, hshared, hprog⟩ |
    ⟨t, a, rfl, hret, he, hprog⟩ | ⟨e, rfl, he, hprog⟩ := Machine.step_cases hstep
  · exact h.exec hreach hp he hprog
  · exact h.loop hp hshared hprog
  · cases t with
    | co k =>
      rcases permitted_call hper with ⟨n, x, b, rfl, hgot⟩ | ⟨hout, ha, hsends⟩
      · exact h.send hreach hgot hret he hprog
      · rw [hsends]
        refine h.call hret ?_ hok he hprog
        rintro k' hk'
        cases hk'
        exact ⟨hout, ha⟩
    | _ => exact h.call hret (fun _ hk => nomatch hk) hok he hprog
  · exact h.env hreach.good.1 he hprog

theorem RefReachable.own (h : RefReachable r) : Own r := by
  induction h with
  | start hs => exact .start hs
  | next l hr _ hl ih =>
    cases l with
    | get k n x block =>
      simp only [refStep] at hl
      split at hl
      · rename_i hget
        cases hl
        exact ih.get hget.1 (Prog.eq_ret_of_isRet hget.2)
      · cases hl
    | put k =>
      simp only [refStep] at hl
      split at hl
      · rename_i hfail
        cases hl
        exact ih.put hfail
      · cases hl
    | run l =>
      simp only [refStep] at hl
      split at hl
      · rename_i hper
        obtain ⟨c', hc, rfl⟩ := Option.map_eq_some_iff.mp hl
        exact ih.run (RefReachable.reachable hr) hper hc
      · cases hl

/-! ### Where a reference is -/

/-- The references to `x` that `j` has taken to send through `n`, and that it still has: its
    send is pending, or has failed and not yet dropped the reference. -/
def withSender (r : RefConf) (n : ChanId) (j : Coid) (x : Item) : Nat :=
  (r.sends j).hand (r.conf.shared.cos j).moved n x

/-- Those in the slots of the buffer. -/
def inSlots (r : RefConf) (n : ChanId) (j : Coid) (x : Item) : Nat :=
  (r.conf.shared.chans n).pending.count (j, x)

/-- Those that receivers have been given. -/
def received (r : RefConf) (n : ChanId) (j : Coid) (x : Item) : Nat :=
  ((r.conf.shared.chans n).taken.map fun p => (p.1, p.2.2)).count (j, x)

theorem count_sentBy (l : List (Coid × Item)) (j : Coid) (x : Item) :
    (sentBy j l).count x = l.count (j, x) := by
  induction l with
  | nil => rfl
  | cons p l ih =>
    obtain ⟨i, y⟩ := p
    by_cases hi : i = j
    · subst hi
      have hcons : sentBy i ((i, y) :: l) = y :: sentBy i l := by simp [sentBy]
      rw [hcons, List.count_cons, List.count_cons, ih]
      simp
    · have hcons : sentBy j ((i, y) :: l) = sentBy j l := by simp [sentBy, hi]
      rw [hcons, List.count_cons, ih]
      simp [hi]

/-- **References sent through a channel are neither leaked nor dropped twice**, if the
    channel is a ring of references or holds none.  Each reference that a macro has taken is
    with its sender, in a slot, with a receiver, or it was dropped, once: by the macro if its
    send failed, and by the close if it found the reference in the buffer.  The slots are
    those of the buffer, and the receivers got what their calls returned. -/
theorem references_owned (h : RefReachable r) (n : ChanId)
    (hn : (r.conf.shared.chans n).isref = true → (r.conf.shared.chans n).buffer.isMque = false) :
    (∀ j x, r.gets n j x = withSender r n j x + inSlots r n j x + received r n j x + r.puts n j x +
      (r.cleaned n).count (j, x)) ∧
    (∀ j x, r.puts n j x + (if r.sends j = .failed n x then 1 else 0) =
      (r.conf.shared.cos j).history.countP (Record.dropped n x)) ∧
    ((r.conf.shared.chans n).isref = false → r.cleaned n = []) ∧
    ((r.conf.shared.chans n).isref = true → (r.conf.shared.chans n).close = true →
      r.conf.shared.locks (.chan n) = none → (r.conf.shared.chans n).buffer.contents = []) ∧
    (r.conf.shared.chans n).pending.map Prod.snd = (r.conf.shared.chans n).buffer.contents ∧
    (∀ k, takenBy k (r.conf.shared.chans n).taken = items .recv n (r.conf.shared.cos k).log) ∧
    ∀ k, ∀ e ∈ (r.conf.shared.cos k).history, ∀ block ret got, e.entry = .recv n block ret got →
      e.xfers = recvXfers n got := by
  have hown := h.own
  have hreach := h.reachable
  have hent := hreach.entries n hn
  refine ⟨?_, fun j x => hown.dropped n j x, hown.plain n, ?_, hent.stored, hent.taken, ?_⟩
  · intro j x
    have hcounted := hown.counted n j x
    have hswept := hown.swept n hn (j, x)
    rw [← hent.sent, count_sentBy, hswept] at hcounted
    unfold withSender inSlots received
    omega
  · intro hisref hclose hfree
    have hkind : (r.conf.shared.chans n).kind = (true, false) :=
      Prod.ext hisref (hn hisref)
    rcases hown.emptied n hkind hclose with hempty | ⟨k, hlock, -⟩
    · exact hempty
    · exact nomatch hfree.symm.trans hlock
  · intro k e he block ret got hentry
    have hok := hreach.recorded k e he
    simp only [Record.Ok, hentry] at hok
    exact hok.1

/-- Two coroutines, and channels of references with one slot. -/
def refInitial : RefConf where
  conf :=
    { initial 2 fun _ => .none with
      shared :=
        { (initial 2 fun _ => .none).shared with
          chans := fun _ => ⟨false, true, .ring (.empty 1 Nat.one_pos 0), fun _ => [], none, false, [], [], []⟩ } }
  sends := fun _ => .outside
  gets := fun _ _ _ => 0
  puts := fun _ _ _ => 0
  cleaned := fun _ => []

theorem refInitial_start : RefStart refInitial where
  conf :=
    { initial_start 2 (fun _ => .none) fun _ => rfl with
      chan := fun _ => ⟨rfl, rfl, fun _ => rfl, rfl, rfl, rfl, rfl, rfl⟩ }
  sends := fun _ => rfl
  gets := fun _ _ _ => rfl
  puts := fun _ _ _ => rfl
  cleaned := fun _ => rfl

/-- The first send stores its reference, the second one blocks; then the channel is closed. -/
def refClosed : List RefLabel :=
  let runs (t : Tid) (n : Nat) : List RefLabel := (steps t n).map .run
  [.run (.env (.sched 0)), .run (.env (.sched 1))] ++
  [.get 0 1 7 true, .run (.call (.co 0) (.chanSend 1 7 true))] ++ runs (.co 0) 8 ++
  [.get 0 1 8 true, .run (.call (.co 0) (.chanSend 1 8 true))] ++ runs (.co 0) 8 ++
  [.run (.env (.coreWait 0)), .run (.env (.unlock 0 (.chan 1))), .run (.call (.co 1) (.chanClose 1))] ++
  runs (.co 1) 18 ++ [.run (.env (.sched 0))] ++ runs (.co 0) 4 ++ [.put 0]

/-- The close drops the reference in the buffer, the macro that of the send that fails. -/
theorem references_owned_closed : ∃ r : RefConf, RefReachable r ∧ r.gets 1 0 7 = 1 ∧
    r.gets 1 0 8 = 1 ∧ r.puts 1 0 8 = 1 ∧ r.cleaned 1 = [(0, 7)] ∧
    withSender r 1 0 7 + inSlots r 1 0 7 + received r 1 0 7 + r.puts 1 0 7 = 0 ∧
    withSender r 1 0 8 + inSlots r 1 0 8 + received r 1 0 8 = 0 := by
  obtain ⟨r, hr, hP⟩ := Reach.exists_of_run refStep RefStart refInitial_start refClosed
    (fun r => r.gets 1 0 7 == 1 && r.gets 1 0 8 == 1 && r.puts 1 0 8 == 1 && r.cleaned 1 == [(0, 7)] &&
      !(r.conf.shared.chans 1).buffer.isMque) (by decide +kernel)
  simp only [Bool.and_eq_true, beq_iff_eq, Bool.not_eq_true'] at hP
  obtain ⟨⟨⟨⟨hget, hget'⟩, hput⟩, hcleaned⟩, hmque⟩ := hP
  have hplace := (references_owned hr 1 fun _ => hmque).1
  have hfirst := hplace 0 7
  have hsecond := hplace 0 8
  rw [hget, hcleaned] at hfirst
  rw [hget', hput, hcleaned] at hsecond
  simp only [List.count_cons_self, List.count_nil] at hfirst
  have hnone : List.count ((0, 8) : Coid × Item) [(0, 7)] = 0 := by decide
  rw [hnone] at hsecond
  exact ⟨r, hr, hget, hget', hput, hcleaned, by omega, by omega⟩

end RefSends

end Coroc.Runtime
