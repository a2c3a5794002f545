import Coroc.Runtime.SchedSpecs

/-!
# The channel operations

Each of the functions of `src/channel.c` that run with the channel's lock held gets one
rule: what it needs, and what it leaves behind for each of its results.
-/

namespace Coroc.Runtime

open Coroc.Program

variable {s s' : State} {t : Tid} {x : Ctx} {cl : Claim} {k d : Coid} {c : ChanId} {q : Quantum}
variable {r : Role} {late : Bool} {K : Chan → Prop}

/-! ### The commands -/

theorem Here.knows (h : Here (x.learn c K) cl s) (hc : .chan c ∈ x.locks) :
    K (s.chans c) ∧ s.locks (.chan c) = some (.co x.k) := by
  have hk := h.1.chans c hc
  rw [Ctx.learn_know] at hk
  exact ⟨hk, h.1.locks _ hc⟩

/-- A command on the channel `c`, seen by the coroutine that issues it. -/
theorem Here.chanStep {K' : Chan → Prop} {S : Co → Prop} {cl' : Claim}
    (h : Here (x.learn c K) cl s) (hfresh : s'.fresh = s.fresh)
    (hst : s'.status = s.status) (hlocks : s'.locks = s.locks) (htimers : s'.timers = s.timers)
    (hrole : ∀ j, (s'.cos j).role = (s.cos j).role)
    (hchans : ∀ c', c' ≠ c → s'.chans c' = s.chans c') (hself : S (s'.cos x.k))
    (hK : K' (s'.chans c)) (hcl : cl'.Ok (.co x.k) s') :
    Here ((x.setSelf S).learn c K') cl' s' := by
  obtain ⟨hat, -⟩ := h
  refine ⟨⟨?_, ?_, hself, ?_, fun c' hc' => ?_, fun hm j hj => ?_⟩, hcl⟩
  · rw [hfresh]
    exact hat.born
  · rw [hst]
    exact hat.awake
  · rw [hlocks]
    exact hat.locks
  · by_cases hc : c' = c
    · subst hc
      rw [Ctx.learn_know]
      exact hK
    · have hk := hat.chans c' hc'
      rw [Ctx.learn_know_ne _ _ hc] at hk ⊢
      rw [hchans c' hc]
      exact hk
  · rw [htimers]
    exact hat.settled hm j (by rw [← hrole j]; exact hj)

/-- Learning more about a locked channel without a change. -/
theorem Here.learn_more {K' : Chan → Prop} (h : Here (x.learn c K) cl s) (hK : K' (s.chans c)) :
    Here (x.learn c K') cl s :=
  h.chanStep (S := x.self) rfl rfl rfl rfl (fun _ => rfl) (fun _ _ => rfl) h.1.self hK h.2

theorem readClose_spec (x : Ctx) (cl : Claim) (hc : .chan c ∈ x.locks) :
    Triple rules (.co x.k) (Here (x.learn c K) cl) (readClose c)
      fun b => Here (x.learn c fun ch => ch.close = b ∧ K ch) cl := by
  refine issue_spec (Here.stable_of rfl) (fun _ => Here.stable_of rfl) fun s hi h =>
    ⟨trivial, fun b s' he _ => ?_⟩
  obtain ⟨-, he⟩ := exec_inv he
  cases he
  exact h.learn_more ⟨rfl, (h.knows hc).1⟩

/-- A quantum at the head of a queue, or at hand, whose wait nobody has claimed. -/
theorem Inv.empty_of_unclaimed (hi : Inv s) {dir : Dir} (hq : q ∈ (s.chans c).held dir)
    (hun : (s.cos q.co).unclaimed) : dir = .recv → (s.chans c).buffer.contents = [] := by
  rintro rfl
  exact (hi.chan c).empty q hq hun

/-- What popping a quantum leaves: nothing was there, it is at hand (a select's), or its
    wait is claimed. -/
def Popped (x : Ctx) (c : ChanId) (dir : Dir) (o : Bool) (K : Chan → Prop) :
    Option Quantum → State → Prop
  | none => Here (x.learn c fun ch => ch.inhand = none ∧ ch.que dir = [] ∧ K ch) .free
  | some q => fun s => q.chan = c ∧ q.dir = dir ∧
      if q.select then Here (x.learn c fun ch => ch.inhand = some q ∧ K ch) .free s
      else Here (x.learn c fun ch => ch.inhand = none ∧ (dir = .recv → ch.buffer.contents = []) ∧
        K ch) (.hold q o) s

theorem Popped.stable {dir : Dir} {o : Bool} (res : Option Quantum) :
    Stable rules (.co x.k) (Popped x c dir o K res) := by
  cases res with
  | none => exact Here.stable_of rfl
  | some q =>
    refine (Stable.const _).and ((Stable.const _).and ?_)
    split
    · exact Here.stable_of rfl
    · exact Here.stable_of rfl

/-- Claiming the wait behind `q` makes it the only claim. -/
theorem Claim.Ok.claim {o : Bool} {w : Wait} (h : Claim.Ok t s .free)
    (hw' : (s'.cos q.co).wait = some (w.claim t q))
    (hne : ∀ j, j ≠ q.co → s'.cos j = s.cos j)
    (ho : o = true → ((s'.cos q.co).slots q.idx).openAt = true) : Claim.Ok t s' (.hold q o) := by
  refine ⟨⟨w.site, hw'⟩, ho, fun e he => ?_⟩
  by_contra hne'
  exact h e (he.of_eq (hne e hne').symm)

theorem queueRem_spec (x : Ctx) (c : ChanId) (dir : Dir) (o : Bool) (K : Chan → Prop)
    (hself : ∀ co, x.self co → co.wait = none) (hc : .chan c ∈ x.locks)
    (hpop : ∀ ch rest hand, K ch → K (ch.pop dir rest hand))
    (ho : o = true → ∀ ch, K ch → ch.close = false ∨ ch.draining = true) :
    Triple rules (.co x.k) (Here (x.learn c fun ch => ch.inhand = none ∧ K ch) .free)
      (queueRem c dir) (Popped x c dir o K) := by
  refine issue_spec (Here.stable_of rfl) Popped.stable fun s hi h => ?_
  obtain ⟨⟨hhand, hK⟩, hlock⟩ := h.knows hc
  have hwait : (s.cos x.k).wait = none := hself _ h.1.self
  refine ⟨⟨x.k, rfl, hlock, hwait, hhand⟩, fun res s' he _ => ?_⟩
  obtain ⟨-, he⟩ := exec_inv he
  simp only [execChan] at he
  split at he
  · rename_i hnil
    cases he
    exact h.learn_more ⟨hhand, hnil, hK⟩
  · rename_i q rest hcons
    cases he
    have hmem : q ∈ (s.chans c).held dir := by
      rw [Chan.held_of_hand_none hhand, hcons]
      exact List.mem_cons_self
    obtain ⟨hqc, hqd⟩ := (hi.chan c).at_ dir q hmem
    refine ⟨hqc, hqd, ?_⟩
    have hchan : ∀ hand, (s.setChan c (Chan.pop dir rest hand)).chans c =
        (s.chans c).pop dir rest hand := fun hand => s.setChan_chans_self c _
    have hother : ∀ hand c', c' ≠ c → (s.setChan c (Chan.pop dir rest hand)).chans c' =
        s.chans c' := fun hand c' hne => s.setChan_chans_ne _ hne
    unfold State.popQuantum
    cases hsel : q.select with
    | true =>
      simp only [if_true]
      refine h.chanStep (S := x.self) rfl rfl rfl rfl (fun _ => rfl) (hother _) h.1.self ?_
        (h.2.of_cos (fun _ => rfl) fun _ => rfl)
      rw [hchan]
      exact ⟨rfl, hpop _ _ _ hK⟩
    | false =>
      simp only [Bool.false_eq_true, if_false]
      obtain ⟨w, hw, hm, hplain⟩ := (hi.chan c).in_ dir q hmem
      have hidle := hplain hsel
      have hne : q.co ≠ x.k := by
        intro he
        rw [he] at hw
        cases hwait.symm.trans hw
      have hq : ((s.setChan c (Chan.pop dir rest none)).setCo q.co (Co.claim (.co x.k) q)).cos q.co =
          (s.cos q.co).claim (.co x.k) q := State.setCo_cos_self _ _ _
      have hcos : ∀ j, j ≠ q.co → ((s.setChan c (Chan.pop dir rest none)).setCo q.co
          (Co.claim (.co x.k) q)).cos j = s.cos j := fun j hj => State.setCo_cos_ne _ _ hj
      refine h.chanStep (S := x.self) rfl rfl rfl rfl (fun j => ?_) (hother _) ?_ ?_
        (h.2.claim (w := w) ?_ hcos fun hopen => ?_)
      · by_cases hj : j = q.co
        · rw [hj, hq]
          rfl
        · rw [hcos j hj]
      · rw [hcos _ hne.symm]
        exact h.1.self
      · rw [State.setCo_chans, hchan]
        exact ⟨rfl, hi.empty_of_unclaimed hmem ⟨w, hw, hidle⟩, hpop _ _ _ hK⟩
      · rw [hq]
        simp only [Co.claim, hw, Option.map_some]
      · rw [hq]
        exact (hi.chan c).openAt dir q hmem (ho hopen _ hK)

theorem Chan.pop_self (ch : Chan) (dir : Dir) : ch.pop dir (ch.que dir) none = ch.drop := by
  simp only [Chan.pop, Chan.drop, Function.update_eq_self]

/-- What the compare-and-swap on the tag leaves. -/
def Tagged (x : Ctx) (c : ChanId) (dir : Dir) (o : Bool) (K : Chan → Prop) (q : Quantum) :
    Bool → State → Prop
  | true => Here (x.learn c fun ch => ch.inhand = none ∧ (dir = .recv → ch.buffer.contents = []) ∧
      K ch) (.hold q o)
  | false => Here (x.learn c fun ch => ch.inhand = none ∧ K ch) .free

theorem casTag_spec (x : Ctx) (c : ChanId) (dir : Dir) (o : Bool) (K : Chan → Prop) (q : Quantum)
    (hqc : q.chan = c) (hqd : q.dir = dir)
    (hself : ∀ co, x.self co → co.wait = none) (hc : .chan c ∈ x.locks)
    (hpop : ∀ ch rest hand, K ch → K (ch.pop dir rest hand))
    (ho : o = true → ∀ ch, K ch → ch.close = false ∨ ch.draining = true) :
    Triple rules (.co x.k) (Here (x.learn c fun ch => ch.inhand = some q ∧ K ch) .free)
      (casTag q) (Tagged x c dir o K q) := by
  refine issue_spec (Here.stable_of rfl) (fun b => by cases b <;> exact Here.stable_of rfl)
    fun s hi h => ?_
  obtain ⟨⟨hhand, hK⟩, hlock⟩ := h.knows hc
  have hwait : (s.cos x.k).wait = none := hself _ h.1.self
  subst hqc
  refine ⟨⟨x.k, rfl, hlock, hwait, hhand⟩, fun b s' he _ => ?_⟩
  obtain ⟨-, he⟩ := exec_inv he
  simp only [execChan] at he
  have hchan : (s.setChan q.chan Chan.drop).chans q.chan = (s.chans q.chan).drop :=
    s.setChan_chans_self _ _
  have hdrop : K (s.chans q.chan).drop := by
    rw [← Chan.pop_self _ dir]
    exact hpop _ _ _ hK
  split at he
  · rename_i htag
    cases he
    have hmem : q ∈ (s.chans q.chan).held dir := by
      rw [← hqd]
      simp [Chan.held, hhand, Option.filter]
    obtain ⟨w, hw, hm, -⟩ := (hi.chan q.chan).in_ dir q hmem
    have hidle := (hi.co q.co).idle_of_tag_none hw hm ((hi.chan q.chan).hand q hhand) htag
    have hne : q.co ≠ x.k := by
      intro he
      rw [he] at hw
      cases hwait.symm.trans hw
    have hq : (s.claimTag (.co x.k) q).cos q.co = (s.cos q.co).claimTag (.co x.k) q :=
      State.setCo_cos_self _ _ _
    have hcos : ∀ j, j ≠ q.co → (s.claimTag (.co x.k) q).cos j = s.cos j := fun j hj =>
      State.setCo_cos_ne _ _ hj
    refine h.chanStep (S := x.self) rfl rfl rfl rfl (fun j => ?_)
      (fun c' hne => s.setChan_chans_ne _ hne) ?_ ?_ (h.2.claim (w := w) ?_ hcos fun hopen => ?_)
    · by_cases hj : j = q.co
      · rw [hj, hq]
        rfl
      · rw [hcos j hj]
    · rw [hcos _ hne.symm]
      exact h.1.self
    · change _ ∧ _ ∧ K ((s.setChan q.chan Chan.drop).chans q.chan)
      rw [hchan]
      refine ⟨congrArg Chan.inhand hchan, fun hdir => ?_, hdrop⟩
      exact (congrArg (fun ch : Chan => ch.buffer.contents) hchan).trans
        (hi.empty_of_unclaimed hmem ⟨w, hw, hidle⟩ hdir)
    · rw [hq]
      simp only [Co.claimTag, hw, Option.map_some]
    · rw [hq]
      exact (hi.chan q.chan).openAt dir q hmem (ho hopen _ hK)
  · cases he
    refine h.chanStep (S := x.self) rfl rfl rfl rfl (fun _ => rfl)
      (fun c' hne => s.setChan_chans_ne _ hne) h.1.self ?_ (h.2.of_cos (fun _ => rfl) fun _ => rfl)
    rw [hchan]
    exact ⟨rfl, hdrop⟩

/-! ### `fetch_quantum` -/

/-- What `fetch_quantum` leaves: an empty queue, or a claimed waiter. -/
def Fetched (x : Ctx) (c : ChanId) (dir : Dir) (o : Bool) (K : Chan → Prop) :
    Option Quantum → State → Prop
  | none => Here (x.learn c fun ch => ch.inhand = none ∧ ch.que dir = [] ∧ K ch) .free
  | some q => fun s => q.chan = c ∧ q.dir = dir ∧
      Here (x.learn c fun ch => ch.inhand = none ∧ (dir = .recv → ch.buffer.contents = []) ∧ K ch)
        (.hold q o) s

theorem Fetched.stable {dir : Dir} {o : Bool} (res : Option Quantum) :
    Stable rules (.co x.k) (Fetched x c dir o K res) := by
  cases res with
  | none => exact Here.stable_of rfl
  | some q => exact (Stable.const _).and ((Stable.const _).and (Here.stable_of rfl))

/-- **`fetch_quantum`** removes stale quanta of selects until it claims a waiter or the
    queue is empty. -/
theorem fetchQuantum_spec (x : Ctx) (c : ChanId) (dir : Dir) (o : Bool) (K : Chan → Prop)
    (hself : ∀ co, x.self co → co.wait = none) (hc : .chan c ∈ x.locks)
    (hpop : ∀ ch rest hand, K ch → K (ch.pop dir rest hand))
    (ho : o = true → ∀ ch, K ch → ch.close = false ∨ ch.draining = true) :
    Triple rules (.co x.k) (Here (x.learn c fun ch => ch.inhand = none ∧ K ch) .free)
      (fetchQuantum c dir) (Fetched x c dir o K) := by
  refine Triple.loop (Here.stable_of rfl) (Fetched x c dir o K) ?_ fun res =>
    Triple.ret (Fetched.stable res) fun _ _ h => h
  refine Triple.bind (queueRem_spec x c dir o K hself hc hpop ho) fun res => ?_
  cases res with
  | none => exact Triple.ret (Here.stable_of rfl) fun _ _ h => h
  | some q =>
    dsimp only
    cases hsel : q.select with
    | true =>
      simp only [if_true]
      refine Triple.of_pure fun hqc => Triple.of_pure fun hqd => ?_
      rw [hsel]
      refine Triple.bind (casTag_spec x c dir o K q hqc hqd hself hc hpop ho) fun won => ?_
      cases won with
      | true => exact Triple.ret (Here.stable_of rfl) fun _ _ h => ⟨hqc, hqd, h⟩
      | false => exact Triple.ret (Here.stable_of rfl) fun _ _ h => h
    | false =>
      simp only [Bool.false_eq_true, if_false]
      refine Triple.ret (Popped.stable (some q)) fun s _ h => ?_
      obtain ⟨hqc, hqd, h⟩ := h
      rw [hsel] at h
      exact ⟨hqc, hqd, h⟩

/-! ### Moving an item -/

/-- The claimed waiter has been served: it is ready to be woken. -/
theorem Claim.Ok.serve {o : Bool} (h : Claim.Ok t s (.hold q o))
    (hw : (s'.cos q.co).wait = (s.cos q.co).wait.map (Wait.serve t q))
    (hne : ∀ j, j ≠ q.co → (s'.cos j).wait = (s.cos j).wait) : Claim.Ok t s' (.serve q.co) := by
  obtain ⟨⟨site, hsite⟩, -, hone⟩ := h
  refine ⟨⟨site, some q, ?_⟩, fun e he => ?_⟩
  · rw [hw, hsite]
    rfl
  · by_contra hne'
    exact hne' (hone e ((Claimed.congr (hne e hne')).mp he))

theorem Plain.moves {m : List Xfer} {co : Co} (h : Plain r late m co) (z : Xfer) :
    Plain r late (m ++ [z]) (co.move z) :=
  ⟨h.wait, h.role, h.late, congrArg (· ++ [z]) h.moved⟩

/-- The coroutine behind a claimed quantum is not the one that runs. -/
theorem Here.hold_ne {o : Bool} (h : Here x (.hold q o) s) (hwait : (s.cos x.k).wait = none) :
    q.co ≠ x.k := by
  obtain ⟨site, hw⟩ := h.2.1
  intro he
  rw [he] at hw
  exact nomatch hwait.symm.trans hw

/-- The state after an item has gone between `x.k` and the claimed waiter `q`. -/
theorem Here.exchange {o : Bool} {K' : Chan → Prop} {g : Chan → Chan} {f : Co → Co} {z : Xfer}
    (h : Here ((x.setSelf (Plain r late [])).learn c K) (.hold q o) s)
    (hK : K' (g (s.chans c)))
    (hwait : ∀ co, (f co).wait = co.wait.map (Wait.serve (.co x.k) q))
    (hrole : ∀ co, (f co).role = co.role) :
    Here ((x.setSelf (Plain r late [z])).learn c K') (.serve q.co)
      (((s.setChan c g).setCo q.co f).setCo x.k (Co.move z)) := by
  have hself : Plain r late [] (s.cos x.k) := h.1.self
  have hne : q.co ≠ x.k := h.hold_ne hself.wait
  have hq : (((s.setChan c g).setCo q.co f).setCo x.k (Co.move z)).cos q.co = f (s.cos q.co) := by
    rw [State.setCo_cos_ne _ _ hne, State.setCo_cos_self]
    rfl
  have hk : (((s.setChan c g).setCo q.co f).setCo x.k (Co.move z)).cos x.k =
      (s.cos x.k).move z := by
    rw [State.setCo_cos_self, State.setCo_cos_ne _ _ hne.symm]
    rfl
  have hj : ∀ j, j ≠ q.co → j ≠ x.k →
      (((s.setChan c g).setCo q.co f).setCo x.k (Co.move z)).cos j = s.cos j := by
    intro j hjq hjk
    rw [State.setCo_cos_ne _ _ hjk, State.setCo_cos_ne _ _ hjq]
    rfl
  refine h.chanStep (x := x.setSelf (Plain r late [])) (S := Plain r late [z]) rfl rfl rfl rfl
    (fun j => ?_) (fun c' hc' => s.setChan_chans_ne _ hc') ?_ ?_ (h.2.serve ?_ fun j hjq => ?_)
  · by_cases hjk : j = x.k
    · rw [hjk, hk]
      rfl
    · by_cases hjq : j = q.co
      · rw [hjq, hq]
        exact hrole _
      · rw [hj j hjq hjk]
  · exact hk ▸ hself.moves z
  · rw [State.setCo_chans, State.setCo_chans, State.setChan_chans_self]
    exact hK
  · rw [hq]
    exact hwait _
  · by_cases hjk : j = x.k
    · rw [hjk, hk]
      rfl
    · rw [hj j hjq hjk]

/-- Giving an item to a claimed receiver. -/
theorem copyTo_spec (x : Ctx) {o : Bool} (i : Item) (hqc : q.chan = c) (hqd : q.dir = .recv)
    (hc : .chan c ∈ x.locks) (hK : ∀ ch, K ch → ch.Quiet ∧ ch.buffer.contents = []) :
    Triple rules (.co x.k) (Here ((x.setSelf (Plain r late [])).learn c K) (.hold q o)) (copyTo q i)
      fun _ => Here ((x.setSelf (Plain r late [⟨.send, c, i⟩])).learn c Chan.Quiet) (.serve q.co) := by
  refine issue_spec (Here.stable_of rfl) (fun _ => Here.stable_of rfl) fun s hi h => ?_
  subst hqc
  obtain ⟨hquiet, hempty⟩ := hK _ (h.knows hc).1
  refine ⟨⟨x.k, rfl, h.1.self.moved, ⟨h.1.self.wait, h.2.1⟩, hqd, hempty, hquiet.drain⟩,
    fun u s' he _ => ?_⟩
  obtain ⟨-, he⟩ := exec_inv he
  cases he
  exact h.exchange ⟨hquiet.hand, hquiet.drain⟩ (fun _ => rfl) fun _ => rfl

/-- Taking the item of a claimed sender. -/
theorem copyFrom_spec (x : Ctx) {o : Bool} (hqc : q.chan = c) (hqd : q.dir = .send)
    (hc : .chan c ∈ x.locks) (hK : ∀ ch, K ch → ch.Quiet ∧ ch.buffer.contents = []) :
    Triple rules (.co x.k) (Here ((x.setSelf (Plain r late [])).learn c K) (.hold q o)) (copyFrom q)
      fun y => Here ((x.setSelf (Plain r late [⟨.recv, c, y⟩])).learn c Chan.Quiet)
        (.serve q.co) := by
  refine issue_spec (Here.stable_of rfl) (fun _ => Here.stable_of rfl) fun s hi h => ?_
  subst hqc
  obtain ⟨hquiet, hempty⟩ := hK _ (h.knows hc).1
  refine ⟨⟨x.k, rfl, h.1.self.moved, ⟨h.1.self.wait, h.2.1⟩, hqd, hempty, hquiet.drain⟩,
    fun u s' he _ => ?_⟩
  obtain ⟨-, he⟩ := exec_inv he
  cases he
  exact h.exchange ⟨hquiet.hand, hquiet.drain⟩ (fun _ => rfl) fun _ => rfl

/-- A command that moves an item between `x.k` and the buffer. -/
theorem Here.buffered {K' : Chan → Prop} {g : Chan → Chan} {z : Xfer}
    (h : Here ((x.setSelf (Plain r late [])).learn c K) cl s) (hK : K' (g (s.chans c))) :
    Here ((x.setSelf (Plain r late [z])).learn c K') cl
      ((s.setChan c g).setCo x.k (Co.move z)) := by
  have hself : Plain r late [] (s.cos x.k) := h.1.self
  have hk : ((s.setChan c g).setCo x.k (Co.move z)).cos x.k = (s.cos x.k).move z :=
    State.setCo_cos_self _ _ _
  have hj : ∀ j, j ≠ x.k → ((s.setChan c g).setCo x.k (Co.move z)).cos j = s.cos j :=
    fun j hjk => State.setCo_cos_ne _ _ hjk
  have hsame : ∀ {β : Type} (p : Co → β), (∀ co : Co, p (co.move z) = p co) → ∀ j,
      p (((s.setChan c g).setCo x.k (Co.move z)).cos j) = p (s.cos j) := by
    intro β p hp j
    by_cases hjk : j = x.k
    · rw [hjk, hk, hp]
    · rw [hj j hjk]
  refine h.chanStep (x := x.setSelf (Plain r late [])) (S := Plain r late [z]) rfl rfl rfl rfl
    (hsame Co.role fun _ => rfl) (fun c' hc' => s.setChan_chans_ne _ hc') ?_ ?_
    (h.2.of_cos (hsame Co.wait fun _ => rfl) (hsame Co.slots fun _ => rfl))
  · exact hk ▸ hself.moves z
  · rw [State.setCo_chans, State.setChan_chans_self]
    exact hK

/-- The result of `copy_to_buff`. -/
def Pushed (x : Ctx) (c : ChanId) (r : Role) (late : Bool) (i : Item) (K : Chan → Prop) :
    Bool → State → Prop
  | true => Here ((x.setSelf (Plain r late [⟨.send, c, i⟩])).learn c Chan.Quiet) .free
  | false => Here ((x.setSelf (Plain r late [])).learn c fun ch => ch.buffer.full = true ∧ K ch) .free

theorem copyToBuff_spec (x : Ctx) (i : Item) (hc : .chan c ∈ x.locks)
    (hK : ∀ ch, K ch → ch.Quiet ∧ ch.que .recv = [] ∧ ch.close = false) :
    Triple rules (.co x.k) (Here ((x.setSelf (Plain r late [])).learn c K) .free) (copyToBuff c i)
      (Pushed x c r late i K) := by
  refine issue_spec (Here.stable_of rfl) (fun b => by cases b <;> exact Here.stable_of rfl)
    fun s hi h => ?_
  obtain ⟨hKs, hlock⟩ := h.knows hc
  obtain ⟨hquiet, hque, hopen⟩ := hK _ hKs
  refine ⟨⟨x.k, rfl, h.1.self.moved, ⟨hlock, h.1.self.wait, hquiet.hand⟩, hque, hopen, hquiet.drain⟩,
    fun b s' he _ => ?_⟩
  obtain ⟨-, he⟩ := exec_inv he
  simp only [execChan] at he
  split at he
  · rename_i hnone
    cases he
    exact h.learn_more ⟨Buffer.copyToBuff_eq_none.mp hnone, hKs⟩
  · cases he
    exact h.buffered ⟨hquiet.hand, hquiet.drain⟩

/-- The result of `copy_from_buff`. -/
def Shifted (x : Ctx) (c : ChanId) (r : Role) (late : Bool) (K : Chan → Prop) :
    Option Item → State → Prop
  | some y => Here ((x.setSelf (Plain r late [⟨.recv, c, y⟩])).learn c Chan.Quiet) .free
  | none => Here ((x.setSelf (Plain r late [])).learn c fun ch => ch.buffer.contents = [] ∧ K ch) .free

theorem copyFromBuff_spec (x : Ctx) (hc : .chan c ∈ x.locks) (hK : ∀ ch, K ch → ch.Quiet) :
    Triple rules (.co x.k) (Here ((x.setSelf (Plain r late [])).learn c K) .free) (copyFromBuff c)
      (Shifted x c r late K) := by
  refine issue_spec (Here.stable_of rfl) (fun b => by cases b <;> exact Here.stable_of rfl)
    fun s hi h => ?_
  obtain ⟨hKs, hlock⟩ := h.knows hc
  have hquiet := hK _ hKs
  refine ⟨⟨x.k, rfl, h.1.self.moved, ⟨hlock, h.1.self.wait, hquiet.hand⟩⟩, fun b s' he _ => ?_⟩
  obtain ⟨-, he⟩ := exec_inv he
  simp only [execChan] at he
  split at he
  · rename_i hnone
    cases he
    exact h.learn_more ⟨Buffer.copyFromBuff_eq_none.mp hnone, hKs⟩
  · cases he
    exact h.buffered ⟨hquiet.hand, hquiet.drain⟩

/-! ### Waiting at a channel -/

/-- The record of a coroutine that has queued the quanta `qs` so far. -/
def Posted (r : Role) (late : Bool) (qs : List Quantum) (items : Quantum → Item) (co : Co) : Prop :=
  (qs = [] ∧ Plain r late [] co) ∨ (qs ≠ [] ∧ Publishes r late (.chans qs) items co)

theorem Posted.nil {items : Quantum → Item} {co : Co} (h : Plain r late [] co) :
    Posted r late [] items co :=
  .inl ⟨rfl, h⟩

theorem Posted.publishes {qs : List Quantum} {items : Quantum → Item} {co : Co}
    (h : Posted r late qs items co) (hne : qs ≠ []) : Publishes r late (.chans qs) items co :=
  h.elim (fun h => absurd h.1 hne) fun h => h.2

theorem Posted.moved {qs : List Quantum} {items : Quantum → Item} {co : Co}
    (h : Posted r late qs items co) : co.moved = [] :=
  h.elim (fun h => h.2.moved) fun h => h.2.moved

theorem Posted.post {qs : List Quantum} {items : Quantum → Item} {co : Co} {i : Item} {b : Bool}
    (h : Posted r late qs items co) (hidx : ∀ p ∈ qs, p.idx ≠ q.idx)
    (hitem : q.dir = .send → items q = i) :
    Posted r late (qs ++ [q]) items (co.post q i b) := by
  refine .inr ⟨by simp, ?_⟩
  have hslot : ((co.post q i b).slots q.idx).item = i := by simp [Co.post]
  rcases h with ⟨rfl, hp⟩ | ⟨-, hp⟩
  · refine ⟨?_, hp.role, hp.late, hp.moved, fun p hm hd => ?_⟩
    · simp only [Co.post, hp.wait, Wait.extend, List.nil_append]
    · obtain rfl : p = q := by simpa [Site.quanta] using hm
      rw [hslot, hitem hd]
  · refine ⟨?_, hp.role, hp.late, hp.moved, fun p hm hd => ?_⟩
    · simp only [Co.post, hp.wait, Wait.extend]
    · rcases List.mem_append.mp hm with hm | hm
      · have hne : p.idx ≠ q.idx := hidx p hm
        simp only [Co.post, Function.update_of_ne hne]
        exact hp.items p hm hd
      · obtain rfl : p = q := by simpa using hm
        rw [hslot, hitem hd]

/-- What a coroutine knows about a channel when it decides to wait there. -/
structure Chan.Stuck (dir : Dir) (plain : Bool) (ch : Chan) : Prop where
  quiet : ch.Quiet
  isOpen : plain = true → ch.close = false
  send : dir = .send → ch.que .recv = [] ∧ (ch.close = true ∨ ch.buffer.full = true)
  recv : dir = .recv → ch.que .send = [] ∧ ch.buffer.contents = []

theorem queueAdd_spec (x : Ctx) (r : Role) (late : Bool) (qs : List Quantum) (items : Quantum → Item)
    (i : Item)
    (hco : q.co = x.k) (hc : .chan q.chan ∈ x.locks) (hidx : q.idx = qs.length)
    (hqs : qs ≠ [] → q.select = true ∧ (∀ p ∈ qs, p.select = true) ∧ q.chan ∉ qs.map Quantum.chan)
    (hitem : q.dir = .send → items q = i) (hK : ∀ ch, K ch → ch.Stuck q.dir (!q.select)) :
    Triple rules (.co x.k) (Here ((x.setSelf (Posted r late qs items)).learn q.chan K) .free)
      (queueAdd q i)
      fun _ => Here ((x.setSelf (Posted r late (qs ++ [q]) items)).learn q.chan Chan.Quiet) .free := by
  refine issue_spec (Here.stable_of rfl) (fun _ => Here.stable_of rfl) fun s hi h => ?_
  obtain ⟨hKs, hlock⟩ := h.knows hc
  have hstuck := hK _ hKs
  have hself : Posted r late qs items (s.cos x.k) := h.1.self
  have hco' := hi.co x.k
  have hlt : ∀ p ∈ qs, p.idx < qs.length := by
    rcases hself with ⟨rfl, -⟩ | ⟨-, hp⟩
    · exact fun p hp => nomatch hp
    · exact (hco'.site _ hp.wait).idx_lt
  have htag : (s.cos x.k).qtag = none := by
    rcases hself with ⟨-, hp⟩ | ⟨-, hp⟩
    · exact (hco'.awake hp.wait).2.2
    · exact (hco'.phase _ hp.wait).2.2.1
  have hbuild : (s.cos x.k).wait = none ∧ q.idx = 0 ∨
      ∃ qs, (s.cos x.k).wait = some ⟨.chans qs, .idle⟩ ∧ q.idx = qs.length ∧
        q.chan ∉ qs.map Quantum.chan ∧ q.select = true ∧ ∀ p ∈ qs, p.select = true := by
    rcases hself with ⟨hnil, hp⟩ | ⟨hne, hp⟩
    · exact .inl ⟨hp.wait, by rw [hidx, hnil]; rfl⟩
    · obtain ⟨hsel, hall, hnew⟩ := hqs hne
      exact .inr ⟨qs, hp.wait, hidx, hnew, hsel, hall⟩
  refine ⟨⟨x.k, rfl, hco, hlock, hself.moved, htag, hstuck.quiet.hand, hstuck.quiet.drain, hbuild,
    fun hsel => hstuck.isOpen (by simp [hsel]), ?_⟩, fun u s' he _ => ?_⟩
  · cases hd : q.dir with
    | send => exact hstuck.send hd
    | recv => exact hstuck.recv hd
  · obtain ⟨-, he⟩ := exec_inv he
    cases he
    have hk : (s.enqueue q i).cos x.k = (s.cos x.k).post q i (!(s.chans q.chan).close) := by
      simp only [State.enqueue, hco, State.setCo_cos_self, State.setChan_cos]
    have hj : ∀ j, j ≠ x.k → (s.enqueue q i).cos j = s.cos j := by
      intro j hj
      simp only [State.enqueue, hco, State.setCo_cos_ne _ _ hj, State.setChan_cos]
    refine h.chanStep (x := x.setSelf (Posted r late qs items))
      (S := Posted r late (qs ++ [q]) items) rfl rfl rfl rfl (fun j => ?_)
      (fun c' hc' => s.setChan_chans_ne _ hc') ?_ ?_ ?_
    · by_cases hjk : j = x.k
      · rw [hjk, hk]
        rfl
      · rw [hj j hjk]
    · exact hk ▸ hself.post (fun p hp => by have := hlt p hp; omega) hitem
    · rw [show (s.enqueue q i).chans q.chan = (s.chans q.chan).add q from s.setChan_chans_self _ _]
      exact ⟨hstuck.quiet.hand, hstuck.quiet.drain⟩
    · -- the wait that grows is the coroutine's own, and nobody's claim
      rintro e ⟨w, hw, hp⟩
      by_cases hek : e = x.k
      · rw [hek, hk] at hw
        have hidle : w.phase = .idle := by
          rcases hself with ⟨-, hpl⟩ | ⟨-, hpb⟩
          · simp only [Co.post, hpl.wait, Wait.extend, Option.some.injEq] at hw
            rw [← hw]
          · simp only [Co.post, hpb.wait, Wait.extend, Option.some.injEq] at hw
            rw [← hw]
        rcases hp with ⟨_, hp⟩ | ⟨_, hp⟩ <;> cases hidle.symm.trans hp
      · rw [hj e hek] at hw
        exact h.2 e ⟨w, hw, hp⟩

/-- The items a finished call has moved, by what its quantum says. -/
def Slot.xfers (dir : Dir) (c : ChanId) (slot : Slot) : List Xfer :=
  if slot.close then [] else [⟨dir, c, slot.item⟩]

theorem Co.Outcome.moved {co : Co} (h : co.Outcome q) :
    co.moved = (co.slots q.idx).xfers q.dir q.chan := by
  rcases h with ⟨hc, -, -, hm⟩ | ⟨hc, hm⟩
  · rw [hm, Slot.xfers, if_pos hc]
  · rw [hm, Slot.xfers, if_neg (by rw [hc]; decide)]

/-- A waiter that is not a select's looks at its quantum. -/
theorem readQuantum_spec (k : Coid) (ls : List Lock) (know : ChanId → Chan → Prop)
    (items : Quantum → Item) (p : Quantum) (hplain : q.select = false) (hc : .chan q.chan ∈ ls) :
    Triple rules (.co k) (Here ⟨k, Awoken r late [q] items p, ls, know⟩ .free) (readQuantum q)
      fun slot s => (q.dir = .send → slot.item = items q) ∧
        Here ⟨k, Plain r late (slot.xfers q.dir q.chan), ls, know⟩ .free s := by
  refine issue_spec (Here.stable_of rfl) (fun _ => (Stable.const _).and (Here.stable_of rfl))
    fun s hi h => ?_
  have hself : Awoken r late [q] items p (s.cos k) := h.1.self
  have hphase := (hi.co k).phase _ hself.wait
  simp only [PhaseOk, Site.quanta, List.mem_singleton] at hphase
  obtain ⟨-, rfl, -, hout⟩ := hphase
  refine ⟨⟨k, [p], p, rfl, hself.wait, List.mem_singleton_self _, h.1.locks _ hc⟩, fun slot s' he _ => ?_⟩
  obtain ⟨-, he⟩ := exec_inv he
  cases he
  refine ⟨hself.items p (List.mem_singleton_self _), h.leave (f := Co.look p) ?_ rfl
    ⟨?_, hself.role, hself.late, hout.moved⟩⟩
  · simp [Co.look, Wait.look, hplain]
  · simp [Co.look, Wait.look, hplain]

/-- **Waiting for the other side**: queue a quantum, hand the lock over, and look at the
    quantum when woken. -/
theorem park_spec (x : Ctx) (ls : List Lock) (dir : Dir) (i : Item) {α : Type}
    {f : Slot → RProg α} {Q : α → State → Prop} (hlocks : x.locks = .chan c :: ls)
    (hls : ∀ l ∈ ls, ∀ c, l ≠ .chan c) (hK : ∀ ch, K ch → ch.Stuck dir true)
    (hf : ∀ slot, (dir = .send → slot.item = i) →
      Triple rules (.co x.k) (Here ⟨x.k, Plain r late (slot.xfers dir c), .chan c :: ls,
        fun _ => Chan.Quiet⟩ .free) (f slot) Q) :
    Triple rules (.co x.k) (Here ((x.setSelf (Plain r late [])).learn c K) .free)
      (do
        queueAdd ⟨x.k, c, false, dir, 0⟩ i
        vpuSuspend [.chan c]
        lockAcquire (.chan c)
        f (← readQuantum ⟨x.k, c, false, dir, 0⟩)) Q := by
  have hmem : .chan c ∈ x.locks := by
    rw [hlocks]
    exact List.mem_cons_self
  have hpre : ∀ s, Inv s → Here ((x.setSelf (Plain r late [])).learn c K) .free s →
      Here ((x.setSelf (Posted r late [] fun _ => i)).learn c K) .free s := fun s _ h =>
    h.mono rfl (fun _ hp => .nil hp) (fun _ h => h) fun _ _ _ h => h
  refine Triple.bind ((queueAdd_spec (q := ⟨x.k, c, false, dir, 0⟩) x r late [] (fun _ => i) i rfl hmem
    rfl (fun h => absurd rfl h) (fun _ => rfl) hK).pre hpre) fun _ => ?_
  refine Triple.bind (M := fun _ => Asleep x.k r late ls (.chans [⟨x.k, c, false, dir, 0⟩]) fun _ => i)
    ?_ fun _ => Triple.bind (wake_spec x.k ls _ (by simp) _) fun _ => ?_
  · have hhand : ∀ l ∈ (Site.chans [⟨x.k, c, false, dir, 0⟩]).locks, l ∈ [Lock.chan c] := fun l hl => hl
    refine (suspend_spec x.k [.chan c] ls x.locks (Function.update x.know c Chan.Quiet) hhand
      ?_ ?_ ?_).pre fun s _ h => ?_
    · simpa using hmem
    · intro l hl
      exact ⟨by rw [hlocks]; exact List.mem_cons_of_mem _ hl, by simpa using hls l hl c, hls l hl⟩
    · rintro c' ch hc' hk
      obtain rfl : c' = c := by simpa using hc'
      simpa using hk
    · exact h.mono rfl (fun _ hp => hp.publishes (by simp)) (fun _ h => h) fun _ _ _ h => h
  · refine Triple.pre (P := fun s => ∃ p, Here ⟨x.k, Awoken r late [⟨x.k, c, false, dir, 0⟩] (fun _ => i) p,
      .chan c :: ls, fun _ => Chan.Quiet⟩ .free s) ?_ ?_
    · refine Triple.of_forall fun p => Triple.bind (readQuantum_spec (q := ⟨x.k, c, false, dir, 0⟩) x.k
        (.chan c :: ls) (fun _ => Chan.Quiet) (fun _ => i) p rfl List.mem_cons_self) fun slot => ?_
      exact Triple.of_pure fun hitem => hf slot hitem
    · rintro s - ⟨⟨p, h⟩, -⟩
      refine ⟨p, h.mono rfl (fun _ h => h) (fun _ h => h) fun c' ch hc' hk => ?_⟩
      have hcc : c' = c := by
        rcases List.mem_cons.mp hc' with he | hm
        · exact Lock.chan.inj he
        · exact absurd rfl (hls _ hm c')
      subst hcc
      rwa [Ctx.lock_know_chan] at hk

/-! ### Sending and receiving -/

theorem Plain.waits_not {m : List Xfer} : ∀ co, Plain r late m co → co.wait = none :=
  fun _ h => h.wait

/-- **`__coroc_chan_send`**, by its results.  `L` is what is known about the channel
    besides. -/
theorem chanSendLocked_spec (x : Ctx) (i : Item) (block : Bool) (L : Chan → Prop)
    {Q : Ret → State → Prop} (hc : .chan c ∈ x.locks)
    (hpop : ∀ ch rest hand, L ch → L (ch.pop .recv rest hand))
    (hsuccess : ∀ s, Inv s →
      Here ((x.setSelf (Plain r late [⟨.send, c, i⟩])).learn c Chan.Quiet) .free s → Q .success s)
    (hclosed : ∀ s, Inv s → Here ((x.setSelf (Plain r late [])).learn c fun ch =>
      ch.close = true ∧ ch.Stuck .send false) .free s → Q .closed s)
    (hbusy : block = false → ∀ s, Inv s → Here ((x.setSelf (Plain r late [])).learn c fun ch =>
      ch.Stuck .send true ∧ L ch) .free s → Q .busy s)
    (hwoken : block = true → ∃ ls, x.locks = .chan c :: ls ∧ (∀ l ∈ ls, ∀ c, l ≠ .chan c) ∧
      ∀ slot : Slot, slot.item = i → ∀ s, Inv s → Here ⟨x.k, Plain r late (slot.xfers .send c),
        .chan c :: ls, fun _ => Chan.Quiet⟩ .free s →
        Q (if slot.close then .closed else .awaken) s) :
    Triple rules (.co x.k) (Here ((x.setSelf (Plain r late [])).learn c fun ch => ch.Quiet ∧ L ch) .free)
      (chanSendLocked x.k c i block) Q := by
  have hfetch := fetchQuantum_spec (x.setSelf (Plain r late [])) c .recv false
    (fun ch => ch.draining = false ∧ L ch) Plain.waits_not hc
    (fun ch rest hand h => ⟨h.1, hpop ch rest hand h.2⟩) nofun
  refine Triple.bind (hfetch.pre fun s _ h => h.weaken fun ch h => ⟨h.1.hand, h.1.drain, h.2⟩)
    fun res => ?_
  cases res with
  | some q =>
    refine Triple.of_pure fun hqc => Triple.of_pure fun hqd => ?_
    refine Triple.bind (copyTo_spec x i hqc hqd hc fun ch h => ⟨⟨h.1, h.2.2.1⟩, h.2.1 rfl⟩) fun _ => ?_
    refine Triple.bind (vpuReady_spec ((x.setSelf _).learn c Chan.Quiet) q.co false Plain.waits_not)
      fun _ => ?_
    exact Triple.ret (Here.stable_of rfl) hsuccess
  | none =>
    refine Triple.bind (readClose_spec (x.setSelf (Plain r late [])) .free hc) fun b => ?_
    cases b with
    | true =>
      refine Triple.ret (Here.stable_of rfl) fun s hi h => hclosed s hi (h.weaken ?_)
      rintro ch ⟨hclose, hhand, hque, hdrain, -⟩
      exact ⟨hclose, ⟨hhand, hdrain⟩, nofun, fun _ => ⟨hque, .inl hclose⟩, nofun⟩
    | false =>
      refine Triple.bind (copyToBuff_spec x i hc fun ch h => ⟨⟨h.2.1, h.2.2.2.1⟩, h.2.2.1, h.1⟩)
        fun done => ?_
      cases done with
      | true => exact Triple.ret (Here.stable_of rfl) hsuccess
      | false =>
        have hstuck : ∀ ch : Chan, (ch.buffer.full = true ∧ ch.close = false ∧ ch.inhand = none ∧
            ch.que .recv = [] ∧ ch.draining = false ∧ L ch) → ch.Stuck .send true ∧ L ch := by
          rintro ch ⟨hfull, hopen, hhand, hque, hdrain, hL⟩
          exact ⟨⟨⟨hhand, hdrain⟩, fun _ => hopen, fun _ => ⟨hque, .inr hfull⟩, nofun⟩, hL⟩
        cases block with
        | false =>
          exact Triple.ret (Here.stable_of rfl) fun s hi h => hbusy rfl s hi (h.weaken hstuck)
        | true =>
          obtain ⟨ls, hlocks, hls, hQ⟩ := hwoken rfl
          refine park_spec x ls .send i hlocks hls (fun ch h => (hstuck ch h).1) fun slot hitem => ?_
          exact Triple.ret (Here.stable_of rfl) fun s hi h => hQ slot (hitem rfl) s hi h

/-- **`__coroc_chan_recv`**, by its results. -/
theorem chanRecvLocked_spec (x : Ctx) (i : Item) (block : Bool)
    {Q : Ret × Option Item → State → Prop} (hc : .chan c ∈ x.locks)
    (hsuccess : ∀ y s, Inv s → Here ((x.setSelf (Plain r late [⟨.recv, c, y⟩])).learn c Chan.Quiet)
      .free s → Q (.success, some y) s)
    (hclosed : ∀ s, Inv s → Here ((x.setSelf (Plain r late [])).learn c fun ch =>
      ch.close = true ∧ ch.Stuck .recv false) .free s → Q (.closed, none) s)
    (hbusy : block = false → ∀ s, Inv s → Here ((x.setSelf (Plain r late [])).learn c fun ch =>
      ch.Stuck .recv true) .free s → Q (.busy, none) s)
    (hwoken : block = true → ∃ ls, x.locks = .chan c :: ls ∧ (∀ l ∈ ls, ∀ c, l ≠ .chan c) ∧
      ∀ (slot : Slot) s, Inv s → Here ⟨x.k, Plain r late (slot.xfers .recv c),
        .chan c :: ls, fun _ => Chan.Quiet⟩ .free s →
        Q (if slot.close then (.closed, none) else (.awaken, some slot.item)) s) :
    Triple rules (.co x.k) (Here ((x.setSelf (Plain r late [])).learn c Chan.Quiet) .free)
      (chanRecvLocked x.k c i block) Q := by
  refine Triple.bind (copyFromBuff_spec x hc fun _ h => h) fun got => ?_
  cases got with
  | some y => exact Triple.ret (Here.stable_of rfl) (hsuccess y)
  | none =>
    have hfetch := fetchQuantum_spec (x.setSelf (Plain r late [])) c .send false
      (fun ch => ch.draining = false ∧ ch.buffer.contents = []) Plain.waits_not hc
      (fun _ _ _ h => h) nofun
    refine Triple.bind (hfetch.pre fun s _ h => h.weaken fun ch h => ⟨h.2.hand, h.2.drain, h.1⟩)
      fun res => ?_
    cases res with
    | some q =>
      refine Triple.of_pure fun hqc => Triple.of_pure fun hqd => ?_
      refine Triple.bind (copyFrom_spec x hqc hqd hc fun ch h => ⟨⟨h.1, h.2.2.1⟩, h.2.2.2⟩) fun y => ?_
      refine Triple.bind (vpuReady_spec ((x.setSelf _).learn c Chan.Quiet) q.co false
        Plain.waits_not) fun _ => ?_
      exact Triple.ret (Here.stable_of rfl) (hsuccess y)
    | none =>
      refine Triple.bind (readClose_spec (x.setSelf (Plain r late [])) .free hc) fun b => ?_
      cases b with
      | true =>
        refine Triple.ret (Here.stable_of rfl) fun s hi h => hclosed s hi (h.weaken ?_)
        rintro ch ⟨hclose, hhand, hque, hdrain, hempty⟩
        exact ⟨hclose, ⟨hhand, hdrain⟩, nofun, nofun, fun _ => ⟨hque, hempty⟩⟩
      | false =>
        have hstuck : ∀ ch : Chan, (ch.close = false ∧ ch.inhand = none ∧ ch.que .send = [] ∧
            ch.draining = false ∧ ch.buffer.contents = []) → ch.Stuck .recv true := by
          rintro ch ⟨hopen, hhand, hque, hdrain, hempty⟩
          exact ⟨⟨hhand, hdrain⟩, fun _ => hopen, nofun, fun _ => ⟨hque, hempty⟩⟩
        cases block with
        | false =>
          exact Triple.ret (Here.stable_of rfl) fun s hi h => hbusy rfl s hi (h.weaken hstuck)
        | true =>
          obtain ⟨ls, hlocks, hls, hQ⟩ := hwoken rfl
          refine park_spec x ls .recv i hlocks hls hstuck fun slot _ => ?_
          exact Triple.ret (Here.stable_of rfl) fun s hi h => hQ slot s hi h

end Coroc.Runtime
