import Coroc.Runtime.ChanSpecs

/-!
# Send, receive and close

The public operations on one channel, from the call to its record.  A coroutine that
calls them may hold locks, but none of a channel; it has them back when the call returns.
-/

namespace Coroc.Runtime

open Coroc.Program

variable {s s' : State} {x : Ctx} {cl : Claim} {k : Coid} {c : ChanId} {q : Quantum}
variable {r : Role} {late : Bool} {ls : List Lock} {K : Chan → Prop}

/-! ### Between calls -/

/-- A coroutine outside the channel operations, with the locks `ls`. -/
def Free (k : Coid) (r : Role) (ls : List Lock) (s : State) : Prop :=
  ∃ late, Here ⟨k, Plain r late [], ls, fun _ _ => True⟩ .free s

theorem Free.stable : Stable rules (.co k) (Free k r ls) := by
  rintro s s' hi hi' hr ⟨late, h⟩
  exact ⟨late, Here.stable_of rfl s s' hi hi' hr h⟩

/-- The lock of one channel, and what was known of the channel before. -/
theorem acquireChan_spec (x : Ctx) (cl : Claim) (late : Bool) (c : ChanId) :
    Triple rules (.co x.k) (fun s => Here x cl s ∧ (late = true → (s.chans c).close = true))
      (lockAcquire (.chan c))
      fun _ => Here ((x.lock (.chan c)).learn c fun ch => ch.Quiet ∧ (late = true → ch.close = true))
        cl := by
  have hclosed : Stable rules (.co x.k) fun s => late = true → (s.chans c).close = true :=
    fun s s' hi hi' hr h hl => closed_stable rfl s s' hi hi' hr (h hl)
  refine issue_spec (Here.stable.and hclosed) (fun _ => Here.stable_of rfl) fun s hi h =>
    ⟨trivial, fun u s' he _ => ?_⟩
  obtain ⟨-, hfree, rfl⟩ := acquire_inv he
  obtain ⟨⟨hat, hcl⟩, hlate⟩ := h
  obtain ⟨hat', -⟩ := At.of_acquire hi hat.born hat.awake hat.self hat.locks hat.chans
    hat.settled hfree
  have hhere : Here ((x.lock (.chan c)).learn c Chan.Quiet) cl (s.setLock (.chan c) (some (.co x.k))) := by
    refine Here.learn_self ⟨hat', hcl.of_cos (fun _ => rfl) fun _ => rfl⟩ fun ch hq => ?_
    rwa [Ctx.lock_know_chan] at hq
  exact hhere.learn_more ⟨(hhere.knows (by simp)).1, hlate⟩

theorem acquireQuiet_spec (x : Ctx) (cl : Claim) (c : ChanId) :
    Triple rules (.co x.k) (Here x cl) (lockAcquire (.chan c))
      fun _ => Here ((x.lock (.chan c)).learn c Chan.Quiet) cl :=
  (acquireChan_spec x cl false c).conseq (fun _ _ h => ⟨h, nofun⟩) fun _ _ _ h =>
    h.weaken fun _ h => h.1

theorem begin_spec (k : Coid) (ls : List Lock) (know : ChanId → Chan → Prop) (m : List Xfer)
    (c : ChanId) :
    Triple rules (.co k) (Here ⟨k, Plain r late m, ls, know⟩ cl) (beginSend c)
      fun _ s => ∃ late, Here ⟨k, Plain r late m, ls, know⟩ cl s ∧
        (late = true → (s.chans c).close = true) := by
  refine issue_spec (Here.stable_of rfl) (fun _ => ?_) fun s hi h => ?_
  · rintro s s' hi hi' hr ⟨late, h, hl⟩
    exact ⟨late, Here.stable_of rfl s s' hi hi' hr h, fun ht => closed_stable rfl s s' hi hi' hr (hl ht)⟩
  · have hself : Plain r late m (s.cos k) := h.1.self
    refine ⟨⟨k, rfl, hself.wait⟩, fun u s' he _ => ⟨(s.chans c).close, ?_, fun h => ?_⟩⟩
    · obtain ⟨-, he⟩ := exec_inv he
      cases he
      exact h.own (f := Co.begin _) rfl rfl rfl
        ⟨hself.wait, hself.role, rfl, hself.moved⟩
    · obtain ⟨-, he⟩ := exec_inv he
      cases he
      exact h

/-- The channel of a send is no longer locked when the send is recorded. -/
def Recordable (k : Coid) (e : Entry) (s : State) : Prop :=
  ∀ c x block ret, e = .send c x block ret → s.locks (.chan c) ≠ some (.co k)

theorem Recordable.stable {e : Entry} : Stable rules (.co k) (Recordable k e) :=
  fun s s' hi hi' hr h c x block ret he => unlocked_stable rfl s s' hi hi' hr (h c x block ret he)

theorem record_spec (k : Coid) (ls : List Lock) (know : ChanId → Chan → Prop) (m : List Xfer)
    (e : Entry) (hok : Record.Ok ⟨e, late, m⟩) :
    Triple rules (.co k) (fun s => Here ⟨k, Plain r late m, ls, know⟩ cl s ∧ Recordable k e s)
      (record e) fun _ => Here ⟨k, Plain r late [], ls, know⟩ cl := by
  have hstable : Stable rules (.co k) (Here ⟨k, Plain r late m, ls, know⟩ cl) := Here.stable_of rfl
  refine issue_spec (hstable.and Recordable.stable) (fun _ => Here.stable_of rfl) fun s hi h => ?_
  obtain ⟨h, hrec⟩ := h
  have hself : Plain r late m (s.cos k) := h.1.self
  refine ⟨⟨k, rfl, hself.wait, by rw [hself.late, hself.moved]; exact hok, hrec⟩, fun u s' he _ => ?_⟩
  obtain ⟨-, he⟩ := exec_inv he
  cases he
  exact h.own (f := Co.record e) rfl rfl rfl
    ⟨hself.wait, hself.role, hself.late, rfl⟩

/-- A coroutine whose only locked channel is `c`. -/
theorem Here.only {y : Ctx} (h : Here (y.learn c K) cl s) (hlocks : y.locks = .chan c :: ls)
    (hls : ∀ l ∈ ls, ∀ c, l ≠ .chan c) (hK : ∀ ch, K ch → ch.Quiet) :
    Here ⟨y.k, y.self, .chan c :: ls, fun _ => Chan.Quiet⟩ cl s := by
  refine h.mono rfl (fun _ h => h) (fun l hl => by rw [Ctx.learn_locks, hlocks]; exact hl)
    fun c' ch hc' hk => ?_
  obtain rfl : c' = c := by
    rcases List.mem_cons.mp hc' with he | hm
    · exact Lock.chan.inj he
    · exact absurd rfl (hls _ hm c')
  rw [Ctx.learn_know] at hk
  exact hK ch hk

/-- The end of a call on one channel: release the lock and record the call. -/
theorem finish_spec (k : Coid) (hls : ∀ l ∈ ls, ∀ c, l ≠ .chan c) (e : Entry)
    (he : ∀ c' x block ret, e = .send c' x block ret → c' = c) :
    Triple rules (.co k) (fun s => ∃ m, Record.Ok ⟨e, late, m⟩ ∧
        Here ⟨k, Plain r late m, .chan c :: ls, fun _ => Chan.Quiet⟩ .free s)
      (do
        lockRelease (.chan c)
        record e) fun _ => Free k r ls := by
  refine Triple.of_forall fun m => Triple.of_pure fun hok => ?_
  have hrelease := release_spec ⟨k, Plain r late m, .chan c :: ls, fun _ => Chan.Quiet⟩ .free
    (.chan c) ls Plain.waits_not List.mem_cons_self
    (fun l hl => ⟨List.mem_cons_of_mem _ hl, hls l hl c⟩) fun _ _ => ⟨fun _ h => h, rfl⟩
  refine Triple.bind hrelease fun _ => ?_
  refine (record_spec k ls (fun _ => Chan.Quiet) m e hok).conseq (fun s _ h => ⟨h.1, ?_⟩)
    fun _ s _ h => ⟨late, ?_⟩
  · intro c' x block ret hs
    rw [he c' x block ret hs]
    exact h.2
  · exact h.mono rfl (fun _ h => h) (fun _ h => h) fun _ _ _ _ => trivial

/-- **`_coroc_chan_send`**. -/
theorem chanSend_spec (k : Coid) (c : ChanId) (i : Item) (block : Bool)
    (hls : ∀ l ∈ ls, ∀ c, l ≠ .chan c) :
    Triple rules (.co k) (Free k r ls) (chanSend k c i block) fun _ => Free k r ls := by
  refine Triple.of_forall fun late₀ => ?_
  refine Triple.bind (begin_spec k ls (fun _ _ => True) [] c) fun _ => Triple.of_forall fun late => ?_
  refine Triple.bind (acquireChan_spec ⟨k, Plain r late [], ls, fun _ _ => True⟩ .free late c) fun _ => ?_
  refine Triple.bind (M := fun ret s => ∃ m, Record.Ok ⟨.send c i block ret, late, m⟩ ∧
    Here ⟨k, Plain r late m, .chan c :: ls, fun _ => Chan.Quiet⟩ .free s) ?_
    fun ret => finish_spec k hls _ fun _ _ _ _ h => by cases h; rfl
  refine chanSendLocked_spec (Ctx.lock ⟨k, Plain r late [], ls, fun _ _ => True⟩ (.chan c)) i block
    (fun ch => late = true → ch.close = true) List.mem_cons_self (fun _ _ _ h => h) ?_ ?_ ?_ ?_
  · intro s _ h
    exact ⟨_, .inl ⟨.inl rfl, rfl⟩, h.only rfl hls fun _ h => h⟩
  · intro s _ h
    exact ⟨[], .inr ⟨.inr rfl, rfl, fun _ => rfl⟩, h.only rfl hls fun _ h => h.2.quiet⟩
  · intro _ s _ h
    refine ⟨[], .inr ⟨.inl rfl, rfl, fun hlate => ?_⟩, h.only rfl hls fun _ h => h.1.quiet⟩
    -- the channel was open when the buffer was found full
    obtain ⟨⟨hstuck, hclose⟩, -⟩ := h.knows List.mem_cons_self
    exact nomatch (hstuck.isOpen rfl).symm.trans (hclose hlate)
  · refine fun _ => ⟨ls, rfl, hls, fun slot hitem s _ h => ⟨_, ?_, h⟩⟩
    cases hclose : slot.close with
    | true => exact .inr ⟨.inr rfl, by simp [Slot.xfers, hclose], fun _ => rfl⟩
    | false => exact .inl ⟨.inr rfl, by simp [Slot.xfers, hclose, hitem]⟩

/-- **`_coroc_chan_recv`**. -/
theorem chanRecv_spec (k : Coid) (c : ChanId) (i : Item) (block : Bool)
    (hls : ∀ l ∈ ls, ∀ c, l ≠ .chan c) :
    Triple rules (.co k) (Free k r ls) (chanRecv k c i block) fun _ => Free k r ls := by
  refine Triple.of_forall fun late => ?_
  refine Triple.bind (acquireQuiet_spec ⟨k, Plain r late [], ls, fun _ _ => True⟩ .free c) fun _ => ?_
  refine Triple.bind (M := fun res s => ∃ m, Record.Ok ⟨.recv c block res.1 res.2, late, m⟩ ∧
    Here ⟨k, Plain r late m, .chan c :: ls, fun _ => Chan.Quiet⟩ .free s) ?_
    fun res => finish_spec k hls _ nofun
  refine chanRecvLocked_spec (Ctx.lock ⟨k, Plain r late [], ls, fun _ _ => True⟩ (.chan c)) i block
    List.mem_cons_self ?_ ?_ ?_ ?_
  · intro y s _ h
    exact ⟨_, ⟨rfl, .inl ⟨.inl rfl, rfl⟩⟩, h.only rfl hls fun _ h => h⟩
  · intro s _ h
    exact ⟨[], ⟨rfl, .inr ⟨.inr rfl, rfl⟩⟩, h.only rfl hls fun _ h => h.2.quiet⟩
  · intro _ s _ h
    exact ⟨[], ⟨rfl, .inr ⟨.inl rfl, rfl⟩⟩, h.only rfl hls fun _ h => h.quiet⟩
  · refine fun _ => ⟨ls, rfl, hls, fun slot s _ h => ⟨_, ?_, h⟩⟩
    cases hclose : slot.close with
    | true => exact ⟨by simp [Slot.xfers, hclose, recvXfers], .inr ⟨.inr rfl, rfl⟩⟩
    | false => exact ⟨by simp [Slot.xfers, hclose, recvXfers], .inl ⟨.inr rfl, rfl⟩⟩

/-! ### Closing -/

theorem setClose_spec (x : Ctx) (hself : ∀ co, x.self co → co.wait = none) (hc : .chan c ∈ x.locks) :
    Triple rules (.co x.k) (Here (x.learn c fun ch => ch.close = false ∧ ch.Quiet) .free) (setClose c)
      fun _ => Here (x.learn c fun ch => ch.inhand = none ∧ ch.close = true ∧ ch.draining = true)
        .free := by
  refine issue_spec (Here.stable_of rfl) (fun _ => Here.stable_of rfl) fun s hi h => ?_
  obtain ⟨⟨hopen, hquiet⟩, hlock⟩ := h.knows hc
  refine ⟨⟨x.k, rfl, ⟨hlock, hself _ h.1.self, hquiet.hand⟩, hopen, h.2⟩, fun u s' he _ => ?_⟩
  obtain ⟨-, he⟩ := exec_inv he
  cases he
  refine h.chanStep (S := x.self) rfl rfl rfl rfl (fun _ => rfl) (fun c' hc' => s.setChan_chans_ne _ hc')
    h.1.self ?_ (h.2.of_cos (fun _ => rfl) fun _ => rfl)
  rw [State.setChan_chans_self]
  exact ⟨hquiet.hand, rfl, rfl⟩

theorem markClosed_spec (x : Ctx) (hqc : q.chan = c) (hself : ∀ co, x.self co → co.wait = none)
    (hc : .chan c ∈ x.locks) (hK : ∀ ch, K ch → ch.close = true ∧ ch.draining = true) :
    Triple rules (.co x.k) (Here (x.learn c K) (.hold q true)) (markClosed q)
      fun _ => Here (x.learn c K) (.serve q.co) := by
  refine issue_spec (Here.stable_of rfl) (fun _ => Here.stable_of rfl) fun s hi h => ?_
  subst hqc
  obtain ⟨hKs, -⟩ := h.knows hc
  obtain ⟨hclose, hdrain⟩ := hK _ hKs
  have hwait := hself _ h.1.self
  have hne : x.k ≠ q.co := Ne.symm (h.hold_ne hwait)
  refine ⟨⟨x.k, rfl, ⟨hwait, h.2.1⟩, h.2.2.1 rfl, hclose, hdrain⟩, fun u s' he _ => ?_⟩
  obtain ⟨-, he⟩ := exec_inv he
  cases he
  refine h.chanStep (S := x.self) rfl rfl rfl rfl (fun j => ?_) (fun _ _ => rfl) ?_ hKs
    (h.2.serve ?_ fun j hj => ?_)
  · by_cases hj : j = q.co
    · rw [hj, State.setCo_cos_self]
      rfl
    · rw [State.setCo_cos_ne _ _ hj]
  · rw [State.setCo_cos_ne _ _ hne]
    exact h.1.self
  · rw [State.setCo_cos_self]
    rfl
  · rw [State.setCo_cos_ne _ _ hj]

/-- A loop of **`coroc_chan_close`** leaves an empty queue.  `K` is what it knows about
    the other one. -/
theorem wakeAll_spec (x : Ctx) (dir : Dir) (hself : ∀ co, x.self co → co.wait = none)
    (hc : .chan c ∈ x.locks) (hK : ∀ ch, K ch → ch.close = true ∧ ch.draining = true)
    (hpop : ∀ ch rest hand, K ch → K (ch.pop dir rest hand)) :
    Triple rules (.co x.k) (Here (x.learn c fun ch => ch.inhand = none ∧ K ch) .free) (wakeAll c dir)
      fun _ => Here (x.learn c fun ch => ch.inhand = none ∧ ch.que dir = [] ∧ K ch) .free := by
  refine Triple.loop (Here.stable_of rfl)
    (fun _ => Here (x.learn c fun ch => ch.inhand = none ∧ ch.que dir = [] ∧ K ch) .free) ?_
    fun _ => Triple.ret (Here.stable_of rfl) fun _ _ h => h
  refine Triple.bind (fetchQuantum_spec x c dir true K hself hc hpop fun _ ch h => .inr (hK ch h).2)
    fun res => ?_
  cases res with
  | none => exact Triple.ret (Here.stable_of rfl) fun _ _ h => h
  | some q =>
    refine Triple.of_pure fun hqc => Triple.of_pure fun _ => ?_
    refine Triple.bind (markClosed_spec x hqc hself hc fun ch h => hK ch h.2.2) fun _ => ?_
    refine Triple.bind (vpuReady_spec (x.learn c _) q.co false hself) fun _ => ?_
    exact Triple.ret (Here.stable_of rfl) fun s _ h => h.weaken fun ch h => ⟨h.1, h.2.2⟩

/-- A closed channel whose queues are empty. -/
structure Chan.Closed (ch : Chan) : Prop where
  quiet : ch.Quiet
  close : ch.close = true
  que : ∀ dir, ch.que dir = []

theorem readIsref_spec (x : Ctx) (hself : ∀ co, x.self co → co.wait = none) (hc : .chan c ∈ x.locks)
    (hK : ∀ ch, K ch → ch.inhand = none ∧ ch.close = true ∧ ∀ dir, ch.que dir = []) :
    Triple rules (.co x.k) (Here (x.learn c K) .free) (readIsref c)
      fun b => Here (x.learn c fun ch => ch.isref = b ∧ ch.Closed) .free := by
  refine issue_spec (Here.stable_of rfl) (fun _ => Here.stable_of rfl) fun s hi h => ?_
  obtain ⟨hKs, hlock⟩ := h.knows hc
  obtain ⟨hhand, hclose, hque⟩ := hK _ hKs
  refine ⟨⟨x.k, rfl, ⟨hlock, hself _ h.1.self, hhand⟩, hque, h.2⟩, fun b s' he _ => ?_⟩
  obtain ⟨-, he⟩ := exec_inv he
  cases he
  refine h.chanStep (S := x.self) rfl rfl rfl rfl (fun _ => rfl) (fun c' hc' => s.setChan_chans_ne _ hc')
    h.1.self ?_ (h.2.of_cos (fun _ => rfl) fun _ => rfl)
  rw [State.setChan_chans_self]
  exact ⟨rfl, ⟨hhand, rfl⟩, hclose, hque⟩

theorem cleanBuff_spec (x : Ctx) (hself : ∀ co, x.self co → co.wait = none) (hc : .chan c ∈ x.locks) :
    Triple rules (.co x.k) (Here (x.learn c fun ch => ch.isref = true ∧ ch.Closed) .free) (cleanBuff c)
      fun _ => Here (x.learn c Chan.Closed) .free := by
  refine issue_spec (Here.stable_of rfl) (fun _ => Here.stable_of rfl) fun s hi h => ?_
  obtain ⟨⟨hisref, hclosed⟩, hlock⟩ := h.knows hc
  refine ⟨⟨x.k, rfl, ⟨hlock, hself _ h.1.self, hclosed.quiet.hand⟩, hclosed.que, hisref⟩,
    fun b s' he _ => ?_⟩
  obtain ⟨-, he⟩ := exec_inv he
  cases he
  refine h.chanStep (S := x.self) rfl rfl rfl rfl (fun _ => rfl) (fun c' hc' => s.setChan_chans_ne _ hc')
    h.1.self ?_ (h.2.of_cos (fun _ => rfl) fun _ => rfl)
  rw [State.setChan_chans_self]
  exact ⟨⟨hclosed.quiet.hand, hclosed.quiet.drain⟩, hclosed.close, hclosed.que⟩

/-- **`coroc_chan_close`**, with the lock held. -/
theorem chanCloseLocked_spec (x : Ctx) (hself : ∀ co, x.self co → co.wait = none)
    (hc : .chan c ∈ x.locks) :
    Triple rules (.co x.k) (Here (x.learn c Chan.Quiet) .free) (chanCloseLocked c)
      fun ret s => (ret = .success ∨ ret = .closed) ∧ Here (x.learn c Chan.Quiet) .free s := by
  refine Triple.bind (readClose_spec x .free hc) fun b => ?_
  cases b with
  | true =>
    exact Triple.ret (Here.stable_of rfl) fun s _ h => ⟨.inr rfl, h.weaken fun _ h => h.2⟩
  | false =>
    refine Triple.bind (setClose_spec x hself hc) fun _ => ?_
    refine Triple.bind (wakeAll_spec x .send hself hc (fun _ h => h) fun _ _ _ h => h) fun _ => ?_
    refine Triple.bind (Triple.pre (wakeAll_spec
      (K := fun ch => ch.que .send = [] ∧ ch.close = true ∧ ch.draining = true) x .recv hself hc
      (fun _ h => h.2) fun _ _ _ h => ⟨by simpa [Chan.pop] using h.1, h.2⟩) fun s _ h => h) fun _ => ?_
    refine Triple.bind (readIsref_spec x hself hc fun ch h => ⟨h.1, h.2.2.2.1, fun dir => ?_⟩) fun b => ?_
    · cases dir with
      | send => exact h.2.2.1
      | recv => exact h.2.1
    cases b with
    | true =>
      refine Triple.bind (cleanBuff_spec x hself hc) fun _ => ?_
      exact Triple.ret (Here.stable_of rfl) fun s _ h => ⟨.inl rfl, h.weaken fun _ h => h.quiet⟩
    | false =>
      exact Triple.ret (Here.stable_of rfl) fun s _ h => ⟨.inl rfl, h.weaken fun _ h => h.2.quiet⟩

/-- **`coroc_chan_close`**. -/
theorem chanClose_spec (k : Coid) (c : ChanId) (hls : ∀ l ∈ ls, ∀ c, l ≠ .chan c) :
    Triple rules (.co k) (Free k r ls) (chanClose c) fun _ => Free k r ls := by
  refine Triple.of_forall fun late => ?_
  refine Triple.bind (acquireQuiet_spec ⟨k, Plain r late [], ls, fun _ _ => True⟩ .free c) fun _ => ?_
  refine Triple.bind (M := fun ret s => ∃ m, Record.Ok ⟨.close c ret, late, m⟩ ∧
    Here ⟨k, Plain r late m, .chan c :: ls, fun _ => Chan.Quiet⟩ .free s) ?_
    fun ret => finish_spec k hls _ nofun
  refine (chanCloseLocked_spec (Ctx.lock ⟨k, Plain r late [], ls, fun _ _ => True⟩ (.chan c))
    Plain.waits_not List.mem_cons_self).post fun ret s _ h => ?_
  exact ⟨[], ⟨h.1, rfl⟩, h.2.only rfl hls fun _ h => h⟩

end Coroc.Runtime
