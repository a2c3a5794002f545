import Coroc.Runtime.CallSpecs

/-!
# Select

`_coroc_chan_set_select` over pairwise distinct channels: take all locks, try each case,
and if none succeeds, queue one quantum on every channel, sleep, take all locks again and
remove the quanta that are left.
-/

namespace Coroc.Runtime

open Coroc.Program

variable {s s' : State} {x : Ctx} {cl : Claim} {k : Coid} {c : ChanId} {q : Quantum}
variable {r : Role} {late : Bool} {ls : List Lock} {S : Co → Prop}

/-! ### The lock chain -/

/-- All channels whose locks the coroutine has are quiet. -/
def Ctx.quiet (k : Coid) (S : Co → Prop) (ls : List Lock) : Ctx := ⟨k, S, ls, fun _ => Chan.Quiet⟩

theorem Here.lock_quiet {l : Lock} (h : Here ((Ctx.quiet k S ls).lock l) cl s) :
    Here (Ctx.quiet k S (l :: ls)) cl s := by
  refine h.mono (Ctx.lock_k (Ctx.quiet k S ls) l).symm (fun co hs => by rwa [Ctx.lock_self] at hs)
    (fun m hm => by rw [Ctx.lock_locks]; exact hm) fun c ch _ hk => ?_
  by_cases hl : l = .chan c
  · subst hl
    rwa [Ctx.lock_know_chan] at hk
  · rwa [Ctx.lock_know _ hl] at hk

theorem lockChainAcquire_spec (k : Coid) (chain : List ChanId) (ls : List Lock) :
    Triple rules (.co k) (Here (Ctx.quiet k S ls) .free) (lockChainAcquire chain)
      fun _ => Here (Ctx.quiet k S ((chain.map Lock.chan).reverse ++ ls)) .free := by
  induction chain generalizing ls with
  | nil => exact Triple.ret (Here.stable_of rfl) fun _ _ h => h
  | cons c cs ih =>
    refine Triple.bind (acquire_spec (Ctx.quiet k S ls) .free (.chan c)) fun _ => ?_
    refine (ih (.chan c :: ls)).conseq (fun s _ h => h.1.lock_quiet) fun _ s _ h => ?_
    rwa [List.map_cons, List.reverse_cons, List.append_assoc]

theorem lockChainRelease_spec (k : Coid) (chain : List ChanId) (hnodup : chain.Nodup)
    (hself : ∀ co, S co → co.wait = none) :
    Triple rules (.co k) (Here (Ctx.quiet k S (chain.map Lock.chan)) .free) (lockChainRelease chain)
      fun _ => Here (Ctx.quiet k S []) .free := by
  induction chain with
  | nil => exact Triple.ret (Here.stable_of rfl) fun _ _ h => h
  | cons c cs ih =>
    obtain ⟨hnew, hnodup⟩ := List.nodup_cons.mp hnodup
    refine Triple.bind (release_spec (Ctx.quiet k S ((c :: cs).map Lock.chan)) .free (.chan c)
      (cs.map Lock.chan) hself List.mem_cons_self (fun m hm => ?_) fun _ _ => ⟨fun _ h => h, rfl⟩)
      fun _ => (ih hnodup).pre fun s _ h => h.1
    refine ⟨List.mem_cons_of_mem _ hm, ?_⟩
    rintro rfl
    obtain ⟨c', hc', he⟩ := List.mem_map.mp hm
    cases he
    exact hnew hc'

/-! ### Trying the cases -/

/-- What is known of the channels once the cases `done` have been tried without success. -/
def Polled (done : List Case) (c : ChanId) (ch : Chan) : Prop :=
  ch.Quiet ∧ ∀ e ∈ done, e.chan = c → ch.Stuck e.dir false

theorem Chan.Stuck.select {dir : Dir} {b : Bool} {ch : Chan} (h : ch.Stuck dir b) :
    ch.Stuck dir false :=
  ⟨h.quiet, nofun, h.send, h.recv⟩

/-- A case has been tried without success. -/
theorem Here.polled {K : Chan → Prop} {done : List Case} {e : Case}
    (h : Here (Ctx.learn ⟨k, S, ls, Polled done⟩ e.chan K) cl s)
    (hnew : e.chan ∉ done.map Case.chan) (hK : ∀ ch, K ch → ch.Stuck e.dir false) :
    Here ⟨k, S, ls, Polled (done ++ [e])⟩ cl s := by
  refine h.mono rfl (fun _ h => h) (fun _ h => h) fun c ch _ hk => ?_
  by_cases hc : c = e.chan
  · subst hc
    rw [Ctx.learn_know] at hk
    have hstuck := hK ch hk
    refine ⟨hstuck.quiet, fun e' he' hc => ?_⟩
    rcases List.mem_append.mp he' with hm | hm
    · exact absurd (hc ▸ List.mem_map_of_mem hm) hnew
    · obtain rfl : e' = e := by simpa using hm
      exact hstuck
  · rw [Ctx.learn_know_ne _ _ hc] at hk
    refine ⟨hk.1, fun e' he' hc' => ?_⟩
    rcases List.mem_append.mp he' with hm | hm
    · exact hk.2 e' hm hc'
    · obtain rfl : e' = e := by simpa using hm
      exact absurd hc'.symm hc

/-- A case has succeeded. -/
theorem Here.chosen {done : List Case} {e : Case}
    (h : Here (Ctx.learn ⟨k, S, ls, Polled done⟩ e.chan Chan.Quiet) cl s) :
    Here (Ctx.quiet k S ls) cl s := by
  refine h.mono rfl (fun _ h => h) (fun _ h => h) fun c ch _ hk => ?_
  by_cases hc : c = e.chan
  · subst hc
    rwa [Ctx.learn_know] at hk
  · rw [Ctx.learn_know_ne _ _ hc] at hk
    exact hk.1

/-- The record of a coroutine that has just moved an item by the case `e`, and has `got` in
    the buffer of the case. -/
def Taken (r : Role) (late : Bool) (e : Case) (got : Option Item) (co : Co) : Prop :=
  ∃ y, (e.dir = .send → y = e.item) ∧ got = e.dir.got y ∧ Plain r late [⟨e.dir, e.chan, y⟩] co

/-- The result of trying one case. -/
def PollPost (k : Coid) (r : Role) (late : Bool) (ls : List Lock) (done : List Case) (e : Case)
    (res : Ret × Option Item) (s : State) : Prop :=
  (res.1 = .success ∧ Here (Ctx.quiet k (Taken r late e res.2) ls) .free s) ∨
  ((res.1 = .busy ∨ res.1 = .closed) ∧ Here ⟨k, Plain r late [], ls, Polled (done ++ [e])⟩ .free s)

theorem PollPost.stable {done : List Case} {e : Case} (res : Ret × Option Item) :
    Stable rules (.co k) (PollPost k r late ls done e res) := by
  intro s s' hi hi' hr h
  rcases h with ⟨hret, h⟩ | ⟨hret, h⟩
  · exact .inl ⟨hret, Here.stable_of rfl s s' hi hi' hr h⟩
  · exact .inr ⟨hret, Here.stable_of rfl s s' hi hi' hr h⟩

theorem pollCase_spec (k : Coid) (ls : List Lock) (done : List Case) (e : Case)
    (hc : .chan e.chan ∈ ls) (hnew : e.chan ∉ done.map Case.chan) :
    Triple rules (.co k) (Here ⟨k, Plain r late [], ls, Polled done⟩ .free) (pollCase k e)
      (PollPost k r late ls done e) := by
  unfold pollCase
  cases hd : e.dir with
  | send =>
    refine Triple.bind (M := fun ret => PollPost k r late ls done e (ret, none)) ?_ fun ret =>
      Triple.ret (PollPost.stable _) fun _ _ h => h
    refine (chanSendLocked_spec (Q := fun ret => PollPost k r late ls done e (ret, none))
      ⟨k, Plain r late [], ls, Polled done⟩ e.item false (fun _ => True) hc (fun _ _ _ h => h)
      ?_ ?_ ?_ nofun).pre fun s _ h => h.learn_self fun ch hk => ⟨hk.1, trivial⟩
    · intro s _ h
      refine .inl ⟨rfl, h.chosen.mono rfl (fun co hp => ⟨e.item, fun _ => rfl, ?_⟩) (fun _ h => h)
        fun _ _ _ h => h⟩
      rw [hd]
      exact ⟨rfl, hp⟩
    · intro s _ h
      exact .inr ⟨.inr rfl, h.polled hnew fun ch hk => by rw [hd]; exact hk.2.select⟩
    · intro _ s _ h
      exact .inr ⟨.inl rfl, h.polled hnew fun ch hk => by rw [hd]; exact hk.1.select⟩
  | recv =>
    refine (chanRecvLocked_spec (Q := PollPost k r late ls done e)
      ⟨k, Plain r late [], ls, Polled done⟩ e.item false hc ?_ ?_ ?_ nofun).pre
      fun s _ h => h.learn_self fun ch hk => hk.1
    · intro y s _ h
      refine .inl ⟨rfl, h.chosen.mono rfl (fun co hp => ⟨y, fun h => ?_, ?_⟩) (fun _ h => h)
        fun _ _ _ h => h⟩
      · exact nomatch hd.symm.trans h
      · rw [hd]
        exact ⟨rfl, hp⟩
    · intro s _ h
      exact .inr ⟨.inr rfl, h.polled hnew fun ch hk => by rw [hd]; exact hk.2.select⟩
    · intro _ s _ h
      exact .inr ⟨.inl rfl, h.polled hnew fun ch hk => by rw [hd]; exact hk.select⟩

/-- The result of the polling loop. -/
def PollsPost (k : Coid) (r : Role) (late : Bool) (ls : List Lock) (cases : List Case)
    (res : Ret × Option ChanId × Option Item) (s : State) : Prop :=
  (res.1 = .success ∧ ∃ e ∈ cases, res.2.1 = some e.chan ∧
    Here (Ctx.quiet k (Taken r late e res.2.2) ls) .free s) ∨
  ((res.1 = .busy ∨ res.1 = .closed) ∧ res.2 = (none, none) ∧
    Here ⟨k, Plain r late [], ls, Polled cases⟩ .free s)

theorem PollsPost.stable {cases : List Case} (res : Ret × Option ChanId × Option Item) :
    Stable rules (.co k) (PollsPost k r late ls cases res) := by
  intro s s' hi hi' hr h
  rcases h with ⟨hret, e, he, hact, h⟩ | ⟨hret, hact, h⟩
  · exact .inl ⟨hret, e, he, hact, Here.stable_of rfl s s' hi hi' hr h⟩
  · exact .inr ⟨hret, hact, Here.stable_of rfl s s' hi hi' hr h⟩

theorem pollCases_spec (k : Coid) (ls : List Lock) (es done : List Case) (ret : Ret)
    (hret : ret = .busy ∨ ret = .closed) (hlocks : ∀ e ∈ es, .chan e.chan ∈ ls)
    (hnodup : ((done ++ es).map Case.chan).Nodup) :
    Triple rules (.co k) (Here ⟨k, Plain r late [], ls, Polled done⟩ .free) (pollCases k ret es)
      (PollsPost k r late ls (done ++ es)) := by
  induction es generalizing done ret with
  | nil =>
    refine Triple.ret (Here.stable_of rfl) fun s _ h => .inr ⟨hret, rfl, ?_⟩
    rwa [List.append_nil]
  | cons e es ih =>
    have hsplit : done ++ e :: es = done ++ [e] ++ es := by simp
    have hnew : e.chan ∉ done.map Case.chan := by
      rw [List.map_append, List.nodup_append] at hnodup
      exact fun hm => hnodup.2.2 _ hm _ List.mem_cons_self rfl
    refine Triple.bind (pollCase_spec k ls done e (hlocks e List.mem_cons_self) hnew) fun res => ?_
    obtain ⟨ret', got⟩ := res
    by_cases hsucc : ret' = .success
    · subst hsucc
      refine Triple.ret (PollPost.stable _) fun s _ h => .inl ⟨rfl, e, by simp, rfl, ?_⟩
      rcases h with ⟨-, h⟩ | ⟨h, -⟩
      · exact h
      · rcases h with h | h <;> cases h
    · have hcont : Triple rules (.co k) (fun s => (ret' = .busy ∨ ret' = .closed) ∧
          Here ⟨k, Plain r late [], ls, Polled (done ++ [e])⟩ .free s) (pollCases k ret' es)
          (PollsPost k r late ls (done ++ e :: es)) := by
        refine Triple.of_pure fun hret' => ?_
        rw [hsplit] at hnodup ⊢
        exact ih (done ++ [e]) ret' hret' (fun e' he' => hlocks e' (List.mem_cons_of_mem _ he')) hnodup
      change Triple rules _ _ (if ret' = .success then _ else _) _
      rw [if_neg hsucc]
      refine hcont.pre fun s _ h => ?_
      rcases h with ⟨h, -⟩ | h
      · exact absurd h hsucc
      · exact h

/-! ### Queueing the quanta -/

theorem clearTag_spec (k : Coid) (ls : List Lock) (know : ChanId → Chan → Prop) (m : List Xfer) :
    Triple rules (.co k) (Here ⟨k, Plain r late m, ls, know⟩ .free) clearTag
      fun _ => Here ⟨k, Plain r late m, ls, know⟩ .free := by
  refine issue_spec (Here.stable_of rfl) (fun _ => Here.stable_of rfl) fun s hi h => ?_
  have hself : Plain r late m (s.cos k) := h.1.self
  refine ⟨⟨k, rfl, .inl hself.wait⟩, fun u s' he _ => ?_⟩
  obtain ⟨-, he⟩ := exec_inv he
  cases he
  exact h.leave (f := Co.clearTag) rfl rfl ⟨rfl, hself.role, hself.late, hself.moved⟩

/-- What is known of the channels of the cases that are not queued yet. -/
theorem Polled.tail {e : Case} {es : List Case} {c : ChanId} {ch : Chan} (h : Polled (e :: es) c ch) :
    Polled es c ch :=
  ⟨h.1, fun e' he' => h.2 e' (List.mem_cons_of_mem _ he')⟩

theorem selectQuanta_chans (k : Coid) (i : Nat) (es : List Case) :
    (selectQuanta k i es).map (fun p => p.1.chan) = es.map Case.chan := by
  induction es generalizing i with
  | nil => rfl
  | cons e es ih => simp only [selectQuanta, List.map_cons, ih]

theorem enqueueAll_spec (k : Coid) (ls : List Lock) (items : Quantum → Item) (es : List Case)
    (i : Nat) (qs : List Quantum) (hlen : qs.length = i) (hsel : ∀ p ∈ qs, p.select = true)
    (hlocks : ∀ e ∈ es, .chan e.chan ∈ ls)
    (hnodup : (qs.map Quantum.chan ++ es.map Case.chan).Nodup)
    (hitems : ∀ p ∈ selectQuanta k i es, items p.1 = p.2) :
    Triple rules (.co k) (Here ⟨k, Posted r late qs items, ls, Polled es⟩ .free)
      (enqueueAll (selectQuanta k i es))
      fun _ => Here (Ctx.quiet k (Posted r late (qs ++ (selectQuanta k i es).map Prod.fst) items) ls)
        .free := by
  induction es generalizing i qs with
  | nil =>
    refine Triple.ret (Here.stable_of rfl) fun s _ h => ?_
    rw [selectQuanta, List.map_nil, List.append_nil]
    exact h.mono rfl (fun _ h => h) (fun _ h => h) fun _ _ _ h => h.1
  | cons e es ih =>
    obtain ⟨hnodup₁, hnodup₂, hdisj⟩ := List.nodup_append.mp hnodup
    obtain ⟨hnew, hnodup₂⟩ := List.nodup_cons.mp hnodup₂
    have hnew' : e.chan ∉ qs.map Quantum.chan := fun hm => hdisj _ hm _ List.mem_cons_self rfl
    have hadd := queueAdd_spec (K := Polled (e :: es) e.chan) (q := ⟨k, e.chan, true, e.dir, i⟩)
      ⟨k, Posted r late qs items, ls, Polled (e :: es)⟩ r late qs items e.item rfl
      (hlocks e List.mem_cons_self) hlen.symm (fun _ => ⟨rfl, hsel, hnew'⟩) (fun _ => hitems _ List.mem_cons_self) fun ch h => h.2 e List.mem_cons_self rfl
    refine Triple.bind (hadd.pre fun s _ h => h.learn_self fun _ h => h) fun _ => ?_
    have hnodup' : ((qs ++ [(⟨k, e.chan, true, e.dir, i⟩ : Quantum)]).map Quantum.chan ++
        es.map Case.chan).Nodup := by
      simpa using hnodup
    refine (ih (i + 1) (qs ++ [⟨k, e.chan, true, e.dir, i⟩]) (by simp [hlen]) ?_
      (fun e' he' => hlocks e' (List.mem_cons_of_mem _ he')) hnodup'
      fun p hp => hitems p (List.mem_cons_of_mem _ hp)).conseq (fun s _ h => ?_) fun _ s _ h => ?_
    · intro p hp
      rcases List.mem_append.mp hp with hp | hp
      · exact hsel p hp
      · obtain rfl := List.mem_singleton.mp hp
        rfl
    · refine h.mono rfl (fun _ h => h) (fun _ h => h) fun c ch _ hk => ?_
      by_cases hc : c = e.chan
      · subst hc
        rw [Ctx.learn_know] at hk
        exact ⟨hk, fun e' he' hc => absurd (hc ▸ List.mem_map_of_mem he') hnew⟩
      · rw [Ctx.learn_know_ne _ _ hc] at hk
        exact hk.tail
    · simpa only [selectQuanta, List.map_cons, List.append_assoc, List.singleton_append] using h

/-! ### Removing the quanta -/

/-- The record of a coroutine that was woken from a select by the quantum `p`. -/
structure Selected (r : Role) (late : Bool) (qs : List Quantum) (items : Quantum → Item) (p : Quantum)
    (co : Co) : Prop extends Awoken r late qs items p co where
  mem : p ∈ qs
  tag : co.qtag = some p.chan
  outcome : co.Outcome p

/-- The first lock after the sleep tells by which quantum the wait ended. -/
theorem Here.selected {qs : List Quantum} {items : Quantum → Item} {p : Quantum} {y : Ctx} (hi : Inv s)
    (h : Here y .free s) (hself : ∀ co, y.self co → Awoken r late qs items p co)
    (hsel : ∀ q ∈ qs, q.select = true) :
    Here (y.setSelf (Selected r late qs items p)) .free s := by
  have haw := hself _ h.1.self
  have hphase := (hi.co y.k).phase _ haw.wait
  simp only [PhaseOk, Site.quanta] at hphase
  obtain ⟨-, hmem, htag, hout⟩ := hphase
  have htag' : (s.cos y.k).qtag = some p.chan := by
    rw [htag, Quantum.tag, if_pos (hsel p hmem)]
  exact ⟨⟨h.1.born, h.1.awake, ⟨haw, hmem, htag', hout⟩, h.1.locks, h.1.chans, h.1.settled⟩, h.2⟩

theorem readTag_spec (k : Coid) (ls : List Lock) (know : ChanId → Chan → Prop) {qs : List Quantum}
    {items : Quantum → Item} {p : Quantum} :
    Triple rules (.co k) (Here ⟨k, Selected r late qs items p, ls, know⟩ .free) readTag
      fun active s => active = some p.chan ∧ Here ⟨k, Selected r late qs items p, ls, know⟩ .free s := by
  refine issue_spec (Here.stable_of rfl) (fun _ => (Stable.const _).and (Here.stable_of rfl))
    fun s hi h => ⟨⟨k, rfl⟩, fun active s' he _ => ?_⟩
  obtain ⟨-, he⟩ := exec_inv he
  cases he
  exact ⟨h.1.self.tag, h⟩

/-- What is known of the channels once the quanta `done` have been removed. -/
def Removed (done : List Quantum) (c : ChanId) (ch : Chan) : Prop :=
  ch.Quiet ∧ ∀ q ∈ done, q.chan = c → q ∉ ch.que q.dir

/-- The result the dequeueing loop has so far. -/
def Result (done : List Quantum) (p : Quantum) (res : Ret × Bool × Option Item) (co : Co) : Prop :=
  (p ∈ done ∧ res = (if (co.slots p.idx).close then .closed else .success,
    (co.slots p.idx).openAt && (co.slots p.idx).closedAt,
    if (co.slots p.idx).close then none else p.dir.got (co.slots p.idx).item)) ∨
  (p ∉ done ∧ res = (.success, false, none))

theorem readSelect_spec (k : Coid) (ls : List Lock) (know : ChanId → Chan → Prop) {qs : List Quantum}
    {items : Quantum → Item} {p : Quantum} {R : Co → Prop} (hq : q ∈ qs) (hsel : q.select = true)
    (hc : .chan q.chan ∈ ls) :
    Triple rules (.co k) (Here ⟨k, fun co => Selected r late qs items p co ∧ R co, ls, know⟩ .free)
      (readQuantum q)
      fun slot => Here ⟨k, fun co => Selected r late qs items p co ∧ R co ∧ co.slots q.idx = slot,
        ls, know⟩ .free := by
  refine issue_spec (Here.stable_of rfl) (fun _ => Here.stable_of rfl) fun s hi h => ?_
  have hself : Selected r late qs items p (s.cos k) ∧ R (s.cos k) := h.1.self
  refine ⟨⟨k, qs, p, rfl, hself.1.wait, hq, h.1.locks _ hc⟩, fun slot s' he _ => ?_⟩
  obtain ⟨-, he⟩ := exec_inv he
  cases he
  have hid : (s.cos k).look q = s.cos k := by simp [Co.look, Wait.look, hsel]
  refine h.own (f := Co.look q) (by rw [hid]) rfl rfl ?_
  rw [hid]
  exact ⟨hself.1, hself.2, rfl⟩

theorem queueExtract_spec (k : Coid) (ls : List Lock) (done : List Quantum) {qs : List Quantum}
    {items : Quantum → Item} {p : Quantum} {R : Co → Prop} (hq : q ∈ qs) (hc : .chan q.chan ∈ ls) :
    Triple rules (.co k)
      (Here ⟨k, fun co => Selected r late qs items p co ∧ R co, ls, Removed done⟩ .free)
      (queueExtract q)
      fun _ => Here ⟨k, fun co => Selected r late qs items p co ∧ R co, ls, Removed (done ++ [q])⟩
        .free := by
  refine issue_spec (Here.stable_of rfl) (fun _ => Here.stable_of rfl) fun s hi h => ?_
  have hself : Selected r late qs items p (s.cos k) ∧ R (s.cos k) := h.1.self
  refine ⟨⟨k, qs, p, rfl, hself.1.wait, hq, h.1.locks _ hc⟩, fun slot s' he _ => ?_⟩
  obtain ⟨-, he⟩ := exec_inv he
  cases he
  have hnodup : ((s.chans q.chan).que q.dir).Nodup := by
    have hheld := (hi.chan q.chan).nodup q.dir
    rwa [Chan.held_of_hand_none (h.1.chans _ hc).1.hand] at hheld
  refine ⟨⟨h.1.born, h.1.awake, h.1.self, h.1.locks, fun c hm => ?_, h.1.settled⟩,
    h.2.of_cos (fun _ => rfl) fun _ => rfl⟩
  obtain ⟨hquiet, hgone⟩ := h.1.chans c hm
  by_cases hcq : c = q.chan
  · subst hcq
    rw [State.setChan_chans_self]
    refine ⟨⟨hquiet.hand, hquiet.drain⟩, fun q' hq' hc' hin => ?_⟩
    have hsub : q' ∈ (s.chans q.chan).que q'.dir := by
      by_cases hd : q'.dir = q.dir
      · simp only [Chan.extract, hd, Function.update_self] at hin
        rw [hd]
        exact List.mem_of_mem_erase hin
      · simpa [Chan.extract, hd] using hin
    rcases List.mem_append.mp hq' with hm' | hm'
    · exact hgone q' hm' hc' hsub
    · obtain rfl := List.mem_singleton.mp hm'
      simp only [Chan.extract, Function.update_self] at hin
      exact absurd hin hnodup.not_mem_erase
  · rw [State.setChan_chans_ne _ _ hcq]
    refine ⟨hquiet, fun q' hq' hc' => ?_⟩
    rcases List.mem_append.mp hq' with hm' | hm'
    · exact hgone q' hm' hc'
    · obtain rfl := List.mem_singleton.mp hm'
      exact absurd hc'.symm hcq

theorem dequeueAll_spec (k : Coid) (ls : List Lock) {qs : List Quantum} {items : Quantum → Item}
    {p : Quantum} (hsel : ∀ q ∈ qs, q.select = true) (hnodup : (qs.map Quantum.chan).Nodup)
    (hlocks : ∀ q ∈ qs, .chan q.chan ∈ ls) (rest : List (Quantum × Item)) (done : List Quantum)
    (res : Ret × Bool × Option Item) (hqs : qs = done ++ rest.map Prod.fst) :
    Triple rules (.co k)
      (Here ⟨k, fun co => Selected r late qs items p co ∧ Result done p res co, ls, Removed done⟩ .free)
      (dequeueAll (some p.chan) res rest)
      fun res' => Here ⟨k, fun co => Selected r late qs items p co ∧ Result qs p res' co, ls,
        Removed qs⟩ .free := by
  induction rest generalizing done res with
  | nil =>
    rw [List.map_nil, List.append_nil] at hqs
    subst hqs
    exact Triple.ret (Here.stable_of rfl) fun s _ h => h
  | cons qi rest ih =>
    obtain ⟨q, i⟩ := qi
    obtain ⟨ret, during, got⟩ := res
    have hq : q ∈ qs := by
      rw [hqs]
      simp
    have hfresh : q ∉ done := by
      have := hnodup.of_map
      rw [hqs, List.map_cons, List.nodup_append] at this
      exact fun hm => this.2.2 q hm q List.mem_cons_self rfl
    refine Triple.bind (readSelect_spec k ls (Removed done) hq (hsel q hq) (hlocks q hq)) fun slot => ?_
    refine Triple.bind (queueExtract_spec k ls done hq (hlocks q hq)) fun _ => ?_
    refine (ih (done ++ [q]) _ (by rw [hqs]; simp)).pre fun s _ h =>
      h.mono rfl (fun co hp => ?_) (fun _ h => h) fun _ _ _ h => h
    obtain ⟨hselected, hres, hslot⟩ := hp
    refine ⟨hselected, ?_⟩
    by_cases hpq : p.chan = q.chan
    · -- this is the quantum that ended the wait
      obtain rfl : p = q := List.inj_on_of_nodup_map hnodup hselected.mem hq hpq
      rcases hres with ⟨hm, -⟩ | ⟨-, hres⟩
      · exact absurd hm hfresh
      · cases hres
        rw [if_pos rfl, ← hslot]
        exact .inl ⟨by simp, rfl⟩
    · rw [if_neg (by simpa using hpq)]
      have hne : p ≠ q := fun he => hpq (he ▸ rfl)
      rcases hres with ⟨hm, hres⟩ | ⟨hm, hres⟩
      · exact .inl ⟨List.mem_append_left _ hm, hres⟩
      · refine .inr ⟨?_, hres⟩
        simp [hm, hne]

/-- How a select that has slept ends. -/
def Ended (r : Role) (late : Bool) (items : Quantum → Item) (p : Quantum)
    (res : Ret × Bool × Option Item) (co : Co) : Prop :=
  (res.1 = .success ∧ ∃ y, (p.dir = .send → y = items p) ∧ res.2.2 = p.dir.got y ∧
    Plain r late [⟨p.dir, p.chan, y⟩] co) ∨
  (res.1 = .closed ∧ res.2 = (true, none) ∧ Plain r late [] co)

theorem Selected.ended {qs : List Quantum} {items : Quantum → Item} {p : Quantum}
    {res : Ret × Bool × Option Item} {co : Co} (h : Selected r late qs items p co) (hres : Result qs p res co) :
    Ended r late items p res co.clearTag := by
  rcases hres with ⟨-, rfl⟩ | ⟨hm, -⟩
  · rcases h.outcome with ⟨hclose, hopen, hclosed, hmoved⟩ | ⟨hclose, hmoved⟩
    · refine .inr ⟨?_, ?_, rfl, h.role, h.late, hmoved⟩
      · rw [hclose]
        rfl
      · rw [hopen, hclosed, hclose]
        rfl
    · refine .inl ⟨?_, _, fun hd => h.items p h.mem hd, ?_, rfl, h.role, h.late, hmoved⟩
      · rw [hclose]
        rfl
      · rw [hclose]
        rfl
  · exact absurd h.mem hm

theorem leaveSelect_spec (k : Coid) (ls : List Lock) {qs : List Quantum} {items : Quantum → Item}
    {p : Quantum} {res : Ret × Bool × Option Item} (hlocks : ∀ q ∈ qs, .chan q.chan ∈ ls) :
    Triple rules (.co k)
      (Here ⟨k, fun co => Selected r late qs items p co ∧ Result qs p res co, ls, Removed qs⟩ .free)
      clearTag
      fun _ s => p ∈ qs ∧ Here (Ctx.quiet k (Ended r late items p res) ls) .free s := by
  refine issue_spec (Here.stable_of rfl) (fun _ => (Stable.const _).and (Here.stable_of rfl))
    fun s hi h => ?_
  have hself : Selected r late qs items p (s.cos k) ∧ Result qs p res (s.cos k) := h.1.self
  refine ⟨⟨k, rfl, .inr ⟨qs, p, hself.1.wait, fun q hq => ?_⟩⟩, fun u s' he _ => ?_⟩
  · obtain ⟨hquiet, hgone⟩ := h.1.chans q.chan (hlocks q hq)
    exact ⟨h.1.locks _ (hlocks q hq), hquiet.hand, hgone q hq rfl⟩
  · obtain ⟨-, he⟩ := exec_inv he
    cases he
    refine ⟨hself.1.mem, ?_⟩
    refine (h.leave (S := Ended r late items p res) (f := Co.clearTag) rfl rfl
      (hself.1.ended hself.2)).mono rfl (fun _ h => h) (fun _ h => h) fun _ _ _ hk => hk.1

/-! ### The whole of it -/

/-- The item a quantum of a set offers. -/
def caseItem (cases : List Case) (q : Quantum) : Item := (cases[q.idx]?.map Case.item).getD 0

theorem selectQuanta_mem {k : Coid} {i : Nat} {es : List Case} {p : Quantum × Item}
    (h : p ∈ selectQuanta k i es) : i ≤ p.1.idx ∧ p.1.select = true ∧
      ∃ e ∈ es, es[p.1.idx - i]? = some e ∧ p.1.chan = e.chan ∧ p.1.dir = e.dir ∧ p.2 = e.item := by
  induction es generalizing i with
  | nil => cases h
  | cons e es ih =>
    rcases List.mem_cons.mp h with rfl | hm
    · exact ⟨Nat.le_refl _, rfl, e, List.mem_cons_self, by simp, rfl, rfl, rfl⟩
    · obtain ⟨hle, hsel, e', he', hget, hrest⟩ := ih hm
      refine ⟨by omega, hsel, e', List.mem_cons_of_mem _ he', ?_, hrest⟩
      rw [show p.1.idx - i = p.1.idx - (i + 1) + 1 by omega, List.getElem?_cons_succ]
      exact hget

/-- A quantum of a set belongs to one of its cases. -/
theorem selectQuanta_case {k : Coid} {cases : List Case} {q : Quantum}
    (h : q ∈ (selectQuanta k 0 cases).map Prod.fst) : q.select = true ∧
      ∃ e ∈ cases, q.chan = e.chan ∧ q.dir = e.dir ∧ caseItem cases q = e.item := by
  obtain ⟨p, hp, rfl⟩ := List.mem_map.mp h
  obtain ⟨-, hsel, e, he, hget, hchan, hdir, -⟩ := selectQuanta_mem hp
  refine ⟨hsel, e, he, hchan, hdir, ?_⟩
  rw [Nat.sub_zero] at hget
  simp [caseItem, hget]

theorem caseItem_eq {k : Coid} {cases : List Case} {p : Quantum × Item}
    (h : p ∈ selectQuanta k 0 cases) : caseItem cases p.1 = p.2 := by
  obtain ⟨-, -, e, -, hget, -, -, hitem⟩ := selectQuanta_mem h
  rw [Nat.sub_zero] at hget
  simp [caseItem, hget, hitem]

/-- The result of a select. -/
def SelectPost (k : Coid) (r : Role) (late : Bool) (ls : List Lock) (cases : List Case) (block : Bool)
    (res : Ret × Option ChanId × Bool × Option Item) (s : State) : Prop :=
  (res.1 = .success ∧ ∃ e ∈ cases, res.2.1 = some e.chan ∧
    Here (Ctx.quiet k (Taken r late e res.2.2.2) ls) .free s) ∨
  (block = true ∧ res.1 = .closed ∧ res.2.2 = (true, none) ∧ (∃ e ∈ cases, res.2.1 = some e.chan) ∧
    Here (Ctx.quiet k (Plain r late []) ls) .free s) ∨
  (block = false ∧ (res.1 = .busy ∨ res.1 = .closed) ∧ res.2.1 = none ∧ res.2.2.2 = none ∧
    Here (Ctx.quiet k (Plain r late []) ls) .free s)

theorem SelectPost.of_ended {cases : List Case} {p : Quantum} {res : Ret × Bool × Option Item}
    (hp : p ∈ (selectQuanta k 0 cases).map Prod.fst)
    (h : Here (Ctx.quiet k (Ended r late (caseItem cases) p res) ls) .free s) :
    SelectPost k r late ls cases true (res.1, some p.chan, res.2) s := by
  obtain ⟨-, e, he, hchan, hdir, hitem⟩ := selectQuanta_case hp
  have hself : Ended r late (caseItem cases) p res (s.cos k) := h.1.self
  rcases hself with ⟨hret, y, hy, hgot, hplain⟩ | ⟨hret, hduring, hplain⟩
  · refine .inl ⟨hret, e, he, congrArg some hchan, ?_⟩
    refine ⟨⟨h.1.born, h.1.awake, ⟨y, fun hd => ?_, ?_, ?_⟩, h.1.locks, h.1.chans, h.1.settled⟩, h.2⟩
    · rw [hy (hdir.trans hd), hitem]
    · rw [← hdir]
      exact hgot
    · rw [← hchan, ← hdir]
      exact hplain
  · exact .inr (.inl ⟨rfl, hret, hduring, ⟨e, he, congrArg some hchan⟩,
      ⟨h.1.born, h.1.awake, hplain, h.1.locks, h.1.chans, h.1.settled⟩, h.2⟩)

/-- **Sleeping until one of the quanta `qs` is claimed**, and taking all locks again. -/
theorem sleepSelect_spec (k : Coid) (chain : List ChanId) {qs : List Quantum}
    {items : Quantum → Item} {α : Type} {f : RProg α} {Q : α → State → Prop} (hne : chain ≠ [])
    (hqne : qs ≠ []) (hsel : ∀ q ∈ qs, q.select = true) (hchain : ∀ q ∈ qs, q.chan ∈ chain)
    (hf : ∀ p, Triple rules (.co k)
      (Here (Ctx.quiet k (Selected r late qs items p) (chain.map Lock.chan)) .free) f Q) :
    Triple rules (.co k) (Here (Ctx.quiet k (Posted r late qs items) (chain.map Lock.chan)) .free)
      (do
        vpuSuspend (chain.map .chan)
        lockChainAcquire chain
        f) Q := by
  have hlocks : ∀ l ∈ (Site.chans qs).locks, l ∈ chain.map Lock.chan := by
    intro l hl
    obtain ⟨q, hq, rfl⟩ := List.mem_map.mp hl
    exact List.mem_map_of_mem (hchain q hq)
  refine Triple.bind (M := fun _ => Asleep k r late [] (.chans qs) items) ?_ fun _ => ?_
  · refine (suspend_spec k (chain.map .chan) [] (chain.map .chan) (fun _ => Chan.Quiet) hlocks
      (fun _ h => h) nofun fun _ _ _ h => h).pre fun s _ h => ?_
    exact h.mono rfl (fun _ hp => hp.publishes hqne) (fun _ h => h) fun _ _ _ h => h
  refine Triple.bind (M := fun _ s => ∃ p,
    Here (Ctx.quiet k (Selected r late qs items p) (chain.map Lock.chan)) .free s) ?_
    fun _ => Triple.of_forall hf
  obtain ⟨c, cs, rfl⟩ := List.exists_cons_of_ne_nil hne
  refine Triple.bind (wake_spec k [] qs hqne (.chan c)) fun _ => ?_
  refine Triple.pre (P := fun s => ∃ p, Here (Ctx.quiet k (Selected r late qs items p) [.chan c]) .free s)
    ?_ fun s hi h => ?_
  · refine Triple.of_forall fun p => (lockChainAcquire_spec k cs [.chan c]).post fun _ s _ h => ⟨p, ?_⟩
    refine h.mono rfl (fun _ h => h) (fun l hl => ?_) fun _ _ _ h => h
    simpa [Ctx.quiet, or_comm] using hl
  · obtain ⟨⟨p, h⟩, -⟩ := h
    refine ⟨p, (h.selected hi (fun _ h => h) hsel).mono rfl (fun _ h => h) (fun _ h => h)
      fun c' ch hc' hk => ?_⟩
    obtain rfl : c' = c := by simpa [Ctx.quiet] using hc'
    have hquiet : (Ctx.lock ⟨k, Awoken r late qs items p, [], fun _ _ => True⟩ (.chan c')).know c' ch := hk
    rwa [Ctx.lock_know_chan] at hquiet

theorem selectQuanta_ne_nil {k : Coid} {i : Nat} {es : List Case} (h : es ≠ []) :
    (selectQuanta k i es).map Prod.fst ≠ [] := by
  obtain ⟨e, es, rfl⟩ := List.exists_cons_of_ne_nil h
  simp [selectQuanta]

theorem selectQuanta_map_chan (k : Coid) (i : Nat) (es : List Case) :
    ((selectQuanta k i es).map Prod.fst).map Quantum.chan = es.map Case.chan := by
  rw [List.map_map]
  exact selectQuanta_chans k i es

theorem selectBlocked_spec (k : Coid) (cases : List Case) (chain : List ChanId) (hne : cases ≠ [])
    (hnodup : (cases.map Case.chan).Nodup) (hperm : chain.Perm (cases.map Case.chan)) :
    Triple rules (.co k) (Here ⟨k, Plain r late [], chain.map Lock.chan, Polled cases⟩ .free)
      (selectBlocked k cases chain)
      (SelectPost k r late (chain.map Lock.chan) cases true) := by
  have hmem : ∀ e ∈ cases, e.chan ∈ chain := fun e he => hperm.mem_iff.mpr (List.mem_map_of_mem he)
  have hcne : chain ≠ [] := by
    rintro rfl
    exact hne (List.map_eq_nil_iff.mp hperm.nil_eq.symm)
  have hsel : ∀ q ∈ (selectQuanta k 0 cases).map Prod.fst, q.select = true := fun q hq =>
    (selectQuanta_case hq).1
  have hchain : ∀ q ∈ (selectQuanta k 0 cases).map Prod.fst, q.chan ∈ chain := by
    intro q hq
    obtain ⟨-, e, he, hchan, -⟩ := selectQuanta_case hq
    rw [hchan]
    exact hmem e he
  have hlocks : ∀ q ∈ (selectQuanta k 0 cases).map Prod.fst, .chan q.chan ∈ chain.map Lock.chan :=
    fun q hq => List.mem_map_of_mem (hchain q hq)
  refine Triple.bind (clearTag_spec k _ _ []) fun _ => ?_
  refine Triple.bind ((enqueueAll_spec k _ (caseItem cases) cases 0 [] rfl nofun
    (fun e he => List.mem_map_of_mem (hmem e he)) hnodup fun p hp => caseItem_eq hp).pre
    fun s _ h => h.mono rfl (fun _ hp => .nil hp) (fun _ h => h) fun _ _ _ h => h) fun _ => ?_
  rw [List.nil_append]
  refine sleepSelect_spec k chain hcne (selectQuanta_ne_nil hne) hsel hchain fun p => ?_
  refine Triple.bind (readTag_spec k _ _) fun active => Triple.of_pure fun hactive => ?_
  subst hactive
  refine Triple.bind ((dequeueAll_spec k _ hsel (by rwa [selectQuanta_map_chan]) hlocks
    (selectQuanta k 0 cases) [] (.success, false, none) rfl).pre fun s _ h =>
    h.mono rfl (fun _ hs => ⟨hs, .inr ⟨nofun, rfl⟩⟩) (fun _ h => h) fun _ _ _ h => ⟨h, nofun⟩)
    fun res => ?_
  obtain ⟨ret, during, got⟩ := res
  refine Triple.bind (leaveSelect_spec k _ hlocks) fun _ => Triple.of_pure fun hp => ?_
  exact Triple.ret (Here.stable_of rfl) fun s _ h => SelectPost.of_ended hp h

theorem selectLocked_spec (k : Coid) (cases : List Case) (chain : List ChanId) (block : Bool)
    (hne : cases ≠ []) (hnodup : (cases.map Case.chan).Nodup)
    (hperm : chain.Perm (cases.map Case.chan)) :
    Triple rules (.co k) (Here (Ctx.quiet k (Plain r late []) (chain.map Lock.chan)) .free)
      (selectLocked k cases chain block)
      (SelectPost k r late (chain.map Lock.chan) cases block) := by
  have hmem : ∀ e ∈ cases, .chan e.chan ∈ chain.map Lock.chan := fun e he =>
    List.mem_map_of_mem (hperm.mem_iff.mpr (List.mem_map_of_mem he))
  refine Triple.bind ((pollCases_spec k _ cases [] .busy (.inl rfl) hmem hnodup).pre fun s _ h =>
    h.mono rfl (fun _ h => h) (fun _ h => h) fun _ _ _ h => ⟨h, nofun⟩) fun res => ?_
  obtain ⟨ret, active, got⟩ := res
  rw [List.nil_append]
  cases active with
  | some c =>
    refine Triple.ret (PollsPost.stable _) fun s _ h => .inl ?_
    rcases h with ⟨hret, e, he, hact, h⟩ | ⟨-, hact, -⟩
    · exact ⟨hret, e, he, hact, h⟩
    · cases hact
  | none =>
    have hpost : ∀ s, PollsPost k r late (chain.map Lock.chan) cases (ret, none, got) s →
        (ret = .busy ∨ ret = .closed) ∧ got = none ∧
          Here ⟨k, Plain r late [], chain.map Lock.chan, Polled cases⟩ .free s := by
      rintro s (⟨-, e, -, hact, -⟩ | ⟨hret, hnone, h⟩)
      · cases hact
      · exact ⟨hret, congrArg Prod.snd hnone, h⟩
    cases block with
    | true => exact (selectBlocked_spec k cases chain hne hnodup hperm).pre fun s _ h => (hpost s h).2.2
    | false =>
      refine Triple.ret (PollsPost.stable _) fun s _ h =>
        .inr (.inr ⟨rfl, (hpost s h).1, rfl, (hpost s h).2.1, ?_⟩)
      exact (hpost s h).2.2.mono rfl (fun _ h => h) (fun _ h => h) fun _ _ _ h => h.1

/-- What the call records. -/
theorem SelectPost.record {cases : List Case} {block : Bool} {ret : Ret} {active : Option ChanId}
    {during : Bool} {got : Option Item}
    (h : SelectPost k r late ls cases block (ret, active, during, got) s) :
    ∃ m, Record.Ok ⟨.select cases block ret active during got, late, m⟩ ∧
      Here (Ctx.quiet k (Plain r late m) ls) .free s := by
  rcases h with ⟨hret, e, he, hact, h⟩ | ⟨hb, hret, hres, ⟨e, he, hact⟩, h⟩ | ⟨hb, hret, hact, hgot, h⟩
  · obtain ⟨y, hy, hgot, hplain⟩ : Taken r late e got (s.cos k) := h.1.self
    exact ⟨_, .inr (.inl ⟨hret, e, he, hact, y, hy, rfl, hgot⟩),
      ⟨h.1.born, h.1.awake, hplain, h.1.locks, h.1.chans, h.1.settled⟩, h.2⟩
  · cases hres
    exact ⟨[], .inr (.inr (.inl ⟨hb, hret, rfl, rfl, rfl, e, he, hact⟩)), h⟩
  · exact ⟨[], .inr (.inr (.inr ⟨hb, hret, hact, rfl, hgot⟩)), h⟩

/-- **`_coroc_chan_set_select`**. -/
theorem chanSetSelect_spec (k : Coid) (cases : List Case) (chain : List ChanId) (block : Bool)
    (hnodup : (cases.map Case.chan).Nodup) (hperm : chain.Perm (cases.map Case.chan)) :
    Triple rules (.co k) (Free k r []) (chanSetSelect k cases chain block) fun _ => Free k r [] := by
  refine Triple.of_forall fun late => ?_
  unfold chanSetSelect
  by_cases hne : cases = []
  · subst hne
    have hok : Record.Ok ⟨.select [] block .invalid none false none, late, []⟩ :=
      .inl ⟨rfl, rfl, rfl, rfl, rfl⟩
    exact (record_spec k [] (fun _ _ => True) [] _ hok).conseq (fun _ _ h => ⟨h, nofun⟩) fun _ _ _ h =>
      ⟨late, h⟩
  · rw [if_neg (by simpa using hne)]
    have hlock : Triple rules (.co k) (Here ⟨k, Plain r late [], [], fun _ _ => True⟩ .free)
        (lockChainAcquire chain)
        fun _ => Here (Ctx.quiet k (Plain r late []) (chain.map Lock.chan)) .free :=
      (lockChainAcquire_spec (S := Plain r late []) k chain []).conseq
      (fun s _ h => h.mono rfl (fun _ h => h) (fun _ h => h) nofun)
      fun _ s _ h => h.mono rfl (fun _ h => h) (fun l hl => by simpa [Ctx.quiet] using hl)
        fun _ _ _ h => h
    refine Triple.bind hlock fun _ => ?_
    refine Triple.bind (selectLocked_spec k cases chain block hne hnodup hperm) fun res => ?_
    obtain ⟨ret, active, during, got⟩ := res
    refine Triple.pre (P := fun s => ∃ m,
      Record.Ok ⟨.select cases block ret active during got, late, m⟩ ∧
      Here (Ctx.quiet k (Plain r late m) (chain.map Lock.chan)) .free s) ?_ fun s _ h => h.record
    refine Triple.of_forall fun m => Triple.of_pure fun hok => ?_
    have hrelease := lockChainRelease_spec (S := Plain r late m) k chain.reverse
      (List.nodup_reverse.mpr (hperm.nodup_iff.mpr hnodup)) Plain.waits_not
    have hunlock := Triple.pre hrelease fun s _
      (h : Here (Ctx.quiet k (Plain r late m) (chain.map Lock.chan)) .free s) =>
        h.mono rfl (fun _ h => h) (fun l hl => by simpa [Ctx.quiet] using hl) fun _ _ _ h => h
    refine Triple.bind hunlock fun _ => ?_
    refine (record_spec k [] (fun _ => Chan.Quiet) m _ hok).conseq (fun _ _ h => ⟨h, nofun⟩)
      fun _ s _ h => ⟨late, ?_⟩
    exact h.mono rfl (fun _ h => h) (fun _ h => h) nofun

end Coroc.Runtime
