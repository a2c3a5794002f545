import Coroc.Runtime.Frame

/-!
# The channel commands keep the invariant

Every command of `src/channel.c`, wherever it is allowed, keeps the invariant and does
nothing to the other threads that they do not expect.
-/

namespace Coroc.Runtime

open Coroc.Program

variable {s s' : State} {t : Tid} {k d : Coid} {c : ChanId} {q : Quantum}

/-! ### Coroutines that change -/

theorem Inv.lt_fresh (hi : Inv s) (h : s.status k ≠ .unborn) : k < s.fresh := by
  by_contra hle
  exact h ((hi.fresh k).status (Nat.le_of_not_lt hle))

theorem Parked.wait_of_lock {site : Site} {l : Lock} (h : Parked s d site) (hl : l ∈ site.locks)
    (hk : s.locks l = some (.co k)) (hne : k ≠ d) : s.status d = .wait := by
  rcases h with ⟨-, hlk⟩ | ⟨-, hlk⟩ | h
  · rw [hlk l hl] at hk
    simp only [Option.some.injEq, Tid.co.injEq] at hk
    exact absurd hk.symm hne
  · rw [hlk l hl] at hk
    cases hk
  · exact h

theorem CoInv.of_wait_none (hw : (s.cos k).wait = none) (htag : (s.cos k).qtag = none)
    (hst : s.status k = .running) : CoInv s k where
  awake := fun _ => ⟨by rw [hst]; nofun, by rw [hst]; nofun, htag⟩
  site := fun w h => by rw [hw] at h; cases h
  phase := fun w h => by rw [hw] at h; cases h

theorem CoInv.of_wait_some {w : Wait} (hw : (s.cos k).wait = some w) (hsite : SiteOk k w.site)
    (hphase : PhaseOk s k w) : CoInv s k where
  awake := fun h => by rw [hw] at h; cases h
  site := fun w' h => by
    rw [hw] at h
    cases h
    exact hsite
  phase := fun w' h => by
    rw [hw] at h
    cases h
    exact hphase

theorem Quantum.Keeps.of_wait_none {co co' : Co} (h : co.wait = none) : q.Keeps co co' := by
  rintro ⟨w, hw, -⟩
  rw [h] at hw
  cases hw

/-- A quantum stays in a wait whose site stays, if it is a select's or the wait is. -/
theorem Quantum.Keeps.of_phase {co co' : Co} {w w' : Wait} (hw : co.wait = some w)
    (hw' : co'.wait = some w') (hsite : w'.site = w.site)
    (hplain : q ∈ w.site.quanta → q.select = false → w.phase = .idle → w'.phase = .idle)
    (hidle : w'.phase = .idle → w.phase = .idle)
    (hopen : q ∈ w.site.quanta → (co'.slots q.idx).openAt = (co.slots q.idx).openAt) :
    q.Keeps co co' := by
  rintro ⟨w₁, hw₁, hm, hp⟩
  rw [hw] at hw₁
  cases hw₁
  refine ⟨⟨w', hw', by rw [hsite]; exact hm, fun hs => hplain hm hs (hp hs)⟩, ?_, hopen hm⟩
  rintro ⟨w₂, hw₂, hp₂⟩
  rw [hw'] at hw₂
  cases hw₂
  exact ⟨w, hw, hidle hp₂⟩

theorem CoChange.own (hst : s.status k = .running) (hrole : (s'.cos k).role = (s.cos k).role)
    (hno : ∀ u, ¬ s'.Claimed u k) : CoChange (.co k) s s' k :=
  .inr (.inl ⟨rfl, hst, hrole, hno⟩)

/-- Who may have claimed a wait in this phase. -/
def Phase.By (p : Phase) (u : Tid) : Prop := (∃ q, p = .taken u q) ∨ ∃ o, p = .served u o

theorem CoChange.waiter {w w' : Wait} (hst : s.status d = .wait)
    (hrole : (s'.cos d).role = (s.cos d).role) (hlate : (s'.cos d).late = (s.cos d).late)
    (hmoved : w.site.quanta = [] → (s'.cos d).moved = (s.cos d).moved)
    (hw : (s.cos d).wait = some w) (hw' : (s'.cos d).wait = some w') (hb : ∀ u, w.phase.By u → u = t)
    (ha : ∀ u, w'.phase.By u → u = t) (hsite : w'.site = w.site)
    (hitem : ∀ q ∈ w.site.quanta, q.dir = .send →
      ((s'.cos d).slots q.idx).item = ((s.cos d).slots q.idx).item) : CoChange t s s' d := by
  refine .inr (.inr ⟨hst, hrole, ?_, ?_, ?_⟩)
  · rintro u ⟨w₁, hw₁, hp⟩
    rw [hw] at hw₁
    cases hw₁
    exact hb u hp
  · rintro u ⟨w₁, hw₁, hp⟩
    rw [hw'] at hw₁
    cases hw₁
    exact ha u hp
  · refine ⟨hlate, fun hn => (nomatch hw.symm.trans hn), fun w₁ hw₁ => ?_, fun w₁ hw₁ => ?_⟩
    · rw [hw] at hw₁
      cases hw₁
      exact .inl ⟨w', hw', hsite, hitem⟩
    · rw [hw] at hw₁
      cases hw₁
      exact hmoved

theorem KeepsIdle.of_changes (h : ∀ p, s'.cos p = s.cos p ∨ (s.cos p).wait = none ∨
    (∃ w, (s.cos p).wait = some w ∧ (w.site.quanta ≠ [] ∨ w.phase ≠ .idle)) ∨
    (s'.cos p).wait = (s.cos p).wait) :
    KeepsIdle s s' := by
  intro p site hw hq
  rcases h p with he | hn | ⟨w, hw', hne⟩ | he
  · rw [he]
    exact hw
  · rw [hn] at hw
    cases hw
  · rw [hw] at hw'
    cases hw'
    rcases hne with hne | hne
    · exact absurd hq hne
    · exact absurd rfl hne
  · rw [he]
    exact hw

/-- The quanta of one wait on two channels are different, so another quantum of a plain
    wait does not exist. -/
theorem SiteOk.plain_unique {site : Site} {q' : Quantum} (h : SiteOk k site)
    (hq : q ∈ site.quanta) (hq' : q' ∈ site.quanta) (hp : q.select = false) : q' = q := by
  rcases h.kind with hall | ⟨r, hr, -⟩
  · rw [hall q hq] at hp
    cases hp
  · rw [hr] at hq hq'
    rw [List.mem_singleton.mp hq, List.mem_singleton.mp hq']

/-- The waiter behind a queued quantum, for the holder of the channel's lock. -/
theorem Inv.waiter_asleep (hi : Inv s) {dir : Dir} (hq : q ∈ (s.chans c).held dir)
    (hlock : s.locks (.chan c) = some (.co k)) (hk : (s.cos k).wait = none) {w : Wait}
    (hw : (s.cos q.co).wait = some w) (hidle : w.phase = .idle) :
    s.status q.co = .wait ∧ q.co ≠ k := by
  have hne : k ≠ q.co := by
    rintro rfl
    rw [hk] at hw
    cases hw
  have hok := (hi.co q.co).phase w hw
  simp only [PhaseOk, hidle] at hok
  obtain ⟨w', hw', hm, -⟩ := (hi.chan c).in_ dir q hq
  rw [hw] at hw'
  cases hw'
  obtain ⟨hat, -⟩ := (hi.chan c).at_ dir q hq
  exact ⟨hok.1.wait_of_lock (Quantum.lock_mem hm) (by rw [hat]; exact hlock) hne, Ne.symm hne⟩

/-! ### Steps that only change the running coroutine or a channel -/

/-- Nothing but the records of the running coroutine, which is in no wait. -/
theorem own_sound (hi : Inv s) (hrun : s.status k = .running) (hw : (s.cos k).wait = none)
    {f : Co → Co} (hf : ∀ co, (f co).wait = co.wait ∧ (f co).qtag = co.qtag ∧
      (f co).role = co.role) :
    Inv (s.setCo k f) ∧ ∀ u, u ≠ .co k → Rely u s (s.setCo k f) := by
  have hco : ∀ j, j ≠ k → (s.setCo k f).cos j = s.cos j := fun j hj => s.setCo_cos_ne f hj
  have hwait : ((s.setCo k f).cos k).wait = none := by
    rw [s.setCo_cos_self, (hf _).1]
    exact hw
  have hch : Change (.co k) s (s.setCo k f) := by
    refine ⟨rfl, rfl, rfl, rfl, rfl, rfl, fun c => .inl rfl, fun c h => h, fun j => ?_⟩
    by_cases hj : j = k
    · subst hj
      exact .own hrun (by rw [s.setCo_cos_self, (hf _).2.2]) fun u => not_claimed_of_wait_none hwait
    · exact .inl (hco j hj)
  refine ⟨hch.inv hi ?_ ?_ ?_ ?_, fun u hu => hch.rely hi hu⟩
  · refine KeepsIdle.of_changes fun p => ?_
    by_cases hp : p = k
    · subst hp
      exact .inr (.inl hw)
    · exact .inl (hco p hp)
  · intro j hj
    refine hco j ?_
    rintro rfl
    exact Nat.not_lt.mpr hj (hi.lt_fresh (by rw [hrun]; nofun))
  · intro j
    by_cases hj : j = k
    · subst hj
      refine .inr (.of_wait_none hwait ?_ hrun)
      rw [s.setCo_cos_self, (hf _).2.1]
      exact ((hi.co j).awake hw).2.2
    · exact .inl (hco j hj)
  · intro c
    refine (hi.chan c).frame rfl (fun k _ hk => ⟨k, hk⟩) fun dir q _ => ?_
    by_cases hq : q.co = k
    · rw [hq]
      exact .of_wait_none hw
    · exact .of_eq (hco _ hq)

/-- Nothing but one channel, whose lock the thread holds. -/
theorem chan_sound (hi : Inv s) (hlock : s.locks (.chan c) = some t) {f : Chan → Chan}
    (hclose : (s.chans c).close = true → (f (s.chans c)).close = true)
    (hinv : ChanInv (s.setChan c f) c) :
    Inv (s.setChan c f) ∧ ∀ u, u ≠ t → Rely u s (s.setChan c f) := by
  have hch : Change t s (s.setChan c f) := by
    refine ⟨rfl, rfl, rfl, rfl, rfl, rfl, fun c' => ?_, fun c' h => ?_, fun j => .inl rfl⟩
    · by_cases hc : c' = c
      · subst hc
        exact .inr hlock
      · exact .inl (s.setChan_chans_ne f hc)
    · by_cases hc : c' = c
      · subst hc
        rw [s.setChan_chans_self]
        exact hclose h
      · rw [s.setChan_chans_ne f hc]
        exact h
  refine ⟨hch.inv hi (fun _ _ hw _ => hw) (fun _ _ => rfl) (fun _ => .inl rfl) fun c' => ?_,
    fun u hu => hch.rely hi hu⟩
  by_cases hc : c' = c
  · subst hc
    exact hinv
  · exact (hi.chan c').frame (s.setChan_chans_ne f hc) (fun k _ hk => ⟨k, hk⟩)
      fun dir q _ => .of_eq rfl

/-- One step after another. -/
theorem sound_trans {s₁ s₂ : State} (h : Inv s₁ ∧ ∀ u, u ≠ t → Rely u s s₁)
    (h' : Inv s₁ → Inv s₂ ∧ ∀ u, u ≠ t → Rely u s₁ s₂) :
    Inv s₂ ∧ ∀ u, u ≠ t → Rely u s s₂ :=
  ⟨(h' h.1).1, fun u hu => (h.2 u hu).trans ((h' h.1).2 u hu)⟩

/-- A step inside the critical section of `c` that moves the wait of `d`. -/
theorem waiter_sound (hi : Inv s) (hlock : s.locks (.chan c) = some t) {w w' : Wait}
    {g : Chan → Chan} {f : Co → Co} (hs' : s' = (s.setChan c g).setCo d f)
    (hw : (s.cos d).wait = some w) (hw' : (f (s.cos d)).wait = some w') (hq : q ∈ w.site.quanta)
    (hst : s.status d = .wait) (hrole : (f (s.cos d)).role = (s.cos d).role)
    (hlate : (f (s.cos d)).late = (s.cos d).late) (hsite : w'.site = w.site) (hb : ∀ u, w.phase.By u → u = t) (ha : ∀ u, w'.phase.By u → u = t)
    (hitem : ∀ q ∈ w.site.quanta, q.dir = .send →
      ((f (s.cos d)).slots q.idx).item = ((s.cos d).slots q.idx).item)
    (hphase : PhaseOk s' d w')
    (hkeeps : ∀ q' : Quantum, q'.chan ≠ c → q'.Keeps (s.cos d) (f (s.cos d)))
    (hclose : (s.chans c).close = true → (g (s.chans c)).close = true)
    (hchan : ChanInv s' c) : Inv s' ∧ ∀ u, u ≠ t → Rely u s s' := by
  have hd : s'.cos d = f (s.cos d) := by rw [hs', State.setCo_cos_self, State.setChan_cos]
  have hcos : ∀ j, j ≠ d → s'.cos j = s.cos j := fun j hj => by
    rw [hs', State.setCo_cos_ne _ _ hj, State.setChan_cos]
  have hchans : ∀ c', c' ≠ c → s'.chans c' = s.chans c' := fun c' hc => by
    rw [hs', State.setCo_chans, State.setChan_chans_ne _ _ hc]
  have hch : Change t s s' := by
    refine ⟨by rw [hs']; rfl, by rw [hs']; rfl, by rw [hs']; rfl, by rw [hs']; rfl,
      by rw [hs']; rfl, by rw [hs']; rfl, fun c' => ?_, fun c' h => ?_, fun j => ?_⟩
    · by_cases hc : c' = c
      · subst hc
        exact .inr hlock
      · exact .inl (hchans c' hc)
    · by_cases hc : c' = c
      · subst hc
        rw [hs', State.setCo_chans, State.setChan_chans_self]
        exact hclose h
      · rw [hchans c' hc]
        exact h
    · by_cases hj : j = d
      · subst hj
        exact .waiter hst (by rw [hd, hrole]) (by rw [hd, hlate])
          (fun hn => absurd hn (List.ne_nil_of_mem hq)) hw (by rw [hd]; exact hw') hb ha hsite
          (by rw [hd]; exact hitem)
      · exact .inl (hcos j hj)
  refine ⟨hch.inv hi ?_ ?_ ?_ ?_, fun u hu => hch.rely hi hu⟩
  · refine KeepsIdle.of_changes fun p => ?_
    by_cases hp : p = d
    · subst hp
      exact .inr (.inr (.inl ⟨w, hw, .inl (List.ne_nil_of_mem hq)⟩))
    · exact .inl (hcos p hp)
  · intro j hj
    refine hcos j ?_
    rintro rfl
    rw [(hi.fresh j).wait hj] at hw
    cases hw
  · intro j
    by_cases hj : j = d
    · subst hj
      exact .inr (.of_wait_some (by rw [hd]; exact hw') (by rw [hsite]; exact (hi.co j).site w hw)
        hphase)
    · exact .inl (hcos j hj)
  · intro c'
    by_cases hc : c' = c
    · subst hc
      exact hchan
    · refine (hi.chan c').frame (hchans c' hc) (fun k _ h => ⟨k, by rw [hs']; exact h⟩)
        fun dir q' hq' => ?_
      by_cases hqd : q'.co = d
      · rw [hqd, hd]
        exact hkeeps q' (by rw [((hi.chan c').at_ dir q' hq').1]; exact hc)
      · exact .of_eq (hcos _ hqd)

/-! ### Taking quanta out of the queues -/

theorem Chan.held_of_hand_none {ch : Chan} (h : ch.inhand = none) (dir : Dir) :
    ch.held dir = ch.que dir := by
  simp [Chan.held, h]

theorem drop_sound (hi : Inv s) (hlock : s.locks (.chan c) = some t) :
    Inv (s.setChan c Chan.drop) ∧ ∀ u, u ≠ t → Rely u s (s.setChan c Chan.drop) := by
  refine chan_sound hi hlock (fun h => h) ((hi.chan c).sub ?_ ?_ ?_ ?_ ?_ ?_)
  · intro dir
    rw [s.setChan_chans_self]
    exact List.sublist_append_right _ _
  · rw [s.setChan_chans_self]
    exact fun _ h => by cases h
  · rw [s.setChan_chans_self]
    rintro (h | h)
    · exact absurd rfl h
    · exact (hi.chan c).locked (.inr h)
  · rw [s.setChan_chans_self]
    exact fun _ _ _ h => h
  · rw [s.setChan_chans_self]
    exact fun h => h
  · exact fun _ _ _ => .of_eq rfl

theorem Chan.held_pop_select {ch : Chan} {dir : Dir} {rest : List Quantum}
    (hhand : ch.inhand = none) (hque : ch.que dir = q :: rest) (hdir : q.dir = dir) (dir' : Dir) :
    (ch.pop dir rest (some q)).held dir' = ch.held dir' := by
  rw [Chan.held_of_hand_none hhand]
  by_cases hd : dir' = dir
  · subst hd
    simp [Chan.held, Chan.pop, Option.filter, hdir, hque]
  · have hne : q.dir ≠ dir' := by rw [hdir]; exact Ne.symm hd
    simp [Chan.held, Chan.pop, Option.filter, hne, hd]

/-- Removing a select's quantum only moves it from the queue to the hand. -/
theorem popSelect_sound (hi : Inv s) (hin : InSection s k c) {dir : Dir} {rest : List Quantum}
    (hq : (s.chans c).que dir = q :: rest) (hsel : q.select = true) :
    Inv (s.setChan c (Chan.pop dir rest (some q))) ∧
      ∀ u, u ≠ .co k → Rely u s (s.setChan c (Chan.pop dir rest (some q))) := by
  have hmem : q ∈ (s.chans c).held dir := by
    rw [Chan.held_of_hand_none hin.hand, hq]
    exact List.mem_cons_self
  have hdir := ((hi.chan c).at_ dir q hmem).2
  refine chan_sound hi hin.lock (fun h => h) ((hi.chan c).sub ?_ ?_ ?_ ?_ ?_ ?_)
  · intro dir'
    rw [s.setChan_chans_self, Chan.held_pop_select hin.hand hq hdir]
  · rw [s.setChan_chans_self]
    rintro q' ⟨⟩
    exact hsel
  · exact fun _ => ⟨k, hin.lock⟩
  · rw [s.setChan_chans_self]
    exact fun _ _ _ h => h
  · rw [s.setChan_chans_self]
    exact fun h => h
  · exact fun _ _ _ => .of_eq rfl

/-! ### Claiming a wait -/

/-- Claiming the unclaimed wait of `q.co` by the quantum `q`. -/
theorem PhaseOk.claim {w : Wait} (hok : PhaseOk s d w) (hidle : w.phase = .idle)
    (hq : q ∈ w.site.quanta) (hst : s'.status d = .wait)
    (htag : (s'.cos d).qtag = q.tag) (hslots : (s'.cos d).slots = (s.cos d).slots)
    (hmoved : (s'.cos d).moved = (s.cos d).moved)
    (hlock : s'.locks (.chan q.chan) = some t) (hth : t.isThread = true) :
    PhaseOk s' d (w.claim t q) := by
  simp only [PhaseOk, hidle] at hok
  obtain ⟨-, -, -, hun⟩ := hok
  refine ⟨hst, hq, htag, ?_, hlock, hth⟩
  unfold Co.Untouched at hun ⊢
  rw [hslots, hmoved]
  exact hun

theorem PhaseOk.tag_none {w : Wait} (hok : PhaseOk s d w) (hidle : w.phase = .idle) :
    (s.cos d).qtag = none := by
  simp only [PhaseOk, hidle] at hok
  exact hok.2.2.1

theorem Phase.not_by_idle {u : Tid} : ¬ Phase.By .idle u := by
  rintro (⟨q, h⟩ | ⟨o, h⟩) <;> cases h

theorem Phase.taken_by {u v : Tid} (h : Phase.By (.taken v q) u) : u = v := by
  rcases h with ⟨q, h⟩ | ⟨o, h⟩
  · cases h
    rfl
  · cases h

theorem Phase.served_by {u v : Tid} {o : Option Quantum} (h : Phase.By (.served v o) u) :
    u = v := by
  rcases h with ⟨q, h⟩ | ⟨o, h⟩
  · cases h
  · cases h
    rfl

/-- Other quanta of a wait claimed by `q` are a select's, and stay. -/
theorem SiteOk.claim_keeps {w : Wait} {co co' : Co} {q' : Quantum} (h : SiteOk d w.site)
    (hw : co.wait = some w) (hw' : co'.wait = some (w.claim t q)) (hq : q ∈ w.site.quanta)
    (hne : q'.select = false → q' ≠ q) (hslots : co'.slots = co.slots) : q'.Keeps co co' := by
  refine .of_phase hw hw' rfl (fun hm hs _ => ?_) (fun hp => by cases hp) fun _ => by rw [hslots]
  exact absurd (h.plain_unique hm hq hs).symm (hne hs)

/-- **Removing a plain quantum claims its wait.** -/
theorem popPlain_sound (hi : Inv s) (hin : InSection s k c) {dir : Dir} {rest : List Quantum}
    (hq : (s.chans c).que dir = q :: rest) (hsel : q.select = false)
    (hs' : s' = (s.setChan c (Chan.pop dir rest none)).setCo q.co (Co.claim (.co k) q)) :
    Inv s' ∧ ∀ u, u ≠ .co k → Rely u s s' := by
  have hheld := fun dir => Chan.held_of_hand_none hin.hand dir
  have hmem : q ∈ (s.chans c).held dir := by
    rw [hheld, hq]
    exact List.mem_cons_self
  obtain ⟨hat, hdir⟩ := (hi.chan c).at_ dir q hmem
  obtain ⟨w, hw, hm, hplain⟩ := (hi.chan c).in_ dir q hmem
  have hidle := hplain hsel
  obtain ⟨hst, hne⟩ := hi.waiter_asleep hmem hin.lock hin.wait hw hidle
  have hsite := (hi.co q.co).site w hw
  have hphase := (hi.co q.co).phase w hw
  have hd : s'.cos q.co = (s.cos q.co).claim (.co k) q := by
    rw [hs', State.setCo_cos_self, State.setChan_cos]
  have hcos : ∀ j, j ≠ q.co → s'.cos j = s.cos j := fun j hj => by
    rw [hs', State.setCo_cos_ne _ _ hj, State.setChan_cos]
  have hchc : s'.chans c = (s.chans c).pop dir rest none := by
    rw [hs', State.setCo_chans, State.setChan_chans_self]
  have hw' : ((s.cos q.co).claim (.co k) q).wait = some (w.claim (.co k) q) := by
    simp only [Co.claim, hw, Option.map_some]
  have hsub : ∀ dir', ((s'.chans c).held dir').Sublist ((s.chans c).held dir') := by
    intro dir'
    rw [hheld, hchc, Chan.held_of_hand_none rfl]
    by_cases hdd : dir' = dir
    · subst hdd
      simp [Chan.pop, hq]
    · simp [Chan.pop, hdd]
  -- the removed quantum is in no queue any more
  have hgone : ∀ dir', q ∉ (s'.chans c).held dir' := by
    intro dir' hin'
    have hdd : dir' = dir := by
      rw [← hdir]
      exact (((hi.chan c).at_ dir' q ((hsub dir').subset hin')).2).symm
    subst hdd
    rw [hchc, Chan.held_of_hand_none rfl] at hin'
    simp only [Chan.pop, Function.update_self] at hin'
    have hnd := (hi.chan c).nodup dir'
    rw [hheld, hq, List.nodup_cons] at hnd
    exact hnd.1 hin'
  refine waiter_sound hi hin.lock hs' hw hw' hm hst rfl rfl rfl
    (fun u hu => absurd (hidle ▸ hu) Phase.not_by_idle) (fun u hu => Phase.taken_by hu)
    (fun _ _ _ => rfl) ?_
    (fun q' hc => hsite.claim_keeps hw hw' hm (fun _ => by rintro rfl; exact hc hat) rfl)
    (fun h => h) ?_
  · refine hphase.claim hidle hm (by rw [hs']; exact hst) ?_ (by rw [hd]; rfl) (by rw [hd]; rfl)
      (by rw [hat, hs']; exact hin.lock) rfl
    rw [hd]
    simp [Co.claim, Quantum.tag, hsel, hphase.tag_none hidle]
  · refine (hi.chan c).sub hsub (by rw [hchc]; exact fun _ h => by cases h) ?_
      (by rw [hchc]; exact fun _ _ _ h => h) (by rw [hchc]; exact fun h => h) fun dir' q' hq' => ?_
    · rw [hs']
      exact fun _ => ⟨k, hin.lock⟩
    · by_cases hqd : q'.co = q.co
      · rw [hqd, hd]
        exact hsite.claim_keeps hw hw' hm (fun _ => by rintro rfl; exact hgone dir' hq') rfl
      · exact .of_eq (hcos _ hqd)

/-- A select is claimed with its tag. -/
theorem SiteOk.tag_eq {site : Site} {q' : Quantum} (h : SiteOk d site) (hm : q ∈ site.quanta)
    (hsel : q.select = true) (hq' : q' ∈ site.quanta) : q'.tag = some q'.chan := by
  rcases h.kind with hall | ⟨r, hr, hrs⟩
  · simp [Quantum.tag, hall q' hq']
  · rw [hr, List.mem_singleton] at hm
    rw [hm, hrs] at hsel
    cases hsel

/-- The tag of a select is empty only while its wait is unclaimed. -/
theorem CoInv.idle_of_tag_none {w : Wait} (h : CoInv s d) (hw : (s.cos d).wait = some w)
    (hm : q ∈ w.site.quanta) (hsel : q.select = true) (htag : (s.cos d).qtag = none) :
    w.phase = .idle := by
  have hphase := h.phase w hw
  have hall : ∀ q' ∈ w.site.quanta, q'.tag = some q'.chan := fun _ => (h.site w hw).tag_eq hm hsel
  cases hp : w.phase with
  | idle => rfl
  | taken u q' =>
    simp only [PhaseOk, hp] at hphase
    rw [hphase.2.2.1, hall q' hphase.2.1] at htag
    cases htag
  | served u o =>
    cases o with
    | none =>
      simp only [PhaseOk, hp] at hphase
      rw [hphase.2.1] at hm
      cases hm
    | some q' =>
      simp only [PhaseOk, hp] at hphase
      rw [hphase.2.2.1, hall q' hphase.2.1] at htag
      cases htag
  | woken q' =>
    simp only [PhaseOk, hp] at hphase
    rw [hphase.2.2.1, hall q' hphase.2.1] at htag
    cases htag

/-- **Winning the compare-and-swap claims the wait.** -/
theorem claimTag_sound (hi : Inv s) (hlock : s.locks (.chan q.chan) = some (.co k))
    (hk : (s.cos k).wait = none) (hhand : (s.chans q.chan).inhand = some q)
    (htag : (s.cos q.co).qtag = none) :
    Inv (s.claimTag (.co k) q) ∧ ∀ u, u ≠ .co k → Rely u s (s.claimTag (.co k) q) := by
  have hsel := (hi.chan q.chan).hand q hhand
  have hmem : q ∈ (s.chans q.chan).held q.dir := by
    simp [Chan.held, hhand, Option.filter]
  obtain ⟨w, hw, hm, -⟩ := (hi.chan q.chan).in_ q.dir q hmem
  have hsite := (hi.co q.co).site w hw
  have hphase := (hi.co q.co).phase w hw
  have hall : ∀ q' ∈ w.site.quanta, q'.tag = some q'.chan := fun _ => hsite.tag_eq hm hsel
  have hidle := (hi.co q.co).idle_of_tag_none hw hm hsel htag
  obtain ⟨hst, hne⟩ := hi.waiter_asleep hmem hlock hk hw hidle
  generalize hs' : s.claimTag (.co k) q = s'
  have hs'' := hs'.symm
  unfold State.claimTag at hs''
  have hd : s'.cos q.co = (s.cos q.co).claimTag (.co k) q := by
    rw [hs'', State.setCo_cos_self, State.setChan_cos]
  have hcos : ∀ j, j ≠ q.co → s'.cos j = s.cos j := fun j hj => by
    rw [hs'', State.setCo_cos_ne _ _ hj, State.setChan_cos]
  have hchc : s'.chans q.chan = (s.chans q.chan).drop := by
    rw [hs'', State.setCo_chans, State.setChan_chans_self]
  have hw' : ((s.cos q.co).claimTag (.co k) q).wait = some (w.claim (.co k) q) := by
    simp only [Co.claimTag, hw, Option.map_some]
  have hsub : ∀ dir', ((s'.chans q.chan).held dir').Sublist ((s.chans q.chan).held dir') := by
    intro dir'
    rw [hchc]
    exact List.sublist_append_right _ _
  refine waiter_sound hi hlock hs'' hw hw' hm hst rfl rfl rfl
    (fun u hu => absurd (hidle ▸ hu) Phase.not_by_idle) (fun u hu => Phase.taken_by hu)
    (fun _ _ _ => rfl) ?_
    (fun q' hc => hsite.claim_keeps hw hw' hm (fun _ => by rintro rfl; exact hc rfl) rfl)
    (fun h => h) ?_
  · refine hphase.claim hidle hm (by rw [hs'']; exact hst) ?_ (by rw [hd]; rfl) (by rw [hd]; rfl)
      (by rw [hs'']; exact hlock) rfl
    rw [hd, hall q hm]
    rfl
  · refine (hi.chan q.chan).sub hsub (by rw [hchc]; exact fun _ h => by cases h) ?_
      (by rw [hchc]; exact fun _ _ _ h => h) (by rw [hchc]; exact fun h => h) fun dir' q' hq' => ?_
    · rw [hs'']
      exact fun _ => ⟨k, hlock⟩
    · by_cases hqd : q'.co = q.co
      · rw [hqd, hd]
        refine hsite.claim_keeps hw hw' hm (fun hs => ?_) rfl
        rintro rfl
        rw [hsel] at hs
        cases hs
      · exact .of_eq (hcos _ hqd)

/-! ### Serving a claimed wait -/

theorem State.setChan_id (s : State) (c : ChanId) : s.setChan c id = s := by
  simp only [State.setChan, id_eq, Function.update_eq_self]

theorem Holds.phase (hi : Inv s) (h : Holds s k q) :
    ∃ site, (s.cos q.co).wait = some ⟨site, .taken (.co k) q⟩ ∧ s.status q.co = .wait ∧
      q ∈ site.quanta ∧ (s.cos q.co).qtag = q.tag ∧ (s.cos q.co).Untouched site ∧
      s.locks (.chan q.chan) = some (.co k) := by
  obtain ⟨site, hw⟩ := h.taken
  obtain ⟨hst, hm, htag, hun, hlock, -⟩ := (hi.co q.co).phase _ hw
  exact ⟨site, hw, hst, hm, htag, hun, hlock⟩

/-- The waiter behind `q` gets its outcome; the channel keeps its queues. -/
theorem serve_sound (hi : Inv s) (hh : Holds s k q) {g : Chan → Chan} {f : Co → Co}
    (hs' : s' = (s.setChan q.chan g).setCo q.co f)
    (hwait : ∀ co, (f co).wait = co.wait.map (Wait.serve (.co k) q))
    (hrole : (f (s.cos q.co)).role = (s.cos q.co).role)
    (hlate : (f (s.cos q.co)).late = (s.cos q.co).late)
    (htag : (f (s.cos q.co)).qtag = (s.cos q.co).qtag)
    (hout : (s.cos q.co).moved = [] → ((s.cos q.co).slots q.idx).close = false →
      (f (s.cos q.co)).Outcome q)
    (hslot : ∀ i, ((f (s.cos q.co)).slots i).openAt = ((s.cos q.co).slots i).openAt)
    (hitem : ∀ i, ((f (s.cos q.co)).slots i).item = ((s.cos q.co).slots i).item ∨
      (i = q.idx ∧ q.dir = .recv))
    (hque : (g (s.chans q.chan)).que = (s.chans q.chan).que)
    (hhand : (g (s.chans q.chan)).inhand = (s.chans q.chan).inhand)
    (hclose : (g (s.chans q.chan)).close = (s.chans q.chan).close)
    (hdrain : (g (s.chans q.chan)).draining = (s.chans q.chan).draining)
    (hbuf : (g (s.chans q.chan)).buffer = (s.chans q.chan).buffer) :
    Inv s' ∧ ∀ u, u ≠ .co k → Rely u s s' := by
  obtain ⟨site, hw, hst, hm, htag', ⟨hmoved, hopen⟩, hlock⟩ := hh.phase hi
  have hsite := (hi.co q.co).site _ hw
  have hw' : (f (s.cos q.co)).wait = some ⟨site, .served (.co k) (some q)⟩ := by
    rw [hwait, hw]
    rfl
  have hd : s'.cos q.co = f (s.cos q.co) := by rw [hs', State.setCo_cos_self, State.setChan_cos]
  have hcos : ∀ j, j ≠ q.co → s'.cos j = s.cos j := fun j hj => by
    rw [hs', State.setCo_cos_ne _ _ hj, State.setChan_cos]
  have hchc : s'.chans q.chan = g (s.chans q.chan) := by
    rw [hs', State.setCo_chans, State.setChan_chans_self]
  have hheld : ∀ dir, (s'.chans q.chan).held dir = (s.chans q.chan).held dir := by
    intro dir
    rw [hchc]
    simp only [Chan.held, hque, hhand]
  have hkeeps : ∀ q' : Quantum, q'.Keeps (s.cos q.co) (f (s.cos q.co)) := fun q' =>
    .of_phase hw hw' rfl (fun _ _ hp => by cases hp) (fun hp => by cases hp) fun _ => hslot _
  refine waiter_sound hi hlock hs' hw hw' hm hst hrole hlate rfl (fun u hu => Phase.taken_by hu)
    (fun u hu => Phase.served_by hu) ?_ ?_ (fun q' _ => hkeeps q')
    (fun h => by rw [hclose]; exact h) ?_
  · intro q' hq' hdir
    rcases hitem q'.idx with h | ⟨hidx, hr⟩
    · exact h
    · rw [hsite.idx_inj q' hq' q hm hidx, hr] at hdir
      cases hdir
  · refine ⟨by rw [hs']; exact hst, hm, by rw [hd, htag, htag'], ?_⟩
    rw [hd]
    exact hout hmoved (hopen q hm)
  · refine (hi.chan q.chan).sub (fun dir => by rw [hheld]) ?_ ?_ ?_ ?_ ?_
    · rw [hchc, hhand]
      exact (hi.chan q.chan).hand
    · rw [hchc, hhand, hdrain, hs']
      exact (hi.chan q.chan).locked
    · rw [hchc, hbuf]
      exact fun _ _ _ h => h
    · rw [hchc, hclose, hdrain]
      exact fun h => h
    · intro dir q' _
      by_cases hqd : q'.co = q.co
      · rw [hqd, hd]
        exact hkeeps q'
      · exact .of_eq (hcos _ hqd)

/-- The running coroutine notes an item it has moved. -/
theorem move_sound (hi : Inv s) (hrun : s.status k = .running) (hw : (s.cos k).wait = none)
    (x : Xfer) :
    Inv (s.setCo k (Co.move x)) ∧ ∀ u, u ≠ .co k → Rely u s (s.setCo k (Co.move x)) :=
  own_sound hi hrun hw fun _ => ⟨rfl, rfl, rfl⟩

theorem Holds.ne (h : Holds s k q) : q.co ≠ k := by
  rintro rfl
  obtain ⟨site, hw⟩ := h.taken
  exact nomatch h.wait.symm.trans hw

theorem copyTo_sound (hi : Inv s) (hrun : s.status k = .running) (hh : Holds s k q)
    (hdir : q.dir = .recv) (x : Item) :
    Inv (s.copyTo k q x) ∧ ∀ u, u ≠ .co k → Rely u s (s.copyTo k q x) := by
  refine sound_trans (serve_sound hi hh rfl (fun _ => rfl) rfl rfl rfl ?_ ?_ ?_ rfl rfl rfl rfl rfl)
    fun hi' => move_sound hi' hrun ?_ _
  · intro _ hc
    refine .inr ⟨?_, ?_⟩
    · simpa [Co.receive] using hc
    · simp [Co.receive, hdir]
  · intro i
    by_cases hi : i = q.idx
    · subst hi
      simp [Co.receive]
    · simp [Co.receive, hi]
  · intro i
    by_cases hi : i = q.idx
    · exact .inr ⟨hi, hdir⟩
    · simp [Co.receive, hi]
  · rw [State.setCo_cos_ne _ _ hh.ne.symm]
    exact hh.wait

theorem copyFrom_sound (hi : Inv s) (hrun : s.status k = .running) (hh : Holds s k q)
    (hdir : q.dir = .send) :
    Inv (s.copyFrom k q ((s.cos q.co).slots q.idx).item) ∧
      ∀ u, u ≠ .co k → Rely u s (s.copyFrom k q ((s.cos q.co).slots q.idx).item) := by
  refine sound_trans (serve_sound hi hh rfl (fun _ => rfl) rfl rfl rfl ?_ (fun _ => rfl)
    (fun _ => .inl rfl) rfl rfl rfl rfl rfl) fun hi' => move_sound hi' hrun ?_ _
  · intro _ hc
    exact .inr ⟨hc, by simp [Co.give, hdir]⟩
  · rw [State.setCo_cos_ne _ _ hh.ne.symm]
    exact hh.wait

theorem markClosed_sound (hi : Inv s) (hh : Holds s k q)
    (hopen : ((s.cos q.co).slots q.idx).openAt = true) :
    Inv (s.setCo q.co (Co.markClosed (.co k) q true)) ∧
      ∀ u, u ≠ .co k → Rely u s (s.setCo q.co (Co.markClosed (.co k) q true)) := by
  refine serve_sound (g := id) (f := Co.markClosed (.co k) q true) hi hh
    (by rw [State.setChan_id]) (fun _ => rfl) rfl rfl rfl ?_ ?_ ?_ rfl rfl rfl rfl rfl
  · intro hm _
    exact .inl ⟨by simp [Co.markClosed], by simpa [Co.markClosed] using hopen,
      by simp [Co.markClosed], hm⟩
  · intro i
    by_cases hi : i = q.idx
    · subst hi
      simp [Co.markClosed]
    · simp [Co.markClosed, hi]
  · intro i
    left
    by_cases hi : i = q.idx
    · subst hi
      simp [Co.markClosed]
    · simp [Co.markClosed, hi]

/-! ### Closing, and the buffer -/

/-- A change of a channel that keeps its queues and what is at hand. -/
theorem ChanInv.body (hi : Inv s) {g : Chan → Chan} (hlock : s.locks (.chan c) = some (.co k))
    (hque : (g (s.chans c)).que = (s.chans c).que)
    (hhand : (g (s.chans c)).inhand = (s.chans c).inhand)
    (hopen : (g (s.chans c)).close = false ∨ (g (s.chans c)).draining = true →
      (s.chans c).close = false ∨ (s.chans c).draining = true)
    (hempty : (s.chans c).held .recv ≠ [] → (s.chans c).buffer.contents = [] →
      (g (s.chans c)).buffer.contents = []) : ChanInv (s.setChan c g) c := by
  have hheld : ∀ dir, ((s.setChan c g).chans c).held dir = (s.chans c).held dir := by
    intro dir
    rw [s.setChan_chans_self]
    simp only [Chan.held, hque, hhand]
  refine (hi.chan c).sub (fun dir => by rw [hheld]) ?_ (fun _ => ⟨k, hlock⟩) ?_ ?_
    fun _ _ _ => .of_eq rfl
  · rw [s.setChan_chans_self, hhand]
    exact (hi.chan c).hand
  · intro q hq _ he
    rw [hheld] at hq
    rw [s.setChan_chans_self]
    exact hempty (List.ne_nil_of_mem hq) he
  · rw [s.setChan_chans_self]
    exact hopen

theorem startClose_sound (hi : Inv s) (hlock : s.locks (.chan c) = some (.co k))
    (hopen : (s.chans c).close = false) :
    Inv (s.setChan c Chan.startClose) ∧
      ∀ u, u ≠ .co k → Rely u s (s.setChan c Chan.startClose) :=
  chan_sound hi hlock (fun _ => rfl)
    (.body hi hlock rfl rfl (fun _ => .inl hopen) fun _ h => h)

theorem endClose_sound (hi : Inv s) (hlock : s.locks (.chan c) = some (.co k)) :
    Inv (s.setChan c Chan.endClose) ∧ ∀ u, u ≠ .co k → Rely u s (s.setChan c Chan.endClose) := by
  refine chan_sound hi hlock (fun h => h) (.body hi hlock rfl rfl ?_ fun _ h => h)
  rintro (h | h)
  · exact .inl h
  · cases h

theorem held_nil (hin : InSection s k c) {dir : Dir} (h : (s.chans c).que dir = []) :
    (s.chans c).held dir = [] := by
  rw [Chan.held_of_hand_none hin.hand, h]

theorem clean_sound (hi : Inv s) (hin : InSection s k c) (hque : (s.chans c).que .recv = []) :
    Inv (s.setChan c Chan.clean) ∧ ∀ u, u ≠ .co k → Rely u s (s.setChan c Chan.clean) :=
  chan_sound hi hin.lock (fun h => h)
    (.body hi hin.lock rfl rfl (fun h => h) fun h => absurd (held_nil hin hque) h)

theorem pushItem_sound (hi : Inv s) (hrun : s.status k = .running) (hin : InSection s k c)
    (hque : (s.chans c).que .recv = []) (x : Item) (b : Buffer) :
    Inv (s.pushItem k c x b) ∧ ∀ u, u ≠ .co k → Rely u s (s.pushItem k c x b) :=
  sound_trans (chan_sound hi hin.lock (fun h => h)
    (.body hi hin.lock rfl rfl (fun h => h) fun h => absurd (held_nil hin hque) h))
    fun hi' => move_sound hi' hrun hin.wait _

theorem popItem_sound (hi : Inv s) (hrun : s.status k = .running) (hin : InSection s k c)
    {x : Item} {b : Buffer} (hpop : (s.chans c).buffer.copyFromBuff = some (x, b)) :
    Inv (s.popItem k c x b) ∧ ∀ u, u ≠ .co k → Rely u s (s.popItem k c x b) := by
  refine sound_trans (chan_sound hi hin.lock (fun h => h)
    (.body hi hin.lock rfl rfl (fun h => h) ?_)) fun hi' => move_sound hi' hrun hin.wait _
  intro _ he
  rw [Buffer.copyFromBuff_contents hpop] at he
  cases he

/-! ### Queueing a quantum -/

/-- The wait a coroutine is building up, before `q` is added to it. -/
def Building (s : State) (k : Coid) (q : Quantum) (qs : List Quantum) : Prop :=
  ((s.cos k).wait = none ∧ qs = [] ∧ q.idx = 0) ∨
  ((s.cos k).wait = some ⟨.chans qs, .idle⟩ ∧ q.idx = qs.length ∧
    q.chan ∉ qs.map Quantum.chan ∧ q.select = true ∧ ∀ q' ∈ qs, q'.select = true)

theorem Building.extend {qs : List Quantum} (h : Building s k q qs) :
    Wait.extend q (s.cos k).wait = ⟨.chans (qs ++ [q]), .idle⟩ := by
  rcases h with ⟨hw, rfl, -⟩ | ⟨hw, -⟩
  · rw [hw]
    rfl
  · rw [hw]
    rfl

theorem Building.siteOk {qs : List Quantum} (h : Building s k q qs) (hi : CoInv s k)
    (hk : q.co = k) : SiteOk k (.chans (qs ++ [q])) := by
  rcases h with ⟨-, rfl, hidx⟩ | ⟨hw, hidx, hchan, hsel, hall⟩
  · refine ⟨?_, ?_, ?_, ?_, ?_, ?_⟩
    · rintro qs ⟨⟩
      exact List.cons_ne_nil _ _
    · simpa [Site.quanta] using hk
    · simp [Site.quanta]
    · simp [Site.quanta, hidx]
    · simp [Site.quanta]
    · cases hs : q.select with
      | true => exact .inl (by simpa [Site.quanta] using hs)
      | false => exact .inr ⟨q, rfl, hs⟩
  · have hsite := hi.site _ hw
    refine ⟨?_, ?_, ?_, ?_, ?_, ?_⟩
    · rintro qs' ⟨⟩
      simp
    · intro q' hq'
      rcases List.mem_append.mp hq' with hq' | hq'
      · exact hsite.own q' hq'
      · rw [List.mem_singleton.mp hq']
        exact hk
    · simp only [Site.quanta, List.map_append, List.map_cons, List.map_nil]
      rw [List.nodup_append]
      refine ⟨hsite.chans, by simp, fun a ha b hb => ?_⟩
      rw [List.mem_singleton.mp hb]
      rintro rfl
      exact hchan ha
    · intro q' hq'
      simp only [Site.quanta, List.length_append, List.length_cons, List.length_nil]
      rcases List.mem_append.mp hq' with hq' | hq'
      · have := hsite.idx_lt q' hq'
        simp only [Site.quanta] at this
        omega
      · rw [List.mem_singleton.mp hq', hidx]
        omega
    · intro q₁ h₁ q₂ h₂ he
      rcases List.mem_append.mp h₁ with h₁ | h₁ <;> rcases List.mem_append.mp h₂ with h₂ | h₂
      · exact hsite.idx_inj q₁ h₁ q₂ h₂ he
      · have := hsite.idx_lt q₁ h₁
        rw [List.mem_singleton.mp h₂, hidx] at he
        exact absurd he (Nat.ne_of_lt this)
      · have := hsite.idx_lt q₂ h₂
        rw [List.mem_singleton.mp h₁, hidx] at he
        exact absurd he.symm (Nat.ne_of_lt this)
      · rw [List.mem_singleton.mp h₁, List.mem_singleton.mp h₂]
    · left
      intro q' hq'
      rcases List.mem_append.mp hq' with hq' | hq'
      · exact hall q' hq'
      · rw [List.mem_singleton.mp hq']
        exact hsel

/-- The quanta already queued have lower places. -/
theorem Building.idx_ne {qs : List Quantum} (h : Building s k q qs) (hi : CoInv s k)
    {q' : Quantum} (hq' : q' ∈ qs) : q'.idx ≠ q.idx := by
  rcases h with ⟨-, rfl, -⟩ | ⟨hw, hidx, -⟩
  · cases hq'
  · rw [hidx]
    exact Nat.ne_of_lt ((hi.site _ hw).idx_lt q' hq')

theorem Building.of_in {qs : List Quantum} (h : Building s k q qs) {q' : Quantum}
    (hin : q'.In (s.cos k)) : q' ∈ qs ∧ (s.cos k).wait = some ⟨.chans qs, .idle⟩ := by
  obtain ⟨w, hw, hm, -⟩ := hin
  rcases h with ⟨hn, -⟩ | ⟨hw', -⟩
  · exact nomatch hn.symm.trans hw
  · rw [hw'] at hw
    cases hw
    exact ⟨hm, hw'⟩

/-- Quanta queued before stay in the wait that grows. -/
theorem Building.keeps {qs : List Quantum} (h : Building s k q qs) (hi : CoInv s k) (x : Item)
    (b : Bool) (q' : Quantum) : q'.Keeps (s.cos k) ((s.cos k).post q x b) := by
  intro hin
  obtain ⟨hm, hw⟩ := h.of_in hin
  have hw' : ((s.cos k).post q x b).wait = some ⟨.chans (qs ++ [q]), .idle⟩ := by
    simp only [Co.post, h.extend]
  refine ⟨⟨_, hw', List.mem_append_left _ hm, fun _ => rfl⟩, fun _ => ⟨_, hw, rfl⟩, ?_⟩
  simp [Co.post, h.idx_ne hi hm]

theorem Chan.held_add (ch : Chan) (q : Quantum) (dir : Dir) :
    (ch.add q).held dir = ch.held dir ++ if dir = q.dir then [q] else [] := by
  unfold Chan.held Chan.add
  by_cases hd : dir = q.dir
  · subst hd
    simp
  · simp [hd]

theorem enqueue_sound (hi : Inv s) (hrun : s.status k = .running) (hk : q.co = k)
    (hlock : s.locks (.chan q.chan) = some (.co k)) (hmoved : (s.cos k).moved = [])
    (htag : (s.cos k).qtag = none) (hdrain : (s.chans q.chan).draining = false)
    {qs : List Quantum} (hb : Building s k q qs)
    (hempty : q.dir = .recv → (s.chans q.chan).buffer.contents = []) (x : Item) :
    Inv (s.enqueue q x) ∧ ∀ u, u ≠ .co k → Rely u s (s.enqueue q x) := by
  generalize hs' : s.enqueue q x = s'
  have hs'' : s' = (s.setChan q.chan (Chan.add q)).setCo k
      (Co.post q x (!(s.chans q.chan).close)) := by
    rw [← hs', ← hk]
    rfl
  have hself : s'.cos k = (s.cos k).post q x (!(s.chans q.chan).close) := by
    rw [hs'', State.setCo_cos_self, State.setChan_cos]
  have hcos : ∀ j, j ≠ k → s'.cos j = s.cos j := fun j hj => by
    rw [hs'', State.setCo_cos_ne _ _ hj, State.setChan_cos]
  have hchc : s'.chans q.chan = (s.chans q.chan).add q := by
    rw [hs'', State.setCo_chans, State.setChan_chans_self]
  have hchans : ∀ c', c' ≠ q.chan → s'.chans c' = s.chans c' := fun c' hc => by
    rw [hs'', State.setCo_chans, State.setChan_chans_ne _ _ hc]
  have hw' : (s'.cos k).wait = some ⟨.chans (qs ++ [q]), .idle⟩ := by
    rw [hself]
    simp only [Co.post, hb.extend]
  have hkeeps : ∀ q' : Quantum, q'.Keeps (s.cos q'.co) (s'.cos q'.co) := by
    intro q'
    by_cases hq' : q'.co = k
    · rw [hq', hself]
      exact hb.keeps (hi.co k) _ _ q'
    · exact .of_eq (hcos _ hq')
  have hch : Change (.co k) s s' := by
    refine ⟨by rw [hs'']; rfl, by rw [hs'']; rfl, by rw [hs'']; rfl, by rw [hs'']; rfl,
      by rw [hs'']; rfl, by rw [hs'']; rfl, fun c' => ?_, fun c' h => ?_, fun j => ?_⟩
    · by_cases hc : c' = q.chan
      · exact .inr (by rw [hc]; exact hlock)
      · exact .inl (hchans c' hc)
    · by_cases hc : c' = q.chan
      · subst hc
        rw [hchc]
        exact h
      · rw [hchans c' hc]
        exact h
    · by_cases hj : j = k
      · subst hj
        refine .own hrun (by rw [hself]; rfl) ?_
        rintro u ⟨w, hw, hp⟩
        rw [hw'] at hw
        cases hw
        exact Phase.not_by_idle hp
      · exact .inl (hcos j hj)
  refine ⟨hch.inv hi ?_ ?_ ?_ ?_, fun u hu => hch.rely hi hu⟩
  · refine KeepsIdle.of_changes fun p => ?_
    by_cases hp : p = k
    · subst hp
      rcases hb with ⟨hn, -⟩ | ⟨hw, -⟩
      · exact .inr (.inl hn)
      · exact .inr (.inr (.inl ⟨_, hw, .inl ((hi.co p).site _ hw |>.ne _ rfl)⟩))
    · exact .inl (hcos p hp)
  · intro j hj
    refine hcos j ?_
    rintro rfl
    exact Nat.not_lt.mpr hj (hi.lt_fresh (by rw [hrun]; nofun))
  · intro j
    by_cases hj : j = k
    · subst hj
      refine .inr (.of_wait_some hw' (hb.siteOk (hi.co j) hk) ⟨.inl ⟨?_, ?_⟩, nofun, ?_, ?_, ?_⟩)
      · rw [hs'']
        exact hrun
      · -- the locks of the quanta queued before are still held
        intro l hl
        obtain ⟨q', hq', rfl⟩ := List.mem_map.mp hl
        rw [hch.locks]
        rcases List.mem_append.mp hq' with hq' | hq'
        · rcases hb with ⟨-, rfl, -⟩ | ⟨hw, -⟩
          · cases hq'
          · have hphase := (hi.co j).phase _ hw
            rcases hphase.1 with ⟨-, hlk⟩ | ⟨hsav, -⟩ | hwait
            · have hm : q' ∈ (Site.chans qs).quanta := hq'
              exact hlk _ (Quantum.lock_mem hm)
            · rw [hrun] at hsav
              cases hsav
            · rw [hrun] at hwait
              cases hwait
        · rw [List.mem_singleton.mp hq']
          exact hlock
      · rw [hself]
        exact htag
      · rw [hself]
        exact hmoved
      · intro q' hq'
        rw [hself]
        rcases List.mem_append.mp hq' with hq' | hq'
        · rcases hb with ⟨-, rfl, -⟩ | ⟨hw, hrest⟩
          · cases hq'
          · have hne := Building.idx_ne (.inr ⟨hw, hrest⟩) (hi.co j) hq'
            simp only [Co.post, Function.update_of_ne hne]
            exact ((hi.co j).phase _ hw).2.2.2.2 q' hq'
        · rw [List.mem_singleton.mp hq']
          simp [Co.post]
    · exact .inl (hcos j hj)
  · intro c'
    by_cases hc : c' = q.chan
    · subst hc
      have hh := hi.chan q.chan
      have hheld : ∀ dir, (s'.chans q.chan).held dir =
          (s.chans q.chan).held dir ++ if dir = q.dir then [q] else [] := by
        intro dir
        rw [hchc, Chan.held_add]
      have hcase : ∀ dir, ∀ q' ∈ (s'.chans q.chan).held dir,
          q' ∈ (s.chans q.chan).held dir ∨ (q' = q ∧ dir = q.dir) := by
        intro dir q' hq'
        rw [hheld] at hq'
        rcases List.mem_append.mp hq' with hq' | hq'
        · exact .inl hq'
        · split at hq'
          · rename_i hd
            exact .inr ⟨List.mem_singleton.mp hq', hd⟩
          · cases hq'
      have hnew : q ∉ (s.chans q.chan).held q.dir := by
        intro hq'
        have hin := hh.in_ _ q hq'
        rw [hk] at hin
        obtain ⟨hm, -⟩ := hb.of_in hin
        exact hb.idx_ne (hi.co k) hm rfl
      refine ⟨?_, ?_, ?_, ?_, ?_, ?_, ?_⟩
      · intro dir q' hq'
        rcases hcase dir q' hq' with h | ⟨rfl, rfl⟩
        · exact hh.at_ dir q' h
        · exact ⟨rfl, rfl⟩
      · intro dir q' hq'
        rcases hcase dir q' hq' with h | ⟨rfl, rfl⟩
        · exact (hkeeps q' (hh.in_ dir q' h)).1
        · rw [hk]
          exact ⟨_, hw', List.mem_append_right _ (List.mem_singleton.mpr rfl), fun _ => rfl⟩
      · intro dir
        rw [hheld]
        split
        · rename_i hd
          subst hd
          rw [List.nodup_append]
          refine ⟨hh.nodup _, by simp, fun a ha b hb => ?_⟩
          rw [List.mem_singleton.mp hb]
          rintro rfl
          exact hnew ha
        · rw [List.append_nil]
          exact hh.nodup dir
      · rw [hchc]
        exact hh.hand
      · rw [hs'']
        exact fun _ => ⟨k, hlock⟩
      · intro q' hq' hun
        rw [hchc]
        rcases hcase .recv q' hq' with h | ⟨rfl, hd⟩
        · exact hh.empty q' h ((hkeeps q' (hh.in_ _ q' h)).2.1 hun)
        · exact hempty hd.symm
      · intro dir q' hq' ho
        rw [hchc] at ho
        rcases hcase dir q' hq' with h | ⟨rfl, hd⟩
        · rw [(hkeeps q' (hh.in_ _ q' h)).2.2]
          exact hh.openAt dir q' h ho
        · rw [hk, hself]
          rcases ho with ho | ho
          · change (s.chans q'.chan).close = false at ho
            simp [Co.post, ho]
          · change (s.chans q'.chan).draining = true at ho
            rw [hdrain] at ho
            cases ho
    · exact (hi.chan c').frame (hchans c' hc) (fun k _ h => ⟨k, by rw [hs'']; exact h⟩)
        fun dir q' _ => hkeeps q'

/-! ### Leaving a wait -/

/-- The running coroutine leaves a wait none of whose quanta is queued any more. -/
theorem leave_sound (hi : Inv s) (hrun : s.status k = .running) {f : Co → Co}
    (hf : (f (s.cos k)).wait = none ∧ (f (s.cos k)).qtag = none ∧
      (f (s.cos k)).role = (s.cos k).role)
    (hw : ∀ w, (s.cos k).wait = some w → w.site.quanta ≠ [] ∨ w.phase ≠ .idle)
    (hgone : ∀ c dir, ∀ q ∈ (s.chans c).held dir, q.co ≠ k) :
    Inv (s.setCo k f) ∧ ∀ u, u ≠ .co k → Rely u s (s.setCo k f) := by
  have hco : ∀ j, j ≠ k → (s.setCo k f).cos j = s.cos j := fun j hj => s.setCo_cos_ne f hj
  have hwait : ((s.setCo k f).cos k).wait = none := by
    rw [s.setCo_cos_self]
    exact hf.1
  have hch : Change (.co k) s (s.setCo k f) := by
    refine ⟨rfl, rfl, rfl, rfl, rfl, rfl, fun c => .inl rfl, fun c h => h, fun j => ?_⟩
    by_cases hj : j = k
    · subst hj
      exact .own hrun (by rw [s.setCo_cos_self, hf.2.2]) fun u => not_claimed_of_wait_none hwait
    · exact .inl (hco j hj)
  refine ⟨hch.inv hi ?_ ?_ ?_ ?_, fun u hu => hch.rely hi hu⟩
  · refine KeepsIdle.of_changes fun p => ?_
    by_cases hp : p = k
    · subst hp
      cases hwp : (s.cos p).wait with
      | none => exact .inr (.inl rfl)
      | some w => exact .inr (.inr (.inl ⟨w, rfl, hw w hwp⟩))
    · exact .inl (hco p hp)
  · intro j hj
    refine hco j ?_
    rintro rfl
    exact Nat.not_lt.mpr hj (hi.lt_fresh (by rw [hrun]; nofun))
  · intro j
    by_cases hj : j = k
    · subst hj
      exact .inr (.of_wait_none hwait (by rw [s.setCo_cos_self]; exact hf.2.1) hrun)
    · exact .inl (hco j hj)
  · exact fun c => (hi.chan c).frame rfl (fun k _ hk => ⟨k, hk⟩) fun dir q hq =>
      .of_eq (hco _ (hgone c dir q hq))

/-- A woken coroutine whose wait is not a select's has no quantum queued. -/
theorem Inv.woken_plain (hi : Inv s) {qs : List Quantum} {q' : Quantum}
    (hw : (s.cos k).wait = some ⟨.chans qs, .woken q'⟩) (hq : q ∈ qs) (hsel : q.select = false)
    (c : ChanId) (dir : Dir) (r : Quantum) (hr : r ∈ (s.chans c).held dir) : r.co ≠ k := by
  rintro rfl
  obtain ⟨w, hw', hm, hplain⟩ := (hi.chan c).in_ dir r hr
  rw [hw] at hw'
  cases hw'
  have hrq := ((hi.co r.co).site _ hw).plain_unique (q := q) hq hm hsel
  subst hrq
  cases hplain hsel

theorem look_sound (hi : Inv s) (hrun : s.status k = .running) {qs : List Quantum} {q' : Quantum}
    (hw : (s.cos k).wait = some ⟨.chans qs, .woken q'⟩) (hq : q ∈ qs) :
    Inv (s.setCo k (Co.look q)) ∧ ∀ u, u ≠ .co k → Rely u s (s.setCo k (Co.look q)) := by
  cases hsel : q.select with
  | true =>
    have hid : s.setCo k (Co.look q) = s := by
      have : (s.cos k).look q = s.cos k := by simp [Co.look, Wait.look, hsel]
      simp only [State.setCo, this, Function.update_eq_self]
    rw [hid]
    exact ⟨hi, fun u _ => Rely.refl u s⟩
  | false =>
    have hphase := (hi.co k).phase _ hw
    have hq' : q' = q := ((hi.co k).site _ hw).plain_unique (q := q) hq hphase.2.1 hsel
    refine leave_sound hi hrun ⟨by simp [Co.look, Wait.look, hsel], ?_, rfl⟩ ?_
      (hi.woken_plain hw hq hsel)
    · change (s.cos k).qtag = none
      rw [hphase.2.2.1, hq']
      simp [Quantum.tag, hsel]
    · intro w hw'
      rw [hw] at hw'
      cases hw'
      exact .inr nofun

theorem clearTag_sound (hi : Inv s) (hrun : s.status k = .running)
    (h : (s.cos k).wait = none ∨ ∃ qs q', (s.cos k).wait = some ⟨.chans qs, .woken q'⟩ ∧
      ∀ q ∈ qs, s.locks (.chan q.chan) = some (.co k) ∧ (s.chans q.chan).inhand = none ∧
        q ∉ (s.chans q.chan).que q.dir) :
    Inv (s.setCo k Co.clearTag) ∧ ∀ u, u ≠ .co k → Rely u s (s.setCo k Co.clearTag) := by
  refine leave_sound hi hrun ⟨rfl, rfl, rfl⟩ ?_ ?_
  · intro w hw
    rcases h with hn | ⟨qs, q', hw', -⟩
    · exact nomatch hn.symm.trans hw
    · rw [hw] at hw'
      cases hw'
      exact .inr nofun
  · rintro c dir r hr rfl
    obtain ⟨w, hw, hm, -⟩ := (hi.chan c).in_ dir r hr
    rcases h with hn | ⟨qs, q', hw', hall⟩
    · exact nomatch hn.symm.trans hw
    · rw [hw] at hw'
      cases hw'
      obtain ⟨-, hhand, hnot⟩ := hall r hm
      obtain ⟨rfl, rfl⟩ := (hi.chan c).at_ dir r hr
      rw [Chan.held_of_hand_none hhand] at hr
      exact hnot hr

theorem extract_sound (hi : Inv s) (hlock : s.locks (.chan q.chan) = some (.co k)) :
    Inv (s.setChan q.chan (Chan.extract q)) ∧
      ∀ u, u ≠ .co k → Rely u s (s.setChan q.chan (Chan.extract q)) := by
  refine chan_sound hi hlock (fun h => h) ((hi.chan q.chan).sub ?_ ?_ (fun _ => ⟨k, hlock⟩) ?_ ?_
    fun _ _ _ => .of_eq rfl)
  · intro dir
    rw [s.setChan_chans_self]
    refine List.Sublist.append (List.Sublist.refl _) ?_
    by_cases hd : dir = q.dir
    · subst hd
      simp only [Chan.extract, Function.update_self]
      exact List.erase_sublist
    · simp [Chan.extract, hd]
  · rw [s.setChan_chans_self]
    exact (hi.chan q.chan).hand
  · rw [s.setChan_chans_self]
    exact fun _ _ _ h => h
  · rw [s.setChan_chans_self]
    exact fun h => h

/-! ### All of them -/

/-- **The channel commands are sound.** -/
theorem execChan_sound {cmd : ChanCmd} {r : cmd.Res} (hi : Inv s) (hact : s.active t = true)
    (ha : AllowedChan t s cmd) (he : execChan t s cmd = some (r, s')) :
    Inv s' ∧ ∀ u, u ≠ t → Rely u s s' := by
  have hrun : ∀ k, t = .co k → s.status k = .running := by
    rintro k rfl
    simpa [State.active] using hact
  cases cmd with
  | begin c =>
    obtain ⟨k, rfl, hw⟩ := ha
    cases he
    exact own_sound hi (hrun k rfl) hw fun _ => ⟨rfl, rfl, rfl⟩
  | queueRem c dir =>
    obtain ⟨k, rfl, hin⟩ := ha
    simp only [execChan] at he
    split at he
    · cases he
      exact ⟨hi, fun u _ => Rely.refl u s⟩
    · rename_i q rest hq
      cases he
      cases hsel : q.select with
      | true =>
        simp only [State.popQuantum, hsel, if_true]
        exact popSelect_sound hi hin hq hsel
      | false =>
        simp only [State.popQuantum, hsel, Bool.false_eq_true, if_false]
        exact popPlain_sound hi hin hq hsel rfl
  | casTag q =>
    obtain ⟨k, rfl, hlock, hw, hhand⟩ := ha
    simp only [execChan] at he
    split at he
    · rename_i htag
      cases he
      exact claimTag_sound hi hlock hw hhand htag
    · cases he
      exact drop_sound hi hlock
  | copyTo q x =>
    obtain ⟨k, rfl, -, hh, hdir, -⟩ := ha
    cases he
    exact copyTo_sound hi (hrun k rfl) hh hdir x
  | copyFrom q =>
    obtain ⟨k, rfl, -, hh, hdir, -⟩ := ha
    cases he
    exact copyFrom_sound hi (hrun k rfl) hh hdir
  | markClosed q =>
    obtain ⟨k, rfl, hh, hopen, hclose, -⟩ := ha
    cases he
    rw [hclose]
    exact markClosed_sound hi hh hopen
  | readClose c =>
    cases he
    exact ⟨hi, fun u _ => Rely.refl u s⟩
  | setClose c =>
    obtain ⟨k, rfl, hin, hopen, -⟩ := ha
    cases he
    exact startClose_sound hi hin.lock hopen
  | readIsref c =>
    obtain ⟨k, rfl, hin, -⟩ := ha
    cases he
    exact endClose_sound hi hin.lock
  | cleanBuff c =>
    obtain ⟨k, rfl, hin, hque, -⟩ := ha
    cases he
    exact clean_sound hi hin (hque .recv)
  | copyToBuff c x =>
    obtain ⟨k, rfl, -, hin, hque, -⟩ := ha
    simp only [execChan] at he
    split at he
    · cases he
      exact ⟨hi, fun u _ => Rely.refl u s⟩
    · cases he
      exact pushItem_sound hi (hrun k rfl) hin hque x _
  | copyFromBuff c =>
    obtain ⟨k, rfl, -, hin⟩ := ha
    simp only [execChan] at he
    split at he
    · cases he
      exact ⟨hi, fun u _ => Rely.refl u s⟩
    · rename_i x b hpop
      cases he
      exact popItem_sound hi (hrun k rfl) hin hpop
  | queueAdd q x =>
    obtain ⟨k, rfl, hk, hlock, hmoved, htag, -, hdrain, hb, -, hdir⟩ := ha
    cases he
    have hempty : q.dir = .recv → (s.chans q.chan).buffer.contents = [] := by
      intro hd
      simp only [hd] at hdir
      exact hdir.2
    have hb' : ∃ qs, Building s k q qs := by
      rcases hb with ⟨hw, hidx⟩ | ⟨qs, hb⟩
      · exact ⟨[], .inl ⟨hw, rfl, hidx⟩⟩
      · exact ⟨qs, .inr hb⟩
    obtain ⟨qs, hb'⟩ := hb'
    exact enqueue_sound hi (hrun k rfl) hk hlock hmoved htag hdrain hb' hempty x
  | readQuantum q =>
    obtain ⟨k, qs, q', rfl, hw, hq, -⟩ := ha
    cases he
    exact look_sound hi (hrun k rfl) hw hq
  | readTag =>
    obtain ⟨k, rfl⟩ := ha
    cases he
    exact ⟨hi, fun u _ => Rely.refl u s⟩
  | clearTag =>
    obtain ⟨k, rfl, h⟩ := ha
    cases he
    exact clearTag_sound hi (hrun k rfl) h
  | queueExtract q =>
    obtain ⟨k, qs, q', rfl, -, -, hlock⟩ := ha
    cases he
    exact extract_sound hi hlock
  | record e =>
    obtain ⟨k, rfl, hw, -⟩ := ha
    cases he
    exact own_sound hi (hrun k rfl) hw fun _ => ⟨rfl, rfl, rfl⟩

end Coroc.Runtime
