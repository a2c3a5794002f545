import Coroc.Runtime.Records

/-!
# Who waits at a channel

A quantum is a *waiter* of a channel while the channel holds it and nobody has claimed its
wait.  In the words of the source: it is not a select's, or the `qtag` of its coroutine is
`NULL` (`Inv.unclaimed_iff`).

`Calm` is what a command does to the waiters: none is added, and the ones that are taken away
are claimed.  Only `queue_add` adds one, and only `coroc_chan_close` changes the marks of a
channel (`exec_calm`).
-/

namespace Coroc.Runtime

open Coroc.Program Coroc.Transition

variable {s s' : State} {t : Tid} {j k : Coid} {c : ChanId} {dir : Dir} {q : Quantum}

/-- Not a select's quantum, or one whose coroutine's `qtag` is `NULL`. -/
def State.Unclaimed (s : State) (q : Quantum) : Prop :=
  q.select = false ∨ (s.cos q.co).qtag = none

instance (s : State) (q : Quantum) : Decidable (s.Unclaimed q) :=
  inferInstanceAs (Decidable (_ ∨ _))

structure State.Waiter (s : State) (c : ChanId) (dir : Dir) (q : Quantum) : Prop where
  held : q ∈ (s.chans c).held dir
  idle : (s.cos q.co).unclaimed

theorem Chan.mem_held {ch : Chan} (h : q ∈ ch.que dir) : q ∈ ch.held dir :=
  List.mem_append_right _ h

theorem Inv.unclaimed_iff (hi : Inv s) (hq : q ∈ (s.chans c).held dir) :
    s.Unclaimed q ↔ (s.cos q.co).unclaimed := by
  obtain ⟨w, hw, hmem, hplain⟩ := (hi.chan c).in_ dir q hq
  constructor
  · intro h
    refine ⟨w, hw, ?_⟩
    cases hsel : q.select with
    | false => exact hplain hsel
    | true =>
      rcases h with h | h
      · exact nomatch hsel.symm.trans h
      · exact (hi.co q.co).idle_of_tag_none hw hmem hsel h
  · rintro ⟨w', hw', hidle⟩
    exact .inr (((hi.co q.co).phase w' hw').tag_none hidle)

theorem Inv.waiter (hi : Inv s) (hq : q ∈ (s.chans c).que dir) (h : s.Unclaimed q) :
    s.Waiter c dir q :=
  ⟨Chan.mem_held hq, (hi.unclaimed_iff (Chan.mem_held hq)).mp h⟩

/-! ### What a command does to the waiters -/

/-- A wait is unclaimed from its beginning on, if at all, and is not claimed by this step. -/
structure Co.Calm (co co' : Co) : Prop where
  idle : ∀ site, co'.wait = some ⟨site, .idle⟩ →
    co.wait = some ⟨site, .idle⟩ ∨ (co.wait = none ∧ site.quanta = [])
  taken : ∀ site t q, co'.wait = some ⟨site, .taken t q⟩ → co.wait = some ⟨site, .taken t q⟩

theorem Co.Calm.of_eq {co co' : Co} (h : co'.wait = co.wait) : co.Calm co' :=
  ⟨fun _ hw => .inl (h.symm.trans hw), fun _ _ _ hw => h.symm.trans hw⟩

theorem Co.Calm.refl (co : Co) : co.Calm co := .of_eq rfl

theorem Co.Calm.of_none {co co' : Co} (h : co'.wait = none) : co.Calm co' :=
  ⟨fun _ hw => (nomatch h.symm.trans hw), fun _ _ _ hw => (nomatch h.symm.trans hw)⟩

theorem Co.Calm.of_served {co co' : Co} {w : Wait} (h : co'.wait = some w) {u : Tid}
    {o : Option Quantum} (hp : w.phase = .served u o) : co.Calm co' := by
  constructor
  · intro site hw
    obtain rfl := Option.some.inj (h.symm.trans hw)
    exact nomatch hp
  · intro site t q hw
    obtain rfl := Option.some.inj (h.symm.trans hw)
    exact nomatch hp

/-- The wait, if there is one, is served. -/
theorem Co.Calm.of_map {co co' : Co} {f : Wait → Wait} (h : co'.wait = co.wait.map f) {u : Tid}
    {o : Option Quantum} (hf : ∀ w, (f w).phase = .served u o) : co.Calm co' := by
  cases hw : co.wait with
  | none =>
    rw [hw] at h
    exact .of_none h
  | some w =>
    rw [hw] at h
    exact .of_served h (hf w)

theorem Co.Calm.wake (co : Co) : co.Calm co.wake := by
  have hphase : ∀ w', co.wake.wait = some w' → ∃ q, w'.phase = .woken q := by
    intro w' hw'
    obtain ⟨w, -, hwake⟩ := Option.bind_eq_some_iff.mp hw'
    unfold Wait.wake at hwake
    split at hwake
    · cases hwake
      exact ⟨_, rfl⟩
    · cases hwake
  constructor
  · intro site hw
    obtain ⟨q, hq⟩ := hphase _ hw
    exact nomatch hq
  · intro site t q hw
    obtain ⟨q, hq⟩ := hphase _ hw
    exact nomatch hq

/-- A coroutine that was in no wait begins one outside the channels. -/
theorem Co.Calm.publish {co : Co} {site : Site} (h : co.wait = none) (hs : site.quanta = []) :
    co.Calm (co.publish site) := by
  constructor
  · intro site' hw
    obtain ⟨rfl, -⟩ := Wait.mk.inj (Option.some.inj hw)
    exact .inr ⟨h, hs⟩
  · intro site' t q hw
    exact nomatch (Wait.mk.inj (Option.some.inj hw)).2

theorem Co.Calm.look (q : Quantum) (co : Co) : co.Calm (co.look q) := by
  by_cases hs : q.select = true
  · exact .of_eq (if_pos hs)
  · exact .of_none (if_neg hs)

/-- No waiter is added, and the ones taken away are claimed. -/
structure Calm (s s' : State) : Prop where
  held : ∀ c dir q, q ∈ (s'.chans c).held dir → q ∈ (s.chans c).held dir
  stays : ∀ c dir q, q ∈ (s.chans c).held dir → (s'.cos q.co).unclaimed →
    q ∈ (s'.chans c).held dir
  idle : ∀ j site, (s'.cos j).wait = some ⟨site, .idle⟩ →
    (s.cos j).wait = some ⟨site, .idle⟩ ∨ ((s.cos j).wait = none ∧ site.quanta = [])
  taken : ∀ j site t q, (s'.cos j).wait = some ⟨site, .taken t q⟩ →
    (s.cos j).wait = some ⟨site, .taken t q⟩ ∨ s.Waiter q.chan q.dir q
  close : ∀ c, (s'.chans c).close = (s.chans c).close
  draining : ∀ c, (s'.chans c).draining = (s.chans c).draining

/-- The quanta and the marks of a channel. -/
structure Chan.Calm (ch ch' : Chan) : Prop where
  held : ∀ dir, ch'.held dir = ch.held dir
  close : ch'.close = ch.close
  draining : ch'.draining = ch.draining

theorem Chan.Calm.refl (ch : Chan) : ch.Calm ch := ⟨fun _ => rfl, rfl, rfl⟩

theorem Calm.of (hcos : ∀ j, (s.cos j).Calm (s'.cos j)) (hchans : ∀ c, (s.chans c).Calm (s'.chans c)) :
    Calm s s' where
  held := fun c dir _ hq => (hchans c).held dir ▸ hq
  stays := fun c dir _ hq _ => ((hchans c).held dir).symm ▸ hq
  idle := fun j => (hcos j).idle
  taken := fun j site t q hw => .inl ((hcos j).taken site t q hw)
  close := fun c => (hchans c).close
  draining := fun c => (hchans c).draining

theorem Calm.of_eq (hcos : s'.cos = s.cos) (hchans : s'.chans = s.chans) : Calm s s' := by
  refine .of (fun j => ?_) fun c => ?_
  · rw [hcos]
    exact .refl _
  · rw [hchans]
    exact .refl _

theorem Calm.refl (s : State) : Calm s s := .of_eq rfl rfl

theorem Calm.of_chans (hcos : ∀ j, (s.cos j).Calm (s'.cos j)) (hchans : s'.chans = s.chans) :
    Calm s s' := by
  refine .of hcos fun c => ?_
  rw [hchans]
  exact .refl _

theorem setCo_calm {f : Co → Co} (hf : (s.cos k).Calm (f (s.cos k))) (j : Coid) :
    (s.cos j).Calm ((s.setCo k f).cos j) := by
  by_cases hj : j = k
  · subst hj
    rw [State.setCo_cos_self]
    exact hf
  · rw [State.setCo_cos_ne _ _ hj]
    exact .refl _

theorem setChan_calm {f : Chan → Chan} (hf : (s.chans c).Calm (f (s.chans c))) (c' : ChanId) :
    (s.chans c').Calm ((s.setChan c f).chans c') := by
  by_cases hc : c' = c
  · subst hc
    rw [State.setChan_chans_self]
    exact hf
  · rw [State.setChan_chans_ne _ _ hc]
    exact .refl _

theorem Calm.setCo {f : Co → Co} (hf : (s.cos k).Calm (f (s.cos k))) : Calm s (s.setCo k f) :=
  .of_chans (setCo_calm hf) rfl

theorem Calm.setChan {f : Chan → Chan} (hf : (s.chans c).Calm (f (s.chans c))) :
    Calm s (s.setChan c f) :=
  .of (fun _ => .refl _) (setChan_calm hf)

/-! ### Taking quanta out of the queues -/

theorem Co.not_unclaimed {co : Co} {w : Wait} (hw : co.wait = some w) (hp : w.phase ≠ .idle) :
    ¬ co.unclaimed := by
  rintro ⟨w', hw', hidle⟩
  obtain rfl := Option.some.inj (hw.symm.trans hw')
  exact hp hidle

/-- The channel loses nothing but the quantum `q`. -/
structure Chan.Loses (q : Quantum) (ch ch' : Chan) : Prop where
  held : ∀ dir q', q' ∈ ch'.held dir → q' ∈ ch.held dir
  stays : ∀ dir q', q' ∈ ch.held dir → q' ≠ q → q' ∈ ch'.held dir
  close : ch'.close = ch.close
  draining : ch'.draining = ch.draining

theorem setChan_loses {g : Chan → Chan} (hg : (s.chans c).Loses q (g (s.chans c))) (c' : ChanId) :
    (s.chans c').Loses q ((s.setChan c g).chans c') := by
  by_cases hc : c' = c
  · subst hc
    rw [State.setChan_chans_self]
    exact hg
  · rw [State.setChan_chans_ne _ _ hc]
    exact ⟨fun _ _ h => h, fun _ _ h _ => h, rfl, rfl⟩

/-- A quantum whose wait is claimed already is taken out of the channel. -/
theorem Calm.remove {g : Chan → Chan} (hq : ¬ (s.cos q.co).unclaimed)
    (hg : (s.chans c).Loses q (g (s.chans c))) : Calm s (s.setChan c g) := by
  have hloses := setChan_loses hg
  refine ⟨fun c' => (hloses c').held, fun c' dir q' hq' hidle => ?_, fun _ _ hw => .inl hw,
    fun _ _ _ _ hw => .inl hw, fun c' => (hloses c').close, fun c' => (hloses c').draining⟩
  refine (hloses c').stays dir q' hq' ?_
  rintro rfl
  exact hq hidle

/-- A waiting quantum is taken out of the channel and its wait claimed. -/
theorem Calm.claim {g : Chan → Chan} {f : Co → Co} (hq : s.Waiter q.chan q.dir q)
    (hg : (s.chans q.chan).Loses q (g (s.chans q.chan)))
    (hf : ∀ co : Co, (f co).wait = co.wait.map (Wait.claim t q)) :
    Calm s ((s.setChan q.chan g).setCo q.co f) := by
  have hloses := setChan_loses hg
  have hself : ((s.setChan q.chan g).setCo q.co f).cos q.co = f (s.cos q.co) := by
    rw [State.setCo_cos_self]
    rfl
  have hcos : ∀ j, j ≠ q.co → ((s.setChan q.chan g).setCo q.co f).cos j = s.cos j := fun j hj => by
    rw [State.setCo_cos_ne _ _ hj]
    rfl
  obtain ⟨w, hw, -⟩ := hq.idle
  have hw' : (f (s.cos q.co)).wait = some (w.claim t q) := by
    rw [hf, hw]
    rfl
  have hclaimed : ¬ (f (s.cos q.co)).unclaimed := Co.not_unclaimed hw' nofun
  refine ⟨fun c => (hloses c).held, ?_, ?_, ?_, fun c => (hloses c).close, fun c => (hloses c).draining⟩
  · intro c dir q' hq' hidle
    refine (hloses c).stays dir q' hq' ?_
    rintro rfl
    rw [hself] at hidle
    exact hclaimed hidle
  · intro j site hj'
    by_cases hj : j = q.co
    · subst hj
      rw [hself] at hj'
      exact absurd ⟨_, hj', rfl⟩ hclaimed
    · rw [hcos j hj] at hj'
      exact .inl hj'
  · intro j site u q' hj'
    by_cases hj : j = q.co
    · subst hj
      rw [hself, hw'] at hj'
      obtain ⟨-, hp⟩ := Wait.mk.inj (Option.some.inj hj')
      cases hp
      exact .inr hq
    · rw [hcos j hj] at hj'
      exact .inl hj'

theorem Chan.Loses.drop {ch : Chan} (h : ch.inhand = some q) : ch.Loses q ch.drop := by
  refine ⟨fun _ _ hq => List.mem_append_right _ hq, fun dir q' hq' hne => ?_, rfl, rfl⟩
  rcases List.mem_append.mp hq' with hhand | hque
  · rw [h] at hhand
    refine absurd ?_ hne
    exact (Option.some.inj (Option.eq_some_of_filter_eq_some (Option.mem_toList.mp hhand))).symm
  · exact List.mem_append_right _ hque

theorem Chan.Loses.pop {ch : Chan} {rest : List Quantum} (hhand : ch.inhand = none)
    (hque : ch.que dir = q :: rest) : ch.Loses q (ch.pop dir rest none) := by
  have hheld : ∀ dir', (ch.pop dir rest none).held dir' = Function.update ch.que dir rest dir' :=
    fun dir' => rfl
  refine ⟨fun dir' q' hq' => ?_, fun dir' q' hq' hne => ?_, rfl, rfl⟩
  · rw [hheld] at hq'
    rw [Chan.held_of_hand_none hhand]
    by_cases hd : dir' = dir
    · subst hd
      rw [Function.update_self] at hq'
      rw [hque]
      exact List.mem_cons_of_mem _ hq'
    · rwa [Function.update_of_ne hd] at hq'
  · rw [Chan.held_of_hand_none hhand] at hq'
    rw [hheld]
    by_cases hd : dir' = dir
    · subst hd
      rw [Function.update_self]
      rw [hque] at hq'
      exact (List.mem_cons.mp hq').resolve_left hne
    · rwa [Function.update_of_ne hd]

theorem Chan.Loses.extract {ch : Chan} : ch.Loses q (ch.extract q) := by
  have hcase : ∀ dir', (ch.extract q).que dir' = if dir' = q.dir then (ch.que dir').erase q else ch.que dir' := by
    intro dir'
    split
    · next hd =>
      subst hd
      exact Function.update_self _ _ _
    · next hd => exact Function.update_of_ne hd _ _
  refine ⟨fun dir' q' hq' => ?_, fun dir' q' hq' hne => ?_, rfl, rfl⟩
  · rcases List.mem_append.mp hq' with hh | hque
    · exact List.mem_append_left _ hh
    · rw [hcase] at hque
      refine List.mem_append_right _ ?_
      split at hque
      · exact List.mem_of_mem_erase hque
      · exact hque
  · rcases List.mem_append.mp hq' with hh | hque
    · exact List.mem_append_left _ hh
    · refine List.mem_append_right _ ?_
      rw [hcase]
      split
      · exact (List.mem_erase_of_ne hne).mpr hque
      · exact hque

/-! ### The commands -/

/-- Only three commands do more than to claim waiters. -/
def Calming (c : Cmd) (s s' : State) : Prop :=
  match c with
  | .chan (.queueAdd q x) => s' = s.enqueue q x
  | .chan (.setClose c) => s' = s.setChan c Chan.startClose
  | .chan (.readIsref c) => s' = s.setChan c Chan.endClose
  | _ => Calm s s'

theorem execCo_calm {cmd : CoCmd} {r : cmd.Res} (he : execCo t s cmd = some (r, s')) : Calm s s' := by
  cases cmd with
  | suspend ls =>
    cases t with
    | co k =>
      cases he
      exact .of_chans (setCo_calm (.of_eq rfl)) rfl
    | _ => cases he
  | ready d =>
    simp only [execCo] at he
    split at he
    · cases he
      exact .of_chans (setCo_calm (.wake _)) rfl
    · cases he
  | preempts d => cases t <;> cases he <;> exact .refl s
  | yield =>
    cases t with
    | co k =>
      cases he
      exact .of_eq rfl rfl
    | _ => cases he
  | allocate priority role =>
    cases he
    exact .of_chans (setCo_calm (.of_served rfl rfl)) rfl

/-- The steps that hand an item over serve the waiter. -/
theorem exchange_calm {g : Chan → Chan} {f f' : Co → Co} {u : Tid} {o : Option Quantum}
    {h : Wait → Wait} (hg : (s.chans c).Calm (g (s.chans c)))
    (hf : ∀ co : Co, (f co).wait = co.wait.map h) (hh : ∀ w, (h w).phase = .served u o)
    (hf' : ∀ co : Co, (f' co).wait = co.wait) :
    Calm s (((s.setChan c g).setCo j f).setCo k f') := by
  refine .of (fun i => ?_) (setChan_calm hg)
  have hserved : (s.cos i).Calm (((s.setChan c g).setCo j f).cos i) :=
    setCo_calm (s := s.setChan c g) (.of_map (hf _) hh) i
  have hwait := State.setCo_proj ((s.setChan c g).setCo j f) (k := k) Co.wait hf' i
  exact ⟨fun site hw => hserved.idle site (hwait.symm.trans hw),
    fun site u q hw => hserved.taken site u q (hwait.symm.trans hw)⟩

theorem queueRem_calm {r : Option Quantum} (hi : Inv s) (hin : InSection s k c)
    (he : execChan t s (.queueRem c dir) = some (r, s')) : Calm s s' := by
  simp only [execChan] at he
  split at he
  · cases he
    exact .refl s
  · next q rest hque =>
    cases he
    have hmem : q ∈ (s.chans c).held dir := by
      refine Chan.mem_held ?_
      rw [hque]
      exact List.mem_cons_self
    obtain ⟨hchan, hdir⟩ := (hi.chan c).at_ dir q hmem
    unfold State.popQuantum
    split
    · exact .setChan ⟨Chan.held_pop_select hin.hand hque hdir, rfl, rfl⟩
    · next hplain =>
      subst hchan hdir
      have hwaiter : s.Waiter q.chan q.dir q :=
        ⟨hmem, (hi.unclaimed_iff hmem).mp (.inl (Bool.not_eq_true _ ▸ hplain))⟩
      exact .claim hwaiter (.pop hin.hand hque) fun _ => rfl

theorem execChan_calm {cmd : ChanCmd} {r : cmd.Res} (hi : Inv s) (ha : AllowedChan t s cmd)
    (he : execChan t s cmd = some (r, s')) : Calming (.chan cmd) s s' := by
  cases cmd with
  | begin c =>
    cases t with
    | co k =>
      cases he
      exact Calm.setCo (.of_eq rfl)
    | _ => cases he
  | queueRem c dir =>
    obtain ⟨k, rfl, hin⟩ := ha
    exact queueRem_calm hi hin he
  | casTag q =>
    obtain ⟨k, rfl, hlock, -, hhand⟩ := ha
    have hmem : q ∈ (s.chans q.chan).held q.dir := by
      simp [Chan.held, hhand, Option.filter]
    simp only [execChan] at he
    split at he
    · next htag =>
      cases he
      have hwaiter : s.Waiter q.chan q.dir q := ⟨hmem, (hi.unclaimed_iff hmem).mp (.inr htag)⟩
      exact Calm.claim (g := Chan.drop) (f := Co.claimTag (.co k) q) hwaiter (.drop hhand) fun _ => rfl
    · next htag =>
      cases he
      refine Calm.remove (g := Chan.drop) (fun hidle => ?_) (.drop hhand)
      obtain ⟨w, hw, hp⟩ := hidle
      exact htag (((hi.co q.co).phase w hw).tag_none hp)
  | copyTo q x =>
    cases t with
    | co k =>
      cases he
      exact exchange_calm (g := Chan.pass k q.co x) (f := Co.receive (.co k) q x)
        ⟨fun _ => rfl, rfl, rfl⟩ (fun _ => rfl) (fun _ => rfl) fun _ => rfl
    | _ => cases he
  | copyFrom q =>
    cases t with
    | co k =>
      cases he
      exact exchange_calm (g := Chan.pass q.co k _) (f := Co.give (.co k) q _)
        ⟨fun _ => rfl, rfl, rfl⟩ (fun _ => rfl) (fun _ => rfl) fun _ => rfl
    | _ => cases he
  | markClosed q =>
    cases he
    exact Calm.setCo (.of_map rfl fun _ => rfl)
  | readClose c =>
    cases he
    exact Calm.refl s
  | setClose c | readIsref c | queueAdd q x =>
    cases he
    rfl
  | cleanBuff c =>
    cases he
    exact Calm.setChan ⟨fun _ => rfl, rfl, rfl⟩
  | copyToBuff c x =>
    cases t with
    | co k =>
      simp only [execChan] at he
      split at he
      · cases he
        exact Calm.refl s
      · next b _ =>
        cases he
        have hpush : Calm s (s.pushItem k c x b) := .of (setCo_calm (.of_eq rfl)) (setChan_calm ⟨fun _ => rfl, rfl, rfl⟩)
        exact hpush
    | _ => cases he
  | copyFromBuff c =>
    cases t with
    | co k =>
      simp only [execChan] at he
      split at he
      · cases he
        exact Calm.refl s
      · next x b _ =>
        cases he
        have hpop : Calm s (s.popItem k c x b) := .of (setCo_calm (.of_eq rfl)) (setChan_calm ⟨fun _ => rfl, rfl, rfl⟩)
        exact hpop
    | _ => cases he
  | readQuantum q =>
    cases t with
    | co k =>
      cases he
      exact Calm.setCo (.look q _)
    | _ => cases he
  | readTag =>
    cases t with
    | co k =>
      cases he
      exact Calm.refl s
    | _ => cases he
  | clearTag =>
    cases t with
    | co k =>
      cases he
      exact Calm.setCo (.of_none rfl)
    | _ => cases he
  | queueExtract q =>
    obtain ⟨k, qs, q', -, hw, hmem, -⟩ := ha
    cases he
    have hown : q.co = k := ((hi.co k).site _ hw).own q hmem
    refine Calm.remove (g := Chan.extract q) ?_ .extract
    rw [hown]
    exact Co.not_unclaimed hw (fun h => by cases h)
  | record e =>
    cases t with
    | co k =>
      cases he
      exact Calm.setCo (.of_eq rfl)
    | _ => cases he

/-- A command that begins a wait finds its caller in none. -/
theorem Allowed.free_of_begins {cmd : Cmd} {site : Site} (ha : Allowed t cmd s)
    (h : cmd.begins = some site) : ∃ k, t = .co k ∧ (s.cos k).wait = none := by
  unfold Cmd.begins at h
  split at h
  · obtain ⟨k, ht, -, -, -, hwait, -⟩ := ha
    exact ⟨k, ht, hwait⟩
  · obtain ⟨k, ht, -, hwait, -⟩ := ha
    exact ⟨k, ht, hwait⟩
  · obtain ⟨k, ht, -, -, hwait, -⟩ := ha
    exact ⟨k, ht, hwait⟩
  · cases h

theorem Calm.of_apart {cmd : Cmd} (ha : Allowed t cmd s) (h : Apart t cmd s s') : Calm s s' := by
  rcases h.cos with hcos | ⟨k, site, rfl, hsite, hcos⟩ | ⟨d, hcos⟩
  · exact .of_eq hcos h.chans
  · obtain ⟨_, ⟨⟩, hwait⟩ := ha.free_of_begins hsite
    refine .of_chans (fun j => ?_) h.chans
    rw [hcos]
    exact setCo_calm (.publish hwait (Cmd.begins_quanta hsite)) j
  · refine .of_chans (fun j => ?_) h.chans
    rw [hcos]
    exact setCo_calm (.of_map rfl fun _ => rfl) j

theorem exec_calm {c : Cmd} {r : c.Res} (hi : Inv s) (ha : Allowed t c s)
    (he : exec t c s = some (r, s')) : Calming c s s' := by
  obtain ⟨-, he⟩ := exec_inv he
  cases c with
  | lock c =>
    obtain ⟨l, o, rfl⟩ := execLock_inv he
    exact Calm.of_eq rfl rfl
  | co c => exact execCo_calm he
  | chan c => exact execChan_calm hi ha he
  | group c => exact Calm.of_apart ha (execGroup_apart he)
  | async c => exact Calm.of_apart ha (execAsync_apart he)
  | timer c => exact Calm.of_apart ha (execTimer_apart he)
  | net c => exact ha.elim

/-! ### The waiters along a run -/

theorem Calm.waiter (h : Calm s s') (hi : Inv s) (hq : s'.Waiter c dir q) : s.Waiter c dir q := by
  obtain ⟨hheld, ⟨site, phase⟩, hw, rfl⟩ := hq
  have hmem := h.held c dir q hheld
  refine ⟨hmem, ?_⟩
  rcases h.idle q.co site hw with hidle | ⟨hnone, -⟩
  · exact ⟨_, hidle, rfl⟩
  · obtain ⟨w, hw', -⟩ := (hi.chan c).in_ dir q hmem
    exact nomatch hnone.symm.trans hw'

/-- A coroutine that queues a quantum is in no wait, or in an unclaimed one. -/
theorem enqueue_site {x : Item} (ha : AllowedChan t s (.queueAdd q x)) : ∃ qs,
    (((s.enqueue q x).cos q.co).wait = some ⟨.chans (qs ++ [q]), .idle⟩) ∧
    ((s.cos q.co).wait = none ∧ qs = [] ∨ (s.cos q.co).wait = some ⟨.chans qs, .idle⟩) := by
  obtain ⟨k, -, rfl, -, -, -, -, -, hwait, -⟩ := ha
  have hself : ((s.enqueue q x).cos q.co).wait = some (Wait.extend q (s.cos q.co).wait) :=
    congrArg Co.wait (State.setCo_cos_self (s.setChan q.chan (Chan.add q)) q.co _)
  rcases hwait with ⟨hnone, -⟩ | ⟨qs, hw, -⟩
  · refine ⟨[], ?_, .inl ⟨hnone, rfl⟩⟩
    rw [hself, hnone]
    rfl
  · refine ⟨qs, ?_, .inr hw⟩
    rw [hself, hw]
    rfl

theorem enqueue_cos_ne (s : State) {x : Item} (hj : j ≠ q.co) : (s.enqueue q x).cos j = s.cos j := by
  unfold State.enqueue
  rw [State.setCo_cos_ne _ _ hj]
  rfl

theorem enqueue_held (s : State) (x : Item) (c : ChanId) (dir : Dir) :
    ((s.enqueue q x).chans c).held dir =
      (s.chans c).held dir ++ if c = q.chan ∧ dir = q.dir then [q] else [] := by
  unfold State.enqueue
  rw [State.setCo_chans]
  by_cases hc : c = q.chan
  · subst hc
    rw [State.setChan_chans_self, Chan.held_add]
    simp
  · rw [State.setChan_chans_ne _ _ hc]
    simp [hc]

/-- `queue_add` adds one waiter. -/
theorem enqueue_waiter {x : Item} {q' : Quantum} (hi : Inv s) (ha : AllowedChan t s (.queueAdd q x))
    (hq : (s.enqueue q x).Waiter c dir q') :
    s.Waiter c dir q' ∨ (q' = q ∧ c = q.chan ∧ dir = q.dir) := by
  obtain ⟨hheld, hidle⟩ := hq
  rw [enqueue_held] at hheld
  rcases List.mem_append.mp hheld with hmem | hnew
  · refine .inl ⟨hmem, ?_⟩
    by_cases hco : q'.co = q.co
    · obtain ⟨qs, -, ⟨hnone, -⟩ | hw⟩ := enqueue_site ha
      · obtain ⟨w, hw, -⟩ := (hi.chan c).in_ dir q' hmem
        exact nomatch (hco ▸ hnone).symm.trans hw
      · exact ⟨_, hco ▸ hw, rfl⟩
    · rwa [enqueue_cos_ne s hco] at hidle
  · split at hnew
    · next hat => exact .inr ⟨List.mem_singleton.mp hnew, hat⟩
    · cases hnew

theorem setChan_held {g : Chan → Chan} (hg : ∀ ch : Chan, (g ch).held = ch.held) (c' : ChanId)
    (dir : Dir) : ((s.setChan c g).chans c').held dir = (s.chans c').held dir :=
  congrFun (s.setChan_proj Chan.held hg c') dir

/-- The marks of a channel do not matter to its waiters. -/
theorem setChan_waiter {g : Chan → Chan} (hg : ∀ ch : Chan, (g ch).held = ch.held) {c' : ChanId}
    (hq : (s.setChan c g).Waiter c' dir q) : s.Waiter c' dir q :=
  ⟨setChan_held hg c' dir ▸ hq.held, hq.idle⟩

/-- Every quantum of an unclaimed wait is in its queue, or at hand. -/
def Queued (s : State) : Prop :=
  ∀ k site, (s.cos k).wait = some ⟨site, .idle⟩ → ∀ q ∈ site.quanta,
    q ∈ (s.chans q.chan).held q.dir

theorem Queued.exec {c : Cmd} {r : c.Res} (h : Queued s) (hi : Inv s) (ha : Allowed t c s)
    (he : exec t c s = some (r, s')) (hi' : Inv s') : Queued s' := by
  have hcalm := exec_calm hi ha he
  have hkept : Calm s s' → Queued s' := by
    intro hcalm k site hw q hq
    rcases hcalm.idle k site hw with hidle | ⟨-, hnil⟩
    · have hown := ((hi'.co k).site _ hw).own q hq
      exact hcalm.stays _ _ q (h k site hidle q hq) ⟨_, hown ▸ hw, rfl⟩
    · rw [hnil] at hq
      cases hq
  have hsame : s'.cos = s.cos → (∀ c dir, (s'.chans c).held dir = (s.chans c).held dir) → Queued s' := by
    intro hcos hheld k site hw q hq
    rw [hcos] at hw
    rw [hheld]
    exact h k site hw q hq
  cases c with
  | chan c =>
    cases c with
    | queueAdd q x =>
      obtain rfl := hcalm
      intro k site hw q' hq'
      rw [enqueue_held]
      by_cases hk : k = q.co
      · subst hk
        obtain ⟨qs, hw', hold⟩ := enqueue_site ha
        obtain ⟨rfl, -⟩ := Wait.mk.inj (Option.some.inj (hw'.symm.trans hw))
        rcases List.mem_append.mp hq' with hmem | hnew
        · rcases hold with ⟨-, rfl⟩ | hidle
          · cases hmem
          · exact List.mem_append_left _ (h q.co _ hidle q' hmem)
        · obtain rfl := List.mem_singleton.mp hnew
          simp
      · rw [enqueue_cos_ne s hk] at hw
        exact List.mem_append_left _ (h k site hw q' hq')
    | setClose c =>
      obtain rfl := hcalm
      exact hsame rfl (setChan_held fun _ => rfl)
    | readIsref c =>
      obtain rfl := hcalm
      exact hsame rfl (setChan_held fun _ => rfl)
    | _ => exact hkept hcalm
  | _ => exact hkept hcalm

theorem Queued.congr (h : Queued s) (hcos : s'.cos = s.cos) (hchans : s'.chans = s.chans) : Queued s' := by
  unfold Queued
  rw [hcos, hchans]
  exact h

end Coroc.Runtime
