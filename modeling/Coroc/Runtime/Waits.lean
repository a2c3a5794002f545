import Coroc.Runtime.Records

/-!
# What is queued, and what is closed

A quantum becomes part of a wait when it is queued, and a channel is closed by
`coroc_chan_close`; no other command does either (`exec_grows`).
-/

namespace Coroc.Runtime

open Coroc.Program Coroc.Transition

variable {s s' : State} {t : Tid} {j k : Coid} {c : ChanId} {q : Quantum}

/-- No quantum is added to the wait. -/
def Co.Fewer (co co' : Co) : Prop :=
  ∀ w', co'.wait = some w' → ∀ q ∈ w'.site.quanta, ∃ w, co.wait = some w ∧ q ∈ w.site.quanta

theorem Co.Fewer.refl (co : Co) : co.Fewer co := fun w hw _ hq => ⟨w, hw, hq⟩

theorem Co.Fewer.of_eq {co co' : Co} (h : co'.wait = co.wait) : co.Fewer co' :=
  fun w hw _ hq => ⟨w, h.symm.trans hw, hq⟩

theorem Co.Fewer.of_none {co co' : Co} (h : co'.wait = none) : co.Fewer co' :=
  fun _ hw => nomatch h.symm.trans hw

/-- Claiming or serving a wait leaves its quanta. -/
theorem Co.Fewer.of_map {co co' : Co} {f : Wait → Wait} (h : co'.wait = co.wait.map f)
    (hf : ∀ w : Wait, (f w).site = w.site) : co.Fewer co' := by
  intro w' hw' q hq
  obtain ⟨w, hw, rfl⟩ := Option.map_eq_some_iff.mp (h.symm.trans hw')
  rw [hf w] at hq
  exact ⟨w, hw, hq⟩

theorem Co.Fewer.of_site {co co' : Co} {site : Site} {p : Phase} (h : co'.wait = some ⟨site, p⟩)
    (hs : site.quanta = []) : co.Fewer co' := by
  intro w' hw' q hq
  obtain rfl : ⟨site, p⟩ = w' := Option.some.inj (h.symm.trans hw')
  rw [hs] at hq
  cases hq

theorem Co.Fewer.wake (co : Co) : co.Fewer co.wake := by
  intro w' hw' q hq
  obtain ⟨w, hw, hwake⟩ := Option.bind_eq_some_iff.mp hw'
  unfold Wait.wake at hwake
  split at hwake
  · cases hwake
    exact ⟨w, hw, hq⟩
  · cases hwake

theorem Co.Fewer.look (q : Quantum) (co : Co) : co.Fewer (co.look q) := by
  by_cases hs : q.select = true
  · exact .of_eq (if_pos hs)
  · exact .of_none (if_neg hs)

structure Still (s s' : State) : Prop where
  quanta : ∀ j, (s.cos j).Fewer (s'.cos j)
  close : ∀ c, (s'.chans c).close = (s.chans c).close

theorem Still.refl (s : State) : Still s s := ⟨fun _ => .refl _, fun _ => rfl⟩

theorem Still.of_eq (hcos : s'.cos = s.cos) (hchans : s'.chans = s.chans) : Still s s' :=
  ⟨fun j => by rw [hcos]; exact .refl _, fun c => by rw [hchans]⟩

theorem Still.setCo {f : Co → Co} (hf : (s.cos k).Fewer (f (s.cos k))) : Still s (s.setCo k f) := by
  refine ⟨fun j => ?_, fun _ => rfl⟩
  by_cases hj : j = k
  · subst hj
    rw [State.setCo_cos_self]
    exact hf
  · rw [State.setCo_cos_ne _ _ hj]
    exact .refl _

theorem Still.setChan {f : Chan → Chan} (hf : ∀ ch : Chan, (f ch).close = ch.close) :
    Still s (s.setChan c f) := by
  refine ⟨fun _ => .refl _, fun c' => ?_⟩
  by_cases hc : c' = c
  · subst hc
    rw [State.setChan_chans_self, hf]
  · rw [State.setChan_chans_ne _ _ hc]

theorem Still.trans {s₁ s₂ s₃ : State} (h : Still s₁ s₂) (h' : Still s₂ s₃) : Still s₁ s₃ := by
  refine ⟨fun j w hw q hq => ?_, fun c => (h'.close c).trans (h.close c)⟩
  obtain ⟨w₂, hw₂, hq₂⟩ := h'.quanta j w hw q hq
  exact h.quanta j w₂ hw₂ q hq₂

theorem Still.setChanCo {g : Chan → Chan} {f : Co → Co} (hg : ∀ ch : Chan, (g ch).close = ch.close)
    (hf : ∀ co : Co, co.Fewer (f co)) : Still s ((s.setChan c g).setCo k f) :=
  (Still.setChan hg).trans (.setCo (hf _))

theorem Still.exchange {g : Chan → Chan} {f f' : Co → Co} (hg : ∀ ch : Chan, (g ch).close = ch.close)
    (hf : ∀ co : Co, co.Fewer (f co)) (hf' : ∀ co : Co, co.Fewer (f' co)) :
    Still s (((s.setChan c g).setCo j f).setCo k f') :=
  (Still.setChanCo hg hf).trans (.setCo (hf' _))

/-- Only two commands add a quantum to a wait or close a channel. -/
def Grows (c : Cmd) (s s' : State) : Prop :=
  match c with
  | .chan (.queueAdd q x) => s' = s.enqueue q x
  | .chan (.setClose c) => s' = s.setChan c Chan.startClose
  | _ => Still s s'

theorem execCo_grows {cmd : CoCmd} {r : cmd.Res} (he : execCo t s cmd = some (r, s')) : Still s s' := by
  cases cmd with
  | suspend ls =>
    cases t with
    | co k =>
      cases he
      have hsleep : Still s (s.setCo k Co.sleep) := .setCo (.of_eq rfl)
      exact hsleep.trans (.of_eq rfl rfl)
    | _ => cases he
  | ready d =>
    simp only [execCo] at he
    split at he
    · cases he
      have hstatus : Still s (s.setStatus d .ready) := .of_eq rfl rfl
      exact hstatus.trans (.setCo (.wake _))
    · cases he
  | preempts d => cases t <;> cases he <;> exact .refl s
  | yield =>
    cases t with
    | co k =>
      cases he
      exact .of_eq rfl rfl
    | _ => cases he
  | allocate priority role =>
    cases he
    have hstatus : Still s (s.setStatus s.fresh .wait) := .of_eq rfl rfl
    have hcreate := hstatus.trans (.setCo (k := s.fresh) (f := Co.create t priority role) (.of_site rfl rfl))
    exact hcreate.trans (.of_eq rfl rfl)

theorem execChan_grows {cmd : ChanCmd} {r : cmd.Res} (he : execChan t s cmd = some (r, s')) :
    Grows (.chan cmd) s s' := by
  cases cmd with
  | begin c =>
    cases t with
    | co k =>
      cases he
      exact Still.setCo (.of_eq rfl)
    | _ => cases he
  | queueRem c dir =>
    simp only [execChan] at he
    split at he
    · cases he
      exact Still.refl s
    · rename_i q rest _
      cases he
      change Still s (s.popQuantum t c dir q rest)
      unfold State.popQuantum
      split
      · exact Still.setChan fun _ => rfl
      · exact Still.setChanCo (fun _ => rfl) fun _ => .of_map rfl fun _ => rfl
  | casTag q =>
    simp only [execChan] at he
    split at he
    · cases he
      exact Still.setChanCo (fun _ => rfl) fun _ => .of_map rfl fun _ => rfl
    · cases he
      exact Still.setChan fun _ => rfl
  | copyTo q x =>
    cases t with
    | co k =>
      cases he
      exact Still.exchange (fun _ => rfl) (fun _ => .of_map rfl fun _ => rfl) fun _ => .of_eq rfl
    | _ => cases he
  | copyFrom q =>
    cases t with
    | co k =>
      cases he
      exact Still.exchange (fun _ => rfl) (fun _ => .of_map rfl fun _ => rfl) fun _ => .of_eq rfl
    | _ => cases he
  | markClosed q =>
    cases he
    exact Still.setCo (.of_map rfl fun _ => rfl)
  | readClose c =>
    cases he
    exact Still.refl s
  | setClose c =>
    cases he
    rfl
  | readIsref c | cleanBuff c | queueExtract q =>
    cases he
    exact Still.setChan fun _ => rfl
  | copyToBuff c x =>
    cases t with
    | co k =>
      simp only [execChan] at he
      split at he
      · cases he
        exact Still.refl s
      · cases he
        exact Still.setChanCo (fun _ => rfl) fun _ => .of_eq rfl
    | _ => cases he
  | copyFromBuff c =>
    cases t with
    | co k =>
      simp only [execChan] at he
      split at he
      · cases he
        exact Still.refl s
      · cases he
        exact Still.setChanCo (fun _ => rfl) fun _ => .of_eq rfl
    | _ => cases he
  | queueAdd q x =>
    cases he
    rfl
  | readQuantum q =>
    cases t with
    | co k =>
      cases he
      exact Still.setCo (.look q _)
    | _ => cases he
  | readTag =>
    cases t with
    | co k =>
      cases he
      exact Still.refl s
    | _ => cases he
  | clearTag =>
    cases t with
    | co k =>
      cases he
      exact Still.setCo (.of_none rfl)
    | _ => cases he
  | record e =>
    cases t with
    | co k =>
      cases he
      exact Still.setCo (.of_eq rfl)
    | _ => cases he

theorem Still.of_apart {cmd : Cmd} (h : Apart t cmd s s') : Still s s' := by
  rcases h.cos with hcos | ⟨k, site, -, hsite, hcos⟩ | ⟨d, hcos⟩
  · exact .of_eq hcos h.chans
  · have hpublish : Still s (s.setCo k (Co.publish site)) := .setCo (.of_site rfl (Cmd.begins_quanta hsite))
    exact hpublish.trans (.of_eq hcos h.chans)
  · have hcall : Still s (s.setCo d (Co.call t)) := .setCo (.of_map rfl fun _ => rfl)
    exact hcall.trans (.of_eq hcos h.chans)

theorem exec_grows {c : Cmd} {r : c.Res} (he : exec t c s = some (r, s')) : Grows c s s' := by
  unfold exec at he
  split at he
  · cases c with
    | lock c =>
      obtain ⟨l, o, rfl⟩ := execLock_inv he
      exact Still.of_eq rfl rfl
    | co c => exact execCo_grows he
    | chan c => exact execChan_grows he
    | group c => exact Still.of_apart (execGroup_apart he)
    | async c => exact Still.of_apart (execAsync_apart he)
    | timer c => exact Still.of_apart (execTimer_apart he)
    | net c => exact Still.of_apart (execNet_apart he)
  · cases he

theorem Holds.quantum (hi : Inv s) (h : Holds s k q) :
    ∃ w, (s.cos q.co).wait = some w ∧ q ∈ w.site.quanta ∧ s.locks (.chan q.chan) = some (.co k) := by
  obtain ⟨-, site, hw⟩ := h
  have hphase := (hi.co q.co).phase _ hw
  exact ⟨_, hw, hphase.2.1, hphase.2.2.2.2.1⟩

theorem Wait.extend_quanta {o : Option Wait} {q q' : Quantum} (h : q' ∈ (Wait.extend q o).site.quanta) :
    q' = q ∨ ∃ w, o = some w ∧ q' ∈ w.site.quanta := by
  unfold Wait.extend at h
  split at h
  · rename_i qs p
    rcases List.mem_append.mp h with h | h
    · exact .inr ⟨_, rfl, h⟩
    · exact .inl (List.mem_singleton.mp h)
  · exact .inl (List.mem_singleton.mp h)

theorem enqueue_wait (s : State) (q : Quantum) (x : Item) :
    ((s.enqueue q x).cos q.co).wait = some (Wait.extend q (s.cos q.co).wait) :=
  congrArg Co.wait (State.setCo_cos_self (s.setChan q.chan (Chan.add q)) q.co _)

/-! ### Who writes a quantum -/

/-- The command writes a quantum of `j`. -/
def Cmd.writes (j : Coid) : Cmd → Prop
  | .chan (.copyTo q _) | .chan (.markClosed q) | .chan (.queueAdd q _) => q.co = j
  | _ => False

/-- The quanta of `j` are as before. -/
def Unwritten (s s' : State) (j : Coid) : Prop := (s'.cos j).slots = (s.cos j).slots

theorem Unwritten.setCo {f : Co → Co} (hf : ∀ co, (f co).slots = co.slots) :
    Unwritten s (s.setCo k f) j :=
  s.setCo_proj Co.slots hf j

theorem Unwritten.of_apart {cmd : Cmd} (h : Apart t cmd s s') : Unwritten s s' j := by
  rcases h.cos with hcos | ⟨k, site, -, -, hcos⟩ | ⟨d, hcos⟩
  · rw [Unwritten, hcos]
  · rw [Unwritten, hcos]
    exact Unwritten.setCo (f := Co.publish site) fun _ => rfl
  · rw [Unwritten, hcos]
    exact Unwritten.setCo (f := Co.call t) fun _ => rfl

theorem execChan_unwritten {cmd : ChanCmd} {r : cmd.Res} (he : execChan t s cmd = some (r, s'))
    (hw : ¬ (Cmd.chan cmd).writes j) : Unwritten s s' j := by
  cases cmd with
  | copyTo q x =>
    cases t with
    | co k =>
      cases he
      have hkept : Unwritten s ((s.setChan q.chan (Chan.pass k q.co x)).setCo q.co
          (Co.receive (.co k) q x)) j := by
        unfold Unwritten
        rw [State.setCo_cos_ne _ _ (Ne.symm hw)]
        rfl
      exact (State.setCo_proj _ (f := Co.move _) Co.slots (fun _ => rfl) j).trans hkept
    | _ => cases he
  | markClosed q =>
    cases he
    unfold Unwritten
    rw [State.setCo_cos_ne _ _ (Ne.symm hw)]
  | queueAdd q x =>
    cases he
    unfold Unwritten State.enqueue
    rw [State.setCo_cos_ne _ _ (Ne.symm hw)]
    rfl
  | copyFrom q =>
    cases t with
    | co k =>
      cases he
      exact (State.setCo_proj _ (f := Co.move _) Co.slots (fun _ => rfl) j).trans
        (State.setCo_proj _ (f := Co.give _ _ _) Co.slots (fun _ => rfl) j)
    | _ => cases he
  | queueRem c dir =>
    simp only [execChan] at he
    split at he
    · cases he
      rfl
    · rename_i q rest _
      cases he
      unfold State.popQuantum
      split
      · rfl
      · exact State.setCo_proj _ (f := Co.claim t q) Co.slots (fun _ => rfl) j
  | casTag q =>
    simp only [execChan] at he
    split at he
    · cases he
      exact State.setCo_proj _ (f := Co.claimTag t q) Co.slots (fun _ => rfl) j
    · cases he
      rfl
  | readClose c | setClose c | readIsref c | cleanBuff c | queueExtract q =>
    cases he
    rfl
  | copyToBuff c x =>
    cases t with
    | co k =>
      simp only [execChan] at he
      split at he
      · cases he
        rfl
      · cases he
        exact State.setCo_proj _ (f := Co.move _) Co.slots (fun _ => rfl) j
    | _ => cases he
  | copyFromBuff c =>
    cases t with
    | co k =>
      simp only [execChan] at he
      split at he
      · cases he
        rfl
      · cases he
        exact State.setCo_proj _ (f := Co.move _) Co.slots (fun _ => rfl) j
    | _ => cases he
  | readTag =>
    cases t with
    | co k =>
      cases he
      rfl
    | _ => cases he
  | begin c | readQuantum q | clearTag | record e =>
    cases t with
    | co k =>
      cases he
      exact .setCo fun _ => rfl
    | _ => cases he

theorem exec_unwritten {cmd : Cmd} {r : cmd.Res} (he : exec t cmd s = some (r, s'))
    (hw : ¬ cmd.writes j) : Unwritten s s' j := by
  unfold exec at he
  split at he
  · cases cmd with
    | chan cmd => exact execChan_unwritten he hw
    | lock cmd =>
      obtain ⟨l, o, rfl⟩ := execLock_inv he
      rfl
    | co cmd =>
      have heff := execCo_effect he
      cases cmd with
      | suspend ls =>
        obtain ⟨k, -, rfl⟩ := heff
        exact Unwritten.setCo (f := Co.sleep) fun _ => rfl
      | ready d =>
        obtain ⟨-, rfl⟩ := heff
        exact State.setCo_proj _ (f := Co.wake) Co.slots (fun _ => rfl) j
      | preempts d =>
        cases t <;> cases he <;> rfl
      | yield =>
        cases t with
        | co k =>
          cases he
          rfl
        | _ => cases he
      | allocate priority role =>
        obtain rfl := heff
        exact State.setCo_proj _ (f := Co.create t priority role) Co.slots (fun _ => rfl) j
    | group cmd => exact .of_apart (execGroup_apart he)
    | async cmd => exact .of_apart (execAsync_apart he)
    | timer cmd => exact .of_apart (execTimer_apart he)
    | net cmd => exact .of_apart (execNet_apart he)
  · cases he

end Coroc.Runtime
