import Coroc.Runtime.Safety

/-!
# What a run records

The recorded fields of coroutines and channels: the wake-ups since the last suspension,
the calls that have returned, and the items that have been moved.  `Effect` says once which
commands write them; every other command keeps them (`Kept`), and so do the start of an
operation and the environment.  Each result is an invariant over these few commands.

* `Reachable.ready_asleep`: every `vpu_ready` finds its coroutine asleep, and ends its
  sleep for the first time.
* `Reachable.select_once`: a select that returns has moved one item, or none and it says so.
-/

namespace Coroc.Runtime

open Coroc.Program Coroc.Transition

variable {s s' : State} {t : Tid} {j k : Coid} {c : ChanId} {q : Quantum}

/-! ### Which commands write the records -/

/-- The wake-ups of every coroutine. -/
structure Undisturbed (s s' : State) : Prop where
  wakes : ∀ j, (s'.cos j).wakes = (s.cos j).wakes
  asleep : ∀ j, s'.status j = .saving ∨ s'.status j = .wait →
    s.status j = .saving ∨ s.status j = .wait

/-- The calls and items of a coroutine. -/
structure Co.Same (co co' : Co) : Prop where
  moved : co'.moved = co.moved
  history : co'.history = co.history

/-- The items of a channel. -/
structure Chan.Same (ch ch' : Chan) : Prop where
  isref : ch'.isref = ch.isref
  buffer : ch'.buffer = ch.buffer
  sent : ch'.sent = ch.sent
  taken : ch'.taken = ch.taken
  pending : ch'.pending = ch.pending

structure Kept (s s' : State) : Prop extends Undisturbed s s' where
  co : ∀ j, (s.cos j).Same (s'.cos j)
  chan : ∀ c, (s.chans c).Same (s'.chans c)

theorem Undisturbed.refl (s : State) : Undisturbed s s := ⟨fun _ => rfl, fun _ h => h⟩

theorem Undisturbed.trans {s₁ s₂ s₃ : State} (h : Undisturbed s₁ s₂) (h' : Undisturbed s₂ s₃) :
    Undisturbed s₁ s₃ :=
  ⟨fun j => (h'.wakes j).trans (h.wakes j), fun j hj => h.asleep j (h'.asleep j hj)⟩

theorem Undisturbed.setCo {f : Co → Co} (hf : ∀ co : Co, (f co).wakes = co.wakes) :
    Undisturbed s (s.setCo k f) :=
  ⟨s.setCo_proj Co.wakes hf, fun _ h => h⟩

theorem Undisturbed.setChan {f : Chan → Chan} : Undisturbed s (s.setChan c f) :=
  ⟨fun _ => rfl, fun _ h => h⟩

theorem Undisturbed.exchange {g : Chan → Chan} {f f' : Co → Co}
    (hf : ∀ co : Co, (f co).wakes = co.wakes) (hf' : ∀ co : Co, (f' co).wakes = co.wakes) :
    Undisturbed s (((s.setChan c g).setCo j f).setCo k f') :=
  (Undisturbed.setChan.trans (.setCo hf)).trans (.setCo hf')

theorem Co.Same.refl (co : Co) : co.Same co := ⟨rfl, rfl⟩

theorem Chan.Same.refl (ch : Chan) : ch.Same ch := ⟨rfl, rfl, rfl, rfl, rfl⟩

theorem Chan.Same.trans {ch₁ ch₂ ch₃ : Chan} (h : ch₁.Same ch₂) (h' : ch₂.Same ch₃) : ch₁.Same ch₃ :=
  ⟨h'.isref.trans h.isref, h'.buffer.trans h.buffer, h'.sent.trans h.sent, h'.taken.trans h.taken,
    h'.pending.trans h.pending⟩

theorem Kept.refl (s : State) : Kept s s := ⟨.refl s, fun _ => .refl _, fun _ => .refl _⟩

theorem Kept.trans {s₁ s₂ s₃ : State} (h : Kept s₁ s₂) (h' : Kept s₂ s₃) : Kept s₁ s₃ where
  toUndisturbed := h.toUndisturbed.trans h'.toUndisturbed
  co := fun j => ⟨(h'.co j).moved.trans (h.co j).moved, (h'.co j).history.trans (h.co j).history⟩
  chan := fun c => (h.chan c).trans (h'.chan c)

theorem Kept.of_eq (hcos : s'.cos = s.cos) (hchans : s'.chans = s.chans)
    (hstatus : s'.status = s.status) : Kept s s' where
  wakes := fun j => by rw [hcos]
  asleep := fun j hj => by rw [← hstatus]; exact hj
  co := fun j => by rw [hcos]; exact .refl _
  chan := fun c => by rw [hchans]; exact .refl _

theorem Kept.setCo {f : Co → Co} (hw : ∀ co : Co, (f co).wakes = co.wakes)
    (hf : ∀ co : Co, co.Same (f co)) : Kept s (s.setCo k f) :=
  ⟨.setCo hw, fun j => ⟨s.setCo_proj Co.moved (fun co => (hf co).moved) j,
    s.setCo_proj Co.history (fun co => (hf co).history) j⟩, fun _ => .refl _⟩

theorem Kept.setChan {f : Chan → Chan} (hf : ∀ ch : Chan, ch.Same (f ch)) : Kept s (s.setChan c f) := by
  refine ⟨.setChan, fun _ => .refl _, fun c' => ?_⟩
  by_cases hc : c' = c
  · subst hc
    rw [State.setChan_chans_self]
    exact hf _
  · rw [State.setChan_chans_ne _ _ hc]
    exact .refl _

theorem Kept.setChanCo {g : Chan → Chan} {f : Co → Co} (hg : ∀ ch : Chan, ch.Same (g ch))
    (hw : ∀ co : Co, (f co).wakes = co.wakes) (hf : ∀ co : Co, co.Same (f co)) :
    Kept s ((s.setChan c g).setCo k f) :=
  (Kept.setChan hg).trans (.setCo hw hf)

theorem Kept.setGroup (s : State) (g : GroupId) (f : Group → Group) : Kept s (s.setGroup g f) :=
  .of_eq rfl rfl rfl

theorem Kept.setStatus {st : Status} (hs : st = .ready ∨ st = .running) : Kept s (s.setStatus k st) := by
  refine ⟨⟨fun _ => rfl, fun j hj => ?_⟩, fun _ => .refl _, fun _ => .refl _⟩
  by_cases hjk : j = k
  · subst hjk
    rw [State.setStatus_status_self] at hj
    rcases hs with rfl | rfl <;> rcases hj with hj | hj <;> cases hj
  · rwa [State.setStatus_status_ne _ _ hjk] at hj

/-- What a command does to the records. -/
def Effect (t : Tid) (c : Cmd) (s s' : State) : Prop :=
  match c with
  | .co (.suspend ls) => ∃ k, t = .co k ∧ s' = { (s.setCo k Co.sleep).setStatus k .saving with
      locks := handOver s.locks k ls }
  | .co (.ready d) => s.status d = .wait ∧ s' = (s.setStatus d .ready).setCo d Co.wake
  | .co (.allocate priority role) => s' =
      { (s.setStatus s.fresh .wait).setCo s.fresh (Co.create t priority role) with
        fresh := s.fresh + 1 }
  | .chan (.copyTo q x) => ∃ k, t = .co k ∧ s' = s.copyTo k q x
  | .chan (.copyFrom q) => ∃ k, t = .co k ∧ s' = s.copyFrom k q ((s.cos q.co).slots q.idx).item
  | .chan (.cleanBuff c) => s' = s.setChan c Chan.clean
  | .chan (.copyToBuff c x) => s' = s ∨
      ∃ k b, t = .co k ∧ (s.chans c).buffer.copyToBuff x = some b ∧ s' = s.pushItem k c x b
  | .chan (.copyFromBuff c) => s' = s ∨
      ∃ k x b, t = .co k ∧ (s.chans c).buffer.copyFromBuff = some (x, b) ∧ s' = s.popItem k c x b
  | .chan (.record e) => ∃ k, t = .co k ∧ s' = s.setCo k (Co.record e)
  | _ => Kept s s'

theorem execCo_effect {cmd : CoCmd} {r : cmd.Res} (he : execCo t s cmd = some (r, s')) :
    Effect t (.co cmd) s s' := by
  cases cmd with
  | suspend ls =>
    cases t with
    | co k =>
      cases he
      exact ⟨k, rfl, rfl⟩
    | _ => cases he
  | ready d =>
    simp only [execCo] at he
    split at he
    · rename_i hst
      cases he
      exact ⟨hst, rfl⟩
    · cases he
  | preempts d =>
    cases t <;> cases he <;> exact Kept.refl s
  | yield =>
    cases t with
    | co k =>
      cases he
      exact Kept.setStatus (.inl rfl)
    | _ => cases he
  | allocate priority role =>
    cases he
    rfl

theorem execChan_effect {cmd : ChanCmd} {r : cmd.Res} (he : execChan t s cmd = some (r, s')) :
    Effect t (.chan cmd) s s' := by
  cases cmd with
  | begin c =>
    cases t with
    | co k =>
      cases he
      exact Kept.setCo (fun _ => rfl) fun _ => ⟨rfl, rfl⟩
    | _ => cases he
  | queueRem c dir =>
    simp only [execChan] at he
    split at he
    · cases he
      exact Kept.refl s
    · rename_i q rest _
      cases he
      change Kept s (s.popQuantum t c dir q rest)
      unfold State.popQuantum
      split
      · exact Kept.setChan fun _ => ⟨rfl, rfl, rfl, rfl, rfl⟩
      · exact Kept.setChanCo (fun _ => ⟨rfl, rfl, rfl, rfl, rfl⟩) (fun _ => rfl) fun _ => ⟨rfl, rfl⟩
  | casTag q =>
    simp only [execChan] at he
    split at he
    · cases he
      exact Kept.setChanCo (fun _ => ⟨rfl, rfl, rfl, rfl, rfl⟩) (fun _ => rfl) fun _ => ⟨rfl, rfl⟩
    · cases he
      exact Kept.setChan fun _ => ⟨rfl, rfl, rfl, rfl, rfl⟩
  | copyTo q x =>
    cases t with
    | co k =>
      cases he
      exact ⟨k, rfl, rfl⟩
    | _ => cases he
  | copyFrom q =>
    cases t with
    | co k =>
      cases he
      exact ⟨k, rfl, rfl⟩
    | _ => cases he
  | markClosed q =>
    cases he
    exact Kept.setCo (fun _ => rfl) fun _ => ⟨rfl, rfl⟩
  | readClose c =>
    cases he
    exact Kept.refl s
  | setClose c =>
    cases he
    exact Kept.setChan fun _ => ⟨rfl, rfl, rfl, rfl, rfl⟩
  | readIsref c =>
    cases he
    exact Kept.setChan fun _ => ⟨rfl, rfl, rfl, rfl, rfl⟩
  | cleanBuff c =>
    cases he
    rfl
  | copyToBuff c x =>
    cases t with
    | co k =>
      simp only [execChan] at he
      split at he
      · cases he
        exact .inl rfl
      · rename_i b hb
        cases he
        exact .inr ⟨k, b, rfl, hb, rfl⟩
    | _ => cases he
  | copyFromBuff c =>
    cases t with
    | co k =>
      simp only [execChan] at he
      split at he
      · cases he
        exact .inl rfl
      · rename_i x b hb
        cases he
        exact .inr ⟨k, x, b, rfl, hb, rfl⟩
    | _ => cases he
  | queueAdd q x =>
    cases he
    exact Kept.setChanCo (fun _ => ⟨rfl, rfl, rfl, rfl, rfl⟩) (fun _ => rfl) fun _ => ⟨rfl, rfl⟩
  | readQuantum q =>
    cases t with
    | co k =>
      cases he
      exact Kept.setCo (fun _ => rfl) fun _ => ⟨rfl, rfl⟩
    | _ => cases he
  | readTag =>
    cases t with
    | co k =>
      cases he
      exact Kept.refl s
    | _ => cases he
  | clearTag =>
    cases t with
    | co k =>
      cases he
      exact Kept.setCo (fun _ => rfl) fun _ => ⟨rfl, rfl⟩
    | _ => cases he
  | queueExtract q =>
    cases he
    exact Kept.setChan fun _ => ⟨rfl, rfl, rfl, rfl, rfl⟩
  | record e =>
    cases t with
    | co k =>
      cases he
      exact ⟨k, rfl, rfl⟩
    | _ => cases he

theorem Kept.of_apart {cmd : Cmd} (h : Apart t cmd s s') : Kept s s' := by
  rcases h.cos with hcos | ⟨k, site, -, -, hcos⟩ | ⟨d, hcos⟩
  · exact .of_eq hcos h.chans h.status
  · have hpublish : Kept s (s.setCo k (Co.publish site)) := .setCo (fun _ => rfl) fun _ => ⟨rfl, rfl⟩
    exact hpublish.trans (.of_eq hcos h.chans h.status)
  · have hcall : Kept s (s.setCo d (Co.call t)) := .setCo (fun _ => rfl) fun _ => ⟨rfl, rfl⟩
    exact hcall.trans (.of_eq hcos h.chans h.status)

/-- **The commands that write the records.** -/
theorem exec_effect {c : Cmd} {r : c.Res} (he : exec t c s = some (r, s')) : Effect t c s s' := by
  unfold exec at he
  split at he
  · cases c with
    | lock c =>
      obtain ⟨l, o, rfl⟩ := execLock_inv he
      exact Kept.of_eq rfl rfl rfl
    | co c => exact execCo_effect he
    | chan c => exact execChan_effect he
    | group c => exact Kept.of_apart (execGroup_apart he)
    | async c => exact Kept.of_apart (execAsync_apart he)
    | timer c => exact Kept.of_apart (execTimer_apart he)
    | net c => exact Kept.of_apart (execNet_apart he)
  · cases he

theorem enter_kept {a : Call} (he : enter t a s = some s') : Kept s s' := by
  have hsame := enter_spared he
  exact .of_eq hsame.cos hsame.chans hsame.status

theorem env_effect {e : Env} (he : env e s = some s') :
    Kept s s' ∨ ∃ k, s.status k = .saving ∧ s' = s.setStatus k .wait := by
  cases e with
  | coreWait k =>
    simp only [env] at he
    split at he
    · rename_i hst
      cases he
      exact .inr ⟨k, hst, rfl⟩
    · cases he
  | unlock k l =>
    simp only [env] at he
    split at he <;> cases he
    exact .inl (.of_eq rfl rfl rfl)
  | sched k =>
    simp only [env] at he
    split at he <;> cases he
    exact .inl (.setStatus (.inr rfl))
  | tick us =>
    cases he
    exact .inl (.of_eq rfl rfl rfl)
  | alive n =>
    simp only [env] at he
    split at he <;> cases he
    exact .inl (.of_eq rfl rfl rfl)

/-- Steps on channels do not wake anybody. -/
theorem Effect.undisturbed {cmd : ChanCmd} (h : Effect t (.chan cmd) s s') : Undisturbed s s' := by
  cases cmd with
  | copyTo q x =>
    obtain ⟨k, -, rfl⟩ := h
    exact .exchange (fun _ => rfl) fun _ => rfl
  | copyFrom q =>
    obtain ⟨k, -, rfl⟩ := h
    exact .exchange (fun _ => rfl) fun _ => rfl
  | cleanBuff c =>
    obtain rfl := h
    exact .setChan
  | copyToBuff c x =>
    rcases h with rfl | ⟨k, b, -, -, rfl⟩
    · exact .refl _
    · exact Undisturbed.setChan.trans (.setCo fun _ => rfl)
  | copyFromBuff c =>
    rcases h with rfl | ⟨k, x, b, -, -, rfl⟩
    · exact .refl _
    · exact Undisturbed.setChan.trans (.setCo fun _ => rfl)
  | record e =>
    obtain ⟨k, -, rfl⟩ := h
    exact .setCo fun _ => rfl
  | _ => exact h.toUndisturbed

/-! ### Wake-ups -/

/-- A suspended coroutine has not been woken, and no suspension is ended twice. -/
def Woken (s : State) : Prop :=
  ∀ k, (s.cos k).wakes ≤ 1 ∧ (s.status k = .saving ∨ s.status k = .wait → (s.cos k).wakes = 0)

theorem Woken.kept (h : Woken s) (hk : Undisturbed s s') : Woken s' := by
  intro k
  rw [hk.wakes k]
  exact ⟨(h k).1, fun hs => (h k).2 (hk.asleep k hs)⟩

/-- A step that changes the status and the wake-ups of one coroutine. -/
theorem Woken.one (h : Woken s) (hcos : ∀ j, j ≠ k → (s'.cos j).wakes = (s.cos j).wakes)
    (hstatus : ∀ j, j ≠ k → s'.status j = s.status j)
    (hk : (s'.cos k).wakes = 0 ∨
      (s'.cos k).wakes = 1 ∧ s'.status k ≠ .saving ∧ s'.status k ≠ .wait) : Woken s' := by
  intro j
  by_cases hj : j = k
  · subst hj
    rcases hk with hk | ⟨hk, hsaving, hwait⟩
    · exact ⟨by omega, fun _ => hk⟩
    · exact ⟨by omega, fun hs => absurd hs (not_or.mpr ⟨hsaving, hwait⟩)⟩
  · rw [hcos j hj, hstatus j hj]
    exact h j

theorem Woken.execCo {cmd : CoCmd} (h : Woken s) (heff : Effect t (.co cmd) s s') : Woken s' := by
  cases cmd with
  | suspend ls =>
    obtain ⟨k, -, rfl⟩ := heff
    refine h.one (k := k) (fun j hj => congrArg Co.wakes (State.setCo_cos_ne s _ hj))
      (fun j hj => State.setStatus_status_ne (s.setCo k Co.sleep) _ hj) (.inl ?_)
    exact congrArg Co.wakes (State.setCo_cos_self s k Co.sleep)
  | ready d =>
    -- the coroutine is asleep, so this is the first one
    obtain ⟨hst, rfl⟩ := heff
    refine h.one (k := d) (fun j hj => congrArg Co.wakes (State.setCo_cos_ne (s.setStatus d .ready) _ hj))
      (fun j hj => State.setStatus_status_ne s _ hj) (.inr ⟨?_, ?_, ?_⟩)
    · rw [State.setCo_cos_self]
      change (s.cos d).wakes + 1 = 1
      rw [(h d).2 (.inr hst)]
    · rw [State.setCo_status, State.setStatus_status_self]
      nofun
    · rw [State.setCo_status, State.setStatus_status_self]
      nofun
  | preempts d => exact h.kept heff.toUndisturbed
  | yield => exact h.kept heff.toUndisturbed
  | allocate priority role =>
    obtain rfl := heff
    refine h.one (k := s.fresh)
      (fun j hj => congrArg Co.wakes (State.setCo_cos_ne (s.setStatus s.fresh .wait) _ hj))
      (fun j hj => State.setStatus_status_ne s _ hj) (.inl ?_)
    exact congrArg Co.wakes (State.setCo_cos_self (s.setStatus s.fresh .wait) s.fresh _)

theorem Woken.exec {c : Cmd} {r : c.Res} (h : Woken s) (he : exec t c s = some (r, s')) : Woken s' := by
  have heff := exec_effect he
  cases c with
  | co cmd => exact h.execCo heff
  | chan cmd => exact h.kept heff.undisturbed
  | lock cmd | group cmd | async cmd | timer cmd | net cmd => exact h.kept heff.toUndisturbed

theorem Woken.start {c : Config} (h : Start c) : Woken c.shared :=
  fun k => by simp [(h.co k).wakes]

theorem Woken.env {e : Env} (h : Woken s) (he : env e s = some s') : Woken s' := by
  rcases env_effect he with hk | ⟨k, hst, rfl⟩
  · exact h.kept hk.toUndisturbed
  · exact h.one (k := k) (fun _ _ => rfl) (fun j hj => State.setStatus_status_ne s _ hj)
      (.inl ((h k).2 (.inl hst)))

theorem Reachable.woken {c : Config} (h : Reachable c) : Woken c.shared :=
  (Rules.invariant calls_sound (fun _ h => h.good) (fun _ _ _ _ => trivial) (fun _ h => Woken.start h)
    (fun _ _ _ _ _ _ h _ _ he => h.exec he)
    (fun _ _ _ _ _ h he => h.kept (enter_kept he).toUndisturbed) (fun _ _ _ _ h he => h.env he) h).2

/-- Every call that has returned says what it has moved. -/
def Recorded (s : State) : Prop := ∀ k, ∀ r ∈ (s.cos k).history, r.Ok

theorem Effect.history {c : Cmd} (h : Effect t c s s') (j : Coid) :
    (s'.cos j).history = (s.cos j).history ∨
      ∃ e, c = .chan (.record e) ∧ t = .co j ∧
        (s'.cos j).history = (s.cos j).history ++ [⟨e, (s.cos j).late, (s.cos j).moved⟩] := by
  unfold Effect at h
  split at h
  · obtain ⟨k, -, rfl⟩ := h
    exact .inl (State.setCo_proj s (f := Co.sleep) Co.history (fun _ => rfl) j)
  · obtain ⟨-, rfl⟩ := h
    exact .inl (State.setCo_proj _ (f := Co.wake) Co.history (fun _ => rfl) j)
  · subst h
    exact .inl (State.setCo_proj _ (f := Co.create _ _ _) Co.history (fun _ => rfl) j)
  · obtain ⟨k, -, rfl⟩ := h
    exact .inl ((State.setCo_proj _ (f := Co.move _) Co.history (fun _ => rfl) j).trans
      (State.setCo_proj _ (f := Co.receive _ _ _) Co.history (fun _ => rfl) j))
  · obtain ⟨k, -, rfl⟩ := h
    exact .inl ((State.setCo_proj _ (f := Co.move _) Co.history (fun _ => rfl) j).trans
      (State.setCo_proj _ (f := Co.give _ _ _) Co.history (fun _ => rfl) j))
  · subst h
    exact .inl rfl
  · rcases h with rfl | ⟨k, b, -, -, rfl⟩
    · exact .inl rfl
    · exact .inl (State.setCo_proj _ (f := Co.move _) Co.history (fun _ => rfl) j)
  · rcases h with rfl | ⟨k, x, b, -, -, rfl⟩
    · exact .inl rfl
    · exact .inl (State.setCo_proj _ (f := Co.move _) Co.history (fun _ => rfl) j)
  · rename_i e
    obtain ⟨k, rfl, rfl⟩ := h
    by_cases hj : j = k
    · subst hj
      exact .inr ⟨e, rfl, rfl, by rw [State.setCo_cos_self]; rfl⟩
    · exact .inl (by rw [State.setCo_cos_ne _ _ hj])
  · exact .inl (h.co j).history

theorem Recorded.exec {c : Cmd} {r : c.Res} (h : Recorded s) (ha : Allowed t c s)
    (he : exec t c s = some (r, s')) : Recorded s' := by
  intro j rec hrec
  rcases (exec_effect he).history j with hsame | ⟨e, rfl, rfl, hnew⟩
  · rw [hsame] at hrec
    exact h j rec hrec
  · rw [hnew] at hrec
    rcases List.mem_append.mp hrec with hrec | hrec
    · exact h j rec hrec
    · obtain ⟨k, hk, -, hok, -⟩ := ha
      cases hk
      rw [List.mem_singleton.mp hrec]
      exact hok

theorem Recorded.kept (h : Recorded s) (hk : ∀ j, (s'.cos j).history = (s.cos j).history) :
    Recorded s' := by
  intro j rec hrec
  rw [hk j] at hrec
  exact h j rec hrec

theorem env_co {e : Env} (he : env e s = some s') (j : Coid) : (s.cos j).Same (s'.cos j) := by
  rcases env_effect he with hk | ⟨k, -, rfl⟩
  · exact hk.co j
  · exact .refl _

theorem Reachable.recorded {c : Config} (h : Reachable c) : Recorded c.shared :=
  (Rules.invariant calls_sound (fun _ h => h.good) (fun _ _ _ _ => trivial)
    (fun _ h k _ hr => nomatch (h.co k).history ▸ hr)
    (fun _ _ _ _ _ _ h ha _ he => h.exec ha he)
    (fun _ _ _ _ _ h he => h.kept fun j => ((enter_kept he).co j).history)
    (fun _ _ _ _ h he => h.kept fun j => (env_co he j).history) h).2

/-- A coroutine between two calls has no item at hand that its records do not show. -/
theorem Reachable.moved_nil {c : Config} (h : Reachable c) (hret : c.prog (.co k) = .ret ()) :
    (c.shared.cos k).moved = [] := by
  rcases h.good.idle hret with ⟨hmoved, -, -⟩ | ⟨r, ⟨late, hat, -⟩ | ⟨late, site, items, hq, -, hsleep⟩⟩
  · exact hmoved
  · exact hat.self.moved
  · exact hsleep.moved hq

/-- A coroutine between two calls has no quantum in any queue, and its tag is clear. -/
theorem Reachable.no_quantum {c : Config} (h : Reachable c) (hret : c.prog (.co k) = .ret ()) :
    (∀ n dir, ∀ q ∈ (c.shared.chans n).que dir, q.co ≠ k) ∧ (c.shared.cos k).qtag = none := by
  have hi := h.good.1
  have hquanta : ∀ w, (c.shared.cos k).wait = some w → w.site.quanta = [] := by
    intro w hw
    rcases h.good.idle hret with ⟨-, hborn, -⟩ | ⟨r, ⟨late, hat, -⟩ | ⟨late, site, items, hq, -, hsleep⟩⟩
    · rw [hborn w hw]
      rfl
    · exact nomatch hat.self.wait.symm.trans hw
    · rcases hsleep.wait with ⟨w', hw', hsite, -⟩ | ⟨-, hnone⟩
      · obtain rfl : w' = w := Option.some.inj (hw'.symm.trans hw)
        rw [hsite]
        exact hq
      · exact nomatch hnone.symm.trans hw
  refine ⟨fun n dir q hq hk => ?_, ?_⟩
  · obtain ⟨w, hw, hmem, -⟩ := (hi.chan n).in_ dir q (List.mem_append_right _ hq)
    rw [hk] at hw
    rw [hquanta w hw] at hmem
    cases hmem
  · cases hw : (c.shared.cos k).wait with
    | none => exact ((hi.co k).awake hw).2.2
    | some w =>
      have hphase := (hi.co k).phase w hw
      have hnil := hquanta w hw
      unfold PhaseOk at hphase
      split at hphase
      · exact hphase.2.2.1
      · exact nomatch hnil ▸ hphase.2.1
      · exact nomatch hnil ▸ hphase.2.1
      · exact hphase.2.2
      · exact nomatch hnil ▸ hphase.2.1

/-- What a select has left in a buffer is what it has moved, through the active channel. -/
theorem Record.Ok.select_got {r : Record} {cases : List Case} {block : Bool} {ret : Ret}
    {active : Option ChanId} {during : Bool} {got : Option Item} (h : r.Ok)
    (he : r.entry = .select cases block ret active during got) (y : Item) :
    got = some y ↔ ∃ n, active = some n ∧ r.xfers = [⟨.recv, n, y⟩] := by
  simp only [Record.Ok, he] at h
  rcases h with ⟨-, -, -, hx, rfl⟩ | ⟨-, e, -, rfl, z, -, hx, rfl⟩ | ⟨-, -, -, hx, rfl, -⟩ |
    ⟨-, -, -, hx, rfl⟩
  · simp [hx]
  · obtain ⟨dir, n, x⟩ := e
    cases dir <;> simp [hx, Dir.got]
  · simp [hx]
  · simp [hx]

/-- **Select commits exactly one case**, and leaves nothing behind.  An item it has received is
    in the buffer of that case. -/
theorem Reachable.select_once {c : Config} (h : Reachable c) (k : Coid) :
    (∀ r ∈ (c.shared.cos k).history, ∀ cases block ret active during got,
      r.entry = .select cases block ret active during got → cases ≠ [] →
      (block = true →
        (ret = .success ∧ ∃ e ∈ cases, ∃ y, active = some e.chan ∧ r.xfers = [⟨e.dir, e.chan, y⟩] ∧
          (e.dir = .send → y = e.item) ∧ got = e.dir.got y) ∨
        (ret = .closed ∧ r.xfers = [] ∧ got = none ∧ during = true ∧
          ∃ e ∈ cases, active = some e.chan)) ∧
      (block = false → r.xfers.length ≤ 1 ∧ (r.xfers.length = 1 ↔ ret = .success)) ∧
      ∀ y, got = some y ↔ ∃ n, active = some n ∧ r.xfers = [⟨.recv, n, y⟩]) ∧
    (c.prog (.co k) = .ret () →
      (∀ n dir, ∀ q ∈ (c.shared.chans n).que dir, q.co ≠ k) ∧ (c.shared.cos k).qtag = none) := by
  refine ⟨fun r hr cases block ret active during got he hne => ?_, h.no_quantum⟩
  have hok := h.recorded k r hr
  suffices hone : (block = true → _) ∧ (block = false → _) from ⟨hone.1, hone.2, hok.select_got he⟩
  simp only [Record.Ok, he] at hok
  rcases hok with ⟨hnil, -⟩ | ⟨hret, e, hmem, hact, y, hy, hx, hgot⟩ |
    ⟨hb, hret, hd, hx, hgot, e, hmem, hact⟩ | ⟨hb, hret, hact, hx, hgot⟩
  · exact absurd hnil hne
  · refine ⟨fun _ => .inl ⟨hret, e, hmem, y, hact, hx, hy, hgot⟩, fun _ => ?_⟩
    rw [hx]
    exact ⟨Nat.le_refl 1, fun _ => hret, fun _ => rfl⟩
  · exact ⟨fun _ => .inr ⟨hret, hx, hgot, hd, e, hmem, hact⟩, fun hf => nomatch hf.symm.trans hb⟩
  · refine ⟨fun hf => (nomatch hf.symm.trans hb), fun _ => ?_⟩
    rw [hx]
    refine ⟨Nat.zero_le 1, nofun, fun hs => ?_⟩
    rcases hret with hret | hret <;> exact nomatch hret.symm.trans hs

/-- A select that waited at two channels has returned with one item. -/
theorem select_once_served : ∃ c : Config, Reachable c ∧ (c.shared.cos 0).history =
      [⟨.select [⟨.recv, 0, 0⟩, ⟨.recv, 1, 0⟩] true .success (some 1) false (some 7), false,
        [⟨.recv, 1, 7⟩]⟩] ∧
    (c.shared.cos 0).qtag = none := by
  obtain ⟨c, hc, hP⟩ := Reachable.of_run 2 someBuffers someBuffers_empty selectServed
    (fun c => (c.prog (.co 0)).isRet && (c.shared.cos 0).history == [⟨.select [⟨.recv, 0, 0⟩,
      ⟨.recv, 1, 0⟩] true .success (some 1) false (some 7), false, [⟨.recv, 1, 7⟩]⟩]) (by decide +kernel)
  simp only [Bool.and_eq_true, beq_iff_eq] at hP
  refine ⟨c, hc, hP.2, ((hc.select_once 0).2 ?_).2⟩
  exact Prog.eq_ret_of_isRet hP.1

end Coroc.Runtime
