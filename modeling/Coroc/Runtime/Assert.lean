import Coroc.Runtime.SyncSteps

/-!
# What a running coroutine knows

While a coroutine runs, nobody else writes its record, the channels it has locked, or
the coroutines whose waits it has claimed.  An assertion about these is therefore
stable, whatever it says (`Here`).  A suspended coroutine knows less: which wait it is
in, and the items it offers (`Asleep`); when it runs again, its wait is over.
-/

namespace Coroc.Runtime

open Coroc.Program

/-- A point in the code of coroutine `k`: what holds of its own record, the locks it
    holds, and what holds of each locked channel. -/
structure Ctx where
  k : Coid
  self : Co → Prop
  locks : List Lock
  know : ChanId → Chan → Prop

namespace Ctx

/-- Replace what is known about the channel `c`. -/
def learn (x : Ctx) (c : ChanId) (K : Chan → Prop) : Ctx :=
  { x with know := Function.update x.know c K }

def setSelf (x : Ctx) (S : Co → Prop) : Ctx := { x with self := S }

def setLocks (x : Ctx) (ls : List Lock) : Ctx := { x with locks := ls }

end Ctx

/-- No removed quantum at hand, and not in the middle of `coroc_chan_close`. -/
structure Chan.Quiet (ch : Chan) : Prop where
  hand : ch.inhand = none
  drain : ch.draining = false

structure At (x : Ctx) (s : State) : Prop where
  born : x.k < s.fresh
  awake : s.status x.k ≠ .wait ∧ s.status x.k ≠ .saving
  self : x.self (s.cos x.k)
  locks : ∀ l ∈ x.locks, s.locks l = some (.co x.k)
  chans : ∀ c, .chan c ∈ x.locks → x.know c (s.chans c)
  settled : .timer ∈ x.locks → Settled s

/-- Which wait a thread has claimed: none, one it has taken by a quantum (which was
    queued while the channel was open, if `o`), one it is about to end. -/
inductive Claim where
  | free
  | hold (q : Quantum) (o : Bool)
  | serve (d : Coid)

def Claim.Ok (t : Tid) (s : State) : Claim → Prop
  | free => ∀ d, ¬ s.Claimed t d
  | hold q o => (∃ site, (s.cos q.co).wait = some ⟨site, .taken t q⟩) ∧
      (o = true → ((s.cos q.co).slots q.idx).openAt = true) ∧ ∀ d, s.Claimed t d → d = q.co
  | serve d => (∃ site o, (s.cos d).wait = some ⟨site, .served t o⟩) ∧
      ∀ d', s.Claimed t d' → d' = d

/-- The assertion of a running coroutine. -/
def Here (x : Ctx) (cl : Claim) (s : State) : Prop := At x s ∧ cl.Ok (.co x.k) s

variable {s s' : State} {t : Tid} {x y : Ctx} {cl : Claim} {c : ChanId} {q : Quantum} {α : Type}

/-! ### Stability -/

theorem At.rely (h : At x s) (hr : Rely (.co x.k) s s') : At x s' := by
  obtain ⟨hco, hst⟩ := hr.self x.k rfl h.born h.awake.1 h.awake.2
  exact {
    born := Nat.lt_of_lt_of_le h.born hr.fresh
    awake := hst
    self := by rw [hco]; exact h.self
    locks := fun l hl => (hr.locks l).mp (h.locks l hl)
    chans := fun c hc => by rw [hr.chans c (h.locks _ hc)]; exact h.chans c hc
    settled := fun hl => hr.settled (h.locks _ hl) (h.settled hl) }

theorem Claim.Ok.rely (h : cl.Ok t s) (hr : Rely t s s') : cl.Ok t s' := by
  -- a claimed coroutine is left alone, and no claim appears by itself
  have hback : ∀ d, s'.Claimed t d → s.Claimed t d := fun d hd =>
    hd.of_eq (hr.claims d (.inr hd)).symm
  cases cl with
  | free => exact fun d hd => h d (hback d hd)
  | hold q o =>
    obtain ⟨⟨site, hw⟩, ho, hone⟩ := h
    have he := hr.claims q.co (.inl ⟨_, hw, .inl ⟨q, rfl⟩⟩)
    refine ⟨⟨site, by rw [he]; exact hw⟩, by rw [he]; exact ho, fun d hd => hone d (hback d hd)⟩
  | serve d =>
    obtain ⟨⟨site, o, hw⟩, hone⟩ := h
    have he := hr.claims d (.inl ⟨_, hw, .inr ⟨o, rfl⟩⟩)
    exact ⟨⟨site, o, by rw [he]; exact hw⟩, fun d hd => hone d (hback d hd)⟩

theorem Here.stable : Stable rules (.co x.k) (Here x cl) :=
  fun _ _ _ _ hr h => ⟨h.1.rely (hr rfl), h.2.rely (hr rfl)⟩

theorem Here.stable_of {k : Coid} (hk : y.k = k) : Stable rules (.co k) (Here y cl) := by
  subst hk
  exact Here.stable

theorem claim_stable (ht : t.isThread = true) : Stable rules t fun s => cl.Ok t s :=
  fun _ _ _ _ hr h => h.rely (hr ht)

theorem closed_stable (ht : t.isThread = true) :
    Stable rules t fun s => (s.chans c).close = true :=
  fun _ _ _ _ hr h => (hr ht).close c h

/-! ### Changing the point -/

theorem Here.mono (h : Here x cl s) (hk : y.k = x.k) (hself : ∀ co, x.self co → y.self co)
    (hl : ∀ l ∈ y.locks, l ∈ x.locks)
    (hc : ∀ c ch, .chan c ∈ y.locks → x.know c ch → y.know c ch) : Here y cl s := by
  obtain ⟨hat, hcl⟩ := h
  unfold Here
  rw [hk]
  refine ⟨⟨by rw [hk]; exact hat.born, by rw [hk]; exact hat.awake, ?_, ?_, ?_, ?_⟩, hcl⟩
  · rw [hk]
    exact hself _ hat.self
  · rw [hk]
    exact fun l hm => hat.locks l (hl l hm)
  · exact fun c hm => hc c _ hm (hat.chans c (hl _ hm))
  · exact fun hm => hat.settled (hl _ hm)

theorem Here.weaken {K K' : Chan → Prop} (h : Here (x.learn c K) cl s) (hK : ∀ ch, K ch → K' ch) :
    Here (x.learn c K') cl s := by
  refine h.mono rfl (fun _ h => h) (fun _ h => h) fun c' ch _ hk => ?_
  by_cases hc : c' = c
  · subst hc
    simp only [Ctx.learn, Function.update_self] at hk ⊢
    exact hK ch hk
  · simpa only [Ctx.learn, Function.update_of_ne hc] using hk

/-- What is known about a channel may be written as something learnt. -/
theorem Here.learn_self {K : Chan → Prop} (h : Here x cl s) (hK : ∀ ch, x.know c ch → K ch) :
    Here (x.learn c K) cl s := by
  refine h.mono rfl (fun _ h => h) (fun _ h => h) fun c' ch _ hk => ?_
  by_cases hc : c' = c
  · subst hc
    simp only [Ctx.learn, Function.update_self]
    exact hK ch hk
  · simpa only [Ctx.learn, Function.update_of_ne hc] using hk

@[simp] theorem Ctx.learn_k (x : Ctx) (c : ChanId) (K : Chan → Prop) : (x.learn c K).k = x.k := rfl
@[simp] theorem Ctx.learn_self' (x : Ctx) (c : ChanId) (K : Chan → Prop) :
    (x.learn c K).self = x.self := rfl
@[simp] theorem Ctx.learn_locks (x : Ctx) (c : ChanId) (K : Chan → Prop) :
    (x.learn c K).locks = x.locks := rfl
@[simp] theorem Ctx.learn_know (x : Ctx) (c : ChanId) (K : Chan → Prop) :
    (x.learn c K).know c = K := Function.update_self _ _ _

theorem Ctx.learn_know_ne (x : Ctx) {c c' : ChanId} (K : Chan → Prop) (h : c' ≠ c) :
    (x.learn c K).know c' = x.know c' := Function.update_of_ne h _ _

@[simp] theorem Ctx.learn_learn (x : Ctx) (c : ChanId) (K K' : Chan → Prop) :
    (x.learn c K).learn c K' = x.learn c K' := by
  simp only [Ctx.learn, Function.update_idem]

/-! ### Steps -/

theorem exec_inv {c : Cmd} {r : c.Res} (h : machine.exec t c s = some (r, s')) :
    s.active t = true ∧ (match c with
      | .lock c => execLock t s c
      | .co c => execCo t s c
      | .chan c => execChan t s c
      | .group c => execGroup t s c
      | .async c => execAsync t s c
      | .timer c => execTimer t s c
      | .net c => execNet t s c : Option (c.Res × State)) = some (r, s') := by
  change exec t c s = _ at h
  unfold exec at h
  split at h
  · rename_i hact
    refine ⟨hact, ?_⟩
    cases c <;> exact h
  · cases h

theorem active_running {k : Coid} (h : s.active (.co k) = true) : s.status k = .running := by
  simpa [State.active] using h

/-- The rule of a single command. -/
theorem issue_spec {c : Cmd} {P : State → Prop} {Q : c.Res → State → Prop}
    (hP : Stable rules t P) (hQ : ∀ r, Stable rules t (Q r))
    (hc : ∀ s, Inv s → P s → Allowed t c s ∧
      ∀ r s', machine.exec t c s = some (r, s') → Inv s' → Q r s') :
    Triple rules t P (issue c) Q :=
  Triple.step hP Q (fun s hi hp _ => hc s hi hp) fun r => Triple.ret (hQ r) fun _ _ h => h

theorem Claimed.congr {u : Tid} {d : Coid} (h : (s'.cos d).wait = (s.cos d).wait) :
    s'.Claimed u d ↔ s.Claimed u d := by
  unfold State.Claimed
  rw [h]

/-- Commands that do not touch any wait keep the claims. -/
theorem Claim.Ok.of_cos (h : cl.Ok t s) (hw : ∀ d, (s'.cos d).wait = (s.cos d).wait)
    (hs : ∀ d, (s'.cos d).slots = (s.cos d).slots) : cl.Ok t s' := by
  cases cl with
  | free => exact fun d hd => h d ((Claimed.congr (hw d)).mp hd)
  | hold q o =>
    obtain ⟨⟨site, hsite⟩, ho, hone⟩ := h
    exact ⟨⟨site, by rw [hw]; exact hsite⟩, by rw [hs]; exact ho,
      fun d hd => hone d ((Claimed.congr (hw d)).mp hd)⟩
  | serve d =>
    obtain ⟨⟨site, o, hsite⟩, hone⟩ := h
    exact ⟨⟨site, o, by rw [hw]; exact hsite⟩, fun d hd => hone d ((Claimed.congr (hw d)).mp hd)⟩

/-- A command on the coroutine's own record. -/
theorem At.own {S : Co → Prop} {f : Co → Co} (h : At x s) (hrole : (f (s.cos x.k)).role = (s.cos x.k).role)
    (hself : S (f (s.cos x.k))) : At (x.setSelf S) (s.setCo x.k f) := by
  refine ⟨h.born, h.awake, ?_, h.locks, h.chans, fun hm j hj => h.settled hm j ?_⟩
  · change S ((s.setCo x.k f).cos x.k)
    rw [State.setCo_cos_self]
    exact hself
  · by_cases hjk : j = x.k
    · rw [hjk, State.setCo_cos_self, hrole, ← hjk] at hj
      exact hj
    · rwa [State.setCo_cos_ne _ _ hjk] at hj

/-- One that touches no wait. -/
theorem Here.own {S : Co → Prop} {f : Co → Co} (h : Here x cl s)
    (hwait : (f (s.cos x.k)).wait = (s.cos x.k).wait)
    (hslots : (f (s.cos x.k)).slots = (s.cos x.k).slots)
    (hrole : (f (s.cos x.k)).role = (s.cos x.k).role)
    (hself : S (f (s.cos x.k))) : Here (x.setSelf S) cl (s.setCo x.k f) := by
  have hsame : ∀ {β : Type} (p : Co → β), p (f (s.cos x.k)) = p (s.cos x.k) → ∀ j,
      p ((s.setCo x.k f).cos j) = p (s.cos j) := by
    intro β p hp j
    by_cases hjk : j = x.k
    · rw [hjk, State.setCo_cos_self, hp]
    · rw [State.setCo_cos_ne _ _ hjk]
  exact ⟨h.1.own hrole hself, h.2.of_cos (hsame Co.wait hwait) (hsame Co.slots hslots)⟩

/-- One that ends the coroutine's own wait. -/
theorem Here.leave {S : Co → Prop} {f : Co → Co} (h : Here x .free s)
    (hwait : (f (s.cos x.k)).wait = none) (hrole : (f (s.cos x.k)).role = (s.cos x.k).role)
    (hself : S (f (s.cos x.k))) : Here (x.setSelf S) .free (s.setCo x.k f) := by
  refine ⟨h.1.own hrole hself, ?_⟩
  rintro e ⟨w, hw, hp⟩
  by_cases hek : e = x.k
  · rw [hek, State.setCo_cos_self, hwait] at hw
    cases hw
  · rw [State.setCo_cos_ne _ _ hek] at hw
    exact h.2 e ⟨w, hw, hp⟩

end Coroc.Runtime
