import Coroc.Runtime.Inv

/-!
# Frame lemmas for the invariant

What a step leaves alone keeps its part of the invariant.  The lemmas here say so for
one coroutine, one channel, and for a whole step given which coroutines and channels it
changed (`Change`), so that each command only has to account for what it touches.
-/

namespace Coroc.Runtime

open Coroc.Program

/-! ### Updates of the state -/

namespace State

variable (s : State)

@[simp] theorem setCo_cos_self (k : Coid) (f : Co → Co) : (s.setCo k f).cos k = f (s.cos k) :=
  Function.update_self _ _ _

@[simp] theorem setCo_cos_ne {k j : Coid} (f : Co → Co) (h : j ≠ k) :
    (s.setCo k f).cos j = s.cos j :=
  Function.update_of_ne h _ _

/-- What an update of one coroutine does not touch. -/
theorem setCo_proj {β : Type} (p : Co → β) {k : Coid} {f : Co → Co} (hf : ∀ co, p (f co) = p co)
    (j : Coid) : p ((s.setCo k f).cos j) = p (s.cos j) := by
  by_cases hj : j = k
  · rw [hj, setCo_cos_self, hf]
  · rw [setCo_cos_ne s f hj]

@[simp] theorem setCo_locks (k : Coid) (f : Co → Co) : (s.setCo k f).locks = s.locks := rfl
@[simp] theorem setCo_status (k : Coid) (f : Co → Co) : (s.setCo k f).status = s.status := rfl
@[simp] theorem setCo_chans (k : Coid) (f : Co → Co) : (s.setCo k f).chans = s.chans := rfl
@[simp] theorem setCo_groups (k : Coid) (f : Co → Co) : (s.setCo k f).groups = s.groups := rfl
@[simp] theorem setCo_requests (k : Coid) (f : Co → Co) :
    (s.setCo k f).requests = s.requests := rfl
@[simp] theorem setCo_timers (k : Coid) (f : Co → Co) : (s.setCo k f).timers = s.timers := rfl
@[simp] theorem setCo_fresh (k : Coid) (f : Co → Co) : (s.setCo k f).fresh = s.fresh := rfl

@[simp] theorem setChan_chans_self (c : ChanId) (f : Chan → Chan) :
    (s.setChan c f).chans c = f (s.chans c) :=
  Function.update_self _ _ _

@[simp] theorem setChan_chans_ne {c d : ChanId} (f : Chan → Chan) (h : d ≠ c) :
    (s.setChan c f).chans d = s.chans d :=
  Function.update_of_ne h _ _

/-- What an update of one channel does not touch. -/
theorem setChan_proj {β : Type} (p : Chan → β) {c : ChanId} {f : Chan → Chan}
    (hf : ∀ ch, p (f ch) = p ch) (d : ChanId) : p ((s.setChan c f).chans d) = p (s.chans d) := by
  by_cases hd : d = c
  · rw [hd, setChan_chans_self, hf]
  · rw [setChan_chans_ne s f hd]

@[simp] theorem setChan_locks (c : ChanId) (f : Chan → Chan) : (s.setChan c f).locks = s.locks := rfl
@[simp] theorem setChan_status (c : ChanId) (f : Chan → Chan) :
    (s.setChan c f).status = s.status := rfl
@[simp] theorem setChan_cos (c : ChanId) (f : Chan → Chan) : (s.setChan c f).cos = s.cos := rfl
@[simp] theorem setChan_groups (c : ChanId) (f : Chan → Chan) :
    (s.setChan c f).groups = s.groups := rfl
@[simp] theorem setChan_requests (c : ChanId) (f : Chan → Chan) :
    (s.setChan c f).requests = s.requests := rfl
@[simp] theorem setChan_timers (c : ChanId) (f : Chan → Chan) :
    (s.setChan c f).timers = s.timers := rfl
@[simp] theorem setChan_fresh (c : ChanId) (f : Chan → Chan) : (s.setChan c f).fresh = s.fresh := rfl

@[simp] theorem setGroup_groups_self (g : GroupId) (f : Group → Group) :
    (s.setGroup g f).groups g = f (s.groups g) :=
  Function.update_self _ _ _

@[simp] theorem setGroup_groups_ne {g h : GroupId} (f : Group → Group) (hne : h ≠ g) :
    (s.setGroup g f).groups h = s.groups h :=
  Function.update_of_ne hne _ _

@[simp] theorem setGroup_locks (g : GroupId) (f : Group → Group) :
    (s.setGroup g f).locks = s.locks := rfl
@[simp] theorem setGroup_status (g : GroupId) (f : Group → Group) :
    (s.setGroup g f).status = s.status := rfl
@[simp] theorem setGroup_cos (g : GroupId) (f : Group → Group) : (s.setGroup g f).cos = s.cos := rfl
@[simp] theorem setGroup_chans (g : GroupId) (f : Group → Group) :
    (s.setGroup g f).chans = s.chans := rfl
@[simp] theorem setGroup_requests (g : GroupId) (f : Group → Group) :
    (s.setGroup g f).requests = s.requests := rfl
@[simp] theorem setGroup_timers (g : GroupId) (f : Group → Group) :
    (s.setGroup g f).timers = s.timers := rfl
@[simp] theorem setGroup_fresh (g : GroupId) (f : Group → Group) :
    (s.setGroup g f).fresh = s.fresh := rfl

@[simp] theorem setLock_locks_self (l : Lock) (o : Option Tid) : (s.setLock l o).locks l = o :=
  Function.update_self _ _ _

@[simp] theorem setLock_locks_ne {l m : Lock} (o : Option Tid) (h : m ≠ l) :
    (s.setLock l o).locks m = s.locks m :=
  Function.update_of_ne h _ _

@[simp] theorem setStatus_status_self (k : Coid) (st : Status) :
    (s.setStatus k st).status k = st :=
  Function.update_self _ _ _

@[simp] theorem setStatus_status_ne {k j : Coid} (st : Status) (h : j ≠ k) :
    (s.setStatus k st).status j = s.status j :=
  Function.update_of_ne h _ _

end State

/-! ### One coroutine -/

variable {s s' : State} {t : Tid}

theorem Quantum.lock_mem {q : Quantum} {site : Site} (h : q ∈ site.quanta) :
    Lock.chan q.chan ∈ site.locks := by
  cases site with
  | chans qs => exact List.mem_map_of_mem h
  | group g => cases h
  | async => cases h
  | timer => cases h
  | born => cases h

/-- Who protects a wait by holding its locks: the coroutine until it is suspended, the
    VPU until it is asleep, and the one who has claimed it by a quantum. -/
def Guards (s : State) (k : Coid) (w : Wait) (u : Tid) : Prop :=
  (u = .co k ∧ s.status k = .running) ∨ (u = .vpu k ∧ s.status k = .saving) ∨
    ∃ q, w.phase = .taken u q

/-- The phase of a wait depends on its coroutine, and on the locks that protect it. -/
theorem PhaseOk.frame {k : Coid} {w : Wait} (h : PhaseOk s k w) (hco : s'.cos k = s.cos k)
    (hst : s'.status k = s.status k)
    (hl : ∀ l ∈ w.site.locks, ∀ u, s.locks l = some u → Guards s k w u → s'.locks l = some u) :
    PhaseOk s' k w := by
  unfold PhaseOk at h ⊢
  cases hp : w.phase with
  | idle =>
    simp only [hp] at h ⊢
    obtain ⟨hpark, hrest⟩ := h
    rw [hco]
    refine ⟨?_, hrest⟩
    unfold Parked at hpark ⊢
    rw [hst]
    rcases hpark with ⟨hrun, hlk⟩ | ⟨hsav, hlk⟩ | hwait
    · exact .inl ⟨hrun, fun l hm => hl l hm _ (hlk l hm) (.inl ⟨rfl, hrun⟩)⟩
    · exact .inr (.inl ⟨hsav, fun l hm => hl l hm _ (hlk l hm) (.inr (.inl ⟨rfl, hsav⟩))⟩)
    · exact .inr (.inr hwait)
  | taken u q =>
    simp only [hp] at h ⊢
    obtain ⟨hst', hq, htag, hun, hlk, hth⟩ := h
    rw [hco, hst]
    exact ⟨hst', hq, htag, hun, hl _ (Quantum.lock_mem hq) u hlk (.inr (.inr ⟨q, hp⟩)), hth⟩
  | served u o =>
    cases o with
    | none => simpa only [hp, hco, hst] using h
    | some q => simpa only [hp, hco, hst] using h
  | woken q => simpa only [hp, hco, hst] using h

theorem CoInv.frame {k : Coid} (h : CoInv s k) (hco : s'.cos k = s.cos k)
    (hst : s'.status k = s.status k)
    (hl : ∀ w, (s.cos k).wait = some w → ∀ l ∈ w.site.locks, ∀ u, s.locks l = some u →
      Guards s k w u → s'.locks l = some u) :
    CoInv s' k where
  awake := by
    rw [hco, hst]
    exact h.awake
  site := by
    rw [hco]
    exact h.site
  phase := by
    intro w hw
    rw [hco] at hw
    exact (h.phase w hw).frame hco hst (hl w hw)

theorem CoInv.frame_locks {k : Coid} (h : CoInv s k) (hco : s'.cos k = s.cos k)
    (hst : s'.status k = s.status k) (hl : s'.locks = s.locks) : CoInv s' k :=
  h.frame hco hst fun _ _ _ _ _ hu _ => by rw [hl]; exact hu

/-- Claimed waits belong to sleeping coroutines. -/
theorem CoInv.claimed_status {d : Coid} {u : Tid} (h : CoInv s d) (hc : s.Claimed u d) :
    s.status d = .wait := by
  obtain ⟨w, hw, ⟨q, hp⟩ | ⟨o, hp⟩⟩ := hc
  · have hok := h.phase w hw
    simp only [PhaseOk, hp] at hok
    exact hok.1
  · have hok := h.phase w hw
    cases o with
    | none =>
      simp only [PhaseOk, hp] at hok
      exact hok.1
    | some q =>
      simp only [PhaseOk, hp] at hok
      exact hok.1

theorem not_claimed_of_wait_none {d : Coid} {u : Tid} (h : (s.cos d).wait = none) :
    ¬ s.Claimed u d := by
  rintro ⟨w, hw, -⟩
  rw [h] at hw
  cases hw

/-! ### One channel -/

/-- The change of a coroutine does not take the quantum out of its wait. -/
def Quantum.Keeps (q : Quantum) (co co' : Co) : Prop :=
  q.In co → q.In co' ∧ (co'.unclaimed → co.unclaimed) ∧
    (co'.slots q.idx).openAt = (co.slots q.idx).openAt

theorem Quantum.Keeps.of_eq {q : Quantum} {co co' : Co} (h : co' = co) : q.Keeps co co' := by
  subst h
  exact fun hin => ⟨hin, id, rfl⟩

/-- A channel whose queues only shrink. -/
theorem ChanInv.sub {c : ChanId} (h : ChanInv s c)
    (hsub : ∀ dir, ((s'.chans c).held dir).Sublist ((s.chans c).held dir))
    (hhand : ∀ q, (s'.chans c).inhand = some q → q.select = true)
    (hlock : (s'.chans c).inhand ≠ none ∨ (s'.chans c).draining = true →
      ∃ k, s'.locks (.chan c) = some (.co k))
    (hempty : ∀ q ∈ (s'.chans c).held .recv, (s.cos q.co).unclaimed →
      (s.chans c).buffer.contents = [] → (s'.chans c).buffer.contents = [])
    (hopen : (s'.chans c).close = false ∨ (s'.chans c).draining = true →
      (s.chans c).close = false ∨ (s.chans c).draining = true)
    (hq : ∀ dir, ∀ q ∈ (s'.chans c).held dir, q.Keeps (s.cos q.co) (s'.cos q.co)) :
    ChanInv s' c where
  at_ := fun dir q hm => h.at_ dir q ((hsub dir).subset hm)
  in_ := fun dir q hm => (hq dir q hm (h.in_ dir q ((hsub dir).subset hm))).1
  nodup := fun dir => (h.nodup dir).sublist (hsub dir)
  hand := hhand
  locked := hlock
  empty := by
    intro q hm hun
    have hm' := (hsub .recv).subset hm
    have hun' := (hq .recv q hm (h.in_ .recv q hm')).2.1 hun
    exact hempty q hm hun' (h.empty q hm' hun')
  openAt := by
    intro dir q hm ho
    have hm' := (hsub dir).subset hm
    rw [(hq dir q hm (h.in_ dir q hm')).2.2]
    exact h.openAt dir q hm' (hopen ho)

theorem ChanInv.frame {c : ChanId} (h : ChanInv s c) (hch : s'.chans c = s.chans c)
    (hl : ∀ k, (s.chans c).inhand ≠ none ∨ (s.chans c).draining = true →
      s.locks (.chan c) = some (.co k) → ∃ k', s'.locks (.chan c) = some (.co k'))
    (hq : ∀ dir, ∀ q ∈ (s.chans c).held dir, q.Keeps (s.cos q.co) (s'.cos q.co)) :
    ChanInv s' c := by
  refine h.sub (fun dir => by rw [hch]) (fun q hm => h.hand q (by rwa [hch] at hm)) ?_
    (fun _ _ _ he => by rwa [hch]) (fun ho => by rwa [hch] at ho) (fun dir => by rw [hch]; exact hq dir)
  intro hne
  rw [hch] at hne
  obtain ⟨k, hk⟩ := h.locked hne
  exact hl k hne hk

/-! ### A whole step -/

/-- What a step of `t` may do to coroutine `j`: nothing, anything to itself while it
    runs, or move a wait it has claimed. -/
def CoChange (t : Tid) (s s' : State) (j : Coid) : Prop :=
  s'.cos j = s.cos j ∨
  (t = .co j ∧ s.status j = .running ∧ (s'.cos j).role = (s.cos j).role ∧
    ∀ u, ¬ s'.Claimed u j) ∨
  (s.status j = .wait ∧ (s'.cos j).role = (s.cos j).role ∧ (∀ u, s.Claimed u j → u = t) ∧
    (∀ u, s'.Claimed u j → u = t) ∧ (s.cos j).Kept (s'.cos j))

theorem Co.Kept.refl (co : Co) : co.Kept co where
  late := rfl
  none := fun _ => rfl
  some := fun w hw => .inl ⟨w, hw, rfl, fun _ _ _ => rfl⟩
  moved := fun _ _ _ => rfl

theorem Co.Kept.trans {co₁ co₂ co₃ : Co} (h : co₁.Kept co₂) (h' : co₂.Kept co₃) :
    co₁.Kept co₃ where
  late := h'.late.trans h.late
  none := by
    intro hn
    have h₂ := h.none hn
    rw [h'.none (by rw [h₂]; exact hn), h₂]
  some := by
    intro w hw
    rcases h.some w hw with ⟨w₂, hw₂, hs, hitem⟩ | ⟨hq, hn⟩
    · rcases h'.some w₂ hw₂ with ⟨w₃, hw₃, hs', hitem'⟩ | ⟨hq, hn⟩
      · refine .inl ⟨w₃, hw₃, hs'.trans hs, fun q hq hd => ?_⟩
        rw [hitem' q (by rw [hs]; exact hq) hd, hitem q hq hd]
      · exact .inr ⟨by rw [← hs]; exact hq, hn⟩
    · exact .inr ⟨hq, by rw [h'.none hn]; exact hn⟩
  moved := by
    intro w hw hq
    rw [← h.moved w hw hq]
    rcases h.some w hw with ⟨w₂, hw₂, hs, -⟩ | ⟨-, hn⟩
    · exact h'.moved w₂ hw₂ (by rw [hs]; exact hq)
    · rw [h'.none hn]

/-- A wait for the first `vpu_ready` is kept, or over. -/
theorem Co.Kept.newborn {co co' : Co} (h : co.Kept co') (hn : co.Newborn) :
    co'.moved = co.moved ∧ co'.Newborn := by
  rcases hw : co.wait with _ | w
  · rw [h.none hw]
    exact ⟨rfl, hn⟩
  · have hborn := hn w hw
    refine ⟨h.moved w hw (by rw [hborn]; rfl), fun w' hw' => ?_⟩
    rcases h.some w hw with ⟨w₂, hw₂, hs, -⟩ | ⟨-, hn⟩
    · rw [hw₂] at hw'
      cases hw'
      exact hs.trans hborn
    · exact nomatch hn.symm.trans hw'

theorem Rely.refl (t : Tid) (s : State) : Rely t s s where
  locks := fun _ => Iff.rfl
  chans := fun _ _ => rfl
  close := fun _ h => h
  parent := fun _ _ => ⟨rfl, rfl⟩
  last := fun _ h h' => ⟨h, h'⟩
  owner := fun _ => rfl
  begun := fun _ _ _ _ => ⟨rfl, rfl⟩
  notifying := fun _ _ _ h => h
  suspend := fun _ => rfl
  daemon := fun _ h => h
  settled := fun _ h => h
  vacant := fun _ h => h
  size := fun _ => rfl
  fresh := Nat.le_refl _
  role := fun _ _ => rfl
  self := fun _ _ _ h h' => ⟨rfl, h, h'⟩
  kept := fun _ _ _ => Co.Kept.refl _
  newborn := fun _ _ _ hn => ⟨rfl, hn⟩
  claims := fun _ _ => rfl

theorem State.Claimed.of_eq {d : Coid} (h : s.Claimed t d) (he : s'.cos d = s.cos d) :
    s'.Claimed t d := by
  unfold State.Claimed
  rw [he]
  exact h

theorem Rely.trans {s₁ s₂ s₃ : State} (h : Rely t s₁ s₂) (h' : Rely t s₂ s₃) :
    Rely t s₁ s₃ where
  locks := fun l => (h.locks l).trans (h'.locks l)
  chans := fun c hc => (h'.chans c ((h.locks _).mp hc)).trans (h.chans c hc)
  close := fun c hc => h'.close c (h.close c hc)
  parent := fun g hg => by
    obtain ⟨hp, hl⟩ := h.parent g hg
    obtain ⟨hp', hl'⟩ := h'.parent g ((h.locks _).mp hg)
    exact ⟨hp'.trans hp, hl'.trans hl⟩
  last := fun g hl hk => by
    obtain ⟨hl₂, hk₂⟩ := h.last g hl hk
    exact h'.last g hl₂ hk₂
  owner := fun g => (h'.owner g).trans (h.owner g)
  begun := fun g k hk ho => by
    obtain ⟨hb, hs⟩ := h.begun g k hk ho
    obtain ⟨hb', hs'⟩ := h'.begun g k hk ((h.owner g).trans ho)
    exact ⟨hb'.trans hb, hs'.trans hs⟩
  notifying := fun g k hk hm => h'.notifying g k hk (h.notifying g k hk hm)
  suspend := fun hl => (h'.suspend ((h.locks _).mp hl)).trans (h.suspend hl)
  daemon := fun d hd => h'.daemon d (h.daemon d hd)
  settled := fun hl hs => h'.settled ((h.locks _).mp hl) (h.settled hl hs)
  vacant := fun hl hd => h'.vacant ((h.locks _).mp hl) (h.vacant hl hd)
  size := fun hl => (h'.size ((h.locks _).mp hl)).trans (h.size hl)
  fresh := Nat.le_trans h.fresh h'.fresh
  role := fun k hk => (h'.role k (Nat.lt_of_lt_of_le hk h.fresh)).trans (h.role k hk)
  self := fun k hk hb hw hs => by
    obtain ⟨hc, hw₂, hs₂⟩ := h.self k hk hb hw hs
    obtain ⟨hc', hw₃, hs₃⟩ := h'.self k hk (Nat.lt_of_lt_of_le hb h.fresh) hw₂ hs₂
    exact ⟨hc'.trans hc, hw₃, hs₃⟩
  kept := fun k hk hb => (h.kept k hk hb).trans (h'.kept k hk (Nat.lt_of_lt_of_le hb h.fresh))
  newborn := by
    intro k hk hb hnew
    obtain ⟨hm, hnew₂⟩ := h.newborn k hk hb hnew
    by_cases hb₂ : s₂.fresh ≤ k
    · obtain ⟨hm', hnew₃⟩ := h'.newborn k hk hb₂ hnew₂
      exact ⟨hm'.trans hm, hnew₃⟩
    · obtain ⟨hm', hnew₃⟩ := (h'.kept k hk (Nat.lt_of_not_le hb₂)).newborn hnew₂
      exact ⟨hm'.trans hm, hnew₃⟩
  claims := fun d hd => by
    rcases hd with hd | hd
    · have h₂ := h.claims d (.inl hd)
      rw [h'.claims d (.inl (hd.of_eq h₂)), h₂]
    · have h₂ := h'.claims d (.inr hd)
      rw [h₂, h.claims d (.inr (hd.of_eq h₂.symm))]

theorem CoChange.role {j : Coid} (h : CoChange t s s' j) :
    (s'.cos j).role = (s.cos j).role := by
  rcases h with h | ⟨-, -, h, -⟩ | ⟨-, h, -⟩
  · rw [h]
  · exact h
  · exact h

theorem CoChange.self {u : Tid} {j : Coid} (h : CoChange t s s' j) (hu : u ≠ t)
    (hj : u = .co j) (hw : s.status j ≠ .wait) : s'.cos j = s.cos j := by
  rcases h with h | ⟨ht, -⟩ | ⟨h, -⟩
  · exact h
  · exact absurd (hj.trans ht.symm) hu
  · exact absurd h hw

theorem CoChange.kept {u : Tid} {j : Coid} (h : CoChange t s s' j) (hu : u ≠ t)
    (hj : u = .co j) : (s.cos j).Kept (s'.cos j) := by
  rcases h with h | ⟨ht, -⟩ | ⟨-, -, -, -, h⟩
  · rw [h]
    exact Co.Kept.refl _
  · exact absurd (hj.trans ht.symm) hu
  · exact h

theorem CoChange.claims {u : Tid} {d : Coid} (h : CoChange t s s' d) (hi : CoInv s d)
    (hu : u ≠ t) (hc : s.Claimed u d ∨ s'.Claimed u d) : s'.cos d = s.cos d := by
  rcases h with h | ⟨-, hrun, -, hno⟩ | ⟨-, -, hb, ha, -⟩
  · exact h
  · rcases hc with hc | hc
    · have := hi.claimed_status hc
      rw [hrun] at this
      cases this
    · exact absurd hc (hno u)
  · rcases hc with hc | hc
    · exact absurd (hb u hc) hu
    · exact absurd (ha u hc) hu

/-- A step that keeps the locks, the statuses, the groups and the timers. -/
structure Change (t : Tid) (s s' : State) : Prop where
  locks : s'.locks = s.locks
  status : s'.status = s.status
  groups : s'.groups = s.groups
  requests : s'.requests = s.requests
  timers : s'.timers = s.timers
  fresh : s'.fresh = s.fresh
  chans : ∀ c, s'.chans c = s.chans c ∨ s.locks (.chan c) = some t
  close : ∀ c, (s.chans c).close = true → (s'.chans c).close = true
  cos : ∀ j, CoChange t s s' j

theorem Change.settled (h : Change t s s') (hs : Settled s) : Settled s' := by
  intro k hk
  rw [h.timers]
  exact hs k (by rw [← (h.cos k).role]; exact hk)

theorem Change.rely (h : Change t s s') (hi : Inv s) {u : Tid} (hu : u ≠ t) : Rely u s s' where
  locks := fun l => by rw [h.locks]
  chans := by
    intro c hc
    rcases h.chans c with he | ht
    · exact he
    · rw [hc] at ht
      exact absurd (Option.some.inj ht) hu
  close := h.close
  parent := fun g _ => by rw [h.groups]; exact ⟨rfl, rfl⟩
  last := fun g hl hk => by rw [h.groups]; exact ⟨hl, hk⟩
  owner := fun g => by rw [h.groups]
  begun := fun g k _ _ => by rw [h.groups]; exact ⟨rfl, rfl⟩
  notifying := fun g k _ hk => by rw [h.groups]; exact hk
  suspend := fun _ => by rw [h.timers]
  daemon := fun d hd => by rw [h.timers]; exact hd
  settled := fun _ => h.settled
  vacant := fun _ hd => by rw [h.timers]; exact hd
  size := fun _ => by rw [h.timers]
  fresh := by rw [h.fresh]
  role := fun k _ => (h.cos k).role
  self := fun k hk _ hw hs =>
    ⟨(h.cos k).self hu hk hw, by rw [h.status]; exact hw, by rw [h.status]; exact hs⟩
  kept := fun k hk _ => (h.cos k).kept hu hk
  newborn := by
    intro k _ hk hn
    have he : s'.cos k = s.cos k := by
      have hst := (hi.fresh k).status hk
      rcases h.cos k with he | ⟨-, hrun, -⟩ | ⟨hw, -⟩
      · exact he
      · exact nomatch hst.symm.trans hrun
      · exact nomatch hst.symm.trans hw
    rw [he]
    exact ⟨rfl, hn⟩
  claims := fun d hc => (h.cos d).claims (hi.co d) hu hc

/-- Waits outside the channels that a step of the channel code leaves alone. -/
def KeepsIdle (s s' : State) : Prop :=
  ∀ p site, (s.cos p).wait = some ⟨site, .idle⟩ → site.quanta = [] →
    (s'.cos p).wait = some ⟨site, .idle⟩

theorem Change.inv (h : Change t s s') (hi : Inv s) (hidle : KeepsIdle s s')
    (hfresh : ∀ k, s.fresh ≤ k → s'.cos k = s.cos k)
    (hco : ∀ j, s'.cos j = s.cos j ∨ CoInv s' j) (hchan : ∀ c, ChanInv s' c) : Inv s' where
  co := by
    intro k
    rcases hco k with hk | hk
    · exact (hi.co k).frame_locks hk (by rw [h.status]) h.locks
    · exact hk
  chan := hchan
  group := by
    intro g
    have hg := hi.group g
    refine ⟨?_, ?_, ?_, ?_⟩
    · rw [h.groups]
      exact hg.count
    · rw [h.groups]
      exact hg.synced
    · rw [h.groups]
      exact hg.last
    · rw [h.groups]
      exact fun p hp hl => hidle p _ (hg.parent p hp hl) rfl
  async := by
    refine ⟨by rw [h.requests]; exact hi.async.nodup, ?_⟩
    rw [h.requests]
    exact fun k hk => hidle k _ (hi.async.wait k hk) rfl
  timer := by
    refine ⟨by rw [h.timers]; exact hi.timer.chans, ?_, ?_, ?_⟩
    · rw [h.timers]
      intro hs
      obtain ⟨d, hd, hw⟩ := hi.timer.suspend hs
      exact ⟨d, hd, hidle d _ hw rfl⟩
    · intro k k' hk hk'
      rw [(h.cos k).role] at hk
      rw [(h.cos k').role] at hk'
      exact hi.timer.unique k k' hk hk'
    · rcases hi.timer.settled with hs | ⟨j, hj, hr, hd⟩
      · exact .inl (h.settled hs)
      · exact .inr ⟨j, by rw [h.locks]; exact hj, by rw [(h.cos j).role]; exact hr,
          by rw [h.timers]; exact hd⟩
  fresh := by
    intro k
    have hf := hi.fresh k
    refine ⟨?_, ?_, ?_, ?_, ?_⟩
    · rw [h.fresh, h.status]
      exact hf.status
    · rw [h.fresh, h.status]
      exact hf.born
    · rw [h.fresh]
      exact fun hk => by rw [hfresh k hk]; exact hf.wait hk
    · rw [h.fresh]
      exact fun hk => by rw [hfresh k hk]; exact hf.role hk
    · rw [h.timers, h.fresh]
      exact hf.daemon

/-! ### The commands outside the channels -/

theorem execLock_inv {cmd : LockCmd} {r : Unit} (he : execLock t s cmd = some (r, s')) :
    ∃ l o, s' = s.setLock l o := by
  cases cmd with
  | acquire l =>
    simp only [execLock] at he
    split at he
    · cases he
      exact ⟨l, some t, rfl⟩
    · cases he
  | release l =>
    cases he
    exact ⟨l, none, rfl⟩

/-- The wait that a command begins, outside the channels. -/
def Cmd.begins : Cmd → Option Site
  | .group (.setParent g) => some (.group g)
  | .async .queueAdd => some .async
  | .timer .setSuspend => some .timer
  | _ => none

theorem Cmd.begins_quanta {cmd : Cmd} {site : Site} (h : cmd.begins = some site) : site.quanta = [] := by
  unfold begins at h
  split at h <;> cases h <;> rfl

/-- A step that leaves the locks, the status words and the channels alone.  One coroutine may
    begin the wait of the command, or have its wait claimed. -/
structure Apart (t : Tid) (cmd : Cmd) (s s' : State) : Prop where
  locks : s'.locks = s.locks
  status : s'.status = s.status
  chans : s'.chans = s.chans
  fresh : s'.fresh = s.fresh
  cos : s'.cos = s.cos ∨
    (∃ k site, t = .co k ∧ cmd.begins = some site ∧ s'.cos = (s.setCo k (Co.publish site)).cos) ∨
    ∃ d, s'.cos = (s.setCo d (Co.call t)).cos

theorem call_apart (s : State) (t : Tid) (o : Option Coid) (cmd : Cmd) : Apart t cmd s (s.call t o) := by
  cases o with
  | none => exact ⟨rfl, rfl, rfl, rfl, .inl rfl⟩
  | some d => exact ⟨rfl, rfl, rfl, rfl, .inr (.inr ⟨d, rfl⟩)⟩

theorem execGroup_apart {cmd : GroupCmd} {r : cmd.Res} (he : execGroup t s cmd = some (r, s')) :
    Apart t (.group cmd) s s' := by
  cases cmd with
  | inc g | incErrors g | readCount g | readErrors g =>
    cases he
    exact ⟨rfl, rfl, rfl, rfl, .inl rfl⟩
  | dec g by_ =>
    cases t with
    | co k =>
      cases he
      exact ⟨rfl, rfl, rfl, rfl, .inl rfl⟩
    | _ => cases he
  | readParent g =>
    cases he
    obtain ⟨hlocks, hstatus, hchans, hfresh, hcos⟩ :=
      call_apart (s.setGroup g Group.look) t (s.groups g).parent (.group (.readParent g))
    exact ⟨hlocks, hstatus, hchans, hfresh, hcos⟩
  | setParent g =>
    cases t with
    | co k =>
      cases he
      exact ⟨rfl, rfl, rfl, rfl, .inr (.inl ⟨k, _, rfl, rfl, rfl⟩)⟩
    | _ => cases he

theorem execAsync_apart {cmd : AsyncCmd} {r : cmd.Res} (he : execAsync t s cmd = some (r, s')) :
    Apart t (.async cmd) s s' := by
  cases cmd with
  | readThreads | readStatus =>
    cases he
    exact ⟨rfl, rfl, rfl, rfl, .inl rfl⟩
  | queueAdd =>
    cases t with
    | co k =>
      cases he
      exact ⟨rfl, rfl, rfl, rfl, .inr (.inl ⟨k, _, rfl, rfl, rfl⟩)⟩
    | _ => cases he
  | queueRem =>
    cases he
    obtain ⟨hlocks, hstatus, hchans, hfresh, hcos⟩ := call_apart s t s.requests.head? (.async .queueRem)
    exact ⟨hlocks, hstatus, hchans, hfresh, hcos⟩

theorem execTimer_apart {cmd : TimerCmd} {r : cmd.Res} (he : execTimer t s cmd = some (r, s')) :
    Apart t (.timer cmd) s s' := by
  cases cmd with
  | setSuspend =>
    cases t with
    | co k =>
      cases he
      exact ⟨rfl, rfl, rfl, rfl, .inr (.inl ⟨k, _, rfl, rfl, rfl⟩)⟩
    | _ => cases he
  | clearSuspend =>
    cases he
    obtain ⟨hlocks, hstatus, hchans, hfresh, hcos⟩ :=
      call_apart (s.setTimers (Timers.setSuspend false)) t s.timers.daemon (.timer .clearSuspend)
    exact ⟨hlocks, hstatus, hchans, hfresh, hcos⟩
  | _ =>
    cases he
    exact ⟨rfl, rfl, rfl, rfl, .inl rfl⟩

theorem execNet_apart {cmd : NetCmd} {r : cmd.Res} (he : execNet t s cmd = some (r, s')) :
    Apart t (.net cmd) s s' := by
  cases cmd with
  | init d mode =>
    cases t with
    | co k =>
      cases he
      exact ⟨rfl, rfl, rfl, rfl, .inl rfl⟩
    | _ => cases he
  | casDone d =>
    simp only [execNet] at he
    split at he <;> cases he <;> exact ⟨rfl, rfl, rfl, rfl, .inl rfl⟩
  | _ =>
    cases he
    exact ⟨rfl, rfl, rfl, rfl, .inl rfl⟩

/-! ### The start of an operation and the environment -/

/-- A step that leaves alone the locks, the status words, the channels and the coroutines. -/
structure Spared (s s' : State) : Prop where
  locks : s'.locks = s.locks
  status : s'.status = s.status
  chans : s'.chans = s.chans
  fresh : s'.fresh = s.fresh
  cos : s'.cos = s.cos

theorem enter_spared {a : Call} (he : enter t a s = some s') : Spared s s' := by
  cases t with
  | co k =>
    simp only [enter] at he
    split at he
    · split at he
      · cases a <;> simp only [enterCo] at he <;> (try split at he) <;> cases he <;>
          exact ⟨rfl, rfl, rfl, rfl, rfl⟩
      · split at he <;> cases he
        exact ⟨rfl, rfl, rfl, rfl, rfl⟩
    · cases he
  | async a' =>
    simp only [enter] at he
    split at he <;> cases he
    exact ⟨rfl, rfl, rfl, rfl, rfl⟩
  | sched v =>
    cases a with
    | netpollWakeup d =>
      simp only [enter] at he
      split at he <;> cases he
      exact ⟨rfl, rfl, rfl, rfl, rfl⟩
    | _ => cases he
  | vpu k => cases he

theorem env_same {e : Env} (he : env e s = some s') :
    s'.cos = s.cos ∧ s'.chans = s.chans ∧ s'.fresh = s.fresh := by
  cases e with
  | tick us =>
    cases he
    exact ⟨rfl, rfl, rfl⟩
  | _ =>
    simp only [env] at he
    split at he <;> cases he
    exact ⟨rfl, rfl, rfl⟩

end Coroc.Runtime
