import Coroc.NetPoll

/-!
# What net waits rely on (`src/netpoll.c`, `src/netpoll_epoll.c`)

Three properties of every run of the model in `Coroc.NetPoll`.

* `ended_once`: a timed wait is ended by one party, and its three references are dropped once
  each, whoever comes first.
* `registered`: a caller that sleeps is registered with epoll.  Epoll has one entry for each
  fd, and the result of `EPOLL_CTL_ADD` is not looked at, so this needs that no fd is added
  while it has an entry.
* `alive_when_touched`: nobody touches a released descriptor.  A poller takes no reference for
  the descriptors of its batch, so this needs that the last reference of a descriptor is not
  dropped while it is in a batch that has not been gone through.
-/

namespace Coroc.NetPoll

open Coroc.Transition Coroc.ThreadPool

section
variable {δ : Type} [DecidableEq δ] {n : Nat}

/-! ### A timed wait is ended once -/

/-- Over the life of a descriptor the caller is made ready once, each reference is dropped
    once and the release handler runs once; all of it is done when the call returns, and
    a caller that sleeps has somebody to wake it. -/
structure EndedOnce (x : Desc δ n) : Prop where
  wakes : x.wakes ≤ 1
  waiterPuts : x.waiterPuts ≤ 1
  netpollPuts : x.netpollPuts ≤ 1
  timerPuts : x.timerPuts ≤ 1
  released : x.released ≤ 1
  returned : ∀ mode, x.pc = .returned mode → x.wakes = 1 ∧ x.waiterPuts = 1 ∧ x.netpollPuts = 1 ∧
    x.timerPuts = 1 ∧ x.released = 1
  pending : x.pc = .asleep → x.wakes = 0 → x.winner ≠ none ∨ (x.done = false ∧ x.inHeap = true)

omit [DecidableEq δ] in
theorem DescOk.endedOnce {d : δ} {x : Desc δ n} (h : DescOk d x) (htimed : x.timed = true) :
    EndedOnce x := by
  obtain ⟨hrefs, hwaiter, hreleased, hearly, hlife, hfresh, hlock, hrunning, hasleep, hreadied, hwoken,
    hawake, hinHeap, htimer, hfired, hfound, huntimed⟩ := h
  constructor
  case returned =>
    intro mode hpc
    simp only [hpc, CallPc.rank] at *
    grind
  case pending =>
    intro hpc hzero
    simp only [hpc, CallPc.rank] at *
    grind
  all_goals grind

/-- **A timed wait is ended once**, in every run. -/
theorem ended_once {s : State δ n} (h : Reach (poolStep step) (fun _ _ => True) Init s) {d : δ}
    (htimed : (s.shared.desc d).timed = true) : EndedOnce (s.shared.desc d) :=
  ((good_reach h).1.desc d).endedOnce htimed

/-- No call has been made; two descriptors, one poller. -/
def quiet : State (Fin 2) 1 :=
  { shared :=
      { desc := fun _ =>
          { fd := 0, request := .none, timed := false, pc := .idle, mode := .none, done := false
            lock := none, refcnt := 0, wait := .running, inHeap := false, winner := none
            removed := false, wakes := 0, waiterPuts := 0, netpollPuts := 0, timerPuts := 0
            released := 0 }
        epoll := fun _ => none
        numOp := 0
        manager := none }
    locals := fun t =>
      match t with
      | .call _ => .call
      | .poller _ => .poll
      | .daemon => .daemon }

theorem quiet_init : Init quiet :=
  ⟨fun _ => ⟨rfl, rfl, rfl, rfl, rfl, rfl, rfl, rfl, rfl, rfl, rfl, rfl, rfl⟩, fun _ => rfl, rfl, rfl,
    fun _ => rfl, fun _ => rfl, rfl⟩

def reading : Mode := ⟨true, false, false⟩

/-- Call `d` waits to read from fd 3, up to its sleep. -/
def timedWait (d : Fin 2) : List (Party (Fin 2) 1 × Choice (Fin 2)) :=
  (.call d, .start 3 reading true) :: List.replicate 10 (.call d, .go)

/-- The poller gets its event and ends the call, which returns. -/
def polled : List (Party (Fin 2) 1 × Choice (Fin 2)) :=
  timedWait 0 ++ [(.poller 0, .batch [(0, ⟨false, true, false⟩)])] ++
    List.replicate 9 (.poller 0, .go) ++ List.replicate 7 (.call 0, .go)

theorem polled_ended_once :
    ∃ s : State (Fin 2) 1, (s.shared.desc 0).pc = .returned reading ∧ EndedOnce (s.shared.desc 0) := by
  obtain ⟨s, hs, hp⟩ := Reach.exists_of_run (poolStep step) Init quiet_init polled
    (fun s => decide ((s.shared.desc 0).pc = .returned reading ∧ (s.shared.desc 0).timed = true))
    (by decide +kernel)
  have hp' := of_decide_eq_true hp
  exact ⟨s, hp'.1, ended_once hs hp'.2⟩

/-! ### A sleeping caller is registered -/

/-- `EPOLL_CTL_ADD` finds no entry for its fd. -/
def freshFd (s : Shared δ n) : Party δ n → Bool
  | .call d => decide ((s.desc d).pc = .addCtl → s.epoll (s.desc d).fd = none)
  | _ => true

def freshFds (s : State δ n) (l : Party δ n × Choice δ) : Prop := freshFd s.shared l.1 = true

instance (s : State δ n) (l : Party δ n × Choice δ) : Decidable (freshFds s l) :=
  inferInstanceAs (Decidable (freshFd s.shared l.1 = true))

/-- From `EPOLL_CTL_ADD` to `EPOLL_CTL_DEL` a descriptor has its entry. -/
def Registered (s : Shared δ n) : Prop :=
  ∀ d, 6 ≤ (s.desc d).pc.rank → (s.desc d).removed = false →
    s.epoll (s.desc d).fd = some (d, (s.desc d).request)

/-- A step that leaves the epoll set alone registers nothing. -/
theorem Registered.of_same {s s' : Shared δ n} {d : δ} {x' : Desc δ n} (hr : Registered s)
    (hepoll : s'.epoll = s.epoll) (hdesc : s'.desc = Function.update s.desc d x')
    (hrank : 6 ≤ x'.pc.rank → 6 ≤ (s.desc d).pc.rank ∧ x'.fd = (s.desc d).fd ∧
      x'.request = (s.desc d).request ∧ x'.removed = (s.desc d).removed) : Registered s' := by
  intro e he hrem
  rw [hepoll]
  by_cases hed : e = d
  · subst hed
    rw [hdesc, Function.update_self] at he hrem ⊢
    obtain ⟨hr₀, hfd, hreq, hremoved⟩ := hrank he
    rw [hfd, hreq]
    exact hr e hr₀ (hremoved ▸ hrem)
  · rw [hdesc, Function.update_of_ne hed] at he hrem ⊢
    exact hr e he hrem

theorem addCtl_registered {s : Shared δ n} {d : δ} (hk : Keeps s) (hr : Registered s)
    (hpc : (s.desc d).pc = .addCtl) (hfree : s.epoll (s.desc d).fd = none) :
    Registered ((s.ctlAdd d).modify d added) := by
  have hdone : (s.desc d).done = false := (hk.desc d).early (by rw [hpc]; decide)
  have hmode : (s.desc d).mode = (s.desc d).request := by
    rcases (hk.desc d).life with ⟨-, -, -, -, -, h⟩ | ⟨h, -⟩ | ⟨h, -⟩
    · exact h (by rw [hpc]; decide)
    · exact nomatch hdone.symm.trans h
    · exact nomatch hdone.symm.trans h
  intro e he hrem
  simp only [Shared.ctlAdd, hfree, Shared.modify] at he hrem ⊢
  by_cases hed : e = d
  · subst hed
    simp only [Function.update_self]
    rw [hmode]
    exact Function.update_self (s.desc e).fd _ s.epoll
  · simp only [Function.update_of_ne hed] at he hrem ⊢
    have hentry := hr e he hrem
    -- another descriptor of this fd would have the entry
    have hfd : (s.desc e).fd ≠ (s.desc d).fd := by
      intro hsame
      rw [hsame, hfree] at hentry
      cases hentry
    rw [Function.update_of_ne hfd]
    exact hentry

theorem ctlDel_registered {s : Shared δ n} {d : δ} {t : Party δ n} (hk : Keeps s) (hr : Registered s)
    (hwon : (s.desc d).Won t 1 false) :
    Registered ((s.ctlDel d).modify d fun x => { x with removed := true }) := by
  intro e he hrem
  by_cases hed : e = d
  · subst hed
    simp [Shared.modify] at hrem
  · simp only [Shared.ctlDel, Shared.modify, Function.update_of_ne hed] at he hrem ⊢
    have hentry := hr e he hrem
    have hown := hr d ((hk.desc d).winner hwon).1 hwon.2.2.2
    have hfd : (s.desc e).fd ≠ (s.desc d).fd := by
      intro hsame
      rw [hsame, hown] at hentry
      exact hed (Prod.mk.inj (Option.some.inj hentry)).1.symm
    rw [Function.update_of_ne hfd]
    exact hentry

theorem callStep_registered {s s' : Shared δ n} {d : δ} {ch : Choice δ} (hk : Keeps s)
    (hr : Registered s) (hfresh : (s.desc d).pc = .addCtl → s.epoll (s.desc d).fd = none)
    (hs : callStep d s ch = some s') : Registered s' := by
  unfold callStep at hs
  cases hpc : (s.desc d).pc with
  | addCtl =>
    simp only [hpc, Option.some.injEq] at hs
    subst hs
    exact addCtl_registered hk hr hpc (hfresh hpc)
  | idle =>
    simp only [hpc] at hs
    split at hs
    · rename_i fd mode timed
      cases hs
      refine hr.of_same rfl rfl fun hrank => ?_
      cases timed <;> simp [Desc.init, CallPc.rank] at hrank
    · cases hs
  | returned mode =>
    simp only [hpc] at hs
    cases hs
  | timerGet | acquire | addGet | addNum =>
    simp only [hpc, Option.some.injEq, Option.ite_none_right_eq_some] at hs
    first
      | subst hs
      | obtain ⟨-, rfl⟩ := hs
    refine hr.of_same rfl rfl fun hrank => ?_
    simp [Desc.goto, CallPc.rank] at hrank
  | timerLock | timerInsert | timerUnlock | suspend | release | asleep | delLock | delTimer
  | delUnlock | timerPut | readMode | put =>
    simp only [hpc, Option.some.injEq, Option.ite_none_right_eq_some] at hs
    first
      | subst hs
      | obtain ⟨-, rfl⟩ := hs
    refine hr.of_same rfl rfl fun _ => ⟨?_, rfl, rfl, rfl⟩
    rw [hpc]
    simp [CallPc.rank]

theorem pollerStep_registered {i : Fin n} {s s' : Shared δ n} {pc pc' : Pc δ} {ch : Choice δ}
    (hk : Keeps s) (hat : At (.poller i) pc s) (hr : Registered s)
    (hs : pollerStep i s pc ch = some (s', pc')) : Registered s' := by
  cases pc with
  | poll =>
    simp only [pollerStep] at hs
    split at hs
    · split at hs <;> cases hs
      exact hr
    · cases hs
  | cas batch mode =>
    rcases batch with _ | ⟨⟨d, ev⟩, rest⟩
    · cases hs
      exact hr
    · simp only [pollerStep] at hs
      split at hs <;> cases hs
      · exact hr.of_same rfl rfl fun hrank => ⟨hrank, rfl, rfl, rfl⟩
      · exact hr
  | remNum d rest mode =>
    cases hs
    exact hr
  | remCtl d rest mode =>
    cases hs
    exact ctlDel_registered hk hr (hat.won d 1 false rfl)
  | lock d rest mode =>
    simp only [pollerStep, Option.ite_none_right_eq_some, Option.some.injEq, Prod.mk.injEq] at hs
    obtain ⟨-, rfl, -⟩ := hs
    exact hr.of_same rfl rfl fun hrank => ⟨hrank, rfl, rfl, rfl⟩
  | ready d rest mode =>
    simp only [pollerStep, vpuReady, Option.map_eq_some_iff, Option.ite_none_right_eq_some,
      Option.some.injEq, Prod.mk.injEq] at hs
    obtain ⟨_, ⟨-, rfl⟩, rfl, -⟩ := hs
    exact hr.of_same rfl rfl fun hrank => ⟨hrank, rfl, rfl, rfl⟩
  | setMode | remPut | unlock =>
    cases hs
    exact hr.of_same rfl rfl fun hrank => ⟨hrank, rfl, rfl, rfl⟩
  | _ => cases hs

theorem daemonStep_registered {s s' : Shared δ n} {pc pc' : Pc δ} {ch : Choice δ} (hk : Keeps s)
    (hat : At .daemon pc s) (hr : Registered s) (hs : daemonStep s pc ch = some (s', pc')) :
    Registered s' := by
  cases pc with
  | daemon =>
    simp only [daemonStep, Option.ite_none_right_eq_some, Option.some.injEq, Prod.mk.injEq] at hs
    obtain ⟨-, rfl, -⟩ := hs
    exact hr
  | scan =>
    simp only [daemonStep] at hs
    split at hs
    · split at hs <;> cases hs
      exact hr
    · cases hs
      exact hr
    · cases hs
  | fireLock d =>
    simp only [daemonStep, Option.ite_none_right_eq_some, Option.some.injEq, Prod.mk.injEq] at hs
    obtain ⟨-, rfl, -⟩ := hs
    exact hr.of_same rfl rfl fun hrank => ⟨hrank, rfl, rfl, rfl⟩
  | fireCas d =>
    simp only [daemonStep] at hs
    split at hs <;> cases hs
    · exact hr.of_same rfl rfl fun hrank => ⟨hrank, rfl, rfl, rfl⟩
    · exact hr
  | fireRemNum d =>
    cases hs
    exact hr
  | fireRemCtl d =>
    cases hs
    exact ctlDel_registered hk hr (hat.won d 1 false rfl)
  | fireReady d =>
    simp only [daemonStep, vpuReady, Option.map_eq_some_iff, Option.ite_none_right_eq_some,
      Option.some.injEq, Prod.mk.injEq] at hs
    obtain ⟨_, ⟨-, rfl⟩, rfl, -⟩ := hs
    exact hr.of_same rfl rfl fun hrank => ⟨hrank, rfl, rfl, rfl⟩
  | fireMode | fireRemPut | fireUnlock | firePut | fireDel =>
    cases hs
    exact hr.of_same rfl rfl fun hrank => ⟨hrank, rfl, rfl, rfl⟩
  | _ => cases hs

theorem registered_reach {s : State δ n} (h : Reach (poolStep step) freshFds Init s) :
    Registered s.shared := by
  refine (h.invariant (I := fun s => s.Good Keeps At ∧ Registered s.shared) (fun s hs => ?_) ?_).2
  · refine ⟨init_good hs, fun d hrank => ?_⟩
    simp [(hs.desc d).1, CallPc.rank] at hrank
  · rintro s ⟨t, ch⟩ s' ⟨hgood, hr⟩ hok hl
    refine ⟨modular.good_step hgood trivial hl, ?_⟩
    obtain ⟨⟨sh, pc⟩, hstep, hsh, -⟩ := poolStep_eq_some hl
    rw [hsh]
    have hat := hgood.2 t
    cases t with
    | call d =>
      simp only [step, Option.map_eq_some_iff, Prod.mk.injEq] at hstep
      obtain ⟨s₁, hcall, rfl, -⟩ := hstep
      exact callStep_registered hgood.1 hr (of_decide_eq_true hok) hcall
    | poller i => exact pollerStep_registered hgood.1 hat hr hstep
    | daemon => exact daemonStep_registered hgood.1 hat hr hstep

/-- The caller is suspended. -/
def CallPc.suspended : CallPc → Bool
  | .release | .asleep => true
  | _ => false

/-- **Every suspended net waiter is registered**, in every run in which each `EPOLL_CTL_ADD`
    finds no entry for its fd. -/
theorem registered {s : State δ n} (h : Reach (poolStep step) freshFds Init s) {d : δ}
    (hsleep : (s.shared.desc d).pc.suspended = true) (hdone : (s.shared.desc d).done = false) :
    s.shared.epoll (s.shared.desc d).fd = some (d, (s.shared.desc d).request) := by
  have hok := (good_reach h).1.desc d
  refine registered_reach h d ?_ ?_
  · cases hpc : (s.shared.desc d).pc with
    | release | asleep => decide
    | _ =>
      rw [hpc] at hsleep
      cases hsleep
  · rcases hok.life with ⟨-, -, hrem, -⟩ | ⟨hd, -⟩ | ⟨hd, -⟩
    · exact hrem
    · exact nomatch hdone.symm.trans hd
    · exact nomatch hdone.symm.trans hd

theorem waiting_registered :
    ∃ s : State (Fin 2) 1, ((s.shared.desc 0).pc = .asleep ∧ (s.shared.desc 0).done = false) ∧
      s.shared.epoll (s.shared.desc 0).fd = some (0, (s.shared.desc 0).request) := by
  obtain ⟨s, hs, hp⟩ := Reach.exists_of_runOk (poolStep step) freshFds Init quiet_init (timedWait 0)
    (fun s => decide ((s.shared.desc 0).pc = .asleep ∧ (s.shared.desc 0).done = false))
    (by decide +kernel)
  have hp' := of_decide_eq_true hp
  exact ⟨s, hp', registered hs (by rw [hp'.1]; rfl) hp'.2⟩

/-- One call waits to read from fd 3, another to write to it: the second `EPOLL_CTL_ADD` fails,
    and nobody looks. -/
def readAndWrite : List (Party (Fin 2) 1 × Choice (Fin 2)) :=
  [(.call 0, .start 3 reading false)] ++ List.replicate 6 (.call 0, .go) ++
    [(.call 1, .start 3 ⟨false, true, false⟩ false)] ++ List.replicate 6 (.call 1, .go)

theorem not_registered :
    ¬ ∀ s : State (Fin 2) 1, Reach (poolStep step) (fun _ _ => True) Init s → ∀ d,
      (s.shared.desc d).pc.suspended = true → (s.shared.desc d).done = false →
      s.shared.epoll (s.shared.desc d).fd = some (d, (s.shared.desc d).request) := by
  intro hall
  obtain ⟨s, hs, hp⟩ := Reach.exists_of_run (poolStep step) Init quiet_init readAndWrite
    (fun s => decide ((s.shared.desc 1).pc.suspended = true ∧ (s.shared.desc 1).done = false ∧
      s.shared.epoll (s.shared.desc 1).fd = some (0, reading))) (by decide +kernel)
  obtain ⟨hsleep, hdone, hentry⟩ := of_decide_eq_true hp
  have hown := hall s hs 1 hsleep hdone
  rw [hentry] at hown
  exact absurd (Prod.mk.inj (Option.some.inj hown)).1 (by decide)

/-! ### Nobody touches a released descriptor -/

/-- The descriptor that the next step of a party reads or writes. -/
def touches (s : Shared δ n) : Party δ n → Pc δ → Option δ
  | .call d, _ => if 1 ≤ (s.desc d).pc.rank ∧ (s.desc d).pc.rank ≤ 17 then some d else none
  | .poller _, .cas ((d, _) :: _) _ => some d
  | .poller _, .setMode d _ _ _ | .poller _, .lock d _ _ | .poller _, .remPut d _ _
  | .poller _, .remCtl d _ _ | .poller _, .unlock d _ _ | .poller _, .ready d _ _ => some d
  | .daemon, .fireLock d | .daemon, .fireCas d | .daemon, .fireMode d | .daemon, .fireRemPut d
  | .daemon, .fireRemCtl d | .daemon, .fireUnlock d _ | .daemon, .fireReady d
  | .daemon, .firePut d => some d
  | _, _ => none

/-- The descriptor whose reference the next step of a party drops. -/
def drops (s : Shared δ n) : Party δ n → Pc δ → Option δ
  | .call d, _ =>
      match (s.desc d).pc with
      | .timerPut | .put _ => some d
      | _ => none
  | .poller _, .remPut d _ _ | .daemon, .fireRemPut d | .daemon, .firePut d => some d
  | _, _ => none

/-- Nobody drops the last reference of a descriptor that is in the part of a batch a poller
    has not looked at. -/
def keptForPollers (s : State δ n) (l : Party δ n × Choice δ) : Prop :=
  ∀ d ∈ drops s.shared l.1 (s.locals l.1), (s.shared.desc d).refcnt = 1 →
    ∀ i, ∀ e ∈ (s.locals (.poller i)).rest, e.1 ≠ d

instance (s : State δ n) (l : Party δ n × Choice δ) : Decidable (keptForPollers s l) :=
  inferInstanceAs (Decidable (∀ d ∈ drops s.shared l.1 (s.locals l.1),
    (s.shared.desc d).refcnt = 1 → ∀ i, ∀ e ∈ (s.locals (.poller i)).rest, e.1 ≠ d))

omit [DecidableEq δ] in
/-- As long as the call goes on, its own reference is there. -/
theorem DescOk.refcnt_pos {d : δ} {x : Desc δ n} (h : DescOk d x) (hlow : 1 ≤ x.pc.rank)
    (hhigh : x.pc.rank ≤ 17) : 0 < x.refcnt := by
  obtain ⟨hrefs, hwaiter, hreleased, hearly, hlife, hfresh, hlock, hrunning, hasleep, hreadied, hwoken,
    hawake, hinHeap, htimer, hfired, hfound, huntimed⟩ := h
  simp only [Desc.gets] at hrefs
  grind

/-- The reference counts after a step that drops a reference of `o` at most. -/
def Counts (o : Option δ) (s s' : Shared δ n) : Prop :=
  ∀ e, (s.desc e).refcnt ≤ (s'.desc e).refcnt ∨
    ((s.desc e).refcnt ≤ (s'.desc e).refcnt + 1 ∧ o = some e)

omit [DecidableEq δ] in
theorem Counts.of_same {o : Option δ} {s s' : Shared δ n} (hdesc : s'.desc = s.desc) :
    Counts o s s' := by
  intro e
  rw [hdesc]
  exact .inl (Nat.le_refl _)

theorem Counts.of_update {o : Option δ} {s s' : Shared δ n} {d : δ} {x' : Desc δ n}
    (hdesc : s'.desc = Function.update s.desc d x')
    (h : (s.desc d).refcnt ≤ x'.refcnt ∨ ((s.desc d).refcnt ≤ x'.refcnt + 1 ∧ o = some d)) :
    Counts o s s' := by
  intro e
  by_cases hed : e = d
  · subst hed
    rw [hdesc, Function.update_self]
    exact h
  · rw [hdesc, Function.update_of_ne hed]
    exact .inl (Nat.le_refl _)

theorem callStep_counts {s s' : Shared δ n} {d : δ} {ch : Choice δ} {pc : Pc δ} (hk : Keeps s)
    (hs : callStep d s ch = some s') : Counts (drops s (.call d) pc) s s' := by
  unfold callStep at hs
  cases hpc : (s.desc d).pc with
  | idle =>
    have hrefs := (hk.desc d).refs
    simp only [hpc, Desc.gets, CallPc.rank] at hs hrefs
    split at hs
    · cases hs
      refine .of_update rfl (.inl ?_)
      simp at hrefs
      omega
    · cases hs
  | addCtl =>
    simp only [hpc, Option.some.injEq] at hs
    subst hs
    have hdesc : ((s.ctlAdd d).modify d added).desc =
        Function.update s.desc d (added (s.desc d)) := by
      simp only [Shared.modify, (ctlAdd_desc s d).1]
    exact .of_update hdesc (.inl (Nat.le_refl _))
  | timerGet | addGet =>
    simp only [hpc, Option.some.injEq] at hs
    subst hs
    exact .of_update rfl (.inl (Nat.le_succ _))
  | timerPut | put =>
    simp only [hpc, Option.some.injEq] at hs
    subst hs
    refine .of_update rfl (.inr ⟨?_, by simp [drops, hpc]⟩)
    simp only [Desc.goto, Desc.put]
    omega
  | returned mode =>
    simp only [hpc] at hs
    cases hs
  | acquire | addNum | timerLock | timerInsert | timerUnlock | suspend | release | asleep | delLock
  | delTimer | delUnlock | readMode =>
    simp only [hpc, Option.some.injEq, Option.ite_none_right_eq_some] at hs
    first
      | subst hs
      | obtain ⟨-, rfl⟩ := hs
    exact .of_update rfl (.inl (Nat.le_refl _))

theorem pollerStep_counts {i : Fin n} {s s' : Shared δ n} {pc pc' : Pc δ} {ch : Choice δ}
    (hs : pollerStep i s pc ch = some (s', pc')) : Counts (drops s (.poller i) pc) s s' := by
  cases pc with
  | poll =>
    simp only [pollerStep] at hs
    split at hs
    · split at hs <;> cases hs
      exact .of_same rfl
    · cases hs
  | cas batch mode =>
    rcases batch with _ | ⟨⟨d, ev⟩, rest⟩
    · cases hs
      exact .of_same rfl
    · simp only [pollerStep] at hs
      split at hs <;> cases hs
      · exact .of_update rfl (.inl (Nat.le_refl _))
      · exact .of_same rfl
  | remPut d rest mode =>
    cases hs
    refine .of_update rfl (.inr ⟨?_, rfl⟩)
    simp only [Desc.put]
    omega
  | remNum d rest mode =>
    cases hs
    exact .of_same rfl
  | lock d rest mode =>
    simp only [pollerStep, Option.ite_none_right_eq_some, Option.some.injEq, Prod.mk.injEq] at hs
    obtain ⟨-, rfl, -⟩ := hs
    exact .of_update rfl (.inl (Nat.le_refl _))
  | ready d rest mode =>
    simp only [pollerStep, vpuReady, Option.map_eq_some_iff, Option.ite_none_right_eq_some,
      Option.some.injEq, Prod.mk.injEq] at hs
    obtain ⟨_, ⟨-, rfl⟩, rfl, -⟩ := hs
    exact .of_update rfl (.inl (Nat.le_refl _))
  | setMode | remCtl | unlock =>
    cases hs
    exact .of_update rfl (.inl (Nat.le_refl _))
  | _ => cases hs

theorem daemonStep_counts {s s' : Shared δ n} {pc pc' : Pc δ} {ch : Choice δ}
    (hs : daemonStep s pc ch = some (s', pc')) : Counts (drops s .daemon pc) s s' := by
  cases pc with
  | daemon =>
    simp only [daemonStep, Option.ite_none_right_eq_some, Option.some.injEq, Prod.mk.injEq] at hs
    obtain ⟨-, rfl, -⟩ := hs
    exact .of_same rfl
  | scan =>
    simp only [daemonStep] at hs
    split at hs
    · split at hs <;> cases hs
      exact .of_same rfl
    · cases hs
      exact .of_same rfl
    · cases hs
  | fireLock d =>
    simp only [daemonStep, Option.ite_none_right_eq_some, Option.some.injEq, Prod.mk.injEq] at hs
    obtain ⟨-, rfl, -⟩ := hs
    exact .of_update rfl (.inl (Nat.le_refl _))
  | fireCas d =>
    simp only [daemonStep] at hs
    split at hs <;> cases hs
    · exact .of_update rfl (.inl (Nat.le_refl _))
    · exact .of_same rfl
  | fireRemNum d =>
    cases hs
    exact .of_same rfl
  | fireReady d =>
    simp only [daemonStep, vpuReady, Option.map_eq_some_iff, Option.ite_none_right_eq_some,
      Option.some.injEq, Prod.mk.injEq] at hs
    obtain ⟨_, ⟨-, rfl⟩, rfl, -⟩ := hs
    exact .of_update rfl (.inl (Nat.le_refl _))
  | fireRemPut d | firePut d =>
    cases hs
    refine .of_update rfl (.inr ⟨?_, rfl⟩)
    simp only [Desc.put]
    omega
  | fireMode | fireRemCtl | fireUnlock | fireDel =>
    cases hs
    exact .of_update rfl (.inl (Nat.le_refl _))
  | _ => cases hs

theorem step_counts {t : Party δ n} {s s' : Shared δ n} {pc pc' : Pc δ} {ch : Choice δ}
    (hk : Keeps s) (hs : step t s pc ch = some (s', pc')) : Counts (drops s t pc) s s' := by
  cases t with
  | call d =>
    simp only [step, Option.map_eq_some_iff, Prod.mk.injEq] at hs
    obtain ⟨s₁, hcall, rfl, -⟩ := hs
    exact callStep_counts hk hcall
  | poller i => exact pollerStep_counts hs
  | daemon => exact daemonStep_counts hs

/-- What a poller is yet to look at after a step of its own. -/
theorem pollerStep_rest {i : Fin n} {s s' : Shared δ n} {pc pc' : Pc δ} {ch : Choice δ}
    (hs : pollerStep i s pc ch = some (s', pc')) :
    (∀ e ∈ pc'.rest, e ∈ pc.rest) ∨
      (s' = s ∧ ∀ e ∈ pc'.rest, (s.epoll (s.desc e.1).fd).map Prod.fst = some e.1) := by
  cases pc with
  | poll =>
    simp only [pollerStep] at hs
    split at hs
    · split at hs
      · rename_i events hcond
        cases hs
        exact .inr ⟨rfl, hcond.2.2⟩
      · cases hs
    · cases hs
  | cas batch mode =>
    rcases batch with _ | ⟨⟨d, ev⟩, rest⟩
    · cases hs
      exact .inl (fun _ h => by cases h)
    · simp only [pollerStep] at hs
      split at hs <;> cases hs
      · exact .inl fun e he => List.mem_cons_of_mem _ he
      · exact .inl fun e he => List.mem_cons_of_mem _ he
  | lock d rest mode =>
    simp only [pollerStep, Option.ite_none_right_eq_some, Option.some.injEq, Prod.mk.injEq] at hs
    obtain ⟨-, -, rfl⟩ := hs
    exact .inl fun e he => he
  | ready d rest mode =>
    simp only [pollerStep, Option.map_eq_some_iff, Prod.mk.injEq] at hs
    obtain ⟨_, -, -, rfl⟩ := hs
    exact .inl fun e he => he
  | setMode | remPut | remNum | remCtl | unlock =>
    cases hs
    exact .inl fun e he => he
  | _ => cases hs

omit [DecidableEq δ] in
theorem DescOk.refcnt_pos_of_wakes {d : δ} {x : Desc δ n} (h : DescOk d x) (hrank : 6 ≤ x.pc.rank)
    (hwakes : x.wakes = 0) : 0 < x.refcnt := by
  refine h.refcnt_pos (by omega) ?_
  by_contra hlt
  have := h.awake (by omega)
  omega

omit [DecidableEq δ] in
/-- What is registered is alive: epoll's reference may be gone, but the caller sleeps. -/
theorem Keeps.refcnt_pos_of_entry {s : Shared δ n} {f : Nat} {d : δ} {m : Mode} (hk : Keeps s)
    (h : s.epoll f = some (d, m)) : 0 < (s.desc d).refcnt := by
  obtain ⟨-, -, hrank, hrem⟩ := hk.epoll f d m h
  refine (hk.desc d).refcnt_pos_of_wakes hrank ?_
  rcases (hk.desc d).life with ⟨-, -, -, -, hz, -⟩ | ⟨-, -, -, hz⟩ | ⟨-, -, hr, -⟩
  · exact hz
  · exact hz
  · exact nomatch hrem.symm.trans hr

/-- The descriptors that the pollers are yet to look at are alive. -/
def BatchesAlive (s : State δ n) : Prop :=
  ∀ i, ∀ e ∈ (s.locals (.poller i)).rest, 0 < (s.shared.desc e.1).refcnt

theorem step_batchesAlive {s s' : State δ n} {l : Party δ n × Choice δ} (hgood : s.Good Keeps At)
    (halive : BatchesAlive s) (hok : keptForPollers s l) (hl : poolStep step s l = some s') :
    BatchesAlive s' := by
  obtain ⟨⟨sh, pc⟩, hstep, hsh, hloc⟩ := poolStep_eq_some hl
  -- a step does not take the last reference of what is still in a batch
  have hkeep : ∀ i, ∀ e ∈ (s.locals (.poller i)).rest, 0 < (s'.shared.desc e.1).refcnt := by
    intro i e he
    have hpos := halive i e he
    rw [hsh]
    rcases step_counts hgood.1 hstep e.1 with h | ⟨h, hdrop⟩
    · exact Nat.lt_of_lt_of_le hpos h
    · by_contra hzero
      exact hok e.1 hdrop (by dsimp only at h hzero; omega) i e he rfl
  intro i e he
  by_cases hi : l.1 = .poller i
  · obtain ⟨t, ch⟩ := l
    dsimp only at hi
    subst hi
    rw [hloc, Function.update_self] at he
    rcases pollerStep_rest hstep with hsub | ⟨hsame, hentry⟩
    · exact hkeep i e (hsub e he)
    · obtain ⟨⟨d, m⟩, hsome, hd⟩ := Option.map_eq_some_iff.mp (hentry e he)
      cases hd
      rw [hsh, hsame]
      exact hgood.1.refcnt_pos_of_entry hsome
  · rw [hloc, Function.update_of_ne (Ne.symm hi)] at he
    exact hkeep i e he

theorem batchesAlive_reach {s : State δ n} (h : Reach (poolStep step) keptForPollers Init s) :
    BatchesAlive s := by
  refine (h.invariant (I := fun s => s.Good Keeps At ∧ BatchesAlive s) (fun s hs => ?_) ?_).2
  · refine ⟨init_good hs, fun i e he => ?_⟩
    rw [hs.pollers i] at he
    cases he
  · rintro s l s' ⟨hgood, halive⟩ hok hl
    exact ⟨modular.good_step hgood trivial hl, step_batchesAlive hgood halive hok hl⟩

/-- **Nobody touches a released descriptor**, in every run in which the last reference of a
    descriptor is not dropped while a poller is yet to look at it. -/
theorem alive_when_touched {s : State δ n} (h : Reach (poolStep step) keptForPollers Init s)
    {t : Party δ n} {d : δ} (ht : touches s.shared t (s.locals t) = some d) :
    0 < (s.shared.desc d).refcnt := by
  have hgood := good_reach h
  have hat := hgood.2 t
  -- who has won a descriptor, or fires its deadline, has it alive
  have hwon : ∀ e puts removed, (s.locals t).won = some (e, puts, removed) →
      0 < (s.shared.desc e).refcnt := by
    intro e puts removed he
    obtain ⟨hrank, hwakes, -⟩ := (hgood.1.desc e).winner (hat.won e puts removed he)
    exact (hgood.1.desc e).refcnt_pos_of_wakes hrank hwakes
  have hfires : ∀ e, (s.locals t).fires = some e → 0 < (s.shared.desc e).refcnt := by
    intro e he
    obtain ⟨-, hlow, hhigh⟩ := (hgood.1.desc e).heap (hat.fires e he)
    exact (hgood.1.desc e).refcnt_pos (by omega) (by omega)
  cases t with
  | call e =>
    simp only [touches, Option.ite_none_right_eq_some, Option.some.injEq] at ht
    obtain ⟨hrank, rfl⟩ := ht
    exact (hgood.1.desc e).refcnt_pos hrank.1 hrank.2
  | poller i =>
    cases hpc : s.locals (.poller i) with
    | cas batch mode =>
      rcases batch with _ | ⟨⟨e, ev⟩, rest⟩ <;> rw [hpc] at ht <;> cases ht
      exact batchesAlive_reach h i (d, ev) (by rw [hpc]; exact List.mem_cons_self ..)
    | setMode | lock | remPut | remCtl | unlock | ready =>
      rw [hpc] at ht hwon
      cases ht
      exact hwon _ _ _ rfl
    | _ =>
      rw [hpc] at ht
      cases ht
  | daemon =>
    cases hpc : s.locals .daemon with
    | fireLock | fireCas | fireMode | fireRemPut | fireRemCtl | fireUnlock | fireReady | firePut =>
      rw [hpc] at ht hfires
      cases ht
      exact hfires _ rfl
    | _ =>
      rw [hpc] at ht
      cases ht

/-- The poller has its event and is about to set `done`. -/
def handed : List (Party (Fin 2) 1 × Choice (Fin 2)) :=
  timedWait 0 ++ [(.poller 0, .batch [(0, ⟨false, true, false⟩)])]

theorem handed_alive :
    ∃ s : State (Fin 2) 1, touches s.shared (.poller 0) (s.locals (.poller 0)) = some 0 ∧
      0 < (s.shared.desc 0).refcnt := by
  obtain ⟨s, hs, hp⟩ := Reach.exists_of_runOk (poolStep step) keptForPollers Init quiet_init handed
    (fun s => decide (touches s.shared (.poller 0) (s.locals (.poller 0)) = some 0))
    (by decide +kernel)
  have hp' := of_decide_eq_true hp
  exact ⟨s, hp', alive_when_touched hs hp'⟩

/-- Before it gets there the deadline fires, and the call returns. -/
def late : List (Party (Fin 2) 1 × Choice (Fin 2)) :=
  handed ++ [(.daemon, .go), (.daemon, .fire 0)] ++ List.replicate 11 (.daemon, .go) ++
    List.replicate 6 (.call 0, .go)

theorem touches_released :
    ¬ ∀ s : State (Fin 2) 1, Reach (poolStep step) (fun _ _ => True) Init s → ∀ t d,
      touches s.shared t (s.locals t) = some d → 0 < (s.shared.desc d).refcnt := by
  intro hall
  obtain ⟨s, hs, hp⟩ := Reach.exists_of_run (poolStep step) Init quiet_init late
    (fun s => decide (touches s.shared (.poller 0) (s.locals (.poller 0)) = some 0 ∧
      (s.shared.desc 0).refcnt = 0 ∧ (s.shared.desc 0).released = 1)) (by decide +kernel)
  obtain ⟨ht, hzero, -⟩ := of_decide_eq_true hp
  have hpos := hall s hs (.poller 0) 0 ht
  omega

end

end Coroc.NetPoll
