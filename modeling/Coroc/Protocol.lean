import Coroc.Program

/-!
# Protocols that programs follow

A protocol is an automaton over the commands of a program and their results: which commands
may be issued in a state, which results can come back, and the state afterwards.  A program
follows it if all its commands may be issued when they are, as long as only such results come
back.  Nothing here mentions the runtime.

`Prog.Issues` looks at each command by itself; a protocol also looks at what came before it:
the locks that are held, the call that was begun.  `Machine.follows` is the run rule: a further
invariant may then speak of the states that the threads are in.
-/

namespace Coroc.Program

open Coroc.Transition

variable {T C A B E σ : Type} {R : C → Type} {α β : Type}

structure Protocol (C : Type) (R : C → Type) (A : Type) where
  ok : A → C → Prop
  gets : A → (c : C) → R c → Prop
  next : A → (c : C) → R c → A

namespace Prog

/-- From the state `a` on the program follows the protocol, and ends in a state and with a value
    of `ρ`.  A loop has an invariant of its own. -/
def Follows (P : Protocol C R A) : {α : Type} → A → Prog C R α → (A → α → Prop) → Prop
  | _, a, ret v, ρ => ρ a v
  | _, a, cmd c k, ρ => P.ok a c ∧ ∀ r, P.gets a c r → (k r).Follows P (P.next a c r) ρ
  | _, a, loop body k, ρ => ∃ (I : A → Prop) (ρ' : A → _ → Prop), I a ∧
      (∀ b, I b → body.Follows P b fun b' o => match o with
        | none => I b'
        | some v => ρ' b' v) ∧
      ∀ b v, ρ' b v → (k v).Follows P b ρ

variable {P : Protocol C R A} {a : A} {ρ : A → α → Prop} {ω : A → β → Prop}

theorem Follows.bind {p : Prog C R α} {f : α → Prog C R β} (hp : p.Follows P a ρ)
    (hf : ∀ b v, ρ b v → (f v).Follows P b ω) : (p.bind f).Follows P a ω := by
  induction p generalizing a with
  | ret v => exact hf a v hp
  | cmd c k ih => exact ⟨hp.1, fun r hr => ih r (hp.2 r hr) hf⟩
  | loop body k _ ih =>
    obtain ⟨I, ρ', ha, hbody, hk⟩ := hp
    exact ⟨I, ρ', ha, hbody, fun b v hv => ih v (hk b v hv) hf⟩

theorem Follows.unfold {body : Prog C R (Option α)} {k : α → Prog C R β}
    (h : (loop body k).Follows P a ω) : (Prog.unfold body k).Follows P a ω := by
  obtain ⟨I, ρ', ha, hbody, hk⟩ := h
  refine (hbody a ha).bind fun b o ho => ?_
  cases o with
  | none => exact ⟨I, ρ', ho, hbody, hk⟩
  | some v => exact hk b v ho

theorem Follows.mono {p : Prog C R α} {ρ' : A → α → Prop} (h : p.Follows P a ρ)
    (hρ : ∀ b v, ρ b v → ρ' b v) : p.Follows P a ρ' := by
  rw [← bind_ret p]
  exact h.bind fun b v hv => hρ b v hv

/-- The next command is one that may be issued. -/
theorem Follows.ok_next {p : Prog C R α} (h : p.Follows P a ρ) {c : C} (hc : p.next = some c) : P.ok a c := by
  cases p with
  | ret v => cases hc
  | cmd c' k =>
    obtain rfl := Option.some.inj hc
    exact h.1
  | loop body k => cases hc

/-- A loop that comes back to the state it starts in. -/
theorem Follows.loop {body : Prog C R (Option α)} {k : α → Prog C R β}
    (hbody : body.Follows P a fun b _ => b = a) (hk : ∀ v, (k v).Follows P a ω) :
    (Prog.loop body k).Follows P a ω := by
  refine ⟨fun b => b = a, fun b _ => b = a, rfl, ?_, ?_⟩
  · rintro b rfl
    refine hbody.mono fun b' o hb => ?_
    cases o with
    | none => exact hb
    | some v => exact hb
  · rintro b v rfl
    exact hk v

/-- A program whose commands keep the protocol within the states of `I`. -/
theorem Issues.follows_within {I : A → Prop} {φ : C → Prop} {ψ : (c : C) → R c → Prop} {ρ : α → Prop}
    (hφ : ∀ b c, I b → φ c → P.ok b c ∧ ∀ r, P.gets b c r → ψ c r ∧ I (P.next b c r))
    {p : Prog C R α} (h : p.Issues φ ψ ρ) (ha : I a) : p.Follows P a fun b v => I b ∧ ρ v := by
  induction p generalizing a with
  | ret v => exact ⟨ha, h⟩
  | cmd c k ih =>
    obtain ⟨hok, hnext⟩ := hφ a c ha h.1
    refine ⟨hok, fun r hr => ?_⟩
    obtain ⟨hψ, hI⟩ := hnext r hr
    exact ih r (h.2 r hψ) hI
  | loop body k hbody hk =>
    obtain ⟨ρ', hb, hcont⟩ := h
    refine ⟨I, fun b v => I b ∧ ρ' v, ha, ?_, ?_⟩
    · intro b hI
      refine (hbody hb hI).mono fun b' o ho => ?_
      cases o with
      | none => exact ho.1
      | some v => exact ⟨ho.1, ho.2 v rfl⟩
    · rintro b v ⟨hI, hv⟩
      exact hk v (hcont v hv) hI

/-- A program whose commands do not move the protocol. -/
theorem Issues.follows {φ : C → Prop} {ψ : (c : C) → R c → Prop} {ρ : α → Prop}
    (hφ : ∀ c, φ c → P.ok a c ∧ ∀ r, P.gets a c r → ψ c r ∧ P.next a c r = a)
    {p : Prog C R α} (h : p.Issues φ ψ ρ) : p.Follows P a fun b v => b = a ∧ ρ v := by
  refine h.follows_within (I := fun b => b = a) ?_ rfl
  rintro b c rfl hc
  exact hφ c hc

/-- In a state in which everything is allowed, and which is never left. -/
theorem follows_free (hok : ∀ c, P.ok a c) (hnext : ∀ c r, P.next a c r = a) (p : Prog C R α) :
    p.Follows P a fun b _ => b = a := by
  induction p with
  | ret v => rfl
  | cmd c k ih =>
    refine ⟨hok c, fun r _ => ?_⟩
    rw [hnext]
    exact ih r
  | loop body k hbody hk => exact Follows.loop hbody hk

end Prog

/-! ### Runs -/

variable [DecidableEq T] {m : Machine T C B E σ R} {P : Protocol C R A}

/-- The threads are in the states `auto` of the protocol, and are to end in `rest`. -/
def ProgsFollow (P : Protocol C R A) (rest : A) (auto : T → A) (s : Conf T C σ R) : Prop :=
  ∀ t, (s.prog t).Follows P (auto t) fun a _ => a = rest

theorem ProgsFollow.update {rest : A} {auto : T → A} {s s' : Conf T C σ R}
    (h : ProgsFollow P rest auto s) {t : T} {a : A} {p : Prog C R Unit}
    (hprog : s'.prog = Function.update s.prog t p) (hp : p.Follows P a fun a _ => a = rest) :
    ProgsFollow P rest (Function.update auto t a) s' := by
  intro u
  rw [hprog]
  by_cases hu : u = t
  · subst hu
    simpa using hp
  · rw [Function.update_of_ne hu, Function.update_of_ne hu]
    exact h u

/-- **An invariant of the shared state and the protocol**, when every operation follows the
    protocol.  `K` is what is known of every configuration reached already; the condition on the
    steps may also be about the environment. -/
theorem Machine.follows_from {rest : A} {ok : Conf T C σ R → Label T B E → Prop}
    {okCmd : T → C → σ → Prop} {okCall : T → B → σ → Prop}
    (hok : ∀ s l, ok s l → stepOk okCmd okCall s l)
    {init K : Conf T C σ R → Prop} {J : (T → A) → σ → Prop}
    (hK : ∀ s, Reach m.step ok init s → K s)
    (hstart : ∀ s, init s → ∃ auto, J auto s.shared ∧ ProgsFollow P rest auto s)
    (hbody : ∀ t a s, okCall t a s → (m.body t a).Follows P rest fun a _ => a = rest)
    (hexec : ∀ auto s t c k r s', K s → J auto s.shared → s.prog t = .cmd c k →
      okCmd t c s.shared → P.ok (auto t) c → m.exec t c s.shared = some (r, s') →
      P.gets (auto t) c r ∧ J (Function.update auto t (P.next (auto t) c r)) s')
    (henter : ∀ auto s t a s', K s → J auto s.shared → s.prog t = .ret () → auto t = rest →
      okCall t a s.shared → m.enter t a s.shared = some s' → J auto s')
    (henv : ∀ auto s e s', K s → J auto s.shared → ok s (.env e) → m.env e s.shared = some s' → J auto s')
    {s : Conf T C σ R} (hs : Reach m.step ok init s) :
    ∃ auto, J auto s.shared ∧ ProgsFollow P rest auto s := by
  induction hs with
  | start h => exact hstart _ h
  | @next s s' l hreach hl hstep ih =>
    obtain ⟨auto, hJ, hprogs⟩ := ih
    have hk := hK s hreach
    have hstepOk := hok s l hl
    obtain ⟨t, c, k, r, rfl, hp, he, hprog⟩ | ⟨t, β, body, k, rfl, hp, hsh, hprog⟩ |
      ⟨t, a, rfl, hp, he, hprog⟩ | ⟨e, rfl, he, hprog⟩ := Machine.step_cases hstep
    · have hfollows := hprogs t
      rw [hp] at hfollows
      obtain ⟨hgets, hJ'⟩ := hexec auto s t c k r _ hk hJ hp (hstepOk c (by rw [hp]; rfl)) hfollows.1 he
      exact ⟨_, hJ', hprogs.update hprog (hfollows.2 r hgets)⟩
    · have hfollows := hprogs t
      rw [hp] at hfollows
      refine ⟨auto, hsh ▸ hJ, ?_⟩
      have hupdate := hprogs.update (a := auto t) hprog hfollows.unfold
      rwa [Function.update_eq_self] at hupdate
    · have hrest : auto t = rest := by
        have hfollows := hprogs t
        rw [hp] at hfollows
        exact hfollows
      refine ⟨auto, henter auto s t a _ hk hJ hp hrest hstepOk he, ?_⟩
      have hupdate := hprogs.update (a := auto t) hprog (by rw [hrest]; exact hbody t a _ hstepOk)
      rwa [Function.update_eq_self] at hupdate
    · exact ⟨auto, henv auto s e _ hk hJ hl he, fun t => hprog ▸ hprogs t⟩

/-- The same for runs in which no thread has anything to do at first. -/
theorem Machine.follows {rest : A} {ok : Conf T C σ R → Label T B E → Prop}
    {okCmd : T → C → σ → Prop} {okCall : T → B → σ → Prop}
    (hok : ∀ s l, ok s l → stepOk okCmd okCall s l)
    {init K : Conf T C σ R → Prop} (hK : ∀ s, Reach m.step ok init s → K s)
    (hstart : ∀ s, init s → ∀ t, s.prog t = .ret ())
    (hbody : ∀ t a s, okCall t a s → (m.body t a).Follows P rest fun a _ => a = rest)
    {J : (T → A) → σ → Prop} (hinit : ∀ s, init s → J (fun _ => rest) s.shared)
    (hexec : ∀ auto s t c k r s', K s → J auto s.shared → s.prog t = .cmd c k →
      okCmd t c s.shared → P.ok (auto t) c → m.exec t c s.shared = some (r, s') →
      P.gets (auto t) c r ∧ J (Function.update auto t (P.next (auto t) c r)) s')
    (henter : ∀ auto s t a s', K s → J auto s.shared → s.prog t = .ret () → auto t = rest →
      okCall t a s.shared → m.enter t a s.shared = some s' → J auto s')
    (henv : ∀ auto s e s', K s → J auto s.shared → ok s (.env e) → m.env e s.shared = some s' → J auto s')
    {s : Conf T C σ R} (hs : Reach m.step ok init s) :
    ∃ auto, J auto s.shared ∧ ProgsFollow P rest auto s := by
  refine Machine.follows_from hok hK (fun s h => ⟨fun _ => rest, hinit s h, fun t => ?_⟩) hbody hexec henter henv hs
  rw [hstart s h t]
  rfl

end Coroc.Program
