import Mathlib.Logic.Function.Basic
import Coroc.Transition

/-!
# Concurrent programs and a rely-guarantee logic for them

Code that runs on many threads is written here as a value: a program issues
commands, each one atomic, and goes on with the result of the command.  A machine
says what a command does to the shared state, which operations a thread may start
when it has nothing to do, and which moves the environment makes by itself.  The
configurations are interleavings of all that.  Nothing here mentions the runtime.

The logic has a shared invariant `Inv`, for each thread the changes `Rely` that the
others may make, and for each command the states in which it is `Allowed`.

* `Triple` is the Hoare triple of one thread, with one rule for each way of building
  a program (`Triple.ret`, `Triple.step`, `Triple.bind`, `Triple.loop`) and a frame rule.
* `Rules.sound` is adequacy: once every operation has a triple, in every
  configuration reached the invariant holds, every thread is about to do an allowed
  command, and a thread with nothing to do satisfies its idle assertion.
* `Rules.invariant` adds an invariant afterwards, from what the allowed commands do,
  without going through the programs again; `Rules.invariant_of_issues` also uses which
  commands the programs contain.
-/

namespace Coroc.Program

open Coroc.Transition

/-- Programs over commands `C` with results `R`.  `loop body k` runs `body` until it
    gives a value, and goes on with `k`. -/
inductive Prog (C : Type) (R : C → Type) : Type → Type 1
  | ret {α : Type} (a : α) : Prog C R α
  | cmd {α : Type} (c : C) (k : R c → Prog C R α) : Prog C R α
  | loop {α β : Type} (body : Prog C R (Option β)) (k : β → Prog C R α) : Prog C R α

namespace Prog

variable {C : Type} {R : C → Type} {α β γ : Type}

def bind : Prog C R α → (α → Prog C R β) → Prog C R β
  | ret a, f => f a
  | cmd c k, f => cmd c fun r => (k r).bind f
  | loop body k, f => loop body fun b => (k b).bind f

instance : Monad (Prog C R) where
  pure := ret
  bind := bind

/-- Issue one command. -/
def perform (c : C) : Prog C R (R c) := cmd c ret

/-- Repeat a body until it gives a value. -/
def repeatUntil (body : Prog C R (Option β)) : Prog C R β := loop body ret

/-- One unfolding of a loop. -/
def unfold (body : Prog C R (Option β)) (k : β → Prog C R α) : Prog C R α :=
  body.bind fun o => match o with
    | none => loop body k
    | some b => k b

@[simp]
theorem pure_eq (a : α) : (Pure.pure a : Prog C R α) = ret a := rfl

@[simp]
theorem bind_eq (p : Prog C R α) (f : α → Prog C R β) : p >>= f = p.bind f := rfl

@[simp]
theorem ret_bind (a : α) (f : α → Prog C R β) : (ret a).bind f = f a := rfl

@[simp]
theorem perform_bind (c : C) (f : R c → Prog C R β) : (perform c).bind f = cmd c f := rfl

theorem bind_ret (p : Prog C R α) : p.bind ret = p := by
  induction p with
  | ret a => rfl
  | cmd c k ih => exact congrArg (cmd c) (funext fun r => ih r)
  | loop body k _ ih => exact congrArg (loop body) (funext fun b => ih b)

theorem bind_assoc (p : Prog C R α) (f : α → Prog C R β) (g : β → Prog C R γ) :
    (p.bind f).bind g = p.bind fun a => (f a).bind g := by
  induction p with
  | ret a => rfl
  | cmd c k ih => exact congrArg (cmd c) (funext fun r => ih r f)
  | loop body k _ ih => exact congrArg (loop body) (funext fun b => ih b f)

theorem unfold_bind (body : Prog C R (Option γ)) (k : γ → Prog C R α)
    (f : α → Prog C R β) :
    (unfold body k).bind f = unfold body fun b => (k b).bind f := by
  unfold unfold
  rw [bind_assoc]
  refine congrArg body.bind (funext fun o => ?_)
  cases o with
  | none => rfl
  | some b => rfl

/-- The command a thread is about to issue. -/
def next : Prog C R α → Option C
  | ret _ => none
  | cmd c _ => some c
  | loop _ _ => none

/-- As long as the results it gets are among `ψ`, every command that the program can issue
    is one of `φ`, and the value it returns one of `ρ`. -/
def Issues (φ : C → Prop) (ψ : (c : C) → R c → Prop) : {α : Type} → Prog C R α → (α → Prop) → Prop
  | _, ret a, ρ => ρ a
  | _, cmd c k, ρ => φ c ∧ ∀ r, ψ c r → (k r).Issues φ ψ ρ
  | _, loop body k, ρ => ∃ ρ' : _ → Prop, body.Issues φ ψ (fun o => ∀ b, o = some b → ρ' b) ∧
      ∀ b, ρ' b → (k b).Issues φ ψ ρ

variable {φ : C → Prop} {ψ : (c : C) → R c → Prop} {ρ : α → Prop} {ρ' : β → Prop}

theorem Issues.of_forall (h : ∀ c, φ c) (hρ : ∀ a, ρ a) (p : Prog C R α) : p.Issues φ ψ ρ := by
  induction p with
  | ret a => exact hρ a
  | cmd c k ih => exact ⟨h c, fun r _ => ih r hρ⟩
  | loop body k hbody hk =>
    exact ⟨fun _ => True, hbody fun _ _ _ => trivial, fun b _ => hk b hρ⟩

theorem Issues.bind {p : Prog C R α} {f : α → Prog C R β} (hp : p.Issues φ ψ ρ)
    (hf : ∀ a, ρ a → (f a).Issues φ ψ ρ') : (p.bind f).Issues φ ψ ρ' := by
  induction p with
  | ret a => exact hf a hp
  | cmd c k ih => exact ⟨hp.1, fun r hr => ih r (hp.2 r hr) hf⟩
  | loop body k _ ih =>
    obtain ⟨ρ'', hbody, hk⟩ := hp
    exact ⟨ρ'', hbody, fun b hb => ih b (hk b hb) hf⟩

theorem Issues.unfold {body : Prog C R (Option β)} {k : β → Prog C R α}
    (h : (loop body k).Issues φ ψ ρ) : (Prog.unfold body k).Issues φ ψ ρ := by
  obtain ⟨ρ'', hbody, hk⟩ := h
  refine hbody.bind fun o ho => ?_
  cases o with
  | none => exact ⟨ρ'', hbody, hk⟩
  | some b => exact hk b (ho b rfl)

theorem Issues.mono {θ : C → Prop} {ω : (c : C) → R c → Prop} {ρ' : α → Prop}
    (hφ : ∀ c, φ c → θ c) (hψ : ∀ c r, ω c r → ψ c r) (hρ : ∀ a, ρ a → ρ' a) {p : Prog C R α}
    (h : p.Issues φ ψ ρ) : p.Issues θ ω ρ' := by
  induction p with
  | ret a => exact hρ a h
  | cmd c k ih => exact ⟨hφ c h.1, fun r hr => ih r hρ (h.2 r (hψ c r hr))⟩
  | loop body k hbody hk =>
    obtain ⟨ρ'', hb, hcont⟩ := h
    exact ⟨ρ'', hbody (fun _ ha => ha) hb, fun b hb' => hk b hρ (hcont b hb')⟩

/-- A loop whose value is not looked at. -/
theorem Issues.loop {body : Prog C R (Option β)} {k : β → Prog C R α}
    (hbody : body.Issues φ ψ fun _ => True) (hk : ∀ b, (k b).Issues φ ψ ρ) :
    (Prog.loop body k).Issues φ ψ ρ := by
  refine ⟨fun _ => True, ?_, fun b _ => hk b⟩
  rw [← bind_ret body]
  exact hbody.bind fun _ _ _ _ => trivial

/-- The program issues commands of `φ` until it issues one that satisfies `fin` together with
    what comes after it; it may end before with a value of `ρ`. -/
def Until (φ : C → Prop) (ψ : (c : C) → R c → Prop) :
    {α : Type} → Prog C R α → ((c : C) → (R c → Prog C R α) → Prop) → (α → Prop) → Prop
  | _, ret a, _, ρ => ρ a
  | _, cmd c k, fin, ρ => fin c k ∨ (φ c ∧ ∀ r, ψ c r → (k r).Until φ ψ fin ρ)
  | _, loop body k, fin, ρ => ∃ ρ' : _ → Prop, body.Issues φ ψ (fun o => ∀ b, o = some b → ρ' b) ∧
      ∀ b, ρ' b → (k b).Until φ ψ fin ρ

section
variable {fin : (c : C) → (R c → Prog C R β) → Prop} {ω : β → Prop}

theorem Issues.until {p : Prog C R α} {f : α → Prog C R β} (hp : p.Issues φ ψ ρ)
    (hf : ∀ a, ρ a → (f a).Until φ ψ fin ω) : (p.bind f).Until φ ψ fin ω := by
  induction p with
  | ret a => exact hf a hp
  | cmd c k ih => exact .inr ⟨hp.1, fun r hr => ih r (hp.2 r hr) hf⟩
  | loop body k _ ih =>
    obtain ⟨ρ', hbody, hk⟩ := hp
    exact ⟨ρ', hbody, fun b hb => ih b (hk b hb) hf⟩

theorem Until.bind {P : C → Prop} {p : Prog C R α} {f : α → Prog C R β}
    (hp : p.Until φ ψ (fun c _ => P c) ρ) (hf : ∀ a, ρ a → (f a).Until φ ψ (fun c _ => P c) ω) :
    (p.bind f).Until φ ψ (fun c _ => P c) ω := by
  induction p with
  | ret a => exact hf a hp
  | cmd c k ih =>
    rcases hp with hfin | ⟨hc, hrest⟩
    · exact .inl hfin
    · exact .inr ⟨hc, fun r hr => ih r (hrest r hr) hf⟩
  | loop body k _ ih =>
    obtain ⟨ρ', hbody, hk⟩ := hp
    exact ⟨ρ', hbody, fun b hb => ih b (hk b hb) hf⟩

theorem Until.unfold {body : Prog C R (Option α)} {k : α → Prog C R β}
    (h : (Prog.loop body k).Until φ ψ fin ω) : (Prog.unfold body k).Until φ ψ fin ω := by
  obtain ⟨ρ', hbody, hk⟩ := h
  refine hbody.until fun o ho => ?_
  cases o with
  | none => exact ⟨ρ', hbody, hk⟩
  | some b => exact hk b (ho b rfl)

end

/-- A thread with nothing to do. -/
def isRet : Prog C R α → Bool
  | ret _ => true
  | cmd _ _ => false
  | loop _ _ => false

theorem eq_ret_of_isRet {p : Prog C R Unit} (h : p.isRet = true) : p = ret () := by
  cases p with
  | ret a => rfl
  | cmd c k => cases h
  | loop body k => cases h

end Prog

/-! ### Machines -/

/-- What the commands do to the shared state, the operations threads may start, with
    their programs, and the moves of the environment. -/
structure Machine (T C A E σ : Type) (R : C → Type) where
  exec : T → (c : C) → σ → Option (R c × σ)
  enter : T → A → σ → Option σ
  body : T → A → Prog C R Unit
  env : E → σ → Option σ

variable {T C A E σ : Type} {R : C → Type}

/-! ### The logic -/

/-- An invariant, what each thread relies on, and when a command is allowed, such
    that allowed commands keep the invariant and do to the others only what these
    rely on. -/
structure Rules (m : Machine T C A E σ R) where
  ok : T → C → σ → Prop
  Inv : σ → Prop
  Rely : T → σ → σ → Prop
  Allowed : T → C → σ → Prop
  rely_refl : ∀ t s, Rely t s s
  rely_trans : ∀ {t s₁ s₂ s₃}, Rely t s₁ s₂ → Rely t s₂ s₃ → Rely t s₁ s₃
  exec_sound : ∀ {t c s r s'}, Inv s → ok t c s → Allowed t c s →
    m.exec t c s = some (r, s') → Inv s' ∧ ∀ u, u ≠ t → Rely u s s'
  env_sound : ∀ {e s s'}, Inv s → m.env e s = some s' → Inv s' ∧ ∀ t, Rely t s s'

section Logic
variable {m : Machine T C A E σ R} (G : Rules m) {α β : Type}

/-- For `n` steps, and whatever the others do meanwhile, the program only issues
    allowed commands, and ends in `Q`. -/
def Safe (t : T) : Nat → Prog C R α → (α → σ → Prop) → σ → Prop
  | 0, _, _, _ => True
  | n + 1, p, Q, s => ∀ s', G.Rely t s s' → G.Inv s' → match p with
    | .ret a => Q a s'
    | .cmd c k => G.ok t c s' → G.Allowed t c s' ∧
        ∀ r s'', m.exec t c s' = some (r, s'') → Safe t n (k r) Q s''
    | .loop body k => Safe t n (Prog.unfold body k) Q s'

def Triple (t : T) (P : σ → Prop) (p : Prog C R α) (Q : α → σ → Prop) : Prop :=
  ∀ s, G.Inv s → P s → ∀ n, Safe G t n p Q s

/-- Assertions that the other threads cannot break. -/
def Stable (t : T) (P : σ → Prop) : Prop :=
  ∀ s s', G.Inv s → G.Inv s' → G.Rely t s s' → P s → P s'

variable {G} {t : T}

theorem Stable.and {P Q : σ → Prop} (hP : Stable G t P) (hQ : Stable G t Q) :
    Stable G t fun s => P s ∧ Q s :=
  fun s s' hi hi' hr h => ⟨hP s s' hi hi' hr h.1, hQ s s' hi hi' hr h.2⟩

theorem Stable.const (p : Prop) : Stable G t fun _ => p := fun _ _ _ _ _ h => h

theorem Safe.rely {n : Nat} {p : Prog C R α} {Q : α → σ → Prop} {s s' : σ}
    (h : Safe G t n p Q s) (hr : G.Rely t s s') : Safe G t n p Q s' := by
  cases n with
  | zero => trivial
  | succ n => exact fun s₁ hr₁ hi => h s₁ (G.rely_trans hr hr₁) hi

theorem Safe.down {n : Nat} {p : Prog C R α} {Q : α → σ → Prop} {s : σ}
    (h : Safe G t (n + 1) p Q s) : Safe G t n p Q s := by
  induction n generalizing p s with
  | zero => trivial
  | succ n ih =>
    intro s' hr hi
    have hs := h s' hr hi
    cases p with
    | ret a => exact hs
    | cmd c k => exact fun hok => ⟨(hs hok).1, fun r s'' he => ih ((hs hok).2 r s'' he)⟩
    | loop body k => exact ih hs

theorem Safe.bind {n : Nat} {p : Prog C R α} {f : α → Prog C R β} {P : α → σ → Prop}
    {Q : β → σ → Prop} {s : σ} (h : Safe G t n p P s)
    (hf : ∀ a s, G.Inv s → P a s → Safe G t n (f a) Q s) : Safe G t n (p.bind f) Q s := by
  induction n generalizing p s with
  | zero => trivial
  | succ n ih =>
    have hf' : ∀ a s, G.Inv s → P a s → Safe G t n (f a) Q s := fun a s hi hp =>
      (hf a s hi hp).down
    cases p with
    | ret a => exact fun s' hr hi => hf a s' hi (h s' hr hi) s' (G.rely_refl t s') hi
    | cmd c k =>
      intro s' hr hi hok
      obtain ⟨hallow, hk⟩ := h s' hr hi hok
      exact ⟨hallow, fun r s'' he => ih (hk r s'' he) hf'⟩
    | loop body k =>
      intro s' hr hi
      have hs := ih (h s' hr hi) hf'
      rwa [Prog.unfold_bind] at hs

theorem Safe.post {n : Nat} {p : Prog C R α} {Q Q' : α → σ → Prop} {s : σ}
    (h : Safe G t n p Q s) (hQ : ∀ a s, G.Inv s → Q a s → Q' a s) : Safe G t n p Q' s := by
  induction n generalizing p s with
  | zero => trivial
  | succ n ih =>
    intro s' hr hi
    have hs := h s' hr hi
    cases p with
    | ret a => exact hQ a s' hi hs
    | cmd c k => exact fun hok => ⟨(hs hok).1, fun r s'' he => ih ((hs hok).2 r s'' he)⟩
    | loop body k => exact ih hs

/-- What the other threads and the commands of the program keep is kept. -/
theorem Safe.frame {n : Nat} {p : Prog C R α} {Q : α → σ → Prop} {F : σ → Prop} {φ : C → Prop}
    {ψ : (c : C) → R c → Prop} {ρ : α → Prop} {s : σ} (hF : Stable G t F)
    (hφ : ∀ c s r s', φ c → F s → m.exec t c s = some (r, s') → ψ c r ∧ F s')
    (hp : p.Issues φ ψ ρ) (h : Safe G t n p Q s) (hi : G.Inv s) (hs : F s) :
    Safe G t n p (fun a s => Q a s ∧ F s) s := by
  induction n generalizing p s with
  | zero => trivial
  | succ n ih =>
    intro s' hr hi'
    have hs' := hF s s' hi hi' hr hs
    have hsafe := h s' hr hi'
    cases p with
    | ret a => exact ⟨hsafe, hs'⟩
    | cmd c k =>
      refine fun hok => ⟨(hsafe hok).1, fun r s'' he => ?_⟩
      have hi'' := (G.exec_sound hi' hok (hsafe hok).1 he).1
      obtain ⟨hψ, hs''⟩ := hφ c s' r s'' hp.1 hs' he
      exact ih (hp.2 r hψ) ((hsafe hok).2 r s'' he) hi'' hs''
    | loop body k => exact ih hp.unfold hsafe hi' hs'

namespace Triple

variable {P P' : σ → Prop} {Q Q' : α → σ → Prop}

theorem conseq {p : Prog C R α} (h : Triple G t P p Q) (hP : ∀ s, G.Inv s → P' s → P s)
    (hQ : ∀ a s, G.Inv s → Q a s → Q' a s) : Triple G t P' p Q' :=
  fun s hi hp n => (h s hi (hP s hi hp) n).post hQ

theorem pre {p : Prog C R α} (h : Triple G t P p Q) (hP : ∀ s, G.Inv s → P' s → P s) :
    Triple G t P' p Q :=
  h.conseq hP fun _ _ _ hq => hq

theorem post {p : Prog C R α} (h : Triple G t P p Q) (hQ : ∀ a s, G.Inv s → Q a s → Q' a s) :
    Triple G t P p Q' :=
  h.conseq (fun _ _ hp => hp) hQ

/-- A precondition may be split on facts that are not about the state. -/
theorem of_forall {p : Prog C R α} {ι : Sort _} {P : ι → σ → Prop}
    (h : ∀ i, Triple G t (P i) p Q) : Triple G t (fun s => ∃ i, P i s) p Q := by
  rintro s hi ⟨i, hp⟩ n
  exact h i s hi hp n

theorem of_pure {p : Prog C R α} {φ : Prop} (h : φ → Triple G t P p Q) :
    Triple G t (fun s => φ ∧ P s) p Q :=
  fun s hi hp n => h hp.1 s hi hp.2 n

/-- **The frame rule**: `F` is kept if the other threads and the commands of the program
    keep it. -/
theorem frame {p : Prog C R α} {F : σ → Prop} {φ : C → Prop} {ψ : (c : C) → R c → Prop}
    {ρ : α → Prop} (h : Triple G t P p Q) (hF : Stable G t F)
    (hφ : ∀ c s r s', φ c → F s → m.exec t c s = some (r, s') → ψ c r ∧ F s')
    (hp : p.Issues φ ψ ρ) : Triple G t (fun s => P s ∧ F s) p fun a s => Q a s ∧ F s :=
  fun s hi hs n => (h s hi hs.1 n).frame hF hφ hp hi hs.2

theorem ret {a : α} (hP : Stable G t P) (hQ : ∀ s, G.Inv s → P s → Q a s) :
    Triple G t P (.ret a) Q := by
  intro s hi hp n
  cases n with
  | zero => trivial
  | succ n => exact fun s' hr hi' => hQ s' hi' (hP s s' hi hi' hr hp)

/-- **One command**: it is allowed wherever the precondition holds, and what it leaves
    behind is the precondition of the rest. -/
theorem step {c : C} {k : R c → Prog C R α} (hP : Stable G t P) (M : R c → σ → Prop)
    (hc : ∀ s, G.Inv s → P s → G.ok t c s → G.Allowed t c s ∧
      ∀ r s', m.exec t c s = some (r, s') → G.Inv s' → M r s')
    (hk : ∀ r, Triple G t (M r) (k r) Q) : Triple G t P (.cmd c k) Q := by
  intro s hi hp n
  cases n with
  | zero => trivial
  | succ n =>
    intro s' hr hi' hok
    obtain ⟨hallow, hexec⟩ := hc s' hi' (hP s s' hi hi' hr hp) hok
    refine ⟨hallow, fun r s'' he => ?_⟩
    have hi'' := (G.exec_sound hi' hok hallow he).1
    exact hk r s'' hi'' (hexec r s'' he hi'') n

theorem bind {p : Prog C R β} {f : β → Prog C R α} {M : β → σ → Prop}
    (h : Triple G t P p M) (hf : ∀ b, Triple G t (M b) (f b) Q) :
    Triple G t P (p.bind f) Q :=
  fun s hi hp n => (h s hi hp n).bind fun b s hi hb => hf b s hi hb n

/-- **Loops**: the precondition is the loop invariant. -/
theorem loop {body : Prog C R (Option β)} {k : β → Prog C R α} (hP : Stable G t P)
    (M : β → σ → Prop)
    (hbody : Triple G t P body fun o s => match o with
      | none => P s
      | some b => M b s)
    (hk : ∀ b, Triple G t (M b) (k b) Q) : Triple G t P (.loop body k) Q := by
  intro s hi hp n
  induction n generalizing s with
  | zero => trivial
  | succ n ih =>
    intro s' hr hi'
    refine (hbody s' hi' (hP s s' hi hi' hr hp) n).bind fun o s₁ hi₁ ho => ?_
    cases o with
    | none => exact ih s₁ hi₁ ho
    | some b => exact hk b s₁ hi₁ ho n

end Triple

end Logic

/-! ### Configurations -/

structure Conf (T C σ : Type) (R : C → Type) where
  shared : σ
  prog : T → Prog C R Unit

inductive Label (T A E : Type) where
  | run (t : T)
  | call (t : T) (a : A)
  | env (e : E)

variable [DecidableEq T]

/-- One step: a thread issues its next command or unfolds a loop, starts an operation
    when it has nothing to do, or the environment moves. -/
def Machine.step (m : Machine T C A E σ R) (s : Conf T C σ R) :
    Label T A E → Option (Conf T C σ R)
  | .run t => match s.prog t with
    | .ret _ => none
    | .cmd c k => (m.exec t c s.shared).map fun r =>
        { shared := r.2, prog := Function.update s.prog t (k r.1) }
    | .loop body k => some { s with prog := Function.update s.prog t (Prog.unfold body k) }
  | .call t a =>
    if (s.prog t).isRet then
      (m.enter t a s.shared).map fun s' =>
        { shared := s', prog := Function.update s.prog t (m.body t a) }
    else none
  | .env e => (m.env e s.shared).map fun s' => { s with shared := s' }

/-- A condition on the steps of a run, from one on the commands and one on the
    operations started. -/
def stepOk (okCmd : T → C → σ → Prop) (okCall : T → A → σ → Prop) (s : Conf T C σ R) :
    Label T A E → Prop
  | .run t => ∀ c, (s.prog t).next = some c → okCmd t c s.shared
  | .call t a => okCall t a s.shared
  | .env _ => True

instance (okCmd : T → C → σ → Prop) (okCall : T → A → σ → Prop)
    [∀ t c s, Decidable (okCmd t c s)] [∀ t a s, Decidable (okCall t a s)] (s : Conf T C σ R)
    (l : Label T A E) : Decidable (stepOk okCmd okCall s l) :=
  match l with
  | .run t => match h : (s.prog t).next with
    | none => isTrue fun _ hc => nomatch h.symm.trans hc
    | some c => decidable_of_iff (okCmd t c s.shared)
        ⟨fun ho _ hc => Option.some.inj (h.symm.trans hc) ▸ ho, fun ho => ho c h⟩
  | .call t a => inferInstanceAs (Decidable (okCall t a s.shared))
  | .env _ => isTrue trivial

/-- The ways a configuration changes. -/
theorem Machine.step_cases {m : Machine T C A E σ R} {s s' : Conf T C σ R} {l : Label T A E}
    (h : m.step s l = some s') :
    (∃ t c k r, l = .run t ∧ s.prog t = .cmd c k ∧ m.exec t c s.shared = some (r, s'.shared) ∧
      s'.prog = Function.update s.prog t (k r)) ∨
    (∃ (t : T) (β : Type) (body : Prog C R (Option β)) (k : β → Prog C R Unit),
      l = .run t ∧ s.prog t = .loop body k ∧ s'.shared = s.shared ∧
      s'.prog = Function.update s.prog t (Prog.unfold body k)) ∨
    (∃ t a, l = .call t a ∧ s.prog t = .ret () ∧ m.enter t a s.shared = some s'.shared ∧
      s'.prog = Function.update s.prog t (m.body t a)) ∨
    (∃ e, l = .env e ∧ m.env e s.shared = some s'.shared ∧ s'.prog = s.prog) := by
  cases l with
  | run t =>
    simp only [Machine.step] at h
    split at h
    · cases h
    · rename_i c k hp
      obtain ⟨⟨r, s₁⟩, hr, rfl⟩ := Option.map_eq_some_iff.mp h
      exact .inl ⟨t, c, k, r, rfl, hp, hr, rfl⟩
    · rename_i β body k hp
      cases h
      exact .inr (.inl ⟨t, β, body, k, rfl, hp, rfl, rfl⟩)
  | call t a =>
    simp only [Machine.step] at h
    split at h
    · rename_i hret
      obtain ⟨s₁, hs, rfl⟩ := Option.map_eq_some_iff.mp h
      exact .inr (.inr (.inl ⟨t, a, rfl, Prog.eq_ret_of_isRet hret, hs, rfl⟩))
    · cases h
  | env e =>
    simp only [Machine.step] at h
    obtain ⟨s₁, hs, rfl⟩ := Option.map_eq_some_iff.mp h
    exact .inr (.inr (.inr ⟨e, rfl, hs, rfl⟩))

/-- The step of a thread whose next command is `c`. -/
theorem Machine.step_next {m : Machine T C A E σ R} {s s' : Conf T C σ R} {t : T} {c : C}
    (hnext : (s.prog t).next = some c) (h : m.step s (.run t) = some s') :
    ∃ k r, s.prog t = .cmd c k ∧ m.exec t c s.shared = some (r, s'.shared) ∧
      s'.prog = Function.update s.prog t (k r) := by
  obtain ⟨u, c', k, r, hl, hp, he, hprog⟩ | ⟨u, β, body, k, hl, hp, -⟩ | ⟨u, a, hl, -⟩ | ⟨e, hl, -⟩ :=
    Machine.step_cases h
  · cases hl
    rw [hp] at hnext
    obtain rfl : c' = c := Option.some.inj hnext
    exact ⟨k, r, hp, he, hprog⟩
  · cases hl
    rw [hp] at hnext
    cases hnext
  · cases hl
  · cases hl

/-- The step that starts an operation. -/
theorem Machine.step_call {m : Machine T C A E σ R} {s s' : Conf T C σ R} {t : T} {a : A}
    (h : m.step s (.call t a) = some s') :
    s.prog t = .ret () ∧ m.enter t a s.shared = some s'.shared ∧
      s'.prog = Function.update s.prog t (m.body t a) := by
  obtain ⟨u, c, k, r, hl, -⟩ | ⟨u, β, body, k, hl, -⟩ | ⟨u, a', hl, hret, he, hprog⟩ | ⟨e, hl, -⟩ :=
    Machine.step_cases h
  · cases hl
  · cases hl
  · cases hl
    exact ⟨hret, he, hprog⟩
  · cases hl

/-! ### Adequacy -/

section Adequacy
variable {m : Machine T C A E σ R} {G : Rules m}

/-- The invariant holds and every thread is safe for any number of steps. -/
def Good (G : Rules m) (Idle : T → σ → Prop) (s : Conf T C σ R) : Prop :=
  G.Inv s.shared ∧ ∀ t n, Safe G t n (s.prog t) (fun _ => Idle t) s.shared

variable {Idle : T → σ → Prop} {okCall : T → A → σ → Prop} {s s' : Conf T C σ R}

omit [DecidableEq T] in
theorem Good.next_allowed (h : Good G Idle s) {t : T} {c : C}
    (hc : (s.prog t).next = some c) (hok : G.ok t c s.shared) : G.Allowed t c s.shared := by
  have hs := h.2 t 1 s.shared (G.rely_refl t _) h.1
  cases hp : s.prog t with
  | ret a => simp [hp, Prog.next] at hc
  | cmd c' k =>
    simp only [hp, Prog.next, Option.some.injEq] at hc
    subst hc
    rw [hp] at hs
    exact (hs hok).1
  | loop body k => simp [hp, Prog.next] at hc

omit [DecidableEq T] in
theorem Good.idle (h : Good G Idle s) {t : T} (ht : s.prog t = .ret ()) :
    Idle t s.shared := by
  have hs := h.2 t 1 s.shared (G.rely_refl t _) h.1
  rw [ht] at hs
  exact hs

/-- What starting an operation must establish. -/
def CallSound (G : Rules m) (Idle : T → σ → Prop) (okCall : T → A → σ → Prop) : Prop :=
  ∀ t a s s', G.Inv s → Idle t s → okCall t a s → m.enter t a s = some s' →
    G.Inv s' ∧ (∀ u, u ≠ t → G.Rely u s s') ∧
      ∀ n, Safe G t n (m.body t a) (fun _ => Idle t) s'

/-- One thread has moved; the others only saw what they rely on. -/
theorem Good.update (h : Good G Idle s) {t : T} {p : Prog C R Unit}
    (hi : G.Inv s'.shared) (hrely : ∀ u, u ≠ t → G.Rely u s.shared s'.shared)
    (hprog : s'.prog = Function.update s.prog t p)
    (hp : ∀ n, Safe G t n p (fun _ => Idle t) s'.shared) : Good G Idle s' := by
  refine ⟨hi, fun u n => ?_⟩
  rw [hprog]
  by_cases hu : u = t
  · subst hu
    simpa using hp n
  · rw [Function.update_of_ne hu]
    exact (h.2 u n).rely (hrely u hu)

theorem Good.step (hcalls : CallSound G Idle okCall) (h : Good G Idle s) {l : Label T A E}
    (hok : stepOk G.ok okCall s l) (hl : m.step s l = some s') : Good G Idle s' := by
  obtain ⟨t, c, k, r, rfl, hp, he, hprog⟩ | ⟨t, β, body, k, rfl, hp, hsh, hprog⟩ |
    ⟨t, a, rfl, hp, he, hprog⟩ | ⟨e, rfl, he, hprog⟩ := Machine.step_cases hl
  · have hokc : G.ok t c s.shared := hok c (by rw [hp]; rfl)
    have hallow := h.next_allowed (t := t) (c := c) (by rw [hp]; rfl) hokc
    obtain ⟨hi, hrely⟩ := G.exec_sound h.1 hokc hallow he
    refine h.update hi hrely hprog fun n => ?_
    have hs := h.2 t (n + 1) s.shared (G.rely_refl t _) h.1
    rw [hp] at hs
    exact (hs hokc).2 r _ he
  · refine h.update (hsh ▸ h.1) (fun u _ => hsh ▸ G.rely_refl u _) hprog fun n => ?_
    have hs := h.2 t (n + 1) s.shared (G.rely_refl t _) h.1
    rw [hp] at hs
    exact hsh ▸ hs
  · obtain ⟨hi, hrely, hbody⟩ := hcalls t a _ _ h.1 (h.idle hp) hok he
    exact h.update hi hrely hprog hbody
  · obtain ⟨hi, hrely⟩ := G.env_sound h.1 he
    exact ⟨hi, fun u n => hprog ▸ (h.2 u n).rely (hrely u)⟩

/-- **Adequacy** of the logic, for every run. -/
theorem Rules.sound (hcalls : CallSound G Idle okCall) {init : Conf T C σ R → Prop}
    (hinit : ∀ s, init s → Good G Idle s)
    (hs : Reach m.step (stepOk G.ok okCall) init s) : Good G Idle s :=
  hs.invariant hinit fun _ _ _ hg hok hl => hg.step hcalls hok hl

/-- The commands still to come of every thread. -/
def ProgsIssue (φ : T → C → Prop) (ψ : (c : C) → R c → Prop) (s : Conf T C σ R) : Prop :=
  ∀ t, (s.prog t).Issues (φ t) ψ fun _ => True

theorem ProgsIssue.update {φ : T → C → Prop} {ψ : (c : C) → R c → Prop} (h : ProgsIssue φ ψ s)
    {t : T} {p : Prog C R Unit} (hprog : s'.prog = Function.update s.prog t p)
    (hp : p.Issues (φ t) ψ fun _ => True) : ProgsIssue φ ψ s' := by
  intro u
  rw [hprog]
  by_cases hu : u = t
  · subst hu
    simpa using hp
  · rw [Function.update_of_ne hu]
    exact h u

/-- **A further invariant** of the shared state, for programs that only issue the commands
    `φ` when they only get the results `ψ`: since the commands issued are known to be
    allowed, it is enough that the allowed ones keep it. -/
theorem Rules.invariant_of_issues (hcalls : CallSound G Idle okCall) {init : Conf T C σ R → Prop}
    (hinit : ∀ s, init s → Good G Idle s) {okCmd : T → C → σ → Prop}
    (hok : ∀ t c s, okCmd t c s → G.ok t c s) {φ : T → C → Prop} {ψ : (c : C) → R c → Prop}
    (hstart : ∀ s, init s → ProgsIssue φ ψ s)
    (hbody : ∀ t a s, okCall t a s → (m.body t a).Issues (φ t) ψ fun _ => True) {J : σ → Prop}
    (hJ : ∀ s, init s → J s.shared)
    (hexec : ∀ t c s r s', G.Inv s → J s → G.Allowed t c s → okCmd t c s → φ t c →
      m.exec t c s = some (r, s') → ψ c r ∧ J s')
    (henter : ∀ t a s s', G.Inv s → J s → m.enter t a s = some s' → J s')
    (henv : ∀ e s s', G.Inv s → J s → m.env e s = some s' → J s')
    (hs : Reach m.step (stepOk okCmd okCall) init s) :
    Good G Idle s ∧ J s.shared ∧ ProgsIssue φ ψ s := by
  refine hs.invariant (I := fun s => Good G Idle s ∧ J s.shared ∧ ProgsIssue φ ψ s)
    (fun s h => ⟨hinit s h, hJ s h, hstart s h⟩) fun s l s' hg hl hstep => ?_
  obtain ⟨hgood, hj, hprogs⟩ := hg
  have hokG : stepOk G.ok okCall s l := by
    cases l with
    | run t => exact fun c hc => hok _ _ _ (hl c hc)
    | call t a => exact hl
    | env e => trivial
  refine ⟨hgood.step hcalls hokG hstep, ?_⟩
  obtain ⟨t, c, k, r, rfl, hp, he, hprog⟩ | ⟨t, β, body, k, rfl, hp, hsh, hprog⟩ |
    ⟨t, a, rfl, -, he, hprog⟩ | ⟨e, rfl, he, hprog⟩ := Machine.step_cases hstep
  · have hc : (s.prog t).next = some c := by rw [hp]; rfl
    have hiss := hprogs t
    rw [hp] at hiss
    obtain ⟨hψ, hj'⟩ := hexec t c _ r _ hgood.1 hj (hgood.next_allowed hc (hokG c hc)) (hl c hc)
      hiss.1 he
    exact ⟨hj', hprogs.update hprog (hiss.2 r hψ)⟩
  · have hiss := hprogs t
    rw [hp] at hiss
    exact ⟨hsh ▸ hj, hprogs.update hprog hiss.unfold⟩
  · exact ⟨henter t a _ _ hgood.1 hj he, hprogs.update hprog (hbody t a _ hl)⟩
  · exact ⟨henv e _ _ hgood.1 hj he, fun u => hprog ▸ hprogs u⟩

/-- The same without looking at the programs. -/
theorem Rules.invariant (hcalls : CallSound G Idle okCall) {init : Conf T C σ R → Prop}
    (hinit : ∀ s, init s → Good G Idle s) {okCmd : T → C → σ → Prop}
    (hok : ∀ t c s, okCmd t c s → G.ok t c s) {J : σ → Prop}
    (hJ : ∀ s, init s → J s.shared)
    (hexec : ∀ t c s r s', G.Inv s → J s → G.Allowed t c s → okCmd t c s →
      m.exec t c s = some (r, s') → J s')
    (henter : ∀ t a s s', G.Inv s → J s → m.enter t a s = some s' → J s')
    (henv : ∀ e s s', G.Inv s → J s → m.env e s = some s' → J s')
    (hs : Reach m.step (stepOk okCmd okCall) init s) : Good G Idle s ∧ J s.shared := by
  have hall := Rules.invariant_of_issues (φ := fun _ _ => True) (ψ := fun _ _ => True) hcalls hinit hok
    (fun _ _ _ => .of_forall (fun _ => trivial) (fun _ => trivial) _)
    (fun _ _ _ _ => .of_forall (fun _ => trivial) (fun _ => trivial) _) hJ
    (fun t c s r s' hi hj ha ho _ he => ⟨trivial, hexec t c s r s' hi hj ha ho he⟩) henter henv hs
  exact ⟨hall.1, hall.2.1⟩

end Adequacy

end Coroc.Program
