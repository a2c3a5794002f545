import Mathlib.Algebra.BigOperators.Group.Finset.Basic
import Mathlib.Data.Fintype.BigOperators
import Mathlib.Tactic.Abel
import Coroc.Transition

/-!
# Threads over a shared state

A pool is a shared state and one local state for each thread; a step of the pool is
a step of one thread on the shared state and its own local state.  Nothing here
mentions the runtime.

* `Modular.invariant` is the thread-modular rule: an assertion about each thread's
  local state that the thread's own steps keep, and that no step of another thread
  can break because all it does is allowed by its guarantee, holds in every run, for
  any number of threads.
* `sum_update` and `Pool.sum_step` are for quantities that are spread over the
  shared state and all threads: it is enough that one thread's step moves them
  between the shared state and itself.
-/

namespace Coroc.ThreadPool

open Coroc.Transition

universe u

structure Pool (ι : Type) (σ ℓ : Type u) where
  shared : σ
  locals : ι → ℓ

/-- Pools of one and of two threads have a first thread, the `0` of their index type. -/
instance onePool : NeZero 1 := ⟨Nat.one_ne_zero⟩

instance twoPool : NeZero 2 := ⟨Nat.succ_ne_zero 1⟩

section
variable {ι χ : Type} [DecidableEq ι] {σ ℓ : Type u}

/-- A step of thread `i` with choice `c`, as a step of the pool. -/
def poolStep (step : ι → σ → ℓ → χ → Option (σ × ℓ)) (s : Pool ι σ ℓ) (l : ι × χ) :
    Option (Pool ι σ ℓ) :=
  (step l.1 s.shared (s.locals l.1) l.2).map fun r =>
    { shared := r.1, locals := Function.update s.locals l.1 r.2 }

variable {step : ι → σ → ℓ → χ → Option (σ × ℓ)}

theorem poolStep_eq_some {s s' : Pool ι σ ℓ} {l : ι × χ} (h : poolStep step s l = some s') :
    ∃ r, step l.1 s.shared (s.locals l.1) l.2 = some r ∧ s'.shared = r.1 ∧
      s'.locals = Function.update s.locals l.1 r.2 := by
  simp only [poolStep, Option.map_eq_some_iff] at h
  obtain ⟨r, hr, rfl⟩ := h
  exact ⟨r, hr, rfl, rfl⟩

/-- A step of one thread, as a step of the pool. -/
theorem reach_alone {ok : Pool ι σ ℓ → ι × χ → Prop} {init : Pool ι σ ℓ → Prop} {i : ι} {f : ι → ℓ}
    {s : σ} {l : ℓ} (c : χ) (s' : σ) (l' : ℓ)
    (h : Reach (poolStep step) ok init ⟨s, Function.update f i l⟩)
    (hok : ok ⟨s, Function.update f i l⟩ (i, c)) (hstep : step i s l c = some (s', l')) :
    Reach (poolStep step) ok init ⟨s', Function.update f i l'⟩ := by
  refine .next (i, c) h hok ?_
  simp only [poolStep, Function.update_self, hstep, Option.map_some, Function.update_idem]

/-- The premises of the thread-modular rule: `I` is about the shared state, `A i` is
    what thread `i` knows at a local state, `G i` is what a step of thread `i` does
    to the shared state, `ok i` the condition on its steps. -/
structure Modular (step : ι → σ → ℓ → χ → Option (σ × ℓ)) (ok : ι → σ → ℓ → χ → Prop)
    (I : σ → Prop) (A : ι → ℓ → σ → Prop) (G : ι → σ → σ → Prop) : Prop where
  own : ∀ i s l c s' l', I s → A i l s → ok i s l c → step i s l c = some (s', l') →
    I s' ∧ A i l' s' ∧ G i s s'
  stable : ∀ i j s s' l, i ≠ j → I s → A j l s → G i s s' → A j l s'

/-- The conjunction the rule maintains. -/
def Pool.Good (I : σ → Prop) (A : ι → ℓ → σ → Prop) (s : Pool ι σ ℓ) : Prop :=
  I s.shared ∧ ∀ i, A i (s.locals i) s.shared

theorem Modular.good_step {ok : ι → σ → ℓ → χ → Prop} {I : σ → Prop} {A : ι → ℓ → σ → Prop}
    {G : ι → σ → σ → Prop} (h : Modular step ok I A G) {s s' : Pool ι σ ℓ} {l : ι × χ}
    (hs : s.Good I A) (hok : ok l.1 s.shared (s.locals l.1) l.2)
    (hl : poolStep step s l = some s') : s'.Good I A := by
  obtain ⟨⟨σ', ℓ'⟩, hr, hshared, hlocals⟩ := poolStep_eq_some hl
  obtain ⟨hI, hA, hG⟩ := h.own _ _ _ _ _ _ hs.1 (hs.2 l.1) hok hr
  refine ⟨hshared ▸ hI, fun j => ?_⟩
  rw [hshared, hlocals]
  by_cases hj : j = l.1
  · subst hj
    simpa using hA
  · rw [Function.update_of_ne hj]
    exact h.stable _ _ _ _ _ (Ne.symm hj) hs.1 (hs.2 j) hG

/-- **The thread-modular rule**, for every run. -/
theorem Modular.invariant {ok : ι → σ → ℓ → χ → Prop} {I : σ → Prop} {A : ι → ℓ → σ → Prop}
    {G : ι → σ → σ → Prop} (h : Modular step ok I A G)
    {okPool : Pool ι σ ℓ → ι × χ → Prop} {init : Pool ι σ ℓ → Prop}
    (hok : ∀ s l, okPool s l → ok l.1 s.shared (s.locals l.1) l.2)
    (hinit : ∀ s, init s → s.Good I A) {s : Pool ι σ ℓ}
    (hs : Reach (poolStep step) okPool init s) : s.Good I A :=
  hs.invariant hinit fun _ _ _ hg hl hs => h.good_step hg (hok _ _ hl) hs

end

/-! ### Quantities spread over the threads -/

section
variable {ι β M : Type} [Fintype ι] [DecidableEq ι] [AddCommMonoid M]

omit [Fintype ι] in
/-- How a sum changes when one of its places changes. -/
theorem sum_update_of_mem (f : β → M) (g : ι → β) {t : Finset ι} {i : ι} (hi : i ∈ t) (b : β) :
    ∑ x ∈ t, f (Function.update g i b x) + f (g i) = ∑ x ∈ t, f (g x) + f b := by
  have hsplit : ∀ h : ι → M, ∑ x ∈ t, h x = h i + ∑ x ∈ t.erase i, h x := fun h =>
    (Finset.add_sum_erase _ h hi).symm
  have hrest : ∑ x ∈ t.erase i, f (Function.update g i b x) = ∑ x ∈ t.erase i, f (g x) :=
    Finset.sum_congr rfl fun x hx => by rw [Function.update_of_ne (Finset.ne_of_mem_erase hx)]
  rw [hsplit fun x => f (Function.update g i b x), hsplit fun x => f (g x), hrest,
    Function.update_self]
  abel

theorem sum_update (f : β → M) (g : ι → β) (i : ι) (b : β) :
    ∑ x, f (Function.update g i b x) + f (g i) = ∑ x, f (g x) + f b :=
  sum_update_of_mem f g (Finset.mem_univ i) b

end

section
variable {ι χ M : Type} [Fintype ι] [DecidableEq ι] [AddCommMonoid M] {σ ℓ : Type}
  {step : ι → σ → ℓ → χ → Option (σ × ℓ)}

/-- A step that moves a quantity between the shared state and one thread, and makes
    `d` more of it, does so for the whole pool. -/
theorem Pool.sum_step [IsCancelAdd M] (shared : σ → M) (own : ℓ → M) {s s' : Pool ι σ ℓ} {l : ι × χ}
    (hl : poolStep step s l = some s') {d : M}
    (hd : shared s'.shared + own (s'.locals l.1) = shared s.shared + own (s.locals l.1) + d) :
    shared s'.shared + ∑ i, own (s'.locals i) = shared s.shared + ∑ i, own (s.locals i) + d := by
  obtain ⟨r, -, -, hlocals⟩ := poolStep_eq_some hl
  have hsum := sum_update own s.locals l.1 r.2
  rw [hlocals, Function.update_self] at hd
  rw [hlocals]
  refine add_right_cancel (b := own (s.locals l.1)) ?_
  calc shared s'.shared + ∑ i, own (Function.update s.locals l.1 r.2 i) + own (s.locals l.1)
      = shared s'.shared + own r.2 + ∑ i, own (s.locals i) := by rw [add_assoc, hsum]; abel
    _ = shared s.shared + ∑ i, own (s.locals i) + d + own (s.locals l.1) := by rw [hd]; abel

end

end Coroc.ThreadPool
