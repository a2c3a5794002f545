import Mathlib.Logic.Function.Basic
import Coroc.Simulation

/-!
# The life of a coroutine, as the scheduler should keep it

What switching contexts is for, without contexts: every coroutine is in one place, a VPU
runs at most one, and a call into the system moves the caller in one step.  The code of
`src/vpu.c` is compared with this in `Coroc.Switch.Safety`.
-/

namespace Coroc.Switch

open Coroc.Transition

abbrev Vid := Nat
abbrev Coid := Nat

/-- Where a coroutine is.  `claimed`: somebody is about to make it ready; `readied`: it is
    on its way to a run queue. -/
inductive Place where
  | unborn
  | claimed
  | readied
  | queued
  | on (v : Vid)
  | asleep
  | exited
deriving DecidableEq, Repr

/-- The places of the coroutines, and the coroutine each VPU has. -/
structure Life where
  place : Coid → Place
  running : Vid → Option Coid

inductive Move where
  | create (k : Coid)
  | ready (k : Coid)
  | enqueue (k : Coid)
  | dispatch (v : Vid) (k : Coid)
  | suspend (v : Vid) (k : Coid)
  | yield (v : Vid) (k : Coid)
  | exit (v : Vid) (k : Coid)
  | wake (k : Coid)

namespace Life

def put (a : Life) (k : Coid) (p : Place) : Life := { a with place := Function.update a.place k p }

/-- The VPU gives its coroutine back. -/
def leave (a : Life) (v : Vid) (k : Coid) (p : Place) : Life :=
  { place := Function.update a.place k p, running := Function.update a.running v none }

def take (a : Life) (v : Vid) (k : Coid) : Life :=
  { place := Function.update a.place k (.on v), running := Function.update a.running v (some k) }

def moveFrom (a : Life) (k : Coid) (p q : Place) : Option Life :=
  if a.place k = p then some (a.put k q) else none

def leaveFrom (a : Life) (v : Vid) (k : Coid) (q : Place) : Option Life :=
  if a.place k = .on v then some (a.leave v k q) else none

def move (a : Life) : Move → Option Life
  | .create k => a.moveFrom k .unborn .claimed
  | .ready k => a.moveFrom k .claimed .readied
  | .enqueue k => a.moveFrom k .readied .queued
  | .wake k => a.moveFrom k .asleep .claimed
  | .dispatch v k => if a.place k = .queued ∧ a.running v = none then some (a.take v k) else none
  | .suspend v k => a.leaveFrom v k .asleep
  | .yield v k => a.leaveFrom v k .queued
  | .exit v k => a.leaveFrom v k .exited

/-- At first the main coroutine is about to be made ready, and no other one has been created. -/
def firstPlace (k : Coid) : Place := if k = 1 then .claimed else .unborn

def first : Life := { place := firstPlace, running := fun _ => none }

def Start (a : Life) : Prop := a = first

/-- A VPU runs the coroutine that is on it, and no other. -/
def Coherent (a : Life) : Prop := ∀ v k, a.place k = .on v ↔ a.running v = some k

variable {a a' : Life} {v : Vid} {k : Coid} {p q : Place}

theorem firstPlace_ne (hc : p ≠ .claimed) (hu : p ≠ .unborn) : firstPlace k ≠ p := by
  unfold firstPlace
  split
  · exact hc.symm
  · exact hu.symm

theorem Start.coherent (h : Start a) : Coherent a := by
  subst h
  intro v k
  constructor
  · intro hk
    exact absurd hk (firstPlace_ne (by simp) (by simp))
  · intro hv
    cases hv

theorem Coherent.put (h : Coherent a) (hk : ∀ v, a.place k ≠ .on v) (hp : ∀ v, p ≠ .on v) :
    Coherent (a.put k p) := by
  intro v j
  unfold Life.put
  by_cases hj : j = k
  · subst hj
    simp only [Function.update_self]
    constructor
    · intro hv
      exact absurd hv (hp v)
    · intro hv
      exact absurd ((h v j).mpr hv) (hk v)
  · simp only [Function.update_of_ne hj]
    exact h v j

theorem Coherent.leave (h : Coherent a) (hk : a.place k = .on v) (hp : ∀ v, p ≠ .on v) :
    Coherent (a.leave v k p) := by
  have hrun := (h v k).mp hk
  intro w j
  unfold Life.leave
  by_cases hj : j = k
  · subst hj
    simp only [Function.update_self]
    constructor
    · intro hw
      exact absurd hw (hp w)
    · intro hw
      by_cases hwv : w = v
      · subst hwv
        simp at hw
      · rw [Function.update_of_ne hwv, ← h, hk] at hw
        cases hw
        exact absurd rfl hwv
  · simp only [Function.update_of_ne hj]
    by_cases hwv : w = v
    · subst hwv
      rw [Function.update_self, h, hrun]
      simp only [Option.some.injEq, reduceCtorEq, iff_false]
      exact Ne.symm hj
    · rw [Function.update_of_ne hwv]
      exact h w j

theorem Coherent.take (h : Coherent a) (hk : a.place k = .queued) (hv : a.running v = none) :
    Coherent (a.take v k) := by
  intro w j
  unfold Life.take
  by_cases hwv : w = v
  · subst hwv
    simp only [Function.update_self, Option.some.injEq]
    by_cases hj : j = k
    · subst hj
      simp
    · rw [Function.update_of_ne hj, h, hv]
      simp only [reduceCtorEq, false_iff]
      exact Ne.symm hj
  · simp only [Function.update_of_ne hwv]
    rw [← h]
    by_cases hj : j = k
    · subst hj
      simp only [Function.update_self, hk, Place.on.injEq, reduceCtorEq, iff_false]
      exact Ne.symm hwv
    · rw [Function.update_of_ne hj]

/-- What a move does: it puts a coroutine elsewhere, takes one from its VPU, or gives a VPU one
    that was queued. -/
theorem move_cases {m : Move} (h : a.move m = some a') :
    (∃ k p q, a.place k = p ∧ (∀ v, p ≠ .on v) ∧ p ≠ .exited ∧ (∀ v, q ≠ .on v) ∧ a' = a.put k q) ∨
    (∃ v k q, a.place k = .on v ∧ (∀ v, q ≠ .on v) ∧ a' = a.leave v k q) ∨
    ∃ v k, a.place k = .queued ∧ a.running v = none ∧ a' = a.take v k := by
  cases m with
  | create k | ready k | enqueue k | wake k =>
    simp only [move, moveFrom, Option.ite_none_right_eq_some, Option.some.injEq] at h
    obtain ⟨hp, rfl⟩ := h
    exact .inl ⟨k, _, _, hp, fun _ => Place.noConfusion, Place.noConfusion, fun _ => Place.noConfusion, rfl⟩
  | suspend v k | yield v k | exit v k =>
    simp only [move, leaveFrom, Option.ite_none_right_eq_some, Option.some.injEq] at h
    obtain ⟨hp, rfl⟩ := h
    exact .inr (.inl ⟨v, k, _, hp, fun _ => Place.noConfusion, rfl⟩)
  | dispatch v k =>
    simp only [move, Option.ite_none_right_eq_some, Option.some.injEq] at h
    obtain ⟨⟨hk, hv⟩, rfl⟩ := h
    exact .inr (.inr ⟨v, k, hk, hv, rfl⟩)

theorem Coherent.move (h : Coherent a) {m : Move} (hm : a.move m = some a') : Coherent a' := by
  obtain ⟨k, p, q, hp, hon, -, hq, rfl⟩ | ⟨v, k, q, hk, hq, rfl⟩ | ⟨v, k, hk, hv, rfl⟩ := move_cases hm
  · exact h.put (fun v => hp ▸ hon v) hq
  · exact h.leave hk hq
  · exact h.take hk hv

/-- **One coroutine on a VPU, one VPU for a coroutine**, in every run of the specification. -/
theorem coherent (h : Reach move (fun _ _ => True) Start a) : Coherent a :=
  h.invariant (fun _ hs => hs.coherent) fun _ _ _ hc _ hm => hc.move hm

/-- A coroutine that has exited stays where it is. -/
theorem exited_move {m : Move} (hm : a.move m = some a') (hk : a.place k = .exited) : a'.place k = .exited := by
  obtain ⟨j, p, q, hp, -, hex, -, rfl⟩ | ⟨v, j, q, hj, -, rfl⟩ | ⟨v, j, hj, -, rfl⟩ := move_cases hm
  · have hne : k ≠ j := by
      rintro rfl
      exact hex (hp.symm.trans hk)
    simpa [put, hne] using hk
  · have hne : k ≠ j := by
      rintro rfl
      rw [hk] at hj
      cases hj
    simpa [leave, hne] using hk
  · have hne : k ≠ j := by
      rintro rfl
      rw [hk] at hj
      cases hj
    simpa [take, hne] using hk

end Life

end Coroc.Switch
