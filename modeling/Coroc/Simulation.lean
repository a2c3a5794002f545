import Coroc.Transition

/-!
# Simulation and progress

Two rules for systems with an executable step (`Coroc.Transition`).  Nothing here mentions
the runtime.

* `Reach.simulate`: when every step of one system is a step of another one, or changes
  nothing there, each state it reaches is related to a state that the other one reaches.
* `run_replicate_of_rank`: a party that can always move, and whose rank falls with every
  move until it has got somewhere, gets there by itself in as many moves as its rank.
-/

namespace Coroc.Transition

universe u v w

variable {State : Type u} {Label : Type v} {Abs Move : Type w}
  {step : State → Label → Option State} {ok : State → Label → Prop} {init : State → Prop}

/-- `R` is a forward simulation of `step` by `move`, for the steps that are `ok`. -/
structure Simulates (step : State → Label → Option State) (ok : State → Label → Prop) (init : State → Prop)
    (move : Abs → Move → Option Abs) (start : Abs → Prop) (R : State → Abs → Prop) : Prop where
  starts : ∀ s, init s → ∃ a, start a ∧ R s a
  steps : ∀ s a l s', R s a → ok s l → step s l = some s' →
    R s' a ∨ ∃ m a', move a m = some a' ∧ R s' a'

/-- **Simulation of runs.** -/
theorem Reach.simulate {move : Abs → Move → Option Abs} {start : Abs → Prop} {R : State → Abs → Prop}
    (hR : Simulates step ok init move start R) {s : State} (h : Reach step ok init s) :
    ∃ a, Reach move (fun _ _ => True) start a ∧ R s a := by
  induction h with
  | start hs =>
    obtain ⟨a, ha, hr⟩ := hR.starts _ hs
    exact ⟨a, .start ha, hr⟩
  | next l _ hl hs ih =>
    obtain ⟨a, ha, hr⟩ := ih
    rcases hR.steps _ a l _ hr hl hs with hstay | ⟨m, a', hm, hr'⟩
    · exact ⟨a, ha, hstay⟩
    · exact ⟨a', .next m ha trivial hm, hr'⟩

variable (step) in
/-- **Progress by a rank.**  `I` is kept on the way, and at the end `Q` holds. -/
theorem run_replicate_of_rank {I Q : State → Prop} (l : Label) (rank : State → Nat)
    (hstep : ∀ s, I s → ¬ Q s → ∃ s', step s l = some s' ∧ I s' ∧ rank s' < rank s) :
    ∀ n s, I s → rank s ≤ n → ∃ m s', m ≤ n ∧ run step s (List.replicate m l) = some s' ∧ I s' ∧ Q s' := by
  intro n
  induction n with
  | zero =>
    intro s hs hn
    by_cases hq : Q s
    · exact ⟨0, s, Nat.le_refl 0, rfl, hs, hq⟩
    · obtain ⟨s', -, -, hlt⟩ := hstep s hs hq
      omega
  | succ n ih =>
    intro s hs hn
    by_cases hq : Q s
    · exact ⟨0, s, Nat.zero_le _, rfl, hs, hq⟩
    · obtain ⟨s', hs', hI, hlt⟩ := hstep s hs hq
      obtain ⟨m, t, hm, hrun, ht⟩ := ih s' hI (by omega)
      refine ⟨m + 1, t, by omega, ?_, ht⟩
      simp only [List.replicate_succ, run, hs', Option.bind_some]
      exact hrun

end Coroc.Transition
