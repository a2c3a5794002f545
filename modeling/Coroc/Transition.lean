/-!
# Labelled transition systems with an executable step

The components of the runtime are modelled as step functions: a label names the
party that moves and the choice it makes, and `step s l` is the next state, or
`none` when the move is not enabled.  Nothing here mentions the runtime.

* `run` executes a list of labels, so a concrete run is a closed term that can be
  evaluated.
* `Reach` is the reachable states.  It carries a predicate `ok` on steps, so that
  "every run whose steps all meet a condition" is the same notion with a
  non-trivial `ok`.
* `Reach.invariant` is the induction every whole-run result goes through: what
  holds initially and is kept by one step holds in every state reached.
* `Logged` adds a log of what is observed in each step, for results about the order
  of events.
-/

namespace Coroc.Transition

universe u v

variable {State : Type u} {Label : Type v}

/-- Execute a list of labels, stopping at the first one that is not enabled. -/
def run (step : State → Label → Option State) : State → List Label → Option State
  | s, [] => some s
  | s, l :: ls => (step s l).bind fun s' => run step s' ls

/-- The states reached from `init` by enabled steps that all satisfy `ok`. -/
inductive Reach (step : State → Label → Option State) (ok : State → Label → Prop)
    (init : State → Prop) : State → Prop
  | start {s : State} : init s → Reach step ok init s
  | next {s s' : State} (l : Label) :
      Reach step ok init s → ok s l → step s l = some s' → Reach step ok init s'

variable {step : State → Label → Option State} {ok : State → Label → Prop}
  {init : State → Prop}

/-- **Run induction.**  An invariant of the initial states that every permitted
    step keeps holds in every state reached. -/
theorem Reach.invariant {I : State → Prop} (hinit : ∀ s, init s → I s)
    (hstep : ∀ s l s', I s → ok s l → step s l = some s' → I s')
    {s : State} (h : Reach step ok init s) : I s := by
  induction h with
  | start hs => exact hinit _ hs
  | next l _ hok hl ih => exact hstep _ l _ ih hok hl

/-- A weaker condition on the steps reaches more. -/
theorem Reach.mono {ok' : State → Label → Prop} (hok : ∀ s l, ok s l → ok' s l)
    {s : State} (h : Reach step ok init s) : Reach step ok' init s := by
  induction h with
  | start hs => exact .start hs
  | next l _ hl hs ih => exact .next l ih (hok _ _ hl) hs

/-- So does a weaker condition on the start. -/
theorem Reach.weaken {init' : State → Prop} (hinit : ∀ s, init s → init' s)
    {s : State} (h : Reach step ok init s) : Reach step ok init' s := by
  induction h with
  | start hs => exact .start (hinit _ hs)
  | next l _ hl hs ih => exact .next l ih hl hs

/-- A run from where another one has come to. -/
theorem Reach.trans {s s' : State} (h : Reach step ok init s) (h' : Reach step ok (fun x => x = s) s') :
    Reach step ok init s' := by
  induction h' with
  | start hs => exact hs ▸ h
  | next l _ hl hs ih => exact .next l ih hl hs

/-- An executed list of labels is a run, when no condition is put on its steps. -/
theorem Reach.of_run (ls : List Label) :
    ∀ {s s' : State}, Reach step (fun _ _ => True) init s → run step s ls = some s' →
      Reach step (fun _ _ => True) init s' := by
  induction ls with
  | nil =>
    intro s s' h hrun
    simp only [run, Option.some.injEq] at hrun
    exact hrun ▸ h
  | cons l ls ih =>
    intro s s' h hrun
    rcases hl : step s l with _ | s₁
    · simp [run, hl] at hrun
    · simp only [run, hl, Option.bind_some] at hrun
      exact ih (.next l h trivial hl) hrun

/-- A decidable condition checked along an executed list of labels. -/
def runOk (step : State → Label → Option State) (ok : State → Label → Prop)
    [∀ s l, Decidable (ok s l)] : State → List Label → Bool
  | _, [] => true
  | s, l :: ls => decide (ok s l) && match step s l with
    | some s' => runOk step ok s' ls
    | none => false

/-- An executed list of labels whose steps all meet the condition. -/
theorem Reach.of_runOk [∀ s l, Decidable (ok s l)] (ls : List Label) :
    ∀ {s s' : State}, Reach step ok init s → runOk step ok s ls = true →
      run step s ls = some s' → Reach step ok init s' := by
  induction ls with
  | nil =>
    intro s s' h _ hrun
    simp only [run, Option.some.injEq] at hrun
    exact hrun ▸ h
  | cons l ls ih =>
    intro s s' h hok hrun
    rcases hl : step s l with _ | s₁
    · simp [run, hl] at hrun
    · simp only [run, hl, Option.bind_some] at hrun
      simp only [runOk, hl, Bool.and_eq_true, decide_eq_true_eq] at hok
      exact ih (.next l h hok.1 hl) hok.2 hrun

/-- A run found by execution, with what a check says about the state it ends in. -/
theorem Reach.exists_of_run (step : State → Label → Option State) (init : State → Prop)
    {s : State} (hs : init s) (ls : List Label) (P : State → Bool)
    (h : (run step s ls).any P = true) :
    ∃ s', Reach step (fun _ _ => True) init s' ∧ P s' = true := by
  rcases hr : run step s ls with _ | s'
  · simp [hr] at h
  · exact ⟨s', Reach.of_run ls (.start hs) hr, by simpa [hr] using h⟩

/-- The same for a run whose steps are checked against a condition. -/
theorem Reach.exists_of_runOk (step : State → Label → Option State)
    (ok : State → Label → Prop) [∀ s l, Decidable (ok s l)] (init : State → Prop)
    {s : State} (hs : init s) (ls : List Label) (P : State → Bool)
    (h : (runOk step ok s ls && (run step s ls).any P) = true) :
    ∃ s', Reach step ok init s' ∧ P s' = true := by
  simp only [Bool.and_eq_true] at h
  rcases hr : run step s ls with _ | s'
  · simp [hr] at h
  · exact ⟨s', Reach.of_runOk ls (.start hs) h.1 hr, by simpa [hr] using h.2⟩

/-! ### Observations -/

variable {Obs : Type v}

/-- The same system with a log of what is observed in each step. -/
def logged (step : State → Label → Option State) (observe : State → State → List Obs)
    (p : State × List Obs) (l : Label) : Option (State × List Obs) :=
  (step p.1 l).map fun s => (s, p.2 ++ observe p.1 s)

/-- The states reached, with the log that belongs to the run. -/
def Logged (step : State → Label → Option State) (ok : State → Label → Prop) (init : State → Prop)
    (observe : State → State → List Obs) (s : State) (log : List Obs) : Prop :=
  Reach (logged step observe) (fun p l => ok p.1 l) (fun p => init p.1 ∧ p.2 = []) (s, log)

/-- **Induction over a run with its log.**  Every state on the way is reached in the
    system without the log. -/
theorem Logged.invariant {observe : State → State → List Obs} {I : State → List Obs → Prop}
    (hinit : ∀ s, init s → I s [])
    (hstep : ∀ s log l s', Reach step ok init s → I s log → ok s l → step s l = some s' →
      I s' (log ++ observe s s'))
    {s : State} {log : List Obs} (h : Logged step ok init observe s log) :
    Reach step ok init s ∧ I s log := by
  refine Reach.invariant (I := fun p : State × List Obs => Reach step ok init p.1 ∧ I p.1 p.2)
    ?_ ?_ h
  · rintro ⟨s, log⟩ ⟨hs, hlog⟩
    simp only at hs hlog
    subst hlog
    exact ⟨.start hs, hinit s hs⟩
  · rintro ⟨s, log⟩ l ⟨s', log'⟩ ⟨hs, hi⟩ hok hl
    obtain ⟨s₁, hs₁, he⟩ := Option.map_eq_some_iff.mp hl
    cases he
    exact ⟨.next l hs hok hs₁, hstep s log l s' hs hi hok hs₁⟩

end Coroc.Transition
