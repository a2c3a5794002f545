import Coroc.NetPoll

/-!
# A batch of events (`src/src/netpoll_epoll.c`)

One call of `__coroc_netpoll_polling`: the loop over the events that `epoll_wait` has
returned, with one local `mode` for all of them.  Between two events other threads may claim
descriptors, the timer daemon or another poller.

* `claims` are the events whose descriptor the loop claims, in order.
* `own_event_iff`: every claimed descriptor gets the mode of its own event, unless an
  earlier one leaves a bit behind that it does not have itself.
-/

namespace Coroc.EpollBatch

open Coroc.NetPoll

variable {δ : Type} [DecidableEq δ]

/-! ### The loop -/

/-- `done` and `mode` of a descriptor. -/
structure Desc where
  mode : Mode
  done : Bool
deriving DecidableEq, Repr

/-- An event of the batch, or a descriptor that another thread claims. -/
inductive Step (δ : Type) where
  | event (d : δ) (ev : Event)
  | other (d : δ) (mode : Mode)
deriving DecidableEq, Repr

/-- The descriptors, and the local variable `mode`. -/
structure Pass (δ : Type) where
  descs : δ → Desc
  mode : Mode

def iterate (p : Pass δ) : Step δ → Pass δ
  | .event d ev =>
    if (p.descs d).done then p
    else
      let mode := eventMode ev (p.descs d).mode p.mode
      ⟨Function.update p.descs d ⟨mode, true⟩, mode⟩
  | .other d mode =>
    if (p.descs d).done then p else { p with descs := Function.update p.descs d ⟨mode, true⟩ }

/-- `__coroc_netpoll_polling`, after `epoll_wait`. -/
def polling (descs : δ → Desc) (steps : List (Step δ)) : δ → Desc :=
  (steps.foldl iterate ⟨descs, .none⟩).descs

/-! ### What a waiter should be told -/

/-- `TSC_NETPOLL_ERROR` alone, or the requested bits that the event reports. -/
def own (want : Mode) (ev : Event) : Mode :=
  if ev.err then ⟨false, false, true⟩ else ⟨want.read && ev.input, want.write && ev.output, false⟩

/-- The events that find `done` unset. -/
def claims (descs : δ → Desc) : List (Step δ) → List (δ × Event)
  | [] => []
  | .event d ev :: steps =>
    if (descs d).done then claims descs steps
    else (d, ev) :: claims (Function.update descs d ⟨(descs d).mode, true⟩) steps
  | .other d _ :: steps => claims (Function.update descs d ⟨(descs d).mode, true⟩) steps

/-- Each claimed descriptor holds the mode of its own event. -/
def OwnEvents (descs : δ → Desc) (steps : List (Step δ)) : Prop :=
  ∀ c ∈ claims descs steps, (polling descs steps c.1).mode = own (descs c.1).mode c.2

/-- The bits of the first mode are bits of the second. -/
def Within (m m' : Mode) : Prop :=
  (m.read → m'.read) ∧ (m.write → m'.write) ∧ (m.error → m'.error)

/-- An error overwrites what is left from the first event; otherwise that is nothing new. -/
def Fits (descs : δ → Desc) (first second : δ × Event) : Prop :=
  second.2.err = false →
    Within (own (descs first.1).mode first.2) (own (descs second.1).mode second.2)

/-! ### Bits that stay -/

section
variable {descs descs' : δ → Desc} {steps : List (Step δ)} {c : δ × Event} {d : δ} {m : Mode}

theorem Within.trans {m m' m'' : Mode} (h : Within m m') (h' : Within m' m'') : Within m m'' :=
  ⟨fun hr => h'.1 (h.1 hr), fun hw => h'.2.1 (h.2.1 hw), fun he => h'.2.2 (h.2.2 he)⟩

/-- The loop body gives the event's own mode if nothing else was left in the variable. -/
theorem eventMode_eq_own_iff {want : Mode} {ev : Event} :
    eventMode ev want m = own want ev ↔ (ev.err = false → Within m (own want ev)) := by
  rcases m with ⟨r, w, e⟩
  rcases want with ⟨wr, ww, we⟩
  rcases ev with ⟨err, input, output⟩
  simp only [eventMode, own, Within]
  cases err with
  | true => simp
  | false => cases r <;> cases w <;> cases e <;> simp

/-- The mark of an error does not fit an event that is none. -/
theorem err_of_within {want want' : Mode} {ev ev' : Event} (hev : ev'.err = false)
    (h : Within (own want ev) (own want' ev')) : ev.err = false := by
  by_contra herr
  rw [Bool.not_eq_false] at herr
  have herror := h.2.2
  rw [own, own, herr, hev] at herror
  exact Bool.false_ne_true (herror rfl)

/-! ### The loop, event by event -/

theorem claims_congr (h : ∀ d, (descs d).done = (descs' d).done) :
    claims descs steps = claims descs' steps := by
  have hupdate : ∀ {descs descs' : δ → Desc} (d : δ) (m m' : Mode),
      (∀ e, (descs e).done = (descs' e).done) →
      ∀ e, (Function.update descs d ⟨m, true⟩ e).done = (Function.update descs' d ⟨m', true⟩ e).done := by
    intro descs descs' d m m' h e
    by_cases he : e = d
    · rw [he, Function.update_self, Function.update_self]
    · rw [Function.update_of_ne he, Function.update_of_ne he]
      exact h e
  induction steps generalizing descs descs' with
  | nil => rfl
  | cons step steps ih =>
    cases step with
    | event d ev => rw [claims, claims, ← h d, ih h, ih (hupdate d _ _ h)]
    | other d mode => rw [claims, claims, ih (hupdate d _ _ h)]

theorem claims_undone (hc : c ∈ claims descs steps) : (descs c.1).done = false := by
  have hback : ∀ {descs : δ → Desc} {d : δ} {m : Mode},
      (Function.update descs d ⟨m, true⟩ c.1).done = false → (descs c.1).done = false ∧ c.1 ≠ d := by
    intro descs d m h
    by_cases he : c.1 = d
    · rw [he, Function.update_self] at h
      exact nomatch h
    · rw [Function.update_of_ne he] at h
      exact ⟨h, he⟩
  induction steps generalizing descs with
  | nil => exact nomatch hc
  | cons step steps ih =>
    cases step with
    | event d ev =>
      rw [claims] at hc
      split at hc
      · exact ih hc
      · next hdone =>
        rcases List.mem_cons.mp hc with rfl | hc
        · exact Bool.not_eq_true _ ▸ hdone
        · exact (hback (ih hc)).1
    | other d mode => exact (hback (ih hc)).1

/-- A descriptor that is done is left alone. -/
theorem foldl_done {p : Pass δ} (hd : (p.descs d).done = true) :
    (steps.foldl iterate p).descs d = p.descs d := by
  induction steps generalizing p with
  | nil => rfl
  | cons step steps ih =>
    have hsame : (iterate p step).descs d = p.descs d := by
      cases step with
      | event e ev =>
        rw [iterate]
        split
        · rfl
        · next he =>
          have hne : d ≠ e := by
            rintro rfl
            exact he hd
          exact Function.update_of_ne hne _ _
      | other e mode =>
        rw [iterate]
        split
        · rfl
        · next he =>
          have hne : d ≠ e := by
            rintro rfl
            exact he hd
          exact Function.update_of_ne hne _ _
    rw [List.foldl_cons, ih (by rw [hsame]; exact hd), hsame]

/-- A descriptor that is claimed later is not one that is claimed now. -/
theorem update_of_claimed {m' : Mode} (hc : c ∈ claims (Function.update descs d ⟨m, true⟩) steps) :
    Function.update descs d ⟨m', true⟩ c.1 = descs c.1 := by
  apply Function.update_of_ne
  rintro rfl
  have hundone := claims_undone hc
  rw [Function.update_self] at hundone
  exact nomatch hundone

/-- The events of the loop from some point on, with what is then in the variable. -/
theorem foldl_own_iff (p : Pass δ) :
    (∀ c ∈ claims p.descs steps,
        ((steps.foldl iterate p).descs c.1).mode = own (p.descs c.1).mode c.2) ↔
      (claims p.descs steps).Pairwise (Fits p.descs) ∧
        ∀ c ∈ claims p.descs steps, c.2.err = false → Within p.mode (own (p.descs c.1).mode c.2) := by
  induction steps generalizing p with
  | nil => simp [claims]
  | cons step steps ih =>
    -- the rest of the loop, after `d` is claimed, seen from before
    have hrest : ∀ (d : δ) (m mode : Mode),
        (∀ c ∈ claims (Function.update p.descs d ⟨(p.descs d).mode, true⟩) steps,
          ((steps.foldl iterate ⟨Function.update p.descs d ⟨m, true⟩, mode⟩).descs c.1).mode =
            own (p.descs c.1).mode c.2) ↔
        (claims (Function.update p.descs d ⟨(p.descs d).mode, true⟩) steps).Pairwise (Fits p.descs) ∧
          ∀ c ∈ claims (Function.update p.descs d ⟨(p.descs d).mode, true⟩) steps,
            c.2.err = false → Within mode (own (p.descs c.1).mode c.2) := by
      intro d m mode
      have hclaims : claims (Function.update p.descs d ⟨(p.descs d).mode, true⟩) steps =
          claims (Function.update p.descs d ⟨m, true⟩) steps := by
        apply claims_congr
        intro e
        by_cases he : e = d
        · rw [he, Function.update_self, Function.update_self]
        · rw [Function.update_of_ne he, Function.update_of_ne he]
      have hnow := ih ⟨Function.update p.descs d ⟨m, true⟩, mode⟩
      dsimp only at hnow
      rw [hclaims]
      refine (forall₂_congr fun c hc => ?_).trans (hnow.trans (and_congr ?_ ?_))
      · rw [update_of_claimed hc]
      · apply List.Pairwise.iff_of_mem
        intro a b ha hb
        rw [Fits, Fits, update_of_claimed ha, update_of_claimed hb]
      · refine forall₂_congr fun c hc => ?_
        rw [update_of_claimed hc]
    cases step with
    | other d mode =>
      rw [List.foldl_cons, claims, iterate]
      split
      · next hdone =>
        have hsame : Function.update p.descs d ⟨(p.descs d).mode, true⟩ = p.descs := by
          rw [← hdone]
          exact Function.update_eq_self d p.descs
        rw [hsame]
        exact ih p
      · exact hrest d mode p.mode
    | event d ev =>
      rw [List.foldl_cons, claims, iterate]
      split
      · exact ih p
      · next hdone =>
        have hd : ((steps.foldl iterate ⟨Function.update p.descs d
            ⟨eventMode ev (p.descs d).mode p.mode, true⟩,
            eventMode ev (p.descs d).mode p.mode⟩).descs d).mode =
            eventMode ev (p.descs d).mode p.mode := by
          rw [foldl_done]
          · simp only [Function.update_self]
          · simp only [Function.update_self]
        rw [List.forall_mem_cons, hd, eventMode_eq_own_iff, hrest d, List.pairwise_cons,
          List.forall_mem_cons]
        constructor
        · rintro ⟨hown, hpair, hleft⟩
          rw [eventMode_eq_own_iff.mpr hown] at hleft
          refine ⟨⟨hleft, hpair⟩, hown, fun c hc herr => ?_⟩
          have hev := err_of_within herr (hleft c hc herr)
          exact (hown hev).trans (hleft c hc herr)
        · rintro ⟨⟨hfits, hpair⟩, hown, -⟩
          rw [eventMode_eq_own_iff.mpr hown]
          exact ⟨hown, hpair, hfits⟩

end

/-- **Each waiter is told its own event** if and only if no claimed event leaves bits behind
    for a later one; and then the mode does not depend on the rest of the batch. -/
theorem own_event_iff (descs : δ → Desc) (steps : List (Step δ)) :
    (OwnEvents descs steps ↔ (claims descs steps).Pairwise (Fits descs)) ∧
      ∀ steps', OwnEvents descs steps → OwnEvents descs steps' →
        ∀ c ∈ claims descs steps, c ∈ claims descs steps' →
          (polling descs steps c.1).mode = (polling descs steps' c.1).mode := by
  constructor
  · have hiff := @foldl_own_iff _ _ steps ⟨descs, .none⟩
    refine hiff.trans (and_iff_left ?_)
    intro c hc herr
    exact ⟨fun h => (nomatch h), fun h => (nomatch h), fun h => (nomatch h)⟩
  · intro steps' hown hown' c hc hc'
    rw [hown c hc, hown' c hc']

/-- Two waiters for both directions that can both read, in either order. -/
theorem own_event_bothRead :
    let descs : Bool → Desc := fun _ => ⟨⟨true, true, false⟩, false⟩
    let input : Event := ⟨false, true, false⟩
    OwnEvents descs [.event false input, .event true input] ∧
      (polling descs [.event false input, .event true input] true).mode =
        (polling descs [.event true input, .event false input] true).mode := by
  intro descs input
  have hfits : ∀ b b', Fits descs (b, input) (b', input) := fun _ _ _ => ⟨id, id, id⟩
  have hpair : ∀ b b', [(b, input), (b', input)].Pairwise (Fits descs) := by
    intro b b'
    simp [hfits]
  have hown := (own_event_iff descs [.event false input, .event true input]).1.mpr (hpair false true)
  have hown' := (own_event_iff descs [.event true input, .event false input]).1.mpr (hpair true false)
  exact ⟨hown, (own_event_iff descs _).2 _ hown hown' (true, input) (by decide) (by decide)⟩

/-- Two waiters for both directions, one event each: the second is told the first one's, in
    either order. -/
theorem mode_left_behind :
    let descs : Bool → Desc := fun _ => ⟨⟨true, true, false⟩, false⟩
    let input : Event := ⟨false, true, false⟩
    let output : Event := ⟨false, false, true⟩
    (polling descs [.event false input, .event true output] true).mode = ⟨true, true, false⟩ ∧
      own (descs true).mode output = ⟨false, true, false⟩ ∧
      ¬ OwnEvents descs [.event false input, .event true output] ∧
      (polling descs [.event true output, .event false input] true).mode = ⟨false, true, false⟩ := by
  refine ⟨by decide, by decide, ?_, by decide⟩
  intro h
  exact absurd (h (true, ⟨false, false, true⟩) (by decide)) (by decide)

end Coroc.EpollBatch
