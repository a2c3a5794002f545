import Mathlib.Data.Fintype.Card
import Coroc.ThreadPool

/-!
# The thread barrier of Darwin (`src/darwin/pthread_barrier.c`)

`pthread_barrier_wait` for any number of threads and rounds.  The mutex and the condition variable are
part of the shared state; `waiting` are the threads asleep in `pthread_cond_wait`, which the code calls
only once.

* `barrier_separates`: in the runs in which nobody wakes up spuriously the barrier separates the rounds,
  one call of each round returns 1, and nobody is left asleep in a round that is over.
* `held_up_by_absent`: a thread inside the barrier can only be held up by one that has not called.
* `spurious_leaves`: one spurious wake-up and a thread leaves alone.
-/

namespace Coroc.PthreadBarrier

open Coroc.ThreadPool Coroc.Transition Function

/-! ### The code -/

structure Shared (ι : Type) where
  mutex : Option ι
  waiting : ι → Bool
  count : Nat
  tripCount : Nat
  -- the history: how often a thread has been counted, what its calls have returned, who has broadcast
  arrived : ι → Nat
  returned : ι → List Nat
  serial : List ι

/-- A barrier for `n` threads that nobody has reached. -/
def Shared.fresh (ι : Type) (n : Nat) : Shared ι where
  mutex := none
  waiting _ := false
  count := 0
  tripCount := n
  arrived _ := 0
  returned _ := []
  serial := []

def barrierInit (ι : Type) (count : Nat) : Option (Shared ι) :=
  if count = 0 then none else some (.fresh ι count)

/-- The statements of `pthread_barrier_wait`, each before it is executed. -/
inductive Loc where
  | outside
  | lock
  | increment
  | test
  | reset
  | broadcast
  | condWait
  | asleep
  | relock
  | unlock (ret : Nat)
deriving DecidableEq

/-- `spurious`: `pthread_cond_wait` returns though nobody has called `pthread_cond_broadcast`. -/
inductive Choice where
  | go
  | spurious
deriving DecidableEq

section

variable {ι : Type} [DecidableEq ι]

def Shared.increment (s : Shared ι) (i : ι) : Shared ι :=
  { s with count := s.count + 1, arrived := update s.arrived i (s.arrived i + 1) }

def Shared.broadcast (s : Shared ι) (i : ι) : Shared ι :=
  { s with waiting := fun _ => false, serial := s.serial ++ [i] }

def Shared.leave (s : Shared ι) (i : ι) (ret : Nat) : Shared ι :=
  { s with mutex := none, returned := update s.returned i (s.returned i ++ [ret]) }

def step (i : ι) (s : Shared ι) : Loc → Choice → Option (Shared ι × Loc)
  | .outside, .go => some (s, .lock)
  | .lock, .go => if s.mutex = none then some ({ s with mutex := some i }, .increment) else none
  | .increment, .go => some (s.increment i, .test)
  | .test, .go => some (s, if s.tripCount ≤ s.count then .reset else .condWait)
  | .reset, .go => some ({ s with count := 0 }, .broadcast)
  | .broadcast, .go => some (s.broadcast i, .unlock 1)
  | .condWait, .go => some ({ s with mutex := none, waiting := update s.waiting i true }, .asleep)
  | .asleep, .go => if s.waiting i then none else some (s, .relock)
  | .asleep, .spurious =>
    if s.waiting i then some ({ s with waiting := update s.waiting i false }, .relock) else none
  | .relock, .go => if s.mutex = none then some ({ s with mutex := some i }, .unlock 0) else none
  | .unlock ret, .go => some (s.leave i ret, .outside)
  | _, .spurious => none

/-- The barrier is made for all threads. -/
def Start [Fintype ι] (p : Pool ι (Shared ι) Loc) : Prop :=
  barrierInit ι (Fintype.card ι) = some p.shared ∧ ∀ i, p.locals i = .outside

/-- Nobody wakes up spuriously. -/
def Prompt (_ : Pool ι (Shared ι) Loc) (l : ι × Choice) : Prop := l.2 = .go

instance (p : Pool ι (Shared ι) Loc) (l : ι × Choice) : Decidable (Prompt p l) :=
  inferInstanceAs (Decidable (l.2 = .go))

end

/-! ### Rounds -/

variable {ι : Type} {s s' : Shared ι} {i j : ι} {l l' : Loc} {k ret : Nat} {rest : List Nat}

/-- The barrier has been tripped that often. -/
def Shared.trips (s : Shared ι) : Nat := s.serial.length

/-- The threads that have come to this round. -/
def Shared.present [Fintype ι] (s : Shared ι) : Finset ι :=
  Finset.univ.filter fun i => s.arrived i = s.trips + 1

section

variable [Fintype ι]

/-- The round is not full, and those who have come are counted. -/
structure Counted (s : Shared ι) : Prop where
  count : s.count = s.present.card
  notFull : s.present.card < s.tripCount

structure Inv (s : Shared ι) : Prop where
  tripCount : s.tripCount = Fintype.card ι
  pos : 0 < s.tripCount
  counted : s.mutex = none → Counted s

/-- Nothing that thread `j` looks at outside the mutex has changed. -/
structure Same (j : ι) (s s' : Shared ι) : Prop where
  serial : s'.serial = s.serial
  arrived : s'.arrived j = s.arrived j
  returned : s'.returned j = s.returned j
  waiting : s'.waiting j = s.waiting j

/-- Thread `i` trips the barrier. -/
structure Tripped (i : ι) (s s' : Shared ι) : Prop where
  full : s.present = Finset.univ
  serial : s'.serial = s.serial ++ [i]
  arrived : s'.arrived = s.arrived
  returned : s'.returned = s.returned
  waiting : ∀ j, s'.waiting j = false

/-- What a step of thread `i` does, as the others see it.  It changes something only when the mutex is its own
    or free, and something of theirs only when it trips the barrier. -/
structure Seen (i : ι) (s s' : Shared ι) : Prop where
  mutex : s' = s ∨ s.mutex = none ∨ s.mutex = some i
  moved : (∀ j, j ≠ i → Same j s s') ∨ Tripped i s s'

theorem mem_present : i ∈ s.present ↔ s.arrived i = s.trips + 1 := by
  simp [Shared.present]

/-- Nobody is behind when the round is full. -/
theorem not_full_of_arrived (h : s.arrived i = s.trips) : s.present ≠ Finset.univ := by
  intro hfull
  have hmem : i ∈ s.present := hfull ▸ Finset.mem_univ i
  rw [mem_present, h] at hmem
  omega

theorem present_fresh (n : Nat) : (Shared.fresh ι n).present = ∅ := by
  simp [Shared.present, Shared.fresh, Shared.trips]

/-- Who has the mutex sees no step of the others. -/
theorem Seen.holder (h : Seen i s s') (hij : i ≠ j) (hmutex : s.mutex = some j) : s' = s := by
  obtain hsame | hfree | hown := h.mutex
  · exact hsame
  · exact absurd (hmutex.symm.trans hfree) (Option.some_ne_none j)
  · exact absurd (Option.some.inj (hown.symm.trans hmutex)) hij

/-- A step that keeps the shared state. -/
theorem Seen.refl (i : ι) (s : Shared ι) : Seen i s s :=
  ⟨.inl rfl, .inl fun _ _ => ⟨rfl, rfl, rfl, rfl⟩⟩

theorem Seen.own (hmutex : s.mutex = some i) (hsame : ∀ j, j ≠ i → Same j s s') : Seen i s s' :=
  ⟨.inr (.inr hmutex), .inl hsame⟩

/-- A thread that has the mutex need not leave the round counted. -/
theorem Inv.keep (hi : Inv s) (hmutex : s'.mutex = some i) (htrip : s'.tripCount = s.tripCount) : Inv s' := by
  refine ⟨htrip.trans hi.tripCount, htrip ▸ hi.pos, ?_⟩
  intro hnone
  exact absurd (hmutex.symm.trans hnone) (Option.some_ne_none i)

/-- When it gives the mutex back, it must. -/
theorem Inv.release (hi : Inv s) (hcounted : Counted s') (htrip : s'.tripCount = s.tripCount) : Inv s' :=
  ⟨htrip.trans hi.tripCount, htrip ▸ hi.pos, fun _ => hcounted⟩

/-- Thread `i` takes the mutex. -/
theorem lock_own (hi : Inv s) (hfree : s.mutex = none) :
    Inv { s with mutex := some i } ∧ Counted { s with mutex := some i } ∧
    Seen i s { s with mutex := some i } := by
  have hcounted := hi.counted hfree
  refine ⟨hi.keep rfl rfl, ⟨hcounted.count, hcounted.notFull⟩, ⟨.inr (.inl hfree), ?_⟩⟩
  exact .inl fun j _ => ⟨rfl, rfl, rfl, rfl⟩

/-- After the broadcast nobody has come to the next round. -/
theorem counted_broadcast (hcount : s.count = 0) (hpos : 0 < s.tripCount) (hfull : s.present = Finset.univ) :
    Counted (s.broadcast i) := by
  have hempty : (s.broadcast i).present = ∅ := by
    apply Finset.eq_empty_of_forall_notMem
    intro j hmem
    have hj : j ∈ s.present := hfull ▸ Finset.mem_univ j
    rw [mem_present] at hmem hj
    simp only [Shared.broadcast, Shared.trips, List.length_append, List.length_singleton] at hmem hj
    omega
  constructor
  · rw [hempty, Finset.card_empty]
    exact hcount
  · rw [hempty, Finset.card_empty]
    exact hpos

end

/-! ### Where a thread is -/

variable [DecidableEq ι]

/-- What thread `i` returns from its calls: 1 where it has called the broadcast. -/
def Shared.results (s : Shared ι) (i : ι) : List Nat := s.serial.map fun j => if j = i then 1 else 0

/-- Thread `i` has been counted `k` times more than the barrier has been tripped, and its calls have still to
    return `rest`. -/
structure Standing (i : ι) (k : Nat) (rest : List Nat) (s : Shared ι) : Prop where
  arrived : s.arrived i = s.trips + k
  returned : s.returned i ++ rest = s.results i

/-- The thread has not come to this round. -/
abbrev Away (i : ι) (s : Shared ι) : Prop := Standing i 0 [] s

/-- It has, and has to wait. -/
abbrev Present (i : ι) (s : Shared ι) : Prop := Standing i 1 [] s

/-- The barrier has been tripped since it came, and `ret` is what it returns. -/
abbrev Released (i : ι) (ret : Nat) (s : Shared ι) : Prop := Standing i 0 [ret] s

/-- It has gone to sleep: the broadcast is what wakes it up. -/
def Sleeping (i : ι) (s : Shared ι) : Prop :=
  if s.waiting i then Present i s else Released i 0 s

theorem Standing.same (h : Standing j k rest s) (hs : Same j s s') : Standing j k rest s' := by
  constructor
  · rw [hs.arrived, h.arrived, Shared.trips, Shared.trips, hs.serial]
  · rw [hs.returned, h.returned, Shared.results, Shared.results, hs.serial]

theorem present_of_increment (haway : Away i s) : Present i (s.increment i) := by
  constructor
  · change update s.arrived i (s.arrived i + 1) i = s.trips + 1
    rw [update_self, haway.arrived]
  · exact haway.returned

theorem away_of_leave (h : Released i ret s) : Away i (s.leave i ret) := by
  constructor
  · exact h.arrived
  · change update s.returned i (s.returned i ++ [ret]) i ++ [] = s.results i
    rw [update_self, List.append_nil, h.returned]

/-- A thread is in the current round or the one before, and its calls have returned what they should. -/
structure Progress (i : ι) (s : Shared ι) : Prop where
  trips_le : s.trips ≤ s.arrived i
  arrived_le : s.arrived i ≤ s.trips + 1
  returned : s.returned i <+: s.results i

theorem Standing.progress (h : Standing i k rest s) (hk : k ≤ 1) : Progress i s := by
  have harrived := h.arrived
  constructor
  · omega
  · omega
  · exact ⟨rest, h.returned⟩

theorem Sleeping.progress (h : Sleeping i s) : Progress i s := by
  unfold Sleeping at h
  split at h
  · exact h.progress (Nat.le_refl 1)
  · exact h.progress (Nat.zero_le 1)

theorem Progress.returned_le (h : Progress i s) : (s.returned i).length ≤ s.trips := by
  have hle := h.returned.length_le
  rwa [Shared.results, List.length_map] at hle

/-- The `k`-th call of a thread returns 1 when it is the one that has called the `k`-th broadcast. -/
theorem Progress.get (h : Progress i s) {k : Nat} (hk : k < (s.returned i).length) :
    ∃ hlt : k < s.serial.length, (s.returned i)[k]? = some (if s.serial[k] = i then 1 else 0) := by
  have hlt : k < s.serial.length := Nat.lt_of_lt_of_le hk h.returned_le
  obtain ⟨rest, hrest⟩ := h.returned
  refine ⟨hlt, ?_⟩
  rw [← List.getElem?_append_left hk, hrest, Shared.results, List.getElem?_map, List.getElem?_eq_getElem hlt]
  rfl

/-! ### The mutex -/

/-- The statements that are executed with the mutex. -/
def Loc.holds : Loc → Bool
  | .increment | .test | .reset | .broadcast | .condWait | .unlock _ => true
  | .outside | .lock | .asleep | .relock => false

/-- A step takes the mutex, gives it back, or leaves it with whom it is. -/
theorem step_mutex {c : Choice} (hs : step i s l c = some (s', l')) :
    (s'.mutex = s.mutex ∧ l'.holds = l.holds) ∨ (s'.mutex = some i ∧ l'.holds = true) ∨
      s'.mutex = none := by
  cases c with
  | go =>
    cases l with
    | outside | increment | reset | broadcast =>
      cases hs
      exact .inl ⟨rfl, rfl⟩
    | test =>
      cases hs
      refine .inl ⟨rfl, ?_⟩
      split
      · rfl
      · rfl
    | lock | relock =>
      obtain ⟨-, h⟩ := Option.ite_none_right_eq_some.mp hs
      cases h
      exact .inr (.inl ⟨rfl, rfl⟩)
    | condWait | unlock ret =>
      cases hs
      exact .inr (.inr rfl)
    | asleep =>
      obtain ⟨-, h⟩ := Option.ite_none_left_eq_some.mp hs
      cases h
      exact .inl ⟨rfl, rfl⟩
  | spurious =>
    cases l with
    | asleep =>
      obtain ⟨-, h⟩ := Option.ite_none_right_eq_some.mp hs
      cases h
      exact .inl ⟨rfl, rfl⟩
    | outside | lock | increment | test | reset | broadcast | condWait | relock | unlock ret => cases hs

/-- Where a thread can be that cannot go on by itself. -/
theorem stuck_cases (hstuck : step i s l .go = none) :
    (l.holds = false ∧ s.mutex ≠ none) ∨ (l = .asleep ∧ s.waiting i = true) := by
  cases l with
  | outside | increment | test | reset | broadcast | condWait | unlock ret => cases hstuck
  | lock | relock =>
    refine .inl ⟨rfl, fun hfree => ?_⟩
    rw [step, if_pos hfree] at hstuck
    cases hstuck
  | asleep =>
    refine .inr ⟨rfl, ?_⟩
    by_contra hawake
    rw [step, if_neg hawake] at hstuck
    cases hstuck

/-! ### The invariant -/

section

variable [Fintype ι]

/-- What holds at each statement. -/
def At (i : ι) (l : Loc) (s : Shared ι) : Prop :=
  match l with
  | .outside | .lock => Away i s
  | .increment => s.mutex = some i ∧ Away i s ∧ Counted s
  | .test => s.mutex = some i ∧ Present i s ∧ s.count = s.present.card
  | .reset => s.mutex = some i ∧ Present i s ∧ s.present = Finset.univ
  | .broadcast => s.mutex = some i ∧ Present i s ∧ s.present = Finset.univ ∧ s.count = 0
  | .condWait => s.mutex = some i ∧ Present i s ∧ Counted s
  | .asleep => Sleeping i s
  | .relock => Released i 0 s
  | .unlock ret => s.mutex = some i ∧ Released i ret s ∧ Counted s

/-! ### What the others do -/

theorem Present.tripped (h : Present j s) (ht : Tripped i s s') : Released j (if i = j then 1 else 0) s' := by
  have hreturned := h.returned
  rw [List.append_nil] at hreturned
  constructor
  · rw [ht.arrived, h.arrived, Shared.trips, Shared.trips, ht.serial, List.length_append]
    rfl
  · rw [ht.returned, hreturned, Shared.results, Shared.results, ht.serial, List.map_append]
    rfl

/-- Nobody trips the barrier while a thread is behind. -/
theorem Standing.stable (h : Standing j 0 rest s) (hij : i ≠ j) (hseen : Seen i s s') :
    Standing j 0 rest s' := by
  obtain hsame | htripped := hseen.moved
  · exact h.same (hsame j hij.symm)
  · exact absurd htripped.full (not_full_of_arrived h.arrived)

theorem Sleeping.stable (h : Sleeping j s) (hij : i ≠ j) (hseen : Seen i s s') : Sleeping j s' := by
  unfold Sleeping at h ⊢
  split at h
  · next hwaiting =>
    obtain hsame | htripped := hseen.moved
    · rw [(hsame j hij.symm).waiting, if_pos hwaiting]
      exact h.same (hsame j hij.symm)
    · have hreleased := h.tripped htripped
      rw [if_neg hij] at hreleased
      rw [htripped.waiting, if_neg Bool.false_ne_true]
      exact hreleased
  · next hawake =>
    obtain hsame | htripped := hseen.moved
    · rw [(hsame j hij.symm).waiting, if_neg hawake]
      exact h.same (hsame j hij.symm)
    · exact absurd htripped.full (not_full_of_arrived h.arrived)

theorem At.stable (h : At j l s) (hij : i ≠ j) (hseen : Seen i s s') : At j l s' := by
  have hholder (hmutex : s.mutex = some j) : At j l s' := by
    rw [hseen.holder hij hmutex]
    exact h
  cases l with
  | outside | lock => exact Standing.stable h hij hseen
  | increment | test | reset | broadcast | condWait | unlock ret => exact hholder h.1
  | asleep => exact Sleeping.stable h hij hseen
  | relock => exact Standing.stable h hij hseen

/-! ### One step -/

theorem present_increment (haway : Away i s) : (s.increment i).present = insert i s.present := by
  ext j
  rw [Finset.mem_insert, mem_present, mem_present]
  by_cases hj : j = i
  · subst hj
    simp [Shared.increment, Shared.trips, haway.arrived]
  · simp [Shared.increment, Shared.trips, hj]

theorem count_increment (haway : Away i s) (hcounted : Counted s) :
    (s.increment i).count = (s.increment i).present.card := by
  have hnew : i ∉ s.present := by
    rw [mem_present, haway.arrived]
    omega
  rw [present_increment haway, Finset.card_insert_of_notMem hnew, ← hcounted.count]
  rfl

theorem step_own (hi : Inv s) (ha : At i l s) (hs : step i s l .go = some (s', l')) :
    Inv s' ∧ At i l' s' ∧ Seen i s s' := by
  cases l with
  | outside =>
    cases hs
    exact ⟨hi, ha, .refl i s⟩
  | lock =>
    obtain ⟨hfree, h⟩ := Option.ite_none_right_eq_some.mp hs
    cases h
    obtain ⟨hinv, hcounted, hseen⟩ := lock_own (i := i) hi hfree
    exact ⟨hinv, ⟨rfl, ⟨ha.arrived, ha.returned⟩, hcounted⟩, hseen⟩
  | increment =>
    cases hs
    obtain ⟨hmutex, haway, hcounted⟩ := ha
    have hcount := count_increment haway hcounted
    refine ⟨hi.keep hmutex rfl, ⟨hmutex, present_of_increment haway, hcount⟩, ?_⟩
    exact .own hmutex fun j hj => ⟨rfl, update_of_ne hj .., rfl, rfl⟩
  | test =>
    cases hs
    obtain ⟨hmutex, hpresent, hcount⟩ := ha
    refine ⟨hi, ?_, .refl i s⟩
    split
    · next hfull =>
      have hcard : Fintype.card ι ≤ s.present.card := by
        rw [← hcount, ← hi.tripCount]
        exact hfull
      exact ⟨hmutex, hpresent, Finset.eq_univ_of_card _ (Nat.le_antisymm (Finset.card_le_univ _) hcard)⟩
    · next hlt => exact ⟨hmutex, hpresent, hcount, hcount ▸ Nat.lt_of_not_le hlt⟩
  | reset =>
    cases hs
    obtain ⟨hmutex, hpresent, hfull⟩ := ha
    refine ⟨hi.keep hmutex rfl, ⟨hmutex, ⟨hpresent.arrived, hpresent.returned⟩, hfull, rfl⟩, ?_⟩
    exact .own hmutex fun j _ => ⟨rfl, rfl, rfl, rfl⟩
  | broadcast =>
    cases hs
    obtain ⟨hmutex, hpresent, hfull, hcount⟩ := ha
    have htripped : Tripped i s (s.broadcast i) := ⟨hfull, rfl, rfl, rfl, fun _ => rfl⟩
    have hreleased := hpresent.tripped htripped
    rw [if_pos rfl] at hreleased
    refine ⟨hi.keep hmutex rfl, ⟨hmutex, hreleased, counted_broadcast hcount hi.pos hfull⟩, ?_⟩
    exact ⟨.inr (.inr hmutex), .inr htripped⟩
  | condWait =>
    cases hs
    obtain ⟨hmutex, hpresent, hcounted⟩ := ha
    refine ⟨hi.release ⟨hcounted.count, hcounted.notFull⟩ rfl, ?_, ?_⟩
    · change Sleeping i _
      rw [Sleeping, if_pos (update_self i true s.waiting)]
      exact ⟨hpresent.arrived, hpresent.returned⟩
    · exact .own hmutex fun j hj => ⟨rfl, rfl, rfl, update_of_ne hj ..⟩
  | asleep =>
    obtain ⟨hawake, h⟩ := Option.ite_none_left_eq_some.mp hs
    cases h
    replace ha : Sleeping i s := ha
    rw [Sleeping, if_neg hawake] at ha
    exact ⟨hi, ha, .refl i s⟩
  | relock =>
    obtain ⟨hfree, h⟩ := Option.ite_none_right_eq_some.mp hs
    cases h
    obtain ⟨hinv, hcounted, hseen⟩ := lock_own (i := i) hi hfree
    exact ⟨hinv, ⟨rfl, ⟨ha.arrived, ha.returned⟩, hcounted⟩, hseen⟩
  | unlock ret =>
    cases hs
    obtain ⟨hmutex, hreleased, hcounted⟩ := ha
    refine ⟨hi.release ⟨hcounted.count, hcounted.notFull⟩ rfl, away_of_leave hreleased, ?_⟩
    exact .own hmutex fun j hj => ⟨rfl, rfl, update_of_ne hj .., rfl⟩

theorem modular : Modular (step (ι := ι)) (fun _ _ _ c => c = .go) Inv At Seen where
  own _ _ _ _ _ _ hi ha hc hs := step_own hi ha (hc ▸ hs)
  stable _ _ _ _ _ hij _ ha hseen := ha.stable hij hseen

/-! ### Every run -/

variable {p : Pool ι (Shared ι) Loc}

theorem Start.good (h : Start p) : p.Good Inv At := by
  obtain ⟨hinit, hlocals⟩ := h
  obtain ⟨hne, hshared⟩ := Option.ite_none_left_eq_some.mp hinit
  have hpos : 0 < Fintype.card ι := Nat.pos_of_ne_zero hne
  have hcounted : Counted (Shared.fresh ι (Fintype.card ι)) := by
    constructor
    · rw [present_fresh, Finset.card_empty]
      rfl
    · rw [present_fresh, Finset.card_empty]
      exact hpos
  rw [Pool.Good, ← Option.some.inj hshared]
  constructor
  · exact ⟨rfl, hpos, fun _ => hcounted⟩
  · intro i
    rw [hlocals]
    exact ⟨rfl, rfl⟩

theorem good (h : Reach (poolStep step) Prompt Start p) : p.Good Inv At :=
  modular.invariant (fun _ _ h => h) (fun _ hs => hs.good) h

theorem At.progress (h : At i l s) : Progress i s := by
  cases l with
  | outside | lock => exact Standing.progress h (Nat.zero_le 1)
  | increment => exact h.2.1.progress (Nat.zero_le 1)
  | test | reset | broadcast | condWait => exact h.2.1.progress (Nat.le_refl 1)
  | asleep => exact Sleeping.progress h
  | relock => exact Standing.progress h (Nat.zero_le 1)
  | unlock ret => exact h.2.1.progress (Nat.zero_le 1)

/-- While a thread waits somebody is still to come. -/
theorem exists_behind (hi : Inv p.shared) (hat : ∀ j, At j (p.locals j) p.shared)
    (hfree : p.shared.mutex = none) (hpresent : Present i p.shared) : ∃ j, p.shared.arrived j < p.shared.arrived i := by
  have hlt := (hi.counted hfree).notFull
  rw [hi.tripCount] at hlt
  obtain ⟨j, hj⟩ : ∃ j, j ∉ p.shared.present := by
    by_contra hall
    rw [Finset.eq_univ_of_forall fun j => not_not.mp (not_exists.mp hall j), Finset.card_univ] at hlt
    exact Nat.lt_irrefl _ hlt
  rw [mem_present] at hj
  have hround := (hat j).progress.arrived_le
  refine ⟨j, ?_⟩
  rw [hpresent.arrived]
  omega

theorem present_of_waiting (ha : At i .asleep s) (hwaiting : s.waiting i = true) : Present i s := by
  rwa [At, Sleeping, if_pos hwaiting] at ha

/-- **The barrier separates the rounds**, when nobody wakes up spuriously: no call returns before every
    thread has called as often.  In each round one call returns 1 and the others 0.  Outside the critical
    sections nobody sleeps unless somebody is still to come. -/
theorem barrier_separates (h : Reach (poolStep step) Prompt Start p) :
    (∀ i j, (p.shared.returned i).length ≤ p.shared.arrived j) ∧
    (∀ k, (∀ i, k < (p.shared.returned i).length) → ∃ i, (p.shared.returned i)[k]? = some 1 ∧
      ∀ j, j ≠ i → (p.shared.returned j)[k]? = some 0) ∧
    (p.shared.mutex = none → ∀ i, p.locals i = .asleep → p.shared.waiting i = true →
      ∃ j, p.shared.arrived j < p.shared.arrived i) := by
  obtain ⟨hi, hat⟩ := good h
  refine ⟨?_, ?_, ?_⟩
  · intro i j
    have hj := (hat j).progress.trips_le
    have hle := (hat i).progress.returned_le
    omega
  · intro k hk
    obtain ⟨i₀⟩ : Nonempty ι := Fintype.card_pos_iff.mp (hi.tripCount ▸ hi.pos)
    obtain ⟨hlt, -⟩ := (hat i₀).progress.get (hk i₀)
    refine ⟨p.shared.serial[k], ?_, ?_⟩
    · obtain ⟨_, hget⟩ := (hat p.shared.serial[k]).progress.get (hk _)
      rw [hget, if_pos rfl]
    · intro j hj
      obtain ⟨_, hget⟩ := (hat j).progress.get (hk j)
      rw [hget, if_neg hj.symm]
  · intro hfree i hasleep hwaiting
    exact exists_behind hi hat hfree (present_of_waiting (hasleep ▸ hat i) hwaiting)

/-! ### Who is held up -/

theorem holder_holds (h : Reach (poolStep step) Prompt Start p) :
    ∀ i, p.shared.mutex = some i → (p.locals i).holds = true := by
  refine Reach.invariant
    (I := fun p : Pool ι (Shared ι) Loc => ∀ i, p.shared.mutex = some i → (p.locals i).holds = true) ?_ ?_ h
  · intro p hstart i hmutex
    obtain ⟨-, hshared⟩ := Option.ite_none_left_eq_some.mp hstart.1
    rw [← Option.some.inj hshared] at hmutex
    cases hmutex
  · intro p l p' hheld _ hstep i hmutex
    obtain ⟨r, hs, hshared, hlocals⟩ := poolStep_eq_some hstep
    rw [hshared] at hmutex
    rw [hlocals]
    by_cases hi : i = l.1
    · subst hi
      rw [update_self]
      obtain ⟨hsame, hloc⟩ | ⟨-, hloc⟩ | hnone := step_mutex hs
      · rw [hloc]
        exact hheld _ (hsame.symm.trans hmutex)
      · exact hloc
      · exact absurd (hmutex.symm.trans hnone) (Option.some_ne_none _)
    · rw [update_of_ne hi]
      obtain ⟨hsame, -⟩ | ⟨hown, -⟩ | hnone := step_mutex hs
      · exact hheld i (hsame.symm.trans hmutex)
      · exact absurd (Option.some.inj (hmutex.symm.trans hown)) hi
      · exact absurd (hmutex.symm.trans hnone) (Option.some_ne_none _)

/-- **A thread inside the barrier is only held up by one that has not called**: as long as a thread is
    inside, a thread inside can go on or there is one outside that is a round behind. -/
theorem held_up_by_absent (h : Reach (poolStep step) Prompt Start p) (hinside : p.locals i ≠ .outside) :
    (∃ j, p.locals j ≠ .outside ∧ (poolStep step p (j, .go)).isSome = true) ∨
    ∃ j, p.locals j = .outside ∧ p.shared.arrived j < p.shared.arrived i := by
  obtain ⟨hi, hat⟩ := good h
  by_cases hgo : ∃ j, p.locals j ≠ .outside ∧ (poolStep step p (j, .go)).isSome = true
  · exact .inl hgo
  have hstuck (j : ι) (hj : p.locals j ≠ .outside) : step j p.shared (p.locals j) .go = none := by
    by_contra hne
    apply hgo
    refine ⟨j, hj, ?_⟩
    rw [poolStep, Option.isSome_map]
    exact Option.isSome_iff_ne_none.mpr hne
  have hfree : p.shared.mutex = none := by
    by_contra hheld
    obtain ⟨j, hj⟩ := Option.ne_none_iff_exists'.mp hheld
    have hholds := holder_holds h j hj
    have houtside : p.locals j ≠ .outside := by
      intro hout
      rw [hout] at hholds
      cases hholds
    obtain ⟨hfalse, -⟩ | ⟨hasleep, -⟩ := stuck_cases (hstuck j houtside)
    · rw [hholds] at hfalse
      cases hfalse
    · rw [hasleep] at hholds
      cases hholds
  have hwaits (j : ι) (hj : p.locals j ≠ .outside) : Present j p.shared := by
    obtain ⟨-, hheld⟩ | ⟨hasleep, hwaiting⟩ := stuck_cases (hstuck j hj)
    · exact absurd hfree hheld
    · exact present_of_waiting (hasleep ▸ hat j) hwaiting
  obtain ⟨j, hlt⟩ := exists_behind hi hat hfree (hwaits i hinside)
  refine .inr ⟨j, ?_, hlt⟩
  by_contra hj
  rw [(hwaits j hj).arrived, (hwaits i hinside).arrived] at hlt
  exact Nat.lt_irrefl _ hlt

end

/-! ### Two threads -/

def twoThreads : Pool (Fin 2) (Shared (Fin 2)) Loc :=
  ⟨.fresh (Fin 2) 2, fun _ => .outside⟩

theorem twoThreads_start : Start twoThreads := ⟨rfl, fun _ => rfl⟩

/-- The threads 0 and 1 meet once; 0 sleeps until 1 has come. -/
def oneRound : List (Fin 2 × Choice) :=
  List.replicate 5 (0, .go) ++ List.replicate 7 (1, .go) ++ List.replicate 3 (0, .go)

theorem barrier_separates_once : ∃ p : Pool (Fin 2) (Shared (Fin 2)) Loc,
    p.shared.returned 0 = [0] ∧ p.shared.returned 1 = [1] ∧
    ∀ i j, (p.shared.returned i).length ≤ p.shared.arrived j := by
  obtain ⟨p, hp, hret⟩ := Reach.exists_of_runOk (poolStep step) Prompt Start twoThreads_start oneRound
    (fun p => decide (p.shared.returned 0 = [0] ∧ p.shared.returned 1 = [1])) (by decide +kernel)
  obtain ⟨h₀, h₁⟩ := of_decide_eq_true hret
  exact ⟨p, h₀, h₁, (barrier_separates hp).1⟩

theorem held_up_by_absent_once : ∃ p : Pool (Fin 2) (Shared (Fin 2)) Loc, p.locals 0 = .asleep ∧
    ((∃ j, p.locals j ≠ .outside ∧ (poolStep step p (j, .go)).isSome = true) ∨
      ∃ j, p.locals j = .outside ∧ p.shared.arrived j < p.shared.arrived 0) := by
  obtain ⟨p, hp, hasleep⟩ := Reach.exists_of_runOk (poolStep step) Prompt Start twoThreads_start
    (List.replicate 5 (0, .go)) (fun p => decide (p.locals 0 = .asleep)) (by decide +kernel)
  have hasleep := of_decide_eq_true hasleep
  exact ⟨p, hasleep, held_up_by_absent hp (by rw [hasleep]; decide)⟩

/-- Thread 0 leaves before thread 1 has called. -/
theorem spurious_leaves : ∃ p : Pool (Fin 2) (Shared (Fin 2)) Loc,
    Reach (poolStep step) (fun _ _ => True) Start p ∧ p.shared.arrived 1 < (p.shared.returned 0).length := by
  obtain ⟨p, hp, hleft⟩ := Reach.exists_of_run (poolStep step) Start twoThreads_start
    (List.replicate 5 (0, .go) ++ [(0, .spurious), (0, .go), (0, .go)])
    (fun p => decide (p.shared.arrived 1 < (p.shared.returned 0).length)) (by decide +kernel)
  exact ⟨p, hp, of_decide_eq_true hleft⟩

end Coroc.PthreadBarrier
