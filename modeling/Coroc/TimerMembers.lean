import Coroc.TimerHeap
import Mathlib.Data.Finset.Basic
import Mathlib.Algebra.Group.Int.Defs

/-!
# Which timers are registered (`src/time.c`)

The sifts only permute the slots, so an operation registers or unregisters the one timer it
is about.  Deletion trusts an `index` field that is stale for a timer that was deleted, and
arbitrary for one that was never added; the test that the slot it names holds the timer
itself is enough (`members_exact`).  Nothing here needs heap order.
-/

namespace Coroc.TimerHeap

open Coroc.Transition

variable {τ : Type}

/-- One of the first `n` slots holds `t`. -/
def Manager.Holds (m : Manager τ) (n : Nat) (t : τ) : Prop := ∃ j < n, m.timers j = t

variable {m : Manager τ} {n : Nat} {t u : τ}

theorem Manager.unregistered_iff (m : Manager τ) (t : τ) : m.Unregistered t ↔ ¬ m.Holds m.size t := by
  constructor
  · rintro h ⟨j, hj, ht⟩
    exact h j hj ht
  · intro h j hj ht
    exact h ⟨j, hj, ht⟩

variable [DecidableEq τ]

theorem exchangeHeap_timers (m : Manager τ) (a b j : Nat) :
    (exchangeHeap m a b).timers j =
      if j = b then m.timers a else if j = a then m.timers b else m.timers j := by
  simp only [exchangeHeap, setIndex_timers, Manager.setSlot, Function.update_apply]

theorem exchangeHeap_holds {a b : Nat} (ha : a < n) (hb : b < n) :
    (exchangeHeap m a b).Holds n t ↔ m.Holds n t := by
  constructor
  · rintro ⟨j, hj, rfl⟩
    rw [exchangeHeap_timers]
    split
    · exact ⟨a, ha, rfl⟩
    · split
      · exact ⟨b, hb, rfl⟩
      · exact ⟨j, hj, rfl⟩
  · rintro ⟨j, hj, rfl⟩
    by_cases hja : j = a
    · refine ⟨b, hb, ?_⟩
      rw [exchangeHeap_timers, if_pos rfl, hja]
    · by_cases hjb : j = b
      · refine ⟨a, ha, ?_⟩
        rw [exchangeHeap_timers, hjb]
        split
        · rename_i hab
          rw [hab]
        · rw [if_pos rfl]
      · refine ⟨j, hj, ?_⟩
        rw [exchangeHeap_timers, if_neg hjb, if_neg hja]

theorem downAdjustHeap_holds (m : Manager τ) (cur size : Nat) :
    (downAdjustHeap m cur size).Holds size t ↔ m.Holds size t := by
  fun_induction downAdjustHeap m cur size with
  | case1 m cur hge => exact Iff.rfl
  | case2 m cur hge tmp hlt ih =>
    obtain ⟨_, hc, _, _⟩ := earlierChild_spec m hge
    have hgt := earlierChild_gt m cur size
    rw [ih]
    exact exchangeHeap_holds (by omega) hc
  | case3 m cur hge tmp hlt => exact Iff.rfl

theorem upAdjustHeap_holds (m : Manager τ) (cur : Nat) (hcur : cur < n) :
    (upAdjustHeap m cur).Holds n t ↔ m.Holds n t := by
  fun_induction upAdjustHeap m cur with
  | case1 m => exact Iff.rfl
  | case2 m cur hne up hlt ih =>
    rw [ih (by omega)]
    exact exchangeHeap_holds hcur (by omega)
  | case3 m cur hne up hlt => exact Iff.rfl

/-! ### What each operation registers -/

theorem append_holds (m : Manager τ) (t : τ) :
    ((m.setSlot m.size t).setIndex t m.size).Holds (m.size + 1) u ↔ u = t ∨ m.Holds m.size u := by
  constructor
  · rintro ⟨j, hj, rfl⟩
    rw [setIndex_timers]
    by_cases hjs : j = m.size
    · subst hjs
      left
      rw [setSlot_timers_self]
    · right
      rw [setSlot_timers_other _ _ hjs]
      exact ⟨j, by omega, rfl⟩
  · rintro (rfl | ⟨j, hj, rfl⟩)
    · exact ⟨m.size, Nat.lt_succ_self _, setSlot_timers_self m m.size u⟩
    · exact ⟨j, by omega, setSlot_timers_other m t (by omega)⟩

theorem addIntertimer_holds (m : Manager τ) (t : τ) :
    (addIntertimer m t).Holds (addIntertimer m t).size u ↔ u = t ∨ m.Holds m.size u := by
  have hgrow : ∀ m' : Manager τ,
      (upAdjustHeap ((m'.setSlot m'.size t).setIndex t m'.size) m'.size).Holds (m'.size + 1) u ↔
        u = t ∨ m'.Holds m'.size u := by
    intro m'
    rw [upAdjustHeap_holds _ _ (Nat.lt_succ_self _)]
    exact append_holds m' t
  rw [addIntertimer_size]
  unfold addIntertimer
  dsimp only
  split
  · exact hgrow { m with cap := m.cap * 2 }
  · exact hgrow m

omit [DecidableEq τ] in
/-- Moving the last of `n + 1` timers into slot `i` unregisters the one that was there. -/
theorem moveLast_holds {i : Nat} (h : m.Indexed (n + 1)) (hi : i ≤ n) :
    (m.setSlot i (m.timers n)).Holds n u ↔ m.Holds (n + 1) u ∧ u ≠ m.timers i := by
  constructor
  · rintro ⟨j, hj, rfl⟩
    by_cases hji : j = i
    · subst hji
      rw [setSlot_timers_self]
      refine ⟨⟨n, Nat.lt_succ_self n, rfl⟩, fun he => ?_⟩
      have := h.slot_inj (Nat.lt_succ_self n) (by omega) he
      omega
    · rw [setSlot_timers_other _ _ hji]
      exact ⟨⟨j, by omega, rfl⟩, fun he => hji (h.slot_inj (by omega) (by omega) he)⟩
  · rintro ⟨⟨j, hj, rfl⟩, hne⟩
    have hji : j ≠ i := fun he => hne (by rw [he])
    by_cases hjn : j = n
    · subst hjn
      exact ⟨i, by omega, setSlot_timers_self m i _⟩
    · exact ⟨j, by omega, setSlot_timers_other m _ hji⟩

/-- In a manager whose back-pointers hold, the test of `coroc_del_intertimer` is exact. -/
theorem isRegistered_iff_holds (h : m.Indexed m.size) (t : τ) :
    m.isRegistered t = true ↔ m.Holds m.size t := by
  rw [isRegistered_iff]
  constructor
  · rintro ⟨_, hlt, heq⟩
    exact ⟨_, hlt, heq⟩
  · rintro ⟨j, hj, rfl⟩
    have hindex := h j hj
    rw [hindex]
    exact ⟨by omega, hj, rfl⟩

theorem delIntertimer_holds (h : m.Indexed m.size) (ht : m.Holds m.size t) :
    (delIntertimer m t).2.Holds (delIntertimer m t).2.size u ↔ m.Holds m.size u ∧ u ≠ t := by
  have hreg := (isRegistered_iff_holds h t).mpr ht
  obtain ⟨_, hlt, heq⟩ := (isRegistered_iff m t).mp hreg
  obtain ⟨k, hk⟩ : ∃ k, m.size = k + 1 := ⟨m.size - 1, by omega⟩
  unfold delIntertimer
  rw [if_pos hreg]
  dsimp only
  rw [hk, Nat.add_sub_cancel]
  have hmove := moveLast_holds (u := u) (i := (m.obj t).index.toNat) (hk ▸ h) (by omega)
  rw [heq] at hmove
  exact (downAdjustHeap_holds _ _ _).trans hmove

theorem delIntertimer_ret (h : m.Indexed m.size) (t : τ) :
    (delIntertimer m t).1 = 0 ↔ m.Holds m.size t := by
  rw [← isRegistered_iff_holds h]
  unfold delIntertimer
  split
  · rename_i hreg
    exact ⟨fun _ => hreg, fun _ => rfl⟩
  · rename_i hreg
    exact ⟨fun h0 => (by cases h0), fun h0 => absurd h0 hreg⟩

theorem delIntertimer_absent (h : m.Indexed m.size) (ht : ¬ m.Holds m.size t) :
    delIntertimer m t = (-1, m) := by
  unfold delIntertimer
  rw [if_neg (mt (isRegistered_iff_holds h t).mp ht)]

/-! ### One firing -/

/-- The manager after a one-shot root has been unlinked from `n + 1` timers. -/
def unlinkRoot (m : Manager τ) (n : Nat) : Manager τ :=
  if n > 0 then
    { ((m.setIndex (m.timers 0) (-1)).setSlot 0 (m.timers n)).setIndex (m.timers n) 0 with size := n }
  else { m.setIndex (m.timers 0) (-1) with size := n }

theorem fireRoot_oneShot (hn : m.size = n + 1) (hp : (m.obj (m.timers 0)).period = 0) (now : UInt64) :
    fireRoot m now = if n > 0 then downAdjustHeap (unlinkRoot m n) 0 n else unlinkRoot m n := by
  unfold fireRoot unlinkRoot
  simp only [hp, if_true, setIndex_size, hn, Nat.add_sub_cancel]
  by_cases hpos : n > 0
  · simp only [if_pos hpos, setIndex_timers, setSlot_timers_self]
  · simp only [if_neg hpos]

theorem fireRoot_periodic (hs : m.size > 0) (hp : (m.obj (m.timers 0)).period ≠ 0) (now : UInt64) :
    fireRoot m now = downAdjustHeap
      (m.setWhen (m.timers 0) (now + (m.obj (m.timers 0)).period.toUInt64)) 0 m.size := by
  unfold fireRoot
  simp only [hp, if_false]
  exact if_pos hs

theorem unlinkRoot_indexed (hn : m.size = n + 1) (h : m.Indexed m.size) :
    (unlinkRoot m n).Indexed n := by
  rw [hn] at h
  unfold unlinkRoot
  split
  · intro j hj
    by_cases hj0 : j = 0
    · subst hj0
      change (Manager.obj (Manager.setIndex _ (m.timers n) 0) (Function.update m.timers 0 (m.timers n) 0)).index = _
      rw [Function.update_self, setIndex_index_self]
      rfl
    · have hroot : m.timers j ≠ m.timers 0 := fun heq => hj0 (h.slot_inj (by omega) (by omega) heq)
      have hlast : m.timers j ≠ m.timers n := fun heq =>
        absurd (h.slot_inj (by omega) (by omega) heq) (by omega)
      change (Manager.obj (Manager.setIndex _ (m.timers n) 0) (Function.update m.timers 0 (m.timers n) j)).index = _
      rw [Function.update_of_ne hj0, setIndex_index_other _ _ hlast]
      exact (setIndex_index_other _ _ hroot).trans (h j (by omega))
  · intro j hj
    omega

theorem fireRoot_size_oneShot (hn : m.size = n + 1) (hp : (m.obj (m.timers 0)).period = 0)
    (now : UInt64) : (fireRoot m now).size = n := by
  have hsize : (unlinkRoot m n).size = n := by
    unfold unlinkRoot
    split <;> rfl
  rw [fireRoot_oneShot hn hp]
  split
  · rw [downAdjustHeap_size]
    exact hsize
  · exact hsize

theorem fireRoot_size_periodic (hs : m.size > 0) (hp : (m.obj (m.timers 0)).period ≠ 0)
    (now : UInt64) : (fireRoot m now).size = m.size := by
  rw [fireRoot_periodic hs hp, downAdjustHeap_size]
  rfl

theorem fireRoot_indexed (h : m.Indexed m.size) (hs : m.size > 0) (now : UInt64) :
    (fireRoot m now).Indexed (fireRoot m now).size := by
  by_cases hp : (m.obj (m.timers 0)).period = 0
  · obtain ⟨n, hn⟩ : ∃ n, m.size = n + 1 := ⟨m.size - 1, by omega⟩
    rw [fireRoot_size_oneShot hn hp, fireRoot_oneShot hn hp]
    split
    · exact downAdjustHeap_indexed _ _ _ (unlinkRoot_indexed hn h)
    · exact unlinkRoot_indexed hn h
  · rw [fireRoot_size_periodic hs hp, fireRoot_periodic hs hp]
    refine downAdjustHeap_indexed _ _ _ fun j hj => ?_
    rw [setWhen_timers, setWhen_index]
    exact h j hj

theorem unlinkRoot_holds (hn : m.size = n + 1) (h : m.Indexed m.size) :
    (unlinkRoot m n).Holds n u ↔ m.Holds m.size u ∧ u ≠ m.timers 0 := by
  have hidx : m.Indexed (n + 1) := hn ▸ h
  rw [hn]
  unfold unlinkRoot
  split
  · have hmove : (m.setSlot 0 (m.timers n)).Holds n u ↔ _ := moveLast_holds hidx (Nat.zero_le n)
    exact hmove
  · rename_i hpos
    constructor
    · rintro ⟨j, hj, -⟩
      omega
    · rintro ⟨⟨j, hj, rfl⟩, hne⟩
      exact absurd (congrArg m.timers (by omega)) hne

/-- A firing unregisters a one-shot root, and nothing else. -/
theorem fireRoot_holds (h : m.Indexed m.size) (hs : m.size > 0) (now : UInt64) :
    (fireRoot m now).Holds (fireRoot m now).size u ↔
      m.Holds m.size u ∧ ((m.obj (m.timers 0)).period = 0 → u ≠ m.timers 0) := by
  by_cases hp : (m.obj (m.timers 0)).period = 0
  · obtain ⟨n, hn⟩ : ∃ n, m.size = n + 1 := ⟨m.size - 1, by omega⟩
    have hunlink := unlinkRoot_holds (u := u) hn h
    rw [fireRoot_size_oneShot hn hp, fireRoot_oneShot hn hp]
    simp only [hp, forall_const]
    split
    · rw [downAdjustHeap_holds]
      exact hunlink
    · exact hunlink
  · rw [fireRoot_size_periodic hs hp, fireRoot_periodic hs hp, downAdjustHeap_holds]
    constructor
    · intro hu
      exact ⟨hu, fun h0 => absurd h0 hp⟩
    · rintro ⟨hu, -⟩
      exact hu

/-! ### The capacity -/

theorem downAdjustHeap_cap (m : Manager τ) (cur size : Nat) :
    (downAdjustHeap m cur size).cap = m.cap := by
  fun_induction downAdjustHeap m cur size with
  | case1 m cur hge => rfl
  | case2 m cur hge tmp hlt ih => exact ih
  | case3 m cur hge tmp hlt => rfl

theorem upAdjustHeap_cap (m : Manager τ) (cur : Nat) : (upAdjustHeap m cur).cap = m.cap := by
  fun_induction upAdjustHeap m cur with
  | case1 m => rfl
  | case2 m cur hne up hlt ih => exact ih
  | case3 m cur hne up hlt => rfl

/-- Doubling the capacity while it is below `2^30`. -/
theorem cap_double {c : Int32} (h0 : 0 < c.toInt) (h : c.toInt < 2 ^ 30) : (c * 2).toInt = c.toInt * 2 := by
  have h2 : (2 : Int32).toInt = 2 := by decide
  rw [Int32.toInt_mul, h2]
  apply Int.bmod_eq_of_le
  · omega
  · omega

/-- The array is grown before the slot behind the last one is used. -/
theorem addIntertimer_cap (m : Manager τ) (t : τ) :
    (addIntertimer m t).cap = if m.cap.toInt = m.size then m.cap * 2 else m.cap := by
  unfold addIntertimer
  dsimp only
  split
  · exact upAdjustHeap_cap _ _
  · exact upAdjustHeap_cap _ _

theorem delIntertimer_size_le (m : Manager τ) (t : τ) :
    (delIntertimer m t).2.size ≤ m.size ∧ (delIntertimer m t).2.cap = m.cap := by
  unfold delIntertimer
  split
  · exact ⟨Nat.sub_le _ _, downAdjustHeap_cap _ _ _⟩
  · exact ⟨Nat.le_refl _, rfl⟩

theorem fireRoot_size_le (hs : m.size > 0) (now : UInt64) :
    (fireRoot m now).size ≤ m.size ∧ (fireRoot m now).cap = m.cap := by
  by_cases hp : (m.obj (m.timers 0)).period = 0
  · obtain ⟨n, hn⟩ : ∃ n, m.size = n + 1 := ⟨m.size - 1, by omega⟩
    have hcap : (unlinkRoot m n).cap = m.cap := by
      unfold unlinkRoot
      split <;> rfl
    rw [fireRoot_size_oneShot hn hp, fireRoot_oneShot hn hp]
    refine ⟨by omega, ?_⟩
    split
    · rw [downAdjustHeap_cap]
      exact hcap
    · exact hcap
  · rw [fireRoot_size_periodic hs hp, fireRoot_periodic hs hp, downAdjustHeap_cap]
    exact ⟨Nat.le_refl _, rfl⟩

/-! ### Every run -/

/-- The manager with the timers that were added and neither deleted nor fired since. -/
structure Tracked (τ : Type) where
  mgr : Manager τ
  members : Finset τ

/-- How an operation changes the registered timers. -/
def track (m : Manager τ) (members : Finset τ) : Op τ → Finset τ
  | .setup _ _ _ => members
  | .add t => insert t members
  | .del t => members.erase t
  | .fire _ => if (m.obj (m.timers 0)).period = 0 then members.erase (m.timers 0) else members

def trackedStep (s : Tracked τ) (o : Op τ) : Option (Tracked τ) :=
  (step s.mgr o).map fun m => ⟨m, track s.mgr s.members o⟩

/-- An empty manager; the timer objects are arbitrary. -/
def TrackedInit (s : Tracked τ) : Prop := Init s.mgr ∧ s.members = ∅

/-- Fewer than `2^30` timers are registered when one is added. -/
def Room (s : Tracked τ) : Op τ → Prop
  | .add _ => s.mgr.size < 2 ^ 30
  | _ => True

instance (s : Tracked τ) (o : Op τ) : Decidable (Room s o) :=
  match o with
  | .add _ => inferInstanceAs (Decidable (s.mgr.size < 2 ^ 30))
  | .setup _ _ _ | .del _ | .fire _ => .isTrue trivial

/-- What every operation keeps. -/
structure Tracked.Good (s : Tracked τ) : Prop where
  indexed : s.mgr.Indexed s.mgr.size
  room : 0 < s.mgr.cap.toInt ∧ s.mgr.size ≤ s.mgr.cap.toInt
  members : ∀ t, t ∈ s.members ↔ s.mgr.Holds s.mgr.size t

variable {s s' : Tracked τ}

theorem Tracked.Good.start (h : TrackedInit s) : s.Good := by
  obtain ⟨⟨hsize, hcap⟩, hmem⟩ := h
  refine ⟨fun j hj => ?_, ?_, fun t => ?_⟩
  · rw [hsize] at hj
    omega
  · rw [hsize, hcap]
    decide
  · rw [hmem, hsize]
    constructor
    · intro ht
      exact absurd ht (Finset.notMem_empty t)
    · rintro ⟨j, hj, -⟩
      omega

/-- One operation. -/
theorem Tracked.Good.step {o : Op τ} (h : s.Good) (hok : Room s o) (hs : trackedStep s o = some s') :
    s'.Good := by
  obtain ⟨m, hm, rfl⟩ := Option.map_eq_some_iff.mp hs
  obtain ⟨hidx, hroom, hmem⟩ := h
  cases o with
  | setup t w p =>
    simp only [TimerHeap.step] at hm
    split at hm
    · rename_i hun
      cases hm
      refine ⟨fun j hj => ?_, hroom, hmem⟩
      simpa only [setup_obj hun w p hj] using hidx j hj
    · cases hm
  | add t =>
    simp only [TimerHeap.step] at hm
    split at hm
    · rename_i hun
      cases hm
      refine ⟨addIntertimer_indexed hidx hun, ?_, fun u => ?_⟩
      · have hlt : s.mgr.size < 2 ^ 30 := hok
        rw [addIntertimer_cap, addIntertimer_size]
        split
        · rename_i hfull
          rw [cap_double hroom.1 (by omega)]
          omega
        · omega
      · rw [addIntertimer_holds, ← hmem u]
        exact Finset.mem_insert
    · cases hm
  | del t =>
    cases hm
    obtain ⟨hsize, hcap⟩ := delIntertimer_size_le s.mgr t
    refine ⟨delIntertimer_indexed hidx t, ?_, fun u => ?_⟩
    · rw [hcap]
      exact ⟨hroom.1, (Int.ofNat_le.mpr hsize).trans hroom.2⟩
    · change u ∈ s.members.erase t ↔ _
      rw [Finset.mem_erase, hmem u]
      by_cases ht : s.mgr.Holds s.mgr.size t
      · rw [delIntertimer_holds hidx ht]
        exact and_comm
      · rw [delIntertimer_absent hidx ht]
        constructor
        · exact fun hu => hu.2
        · intro hu
          exact ⟨fun he => ht (he ▸ hu), hu⟩
  | fire now =>
    simp only [TimerHeap.step] at hm
    split at hm
    · rename_i hdue
      cases hm
      obtain ⟨hsize, hcap⟩ := fireRoot_size_le hdue.1 now
      refine ⟨fireRoot_indexed hidx hdue.1 now, ?_, fun u => ?_⟩
      · rw [hcap]
        exact ⟨hroom.1, (Int.ofNat_le.mpr hsize).trans hroom.2⟩
      · rw [fireRoot_holds hidx hdue.1, ← hmem u]
        change u ∈ (if _ then s.members.erase _ else s.members) ↔ _
        split
        · rename_i hp
          rw [Finset.mem_erase]
          exact ⟨fun hu => ⟨hu.2, fun _ => hu.1⟩, fun hu => ⟨hu.2 hp, hu.1⟩⟩
        · rename_i hp
          exact ⟨fun hu => ⟨hu, fun h0 => absurd h0 hp⟩, fun hu => hu.1⟩
    · cases hm

theorem Tracked.good_of_reach (h : Reach trackedStep Room TrackedInit s) : s.Good :=
  h.invariant (fun _ h => .start h) fun _ _ _ hg hok hs => hg.step hok hs

/-- **Membership is exact** in every state reached: the slots in use hold pairwise distinct
    timers that know their slots, they are those added and neither deleted nor fired since,
    and a deletion returns 0 and removes the timer, or returns -1 and changes nothing. -/
theorem members_exact (h : Reach trackedStep Room TrackedInit s) :
    (∀ i < s.mgr.size, ∀ j < s.mgr.size, s.mgr.timers i = s.mgr.timers j → i = j) ∧
    (∀ j < s.mgr.size, (s.mgr.obj (s.mgr.timers j)).index = j) ∧
    s.mgr.size ≤ s.mgr.cap.toInt ∧
    (∀ t, t ∈ s.members ↔ s.mgr.Holds s.mgr.size t) ∧
    ∀ t, ((delIntertimer s.mgr t).1 = 0 ↔ t ∈ s.members) ∧
      (t ∈ s.members → ∀ u, (delIntertimer s.mgr t).2.Holds (delIntertimer s.mgr t).2.size u ↔
        u ∈ s.members ∧ u ≠ t) ∧
      (t ∉ s.members → delIntertimer s.mgr t = (-1, s.mgr)) := by
  obtain ⟨hidx, hroom, hmem⟩ := Tracked.good_of_reach h
  refine ⟨fun i hi j hj heq => hidx.slot_inj hi hj heq, hidx, hroom.2, hmem, fun t => ⟨?_, ?_, ?_⟩⟩
  · rw [delIntertimer_ret hidx, hmem t]
  · intro ht u
    rw [delIntertimer_holds hidx ((hmem t).mp ht), hmem u]
  · intro ht
    exact delIntertimer_absent hidx (mt (hmem t).mpr ht)

/-- Three timers, of which one is deleted and one fires. -/
theorem members_exact_oneLeft : ∃ s : Tracked Nat,
    Reach trackedStep Room TrackedInit s ∧ s.members = {1} ∧ s.mgr.size = 1 ∧
    delIntertimer s.mgr 0 = (-1, s.mgr) ∧ (delIntertimer s.mgr 1).1 = 0 := by
  obtain ⟨s, hs, hP⟩ := Reach.exists_of_runOk trackedStep Room TrackedInit (s := ⟨emptyManager, ∅⟩)
    ⟨⟨rfl, rfl⟩, rfl⟩ [.setup 0 5 0, .add 0, .setup 1 9 3, .add 1, .setup 2 7 0, .add 2, .del 2, .fire 5]
    (fun s => decide (s.members = {1}) && s.mgr.size == 1) (by decide +kernel)
  simp only [Bool.and_eq_true, beq_iff_eq, decide_eq_true_eq] at hP
  obtain ⟨-, -, -, -, hdel⟩ := members_exact hs
  refine ⟨s, hs, hP.1, hP.2, (hdel 0).2.2 ?_, (hdel 1).1.mpr ?_⟩
  · rw [hP.1]
    decide
  · rw [hP.1]
    decide

/-! ### The capacity at `2^30` timers -/

/-- The array as the additions leave it: no larger than `size` has asked for. -/
def Manager.Grown (m : Manager τ) : Prop :=
  ∃ j ≤ 30, m.cap.toInt = 2 ^ j ∧ m.size ≤ 2 ^ j ∧ (j = 5 ∨ 2 ^ (j - 1) < m.size)

omit [DecidableEq τ] in
theorem Manager.Grown.full (h : m.Grown) (hs : m.size = 2 ^ 30) : m.cap.toInt = 2 ^ 30 := by
  obtain ⟨j, hj, hcap, hle, -⟩ := h
  have hge : 30 ≤ j := (Nat.pow_le_pow_iff_right (by omega)).mp (hs ▸ hle)
  rw [hcap, Nat.le_antisymm hj hge]

theorem Manager.Grown.add (h : m.Grown) (hlt : m.size < 2 ^ 30) (t : τ) : (addIntertimer m t).Grown := by
  obtain ⟨j, hj, hcap, hle, hmin⟩ := h
  unfold Manager.Grown
  rw [addIntertimer_cap, addIntertimer_size]
  split
  · rename_i hfull
    have hsize : m.size = 2 ^ j := by
      rw [hcap] at hfull
      exact_mod_cast hfull.symm
    have hj' : j < 30 := (Nat.pow_lt_pow_iff_right (by omega : 1 < 2)).mp (hsize ▸ hlt)
    have hpos : 0 < 2 ^ j := Nat.two_pow_pos j
    refine ⟨j + 1, hj', ?_, ?_, .inr ?_⟩
    · rw [cap_double (by omega) (by omega), hcap, Int.pow_succ]
    · rw [hsize, Nat.pow_succ]
      omega
    · rw [hsize]
      exact Nat.lt_succ_self _
  · rename_i hroom
    have hne : m.size ≠ 2 ^ j := by
      intro hsize
      apply hroom
      rw [hcap, hsize]
      push_cast
      rfl
    refine ⟨j, hj, hcap, by omega, ?_⟩
    rcases hmin with h5 | hmin
    · exact .inl h5
    · exact .inr (by omega)

/-- The additions of `n` timers, one after the other. -/
theorem reach_adds (n : Nat) (hn : n ≤ 2 ^ 30) : ∃ s : Tracked Nat,
    Reach trackedStep Room TrackedInit s ∧ s.members = Finset.range n ∧ s.mgr.size = n ∧ s.mgr.Grown := by
  induction n with
  | zero =>
    exact ⟨⟨emptyManager, ∅⟩, .start ⟨⟨rfl, rfl⟩, rfl⟩, rfl, rfl, 5, by omega, rfl, by decide, .inl rfl⟩
  | succ n ih =>
    obtain ⟨s, hs, hmem, hsize, hgrown⟩ := ih (by omega)
    have hroom : s.mgr.size < 2 ^ 30 := by omega
    have hun : s.mgr.Unregistered n := by
      rw [Manager.unregistered_iff, ← (Tracked.good_of_reach hs).members, hmem]
      exact Finset.notMem_range_self
    refine ⟨⟨addIntertimer s.mgr n, insert n s.members⟩, .next (.add n) hs hroom ?_, ?_, ?_,
      hgrown.add hroom n⟩
    · simp [trackedStep, step, track, hun]
    · rw [hmem, Finset.range_add_one]
    · rw [addIntertimer_size, hsize]

/-- With `2^30` timers registered, one more makes `cap` negative: `realloc` is asked for more
    than the address space has, and `size` is not below `cap` any more. -/
theorem not_members_exact : ¬ ∀ s : Tracked Nat, Reach trackedStep (fun _ _ => True) TrackedInit s →
    s.mgr.size ≤ s.mgr.cap.toInt := by
  intro hall
  obtain ⟨s, hs, hmem, hsize, hgrown⟩ := reach_adds (2 ^ 30) (Nat.le_refl _)
  have hun : s.mgr.Unregistered (2 ^ 30) := by
    rw [Manager.unregistered_iff, ← (Tracked.good_of_reach hs).members, hmem]
    exact Finset.notMem_range_self
  have hcap : s.mgr.cap = 1073741824 := Int32.toInt.inj (hgrown.full hsize)
  have hnext : Reach trackedStep (fun _ _ => True) TrackedInit
      ⟨addIntertimer s.mgr (2 ^ 30), insert (2 ^ 30) s.members⟩ :=
    .next (.add (2 ^ 30)) (hs.mono fun _ _ _ => trivial) trivial (by
      simp only [trackedStep, step, if_pos hun]
      rfl)
  have hle := hall _ hnext
  rw [addIntertimer_cap, addIntertimer_size, hsize, hcap, if_pos (by decide)] at hle
  exact absurd hle (by decide)

end Coroc.TimerHeap
