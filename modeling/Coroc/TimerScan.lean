import Coroc.TimerMembers
import Mathlib.Data.Finset.Image
import Mathlib.Data.Finset.Card

/-!
# One scan of the timer daemon (`src/time.c`)

The `while` loop of `coroc_intertimer_routine` fires the root as long as it is due.  A
firing unlinks a one-shot root and reschedules a periodic one behind `now`, so each of them
takes one timer out of the set of those due, and the loop ends when there are no more
(`scan_exact`).
-/

namespace Coroc.TimerHeap

variable {τ : Type} [DecidableEq τ]

/-- The `while` loop, for at most `fuel` rounds: the timers whose `func` is called, in order,
    and the manager afterwards.  The callbacks do not touch the heap. -/
def scanLoop : Nat → Manager τ → UInt64 → Option (List τ × Manager τ)
  | 0, _, _ => none
  | fuel + 1, m, now =>
    if m.size > 0 then
      if m.whenAt 0 ≤ now then
        (scanLoop fuel (fireRoot m now) now).map fun r => (m.timers 0 :: r.1, r.2)
      else some ([], m)
    else some ([], m)

variable {m m' : Manager τ} {n : Nat} {t u : τ} {now : UInt64}

/-! ### The timer objects -/

/-- What a sift leaves of a timer: all but the index, and that too if the timer is in no
    slot. -/
structure Manager.Same (m m' : Manager τ) (n : Nat) : Prop where
  when : ∀ u, (m'.obj u).when = (m.obj u).when
  period : ∀ u, (m'.obj u).period = (m.obj u).period
  index : ∀ u, ¬ m.Holds n u → (m'.obj u).index = (m.obj u).index

theorem setIndex_period (m : Manager τ) (t u : τ) (i : Int) :
    ((m.setIndex t i).obj u).period = (m.obj u).period := by
  by_cases h : u = t
  · subst h
    simp [Manager.setIndex]
  · simp [Manager.setIndex, Function.update_of_ne h]

theorem exchangeHeap_same {a b : Nat} (ha : a < n) (hb : b < n) : m.Same (exchangeHeap m a b) n := by
  refine ⟨fun u => ?_, fun u => ?_, fun u hu => ?_⟩
  · simp only [exchangeHeap, setIndex_when, setSlot_obj]
  · simp only [exchangeHeap, setIndex_period, setSlot_obj]
  · have hne : ∀ j < n, u ≠ (exchangeHeap m a b).timers j := by
      rintro j hj rfl
      exact hu ((exchangeHeap_holds ha hb).mp ⟨j, hj, rfl⟩)
    have hneb := hne b hb
    have hnea := hne a ha
    simp only [exchangeHeap, setIndex_timers] at hnea hneb ⊢
    rw [setIndex_index_other _ _ hneb, setIndex_index_other _ _ hnea]
    rfl

theorem downAdjustHeap_same (m : Manager τ) (cur size : Nat) :
    m.Same (downAdjustHeap m cur size) size := by
  fun_induction downAdjustHeap m cur size with
  | case1 m cur hge => exact ⟨fun _ => rfl, fun _ => rfl, fun _ _ => rfl⟩
  | case2 m cur hge tmp hlt ih =>
    obtain ⟨_, hc, _, _⟩ := earlierChild_spec m hge
    have hgt := earlierChild_gt m cur size
    have hsame : m.Same (exchangeHeap m cur tmp) size := exchangeHeap_same (by omega) hc
    refine ⟨fun u => (ih.when u).trans (hsame.when u), fun u => (ih.period u).trans (hsame.period u),
      fun u hu => ?_⟩
    rw [ih.index u (mt (exchangeHeap_holds (by omega) hc).mp hu)]
    exact hsame.index u hu
  | case3 m cur hge tmp hlt => exact ⟨fun _ => rfl, fun _ => rfl, fun _ _ => rfl⟩

/-- Deadline and period of every timer are as before. -/
def Manager.Kept (m m' : Manager τ) : Prop :=
  ∀ u, (m'.obj u).when = (m.obj u).when ∧ (m'.obj u).period = (m.obj u).period

omit [DecidableEq τ] in
theorem Manager.Kept.trans {m₁ : Manager τ} (h : m.Kept m₁) (h' : m₁.Kept m') : m.Kept m' :=
  fun u => ⟨(h' u).1.trans (h u).1, (h' u).2.trans (h u).2⟩

theorem setIndex_kept (m : Manager τ) (t : τ) (i : Int) : m.Kept (m.setIndex t i) :=
  fun u => ⟨setIndex_when m t u i, setIndex_period m t u i⟩

theorem upAdjustHeap_kept (m : Manager τ) (cur : Nat) : m.Kept (upAdjustHeap m cur) := by
  fun_induction upAdjustHeap m cur with
  | case1 m => exact fun _ => ⟨rfl, rfl⟩
  | case2 m cur hne up hlt ih =>
    have hsame : m.Same (exchangeHeap m cur up) (cur + 1) :=
      exchangeHeap_same (Nat.lt_succ_self cur) (by omega)
    exact Manager.Kept.trans (fun u => ⟨hsame.when u, hsame.period u⟩) ih
  | case3 m cur hne up hlt => exact fun _ => ⟨rfl, rfl⟩

theorem addIntertimer_kept (m : Manager τ) (t : τ) : m.Kept (addIntertimer m t) := by
  have happend : ∀ (m' : Manager τ) (cur : Nat),
      m'.Kept (upAdjustHeap ((m'.setSlot cur t).setIndex t cur) cur) := by
    intro m' cur
    exact (setIndex_kept (m'.setSlot cur t) t cur).trans (upAdjustHeap_kept _ _)
  unfold addIntertimer
  dsimp only
  split
  · exact happend { m with cap := m.cap * 2 } m.size
  · exact happend m m.size

theorem delIntertimer_kept (m : Manager τ) (t : τ) : m.Kept (delIntertimer m t).2 := by
  unfold delIntertimer
  split
  · dsimp only
    intro u
    have hsame := downAdjustHeap_same ((m.setSlot (m.obj t).index.toNat (m.timers (m.size - 1))).setIndex
      ((m.setSlot (m.obj t).index.toNat (m.timers (m.size - 1))).timers (m.obj t).index.toNat)
      (m.obj t).index.toNat) (m.obj t).index.toNat (m.size - 1)
    exact ⟨(hsame.when u).trans (setIndex_when _ _ _ _), (hsame.period u).trans (setIndex_period _ _ _ _)⟩
  · exact fun _ => ⟨rfl, rfl⟩

/-- What a firing does to the timer objects. -/
structure Fired (m : Manager τ) (now : UInt64) (m' : Manager τ) : Prop where
  period : ∀ u, (m'.obj u).period = (m.obj u).period
  when : ∀ u, u ≠ m.timers 0 → (m'.obj u).when = (m.obj u).when
  index : ∀ u, ¬ m.Holds m.size u → (m'.obj u).index = (m.obj u).index
  oneShot : (m.obj (m.timers 0)).period = 0 → (m'.obj (m.timers 0)).index = -1 ∧
    (m'.obj (m.timers 0)).when = (m.obj (m.timers 0)).when
  periodic : (m.obj (m.timers 0)).period ≠ 0 →
    (m'.obj (m.timers 0)).when = now + (m.obj (m.timers 0)).period.toUInt64

theorem unlinkRoot_obj (hn : m.size = n + 1) (h : m.Indexed m.size) :
    (∀ u, ((unlinkRoot m n).obj u).period = (m.obj u).period) ∧
    (∀ u, ((unlinkRoot m n).obj u).when = (m.obj u).when) ∧
    (∀ u, ¬ m.Holds m.size u → ((unlinkRoot m n).obj u).index = (m.obj u).index) ∧
    ((unlinkRoot m n).obj (m.timers 0)).index = -1 := by
  have hroot : m.Holds m.size (m.timers 0) := ⟨0, by omega, rfl⟩
  have hlast : m.Holds m.size (m.timers n) := ⟨n, by omega, rfl⟩
  unfold unlinkRoot
  split
  · rename_i hpos
    have hne : m.timers 0 ≠ m.timers n := fun he => by
      have := h.slot_inj (by omega) (by omega) he
      omega
    refine ⟨fun u => ?_, fun u => ?_, fun u hu => ?_, ?_⟩
    · change ((Manager.setIndex _ _ _).obj u).period = _
      rw [setIndex_period, setSlot_obj, setIndex_period]
    · change ((Manager.setIndex _ _ _).obj u).when = _
      rw [setIndex_when, setSlot_obj, setIndex_when]
    · have hul : u ≠ m.timers n := fun he => hu (he ▸ hlast)
      have hur : u ≠ m.timers 0 := fun he => hu (he ▸ hroot)
      change ((Manager.setIndex _ _ _).obj u).index = _
      rw [setIndex_index_other _ _ hul, setSlot_obj, setIndex_index_other _ _ hur]
    · change ((Manager.setIndex _ _ _).obj (m.timers 0)).index = _
      rw [setIndex_index_other _ _ hne, setSlot_obj, setIndex_index_self]
  · refine ⟨fun u => setIndex_period m _ u _, fun u => setIndex_when m _ u _, fun u hu => ?_, ?_⟩
    · have hur : u ≠ m.timers 0 := fun he => hu (he ▸ hroot)
      exact setIndex_index_other m _ hur
    · exact setIndex_index_self m _ _

theorem setWhen_other {w : UInt64} (h : u ≠ t) : (m.setWhen t w).obj u = m.obj u :=
  Function.update_of_ne h _ _

theorem fireRoot_fired (h : m.Indexed m.size) (hs : m.size > 0) (now : UInt64) :
    Fired m now (fireRoot m now) := by
  by_cases hp : (m.obj (m.timers 0)).period = 0
  · obtain ⟨n, hn⟩ : ∃ n, m.size = n + 1 := ⟨m.size - 1, by omega⟩
    obtain ⟨hperiod, hwhen, hindex, hroot⟩ := unlinkRoot_obj hn h
    have hsame : (unlinkRoot m n).Same (fireRoot m now) n := by
      rw [fireRoot_oneShot hn hp]
      split
      · exact downAdjustHeap_same _ _ _
      · exact ⟨fun _ => rfl, fun _ => rfl, fun _ _ => rfl⟩
    have hgone : ∀ u, ¬ (m.Holds m.size u ∧ u ≠ m.timers 0) → ¬ (unlinkRoot m n).Holds n u :=
      fun u hu hu' => hu ((unlinkRoot_holds hn h).mp hu')
    refine ⟨fun u => (hsame.period u).trans (hperiod u), fun u _ => (hsame.when u).trans (hwhen u),
      fun u hu => ?_, fun _ => ⟨?_, (hsame.when _).trans (hwhen _)⟩, fun h0 => absurd hp h0⟩
    · rw [hsame.index u (hgone u fun hu' => hu hu'.1)]
      exact hindex u hu
    · rw [hsame.index _ (hgone _ fun hu' => hu'.2 rfl)]
      exact hroot
  · rw [fireRoot_periodic hs hp]
    have hsame := downAdjustHeap_same
      (m.setWhen (m.timers 0) (now + (m.obj (m.timers 0)).period.toUInt64)) 0 m.size
    refine ⟨fun u => (hsame.period u).trans ?_, fun u hu => (hsame.when u).trans ?_, fun u hu => ?_,
      fun h0 => absurd h0 hp, fun _ => (hsame.when _).trans ?_⟩
    · by_cases hu : u = m.timers 0
      · subst hu
        simp [Manager.setWhen]
      · rw [setWhen_other hu]
    · rw [setWhen_other hu]
    · rw [hsame.index u hu, setWhen_index]
    · simp [Manager.setWhen]

/-! ### The timers that are due -/

/-- The registered timers whose deadline has passed. -/
def dueSet (m : Manager τ) (now : UInt64) : Finset τ :=
  ((Finset.range m.size).image m.timers).filter fun t => (m.obj t).when ≤ now

theorem mem_dueSet : t ∈ dueSet m now ↔ m.Holds m.size t ∧ (m.obj t).when ≤ now := by
  simp [dueSet, Manager.Holds]

theorem dueSet_card_le (m : Manager τ) (now : UInt64) : (dueSet m now).card ≤ m.size := by
  calc (dueSet m now).card ≤ ((Finset.range m.size).image m.timers).card := Finset.card_filter_le _ _
    _ ≤ (Finset.range m.size).card := Finset.card_image_le
    _ = m.size := Finset.card_range _

/-- `now` plus a period is not past the end of the clock. -/
def InRange (m : Manager τ) (now : UInt64) : Prop :=
  ∀ t, m.Holds m.size t → now.toNat + (m.obj t).period.toNat < 2 ^ 64

theorem lt_add_period {p : UInt32} (hp : p ≠ 0) (h : now.toNat + p.toNat < 2 ^ 64) :
    now < now + p.toUInt64 := by
  have hpos : p.toNat ≠ 0 := fun h0 => hp (UInt32.toNat.inj h0)
  rw [UInt64.lt_iff_toNat_lt, UInt64.toNat_add, UInt32.toNat_toUInt64, Nat.mod_eq_of_lt h]
  omega

theorem InRange.fireRoot (h : InRange m now) (hidx : m.Indexed m.size) (hs : m.size > 0) :
    InRange (fireRoot m now) now := by
  intro t ht
  rw [(fireRoot_fired hidx hs now).period]
  exact h t ((fireRoot_holds hidx hs now).mp ht).1

/-- A firing takes the root out of the due timers, and no other. -/
theorem dueSet_fireRoot (hidx : m.Indexed m.size) (hs : m.size > 0) (hr : InRange m now) :
    dueSet (fireRoot m now) now = (dueSet m now).erase (m.timers 0) := by
  have hfired := fireRoot_fired hidx hs now
  ext t
  rw [Finset.mem_erase, mem_dueSet, mem_dueSet, fireRoot_holds hidx hs]
  by_cases ht : t = m.timers 0
  · subst ht
    constructor
    · rintro ⟨⟨hholds, hkeep⟩, hdue⟩
      exfalso
      by_cases hp : (m.obj (m.timers 0)).period = 0
      · exact hkeep hp rfl
      · rw [hfired.periodic hp] at hdue
        have hlt := lt_add_period hp (hr _ hholds)
        exact absurd (UInt64.lt_of_le_of_lt hdue hlt) (UInt64.lt_irrefl _)
    · rintro ⟨hne, -⟩
      exact absurd rfl hne
  · rw [hfired.when t ht]
    constructor
    · rintro ⟨⟨hholds, -⟩, hdue⟩
      exact ⟨ht, hholds, hdue⟩
    · rintro ⟨-, hholds, hdue⟩
      exact ⟨⟨hholds, fun _ => ht⟩, hdue⟩

/-! ### The loop -/

/-- What a scan at `now` has to do: `fired` are the timers whose `func` is called. -/
structure Scanned (m : Manager τ) (now : UInt64) (fired : List τ) (m' : Manager τ) : Prop where
  once : fired.Nodup
  due : ∀ t, t ∈ fired ↔ m.Holds m.size t ∧ (m.obj t).when ≤ now
  inOrder : fired.Pairwise fun t u => (m.obj t).when ≤ (m.obj u).when
  oneShot : ∀ t ∈ fired, (m.obj t).period = 0 → ¬ m'.Holds m'.size t ∧ (m'.obj t).index = -1
  periodic : ∀ t ∈ fired, (m.obj t).period ≠ 0 → m'.Holds m'.size t ∧
    (m'.obj t).when = now + (m.obj t).period.toUInt64
  period : ∀ t, (m'.obj t).period = (m.obj t).period
  other : ∀ t, t ∉ fired → (m'.Holds m'.size t ↔ m.Holds m.size t) ∧
    (m'.obj t).when = (m.obj t).when ∧ (¬ m.Holds m.size t → m'.obj t = m.obj t)
  valid : m'.Valid
  later : ∀ j < m'.size, now < m'.whenAt j

omit [DecidableEq τ] in
theorem Scanned.stop (h : m.Valid) (hlater : ∀ j < m.size, now < m.whenAt j) :
    Scanned m now [] m := by
  refine ⟨List.nodup_nil, fun t => ⟨fun ht => (nomatch ht), ?_⟩, .nil, nofun, nofun, fun _ => rfl,
    fun t _ => ⟨Iff.rfl, rfl, fun _ => rfl⟩, h, hlater⟩
  rintro ⟨⟨j, hj, rfl⟩, hdue⟩
  exact absurd (UInt64.lt_of_lt_of_le (hlater j hj) hdue) (UInt64.lt_irrefl _)

/-- One round of the loop, before the rest. -/
theorem Scanned.fire {fired : List τ} (h : m.Valid) (hs : m.size > 0) (hdue : m.whenAt 0 ≤ now)
    (hr : InRange m now) (hrest : Scanned (fireRoot m now) now fired m') :
    Scanned m now (m.timers 0 :: fired) m' := by
  have hidx := h.indexed
  have hfired := fireRoot_fired hidx hs now
  have hroot : m.Holds m.size (m.timers 0) := ⟨0, hs, rfl⟩
  have hmem : ∀ t, t ∈ fired ↔ t ≠ m.timers 0 ∧ m.Holds m.size t ∧ (m.obj t).when ≤ now := by
    intro t
    rw [hrest.due, ← mem_dueSet, dueSet_fireRoot hidx hs hr, Finset.mem_erase, mem_dueSet]
  have hnew : m.timers 0 ∉ fired := fun ht => ((hmem _).mp ht).1 rfl
  obtain ⟨hheld, hwhen, hsame⟩ := hrest.other _ hnew
  refine ⟨?_, fun t => ?_, ?_, fun t ht hp => ?_, fun t ht hp => ?_, fun t => ?_, fun t ht => ?_,
    hrest.valid, hrest.later⟩
  · exact List.nodup_cons.mpr ⟨hnew, hrest.once⟩
  · rw [List.mem_cons, hmem]
    by_cases ht : t = m.timers 0
    · subst ht
      exact ⟨fun _ => ⟨hroot, hdue⟩, fun _ => .inl rfl⟩
    · exact ⟨fun h => (h.resolve_left ht).2, fun h => .inr ⟨ht, h⟩⟩
  · refine List.pairwise_cons.mpr ⟨fun t ht => ?_, ?_⟩
    · -- the root of a heap is not later than any other timer
      obtain ⟨-, ⟨j, hj, rfl⟩, -⟩ := (hmem t).mp ht
      exact UInt64.le_iff_toNat_le.mpr (h.ordered.root_le j hj)
    · refine hrest.inOrder.imp_of_mem fun {t u} ht hu hle => ?_
      rwa [hfired.when t ((hmem t).mp ht).1, hfired.when u ((hmem u).mp hu).1] at hle
  · rcases List.mem_cons.mp ht with rfl | ht
    · have hgone : ¬ (fireRoot m now).Holds (fireRoot m now).size (m.timers 0) := fun hg =>
        ((fireRoot_holds hidx hs now).mp hg).2 hp rfl
      exact ⟨mt hheld.mp hgone, by rw [hsame hgone]; exact (hfired.oneShot hp).1⟩
    · exact hrest.oneShot t ht (by rw [hfired.period]; exact hp)
  · rcases List.mem_cons.mp ht with rfl | ht
    · refine ⟨hheld.mpr ((fireRoot_holds hidx hs now).mpr ⟨hroot, fun h0 => absurd h0 hp⟩), ?_⟩
      rw [hwhen]
      exact hfired.periodic hp
    · obtain ⟨hholds, hw⟩ := hrest.periodic t ht (by rw [hfired.period]; exact hp)
      rw [hfired.period] at hw
      exact ⟨hholds, hw⟩
  · rw [hrest.period, hfired.period]
  · rw [List.mem_cons, not_or] at ht
    obtain ⟨hne, hnot⟩ := ht
    obtain ⟨hholds, hw, hobj⟩ := hrest.other t hnot
    have hiff : (fireRoot m now).Holds (fireRoot m now).size t ↔ m.Holds m.size t := by
      rw [fireRoot_holds hidx hs]
      exact ⟨fun h => h.1, fun h => ⟨h, fun _ => hne⟩⟩
    refine ⟨hholds.trans hiff, hw.trans (hfired.when t hne), fun hun => ?_⟩
    rw [hobj (mt hiff.mp hun)]
    have hw' := hfired.when t hne
    have hp' := hfired.period t
    have hi' := hfired.index t hun
    generalize (fireRoot m now).obj t = a at hw' hp' hi'
    generalize m.obj t = b at hw' hp' hi'
    cases a
    cases b
    simp_all

theorem scanLoop_scanned {fuel : Nat} (h : m.Valid) (hr : InRange m now)
    (hfuel : (dueSet m now).card < fuel) :
    ∃ fired m', scanLoop fuel m now = some (fired, m') ∧ Scanned m now fired m' := by
  induction fuel generalizing m with
  | zero => omega
  | succ fuel ih =>
    unfold scanLoop
    by_cases hs : m.size > 0
    · rw [if_pos hs]
      by_cases hdue : m.whenAt 0 ≤ now
      · -- one round less is due
        have hroot : m.timers 0 ∈ dueSet m now := mem_dueSet.mpr ⟨⟨0, hs, rfl⟩, hdue⟩
        have hcard : (dueSet (fireRoot m now) now).card < fuel := by
          rw [dueSet_fireRoot h.indexed hs hr, Finset.card_erase_of_mem hroot]
          have := Finset.card_pos.mpr ⟨_, hroot⟩
          omega
        obtain ⟨fired, m', hloop, hrest⟩ := ih (fireRoot_valid h hs now) (hr.fireRoot h.indexed hs) hcard
        refine ⟨m.timers 0 :: fired, m', ?_, hrest.fire h hs hdue hr⟩
        rw [if_pos hdue, hloop]
        rfl
      · refine ⟨[], m, if_neg hdue, .stop h fun j hj => ?_⟩
        have hle : m.whenAt 0 ≤ m.whenAt j := UInt64.le_iff_toNat_le.mpr (h.ordered.root_le j hj)
        exact UInt64.lt_of_lt_of_le (UInt64.not_le.mp hdue) hle
    · refine ⟨[], m, if_neg hs, .stop h fun j hj => ?_⟩
      omega

/-- More rounds than needed make no difference. -/
theorem scanLoop_mono {fuel fuel' : Nat} {r : List τ × Manager τ} (hle : fuel ≤ fuel')
    (h : scanLoop fuel m now = some r) : scanLoop fuel' m now = some r := by
  induction fuel generalizing m r fuel' with
  | zero => cases h
  | succ fuel ih =>
    obtain ⟨k, rfl⟩ : ∃ k, fuel' = k + 1 := ⟨fuel' - 1, by omega⟩
    unfold scanLoop at h ⊢
    by_cases hs : m.size > 0
    · rw [if_pos hs] at h ⊢
      by_cases hdue : m.whenAt 0 ≤ now
      · rw [if_pos hdue] at h ⊢
        obtain ⟨r', hr', rfl⟩ := Option.map_eq_some_iff.mp h
        rw [ih (by omega) hr']
        rfl
      · rwa [if_neg hdue] at h ⊢
    · rwa [if_neg hs] at h ⊢

/-- **One scan fires exactly the due timers and stops.**  In a heap with its order and its
    back-pointers, the loop ends after at most `size` rounds; it calls `func` once for each
    registered timer that is due, in the order of the deadlines. -/
theorem scan_exact (hidx : ∀ j < m.size, (m.obj (m.timers j)).index = j) (hord : m.Ordered)
    (hr : ∀ t, m.Holds m.size t → now.toNat + (m.obj t).period.toNat < 2 ^ 64) :
    ∃ fired m', (∀ fuel > m.size, scanLoop fuel m now = some (fired, m')) ∧
      Scanned m now fired m' := by
  have hvalid : m.Valid := ⟨hidx, (ordered_iff m).mp hord⟩
  obtain ⟨fired, m', hloop, hscanned⟩ := scanLoop_scanned hvalid hr
    (Nat.lt_succ_of_le (dueSet_card_le m now))
  refine ⟨fired, m', fun fuel hfuel => ?_, hscanned⟩
  exact scanLoop_mono hfuel hloop

/-- A one-shot timer and a periodic one that are due, and one that is not. -/
def threeTimers : Manager Nat :=
  { timers := fun j => j, size := 3, cap := defaultIntertimersCap,
    obj := fun t => if t = 0 then ⟨3, 0, 0⟩ else if t = 1 then ⟨5, 4, 1⟩ else ⟨20, 0, t⟩ }

theorem scan_exact_threeTimers : ∃ m' : Manager Nat, scanLoop 4 threeTimers 10 = some ([0, 1], m') ∧
    Scanned threeTimers 10 [0, 1] m' := by
  have hcases : ∀ j < 3, j = 0 ∨ j = 1 ∨ j = 2 := by omega
  have hidx : ∀ j < threeTimers.size, (threeTimers.obj (threeTimers.timers j)).index = j := by decide
  obtain ⟨fired, m', hloop, hscanned⟩ := @scan_exact _ _ threeTimers 10 hidx
    (by
      intro i h0 hi
      rcases hcases i hi with rfl | rfl | rfl
      · omega
      · decide
      · decide)
    (by
      rintro t ⟨j, hj, rfl⟩
      rcases hcases j hj with rfl | rfl | rfl <;> decide)
  have hfired : (scanLoop 4 threeTimers 10).map Prod.fst = some [0, 1] := by decide +kernel
  have hfour := hloop 4 (by decide)
  rw [hfour] at hfired
  obtain rfl : fired = [0, 1] := Option.some.inj hfired
  exact ⟨m', hfour, hscanned⟩

end Coroc.TimerHeap
