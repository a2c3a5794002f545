import Coroc.Transition
import Coroc.ArrayHeap
import Mathlib.Order.Nat
import Mathlib.Algebra.Group.Nat.Defs

/-!
# The timer manager's heap (`src/time.c`)

The registered timers are a binary heap of pointers, ordered by deadline, in which
every timer also records its own position (`index`) as a fast path for deletion.
The model keeps the C layout: an array of pointers, of which the first `size`
slots are in use, and the timer objects the pointers lead to.  The type `τ` of
timer addresses is arbitrary.  `cap` is an `int32_t`: at `2^30` timers its doubling
overflows, and `realloc` is asked for more than there is.  No array holds more timers than
that, so `size` can be a number.

Deletion moves the last timer into the freed slot and only sifts it *down*.  The
sift is enough exactly when the moved timer is not earlier than the parent of the
slot it lands in (`MovesInOrder`); a last timer from another subtree can be.
-/

namespace Coroc.TimerHeap

open Coroc.Transition Coroc.ArrayHeap

/-- The fields of `coroc_inter_timer_t` that the heap reads and writes. -/
structure InterTimer where
  when : UInt64
  period : UInt32
  index : Int
deriving DecidableEq, Repr

/-- The heap part of `coroc_intertimer_manager`, with the timer objects it points to. -/
structure Manager (τ : Type) where
  timers : Nat → τ
  size : Nat
  cap : Int32
  obj : τ → InterTimer

variable {τ : Type}

/-- `TSC_DEFAULT_INTERTIMERS_CAP`. -/
def defaultIntertimersCap : Int32 := 32

/-- `timers[i]->when`. -/
def Manager.whenAt (m : Manager τ) (i : Nat) : UInt64 := (m.obj (m.timers i)).when

/-- The child `__down_adjust_heap` compares with: the earlier one, the right one on
    a tie, and the left one when there is no right one. -/
def earlierChild (m : Manager τ) (cur size : Nat) : Nat :=
  let left := 2 * cur + 1
  let right := left + 1
  if right ≥ size then left
  else if m.whenAt left < m.whenAt right then left else right

theorem earlierChild_gt (m : Manager τ) (cur size : Nat) : cur < earlierChild m cur size := by
  unfold earlierChild
  dsimp only
  split
  · omega
  · split <;> omega

variable [DecidableEq τ]

/-- `t->index = i`. -/
def Manager.setIndex (m : Manager τ) (t : τ) (i : Int) : Manager τ :=
  { m with obj := Function.update m.obj t { m.obj t with index := i } }

/-- `t->when = w`. -/
def Manager.setWhen (m : Manager τ) (t : τ) (w : UInt64) : Manager τ :=
  { m with obj := Function.update m.obj t { m.obj t with when := w } }

/-- `timers[i] = t`. -/
def Manager.setSlot (m : Manager τ) (i : Nat) (t : τ) : Manager τ :=
  { m with timers := Function.update m.timers i t }

/-- `__exchange_heap`: swap two slots and refresh both back-pointers. -/
def exchangeHeap (m : Manager τ) (e0 e1 : Nat) : Manager τ :=
  let tmp := m.timers e0
  let m := (m.setSlot e0 (m.timers e1)).setSlot e1 tmp
  let m := m.setIndex (m.timers e0) e0
  m.setIndex (m.timers e1) e1

/-- `__down_adjust_heap`. -/
def downAdjustHeap (m : Manager τ) (cur size : Nat) : Manager τ :=
  if 2 * cur + 1 ≥ size then m
  else
    let tmp := earlierChild m cur size
    if m.whenAt tmp < m.whenAt cur then
      downAdjustHeap (exchangeHeap m cur tmp) tmp size
    else m
termination_by size - cur
decreasing_by
  have := earlierChild_gt m cur size
  omega

/-- `__up_adjust_heap`. -/
def upAdjustHeap (m : Manager τ) (cur : Nat) : Manager τ :=
  if h : cur = 0 then m
  else
    let up := (cur - 1) / 2
    if m.whenAt cur < m.whenAt up then upAdjustHeap (exchangeHeap m cur up) up else m
termination_by cur

/-- The heap part of `coroc_add_intertimer`: grow the array when it is full, append
    the timer and sift it up. -/
def addIntertimer (m : Manager τ) (timer : τ) : Manager τ :=
  let m := if m.cap.toInt = m.size then { m with cap := m.cap * 2 } else m
  let size := m.size
  let m := (m.setSlot size timer).setIndex timer size
  let m := upAdjustHeap m size
  { m with size := m.size + 1 }

/-- The test of `coroc_del_intertimer` that the timer sits where its index says. -/
def Manager.isRegistered (m : Manager τ) (timer : τ) : Bool :=
  let i := (m.obj timer).index
  !(decide (i < 0) || decide (i ≥ m.size) || decide (timer ≠ m.timers i.toNat))

/-- `coroc_del_intertimer`: the return value and the new manager. -/
def delIntertimer (m : Manager τ) (timer : τ) : Int × Manager τ :=
  if m.isRegistered timer then
    let i := (m.obj timer).index.toNat
    let size := m.size - 1
    let m := m.setSlot i (m.timers size)
    let m := m.setIndex (m.timers i) i
    let m := downAdjustHeap m i size
    (0, { m with size := size })
  else (-1, m)

/-- The body of the `while` loop of `coroc_intertimer_routine` for a due root, after
    its callback: a one-shot root is unlinked, a periodic one is rescheduled. -/
def fireRoot (m : Manager τ) (now : UInt64) : Manager τ :=
  let t := m.timers 0
  let m :=
    if (m.obj t).period = 0 then
      let m := m.setIndex t (-1)
      let size := m.size - 1
      let m := if size > 0 then
          let m := m.setSlot 0 (m.timers size)
          m.setIndex (m.timers 0) 0
        else m
      { m with size := size }
    else m.setWhen t (now + (m.obj t).period.toUInt64)
  if m.size > 0 then downAdjustHeap m 0 m.size else m

/-! ### The operations as a transition system -/

/-- No slot in use holds `t`. -/
def Manager.Unregistered (m : Manager τ) (t : τ) : Prop := ∀ j < m.size, m.timers j ≠ t

instance (m : Manager τ) (t : τ) : Decidable (m.Unregistered t) :=
  inferInstanceAs (Decidable (∀ j < m.size, m.timers j ≠ t))

/-- One operation on the manager, under its lock. -/
inductive Op (τ : Type) where
  | setup (t : τ) (w : UInt64) (p : UInt32)   -- the owner fills in an unregistered timer
  | add (t : τ)
  | del (t : τ)
  | fire (now : UInt64)                       -- one firing of the daemon, at clock reading `now`
deriving DecidableEq, Repr

def step (m : Manager τ) : Op τ → Option (Manager τ)
  | .setup t w p =>
      if m.Unregistered t then
        some { m with obj := Function.update m.obj t { m.obj t with when := w, period := p } }
      else none
  | .add t => if m.Unregistered t then some (addIntertimer m t) else none
  | .del t => some (delIntertimer m t).2
  | .fire now => if m.size > 0 ∧ m.whenAt 0 ≤ now then some (fireRoot m now) else none

/-- `coroc_intertimer_initialize`: the heap is empty.  What the array and the timer
    objects hold before is arbitrary. -/
def Init (m : Manager τ) : Prop := m.size = 0 ∧ m.cap = defaultIntertimersCap

/-- `timers[(i-1)/2]->when <= timers[i]->when` for every registered timer. -/
def Manager.Ordered (m : Manager τ) : Prop :=
  ∀ i, 0 < i → i < m.size → m.whenAt ((i - 1) / 2) ≤ m.whenAt i

/-- A deletion moves the last timer into a slot whose parent is not later. -/
def MovesInOrder (m : Manager τ) : Op τ → Prop
  | .del t =>
      let i := (m.obj t).index.toNat
      m.isRegistered t = true → 0 < i → m.whenAt ((i - 1) / 2) ≤ m.whenAt (m.size - 1)
  | _ => True

instance (m : Manager τ) (o : Op τ) : Decidable (MovesInOrder m o) := by
  cases o <;> unfold MovesInOrder <;> infer_instance

/-! ### Keys and back-pointers

The heap arguments of `ArrayHeap` are about the deadlines by position (`keys`); the
exchanges also maintain that every registered timer knows its slot (`Indexed`),
which is why no timer occupies two slots. -/

/-- The deadlines by position. -/
def Manager.keys (m : Manager τ) : Nat → Nat := fun i => (m.whenAt i).toNat

/-- The timers in the first `n` slots record their own positions. -/
def Manager.Indexed (m : Manager τ) (n : Nat) : Prop :=
  ∀ j < n, (m.obj (m.timers j)).index = j

omit [DecidableEq τ] in
theorem ordered_iff (m : Manager τ) : m.Ordered ↔ HeapOrdered m.keys m.size :=
  forall_congr' fun _ => forall_congr' fun _ => forall_congr' fun _ =>
    UInt64.le_iff_toNat_le

omit [DecidableEq τ] in
theorem Manager.Indexed.slot_inj {m : Manager τ} {n : Nat} (h : m.Indexed n) {i j : Nat}
    (hi : i < n) (hj : j < n) (heq : m.timers i = m.timers j) : i = j := by
  have h1 := h i hi
  rw [heq, h j hj] at h1
  omega

@[simp] theorem setIndex_timers (m : Manager τ) (t : τ) (i : Int) :
    (m.setIndex t i).timers = m.timers := rfl

@[simp] theorem setIndex_size (m : Manager τ) (t : τ) (i : Int) :
    (m.setIndex t i).size = m.size := rfl

@[simp] theorem setIndex_when (m : Manager τ) (t u : τ) (i : Int) :
    ((m.setIndex t i).obj u).when = (m.obj u).when := by
  by_cases h : u = t
  · subst h; simp [Manager.setIndex]
  · simp [Manager.setIndex, Function.update_of_ne h]

@[simp] theorem setIndex_keys (m : Manager τ) (t : τ) (i : Int) :
    (m.setIndex t i).keys = m.keys := by
  funext j
  simp [Manager.keys, Manager.whenAt]

theorem setIndex_index_self (m : Manager τ) (t : τ) (i : Int) :
    ((m.setIndex t i).obj t).index = i := by
  simp [Manager.setIndex]

theorem setIndex_index_other (m : Manager τ) {t u : τ} (i : Int) (h : u ≠ t) :
    ((m.setIndex t i).obj u).index = (m.obj u).index := by
  simp [Manager.setIndex, Function.update_of_ne h]

omit [DecidableEq τ] in
@[simp] theorem setSlot_obj (m : Manager τ) (i : Nat) (t : τ) :
    (m.setSlot i t).obj = m.obj := rfl

omit [DecidableEq τ] in
@[simp] theorem setSlot_size (m : Manager τ) (i : Nat) (t : τ) :
    (m.setSlot i t).size = m.size := rfl

omit [DecidableEq τ] in
@[simp] theorem setSlot_timers_self (m : Manager τ) (i : Nat) (t : τ) :
    (m.setSlot i t).timers i = t := by
  simp [Manager.setSlot]

omit [DecidableEq τ] in
theorem setSlot_timers_other (m : Manager τ) {i j : Nat} (t : τ) (h : j ≠ i) :
    (m.setSlot i t).timers j = m.timers j := by
  simp [Manager.setSlot, Function.update_of_ne h]

omit [DecidableEq τ] in
theorem setSlot_keys (m : Manager τ) (i : Nat) (t : τ) :
    (m.setSlot i t).keys = Function.update m.keys i (m.obj t).when.toNat := by
  funext j
  by_cases h : j = i
  · subst h; simp [Manager.keys, Manager.whenAt]
  · simp [Manager.keys, Manager.whenAt, setSlot_timers_other m t h, Function.update_of_ne h]

theorem exchangeHeap_keys (m : Manager τ) (a b : Nat) :
    (exchangeHeap m a b).keys = exchange m.keys a b := by
  simp only [exchangeHeap, setIndex_keys, setSlot_keys]
  funext j
  by_cases hb : j = b
  · subst hb
    simp [Manager.keys, Manager.whenAt]
  · by_cases ha : j = a
    · subst ha
      simp [Function.update_of_ne hb, Manager.keys, Manager.whenAt]
    · rw [exchange_other _ ha hb, Function.update_of_ne hb, Function.update_of_ne ha]

@[simp] theorem exchangeHeap_size (m : Manager τ) (a b : Nat) :
    (exchangeHeap m a b).size = m.size := rfl

theorem exchangeHeap_indexed {m : Manager τ} {n a b : Nat} (h : m.Indexed n)
    (ha : a < n) (hb : b < n) (hab : a ≠ b) : (exchangeHeap m a b).Indexed n := by
  have hne : m.timers b ≠ m.timers a := fun heq => hab (h.slot_inj ha hb heq.symm)
  have hslots : ∀ j, (exchangeHeap m a b).timers j =
      if j = b then m.timers a else if j = a then m.timers b else m.timers j := by
    intro j
    simp only [exchangeHeap, setIndex_timers, Manager.setSlot, Function.update_apply]
  intro j hj
  rw [hslots j]
  simp only [exchangeHeap, setIndex_timers, setSlot_timers_self,
    setSlot_timers_other _ _ hab]
  by_cases hjb : j = b
  · subst hjb
    rw [if_pos rfl, setIndex_index_self]
  · rw [if_neg hjb]
    by_cases hja : j = a
    · subst hja
      rw [if_pos rfl, setIndex_index_other _ _ hne, setIndex_index_self]
    · rw [if_neg hja]
      have h1 : m.timers j ≠ m.timers a := fun heq => hja (h.slot_inj hj ha heq)
      have h2 : m.timers j ≠ m.timers b := fun heq => hjb (h.slot_inj hj hb heq)
      rw [setIndex_index_other _ _ h1, setIndex_index_other _ _ h2]
      exact h j hj

/-! ### The sifts restore heap order -/

omit [DecidableEq τ] in
/-- The child picked for the comparison is a child, and no child is earlier. -/
theorem earlierChild_spec (m : Manager τ) {cur size : Nat} (h : ¬ 2 * cur + 1 ≥ size) :
    0 < earlierChild m cur size ∧ earlierChild m cur size < size ∧
      parent (earlierChild m cur size) = cur ∧
      ∀ d, 0 < d → d < size → parent d = cur → m.keys (earlierChild m cur size) ≤ m.keys d := by
  have hdisj : earlierChild m cur size = 2 * cur + 1 ∨
      (earlierChild m cur size = 2 * cur + 2 ∧ 2 * cur + 2 < size) := by
    unfold earlierChild
    dsimp only
    split
    · exact Or.inl rfl
    · split
      · exact Or.inl rfl
      · exact Or.inr ⟨rfl, by omega⟩
  refine ⟨by omega, by omega, (parent_eq_iff (by omega)).mpr (by omega), ?_⟩
  intro d hd0 hd hpd
  have hd' := (parent_eq_iff hd0).mp hpd
  unfold earlierChild
  dsimp only
  split
  · exact le_of_eq (by rw [show d = 2 * cur + 1 by omega])
  · split
    · rename_i hlt
      have hlt := UInt64.lt_iff_toNat_lt.mp hlt
      rcases hd' with rfl | rfl
      · exact le_refl _
      · exact le_of_lt hlt
    · rename_i hlt
      have hlt := Nat.not_lt.mp (fun h => hlt (UInt64.lt_iff_toNat_lt.mpr h))
      rcases hd' with rfl | rfl
      · exact hlt
      · exact le_refl _

theorem downAdjustHeap_size (m : Manager τ) (cur size : Nat) :
    (downAdjustHeap m cur size).size = m.size := by
  fun_induction downAdjustHeap m cur size with
  | case1 m cur hge => rfl
  | case2 m cur hge tmp hlt ih => exact ih
  | case3 m cur hge tmp hlt => rfl

theorem downAdjustHeap_indexed (m : Manager τ) (cur size : Nat) (hidx : m.Indexed size) :
    (downAdjustHeap m cur size).Indexed size := by
  fun_induction downAdjustHeap m cur size with
  | case1 m cur hge => exact hidx
  | case2 m cur hge tmp hlt ih =>
    obtain ⟨_, hc, _, _⟩ := earlierChild_spec m hge
    have hgt := earlierChild_gt m cur size
    exact ih (exchangeHeap_indexed hidx (by omega) hc (by omega))
  | case3 m cur hge tmp hlt => exact hidx

/-- Sifting down repairs the pairs below `cur`. -/
theorem downAdjustHeap_ordered (m : Manager τ) (cur size : Nat)
    (h : SiftDown m.keys size cur) : HeapOrdered (downAdjustHeap m cur size).keys size := by
  fun_induction downAdjustHeap m cur size with
  | case1 m cur hge =>
    exact h.done fun c hc0 hc hpc => absurd ((parent_eq_iff hc0).mp hpc) (by omega)
  | case2 m cur hge tmp hlt ih =>
    obtain ⟨hc0, hc, hpc, hmin⟩ := earlierChild_spec m hge
    apply ih
    rw [exchangeHeap_keys]
    exact h.exchange hc0 hc hpc (UInt64.lt_iff_toNat_lt.mp hlt) hmin
  | case3 m cur hge tmp hlt =>
    obtain ⟨_, _, _, hmin⟩ := earlierChild_spec m hge
    have hle := Nat.not_lt.mp (fun h => hlt (UInt64.lt_iff_toNat_lt.mpr h))
    exact h.done fun c hc0 hc hpc => le_trans hle (hmin c hc0 hc hpc)

theorem upAdjustHeap_size (m : Manager τ) (cur : Nat) :
    (upAdjustHeap m cur).size = m.size := by
  fun_induction upAdjustHeap m cur with
  | case1 m => rfl
  | case2 m cur hne up hlt ih => exact ih
  | case3 m cur hne up hlt => rfl

theorem upAdjustHeap_indexed (m : Manager τ) (cur : Nat) {n : Nat} (hidx : m.Indexed n)
    (hcur : cur < n) : (upAdjustHeap m cur).Indexed n := by
  fun_induction upAdjustHeap m cur with
  | case1 m => exact hidx
  | case2 m cur hne up hlt ih =>
    exact ih (exchangeHeap_indexed hidx hcur (by omega) (by omega)) (by omega)
  | case3 m cur hne up hlt => exact hidx

/-- Sifting up repairs the pair above `cur`. -/
theorem upAdjustHeap_ordered (m : Manager τ) (cur : Nat) {n : Nat} (hcur : cur < n)
    (h : SiftUp m.keys n cur) : HeapOrdered (upAdjustHeap m cur).keys n := by
  fun_induction upAdjustHeap m cur with
  | case1 m => exact h.done fun hpos => absurd hpos (by omega)
  | case2 m cur hne up hlt ih =>
    apply ih (by omega)
    rw [exchangeHeap_keys]
    exact h.exchange (by omega) hcur (UInt64.lt_iff_toNat_lt.mp hlt)
  | case3 m cur hne up hlt =>
    exact h.done fun _ => Nat.not_lt.mp (fun h => hlt (UInt64.lt_iff_toNat_lt.mpr h))

/-! ### One operation -/

/-- What every operation keeps: the back-pointers, and heap order. -/
structure Manager.Valid (m : Manager τ) : Prop where
  indexed : m.Indexed m.size
  ordered : HeapOrdered m.keys m.size

omit [DecidableEq τ] in
/-- Moving the last timer into slot `i` changes one key. -/
theorem moveLast_keys (m : Manager τ) (i last : Nat) :
    (m.setSlot i (m.timers last)).keys = Function.update m.keys i (m.keys last) :=
  setSlot_keys m i (m.timers last)

/-- Moving the last timer into slot `i` and refreshing its back-pointer. -/
theorem moveLast_indexed {m : Manager τ} {n i : Nat} (h : m.Indexed (n + 1)) (hi : i ≤ n) :
    ((m.setSlot i (m.timers n)).setIndex (m.timers n) i).Indexed n := by
  intro j hj
  rw [setIndex_timers]
  by_cases hji : j = i
  · subst hji
    rw [setSlot_timers_self, setIndex_index_self]
  · rw [setSlot_timers_other _ _ hji,
      setIndex_index_other _ _ (fun heq => absurd (h.slot_inj (by omega) (by omega) heq) (by omega))]
    exact h j (by omega)

/-- Appending an unregistered timer and sifting it up. -/
theorem append_indexed {m : Manager τ} (h : m.Indexed m.size) {t : τ} (ht : m.Unregistered t) :
    (upAdjustHeap ((m.setSlot m.size t).setIndex t m.size) m.size).Indexed (m.size + 1) := by
  refine upAdjustHeap_indexed _ _ ?_ (Nat.lt_succ_self m.size)
  intro j hj
  rw [setIndex_timers]
  by_cases hjs : j = m.size
  · subst hjs
    rw [setSlot_timers_self, setIndex_index_self]
  · rw [setSlot_timers_other _ _ hjs, setIndex_index_other _ _ (ht j (by omega))]
    exact h j (by omega)

theorem append_ordered {m : Manager τ} (h : HeapOrdered m.keys m.size) (t : τ) :
    HeapOrdered (upAdjustHeap ((m.setSlot m.size t).setIndex t m.size) m.size).keys
      (m.size + 1) := by
  refine upAdjustHeap_ordered _ _ (Nat.lt_succ_self m.size) ?_
  rw [setIndex_keys, setSlot_keys]
  exact h.siftUp_append _

theorem addIntertimer_size (m : Manager τ) (t : τ) : (addIntertimer m t).size = m.size + 1 := by
  unfold addIntertimer
  dsimp only
  split <;> rw [upAdjustHeap_size] <;> rfl

theorem addIntertimer_indexed {m : Manager τ} (h : m.Indexed m.size) {t : τ}
    (ht : m.Unregistered t) : (addIntertimer m t).Indexed (addIntertimer m t).size := by
  rw [addIntertimer_size]
  -- growing the array touches neither the slots nor the timers
  unfold addIntertimer
  dsimp only
  split
  · exact append_indexed (m := { m with cap := m.cap * 2 }) h ht
  · exact append_indexed h ht

theorem addIntertimer_valid {m : Manager τ} (h : m.Valid) {t : τ} (ht : m.Unregistered t) :
    (addIntertimer m t).Valid := by
  refine ⟨addIntertimer_indexed h.indexed ht, ?_⟩
  rw [addIntertimer_size]
  unfold addIntertimer
  dsimp only
  split
  · exact append_ordered (m := { m with cap := m.cap * 2 }) h.ordered t
  · exact append_ordered h.ordered t

/-- A registered timer occupies the slot its index names. -/
theorem isRegistered_iff (m : Manager τ) (t : τ) :
    m.isRegistered t = true ↔
      0 ≤ (m.obj t).index ∧ (m.obj t).index.toNat < m.size ∧
        m.timers (m.obj t).index.toNat = t := by
  unfold Manager.isRegistered
  simp only [Bool.not_eq_true', Bool.or_eq_false_iff, decide_eq_false_iff_not, ge_iff_le,
    ne_eq, Decidable.not_not]
  constructor
  · rintro ⟨⟨h0, hlt⟩, heq⟩
    exact ⟨by omega, by omega, heq.symm⟩
  · rintro ⟨h0, hlt, heq⟩
    exact ⟨⟨by omega, by omega⟩, heq.symm⟩

/-- The back-pointers survive every deletion. -/
theorem delIntertimer_indexed {m : Manager τ} (h : m.Indexed m.size) (t : τ) :
    (delIntertimer m t).2.Indexed (delIntertimer m t).2.size := by
  unfold delIntertimer
  split
  · rename_i hreg
    obtain ⟨_, hlt, _⟩ := (isRegistered_iff m t).mp hreg
    dsimp only
    rw [setSlot_timers_self]
    refine downAdjustHeap_indexed _ _ _ ?_
    exact moveLast_indexed (by rwa [Nat.sub_add_cancel (by omega)]) (by omega)
  · exact h

/-- A deletion that moves the last timer in order keeps heap order. -/
theorem delIntertimer_ordered {m : Manager τ} (h : HeapOrdered m.keys m.size) {t : τ}
    (hok : MovesInOrder m (.del t)) :
    HeapOrdered (delIntertimer m t).2.keys (delIntertimer m t).2.size := by
  unfold delIntertimer
  split
  · rename_i hreg
    obtain ⟨_, hlt, _⟩ := (isRegistered_iff m t).mp hreg
    have hmove : 0 < (m.obj t).index.toNat →
        m.keys (parent (m.obj t).index.toNat) ≤ m.keys (m.size - 1) := fun hpos =>
      UInt64.le_iff_toNat_le.mp (hok hreg hpos)
    dsimp only
    generalize (m.obj t).index.toNat = i at hlt hmove
    by_cases hlast : i = m.size - 1
    · -- the last timer itself: nothing is left below the slot
      rw [downAdjustHeap, if_pos (by omega)]
      show HeapOrdered ((m.setSlot i _).setIndex _ _).keys (m.size - 1)
      rw [setIndex_keys, moveLast_keys]
      refine HeapOrdered.congr (fun j hj => ?_) (h.mono (Nat.sub_le _ _))
      rw [Function.update_of_ne (by omega)]
    · refine downAdjustHeap_ordered _ _ _ ?_
      rw [setIndex_keys, moveLast_keys]
      exact (h.mono (Nat.sub_le _ _)).siftDown_update (by omega) hmove
  · exact h

/-- A deletion out of order leaves the moved timer above nothing it could sink
    below, so the pair it forms with the parent of its slot stays wrong: the
    condition is exact. -/
theorem delIntertimer_ordered_iff {m : Manager τ} (h : HeapOrdered m.keys m.size) (t : τ) :
    HeapOrdered (delIntertimer m t).2.keys (delIntertimer m t).2.size ↔
      MovesInOrder m (.del t) := by
  refine ⟨fun hafter hreg hpos => ?_, delIntertimer_ordered h⟩
  obtain ⟨_, hlt, _⟩ := (isRegistered_iff m t).mp hreg
  unfold delIntertimer at hafter
  rw [if_pos hreg] at hafter
  dsimp only at hafter hpos ⊢
  generalize (m.obj t).index.toNat = i at hlt hpos hafter
  refine UInt64.le_iff_toNat_le.mpr (Nat.not_lt.mp fun hstray => ?_)
  change m.keys (m.size - 1) < m.keys (parent i) at hstray
  have hparent := parent_lt hpos
  have hlast : i ≠ m.size - 1 := by
    rintro rfl
    exact absurd (h (m.size - 1) hpos hlt) (Nat.not_le.mpr hstray)
  -- the keys after the move, before the sift
  generalize hm₁ : (m.setSlot i (m.timers (m.size - 1))).setIndex
    ((m.setSlot i (m.timers (m.size - 1))).timers i) i = m₁ at hafter
  have hkeys : m₁.keys = Function.update m.keys i (m.keys (m.size - 1)) := by
    rw [← hm₁, setIndex_keys, moveLast_keys]
  have hstop : downAdjustHeap m₁ i (m.size - 1) = m₁ := by
    rw [downAdjustHeap]
    split
    · rfl
    · rename_i hge
      obtain ⟨hc0, hc, hpc, _⟩ := earlierChild_spec m₁ hge
      have hgt := earlierChild_gt m₁ i (m.size - 1)
      have hchild : m.keys i ≤ m.keys (earlierChild m₁ i (m.size - 1)) := by
        have := h _ hc0 (by omega : earlierChild m₁ i (m.size - 1) < m.size)
        rwa [hpc] at this
      refine if_neg fun hswap => ?_
      have hswap : m₁.keys (earlierChild m₁ i (m.size - 1)) < m₁.keys i :=
        UInt64.lt_iff_toNat_lt.mp hswap
      rw [hkeys, Function.update_self, Function.update_of_ne (by omega)] at hswap
      have := h i hpos hlt
      omega
  rw [hstop] at hafter
  have hpair : m₁.keys (parent i) ≤ m₁.keys i := hafter i hpos (by show i < m.size - 1; omega)
  rw [hkeys, Function.update_self, Function.update_of_ne (by omega)] at hpair
  omega

/-- Unlinking a one-shot root leaves at most the pairs below the root out of order. -/
theorem unlinkRoot_spec {m : Manager τ} (h : m.Valid) {n : Nat} (hn : m.size = n + 1)
    (hpos : 0 < n) :
    (((m.setIndex (m.timers 0) (-1)).setSlot 0 (m.timers n)).setIndex
      (m.timers n) 0).Indexed n ∧
    SiftDown (((m.setIndex (m.timers 0) (-1)).setSlot 0 (m.timers n)).setIndex
      (m.timers n) 0).keys n 0 := by
  have hidx := h.indexed
  have hord := h.ordered
  rw [hn] at hidx hord
  constructor
  · intro j hj
    rw [setIndex_timers]
    by_cases hj0 : j = 0
    · subst hj0
      rw [setSlot_timers_self, setIndex_index_self]
      rfl
    · have hroot : m.timers j ≠ m.timers 0 := fun heq =>
        hj0 (hidx.slot_inj (by omega) (by omega) heq)
      have hlast : m.timers j ≠ m.timers n := fun heq =>
        absurd (hidx.slot_inj (by omega) (by omega) heq) (by omega)
      rw [setSlot_timers_other _ _ hj0, setIndex_timers, setIndex_index_other _ _ hlast,
        setSlot_obj, setIndex_index_other _ _ hroot]
      exact hidx j (by omega)
  · rw [setIndex_keys, setSlot_keys, setIndex_keys, setIndex_when]
    exact (hord.mono (Nat.le_succ n)).siftDown_update hpos (fun h0 => absurd h0 (by omega))

/-- A manager whose root alone may be late is valid after the sift from the root. -/
theorem downAdjustRoot_valid {m : Manager τ} (hidx : m.Indexed m.size)
    (hdown : SiftDown m.keys m.size 0) : (downAdjustHeap m 0 m.size).Valid := by
  constructor
  · rw [downAdjustHeap_size]
    exact downAdjustHeap_indexed m 0 m.size hidx
  · rw [downAdjustHeap_size]
    exact downAdjustHeap_ordered m 0 m.size hdown

@[simp] theorem setWhen_timers (m : Manager τ) (t : τ) (w : UInt64) :
    (m.setWhen t w).timers = m.timers := rfl

theorem setWhen_index (m : Manager τ) (t u : τ) (w : UInt64) :
    ((m.setWhen t w).obj u).index = (m.obj u).index := by
  by_cases h : u = t
  · subst h; simp [Manager.setWhen]
  · simp [Manager.setWhen, Function.update_of_ne h]

/-- Rescheduling the root changes the root's key only: no other slot holds the timer. -/
theorem setWhen_root_keys {m : Manager τ} {n : Nat} (h : m.Indexed n) (w : UInt64) {j : Nat}
    (hj : j < n) :
    Function.update m.keys 0 w.toNat j = (m.setWhen (m.timers 0) w).keys j := by
  by_cases hj0 : j = 0
  · subst hj0
    simp [Manager.keys, Manager.whenAt, Manager.setWhen]
  · have hne : m.timers j ≠ m.timers 0 := fun heq => hj0 (h.slot_inj hj (by omega) heq)
    rw [Function.update_of_ne hj0]
    simp [Manager.keys, Manager.whenAt, Manager.setWhen, Function.update_of_ne hne]

theorem fireRoot_valid {m : Manager τ} (h : m.Valid) (hsize : 0 < m.size) (now : UInt64) :
    (fireRoot m now).Valid := by
  unfold fireRoot
  dsimp only
  by_cases hp : (m.obj (m.timers 0)).period = 0
  · obtain ⟨n, hn⟩ : ∃ n, m.size = n + 1 := ⟨m.size - 1, by omega⟩
    simp only [hp, if_true, setIndex_size, hn, Nat.add_sub_cancel]
    by_cases hpos : 0 < n
    · simp only [gt_iff_lt, hpos, if_true, setIndex_timers, setSlot_timers_self]
      obtain ⟨hidx, hdown⟩ := unlinkRoot_spec h hn hpos
      exact downAdjustRoot_valid (m := { ((m.setIndex (m.timers 0) (-1)).setSlot 0
        (m.timers n)).setIndex (m.timers n) 0 with size := n }) hidx hdown
    · have hn0 : n = 0 := by omega
      subst hn0
      simp only [gt_iff_lt, Nat.lt_irrefl, if_false]
      exact ⟨fun j hj => absurd hj (by simp), fun i _ hi => absurd hi (by simp)⟩
  · have hsz : ∀ w, (m.setWhen (m.timers 0) w).size = m.size := fun _ => rfl
    simp only [hp, if_false, gt_iff_lt, hsz, hsize, if_true]
    refine downAdjustRoot_valid (m := m.setWhen _ _) (fun j hj => ?_) ?_
    · rw [setWhen_timers, setWhen_index]
      exact h.indexed j hj
    · refine SiftDown.congr (fun j hj => setWhen_root_keys h.indexed _ hj) hsize ?_
      exact h.ordered.siftDown_update hsize (fun h0 => absurd h0 (by omega))

/-! ### Where the deadlines after an operation come from -/

/-- Every deadline among the first `n` slots of `m'` is one among the first `k` of `m`. -/
def KeysFrom (m' : Manager τ) (n : Nat) (m : Manager τ) (k : Nat) : Prop :=
  ∀ j < n, ∃ i < k, m'.keys j = m.keys i

theorem downAdjustHeap_keysFrom (m : Manager τ) (cur size : Nat) :
    KeysFrom (downAdjustHeap m cur size) size m size := by
  fun_induction downAdjustHeap m cur size with
  | case1 m cur hge => exact fun j hj => ⟨j, hj, rfl⟩
  | case2 m cur hge tmp hlt ih =>
    intro j hj
    obtain ⟨i, hi, heq⟩ := ih j hj
    obtain ⟨_, hc, _, _⟩ := earlierChild_spec m hge
    have hgt := earlierChild_gt m cur size
    rw [exchangeHeap_keys] at heq
    by_cases hicur : i = cur
    · exact ⟨tmp, hc, by rw [heq, hicur, exchange_left]⟩
    · by_cases hit : i = tmp
      · exact ⟨cur, by omega, by rw [heq, hit, exchange_right]⟩
      · exact ⟨i, hi, by rw [heq, exchange_other _ hicur hit]⟩
  | case3 m cur hge tmp hlt => exact fun j hj => ⟨j, hj, rfl⟩

theorem delIntertimer_keysFrom (m : Manager τ) (t : τ) :
    KeysFrom (delIntertimer m t).2 (delIntertimer m t).2.size m m.size := by
  unfold delIntertimer
  split
  · rename_i hreg
    obtain ⟨_, hlt, _⟩ := (isRegistered_iff m t).mp hreg
    intro j hj
    have hj : j < m.size - 1 := hj
    obtain ⟨i, hi, heq⟩ := downAdjustHeap_keysFrom ((m.setSlot (m.obj t).index.toNat
      (m.timers (m.size - 1))).setIndex _ _) _ _ j hj
    rw [setIndex_keys, moveLast_keys] at heq
    by_cases hic : i = (m.obj t).index.toNat
    · exact ⟨m.size - 1, by omega, heq.trans (by rw [hic, Function.update_self])⟩
    · exact ⟨i, by omega, heq.trans (by rw [Function.update_of_ne hic])⟩
  · exact fun j hj => ⟨j, hj, rfl⟩

/-- A timer added to the empty heap is its root. -/
theorem addIntertimer_empty_keys {m : Manager τ} (hm : m.size = 0) (t : τ) :
    (addIntertimer m t).keys 0 = (m.obj t).when.toNat := by
  have happend : ∀ m' : Manager τ, m'.size = 0 →
      (upAdjustHeap ((m'.setSlot m'.size t).setIndex t m'.size) m'.size).keys 0 =
        (m'.obj t).when.toNat := by
    intro m' hm'
    rw [hm', upAdjustHeap, dif_pos rfl, setIndex_keys, setSlot_keys, Function.update_self]
  unfold addIntertimer
  dsimp only
  split
  · exact happend { m with cap := m.cap * 2 } hm
  · exact happend m hm

/-! ### Which timers are in use -/

/-- Every timer in the first `n` slots satisfies `P`. -/
def Manager.All (m : Manager τ) (n : Nat) (P : τ → Prop) : Prop := ∀ j < n, P (m.timers j)

variable {P : τ → Prop}

omit [DecidableEq τ] in
theorem Manager.All.setSlot {m : Manager τ} {n i : Nat} {t : τ} (h : m.All n P) (ht : P t) :
    (m.setSlot i t).All n P := by
  intro j hj
  by_cases hi : j = i
  · subst hi
    rw [setSlot_timers_self]
    exact ht
  · rw [setSlot_timers_other m t hi]
    exact h j hj

theorem exchangeHeap_all {m : Manager τ} {n a b : Nat} (h : m.All n P) (ha : a < n)
    (hb : b < n) : (exchangeHeap m a b).All n P :=
  (h.setSlot (h b hb)).setSlot (h a ha)

theorem downAdjustHeap_all (m : Manager τ) (cur size : Nat) (h : m.All size P) :
    (downAdjustHeap m cur size).All size P := by
  fun_induction downAdjustHeap m cur size with
  | case1 m cur hge => exact h
  | case2 m cur hge tmp hlt ih =>
    obtain ⟨_, hc, _, _⟩ := earlierChild_spec m hge
    have hgt := earlierChild_gt m cur size
    exact ih (exchangeHeap_all h (by omega) hc)
  | case3 m cur hge tmp hlt => exact h

theorem upAdjustHeap_all (m : Manager τ) (cur : Nat) {n : Nat} (h : m.All n P) (hcur : cur < n) :
    (upAdjustHeap m cur).All n P := by
  fun_induction upAdjustHeap m cur with
  | case1 m => exact h
  | case2 m cur hne up hlt ih => exact ih (exchangeHeap_all h hcur (by omega)) (by omega)
  | case3 m cur hne up hlt => exact h

theorem addIntertimer_all {m : Manager τ} {t : τ} (h : m.All m.size P) (ht : P t) :
    (addIntertimer m t).All (addIntertimer m t).size P := by
  have hgrow : ∀ m' : Manager τ, m'.All m'.size P →
      (upAdjustHeap ((m'.setSlot m'.size t).setIndex t m'.size) m'.size).All (m'.size + 1) P := by
    intro m' h'
    refine upAdjustHeap_all _ _ (fun j hj => ?_) (Nat.lt_succ_self _)
    change P ((m'.setSlot m'.size t).timers j)
    by_cases hj' : j = m'.size
    · subst hj'
      rw [setSlot_timers_self]
      exact ht
    · rw [setSlot_timers_other m' t hj']
      exact h' j (by omega)
  rw [addIntertimer_size]
  unfold addIntertimer
  dsimp only
  split
  · exact hgrow { m with cap := m.cap * 2 } h
  · exact hgrow m h

theorem delIntertimer_all {m : Manager τ} (t : τ) (h : m.All m.size P) :
    (delIntertimer m t).2.All (delIntertimer m t).2.size P := by
  unfold delIntertimer
  split
  · rename_i hreg
    obtain ⟨_, hlt, _⟩ := (isRegistered_iff m t).mp hreg
    have hless : m.All (m.size - 1) P := fun j hj => h j (by omega)
    exact downAdjustHeap_all _ _ _ (hless.setSlot (h (m.size - 1) (by omega)))
  · exact h

theorem fireRoot_all {m : Manager τ} (now : UInt64) (h : m.All m.size P) :
    (fireRoot m now).All (fireRoot m now).size P := by
  have hsift : ∀ m' : Manager τ, m'.All m'.size P →
      (if m'.size > 0 then downAdjustHeap m' 0 m'.size else m').All
        (if m'.size > 0 then downAdjustHeap m' 0 m'.size else m').size P := by
    intro m' h'
    split
    · rw [downAdjustHeap_size]
      exact downAdjustHeap_all _ _ _ h'
    · exact h'
  refine hsift _ ?_
  split
  · have hless : m.All (m.size - 1) P := fun j hj => h j (by omega)
    intro j hj
    dsimp only at hj ⊢
    split
    · rename_i hs
      have hs : 0 < m.size - 1 := hs
      exact hless.setSlot (h (m.size - 1) (by omega)) j hj
    · exact hless j hj
  · exact h

/-! ### Every run -/

/-- Filling in a timer that is in no slot changes no timer in use. -/
theorem setup_obj {m : Manager τ} {t : τ} (hun : m.Unregistered t) (w : UInt64) (p : UInt32)
    {j : Nat} (hj : j < m.size) :
    Function.update m.obj t { m.obj t with when := w, period := p } (m.timers j) =
      m.obj (m.timers j) :=
  Function.update_of_ne (hun j hj) _ _

theorem step_setup {m m' : Manager τ} {t : τ} {w : UInt64} {p : UInt32}
    (h : step m (.setup t w p) = some m') :
    m'.size = m.size ∧ ∀ j < m.size, m'.keys j = m.keys j := by
  simp only [step] at h
  split at h
  · rename_i hun
    simp only [Option.some.injEq] at h
    subst h
    refine ⟨rfl, fun j hj => ?_⟩
    simp only [Manager.keys, Manager.whenAt, setup_obj hun w p hj]
  · cases h

/-- One operation whose deletion, if it is one, moves the last timer in order. -/
theorem step_valid {m m' : Manager τ} {o : Op τ} (h : m.Valid) (hok : MovesInOrder m o)
    (hs : step m o = some m') : m'.Valid := by
  cases o with
  | setup t w p =>
    simp only [step] at hs
    split at hs
    · rename_i hun
      simp only [Option.some.injEq] at hs
      subst hs
      refine ⟨fun j hj => ?_, HeapOrdered.congr (fun j hj => ?_) h.ordered⟩
      · simpa only [setup_obj hun w p hj] using h.indexed j hj
      · simp only [Manager.keys, Manager.whenAt, setup_obj hun w p hj]
    · cases hs
  | add t =>
    simp only [step] at hs
    split at hs
    · rename_i hun
      simp only [Option.some.injEq] at hs
      subst hs
      exact addIntertimer_valid h hun
    · cases hs
  | del t =>
    simp only [step, Option.some.injEq] at hs
    subst hs
    exact ⟨delIntertimer_indexed h.indexed t, delIntertimer_ordered h.ordered hok⟩
  | fire now =>
    simp only [step] at hs
    split at hs
    · rename_i hdue
      simp only [Option.some.injEq] at hs
      subst hs
      exact fireRoot_valid h hdue.1 now
    · cases hs

omit [DecidableEq τ] in
theorem valid_of_init {m : Manager τ} (h : Init m) : m.Valid :=
  ⟨fun j hj => absurd hj (by rw [h.1]; omega), fun i _ hi => absurd hi (by rw [h.1]; omega)⟩

/-- **Heap order along every run whose deletions move the last timer in order.**
    In every state reached, each registered timer's deadline is at least its
    parent's, so the root carries the earliest deadline. -/
theorem heap_ordered_of_movesInOrder {m : Manager τ} (h : Reach step MovesInOrder Init m) :
    m.Ordered ∧ ∀ i < m.size, m.whenAt 0 ≤ m.whenAt i := by
  have hv : m.Valid := h.invariant (fun _ => valid_of_init) fun _ _ _ => step_valid
  exact ⟨(ordered_iff m).mpr hv.ordered, fun i hi =>
    UInt64.le_iff_toNat_le.mpr (hv.ordered.root_le i hi)⟩

/-- A manager before its first timer. -/
def emptyManager : Manager Nat :=
  { timers := fun _ => 0, size := 0, cap := defaultIntertimersCap, obj := fun _ => ⟨0, 0, 0⟩ }

/-- Seven timers, due at 1, 10, 2, 11, 12, 3 and 4, each in the slot it is added to. -/
def sevenTimers : List (Op Nat) :=
  [.setup 0 1 0, .add 0, .setup 1 10 0, .add 1, .setup 2 2 0, .add 2, .setup 3 11 0, .add 3,
    .setup 4 12 0, .add 4, .setup 5 3 0, .add 5, .setup 6 4 0, .add 6]

/-- Deleting the timer due at 2 moves the timer due at 4 in order, and so does the
    firing of the root that follows. -/
theorem sevenTimers_heap_ordered :
    ∃ m : Manager Nat, m.size = 5 ∧ m.Ordered ∧ ∀ i < m.size, m.whenAt 0 ≤ m.whenAt i := by
  obtain ⟨m, hm, hsize⟩ := Reach.exists_of_runOk step MovesInOrder Init (s := emptyManager)
    ⟨rfl, rfl⟩ (sevenTimers ++ [.del 2, .fire 1]) (fun m => m.size == 5) (by decide +kernel)
  exact ⟨m, by simpa using hsize, heap_ordered_of_movesInOrder hm⟩

/-- Deleting the timer due at 11 moves the timer due at 4 below the one due at 10:
    the last slot is in another subtree than the freed one. -/
theorem not_heap_ordered :
    ¬ ∀ m : Manager Nat, Reach step (fun _ _ => True) Init m → m.Ordered := by
  intro hall
  obtain ⟨m, hm, hstray⟩ := Reach.exists_of_run step Init (s := emptyManager) ⟨rfl, rfl⟩
    (sevenTimers ++ [.del 3]) (fun m => m.size == 6 && m.whenAt 1 == 10 && m.whenAt 3 == 4)
    (by decide +kernel)
  simp only [Bool.and_eq_true, beq_iff_eq] at hstray
  have hle := hall m hm 3 (by omega) (by omega)
  rw [show (3 - 1) / 2 = 1 from rfl, hstray.1.2, hstray.2] at hle
  exact absurd hle (by decide)

end Coroc.TimerHeap
