import Mathlib.Order.Lattice
import Mathlib.Logic.Function.Basic

/-!
# Heap order of a binary heap laid out in an array

The keys of the array are a function `k : Nat → α` of the position, of which the
first `n` positions are used.  A sift exchanges neighbours on a root path, so its
loop invariant is heap order with the pairs around one position left out:

* `SiftUp k n cur`: only the pair (parent of `cur`, `cur`) may be out of order;
* `SiftDown k n cur`: only the pairs (`cur`, child of `cur`) may be out of order.

In both, the children of `cur` are not below the parent of `cur`, which is what
lets an exchange repair the pair without breaking the one above or below it.
-/

namespace Coroc.ArrayHeap

variable {α : Type}

/-- The parent of a position (`0` for the root). -/
def parent (i : Nat) : Nat := (i - 1) / 2

/-- Every used position is at or above its parent. -/
def HeapOrdered [LE α] (k : Nat → α) (n : Nat) : Prop :=
  ∀ i, 0 < i → i < n → k (parent i) ≤ k i

/-- The keys after the contents of positions `a` and `b` are exchanged. -/
def exchange (k : Nat → α) (a b : Nat) : Nat → α :=
  fun i => if i = a then k b else if i = b then k a else k i

@[simp] theorem exchange_left (k : Nat → α) (a b : Nat) : exchange k a b a = k b := by
  simp [exchange]

@[simp] theorem exchange_right (k : Nat → α) (a b : Nat) : exchange k a b b = k a := by
  by_cases h : b = a
  · subst h; simp [exchange]
  · simp [exchange, h]

theorem exchange_other (k : Nat → α) {a b i : Nat} (ha : i ≠ a) (hb : i ≠ b) :
    exchange k a b i = k i := by
  simp [exchange, ha, hb]

theorem parent_lt {i : Nat} (h : 0 < i) : parent i < i := by
  unfold parent; omega

/-- The two positions whose parent is `p`. -/
theorem parent_eq_iff {i p : Nat} (h : 0 < i) :
    parent i = p ↔ i = 2 * p + 1 ∨ i = 2 * p + 2 := by
  unfold parent; omega

variable [LinearOrder α]

/-- The root of an ordered heap carries the least key. -/
theorem HeapOrdered.root_le {k : Nat → α} {n : Nat} (h : HeapOrdered k n) :
    ∀ i, i < n → k 0 ≤ k i := by
  intro i
  induction i using Nat.strongRecOn with
  | ind i ih =>
    intro hi
    rcases Nat.eq_zero_or_pos i with rfl | hpos
    · exact le_refl _
    · have hp := parent_lt hpos
      exact le_trans (ih (parent i) hp (by omega)) (h i hpos hi)

/-- Heap order reads the used positions only. -/
theorem HeapOrdered.congr {k k' : Nat → α} {n : Nat} (hk : ∀ i, i < n → k i = k' i)
    (h : HeapOrdered k n) : HeapOrdered k' n := by
  intro i hpos hi
  have hp := parent_lt hpos
  rw [← hk i hi, ← hk (parent i) (by omega)]
  exact h i hpos hi

/-- Heap order of a prefix. -/
theorem HeapOrdered.mono {k : Nat → α} {m n : Nat} (h : HeapOrdered k n) (hmn : m ≤ n) :
    HeapOrdered k m :=
  fun i hpos hi => h i hpos (by omega)

/-! ### Sifting up -/

/-- Ordered except possibly between `cur` and its parent. -/
structure SiftUp (k : Nat → α) (n cur : Nat) : Prop where
  rest : ∀ i, 0 < i → i < n → i ≠ cur → k (parent i) ≤ k i
  grand : 0 < cur → ∀ c, 0 < c → c < n → parent c = cur → k (parent cur) ≤ k c

theorem SiftUp.done {k : Nat → α} {n cur : Nat} (h : SiftUp k n cur)
    (hcur : 0 < cur → k (parent cur) ≤ k cur) : HeapOrdered k n := by
  intro i hpos hi
  by_cases hic : i = cur
  · subst hic; exact hcur hpos
  · exact h.rest i hpos hi hic

theorem SiftUp.exchange {k : Nat → α} {n cur : Nat} (h : SiftUp k n cur)
    (hpos : 0 < cur) (hn : cur < n) (hlt : k cur < k (parent cur)) :
    SiftUp (exchange k cur (parent cur)) n (parent cur) := by
  have hpc : parent cur < cur := parent_lt hpos
  have hup : 0 < parent cur → k (parent (parent cur)) ≤ k (parent cur) := fun hp =>
    h.rest (parent cur) hp (by omega) (by omega)
  constructor
  · intro i hi0 hi hip
    by_cases hic : i = cur
    · subst hic
      rw [exchange_right, exchange_left]
      exact le_of_lt hlt
    · rw [exchange_other k hic hip]
      by_cases hpi : parent i = cur
      · -- a child of `cur`, now below the old parent
        rw [hpi, exchange_left]
        exact h.grand hpos i hi0 hi hpi
      · by_cases hpp : parent i = parent cur
        · -- the sibling of `cur`, now below the smaller key
          rw [hpp, exchange_right]
          exact le_trans (le_of_lt hlt) (hpp ▸ h.rest i hi0 hi hic)
        · rw [exchange_other k hpi hpp]
          exact h.rest i hi0 hi hic
  · intro hp c hc0 hc hpc'
    have hgp : parent (parent cur) < parent cur := parent_lt hp
    rw [exchange_other k (by omega : parent (parent cur) ≠ cur) (by omega)]
    by_cases hcc : c = cur
    · subst hcc
      rw [exchange_left]
      exact hup hp
    · have hcp : c ≠ parent cur := by
        intro heq
        have := parent_lt hc0
        omega
      rw [exchange_other k hcc hcp]
      exact le_trans (hup hp) (hpc' ▸ h.rest c hc0 hc hcc)

/-! ### Sifting down -/

/-- Ordered except possibly between `cur` and its children. -/
structure SiftDown (k : Nat → α) (n cur : Nat) : Prop where
  rest : ∀ i, 0 < i → i < n → parent i ≠ cur → k (parent i) ≤ k i
  grand : 0 < cur → ∀ c, 0 < c → c < n → parent c = cur → k (parent cur) ≤ k c

theorem SiftDown.congr {k k' : Nat → α} {n cur : Nat} (hk : ∀ i, i < n → k i = k' i)
    (hcur : cur < n) (h : SiftDown k n cur) : SiftDown k' n cur := by
  constructor
  · intro i hpos hi hpi
    have hp := parent_lt hpos
    rw [← hk i hi, ← hk (parent i) (by omega)]
    exact h.rest i hpos hi hpi
  · intro hpos c hc0 hc hpc
    have hp := parent_lt hpos
    rw [← hk c hc, ← hk (parent cur) (by omega)]
    exact h.grand hpos c hc0 hc hpc

theorem SiftDown.done {k : Nat → α} {n cur : Nat} (h : SiftDown k n cur)
    (hcur : ∀ c, 0 < c → c < n → parent c = cur → k cur ≤ k c) : HeapOrdered k n := by
  intro i hpos hi
  by_cases hic : parent i = cur
  · rw [hic]; exact hcur i hpos hi hic
  · exact h.rest i hpos hi hic

/-- Exchanging `cur` with its least child `c` moves the defect to `c`. -/
theorem SiftDown.exchange {k : Nat → α} {n cur c : Nat} (h : SiftDown k n cur)
    (hc0 : 0 < c) (hcn : c < n) (hpc : parent c = cur) (hlt : k c < k cur)
    (hmin : ∀ d, 0 < d → d < n → parent d = cur → k c ≤ k d) :
    SiftDown (exchange k cur c) n c := by
  have hcc : cur < c := hpc ▸ parent_lt hc0
  constructor
  · intro i hi0 hi hpi
    by_cases hic : i = c
    · subst hic
      rw [exchange_right, hpc, exchange_left]
      exact le_of_lt hlt
    · by_cases hicur : i = cur
      · -- the pair above `cur`: the child that moves up was not below the grandparent
        subst hicur
        have hgp := parent_lt hi0
        rw [exchange_left, exchange_other k (by omega : parent i ≠ i) (by omega)]
        exact h.grand hi0 c hc0 hcn hpc
      · rw [exchange_other k hicur hic]
        by_cases hpcur : parent i = cur
        · rw [hpcur, exchange_left]
          exact hmin i hi0 hi hpcur
        · rw [exchange_other k hpcur hpi]
          exact h.rest i hi0 hi hpcur
  · intro _ d hd0 hd hpd
    have hdc : c < d := hpd ▸ parent_lt hd0
    rw [hpc, exchange_left, exchange_other k (by omega : d ≠ cur) (by omega)]
    have := h.rest d hd0 hd (by omega)
    rwa [hpd] at this

/-! ### Starting points of the sifts -/

/-- Appending one element leaves at most the new pair out of order. -/
theorem HeapOrdered.siftUp_append {k : Nat → α} {n : Nat} (h : HeapOrdered k n) (a : α) :
    SiftUp (Function.update k n a) (n + 1) n := by
  constructor
  · intro i hpos hi hin
    have hp := parent_lt hpos
    rw [Function.update_of_ne hin, Function.update_of_ne (by omega : parent i ≠ n)]
    exact h i hpos (by omega)
  · intro _ c hc0 hc hpc
    have := parent_lt hc0
    omega

/-- Overwriting the key at `cur` by one that is not below the parent's leaves at
    most the pairs below `cur` out of order. -/
theorem HeapOrdered.siftDown_update {k : Nat → α} {n cur : Nat} {a : α} (h : HeapOrdered k n)
    (hcn : cur < n) (ha : 0 < cur → k (parent cur) ≤ a) :
    SiftDown (Function.update k cur a) n cur := by
  constructor
  · intro i hpos hi hpi
    rw [Function.update_of_ne hpi]
    by_cases hic : i = cur
    · subst hic
      rw [Function.update_self]
      exact ha hpos
    · rw [Function.update_of_ne hic]
      exact h i hpos hi
  · intro hpos c hc0 hc hpc
    have hcc := parent_lt hc0
    have hpp := parent_lt hpos
    rw [Function.update_of_ne (by omega : c ≠ cur),
      Function.update_of_ne (by omega : parent cur ≠ cur)]
    exact le_trans (h cur hpos hcn) (hpc ▸ h c hc0 hc)

end Coroc.ArrayHeap
