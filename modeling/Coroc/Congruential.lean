import Mathlib.NumberTheory.LucasPrimality
import Mathlib.Tactic.ReduceModChar
import Mathlib.Tactic.NormNum.Prime
import Mathlib.Data.Int.CardIntervalMod

/-!
# Multiplicative congruential generators

A generator multiplies its seed by a constant, modulo a prime.  When the constant generates the
multiplicative group, the seeds run through all non-zero residues before one comes back.
Nothing here mentions the runtime.

* `Generator.period_count`: in one period each non-zero residue comes once, so a condition on the
  seed is met as often as there are residues that meet it.
* `Generator.residue_count`: reduced once more, modulo a small number, each remainder comes
  equally often, up to one.
-/

namespace Coroc.Congruential

/-- A prime modulus and a generator of its multiplicative group. -/
structure Generator where
  modulus : ℕ
  multiplier : ℕ
  prime : modulus.Prime
  order : orderOf (multiplier : ZMod modulus) = modulus - 1

namespace Generator

variable (g : Generator)

instance : Fact g.modulus.Prime := ⟨g.prime⟩

def next (x : ℕ) : ℕ := g.multiplier * x % g.modulus

/-- The seeds: `0` is not one. -/
def seeds : Finset ℕ := Finset.Ioo 0 g.modulus

variable {g} {x y i j k n : ℕ}

theorem mem_seeds : x ∈ g.seeds ↔ 0 < x ∧ x < g.modulus := Finset.mem_Ioo

theorem card_seeds : g.seeds.card = g.modulus - 1 := by
  simp [seeds]

theorem cast_ne_zero (hx : x ∈ g.seeds) : (x : ZMod g.modulus) ≠ 0 := by
  rw [mem_seeds] at hx
  rw [Ne, ZMod.natCast_eq_zero_iff]
  exact Nat.not_dvd_of_pos_of_lt hx.1 hx.2

theorem cast_inj (hx : x ∈ g.seeds) (hy : y ∈ g.seeds) : (x : ZMod g.modulus) = y ↔ x = y := by
  rw [mem_seeds] at hx hy
  rw [ZMod.natCast_eq_natCast_iff', Nat.mod_eq_of_lt hx.2, Nat.mod_eq_of_lt hy.2]

theorem multiplier_ne_zero : (g.multiplier : ZMod g.modulus) ≠ 0 := by
  intro h0
  have hp := g.prime.two_le
  have hord := g.order
  rw [h0, orderOf_zero] at hord
  omega

theorem cast_next (x : ℕ) : (g.next x : ZMod g.modulus) = g.multiplier * x := by
  simp [next]

theorem next_mem (hx : x ∈ g.seeds) : g.next x ∈ g.seeds := by
  have hne : (g.next x : ZMod g.modulus) ≠ 0 := by
    rw [cast_next]
    exact mul_ne_zero multiplier_ne_zero (cast_ne_zero hx)
  refine mem_seeds.mpr ⟨Nat.pos_of_ne_zero ?_, Nat.mod_lt _ g.prime.pos⟩
  intro h0
  simp [h0] at hne

theorem iterate_mem (hx : x ∈ g.seeds) (k : ℕ) : g.next^[k] x ∈ g.seeds := by
  induction k with
  | zero => exact hx
  | succ k ih =>
    rw [Function.iterate_succ_apply']
    exact next_mem ih

theorem cast_iterate (x k : ℕ) :
    ((g.next^[k] x : ℕ) : ZMod g.modulus) = (g.multiplier : ZMod g.modulus) ^ k * x := by
  induction k with
  | zero => simp
  | succ k ih => rw [Function.iterate_succ_apply', cast_next, ih, pow_succ']; ring

/-- Two steps of the sequence are the same seed when they are a multiple of the period apart. -/
theorem iterate_eq_iff (hx : x ∈ g.seeds) : g.next^[i] x = g.next^[j] x ↔ i ≡ j [MOD g.modulus - 1] := by
  have hunit := pow_eq_pow_iff_modEq (x := Units.mk0 (g.multiplier : ZMod g.modulus) multiplier_ne_zero)
    (n := i) (m := j)
  rw [← orderOf_units, Units.val_mk0, g.order, Units.ext_iff, Units.val_pow_eq_pow_val,
    Units.val_pow_eq_pow_val, Units.val_mk0] at hunit
  rw [← cast_inj (iterate_mem hx i) (iterate_mem hx j), cast_iterate, cast_iterate,
    mul_left_inj' (cast_ne_zero hx), hunit]

theorem next_ne (hg : 2 < g.modulus) (hx : x ∈ g.seeds) : g.next x ≠ x := by
  intro heq
  have hmod := (iterate_eq_iff (i := 1) (j := 0) hx).mp heq
  have hone := Nat.dvd_one.mp ((Nat.modEq_zero_iff_dvd).mp hmod)
  omega

/-- One period of the sequence, from any seed, is all seeds. -/
theorem image_period (hx : x ∈ g.seeds) :
    (Finset.range (g.modulus - 1)).image (fun i => g.next^[i] x) = g.seeds := by
  refine Finset.eq_of_subset_of_card_le ?_ ?_
  · intro y hy
    obtain ⟨i, -, rfl⟩ := Finset.mem_image.mp hy
    exact iterate_mem hx i
  · rw [Finset.card_image_of_injOn, card_seeds, Finset.card_range]
    intro i hi j hj hij
    rw [Finset.coe_range, Set.mem_Iio] at hi hj
    exact Nat.ModEq.eq_of_lt_of_lt ((iterate_eq_iff hx).mp hij) hi hj

/-- **Full period.**  In one period a condition on the seed is met once by each seed that meets it. -/
theorem period_count (hx : x ∈ g.seeds) (p : ℕ → Prop) [DecidablePred p] :
    ((Finset.range (g.modulus - 1)).filter fun i => p (g.next^[i] x)).card = (g.seeds.filter p).card := by
  rw [← image_period hx, Finset.filter_image, Finset.card_image_of_injOn]
  intro i hi j hj hij
  have hi := Finset.mem_range.mp (Finset.mem_filter.mp hi).1
  have hj := Finset.mem_range.mp (Finset.mem_filter.mp hj).1
  exact Nat.ModEq.eq_of_lt_of_lt ((iterate_eq_iff hx).mp hij) hi hj

/-! ### Small numbers -/

theorem pred_modEq_iff (hj : j < n) : x ≡ j + n - 1 [MOD n] ↔ (x + 1) % n = j := by
  have hpred : j + n - 1 + 1 = j + n := Nat.sub_add_cancel (by omega)
  constructor
  · intro h
    have hsucc := h.add_right 1
    rw [hpred] at hsucc
    rw [hsucc, Nat.add_mod_right, Nat.mod_eq_of_lt hj]
  · intro h
    refine Nat.ModEq.add_right_cancel' 1 ?_
    rw [hpred, Nat.ModEq, h, Nat.add_mod_right, Nat.mod_eq_of_lt hj]

theorem seeds_residue (hn : 0 < n) (hj : j < n) : (g.modulus - 1) / n ≤ (g.seeds.filter (· % n = j)).card ∧
    (g.seeds.filter (· % n = j)).card ≤ (g.modulus - 1) / n + 1 := by
  have hp := g.prime.two_le
  have hshift : (g.seeds.filter (· % n = j)).card = (g.modulus - 1).count (· ≡ j + n - 1 [MOD n]) := by
    rw [Nat.count_eq_card_filter_range]
    refine (Finset.card_nbij (· + 1) ?_ ?_ ?_).symm
    · intro x hx
      rw [Finset.mem_coe, Finset.mem_filter, Finset.mem_range, pred_modEq_iff hj] at hx
      rw [Finset.mem_coe, Finset.mem_filter, mem_seeds]
      have hlt : x + 1 < g.modulus := by omega
      exact ⟨⟨Nat.succ_pos x, hlt⟩, hx.2⟩
    · intro x _ y _ h
      exact Nat.succ_injective h
    · intro y hy
      rw [Finset.mem_coe, Finset.mem_filter, mem_seeds] at hy
      obtain ⟨⟨hpos, hlt⟩, hmod⟩ := hy
      have hy' : y - 1 + 1 = y := Nat.sub_add_cancel hpos
      refine ⟨y - 1, ?_, hy'⟩
      rw [Finset.mem_coe, Finset.mem_filter, Finset.mem_range, pred_modEq_iff hj, hy']
      exact ⟨by omega, hmod⟩
  rw [hshift, Nat.count_modEq_card _ hn]
  split <;> omega

/-- The first `k` numbers drawn below `n`, from the seed `x`. -/
def draws (g : Generator) (n x k : ℕ) : List ℕ := (List.range k).map fun i => g.next^[i + 1] x % n

@[simp] theorem length_draws : (g.draws n x k).length = k := by
  simp [draws]

theorem draws_succ : g.draws n x (k + 1) = g.draws n x k ++ [g.next^[k + 1] x % n] := by
  simp [draws, List.range_succ]

/-- What is drawn after the first `i` numbers is drawn from the seed reached by then. -/
theorem draws_add : g.draws n x (i + k) = g.draws n x i ++ g.draws n (g.next^[i] x) k := by
  simp only [draws, List.range_add, List.map_append, List.map_map]
  congr 1
  refine List.map_congr_left ?_
  intro m _
  rw [Function.comp_apply, ← Function.iterate_add_apply]
  congr 2
  omega

/-- A stretch of what was drawn. -/
theorem draws_stretch {before stretch after : List ℕ} (h : g.draws n x k = before ++ stretch ++ after) :
    stretch = g.draws n (g.next^[before.length] x) stretch.length := by
  have hk : k = before.length + (stretch.length + after.length) := by
    rw [← length_draws (g := g) (n := n) (x := x) (k := k), h]
    simp
  rw [hk, draws_add, draws_add, List.append_assoc] at h
  obtain ⟨-, h⟩ := List.append_inj h length_draws
  exact (List.append_inj h length_draws).1.symm

/-- **Equal chances.**  In one period each number below `n` is drawn equally often, up to one. -/
theorem draws_count (hx : x ∈ g.seeds) (hn : 0 < n) (hj : j < n) :
    (g.modulus - 1) / n ≤ (g.draws n x (g.modulus - 1)).count j ∧
      (g.draws n x (g.modulus - 1)).count j ≤ (g.modulus - 1) / n + 1 := by
  have hcount : (g.draws n x (g.modulus - 1)).count j = (g.seeds.filter (· % n = j)).card := by
    rw [← period_count (next_mem hx), draws, List.count_eq_countP, List.countP_map,
      List.countP_eq_length_filter]
    simp only [Function.iterate_succ_apply]
    rfl
  rw [hcount]
  exact seeds_residue hn hj

end Generator
end Coroc.Congruential
