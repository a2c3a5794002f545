import Mathlib.Algebra.Group.Nat.Defs
import Mathlib.Data.Finset.Card
import Mathlib.Data.Finset.Insert
import Mathlib.Logic.Function.Basic
import Coroc.Transition

/-!
# Reference counts

`src/include/inter/refcnt.h`.  An object starts with a 32-bit count and a release handler;
`__coroc_refcnt_get` and `__coroc_refcnt_put` move the count, and `__coroc_refcnt_assign`
and `__coroc_refcnt_assign_expr` are built from them.

* `Counts` ties a heap of such objects to the number of references that exist to each of
  them; `Counts.get` and `Counts.put` say what the two operations do to it.
* `counts_exact`: over every sequence of the four operations on variables, the counts are
  the numbers of holders, the handlers run when the last holder goes, and no released object
  is touched, as long as no variable that is the only holder of its object is assigned its
  own value (and no object has `2 ^ 32` holders); a step of any other kind breaks this.
-/

namespace Coroc.RefCount

open Coroc.Transition

/-- The objects.  `released` and `faults` are not in the source: how often the release
    handler of an object has run, and the accesses to the count of an object after that. -/
structure Heap (R : Type) where
  count : R → UInt32
  released : R → Nat
  faults : List R

section Heap
variable {R : Type} [DecidableEq R]

namespace Heap

/-- An access to the count of an object. -/
def touch (h : Heap R) (r : R) : Heap R :=
  { h with faults := if 0 < h.released r then h.faults ++ [r] else h.faults }

/-- `coroc_refcnt_init`; `__CoroC_New` comes to the same. -/
def refcntInit (h : Heap R) (r : R) : Heap R := { h with count := Function.update h.count r 1 }

/-- `__coroc_refcnt_get`. -/
def refcntGet (h : Heap R) (r : R) : Heap R :=
  { h.touch r with count := Function.update h.count r (h.count r + 1) }

/-- `__coroc_refcnt_put`. -/
def refcntPut (h : Heap R) (ref : Option R) : Heap R :=
  match ref with
  | none => h
  | some r =>
    let n := h.count r - 1
    { h.touch r with
      count := Function.update h.count r n
      released := if n = 0 then Function.update h.released r (h.released r + 1) else h.released }

end Heap

/-- `n r` references to `r` exist: the count says so, and a released object has none. -/
structure Counts (h : Heap R) (n : R → Nat) : Prop where
  count : ∀ r, (h.count r).toNat = n r
  dead : ∀ r, 0 < h.released r → n r = 0

variable {h : Heap R} {n : R → Nat} {r : R}

theorem toNat_add_one (c : UInt32) : (c + 1).toNat = (c.toNat + 1) % 2 ^ 32 := by
  simp [UInt32.toNat_add]

theorem toNat_sub_one {c : UInt32} (hc : 0 < c.toNat) : (c - 1).toNat = c.toNat - 1 := by
  have hle : (1 : UInt32) ≤ c := by
    rw [UInt32.le_iff_toNat_le]
    exact hc
  rw [UInt32.toNat_sub_of_le _ _ hle]
  rfl

theorem sub_one_eq_zero (c : UInt32) : c - 1 = 0 ↔ c.toNat = 1 := by
  constructor
  · intro hc
    have hone : c = 1 := by
      rw [← UInt32.sub_add_cancel c 1, hc]
      rfl
    rw [hone]
    rfl
  · intro hc
    have hone : c = 1 := UInt32.toNat.inj hc
    rw [hone]
    rfl

omit [DecidableEq R] in
/-- An object to which a reference exists is not released. -/
theorem Counts.alive (hc : Counts h n) (hr : 0 < n r) : h.released r = 0 := by
  by_contra hne
  have := hc.dead r (by omega)
  omega

omit [DecidableEq R] in
theorem Heap.touch_alive (hr : h.released r = 0) : h.touch r = h := by
  unfold Heap.touch
  rw [if_neg (by omega)]

/-- One reference, or none. -/
def one (ref : Option R) (r : R) : Nat := if ref = some r then 1 else 0

@[simp]
theorem one_none (r : R) : one none r = 0 := rfl

@[simp]
theorem one_self (r : R) : one (some r) r = 1 := if_pos rfl

theorem one_ne {r' : R} (h : r' ≠ r) : one (some r) r' = 0 :=
  if_neg fun he => h (Option.some.inj he).symm

/-- **`__coroc_refcnt_get`** of an object to which a reference exists. -/
theorem Counts.get (hc : Counts h n) (hr : 0 < n r) (hlt : n r + 1 < 2 ^ 32) :
    Counts (h.refcntGet r) (fun x => n x + one (some r) x) ∧
      (h.refcntGet r).released = h.released ∧ (h.refcntGet r).faults = h.faults := by
  have halive := hc.alive hr
  unfold Heap.refcntGet
  rw [Heap.touch_alive halive]
  refine ⟨⟨fun r' => ?_, fun r' hd => ?_⟩, rfl, rfl⟩
  · by_cases he : r' = r
    · subst he
      simp only [Function.update_self, one_self]
      rw [toNat_add_one, hc.count, Nat.mod_eq_of_lt hlt]
    · simp only [Function.update_of_ne he, one_ne he]
      exact hc.count r'
  · have hne : r' ≠ r := by
      rintro rfl
      change 0 < h.released r' at hd
      omega
    simp only [one_ne hne]
    exact hc.dead r' hd

/-- **`__coroc_refcnt_put`** of one of the references: the handler runs if it was the last
    one. -/
theorem Counts.put {ref : Option R} (hc : Counts h fun r => n r + one ref r) :
    Counts (h.refcntPut ref) n ∧
      (∀ r, (h.refcntPut ref).released r =
        h.released r + if 0 < n r + one ref r ∧ n r = 0 then 1 else 0) ∧
      (h.refcntPut ref).faults = h.faults := by
  cases ref with
  | none =>
    refine ⟨hc, fun r => ?_, rfl⟩
    rw [if_neg (by simp only [one_none]; omega)]
    rfl
  | some r =>
    have hcount := hc.count r
    simp only [one_self] at hcount
    have hzero : h.count r - 1 = 0 ↔ n r = 0 := by
      rw [sub_one_eq_zero, hcount]
      omega
    have halive : h.released r = 0 := hc.alive (by simp)
    have hrel : ∀ r', (h.refcntPut (some r)).released r' =
        h.released r' + if 0 < n r' + one (some r) r' ∧ n r' = 0 then 1 else 0 := by
      intro r'
      by_cases he : r' = r
      · subst he
        by_cases hn : n r' = 0
        · simp [Heap.refcntPut, hzero.mpr hn, hn]
        · simp [Heap.refcntPut, mt hzero.mp hn, hn]
      · have hnot : ¬ (0 < n r' + 0 ∧ n r' = 0) := by omega
        rw [one_ne he, if_neg hnot]
        simp only [Heap.refcntPut]
        split
        · exact Function.update_of_ne he _ _
        · rfl
    refine ⟨⟨fun r' => ?_, fun r' hd => ?_⟩, hrel, ?_⟩
    · by_cases he : r' = r
      · subst he
        simp only [Heap.refcntPut, Function.update_self]
        rw [toNat_sub_one (by omega), hcount]
        rfl
      · simp only [Heap.refcntPut, Function.update_of_ne he]
        rw [hc.count r', one_ne he]
        rfl
    · rw [hrel] at hd
      split at hd
      · rename_i hlast
        exact hlast.2
      · have := hc.dead r' hd
        omega
    · change (h.touch r).faults = h.faults
      rw [Heap.touch_alive halive]

/-- A reference that is taken and given back at once. -/
theorem Counts.get_put (hc : Counts h n) (hr : 0 < n r) : (h.refcntGet r).refcntPut (some r) = h := by
  have halive := hc.alive hr
  have hcancel : h.count r + 1 - 1 = h.count r := UInt32.add_sub_cancel _ _
  have hpos : h.count r ≠ 0 := by
    intro h0
    have := hc.count r
    rw [h0] at this
    change 0 = n r at this
    omega
  have htouch : ∀ f : R → UInt32, ({ h with count := f } : Heap R).touch r = { h with count := f } :=
    fun f => Heap.touch_alive halive
  unfold Heap.refcntGet Heap.refcntPut
  rw [Heap.touch_alive halive]
  simp only [Function.update_self, hcancel, if_neg hpos, htouch, Function.update_idem,
    Function.update_eq_self]

end Heap

/-! ### Variables -/

/-- The reference variables that exist, with what they hold. -/
structure State (V R : Type) where
  heap : Heap R
  scope : Finset V
  val : V → Option R

section Variables
variable {V R : Type} [DecidableEq V] [DecidableEq R]

namespace State

/-- The variables that hold an object. -/
def holders (s : State V R) (r : R) : Nat := (s.scope.filter fun v => s.val v = some r).card

/-- `ref` is `NULL` or the value of some variable. -/
def held (s : State V R) (ref : Option R) : Bool :=
  match ref with
  | none => true
  | some r => 0 < s.holders r

/-- `__coroc_refcnt_assign`. -/
def refcntAssign (s : State V R) (dst : V) (ref : Option R) : State V R :=
  let h := s.heap.refcntPut (s.val dst)
  { s with
    heap := match ref with
      | none => h
      | some r => h.refcntGet r
    val := Function.update s.val dst ref }

/-- `__coroc_refcnt_assign_expr`. -/
def refcntAssignExpr (s : State V R) (dst : V) (ref : Option R) : State V R :=
  { s with
    heap := s.heap.refcntPut (s.val dst)
    val := Function.update s.val dst ref }

/-- The variables hold what the counts say. -/
def Exact (s : State V R) : Prop := Counts s.heap s.holders

end State

/-- The operations.  The fresh reference of an `assign_expr` is that of a new object or the
    result of a `get`. -/
inductive Op (V R : Type) where
  | get (v : V) (r : R)
  | put (v : V)
  | assign (dst : V) (ref : Option R)
  | assignNew (dst : V) (r : R)
  | assignGet (dst : V) (r : R)
deriving DecidableEq

/-- One operation: `get` is for a new variable, and what is assigned is the value of some
    variable. -/
def step (s : State V R) : Op V R → Option (State V R)
  | .get v r =>
    if v ∉ s.scope ∧ 0 < s.holders r then
      some { heap := s.heap.refcntGet r, scope := insert v s.scope, val := Function.update s.val v (some r) }
    else none
  | .put v =>
    if v ∈ s.scope then
      some { s with heap := s.heap.refcntPut (s.val v), scope := s.scope.erase v }
    else none
  | .assign dst ref =>
    if dst ∈ s.scope ∧ s.held ref then some (s.refcntAssign dst ref) else none
  | .assignNew dst r =>
    if dst ∈ s.scope ∧ s.holders r = 0 ∧ s.heap.released r = 0 then
      some (State.refcntAssignExpr { s with heap := s.heap.refcntInit r } dst (some r))
    else none
  | .assignGet dst r =>
    if dst ∈ s.scope ∧ 0 < s.holders r then
      some (State.refcntAssignExpr { s with heap := s.heap.refcntGet r } dst (some r))
    else none

variable {s s' : State V R} {v dst : V} {r : R} {ref : Option R}

/-- The holders besides `v`. -/
def State.others (s : State V R) (v : V) (r : R) : Nat :=
  ((s.scope.erase v).filter fun u => s.val u = some r).card

theorem State.holders_eq (hv : v ∈ s.scope) (r : R) : s.holders r = s.others v r + one (s.val v) r := by
  unfold State.holders State.others one
  conv_lhs => rw [← Finset.insert_erase hv, Finset.filter_insert]
  split
  · rw [Finset.card_insert_of_notMem (by simp)]
  · rfl

/-- The other variables do not see an assignment. -/
theorem State.others_update (s : State V R) (h : Heap R) (v : V) (ref : Option R) (r : R) :
    State.others { s with heap := h, val := Function.update s.val v ref } v r = s.others v r := by
  unfold State.others
  congr 1
  refine Finset.filter_congr fun u hu => ?_
  have hne : u ≠ v := Finset.ne_of_mem_erase hu
  simp only [Function.update_of_ne hne]

theorem State.holders_update (h : Heap R) (hv : v ∈ s.scope) (ref : Option R) (r : R) :
    State.holders { s with heap := h, val := Function.update s.val v ref } r =
      s.others v r + one ref r := by
  have heq := State.holders_eq
    (s := { s with heap := h, val := Function.update s.val v ref }) (v := v) hv r
  rw [heq, State.others_update]
  simp

theorem State.holders_insert (h : Heap R) (hv : v ∉ s.scope) (r r' : R) :
    State.holders ⟨h, insert v s.scope, Function.update s.val v (some r)⟩ r' =
      s.holders r' + one (some r) r' := by
  have hsame : (s.scope.filter fun u => Function.update s.val v (some r) u = some r') =
      s.scope.filter fun u => s.val u = some r' := by
    refine Finset.filter_congr fun u hu => ?_
    have hne : u ≠ v := fun he => hv (he ▸ hu)
    rw [Function.update_of_ne hne]
  unfold State.holders one
  simp only [Finset.filter_insert, Function.update_self, hsame]
  split
  · rw [Finset.card_insert_of_notMem (by simp [hv])]
  · rfl

/-- A step as it should be: the counts are exact after it, the handlers that ran are those of
    the objects whose last holder went, and no released object was touched. -/
structure StepGood (s s' : State V R) : Prop where
  exact : s'.Exact
  released : ∀ r, s'.heap.released r =
    s.heap.released r + if 0 < s.holders r ∧ s'.holders r = 0 then 1 else 0
  faults : s'.heap.faults = s.heap.faults

/-- A variable that is the only holder of its object is not assigned its own value, and no
    object gets `2 ^ 32` holders. -/
def Safe (s : State V R) : Op V R → Prop
  | .get _ r => s.holders r + 1 < 2 ^ 32
  | .put _ => True
  | .assign _ none => True
  | .assign dst (some r) => if s.val dst = some r then 2 ≤ s.holders r else s.holders r + 1 < 2 ^ 32
  | .assignNew _ _ => True
  | .assignGet dst r => s.val dst = some r ∨ s.holders r + 1 < 2 ^ 32

instance (s : State V R) (l : Op V R) : Decidable (Safe s l) :=
  match l with
  | .get _ r => inferInstanceAs (Decidable (s.holders r + 1 < 2 ^ 32))
  | .put _ | .assign _ none | .assignNew _ _ => isTrue trivial
  | .assign dst (some r) => inferInstanceAs (Decidable
      (if s.val dst = some r then 2 ≤ s.holders r else s.holders r + 1 < 2 ^ 32))
  | .assignGet dst r => inferInstanceAs (Decidable (s.val dst = some r ∨ s.holders r + 1 < 2 ^ 32))

theorem State.Exact.split (h : s.Exact) (hv : v ∈ s.scope) :
    Counts s.heap fun r => s.others v r + one (s.val v) r := by
  have hfun : (fun r => s.others v r + one (s.val v) r) = s.holders :=
    funext fun r => (State.holders_eq hv r).symm
  rw [hfun]
  exact h

omit [DecidableEq V] in
/-- An exact state has less than `2 ^ 32` holders of an object. -/
theorem State.Exact.holders_lt (h : s.Exact) (r : R) : s.holders r < 2 ^ 32 := by
  rw [← h.count r]
  exact UInt32.toNat_lt _

/-- The condition for a step of the source to be good, given its heap and holders. -/
theorem StepGood.of_put {h : Heap R} (hn : ∀ r, s'.holders r = s.others v r + one ref r)
    (hv : v ∈ s.scope) (hc : Counts h fun r => s.others v r + one ref r + one (s.val v) r)
    (hrel : ∀ r, h.released r = s.heap.released r) (hf : h.faults = s.heap.faults)
    (hheap : s'.heap = h.refcntPut (s.val v)) : StepGood s s' := by
  obtain ⟨hcounts, hreleased, hfaults⟩ := hc.put
  have hfun : (fun r => s.others v r + one ref r) = s'.holders := funext fun r => (hn r).symm
  refine ⟨?_, fun r => ?_, ?_⟩
  · unfold State.Exact
    rw [hheap, ← hfun]
    exact hcounts
  · rw [hheap, hreleased, hrel, hn, State.holders_eq hv]
    congr 1
    refine if_congr ?_ rfl rfl
    constructor
    · rintro ⟨h0, h1⟩
      exact ⟨by omega, h1⟩
    · rintro ⟨h0, h1⟩
      exact ⟨by omega, h1⟩
  · rw [hheap, hfaults, hf]

/-- The counts as in `s`, with a reference to a new variable or an assignment. -/
theorem StepGood.get (h : s.Exact) (hv : v ∉ s.scope) (hr : 0 < s.holders r)
    (hlt : s.holders r + 1 < 2 ^ 32) :
    StepGood s ⟨s.heap.refcntGet r, insert v s.scope, Function.update s.val v (some r)⟩ := by
  obtain ⟨hcounts, hreleased, hfaults⟩ := Counts.get h hr hlt
  have hn := State.holders_insert (s.heap.refcntGet r) hv r
  refine ⟨?_, fun r' => ?_, hfaults⟩
  · unfold State.Exact
    rw [funext hn]
    exact hcounts
  · rw [hn, if_neg (by omega), Nat.add_zero]
    exact congrFun hreleased r'

theorem StepGood.put (h : s.Exact) (hv : v ∈ s.scope) :
    StepGood s { s with heap := s.heap.refcntPut (s.val v), scope := s.scope.erase v } := by
  have hsplit : Counts s.heap fun r => s.others v r + one none r + one (s.val v) r := h.split hv
  exact .of_put (fun _ => rfl) hv hsplit (fun _ => rfl) rfl rfl

theorem StepGood.assign_none (h : s.Exact) (hv : dst ∈ s.scope) :
    StepGood s (s.refcntAssign dst none) :=
  .of_put (State.holders_update _ hv none) hv (h.split hv) (fun _ => rfl) rfl rfl

theorem StepGood.assignNew (h : s.Exact) (hv : dst ∈ s.scope) (hr : s.holders r = 0)
    (hnew : s.heap.released r = 0) :
    StepGood s (State.refcntAssignExpr { s with heap := s.heap.refcntInit r } dst (some r)) := by
  have hsplit := h.split hv
  have hzero := State.holders_eq hv r
  refine .of_put (State.holders_update _ hv (some r)) hv (h := s.heap.refcntInit r)
    ⟨fun r' => ?_, fun r' hd => ?_⟩ (fun _ => rfl) rfl rfl
  · by_cases he : r' = r
    · subst he
      simp only [Heap.refcntInit, Function.update_self, one_self]
      change 1 = _
      omega
    · simp only [Heap.refcntInit, Function.update_of_ne he, one_ne he]
      exact hsplit.count r'
  · have hne : r' ≠ r := by
      rintro rfl
      change 0 < s.heap.released r' at hd
      omega
    simp only [one_ne hne]
    exact hsplit.dead r' hd

theorem StepGood.assignGet (h : s.Exact) (hv : dst ∈ s.scope) (hr : 0 < s.holders r)
    (hok : s.val dst = some r ∨ s.holders r + 1 < 2 ^ 32) :
    StepGood s (State.refcntAssignExpr { s with heap := s.heap.refcntGet r } dst (some r)) := by
  have hn := State.holders_update ((s.heap.refcntGet r).refcntPut (s.val dst)) hv (some r)
  by_cases hval : s.val dst = some r
  · -- the count is where it was, even if it was at its limit
    have hheap : (s.heap.refcntGet r).refcntPut (s.val dst) = s.heap := by
      rw [hval]
      exact Counts.get_put h hr
    have hsame : State.holders
        (State.refcntAssignExpr { s with heap := s.heap.refcntGet r } dst (some r)) = s.holders := by
      funext r'
      rw [State.holders_eq hv r', hval]
      exact hn r'
    refine ⟨?_, fun r' => ?_, congrArg Heap.faults hheap⟩
    · unfold State.Exact
      rw [hsame]
      change Counts ((s.heap.refcntGet r).refcntPut (s.val dst)) s.holders
      rw [hheap]
      exact h
    · rw [hsame, if_neg (by omega), Nat.add_zero]
      exact congrArg (fun h => Heap.released h r') hheap
  · obtain ⟨hcounts, hreleased, hfaults⟩ := Counts.get h hr (hok.resolve_left hval)
    refine .of_put hn hv ?_ (fun r' => congrFun hreleased r') hfaults rfl
    have hfun : (fun x => s.others dst x + one (some r) x + one (s.val dst) x) =
        fun x => s.holders x + one (some r) x := by
      funext x
      rw [State.holders_eq hv x]
      omega
    rw [hfun]
    exact hcounts

/-- Another holder keeps the object alive between the put and the get. -/
theorem StepGood.assign_some (h : s.Exact) (hv : dst ∈ s.scope) (hr : 0 < s.others dst r)
    (hlt : s.others dst r + 1 < 2 ^ 32) : StepGood s (s.refcntAssign dst (some r)) := by
  obtain ⟨hput, hreleased, hfaults⟩ := (h.split hv).put
  obtain ⟨hget, hreleased', hfaults'⟩ := hput.get hr hlt
  have hn := State.holders_update ((s.heap.refcntPut (s.val dst)).refcntGet r) hv (some r)
  refine ⟨?_, fun r' => ?_, hfaults'.trans hfaults⟩
  · unfold State.Exact
    have hfun : (s.refcntAssign dst (some r)).holders = fun x => s.others dst x + one (some r) x :=
      funext hn
    rw [hfun]
    exact hget
  · have hholders : (s.refcntAssign dst (some r)).holders r' = s.others dst r' + one (some r) r' := hn r'
    have hstep : (s.refcntAssign dst (some r)).heap.released r' =
        (s.heap.refcntPut (s.val dst)).released r' := congrFun hreleased' r'
    rw [hstep, hreleased, hholders, State.holders_eq hv r']
    congr 1
    refine if_congr ?_ rfl rfl
    by_cases he : r' = r
    · subst he
      rw [one_self]
      omega
    · rw [one_ne he]
      rfl

/-- The only holder gives its object up before it takes it again. -/
theorem refcntAssign_faults (h : s.Exact) (hv : dst ∈ s.scope) (hval : s.val dst = some r)
    (hr : s.others dst r = 0) : (s.refcntAssign dst (some r)).heap.faults = s.heap.faults ++ [r] := by
  obtain ⟨-, hreleased, hfaults⟩ := (h.split hv).put
  have hdead : 0 < (s.heap.refcntPut (s.val dst)).released r := by
    rw [hreleased, hval, one_self, if_pos ⟨by omega, hr⟩]
    omega
  change (if 0 < (s.heap.refcntPut (s.val dst)).released r then
    (s.heap.refcntPut (s.val dst)).faults ++ [r] else _) = _
  rw [if_pos hdead, hfaults]

/-- **When a step is good**, in a state whose counts are exact. -/
theorem stepGood_iff {l : Op V R} (h : s.Exact) (hl : step s l = some s') :
    StepGood s s' ↔ Safe s l := by
  cases l with
  | get v r =>
    simp only [step] at hl
    split at hl
    · rename_i hc
      cases hl
      constructor
      · intro hg
        have hlt := hg.exact.holders_lt r
        rw [State.holders_insert _ hc.1, one_self] at hlt
        exact hlt
      · exact StepGood.get h hc.1 hc.2
    · cases hl
  | put v =>
    simp only [step] at hl
    split at hl
    · rename_i hv
      cases hl
      exact ⟨fun _ => trivial, fun _ => .put h hv⟩
    · cases hl
  | assign dst ref =>
    simp only [step] at hl
    split at hl
    · rename_i hc
      obtain ⟨hv, hheld⟩ := hc
      cases hl
      cases ref with
      | none => exact ⟨fun _ => trivial, fun _ => .assign_none h hv⟩
      | some r =>
        have hpos : 0 < s.holders r := by simpa [State.held] using hheld
        have hsplit := State.holders_eq hv r
        have hlt := h.holders_lt r
        by_cases hval : s.val dst = some r
        · rw [hval, one_self] at hsplit
          simp only [Safe, if_pos hval]
          constructor
          · intro hg
            by_contra hfew
            have hf := hg.faults
            rw [refcntAssign_faults h hv hval (by omega)] at hf
            simp at hf
          · intro hmany
            exact .assign_some h hv (by omega) (by omega)
        · rw [one, if_neg hval] at hsplit
          simp only [Safe, if_neg hval]
          constructor
          · intro hg
            have hlt' := hg.exact.holders_lt r
            have hn : (s.refcntAssign dst (some r)).holders r = s.others dst r + one (some r) r :=
              State.holders_update _ hv (some r) r
            rw [hn, one_self] at hlt'
            omega
          · intro hsmall
            exact .assign_some h hv (by omega) (by omega)
    · cases hl
  | assignNew dst r =>
    simp only [step] at hl
    split at hl
    · rename_i hc
      cases hl
      exact ⟨fun _ => trivial, fun _ => .assignNew h hc.1 hc.2.1 hc.2.2⟩
    · cases hl
  | assignGet dst r =>
    simp only [step] at hl
    split at hl
    · rename_i hc
      obtain ⟨hv, hpos⟩ := hc
      cases hl
      constructor
      · intro hg
        by_cases hval : s.val dst = some r
        · exact .inl hval
        · right
          have hlt := hg.exact.holders_lt r
          have hsplit := State.holders_eq hv r
          rw [one, if_neg hval] at hsplit
          have hn : State.holders (State.refcntAssignExpr { s with heap := s.heap.refcntGet r } dst
              (some r)) r = s.others dst r + one (some r) r := State.holders_update _ hv (some r) r
          rw [hn, one_self] at hlt
          omega
      · exact StepGood.assignGet h hv hpos
    · cases hl

/-- A start: the counts are the numbers of holders, and nothing has gone wrong. -/
structure Init (s : State V R) : Prop where
  exact : s.Exact
  faults : s.heap.faults = []

/-- **Exact counts** over every sequence of operations that are `Safe`: they stay exact, no
    released object is touched, and the next step is good if and only if it is `Safe`. -/
theorem counts_exact (h : Reach step Safe Init s) :
    s.Exact ∧ s.heap.faults = [] ∧ ∀ l s', step s l = some s' → (StepGood s s' ↔ Safe s l) := by
  have hinv : Init s := by
    refine h.invariant (fun _ h => h) fun s l s' hs hok hl => ?_
    have hgood := (stepGood_iff hs.exact hl).mpr hok
    exact ⟨hgood.exact, hgood.faults.trans hs.faults⟩
  exact ⟨hinv.exact, hinv.faults, fun l s' hl => stepGood_iff hinv.exact hl⟩

end Variables

/-- One variable that holds one object. -/
def oneHolder : State Nat Nat where
  heap := { count := fun r => if r = 0 then 1 else 0, released := fun _ => 0, faults := [] }
  scope := {0}
  val := fun _ => some 0

theorem oneHolder_init : Init oneHolder := by
  refine ⟨⟨fun r => ?_, fun r hd => ?_⟩, rfl⟩
  · by_cases hr : r = 0
    · subst hr
      rfl
    · simp [oneHolder, State.holders, hr, Ne.symm hr]
  · exact absurd hd (Nat.lt_irrefl 0)

/-- A second variable is made, and then the first may be assigned its own value. -/
theorem counts_exact_twoHolders : ∃ s s' : State Nat Nat, Reach step Safe Init s ∧
    step s (.assign 0 (some 0)) = some s' ∧ s.heap.faults = [] ∧ StepGood s s' := by
  have hreach : Reach step Safe Init oneHolder := .start oneHolder_init
  have hget : Safe oneHolder (.get 1 0) := by decide
  have hs := Reach.next (.get 1 0) hreach hget rfl
  obtain ⟨-, hfaults, hgood⟩ := counts_exact hs
  exact ⟨_, _, hs, rfl, hfaults, (hgood (.assign 0 (some 0)) _ rfl).mpr (by decide)⟩

/-- The only holder of an object is assigned its own value: the object is released, and its
    count is incremented after that. -/
theorem counts_not_exact : ∃ s s' : State Nat Nat, Init s ∧ step s (.assign 0 (some 0)) = some s' ∧
    s'.heap.released 0 = 1 ∧ s'.heap.faults = [0] ∧ ¬ StepGood s s' := by
  refine ⟨oneHolder, _, oneHolder_init, rfl, by decide, by decide, fun hgood => ?_⟩
  exact absurd hgood.faults (by decide)

end Coroc.RefCount
