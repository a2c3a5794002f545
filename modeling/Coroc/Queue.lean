import Mathlib.Algebra.Group.Nat.Defs
import Coroc.LinkedList

/-!
# The intrusive queue (`src/include/inter/coroc_queue.h`)

A queue links the items themselves: `next`, `prev` and `que` are fields of the item, `head`,
`tail` and `status` (a `uint32_t`, the number of items) those of the queue.  The functions below
are those of the header; `none` is a `NULL` that is followed, or an `assert` that fails.

* `Lists` is what the queues stand for, a list of items each, with the operations append,
  pop-front and remove-if-present.
* `Represents` connects the two, and `queues_are_lists` is the result: any sequence of calls on
  any number of queues does what it does on the lists.
-/

namespace Coroc.Queue

open Coroc.LinkedList Function

/-- The fields of all items and queues.  An owner is a pointer that is not `NULL`. -/
structure Heap (ι κ ω : Type) where
  next : ι → Option ι
  prev : ι → Option ι
  que : ι → Option κ
  owner : ι → ω
  head : κ → Option ι
  tail : κ → Option ι
  status : κ → UInt32

variable {ι κ ω : Type} [DecidableEq ι] [DecidableEq κ]

/-! ### The source -/

/-- `queue_item_init`. -/
def queueItemInit (h : Heap ι κ ω) (item : ι) (owner : ω) : Heap ι κ ω :=
  { h with
    next := update h.next item none
    prev := update h.prev item none
    que := update h.que item none
    owner := update h.owner item owner }

/-- `queue_init`. -/
def queueInit (h : Heap ι κ ω) (queue : κ) : Heap ι κ ω :=
  { h with
    head := update h.head queue none
    tail := update h.tail queue none
    status := update h.status queue 0 }

/-- `queue_link`. -/
def queueLink (h : Heap ι κ ω) (item1 item2 : ι) : Heap ι κ ω :=
  { h with
    next := update h.next item1 (some item2)
    prev := update h.prev item2 (some item1) }

/-- `queue_add`. -/
def queueAdd (h : Heap ι κ ω) (queue : κ) (item : ι) : Option (Heap ι κ ω) :=
  let h := { h with next := update h.next item none }
  let placed :=
    if h.status queue = 0 then
      some { h with
        head := update h.head queue (some item)
        tail := update h.tail queue (some item) }
    else (h.tail queue).map fun t => { h with
      next := update h.next t (some item)
      prev := update h.prev item (some t)
      tail := update h.tail queue (some item) }
  placed.map fun h => { h with
    que := update h.que item (some queue)
    status := update h.status queue (h.status queue + 1) }

/-- `queue_add_range`. -/
def queueAddRange (h : Heap ι κ ω) (queue : κ) (n : UInt32) (src dst : ι) : Option (Heap ι κ ω) :=
  let placed :=
    if h.status queue = 0 then
      some { h with
        head := update h.head queue (some src)
        tail := update h.tail queue (some dst) }
    else (h.tail queue).map fun t => { h with
      next := update h.next t (some src)
      prev := update h.prev src (some t)
      tail := update h.tail queue (some dst) }
  placed.map fun h => { h with
    que := update (update h.que src (some queue)) dst (some queue)
    next := update h.next dst none
    status := update h.status queue (h.status queue + n) }

/-- `queue_rem`; the owner is `none` when the queue is empty. -/
def queueRem (h : Heap ι κ ω) (queue : κ) : Option (Option ω × Heap ι κ ω) :=
  if h.status queue = 0 then some (none, h)
  else (h.head queue).map fun kitem =>
    let h := { h with head := update h.head queue (h.next kitem) }
    let h := match h.head queue with
      | some x => { h with prev := update h.prev x none }
      | none => { h with tail := update h.tail queue (h.head queue) }
    (some (h.owner kitem), { h with
      status := update h.status queue (h.status queue - 1)
      prev := update h.prev kitem none
      next := update h.next kitem none
      que := update h.que kitem none })

/-- `queue_extract`. -/
def queueExtract (h : Heap ι κ ω) (queue : κ) (item : ι) : Option (Heap ι κ ω) :=
  if h.que item ≠ some queue then some h
  else if 0 < h.status queue then
    let h := match h.prev item with
      | some p => { h with next := update h.next p (h.next item) }
      | none => { h with head := update h.head queue (h.next item) }
    let h := match h.next item with
      | some n => { h with prev := update h.prev n (h.prev item) }
      | none => { h with tail := update h.tail queue (h.prev item) }
    some { h with
      status := update h.status queue (h.status queue - 1)
      prev := update h.prev item none
      next := update h.next item none
      que := update h.que item none }
  else none

/-! ### Lists of items -/

/-- What the queues hold, in order, and the owners of the items that are initialised. -/
structure Lists (ι κ ω : Type) where
  queues : κ → List ι
  owner : ι → Option ω

namespace Lists

def empty : Lists ι κ ω := ⟨fun _ => [], fun _ => none⟩

def Live (s : Lists ι κ ω) (x : ι) : Prop := s.owner x ≠ none

/-- The item is in no queue. -/
def Free (s : Lists ι κ ω) (x : ι) : Prop := ∀ q, x ∉ s.queues q

def setQueue (s : Lists ι κ ω) (q : κ) (l : List ι) : Lists ι κ ω :=
  { s with queues := update s.queues q l }

def append (s : Lists ι κ ω) (q : κ) (x : ι) : Lists ι κ ω := s.setQueue q (s.queues q ++ [x])

end Lists

inductive Op (ι κ ω : Type) where
  | init (item : ι) (owner : ω)
  | add (queue : κ) (item : ι)
  | rem (queue : κ)
  | extract (queue : κ) (item : ι)

/-- One call on the queues, with the pointer it returns. -/
def Heap.exec (h : Heap ι κ ω) : Op ι κ ω → Option (Option ω × Heap ι κ ω)
  | .init x w => some (none, queueItemInit h x w)
  | .add q x => (queueAdd h q x).map fun h => (none, h)
  | .rem q => queueRem h q
  | .extract q x => (queueExtract h q x).map fun h => (none, h)

/-- One call on the lists. -/
def Lists.exec (s : Lists ι κ ω) : Op ι κ ω → Option ω × Lists ι κ ω
  | .init x w => (none, { s with owner := update s.owner x (some w) })
  | .add q x => (none, s.append q x)
  | .rem q => match s.queues q with
    | [] => (none, s)
    | x :: l => (s.owner x, s.setQueue q l)
  | .extract q x => (none, s.setQueue q ((s.queues q).erase x))

def Heap.run (h : Heap ι κ ω) : List (Op ι κ ω) → Option (List (Option ω) × Heap ι κ ω)
  | [] => some ([], h)
  | op :: ops => (h.exec op).bind fun p => (Heap.run p.2 ops).map fun r => (p.1 :: r.1, r.2)

def Lists.run (s : Lists ι κ ω) : List (Op ι κ ω) → List (Option ω) × Lists ι κ ω
  | [] => ([], s)
  | op :: ops => ((s.exec op).1 :: (Lists.run (s.exec op).2 ops).1, (Lists.run (s.exec op).2 ops).2)

/-- What the callers see to: only an item in no queue is initialised or added, and only items
    that were initialised are used. -/
def Proper (s : Lists ι κ ω) : Op ι κ ω → Prop
  | .init x _ => s.Free x
  | .add _ x => s.Live x ∧ s.Free x
  | .rem _ => True
  | .extract _ x => s.Live x

/-- The number of items fits in `status`. -/
def Counted (s : Lists ι κ ω) : Op ι κ ω → Prop
  | .add q _ => (s.queues q).length + 1 < 2 ^ 32
  | _ => True

/-- Every call of the sequence satisfies `P` where it is made. -/
def RunOk (P : Lists ι κ ω → Op ι κ ω → Prop) (s : Lists ι κ ω) : List (Op ι κ ω) → Prop
  | [] => True
  | op :: ops => P s op ∧ RunOk P (s.exec op).2 ops

/-! ### The relation -/

/-- The queues are the lists: following `next` from the head and `prev` from the tail one visits
    the items of the list, in opposite orders; `status` is their number; `que` names the queue of
    an item; and an item in no queue has no links. -/
structure Represents (h : Heap ι κ ω) (s : Lists ι κ ω) : Prop where
  linked : ∀ q, Linked h.next h.prev (h.head q) (h.tail q) (s.queues q)
  status : ∀ q, (h.status q).toNat = (s.queues q).length
  que : ∀ x, s.Live x → ∀ q, h.que x = some q ↔ x ∈ s.queues q
  free : ∀ x, s.Live x → s.Free x → h.next x = none ∧ h.prev x = none
  owner : ∀ x w, s.owner x = some w → h.owner x = w
  live : ∀ q, ∀ x ∈ s.queues q, s.Live x

variable {h : Heap ι κ ω} {s : Lists ι κ ω} {q q' : κ} {x y : ι} {l₁ l₂ : List ι}

namespace Represents

omit [DecidableEq ι] [DecidableEq κ] in
theorem unique (h' : Represents h s) (hx : x ∈ s.queues q) (hx' : x ∈ s.queues q') : q = q' := by
  have hlive := h'.live q x hx
  have heq := (h'.que x hlive q).mpr hx
  rw [(h'.que x hlive q').mpr hx'] at heq
  exact (Option.some.inj heq).symm

omit [DecidableEq ι] [DecidableEq κ] in
theorem apart (h' : Represents h s) (hx : x ∈ s.queues q) (hne : q' ≠ q) : x ∉ s.queues q' :=
  fun hx' => hne (h'.unique hx' hx)

omit [DecidableEq ι] [DecidableEq κ] in
theorem status_eq_zero (h' : Represents h s) : h.status q = 0 ↔ s.queues q = [] := by
  rw [← UInt32.toNat_inj, h'.status q]
  exact List.length_eq_zero_iff

end Represents

/-! ### Initialising an item -/

omit [DecidableEq κ] in
theorem Represents.init (h' : Represents h s) (hfree : s.Free x) (w : ω) :
    Represents (queueItemInit h x w) { s with owner := update s.owner x (some w) } where
  linked q := (h'.linked q).congr (update_apart (hfree q)) (update_apart (hfree q))
  status := h'.status
  que y hlive q := by
    change update h.que x none y = some q ↔ y ∈ s.queues q
    by_cases hy : y = x
    · subst hy
      rw [update_self]
      exact ⟨nofun, fun hmem => absurd hmem (hfree q)⟩
    · rw [update_of_ne hy]
      refine h'.que y ?_ q
      change update s.owner x (some w) y ≠ none at hlive
      rwa [update_of_ne hy] at hlive
  free y hlive hy := by
    change update h.next x none y = none ∧ update h.prev x none y = none
    by_cases hyx : y = x
    · subst hyx
      simp only [update_self, and_self]
    · change update s.owner x (some w) y ≠ none at hlive
      simp only [update_of_ne hyx] at hlive ⊢
      exact h'.free y hlive hy
  owner y v hv := by
    change update s.owner x (some w) y = some v at hv
    change update h.owner x w y = v
    by_cases hyx : y = x
    · subst hyx
      rw [update_self] at hv ⊢
      exact Option.some.inj hv
    · rw [update_of_ne hyx] at hv ⊢
      exact h'.owner y v hv
  live q y hy := by
    change update s.owner x (some w) y ≠ none
    have hyx : y ≠ x := by
      rintro rfl
      exact hfree q hy
    rw [update_of_ne hyx]
    exact h'.live q y hy

/-! ### Adding an item -/

omit [DecidableEq ι] in
theorem Lists.mem_append : y ∈ (s.append q x).queues q' ↔ y ∈ s.queues q' ∨ q' = q ∧ y = x := by
  change y ∈ update s.queues q (s.queues q ++ [x]) q' ↔ _
  by_cases hq : q' = q
  · subst hq
    simp
  · simp [hq]

omit [DecidableEq ι] in
theorem Lists.Free.of_append (hy : (s.append q x).Free y) : s.Free y ∧ y ≠ x :=
  ⟨fun q' hmem => hy q' (mem_append.mpr (.inl hmem)), fun heq => hy q (mem_append.mpr (.inr ⟨rfl, heq⟩))⟩

/-- The memory after `queue_add`, in both of its cases. -/
def added (h : Heap ι κ ω) (q : κ) (x : ι) : Heap ι κ ω where
  next := (redirect (update h.next x none) (h.head q) (h.tail q) (some x)).1
  prev := update h.prev x (h.tail q)
  que := update h.que x (some q)
  owner := h.owner
  head := update h.head q (redirect (update h.next x none) (h.head q) (h.tail q) (some x)).2
  tail := update h.tail q (some x)
  status := update h.status q (h.status q + 1)

/-- `queue_add` leaves `prev` of the first item as it was, which is `NULL` for an item that is in
    no queue. -/
theorem queueAdd_eq (h' : Represents h s) (hprev : h.prev x = none) : queueAdd h q x = some (added h q x) := by
  have htail := (h'.linked q).tail_eq
  unfold queueAdd added
  by_cases hempty : h.status q = 0
  · rw [h'.status_eq_zero.mp hempty, List.getLast?_nil] at htail
    have hsame : update h.prev x none = h.prev := by rw [← hprev, update_eq_self]
    simp only [if_pos hempty, Option.map_some, htail, hsame, redirect]
  · obtain ⟨t, ht⟩ : ∃ t, (s.queues q).getLast? = some t :=
      Option.ne_none_iff_exists'.mp fun hnone => hempty (h'.status_eq_zero.mpr (List.getLast?_eq_none_iff.mp hnone))
    rw [ht] at htail
    simp only [if_neg hempty, Option.map_some, htail, redirect, update_eq_self]

theorem Represents.added (h' : Represents h s) (hlive : s.Live x) (hfree : s.Free x)
    (hcount : (s.queues q).length + 1 < 2 ^ 32) : Represents (added h q x) (s.append q x) where
  linked q' := by
    change Linked (redirect (update h.next x none) (h.head q) (h.tail q) (some x)).1
      (update h.prev x (h.tail q))
      (update h.head q (redirect (update h.next x none) (h.head q) (h.tail q) (some x)).2 q')
      (update h.tail q (some x) q') (update s.queues q (s.queues q ++ [x]) q')
    by_cases hq : q' = q
    · subst hq
      simp only [update_self]
      exact (h'.linked q').append (hfree q')
    · simp only [update_of_ne hq]
      refine (h'.linked q').congr (fun y hy => ?_) (update_apart (hfree q'))
      rw [redirect_of_ne, update_apart (hfree q') y hy]
      intro hlast
      rw [(h'.linked q).tail_eq] at hlast
      exact h'.apart (List.mem_of_getLast? hlast) hq hy
  status q' := by
    change (update h.status q (h.status q + 1) q').toNat = (update s.queues q (s.queues q ++ [x]) q').length
    by_cases hq : q' = q
    · subst hq
      rw [update_self, update_self, UInt32.toNat_add, h'.status q', List.length_append]
      exact Nat.mod_eq_of_lt hcount
    · rw [update_of_ne hq, update_of_ne hq, h'.status q']
  que y hy q' := by
    change update h.que x (some q) y = some q' ↔ _
    rw [Lists.mem_append]
    by_cases hyx : y = x
    · subst hyx
      rw [update_self, Option.some_inj]
      exact ⟨fun heq => .inr ⟨heq.symm, rfl⟩, fun hmem => (hmem.resolve_left (hfree q')).1.symm⟩
    · rw [update_of_ne hyx, h'.que y hy q']
      exact ⟨.inl, fun hmem => hmem.resolve_right fun heq => hyx heq.2⟩
  free y hy hyfree := by
    obtain ⟨hyold, hyx⟩ := hyfree.of_append
    change (redirect (update h.next x none) (h.head q) (h.tail q) (some x)).1 y = none ∧
      update h.prev x (h.tail q) y = none
    rw [redirect_of_ne, update_of_ne hyx, update_of_ne hyx]
    · exact h'.free y hy hyold
    · intro hlast
      rw [(h'.linked q).tail_eq] at hlast
      exact hyold q (List.mem_of_getLast? hlast)
  owner := h'.owner
  live q' y hy := by
    rcases Lists.mem_append.mp hy with hold | ⟨_, rfl⟩
    · exact h'.live q' y hold
    · exact hlive

/-! ### Removing an item -/

/-- The memory after `queue_rem` of `x`, and after `queue_extract` of it. -/
def unlinked (h : Heap ι κ ω) (q : κ) (x : ι) : Heap ι κ ω where
  next := update (redirect h.next (h.head q) (h.prev x) (h.next x)).1 x none
  prev := update (redirect h.prev (h.tail q) (h.next x) (h.prev x)).1 x none
  que := update h.que x none
  owner := h.owner
  head := update h.head q (redirect h.next (h.head q) (h.prev x) (h.next x)).2
  tail := update h.tail q (redirect h.prev (h.tail q) (h.next x) (h.prev x)).2
  status := update h.status q (h.status q - 1)

section

variable (h' : Represents h s) (hx : s.queues q = l₁ ++ x :: l₂)

include h' hx

omit [DecidableEq ι] in
theorem Represents.mem_setQueue : y ∈ (s.setQueue q (l₁ ++ l₂)).queues q' ↔ y ∈ s.queues q' ∧ y ≠ x := by
  have hnodup := (h'.linked q).nodup
  rw [hx] at hnodup
  have hnot : x ∉ l₁ ++ l₂ := (List.nodup_middle.mp hnodup).notMem
  have hmem : x ∈ s.queues q := by
    rw [hx]
    exact List.mem_append_right _ List.mem_cons_self
  change y ∈ update s.queues q (l₁ ++ l₂) q' ↔ _
  by_cases hq : q' = q
  · subst hq
    rw [update_self, hx]
    constructor
    · intro hy
      refine ⟨?_, fun heq => hnot (heq ▸ hy)⟩
      rcases List.mem_append.mp hy with hfirst | hrest
      · exact List.mem_append_left _ hfirst
      · exact List.mem_append_right _ (List.mem_cons_of_mem _ hrest)
    · rintro ⟨hy, hyx⟩
      rcases List.mem_append.mp hy with hfirst | hrest
      · exact List.mem_append_left _ hfirst
      · exact List.mem_append_right _ ((List.mem_cons.mp hrest).resolve_left hyx)
  · rw [update_of_ne hq]
    refine ⟨fun hy => ⟨hy, ?_⟩, And.left⟩
    rintro rfl
    exact h'.apart hmem hq hy

/-- Nothing outside of the queue changes. -/
theorem Represents.unlinked_of_notMem (hy : y ∉ s.queues q) :
    (unlinked h q x).next y = h.next y ∧ (unlinked h q x).prev y = h.prev y := by
  have hlinked := h'.linked q
  rw [hx] at hlinked hy
  have hyx : y ≠ x := by
    rintro rfl
    exact hy (List.mem_append_right _ List.mem_cons_self)
  constructor
  · refine (update_of_ne hyx _ _).trans (redirect_of_ne fun hlast => hy ?_)
    rw [hlinked.prev_eq] at hlast
    exact List.mem_append_left _ (List.mem_of_getLast? hlast)
  · refine (update_of_ne hyx _ _).trans (redirect_of_ne fun hfirst => hy ?_)
    rw [hlinked.next_eq] at hfirst
    exact List.mem_append_right _ (List.mem_cons_of_mem _ (List.mem_of_head? hfirst))

theorem Represents.unlinked : Represents (unlinked h q x) (s.setQueue q (l₁ ++ l₂)) where
  linked q' := by
    by_cases hq : q' = q
    · subst hq
      have hlinked := h'.linked q'
      rw [hx] at hlinked
      have hnot : x ∉ l₁ ++ l₂ := (List.nodup_middle.mp hlinked.nodup).notMem
      change Linked (update (redirect h.next (h.head q') (h.prev x) (h.next x)).1 x none)
        (update (redirect h.prev (h.tail q') (h.next x) (h.prev x)).1 x none)
        (update h.head q' (redirect h.next (h.head q') (h.prev x) (h.next x)).2 q')
        (update h.tail q' (redirect h.prev (h.tail q') (h.next x) (h.prev x)).2 q')
        (update s.queues q' (l₁ ++ l₂) q')
      simp only [update_self]
      exact hlinked.remove.congr (update_apart hnot) (update_apart hnot)
    · have hother := (h'.linked q').congr
        (fun y hy => (h'.unlinked_of_notMem hx (h'.apart hy (Ne.symm hq))).1)
        (fun y hy => (h'.unlinked_of_notMem hx (h'.apart hy (Ne.symm hq))).2)
      change Linked _ _ (update h.head q _ q') (update h.tail q _ q') (update s.queues q (l₁ ++ l₂) q')
      rw [update_of_ne hq, update_of_ne hq, update_of_ne hq]
      exact hother
  status q' := by
    change (update h.status q (h.status q - 1) q').toNat = (update s.queues q (l₁ ++ l₂) q').length
    by_cases hq : q' = q
    · subst hq
      have hcount := h'.status q'
      rw [hx, List.length_append, List.length_cons] at hcount
      have hle : (1 : UInt32) ≤ h.status q' := by
        rw [UInt32.le_iff_toNat_le, hcount]
        exact Nat.le_add_left 1 _
      rw [update_self, update_self, UInt32.toNat_sub_of_le _ _ hle, hcount, List.length_append]
      rfl
    · rw [update_of_ne hq, update_of_ne hq, h'.status q']
  que y hy q' := by
    change update h.que x none y = some q' ↔ _
    rw [h'.mem_setQueue hx]
    by_cases hyx : y = x
    · subst hyx
      rw [update_self]
      exact ⟨nofun, fun hmem => absurd rfl hmem.2⟩
    · rw [update_of_ne hyx, h'.que y hy q']
      exact ⟨fun hmem => ⟨hmem, hyx⟩, And.left⟩
  free y hy hyfree := by
    by_cases hyx : y = x
    · subst hyx
      exact ⟨update_self _ _ _, update_self _ _ _⟩
    · have hyold : s.Free y := fun q' hmem => hyfree q' ((h'.mem_setQueue hx).mpr ⟨hmem, hyx⟩)
      obtain ⟨hnext, hprev⟩ := h'.unlinked_of_notMem hx (hyold q)
      rw [hnext, hprev]
      exact h'.free y hy hyold
  owner := h'.owner
  live q' y hy := h'.live q' y ((h'.mem_setQueue hx).mp hy).1

end

theorem queueRem_eq {l : List ι} (h' : Represents h s) (hx : s.queues q = x :: l) :
    queueRem h q = some (some (h.owner x), unlinked h q x) := by
  have hlinked := h'.linked q
  rw [hx] at hlinked
  have hsplit : Linked h.next h.prev (h.head q) (h.tail q) ([] ++ x :: l) := hlinked
  have hprev : h.prev x = none := hsplit.prev_eq
  have hhead : h.head q = some x := hlinked.head_eq
  have hcount : h.status q ≠ 0 := by
    rw [Ne, h'.status_eq_zero, hx]
    exact List.cons_ne_nil _ _
  unfold queueRem unlinked
  rw [if_neg hcount, hhead]
  cases hnext : h.next x with
  | none => simp only [Option.map_some, update_self, hprev, hnext, redirect]
  | some y => simp only [Option.map_some, update_self, hprev, hnext, redirect, update_eq_self]

theorem queueRem_nil (h' : Represents h s) (hx : s.queues q = []) : queueRem h q = some (none, h) :=
  if_pos (h'.status_eq_zero.mpr hx)

theorem queueExtract_eq (h' : Represents h s) (hx : s.queues q = l₁ ++ x :: l₂) :
    queueExtract h q x = some (unlinked h q x) := by
  have hlinked := h'.linked q
  have hmem : x ∈ s.queues q := by
    rw [hx]
    exact List.mem_append_right _ List.mem_cons_self
  have hque : ¬ h.que x ≠ some q := fun hne => hne ((h'.que x (h'.live q x hmem) q).mpr hmem)
  have hcount : 0 < h.status q := by
    rw [UInt32.lt_iff_toNat_lt, h'.status q]
    exact List.length_pos_of_mem hmem
  rw [hx] at hlinked
  have hprev_ne (p : ι) (hp : h.prev x = some p) : x ≠ p := by
    rintro rfl
    rw [hlinked.prev_eq] at hp
    have hnot : x ∉ l₁ ++ l₂ := (List.nodup_middle.mp hlinked.nodup).notMem
    exact hnot (List.mem_append_left _ (List.mem_of_getLast? hp))
  unfold queueExtract unlinked
  rw [if_neg hque, if_pos hcount]
  cases hprev : h.prev x with
  | none =>
    cases hnext : h.next x with
    | none => simp only [hprev, hnext, redirect]
    | some y => simp only [hprev, hnext, redirect, update_eq_self]
  | some p =>
    have hne := hprev_ne p hprev
    cases hnext : h.next x with
    | none => simp only [hprev, hnext, redirect, update_of_ne hne, update_eq_self]
    | some y => simp only [hprev, hnext, redirect, update_of_ne hne, update_eq_self]

theorem queueExtract_of_notMem (h' : Represents h s) (hlive : s.Live x) (hx : x ∉ s.queues q) :
    queueExtract h q x = some h :=
  if_pos fun hque => hx ((h'.que x hlive q).mp hque)

/-! ### Sequences of calls -/

theorem Represents.exec (h' : Represents h s) {op : Op ι κ ω} (hproper : Proper s op) (hcount : Counted s op) :
    ∃ h₁, h.exec op = some ((s.exec op).1, h₁) ∧ Represents h₁ (s.exec op).2 := by
  cases op with
  | init x w => exact ⟨_, rfl, h'.init hproper w⟩
  | add q x =>
    obtain ⟨hlive, hfree⟩ := hproper
    refine ⟨_, ?_, h'.added hlive hfree hcount⟩
    simp only [Heap.exec, queueAdd_eq h' (h'.free x hlive hfree).2, Option.map_some]
    rfl
  | rem q =>
    cases hq : s.queues q with
    | nil =>
      refine ⟨h, ?_, ?_⟩
      · simp only [Heap.exec, queueRem_nil h' hq, Lists.exec, hq]
      · simp only [Lists.exec, hq]
        exact h'
    | cons x l =>
      have hlive : s.Live x := h'.live q x (hq ▸ List.mem_cons_self)
      obtain ⟨w, hw⟩ := Option.ne_none_iff_exists'.mp hlive
      refine ⟨Queue.unlinked h q x, ?_, ?_⟩
      · simp only [Heap.exec, queueRem_eq h' hq, Lists.exec, hq, hw, h'.owner x w hw]
      · simp only [Lists.exec, hq]
        have hsplit : s.queues q = [] ++ x :: l := hq
        exact h'.unlinked hsplit
  | extract q x =>
    by_cases hx : x ∈ s.queues q
    · obtain ⟨l₁, l₂, _, hsplit, herase⟩ := List.exists_erase_eq hx
      refine ⟨Queue.unlinked h q x, ?_, ?_⟩
      · simp only [Heap.exec, queueExtract_eq h' hsplit, Option.map_some, Lists.exec]
      · simp only [Lists.exec, herase]
        exact h'.unlinked hsplit
    · have hsame : s.setQueue q (s.queues q) = s := by
        simp only [Lists.setQueue, update_eq_self]
      refine ⟨h, ?_, ?_⟩
      · simp only [Heap.exec, queueExtract_of_notMem h' hproper hx, Option.map_some, Lists.exec]
      · simp only [Lists.exec, List.erase_of_not_mem hx, hsame]
        exact h'

theorem Represents.run (h' : Represents h s) {ops : List (Op ι κ ω)}
    (hok : RunOk (fun s op => Proper s op ∧ Counted s op) s ops) :
    ∃ h₁, h.run ops = some ((s.run ops).1, h₁) ∧ Represents h₁ (s.run ops).2 := by
  induction ops generalizing h s with
  | nil => exact ⟨h, rfl, h'⟩
  | cons op ops ih =>
    obtain ⟨⟨hproper, hcount⟩, hrest⟩ := hok
    obtain ⟨h₁, hexec, hnext⟩ := h'.exec hproper hcount
    obtain ⟨h₂, hrun, hlast⟩ := ih hnext hrest
    refine ⟨h₂, ?_, hlast⟩
    simp only [Heap.run, hexec, Option.bind_some, hrun, Option.map_some, Lists.run]

/-- Every queue is as `queue_init` leaves it. -/
def Fresh (h : Heap ι κ ω) : Prop := ∀ q, queueInit h q = h

omit [DecidableEq ι] in
theorem Fresh.represents (hfresh : Fresh h) : Represents h Lists.empty where
  linked q := by
    have hhead : update h.head q none = h.head := congrArg Heap.head (hfresh q)
    have htail : update h.tail q none = h.tail := congrArg Heap.tail (hfresh q)
    rw [← hhead, ← htail, update_self, update_self]
    exact .nil
  status q := by
    have hstatus : update h.status q 0 = h.status := congrArg Heap.status (hfresh q)
    rw [← hstatus, update_self]
    rfl
  que _ hlive := absurd rfl hlive
  free _ hlive := absurd rfl hlive
  owner _ _ hw := nomatch hw
  live _ _ hx := nomatch hx

/-- **The queues are lists**: a sequence of calls gives what it gives on the lists, whatever was
    in the items before, and the queues stand for the lists after it. -/
theorem queues_are_lists (h : Heap ι κ ω) (hfresh : Fresh h) (ops : List (Op ι κ ω))
    (hok : RunOk (fun s op => Proper s op ∧ Counted s op) Lists.empty ops) :
    ∃ h₁, h.run ops = some ((Lists.empty.run ops).1, h₁) ∧ Represents h₁ (Lists.empty.run ops).2 :=
  hfresh.represents.run hok

/-- Empty queues, and items full of zeros. -/
def zeros (w : ω) : Heap ι κ ω :=
  ⟨fun _ => none, fun _ => none, fun _ => none, fun _ => w, fun _ => none, fun _ => none, fun _ => 0⟩

omit [DecidableEq ι] in
theorem zeros_fresh (w : ω) : Fresh (zeros w : Heap ι κ ω) := by
  intro q
  simp only [queueInit, zeros, Heap.mk.injEq, true_and]
  exact ⟨update_eq_self q _, update_eq_self q _, update_eq_self q _⟩

/-- An item of one queue is extracted from the other, then removed from its own. -/
theorem queues_are_lists_two :
    ∃ h₁, (zeros 'z' : Heap Nat Bool Char).run
        [.init 0 'a', .init 1 'b', .add false 0, .add true 1, .extract true 0, .rem false, .rem false] =
      some ([none, none, none, none, none, some 'a', none], h₁) ∧ (h₁.status true).toNat = 1 := by
  obtain ⟨h₁, hrun, hrep⟩ := queues_are_lists (zeros 'z' : Heap Nat Bool Char) (zeros_fresh 'z')
    [.init 0 'a', .init 1 'b', .add false 0, .add true 1, .extract true 0, .rem false, .rem false]
    (by simp [RunOk, Proper, Counted, Lists.Free, Lists.Live, Lists.exec, Lists.append, Lists.setQueue, Lists.empty])
  exact ⟨h₁, hrun, hrep.status true⟩

/-- The `n` items from `k` on are initialised and added to one queue. -/
def fill (k : Nat) : Nat → List (Op Nat Unit Unit)
  | 0 => []
  | n + 1 => .init k () :: .add () k :: fill (k + 1) n

theorem fill_ok (n : Nat) : ∀ {k : Nat} {s : Lists Nat Unit Unit}, (∀ y ∈ s.queues (), y < k) →
    RunOk Proper s (fill k n) ∧ ((s.run (fill k n)).2.queues ()).length = (s.queues ()).length + n := by
  induction n with
  | zero => exact fun _ => ⟨trivial, rfl⟩
  | succ n ih =>
    intro k s hbelow
    have hfree : s.Free k := fun _ hk => Nat.lt_irrefl k (hbelow k hk)
    have hnext : ∀ y ∈ s.queues () ++ [k], y < k + 1 := by
      intro y hy
      rcases List.mem_append.mp hy with hold | hnew
      · exact Nat.lt_succ_of_lt (hbelow y hold)
      · exact Nat.lt_succ_of_le (Nat.le_of_eq (List.mem_singleton.mp hnew))
    have hlive : Lists.Live (s.exec (.init k ())).2 k := by
      change update s.owner k (some ()) k ≠ none
      rw [update_self]
      nofun
    obtain ⟨hok, hlen⟩ := ih (k := k + 1) (s := ((s.exec (.init k ())).2.exec (.add () k)).2) hnext
    refine ⟨⟨hfree, ⟨hlive, hfree⟩, hok⟩, hlen.trans ?_⟩
    change (s.queues () ++ [k]).length + n = _
    rw [List.length_append, List.length_singleton]
    omega

/-- `status` counts up to 2^32, and an item of a queue that is initialised again is no longer known
    to be in it. -/
theorem queues_not_lists :
    (¬ ∀ ops : List (Op Nat Unit Unit), RunOk Proper Lists.empty ops →
      ∃ h₁, (zeros () : Heap Nat Unit Unit).run ops = some ((Lists.empty.run ops).1, h₁) ∧
        Represents h₁ (Lists.empty.run ops).2) ∧
    ∃ h₁, (zeros () : Heap Unit Unit Unit).run [.init () (), .add () (), .init () ()] =
        some ((Lists.empty.run [.init () (), .add () (), .init () ()]).1, h₁) ∧
      ¬ Represents h₁ (Lists.empty.run [.init () (), .add () (), .init () ()]).2 := by
  constructor
  · intro h
    obtain ⟨hok, hlen⟩ := fill_ok (2 ^ 32) (k := 0) (s := Lists.empty) nofun
    obtain ⟨h₁, _, hrep⟩ := h _ hok
    have hstatus := hrep.status ()
    rw [hlen] at hstatus
    have hlt := (h₁.status ()).toNat_lt
    change _ = 0 + 2 ^ 32 at hstatus
    omega
  · refine ⟨_, rfl, fun hrep => ?_⟩
    have hque := (hrep.que () (Option.some_ne_none ()) ()).mpr (by decide)
    exact absurd hque (by decide)

end Coroc.Queue
