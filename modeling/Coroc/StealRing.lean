import Mathlib.Data.List.Basic
import Mathlib.Logic.Function.Basic

/-!
# A ring of slots with wrapping head and tail counters

One owner stores items behind the tail; anybody removes items at the head by a
compare-and-swap on it.  Head and tail are 32-bit counters that only grow and wrap
around; a counter's slot is its value modulo the capacity, which divides `2^32`.

The removing side reads the head, reads slots, and swaps the head if it has not
changed.  What makes the reads valid is that nothing at the head changes while the
head does not move: `Moves` says so, and `Seen` is what a reader knows in between.
The ghost field `pos` counts the head without wrapping, so "has not moved" can be
told from "has come round to the same value".

The storing side knows that its tail is its own and that others only take items
away (`Shrinks`); items stored behind the tail (`Staged`) join the window when the
tail is published.
-/

namespace Coroc.StealRing

structure StealQueue (κ : Type) where
  slots : Nat → κ
  head : UInt32
  tail : UInt32
  pos : Nat        -- ghost: the head, not wrapped

/-- A capacity that the 32-bit counters wrap around consistently with. -/
class Capacity (N : Nat) : Prop where
  pos : 0 < N
  dvd : N ∣ 4294967296
  lt : N < 4294967296

section
variable {κ : Type}

/-- The number of items between head and tail. -/
def StealQueue.len (r : StealQueue κ) : Nat := (r.tail - r.head).toNat

/-- The item in the slot of a counter value. -/
def StealQueue.slot (N : Nat) (r : StealQueue κ) (x : UInt32) : κ := r.slots (x.toNat % N)

/-- The items between head and tail, oldest first. -/
def StealQueue.window (N : Nat) (r : StealQueue κ) : List κ :=
  (List.range r.len).map fun i => r.slot N (r.head + UInt32.ofNat i)

/-- Move the head past `n` items. -/
def StealQueue.advance (r : StealQueue κ) (n : Nat) : StealQueue κ :=
  { r with head := r.head + UInt32.ofNat n, pos := r.pos + n }

/-- Store an item in the slot of a counter value. -/
def StealQueue.store (N : Nat) (r : StealQueue κ) (x : UInt32) (c : κ) : StealQueue κ :=
  { r with slots := Function.update r.slots (x.toNat % N) c }

/-- Set the tail. -/
def StealQueue.publish (r : StealQueue κ) (x : UInt32) : StealQueue κ := { r with tail := x }

/-- The counters are in step with the ghost, and the window fits the slots. -/
structure StealQueue.Valid (N : Nat) (r : StealQueue κ) : Prop where
  head_eq : r.head = UInt32.ofNat r.pos
  len_le : r.len ≤ N

@[simp] theorem advance_tail (r : StealQueue κ) (n : Nat) : (r.advance n).tail = r.tail := rfl
@[simp] theorem advance_pos (r : StealQueue κ) (n : Nat) : (r.advance n).pos = r.pos + n := rfl
@[simp] theorem advance_slots (r : StealQueue κ) (n : Nat) : (r.advance n).slots = r.slots := rfl
@[simp] theorem store_tail (N : Nat) (r : StealQueue κ) (x : UInt32) (c : κ) :
    (r.store N x c).tail = r.tail := rfl
@[simp] theorem store_head (N : Nat) (r : StealQueue κ) (x : UInt32) (c : κ) :
    (r.store N x c).head = r.head := rfl
@[simp] theorem store_pos (N : Nat) (r : StealQueue κ) (x : UInt32) (c : κ) :
    (r.store N x c).pos = r.pos := rfl
@[simp] theorem store_len (N : Nat) (r : StealQueue κ) (x : UInt32) (c : κ) :
    (r.store N x c).len = r.len := rfl
@[simp] theorem publish_tail (r : StealQueue κ) (x : UInt32) : (r.publish x).tail = x := rfl
@[simp] theorem publish_pos (r : StealQueue κ) (x : UInt32) : (r.publish x).pos = r.pos := rfl
@[simp] theorem publish_slots (r : StealQueue κ) (x : UInt32) : (r.publish x).slots = r.slots := rfl

@[simp] theorem window_length (N : Nat) (r : StealQueue κ) : (r.window N).length = r.len := by
  simp [StealQueue.window]

/-! ### Counter arithmetic -/

theorem toNat_add_ofNat (x : UInt32) (n : Nat) :
    (x + UInt32.ofNat n).toNat = (x.toNat + n) % 4294967296 := by
  simp [UInt32.toNat_add, UInt32.toNat_ofNat']

theorem add_ofNat_ofNat (x : UInt32) (m n : Nat) :
    x + UInt32.ofNat m + UInt32.ofNat n = x + UInt32.ofNat (m + n) := by
  apply UInt32.toNat_inj.mp
  simp only [toNat_add_ofNat]
  omega

/-- Distance between two counters, as the code computes it. -/
theorem toNat_sub (x y : UInt32) :
    (x - y).toNat = (4294967296 - y.toNat + x.toNat) % 4294967296 := by
  simp [UInt32.toNat_sub]

theorem toNat_lt (x : UInt32) : x.toNat < 4294967296 := x.toBitVec.isLt

theorem tail_eq (r : StealQueue κ) : r.tail = r.head + UInt32.ofNat r.len := by
  apply UInt32.toNat_inj.mp
  have h1 := toNat_lt r.tail
  have h2 := toNat_lt r.head
  rw [toNat_add_ofNat, StealQueue.len, toNat_sub]
  omega

theorem sub_toNat_pos {x y : UInt32} (h : x ≠ y) : 0 < (x - y).toNat := by
  have h1 := toNat_lt x
  have h2 := toNat_lt y
  have h3 : x.toNat ≠ y.toNat := fun heq => h (UInt32.toNat_inj.mp heq)
  rw [toNat_sub]
  omega

/-- Two unwrapped counts with the same 32-bit value. -/
theorem ofNat_eq_iff (m n : Nat) :
    UInt32.ofNat m = UInt32.ofNat n ↔ m % 4294967296 = n % 4294967296 := by
  rw [← UInt32.toNat_inj, UInt32.toNat_ofNat', UInt32.toNat_ofNat']

variable {N : Nat}

theorem add_mod [hN : Capacity N] (x : UInt32) (n : Nat) :
    (x + UInt32.ofNat n).toNat % N = (x.toNat + n) % N := by
  rw [toNat_add_ofNat, Nat.mod_mod_of_dvd _ hN.dvd]

/-- Counters less than a capacity apart have different slots. -/
theorem slot_ne [hN : Capacity N] (x : UInt32) {i j : Nat} (h : i < j) (hj : j < i + N) :
    (x + UInt32.ofNat i).toNat % N ≠ (x + UInt32.ofNat j).toNat % N := by
  rw [add_mod, add_mod]
  intro heq
  have hzero := Nat.sub_mod_eq_zero_of_mod_eq heq.symm
  rw [Nat.add_sub_add_left, Nat.mod_eq_of_lt (by omega)] at hzero
  omega

/-! ### Removing at the head -/

theorem advance_len {r : StealQueue κ} {n : Nat} (hn : n ≤ r.len) : (r.advance n).len = r.len - n := by
  have h1 := toNat_lt r.tail
  have h2 := toNat_lt r.head
  simp only [StealQueue.len, StealQueue.advance, toNat_sub, toNat_add_ofNat] at hn ⊢
  omega

theorem advance_valid {r : StealQueue κ} (hv : r.Valid N) {n : Nat} (hn : n ≤ r.len) :
    (r.advance n).Valid N := by
  refine ⟨?_, ?_⟩
  · simp only [StealQueue.advance, hv.head_eq]
    apply UInt32.toNat_inj.mp
    rw [toNat_add_ofNat, UInt32.toNat_ofNat', UInt32.toNat_ofNat']
    omega
  · rw [advance_len hn]
    exact Nat.le_trans (Nat.sub_le _ _) hv.len_le

theorem advance_window {r : StealQueue κ} {n : Nat} (hn : n ≤ r.len) :
    (r.advance n).window N = (r.window N).drop n := by
  apply List.ext_getElem
  · simp [advance_len hn]
  · intro i h1 h2
    simp only [StealQueue.window, List.getElem_map, List.getElem_range, List.getElem_drop, StealQueue.slot,
      advance_slots]
    rw [show (r.advance n).head = r.head + UInt32.ofNat n from rfl, add_ofNat_ofNat]

/-! ### Storing behind the tail -/

/-- Storing behind the tail, within the capacity, touches no slot of the window. -/
theorem store_window [hN : Capacity N] {r : StealQueue κ} {i : Nat} (hi : r.len + i < N) (c : κ) :
    (r.store N (r.tail + UInt32.ofNat i) c).window N = r.window N := by
  simp only [StealQueue.window, store_len]
  refine List.map_congr_left fun j hj => ?_
  simp only [List.mem_range] at hj
  have hne := slot_ne (N := N) r.head (i := j) (j := r.len + i) (by omega) (by omega)
  rw [tail_eq r, add_ofNat_ofNat]
  simp only [StealQueue.slot, StealQueue.store, Function.update_of_ne hne]

theorem store_valid {r : StealQueue κ} (hv : r.Valid N) (x : UInt32) (c : κ) : (r.store N x c).Valid N :=
  ⟨hv.head_eq, hv.len_le⟩

/-- Items stored behind the tail and not yet published. -/
structure StealQueue.Staged (N : Nat) (r : StealQueue κ) (items : List κ) : Prop where
  room : r.len + items.length ≤ N
  stored : ∀ i (hi : i < items.length), r.slot N (r.tail + UInt32.ofNat i) = items[i]

theorem staged_nil {r : StealQueue κ} (hv : r.Valid N) : r.Staged N [] :=
  ⟨by simpa using hv.len_le, fun i hi => absurd hi (Nat.not_lt_zero i)⟩

theorem StealQueue.Staged.store [hN : Capacity N] {r : StealQueue κ} {items : List κ} (h : r.Staged N items)
    (hroom : r.len + items.length < N) (c : κ) :
    (r.store N (r.tail + UInt32.ofNat items.length) c).Staged N (items ++ [c]) := by
  refine ⟨?_, fun i hi => ?_⟩
  · simp only [store_len, List.length_append, List.length_singleton]
    omega
  · rcases Nat.lt_or_ge i items.length with hlt | hge
    · have hne := slot_ne (N := N) r.tail hlt (by omega)
      rw [List.getElem_append_left hlt, ← h.stored i hlt]
      simp only [StealQueue.slot, StealQueue.store, Function.update_of_ne hne]
    · obtain rfl : i = items.length := by
        simp only [List.length_append, List.length_singleton] at hi
        omega
      simp [StealQueue.slot, StealQueue.store]

theorem publish_len [hN : Capacity N] {r : StealQueue κ} {n : Nat} (hn : r.len + n ≤ N) :
    (r.publish (r.tail + UInt32.ofNat n)).len = r.len + n := by
  have h1 := toNat_lt r.tail
  have h2 := toNat_lt r.head
  have h3 := hN.lt
  simp only [StealQueue.len, StealQueue.publish, toNat_sub, toNat_add_ofNat] at hn ⊢
  omega

/-- **Publishing the tail appends the staged items to the window.** -/
theorem StealQueue.Staged.publish [hN : Capacity N] {r : StealQueue κ} {items : List κ} (hv : r.Valid N)
    (h : r.Staged N items) :
    (r.publish (r.tail + UInt32.ofNat items.length)).Valid N ∧
      (r.publish (r.tail + UInt32.ofNat items.length)).window N = r.window N ++ items := by
  have hlen := publish_len (N := N) h.room
  refine ⟨⟨hv.head_eq, hlen ▸ h.room⟩, ?_⟩
  apply List.ext_getElem
  · simp [hlen]
  · intro i h1 h2
    simp only [StealQueue.window, List.getElem_map, List.getElem_range]
    rcases Nat.lt_or_ge i r.len with hlt | hge
    · rw [List.getElem_append_left (by simpa using hlt)]
      simp only [List.getElem_map, List.getElem_range]
      rfl
    · rw [List.getElem_append_right (by simpa using hge)]
      simp only [List.length_map, List.length_range]
      have hcounter : r.tail + UInt32.ofNat (i - r.len) = r.head + UInt32.ofNat i := by
        rw [tail_eq r, add_ofNat_ofNat, show r.len + (i - r.len) = i by omega]
      rw [← h.stored, hcounter]
      rfl

/-! ### What others do to a ring -/

/-- What a ring's owner sees others do to it: items are taken away at the head. -/
structure Shrinks (r r' : StealQueue κ) : Prop where
  slots_eq : r'.slots = r.slots
  tail_eq : r'.tail = r.tail
  pos_le : r.pos ≤ r'.pos
  stop_eq : r'.pos + r'.len = r.pos + r.len

/-- What anybody else sees: the head grows, and while it does not the window only
    gets longer. -/
structure Moves (N : Nat) (r r' : StealQueue κ) : Prop where
  pos_le : r.pos ≤ r'.pos
  grows : r'.pos = r.pos → r.window N <+: r'.window N

theorem Shrinks.refl (r : StealQueue κ) : Shrinks r r := ⟨rfl, rfl, Nat.le_refl _, rfl⟩

theorem Moves.refl (r : StealQueue κ) : Moves N r r := ⟨Nat.le_refl _, fun _ => List.prefix_refl _⟩

theorem Shrinks.len_le {r r' : StealQueue κ} (h : Shrinks r r') : r'.len ≤ r.len := by
  have := h.pos_le
  have := h.stop_eq
  omega

theorem advance_shrinks {r : StealQueue κ} {n : Nat} (hn : n ≤ r.len) : Shrinks r (r.advance n) := by
  refine ⟨rfl, rfl, by simp, ?_⟩
  rw [advance_len hn, advance_pos]
  omega

theorem advance_moves {r : StealQueue κ} {n : Nat} (hn : 0 < n) : Moves N r (r.advance n) := by
  constructor
  · simp
  · intro heq
    rw [advance_pos] at heq
    omega

theorem store_moves [hN : Capacity N] {r : StealQueue κ} {i : Nat} (hi : r.len + i < N) (c : κ) :
    Moves N r (r.store N (r.tail + UInt32.ofNat i) c) := by
  refine ⟨Nat.le_refl _, fun _ => ?_⟩
  have hwindow := store_window hi c
  exact hwindow ▸ List.prefix_refl _

theorem StealQueue.Staged.publish_moves [hN : Capacity N] {r : StealQueue κ} {items : List κ} (hv : r.Valid N)
    (h : r.Staged N items) :
    Moves N r (r.publish (r.tail + UInt32.ofNat items.length)) :=
  ⟨Nat.le_refl _, fun _ => by rw [(h.publish hv).2]; exact List.prefix_append _ _⟩

theorem StealQueue.Staged.shrink {r r' : StealQueue κ} {items : List κ} (h : r.Staged N items)
    (hs : Shrinks r r') : r'.Staged N items := by
  refine ⟨Nat.le_trans (Nat.add_le_add_right hs.len_le _) h.room, fun i hi => ?_⟩
  rw [← h.stored i hi, hs.tail_eq]
  simp only [StealQueue.slot, hs.slots_eq]

/-! ### The speculative read -/

/-- What a reader that loaded `head` at position `pos` and intends to take `n` items
    knows: as long as the head has not moved, the items read so far are the first of
    the window, and the window has `n`. -/
structure Seen (N : Nat) (r : StealQueue κ) (head : UInt32) (pos n : Nat) (temp : List κ) : Prop where
  head_eq : head = UInt32.ofNat pos
  pos_le : pos ≤ r.pos
  read : r.pos = pos → temp <+: r.window N ∧ n ≤ r.len

theorem Seen.moves {r r' : StealQueue κ} {head : UInt32} {pos n : Nat} {temp : List κ}
    (h : Seen N r head pos n temp) (hm : Moves N r r') : Seen N r' head pos n temp := by
  refine ⟨h.head_eq, Nat.le_trans h.pos_le hm.pos_le, fun heq => ?_⟩
  have hpos : r.pos = pos := Nat.le_antisymm (heq ▸ hm.pos_le) h.pos_le
  have hgrows := hm.grows (heq.trans hpos.symm)
  obtain ⟨htemp, hn⟩ := h.read hpos
  refine ⟨htemp.trans hgrows, Nat.le_trans hn ?_⟩
  simpa using hgrows.length_le

/-- Reading one more slot. -/
theorem Seen.load {r : StealQueue κ} (hv : r.Valid N) {head : UInt32} {pos n : Nat} {temp : List κ}
    (h : Seen N r head pos n temp) (hlt : temp.length < n) :
    Seen N r head pos n (temp ++ [r.slot N (head + UInt32.ofNat temp.length)]) := by
  refine ⟨h.head_eq, h.pos_le, fun heq => ?_⟩
  obtain ⟨htemp, hn⟩ := h.read heq
  refine ⟨?_, hn⟩
  have hhead : head = r.head := by rw [h.head_eq, hv.head_eq, heq]
  rw [List.prefix_iff_eq_take] at htemp ⊢
  have hw : temp.length < (r.window N).length := by simpa using Nat.lt_of_lt_of_le hlt hn
  rw [List.length_append, List.length_singleton, List.take_succ_eq_append_getElem hw, ← htemp]
  simp only [StealQueue.window, List.getElem_map, List.getElem_range, hhead]

/-- **A successful swap takes exactly the items read**, provided the head has not
    come round to the loaded value by moving. -/
theorem Seen.swap [Capacity N] {r : StealQueue κ} (hv : r.Valid N) {head : UInt32} {pos n : Nat}
    {temp : List κ}
    (h : Seen N r head pos n temp) (hlen : temp.length = n) (hcas : r.head = head)
    (hwrap : r.pos = pos ∨ (r.pos - pos) % 4294967296 ≠ 0) :
    n ≤ r.len ∧ r.window N = temp ++ (r.advance n).window N := by
  have hpos : r.pos = pos := by
    rcases hwrap with heq | hne
    · exact heq
    · rw [h.head_eq, hv.head_eq, ofNat_eq_iff] at hcas
      exact absurd (Nat.sub_mod_eq_zero_of_mod_eq hcas) hne
  obtain ⟨htemp, hn⟩ := h.read hpos
  refine ⟨hn, ?_⟩
  rw [advance_window hn]
  rw [List.prefix_iff_eq_take, hlen] at htemp
  rw [htemp]
  exact (List.take_append_drop n _).symm

/-! ### The owner's view of its own head and tail -/

/-- The owner loaded `head` at position `pos`: the tail is still the one it was, so
    the distance it computes is at most `bound`, and the window at least that long
    less what has been taken since. -/
structure Loaded (r : StealQueue κ) (head : UInt32) (pos bound : Nat) : Prop where
  head_eq : head = UInt32.ofNat pos
  pos_le : pos ≤ r.pos
  stop_eq : pos + (r.tail - head).toNat = r.pos + r.len
  dist_le : (r.tail - head).toNat ≤ bound

theorem loaded_of_valid {r : StealQueue κ} (hv : r.Valid N) {bound : Nat} (hb : r.len ≤ bound) :
    Loaded r r.head r.pos bound :=
  ⟨hv.head_eq, Nat.le_refl _, rfl, hb⟩

theorem Loaded.shrink {r r' : StealQueue κ} {head : UInt32} {pos bound : Nat}
    (h : Loaded r head pos bound) (hs : Shrinks r r') : Loaded r' head pos bound := by
  refine ⟨h.head_eq, Nat.le_trans h.pos_le hs.pos_le, ?_, hs.tail_eq ▸ h.dist_le⟩
  rw [hs.tail_eq, hs.stop_eq]
  exact h.stop_eq

/-- The window is no longer than the distance the owner computes. -/
theorem Loaded.len_le {r : StealQueue κ} {head : UInt32} {pos bound : Nat}
    (h : Loaded r head pos bound) : r.len ≤ (r.tail - head).toNat := by
  have := h.pos_le
  have := h.stop_eq
  omega

/-- The owner's distance is what a reader may rely on. -/
theorem Loaded.seen {r : StealQueue κ} {head : UInt32} {pos bound n : Nat}
    (h : Loaded r head pos bound) (hn : n ≤ (r.tail - head).toNat) : Seen N r head pos n [] := by
  refine ⟨h.head_eq, h.pos_le, fun heq => ⟨List.nil_prefix, ?_⟩⟩
  have := h.stop_eq
  omega

/-- Anybody's load of the head. -/
theorem seen_of_valid {r : StealQueue κ} (hv : r.Valid N) : Seen N r r.head r.pos 0 [] :=
  ⟨hv.head_eq, Nat.le_refl _, fun _ => ⟨List.nil_prefix, Nat.zero_le _⟩⟩

/-- Anybody's load of the tail after the head: the distance is right if the head has
    not moved. -/
theorem Seen.dist {r : StealQueue κ} (hv : r.Valid N) {head : UInt32} {pos n : Nat}
    (h : Seen N r head pos 0 []) (hn : n ≤ (r.tail - head).toNat) : Seen N r head pos n [] := by
  refine ⟨h.head_eq, h.pos_le, fun heq => ⟨List.nil_prefix, ?_⟩⟩
  have hhead : head = r.head := by rw [h.head_eq, hv.head_eq, heq]
  simpa [StealQueue.len, hhead] using hn

end

end Coroc.StealRing
