import Mathlib
import Coroc.RingBuffer
import Coroc.Transition

/-!
# The buffer of a channel (`src/src/channel.c`, `src/include/inter/channel.h`)

A buffered channel is allocated with the bytes of its elements behind the header, and uses them
as a ring: `__coroc_copy_to_buff`, `__coroc_copy_from_buff` and `__coroc_clean_buff` compute the
position of a slot as the `int` product of `elemsize`, a field of 31 bits, and an index.
Products of `int` are taken modulo 2^32 here, and a narrowing store modulo 2^31.

* `Refines`: as long as the positions are computed exactly (`SlotsFit`) the bytes are a `Ring` of
  elements.  `buffer_is_fifo`: so every sequence of calls is one on a bounded queue.
* `slots_inside_iff`: whatever the sizes are, the indices stay in the ring; the bytes they stand
  for are inside of what was reserved just if the sizes are not too large (`Fits`).
-/

namespace Coroc.ChanBuffer

open Coroc.Transition

abbrev Bytes := List UInt8

/-- `coroc_buffered_chan`, with the fields of `coroc_chan` that matter to the buffer.  `buf` is
    the memory at `ch->buf`, by offset. -/
structure BufferedChan where
  close : Bool
  isref : Bool
  elemsize : Int32
  bufsize : Int32
  nbuf : Int32
  recvx : Int32
  sendx : Int32
  buf : Int → UInt8

/-! ### The source -/

/-- What an `int32_t` becomes in a signed field of 31 bits. -/
def bitField31 (x : Int32) : Int32 := .ofInt (x.toInt.bmod (2 ^ 31))

/-- An `int` as a `size_t`. -/
def sizeT (x : Int32) : Nat := (x.toInt % 2 ^ 64).toNat

/-- The size of a `coroc_refcnt_t`, a pointer. -/
def ptrSize : Nat := 8

/-- `coroc_buffered_chan_init`, in memory that holds `mem`. -/
def bufferedChanInit (elemsize bufsize : Int32) (isref : Bool) (mem : Int → UInt8) : BufferedChan where
  close := false
  isref := isref
  elemsize := bitField31 elemsize
  bufsize := bufsize
  nbuf := 0
  recvx := 0
  sendx := 0
  buf := mem

/-- What `_coroc_chan_allocate` adds to the size of the header. -/
def reserved (elemsize bufsize : Int32) : Int := (elemsize * bufsize).toInt

/-- `__chan_memcpy` into the buffer; `none` is a `NULL`. -/
def chanMemcpy (m : Int → UInt8) (p : Int) (src : Option (Nat → UInt8)) (size : Nat) : Int → UInt8 :=
  match src with
  | none => m
  | some f => fun a => if p ≤ a ∧ a < p + size then f (a - p).toNat else m a

/-- The bytes from a position on. -/
def load (m : Int → UInt8) (p : Int) (size : Nat) : Bytes := (List.range size).map fun i : Nat => m (p + i)

namespace BufferedChan

/-- `elemsize * x`, the position of the slot with index `x`. -/
def slot (c : BufferedChan) (x : Int32) : Int := (c.elemsize * x).toInt

/-- `__coroc_copy_to_buff`. -/
def copyToBuff (c : BufferedChan) (buf : Option (Nat → UInt8)) : Bool × BufferedChan :=
  if c.nbuf < c.bufsize then
    (true, { c with
      buf := chanMemcpy c.buf (c.slot c.sendx) buf (sizeT c.elemsize)
      sendx := (c.sendx + 1) % c.bufsize
      nbuf := c.nbuf + 1 })
  else (false, c)

/-- The indices after an item was taken. -/
def shift (c : BufferedChan) : BufferedChan :=
  { c with recvx := (c.recvx + 1) % c.bufsize, nbuf := c.nbuf - 1 }

/-- `__coroc_copy_from_buff`, with what it leaves in the caller's buffer, if that is not
    `NULL`. -/
def copyFromBuff (c : BufferedChan) (buf : Bool) : Bool × Option Bytes × BufferedChan :=
  if 0 < c.nbuf then
    (true, if buf then some (load c.buf (c.slot c.recvx) (sizeT c.elemsize)) else none, c.shift)
  else (false, none, c)

/-- The loop of `__coroc_clean_buff`, with the positions of the pointers it puts. -/
def cleanLoop : Nat → BufferedChan → List Int × BufferedChan
  | 0, c => ([], c)
  | n + 1, c =>
    if 0 < c.nbuf then (c.slot c.recvx :: (cleanLoop n c.shift).1, (cleanLoop n c.shift).2)
    else ([], c)

/-- `__coroc_clean_buff`: each round takes one from `nbuf`. -/
def cleanBuff (c : BufferedChan) : List Int × BufferedChan := cleanLoop c.nbuf.toInt.toNat c

/-- The references that `__coroc_clean_buff` puts. -/
def released (c : BufferedChan) : List Bytes := c.cleanBuff.1.map fun p => load c.buf p ptrSize

end BufferedChan

/-! ### The indices -/

variable {α : Type} {c : BufferedChan} {r : Ring α} {r₀ : Ring Bytes}

/-- The indices and the count of the channel are those of the ring. -/
structure Tracks (c : BufferedChan) (r : Ring α) : Prop where
  bufsize : c.bufsize.toInt = r.bufsize
  nbuf : c.nbuf.toInt = r.nbuf
  recvx : c.recvx.toInt = r.recvx
  sendx : c.sendx.toInt = r.sendx

theorem toInt_succ {x : Int32} (h : x.toInt < 2 ^ 31 - 1) : (x + 1).toInt = x.toInt + 1 := by
  have hlow := x.le_toInt
  have hone : (1 : Int32).toInt = 1 := rfl
  rw [Int32.toInt_add, hone]
  exact Int.bmod_eq_of_le (by omega) (by omega)

theorem toInt_pred {x : Int32} (h : 0 < x.toInt) : (x - 1).toInt = x.toInt - 1 := by
  have hhigh := x.toInt_lt
  have hone : (1 : Int32).toInt = 1 := rfl
  rw [Int32.toInt_sub, hone]
  exact Int.bmod_eq_of_le (by omega) (by omega)

/-- An index that is incremented and then wrapped. -/
theorem toInt_next {x b : Int32} {i n : Nat} (hx : x.toInt = i) (hb : b.toInt = n) (h : i < n) :
    ((x + 1) % b).toInt = ((i + 1) % n : Nat) := by
  have hhigh := b.toInt_lt
  have hsucc : (x + 1).toInt = (i + 1 : Nat) := by
    rw [toInt_succ (by omega), hx]
    rfl
  rw [Int32.toInt_mod, hsucc, hb]
  rfl

namespace Tracks

theorem lt_iff (h : Tracks c r) : c.nbuf < c.bufsize ↔ r.nbuf < r.bufsize := by
  rw [Int32.lt_iff_toInt_lt, h.nbuf, h.bufsize]
  omega

theorem pos_iff (h : Tracks c r) : 0 < c.nbuf ↔ 0 < r.nbuf := by
  have hzero : (0 : Int32).toInt = 0 := rfl
  rw [Int32.lt_iff_toInt_lt, h.nbuf, hzero]
  omega

theorem push {b : Int → UInt8} (h : Tracks c r) (x : α) (hlt : r.nbuf < r.bufsize) :
    Tracks { c with buf := b, sendx := (c.sendx + 1) % c.bufsize, nbuf := c.nbuf + 1 } (r.push x hlt) where
  bufsize := h.bufsize
  nbuf := by
    have hhigh := c.bufsize.toInt_lt
    have hsize := h.bufsize
    have hcount := h.nbuf
    change (c.nbuf + 1).toInt = (r.nbuf + 1 : Nat)
    rw [toInt_succ (by omega), hcount]
    rfl
  recvx := h.recvx
  sendx := toInt_next h.sendx h.bufsize (r.sendx_lt)

theorem shift (h : Tracks c r) (hpos : 0 < r.nbuf) : Tracks c.shift (r.pop hpos) where
  bufsize := h.bufsize
  nbuf := by
    have hcount := h.nbuf
    change (c.nbuf - 1).toInt = (r.nbuf - 1 : Nat)
    rw [toInt_pred (by omega)]
    omega
  recvx := toInt_next h.recvx h.bufsize r.recvx_lt
  sendx := h.sendx

end Tracks

/-! ### The bytes -/

/-- The positions of the slots are computed without overflow. -/
structure SlotsFit (c : BufferedChan) : Prop where
  nonneg : 0 ≤ c.elemsize.toInt
  lt : c.elemsize.toInt * (c.bufsize.toInt - 1) < 2 ^ 31

/-- The bytes of one slot. -/
def BufferedChan.item (c : BufferedChan) (x : Nat) : Bytes :=
  load c.buf (c.elemsize.toInt * x) (sizeT c.elemsize)

/-- The bytes are those of the elements of the ring. -/
structure Refines (c : BufferedChan) (r : Ring Bytes) : Prop extends Tracks c r where
  items : ∀ x < r.bufsize, r.buf x = c.item x

/-- The positions of the stored items, oldest first. -/
def BufferedChan.slots (c : BufferedChan) : List Int :=
  (List.range c.nbuf.toInt.toNat).map fun i =>
    c.elemsize.toInt * ((c.recvx.toInt.toNat + i) % c.bufsize.toInt.toNat : Nat)

/-- The stored items, oldest first. -/
def BufferedChan.contents (c : BufferedChan) : List Bytes :=
  c.slots.map fun p => load c.buf p (sizeT c.elemsize)

theorem sizeT_eq {x : Int32} (h : 0 ≤ x.toInt) : (sizeT x : Int) = x.toInt := by
  have hhigh := x.toInt_lt
  unfold sizeT
  rw [Int.emod_eq_of_lt h (by omega)]
  exact Int.toNat_of_nonneg h

@[simp]
theorem length_load (m : Int → UInt8) (p : Int) (size : Nat) : (load m p size).length = size := by
  simp [load]

theorem load_congr {m m' : Int → UInt8} {p : Int} {size : Nat}
    (h : ∀ i : Nat, i < size → m (p + i) = m' (p + i)) : load m p size = load m' p size :=
  List.map_congr_left fun i hi => h i (List.mem_range.mp hi)

/-- What was copied is read again. -/
theorem load_chanMemcpy (m : Int → UInt8) (p : Int) (f : Nat → UInt8) (size : Nat) :
    load (chanMemcpy m p (some f) size) p size = (List.range size).map f := by
  refine List.map_congr_left fun i hi => ?_
  have hi := List.mem_range.mp hi
  have hin : p ≤ p + i ∧ p + i < p + size := by omega
  change (if p ≤ p + i ∧ p + i < p + size then f (p + i - p).toNat else m (p + i)) = f i
  rw [if_pos hin]
  congr 1
  omega

/-- Bytes elsewhere are left alone. -/
theorem load_chanMemcpy_ne {m : Int → UInt8} {p q : Int} {src : Option (Nat → UInt8)} {size : Nat}
    (h : p + size ≤ q ∨ q + size ≤ p) : load (chanMemcpy m p src size) q size = load m q size := by
  refine load_congr fun i hi => ?_
  cases src with
  | none => rfl
  | some f =>
    have hout : ¬ (p ≤ q + i ∧ q + i < p + size) := by omega
    exact if_neg hout

/-- Slots with different indices do not overlap. -/
theorem slots_apart {e : Int} (he : 0 ≤ e) {x y : Int} (h : x < y) : e * x + e ≤ e * y := by
  calc e * x + e = e * (x + 1) := by ring
    _ ≤ e * y := Int.mul_le_mul_of_nonneg_left h he

namespace SlotsFit

/-- The position of a slot is the product of the numbers. -/
theorem slot_eq (h : SlotsFit c) {x : Int32} (hx : 0 ≤ x.toInt) (hlt : x.toInt < c.bufsize.toInt) :
    c.slot x = c.elemsize.toInt * x.toInt := by
  have hlow : 0 ≤ c.elemsize.toInt * x.toInt := Int.mul_nonneg h.nonneg hx
  have hhigh : c.elemsize.toInt * x.toInt ≤ c.elemsize.toInt * (c.bufsize.toInt - 1) :=
    Int.mul_le_mul_of_nonneg_left (by omega) h.nonneg
  have hfit := h.lt
  unfold BufferedChan.slot
  rw [Int32.toInt_mul]
  exact Int.bmod_eq_of_le (by omega) (by omega)

theorem item_slot (h : SlotsFit c) {x : Int32} {i : Nat} (hx : x.toInt = i) (hlt : (i : Int) < c.bufsize.toInt) :
    load c.buf (c.slot x) (sizeT c.elemsize) = c.item i := by
  rw [h.slot_eq (by omega) (by omega), hx]
  rfl

end SlotsFit

theorem Refines.copyToBuff (h : Refines c r₀) (f : Nat → UInt8) (hlt : r₀.nbuf < r₀.bufsize) :
    c.copyToBuff (some f) = (true, { c with
      buf := chanMemcpy c.buf (c.slot c.sendx) (some f) (sizeT c.elemsize)
      sendx := (c.sendx + 1) % c.bufsize
      nbuf := c.nbuf + 1 }) :=
  if_pos (h.toTracks.lt_iff.mpr hlt)

/-- One slot is filled, and the others keep their bytes. -/
theorem Refines.push (h : Refines c r₀) (hfit : SlotsFit c) (f : Nat → UInt8) (hlt : r₀.nbuf < r₀.bufsize) :
    Refines (c.copyToBuff (some f)).2 (r₀.push ((List.range (sizeT c.elemsize)).map f) hlt) := by
  rw [h.copyToBuff f hlt]
  refine ⟨h.toTracks.push _ hlt, fun x hx => ?_⟩
  have hsend := h.sendx
  have hsize := h.bufsize
  have hpos : c.slot c.sendx = c.elemsize.toInt * r₀.sendx := by
    have hlt' := r₀.sendx_lt
    rw [hfit.slot_eq (by omega) (by omega), hsend]
  change Function.update r₀.buf r₀.sendx _ x =
    load (chanMemcpy c.buf (c.slot c.sendx) (some f) (sizeT c.elemsize)) (c.elemsize.toInt * x) (sizeT c.elemsize)
  rw [hpos]
  by_cases hxs : x = r₀.sendx
  · subst hxs
    rw [Function.update_self, load_chanMemcpy]
  · rw [Function.update_of_ne hxs, load_chanMemcpy_ne]
    · exact h.items x hx
    · rw [sizeT_eq hfit.nonneg]
      rcases Nat.lt_or_gt_of_ne hxs with hbelow | habove
      · exact .inr (slots_apart hfit.nonneg (by omega))
      · exact .inl (slots_apart hfit.nonneg (by omega))

theorem Refines.shift (h : Refines c r₀) (hpos : 0 < r₀.nbuf) : Refines c.shift (r₀.pop hpos) :=
  ⟨h.toTracks.shift hpos, h.items⟩

theorem Refines.head (h : Refines c r₀) (hfit : SlotsFit c) :
    load c.buf (c.slot c.recvx) (sizeT c.elemsize) = r₀.buf r₀.recvx := by
  have hsize := h.bufsize
  have hlt := r₀.recvx_lt
  rw [hfit.item_slot h.recvx (by omega), h.items _ hlt]

/-- The stored items are the contents of the ring. -/
theorem Refines.contents (h : Refines c r₀) : c.contents = r₀.contents := by
  have hnbuf : c.nbuf.toInt.toNat = r₀.nbuf := by rw [h.nbuf]; rfl
  have hrecvx : c.recvx.toInt.toNat = r₀.recvx := by rw [h.recvx]; rfl
  have hsize : c.bufsize.toInt.toNat = r₀.bufsize := by rw [h.bufsize]; rfl
  unfold BufferedChan.contents BufferedChan.slots Ring.contents
  rw [List.map_map, hnbuf, hrecvx, hsize]
  refine List.map_congr_left fun i _ => ?_
  exact (h.items _ (Nat.mod_lt _ r₀.bufsize_pos)).symm

/-! ### Cleaning the buffer -/

/-- The ring of the indices themselves. -/
def indexRing (r : Ring α) : Ring Nat := { r with buf := fun i => i }

theorem Tracks.index (h : Tracks c r) : Tracks c (indexRing r) := ⟨h.bufsize, h.nbuf, h.recvx, h.sendx⟩

theorem Tracks.recvx_eq (h : Tracks c r) : c.recvx = .ofNat r.recvx := by
  have hsize := h.bufsize
  have hhigh := c.bufsize.toInt_lt
  have hlt := r.recvx_lt
  refine Int32.toInt_inj.mp ?_
  rw [h.recvx, Int32.toInt_ofNat_of_lt (by omega)]

theorem Tracks.contents_nil (h : Tracks c r) (hn : r.nbuf = 0) : c.nbuf = 0 ∧ c.contents = [] := by
  have hcount : c.nbuf.toInt = 0 := by rw [h.nbuf, hn]; rfl
  refine ⟨Int32.toInt_inj.mp hcount, ?_⟩
  unfold BufferedChan.contents BufferedChan.slots
  rw [hcount]
  rfl

/-- The loop goes through the slots in use, oldest first, and leaves none. -/
theorem Tracks.cleanLoop {r : Ring Nat} (h : Tracks c r) (hid : ∀ i, r.buf i = i) {n : Nat} (hn : r.nbuf = n) :
    (BufferedChan.cleanLoop n c).1 = r.contents.map (fun i => c.slot (.ofNat i)) ∧
      ∃ r' : Ring Nat, Tracks (BufferedChan.cleanLoop n c).2 r' ∧ r'.nbuf = 0 := by
  induction n generalizing c r with
  | zero =>
    refine ⟨?_, r, h, hn⟩
    unfold Ring.contents
    rw [hn]
    rfl
  | succ n ih =>
    have hpos : 0 < r.nbuf := by omega
    have hround : BufferedChan.cleanLoop (n + 1) c = (c.slot c.recvx :: (BufferedChan.cleanLoop n c.shift).1,
        (BufferedChan.cleanLoop n c.shift).2) := if_pos (h.pos_iff.mpr hpos)
    have hcount : (r.pop hpos).nbuf = n := by
      change r.nbuf - 1 = n
      omega
    obtain ⟨hvisited, hempty⟩ := ih (h.shift hpos) hid hcount
    rw [hround]
    refine ⟨?_, hempty⟩
    rw [r.contents_eq_cons hpos, hid, List.map_cons, ← h.recvx_eq]
    exact congrArg _ hvisited

theorem Tracks.cleanBuff (h : Tracks c r) :
    c.cleanBuff.1 = (indexRing r).contents.map (fun i => c.slot (.ofNat i)) ∧
      ∃ r' : Ring Nat, Tracks c.cleanBuff.2 r' ∧ r'.nbuf = 0 := by
  have hcount : r.nbuf = c.nbuf.toInt.toNat := by rw [h.nbuf]; rfl
  exact h.index.cleanLoop (fun _ => rfl) hcount

/-- The slots in use are those of the indices of the ring. -/
theorem Tracks.slots (h : Tracks c r) (hfit : SlotsFit c) :
    (indexRing r).contents.map (fun i => c.slot (.ofNat i)) = c.slots := by
  have hnbuf : c.nbuf.toInt.toNat = r.nbuf := by rw [h.nbuf]; rfl
  have hrecvx : c.recvx.toInt.toNat = r.recvx := by rw [h.recvx]; rfl
  have hsize : c.bufsize.toInt.toNat = r.bufsize := by rw [h.bufsize]; rfl
  unfold BufferedChan.slots Ring.contents
  rw [List.map_map, hnbuf, hrecvx, hsize]
  refine List.map_congr_left fun i _ => ?_
  have hlt := Nat.mod_lt (r.recvx + i) r.bufsize_pos
  have hhigh := c.bufsize.toInt_lt
  have hb := h.bufsize
  have hx : (Int32.ofNat ((r.recvx + i) % r.bufsize)).toInt = ((r.recvx + i) % r.bufsize : Nat) :=
    Int32.toInt_ofNat_of_lt (by omega)
  change c.slot (.ofNat ((r.recvx + i) % r.bufsize)) = _
  rw [hfit.slot_eq (by omega) (by omega), hx]

/-! ### A bounded queue -/

/-- A call with a buffer that is not `NULL`. -/
inductive Op where
  | copyToBuff (buf : Nat → UInt8)
  | copyFromBuff

inductive Res where
  | stored (ok : Bool)
  | taken (ok : Bool) (item : Option Bytes)
deriving DecidableEq

def Res.ok : Res → Bool
  | stored ok => ok
  | taken ok _ => ok

def exec (c : BufferedChan) : Op → Res × BufferedChan
  | .copyToBuff buf => (.stored (c.copyToBuff (some buf)).1, (c.copyToBuff (some buf)).2)
  | .copyFromBuff =>
    (.taken (c.copyFromBuff true).1 (c.copyFromBuff true).2.1, (c.copyFromBuff true).2.2)

def run (c : BufferedChan) : List Op → List Res × BufferedChan
  | [] => ([], c)
  | op :: ops => ((exec c op).1 :: (run (exec c op).2 ops).1, (run (exec c op).2 ops).2)

namespace Fifo

/-- A queue of at most `cap` elements of `size` bytes. -/
def exec (cap size : Nat) (l : List Bytes) : Op → Res × List Bytes
  | .copyToBuff buf =>
    if l.length < cap then (.stored true, l ++ [(List.range size).map buf]) else (.stored false, l)
  | .copyFromBuff => match l with
    | [] => (.taken false none, [])
    | x :: l => (.taken true (some x), l)

def run (cap size : Nat) (l : List Bytes) : List Op → List Res × List Bytes
  | [] => ([], l)
  | op :: ops => ((exec cap size l op).1 :: (run cap size (exec cap size l op).2 ops).1,
      (run cap size (exec cap size l op).2 ops).2)

end Fifo

/-- One call does what it does on the queue. -/
theorem Refines.exec (h : Refines c r₀) (hfit : SlotsFit c) (op : Op) :
    (exec c op).1 = (Fifo.exec r₀.bufsize (sizeT c.elemsize) r₀.contents op).1 ∧
      (exec c op).2.elemsize = c.elemsize ∧ SlotsFit (exec c op).2 ∧
      ∃ r', Refines (exec c op).2 r' ∧ r'.bufsize = r₀.bufsize ∧
        r'.contents = (Fifo.exec r₀.bufsize (sizeT c.elemsize) r₀.contents op).2 := by
  cases op with
  | copyToBuff buf =>
    by_cases hlt : r₀.nbuf < r₀.bufsize
    · have hfifo : Fifo.exec r₀.bufsize (sizeT c.elemsize) r₀.contents (.copyToBuff buf) =
          (.stored true, r₀.contents ++ [(List.range (sizeT c.elemsize)).map buf]) := by
        refine if_pos ?_
        rw [r₀.length_contents]
        exact hlt
      have hcopy := h.copyToBuff buf hlt
      have hnext := h.push hfit buf hlt
      rw [hfifo]
      simp only [ChanBuffer.exec]
      rw [hcopy] at hnext ⊢
      exact ⟨rfl, rfl, ⟨hfit.nonneg, hfit.lt⟩, _, hnext, rfl, r₀.contents_push _ hlt⟩
    · have hfifo : Fifo.exec r₀.bufsize (sizeT c.elemsize) r₀.contents (.copyToBuff buf) =
          (.stored false, r₀.contents) := by
        refine if_neg ?_
        rw [r₀.length_contents]
        exact hlt
      have hcopy : c.copyToBuff (some buf) = (false, c) := if_neg (mt h.toTracks.lt_iff.mp hlt)
      rw [hfifo]
      simp only [ChanBuffer.exec]
      rw [hcopy]
      exact ⟨rfl, rfl, hfit, r₀, h, rfl, rfl⟩
  | copyFromBuff =>
    by_cases hpos : 0 < r₀.nbuf
    · have hfifo : Fifo.exec r₀.bufsize (sizeT c.elemsize) r₀.contents .copyFromBuff =
          (.taken true (some (r₀.buf r₀.recvx)), (r₀.pop hpos).contents) := by
        rw [r₀.contents_eq_cons hpos]
        rfl
      have hcopy : c.copyFromBuff true =
          (true, some (load c.buf (c.slot c.recvx) (sizeT c.elemsize)), c.shift) :=
        if_pos (h.toTracks.pos_iff.mpr hpos)
      rw [hfifo]
      unfold ChanBuffer.exec
      rw [hcopy, h.head hfit]
      exact ⟨rfl, rfl, ⟨hfit.nonneg, hfit.lt⟩, _, h.shift hpos, rfl, rfl⟩
    · have hnil : r₀.contents = [] := by
        rw [← List.length_eq_zero_iff, r₀.length_contents]
        omega
      have hcopy : c.copyFromBuff true = (false, none, c) := if_neg (mt h.toTracks.pos_iff.mp hpos)
      unfold ChanBuffer.exec
      rw [hcopy, hnil]
      exact ⟨rfl, rfl, hfit, r₀, h, rfl, hnil⟩

theorem Refines.run (h : Refines c r₀) (hfit : SlotsFit c) (ops : List Op) :
    (run c ops).1 = (Fifo.run r₀.bufsize (sizeT c.elemsize) r₀.contents ops).1 ∧
      SlotsFit (run c ops).2 ∧ ∃ r', Refines (run c ops).2 r' ∧
        r'.contents = (Fifo.run r₀.bufsize (sizeT c.elemsize) r₀.contents ops).2 := by
  induction ops generalizing c r₀ with
  | nil => exact ⟨rfl, hfit, r₀, h, rfl⟩
  | cons op ops ih =>
    obtain ⟨hres, helem, hfit', r', hnext, hsize, hcontents⟩ := h.exec hfit op
    obtain ⟨hrest, hlast⟩ := ih hnext hfit'
    rw [helem, hsize, hcontents] at hrest hlast
    exact ⟨congrArg₂ List.cons hres hrest, hlast⟩

/-- The indices and the count are in range, and in step. -/
structure InRange (c : BufferedChan) : Prop where
  nbuf : 0 ≤ c.nbuf.toInt ∧ c.nbuf.toInt ≤ c.bufsize.toInt
  recvx : 0 ≤ c.recvx.toInt ∧ c.recvx.toInt < c.bufsize.toInt
  sendx : 0 ≤ c.sendx.toInt ∧ c.sendx.toInt < c.bufsize.toInt
  step : c.sendx.toInt = (c.recvx.toInt + c.nbuf.toInt) % c.bufsize.toInt

theorem Tracks.inRange (h : Tracks c r) : InRange c := by
  obtain ⟨hsize, hnbuf, hrecvx, hsendx⟩ := h
  have hle := r.nbuf_le
  have hr := r.recvx_lt
  have hs := r.sendx_lt
  refine ⟨by omega, by omega, by omega, ?_⟩
  rw [hsendx, hrecvx, hnbuf, hsize, r.sendx_eq]
  rfl

/-- The buffer holds the items of `l`, oldest first. -/
structure Stores (c : BufferedChan) (l : List Bytes) : Prop where
  range : InRange c
  contents : c.contents = l
  failing : ∀ op, (exec c op).1.ok = false → (exec c op).2 = c
  visited : c.cleanBuff.1 = c.slots
  cleaned : c.cleanBuff.2.nbuf = 0 ∧ c.cleanBuff.2.contents = []
  released : c.elemsize.toInt = ptrSize → c.released = l

theorem exec_failing (op : Op) (h : (exec c op).1.ok = false) : (exec c op).2 = c := by
  cases op with
  | copyToBuff buf =>
    simp only [exec, BufferedChan.copyToBuff] at h ⊢
    split at h
    · cases h
    · next hfull => rw [if_neg hfull]
  | copyFromBuff =>
    simp only [exec, BufferedChan.copyFromBuff] at h ⊢
    split at h
    · cases h
    · next hempty => rw [if_neg hempty]

theorem Refines.stores (h : Refines c r₀) (hfit : SlotsFit c) : Stores c r₀.contents := by
  obtain ⟨hvisited, r', htracks, hn⟩ := h.toTracks.cleanBuff
  rw [h.toTracks.slots hfit] at hvisited
  refine ⟨h.toTracks.inRange, h.contents, exec_failing, hvisited, htracks.contents_nil hn, fun hptr => ?_⟩
  have hsize : sizeT c.elemsize = ptrSize := by
    have heq := sizeT_eq hfit.nonneg
    omega
  unfold BufferedChan.released
  rw [hvisited, ← h.contents, BufferedChan.contents, hsize]

/-- The new buffer as a ring. -/
def newRing (c : BufferedChan) (h : 0 < c.bufsize.toInt.toNat) : Ring Bytes :=
  { Ring.empty c.bufsize.toInt.toNat h ([] : Bytes) with buf := c.item }

theorem init_refines {elemsize bufsize : Int32} {isref : Bool} {mem : Int → UInt8} (hb : 0 < bufsize.toInt.toNat) :
    Refines (bufferedChanInit elemsize bufsize isref mem)
      (newRing (bufferedChanInit elemsize bufsize isref mem) hb) where
  bufsize := by
    change bufsize.toInt = (bufsize.toInt.toNat : Int)
    omega
  nbuf := rfl
  recvx := rfl
  sendx := rfl
  items := fun _ _ => rfl

theorem toNat_pos {x : Int32} (h : 0 < x) : 0 < x.toInt.toNat := by
  have hpos := Int32.lt_iff_toInt_lt.mp h
  have hzero : (0 : Int32).toInt = 0 := rfl
  omega

/-- **The buffer is a bounded queue**: any sequence of calls gives the results it gives on a
    queue of at most `bufsize` items, and stores what is in the queue. -/
theorem buffer_is_fifo (elemsize bufsize : Int32) (isref : Bool) (mem : Int → UInt8) (hb : 0 < bufsize)
    (hfit : SlotsFit (bufferedChanInit elemsize bufsize isref mem)) (ops : List Op) :
    (run (bufferedChanInit elemsize bufsize isref mem) ops).1 =
        (Fifo.run bufsize.toInt.toNat (sizeT (bitField31 elemsize)) [] ops).1 ∧
      Stores (run (bufferedChanInit elemsize bufsize isref mem) ops).2
        (Fifo.run bufsize.toInt.toNat (sizeT (bitField31 elemsize)) [] ops).2 := by
  obtain ⟨hres, hfit', r', hlast, hcontents⟩ := (init_refines (toNat_pos hb)).run hfit ops
  exact ⟨hres, hcontents ▸ hlast.stores hfit'⟩

/-- Two elements of one byte each in a buffer with one slot. -/
theorem buffer_is_fifo_oneSlot :
    (run (bufferedChanInit 1 1 false fun _ => 0)
        [.copyToBuff fun _ => 7, .copyToBuff fun _ => 8, .copyFromBuff, .copyToBuff fun _ => 9]).1 =
      [.stored true, .stored false, .taken true (some [7]), .stored true] ∧
    (run (bufferedChanInit 1 1 false fun _ => 0)
        [.copyToBuff fun _ => 7, .copyToBuff fun _ => 8, .copyFromBuff, .copyToBuff fun _ => 9]).2.contents =
      [[9]] := by
  obtain ⟨hres, hstores⟩ := buffer_is_fifo 1 1 false (fun _ => 0) (by decide) ⟨by decide, by decide⟩
    [.copyToBuff fun _ => 7, .copyToBuff fun _ => 8, .copyFromBuff, .copyToBuff fun _ => 9]
  rw [hres, hstores.contents]
  exact ⟨by decide, by decide⟩

/-! ### The bytes reserved -/

/-- The calls on a channel, as far as its buffer goes: one that finds a coroutine waiting, or
    that blocks, leaves the buffer alone. -/
inductive Call where
  | send (buf : Option (Nat → UInt8))
  | recv (buf : Bool)
  | close

/-- The end of `coroc_chan_close`. -/
def chanClose (c : BufferedChan) : BufferedChan :=
  if c.close then c
  else if c.isref then { c with close := true }.cleanBuff.2
  else { c with close := true }

def step (c : BufferedChan) : Call → Option BufferedChan
  | .send buf => some (if c.close then c else (c.copyToBuff buf).2)
  | .recv buf => some (c.copyFromBuff buf).2.2
  | .close => some (chanClose c)

/-- The states of the buffer of a channel from `_coroc_chan_allocate`. -/
def Reachable (elemsize bufsize : Int32) (isref : Bool) (mem : Int → UInt8) : BufferedChan → Prop :=
  Reach step (fun _ _ => True) fun c => c = bufferedChanInit elemsize bufsize isref mem

/-- The bytes of the slot with index `x`, as the copies take them. -/
def slotBytes (c : BufferedChan) (x : Int32) : Set Int := Set.Ico (c.slot x) (c.slot x + sizeT c.elemsize)

/-- The next calls stay in `w` bytes, and no two slots share one. -/
structure Inside (w : Int) (c : BufferedChan) : Prop where
  copyToBuff : c.nbuf < c.bufsize → slotBytes c c.sendx ⊆ Set.Ico 0 w
  copyFromBuff : 0 < c.nbuf → slotBytes c c.recvx ⊆ Set.Ico 0 w
  cleanBuff : c.isref = true → ∀ p ∈ c.cleanBuff.1, Set.Ico p (p + ptrSize) ⊆ Set.Ico 0 w
  apart : ∀ x y : Int32, 0 ≤ x → x < c.bufsize → 0 ≤ y → y < c.bufsize → x ≠ y →
    Disjoint (slotBytes c x) (slotBytes c y)

/-- The product of the sizes does not overflow, and a reference fits in an element; or there is
    nothing to store. -/
def Fits (elemsize bufsize : Int32) (isref : Bool) : Prop :=
  ((bitField31 elemsize).toInt = 0 ∧ isref = false) ∨
    (0 < (bitField31 elemsize).toInt ∧
      (bitField31 elemsize).toInt * bufsize.toInt = (elemsize * bufsize).toInt ∧
      (isref = true → ptrSize ≤ (bitField31 elemsize).toInt))

/-- What no call changes, and the indices are those of a ring. -/
structure Allocated (elemsize bufsize : Int32) (isref : Bool) (c : BufferedChan) : Prop where
  elemsize : c.elemsize = bitField31 elemsize
  bufsize : c.bufsize = bufsize
  isref : c.isref = isref
  ring : ∃ r : Ring Nat, Tracks c r

section

variable {elemsize bufsize : Int32} {isref : Bool} {mem : Int → UInt8}

theorem cleanLoop_same (n : Nat) (c : BufferedChan) :
    (BufferedChan.cleanLoop n c).2.elemsize = c.elemsize ∧ (BufferedChan.cleanLoop n c).2.bufsize = c.bufsize ∧
      (BufferedChan.cleanLoop n c).2.isref = c.isref := by
  induction n generalizing c with
  | zero => exact ⟨rfl, rfl, rfl⟩
  | succ n ih =>
    unfold BufferedChan.cleanLoop
    split
    · exact ih c.shift
    · exact ⟨rfl, rfl, rfl⟩

namespace Allocated

theorem init (hb : 0 < bufsize) :
    Allocated elemsize bufsize isref (bufferedChanInit elemsize bufsize isref mem) where
  elemsize := rfl
  bufsize := rfl
  isref := rfl
  ring := by
    refine ⟨Ring.empty bufsize.toInt.toNat (toNat_pos hb) 0, ?_, rfl, rfl, rfl⟩
    have hpos := toNat_pos hb
    change bufsize.toInt = (bufsize.toInt.toNat : Int)
    omega

theorem copyToBuff (h : Allocated elemsize bufsize isref c) (buf : Option (Nat → UInt8)) :
    Allocated elemsize bufsize isref (c.copyToBuff buf).2 := by
  obtain ⟨helem, hsize, href, r, hring⟩ := h
  by_cases hlt : c.nbuf < c.bufsize
  · rw [BufferedChan.copyToBuff, if_pos hlt]
    exact ⟨helem, hsize, href, _, hring.push 0 (hring.lt_iff.mp hlt)⟩
  · rw [BufferedChan.copyToBuff, if_neg hlt]
    exact ⟨helem, hsize, href, r, hring⟩

theorem copyFromBuff (h : Allocated elemsize bufsize isref c) (buf : Bool) :
    Allocated elemsize bufsize isref (c.copyFromBuff buf).2.2 := by
  obtain ⟨helem, hsize, href, r, hring⟩ := h
  by_cases hpos : 0 < c.nbuf
  · rw [BufferedChan.copyFromBuff, if_pos hpos]
    exact ⟨helem, hsize, href, _, hring.shift (hring.pos_iff.mp hpos)⟩
  · rw [BufferedChan.copyFromBuff, if_neg hpos]
    exact ⟨helem, hsize, href, r, hring⟩

theorem chanClose (h : Allocated elemsize bufsize isref c) : Allocated elemsize bufsize isref (chanClose c) := by
  obtain ⟨helem, hsize, href, r, hring⟩ := h
  have hclosed : Tracks { c with close := true } r := ⟨hring.bufsize, hring.nbuf, hring.recvx, hring.sendx⟩
  unfold ChanBuffer.chanClose
  split
  · exact ⟨helem, hsize, href, r, hring⟩
  split
  · obtain ⟨helem', hsize', href'⟩ := cleanLoop_same c.nbuf.toInt.toNat { c with close := true }
    refine ⟨helem'.trans helem, hsize'.trans hsize, href'.trans href, ?_⟩
    obtain ⟨_, r', htracks, _⟩ := hclosed.cleanBuff
    exact ⟨r', htracks⟩
  · exact ⟨helem, hsize, href, r, hclosed⟩

theorem step {c' : BufferedChan} (h : Allocated elemsize bufsize isref c) {call : Call}
    (hs : ChanBuffer.step c call = some c') : Allocated elemsize bufsize isref c' := by
  cases call with
  | send buf =>
    cases hs
    split
    · exact h
    · exact h.copyToBuff buf
  | recv buf =>
    cases hs
    exact h.copyFromBuff buf
  | close =>
    cases hs
    exact h.chanClose

end Allocated

theorem Reachable.allocated (h : Reachable elemsize bufsize isref mem c) (hb : 0 < bufsize) :
    Allocated elemsize bufsize isref c := by
  refine Reach.invariant ?_ ?_ h
  · rintro _ rfl
    exact .init hb
  · exact fun c call c' ih _ hs => ih.step hs

/-! ### Sizes that fit -/

theorem toInt_bitField31 (x : Int32) : (bitField31 x).toInt = x.toInt.bmod (2 ^ 31) := by
  have hlow : -(2 ^ 31 / 2) ≤ x.toInt.bmod (2 ^ 31) := Int.le_bmod (by decide)
  have hhigh : x.toInt.bmod (2 ^ 31) < (2 ^ 31 + 1) / 2 := Int.bmod_lt (by decide)
  exact Int32.toInt_ofInt_of_le (by omega) (by omega)

theorem reserved_modEq (elemsize bufsize : Int32) :
    reserved elemsize bufsize ≡ (bitField31 elemsize).toInt * bufsize.toInt [ZMOD 2 ^ 31] := by
  have hproduct : reserved elemsize bufsize ≡ elemsize.toInt * bufsize.toInt [ZMOD 2 ^ 32] := by
    unfold reserved
    rw [Int32.toInt_mul]
    exact Int.bmod_emod
  have hfield : (bitField31 elemsize).toInt ≡ elemsize.toInt [ZMOD 2 ^ 31] := by
    rw [toInt_bitField31]
    exact Int.bmod_emod
  exact (hproduct.of_dvd (by decide)).trans (hfield.symm.mul_right _)

theorem reserved_lt (elemsize bufsize : Int32) : reserved elemsize bufsize < 2 ^ 31 :=
  Int32.toInt_lt _

/-- Enough bytes are just those that were meant. -/
theorem reserved_eq {elemsize bufsize : Int32} (he : 0 ≤ (bitField31 elemsize).toInt * bufsize.toInt)
    (h : (bitField31 elemsize).toInt * bufsize.toInt ≤ reserved elemsize bufsize) :
    (bitField31 elemsize).toInt * bufsize.toInt = reserved elemsize bufsize := by
  have hlt := reserved_lt elemsize bufsize
  have hmod := reserved_modEq elemsize bufsize
  unfold Int.ModEq at hmod
  rw [Int.emod_eq_of_lt (by omega) hlt, Int.emod_eq_of_lt he (by omega)] at hmod
  exact hmod.symm

theorem slotBytes_eq (h : SlotsFit c) {x : Int32} (hx : 0 ≤ x.toInt) (hlt : x.toInt < c.bufsize.toInt) :
    slotBytes c x =
      Set.Ico (c.elemsize.toInt * x.toInt) (c.elemsize.toInt * x.toInt + c.elemsize.toInt) := by
  unfold slotBytes
  rw [h.slot_eq hx hlt, sizeT_eq h.nonneg]

theorem inside_zero (hzero : c.elemsize.toInt = 0) (href : c.isref = false) (w : Int) : Inside w c := by
  have hempty (x : Int32) : slotBytes c x = ∅ := by
    unfold slotBytes sizeT
    rw [hzero]
    exact Set.Ico_eq_empty (by simp)
  refine ⟨fun _ => ?_, fun _ => ?_, fun hisref => ?_, fun x y _ _ _ _ _ => ?_⟩
  · rw [hempty]
    exact Set.empty_subset _
  · rw [hempty]
    exact Set.empty_subset _
  · rw [href] at hisref
    cases hisref
  · rw [hempty]
    exact Set.empty_disjoint _

/-- Each slot ends where the next one begins, and the last one with the bytes reserved. -/
theorem Tracks.inside (h : Tracks c r) (hpos : 0 < c.elemsize.toInt)
    (href : c.isref = true → ptrSize ≤ c.elemsize.toInt) {w : Int}
    (hw : c.elemsize.toInt * c.bufsize.toInt = w) (hlt : w < 2 ^ 31) : Inside w c := by
  have hsize := h.bufsize
  have hrecv := r.recvx_lt
  have hsend := r.sendx_lt
  have hlast : c.elemsize.toInt * (c.bufsize.toInt - 1) < 2 ^ 31 := by
    have hle := slots_apart hpos.le (x := c.bufsize.toInt - 1) (y := c.bufsize.toInt) (by omega)
    omega
  have hfit : SlotsFit c := ⟨hpos.le, hlast⟩
  have hin {x : Int} (hx : 0 ≤ x) (hxb : x < c.bufsize.toInt) :
      0 ≤ c.elemsize.toInt * x ∧ c.elemsize.toInt * x + c.elemsize.toInt ≤ w :=
    ⟨Int.mul_nonneg hpos.le hx, hw ▸ slots_apart hpos.le hxb⟩
  have hbytes {x : Int32} (hx : 0 ≤ x.toInt) (hxb : x.toInt < c.bufsize.toInt) :
      slotBytes c x ⊆ Set.Ico 0 w := by
    rw [slotBytes_eq hfit hx hxb]
    exact Set.Ico_subset_Ico (hin hx hxb).1 (hin hx hxb).2
  have hrecvx := h.recvx
  have hsendx := h.sendx
  refine ⟨fun _ => hbytes (by omega) (by omega), fun _ => hbytes (by omega) (by omega), fun hisref p hp => ?_,
    fun x y hx hxb hy hyb hne => ?_⟩
  · rw [h.cleanBuff.1, h.slots hfit] at hp
    obtain ⟨i, _, rfl⟩ := List.mem_map.mp hp
    have hmod := Nat.mod_lt (c.recvx.toInt.toNat + i) (show 0 < c.bufsize.toInt.toNat by omega)
    have hbound := hin (x := ((c.recvx.toInt.toNat + i) % c.bufsize.toInt.toNat : Nat)) (by omega) (by omega)
    have hptr := href hisref
    exact Set.Ico_subset_Ico hbound.1 (by omega)
  · have hx := Int32.le_iff_toInt_le.mp hx
    have hy := Int32.le_iff_toInt_le.mp hy
    have hxb := Int32.lt_iff_toInt_lt.mp hxb
    have hyb := Int32.lt_iff_toInt_lt.mp hyb
    have hne : x.toInt ≠ y.toInt := fun heq => hne (Int32.toInt_inj.mp heq)
    rw [slotBytes_eq hfit hx hxb, slotBytes_eq hfit hy hyb, Set.disjoint_left]
    rintro a ⟨hxa, hax⟩ ⟨hya, hay⟩
    rcases lt_or_gt_of_ne hne with hbelow | habove
    · have hsep := slots_apart hpos.le hbelow
      omega
    · have hsep := slots_apart hpos.le habove
      omega

theorem Allocated.inside (h : Allocated elemsize bufsize isref c) (hfits : Fits elemsize bufsize isref) :
    Inside (reserved elemsize bufsize) c := by
  obtain ⟨helem, rfl, rfl, r, hring⟩ := h
  rcases hfits with ⟨hzero, href⟩ | ⟨hpos, hw, href⟩
  · rw [← helem] at hzero
    exact inside_zero hzero href _
  · rw [← helem] at hpos hw href
    exact hring.inside hpos href hw (reserved_lt _ _)

/-! ### Sizes that do not -/

/-- Disjoint intervals take their lengths. -/
theorem packed {s : Nat → Int} {e w : Int} {n : Nat} (he : 0 ≤ e) (hw : 0 ≤ w)
    (hin : ∀ i < n, Set.Ico (s i) (s i + e) ⊆ Set.Ico 0 w)
    (hapart : ∀ i < n, ∀ j < n, i ≠ j → Disjoint (Set.Ico (s i) (s i + e)) (Set.Ico (s j) (s j + e))) :
    e * n ≤ w := by
  have hdisjoint : ∀ i ∈ Finset.range n, ∀ j ∈ Finset.range n, i ≠ j →
      Disjoint (Finset.Ico (s i) (s i + e)) (Finset.Ico (s j) (s j + e)) := by
    intro i hi j hj hij
    have hsets := hapart i (Finset.mem_range.mp hi) j (Finset.mem_range.mp hj) hij
    rw [← Finset.coe_Ico, ← Finset.coe_Ico] at hsets
    exact Finset.disjoint_coe.mp hsets
  have hsub : (Finset.range n).biUnion (fun i => Finset.Ico (s i) (s i + e)) ⊆ Finset.Ico 0 w := by
    refine Finset.biUnion_subset.mpr fun i hi => ?_
    have hset := hin i (Finset.mem_range.mp hi)
    rw [← Finset.coe_Ico, ← Finset.coe_Ico] at hset
    exact Finset.coe_subset.mp hset
  have hcard := Finset.card_le_card hsub
  have hlen (i : Nat) : (Finset.Ico (s i) (s i + e)).card = e.toNat := by
    rw [Int.card_Ico, add_sub_cancel_left]
  rw [Finset.card_biUnion hdisjoint, Finset.sum_const_nat fun i _ => hlen i, Finset.card_range, Int.card_Ico,
    Int.sub_zero] at hcard
  calc e * n = (n * e.toNat : Nat) := by
        rw [Nat.cast_mul, Int.toNat_of_nonneg he, Int.mul_comm]
    _ ≤ w.toNat := Int.ofNat_le.mpr hcard
    _ = w := Int.toNat_of_nonneg hw

/-- Sends alone fill the buffer, slot after slot. -/
theorem Reachable.filled (hb : 0 < bufsize) {n : Nat} (hn : n ≤ bufsize.toInt) :
    ∃ c, Reachable elemsize bufsize isref mem c ∧ c.close = false ∧
      ∃ r : Ring Nat, Tracks c r ∧ r.nbuf = n ∧ r.recvx = 0 := by
  induction n with
  | zero =>
    refine ⟨_, .start rfl, rfl, Ring.empty bufsize.toInt.toNat (toNat_pos hb) 0, ⟨?_, rfl, rfl, rfl⟩, rfl, rfl⟩
    have hpos := toNat_pos hb
    change bufsize.toInt = (bufsize.toInt.toNat : Int)
    omega
  | succ n ih =>
    obtain ⟨c, hc, hopen, r, hring, hcount, hrecvx⟩ := ih (by omega)
    have hsize := hring.bufsize
    rw [(hc.allocated hb).bufsize] at hsize
    have hlt : r.nbuf < r.bufsize := by omega
    have hsend : step c (.send none) = some { c with
        buf := chanMemcpy c.buf (c.slot c.sendx) none (sizeT c.elemsize)
        sendx := (c.sendx + 1) % c.bufsize
        nbuf := c.nbuf + 1 } := by
      simp only [step, hopen, Bool.false_eq_true, if_false, BufferedChan.copyToBuff, if_pos (hring.lt_iff.mpr hlt)]
    refine ⟨_, .next _ hc trivial hsend, hopen, _, hring.push 0 hlt, ?_, hrecvx⟩
    exact congrArg (· + 1) hcount

/-- The positions of the slots, by number. -/
def slotAt (elemsize : Int32) (i : Nat) : Int := (bitField31 elemsize * .ofNat i).toInt

theorem slotAt_eq (he : 0 ≤ (bitField31 elemsize).toInt) {i : Nat} (hi : i < bufsize.toInt)
    (hlt : (bitField31 elemsize).toInt * bufsize.toInt < 2 ^ 31) :
    slotAt elemsize i = (bitField31 elemsize).toInt * i := by
  have hhigh := bufsize.toInt_lt
  have hindex : (Int32.ofNat i).toInt = i := Int32.toInt_ofNat_of_lt (by omega)
  have hlow : 0 ≤ (bitField31 elemsize).toInt * i := Int.mul_nonneg he (Int.natCast_nonneg i)
  have hle : (bitField31 elemsize).toInt * i ≤ (bitField31 elemsize).toInt * bufsize.toInt :=
    Int.mul_le_mul_of_nonneg_left (by omega) he
  unfold slotAt
  rw [Int32.toInt_mul, hindex]
  exact Int.bmod_eq_of_le (by omega) (by omega)

section

variable (h : ∀ c, Reachable elemsize bufsize isref mem c → Inside (reserved elemsize bufsize) c)

include h

/-- Every slot is one that a send writes. -/
theorem slotAt_inside (hb : 0 < bufsize) {i : Nat} (hi : i < bufsize.toInt) :
    Set.Ico (slotAt elemsize i) (slotAt elemsize i + sizeT (bitField31 elemsize)) ⊆
      Set.Ico 0 (reserved elemsize bufsize) := by
  obtain ⟨c, hc, _, r, hring, hcount, hrecvx⟩ := @Reachable.filled elemsize bufsize isref mem hb i hi.le
  obtain ⟨helem, hsize, _, _⟩ := hc.allocated hb
  have hbuf := hring.bufsize
  rw [hsize] at hbuf
  have hhigh := bufsize.toInt_lt
  have hsend : c.sendx = .ofNat i := by
    refine Int32.toInt_inj.mp ?_
    rw [hring.sendx, r.sendx_eq, hrecvx, hcount, Nat.zero_add, Nat.mod_eq_of_lt (by omega),
      Int32.toInt_ofNat_of_lt (by omega)]
  have hin := (h c hc).copyToBuff (hring.lt_iff.mpr (by omega))
  unfold slotBytes BufferedChan.slot at hin
  rw [hsend, helem] at hin
  exact hin

theorem slotAt_apart {i j : Nat} (hi : i < bufsize.toInt) (hj : j < bufsize.toInt) (hij : i ≠ j) :
    Disjoint (Set.Ico (slotAt elemsize i) (slotAt elemsize i + sizeT (bitField31 elemsize)))
      (Set.Ico (slotAt elemsize j) (slotAt elemsize j + sizeT (bitField31 elemsize))) := by
  have hhigh := bufsize.toInt_lt
  have hindex {i : Nat} (hi : i < bufsize.toInt) : (Int32.ofNat i).toInt = i :=
    Int32.toInt_ofNat_of_lt (by omega)
  have hle {i : Nat} (hi : i < bufsize.toInt) : 0 ≤ Int32.ofNat i := by
    rw [Int32.le_iff_toInt_le, hindex hi]
    exact Int.natCast_nonneg i
  have hlt {i : Nat} (hi : i < bufsize.toInt) : Int32.ofNat i < bufsize := by
    rw [Int32.lt_iff_toInt_lt, hindex hi]
    exact hi
  have hne : Int32.ofNat i ≠ .ofNat j := by
    intro heq
    have hcast := congrArg Int32.toInt heq
    rw [hindex hi, hindex hj] at hcast
    omega
  exact (h _ (.start rfl)).apart _ _ (hle hi) (hlt hi) (hle hj) (hlt hj) hne

/-- A full buffer that is cleaned reads a pointer in every slot. -/
theorem slotAt_cleaned (hb : 0 < bufsize) (href : isref = true) {i : Nat} (hi : i < bufsize.toInt) :
    Set.Ico (slotAt elemsize i) (slotAt elemsize i + ptrSize) ⊆ Set.Ico 0 (reserved elemsize bufsize) := by
  have hhigh := bufsize.toInt_lt
  obtain ⟨c, hc, _, r, hring, hcount, hrecvx⟩ :=
    @Reachable.filled elemsize bufsize isref mem hb bufsize.toInt.toNat (by omega)
  obtain ⟨helem, hsize, hisref, _⟩ := hc.allocated hb
  have hbuf := hring.bufsize
  rw [hsize] at hbuf
  refine (h c hc).cleanBuff (hisref.trans href) _ ?_
  rw [hring.cleanBuff.1]
  refine List.mem_map.mpr ⟨i, ?_, ?_⟩
  · refine List.mem_map.mpr ⟨i, List.mem_range.mpr ?_, ?_⟩
    · change i < r.nbuf
      omega
    · change (r.recvx + i) % r.bufsize = i
      rw [hrecvx, Nat.zero_add, Nat.mod_eq_of_lt (by omega)]
  · unfold BufferedChan.slot slotAt
    rw [helem]

theorem fits_of_inside (hb : 0 < bufsize) : Fits elemsize bufsize isref := by
  have hpos := toNat_pos hb
  have hlt := reserved_lt elemsize bufsize
  have hlow := (bitField31 elemsize).le_toInt
  have hzero : slotAt elemsize 0 = 0 := by
    unfold slotAt
    rw [show Int32.ofNat 0 = 0 from rfl, Int32.mul_zero]
    rfl
  have hfirst := slotAt_inside h hb (i := 0) (by omega)
  rcases lt_trichotomy (bitField31 elemsize).toInt 0 with hneg | hnil | he
  · have hsize : (sizeT (bitField31 elemsize) : Int) = 2 ^ 64 + (bitField31 elemsize).toInt := by
      unfold sizeT
      omega
    rw [hzero, hsize, Set.Ico_subset_Ico_iff (by omega)] at hfirst
    omega
  · refine .inl ⟨hnil, Bool.eq_false_iff.mpr fun href => ?_⟩
    have hptr := slotAt_cleaned h hb href (i := 0) (by omega)
    rw [hzero, Set.Ico_subset_Ico_iff (by decide)] at hptr
    have hmod := reserved_modEq elemsize bufsize
    rw [hnil, Int.zero_mul] at hmod
    unfold Int.ModEq at hmod
    have hptrSize : ptrSize = 8 := rfl
    omega
  · have hsize := sizeT_eq he.le
    rw [hzero, hsize, Set.Ico_subset_Ico_iff (by omega)] at hfirst
    have hle : (bitField31 elemsize).toInt * bufsize.toInt.toNat ≤ reserved elemsize bufsize := by
      refine packed (s := slotAt elemsize) he.le (by omega) (fun i hi => ?_) (fun i hi j hj hij => ?_)
      · exact hsize ▸ slotAt_inside h hb (by omega)
      · exact hsize ▸ slotAt_apart h (by omega) (by omega) hij
    rw [Int.toNat_of_nonneg (by omega)] at hle
    have hw := reserved_eq (Int.mul_nonneg he.le (by omega)) hle
    refine .inr ⟨he, hw, fun href => ?_⟩
    have hlast := slotAt_cleaned h hb href (i := bufsize.toInt.toNat - 1) (by omega)
    have hbelow : (bufsize.toInt.toNat - 1 : Nat) < bufsize.toInt := by omega
    have hat := slotAt_eq he.le hbelow (hw.trans_lt hlt)
    have hptrSize : ptrSize = 8 := rfl
    rw [Set.Ico_subset_Ico_iff (by omega), hat, Nat.cast_sub (by omega), Int.toNat_of_nonneg (by omega)] at hlast
    have hend := slots_apart he.le (x := bufsize.toInt - 1) (y := bufsize.toInt) (by omega)
    have hsplit : (bitField31 elemsize).toInt * (bufsize.toInt - (1 : Nat)) =
        (bitField31 elemsize).toInt * bufsize.toInt - (bitField31 elemsize).toInt := by ring
    omega

end

/-- **The bytes reserved**: every call stays in them, whatever was called before, just if the
    sizes fit. -/
theorem slots_inside_iff (elemsize bufsize : Int32) (isref : Bool) (mem : Int → UInt8) (hb : 0 < bufsize) :
    (∀ c, Reachable elemsize bufsize isref mem c → Inside (reserved elemsize bufsize) c) ↔
      Fits elemsize bufsize isref :=
  ⟨fun h => fits_of_inside h hb, fun hfits _ hc => (hc.allocated hb).inside hfits⟩

/-- Two slots of four bytes. -/
theorem slots_inside_small :
    Fits 4 2 false ∧ ∀ c, Reachable 4 2 false (fun _ => 0) c → Inside (reserved 4 2) c := by
  have hfits : Fits 4 2 false := .inr ⟨by decide, by decide, nofun⟩
  exact ⟨hfits, (slots_inside_iff 4 2 false (fun _ => 0) (by decide)).mpr hfits⟩

/-- The product of two accepted sizes is zero, and the first send writes where nothing was
    reserved. -/
theorem slots_outside :
    ¬ ∀ elemsize bufsize : Int32, 0 < elemsize → 0 < bufsize → ∀ (isref : Bool) (mem : Int → UInt8),
      ∀ c, Reachable elemsize bufsize isref mem c → Inside (reserved elemsize bufsize) c := by
  intro h
  have hfits : Fits 65536 65536 false :=
    fits_of_inside (h 65536 65536 (by decide) (by decide) false fun _ => 0) (by decide)
  rcases hfits with ⟨hzero, _⟩ | ⟨_, hw, _⟩
  · exact absurd hzero (by decide)
  · exact absurd hw (by decide)

/-- For a size of at least one byte the field and the product must both be wide enough. -/
theorem fits_iff (he : 0 < elemsize) (hb : 0 < bufsize) :
    Fits elemsize bufsize isref ↔ elemsize.toInt < 2 ^ 30 ∧ elemsize.toInt * bufsize.toInt < 2 ^ 31 ∧
      (isref = true → ptrSize ≤ elemsize.toInt) := by
  have hpos := toNat_pos he
  have hbpos := toNat_pos hb
  have hlow : 0 ≤ elemsize.toInt * bufsize.toInt := Int.mul_nonneg (by omega) (by omega)
  have hhigh := elemsize.toInt_lt
  by_cases hfield : elemsize.toInt < 2 ^ 30
  · have hsame : (bitField31 elemsize).toInt = elemsize.toInt := by
      rw [toInt_bitField31]
      exact Int.bmod_eq_of_le (by omega) (by omega)
    have hlt := (elemsize * bufsize).toInt_lt
    unfold Fits
    rw [hsame]
    constructor
    · rintro (⟨hzero, _⟩ | ⟨_, hw, href⟩)
      · omega
      · exact ⟨hfield, by omega, href⟩
    · rintro ⟨_, hproduct, href⟩
      refine .inr ⟨by omega, ?_, href⟩
      rw [Int32.toInt_mul]
      exact (Int.bmod_eq_of_le (by omega) (by omega)).symm
  · have hneg : (bitField31 elemsize).toInt < 0 := by
      rw [toInt_bitField31, Int.bmod_def, if_neg (by omega)]
      omega
    constructor
    · rintro (⟨hzero, _⟩ | ⟨he', _, _⟩)
      · omega
      · omega
    · exact fun h => absurd h.1 hfield

end

end Coroc.ChanBuffer
