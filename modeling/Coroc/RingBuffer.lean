import Mathlib.Logic.Function.Basic
import Mathlib.Data.List.Basic
import Mathlib.Data.Nat.ModEq

/-!
# A ring buffer with two indices and a count

The slots of an array are used in a circle: `sendx` is the next slot to fill, `recvx`
the next one to empty, and `nbuf` the number of slots in use.  The relation between
the three is a field, so a ring out of step cannot be built; `contents` is what the
ring holds, oldest first, and the operations are those of a bounded queue on it.
-/

namespace Coroc

structure Ring (α : Type) where
  bufsize : Nat
  nbuf : Nat
  recvx : Nat
  sendx : Nat
  buf : Nat → α
  bufsize_pos : 0 < bufsize
  nbuf_le : nbuf ≤ bufsize
  recvx_lt : recvx < bufsize
  sendx_eq : sendx = (recvx + nbuf) % bufsize

namespace Ring

variable {α : Type}

def contents (r : Ring α) : List α :=
  (List.range r.nbuf).map fun i => r.buf ((r.recvx + i) % r.bufsize)

@[simp]
theorem length_contents (r : Ring α) : r.contents.length = r.nbuf := by
  simp [contents]

def push (r : Ring α) (x : α) (h : r.nbuf < r.bufsize) : Ring α where
  bufsize := r.bufsize
  nbuf := r.nbuf + 1
  recvx := r.recvx
  sendx := (r.sendx + 1) % r.bufsize
  buf := Function.update r.buf r.sendx x
  bufsize_pos := r.bufsize_pos
  nbuf_le := h
  recvx_lt := r.recvx_lt
  sendx_eq := by rw [r.sendx_eq, Nat.mod_add_mod, Nat.add_assoc]

def pop (r : Ring α) (h : 0 < r.nbuf) : Ring α where
  bufsize := r.bufsize
  nbuf := r.nbuf - 1
  recvx := (r.recvx + 1) % r.bufsize
  sendx := r.sendx
  buf := r.buf
  bufsize_pos := r.bufsize_pos
  nbuf_le := by have := r.nbuf_le; omega
  recvx_lt := Nat.mod_lt _ r.bufsize_pos
  sendx_eq := by
    rw [r.sendx_eq, Nat.mod_add_mod]
    congr 1
    omega

theorem sendx_lt (r : Ring α) : r.sendx < r.bufsize := by
  rw [r.sendx_eq]
  exact Nat.mod_lt _ r.bufsize_pos

/-- The slot to fill is none of those in use. -/
theorem slot_ne_sendx (r : Ring α) {i : Nat} (hi : i < r.nbuf) (h : r.nbuf < r.bufsize) :
    (r.recvx + i) % r.bufsize ≠ r.sendx := by
  intro heq
  rw [r.sendx_eq] at heq
  have hmod : i ≡ r.nbuf [MOD r.bufsize] := Nat.ModEq.add_left_cancel' r.recvx heq
  have := Nat.ModEq.eq_of_lt_of_lt hmod (by omega) h
  omega

theorem contents_push (r : Ring α) (x : α) (h : r.nbuf < r.bufsize) :
    (r.push x h).contents = r.contents ++ [x] := by
  have hold : (List.range r.nbuf).map (fun i => (r.push x h).buf ((r.recvx + i) % r.bufsize)) =
      r.contents := by
    refine List.map_congr_left fun i hi => ?_
    exact Function.update_of_ne (r.slot_ne_sendx (List.mem_range.mp hi) h) _ _
  have hnew : (r.push x h).buf ((r.recvx + r.nbuf) % r.bufsize) = x := by
    rw [← r.sendx_eq]
    exact Function.update_self _ _ _
  calc (r.push x h).contents
      = (List.range (r.nbuf + 1)).map
          (fun i => (r.push x h).buf ((r.recvx + i) % r.bufsize)) := rfl
    _ = r.contents ++ [x] := by
      rw [List.range_succ, List.map_append, hold, List.map_singleton, hnew]

theorem contents_eq_cons (r : Ring α) (h : 0 < r.nbuf) :
    r.contents = r.buf r.recvx :: (r.pop h).contents := by
  obtain ⟨n, hn⟩ : ∃ n, r.nbuf = n + 1 := ⟨r.nbuf - 1, by omega⟩
  have hpop : (r.pop h).contents =
      (List.range n).map fun i => r.buf ((r.recvx + (i + 1)) % r.bufsize) := by
    have hlen : (r.pop h).nbuf = n := by
      change r.nbuf - 1 = n
      omega
    unfold contents
    rw [hlen]
    refine List.map_congr_left fun i _ => ?_
    change r.buf (((r.recvx + 1) % r.bufsize + i) % r.bufsize) = _
    rw [Nat.mod_add_mod, Nat.add_assoc, Nat.add_comm 1 i]
  rw [hpop, contents, hn, List.range_succ_eq_map, List.map_cons, List.map_map, Nat.add_zero,
    Nat.mod_eq_of_lt r.recvx_lt]
  rfl

/-- A ring of the given size with nothing in it. -/
def empty (bufsize : Nat) (h : 0 < bufsize) (x : α) : Ring α where
  bufsize := bufsize
  nbuf := 0
  recvx := 0
  sendx := 0
  buf := fun _ => x
  bufsize_pos := h
  nbuf_le := Nat.zero_le _
  recvx_lt := h
  sendx_eq := by simp

end Ring

end Coroc
