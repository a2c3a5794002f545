import Mathlib.Logic.Function.Basic
import Mathlib.Data.List.Nodup

/-!
# Linked lists in memory

The links of the nodes of a memory are a function, and a list is what one visits by following
them.  Nothing here mentions the runtime.

* `Path next a l b`: from `a`, following `next`, one visits the nodes of `l` and comes to `b`.
* `redirect` is the change that adding to a list and removing from one have in common: the link
  that the end of a path is reached by (that of its last node, or the one into the path when it
  has no nodes) is turned elsewhere.
* `Linked` is a list with links in both directions, which `Linked.append` and `Linked.remove`
  keep.
-/

namespace Coroc.LinkedList

variable {ι : Type} {next next' prev prev' : ι → Option ι} {a b head tail : Option ι}
  {l l' l₁ l₂ : List ι} {x y : ι}

def Path (next : ι → Option ι) : Option ι → List ι → Option ι → Prop
  | a, [], b => a = b
  | a, x :: l, b => a = some x ∧ Path next (next x) l b

@[simp]
theorem path_nil : Path next a [] b ↔ a = b := Iff.rfl

@[simp]
theorem path_cons : Path next a (x :: l) b ↔ a = some x ∧ Path next (next x) l b := Iff.rfl

theorem path_append : Path next a (l₁ ++ l₂) b ↔ ∃ c, Path next a l₁ c ∧ Path next c l₂ b := by
  induction l₁ generalizing a with
  | nil => simp
  | cons x l₁ ih => simp only [List.cons_append, path_cons, ih, ← exists_and_left, and_assoc]

namespace Path

theorem congr (h : Path next a l b) (heq : ∀ y ∈ l, next' y = next y) : Path next' a l b := by
  induction l generalizing a with
  | nil => exact h
  | cons x l ih =>
    obtain ⟨ha, hrest⟩ := h
    refine ⟨ha, ?_⟩
    rw [heq x List.mem_cons_self]
    exact ih hrest fun y hy => heq y (List.mem_cons_of_mem x hy)

/-- Where a path that comes to its end begins. -/
theorem start (h : Path next a l none) : a = l.head? := by
  cases l with
  | nil => exact h
  | cons x l => exact h.1

theorem split (h : Path next a (l₁ ++ x :: l₂) b) : Path next a l₁ (some x) ∧ Path next (next x) l₂ b := by
  obtain ⟨c, hfirst, rfl, hrest⟩ := path_append.mp h
  exact ⟨hfirst, hrest⟩

/-- Behind the last node there is nothing. -/
theorem last (h : Path next a l none) (hx : l.getLast? = some x) : next x = none := by
  obtain ⟨l₀, rfl⟩ := List.getLast?_eq_some_iff.mp hx
  exact h.split.2

end Path

/-! ### Links in both directions -/

structure Linked (next prev : ι → Option ι) (head tail : Option ι) (l : List ι) : Prop where
  nodup : l.Nodup
  forward : Path next head l none
  backward : Path prev tail l.reverse none

namespace Linked

theorem nil : Linked next prev none none [] := ⟨.nil, rfl, rfl⟩

theorem congr (h : Linked next prev head tail l) (hnext : ∀ y ∈ l, next' y = next y)
    (hprev : ∀ y ∈ l, prev' y = prev y) : Linked next' prev' head tail l :=
  ⟨h.nodup, h.forward.congr hnext, h.backward.congr fun y hy => hprev y (List.mem_reverse.mp hy)⟩

theorem head_eq (h : Linked next prev head tail l) : head = l.head? := h.forward.start

theorem tail_eq (h : Linked next prev head tail l) : tail = l.getLast? := by
  rw [h.backward.start, List.head?_reverse]

theorem next_eq (h : Linked next prev head tail (l₁ ++ x :: l₂)) : next x = l₂.head? :=
  h.forward.split.2.start

theorem prev_eq (h : Linked next prev head tail (l₁ ++ x :: l₂)) : prev x = l₁.getLast? := by
  have hback := h.backward
  rw [List.reverse_append, List.reverse_cons, List.append_assoc, List.singleton_append] at hback
  rw [hback.split.2.start, List.head?_reverse]

end Linked

/-! ### Turning the end of a path -/

variable [DecidableEq ι]

theorem update_apart {f : ι → Option ι} {c : Option ι} (hx : x ∉ l) : ∀ y ∈ l, Function.update f x c y = f y := by
  intro y hy
  refine Function.update_of_ne ?_ _ _
  rintro rfl
  exact hx hy

/-- The links, and the link into the path, when its end is turned to `c`; `last` is the last
    node of the path. -/
def redirect (next : ι → Option ι) (a last c : Option ι) : (ι → Option ι) × Option ι :=
  match last with
  | none => (next, c)
  | some p => (Function.update next p c, a)

theorem redirect_of_ne {last c : Option ι} (h : last ≠ some y) : (redirect next a last c).1 y = next y := by
  cases last with
  | none => rfl
  | some p => exact Function.update_of_ne (fun heq => h (congrArg some heq.symm)) _ _

theorem Path.redirect (h : Path next a l b) (hl : l.Nodup) (c : Option ι) :
    Path (redirect next a l.getLast? c).1 (LinkedList.redirect next a l.getLast? c).2 l c := by
  rcases l.eq_nil_or_concat with rfl | ⟨l₀, p, rfl⟩
  · rfl
  · rw [List.concat_eq_append] at h hl ⊢
    obtain ⟨hfirst, _⟩ := h.split
    have hp : p ∉ l₀ := fun hmem => (List.nodup_append.mp hl).2.2 p hmem p List.mem_cons_self rfl
    rw [List.getLast?_concat]
    exact path_append.mpr ⟨some p, hfirst.congr (update_apart hp), rfl, Function.update_self _ _ _⟩

/-- A path and one behind it. -/
theorem Path.extend (h : Path next a l none) (hl : l.Nodup) (h' : Path next b l' none) (hapart : ∀ y ∈ l', y ∉ l) :
    Path (LinkedList.redirect next a l.getLast? b).1 (LinkedList.redirect next a l.getLast? b).2 (l ++ l') none := by
  refine path_append.mpr ⟨b, h.redirect hl b, h'.congr fun y hy => redirect_of_ne fun hlast => ?_⟩
  exact hapart y hy (List.mem_of_getLast? hlast)

/-- The path without one of its nodes. -/
theorem Path.remove (h : Path next a (l₁ ++ x :: l₂) b) (hl : (l₁ ++ x :: l₂).Nodup) :
    Path (LinkedList.redirect next a l₁.getLast? (next x)).1
      (LinkedList.redirect next a l₁.getLast? (next x)).2 (l₁ ++ l₂) b := by
  obtain ⟨hfirst, hrest⟩ := h.split
  obtain ⟨hl₁, _, hapart⟩ := List.nodup_append.mp hl
  refine path_append.mpr ⟨next x, hfirst.redirect hl₁ _, hrest.congr fun y hy => redirect_of_ne fun hlast => ?_⟩
  have hy₁ : y ∈ l₁ := List.mem_of_getLast? hlast
  exact hapart y hy₁ y (List.mem_cons_of_mem x hy) rfl

namespace Linked

/-- A node is put behind the last one. -/
theorem append (h : Linked next prev head tail l) (hx : x ∉ l) :
    Linked (redirect (Function.update next x none) head tail (some x)).1 (Function.update prev x tail)
      (redirect (Function.update next x none) head tail (some x)).2 (some x) (l ++ [x]) where
  nodup := List.nodup_append.mpr ⟨h.nodup, List.nodup_singleton x, by
    rintro y hy z hz rfl
    rw [List.mem_singleton.mp hz] at hy
    exact hx hy⟩
  forward := by
    have hpath : Path (Function.update next x none) head l none := h.forward.congr (update_apart hx)
    have hlast : Path (Function.update next x none) (some x) [x] none := ⟨rfl, Function.update_self _ _ _⟩
    rw [h.tail_eq]
    refine hpath.extend h.nodup hlast fun y hy => ?_
    rw [List.mem_singleton.mp hy]
    exact hx
  backward := by
    rw [List.reverse_append]
    refine ⟨rfl, ?_⟩
    change Path (Function.update prev x tail) (Function.update prev x tail x) l.reverse none
    rw [Function.update_self]
    exact h.backward.congr (update_apart fun hmem => hx (List.mem_reverse.mp hmem))

/-- A node is taken out. -/
theorem remove (h : Linked next prev head tail (l₁ ++ x :: l₂)) :
    Linked (redirect next head (prev x) (next x)).1 (redirect prev tail (next x) (prev x)).1
      (redirect next head (prev x) (next x)).2 (redirect prev tail (next x) (prev x)).2 (l₁ ++ l₂) where
  nodup := h.nodup.sublist ((List.sublist_cons_self x l₂).append_left l₁)
  forward := by
    have hpath := h.forward.remove h.nodup
    rw [← h.prev_eq] at hpath
    exact hpath
  backward := by
    have hback := h.backward
    have hnodup := List.nodup_reverse.mpr h.nodup
    rw [List.reverse_append, List.reverse_cons, List.append_assoc, List.singleton_append] at hback hnodup
    have hpath := hback.remove hnodup
    rw [List.getLast?_reverse, ← h.next_eq] at hpath
    rw [List.reverse_append]
    exact hpath

end Linked

end Coroc.LinkedList
