import Mathlib.Data.List.Sort
import Mathlib.Data.UInt
import Mathlib.Logic.Function.Basic
import Mathlib.Logic.Relation
import Coroc.Transition

/-!
# The locks of a select (`src/include/inter/lock_chain.h`, `src/channel.c`)

A select takes the locks of all its channels before it looks at them.  The set of the
select starts with a lock chain: the locks are sorted by address before they are taken for
the first time, so that concurrent selects and single operations cannot wait for each other
in a circle, and a flag says that they are.  A case that is added afterwards goes to the end
of the array, and the flag stays.

What the operations do to the channels between taking the locks and giving them back is not
modelled here.  `locks_in_order`: as long as a case added to a sorted set has a lock behind
the others, every select takes one lock for each case, in ascending order, and there is no
circle of coroutines that wait for each other's locks.
-/

namespace Coroc.LockChain

open Coroc.Transition

/-- The address of a lock; a channel is named by its lock. -/
abbrev Addr := UInt64

inductive CaseType where
  | send
  | recv
deriving DecidableEq, Repr

/-- `coroc_scase_t`, without the buffer. -/
structure Case where
  type : CaseType
  chan : Addr
deriving DecidableEq, Repr

/-- `struct coroc_chan_set`: the first `size` entries of its two arrays. -/
structure ChanSet where
  sorted : Bool
  volume : Nat
  locks : List Addr
  cases : List Case
deriving DecidableEq, Repr

namespace ChanSet

/-- `coroc_chan_set_init`. -/
def init (n : Nat) : ChanSet := ⟨false, n, [], []⟩

/-- What `coroc_chan_set_send` and `coroc_chan_set_recv` have in common; the assertion is
    that there is room. -/
def add (set : ChanSet) (type : CaseType) (chan : Addr) : Option ChanSet :=
  if set.cases.length < set.volume then
    some { set with locks := set.locks ++ [chan], cases := set.cases ++ [⟨type, chan⟩] }
  else none

/-- `coroc_chan_set_send`. -/
def setSend (set : ChanSet) (chan : Addr) : Option ChanSet := set.add .send chan

/-- `coroc_chan_set_recv`. -/
def setRecv (set : ChanSet) (chan : Addr) : Option ChanSet := set.add .recv chan

/-- `lock_addr_comp`. -/
def lockAddrComp (lock1 lock2 : Addr) : Int := if lock1 > lock2 then 1 else -1

/-- The first part of `lock_chain_acquire`; the locks are then taken in the order of the
    array. -/
def sortLocks (set : ChanSet) : ChanSet :=
  if set.sorted then set
  else
    { set with
      locks := set.locks.insertionSort fun a b => lockAddrComp a b ≤ 0
      sorted := true }

/-- The set has one lock for each case, and its flag says the truth. -/
structure Good (set : ChanSet) : Prop where
  perm : set.locks.Perm (set.cases.map Case.chan)
  nodup : set.locks.Nodup
  sorted : set.sorted = true → set.locks.Pairwise (· < ·)

theorem lockAddrComp_le (a b : Addr) : lockAddrComp a b ≤ 0 ↔ a ≤ b := by
  unfold lockAddrComp
  by_cases h : b < a
  · have hle : ¬ a ≤ b := UInt64.not_le.mpr h
    simp [h, hle]
  · have hle : a ≤ b := UInt64.not_lt.mp h
    simp [h, hle]

theorem Good.init (n : Nat) : (init n).Good := ⟨.refl _, List.nodup_nil, nofun⟩

theorem Good.add {set set' : ChanSet} {type : CaseType} {chan : Addr} (h : set.Good)
    (hadd : set.add type chan = some set') (hnew : chan ∉ set.locks)
    (hlast : set.sorted = true → ∀ l ∈ set.locks, l < chan) : set'.Good := by
  unfold ChanSet.add at hadd
  split at hadd
  · cases hadd
    constructor
    · change (set.locks ++ [chan]).Perm ((set.cases ++ [Case.mk type chan]).map Case.chan)
      rw [List.map_append]
      exact h.perm.append (.refl _)
    · change (set.locks ++ [chan]).Nodup
      rw [← List.concat_eq_append]
      exact h.nodup.concat hnew
    · intro hs
      refine List.pairwise_append.mpr ⟨h.sorted hs, List.pairwise_singleton _ _, ?_⟩
      intro a ha b hb
      rw [List.mem_singleton.mp hb]
      exact hlast hs a ha
  · cases hadd

theorem Good.sortLocks {set : ChanSet} (h : set.Good) :
    set.sortLocks.Good ∧ set.sortLocks.locks.Pairwise (· < ·) := by
  unfold ChanSet.sortLocks
  split
  · rename_i hs
    exact ⟨h, h.sorted hs⟩
  · have : Std.Total fun a b : Addr => lockAddrComp a b ≤ 0 := ⟨fun a b => by
      rw [lockAddrComp_le, lockAddrComp_le]
      exact UInt64.le_total a b⟩
    have : IsTrans Addr fun a b => lockAddrComp a b ≤ 0 := ⟨fun a b c hab hbc => by
      rw [lockAddrComp_le] at hab hbc ⊢
      exact UInt64.le_trans hab hbc⟩
    have hperm := List.perm_insertionSort (fun a b => lockAddrComp a b ≤ 0) set.locks
    have hsort := List.pairwise_insertionSort (fun a b => lockAddrComp a b ≤ 0) set.locks
    have hnodup := hperm.nodup_iff.mpr h.nodup
    have hlt := (hsort.and hnodup).imp fun {a b} hab =>
      UInt64.lt_of_le_of_ne ((lockAddrComp_le a b).mp hab.1) hab.2
    exact ⟨⟨hperm.trans h.perm, hnodup, fun _ => hlt⟩, hlt⟩

end ChanSet

/-! ### Concurrent operations

Coroutines and sets are numbered.  Which coroutine works on a set, and who took a lock, is
not in the source: the calls on one set come one after the other. -/

/-- An operation that takes locks: a send, receive or close of one channel, or a select. -/
inductive Op where
  | chan (c : Addr)
  | select (set : Nat)
deriving DecidableEq, Repr

/-- Where a coroutine is.  It has taken the locks `got` and `rest` is left; once it is
    `woken` it takes them for the second time. -/
inductive Proc where
  | idle
  | locking (op : Op) (woken : Bool) (got rest : List Addr)
  | suspended (op : Op)
  | releasing (op : Op) (rest : List Addr)
deriving DecidableEq, Repr

inductive Holder where
  | co (k : Nat)
  | vpu (v : Nat)
deriving DecidableEq, Repr

/-- `unlocking v` is what the unlock handler that runs on the VPU `v` has to release. -/
structure State where
  sets : Nat → ChanSet
  user : Nat → Option Nat
  proc : Nat → Proc
  locks : Addr → Option Holder
  unlocking : Nat → List Addr

inductive Label where
  | init (set n : Nat)
  | setCase (set : Nat) (type : CaseType) (c : Addr)
  | call (k : Nat) (op : Op)
  | acquire (k : Nat)
  | suspend (k v : Nat)
  | wake (k : Nat)
  | leave (k : Nat)
  | release (k : Nat)
  | ret (k : Nat)
  | unlock (v : Nat)
deriving DecidableEq, Repr

namespace State

/-- The locks of an operation, in the order in which they are taken. -/
def chain (s : State) : Op → List Addr
  | .chan c => [c]
  | .select i => (s.sets i).locks

/-- The call of `lock_chain_acquire`, or of `lock_acquire` for one channel. -/
def acquireChain (s : State) (k : Nat) (op : Op) (woken : Bool) : State :=
  match op with
  | .chan c => { s with proc := Function.update s.proc k (.locking op woken [] [c]) }
  | .select i =>
    let set := (s.sets i).sortLocks
    { s with
      sets := Function.update s.sets i set
      user := Function.update s.user i (some k)
      proc := Function.update s.proc k (.locking op woken [] set.locks) }

def setProc (s : State) (k : Nat) (p : Proc) : State := { s with proc := Function.update s.proc k p }

def setLock (s : State) (l : Addr) (h : Option Holder) : State :=
  { s with locks := Function.update s.locks l h }

theorem setProc_self (s : State) (k : Nat) (p : Proc) : (s.setProc k p).proc k = p :=
  Function.update_self ..

theorem setProc_ne (s : State) {k k' : Nat} (p : Proc) (h : k' ≠ k) :
    (s.setProc k p).proc k' = s.proc k' := Function.update_of_ne h ..

theorem setLock_self (s : State) (l : Addr) (h : Option Holder) : (s.setLock l h).locks l = h :=
  Function.update_self ..

theorem setLock_ne (s : State) {l l' : Addr} (h : Option Holder) (he : l' ≠ l) :
    (s.setLock l h).locks l' = s.locks l' := Function.update_of_ne he ..

end State

/-- The case that is added is for a channel the set does not have yet.  A select over an
    empty set returns at once. -/
def step (s : State) : Label → Option State
  | .init i n =>
    if s.user i = none then some { s with sets := Function.update s.sets i (.init n) } else none
  | .setCase i type c =>
    if s.user i = none ∧ c ∉ (s.sets i).locks then
      let set := match type with
        | .send => (s.sets i).setSend c
        | .recv => (s.sets i).setRecv c
      set.map fun set => { s with sets := Function.update s.sets i set }
    else none
  | .call k op =>
    if s.proc k = .idle then
      match op with
      | .chan _ => some (s.acquireChain k op false)
      | .select i =>
        if s.user i = none then
          if (s.sets i).cases = [] then some s else some (s.acquireChain k op false)
        else none
    else none
  | .acquire k =>
    match s.proc k with
    | .locking op woken got (l :: rest) =>
      if s.locks l = none then
        some ((s.setLock l (some (.co k))).setProc k (.locking op woken (got ++ [l]) rest))
      else none
    | _ => none
  | .suspend k v =>
    match s.proc k with
    | .locking op false _ [] =>
      if s.unlocking v = [] then
        some
          { s with
            proc := Function.update s.proc k (.suspended op)
            locks := fun l => if l ∈ s.chain op then some (.vpu v) else s.locks l
            unlocking := Function.update s.unlocking v (s.chain op).reverse }
      else none
    | _ => none
  | .wake k =>
    match s.proc k with
    | .suspended op => some (s.acquireChain k op true)
    | _ => none
  | .leave k =>
    match s.proc k with
    | .locking op _ _ [] => some (s.setProc k (.releasing op (s.chain op).reverse))
    | _ => none
  | .release k =>
    match s.proc k with
    | .releasing op (l :: rest) => some ((s.setLock l none).setProc k (.releasing op rest))
    | _ => none
  | .ret k =>
    match s.proc k with
    | .releasing (.select i) [] =>
      some { s.setProc k .idle with user := Function.update s.user i none }
    | .releasing (.chan _) [] => some (s.setProc k .idle)
    | _ => none
  | .unlock v =>
    match s.unlocking v with
    | l :: rest => some { s.setLock l none with unlocking := Function.update s.unlocking v rest }
    | [] => none

def initial : State :=
  ⟨fun _ => .init 0, fun _ => none, fun _ => .idle, fun _ => none, fun _ => []⟩

/-- A case that is added to a set whose locks are sorted has a lock behind all of them. -/
def InOrder (s : State) : Label → Prop
  | .setCase i _ c => (s.sets i).sorted = true → ∀ l ∈ (s.sets i).locks, l < c
  | _ => True

instance (s : State) : (l : Label) → Decidable (InOrder s l)
  | .setCase i _ c =>
    inferInstanceAs (Decidable ((s.sets i).sorted = true → ∀ l ∈ (s.sets i).locks, l < c))
  | .init .. | .call .. | .acquire .. | .suspend .. | .wake .. | .leave .. | .release .. | .ret ..
  | .unlock .. => isTrue trivial

/-! ### The invariant -/

/-- What a coroutine is about. -/
def Proc.op : Proc → Option Op
  | .idle => none
  | .locking op .. => some op
  | .suspended op => some op
  | .releasing op _ => some op

/-- The locks a coroutine has. -/
def Proc.held : Proc → List Addr
  | .locking _ _ got _ => got
  | .releasing _ rest => rest
  | _ => []

/-- `uses`: a set belongs to the select that works on it, so its chain stays as it is. -/
structure Inv (s : State) : Prop where
  good : ∀ i, (s.sets i).Good
  uses : ∀ k i, (s.proc k).op = some (.select i) → s.user i = some k
  order : ∀ k op woken got rest, s.proc k = .locking op woken got rest →
    got ++ rest = s.chain op ∧ (got ++ rest).Pairwise (· < ·)
  held : ∀ l k, s.locks l = some (.co k) → l ∈ (s.proc k).held

variable {s s' : State} {k i : Nat}

theorem inv_initial : Inv initial where
  good _ := .init 0
  uses _ _ h := nomatch h
  order _ _ _ _ _ h := nomatch h
  held _ _ h := nomatch h

theorem Inv.setProc (h : Inv s) {p : Proc}
    (huses : ∀ i, p.op = some (.select i) → s.user i = some k)
    (horder : ∀ op woken got rest, p = .locking op woken got rest →
      got ++ rest = s.chain op ∧ (got ++ rest).Pairwise (· < ·))
    (hheld : ∀ l, s.locks l = some (.co k) → l ∈ p.held) : Inv (s.setProc k p) where
  good := h.good
  uses k' i hk := by
    by_cases he : k' = k
    · subst he
      rw [State.setProc_self] at hk
      exact huses i hk
    · rw [State.setProc_ne _ _ he] at hk
      exact h.uses k' i hk
  order k' op woken got rest hk := by
    by_cases he : k' = k
    · subst he
      rw [State.setProc_self] at hk
      exact horder op woken got rest hk
    · rw [State.setProc_ne _ _ he] at hk
      exact h.order k' op woken got rest hk
  held l k' hl := by
    by_cases he : k' = k
    · subst he
      rw [State.setProc_self]
      exact hheld l hl
    · rw [State.setProc_ne _ _ he]
      exact h.held l k' hl

/-- The array of a set that nobody walks over can change. -/
theorem Inv.setSet (h : Inv s) {set : ChanSet} (hgood : set.Good)
    (hfree : ∀ k woken got rest, s.proc k ≠ .locking (.select i) woken got rest) :
    Inv { s with sets := Function.update s.sets i set } where
  good j := by
    by_cases he : j = i
    · subst he
      change (Function.update s.sets j set j).Good
      rw [Function.update_self]
      exact hgood
    · change (Function.update s.sets i set j).Good
      rw [Function.update_of_ne he]
      exact h.good j
  uses := h.uses
  order k op woken got rest hk := by
    have hold := h.order k op woken got rest hk
    cases op with
    | chan c => exact hold
    | select j =>
      have he : j ≠ i := fun he => hfree k woken got rest (he ▸ hk)
      simpa [State.chain, Function.update_of_ne he] using hold
  held := h.held

theorem Inv.setUser (h : Inv s) (hi : s.user i = none ∨ s.user i = some k) :
    Inv { s with user := Function.update s.user i (some k) } where
  good := h.good
  uses k' j hk := by
    have hold := h.uses k' j hk
    by_cases he : j = i
    · subst he
      change Function.update s.user j (some k) j = some k'
      rw [Function.update_self]
      rcases hi with hi | hi
      · rw [hi] at hold
        cases hold
      · rw [← hi]
        exact hold
    · exact (Function.update_of_ne he _ _).trans hold
  order := h.order
  held := h.held

theorem Inv.freeUser (h : Inv s) (hi : ∀ k, (s.proc k).op ≠ some (.select i)) :
    Inv { s with user := Function.update s.user i none } where
  good := h.good
  uses k j hk := by
    have he : j ≠ i := fun he => hi k (he ▸ hk)
    exact (Function.update_of_ne he _ _).trans (h.uses k j hk)
  order := h.order
  held := h.held

/-- A lock is taken by a coroutine that has noted it, or given back. -/
theorem Inv.freeLock (h : Inv s) (l : Addr) : Inv (s.setLock l none) where
  good := h.good
  uses := h.uses
  order := h.order
  held l' k hl := by
    by_cases he : l' = l
    · subst he
      rw [State.setLock_self] at hl
      cases hl
    · rw [State.setLock_ne _ _ he] at hl
      exact h.held l' k hl

theorem Inv.not_locking (h : Inv s) (hi : s.user i = none) (k : Nat) (woken : Bool)
    (got rest : List Addr) : s.proc k ≠ .locking (.select i) woken got rest := by
  intro hk
  have huse := h.uses k i (by rw [hk]; rfl)
  rw [hi] at huse
  cases huse

theorem Inv.acquireChain (h : Inv s) {op : Op} (woken : Bool)
    (hk : s.proc k = .idle ∨ s.proc k = .suspended op)
    (hi : ∀ i, op = .select i → s.user i = none ∨ s.user i = some k) :
    Inv (s.acquireChain k op woken) := by
  have hnone : ∀ l, s.locks l ≠ some (.co k) := by
    intro l hl
    have hmem := h.held l k hl
    rcases hk with hk | hk
    · rw [hk] at hmem
      cases hmem
    · rw [hk] at hmem
      cases hmem
  cases op with
  | chan c =>
    apply h.setProc
    · intro i he
      cases he
    · intro op' woken' got rest he
      cases he
      exact ⟨rfl, List.pairwise_singleton _ _⟩
    · intro l hl
      exact absurd hl (hnone l)
  | select i =>
    have hwalk : ∀ k' woken' got rest, s.proc k' ≠ .locking (.select i) woken' got rest := by
      intro k' woken' got rest hk'
      have huse := h.uses k' i (by rw [hk']; rfl)
      rcases hi i rfl with hi | hi
      · rw [hi] at huse
        cases huse
      · rw [hi] at huse
        cases huse
        rw [hk'] at hk
        rcases hk with hk | hk <;> cases hk
    obtain ⟨hgood, hlt⟩ := (h.good i).sortLocks
    have hset := (h.setSet hgood hwalk).setUser (hi i rfl)
    apply hset.setProc
    · intro j he
      cases he
      exact Function.update_self ..
    · intro op' woken' got rest he
      cases he
      refine ⟨?_, hlt⟩
      simp [State.chain]
    · intro l hl
      exact absurd hl (hnone l)

theorem Inv.acquire (h : Inv s) {op : Op} {woken : Bool} {got rest : List Addr} {l : Addr}
    (hk : s.proc k = .locking op woken got (l :: rest)) (hl : s.locks l = none) :
    Inv ((s.setLock l (some (.co k))).setProc k (.locking op woken (got ++ [l]) rest)) := by
  have hold := h.order k op woken got (l :: rest) hk
  constructor
  · exact h.good
  · intro k' i hk'
    by_cases he : k' = k
    · subst he
      rw [State.setProc_self] at hk'
      exact h.uses k' i (by rw [hk]; exact hk')
    · rw [State.setProc_ne _ _ he] at hk'
      exact h.uses k' i hk'
  · intro k' op' woken' got' rest' hk'
    by_cases he : k' = k
    · subst he
      rw [State.setProc_self] at hk'
      cases hk'
      rw [List.append_assoc, List.singleton_append]
      exact hold
    · rw [State.setProc_ne _ _ he] at hk'
      exact h.order k' op' woken' got' rest' hk'
  · intro l' k' hl'
    change (s.setLock l (some (.co k))).locks l' = some (.co k') at hl'
    by_cases hll : l' = l
    · subst hll
      rw [State.setLock_self] at hl'
      cases hl'
      rw [State.setProc_self]
      exact List.mem_append_right _ (List.mem_singleton_self l')
    · rw [State.setLock_ne _ _ hll] at hl'
      have hmem := h.held l' k' hl'
      by_cases he : k' = k
      · subst he
        rw [hk] at hmem
        rw [State.setProc_self]
        exact List.mem_append_left _ hmem
      · rw [State.setProc_ne _ _ he]
        exact hmem

/-- All locks of a coroutine that has taken its chain are in the chain. -/
theorem Inv.mem_chain (h : Inv s) {op : Op} {woken : Bool} {got : List Addr}
    (hk : s.proc k = .locking op woken got []) {l : Addr} (hl : s.locks l = some (.co k)) :
    l ∈ s.chain op := by
  have hmem := h.held l k hl
  rw [hk] at hmem
  rw [← (h.order k op woken got [] hk).1, List.append_nil]
  exact hmem

theorem Inv.suspend (h : Inv s) {op : Op} {woken : Bool} {got : List Addr} (v : Nat)
    (hk : s.proc k = .locking op woken got []) :
    Inv { s with
      proc := Function.update s.proc k (.suspended op)
      locks := fun l => if l ∈ s.chain op then some (.vpu v) else s.locks l
      unlocking := Function.update s.unlocking v (s.chain op).reverse } := by
  -- the locks of the chain go to the VPU first, then the coroutine has none
  have hlocks : Inv { s with
      locks := fun l => if l ∈ s.chain op then some (.vpu v) else s.locks l
      unlocking := Function.update s.unlocking v (s.chain op).reverse } := by
    refine ⟨h.good, h.uses, h.order, fun l k' hl => ?_⟩
    change (if l ∈ s.chain op then some (.vpu v) else s.locks l) = some (.co k') at hl
    split at hl
    · cases hl
    · exact h.held l k' hl
  apply hlocks.setProc (k := k) (p := .suspended op)
  · intro i hi
    exact h.uses k i (by rw [hk]; exact hi)
  · intro op' woken' got' rest' he
    cases he
  · intro l hl
    change (if l ∈ s.chain op then some (.vpu v) else s.locks l) = some (.co k) at hl
    split at hl
    · cases hl
    · rename_i hout
      exact absurd (h.mem_chain hk hl) hout

theorem Inv.release (h : Inv s) {op : Op} {rest : List Addr} {l : Addr}
    (hk : s.proc k = .releasing op (l :: rest)) :
    Inv ((s.setLock l none).setProc k (.releasing op rest)) := by
  apply (h.freeLock l).setProc
  · intro i hi
    exact h.uses k i (by rw [hk]; exact hi)
  · intro op' woken' got' rest' he
    cases he
  · intro l' hl'
    by_cases he : l' = l
    · subst he
      rw [State.setLock_self] at hl'
      cases hl'
    · rw [State.setLock_ne _ _ he] at hl'
      have hmem := h.held l' k hl'
      rw [hk] at hmem
      exact (List.mem_cons.mp hmem).resolve_left he

theorem Inv.idle (h : Inv s) {op : Op} (hk : s.proc k = .releasing op []) :
    Inv (s.setProc k .idle) := by
  apply h.setProc
  · intro i hi
    cases hi
  · intro op' woken' got' rest' he
    cases he
  · intro l hl
    have hmem := h.held l k hl
    rw [hk] at hmem
    exact hmem

theorem Inv.setCase (h : Inv s) {type : CaseType} {c : Addr} {set : ChanSet}
    (hi : s.user i = none) (hc : c ∉ (s.sets i).locks)
    (hlast : (s.sets i).sorted = true → ∀ l ∈ (s.sets i).locks, l < c)
    (hadd : (s.sets i).add type c = some set) :
    Inv { s with sets := Function.update s.sets i set } :=
  h.setSet ((h.good i).add hadd hc hlast) (h.not_locking hi)

theorem step_inv (h : Inv s) (l : Label) (hok : InOrder s l) (hstep : step s l = some s') :
    Inv s' := by
  cases l with
  | init i n =>
    simp only [step] at hstep
    split at hstep
    · rename_i hi
      cases hstep
      exact h.setSet (.init n) (h.not_locking hi)
    · cases hstep
  | setCase i type c =>
    simp only [step] at hstep
    split at hstep
    · rename_i hi
      cases type with
      | send =>
        obtain ⟨set, hadd, rfl⟩ := Option.map_eq_some_iff.mp hstep
        exact h.setCase hi.1 hi.2 hok hadd
      | recv =>
        obtain ⟨set, hadd, rfl⟩ := Option.map_eq_some_iff.mp hstep
        exact h.setCase hi.1 hi.2 hok hadd
    · cases hstep
  | call k op =>
    simp only [step] at hstep
    split at hstep
    · rename_i hk
      split at hstep
      · cases hstep
        exact h.acquireChain false (.inl hk) nofun
      · split at hstep
        · rename_i hi
          split at hstep
          · cases hstep
            exact h
          · cases hstep
            apply h.acquireChain false (.inl hk)
            rintro j ⟨⟩
            exact .inl hi
        · cases hstep
    · cases hstep
  | acquire k =>
    simp only [step] at hstep
    split at hstep
    · rename_i hk
      split at hstep
      · rename_i hl
        cases hstep
        exact h.acquire hk hl
      · cases hstep
    · cases hstep
  | suspend k v =>
    simp only [step] at hstep
    split at hstep
    · rename_i hk
      split at hstep
      · cases hstep
        exact h.suspend v hk
      · cases hstep
    · cases hstep
  | wake k =>
    simp only [step] at hstep
    split at hstep
    · rename_i op hk
      cases hstep
      apply h.acquireChain true (.inr hk)
      rintro j rfl
      exact .inr (h.uses k j (by rw [hk]; rfl))
    · cases hstep
  | leave k =>
    simp only [step] at hstep
    split at hstep
    · rename_i hk
      cases hstep
      apply h.setProc
      · intro i hi
        exact h.uses k i (by rw [hk]; exact hi)
      · intro op' woken' got' rest' he
        cases he
      · intro l hl
        exact List.mem_reverse.mpr (h.mem_chain hk hl)
    · cases hstep
  | release k =>
    simp only [step] at hstep
    split at hstep
    · rename_i hk
      cases hstep
      exact h.release hk
    · cases hstep
  | ret k =>
    simp only [step] at hstep
    split at hstep
    · rename_i i hk
      cases hstep
      apply (h.idle hk).freeUser
      intro k' hk'
      have hk₁ := (h.idle hk).uses k' i hk'
      have hk₂ := h.uses k i (by rw [hk]; rfl)
      cases hk₁.symm.trans hk₂
      rw [State.setProc_self] at hk'
      cases hk'
    · rename_i hk
      cases hstep
      exact h.idle hk
    · cases hstep
  | unlock v =>
    simp only [step] at hstep
    split at hstep
    · rename_i l rest hv
      cases hstep
      have hfree := h.freeLock l
      exact ⟨hfree.good, hfree.uses, hfree.order, hfree.held⟩
    · cases hstep

/-! ### Waiting -/

/-- The coroutine `j` wants a lock that `k` has. -/
def WaitsFor (s : State) (j k : Nat) : Prop :=
  ∃ op woken got l rest, s.proc j = .locking op woken got (l :: rest) ∧ s.locks l = some (.co k)

/-- What a coroutine holds is before what it waits for. -/
theorem Inv.lt_of_waitsFor (h : Inv s) {j k : Nat} (hjk : WaitsFor s j k)
    {op op' : Op} {woken woken' : Bool} {got got' rest rest' : List Addr} {l l' : Addr}
    (hj : s.proc j = .locking op woken got (l :: rest))
    (hk : s.proc k = .locking op' woken' got' (l' :: rest')) : l < l' := by
  obtain ⟨op₁, woken₁, got₁, l₁, rest₁, hj₁, hl⟩ := hjk
  obtain ⟨-, -, -, hrest⟩ := Proc.locking.inj (hj.symm.trans hj₁)
  obtain ⟨rfl, -⟩ := List.cons.inj hrest
  have hmem := h.held l k hl
  rw [hk] at hmem
  exact (List.pairwise_append.mp (h.order k _ _ _ _ hk).2).2.2 l hmem l' (List.mem_cons_self ..)

/-- Along a chain of coroutines that wait for each other the locks go up. -/
theorem Inv.waitsFor_lt (h : Inv s) {j k : Nat} (hjk : Relation.TransGen (WaitsFor s) j k)
    {op : Op} {woken : Bool} {got rest : List Addr} {l : Addr}
    (hj : s.proc j = .locking op woken got (l :: rest)) :
    ∀ {op' woken' got' l' rest'}, s.proc k = .locking op' woken' got' (l' :: rest') → l < l' := by
  induction hjk with
  | single hjk =>
    intro op' woken' got' l' rest' hk
    exact h.lt_of_waitsFor hjk hj hk
  | tail _ hkm ih =>
    intro op' woken' got' l' rest' hm
    obtain ⟨op₁, woken₁, got₁, l₁, rest₁, hk, _⟩ := id hkm
    exact UInt64.lt_trans (ih hk) (h.lt_of_waitsFor hkm hk hm)

theorem Inv.no_circle (h : Inv s) (k : Nat) : ¬ Relation.TransGen (WaitsFor s) k k := by
  intro hkk
  obtain ⟨j, ⟨op, woken, got, l, rest, hk, _⟩, _⟩ := Relation.TransGen.head'_iff.mp hkk
  exact UInt64.lt_irrefl l (h.waitsFor_lt hkk hk hk)

/-- **Locks are taken in ascending order.**  In every run in which a case added to a sorted
    set has a lock behind the others: a select over a set takes one lock for each case, in
    the order of the addresses, and there is no circle of coroutines that wait for each
    other's locks. -/
theorem locks_in_order (h : Reach step InOrder (· = initial) s) :
    (∀ k i woken got rest, s.proc k = .locking (.select i) woken got rest →
      (got ++ rest).Perm ((s.sets i).cases.map Case.chan) ∧ (got ++ rest).Pairwise (· < ·)) ∧
    ∀ k, ¬ Relation.TransGen (WaitsFor s) k k := by
  have hinv : Inv s := by
    apply h.invariant
    · rintro _ rfl
      exact inv_initial
    · intro s l s' hi hok hs
      exact step_inv hi l hok hs
  constructor
  · intro k i woken got rest hk
    obtain ⟨heq, hlt⟩ := hinv.order k _ woken got rest hk
    refine ⟨?_, hlt⟩
    rw [heq]
    exact (hinv.good i).perm
  · exact hinv.no_circle

/-- A select over two channels that were added in the wrong order, before the first select. -/
theorem locks_in_order_twoCases :
    ∃ s, Reach step InOrder (· = initial) s ∧
      s.proc 0 = .locking (.select 0) false [3] [5] ∧
      ([3] ++ [5] : List Addr).Pairwise (· < ·) ∧ ∀ k, ¬ Relation.TransGen (WaitsFor s) k k := by
  obtain ⟨s, hs, hP⟩ := Reach.exists_of_runOk step InOrder (· = initial) rfl
    [.init 0 2, .setCase 0 .recv 5, .setCase 0 .send 3, .call 0 (.select 0), .acquire 0]
    (fun s => s.proc 0 = .locking (.select 0) false [3] [5]) (by decide +kernel)
  have hproc := of_decide_eq_true hP
  have hmain := locks_in_order hs
  exact ⟨s, hs, hproc, (hmain.1 0 0 false [3] [5] hproc).2, hmain.2⟩

/-- A set that has been selected over once gets a second case, with a lock in front of the
    first: coroutine 0 takes 5 and waits for 3, while coroutine 1 has taken 3 and waits
    for 5. -/
theorem locks_out_of_order :
    ∃ s, Reach step (fun _ _ => True) (· = initial) s ∧
      s.proc 0 = .locking (.select 0) false [5] [3] ∧
      ¬ ([5] ++ [3] : List Addr).Pairwise (· < ·) ∧ Relation.TransGen (WaitsFor s) 0 0 := by
  obtain ⟨s, hs, hP⟩ := Reach.exists_of_run step (· = initial) rfl
    [.init 0 2, .setCase 0 .recv 5, .call 0 (.select 0), .acquire 0, .leave 0, .release 0, .ret 0,
      .setCase 0 .recv 3, .init 1 2, .setCase 1 .recv 3, .setCase 1 .recv 5,
      .call 0 (.select 0), .acquire 0, .call 1 (.select 1), .acquire 1]
    (fun s => s.proc 0 = .locking (.select 0) false [5] [3] ∧
      s.proc 1 = .locking (.select 1) false [3] [5] ∧
      s.locks 3 = some (.co 1) ∧ s.locks 5 = some (.co 0)) (by decide +kernel)
  obtain ⟨h0, h1, h3, h5⟩ := of_decide_eq_true hP
  have h01 : WaitsFor s 0 1 := ⟨_, _, _, 3, _, h0, h3⟩
  have h10 : WaitsFor s 1 0 := ⟨_, _, _, 5, _, h1, h5⟩
  exact ⟨s, hs, h0, by decide, .tail (.single h01) h10⟩

end Coroc.LockChain
