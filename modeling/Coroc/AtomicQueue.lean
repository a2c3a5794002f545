import Mathlib.Algebra.Group.Nat.Defs
import Mathlib.Data.List.Perm.Subperm
import Coroc.LockedObject
import Coroc.Queue
import Coroc.ThreadPool

/-!
# The atomic queue (`src/include/inter/coroc_queue.h`)

`atomic_queue_add`, `atomic_queue_rem`, `atomic_queue_try_rem`, `atomic_queue_extract`,
`atomic_queue_walk` and `atomic_queue_size` run the functions of `Coroc.Queue` under the lock of the
queue.  Three of them look at `status` first, without the lock, and return at once if it is `0`.

Here every assignment and every test of these functions is a step of its own, so the pointers are torn
while a thread is in its critical section, and `status` is read by others in the middle of it.

* `Represents.body`: a critical section, run alone, does what `Coroc.Queue` says, and takes effect when
  it writes `status`, or finds that there is nothing to do.
* `queue_linearizable`: for any number of threads and any interleaving, the calls are those on a list,
  each of which takes effect at once; between the critical sections the pointers are those of the list,
  and whoever has the lock releases it.
-/

namespace Coroc.AtomicQueue

open Coroc.LinkedList Coroc.LockedObject Coroc.Queue Coroc.Transition Function

/-- The calls. -/
inductive Call (ι : Type) where
  | add (item : ι)
  | rem
  | tryRem
  | extract (item : ι)
  | walk
  | size
deriving DecidableEq

/-- What they return.  A walk calls its inspector on the owners, in order. -/
inductive Answer (ω : Type) where
  | void
  | owner (o : Option ω)
  | owners (l : List ω)
  | size (n : UInt32)
deriving DecidableEq

/-- Who unlinks an item: `queue_rem` returns its owner. -/
inductive Unlink where
  | rem
  | extract
deriving DecidableEq

/-- The statements, each before it is executed. -/
inductive Loc (ι ω : Type) where
  -- `queue_add`
  | addNext (item : ι)
  | addTest (item : ι)
  | addHead (item : ι)
  | addLink (item : ι)
  | addPrev (item : ι)
  | addTail (item : ι)
  | addQue (item : ι)
  | addStatus (item : ι)
  -- `queue_rem`
  | remTest
  | remItem
  | remHead (kitem : ι)
  | remFix (kitem : ι)
  -- `queue_extract`
  | extractTest (item : ι)
  | extractAssert (item : ι)
  | extractPrev (item : ι)
  | extractNext (item : ι)
  -- their last lines
  | unlinkStatus (k : Unlink) (item : ι)
  | clearNext (k : Unlink) (item : ι)
  | clearPrev (k : Unlink) (item : ι)
  | clearQue (k : Unlink) (item : ι)
  | leave (k : Unlink) (item : ι)
  -- `queue_walk`
  | walkHead
  | walkTest (item : Option ι)
  | walkItem (item : Option ι) (seen : List ω)
  -- `atomic_queue_size`
  | sizeRead
  -- a NULL pointer was followed, or the assertion failed
  | crashed
deriving DecidableEq

variable {ι κ ω : Type} [DecidableEq ι] [DecidableEq κ]

/-- `if (!queue->status) return NULL;` before the lock is taken, and the test in `atomic_queue_walk`. -/
def test (queue : κ) (h : Heap ι κ ω) : Call ι → Option (Answer ω)
  | .rem | .tryRem => if h.status queue = 0 then some (.owner none) else none
  | .walk => if h.status queue = 0 then some (.owners []) else none
  | .add _ | .extract _ | .size => none

/-- `lock_try_acquire`. -/
def busy : Call ι → Option (Answer ω)
  | .tryRem => some (.owner none)
  | _ => none

def enter : Call ι → Loc ι ω
  | .add item => .addNext item
  | .rem | .tryRem => .remTest
  | .extract item => .extractTest item
  | .walk => .walkHead
  | .size => .sizeRead

def exec (queue : κ) (h : Heap ι κ ω) : Loc ι ω → Heap ι κ ω × (Loc ι ω ⊕ Answer ω)
  | .addNext item => ({ h with next := update h.next item none }, .inl (.addTest item))
  | .addTest item => (h, .inl (if h.status queue = 0 then .addHead item else .addLink item))
  | .addHead item => ({ h with head := update h.head queue (some item) }, .inl (.addTail item))
  | .addLink item => match h.tail queue with
    | some t => ({ h with next := update h.next t (some item) }, .inl (.addPrev item))
    | none => (h, .inl .crashed)
  | .addPrev item => ({ h with prev := update h.prev item (h.tail queue) }, .inl (.addTail item))
  | .addTail item => ({ h with tail := update h.tail queue (some item) }, .inl (.addQue item))
  | .addQue item => ({ h with que := update h.que item (some queue) }, .inl (.addStatus item))
  | .addStatus _ => ({ h with status := update h.status queue (h.status queue + 1) }, .inr .void)
  | .remTest => (h, if h.status queue = 0 then .inr (.owner none) else .inl .remItem)
  | .remItem => match h.head queue with
    | some kitem => (h, .inl (.remHead kitem))
    | none => (h, .inl .crashed)
  | .remHead kitem => ({ h with head := update h.head queue (h.next kitem) }, .inl (.remFix kitem))
  | .remFix kitem => match h.head queue with
    | some x => ({ h with prev := update h.prev x none }, .inl (.unlinkStatus .rem kitem))
    | none => ({ h with tail := update h.tail queue (h.head queue) }, .inl (.unlinkStatus .rem kitem))
  | .extractTest item => (h, if h.que item ≠ some queue then .inr .void else .inl (.extractAssert item))
  | .extractAssert item => (h, .inl (if 0 < h.status queue then .extractPrev item else .crashed))
  | .extractPrev item => match h.prev item with
    | some p => ({ h with next := update h.next p (h.next item) }, .inl (.extractNext item))
    | none => ({ h with head := update h.head queue (h.next item) }, .inl (.extractNext item))
  | .extractNext item => match h.next item with
    | some n => ({ h with prev := update h.prev n (h.prev item) }, .inl (.unlinkStatus .extract item))
    | none => ({ h with tail := update h.tail queue (h.prev item) }, .inl (.unlinkStatus .extract item))
  | .unlinkStatus k item => ({ h with status := update h.status queue (h.status queue - 1) }, .inl (.clearNext k item))
  | .clearNext k item => ({ h with next := update h.next item none }, .inl (.clearPrev k item))
  | .clearPrev k item => ({ h with prev := update h.prev item none }, .inl (.clearQue k item))
  | .clearQue k item => ({ h with que := update h.que item none }, .inl (.leave k item))
  | .leave .rem item => (h, .inr (.owner (some (h.owner item))))
  | .leave .extract _ => (h, .inr .void)
  | .walkHead => (h, .inl (.walkTest (h.head queue)))
  | .walkTest item => (h, if h.status queue = 0 then .inr (.owners []) else .inl (.walkItem item []))
  | .walkItem none seen => (h, .inr (.owners seen))
  | .walkItem (some item) seen => (h, .inl (.walkItem (h.next item) (seen ++ [h.owner item])))
  | .sizeRead => (h, .inr (.size (h.status queue)))
  | .crashed => (h, .inl .crashed)

def code (queue : κ) : Code (Heap ι κ ω) (Call ι) (Answer ω) (Loc ι ω) where
  test := test queue
  busy := busy
  enter := enter
  exec := exec queue

/-! ### What the calls are for -/

/-- The calls on the lists.  `atomic_queue_try_rem` may find nothing. -/
def spec (queue : κ) : Call ι → Lists ι κ ω → List (Lists ι κ ω × Answer ω)
  | .add item, s => [((s.exec (.add queue item)).2, .void)]
  | .rem, s => [((s.exec (.rem queue)).2, .owner (s.exec (.rem queue)).1)]
  | .tryRem, s => [((s.exec (.rem queue)).2, .owner (s.exec (.rem queue)).1), (s, .owner none)]
  | .extract item, s => [((s.exec (.extract queue item)).2, .void)]
  | .walk, s => [(s, .owners ((s.queues queue).filterMap s.owner))]
  | .size, s => [(s, .size (.ofNat (s.queues queue).length))]

/-- What holds when a call takes effect. -/
def Pre (queue : κ) : Call ι → Lists ι κ ω → Prop
  | .add item, s => s.Live item ∧ s.Free item ∧ (s.queues queue).length + 1 < 2 ^ 32
  | .extract item, s => s.Live item
  | _, _ => True

/-- The items that were given to `atomic_queue_add`. -/
def adds {ν : Type} (h : List (Event ν (Call ι) (Answer ω))) : List ι :=
  h.filterMap fun
    | .call _ (.add item) => some item
    | _ => none

/-- An item is added once, and their number fits in `status`. -/
def rule {ν : Type} (h : List (Event ν (Call ι) (Answer ω))) : Call ι → Prop
  | .add item => item ∉ adds h ∧ (adds h).length + 1 < 2 ^ 32
  | _ => True

/-- After `atomic_queue_init`, with the items as `queue_item_init` leaves them. -/
def Empty (h : Heap ι κ ω) : Prop := Represents h ⟨fun _ => [], fun x => some (h.owner x)⟩

/-! ### The critical sections -/

section
variable {h m : Heap ι κ ω} {s : Lists ι κ ω} {q : κ} {x : ι}

theorem rem_nil (hq : s.queues q = []) : s.exec (.rem q) = (none, s) := by
  simp only [Lists.exec, hq]

/-- A `status` of `0` says that the queue is empty. -/
theorem sound_of_status (h0 : m.status q = 0 → s.queues q = []) : Sound (code q) (spec q) s m := by
  intro op r hr
  cases op with
  | rem | tryRem =>
    simp only [code, test, Option.ite_none_right_eq_some, Option.some.injEq] at hr
    obtain ⟨hstatus, rfl⟩ := hr
    simp [spec, rem_nil (h0 hstatus)]
  | walk =>
    simp only [code, test, Option.ite_none_right_eq_some, Option.some.injEq] at hr
    obtain ⟨hstatus, rfl⟩ := hr
    simp [spec, h0 hstatus]
  | add item | extract item | size => cases hr

theorem sound_before (h' : Represents h s) (hm : m.status q = h.status q) : Sound (code q) (spec q) s m := by
  apply sound_of_status
  rw [hm]
  exact h'.status_eq_zero.mp

theorem exec_addTest_empty (h0 : m.status q = 0) : exec q m (.addTest x) = (m, .inl (.addHead x)) := by
  simp [exec, h0]

theorem exec_addTest (h0 : m.status q ≠ 0) : exec q m (.addTest x) = (m, .inl (.addLink x)) := by
  simp [exec, h0]

theorem exec_addLink {t : ι} (ht : m.tail q = some t) :
    exec q m (.addLink x) = ({ m with next := update m.next t (some x) }, .inl (.addPrev x)) := by
  simp [exec, ht]

theorem exec_addPrev {t : ι} (ht : m.tail q = some t) :
    exec q m (.addPrev x) = ({ m with prev := update m.prev x (some t) }, .inl (.addTail x)) := by
  simp [exec, ht]

abbrev Rep (s : Lists ι κ ω) (h : Heap ι κ ω) : Prop := Represents h s

theorem add_body (h' : Represents h s) (hpre : Pre q (.add x) s) :
    Before (code q) (spec q) Rep s (.add x) h (.addNext x) := by
  obtain ⟨hlive, hfree, hcount⟩ := hpre
  obtain ⟨h₁, hadd, hrep⟩ := h'.exec (show Proper s (.add q x) from ⟨hlive, hfree⟩) hcount
  have hsound {m : Heap ι κ ω} (hm : m.status q = h.status q) := sound_before h' hm
  have hdone {m : Heap ι κ ω} (hm : m = h₁) : Represents m (s.exec (.add q x)).2 := hm ▸ hrep
  refine Before.next (hsound rfl) rfl ?_
  by_cases hempty : h.status q = 0
  · simp only [Heap.exec, queueAdd, if_pos hempty, Option.map_some, Option.some.injEq, Prod.mk.injEq] at hadd
    refine Before.next (hsound rfl) (exec_addTest_empty hempty) ?_
    refine Before.next (hsound rfl) rfl ?_
    refine Before.next (hsound rfl) rfl ?_
    refine Before.next (hsound rfl) rfl ?_
    exact Before.last (hsound rfl) rfl (List.mem_singleton_self _) (hdone hadd.2)
  · obtain ⟨t, ht⟩ : ∃ t, h.tail q = some t := by
      cases ht : h.tail q with
      | some t => exact ⟨t, rfl⟩
      | none => simp [Heap.exec, queueAdd, hempty, ht] at hadd
    simp only [Heap.exec, queueAdd, if_neg hempty, ht, Option.map_some, Option.some.injEq, Prod.mk.injEq] at hadd
    refine Before.next (hsound rfl) (exec_addTest hempty) ?_
    refine Before.next (hsound rfl) (exec_addLink ht) ?_
    refine Before.next (hsound rfl) (exec_addPrev ht) ?_
    refine Before.next (hsound rfl) rfl ?_
    refine Before.next (hsound rfl) rfl ?_
    exact Before.last (hsound rfl) rfl (List.mem_singleton_self _) (hdone hadd.2)

/-- What is returned for the item. -/
def Unlink.answer (w : ω) : Unlink → Answer ω
  | .rem => .owner (some w)
  | .extract => .void

/-- Behind the change of `status` only the item's own links are written. -/
theorem unlink_after (k : Unlink) {r : Answer ω} {h₁ : Heap ι κ ω} (hrep : Represents h₁ s)
    (hr : k.answer (m.owner x) = r)
    (hm : { m with next := update m.next x none, prev := update m.prev x none, que := update m.que x none } = h₁) :
    After (code q) (spec q) Rep s r m (.clearNext k x) := by
  subst hr
  have hsound {m' : Heap ι κ ω} (hm' : m'.status q = m.status q) : Sound (code q) (spec q) s m' := by
    refine sound_before hrep (hm'.trans ?_)
    rw [← hm]
  refine After.next (hsound rfl) rfl ?_
  refine After.next (hsound rfl) rfl ?_
  refine After.next (hsound rfl) rfl ?_
  cases k with
  | rem => exact After.last (hsound rfl) rfl (show Represents _ s from hm ▸ hrep)
  | extract => exact After.last (hsound rfl) rfl (show Represents _ s from hm ▸ hrep)

theorem exec_remItem (hx : m.head q = some x) : exec q m .remItem = (m, .inl (.remHead x)) := by
  simp [exec, hx]

theorem exec_remFix {y : ι} (hy : m.head q = some y) :
    exec q m (.remFix x) = ({ m with prev := update m.prev y none }, .inl (.unlinkStatus .rem x)) := by
  simp [exec, hy]

theorem exec_remFix_last (hy : m.head q = none) :
    exec q m (.remFix x) = ({ m with tail := update m.tail q none }, .inl (.unlinkStatus .rem x)) := by
  simp [exec, hy]

theorem rem_body (h' : Represents h s) {op : Call ι}
    (hspec : ((s.exec (.rem q)).2, Answer.owner (s.exec (.rem q)).1) ∈ spec q op s) :
    Before (code q) (spec q) Rep s op h .remTest := by
  obtain ⟨h₁, hrem, hrep⟩ := h'.exec (show Proper s (.rem q) from trivial) trivial
  have hsound {m : Heap ι κ ω} (hm : m.status q = h.status q) := sound_before h' hm
  simp only [Heap.exec] at hrem
  by_cases hempty : h.status q = 0
  · have hexec : exec q h .remTest = (h, .inr (.owner (none : Option ω))) := by
      simp [exec, hempty]
    simp only [queueRem, if_pos hempty, Option.some.injEq, Prod.mk.injEq] at hrem
    rw [← hrem.1] at hspec
    refine Before.last (hsound rfl) hexec hspec ?_
    rw [hrem.2]
    exact hrep
  · have hexec : exec q h .remTest = (h, .inl .remItem) := by
      simp [exec, hempty]
    refine Before.next (hsound rfl) hexec ?_
    cases hhead : h.head q with
    | none => simp [queueRem, hempty, hhead] at hrem
    | some x =>
      simp only [queueRem, if_neg hempty, hhead, Option.map_some, Option.some.injEq, Prod.mk.injEq, update_self] at hrem
      obtain ⟨howner, hrem⟩ := hrem
      refine Before.next (hsound rfl) (exec_remItem hhead) ?_
      refine Before.next (hsound rfl) rfl ?_
      cases hnext : h.next x with
      | none =>
        simp only [hnext] at howner hrem
        rw [← howner] at hspec
        refine Before.next (hsound rfl) (exec_remFix_last (update_self _ _ _)) ?_
        exact Before.effect (hsound rfl) rfl hspec (unlink_after .rem hrep rfl hrem)
      | some y =>
        simp only [hnext] at howner hrem
        rw [← howner] at hspec
        refine Before.next (hsound rfl) (exec_remFix (update_self _ _ _)) ?_
        exact Before.effect (hsound rfl) rfl hspec (unlink_after .rem hrep rfl hrem)

theorem exec_extractPrev {p : ι} (hp : m.prev x = some p) :
    exec q m (.extractPrev x) = ({ m with next := update m.next p (m.next x) }, .inl (.extractNext x)) := by
  simp [exec, hp]

theorem exec_extractPrev_first (hp : m.prev x = none) :
    exec q m (.extractPrev x) = ({ m with head := update m.head q (m.next x) }, .inl (.extractNext x)) := by
  simp [exec, hp]

theorem exec_extractNext {n : ι} (hn : m.next x = some n) :
    exec q m (.extractNext x) = ({ m with prev := update m.prev n (m.prev x) }, .inl (.unlinkStatus .extract x)) := by
  simp [exec, hn]

theorem exec_extractNext_last (hn : m.next x = none) :
    exec q m (.extractNext x) = ({ m with tail := update m.tail q (m.prev x) }, .inl (.unlinkStatus .extract x)) := by
  simp [exec, hn]

theorem extract_body (h' : Represents h s) (hlive : s.Live x) :
    Before (code q) (spec q) Rep s (.extract x) h (.extractTest x) := by
  obtain ⟨h₁, hextract, hrep⟩ := h'.exec (show Proper s (.extract q x) from hlive) trivial
  have hsound {m : Heap ι κ ω} (hm : m.status q = h.status q) := sound_before h' hm
  have hspec : ((s.exec (.extract q x)).2, (.void : Answer ω)) ∈ spec q (.extract x) s := List.mem_singleton_self _
  simp only [Heap.exec, queueExtract] at hextract
  by_cases hque : h.que x ≠ some q
  · have hexec : exec q h (.extractTest x) = (h, .inr (.void : Answer ω)) := by
      simp [exec, hque]
    simp only [if_pos hque, Option.map_some, Option.some.injEq, Prod.mk.injEq] at hextract
    refine Before.last (hsound rfl) hexec hspec ?_
    rw [hextract.2]
    exact hrep
  · have hexec : exec q h (.extractTest x) = (h, .inl (.extractAssert x : Loc ι ω)) := by
      simp [exec, hque]
    refine Before.next (hsound rfl) hexec ?_
    by_cases hcount : 0 < h.status q
    · have hassert : exec q h (.extractAssert x) = (h, .inl (.extractPrev x : Loc ι ω)) := by
        simp [exec, hcount]
      simp only [if_neg hque, if_pos hcount, Option.map_some, Option.some.injEq, Prod.mk.injEq] at hextract
      refine Before.next (hsound rfl) hassert ?_
      cases hprev : h.prev x with
      | none =>
        refine Before.next (hsound rfl) (exec_extractPrev_first hprev) ?_
        cases hnext : h.next x with
        | none =>
          refine Before.next (hsound rfl) (exec_extractNext_last hnext) ?_
          refine Before.effect (hsound rfl) rfl hspec (unlink_after .extract hrep rfl ?_)
          simpa [hprev, hnext] using hextract.2
        | some n =>
          refine Before.next (hsound rfl) (exec_extractNext hnext) ?_
          refine Before.effect (hsound rfl) rfl hspec (unlink_after .extract hrep rfl ?_)
          simpa [hprev, hnext] using hextract.2
      | some p =>
        refine Before.next (hsound rfl) (exec_extractPrev hprev) ?_
        cases hnext : update h.next p (h.next x) x with
        | none =>
          refine Before.next (hsound rfl) (exec_extractNext_last hnext) ?_
          refine Before.effect (hsound rfl) rfl hspec (unlink_after .extract hrep rfl ?_)
          simpa [hprev, hnext] using hextract.2
        | some n =>
          refine Before.next (hsound rfl) (exec_extractNext hnext) ?_
          refine Before.effect (hsound rfl) rfl hspec (unlink_after .extract hrep rfl ?_)
          simpa [hprev, hnext] using hextract.2
    · simp [hque, hcount] at hextract

/-- The owners of the items that are left. -/
theorem walk_after (h' : Represents h s) {l₂ : List ι} : ∀ {l₁ : List ι}, s.queues q = l₁ ++ l₂ →
    After (code q) (spec q) Rep s (.owners ((s.queues q).filterMap s.owner)) h
      (.walkItem l₂.head? (l₁.filterMap s.owner)) := by
  have hsound : Sound (code q) (spec q) s h := sound_before h' rfl
  induction l₂ with
  | nil =>
    intro l₁ hq
    rw [hq, List.append_nil]
    exact After.last hsound rfl h'
  | cons x l₂ ih =>
    intro l₁ hq
    have hlinked := h'.linked q
    rw [hq] at hlinked
    obtain ⟨w, hw⟩ := Option.ne_none_iff_exists'.mp (h'.live q x (hq ▸ List.mem_append_right _ List.mem_cons_self))
    have hq' : s.queues q = (l₁ ++ [x]) ++ l₂ := by rw [hq, List.append_assoc, List.singleton_append]
    have hexec : exec q h (.walkItem (some x) (l₁.filterMap s.owner)) =
        (h, .inl (.walkItem l₂.head? ((l₁ ++ [x]).filterMap s.owner) : Loc ι ω)) := by
      simp [exec, hlinked.next_eq, h'.owner x w hw, hw]
    exact After.next hsound hexec (ih hq')

theorem walk_body (h' : Represents h s) : Before (code q) (spec q) Rep s .walk h .walkHead := by
  have hsound : Sound (code q) (spec q) s h := sound_before h' rfl
  have hspec : (s, Answer.owners ((s.queues q).filterMap s.owner)) ∈ spec q .walk s := List.mem_singleton_self _
  refine Before.next hsound rfl ?_
  by_cases hempty : h.status q = 0
  · have hexec : exec q h (.walkTest (h.head q)) = (h, .inr (.owners ([] : List ω))) := by
      simp [exec, hempty]
    have hnil := h'.status_eq_zero.mp hempty
    refine Before.last hsound hexec ?_ h'
    simp [spec, hnil]
  · have hexec : exec q h (.walkTest (h.head q)) = (h, .inl (.walkItem (s.queues q).head? [] : Loc ι ω)) := by
      simp [exec, hempty, (h'.linked q).head_eq]
    exact Before.effect hsound hexec hspec (walk_after h' (List.nil_append (s.queues q)).symm)

theorem size_body (h' : Represents h s) : Before (code q) (spec q) Rep s .size h .sizeRead := by
  refine Before.last (sound_before h' rfl) rfl ?_ h'
  simp [spec, ← h'.status q]

/-- **The critical sections are right.** -/
theorem implements : Implements (code q) (spec q) (Rep (ι := ι) (κ := κ) (ω := ω)) (Pre q) where
  sound v m h' := sound_before h' rfl
  busy v op r hr := by
    cases op with
    | tryRem =>
      cases hr
      simp [spec]
    | add item | rem | extract item | walk | size => cases hr
  body v m op h' hpre := by
    cases op with
    | add item => exact add_body h' hpre
    | rem | tryRem => exact rem_body h' (by simp [spec])
    | extract item => exact extract_body h' hpre
    | walk => exact walk_body h'
    | size => exact size_body h'

end

/-! ### The rule of the callers -/

section
variable {ν : Type} {q : κ} {v v' : Lists ι κ ω} {a : Atomic ν (Call ι) (Answer ω) (Lists ι κ ω)}
  {op : Call ι} {r : Answer ω} {x : ι} {i : ν}

omit [DecidableEq ι]

@[simp] theorem adds_append {h₁ h₂ : List (Event ν (Call ι) (Answer ω))} : adds (h₁ ++ h₂) = adds h₁ ++ adds h₂ :=
  List.filterMap_append

@[simp] theorem adds_ret : adds ([.ret i r] : List (Event ν (Call ι) (Answer ω))) = [] := rfl

@[simp] theorem adds_add : adds ([.call i (.add x)] : List (Event ν (Call ι) (Answer ω))) = [x] := rfl

/-- Every item is on its way into the queue, or in it, at most once. -/
structure Tidy (q : κ) (a : Atomic ν (Call ι) (Answer ω) (Lists ι κ ω)) : Prop where
  live : ∀ x, a.value.Live x
  other : ∀ q', q' ≠ q → a.value.queues q' = []
  nodup : (a.value.queues q).Nodup
  queued : ∀ x ∈ a.value.queues q, x ∈ adds a.history
  pending : ∀ i x, a.phase i = .pending (.add x) →
    x ∈ adds a.history ∧ x ∉ a.value.queues q ∧ ∀ j, a.phase j = .pending (.add x) → j = i
  few : (adds a.history).length < 2 ^ 32

omit [DecidableEq κ] in
theorem Tidy.pre (h : Tidy q a) (hp : a.phase i = .pending op) : Pre q op a.value := by
  cases op with
  | add x =>
    obtain ⟨hadded, hout, -⟩ := h.pending i x hp
    refine ⟨h.live x, ?_, ?_⟩
    · intro q'
      by_cases hq : q' = q
      · subst hq
        exact hout
      · rw [h.other q' hq]
        exact List.not_mem_nil
    · have hsub : x :: a.value.queues q ⊆ adds a.history := List.cons_subset.mpr ⟨hadded, fun y => h.queued y⟩
      have hlen := ((List.nodup_cons.mpr ⟨hout, h.nodup⟩).subperm hsub).length_le
      rw [List.length_cons] at hlen
      exact Nat.lt_of_le_of_lt hlen h.few
  | extract x => exact h.live x
  | rem | tryRem | walk | size => trivial

end

section
variable {ν : Type} [DecidableEq ν] {q : κ} {v v' : Lists ι κ ω} {a : Atomic ν (Call ι) (Answer ω) (Lists ι κ ω)}
  {op : Call ι} {r : Answer ω} {x : ι} {i : ν}

/-- Removing makes the queue shorter. -/
theorem exec_rem_cases (v : Lists ι κ ω) : (v.exec (.rem q)).2.owner = v.owner ∧
    (∀ q', q' ≠ q → (v.exec (.rem q)).2.queues q' = v.queues q') ∧
    ((v.exec (.rem q)).2.queues q).Sublist (v.queues q) := by
  cases hq : v.queues q with
  | nil =>
    rw [rem_nil hq, hq]
    exact ⟨rfl, fun _ _ => rfl, List.Sublist.refl _⟩
  | cons x l =>
    simp only [Lists.exec, hq]
    refine ⟨rfl, fun q' hne => update_of_ne hne _ _, ?_⟩
    simp [Lists.setQueue]

/-- A call changes one queue, and only `atomic_queue_add` makes it longer. -/
theorem spec_cases (h : (v', r) ∈ spec q op v) : v'.owner = v.owner ∧ (∀ q', q' ≠ q → v'.queues q' = v.queues q') ∧
    ((v'.queues q).Sublist (v.queues q) ∨ ∃ x, op = .add x ∧ v'.queues q = v.queues q ++ [x]) := by
  have hsame : v.owner = v.owner ∧ (∀ q', q' ≠ q → v.queues q' = v.queues q') ∧
      ((v.queues q).Sublist (v.queues q) ∨ ∃ x, op = .add x ∧ v.queues q = v.queues q ++ [x]) :=
    ⟨rfl, fun _ _ => rfl, .inl (List.Sublist.refl _)⟩
  have hrem := exec_rem_cases (q := q) v
  cases op with
  | add x =>
    cases List.mem_singleton.mp h
    refine ⟨rfl, fun q' hne => update_of_ne hne _ _, .inr ⟨x, rfl, ?_⟩⟩
    simp [Lists.exec, Lists.append, Lists.setQueue]
  | rem =>
    cases List.mem_singleton.mp h
    exact ⟨hrem.1, hrem.2.1, .inl hrem.2.2⟩
  | tryRem =>
    rcases List.mem_cons.mp h with heq | hrest
    · cases heq
      exact ⟨hrem.1, hrem.2.1, .inl hrem.2.2⟩
    · cases List.mem_singleton.mp hrest
      exact hsame
  | extract x =>
    cases List.mem_singleton.mp h
    refine ⟨rfl, fun q' hne => update_of_ne hne _ _, .inl ?_⟩
    simp [Lists.exec, Lists.setQueue, List.erase_sublist]
  | walk | size =>
    cases List.mem_singleton.mp h
    exact hsame

omit [DecidableEq κ] [DecidableEq ι] in
/-- A thread goes on without a new item. -/
theorem Tidy.phase {p : Phase (Call ι) (Answer ω)} {history : List (Event ν (Call ι) (Answer ω))} (h : Tidy q a)
    (hp : ∀ x, p ≠ .pending (.add x)) (hadds : adds history = adds a.history) :
    Tidy q { value := a.value, phase := update a.phase i p, history := history } where
  live := h.live
  other := h.other
  nodup := h.nodup
  queued y hy := by
    rw [hadds]
    exact h.queued y hy
  pending j y hj := by
    have hold (k : ν) (hk : update a.phase i p k = .pending (.add y)) : a.phase k = .pending (.add y) := by
      by_cases hki : k = i
      · subst hki
        rw [update_self] at hk
        exact absurd hk (hp y)
      · rwa [update_of_ne hki] at hk
    obtain ⟨hadded, hout, honly⟩ := h.pending j y (hold j hj)
    rw [hadds]
    exact ⟨hadded, hout, fun k hk => honly k (hold k hk)⟩
  few := by
    rw [hadds]
    exact h.few

omit [DecidableEq κ] [DecidableEq ι] in
theorem Tidy.callAdd (h : Tidy q a) (hok : rule a.history (.add x)) (i : ν) : Tidy q
    { a with phase := update a.phase i (.pending (.add x)), history := a.history ++ [.call i (.add x)] } where
  live := h.live
  other := h.other
  nodup := h.nodup
  queued y hy := by simp [h.queued y hy]
  pending j y hj := by
    have hnew : ∀ k, a.phase k ≠ .pending (.add x) := by
      intro k hk
      exact hok.1 (h.pending k x hk).1
    by_cases hji : j = i
    · subst hji
      simp only [update_self] at hj
      cases hj
      refine ⟨by simp, fun hmem => hok.1 (h.queued _ hmem), ?_⟩
      intro k hk
      by_contra hkj
      exact hnew k (by simpa [hkj] using hk)
    · simp only [update_of_ne hji] at hj
      obtain ⟨hadded, hout, honly⟩ := h.pending j y hj
      refine ⟨by simp [hadded], hout, ?_⟩
      intro k hk
      by_cases hki : k = i
      · subst hki
        simp only [update_self] at hk
        cases hk
        exact absurd hj (hnew j)
      · exact honly k (by simpa [hki] using hk)
  few := by simpa using hok.2

omit [DecidableEq κ] [DecidableEq ι] in
theorem Tidy.call (h : Tidy q a) (hok : rule a.history op) (i : ν) : Tidy q
    { a with phase := update a.phase i (.pending op), history := a.history ++ [.call i op] } := by
  cases op with
  | add x => exact h.callAdd hok i
  | rem | tryRem | extract x | walk | size =>
    refine h.phase ?_ (by simp [adds])
    intro x heq
    cases heq

theorem Tidy.apply (h : Tidy q a) (hp : a.phase i = .pending op) (hmem : (v', r) ∈ spec q op a.value) : Tidy q
    { a with value := v', phase := update a.phase i (.done r) } := by
  obtain ⟨howner, hothers, hqueue⟩ := spec_cases hmem
  have hlive : ∀ x, v'.Live x := by
    intro x
    rw [Lists.Live, howner]
    exact h.live x
  have hother : ∀ q', q' ≠ q → v'.queues q' = [] := fun q' hne => (hothers q' hne).trans (h.other q' hne)
  -- the others are not in front of the same item
  have hold (k : ν) (y : ι) (hk : update a.phase i (.done r) k = .pending (.add y)) :
      k ≠ i ∧ a.phase k = .pending (.add y) := by
    by_cases hki : k = i
    · subst hki
      rw [update_self] at hk
      cases hk
    · rw [update_of_ne hki] at hk
      exact ⟨hki, hk⟩
  rcases hqueue with hsub | ⟨x, rfl, hadd⟩
  · refine ⟨hlive, hother, h.nodup.sublist hsub, fun y hy => h.queued y (hsub.subset hy), ?_, h.few⟩
    intro j y hj
    obtain ⟨hadded, hout, honly⟩ := h.pending j y (hold j y hj).2
    exact ⟨hadded, fun hy => hout (hsub.subset hy), fun k hk => honly k (hold k y hk).2⟩
  · obtain ⟨hadded, hout, honly⟩ := h.pending i x hp
    refine ⟨hlive, hother, ?_, ?_, ?_, h.few⟩
    · simp only [hadd]
      exact List.nodup_append.mpr ⟨h.nodup, List.nodup_singleton x, by
        intro y hy z hz heq
        exact hout (List.mem_singleton.mp hz ▸ heq ▸ hy)⟩
    · intro y hy
      simp only [hadd, List.mem_append, List.mem_singleton] at hy
      rcases hy with hy | rfl
      · exact h.queued y hy
      · exact hadded
    · intro j y hj
      obtain ⟨hji, hj'⟩ := hold j y hj
      obtain ⟨hadded', hout', honly'⟩ := h.pending j y hj'
      refine ⟨hadded', ?_, fun k hk => honly' k (hold k y hk).2⟩
      simp only [hadd, List.mem_append, List.mem_singleton, not_or]
      refine ⟨hout', ?_⟩
      rintro rfl
      exact hji (honly j hj')

/-- The queue is empty, and all items are initialised. -/
def Blank (v : Lists ι κ ω) : Prop := (∀ q, v.queues q = []) ∧ ∀ x, v.Live x

theorem keeps (q : κ) : Keeps (ι := ν) (spec q : Call ι → Lists ι κ ω → List (Lists ι κ ω × Answer ω)) rule Blank (Pre q) := by
  intro a ha i op hp
  suffices htidy : Tidy q a from htidy.pre hp
  refine Atomic.invariant (I := Tidy q) ?_ ?_ ?_ ?_ ha
  · intro a hs
    obtain ⟨⟨hnil, hlive⟩, hidle, hhistory⟩ := hs
    refine ⟨hlive, fun q' _ => hnil q', ?_, ?_, ?_, ?_⟩
    · rw [hnil q]
      exact List.nodup_nil
    · intro x hx
      rw [hnil q] at hx
      cases hx
    · intro j x hj
      rw [hidle j] at hj
      cases hj
    · rw [hhistory]
      exact Nat.two_pow_pos 32
  · intro a i op hI hok _
    exact hI.call hok i
  · intro a i op v r hI hp hmem
    exact hI.apply hp hmem
  · intro a i r hI _
    refine hI.phase ?_ (by simp)
    intro x heq
    cases heq

end

/-! ### Every run -/

section
variable {ν : Type} [DecidableEq ν] {q : κ}

/-- The runs of `code`, from the empty queue. -/
def Reachable (q : κ) (s : State ν (Heap ι κ ω) (Call ι) (Answer ω) (Loc ι ω)) : Prop :=
  Reach (step (code q)) (Allowed rule) (Start Empty) s

omit [DecidableEq ι] [DecidableEq κ] in
theorem blank_of_empty (m : Heap ι κ ω) (hm : Empty m) : ∃ v, Blank v ∧ Rep v m := by
  refine ⟨⟨fun _ => [], fun x => some (m.owner x)⟩, ⟨fun _ => rfl, ?_⟩, hm⟩
  intro x
  exact Option.some_ne_none (m.owner x)

instance (h : List (Event ν (Call ι) (Answer ω))) (op : Call ι) : Decidable (rule h op) :=
  match op with
  | .add item => inferInstanceAs (Decidable (item ∉ adds h ∧ (adds h).length + 1 < 2 ^ 32))
  | .rem | .tryRem | .extract _ | .walk | .size => .isTrue trivial

instance (s : State ν (Heap ι κ ω) (Call ι) (Answer ω) (Loc ι ω)) (l : Label ν (Call ι)) : Decidable (Allowed rule s l) :=
  match l with
  | .call _ op => decidable_of_iff (rule s.history op) ⟨fun h _ _ heq => by cases heq; exact h, fun h => h _ op rfl⟩
  | .go _ => .isTrue fun _ _ heq => by cases heq

/-- Two threads. -/
abbrev Two : Type := State (Fin 2) (Heap Nat Unit Char) (Call Nat) (Answer Char) (Loc Nat Char)

/-- The queue is empty, and the items have no links. -/
def unused : Two where
  mem := zeros 'a'
  lock := none
  pc := fun _ => .idle
  history := []

theorem unused_start : Start Empty unused := by
  refine ⟨⟨fun _ => .nil, fun _ => rfl, ?_, fun _ _ _ => ⟨rfl, rfl⟩, ?_, ?_⟩, rfl, fun _ => rfl, rfl⟩
  · intro x _ q'
    simp [unused, zeros]
  · intro x w hw
    exact Option.some.inj hw
  · intro q' x hx
    cases hx

/-- While the first thread adds an item, the second one finds `status` still at `0`; it asks again, and waits for the
    lock. -/
def addRun : List (Label (Fin 2) (Call Nat)) :=
  .call 0 (.add 7) :: List.replicate 6 (.go 0) ++ [.call 1 .rem, .go 1, .go 1] ++ List.replicate 2 (.go 0) ++
    [.call 1 .rem, .go 1, .go 0, .go 0] ++ List.replicate 12 (.go 1)

def addHistory : List (Event (Fin 2) (Call Nat) (Answer Char)) :=
  [.call 0 (.add 7), .call 1 .rem, .ret 1 (.owner none), .call 1 .rem, .ret 0 .void, .ret 1 (.owner (some 'a'))]

/-- **The atomic queue is a list.**  For any number of threads and any interleaving of the statements, an order of
    the calls explains what they returned: each took effect between its call and its return, as it does on a list.
    While nobody has the lock, the pointers are those of this list. -/
theorem queue_linearizable {s : State ν (Heap ι κ ω) (Call ι) (Answer ω) (Loc ι ω)} (h : Reachable q s) :
    ∃ v o v', Blank v ∧ Linearizes (spec q) v s.history o v' ∧ (s.lock = none → Represents s.mem v') :=
  implements.linearizable (keeps q) blank_of_empty h

theorem queue_linearizable_add : ∃ s : Two, Reachable () s ∧ s.history = addHistory ∧
    ∃ v o v', Blank v ∧ Linearizes (spec ()) v addHistory o v' ∧ Represents s.mem v' := by
  obtain ⟨s, hs, hP⟩ := Reach.exists_of_runOk (step (code ())) (Allowed rule) (Start Empty) unused_start addRun
    (fun s => s.history == addHistory && s.lock == none) (by decide +kernel)
  simp only [Bool.and_eq_true, beq_iff_eq] at hP
  obtain ⟨v, o, v', hv, ho, hfree⟩ := queue_linearizable hs
  exact ⟨s, hs, hP.1, v, o, v', hv, hP.1 ▸ ho, hfree hP.2⟩

/-- A thread that has crashed stays where it is. -/
theorem not_after_crashed {v : Lists ι κ ω} {r : Answer ω} {m : Heap ι κ ω} :
    ¬ After (code q) (spec q) Rep v r m .crashed := by
  intro h
  generalize hl : Loc.crashed = l at h
  induction h with
  | next _ hexec _ ih =>
    subst hl
    cases hexec
    exact ih rfl
  | last _ hexec _ =>
    subst hl
    cases hexec

theorem not_before_crashed {v : Lists ι κ ω} {op : Call ι} {m : Heap ι κ ω} :
    ¬ Before (code q) (spec q) Rep v op m .crashed := by
  intro h
  generalize hl : Loc.crashed = l at h
  induction h with
  | next _ hexec _ ih =>
    subst hl
    cases hexec
    exact ih rfl
  | effect _ hexec _ hrest =>
    subst hl
    cases hexec
    exact not_after_crashed hrest
  | last _ hexec _ _ =>
    subst hl
    cases hexec

/-- **The queue is safe**: no `NULL` is followed and the assertion of `queue_extract` holds, whatever the others
    do, and whoever has the lock releases it without help from anybody. -/
theorem queue_safe {s : State ν (Heap ι κ ω) (Call ι) (Answer ω) (Loc ι ω)} (h : Reachable q s) :
    (∀ i op, s.pc i ≠ .inside op .crashed) ∧
      ∀ i, s.lock = some i → ∃ n s', run (step (code q)) s (List.replicate n (.go i)) = some s' ∧ s'.lock = none := by
  obtain ⟨a, -, hm⟩ := implements.matched (keeps q) blank_of_empty h
  constructor
  · intro i op hpc
    have hfits := hm.fits i
    rw [hpc] at hfits
    generalize a.phase i = p at hfits
    cases hfits with
    | before hb => exact not_before_crashed hb
    | after ha => exact not_after_crashed ha
  · intro i hi
    obtain ⟨n, s', hrun, hfree, -⟩ := hm.leaves hi
    exact ⟨n, s', hrun, hfree⟩

/-- In the middle of the addition. -/
theorem queue_safe_add : ∃ s : Two, Reachable () s ∧ s.pc 0 = .inside (.add 7) (.addQue 7) ∧
    ∃ n s', run (step (code ())) s (List.replicate n (.go 0)) = some s' ∧ s'.lock = none := by
  obtain ⟨s, hs, hP⟩ := Reach.exists_of_runOk (step (code ())) (Allowed rule) (Start Empty) unused_start (addRun.take 10)
    (fun s => s.pc 0 == .inside (.add 7) (.addQue 7) && s.lock == some 0) (by decide +kernel)
  simp only [Bool.and_eq_true, beq_iff_eq] at hP
  exact ⟨s, hs, hP.1, (queue_safe hs).2 0 hP.2⟩

end

end Coroc.AtomicQueue
