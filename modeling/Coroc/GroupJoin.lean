import Mathlib.Data.Fintype.BigOperators
import Mathlib.Algebra.Order.BigOperators.Group.Finset
import Coroc.ThreadPool

/-!
# Joining the subtasks of a group (`src/group.c`)

The parent adds `n` tasks and calls `coroc_group_sync` once, each task calls
`coroc_group_notify` once.  The counter starts at one, for the parent, and is changed
without the lock; the pointer to the parent is read and written under it.

Every access to `count`, `errors`, `parent` and the lock is a step.  `core_wait` is two:
the status is set before the lock is released, which is what makes it safe to look for
the parent under the lock.  The counters are 32 bits wide.

* `Inv` says who has seen what: `count` is the number of those that have not decremented it
  yet, and the one task that brings it to zero (`last`) is the only one to take the lock.
* `join_exact` is the join of any number of tasks that fits the counter.
* `release_safe` is what the caller needs to free the group.  It fails when the counter
  reaches zero between the two looks `coroc_group_sync` takes at it.
-/

namespace Coroc.GroupJoin

open Coroc.Transition Coroc.ThreadPool

/-- `coroc_group_notify`, place by place. -/
inductive Task where
  | unspawned
  | start
  | dec
  | lock
  | read
  | unlock (parent : Bool)
  | ready
  | done
deriving DecidableEq, Repr

/-- The parent: `coroc_group_add_task` for each task, then `coroc_group_sync`. -/
inductive Parent where
  | adding (i : Nat)
  | lock
  | readCount
  | setParent
  | suspend
  | unlock
  | waiting
  | retErrors
  | returned (v : UInt32)
deriving DecidableEq, Repr

inductive Holder (n : Nat) where
  | parent
  | task (i : Fin n)
deriving DecidableEq, Repr

inductive Status where
  | running
  | wait
  | ready
deriving DecidableEq, Repr

/-- The group, the parent's status and all places.  The last three fields are not in the
    source: how often `vpu_ready(parent)` has been called, whether the parent has been
    suspended, the task that brought the counter to zero. -/
structure State (n : Nat) where
  count : UInt32
  errors : UInt32
  lock : Option (Holder n)
  parent : Bool
  status : Status
  main : Parent
  tasks : Fin n → Task
  readied : Nat
  suspended : Bool
  last : Option (Fin n)

inductive Label (n : Nat) where
  | parent
  | task (i : Fin n)

section
variable {n : Nat}

def State.setTask (s : State n) (i : Fin n) (p : Task) : State n :=
  { s with tasks := Function.update s.tasks i p }

def State.setMain (s : State n) (p : Parent) : State n := { s with main := p }

/-- One step of the parent. -/
def parentStep (s : State n) : Option (State n) :=
  match s.main with
  | .adding i =>
    if h : i < n then
      some { s.setTask ⟨i, h⟩ .start with count := s.count + 1, main := .adding (i + 1) }
    else
      some { s with
        count := s.count - 1
        main := if s.count - 1 > 0 then .lock else .retErrors }
  | .lock => if s.lock = none then some { s with lock := some .parent, main := .readCount } else none
  | .readCount => some (s.setMain (if s.count > 0 then .setParent else .retErrors))
  | .setParent => some { s with parent := true, main := .suspend }
  | .suspend => some { s with status := .wait, suspended := true, main := .unlock }
  | .unlock => some { s with lock := none, main := .waiting }
  | .waiting => if s.status = .ready then some { s with status := .running, main := .retErrors } else none
  | .retErrors => some (s.setMain (.returned s.errors))
  | .returned _ => none

/-- One step of task `i`, which calls `coroc_group_notify` with `retval`. -/
def taskStep (retval : Int) (i : Fin n) (s : State n) : Option (State n) :=
  match s.tasks i with
  | .unspawned => none
  | .start => some { s.setTask i .dec with errors := if retval ≠ 0 then s.errors + 1 else s.errors }
  | .dec =>
    some { s.setTask i (if s.count - 1 = 0 then .lock else .done) with
      count := s.count - 1
      last := if s.count - 1 = 0 then some i else s.last }
  | .lock => if s.lock = none then some { s.setTask i .read with lock := some (.task i) } else none
  | .read => some (s.setTask i (.unlock s.parent))
  | .unlock p => some { s.setTask i (if p then .ready else .done) with lock := none }
  -- the assertion of `vpu_ready` aborts the program when it fails
  | .ready =>
    if s.status = .wait then
      some { s.setTask i .done with status := .ready, readied := s.readied + 1 }
    else none
  | .done => none

def step (retval : Fin n → Int) (s : State n) : Label n → Option (State n)
  | .parent => parentStep s
  | .task i => taskStep (retval i) i s

/-- After `coroc_group_init`. -/
def init (n : Nat) : State n :=
  { count := 1
    errors := 0
    lock := none
    parent := false
    status := .running
    main := .adding 0
    tasks := fun _ => .unspawned
    readied := 0
    suspended := false
    last := none }

/-! ### Counting -/

/-- A task that will still decrement the counter. -/
def Task.owes : Task → Nat
  | .start | .dec => 1
  | _ => 0

/-- The parent will still decrement the counter. -/
def Parent.owes : Parent → Nat
  | .adding _ => 1
  | _ => 0

/-- A task that has been through the increment of `errors`. -/
def Task.reported : Task → Bool
  | .unspawned | .start => false
  | _ => true

/-- A task that has found the counter at zero. -/
def Task.finishing : Task → Bool
  | .lock | .read | .unlock _ | .ready => true
  | _ => false

def State.pending (s : State n) : Nat := ∑ i, (s.tasks i).owes

/-- The errors of the tasks that have reported. -/
def failures (retval : Fin n → Int) (tasks : Fin n → Task) : Nat :=
  ∑ i, if retval i ≠ 0 ∧ (tasks i).reported = true then 1 else 0

theorem Task.owes_le (p : Task) : p.owes ≤ 1 := by
  cases p <;> simp [Task.owes]

theorem State.pending_le (s : State n) : s.pending ≤ n := by
  calc s.pending ≤ ∑ _i : Fin n, 1 := Finset.sum_le_sum fun i _ => (s.tasks i).owes_le
    _ = n := by simp

theorem State.pending_set (s : State n) (i : Fin n) (p : Task) :
    (s.setTask i p).pending + (s.tasks i).owes = s.pending + p.owes :=
  sum_update Task.owes s.tasks i p

theorem State.owes_of_pending {s : State n} (h : s.pending = 0) (i : Fin n) :
    (s.tasks i).owes = 0 :=
  (Finset.sum_eq_zero_iff.mp h) i (Finset.mem_univ i)

theorem State.owes_le_pending (s : State n) (i : Fin n) : (s.tasks i).owes ≤ s.pending :=
  Finset.single_le_sum (f := fun i => (s.tasks i).owes) (fun _ _ => Nat.zero_le _)
    (Finset.mem_univ i)

/-- One more task has reported. -/
theorem failures_set (retval : Fin n → Int) (tasks : Fin n → Task) (i : Fin n) (p : Task) :
    failures retval (Function.update tasks i p) +
      (if retval i ≠ 0 ∧ (tasks i).reported = true then 1 else 0) =
    failures retval tasks + if retval i ≠ 0 ∧ p.reported = true then 1 else 0 := by
  have h := sum_update (fun q : Bool × Int => if q.2 ≠ 0 ∧ q.1 = true then 1 else 0)
    (fun j => ((tasks j).reported, retval j)) i (p.reported, retval i)
  have hfun : ∀ j, (Function.update (fun j => ((tasks j).reported, retval j)) i
      (p.reported, retval i) j) = ((Function.update tasks i p j).reported, retval j) := by
    intro j
    by_cases hj : j = i
    · subst hj
      simp
    · simp [hj]
  simp only [hfun] at h
  exact h

/-! ### The counter -/

theorem ofNat_sub_one {m : Nat} (h : 0 < m) : UInt32.ofNat m - 1 = UInt32.ofNat (m - 1) := by
  obtain ⟨k, rfl⟩ := Nat.exists_eq_succ_of_ne_zero (Nat.ne_of_gt h)
  rw [Nat.succ_eq_add_one, UInt32.ofNat_add, Nat.add_sub_cancel]
  exact UInt32.add_sub_cancel _ _

theorem ofNat_eq_zero {m : Nat} (h : m < 2 ^ 32) : UInt32.ofNat m = 0 ↔ m = 0 := by
  constructor
  · intro he
    have := congrArg UInt32.toNat he
    rwa [UInt32.toNat_ofNat_of_lt' h] at this
  · rintro rfl
    rfl

theorem pos_iff {v : UInt32} : v > 0 ↔ v ≠ 0 := by
  rw [gt_iff_lt, UInt32.lt_iff_toNat_lt, Ne, ← UInt32.toNat_inj]
  simp [Nat.pos_iff_ne_zero]

/-! ### The invariant -/

def Parent.after : Parent → Bool
  | .retErrors | .returned _ => true
  | _ => false

/-- The parent is inside its critical section. -/
def Parent.inside : Parent → Bool
  | .readCount | .setParent | .suspend | .unlock => true
  | _ => false

/-- The parent has seen the counter above zero under the lock. -/
def Parent.decided : Parent → Bool
  | .setParent | .suspend | .unlock => true
  | _ => false

/-- The pointer to the parent is set. -/
def Parent.published : Parent → Bool
  | .suspend | .unlock | .waiting => true
  | _ => false

theorem Parent.inside_of_decided {p : Parent} (h : p.decided = true) : p.inside = true := by
  cases p <;> first | rfl | cases h

structure Inv (retval : Fin n → Int) (s : State n) : Prop where
  count : s.count = UInt32.ofNat (s.pending + s.main.owes)
  errors : s.errors = UInt32.ofNat (failures retval s.tasks)
  spawned : ∀ i, s.tasks i = .unspawned ↔ ∃ k, s.main = .adding k ∧ k ≤ i.val
  last : ∀ i, (s.tasks i).finishing = true → s.last = some i
  zero : s.last ≠ none → s.pending + s.main.owes = 0
  locked : ∀ i, s.lock = some (.task i) ↔ s.tasks i = .read ∨ ∃ p, s.tasks i = .unlock p
  reads : ∀ i, s.tasks i = .ready ∨ s.tasks i = .unlock true → s.parent = true
  parent : s.parent = true ↔ s.main.published = true ∨ (s.main.after = true ∧ s.suspended = true)
  suspended : s.suspended = true → s.main = .unlock ∨ s.main = .waiting ∨ s.main.after = true
  asleep : s.main = .unlock ∨ s.main = .waiting → s.suspended = true
  inside : s.main.inside = true → s.lock = some .parent
  outside : s.main.inside = false → s.lock = some .parent →
    s.main.after = true ∧ s.suspended = false
  woken : s.readied = 0 ∨ (s.readied = 1 ∧ s.suspended = true ∧ s.main ≠ .unlock ∧
    ∃ i, s.last = some i ∧ s.tasks i = .done)
  waits : s.main = .unlock ∨ (s.main = .waiting ∧ s.readied = 0) → s.status = .wait
  finished : s.main.after = true → s.pending = 0 ∧ (s.suspended = true → s.readied = 1)
  resumed : s.main = .waiting → s.status = .ready → s.readied = 1
  decided : s.main.decided = true → ∀ i, s.last = some i → s.tasks i = .lock
  finds : s.main = .waiting → s.readied = 0 → ∀ i, s.last = some i →
    (s.tasks i).finishing = true ∧ s.tasks i ≠ .unlock false
  value : ∀ v, s.main = .returned v → v = s.errors

variable {retval : Fin n → Int}

theorem inv_init : Inv retval (init n) := by
  have hp : (init n).pending = 0 := by simp [State.pending, init, Task.owes]
  have hf : failures retval (init n).tasks = 0 := by simp [failures, init, Task.reported]
  refine ⟨?_, ?_, ?_, ?_, ?_, ?_, ?_, ?_, ?_, ?_, ?_, ?_, ?_, ?_, ?_, ?_, ?_, ?_, ?_⟩
  · rw [hp]
    rfl
  · rw [hf]
    rfl
  all_goals simp [init, Task.finishing, Parent.published, Parent.after, Parent.inside,
    Parent.decided]

/-! ### Steps of the parent -/

/-- While the parent adds tasks, its own share keeps the counter above zero. -/
theorem Inv.last_none {s : State n} {i : Nat} (hi : Inv retval s) (hm : s.main = .adding i) :
    s.last = none := by
  by_contra hne
  have hz := hi.zero hne
  rw [hm] at hz
  simp [Parent.owes] at hz

theorem adding_inv {s : State n} {i : Nat} (hi : Inv retval s) (hm : s.main = .adding i)
    (h : i < n) :
    Inv retval { s.setTask ⟨i, h⟩ .start with count := s.count + 1, main := .adding (i + 1) } := by
  have hun : s.tasks ⟨i, h⟩ = .unspawned := (hi.spawned ⟨i, h⟩).mpr ⟨i, hm, Nat.le_refl i⟩
  have hpend : (s.setTask ⟨i, h⟩ .start).pending = s.pending + 1 := by
    have hset := s.pending_set ⟨i, h⟩ .start
    simpa [hun, Task.owes] using hset
  have hfail : failures retval (Function.update s.tasks ⟨i, h⟩ .start) =
      failures retval s.tasks := by
    have hset := failures_set retval s.tasks ⟨i, h⟩ .start
    simpa [hun, Task.reported] using hset
  have hnone := hi.last_none hm
  refine ⟨?_, ?_, ?_, ?_, fun hne => absurd hnone hne, ?_, ?_, ?_, ?_, ?_, ?_, ?_, ?_, ?_, ?_, ?_,
    ?_, ?_, ?_⟩
  · change s.count + 1 = UInt32.ofNat ((s.setTask ⟨i, h⟩ .start).pending + 1)
    rw [hpend, hi.count, hm]
    exact (UInt32.ofNat_add _ _).symm
  · exact hi.errors.trans (by rw [← hfail]; rfl)
  all_goals
    have hspawned := hi.spawned
    have hlast := hi.last
    have hlocked := hi.locked
    have hreads := hi.reads
    have hparent := hi.parent
    have hsusp := hi.suspended
    have hout := hi.outside
    have hwoken := hi.woken
    simp only [State.setTask, hm, Parent.published, Parent.after, Parent.inside, Parent.decided]
      at *
    grind [Function.update_apply, Task.finishing]

/-- The decrement of `coroc_group_sync`. -/
theorem sync_inv {s : State n} {i : Nat} (hn : n < 2 ^ 32) (hi : Inv retval s)
    (hm : s.main = .adding i) (h : ¬ i < n) :
    Inv retval { s with
      count := s.count - 1
      main := if s.count - 1 > 0 then .lock else .retErrors } := by
  have hcount : s.count - 1 = UInt32.ofNat s.pending := by
    rw [hi.count, hm]
    exact ofNat_sub_one (Nat.succ_pos _)
  have hpos : s.count - 1 > 0 ↔ s.pending ≠ 0 := by
    have hle := s.pending_le
    rw [pos_iff, hcount, Ne, ofNat_eq_zero (by omega)]
  have hall : ∀ j, s.tasks j ≠ .unspawned := by
    intro j hj
    obtain ⟨k, hk, hle⟩ := (hi.spawned j).mp hj
    rw [hm] at hk
    cases hk
    exact h (Nat.lt_of_le_of_lt hle j.isLt)
  have hnone := hi.last_none hm
  by_cases hz : s.pending = 0
  · rw [if_neg fun hc => hpos.mp hc hz]
    refine ⟨hcount, hi.errors, ?_, hi.last, fun hne => absurd hnone hne, hi.locked, hi.reads, ?_, ?_,
      ?_, ?_, ?_, hi.woken.imp_right ?_, ?_, ?_, ?_, ?_, ?_, ?_⟩
    all_goals
      have hparent := hi.parent
      have hsusp := hi.suspended
      have hout := hi.outside
      simp only [hm, State.pending, Parent.published, Parent.after, Parent.inside, Parent.decided]
        at *
      grind
  · rw [if_pos (hpos.mpr hz)]
    refine ⟨hcount, hi.errors, ?_, hi.last, fun hne => absurd hnone hne, hi.locked, hi.reads, ?_, ?_,
      ?_, ?_, ?_, hi.woken.imp_right ?_, ?_, ?_, ?_, ?_, ?_, ?_⟩
    all_goals
      have hparent := hi.parent
      have hsusp := hi.suspended
      have hout := hi.outside
      simp only [hm, Parent.published, Parent.after, Parent.inside, Parent.decided] at *
      grind

theorem lock_inv {s : State n} (hi : Inv retval s) (hm : s.main = .lock) (hl : s.lock = none) :
    Inv retval { s with lock := some .parent, main := .readCount } := by
  obtain ⟨hcount, herr, hspawn, hlast, hzero, hlocked, hreads, hpar, hsusp, hasleep, hin, hout,
    hwoken, hwaits, hover, hres, hdec, hfinds, hval⟩ := hi
  refine ⟨?_, herr, ?_, hlast, ?_, ?_, hreads, ?_, ?_, ?_, ?_, ?_, ?_, ?_, ?_, ?_, ?_, ?_, ?_⟩
  all_goals
    simp only [hm, State.pending, Parent.owes, Parent.published, Parent.after, Parent.inside,
      Parent.decided] at *
    grind

/-- The second look at the counter: the parent goes on to suspend itself, or returns with
    the lock. -/
theorem readCount_inv {s : State n} (hn : n < 2 ^ 32) (hi : Inv retval s)
    (hm : s.main = .readCount) :
    Inv retval (s.setMain (if s.count > 0 then .setParent else .retErrors)) := by
  have hpos : s.count > 0 ↔ s.pending ≠ 0 := by
    have hle := s.pending_le
    rw [pos_iff, hi.count, hm, Ne, ofNat_eq_zero (by simp only [Parent.owes]; omega)]
    simp [Parent.owes]
  obtain ⟨hcount, herr, hspawn, hlast, hzero, hlocked, hreads, hpar, hsusp, hasleep, hin, hout,
    hwoken, hwaits, hover, hres, hdec, hfinds, hval⟩ := hi
  split
  · refine ⟨?_, herr, ?_, hlast, ?_, hlocked, hreads, ?_, ?_, ?_, ?_, ?_, ?_, ?_, ?_, ?_, ?_, ?_, ?_⟩
    all_goals
      simp only [hm, State.setMain, State.pending, Parent.owes, Parent.published, Parent.after,
        Parent.inside, Parent.decided] at *
      grind
  · refine ⟨?_, herr, ?_, hlast, ?_, hlocked, hreads, ?_, ?_, ?_, ?_, ?_, ?_, ?_, ?_, ?_, ?_, ?_, ?_⟩
    all_goals
      simp only [hm, State.setMain, State.pending, Parent.owes, Parent.published, Parent.after,
        Parent.inside, Parent.decided] at *
      grind

theorem parentStep_inv {s s' : State n} (hn : n < 2 ^ 32) (hi : Inv retval s)
    (h : parentStep s = some s') : Inv retval s' := by
  unfold parentStep at h
  cases hm : s.main with
  | adding i =>
    simp only [hm] at h
    split at h
    · rename_i hlt
      cases h
      exact adding_inv hi hm hlt
    · rename_i hge
      cases h
      exact sync_inv hn hi hm hge
  | lock =>
    simp only [hm] at h
    split at h
    · rename_i hfree
      cases h
      exact lock_inv hi hm hfree
    · cases h
  | readCount =>
    simp only [hm, Option.some.injEq] at h
    subst h
    exact readCount_inv hn hi hm
  | returned v =>
    simp only [hm] at h
    cases h
  | setParent | suspend | unlock | waiting | retErrors =>
    simp only [hm, Option.some.injEq, Option.ite_none_right_eq_some] at h
    obtain ⟨hcount, herr, hspawn, hlast, hzero, hlocked, hreads, hpar, hsusp, hasleep, hin, hout,
      hwoken, hwaits, hover, hres, hdec, hfinds, hval⟩ := hi
    first
      | subst h
      | obtain ⟨hready, rfl⟩ := h
    constructor
    all_goals
      simp only [hm, State.setMain, State.pending, Parent.owes, Parent.published, Parent.after,
        Parent.inside, Parent.decided] at *
      grind -ring -linarith [Task.finishing]

/-! ### Steps of a task -/

/-- A task that moves without counting or reporting leaves the counters right. -/
theorem Inv.counts {s : State n} {i : Fin n} {p : Task} (hi : Inv retval s) (s' : State n)
    (htasks : s'.tasks = Function.update s.tasks i p) (howes : (s.tasks i).owes = p.owes)
    (hrep : (s.tasks i).reported = p.reported) (hmain : s'.main = s.main) (hcount : s'.count = s.count)
    (herrors : s'.errors = s.errors) (hlast : s'.last = s.last) :
    s'.count = UInt32.ofNat (s'.pending + s'.main.owes) ∧ s'.errors = UInt32.ofNat (failures retval s'.tasks) ∧
      (s'.last ≠ none → s'.pending + s'.main.owes = 0) ∧ s'.pending = s.pending := by
  have hpend : s'.pending = s.pending := by
    have hset := s.pending_set i p
    have hsame : s'.pending = (s.setTask i p).pending := by
      unfold State.pending
      rw [htasks]
      rfl
    omega
  have hfail : failures retval s'.tasks = failures retval s.tasks := by
    have hset := failures_set retval s.tasks i p
    rw [hrep] at hset
    rw [htasks]
    exact Nat.add_right_cancel hset
  rw [hpend, hfail, hmain, hcount, herrors, hlast]
  exact ⟨hi.count, hi.errors, hi.zero, rfl⟩

theorem start_inv {s : State n} {i : Fin n} (hi : Inv retval s) (ht : s.tasks i = .start) :
    Inv retval { s.setTask i .dec with
      errors := if retval i ≠ 0 then s.errors + 1 else s.errors } := by
  have hpend : (s.setTask i .dec).pending = s.pending := by
    have hset := s.pending_set i .dec
    simpa [ht, Task.owes] using hset
  have hfail : failures retval (Function.update s.tasks i .dec) =
      failures retval s.tasks + if retval i ≠ 0 then 1 else 0 := by
    have hset := failures_set retval s.tasks i .dec
    simpa [ht, Task.reported] using hset
  -- a task that has not reported yet keeps the parent from returning
  have hafter : s.main.after = false := by
    rcases ha : s.main.after with _ | _
    · rfl
    · have howes := State.owes_of_pending (hi.finished ha).1 i
      rw [ht] at howes
      cases howes
  obtain ⟨hcount, herr, hspawn, hlast, hzero, hlocked, hreads, hpar, hsusp, hasleep, hin, hout,
    hwoken, hwaits, hover, hres, hdec, hfinds, hval⟩ := hi
  refine ⟨?_, ?_, ?_, ?_, ?_, ?_, ?_, hpar, hsusp, hasleep, hin, hout, ?_, hwaits, ?_, hres, ?_, ?_, ?_⟩
  · change s.count = UInt32.ofNat ((s.setTask i .dec).pending + s.main.owes)
    rw [hpend]
    exact hcount
  · change (if retval i ≠ 0 then s.errors + 1 else s.errors) =
      UInt32.ofNat (failures retval (Function.update s.tasks i .dec))
    rw [hfail, herr]
    split
    · exact (UInt32.ofNat_add _ _).symm
    · rfl
  rotate_left 2
  · change s.last ≠ none → (s.setTask i .dec).pending + s.main.owes = 0
    rw [hpend]
    exact hzero
  all_goals
    simp only [State.setTask]
    grind [Function.update_apply, Task.finishing, Parent.after]

theorem dec_inv {s : State n} {i : Fin n} (hn : n < 2 ^ 32) (hi : Inv retval s)
    (ht : s.tasks i = .dec) :
    Inv retval { s.setTask i (if s.count - 1 = 0 then .lock else .done) with
      count := s.count - 1
      last := if s.count - 1 = 0 then some i else s.last } := by
  have hle := s.pending_le
  have howes := s.owes_le_pending i
  rw [ht] at howes
  have hone : 1 ≤ s.pending := howes
  have hpend : ∀ p : Task, p.owes = 0 → (s.setTask i p).pending = s.pending - 1 := by
    intro p hp
    have hset := s.pending_set i p
    rw [ht, hp] at hset
    change _ + 1 = _ at hset
    omega
  have hfail : ∀ p : Task, p.reported = true →
      failures retval (s.setTask i p).tasks = failures retval s.tasks := by
    intro p hp
    have hset := failures_set retval s.tasks i p
    rw [ht, hp] at hset
    exact Nat.add_right_cancel hset
  have hcount' : s.count - 1 = UInt32.ofNat (s.pending - 1 + s.main.owes) := by
    rw [hi.count, ofNat_sub_one (by omega)]
    congr 1
    omega
  have hlt : s.pending - 1 + s.main.owes < 2 ^ 32 := by
    have : s.main.owes ≤ 1 := by cases s.main <;> simp [Parent.owes]
    omega
  have hz : s.count - 1 = 0 ↔ s.pending - 1 + s.main.owes = 0 := by
    rw [hcount', ofNat_eq_zero hlt]
  have hnone : s.last = none := by
    by_contra hne
    have := hi.zero hne
    omega
  have hafter : s.main.after = false := by
    rcases ha : s.main.after with _ | _
    · rfl
    · have := (hi.finished ha).1
      omega
  have hreadied : s.readied = 0 := by
    rcases hi.woken with h | ⟨-, -, -, j, hj, -⟩
    · exact h
    · exact nomatch hnone.symm.trans hj
  obtain ⟨hcount, herr, hspawn, hlast, hzero, hlocked, hreads, hpar, hsusp, hasleep, hin, hout,
    hwoken, hwaits, hover, hres, hdec, hfinds, hval⟩ := hi
  by_cases hc : s.count - 1 = 0
  · rw [if_pos hc, if_pos hc]
    have hp := hpend .lock rfl
    have hf := hfail .lock rfl
    refine ⟨?_, herr.trans (congrArg UInt32.ofNat hf.symm), ?_, ?_, ?_, ?_, ?_, hpar, hsusp, hasleep,
      hin, hout, .inl hreadied, hwaits, ?_, ?_, ?_, ?_, ?_⟩
    · change s.count - 1 = UInt32.ofNat ((s.setTask i .lock).pending + s.main.owes)
      rw [hp]
      exact hcount'
    rotate_left 2
    · intro _
      change (s.setTask i .lock).pending + s.main.owes = 0
      rw [hp]
      exact hz.mp hc
    all_goals
      simp only [State.setTask]
      grind [Function.update_apply, Task.finishing, Parent.after]
  · rw [if_neg hc, if_neg hc]
    have hp := hpend .done rfl
    have hf := hfail .done rfl
    refine ⟨?_, herr.trans (congrArg UInt32.ofNat hf.symm), ?_, ?_, fun hne => absurd hnone hne, ?_, ?_,
      hpar, hsusp, hasleep, hin, hout, .inl hreadied, hwaits, ?_, ?_, ?_, ?_, ?_⟩
    · change s.count - 1 = UInt32.ofNat ((s.setTask i .done).pending + s.main.owes)
      rw [hp]
      exact hcount'
    all_goals
      simp only [State.setTask]
      grind [Function.update_apply, Task.finishing, Parent.after]

theorem takeLock_inv {s : State n} {i : Fin n} (hi : Inv retval s) (ht : s.tasks i = .lock)
    (hl : s.lock = none) :
    Inv retval { s.setTask i .read with lock := some (.task i) } := by
  have hsection := Parent.inside_of_decided (p := s.main)
  obtain ⟨hcount, herr, hzero, hpend⟩ := hi.counts { s.setTask i .read with lock := some (.task i) }
    rfl (by rw [ht]; rfl) (by rw [ht]; rfl) rfl rfl rfl rfl
  obtain ⟨-, -, hspawn, hlast, -, hlocked, hreads, hpar, hsusp, hasleep, hin, hout, hwoken, hwaits, hover,
    hres, hdec, hfinds, hval⟩ := hi
  refine ⟨hcount, herr, ?_, ?_, hzero, ?_, ?_, ?_, ?_, ?_, ?_, ?_, ?_, ?_,
    fun ha => ⟨hpend.trans (hover ha).1, (hover ha).2⟩, ?_, ?_, ?_, ?_⟩
  all_goals
    simp only [State.setTask]
    grind [Function.update_apply, Task.finishing, Parent.after, Parent.published, Parent.inside,
      Parent.decided]

theorem read_inv {s : State n} {i : Fin n} (hi : Inv retval s) (ht : s.tasks i = .read) :
    Inv retval (s.setTask i (.unlock s.parent)) := by
  have hsection := Parent.inside_of_decided (p := s.main)
  obtain ⟨hcount, herr, hzero, hpend⟩ := hi.counts (s.setTask i (.unlock s.parent))
    rfl (by rw [ht]; rfl) (by rw [ht]; rfl) rfl rfl rfl rfl
  obtain ⟨-, -, hspawn, hlast, -, hlocked, hreads, hpar, hsusp, hasleep, hin, hout, hwoken, hwaits, hover,
    hres, hdec, hfinds, hval⟩ := hi
  refine ⟨hcount, herr, ?_, ?_, hzero, ?_, ?_, ?_, ?_, ?_, ?_, ?_, ?_, ?_,
    fun ha => ⟨hpend.trans (hover ha).1, (hover ha).2⟩, ?_, ?_, ?_, ?_⟩
  all_goals
    simp only [State.setTask]
    grind [Function.update_apply, Task.finishing, Parent.after, Parent.published, Parent.inside,
      Parent.decided]

theorem unlock_inv {s : State n} {i : Fin n} {p : Bool} (hi : Inv retval s)
    (ht : s.tasks i = .unlock p) :
    Inv retval { s.setTask i (if p then .ready else .done) with lock := none } := by
  have hsection := Parent.inside_of_decided (p := s.main)
  obtain ⟨hcount, herr, hzero, hpend⟩ := hi.counts { s.setTask i (if p then .ready else .done) with lock := none }
    rfl (by rw [ht]; cases p <;> rfl) (by rw [ht]; cases p <;> rfl) rfl rfl rfl rfl
  obtain ⟨-, -, hspawn, hlast, -, hlocked, hreads, hpar, hsusp, hasleep, hin, hout, hwoken, hwaits, hover,
    hres, hdec, hfinds, hval⟩ := hi
  refine ⟨hcount, herr, ?_, ?_, hzero, ?_, ?_, ?_, ?_, ?_, ?_, ?_, ?_, ?_,
    fun ha => ⟨hpend.trans (hover ha).1, (hover ha).2⟩, ?_, ?_, ?_, ?_⟩
  all_goals
    simp only [State.setTask]
    grind [Function.update_apply, Task.finishing, Parent.after, Parent.published, Parent.inside,
      Parent.decided]

/-- A task that has found the parent finds it asleep. -/
theorem Inv.ready_waits {s : State n} {i : Fin n} (hi : Inv retval s) (ht : s.tasks i = .ready) :
    s.main = .waiting ∧ s.readied = 0 ∧ s.last = some i := by
  have hlast := hi.last i (by rw [ht]; rfl)
  have hzero : s.readied = 0 := by
    rcases hi.woken with h | ⟨-, -, -, j, hj, hdone⟩
    · exact h
    · rw [hlast] at hj
      cases hj
      exact nomatch ht.symm.trans hdone
  rcases hi.parent.mp (hi.reads i (.inl ht)) with hp | ⟨ha, hs⟩
  · refine ⟨?_, hzero, hlast⟩
    cases hm : s.main with
    | waiting => rfl
    | suspend | unlock => exact nomatch ht.symm.trans (hi.decided (by rw [hm]; rfl) i hlast)
    | adding k => rw [hm] at hp; cases hp
    | lock | readCount | setParent | retErrors => rw [hm] at hp; cases hp
    | returned v => rw [hm] at hp; cases hp
  · have := (hi.finished ha).2 hs
    omega

theorem ready_inv {s : State n} {i : Fin n} (hi : Inv retval s) (ht : s.tasks i = .ready) :
    Inv retval { s.setTask i .done with status := .ready, readied := s.readied + 1 } := by
  obtain ⟨hm, hr, hlasti⟩ := hi.ready_waits ht
  have hafter : s.main.after = false := by
    rw [hm]
    rfl
  have hsection := Parent.inside_of_decided (p := s.main)
  obtain ⟨hcount, herr, hzero, hpend⟩ := hi.counts
    { s.setTask i .done with status := .ready, readied := s.readied + 1 }
    rfl (by rw [ht]; rfl) (by rw [ht]; rfl) rfl rfl rfl rfl
  obtain ⟨-, -, hspawn, hlast, -, hlocked, hreads, hpar, hsusp, hasleep, hin, hout, hwoken, hwaits, hover,
    hres, hdec, hfinds, hval⟩ := hi
  refine ⟨hcount, herr, ?_, ?_, hzero, ?_, ?_, ?_, ?_, ?_, ?_, ?_, ?_, ?_,
    fun ha => absurd (hafter.symm.trans ha) Bool.false_ne_true, ?_, ?_, ?_, ?_⟩
  all_goals
    simp only [State.setTask]
    grind [Function.update_apply, Task.finishing, Parent.after, Parent.published, Parent.inside,
      Parent.decided]

theorem taskStep_inv {s s' : State n} {i : Fin n} (hn : n < 2 ^ 32) (hi : Inv retval s)
    (h : taskStep (retval i) i s = some s') : Inv retval s' := by
  unfold taskStep at h
  cases ht : s.tasks i with
  | unspawned =>
    simp only [ht] at h
    cases h
  | start =>
    simp only [ht, Option.some.injEq] at h
    subst h
    exact start_inv hi ht
  | dec =>
    simp only [ht, Option.some.injEq] at h
    subst h
    exact dec_inv hn hi ht
  | done =>
    simp only [ht] at h
    cases h
  | lock =>
    simp only [ht] at h
    split at h
    · rename_i hfree
      cases h
      exact takeLock_inv hi ht hfree
    · cases h
  | read =>
    simp only [ht, Option.some.injEq] at h
    subst h
    exact read_inv hi ht
  | unlock p =>
    simp only [ht, Option.some.injEq] at h
    subst h
    exact unlock_inv hi ht
  | ready =>
    simp only [ht] at h
    split at h
    · cases h
      exact ready_inv hi ht
    · cases h

/-! ### Every run -/

/-- The runs of `n` tasks and one `coroc_group_sync`. -/
def Reached (retval : Fin n → Int) : State n → Prop :=
  Reach (step retval) (fun _ _ => True) (· = init n)

theorem step_inv {s s' : State n} {l : Label n} (hn : n < 2 ^ 32) (hi : Inv retval s)
    (h : step retval s l = some s') : Inv retval s' := by
  cases l with
  | parent => exact parentStep_inv hn hi h
  | task i => exact taskStep_inv hn hi h

theorem inv_reached {s : State n} (hn : n < 2 ^ 32) (h : Reached retval s) : Inv retval s :=
  h.invariant (fun _ hs => hs ▸ inv_init) fun _ _ _ hi _ hs => step_inv hn hi hs

/-- Once the parent has given up its share, a counter at zero has been brought there by
    a task. -/
def Finish (s : State n) : Prop :=
  s.main.owes = 0 → s.main.after = false → s.pending = 0 → s.last ≠ none

theorem parentStep_finish {s s' : State n} (hi : Inv retval s) (hf : Finish s)
    (h : parentStep s = some s') : Finish s' := by
  unfold parentStep at h
  cases hm : s.main with
  | adding i =>
    simp only [hm] at h
    split at h
    · cases h
      exact fun howes => nomatch howes
    · cases h
      intro _ hafter hz
      have hcount : s.count - 1 = 0 := by
        have hpend : s.pending = 0 := hz
        rw [hi.count, hm, hpend]
        exact ofNat_sub_one (m := 1) Nat.one_pos
      simp [hcount, Parent.after] at hafter
  | returned v =>
    simp only [hm] at h
    cases h
  | readCount =>
    simp only [hm, Option.some.injEq] at h
    subst h
    intro _ _ hz
    exact hf (by rw [hm]; rfl) (by rw [hm]; rfl) hz
  | lock | setParent | suspend | unlock | waiting | retErrors =>
    simp only [hm, Option.some.injEq, Option.ite_none_right_eq_some] at h
    first
      | subst h
      | obtain ⟨hready, rfl⟩ := h
    intro _ hafter hz
    first
      | exact hf (by rw [hm]; rfl) (by rw [hm]; rfl) hz
      | cases hafter

theorem taskStep_finish {s s' : State n} {i : Fin n} (hi : Inv retval s) (hf : Finish s)
    (h : taskStep (retval i) i s = some s') : Finish s' := by
  unfold taskStep at h
  cases ht : s.tasks i with
  | unspawned | done =>
    simp only [ht] at h
    cases h
  | dec =>
    simp only [ht, Option.some.injEq] at h
    subst h
    intro howes hafter hz
    by_cases hc : s.count - 1 = 0
    · simp [hc]
    · -- the counter says that somebody is still to come
      exfalso
      rw [if_neg hc] at hz
      have hset := s.pending_set i .done
      rw [ht] at hset
      change (s.setTask i .done).pending = 0 at hz
      simp only [Task.owes] at hset
      have hone : s.pending = 1 := by omega
      apply hc
      rw [hi.count, ofNat_sub_one (by omega)]
      change s.main.owes = 0 at howes
      rw [howes, hone]
      rfl
  | start | lock | read | unlock p | ready =>
    have hset : ∀ q : Task, q.owes = 0 + (s.tasks i).owes → (s.setTask i q).pending = s.pending := by
      intro q hq
      have := s.pending_set i q
      omega
    simp only [ht, Option.some.injEq, Option.ite_none_right_eq_some] at h
    first
      | subst h
      | obtain ⟨hcond, rfl⟩ := h
    intro howes hafter hz
    refine hf howes hafter ((hset _ ?_).symm.trans hz)
    rw [ht]
    first
      | rfl
      | cases p <;> rfl

theorem finish_reached {s : State n} (hn : n < 2 ^ 32) (h : Reached retval s) : Finish s := by
  refine (h.invariant (I := fun s => Inv retval s ∧ Finish s) ?_ ?_).2
  · rintro s rfl
    exact ⟨inv_init, fun howes => nomatch howes⟩
  · intro s l s' hi _ hs
    refine ⟨step_inv hn hi.1 hs, ?_⟩
    cases l with
    | parent => exact parentStep_finish hi.1 hi.2 hs
    | task i => exact taskStep_finish hi.1 hi.2 hs

/-! ### The join -/

/-- The task has decremented the counter. -/
def Task.counted : Task → Bool
  | .unspawned | .start | .dec => false
  | _ => true

/-- What the group is for.  `woken` and `wakes` say that a suspended parent is readied once:
    never a second time, before it is past the join, and in every run that has come to its
    end. -/
structure JoinExact (retval : Fin n → Int) (s : State n) : Prop where
  all : ∀ v, s.main = .returned v → ∀ i, (s.tasks i).counted = true
  value : ∀ v, s.main = .returned v →
    v = UInt32.ofNat (Finset.univ.filter fun i => retval i ≠ 0).card
  asleep : ∀ i, s.tasks i = .ready → s.suspended = true ∧ s.status = .wait
  once : s.readied ≤ 1
  woken : s.suspended = true → s.main.after = true → s.readied = 1
  wakes : s.suspended = true → (∀ l, step retval s l = none) → s.readied = 1
  silent : s.suspended = false → s.readied = 0 ∧ ∀ i, s.tasks i ≠ .ready

/-- When the parent is past the join, every task has been counted. -/
theorem Inv.counted {s : State n} (hi : Inv retval s) (ha : s.main.after = true) (i : Fin n) :
    (s.tasks i).counted = true := by
  have howes := State.owes_of_pending (hi.finished ha).1 i
  cases ht : s.tasks i with
  | unspawned =>
    obtain ⟨k, hk, -⟩ := (hi.spawned i).mp ht
    rw [hk] at ha
    cases ha
  | start | dec =>
    rw [ht] at howes
    cases howes
  | _ => rfl

theorem Task.reported_of_counted {p : Task} (h : p.counted = true) : p.reported = true := by
  cases p <;> first | rfl | cases h

theorem Inv.value_eq {s : State n} {v : UInt32} (hi : Inv retval s) (hv : s.main = .returned v) :
    v = UInt32.ofNat (Finset.univ.filter fun i => retval i ≠ 0).card := by
  have hall : ∀ i, (s.tasks i).reported = true := fun i =>
    Task.reported_of_counted (hi.counted (by rw [hv]; rfl) i)
  rw [hi.value v hv, hi.errors, failures, Finset.card_filter]
  simp [hall]

/-- A suspended parent that has not been woken is not forgotten: the task that is to wake
    it, or one before it, can move. -/
theorem Inv.wakes {s : State n} (hi : Inv retval s) (hf : Finish s) (hs : s.suspended = true)
    (hstuck : ∀ l, step retval s l = none) : s.readied = 1 := by
  rcases hi.suspended hs with hm | hm | ha
  · have hpar := hstuck .parent
    simp [step, parentStep, hm] at hpar
  · rcases hi.woken with hzero | ⟨hone, -⟩
    · exfalso
      -- who is still to count can count
      have hpend : s.pending = 0 := by
        refine Finset.sum_eq_zero fun i _ => ?_
        have htask := hstuck (.task i)
        cases ht : s.tasks i with
        | start => simp [step, taskStep, ht] at htask
        | dec => simp [step, taskStep, ht] at htask
        | _ => rfl
      have hlast := hf (by rw [hm]; rfl) (by rw [hm]; rfl) hpend
      obtain ⟨i, hsome⟩ := Option.ne_none_iff_exists'.mp hlast
      obtain ⟨hfin, hfound⟩ := hi.finds hm hzero i hsome
      have htask := hstuck (.task i)
      cases ht : s.tasks i with
      | lock =>
        have hlock : s.lock ≠ none := by
          simpa [step, taskStep, ht] using htask
        obtain ⟨holder, hholder⟩ := Option.ne_none_iff_exists'.mp hlock
        cases holder with
        | parent => exact absurd (hi.outside (by rw [hm]; rfl) hholder).1 (by rw [hm]; nofun)
        | task j =>
          have hj := hstuck (.task j)
          rcases (hi.locked j).mp hholder with hr | ⟨p, hu⟩
          · simp [step, taskStep, hr] at hj
          · simp [step, taskStep, hu] at hj
      | read => simp [step, taskStep, ht] at htask
      | unlock p => simp [step, taskStep, ht] at htask
      | ready => simp [step, taskStep, ht, hi.waits (.inr ⟨hm, hzero⟩)] at htask
      | unspawned | start | dec | done =>
        rw [ht] at hfin
        cases hfin
    · exact hone
  · exact (hi.finished ha).2 hs

/-- **The join is exact**, for every number of tasks that the counter can hold and every
    interleaving. -/
theorem join_exact {s : State n} (hn : n < 2 ^ 32) (h : Reached retval s) :
    JoinExact retval s := by
  have hi := inv_reached hn h
  have hready : ∀ i, s.tasks i = .ready → s.suspended = true ∧ s.status = .wait := by
    intro i ht
    obtain ⟨hm, hzero, -⟩ := hi.ready_waits ht
    exact ⟨hi.asleep (.inr hm), hi.waits (.inr ⟨hm, hzero⟩)⟩
  constructor
  case all => exact fun v hv => hi.counted (by rw [hv]; rfl)
  case value => exact fun v hv => hi.value_eq hv
  case asleep => exact hready
  case once => rcases hi.woken with hz | ⟨hone, -⟩ <;> omega
  case woken => exact fun hs ha => (hi.finished ha).2 hs
  case wakes => exact fun hs hstuck => hi.wakes (finish_reached hn h) hs hstuck
  case silent =>
    intro hs
    refine ⟨?_, fun i ht => ?_⟩
    · rcases hi.woken with hz | ⟨-, hsusp, -⟩
      · exact hz
      · exact nomatch hs.symm.trans hsusp
    · exact nomatch hs.symm.trans (hready i ht).1

/-- The parent is suspended before the two tasks count. -/
def suspendedRun : List (Label 2) :=
  List.replicate 8 .parent ++ List.replicate 2 (.task 0) ++ List.replicate 6 (.task 1) ++
    List.replicate 2 .parent

/-- The second of two tasks fails. -/
def secondFails (i : Fin 2) : Int := if i = 1 then -1 else 0

theorem twoTasks_join_exact :
    ∃ s : State 2, (s.main = .returned 1 ∧ s.readied = 1) ∧ JoinExact secondFails s := by
  obtain ⟨s, hs, hp⟩ := Reach.exists_of_run (step secondFails) (· = init 2) rfl suspendedRun
    (fun s => decide (s.main = .returned 1 ∧ s.readied = 1)) (by decide +kernel)
  exact ⟨s, by simpa using hp, join_exact (by decide) hs⟩

/-! ### A counter that wraps -/

/-- The parent has added `k` tasks, and none has moved yet. -/
def afterAdds (n k : Nat) : State n :=
  { init n with
    count := UInt32.ofNat (k + 1)
    main := .adding k
    tasks := fun i => if i.val < k then .start else .unspawned }

theorem afterAdds_zero : afterAdds n 0 = init n := by
  simp [afterAdds, init]

theorem afterAdds_succ {k : Nat} (h : k < n) :
    parentStep (afterAdds n k) = some (afterAdds n (k + 1)) := by
  have htasks : Function.update (afterAdds n k).tasks ⟨k, h⟩ .start = (afterAdds n (k + 1)).tasks := by
    funext i
    by_cases hi : i = ⟨k, h⟩
    · subst hi
      simp [afterAdds]
    · have hne : i.val ≠ k := fun he => hi (Fin.ext he)
      have hlt : i.val < k + 1 ↔ i.val < k := by omega
      simp only [afterAdds, Function.update_of_ne hi, hlt]
  have hcount : UInt32.ofNat (k + 1) + 1 = UInt32.ofNat (k + 1 + 1) := (UInt32.ofNat_add _ _).symm
  simp only [parentStep, afterAdds, h, dite_true, State.setTask, hcount, Option.some.injEq]
  rw [State.mk.injEq]
  exact ⟨rfl, rfl, rfl, rfl, rfl, rfl, htasks, rfl, rfl, rfl⟩

theorem afterAdds_reached {k : Nat} (h : k ≤ n) : Reached retval (afterAdds n k) := by
  induction k with
  | zero => exact .start afterAdds_zero
  | succ k ih => exact .next .parent (ih (Nat.le_of_succ_le h)) trivial (afterAdds_succ h)

/-- With `2 ^ 32` tasks the counter is back at one when the parent comes to wait: it
    returns, and no task has counted. -/
theorem join_not_exact :
    ¬ ∀ (n : Nat) (retval : Fin n → Int) (s : State n), Reached retval s → JoinExact retval s := by
  intro hall
  have hreach : Reached (fun _ => 0) (afterAdds (2 ^ 32) (2 ^ 32)) := afterAdds_reached (Nat.le_refl _)
  have hcount : (afterAdds (2 ^ 32) (2 ^ 32)).count - 1 = 0 := by decide
  have hsync : step (fun _ => 0) (afterAdds (2 ^ 32) (2 ^ 32)) .parent =
      some { afterAdds (2 ^ 32) (2 ^ 32) with count := 0, main := .retErrors } := by
    unfold step parentStep
    change (if h : 2 ^ 32 < 2 ^ 32 then _ else _) = _
    rw [dif_neg (Nat.lt_irrefl _), hcount]
    rfl
  have hret := Reach.next .parent (.next .parent hreach trivial hsync) trivial rfl
  have hcounted := (hall _ _ _ hret).all 0 rfl 0
  cases hcounted

/-! ### Freeing the group -/

/-- The task still has a step on the group: `vpu_ready` has not, it is called with the
    parent that was read under the lock. -/
def Task.touches : Task → Bool
  | .ready | .done => false
  | _ => true

/-- `__CoroC_Sync` may free the group. -/
def Releasable (s : State n) : Prop :=
  s.lock = none ∧ ∀ i, (s.tasks i).touches = false

/-- The second look of `coroc_group_sync` at the counter does not find it at zero. -/
def secondLook (s : State n) : Label n → Prop
  | .parent => s.main = .readCount → s.count ≠ 0
  | .task _ => True

instance (s : State n) : (l : Label n) → Decidable (secondLook s l)
  | .parent => inferInstanceAs (Decidable (s.main = .readCount → s.count ≠ 0))
  | .task _ => inferInstanceAs (Decidable True)

/-- A parent that is past the join without having been suspended has found the counter at
    zero itself. -/
def Direct (s : State n) : Prop :=
  s.main.after = true → s.suspended = false → s.last = none ∧ s.lock ≠ some .parent

theorem Task.touches_cases {p : Task} (h : p.touches = true) (hc : p.counted = true) :
    p.finishing = true := by
  cases p with
  | unspawned | start | dec => cases hc
  | ready | done => cases h
  | lock | read | unlock _ => rfl

theorem Inv.releasable {s : State n} {v : UInt32} (hi : Inv retval s) (hd : Direct s)
    (hv : s.main = .returned v) : Releasable s := by
  have ha : s.main.after = true := by rw [hv]; rfl
  have hnone : ∀ i, (s.tasks i).finishing = false := by
    intro i
    rcases hfin : (s.tasks i).finishing with _ | _
    · rfl
    · have hlast := hi.last i hfin
      rcases hs : s.suspended with _ | _
      · exact nomatch (hd ha hs).1.symm.trans hlast
      · rcases hi.woken with hz | ⟨-, -, -, j, hj, hdone⟩
        · have := (hi.finished ha).2 hs
          omega
        · rw [hlast] at hj
          cases hj
          rw [hdone] at hfin
          cases hfin
  constructor
  · rcases hl : s.lock with _ | _ | i
    · rfl
    · have hs := (hi.outside (by rw [hv]; rfl) hl).2
      exact absurd hl (hd ha hs).2
    · have hfin := hnone i
      rcases (hi.locked i).mp hl with hr | ⟨p, hu⟩
      · rw [hr] at hfin
        cases hfin
      · rw [hu] at hfin
        cases hfin
  · intro i
    rcases ht : (s.tasks i).touches with _ | _
    · rfl
    · exact nomatch (hnone i).symm.trans (Task.touches_cases ht (hi.counted ha i))

theorem parentStep_direct {s s' : State n} (hi : Inv retval s) (hd : Direct s)
    (hok : secondLook s .parent) (h : parentStep s = some s') : Direct s' := by
  unfold parentStep at h
  cases hm : s.main with
  | adding i =>
    have hfree : s.lock ≠ some .parent := fun hl =>
      absurd (hi.outside (by rw [hm]; rfl) hl).1 (by rw [hm]; nofun)
    simp only [hm] at h
    split at h
    · cases h
      exact fun ha => nomatch ha
    · cases h
      exact fun _ _ => ⟨hi.last_none hm, hfree⟩
  | readCount =>
    simp only [hm, Option.some.injEq] at h
    subst h
    rw [if_pos (pos_iff.mpr (hok hm))]
    exact fun ha => nomatch ha
  | waiting =>
    simp only [hm, Option.ite_none_right_eq_some, Option.some.injEq] at h
    obtain ⟨-, rfl⟩ := h
    intro _ hs
    exact nomatch hs.symm.trans (hi.asleep (.inr hm))
  | retErrors =>
    simp only [hm, Option.some.injEq] at h
    subst h
    exact fun _ hs => hd (by rw [hm]; rfl) hs
  | returned v =>
    simp only [hm] at h
    cases h
  | lock | setParent | suspend | unlock =>
    simp only [hm, Option.some.injEq, Option.ite_none_right_eq_some] at h
    first
      | subst h
      | obtain ⟨-, rfl⟩ := h
    exact fun ha => nomatch ha

theorem taskStep_direct {s s' : State n} {i : Fin n} (hi : Inv retval s) (hd : Direct s)
    (h : taskStep (retval i) i s = some s') : Direct s' := by
  unfold taskStep at h
  cases ht : s.tasks i with
  | unspawned | done =>
    simp only [ht] at h
    cases h
  | dec =>
    simp only [ht, Option.some.injEq] at h
    subst h
    -- past the join every task has counted
    intro ha _
    have hc := hi.counted ha i
    rw [ht] at hc
    cases hc
  | start | lock | read | unlock p | ready =>
    simp only [ht, Option.some.injEq, Option.ite_none_right_eq_some] at h
    first
      | subst h
      | obtain ⟨-, rfl⟩ := h
    intro ha hs
    obtain ⟨hlast, hfree⟩ := hd ha hs
    exact ⟨hlast, by first | exact hfree | nofun⟩

/-- **The group may be freed when `coroc_group_sync` has returned**, in every run in which
    its second look does not find the counter at zero. -/
theorem release_safe {s : State n} (hn : n < 2 ^ 32)
    (h : Reach (step retval) secondLook (· = init n) s) {v : UInt32}
    (hv : s.main = .returned v) : Releasable s := by
  have hboth : Inv retval s ∧ Direct s := by
    refine h.invariant (I := fun s => Inv retval s ∧ Direct s) ?_ ?_
    · rintro s rfl
      exact ⟨inv_init, fun ha => nomatch ha⟩
    · intro s l s' hi hok hs
      refine ⟨step_inv hn hi.1 hs, ?_⟩
      cases l with
      | parent => exact parentStep_direct hi.1 hi.2 hok hs
      | task i => exact taskStep_direct hi.1 hi.2 hs
  exact hboth.1.releasable hboth.2 hv

theorem twoTasks_release_safe :
    ∃ s : State 2, s.main = .returned 1 ∧ Releasable s := by
  obtain ⟨s, hs, hp⟩ := Reach.exists_of_runOk (step secondFails) secondLook (· = init 2) rfl
    suspendedRun (fun s => decide (s.main = .returned 1)) (by decide +kernel)
  have hv : s.main = .returned 1 := by simpa using hp
  exact ⟨s, hv, release_safe (by decide) hs hv⟩

/-- One task: it counts between the decrement of `coroc_group_sync` and the second look,
    which then returns with the lock, for which the task is waiting. -/
def lateTask : List (Label 1) :=
  [.parent, .task 0, .parent, .task 0, .parent, .parent, .parent]

theorem release_unsafe :
    ¬ ∀ (n : Nat) (retval : Fin n → Int) (s : State n) (v : UInt32), n < 2 ^ 32 →
      Reached retval s → s.main = .returned v → Releasable s := by
  intro hall
  obtain ⟨s, hs, hp⟩ := Reach.exists_of_run (step fun _ : Fin 1 => 0) (· = init 1) rfl lateTask
    (fun s => decide (s.main = .returned 0 ∧ s.lock = some .parent ∧ s.tasks 0 = .lock))
    (by decide +kernel)
  have hs' : s.main = .returned 0 ∧ s.lock = some .parent ∧ s.tasks 0 = .lock := by simpa using hp
  have hrel := hall 1 _ s 0 (by decide) hs hs'.1
  exact nomatch hs'.2.1.symm.trans hrel.1

end

end Coroc.GroupJoin
