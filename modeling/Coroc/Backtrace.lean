import Coroc.RunQueue

/-!
# The report of a deadlock (`src/vpu.c`: `vpu_backtrace`)

When the last VPU finds nothing to run and nothing to wait for, it puts all live coroutines
into its run queues, the main coroutine last, for each of them to print its stack.  The other
VPUs sleep, so what it does is one function of the state.

The queues are filled, but `ready[p]`, by which `core_sched` skips a priority, is left as it
is.  `report_iff`: the report is scheduled just if these counters were not zero before, which
they are when nothing is ready.
-/

namespace Coroc.Backtrace

open Coroc.RunQueue Coroc.ThreadPool

/-! ### The state of the scheduler -/

/-- The queues and counters that the report reads and writes.  A ring is the list of what it
    holds, the head first. -/
structure State (κ : Type) (n P : Nat) where
  rings : Fin n × Fin P → List κ
  xt : Fin P → List κ
  ready : Fin P → UInt32
  totalReady : UInt32
  coroutineList : List κ
  main : κ
  priority : κ → Fin P
  backtrace : κ → Bool

section
variable {κ : Type} [DecidableEq κ] {n P : Nat}

/-- `__runqput`, with nobody else at the queue; a full ring gives half of its coroutines and
    the new one to the global queue. -/
def runqput (v : Fin n) (task : κ) (s : State κ n P) : State κ n P :=
  let p := s.priority task
  let ring := s.rings (v, p)
  if ring.length < taskNum then
    { s with rings := Function.update s.rings (v, p) (ring ++ [task]) }
  else
    let num := ring.length / 2
    { s with
      rings := Function.update s.rings (v, p) (ring.drop num)
      xt := Function.update s.xt p (s.xt p ++ (ring.take num ++ [task])) }

/-- `backtrace` is set and the coroutine put. -/
def queueOne (v : Fin n) (task : κ) (s : State κ n P) : State κ n P :=
  runqput v task { s with backtrace := Function.update s.backtrace task true }

/-- The loop over `coroutine_list`. -/
def drain (v : Fin n) : List κ → State κ n P → State κ n P
  | [], s => s
  | wait :: list, s => drain v list (if wait ≠ s.main then queueOne v wait s else s)

/-- `vpu_backtrace`. -/
def vpuBacktrace (v : Fin n) (s : State κ n P) : State κ n P :=
  let s := drain v s.coroutineList { s with coroutineList := [] }
  queueOne v s.main s

/-- The run-queue slots that hold a coroutine. -/
def State.slots (s : State κ n P) (c : κ) : Nat :=
  ∑ i, (s.rings i).count c + ∑ p, (s.xt p).count c

/-! ### Rounds of `core_sched` -/

/-- The scheduler looks at the queues of a priority. -/
def State.tested (s : State κ n P) (p : Fin P) : Prop := s.ready p ≠ 0

/-- A pass over the priorities that finds nobody: each one is skipped, or its queues are empty. -/
def State.Passed (s : State κ n P) : Prop :=
  ∀ p, s.tested p → s.xt p = [] ∧ ∀ v, s.rings (v, p) = []

/-- The states after the report, and after further ones when the idle section comes to it
    again because no pass has found anybody. -/
inductive Reported (v : Fin n) (s : State κ n P) : State κ n P → Prop
  | first : Reported v s (vpuBacktrace v s)
  | again {s' : State κ n P} : Reported v s s' → s'.Passed → Reported v s (vpuBacktrace v s')

/-- No coroutine is queued, and each live one is listed once. -/
structure Idle (s : State κ n P) : Prop where
  rings : ∀ i, s.rings i = []
  xt : ∀ p, s.xt p = []
  listed : s.coroutineList.Nodup
  total : s.totalReady = 0

/-- A coroutine that the report is to show. -/
def Shown (s : State κ n P) (c : κ) : Prop := c ∈ s.coroutineList ∨ c = s.main

/-- All of them have one slot, and the scheduler looks there. -/
def Scheduled (v : Fin n) (s : State κ n P) : Prop :=
  ∀ s', Reported v s s' → ∀ c, Shown s c → s'.slots c = 1 ∧ s'.tested (s'.priority c)

/-! ### What is queued -/

/-- A put takes one slot, on the overflow path too. -/
theorem runqput_slots (v : Fin n) (task c : κ) (s : State κ n P) :
    (runqput v task s).slots c = s.slots c + [task].count c := by
  have hring := fun ring => sum_update (fun l : List κ => l.count c) s.rings (v, s.priority task) ring
  have hglobal := fun queue => sum_update (fun l : List κ => l.count c) s.xt (s.priority task) queue
  simp only [runqput]
  split
  · have hput := hring (s.rings (v, s.priority task) ++ [task])
    simp only [State.slots]
    rw [List.count_append] at hput
    omega
  · generalize hnum : (s.rings (v, s.priority task)).length / 2 = num
    have hput := hring ((s.rings (v, s.priority task)).drop num)
    have hadd := hglobal (s.xt (s.priority task) ++
      ((s.rings (v, s.priority task)).take num ++ [task]))
    have hsplit : (s.rings (v, s.priority task)).count c =
        ((s.rings (v, s.priority task)).take num).count c +
          ((s.rings (v, s.priority task)).drop num).count c := by
      rw [← List.count_append, List.take_append_drop]
    simp only [State.slots]
    rw [List.count_append, List.count_append] at hadd
    omega

/-- The queues of the coroutine's priority are then not empty. -/
theorem queueOne_queued (v : Fin n) (task : κ) (s : State κ n P) :
    (queueOne v task s).xt (s.priority task) ≠ [] ∨
      (queueOne v task s).rings (v, s.priority task) ≠ [] := by
  simp only [queueOne, runqput]
  split
  · right
    simp
  · left
    simp

/-- What the report does not change. -/
structure Kept (s s' : State κ n P) : Prop where
  ready : s'.ready = s.ready
  main : s'.main = s.main
  priority : s'.priority = s.priority

omit [DecidableEq κ] in
theorem Kept.trans {s s' s'' : State κ n P} (h : Kept s s') (h' : Kept s' s'') : Kept s s'' :=
  ⟨h'.ready.trans h.ready, h'.main.trans h.main, h'.priority.trans h.priority⟩

theorem queueOne_kept (v : Fin n) (task : κ) (s : State κ n P) : Kept s (queueOne v task s) := by
  simp only [queueOne, runqput]
  split
  · exact ⟨rfl, rfl, rfl⟩
  · exact ⟨rfl, rfl, rfl⟩

theorem queueOne_slots (v : Fin n) (task c : κ) (s : State κ n P) :
    (queueOne v task s).slots c = s.slots c + [task].count c :=
  runqput_slots v task c _

theorem drain_kept (v : Fin n) (list : List κ) (s : State κ n P) : Kept s (drain v list s) := by
  induction list generalizing s with
  | nil => exact ⟨rfl, rfl, rfl⟩
  | cons wait list ih =>
    rw [drain]
    split
    · exact (queueOne_kept v wait s).trans (ih _)
    · exact ih s

/-- The loop queues each coroutine of the list, but for the main one. -/
theorem drain_slots (v : Fin n) (list : List κ) (c : κ) (s : State κ n P) :
    (drain v list s).slots c = s.slots c + (list.filter (· ≠ s.main)).count c := by
  induction list generalizing s with
  | nil => rfl
  | cons wait list ih =>
    rw [drain]
    split
    · next hwait =>
      have hhead : (wait :: list.filter (· ≠ s.main)).count c =
          [wait].count c + (list.filter (· ≠ s.main)).count c := by
        rw [← List.count_append]
        rfl
      rw [ih, queueOne_slots, (queueOne_kept v wait s).main, List.filter_cons_of_pos (by simpa using hwait),
        hhead, Nat.add_assoc]
    · next hwait => rw [ih, List.filter_cons_of_neg (by simpa using hwait)]

theorem vpuBacktrace_kept (v : Fin n) (s : State κ n P) : Kept s (vpuBacktrace v s) := by
  have hdrain := drain_kept v s.coroutineList { s with coroutineList := [] }
  have hmain := queueOne_kept v s.main (drain v s.coroutineList { s with coroutineList := [] })
  simp only [vpuBacktrace, hdrain.main]
  exact ⟨hmain.ready.trans hdrain.ready, hmain.main.trans hdrain.main,
    hmain.priority.trans hdrain.priority⟩

theorem vpuBacktrace_slots (v : Fin n) (c : κ) (s : State κ n P) : (vpuBacktrace v s).slots c =
    s.slots c + (s.coroutineList.filter (· ≠ s.main) ++ [s.main]).count c := by
  have hdrain := drain_slots v s.coroutineList c { s with coroutineList := [] }
  have hmain := (drain_kept v s.coroutineList { s with coroutineList := [] }).main
  simp only [vpuBacktrace]
  rw [queueOne_slots, hdrain, hmain, List.count_append, Nat.add_assoc]
  rfl

/-! ### What is scheduled -/

/-- The report queues every live coroutine once, however many there are. -/
theorem vpuBacktrace_once {s : State κ n P} (h : Idle s) (v : Fin n) {c : κ} (hc : Shown s c) :
    (vpuBacktrace v s).slots c = 1 := by
  have hempty : s.slots c = 0 := by
    simp [State.slots, h.rings, h.xt]
  have hnodup : (s.coroutineList.filter (· ≠ s.main) ++ [s.main]).Nodup := by
    rw [List.nodup_append]
    refine ⟨h.listed.filter _, List.nodup_singleton _, ?_⟩
    intro a ha b hb
    rw [List.mem_singleton] at hb
    have hne := (List.mem_filter.mp ha).2
    rw [hb]
    simpa using hne
  have hmem : c ∈ s.coroutineList.filter (· ≠ s.main) ++ [s.main] := by
    rw [List.mem_append, List.mem_filter, List.mem_singleton]
    by_cases hmain : c = s.main
    · exact .inr hmain
    · exact .inl ⟨hc.resolve_right hmain, by simpa using hmain⟩
  rw [vpuBacktrace_slots, hempty, List.count_eq_one_of_mem hnodup hmem]

/-- The next one queues the main coroutine again. -/
theorem vpuBacktrace_again (v : Fin n) (s : State κ n P) :
    (vpuBacktrace v s).slots s.main = s.slots s.main + 1 := by
  rw [vpuBacktrace_slots, List.count_append, List.count_singleton_self,
    List.count_eq_zero_of_not_mem]
  simp

/-- A pass that looks at the priority of the main coroutine finds somebody. -/
theorem not_passed (v : Fin n) (s : State κ n P) (h : s.tested (s.priority s.main)) :
    ¬ (vpuBacktrace v s).Passed := by
  intro hpass
  have hkept := vpuBacktrace_kept v s
  have hdrain := drain_kept v s.coroutineList { s with coroutineList := [] }
  have htested : (vpuBacktrace v s).tested (s.priority s.main) := by
    unfold State.tested
    rw [hkept.ready]
    exact h
  obtain ⟨hxt, hrings⟩ := hpass _ htested
  have hqueued := queueOne_queued v s.main (drain v s.coroutineList { s with coroutineList := [] })
  rw [hdrain.priority] at hqueued
  simp only [vpuBacktrace, hdrain.main] at hxt hrings
  rcases hqueued with hqueued | hqueued
  · exact hqueued hxt
  · exact hqueued (hrings v)

/-- **The report is scheduled** if and only if the scheduler was looking at the priorities of
    all live coroutines before.  It was not when nothing is ready, and then the next report
    gives the main coroutine a second slot. -/
theorem report_iff {s : State κ n P} (h : Idle s) (v : Fin n) :
    (Scheduled v s ↔ ∀ c, Shown s c → s.ready (s.priority c) ≠ 0) ∧
      ((∀ p, s.ready p ≤ s.totalReady) →
        ¬ Scheduled v s ∧ ∃ s', Reported v s s' ∧ s'.slots s.main = 2) := by
  have hiff : Scheduled v s ↔ ∀ c, Shown s c → s.ready (s.priority c) ≠ 0 := by
    have hkept := vpuBacktrace_kept v s
    constructor
    · intro hsched c hc
      have htested := (hsched _ .first c hc).2
      unfold State.tested at htested
      rw [hkept.ready, hkept.priority] at htested
      exact htested
    · intro hready s' hs'
      have hfirst : s' = vpuBacktrace v s := by
        induction hs' with
        | first => rfl
        | again _ hpass ih =>
          rw [ih] at hpass
          exact absurd hpass (not_passed v s (hready s.main (.inr rfl)))
      intro c hc
      rw [hfirst]
      refine ⟨vpuBacktrace_once h v hc, ?_⟩
      unfold State.tested
      rw [hkept.ready, hkept.priority]
      exact hready c hc
  refine ⟨hiff, fun hcount => ?_⟩
  have hzero : ∀ p, s.ready p = 0 := by
    intro p
    have hle := hcount p
    rw [h.total] at hle
    exact UInt32.le_antisymm hle UInt32.zero_le
  refine ⟨fun hsched => hiff.mp hsched s.main (.inr rfl) (hzero _),
    vpuBacktrace v (vpuBacktrace v s), .again .first ?_, ?_⟩
  · intro p htested
    unfold State.tested at htested
    rw [(vpuBacktrace_kept v s).ready] at htested
    exact absurd (hzero p) htested
  · have hagain := vpuBacktrace_again v (vpuBacktrace v s)
    rw [(vpuBacktrace_kept v s).main, vpuBacktrace_once h v (.inr rfl)] at hagain
    exact hagain

end

/-- One VPU and one priority: the main coroutine waits for another one. -/
def deadlock (ready : UInt32) : State Nat 1 1 where
  rings := fun _ => []
  xt := fun _ => []
  ready := fun _ => ready
  totalReady := 0
  coroutineList := [0, 1]
  main := 0
  priority := fun _ => 0
  backtrace := fun _ => false

theorem deadlock_idle (ready : UInt32) : Idle (deadlock ready) :=
  ⟨fun _ => rfl, fun _ => rfl, by simp [deadlock], rfl⟩

/-- Were the counter not zero, both would be dispatched. -/
theorem report_oneReady : Idle (deadlock 1) ∧ Scheduled 0 (deadlock 1) ∧ ¬ Scheduled 0 (deadlock 0) := by
  have hone : (1 : UInt32) ≠ 0 := by decide
  exact ⟨deadlock_idle 1, (report_iff (deadlock_idle 1) 0).1.mpr fun _ _ => hone,
    ((report_iff (deadlock_idle 0) 0).2 fun _ => UInt32.le_refl 0).1⟩

/-- The counter is zero: the pass skips the priority, and the next report queues the main
    coroutine a second time. -/
theorem report_skipped : Idle (deadlock 0) ∧
    ¬ (vpuBacktrace 0 (deadlock 0)).tested 0 ∧ (vpuBacktrace 0 (deadlock 0)).Passed ∧
    (vpuBacktrace 0 (vpuBacktrace 0 (deadlock 0))).slots 0 = 2 ∧ ¬ Scheduled 0 (deadlock 0) := by
  have hskip : ∀ p, ¬ (vpuBacktrace 0 (deadlock 0)).tested p := by
    intro p htested
    exact htested rfl
  refine ⟨deadlock_idle 0, hskip 0, fun p htested => absurd htested (hskip p), by decide, ?_⟩
  intro hsched
  exact hskip _ (hsched _ .first 0 (.inr rfl)).2

end Coroc.Backtrace
