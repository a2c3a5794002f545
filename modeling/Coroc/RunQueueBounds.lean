import Coroc.RunQueue

/-!
# The bounds of the run queues (`src/vpu.c`)

The operations on the run queues check two bounds with assertions and rely on others: a ring
holds at most 512 coroutines, a thief copies at most 256, and the batch fetch, which holds
the lock of the global queue, never needs the overflow path of `__runqput`.

* `runq_bounds` is about every run in which no head is swapped after it has come round to the
  value that was loaded.
* `assert_fails` is a run in which it has: a thief loads the head and stops, the owner puts and
  gets until the 32-bit counter is back, and the swap of the thief moves the head past the tail.
-/

namespace Coroc.RunQueue

open Coroc.Transition Coroc.StealRing Coroc.ThreadPool

section
variable {κ : Type} {n P : Nat}

/-- Whom the overflow path is taken for. -/
def Pc.overflow : Pc κ n → Option (PutFor κ)
  | .slowLoad k .. | .slowCas k .. | .slowLock k _ | .slowAdd k _ | .slowUnlock k => some k
  | _ => none

/-- What `__runqgrab` has copied. -/
def Pc.copied : Pc κ n → List κ
  | .grabSlot _ _ _ _ _ temp | .grabCas _ _ _ _ _ temp => temp
  | _ => []

/-- **The bounds hold**, for any number of threads, in every run in which no head has come
    round between a load and a swap: no assertion fails, no ring holds more than 512, a thief
    copies at most 256, and only `vpu_ready` takes the overflow path. -/
theorem runq_bounds {xt : Fin n} {s : State κ n P}
    (h : Reach (poolStep (step xt)) (fun s l => NoWrap l.1 s.shared (s.locals l.1)) Init s) :
    (∀ v, (s.locals v).pc ≠ .aborted) ∧ (∀ i, (s.shared.rings i).len ≤ taskNum) ∧
      (∀ v, (s.locals v).pc.copied.length ≤ taskNum / 2) ∧
      ∀ v k, (s.locals v).pc.overflow = some k → k = .ready := by
  have hgood := (modular xt).invariant (fun _ _ hok => hok) (fun _ => good_init) h
  have hhalf : taskNum / 2 = 256 := rfl
  refine ⟨?_, fun i => (hgood.1 i).len_le, ?_, ?_⟩
  · intro v hab
    have hat := hgood.2 v
    simp only [At, hab] at hat
  · intro v
    have hat := hgood.2 v
    cases hpc : (s.locals v).pc
    case grabSlot failure victim head pos num temp =>
      simp only [At, hpc] at hat
      simp only [Pc.copied]
      omega
    case grabCas failure victim head pos num temp =>
      simp only [At, hpc] at hat
      simp only [Pc.copied]
      omega
    all_goals exact Nat.zero_le _
  · intro v k hk
    have hat := hgood.2 v
    cases hpc : (s.locals v).pc <;> rw [hpc] at hk <;> simp only [At, hpc] at hat
    case slowLoad => exact Option.some.inj hk ▸ hat.1
    case slowCas => exact Option.some.inj hk ▸ hat.1
    case slowLock => exact Option.some.inj hk ▸ hat
    case slowAdd => exact Option.some.inj hk ▸ hat.1
    case slowUnlock => exact Option.some.inj hk ▸ hat.1
    all_goals cases hk

end

/-- The second VPU has copied the coroutine it is going to steal. -/
theorem runq_bounds_grab : ∃ s : State Nat 2 1, (s.locals 1).pc.copied = [7] ∧
    (∀ v, (s.locals v).pc ≠ .aborted) ∧ ∀ i, (s.shared.rings i).len ≤ taskNum := by
  have hinit : Init emptyRings :=
    ⟨fun _ => ⟨rfl, rfl⟩, fun _ => ⟨rfl, rfl⟩, fun _ => rfl, rfl, rfl, rfl⟩
  obtain ⟨s, hs, hP⟩ := Reach.exists_of_runOk (poolStep (step 1))
    (fun s l => NoWrap l.1 s.shared (s.locals l.1)) Init hinit
    (.flatten [[(0, .put 0 7)], .replicate 4 (0, .go), [(0, .put 0 8)], .replicate 4 (0, .go),
      [(1, .elect 0)], .replicate 7 (1, .go)])
    (fun s => (s.locals 1).pc.copied == [7]) (by decide +kernel)
  obtain ⟨hasserts, hlen, -, -⟩ := runq_bounds hs
  exact ⟨s, beq_iff_eq.mp hP, hasserts, hlen⟩

/-! ### A head that comes round -/

/-- The thief of the second VPU is about to swap the head of the first one's ring, which is
    empty now and whose owner is idle. -/
structure Stopped (x : UInt32) (s : State Nat 2 1) : Prop where
  owner : (s.locals 0).pc = .idle
  thief : ∃ failure pos, (s.locals 1).pc = .grabCas failure 0 4294967295 pos 1 [7]
  head : (s.shared.rings (0, 0)).head = x
  tail : (s.shared.rings (0, 0)).tail = x
  settled : s.shared.called = s.shared.returned

section
variable {σ : Shared Nat 2 1} {f : Fin 2 → Local Nat 2 1} {seed : Nat} {pc : Pc Nat 2}

/-- A step of the owner; a put needs that everything was returned before. -/
theorem owner_step (c : Call Nat 1) (σ' : Shared Nat 2 1) (pc' : Pc Nat 2)
    (h : Reach (poolStep (step 1)) NotPutAgain Init ⟨σ, Function.update f 0 ⟨0, seed, pc⟩⟩)
    (hput : c = .go ∨ c = .get 0 ∨ σ.called = σ.returned)
    (hstep : step 1 0 σ ⟨0, seed, pc⟩ c = some (σ', ⟨0, seed, pc'⟩)) :
    Reach (poolStep (step 1)) NotPutAgain Init ⟨σ', Function.update f 0 ⟨0, seed, pc'⟩⟩ := by
  refine reach_alone c σ' _ h ?_ hstep
  rcases hput with rfl | rfl | hsettled
  · unfold NotPutAgain
    split <;> trivial
  · unfold NotPutAgain
    split <;> trivial
  · unfold NotPutAgain
    split
    · exact congrArg _ hsettled
    · exact congrArg _ hsettled
    · trivial

end

/-- The owner puts a coroutine and gets it back. -/
theorem stopped_next {x : UInt32} {s : State Nat 2 1}
    (h : Reach (poolStep (step 1)) NotPutAgain Init s) (hs : Stopped x s) :
    ∃ s', Reach (poolStep (step 1)) NotPutAgain Init s' ∧ Stopped (x + 1) s' := by
  obtain ⟨σ, f⟩ := s
  obtain ⟨howner, hthief, hhead, htail, hsettled⟩ := hs
  dsimp only at howner hthief hhead htail hsettled
  generalize hr : σ.rings (0, 0) = r at hhead htail
  obtain ⟨slots, head, tail, pos⟩ := r
  dsimp only at hhead htail
  subst hhead htail
  generalize hl : f 0 = l at howner
  obtain ⟨prio, seed, pc⟩ := l
  dsimp only at howner
  subst howner
  obtain rfl : prio = 0 := Subsingleton.elim _ _
  rw [← Function.update_eq_self 0 f, hl] at h
  -- `__runqput`
  let called : Shared Nat 2 1 := { σ with called := 7 ::ₘ σ.called }
  have h := owner_step (.put 0 7) called (.putHead .ready 7) h (.inr (.inr hsettled)) rfl
  have h := owner_step .go called (.putTail .ready 7 tail pos) h (.inl rfl) (by simp [step, called, hr, Local.goto])
  have h := owner_step .go called (.putSlot .ready 7 tail) h (.inl rfl) (by simp [step, called, hr, Local.goto])
  let stored : Shared Nat 2 1 := called.setRing (0, 0)
    ⟨Function.update slots (tail.toNat % taskNum) 7, tail, tail, pos⟩
  have h := owner_step .go stored (.putPublish .ready 7 tail) h (.inl rfl)
    (by simp [step, called, stored, hr, Local.goto, StealQueue.store])
  let published : Shared Nat 2 1 := (called.setRing (0, 0)
    ⟨Function.update slots (tail.toNat % taskNum) 7, tail, tail + 1, pos⟩).logPut 7
  have h := owner_step .go published .idle h (.inl rfl) (by
    simp [step, stored, published, Local.goto, StealQueue.publish, Shared.logPutFor,
      Shared.setRing, PutFor.onDone])
  -- `__runqget`
  have h := owner_step (.get 0) published (.getHead .sched) h (.inr (.inl rfl)) rfl
  have h := owner_step .go published (.getTail .sched tail pos) h (.inl rfl)
    (by simp [step, published, Shared.logPut, Local.goto, Shared.setRing])
  have h := owner_step .go published (.getSlot .sched tail pos) h (.inl rfl)
    (by simp [step, published, Shared.logPut, Local.goto, Shared.setRing])
  have h := owner_step .go published (.getCas .sched tail pos 7) h (.inl rfl)
    (by simp [step, published, Shared.logPut, Local.goto, Shared.setRing, StealQueue.slot])
  let returned : Shared Nat 2 1 :=
    { published.setRing (0, 0)
        ⟨Function.update slots (tail.toNat % taskNum) 7, tail + 1, tail + 1, pos + 1⟩ with
      returned := 7 ::ₘ σ.returned }
  have h := owner_step .go returned .idle h (.inl rfl)
    (by simp [step, published, returned, called, Shared.logPut, Local.goto, Shared.setRing, returnTask,
      StealQueue.advance])
  refine ⟨_, h, ?_, ?_, ?_, ?_, ?_⟩
  · simp
  · simpa using hthief
  · simp [returned]
  · simp [returned]
  · simp [returned, published, called, Shared.setRing, Shared.logPut, hsettled]

/-- The owner has put two coroutines, the thief has found them, and the owner gets them. -/
theorem stopped_first :
    ∃ s, Reach (poolStep (step 1)) NotPutAgain Init s ∧ Stopped 1 s := by
  have hinit : Init emptyRings :=
    ⟨fun _ => ⟨rfl, rfl⟩, fun _ => ⟨rfl, rfl⟩, fun _ => rfl, rfl, rfl, rfl⟩
  obtain ⟨s, hs, hP⟩ := Reach.exists_of_runOk (poolStep (step 1)) NotPutAgain Init hinit
    (.flatten [[(0, .put 0 7)], .replicate 4 (0, .go), [(0, .put 0 8)], .replicate 4 (0, .go),
      [(1, .elect 0)], .replicate 7 (1, .go), [(0, .get 0)], .replicate 4 (0, .go), [(0, .get 0)],
      .replicate 4 (0, .go)])
    (fun s => (s.locals 0).pc == .idle && (s.locals 1).pc == .grabCas 0 0 4294967295 4294967295 1 [7] &&
      (s.shared.rings (0, 0)).head == 1 && (s.shared.rings (0, 0)).tail == 1 &&
      s.shared.called == s.shared.returned)
    (by decide +kernel)
  simp only [Bool.and_eq_true, beq_iff_eq] at hP
  obtain ⟨⟨⟨⟨howner, hthief⟩, hhead⟩, htail⟩, hsettled⟩ := hP
  exact ⟨s, hs, howner, ⟨_, _, hthief⟩, hhead, htail, hsettled⟩

theorem stopped_all (k : Nat) :
    ∃ s, Reach (poolStep (step 1)) NotPutAgain Init s ∧ Stopped (1 + UInt32.ofNat k) s := by
  induction k with
  | zero => exact stopped_first
  | succ k ih =>
    obtain ⟨s, h, hs⟩ := ih
    have hround : (1 : UInt32) + UInt32.ofNat (k + 1) = 1 + UInt32.ofNat k + 1 :=
      (add_ofNat_ofNat 1 k 1).symm
    rw [hround]
    exact stopped_next h hs

/-- The owner calls `__runqput` while the thief swaps the head that has come round: the head
    is past the tail, and the assertion of `__runqputslow` fails. -/
theorem assert_fails : ∃ s : State Nat 2 1, Reach (poolStep (step 1)) NotPutAgain Init s ∧
    (s.locals 0).pc = .aborted ∧ taskNum < (s.shared.rings (0, 0)).len := by
  obtain ⟨⟨σ, f⟩, h, howner, ⟨failure, pos, hthief⟩, hhead, htail, hsettled⟩ := stopped_all 4294967294
  have hround : (1 : UInt32) + UInt32.ofNat 4294967294 = 4294967295 := by decide
  rw [hround] at hhead htail
  dsimp only at howner hthief hhead htail hsettled
  generalize hl : f 0 = l at howner
  obtain ⟨prio, seed, pc⟩ := l
  dsimp only at howner
  subst howner
  obtain rfl : prio = 0 := Subsingleton.elim _ _
  rw [← Function.update_eq_self 0 f, hl] at h
  let called : Shared Nat 2 1 := { σ with called := 9 ::ₘ σ.called }
  have h := owner_step (.put 0 9) called (.putHead .ready 9) h (.inr (.inr hsettled)) rfl
  -- the swap
  let stolen : Shared Nat 2 1 :=
    { called.setRing (0, 0) ((σ.rings (0, 0)).advance 1) with returned := 7 ::ₘ σ.returned }
  have hprio : (f 1).prio = 0 := Subsingleton.elim _ _
  rw [← Function.update_eq_self 1 (Function.update f 0 _)] at h
  have h := reach_alone .go stolen ((f 1).goto .idle) h (by simp [NotPutAgain, hthief])
    (by simp [step, called, stolen, hthief, hhead, hprio, afterGrab, returnTask,
      Shared.setRing])
  rw [Function.update_comm (by decide : (0 : Fin 2) ≠ 1)] at h
  -- the next put
  have h := owner_step .go stolen (.putTail .ready 9 0 ((σ.rings (0, 0)).pos + 1)) h (.inl rfl)
    (by simp [step, called, stolen, Local.goto, StealQueue.advance, hhead])
  have h := owner_step .go stolen .aborted h (.inl rfl)
    (by simp [step, called, stolen, Local.goto, StealQueue.advance, htail, taskNum])
  refine ⟨_, h, by simp, ?_⟩
  simp [stolen, StealQueue.len, StealQueue.advance, hhead, htail, taskNum]

end Coroc.RunQueue
