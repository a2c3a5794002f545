import Mathlib.Data.Finset.Basic
import Coroc.ThreadPool

/-!
# The futex lock (`src/futex_lock.c`, `src/futex_impl.c`)

A lock word with three values, and a futex on which threads sleep.  A newcomer writes
`LOCKED` whatever was there, so the word does not always say that somebody sleeps; it
is then the newcomer that remembers it, in its local variable `wait`, and writes it back
when it gets the lock.

The invariant says who remembers (`Pc.carries`): while a thread sleeps, the word is
`SLEEPING`, or a thread that is not asleep has `wait = SLEEPING`, or a wake-up is under
way.  It holds for any number of threads, since each step hands the obligation on.

Every access to the word is a step.  `FUTEX_WAIT` blocks if and only if the word still has
the given value, in one step, and may return at any time; `FUTEX_WAKE` wakes a sleeper, if
there is one.
-/

namespace Coroc.FutexLock

open Coroc.Transition Coroc.ThreadPool

/-- The values of `key`. -/
inductive Key where
  | unlocked
  | locked
  | sleeping
deriving DecidableEq, Repr

def activeSpin : Nat := 4
def passiveSpin : Nat := 1

structure Shared (ι : Type) where
  key : Key
  asleep : Finset ι          -- blocked in the futex

inductive Pc where
  | outside
  -- `_coroc_futex_lock`
  | xchg
  | spin (passive : Bool) (i : Nat) (wait : Key)     -- reads `lock->key`
  | cas (passive : Bool) (i : Nat) (wait : Key)
  | sleepXchg (wait : Key)
  | futexWait
  | sleeping
  -- between the lock and the unlock
  | holds
  -- `_coroc_futex_unlock`: `_coroc_futex_wakeup` is next
  | wakeup
deriving DecidableEq, Repr

inductive Choice (ι : Type) where
  | go
  | lock
  | trylock
  | unlock
  | wake (w : ι)
  | spurious

section
variable {ι : Type} [DecidableEq ι]

def Shared.setKey (s : Shared ι) (k : Key) : Shared ι := { s with key := k }

def Shared.sleep (s : Shared ι) (t : ι) : Shared ι := { s with asleep := insert t s.asleep }

def Shared.wake (s : Shared ι) (t : ι) : Shared ι := { s with asleep := s.asleep.erase t }

/-- The word was found taken: the next round of the two `for` loops. -/
def nextSpin (passive : Bool) (i : Nat) (wait : Key) : Pc :=
  if passive then
    if i + 1 < passiveSpin then .spin true (i + 1) wait else .sleepXchg wait
  else if i + 1 < activeSpin then .spin false (i + 1) wait else .spin true 0 wait

/-- The body of `while (1)`, from its start. -/
def loopStart (wait : Key) : Pc := .spin false 0 wait

def step (t : ι) (s : Shared ι) (pc : Pc) (ch : Choice ι) : Option (Shared ι × Pc) :=
  match pc, ch with
  | .outside, .lock => some (s, .xchg)
  | .outside, .trylock =>
    if s.key = .unlocked then some (s.setKey .locked, .holds) else some (s, .outside)
  | .xchg, .go =>
    some (s.setKey .locked, if s.key = .unlocked then .holds else loopStart s.key)
  | .spin passive i wait, .go =>
    some (s, if s.key = .unlocked then .cas passive i wait else nextSpin passive i wait)
  | .cas passive i wait, .go =>
    if s.key = .unlocked then some (s.setKey wait, .holds) else some (s, .spin passive i wait)
  | .sleepXchg _, .go =>
    some (s.setKey .sleeping, if s.key = .unlocked then .holds else .futexWait)
  | .futexWait, .go =>
    if s.key = .sleeping then some (s.sleep t, .sleeping) else some (s, loopStart .sleeping)
  | .sleeping, .go => if t ∈ s.asleep then none else some (s, loopStart .sleeping)
  | .sleeping, .spurious => some (s.wake t, .sleeping)
  -- the assertion aborts the program when it fails
  | .holds, .unlock =>
    if s.key = .unlocked then none
    else some (s.setKey .unlocked, if s.key = .sleeping then .wakeup else .outside)
  | .wakeup, .wake w => if w ∈ s.asleep then some (s.wake w, .outside) else none
  | .wakeup, .go => if s.asleep = ∅ then some (s, .outside) else none
  | _, _ => none

abbrev State (ι : Type) := Pool ι (Shared ι) Pc

def Init (s : State ι) : Prop :=
  s.shared.key = .unlocked ∧ s.shared.asleep = ∅ ∧ ∀ t, s.locals t = .outside

/-! ### What a thread remembers -/

/-- The local variable `wait`. -/
def Pc.waitVar : Pc → Option Key
  | .spin _ _ wait | .cas _ _ wait | .sleepXchg wait => some wait
  | _ => none

/-- A thread that, when it is not asleep, sees to it that sleepers are woken. -/
def Pc.carries (pc : Pc) : Bool :=
  match pc with
  | .futexWait | .sleeping | .wakeup => true
  | _ => pc.waitVar == some .sleeping

/-- Places inside `_coroc_futex_lock`. -/
def Pc.locking : Pc → Bool
  | .outside | .holds | .wakeup => false
  | _ => true

theorem waitVar_nextSpin (passive : Bool) (i : Nat) (wait : Key) :
    (nextSpin passive i wait).waitVar = some wait := by
  unfold nextSpin
  split
  · split <;> rfl
  · split <;> rfl

theorem carries_of_waitVar {pc : Pc} (h : pc.waitVar = some .sleeping) : pc.carries = true := by
  unfold Pc.carries
  split
  · rfl
  · rfl
  · rfl
  · simp [h]

theorem carries_nextSpin (passive : Bool) (i : Nat) (wait : Key) :
    (nextSpin passive i wait).carries = (Pc.spin passive i wait).carries := by
  cases wait with
  | sleeping =>
    rw [carries_of_waitVar (waitVar_nextSpin passive i .sleeping)]
    rfl
  | unlocked =>
    unfold nextSpin
    split <;> split <;> rfl
  | locked =>
    unfold nextSpin
    split <;> split <;> rfl

/-! ### One step -/

/-- What a step of thread `t` does to the word, the sleepers and the obligation. -/
structure StepOk (t : ι) (s : Shared ι) (pc : Pc) (s' : Shared ι) (pc' : Pc) : Prop where
  acquire : pc' = .holds → s.key = .unlocked ∧ s'.key ≠ .unlocked
  free : s'.key = .unlocked → s.key = .unlocked ∨ pc = .holds
  others : ∀ u, u ≠ t → u ∈ s'.asleep → u ∈ s.asleep
  own : t ∈ s'.asleep → pc' = .sleeping
  wait : ∀ w, pc'.waitVar = some w → w ≠ .unlocked
  -- the sleepers are seen to by the word, by `t`, by one that `t` has woken, there are
  -- none, or they were not seen to by the word or by `t` before either
  carry : s'.key = .sleeping ∨ (pc'.carries = true ∧ t ∉ s'.asleep) ∨
    (∃ w, w ≠ t ∧ w ∈ s.asleep ∧ w ∉ s'.asleep) ∨ s'.asleep = ∅ ∨
    (s.key ≠ .sleeping ∧ pc.carries = false ∧ s'.asleep = s.asleep)

omit [DecidableEq ι] in
/-- A step that leaves the word alone and keeps the place out of `holds`. -/
theorem StepOk.of_same {t : ι} {s : Shared ι} {pc pc' : Pc} (hown : t ∈ s.asleep → pc = .sleeping)
    (hpc : pc ≠ .sleeping) (hholds : pc' ≠ .holds) (hwait : ∀ w, pc'.waitVar = some w → w ≠ .unlocked)
    (hcarry : pc.carries = true → pc'.carries = true) : StepOk t s pc s pc' where
  acquire := fun h => absurd h hholds
  free := .inl
  others := fun _ _ h => h
  own := fun h => absurd (hown h) hpc
  wait := hwait
  carry := by
    have ht : t ∉ s.asleep := fun h => hpc (hown h)
    by_cases hkey : s.key = .sleeping
    · exact .inl hkey
    · cases hc : pc.carries with
      | true => exact .inr (.inl ⟨hcarry hc, ht⟩)
      | false => exact .inr (.inr (.inr (.inr ⟨hkey, rfl, rfl⟩)))

theorem step_ok {t : ι} {s s' : Shared ι} {pc pc' : Pc} {ch : Choice ι}
    (hown : t ∈ s.asleep → pc = .sleeping) (hwait : ∀ w, pc.waitVar = some w → w ≠ .unlocked)
    (h : step t s pc ch = some (s', pc')) : StepOk t s pc s' pc' := by
  unfold step at h
  split at h
  · -- `outside`, lock
    cases h
    exact .of_same hown nofun nofun nofun nofun
  · -- `outside`, trylock
    split at h
    · rename_i hkey
      cases h
      refine ⟨fun _ => ⟨hkey, nofun⟩, nofun, fun _ _ h => h, fun h => (nomatch hown h), nofun, ?_⟩
      exact .inr (.inr (.inr (.inr ⟨by rw [hkey]; nofun, rfl, rfl⟩)))
    · cases h
      exact .of_same hown nofun nofun nofun nofun
  · -- `xchg`: the mark `SLEEPING` it overwrites goes to `wait`
    cases h
    refine ⟨fun hp => ?_, nofun, fun _ _ h => h, fun h => (nomatch hown h), fun w hw => ?_, ?_⟩
    · split at hp
      · rename_i hkey
        exact ⟨hkey, nofun⟩
      · cases hp
    · split at hw
      · cases hw
      · rename_i hkey
        cases hw
        exact hkey
    · by_cases hkey : s.key = .sleeping
      · refine .inr (.inl ⟨?_, fun h => (nomatch hown h)⟩)
        rw [hkey]
        rfl
      · exact .inr (.inr (.inr (.inr ⟨hkey, rfl, rfl⟩)))
  · -- `spin`
    rename_i passive i wait
    cases h
    refine .of_same hown nofun ?_ ?_ ?_
    · split
      · nofun
      · unfold nextSpin
        split <;> split <;> nofun
    · intro w hw
      refine hwait w ?_
      rw [← hw]
      split
      · rfl
      · exact (waitVar_nextSpin passive i wait).symm
    · intro hc
      split
      · exact hc
      · rw [carries_nextSpin]
        exact hc
  · -- `cas`
    rename_i passive i wait
    have hne := hwait wait rfl
    split at h
    · rename_i hkey
      cases h
      refine ⟨fun _ => ⟨hkey, hne⟩, fun hu => absurd hu hne, fun _ _ h => h,
        fun h => (nomatch hown h), nofun, ?_⟩
      cases wait with
      | unlocked => exact absurd rfl hne
      | sleeping => exact .inl rfl
      | locked => exact .inr (.inr (.inr (.inr ⟨by rw [hkey]; nofun, rfl, rfl⟩)))
    · cases h
      exact .of_same hown nofun nofun hwait fun h => h
  · -- `sleepXchg`
    cases h
    refine ⟨fun hp => ?_, nofun, fun _ _ h => h, fun h => (nomatch hown h), ?_, .inl rfl⟩
    · split at hp
      · rename_i hkey
        exact ⟨hkey, nofun⟩
      · cases hp
    · split <;> nofun
  · -- `futexWait`
    split at h
    · rename_i hkey
      cases h
      refine ⟨nofun, .inl, fun u hu hm => ?_, fun _ => rfl, nofun, .inl hkey⟩
      exact (Finset.mem_insert.mp hm).resolve_left hu
    · cases h
      exact .of_same hown nofun nofun (fun w hw => by cases hw; nofun) fun _ => rfl
  · -- `sleeping`, woken
    split at h
    · cases h
    · rename_i hawake
      cases h
      refine ⟨nofun, .inl, fun _ _ h => h, fun h => absurd h hawake,
        (fun w hw => by cases hw; nofun), .inr (.inl ⟨rfl, hawake⟩)⟩
  · -- `sleeping`, a spurious return
    cases h
    exact ⟨nofun, .inl, fun _ _ h => Finset.mem_of_mem_erase h, fun _ => rfl, nofun,
      .inr (.inl ⟨rfl, Finset.notMem_erase t _⟩)⟩
  · -- `holds`, unlock
    split at h
    · cases h
    · rename_i hkey
      cases h
      refine ⟨fun hp => ?_, fun _ => .inr rfl, fun _ _ h => h, fun h => (nomatch hown h), ?_, ?_⟩
      · split at hp <;> cases hp
      · split <;> nofun
      · by_cases hsleep : s.key = .sleeping
        · rw [if_pos hsleep]
          exact .inr (.inl ⟨rfl, fun h => (nomatch hown h)⟩)
        · exact .inr (.inr (.inr (.inr ⟨hsleep, rfl, rfl⟩)))
  · -- `wakeup`, somebody
    rename_i w
    split at h
    · rename_i hw
      cases h
      refine ⟨nofun, .inl, fun _ _ h => Finset.mem_of_mem_erase h,
        fun h => (nomatch hown (Finset.mem_of_mem_erase h)), nofun,
        .inr (.inr (.inl ⟨w, ?_, hw, Finset.notMem_erase w _⟩))⟩
      rintro rfl
      exact nomatch hown hw
    · cases h
  · -- `wakeup`, nobody
    split at h
    · rename_i hnone
      cases h
      exact ⟨nofun, .inl, fun _ _ h => h, fun h => (nomatch hown h), nofun,
        .inr (.inr (.inr (.inl hnone)))⟩
    · cases h
  · cases h

/-! ### Every run -/

structure Inv (s : State ι) : Prop where
  one : ∀ t u, s.locals t = .holds → s.locals u = .holds → t = u
  held : ∀ t, s.locals t = .holds → s.shared.key ≠ .unlocked
  asleep : ∀ t ∈ s.shared.asleep, s.locals t = .sleeping
  wait : ∀ t w, (s.locals t).waitVar = some w → w ≠ .unlocked
  carried : s.shared.asleep ≠ ∅ → s.shared.key = .sleeping ∨
    ∃ u, u ∉ s.shared.asleep ∧ (s.locals u).carries = true

omit [DecidableEq ι] in
theorem inv_init {s : State ι} (h : Init s) : Inv s := by
  obtain ⟨-, hasleep, hpc⟩ := h
  refine ⟨fun t _ ht => ?_, fun t ht => ?_, fun t ht => ?_, fun t w hw => ?_, fun hne => ?_⟩
  · exact nomatch (hpc t).symm.trans ht
  · exact nomatch (hpc t).symm.trans ht
  · rw [hasleep] at ht
    exact absurd ht (Finset.notMem_empty t)
  · rw [hpc t] at hw
    cases hw
  · exact absurd hasleep hne

theorem inv_step {s s' : State ι} {l : ι × Choice ι} (hi : Inv s)
    (h : poolStep step s l = some s') : Inv s' := by
  obtain ⟨t, ch⟩ := l
  obtain ⟨⟨sh, pc⟩, hstep, hsh, hloc⟩ := poolStep_eq_some h
  dsimp only at hstep hsh hloc
  have hok := step_ok (hi.asleep t) (hi.wait t) hstep
  rw [← hsh] at hok
  have ht : s'.locals t = pc := by rw [hloc, Function.update_self]
  have hne : ∀ u, u ≠ t → s'.locals u = s.locals u := fun u hu => by
    rw [hloc, Function.update_of_ne hu]
  -- nobody holds the lock when the word says so
  have hfree : s.shared.key = .unlocked → ∀ u, s.locals u ≠ .holds := fun hk u hu =>
    hi.held u hu hk
  refine ⟨fun u v hu hv => ?_, fun u hu => ?_, fun u hu => ?_, fun u w hw => ?_, fun hsome => ?_⟩
  · by_cases hut : u = t <;> by_cases hvt : v = t
    · rw [hut, hvt]
    · rw [hut, ht] at hu
      rw [hne v hvt] at hv
      exact absurd hv (hfree (hok.acquire hu).1 v)
    · rw [hvt, ht] at hv
      rw [hne u hut] at hu
      exact absurd hu (hfree (hok.acquire hv).1 u)
    · rw [hne u hut] at hu
      rw [hne v hvt] at hv
      exact hi.one u v hu hv
  · by_cases hut : u = t
    · rw [hut, ht] at hu
      exact (hok.acquire hu).2
    · rw [hne u hut] at hu
      intro hk
      rcases hok.free hk with hk | hholds
      · exact hi.held u hu hk
      · exact hut (hi.one u t hu hholds)
  · by_cases hut : u = t
    · subst hut
      rw [ht]
      exact hok.own hu
    · rw [hne u hut]
      exact hi.asleep u (hok.others u hut hu)
  · by_cases hut : u = t
    · rw [hut, ht] at hw
      exact hok.wait w hw
    · rw [hne u hut] at hw
      exact hi.wait u w hw
  · rcases hok.carry with hk | ⟨hc, hmem⟩ | ⟨w, hwt, hw, hw'⟩ | hnone | ⟨hk, hc, hsame⟩
    · exact .inl hk
    · exact .inr ⟨t, hmem, by rw [ht]; exact hc⟩
    · refine .inr ⟨w, hw', ?_⟩
      rw [hne w hwt, hi.asleep w hw]
      rfl
    · exact absurd hnone hsome
    · rw [hsame] at hsome ⊢
      rcases hi.carried hsome with hk' | ⟨u, hu, hcu⟩
      · exact absurd hk' hk
      · refine .inr ⟨u, hu, ?_⟩
        rw [hne u]
        · exact hcu
        · rintro rfl
          rw [hc] at hcu
          cases hcu

theorem inv_reach {s : State ι} (h : Reach (poolStep step) (fun _ _ => True) Init s) : Inv s :=
  h.invariant (fun _ => inv_init) fun _ _ _ hi _ hs => inv_step hi hs

/-- The word is free, somebody sleeps, and nobody is left to do anything about it. -/
def Lost (s : State ι) : Prop :=
  s.shared.key = .unlocked ∧ (∃ t, t ∈ s.shared.asleep) ∧ (∀ t, s.locals t ≠ .wakeup) ∧
  (∀ t, s.locals t ≠ .holds) ∧ ∀ t, (s.locals t).locking = true → t ∈ s.shared.asleep

theorem Pc.carries_cases {pc : Pc} (h : pc.carries = true) : pc = .wakeup ∨ pc.locking = true := by
  cases pc with
  | wakeup => exact .inl rfl
  | outside => cases h
  | holds => cases h
  | xchg => cases h
  | spin passive i wait => exact .inr rfl
  | cas passive i wait => exact .inr rfl
  | sleepXchg wait => exact .inr rfl
  | futexWait => exact .inr rfl
  | sleeping => exact .inr rfl

/-- **The futex lock is a lock and loses no wake-up**: at most one thread holds it, the
    word is not `UNLOCKED` meanwhile, and no sleeper is forgotten. -/
theorem futex_lock_safe {s : State ι} (h : Reach (poolStep step) (fun _ _ => True) Init s) :
    (∀ t u, s.locals t = .holds → s.locals u = .holds → t = u) ∧
    (∀ t, s.locals t = .holds → s.shared.key ≠ .unlocked) ∧ ¬ Lost s := by
  have hi := inv_reach h
  refine ⟨hi.one, hi.held, ?_⟩
  rintro ⟨hkey, ⟨t, ht⟩, hwake, -, hall⟩
  rcases hi.carried (Finset.ne_empty_of_mem ht) with hk | ⟨u, hu, hc⟩
  · exact nomatch hkey.symm.trans hk
  · rcases Pc.carries_cases hc with hp | hp
    · exact hwake u hp
    · exact hu (hall u hp)

/-- Two threads, free lock. -/
def twoThreads : State (Fin 2) := ⟨⟨.unlocked, ∅⟩, fun _ => .outside⟩

/-- Thread 0 takes the lock, thread 1 spins, marks the word and goes to sleep. -/
def sleepRun : List (Fin 2 × Choice (Fin 2)) :=
  [(0, .lock), (0, .go), (1, .lock), (1, .go), (1, .go), (1, .go), (1, .go), (1, .go), (1, .go),
    (1, .go), (1, .go)]

theorem twoThreads_sleeper_safe :
    ∃ s : State (Fin 2), (s.locals 0 = .holds ∧ 1 ∈ s.shared.asleep) ∧
      (∀ t u, s.locals t = .holds → s.locals u = .holds → t = u) ∧
      (∀ t, s.locals t = .holds → s.shared.key ≠ .unlocked) ∧ ¬ Lost s := by
  obtain ⟨s, hs, hp⟩ := Reach.exists_of_run (poolStep step) Init (s := twoThreads)
    ⟨rfl, rfl, fun _ => rfl⟩ sleepRun
    (fun s => decide (s.locals 0 = .holds ∧ 1 ∈ s.shared.asleep)) (by decide +kernel)
  exact ⟨s, by simpa using hp, futex_lock_safe hs⟩

end

end Coroc.FutexLock
