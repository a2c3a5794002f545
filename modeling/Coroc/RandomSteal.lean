import Coroc.Congruential
import Coroc.RunQueue

/-!
# Whom a VPU steals from (`src/vpu.c`: `__myrand`, `__mysrand`, `__random_steal`)

A VPU that has found nothing in its own ring and in the global queue draws the VPU it tries to
steal from.  Every VPU has its own seed; a draw multiplies it by `RNGMUL`, modulo `RNGMOD`.  The
modulus is prime and the multiplier generates its group, so the draws are a congruential generator
of full period, and reduced modulo `xt_index` they pass nobody over.

* `victims_fair`: in every run, of the VPUs in any `RNGMOD - 1` draws in a row each one is drawn
  equally often, up to one.
-/

namespace Coroc.RunQueue

open Coroc.Congruential Coroc.Transition Coroc.ThreadPool

/-! ### The generator -/

theorem rng_power : (69070 : ZMod 4294967291) ^ (4294967291 - 1) = 1 := by
  reduce_mod_char

theorem rng_factors {q : ℕ} (hq : q.Prime) (hdvd : q ∣ 4294967291 - 1) :
    q = 2 ∨ q = 5 ∨ q = 19 ∨ q = 22605091 := by
  have hfactors : 4294967291 - 1 = 2 * (5 * (19 * 22605091)) := by norm_num
  rw [hfactors] at hdvd
  simp only [hq.dvd_mul] at hdvd
  have hlarge : Nat.Prime 22605091 := by norm_num
  rcases hdvd with h | h | h | h
  · exact .inl ((Nat.prime_dvd_prime_iff_eq hq Nat.prime_two).mp h)
  · exact .inr (.inl ((Nat.prime_dvd_prime_iff_eq hq Nat.prime_five).mp h))
  · exact .inr (.inr (.inl ((Nat.prime_dvd_prime_iff_eq hq (by norm_num)).mp h)))
  · exact .inr (.inr (.inr ((Nat.prime_dvd_prime_iff_eq hq hlarge).mp h)))

/-- No smaller power of the multiplier is `1`. -/
theorem rng_power_div {q : ℕ} (hq : q.Prime) (hdvd : q ∣ 4294967291 - 1) :
    (69070 : ZMod 4294967291) ^ ((4294967291 - 1) / q) ≠ 1 := by
  rcases rng_factors hq hdvd with rfl | rfl | rfl | rfl
  all_goals
    reduce_mod_char
    decide

theorem rngmod_prime : Nat.Prime 4294967291 :=
  lucas_primality _ 69070 rng_power fun _ => rng_power_div

theorem rngmul_order : orderOf ((69070 : ℕ) : ZMod 4294967291) = 4294967291 - 1 :=
  orderOf_eq_of_pow_and_pow_div_prime (by decide) rng_power fun _ => rng_power_div

/-- `RNGMOD` and `RNGMUL`. -/
def rng : Generator := ⟨4294967291, 69070, rngmod_prime, rngmul_order⟩

/-- `RNGMOD - 1`. -/
abbrev period : Nat := 4294967290

/-- `__mysrand`. -/
def mysrand (seed : UInt32) : Nat :=
  let seed := seed.toNat % 4294967291
  seed + if seed = 0 then 1 else 0

/-- `__myrand` on machine words: an `unsigned` state, and a product that is an `unsigned long long`. -/
def myrandWord (state : UInt32) : UInt32 := (69070 * state.toUInt64 % 4294967291).toUInt32

/-- The product does not overflow, and the remainder fits in an `unsigned`. -/
theorem myrandWord_toNat (state : UInt32) : (myrandWord state).toNat = myrand state.toNat := by
  have hstate := state.toNat_lt
  have hprod : 69070 * state.toNat < 2 ^ 64 := by omega
  have hrem := Nat.mod_lt (69070 * state.toNat) (by decide : 0 < 4294967291)
  simp only [myrandWord, myrand, UInt64.toNat_toUInt32, UInt64.toNat_mod, UInt64.toNat_mul, UInt32.toNat_toUInt64,
    UInt64.reduceToNat]
  rw [Nat.mod_eq_of_lt hprod, Nat.mod_eq_of_lt (by omega)]

theorem mysrand_mem (seed : UInt32) : mysrand seed ∈ rng.seeds := by
  have hrem := Nat.mod_lt seed.toNat (by decide : 0 < 4294967291)
  have hmod : rng.modulus = 4294967291 := rfl
  rw [Generator.mem_seeds, hmod]
  unfold mysrand
  dsimp only
  split <;> omega

section
variable {κ : Type} {n P : Nat}

/-- The VPUs start with the seeds that `vpu_init` gives them. -/
def Seeded (s : State κ n P) : Prop :=
  Init s ∧ ∀ v, (s.locals v).randSeed = mysrand (.ofNat (v + 1))

/-- The number of the VPU that `v` draws in a step, if it does. -/
def drawn (xt v : Fin n) (s s' : State κ n P) : List Nat :=
  if (s'.locals v).randSeed = (s.locals v).randSeed then [] else [(s'.locals v).randSeed % (xt + 1)]

@[simp] theorem goto_randSeed (l : Local κ n P) (pc : Pc κ n) : (l.goto pc).randSeed = l.randSeed := rfl

@[simp] theorem returnTask_randSeed (s : Shared κ n P) (l : Local κ n P) (task : κ) :
    (returnTask s l task).2.randSeed = l.randSeed := rfl

@[simp] theorem afterGlobal_randSeed (s : Shared κ n P) (l : Local κ n P) (o : Option κ) :
    (afterGlobal s l o).2.randSeed = l.randSeed := by
  cases o <;> rfl

@[simp] theorem afterGrab_randSeed (s : Shared κ n P) (l : Local κ n P) (temp : List κ) :
    (afterGrab s l temp).2.randSeed = l.randSeed := by
  unfold afterGrab
  split
  · rfl
  · split <;> rfl

/-- Only a draw changes the seed. -/
theorem step_seed {xt v : Fin n} {s s' : Shared κ n P} {l l' : Local κ n P} {c : Call κ P}
    (hs : step xt v s l c = some (s', l')) :
    l'.randSeed = l.randSeed ∨ l'.randSeed = myrand l.randSeed := by
  have hkeep {r : Shared κ n P × Local κ n P} (hr : r.2.randSeed = l.randSeed) (heq : some r = some (s', l')) :
      l'.randSeed = l.randSeed ∨ l'.randSeed = myrand l.randSeed := by
    cases heq
    exact .inl hr
  cases hpc : l.pc <;> simp only [step, hpc] at hs
  case idle =>
    cases c <;> simp only at hs
    case go => cases hs
    case add => exact hkeep rfl hs
    all_goals
      split at hs
      · exact hkeep rfl hs
      · cases hs
  case steal failure =>
    split at hs
    all_goals
      cases hs
      exact .inr rfl
  case electPop candidate m =>
    split at hs
    · exact hkeep rfl hs
    · split at hs
      · exact hkeep rfl hs
      · split at hs <;> exact hkeep rfl hs
  case electCheck retry =>
    split at hs
    · exact hkeep rfl hs
    · exact hkeep (afterGlobal_randSeed _ _ _) hs
  case electUnlock candidate => exact hkeep (afterGlobal_randSeed _ _ _) hs
  case grabCas failure victim head pos num temp =>
    split at hs
    · exact hkeep (afterGrab_randSeed _ _ _) hs
    · exact hkeep rfl hs
  case stealSlot task stored temp tail => split at hs <;> exact hkeep rfl hs
  case slowLock | addLock =>
    split at hs
    · exact hkeep rfl hs
    · cases hs
  case aborted => cases hs
  case electTry => split at hs <;> exact hkeep rfl hs
  case getTail | putTail | slowLoad | grabSlot | grabTail | stealTail | getCas | slowCas =>
    split at hs
    · exact hkeep rfl hs
    · first | exact hkeep rfl hs | (split at hs <;> exact hkeep rfl hs)
  all_goals exact hkeep rfl hs

/-! ### The draws of a run -/

/-- What was drawn so far is what the generator says, from the seed of `vpu_init`. -/
structure Drew (xt v : Fin n) (s : State κ n P) (log : List Nat) : Prop where
  seed : (s.locals v).randSeed = rng.next^[log.length] (mysrand (.ofNat (v + 1)))
  log : log = rng.draws (xt + 1) (mysrand (.ofNat (v + 1))) log.length

theorem Drew.step {xt v : Fin n} {s s' : State κ n P} {log : List Nat} {l : Fin n × Call κ P}
    (h : Drew xt v s log) (hs : poolStep (step xt) s l = some s') : Drew xt v s' (log ++ drawn xt v s s') := by
  have hmem := Generator.iterate_mem (mysrand_mem (.ofNat (v + 1))) log.length
  obtain ⟨r, hr, -, hlocals⟩ := poolStep_eq_some hs
  have hseed : (s'.locals v).randSeed = (s.locals v).randSeed ∨
      (s'.locals v).randSeed = myrand (s.locals v).randSeed := by
    rw [hlocals]
    by_cases hv : v = l.1
    · subst hv
      simpa using step_seed hr
    · simp [hv]
  unfold drawn
  by_cases hsame : (s'.locals v).randSeed = (s.locals v).randSeed
  · rw [if_pos hsame, List.append_nil]
    exact ⟨hsame.trans h.seed, h.log⟩
  · have hnext : (s'.locals v).randSeed = rng.next^[log.length + 1] (mysrand (.ofNat (v + 1))) := by
      rw [hseed.resolve_left hsame, h.seed, Function.iterate_succ_apply']
      rfl
    rw [if_neg hsame, hnext]
    constructor
    · rw [List.length_append, List.length_singleton]
      exact hnext
    · rw [List.length_append, List.length_singleton, Generator.draws_succ, ← h.log]

theorem drew_of_logged {xt v : Fin n} {s : State κ n P} {log : List Nat}
    (h : Logged (poolStep (step xt)) (fun _ _ => True) Seeded (drawn xt v) s log) : Drew xt v s log := by
  refine (h.invariant ?_ ?_).2
  · intro s hs
    exact ⟨hs.2 v, rfl⟩
  · intro s log l s' _ hd _ hs
    exact hd.step hs

/-- **Nobody is passed over.**  The seed of a VPU is never `0`, and of any `RNGMOD - 1` VPUs that it draws in a row
    each of the `xt_index` VPUs is drawn equally often, up to one. -/
theorem victims_fair {xt v : Fin n} {s : State κ n P} {log : List Nat}
    (h : Logged (poolStep (step xt)) (fun _ _ => True) Seeded (drawn xt v) s log) :
    0 < (s.locals v).randSeed ∧ (s.locals v).randSeed < 4294967291 ∧
      ∀ before stretch after, log = before ++ stretch ++ after → stretch.length = period → ∀ j ≤ xt,
        period / (xt + 1) ≤ stretch.count j.val ∧ stretch.count j.val ≤ period / (xt + 1) + 1 := by
  have hd := drew_of_logged h
  have hmem := mysrand_mem (.ofNat (v + 1))
  have hseed := Generator.mem_seeds.mp (Generator.iterate_mem hmem log.length)
  rw [← hd.seed] at hseed
  refine ⟨hseed.1, hseed.2, ?_⟩
  intro before stretch after hlog hlen j hj
  rw [hd.log] at hlog
  rw [Generator.draws_stretch hlog, hlen]
  exact Generator.draws_count (Generator.iterate_mem hmem before.length) (Nat.succ_pos _) (Nat.lt_succ_of_le hj)

end

/-! ### A search that never ends -/

/-- Two VPUs and nothing to do; the first one is at `pc`, with the seed `x`. -/
def lone (x : Nat) (pc : Pc Nat 2) : State Nat 2 1 where
  shared := emptyRings.shared
  locals := Function.update (fun v => { prio := 0, randSeed := mysrand (.ofNat (v + 1)), pc := .idle }) 0
    { prio := 0, randSeed := x, pc := pc }

/-- `lone x pc` is reached, and what the first VPU has drawn is `log`. -/
def Searched (x : Nat) (pc : Pc Nat 2) (log : List Nat) : Prop :=
  Logged (poolStep (step 1)) (fun _ _ => True) Seeded (drawn 1 0) (lone x pc) log

theorem lone_seeded : Seeded (lone (mysrand 1) .idle) := by
  refine ⟨⟨fun _ => ⟨rfl, rfl⟩, fun _ => ⟨rfl, rfl⟩, ?_, rfl, rfl, rfl⟩, ?_⟩
  all_goals
    intro v
    by_cases hv : v = 0
    · subst hv
      rfl
    · simp [lone, hv]

theorem Searched.step {x y : Nat} {pc pc' : Pc Nat 2} {log : List Nat} (h : Searched x pc log) (c : Call Nat 1)
    (hs : step 1 0 emptyRings.shared ⟨0, x, pc⟩ c = some (emptyRings.shared, ⟨0, y, pc'⟩)) :
    Searched y pc' (log ++ if y = x then [] else [y % 2]) := by
  have hstep : poolStep (RunQueue.step 1) (lone x pc) (0, c) = some (lone y pc') := by
    simp only [poolStep, lone, Function.update_self, hs, Option.map_some, Function.update_idem]
  have hdrawn : drawn 1 0 (lone x pc) (lone y pc') = if y = x then [] else [y % 2] := by
    simp [drawn, lone]
  rw [← hdrawn]
  refine Reach.next (0, c) h trivial ?_
  simp only [logged, hstep, Option.map_some]

theorem Searched.keep {x : Nat} {pc pc' : Pc Nat 2} {log : List Nat} (h : Searched x pc log) (c : Call Nat 1)
    (hs : RunQueue.step 1 0 emptyRings.shared ⟨0, x, pc⟩ c = some (emptyRings.shared, ⟨0, x, pc'⟩)) :
    Searched x pc' log := by
  simpa using h.step c hs

/-- A search starts. -/
theorem Searched.elect {x : Nat} {log : List Nat} (h : Searched x .idle log) : Searched x (.steal 0) log := by
  have hhead := (h.keep (.elect 0) rfl).keep .go rfl
  exact (hhead.keep .go rfl).keep .go rfl

/-- A draw: the VPU itself, or the other one, whose ring is empty. -/
theorem Searched.draw {x failure : Nat} {log : List Nat} (hx : x ∈ rng.seeds) (h : Searched x (.steal failure) log) :
    Searched (myrand x) (onStealNull 1 failure) (log ++ [myrand x % 2]) := by
  have hne : myrand x ≠ x := Generator.next_ne (by decide) hx
  rcases Nat.mod_two_eq_zero_or_one (myrand x) with hself | hother
  · have hdraw : Searched (myrand x) (onStealNull 1 failure) (log ++ if myrand x = x then [] else [myrand x % 2]) :=
      h.step .go (by simp [RunQueue.step, Local.goto, hself])
    rwa [if_neg hne] at hdraw
  · have hdraw : Searched (myrand x) (.grabHead failure 1) (log ++ if myrand x = x then [] else [myrand x % 2]) :=
      h.step .go (by simp [RunQueue.step, Local.goto, hother])
    rw [if_neg hne] at hdraw
    exact (hdraw.keep .go rfl).keep .go (by simp [RunQueue.step, emptyRings, Local.goto])

/-- It goes on for as long as one likes. -/
theorem exists_searched (k : Nat) : ∃ x pc log, Searched x pc log ∧ log.length = k ∧ x ∈ rng.seeds ∧
    (pc = .idle ∨ ∃ failure, pc = .steal failure) := by
  induction k with
  | zero => exact ⟨mysrand 1, .idle, [], .start ⟨lone_seeded, rfl⟩, rfl, mysrand_mem 1, .inl rfl⟩
  | succ k ih =>
    obtain ⟨x, pc, log, h, hlen, hx, hpc⟩ := ih
    obtain ⟨failure, h⟩ : ∃ failure, Searched x (.steal failure) log := by
      rcases hpc with rfl | ⟨failure, rfl⟩
      · exact ⟨0, h.elect⟩
      · exact ⟨failure, h⟩
    refine ⟨myrand x, onStealNull 1 failure, _, h.draw hx, by simp [hlen], Generator.next_mem hx, ?_⟩
    unfold onStealNull
    split
    · exact .inl rfl
    · exact .inr ⟨_, rfl⟩

/-- In `period` draws the other VPU comes as often as the first one itself. -/
theorem victims_fair_search : ∃ x pc log, Searched x pc log ∧ log.length = period ∧
    2147483645 ≤ log.count 1 ∧ 2147483645 ≤ log.count 0 := by
  obtain ⟨x, pc, log, h, hlen, -⟩ := exists_searched period
  obtain ⟨-, -, hfair⟩ := victims_fair h
  have hall : log = [] ++ log ++ [] := by simp
  exact ⟨x, pc, log, h, hlen, (hfair [] log [] hall hlen 1 (by decide)).1, (hfair [] log [] hall hlen 0 (by decide)).1⟩

end Coroc.RunQueue
