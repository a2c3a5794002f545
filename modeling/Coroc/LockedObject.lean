import Mathlib.Logic.Function.Basic
import Coroc.Transition

/-!
# Objects behind a lock

The operations of an object run under its lock, one statement after another.  Before a thread asks
for the lock it may look at the object and return at once, and some operations do not wait for a
lock that is taken.  Nothing here mentions the runtime.

* `Atomic` is the object that the clients see: an operation is called, takes effect in one step, and
  returns what it has got by then.  What an operation can do is a list of outcomes.
* `Linearizes` is what its histories of calls and returns have in common: an order of the operations
  explains them (`Atomic.linearizes`).
* `Code` is the program of an object, and `step` runs it, for any number of threads.
* `Implements` is what is to be proved about the code: every critical section, run alone, takes effect
  at one of its statements, and what is seen without the lock is right before and after it.
* `Implements.linearizable`: then the histories of the code are explained, too.
* `Matches.leaves`: whoever has the lock releases it, without help from anybody.
-/

namespace Coroc.LockedObject

open Coroc.Transition Function

/-- What the clients see. -/
inductive Event (ι Op Ret : Type) where
  | call (i : ι) (op : Op)
  | ret (i : ι) (r : Ret)
deriving DecidableEq

/-! ### The atomic object -/

/-- A call of the atomic object. -/
inductive Phase (Op Ret : Type) where
  | idle
  | pending (op : Op)
  | done (r : Ret)

structure Atomic (ι Op Ret Val : Type) where
  value : Val
  phase : ι → Phase Op Ret
  history : List (Event ι Op Ret)

/-- `apply` takes one of the outcomes that the operation of thread `i` can have. -/
inductive Move (ι Op : Type) where
  | call (i : ι) (op : Op)
  | apply (i : ι) (k : Nat)
  | ret (i : ι)

variable {ι Op Ret Val Mem Loc : Type} [DecidableEq ι]

def Atomic.move (spec : Op → Val → List (Val × Ret)) (a : Atomic ι Op Ret Val) :
    Move ι Op → Option (Atomic ι Op Ret Val)
  | .call i op => match a.phase i with
    | .idle => some { a with phase := update a.phase i (.pending op), history := a.history ++ [.call i op] }
    | _ => none
  | .apply i k => match a.phase i with
    | .pending op => (spec op a.value)[k]?.map fun p => { a with value := p.1, phase := update a.phase i (.done p.2) }
    | _ => none
  | .ret i => match a.phase i with
    | .done r => some { a with phase := update a.phase i .idle, history := a.history ++ [.ret i r] }
    | _ => none

def Atomic.Start (value : Val → Prop) (a : Atomic ι Op Ret Val) : Prop :=
  value a.value ∧ (∀ i, a.phase i = .idle) ∧ a.history = []

/-- The clients keep to a rule about what they call, after what has happened so far. -/
def Atomic.Allowed (rule : List (Event ι Op Ret) → Op → Prop) (a : Atomic ι Op Ret Val) (m : Move ι Op) : Prop :=
  ∀ i op, m = .call i op → rule a.history op

section
variable {spec : Op → Val → List (Val × Ret)} {start : Val → Prop} {rule : List (Event ι Op Ret) → Op → Prop}
  {a a' : Atomic ι Op Ret Val}

/-- What a move does. -/
theorem Atomic.move_cases {m : Move ι Op} (hm : a.move spec m = some a') :
    (∃ i op, m = .call i op ∧ a.phase i = .idle ∧
      a' = { a with phase := update a.phase i (.pending op), history := a.history ++ [.call i op] }) ∨
    (∃ i op v r, a.phase i = .pending op ∧ (v, r) ∈ spec op a.value ∧
      a' = { a with value := v, phase := update a.phase i (.done r) }) ∨
    ∃ i r, a.phase i = .done r ∧
      a' = { a with phase := update a.phase i .idle, history := a.history ++ [.ret i r] } := by
  cases m with
  | call i op =>
    simp only [Atomic.move] at hm
    split at hm
    · rename_i hp
      cases hm
      exact .inl ⟨i, op, rfl, hp, rfl⟩
    · cases hm
  | apply i k =>
    simp only [Atomic.move] at hm
    split at hm
    · rename_i op hp
      obtain ⟨⟨v, r⟩, hk, rfl⟩ := Option.map_eq_some_iff.mp hm
      exact .inr (.inl ⟨i, op, v, r, hp, List.mem_of_getElem? hk, rfl⟩)
    · cases hm
  | ret i =>
    simp only [Atomic.move] at hm
    split at hm
    · rename_i r hp
      cases hm
      exact .inr (.inr ⟨i, r, hp, rfl⟩)
    · cases hm

/-- **Invariants of the atomic object**, where the clients keep to the rule. -/
theorem Atomic.invariant {I : Atomic ι Op Ret Val → Prop} (hstart : ∀ a, Atomic.Start start a → I a)
    (hcall : ∀ a i op, I a → rule a.history op → a.phase i = .idle →
      I { a with phase := update a.phase i (.pending op), history := a.history ++ [.call i op] })
    (happly : ∀ a i op v r, I a → a.phase i = .pending op → (v, r) ∈ spec op a.value →
      I { a with value := v, phase := update a.phase i (.done r) })
    (hret : ∀ a i r, I a → a.phase i = .done r →
      I { a with phase := update a.phase i .idle, history := a.history ++ [.ret i r] })
    (h : Reach (Atomic.move spec) (Atomic.Allowed rule) (Atomic.Start start) a) : I a := by
  refine h.invariant hstart ?_
  intro a m a' hI hok hm
  rcases Atomic.move_cases hm with ⟨i, op, rfl, hp, rfl⟩ | ⟨i, op, v, r, hp, hmem, rfl⟩ | ⟨i, r, hp, rfl⟩
  · exact hcall a i op hI (hok i op rfl) hp
  · exact happly a i op v r hI hp hmem
  · exact hret a i r hI hp

end

/-! ### Its histories -/

/-- What thread `i` called. -/
def callsBy (i : ι) (h : List (Event ι Op Ret)) : List Op :=
  h.filterMap fun
    | .call j op => if j = i then some op else none
    | .ret _ _ => none

/-- What thread `i` got. -/
def retsBy (i : ι) (h : List (Event ι Op Ret)) : List Ret :=
  h.filterMap fun
    | .call _ _ => none
    | .ret j r => if j = i then some r else none

/-- A sequence of operations, each with the thread that called it and with what it returns. -/
abbrev Order (ι Op Ret : Type) := List (ι × Op × Ret)

/-- Those of thread `i`. -/
def opsBy (i : ι) (o : Order ι Op Ret) : List (Op × Ret) := o.filterMap fun x => if x.1 = i then some x.2 else none

/-- Run one after another from `v`, the operations return what is said and lead to the last value. -/
inductive Legal (spec : Op → Val → List (Val × Ret)) (v : Val) : Order ι Op Ret → Val → Prop
  | nil : Legal spec v [] v
  | snoc {o : Order ι Op Ret} {v' v'' : Val} (i : ι) {op : Op} {r : Ret} :
      Legal spec v o v' → (v'', r) ∈ spec op v' → Legal spec v (o ++ [(i, op, r)]) v''

/-- Wherever the history is cut, the order can be cut such that the first part has all operations that have returned
    by then, and only such that have been called. -/
def Timely (h : List (Event ι Op Ret)) (o : Order ι Op Ret) : Prop :=
  ∀ h₁ h₂, h = h₁ ++ h₂ → ∃ o₁ o₂, o = o₁ ++ o₂ ∧
    ∀ i, (retsBy i h₁).length ≤ (opsBy i o₁).length ∧ (opsBy i o₁).length ≤ (callsBy i h₁).length

/-- **The order explains the history.**  Run in this order from `v`, the operations return what they returned in the
    history, and lead to `v'`; each thread called them in this order; and an operation that returned before another
    one was called stands before it. -/
structure Linearizes (spec : Op → Val → List (Val × Ret)) (v : Val) (h : List (Event ι Op Ret)) (o : Order ι Op Ret)
    (v' : Val) : Prop where
  legal : Legal spec v o v'
  calls : ∀ i, (opsBy i o).map Prod.fst <+: callsBy i h
  rets : ∀ i, retsBy i h <+: (opsBy i o).map Prod.snd
  timely : Timely h o

section
variable {spec : Op → Val → List (Val × Ret)} {start : Val → Prop} {rule : List (Event ι Op Ret) → Op → Prop}
  {h h₁ h₂ : List (Event ι Op Ret)} {o : Order ι Op Ret} {a a' : Atomic ι Op Ret Val} {v : Val} {i j : ι} {op : Op} {r : Ret}

@[simp] theorem callsBy_append : callsBy i (h₁ ++ h₂) = callsBy i h₁ ++ callsBy i h₂ := List.filterMap_append

@[simp] theorem retsBy_append : retsBy i (h₁ ++ h₂) = retsBy i h₁ ++ retsBy i h₂ := List.filterMap_append

@[simp] theorem callsBy_call : callsBy i ([.call j op] : List (Event ι Op Ret)) = if j = i then [op] else [] := by
  by_cases hj : j = i <;> simp [callsBy, hj]

@[simp] theorem callsBy_ret : callsBy i ([.ret j r] : List (Event ι Op Ret)) = [] := rfl

@[simp] theorem retsBy_call : retsBy i ([.call j op] : List (Event ι Op Ret)) = [] := rfl

@[simp] theorem retsBy_ret : retsBy i ([.ret j r] : List (Event ι Op Ret)) = if j = i then [r] else [] := by
  by_cases hj : j = i <;> simp [retsBy, hj]

@[simp] theorem opsBy_snoc : opsBy i (o ++ [(j, op, r)]) = opsBy i o ++ if j = i then [(op, r)] else [] := by
  by_cases hj : j = i <;> simp [opsBy, hj]

/-- What thread `i` called and got, by where its call is. -/
def Told (ops : List (Op × Ret)) (cs : List Op) (rs : List Ret) : Phase Op Ret → Prop
  | .idle => cs = ops.map Prod.fst ∧ rs = ops.map Prod.snd
  | .pending op => cs = ops.map Prod.fst ++ [op] ∧ rs = ops.map Prod.snd
  | .done r => cs = ops.map Prod.fst ∧ rs ++ [r] = ops.map Prod.snd

omit [DecidableEq ι] in
theorem Told.prefixes {ops : List (Op × Ret)} {cs : List Op} {rs : List Ret} {p : Phase Op Ret} (h : Told ops cs rs p) :
    ops.map Prod.fst <+: cs ∧ rs <+: ops.map Prod.snd := by
  cases p with
  | idle => exact ⟨h.1 ▸ List.prefix_refl _, h.2 ▸ List.prefix_refl _⟩
  | pending op => exact ⟨h.1 ▸ List.prefix_append _ _, h.2 ▸ List.prefix_refl _⟩
  | done r => exact ⟨h.1 ▸ List.prefix_refl _, h.2 ▸ List.prefix_append _ _⟩

structure Explains (spec : Op → Val → List (Val × Ret)) (v : Val) (a : Atomic ι Op Ret Val) (o : Order ι Op Ret) :
    Prop where
  legal : Legal spec v o a.value
  told : ∀ i, Told (opsBy i o) (callsBy i a.history) (retsBy i a.history) (a.phase i)
  timely : Timely a.history o

theorem Explains.linearizes (h : Explains spec v a o) : Linearizes spec v a.history o a.value where
  legal := h.legal
  calls i := (h.told i).prefixes.1
  rets i := (h.told i).prefixes.2
  timely := h.timely

/-- The history grows. -/
theorem Timely.event {e : Event ι Op Ret} (ht : Timely h o)
    (htold : ∀ i, ∃ p, Told (opsBy i o) (callsBy i (h ++ [e])) (retsBy i (h ++ [e])) p) : Timely (h ++ [e]) o := by
  intro h₁ h₂ hcut
  rcases List.append_eq_append_iff.mp hcut with ⟨h₃, rfl, he⟩ | ⟨h₃, rfl, -⟩
  · rcases List.singleton_eq_append_iff.mp he with ⟨rfl, -⟩ | ⟨rfl, -⟩
    · rw [List.append_nil]
      exact ht h [] (List.append_nil h).symm
    · refine ⟨o, [], (List.append_nil o).symm, ?_⟩
      intro i
      obtain ⟨p, hp⟩ := htold i
      have hpre := hp.prefixes
      have hlen := hpre.1.length_le
      have hlen' := hpre.2.length_le
      rw [List.length_map] at hlen hlen'
      exact ⟨hlen', hlen⟩
  · exact ht h₁ h₃ rfl

/-- The order grows. -/
theorem Timely.snoc (ht : Timely h o) (x : ι × Op × Ret) : Timely h (o ++ [x]) := by
  intro h₁ h₂ hcut
  obtain ⟨o₁, o₂, rfl, hlen⟩ := ht h₁ h₂ hcut
  exact ⟨o₁, o₂ ++ [x], by simp, hlen⟩

theorem Explains.call (h : Explains spec v a o) (hp : a.phase i = .idle) (op : Op) : Explains spec v
    { a with phase := update a.phase i (.pending op), history := a.history ++ [.call i op] } o := by
  have htold : ∀ j, Told (opsBy j o) (callsBy j (a.history ++ [.call i op])) (retsBy j (a.history ++ [.call i op]))
      (update a.phase i (.pending op) j) := by
    intro j
    have hj := h.told j
    by_cases hji : j = i
    · subst hji
      rw [hp] at hj
      simp only [callsBy_append, callsBy_call, if_pos, retsBy_append, retsBy_call, List.append_nil, update_self]
      exact ⟨by rw [hj.1], hj.2⟩
    · simpa [update_of_ne hji, Ne.symm hji] using hj
  exact ⟨h.legal, htold, h.timely.event fun j => ⟨_, htold j⟩⟩

theorem Explains.apply {v' : Val} (h : Explains spec v a o) (hp : a.phase i = .pending op)
    (hmem : (v', r) ∈ spec op a.value) :
    Explains spec v { a with value := v', phase := update a.phase i (.done r) } (o ++ [(i, op, r)]) := by
  refine ⟨.snoc i h.legal hmem, ?_, h.timely.snoc _⟩
  intro j
  have hj := h.told j
  by_cases hji : j = i
  · subst hji
    rw [hp] at hj
    simp only [opsBy_snoc, if_pos, update_self]
    exact ⟨by simp [hj.1], by simp [hj.2]⟩
  · simpa [update_of_ne hji, Ne.symm hji] using hj

theorem Explains.ret (h : Explains spec v a o) (hp : a.phase i = .done r) : Explains spec v
    { a with phase := update a.phase i .idle, history := a.history ++ [.ret i r] } o := by
  have htold : ∀ j, Told (opsBy j o) (callsBy j (a.history ++ [.ret i r])) (retsBy j (a.history ++ [.ret i r]))
      (update a.phase i .idle j) := by
    intro j
    have hj := h.told j
    by_cases hji : j = i
    · subst hji
      rw [hp] at hj
      simp only [callsBy_append, callsBy_ret, List.append_nil, retsBy_append, retsBy_ret, if_pos, update_self]
      exact hj
    · simpa [update_of_ne hji, Ne.symm hji] using hj
  exact ⟨h.legal, htold, h.timely.event fun j => ⟨_, htold j⟩⟩

/-- **The atomic object is linearizable**: the order is that in which the operations take effect. -/
theorem Atomic.linearizes (h : Reach (Atomic.move spec) (Atomic.Allowed rule) (Atomic.Start start) a) :
    ∃ v o, start v ∧ Linearizes spec v a.history o a.value := by
  suffices hexplains : ∃ v o, start v ∧ Explains spec v a o by
    obtain ⟨v, o, hv, ho⟩ := hexplains
    exact ⟨v, o, hv, ho.linearizes⟩
  refine Atomic.invariant (I := fun a => ∃ v o, start v ∧ Explains spec v a o) ?_ ?_ ?_ ?_ h
  · intro a hs
    obtain ⟨hv, hidle, hhistory⟩ := hs
    refine ⟨a.value, [], hv, .nil, ?_, ?_⟩
    · intro i
      rw [hidle i, hhistory]
      exact ⟨rfl, rfl⟩
    · intro h₁ h₂ hcut
      rw [hhistory] at hcut
      obtain ⟨rfl, rfl⟩ := List.append_eq_nil_iff.mp hcut.symm
      exact ⟨[], [], rfl, fun _ => ⟨Nat.le_refl 0, Nat.le_refl 0⟩⟩
  · intro a i op hI _ hp
    obtain ⟨v, o, hv, ho⟩ := hI
    exact ⟨v, o, hv, ho.call hp op⟩
  · intro a i op v' r hI hp hmem
    obtain ⟨v, o, hv, ho⟩ := hI
    exact ⟨v, _, hv, ho.apply hp hmem⟩
  · intro a i r hI hp
    obtain ⟨v, o, hv, ho⟩ := hI
    exact ⟨v, o, hv, ho.ret hp⟩

end

/-! ### The code -/

/-- The operations: the look at the object before the lock is asked for (`some r` returns at once), what
    an operation that does not wait returns when the lock is taken, the first statement behind the
    lock, and the statements.  The last one leaves what is returned after the release. -/
structure Code (Mem Op Ret Loc : Type) where
  test : Mem → Op → Option Ret
  busy : Op → Option Ret
  enter : Op → Loc
  exec : Mem → Loc → Mem × (Loc ⊕ Ret)

inductive Pc (Op Ret Loc : Type) where
  | idle
  | test (op : Op)
  | acquire (op : Op)
  | inside (op : Op) (l : Loc)
  | release (r : Ret)
  | ret (r : Ret)
deriving DecidableEq

/-- The thread has the lock. -/
def Pc.holds : Pc Op Ret Loc → Prop
  | .inside _ _ | .release _ => True
  | _ => False

structure State (ι Mem Op Ret Loc : Type) where
  mem : Mem
  lock : Option ι
  pc : ι → Pc Op Ret Loc
  history : List (Event ι Op Ret)

/-- An idle thread calls an operation; a thread in one goes on. -/
inductive Label (ι Op : Type) where
  | call (i : ι) (op : Op)
  | go (i : ι)

/-- The next step of a thread in an operation. -/
def State.go (code : Code Mem Op Ret Loc) (s : State ι Mem Op Ret Loc) (i : ι) : Option (State ι Mem Op Ret Loc) :=
  match s.pc i with
  | .idle => none
  | .test op => match code.test s.mem op with
    | some r => some { s with pc := update s.pc i (.ret r) }
    | none => some { s with pc := update s.pc i (.acquire op) }
  | .acquire op => match s.lock, code.busy op with
    | none, _ => some { s with lock := some i, pc := update s.pc i (.inside op (code.enter op)) }
    | some _, some r => some { s with pc := update s.pc i (.ret r) }
    | some _, none => none
  | .inside op l => match code.exec s.mem l with
    | (m, .inl l') => some { s with mem := m, pc := update s.pc i (.inside op l') }
    | (m, .inr r) => some { s with mem := m, pc := update s.pc i (.release r) }
  | .release r => some { s with lock := none, pc := update s.pc i (.ret r) }
  | .ret r => some { s with pc := update s.pc i .idle, history := s.history ++ [.ret i r] }

def step (code : Code Mem Op Ret Loc) (s : State ι Mem Op Ret Loc) : Label ι Op → Option (State ι Mem Op Ret Loc)
  | .call i op => match s.pc i with
    | .idle => some { s with pc := update s.pc i (.test op), history := s.history ++ [.call i op] }
    | _ => none
  | .go i => s.go code i

def Start (mem : Mem → Prop) (s : State ι Mem Op Ret Loc) : Prop :=
  mem s.mem ∧ s.lock = none ∧ (∀ i, s.pc i = .idle) ∧ s.history = []

def Allowed (rule : List (Event ι Op Ret) → Op → Prop) (s : State ι Mem Op Ret Loc) (l : Label ι Op) : Prop :=
  ∀ i op, l = .call i op → rule s.history op

/-! ### What the code has to do -/

section
variable (code : Code Mem Op Ret Loc) (spec : Op → Val → List (Val × Ret)) (Rep : Val → Mem → Prop)

/-- What is seen without the lock is an outcome. -/
def Sound (v : Val) (m : Mem) : Prop := ∀ op r, code.test m op = some r → (v, r) ∈ spec op v

/-- The rest of a critical section that has taken effect and will return `r`. -/
inductive After (v : Val) (r : Ret) : Mem → Loc → Prop
  | next {m m' : Mem} {l l' : Loc} : Sound code spec v m → code.exec m l = (m', .inl l') → After v r m' l' → After v r m l
  | last {m m' : Mem} {l : Loc} : Sound code spec v m → code.exec m l = (m', .inr r) → Rep v m' → After v r m l

/-- The rest of a critical section of `op` that has not taken effect yet. -/
inductive Before (v : Val) (op : Op) : Mem → Loc → Prop
  | next {m m' : Mem} {l l' : Loc} : Sound code spec v m → code.exec m l = (m', .inl l') → Before v op m' l' →
      Before v op m l
  | effect {m m' : Mem} {l l' : Loc} {v' : Val} {r : Ret} : Sound code spec v m → code.exec m l = (m', .inl l') →
      (v', r) ∈ spec op v → After code spec Rep v' r m' l' → Before v op m l
  | last {m m' : Mem} {l : Loc} {v' : Val} {r : Ret} : Sound code spec v m → code.exec m l = (m', .inr r) →
      (v', r) ∈ spec op v → Rep v' m' → Before v op m l

/-- The code of the operations is right where `Pre` holds. -/
structure Implements (Pre : Op → Val → Prop) : Prop where
  sound : ∀ v m, Rep v m → Sound code spec v m
  busy : ∀ v op r, code.busy op = some r → (v, r) ∈ spec op v
  body : ∀ v m op, Rep v m → Pre op v → Before code spec Rep v op m (code.enter op)

/-- Where a thread is, and its call of the atomic object. -/
inductive Fits (v : Val) (m : Mem) : Pc Op Ret Loc → Phase Op Ret → Prop
  | idle : Fits v m .idle .idle
  | test (op : Op) : Fits v m (.test op) (.pending op)
  | acquire (op : Op) : Fits v m (.acquire op) (.pending op)
  | before {op : Op} {l : Loc} : Before code spec Rep v op m l → Fits v m (.inside op l) (.pending op)
  | after {op : Op} {l : Loc} {r : Ret} : After code spec Rep v r m l → Fits v m (.inside op l) (.done r)
  | release {r : Ret} : Rep v m → Fits v m (.release r) (.done r)
  | ret (r : Ret) : Fits v m (.ret r) (.done r)

/-- The two systems side by side. -/
structure Matches (s : State ι Mem Op Ret Loc) (a : Atomic ι Op Ret Val) : Prop where
  history : s.history = a.history
  fits : ∀ i, Fits code spec Rep a.value s.mem (s.pc i) (a.phase i)
  lock : ∀ i, (s.pc i).holds ↔ s.lock = some i
  free : s.lock = none → Rep a.value s.mem
  sound : Sound code spec a.value s.mem

end

variable {code : Code Mem Op Ret Loc} {spec : Op → Val → List (Val × Ret)} {Rep : Val → Mem → Prop}
  {Pre : Op → Val → Prop} {rule : List (Event ι Op Ret) → Op → Prop} {start : Val → Prop} {memStart : Mem → Prop}
  {s s' : State ι Mem Op Ret Loc} {a : Atomic ι Op Ret Val} {v v' : Val} {m m' : Mem} {l : Loc} {op op' : Op} {r : Ret}
  {i j : ι}

omit [DecidableEq ι] in
theorem Before.sound (h : Before code spec Rep v op m l) : Sound code spec v m := by
  cases h <;> assumption

theorem After.sound (h : After code spec Rep v r m l) : Sound code spec v m := by
  cases h <;> assumption

/-- A thread without the lock does not notice what the others do. -/
theorem Fits.frame {pc : Pc Op Ret Loc} {p : Phase Op Ret} (h : Fits code spec Rep v m pc p) (hpc : ¬ pc.holds) :
    Fits code spec Rep v' m' pc p := by
  cases h with
  | idle => exact .idle
  | test op => exact .test op
  | acquire op => exact .acquire op
  | before _ | after _ | release _ => exact absurd trivial hpc
  | ret r => exact .ret r

/-- One thread moves. -/
theorem Matches.thread {pc : Pc Op Ret Loc} {p : Phase Op Ret} {a' : Atomic ι Op Ret Val}
    (h : Matches code spec Rep s a) (i : ι) (hpc : s'.pc = update s.pc i pc) (hphase : a'.phase = update a.phase i p)
    (hhistory : s'.history = a'.history) (hself : Fits code spec Rep a'.value s'.mem pc p)
    (hothers : ∀ j, j ≠ i → ¬ (s.pc j).holds ∨ a'.value = a.value ∧ s'.mem = s.mem)
    (hlock : ∀ j, (s'.pc j).holds ↔ s'.lock = some j) (hfree : s'.lock = none → Rep a'.value s'.mem)
    (hsound : Sound code spec a'.value s'.mem) : Matches code spec Rep s' a' where
  history := hhistory
  fits j := by
    rw [hpc, hphase]
    by_cases hj : j = i
    · subst hj
      rw [update_self, update_self]
      exact hself
    · rw [update_of_ne hj, update_of_ne hj]
      rcases hothers j hj with hout | ⟨hv, hm⟩
      · exact (h.fits j).frame hout
      · rw [hv, hm]
        exact h.fits j
  lock := hlock
  free := hfree
  sound := hsound

omit [DecidableEq ι] in
/-- Only one thread has the lock. -/
theorem Matches.alone (h : Matches code spec Rep s a) (hi : (s.pc i).holds) (hj : j ≠ i) : ¬ (s.pc j).holds := by
  intro hholds
  have hlock := ((h.lock i).mp hi).symm.trans ((h.lock j).mp hholds)
  exact hj (Option.some.inj hlock).symm

/-- The lock is where it was. -/
theorem Matches.lock_same {pc : Pc Op Ret Loc} (h : Matches code spec Rep s a) (hpc : pc.holds ↔ (s.pc i).holds) (j : ι) :
    (update s.pc i pc j).holds ↔ s.lock = some j := by
  by_cases hj : j = i
  · subst hj
    rw [update_self, hpc]
    exact h.lock j
  · rw [update_of_ne hj]
    exact h.lock j

/-- A step of the code is a step of the atomic object, or none. -/
def Follows (code : Code Mem Op Ret Loc) (spec : Op → Val → List (Val × Ret)) (Rep : Val → Mem → Prop)
    (a : Atomic ι Op Ret Val) (l : Label ι Op) (s' : State ι Mem Op Ret Loc) : Prop :=
  Matches code spec Rep s' a ∨ ∃ mv a', (∀ i op, mv = .call i op → l = .call i op) ∧ a.move spec mv = some a' ∧
    Matches code spec Rep s' a'

theorem apply_of_mem (hp : a.phase i = .pending op) (hmem : (v', r) ∈ spec op a.value) :
    ∃ k, a.move spec (.apply i k) = some { a with value := v', phase := update a.phase i (.done r) } := by
  obtain ⟨k, hk⟩ := List.mem_iff_getElem?.mp hmem
  refine ⟨k, ?_⟩
  simp only [Atomic.move, hp, hk, Option.map_some]

/-- An operation takes effect. -/
theorem follows_apply (hp : a.phase i = .pending op) (hmem : (v', r) ∈ spec op a.value) {l : Label ι Op}
    (h : Matches code spec Rep s' { a with value := v', phase := update a.phase i (.done r) }) :
    Follows code spec Rep a l s' := by
  obtain ⟨k, hk⟩ := apply_of_mem hp hmem
  refine .inr ⟨_, _, ?_, hk, h⟩
  intro j op' heq
  cases heq

/-- A statement of a critical section. -/
theorem Matches.inside (h : Matches code spec Rep s a) (hI : Implements code spec Rep Pre)
    (hpc : s.pc i = .inside op l) (hs : s.go code i = some s') : Follows code spec Rep a (.go i) s' := by
  have hholds : (s.pc i).holds := by
    rw [hpc]
    trivial
  have hlock := (h.lock i).mp hholds
  have hothers (v' : Val) (m' : Mem) : ∀ j, j ≠ i → ¬ (s.pc j).holds ∨ v' = a.value ∧ m' = s.mem :=
    fun j hj => .inl (h.alone hholds hj)
  have hkept {pc : Pc Op Ret Loc} (hpc' : pc.holds) (j : ι) : (update s.pc i pc j).holds ↔ s.lock = some j :=
    h.lock_same (iff_of_true hpc' hholds) j
  have hnone {P : Prop} (hfree : s.lock = none) : P := by
    rw [hlock] at hfree
    cases hfree
  have hfits := h.fits i
  rw [hpc] at hfits
  have hsame : a.phase = update a.phase i (a.phase i) := (update_eq_self i a.phase).symm
  simp only [State.go, hpc] at hs
  generalize hp : a.phase i = p at hfits hsame
  cases hfits with
  | before hb =>
    cases hb with
    | next _ hexec hrest =>
      rw [hexec] at hs
      cases hs
      exact .inl (h.thread i rfl hsame h.history (.before hrest) (hothers _ _) (hkept trivial) hnone hrest.sound)
    | effect _ hexec hmem hrest =>
      rw [hexec] at hs
      cases hs
      apply follows_apply hp hmem
      exact h.thread i rfl rfl h.history (.after hrest) (hothers _ _) (hkept trivial) hnone hrest.sound
    | last _ hexec hmem hrep =>
      rw [hexec] at hs
      cases hs
      apply follows_apply hp hmem
      exact h.thread i rfl rfl h.history (.release hrep) (hothers _ _) (hkept trivial) hnone (hI.sound _ _ hrep)
  | after ha =>
    cases ha with
    | next _ hexec hrest =>
      rw [hexec] at hs
      cases hs
      exact .inl (h.thread i rfl hsame h.history (.after hrest) (hothers _ _) (hkept trivial) hnone hrest.sound)
    | last _ hexec hrep =>
      rw [hexec] at hs
      cases hs
      exact .inl (h.thread i rfl hsame h.history (.release hrep) (hothers _ _) (hkept trivial) hnone (hI.sound _ _ hrep))

/-- The steps that leave the memory alone. -/
theorem Matches.outside {pc : Pc Op Ret Loc} {p : Phase Op Ret} {a' : Atomic ι Op Ret Val} {lock : Option ι}
    {history : List (Event ι Op Ret)} (h : Matches code spec Rep s a) (i : ι) (hvalue : a'.value = a.value)
    (hphase : a'.phase = update a.phase i p) (hhistory : history = a'.history)
    (hself : Fits code spec Rep a.value s.mem pc p) (hlock : ∀ j, (update s.pc i pc j).holds ↔ lock = some j)
    (hfree : lock = none → Rep a.value s.mem) :
    Matches code spec Rep { mem := s.mem, lock := lock, pc := update s.pc i pc, history := history } a' := by
  refine h.thread i rfl hphase hhistory (hvalue ▸ hself) ?_ hlock (hvalue ▸ hfree) (hvalue ▸ h.sound)
  intro j _
  exact .inr ⟨hvalue, rfl⟩

theorem Matches.go (h : Matches code spec Rep s a) (hI : Implements code spec Rep Pre)
    (hpre : ∀ i op, a.phase i = .pending op → Pre op a.value) (hs : s.go code i = some s') :
    Follows code spec Rep a (.go i) s' := by
  have hsame : a.phase = update a.phase i (a.phase i) := (update_eq_self i a.phase).symm
  have hkept {pc : Pc Op Ret Loc} (hpc : pc.holds ↔ (s.pc i).holds) (j : ι) :
      (update s.pc i pc j).holds ↔ s.lock = some j :=
    h.lock_same hpc j
  cases hpc : s.pc i with
  | inside op l => exact h.inside hI hpc hs
  | idle =>
    simp only [State.go, hpc] at hs
    cases hs
  | test op =>
    have hfits := h.fits i
    rw [hpc] at hfits hkept
    simp only [State.go, hpc] at hs
    generalize hp : a.phase i = p at hfits hsame
    cases hfits
    split at hs
    · rename_i r hr
      cases hs
      apply follows_apply hp (h.sound op r hr)
      exact h.outside i rfl rfl h.history (.ret r) (hkept Iff.rfl) h.free
    · cases hs
      exact .inl (h.outside i rfl hsame h.history (.acquire op) (hkept Iff.rfl) h.free)
  | acquire op =>
    have hfits := h.fits i
    rw [hpc] at hfits hkept
    simp only [State.go, hpc] at hs
    generalize hp : a.phase i = p at hfits hsame
    cases hfits
    split at hs
    · rename_i hlock
      cases hs
      have hbody := hI.body _ _ op (h.free hlock) (hpre i op hp)
      refine .inl (h.outside i rfl hsame h.history (.before hbody) ?_ ?_)
      · intro j
        by_cases hj : j = i
        · subst hj
          simp [Pc.holds]
        · rw [update_of_ne hj, h.lock j, hlock]
          simp [Ne.symm hj]
      · intro hnone
        cases hnone
    · rename_i r _ hr
      cases hs
      apply follows_apply hp (hI.busy _ _ _ hr)
      exact h.outside i rfl rfl h.history (.ret r) (hkept Iff.rfl) h.free
    · cases hs
  | release r =>
    have hfits := h.fits i
    have hholds : (s.pc i).holds := by
      rw [hpc]
      trivial
    rw [hpc] at hfits
    simp only [State.go, hpc] at hs
    generalize hp : a.phase i = p at hfits hsame
    cases hfits with
    | release hrep =>
      cases hs
      refine .inl (h.outside i rfl hsame h.history (.ret r) ?_ fun _ => hrep)
      intro j
      by_cases hj : j = i
      · subst hj
        simp [Pc.holds]
      · rw [update_of_ne hj]
        simp [h.alone hholds hj]
  | ret r =>
    have hfits := h.fits i
    rw [hpc] at hfits hkept
    simp only [State.go, hpc] at hs
    generalize hp : a.phase i = p at hfits
    cases hfits
    cases hs
    have hmove : a.move spec (.ret i) =
        some { a with phase := update a.phase i .idle, history := a.history ++ [.ret i r] } := by
      simp only [Atomic.move, hp]
    refine .inr ⟨_, _, ?_, hmove, ?_⟩
    · intro j op heq
      cases heq
    · exact h.outside i rfl rfl (by rw [h.history]) .idle (hkept Iff.rfl) h.free

theorem Matches.call (h : Matches code spec Rep s a) (hs : step code s (.call i op) = some s') :
    Follows code spec Rep a (.call i op) s' := by
  simp only [step] at hs
  split at hs
  · rename_i hpc
    have hkept (j : ι) : (update s.pc i (.test op) j).holds ↔ s.lock = some j :=
      h.lock_same (by simp [hpc, Pc.holds]) j
    have hfits := h.fits i
    rw [hpc] at hfits
    generalize hp : a.phase i = p at hfits
    cases hfits
    cases hs
    have hmove : a.move spec (.call i op) =
        some { a with phase := update a.phase i (.pending op), history := a.history ++ [.call i op] } := by
      simp only [Atomic.move, hp]
    refine .inr ⟨_, _, ?_, hmove, ?_⟩
    · intro j op' heq
      cases heq
      rfl
    · exact h.outside i rfl rfl (by rw [h.history]) (.test op) hkept h.free
  · cases hs

/-- **A step of the code is a step of the atomic object, or none.** -/
theorem Matches.step (h : Matches code spec Rep s a) (hI : Implements code spec Rep Pre)
    (hpre : ∀ i op, a.phase i = .pending op → Pre op a.value) {l : Label ι Op} (hs : step code s l = some s') :
    Follows code spec Rep a l s' := by
  cases l with
  | call i op => exact h.call hs
  | go i => exact h.go hI hpre hs

omit [DecidableEq ι] in
theorem matches_start (hI : Implements code spec Rep Pre) (hmem : Rep v s.mem) (hs : Start memStart s) :
    Matches code spec Rep s (⟨v, fun _ => .idle, []⟩ : Atomic ι Op Ret Val) where
  history := hs.2.2.2
  fits i := by
    rw [hs.2.2.1 i]
    exact .idle
  lock i := by
    rw [hs.2.2.1 i, hs.2.1]
    simp [Pc.holds]
  free _ := hmem
  sound := hI.sound _ _ hmem

/-- Where the calls keep to the rule, every pending operation meets its precondition. -/
def Keeps (spec : Op → Val → List (Val × Ret)) (rule : List (Event ι Op Ret) → Op → Prop) (start : Val → Prop)
    (Pre : Op → Val → Prop) : Prop :=
  ∀ a : Atomic ι Op Ret Val, Reach (Atomic.move spec) (Atomic.Allowed rule) (Atomic.Start start) a →
    ∀ i op, a.phase i = .pending op → Pre op a.value

theorem Implements.matched (hI : Implements code spec Rep Pre) (hk : Keeps spec rule start Pre)
    (hstart : ∀ m, memStart m → ∃ v, start v ∧ Rep v m) (h : Reach (step code) (Allowed rule) (Start memStart) s) :
    ∃ a : Atomic ι Op Ret Val, Reach (Atomic.move spec) (Atomic.Allowed rule) (Atomic.Start start) a ∧
      Matches code spec Rep s a := by
  induction h with
  | start hs =>
    obtain ⟨v, hv, hrep⟩ := hstart _ hs.1
    exact ⟨_, .start ⟨hv, fun _ => rfl, rfl⟩, matches_start hI hrep hs⟩
  | next l _ hok hstep ih =>
    obtain ⟨a, ha, hm⟩ := ih
    rcases hm.step hI (hk a ha) hstep with hstay | ⟨mv, a', hcall, hmove, hm'⟩
    · exact ⟨a, ha, hstay⟩
    · refine ⟨a', .next mv ha ?_ hmove, hm'⟩
      intro i op heq
      rw [← hm.history]
      exact hok i op (hcall i op heq)

/-- **Linearizability.**  Every history of the code is explained by an order of its operations, and while the lock is
    free the memory represents the value they lead to. -/
theorem Implements.linearizable (hI : Implements code spec Rep Pre) (hk : Keeps spec rule start Pre)
    (hstart : ∀ m, memStart m → ∃ v, start v ∧ Rep v m) (h : Reach (step code) (Allowed rule) (Start memStart) s) :
    ∃ v o v', start v ∧ Linearizes spec v s.history o v' ∧ (s.lock = none → Rep v' s.mem) := by
  obtain ⟨a, ha, hm⟩ := hI.matched hk hstart h
  obtain ⟨v, o, hv, ho⟩ := Atomic.linearizes ha
  rw [hm.history]
  exact ⟨v, o, a.value, hv, ho, hm.free⟩

/-! ### Leaving the critical section -/

/-- The thread is behind its critical section. -/
def Left (i : ι) (s : State ι Mem Op Ret Loc) : Prop := s.lock = none ∧ ∃ r, s.pc i = .ret r

/-- The thread gets there by itself. -/
def Leaves (code : Code Mem Op Ret Loc) (i : ι) (s : State ι Mem Op Ret Loc) : Prop :=
  ∃ n s', run (step code) s (List.replicate n (.go i)) = some s' ∧ Left i s'

theorem leaves_of_go (hs : s.go code i = some s') (h : Leaves code i s') : Leaves code i s := by
  obtain ⟨n, s'', hrun, hleft⟩ := h
  refine ⟨n + 1, s'', ?_, hleft⟩
  simp only [List.replicate_succ, run, step, hs, Option.bind_some]
  exact hrun

theorem leaves_of_release (hpc : s.pc i = .release r) : Leaves code i s := by
  have hgo : s.go code i = some { s with lock := none, pc := update s.pc i (.ret r) } := by
    simp only [State.go, hpc]
  exact leaves_of_go hgo ⟨0, _, rfl, rfl, r, update_self _ _ _⟩

theorem leaves_of_exec {l' : Loc} (hpc : s.pc i = .inside op l) (hexec : code.exec s.mem l = (m', .inl l'))
    (h : ∀ s' : State ι Mem Op Ret Loc, s'.mem = m' → s'.pc i = .inside op l' → Leaves code i s') : Leaves code i s := by
  have hgo : s.go code i = some { s with mem := m', pc := update s.pc i (.inside op l') } := by
    simp only [State.go, hpc, hexec]
  exact leaves_of_go hgo (h _ rfl (update_self _ _ _))

theorem leaves_of_last (hpc : s.pc i = .inside op l) (hexec : code.exec s.mem l = (m', .inr r)) : Leaves code i s := by
  have hgo : s.go code i = some { s with mem := m', pc := update s.pc i (.release r) } := by
    simp only [State.go, hpc, hexec]
  exact leaves_of_go hgo (leaves_of_release (update_self _ _ _))

theorem After.leaves (h : After code spec Rep v r m l) :
    ∀ s : State ι Mem Op Ret Loc, s.mem = m → s.pc i = .inside op l → Leaves code i s := by
  induction h with
  | next _ hexec _ ih =>
    intro s hmem hpc
    subst hmem
    exact leaves_of_exec hpc hexec ih
  | last _ hexec _ =>
    intro s hmem hpc
    subst hmem
    exact leaves_of_last hpc hexec

theorem Before.leaves (h : Before code spec Rep v op' m l) :
    ∀ s : State ι Mem Op Ret Loc, s.mem = m → s.pc i = .inside op l → Leaves code i s := by
  induction h with
  | next _ hexec _ ih =>
    intro s hmem hpc
    subst hmem
    exact leaves_of_exec hpc hexec ih
  | effect _ hexec _ hrest =>
    intro s hmem hpc
    subst hmem
    exact leaves_of_exec hpc hexec hrest.leaves
  | last _ hexec _ _ =>
    intro s hmem hpc
    subst hmem
    exact leaves_of_last hpc hexec

/-- **The lock is released**: whoever has it needs nobody else to get behind its critical section. -/
theorem Matches.leaves (h : Matches code spec Rep s a) (hlock : s.lock = some i) : Leaves code i s := by
  have hholds := (h.lock i).mpr hlock
  have hfits := h.fits i
  cases hpc : s.pc i with
  | inside op l =>
    rw [hpc] at hfits
    generalize a.phase i = p at hfits
    cases hfits with
    | before hb => exact hb.leaves s rfl hpc
    | after ha => exact ha.leaves s rfl hpc
  | release r => exact leaves_of_release hpc
  | idle | test op | acquire op | ret r =>
    rw [hpc] at hholds
    cases hholds

end Coroc.LockedObject
