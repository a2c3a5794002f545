import Mathlib.Data.Multiset.Count
import Coroc.StealRing
import Coroc.ThreadPool

/-!
# The run queues (`src/vpu.c`: `__runqget`, `__runqput`, `__runqputslow`, `__runqgrab`,
`__runqsteal`, `core_elect`)

Every VPU has a private ring of 512 slots for each priority, and there is one global
queue for each priority behind a lock.  A thread is in one operation at a time; its
place in it, with the values of its local variables, is a `Pc`, and one step is one
load, store or compare-and-swap of a shared variable (or one operation on the global
queue's list, whose lock the thread then holds).

The threads are numbered; those up to `xt` are the VPUs (`xt_index` is `xt + 1`), the
others are async threads, which only add to the global queue (in `vpu_ready`).  An
operation's loads of `runqhead` come with the ghost `pos`, the head not wrapped: it
only serves to say that the head did not come round to the loaded value between the
load and the swap.

The logs `called`, `put` and `returned` are ghosts as well.  A coroutine is `put` when
it becomes visible to others: at the store of the tail, at the swap of the overflow
path (from then on it is in the local array `temp` with the others), or when it is
linked into the global queue.
-/

namespace Coroc.RunQueue

open Coroc.Transition Coroc.StealRing Coroc.ThreadPool

/-- `TSC_TASK_NUM_PERPRIO`. -/
abbrev taskNum : Nat := 512

instance : Capacity taskNum := ⟨by decide, by decide, by decide⟩

structure GlobalQueue (κ : Type) (n : Nat) where
  items : List κ           -- `head` first; `status` is the length
  lock : Option (Fin n)

structure Shared (κ : Type) (n P : Nat) where
  rings : Fin n × Fin P → StealQueue κ
  gq : Fin P → GlobalQueue κ n
  called : Multiset κ
  put : Multiset κ
  returned : Multiset κ

/-- Whom `__runqget` returns to. -/
inductive GetFor where
  | sched
  | elect
deriving DecidableEq

/-- Whom `__runqput` returns to: `vpu_ready`, or the batch fetch of `core_elect`. -/
inductive PutFor (κ : Type) where
  | ready
  | batch (candidate : κ) (maxFetch : Nat)
deriving DecidableEq

inductive Pc (κ : Type) (n : Nat) where
  | idle
  -- `__runqget`
  | getHead (k : GetFor)
  | getTail (k : GetFor) (head : UInt32) (pos : Nat)
  | getSlot (k : GetFor) (head : UInt32) (pos : Nat)
  | getCas (k : GetFor) (head : UInt32) (pos : Nat) (task : κ)
  -- `__runqput`
  | putHead (k : PutFor κ) (task : κ)
  | putTail (k : PutFor κ) (task : κ) (head : UInt32) (pos : Nat)
  | putSlot (k : PutFor κ) (task : κ) (tail : UInt32)
  | putPublish (k : PutFor κ) (task : κ) (tail : UInt32)
  -- `__runqputslow`; from `slowLock` on `temp` has the task as its last element
  | slowLoad (k : PutFor κ) (task : κ) (head : UInt32) (pos num : Nat) (temp : List κ)
  | slowCas (k : PutFor κ) (task : κ) (head : UInt32) (pos num : Nat) (temp : List κ)
  | slowLock (k : PutFor κ) (temp : List κ)
  | slowAdd (k : PutFor κ) (temp : List κ)
  | slowUnlock (k : PutFor κ)
  -- `core_elect`: the global queue
  | electCheck (retry : Nat)
  | electTry (retry : Nat)
  | electMax
  | electPop (candidate : Option κ) (maxFetch : Nat)
  | electUnlock (candidate : Option κ)
  -- `core_elect`: stealing
  | steal (failure : Nat)
  | grabHead (failure : Nat) (victim : Fin n)
  | grabTail (failure : Nat) (victim : Fin n) (head : UInt32) (pos : Nat)
  | grabSlot (failure : Nat) (victim : Fin n) (head : UInt32) (pos num : Nat) (temp : List κ)
  | grabCas (failure : Nat) (victim : Fin n) (head : UInt32) (pos num : Nat) (temp : List κ)
  | stealHead (task : κ) (temp : List κ)
  | stealTail (task : κ) (temp : List κ) (head : UInt32)
  | stealSlot (task : κ) (stored temp : List κ) (tail : UInt32)
  | stealPublish (task : κ) (stored : List κ) (tail : UInt32)
  -- `atomic_queue_add` on the global queue
  | addLock (task : κ)
  | addItem (task : κ)
  | addUnlock
  -- an assertion failed, or a NULL pointer was followed
  | aborted
deriving DecidableEq

structure Local (κ : Type) (n P : Nat) where
  prio : Fin P
  randSeed : Nat
  pc : Pc κ n

/-- The call an idle thread makes; the choice is ignored in the middle of one. -/
inductive Call (κ : Type) (P : Nat) where
  | get (prio : Fin P)
  | elect (prio : Fin P)
  | put (prio : Fin P) (task : κ)
  | add (prio : Fin P) (task : κ)
  | go
deriving DecidableEq

section
variable {κ : Type} {n P : Nat}

def Shared.setRing (s : Shared κ n P) (i : Fin n × Fin P) (r : StealQueue κ) : Shared κ n P :=
  { s with rings := Function.update s.rings i r }

def Shared.setQueue (s : Shared κ n P) (p : Fin P) (q : GlobalQueue κ n) : Shared κ n P :=
  { s with gq := Function.update s.gq p q }

def Shared.logPut (s : Shared κ n P) (task : κ) : Shared κ n P := { s with put := task ::ₘ s.put }

/-- A put by `vpu_ready` takes effect; the batch fetch only moves what was put before. -/
def Shared.logPutFor (s : Shared κ n P) (k : PutFor κ) (task : κ) : Shared κ n P :=
  match k with
  | .ready => s.logPut task
  | .batch _ _ => s

def Local.goto (l : Local κ n P) (pc : Pc κ n) : Local κ n P := { l with pc := pc }

/-- Return a coroutine to the scheduler. -/
def returnTask (s : Shared κ n P) (l : Local κ n P) (task : κ) : Shared κ n P × Local κ n P :=
  ({ s with returned := task ::ₘ s.returned }, l.goto .idle)

/-- Where `__runqget` returns NULL to. -/
def GetFor.onNull : GetFor → Pc κ n
  | .sched => .idle
  | .elect => .electCheck 0

/-- Where `__runqput` returns to. -/
def PutFor.onDone : PutFor κ → Pc κ n
  | .ready => .idle
  | .batch candidate maxFetch => .electPop (some candidate) maxFetch

/-- `__myrand`. -/
def myrand (seed : Nat) : Nat := (69070 * seed) % 4294967291   -- `RNGMUL`, `RNGMOD`

/-- After a steal that found nothing: `failure_time++ > MAX_STEALING_FAIL_NUM`. -/
def onStealNull (xt : Fin n) (failure : Nat) : Pc κ n :=
  if failure > 2 * (xt + 1) then .idle else .steal (failure + 1)

/-- The rest of `core_elect` after the global queue. -/
def afterGlobal (s : Shared κ n P) (l : Local κ n P) : Option κ → Shared κ n P × Local κ n P
  | some task => returnTask s l task
  | none => (s, l.goto (.steal 0))

/-- The rest of `__runqsteal` after a successful `__runqgrab`. -/
def afterGrab (s : Shared κ n P) (l : Local κ n P) (temp : List κ) :
    Shared κ n P × Local κ n P :=
  match temp.getLast? with
  | none => (s, l.goto .aborted)
  | some task =>
      if temp.dropLast.isEmpty then returnTask s l task
      else (s, l.goto (.stealHead task temp.dropLast))

/-- One step of thread `v`. -/
def step (xt v : Fin n) (s : Shared κ n P) (l : Local κ n P) (c : Call κ P) :
    Option (Shared κ n P × Local κ n P) :=
  let own := s.rings (v, l.prio)
  let q := s.gq l.prio
  match l.pc with
  | .idle =>
      match c with
      | .get p => if v ≤ xt then some (s, { l with prio := p, pc := .getHead .sched }) else none
      | .elect p => if v ≤ xt then some (s, { l with prio := p, pc := .getHead .elect }) else none
      | .put p task =>
          if v ≤ xt then
            some ({ s with called := task ::ₘ s.called },
              { l with prio := p, pc := .putHead .ready task })
          else none
      | .add p task =>
          some ({ s with called := task ::ₘ s.called }, { l with prio := p, pc := .addLock task })
      | .go => none
  | .getHead k => some (s, l.goto (.getTail k own.head own.pos))
  | .getTail k head pos =>
      if own.tail = head then some (s, l.goto k.onNull) else some (s, l.goto (.getSlot k head pos))
  | .getSlot k head pos => some (s, l.goto (.getCas k head pos (own.slot taskNum head)))
  | .getCas k head _ task =>
      if own.head = head then some (returnTask (s.setRing (v, l.prio) (own.advance 1)) l task)
      else some (s, l.goto (.getHead k))
  | .putHead k task => some (s, l.goto (.putTail k task own.head own.pos))
  | .putTail k task head pos =>
      if (own.tail - head).toNat < taskNum then some (s, l.goto (.putSlot k task own.tail))
      else
        let num := (own.tail - head).toNat / 2
        -- `assert (n == TSC_TASK_NUM_PERPRIO/2)`
        if num = taskNum / 2 then some (s, l.goto (.slowLoad k task head pos num []))
        else some (s, l.goto .aborted)
  | .putSlot k task tail =>
      some (s.setRing (v, l.prio) (own.store taskNum tail task), l.goto (.putPublish k task tail))
  | .putPublish k task tail =>
      some ((s.setRing (v, l.prio) (own.publish (tail + 1))).logPutFor k task, l.goto k.onDone)
  | .slowLoad k task head pos num temp =>
      let temp' := temp ++ [own.slot taskNum (head + UInt32.ofNat temp.length)]
      if temp'.length < num then some (s, l.goto (.slowLoad k task head pos num temp'))
      else some (s, l.goto (.slowCas k task head pos num temp'))
  | .slowCas k task head _ num temp =>
      if own.head = head then
        some ((s.setRing (v, l.prio) (own.advance num)).logPutFor k task,
          l.goto (.slowLock k (temp ++ [task])))
      else some (s, l.goto (.putHead k task))
  | .slowLock k temp =>
      if q.lock = none then
        some (s.setQueue l.prio { q with lock := some v }, l.goto (.slowAdd k temp))
      else none
  | .slowAdd k temp =>
      some (s.setQueue l.prio { q with items := q.items ++ temp }, l.goto (.slowUnlock k))
  | .slowUnlock k => some (s.setQueue l.prio { q with lock := none }, l.goto k.onDone)
  | .electCheck retry =>
      if q.items.length > 0 ∧ retry < 10 then some (s, l.goto (.electTry (retry + 1)))
      else some (afterGlobal s l none)
  | .electTry retry =>
      if q.lock = none then some (s.setQueue l.prio { q with lock := some v }, l.goto .electMax)
      else some (s, l.goto (.electCheck retry))
  | .electMax => some (s, l.goto (.electPop none (min q.items.length (taskNum - 1))))
  | .electPop candidate maxFetch =>
      match maxFetch with
      | 0 => some (s, l.goto (.electUnlock candidate))
      | m + 1 =>
          match q.items with
          | [] => some (s, l.goto .aborted)
          | kitem :: rest =>
              let s' := s.setQueue l.prio { q with items := rest }
              match candidate with
              | none => some (s', l.goto (.electPop (some kitem) m))
              | some task => some (s', l.goto (.putHead (.batch task m) kitem))
  | .electUnlock candidate => some (afterGlobal (s.setQueue l.prio { q with lock := none }) l candidate)
  | .steal failure =>
      let seed := myrand l.randSeed
      let l := { l with randSeed := seed }
      let victim : Fin n := ⟨seed % (xt + 1), Nat.lt_of_le_of_lt
        (Nat.le_of_lt_succ (Nat.mod_lt _ (Nat.succ_pos _))) xt.isLt⟩
      if victim = v then some (s, l.goto (onStealNull xt failure))
      else some (s, l.goto (.grabHead failure victim))
  | .grabHead failure victim =>
      let r := s.rings (victim, l.prio)
      some (s, l.goto (.grabTail failure victim r.head r.pos))
  | .grabTail failure victim head pos =>
      let r := s.rings (victim, l.prio)
      let num := (r.tail - head).toNat - (r.tail - head).toNat / 2
      if num = 0 then some (s, l.goto (onStealNull xt failure))
      else if num > taskNum / 2 then some (s, l.goto (.grabHead failure victim))
      else some (s, l.goto (.grabSlot failure victim head pos num []))
  | .grabSlot failure victim head pos num temp =>
      let r := s.rings (victim, l.prio)
      let temp' := temp ++ [r.slot taskNum (head + UInt32.ofNat temp.length)]
      if temp'.length < num then some (s, l.goto (.grabSlot failure victim head pos num temp'))
      else some (s, l.goto (.grabCas failure victim head pos num temp'))
  | .grabCas failure victim head _ num temp =>
      let r := s.rings (victim, l.prio)
      if r.head = head then some (afterGrab (s.setRing (victim, l.prio) (r.advance num)) l temp)
      else some (s, l.goto (.grabHead failure victim))
  | .stealHead task temp => some (s, l.goto (.stealTail task temp own.head))
  | .stealTail task temp head =>
      -- `assert (tail - head + n < TSC_TASK_NUM_PERPRIO)`
      if (own.tail - head + UInt32.ofNat temp.length).toNat < taskNum then
        some (s, l.goto (.stealSlot task [] temp own.tail))
      else some (s, l.goto .aborted)
  | .stealSlot task stored temp tail =>
      match temp with
      | [] => some (s, l.goto (.stealPublish task stored tail))
      | c :: rest =>
          some (s.setRing (v, l.prio) (own.store taskNum tail c),
            l.goto (.stealSlot task (stored ++ [c]) rest (tail + 1)))
  | .stealPublish task _ tail =>
      some (returnTask (s.setRing (v, l.prio) (own.publish tail)) l task)
  | .addLock task =>
      if q.lock = none then some (s.setQueue l.prio { q with lock := some v }, l.goto (.addItem task))
      else none
  | .addItem task =>
      some ((s.setQueue l.prio { q with items := q.items ++ [task] }).logPut task, l.goto .addUnlock)
  | .addUnlock => some (s.setQueue l.prio { q with lock := none }, l.goto .idle)
  | .aborted => none

abbrev State (κ : Type) (n P : Nat) := Pool (Fin n) (Shared κ n P) (Local κ n P)

/-- Empty queues, all rings with head and tail at some value, nobody in an operation. -/
def Init (s : State κ n P) : Prop :=
  (∀ i, (s.shared.rings i).tail = (s.shared.rings i).head ∧
    (s.shared.rings i).head = UInt32.ofNat (s.shared.rings i).pos) ∧
  (∀ p, (s.shared.gq p).items = [] ∧ (s.shared.gq p).lock = none) ∧
  (∀ v, (s.locals v).pc = .idle) ∧
  s.shared.called = 0 ∧ s.shared.put = 0 ∧ s.shared.returned = 0

/-! ### Where a coroutine can be -/

/-- What the batch fetch has in its variables while it puts an item into the ring. -/
def PutFor.carried (k : PutFor κ) (task : κ) : Multiset κ :=
  match k with
  | .ready => 0
  | .batch candidate _ => {task, candidate}

/-- The argument of a put by `vpu_ready` that nobody else can see yet. -/
def PutFor.calling (k : PutFor κ) (task : κ) : Multiset κ :=
  match k with
  | .ready => {task}
  | .batch _ _ => 0

def PutFor.held : PutFor κ → Multiset κ
  | .ready => 0
  | .batch candidate _ => {candidate}

/-- The coroutines in the local variables of an operation that has taken them out of
    a queue: the array `temp` after a successful swap, and what a batch fetch has
    unlinked. -/
def Pc.held : Pc κ n → Multiset κ
  | .putHead k task | .putTail k task _ _ | .putSlot k task _ | .putPublish k task _
  | .slowLoad k task _ _ _ _ | .slowCas k task _ _ _ _ => k.carried task
  | .slowLock k temp | .slowAdd k temp => k.held + temp
  | .slowUnlock k => k.held
  | .electPop candidate _ | .electUnlock candidate => candidate.toList
  | .stealHead task temp | .stealTail task temp _ => task ::ₘ temp
  | .stealSlot task stored temp _ => task ::ₘ ↑(stored ++ temp)
  | .stealPublish task stored _ => task ::ₘ stored
  | _ => 0

/-- The argument of a put that has been called and is not visible yet. -/
def Pc.calling : Pc κ n → Multiset κ
  | .putHead k task | .putTail k task _ _ | .putSlot k task _ | .putPublish k task _
  | .slowLoad k task _ _ _ _ | .slowCas k task _ _ _ _ => k.calling task
  | .addLock task | .addItem task => {task}
  | _ => 0

/-- All ring windows `[runqhead, runqtail)`. -/
def Shared.windows (s : Shared κ n P) : Multiset κ :=
  ∑ i, ((s.rings i).window taskNum : Multiset κ)

/-- All global queues. -/
def Shared.globals (s : Shared κ n P) : Multiset κ := ∑ p, ((s.gq p).items : Multiset κ)

/-- Everything returned or in a queue. -/
def Shared.stock (s : Shared κ n P) : Multiset κ := s.returned + s.windows + s.globals

/-! ### What an operation knows at each of its places -/

/-- The batch fetch holds the lock, has that many items left to unlink, and room in
    the ring for them and for the item it is putting. -/
def PutFor.Room (k : PutFor κ) (v : Fin n) (q : GlobalQueue κ n) (own : StealQueue κ) : Prop :=
  match k with
  | .ready => True
  | .batch _ m => q.lock = some v ∧ m ≤ q.items.length ∧ own.len + m + 1 ≤ 510

/-- A bound on what the put finds in the ring. -/
def PutFor.bound : PutFor κ → Nat
  | .ready => 512
  | .batch _ m => 509 - m

def At (v : Fin n) (l : Local κ n P) (s : Shared κ n P) : Prop :=
  let own := s.rings (v, l.prio)
  let q := s.gq l.prio
  let theirs := fun victim => s.rings (victim, l.prio)
  match l.pc with
  | .idle | .getHead _ | .addLock _ => True
  | .getTail _ head pos => Loaded own head pos 512
  | .getSlot _ head pos => Seen taskNum own head pos 1 []
  | .getCas _ head pos task => Seen taskNum own head pos 1 [task]
  | .putHead k _ => k.Room v q own
  | .putTail k _ head pos => k.Room v q own ∧ Loaded own head pos k.bound
  | .putSlot k _ tail => k.Room v q own ∧ own.tail = tail ∧ own.len < 512
  | .putPublish k task tail =>
      k.Room v q own ∧ own.tail = tail ∧ own.Staged taskNum [task]
  -- the batch fetch never overflows the ring, so the overflow path is `vpu_ready`'s
  | .slowLoad k _ head pos num temp =>
      k = .ready ∧ num = 256 ∧ temp.length < num ∧ Seen taskNum own head pos num temp
  | .slowCas k _ head pos num temp =>
      k = .ready ∧ num = 256 ∧ temp.length = num ∧ Seen taskNum own head pos num temp
  | .slowLock k _ => k = .ready
  | .slowAdd k _ | .slowUnlock k => k = .ready ∧ q.lock = some v
  -- `core_elect` begins by finding its own ring empty, and nobody else fills it
  | .electCheck _ | .electTry _ | .steal _ | .grabHead _ _ => own.len = 0
  | .electMax => own.len = 0 ∧ q.lock = some v
  | .electPop none m => own.len = 0 ∧ q.lock = some v ∧ m ≤ q.items.length ∧ m ≤ 511
  | .electPop (some _) m => q.lock = some v ∧ m ≤ q.items.length ∧ own.len + m ≤ 510
  | .electUnlock none => own.len = 0 ∧ q.lock = some v
  | .electUnlock (some _) => q.lock = some v
  | .grabTail _ victim head pos =>
      own.len = 0 ∧ Seen taskNum (theirs victim) head pos 0 []
  | .grabSlot _ victim head pos num temp =>
      own.len = 0 ∧ num ≤ 256 ∧ temp.length < num ∧ Seen taskNum (theirs victim) head pos num temp
  | .grabCas _ victim head pos num temp =>
      own.len = 0 ∧ num ≤ 256 ∧ 0 < num ∧ temp.length = num ∧
        Seen taskNum (theirs victim) head pos num temp
  | .stealHead _ temp => own.len = 0 ∧ temp.length < 256
  | .stealTail _ temp head => own.len = 0 ∧ temp.length < 256 ∧ own.tail = head
  | .stealSlot _ stored temp tail =>
      own.len = 0 ∧ stored.length + temp.length < 256 ∧ own.Staged taskNum stored ∧
        tail = own.tail + UInt32.ofNat stored.length
  | .stealPublish _ stored tail =>
      own.Staged taskNum stored ∧ tail = own.tail + UInt32.ofNat stored.length
  | .addItem _ | .addUnlock => q.lock = some v
  | .aborted => False

def RingsValid (s : Shared κ n P) : Prop := ∀ i, (s.rings i).Valid taskNum

/-- What a step of thread `v` does to the others. -/
structure Guar (v : Fin n) (s s' : Shared κ n P) : Prop where
  moves : ∀ i, Moves taskNum (s.rings i) (s'.rings i)
  shrinks : ∀ u p, u ≠ v → Shrinks (s.rings (u, p)) (s'.rings (u, p))
  locked : ∀ u p, u ≠ v → (s.gq p).lock = some u → s'.gq p = s.gq p

theorem PutFor.Room.stable {k : PutFor κ} {u v : Fin n} {s s' : Shared κ n P} {p : Fin P}
    (hne : v ≠ u) (hG : Guar v s s') (h : k.Room u (s.gq p) (s.rings (u, p))) :
    k.Room u (s'.gq p) (s'.rings (u, p)) := by
  cases k with
  | ready => trivial
  | batch c m =>
    obtain ⟨hlock, hm, hroom⟩ := h
    have hlen := (hG.shrinks u p (Ne.symm hne)).len_le
    rw [PutFor.Room, hG.locked u p (Ne.symm hne) hlock]
    exact ⟨hlock, hm, by omega⟩

/-- No step of another thread invalidates what an operation knows. -/
theorem At.stable {v u : Fin n} {s s' : Shared κ n P} {l : Local κ n P} (hne : v ≠ u)
    (h : At u l s) (hG : Guar v s s') : At u l s' := by
  have hshr := hG.shrinks u l.prio (Ne.symm hne)
  have hmov := fun i => hG.moves i
  have hlen := hshr.len_le
  have htail := hshr.tail_eq
  have hq := hG.locked u l.prio (Ne.symm hne)
  unfold At at h ⊢
  cases hpc : l.pc <;> simp only [hpc] at h ⊢
  case getTail k head pos => exact h.shrink hshr
  case getSlot k head pos => exact h.moves (hmov _)
  case getCas k head pos task => exact h.moves (hmov _)
  case putHead k task => exact h.stable hne hG
  case putTail k task head pos => exact ⟨h.1.stable hne hG, h.2.shrink hshr⟩
  case putSlot k task tail => exact ⟨h.1.stable hne hG, htail.trans h.2.1, by omega⟩
  case putPublish k task tail =>
    exact ⟨h.1.stable hne hG, htail.trans h.2.1, h.2.2.shrink hshr⟩
  case slowLoad k task head pos num temp =>
    exact ⟨h.1, h.2.1, h.2.2.1, h.2.2.2.moves (hmov _)⟩
  case slowCas k task head pos num temp =>
    exact ⟨h.1, h.2.1, h.2.2.1, h.2.2.2.moves (hmov _)⟩
  case slowLock k temp => exact h
  case slowAdd k temp => exact ⟨h.1, by rw [hq h.2]; exact h.2⟩
  case slowUnlock k => exact ⟨h.1, by rw [hq h.2]; exact h.2⟩
  case electCheck retry => omega
  case electTry retry => omega
  case steal failure => omega
  case grabHead failure victim => omega
  case electMax => exact ⟨by omega, by rw [hq h.2]; exact h.2⟩
  case electPop candidate m =>
    cases candidate with
    | none => rw [hq h.2.1]; exact ⟨by omega, h.2⟩
    | some c => rw [hq h.1]; exact ⟨h.1, h.2.1, by have := h.2.2; omega⟩
  case electUnlock candidate =>
    cases candidate with
    | none => exact ⟨by omega, by rw [hq h.2]; exact h.2⟩
    | some c => rw [hq h]; exact h
  case grabTail failure victim head pos => exact ⟨by omega, h.2.moves (hmov _)⟩
  case grabSlot failure victim head pos num temp =>
    exact ⟨by omega, h.2.1, h.2.2.1, h.2.2.2.moves (hmov _)⟩
  case grabCas failure victim head pos num temp =>
    exact ⟨by omega, h.2.1, h.2.2.1, h.2.2.2.1, h.2.2.2.2.moves (hmov _)⟩
  case stealHead task temp => exact ⟨by omega, h.2⟩
  case stealTail task temp head => exact ⟨by omega, h.2.1, htail.trans h.2.2⟩
  case stealSlot task stored temp tail =>
    exact ⟨by omega, h.2.1, h.2.2.1.shrink hshr, by rw [htail]; exact h.2.2.2⟩
  case stealPublish task stored tail =>
    exact ⟨h.1.shrink hshr, by rw [htail]; exact h.2⟩
  case addItem task => rw [hq h]; exact h
  case addUnlock => rw [hq h]; exact h

/-! ### One step of one thread -/

/-- A step moves coroutines between the queues and the operation's variables, and
    between a caller and the queues: nothing is made or lost. -/
structure Moved (s : Shared κ n P) (l : Local κ n P) (s' : Shared κ n P) (l' : Local κ n P) :
    Prop where
  stock : ∃ d, s'.put = s.put + d ∧ s'.stock + l'.pc.held = s.stock + l.pc.held + d
  calling : ∃ d, s'.called = s.called + d ∧
    s'.put + l'.pc.calling = s.put + l.pc.calling + d

/-- What is shown of every step. -/
structure StepOk (v : Fin n) (s : Shared κ n P) (l : Local κ n P) (s' : Shared κ n P)
    (l' : Local κ n P) : Prop where
  valid : RingsValid s'
  place : At v l' s'
  guar : Guar v s s'
  moved : Moved s l s' l'

theorem Guar.refl (v : Fin n) (s : Shared κ n P) : Guar v s s :=
  ⟨fun _ => Moves.refl _, fun _ _ _ => Shrinks.refl _, fun _ _ _ _ => rfl⟩

theorem guar_setRing_own {v : Fin n} {s : Shared κ n P} {p : Fin P} {r : StealQueue κ}
    (hm : Moves taskNum (s.rings (v, p)) r) : Guar v s (s.setRing (v, p) r) := by
  refine ⟨fun i => ?_, fun u p' hne => ?_, fun _ _ _ _ => rfl⟩
  · by_cases hi : i = (v, p)
    · subst hi; simpa [Shared.setRing] using hm
    · simpa [Shared.setRing, hi] using Moves.refl _
  · have hi : (u, p') ≠ (v, p) := fun h => hne (congrArg Prod.fst h)
    simpa [Shared.setRing, hi] using Shrinks.refl _

theorem guar_advance {v : Fin n} {s : Shared κ n P} (i : Fin n × Fin P) {num : Nat}
    (h0 : 0 < num) (hnum : num ≤ (s.rings i).len) :
    Guar v s (s.setRing i ((s.rings i).advance num)) := by
  refine ⟨fun j => ?_, fun u p' _ => ?_, fun _ _ _ _ => rfl⟩
  · by_cases hj : j = i
    · subst hj; simpa [Shared.setRing] using advance_moves h0
    · simpa [Shared.setRing, hj] using Moves.refl _
  · by_cases hj : (u, p') = i
    · subst hj; simpa [Shared.setRing] using advance_shrinks hnum
    · simpa [Shared.setRing, hj] using Shrinks.refl _

theorem guar_setQueue {v : Fin n} {s : Shared κ n P} {p : Fin P} {q : GlobalQueue κ n}
    (hlock : (s.gq p).lock = none ∨ (s.gq p).lock = some v) : Guar v s (s.setQueue p q) := by
  refine ⟨fun _ => Moves.refl _, fun _ _ _ => Shrinks.refl _, fun u p' hne hl => ?_⟩
  by_cases hp : p' = p
  · subst hp
    rw [hl] at hlock
    rcases hlock with h | h
    · cases h
    · exact absurd (Option.some.inj h) hne
  · simp [Shared.setQueue, hp]

theorem valid_setRing {s : Shared κ n P} (hI : RingsValid s) {i : Fin n × Fin P} {r : StealQueue κ}
    (hr : r.Valid taskNum) : RingsValid (s.setRing i r) := by
  intro j
  by_cases hj : j = i
  · subst hj; simpa [Shared.setRing] using hr
  · simpa [Shared.setRing, hj] using hI j

theorem stock_setRing (s : Shared κ n P) (i : Fin n × Fin P) (r : StealQueue κ) :
    (s.setRing i r).stock + ((s.rings i).window taskNum : Multiset κ) =
      s.stock + (r.window taskNum : Multiset κ) := by
  have h := sum_update (fun r : StealQueue κ => (r.window taskNum : Multiset κ)) s.rings i r
  have hw : (s.setRing i r).windows + ((s.rings i).window taskNum : Multiset κ) =
      s.windows + (r.window taskNum : Multiset κ) := h
  calc s.returned + (s.setRing i r).windows + s.globals + ((s.rings i).window taskNum : Multiset κ)
      = s.returned + ((s.setRing i r).windows + ((s.rings i).window taskNum : Multiset κ)) +
          s.globals := by abel
    _ = s.returned + s.windows + s.globals + (r.window taskNum : Multiset κ) := by rw [hw]; abel

theorem stock_setQueue (s : Shared κ n P) (p : Fin P) (q : GlobalQueue κ n) :
    (s.setQueue p q).stock + ((s.gq p).items : Multiset κ) = s.stock + (q.items : Multiset κ) := by
  have hq : (s.setQueue p q).globals + ((s.gq p).items : Multiset κ) =
      s.globals + (q.items : Multiset κ) :=
    sum_update (fun q : GlobalQueue κ n => (q.items : Multiset κ)) s.gq p q
  calc s.returned + s.windows + (s.setQueue p q).globals + ((s.gq p).items : Multiset κ)
      = s.returned + s.windows + ((s.setQueue p q).globals + ((s.gq p).items : Multiset κ)) := by abel
    _ = s.returned + s.windows + s.globals + (q.items : Multiset κ) := by rw [hq]; abel

/-- Steps that only change the operation's own variables. -/
theorem StepOk.of_local {v : Fin n} {s : Shared κ n P} {l l' : Local κ n P} (hI : RingsValid s)
    (hat : At v l' s) (hheld : l'.pc.held = l.pc.held) (hcall : l'.pc.calling = l.pc.calling) :
    StepOk v s l s l' :=
  ⟨hI, hat, Guar.refl v s, ⟨⟨0, by simp, by rw [hheld, add_zero]⟩, ⟨0, by simp, by rw [hcall, add_zero]⟩⟩⟩

/-- Steps that change the list of the global queue by no coroutine. -/
theorem stock_lock (s : Shared κ n P) (p : Fin P) (o : Option (Fin n)) :
    (s.setQueue p { s.gq p with lock := o }).stock = s.stock :=
  add_right_cancel (stock_setQueue s p { s.gq p with lock := o })

@[simp] theorem setRing_rings_self (s : Shared κ n P) (i : Fin n × Fin P) (r : StealQueue κ) :
    (s.setRing i r).rings i = r := by simp [Shared.setRing]

@[simp] theorem setRing_gq (s : Shared κ n P) (i : Fin n × Fin P) (r : StealQueue κ) :
    (s.setRing i r).gq = s.gq := rfl

@[simp] theorem setQueue_gq_self (s : Shared κ n P) (p : Fin P) (q : GlobalQueue κ n) :
    (s.setQueue p q).gq p = q := by simp [Shared.setQueue]

@[simp] theorem setQueue_rings (s : Shared κ n P) (p : Fin P) (q : GlobalQueue κ n) :
    (s.setQueue p q).rings = s.rings := rfl

@[simp] theorem goto_pc (l : Local κ n P) (pc : Pc κ n) : (l.goto pc).pc = pc := rfl
@[simp] theorem goto_prio (l : Local κ n P) (pc : Pc κ n) : (l.goto pc).prio = l.prio := rfl

/-- The head is not swapped after it has come round to the value loaded before. -/
def NoWrap (v : Fin n) (s : Shared κ n P) (l : Local κ n P) : Prop :=
  let intact := fun (r : StealQueue κ) (pos : Nat) => r.pos = pos ∨ (r.pos - pos) % 4294967296 ≠ 0
  match l.pc with
  | .getCas _ _ pos _ | .slowCas _ _ _ pos _ _ => intact (s.rings (v, l.prio)) pos
  | .grabCas _ victim _ pos _ _ => intact (s.rings (victim, l.prio)) pos
  | _ => True

/-- A successful swap of any head takes the items read out of the ring. -/
theorem swap_ok {v : Fin n} {s : Shared κ n P} (hI : RingsValid s) {i : Fin n × Fin P}
    {head : UInt32} {pos num : Nat} {temp : List κ} (h0 : 0 < num)
    (hseen : Seen taskNum (s.rings i) head pos num temp) (hlen : temp.length = num)
    (hcas : (s.rings i).head = head)
    (hw : (s.rings i).pos = pos ∨ ((s.rings i).pos - pos) % 4294967296 ≠ 0) :
    let s' := s.setRing i ((s.rings i).advance num)
    RingsValid s' ∧ Guar v s s' ∧ s'.stock + (temp : Multiset κ) = s.stock := by
  obtain ⟨hnum, hwin⟩ := hseen.swap (hI i) hlen hcas hw
  refine ⟨valid_setRing hI (advance_valid (hI i) hnum), guar_advance i h0 hnum, ?_⟩
  have hstock := stock_setRing s i ((s.rings i).advance num)
  rw [hwin, ← Multiset.coe_add] at hstock
  refine add_right_cancel (b := (((s.rings i).advance num).window taskNum : Multiset κ)) ?_
  rw [add_assoc]
  exact hstock

/-- The owner's store behind its tail changes no window. -/
theorem store_ok {v : Fin n} {s : Shared κ n P} (hI : RingsValid s) {p : Fin P} {j : Nat}
    (hj : (s.rings (v, p)).len + j < 512) (c : κ) :
    let r := s.rings (v, p)
    let s' := s.setRing (v, p) (r.store taskNum (r.tail + UInt32.ofNat j) c)
    RingsValid s' ∧ Guar v s s' ∧ s'.stock = s.stock := by
  refine ⟨valid_setRing hI (store_valid (hI _) _ _), guar_setRing_own (store_moves hj c), ?_⟩
  have hstock := stock_setRing s (v, p)
    ((s.rings (v, p)).store taskNum ((s.rings (v, p)).tail + UInt32.ofNat j) c)
  rw [store_window hj] at hstock
  exact add_right_cancel hstock

/-- The owner's store of its tail makes the staged items visible. -/
theorem publish_ok {v : Fin n} {s : Shared κ n P} (hI : RingsValid s) {p : Fin P} {items : List κ}
    (hst : (s.rings (v, p)).Staged taskNum items) :
    let r := s.rings (v, p)
    let s' := s.setRing (v, p) (r.publish (r.tail + UInt32.ofNat items.length))
    RingsValid s' ∧ Guar v s s' ∧ s'.stock = s.stock + (items : Multiset κ) := by
  obtain ⟨hvalid, hwin⟩ := hst.publish (hI _)
  refine ⟨valid_setRing hI hvalid, guar_setRing_own (hst.publish_moves (hI _)), ?_⟩
  have hstock := stock_setRing s (v, p)
    ((s.rings (v, p)).publish ((s.rings (v, p)).tail + UInt32.ofNat items.length))
  rw [hwin, ← Multiset.coe_add] at hstock
  refine add_right_cancel (b := ((s.rings (v, p)).window taskNum : Multiset κ)) ?_
  rw [hstock]
  abel

theorem stock_return (s : Shared κ n P) (task : κ) :
    Shared.stock { s with returned := task ::ₘ s.returned } = task ::ₘ s.stock := by
  simp only [Shared.stock, Shared.windows, Shared.globals, Multiset.cons_add]

theorem stock_logPut (s : Shared κ n P) (task : κ) : (s.logPut task).stock = s.stock := rfl

/-- Handing a coroutine to the scheduler ends an operation. -/
theorem StepOk.of_return {v : Fin n} {s s₁ : Shared κ n P} {l : Local κ n P} {task : κ}
    (hI : RingsValid s₁) (hG : Guar v s s₁) (hput : s₁.put = s.put) (hcalled : s₁.called = s.called)
    (hstock : task ::ₘ s₁.stock = s.stock + l.pc.held) (hcall : l.pc.calling = 0) :
    StepOk v s l (returnTask s₁ l task).1 (returnTask s₁ l task).2 := by
  refine ⟨hI, trivial, ⟨hG.moves, hG.shrinks, hG.locked⟩, ⟨⟨0, ?_, ?_⟩, ⟨0, ?_, ?_⟩⟩⟩
  · simpa [returnTask] using hput
  · simpa [returnTask, stock_return, Pc.held] using hstock
  · simpa [returnTask] using hcalled
  · rw [hcall]
    simpa [returnTask, Pc.calling] using hput

/-! ### `__runqget` -/

theorem step_getTail {v : Fin n} {s s' : Shared κ n P} {l l' : Local κ n P} {k : GetFor}
    {head : UInt32} {pos : Nat} {xt : Fin n} {c : Call κ P} (hI : RingsValid s)
    (hpc : l.pc = .getTail k head pos) (h : Loaded (s.rings (v, l.prio)) head pos 512)
    (hs : step xt v s l c = some (s', l')) : StepOk v s l s' l' := by
  simp only [step, hpc] at hs
  split at hs <;> simp only [Option.some.injEq, Prod.mk.injEq] at hs <;> obtain ⟨rfl, rfl⟩ := hs
  · rename_i heq
    have hlen : (s.rings (v, l.prio)).len = 0 := by
      have := h.len_le
      rw [heq, UInt32.sub_self] at this
      simpa using this
    cases k with
    | sched => exact .of_local hI trivial (by rw [hpc]; rfl) (by rw [hpc]; rfl)
    | elect => exact .of_local hI hlen (by rw [hpc]; rfl) (by rw [hpc]; rfl)
  · rename_i hne
    refine .of_local hI ?_ (by rw [hpc]; rfl) (by rw [hpc]; rfl)
    exact h.seen (sub_toNat_pos hne)

theorem step_getCas {v : Fin n} {s : Shared κ n P} {l : Local κ n P} {k : GetFor} {head : UInt32}
    {pos : Nat} {task : κ} (hI : RingsValid s) (hpc : l.pc = .getCas k head pos task)
    (h : Seen taskNum (s.rings (v, l.prio)) head pos 1 [task])
    (hw : (s.rings (v, l.prio)).pos = pos ∨ ((s.rings (v, l.prio)).pos - pos) % 4294967296 ≠ 0)
    (hcas : (s.rings (v, l.prio)).head = head) :
    let r := returnTask (s.setRing (v, l.prio) ((s.rings (v, l.prio)).advance 1)) l task
    StepOk v s l r.1 r.2 := by
  obtain ⟨hI', hG, hstock⟩ := swap_ok (v := v) hI Nat.one_pos h rfl hcas hw
  have hheld : l.pc.held = 0 := by rw [hpc]; rfl
  refine .of_return hI' hG rfl rfl ?_ (by rw [hpc]; rfl)
  rw [hheld, ← hstock, add_zero, ← Multiset.singleton_add, add_comm]
  rfl

/-! ### `__runqput` and `__runqputslow` -/

theorem step_putHead {v : Fin n} {s : Shared κ n P} {l : Local κ n P} {k : PutFor κ} {task : κ}
    (hI : RingsValid s) (hpc : l.pc = .putHead k task)
    (h : k.Room v (s.gq l.prio) (s.rings (v, l.prio))) :
    StepOk v s l s (l.goto (.putTail k task (s.rings (v, l.prio)).head (s.rings (v, l.prio)).pos)) := by
  refine .of_local hI ⟨h, loaded_of_valid (hI _) ?_⟩ (by rw [hpc]; rfl) (by rw [hpc]; rfl)
  cases k with
  | ready => exact (hI _).len_le
  | batch c m =>
    have := h.2.2
    show (s.rings (v, l.prio)).len ≤ 509 - m
    omega

theorem step_putTail {v : Fin n} {s s' : Shared κ n P} {l l' : Local κ n P} {k : PutFor κ} {task : κ}
    {head : UInt32} {pos : Nat} {xt : Fin n} {c : Call κ P} (hI : RingsValid s)
    (hpc : l.pc = .putTail k task head pos)
    (hroom : k.Room v (s.gq l.prio) (s.rings (v, l.prio)))
    (h : Loaded (s.rings (v, l.prio)) head pos k.bound)
    (hs : step xt v s l c = some (s', l')) : StepOk v s l s' l' := by
  have hlen := h.len_le
  have hdist := h.dist_le
  simp only [step, hpc] at hs
  split at hs
  · rename_i hlt
    simp only [Option.some.injEq, Prod.mk.injEq] at hs
    obtain ⟨rfl, rfl⟩ := hs
    exact .of_local hI ⟨hroom, rfl, Nat.lt_of_le_of_lt hlen hlt⟩ (by rw [hpc]; rfl)
      (by rw [hpc]; rfl)
  · -- the ring is full: the distance is exactly 512, and the put is `vpu_ready`'s
    rename_i hge
    simp only [taskNum] at hge
    cases k with
    | batch c m => simp only [PutFor.bound] at hdist; omega
    | ready =>
      simp only [PutFor.bound] at hdist
      have hfull : ((s.rings (v, l.prio)).tail - head).toNat = 512 := by omega
      rw [hfull, if_pos (by decide)] at hs
      simp only [Option.some.injEq, Prod.mk.injEq] at hs
      obtain ⟨rfl, rfl⟩ := hs
      exact .of_local hI ⟨rfl, rfl, by simp, h.seen (by rw [hfull]; decide)⟩
        (by rw [hpc]; rfl) (by rw [hpc]; rfl)

theorem step_putSlot {v : Fin n} {s : Shared κ n P} {l : Local κ n P} {k : PutFor κ} {task : κ}
    {tail : UInt32} (hI : RingsValid s) (hpc : l.pc = .putSlot k task tail)
    (hroom : k.Room v (s.gq l.prio) (s.rings (v, l.prio)))
    (htail : (s.rings (v, l.prio)).tail = tail) (hlen : (s.rings (v, l.prio)).len < 512) :
    StepOk v s l (s.setRing (v, l.prio) ((s.rings (v, l.prio)).store taskNum tail task))
      (l.goto (.putPublish k task tail)) := by
  have htail0 : tail = (s.rings (v, l.prio)).tail + UInt32.ofNat 0 := by rw [htail]; simp
  obtain ⟨hI', hG, hstock⟩ := store_ok (v := v) hI (p := l.prio) (j := 0) (by simpa using hlen) task
  rw [← htail0] at hI' hG hstock
  have hst := (staged_nil (hI (v, l.prio))).store (by simpa using hlen) task
  rw [show ([] : List κ).length = 0 from rfl, ← htail0] at hst
  refine ⟨hI', ⟨?_, ?_, ?_⟩, hG, ⟨⟨0, by simp [Shared.setRing], ?_⟩, ⟨0, by simp [Shared.setRing], ?_⟩⟩⟩
  · cases k with
    | ready => trivial
    | batch c m => simpa [PutFor.Room] using hroom
  · simpa using htail
  · simpa using hst
  · rw [hstock, hpc, add_zero]; rfl
  · rw [hpc, add_zero]; rfl

theorem step_putPublish {v : Fin n} {s : Shared κ n P} {l : Local κ n P} {k : PutFor κ} {task : κ}
    {tail : UInt32} (hI : RingsValid s) (hpc : l.pc = .putPublish k task tail)
    (hroom : k.Room v (s.gq l.prio) (s.rings (v, l.prio)))
    (htail : (s.rings (v, l.prio)).tail = tail)
    (hst : (s.rings (v, l.prio)).Staged taskNum [task]) :
    StepOk v s l
      ((s.setRing (v, l.prio) ((s.rings (v, l.prio)).publish (tail + 1))).logPutFor k task)
      (l.goto k.onDone) := by
  obtain ⟨hI', hG, hstock⟩ := publish_ok (v := v) hI hst
  have hplen := publish_len (N := taskNum) hst.room
  rw [htail, show ([task] : List κ).length = 1 from rfl, show UInt32.ofNat 1 = 1 from rfl]
    at hI' hG hstock hplen
  cases k with
  | ready =>
    refine ⟨hI', trivial, ⟨hG.moves, hG.shrinks, hG.locked⟩, ⟨⟨{task}, ?_, ?_⟩, ⟨0, ?_, ?_⟩⟩⟩
    · show task ::ₘ s.put = s.put + {task}
      rw [← Multiset.singleton_add, add_comm]
    · rw [hpc]
      show Shared.stock _ + 0 = s.stock + 0 + {task}
      rw [add_zero, add_zero]
      exact hstock
    · exact (add_zero _).symm
    · rw [hpc]
      show task ::ₘ s.put + 0 = s.put + {task} + 0
      rw [← Multiset.singleton_add]
      abel
  | batch c m =>
    obtain ⟨hlock, hm, hlen⟩ := hroom
    refine ⟨hI', ?_, ⟨hG.moves, hG.shrinks, hG.locked⟩, ⟨⟨0, (add_zero _).symm, ?_⟩,
      ⟨0, (add_zero _).symm, ?_⟩⟩⟩
    · refine ⟨hlock, hm, ?_⟩
      show ((s.setRing (v, l.prio) _).rings (v, l.prio)).len + m ≤ 510
      rw [setRing_rings_self, hplen]
      omega
    · rw [hpc]
      show Shared.stock (s.setRing _ _) + {c} = s.stock + (task ::ₘ {c}) + 0
      rw [hstock, ← Multiset.singleton_add, Multiset.coe_singleton]
      abel
    · rw [hpc]; exact (add_zero _).symm

theorem step_slowLoad {v : Fin n} {s s' : Shared κ n P} {l l' : Local κ n P} {k : PutFor κ}
    {task : κ} {head : UInt32} {pos num : Nat} {temp : List κ} {xt : Fin n} {c : Call κ P}
    (hI : RingsValid s) (hpc : l.pc = .slowLoad k task head pos num temp) (hk : k = .ready)
    (hnum : num = 256) (hlt : temp.length < num)
    (h : Seen taskNum (s.rings (v, l.prio)) head pos num temp)
    (hs : step xt v s l c = some (s', l')) : StepOk v s l s' l' := by
  have hseen := h.load (hI _) hlt
  simp only [step, hpc] at hs
  split at hs <;> simp only [Option.some.injEq, Prod.mk.injEq] at hs <;> obtain ⟨rfl, rfl⟩ := hs
  · rename_i hmore
    exact .of_local hI ⟨hk, hnum, hmore, hseen⟩ (by rw [hpc]; rfl) (by rw [hpc]; rfl)
  · rename_i hall
    rw [List.length_append, List.length_singleton] at hall
    refine .of_local hI ⟨hk, hnum, ?_, hseen⟩ (by rw [hpc]; rfl) (by rw [hpc]; rfl)
    rw [List.length_append, List.length_singleton]
    omega

theorem step_slowCas {v : Fin n} {s : Shared κ n P} {l : Local κ n P} {k : PutFor κ} {task : κ}
    {head : UInt32} {pos num : Nat} {temp : List κ} (hI : RingsValid s)
    (hpc : l.pc = .slowCas k task head pos num temp) (hk : k = .ready) (hnum : num = 256)
    (hlen : temp.length = num) (h : Seen taskNum (s.rings (v, l.prio)) head pos num temp)
    (hw : (s.rings (v, l.prio)).pos = pos ∨ ((s.rings (v, l.prio)).pos - pos) % 4294967296 ≠ 0)
    (hcas : (s.rings (v, l.prio)).head = head) :
    StepOk v s l
      ((s.setRing (v, l.prio) ((s.rings (v, l.prio)).advance num)).logPutFor k task)
      (l.goto (.slowLock k (temp ++ [task]))) := by
  subst hk
  obtain ⟨hI', hG, hstock⟩ := swap_ok (v := v) hI (by omega) h hlen hcas hw
  refine ⟨hI', rfl, ⟨hG.moves, hG.shrinks, hG.locked⟩, ⟨⟨{task}, ?_, ?_⟩, ⟨0, (add_zero _).symm, ?_⟩⟩⟩
  · show task ::ₘ s.put = s.put + {task}
    rw [← Multiset.singleton_add, add_comm]
  · rw [hpc]
    show Shared.stock _ + (0 + ((temp ++ [task] : List κ) : Multiset κ)) = s.stock + 0 + {task}
    rw [← Multiset.coe_add, ← hstock, zero_add, add_zero, ← add_assoc]
    rfl
  · rw [hpc]
    show task ::ₘ s.put + 0 = s.put + {task} + 0
    rw [← Multiset.singleton_add]
    abel

/-! ### The global queue -/

/-- Steps that take or release a lock. -/
theorem StepOk.of_lock {v : Fin n} {s : Shared κ n P} {l l' : Local κ n P} {o : Option (Fin n)}
    (hI : RingsValid s) (hlock : (s.gq l.prio).lock = none ∨ (s.gq l.prio).lock = some v)
    (hat : At v l' (s.setQueue l.prio { s.gq l.prio with lock := o }))
    (hheld : l'.pc.held = l.pc.held) (hcall : l'.pc.calling = l.pc.calling) :
    StepOk v s l (s.setQueue l.prio { s.gq l.prio with lock := o }) l' :=
  ⟨hI, hat, guar_setQueue hlock,
    ⟨⟨0, (add_zero _).symm, by rw [stock_lock, hheld, add_zero]⟩,
      ⟨0, (add_zero _).symm, by rw [hcall, add_zero]; rfl⟩⟩⟩

/-- Linking items behind the last one. -/
theorem stock_append (s : Shared κ n P) (p : Fin P) (items : List κ) :
    (s.setQueue p { s.gq p with items := (s.gq p).items ++ items }).stock =
      s.stock + (items : Multiset κ) := by
  have h := stock_setQueue s p { s.gq p with items := (s.gq p).items ++ items }
  rw [← Multiset.coe_add] at h
  refine add_right_cancel (b := ((s.gq p).items : Multiset κ)) ?_
  rw [h]
  abel

/-- Unlinking the first item. -/
theorem stock_pop (s : Shared κ n P) {p : Fin P} {kitem : κ} {rest : List κ}
    (hitems : (s.gq p).items = kitem :: rest) :
    (s.setQueue p { s.gq p with items := rest }).stock + {kitem} = s.stock := by
  have h := stock_setQueue s p { s.gq p with items := rest }
  rw [hitems, ← Multiset.cons_coe, ← Multiset.singleton_add, ← add_assoc] at h
  exact add_right_cancel h

theorem step_slowAdd {v : Fin n} {s : Shared κ n P} {l : Local κ n P} {k : PutFor κ}
    {temp : List κ} (hI : RingsValid s) (hpc : l.pc = .slowAdd k temp) (hk : k = .ready)
    (hlock : (s.gq l.prio).lock = some v) :
    StepOk v s l (s.setQueue l.prio { s.gq l.prio with items := (s.gq l.prio).items ++ temp })
      (l.goto (.slowUnlock k)) := by
  subst hk
  refine ⟨hI, ⟨rfl, by simpa using hlock⟩, guar_setQueue (Or.inr hlock),
    ⟨⟨0, (add_zero _).symm, ?_⟩, ⟨0, (add_zero _).symm, ?_⟩⟩⟩
  · rw [stock_append, hpc]
    show s.stock + (temp : Multiset κ) + 0 = s.stock + (0 + (temp : Multiset κ)) + 0
    abel
  · rw [hpc]; exact (add_zero _).symm

theorem step_addItem {v : Fin n} {s : Shared κ n P} {l : Local κ n P} {task : κ}
    (hI : RingsValid s) (hpc : l.pc = .addItem task) (hlock : (s.gq l.prio).lock = some v) :
    StepOk v s l
      ((s.setQueue l.prio { s.gq l.prio with items := (s.gq l.prio).items ++ [task] }).logPut task)
      (l.goto .addUnlock) := by
  have hG := guar_setQueue (q := { s.gq l.prio with items := (s.gq l.prio).items ++ [task] })
    (Or.inr hlock)
  refine ⟨hI, ?_, ⟨hG.moves, hG.shrinks, hG.locked⟩,
    ⟨⟨{task}, ?_, ?_⟩, ⟨0, (add_zero _).symm, ?_⟩⟩⟩
  · show ((s.setQueue l.prio _).gq l.prio).lock = some v
    rw [setQueue_gq_self]
    exact hlock
  · show task ::ₘ s.put = s.put + {task}
    rw [← Multiset.singleton_add, add_comm]
  · rw [stock_logPut, stock_append, hpc]
    show s.stock + {task} + 0 = s.stock + 0 + {task}
    abel
  · rw [hpc]
    show task ::ₘ s.put + 0 = s.put + {task} + 0
    rw [← Multiset.singleton_add]
    abel

theorem step_electPop {v : Fin n} {s s' : Shared κ n P} {l l' : Local κ n P}
    {candidate : Option κ} {m : Nat} {xt : Fin n} {c : Call κ P} (hI : RingsValid s)
    (hpc : l.pc = .electPop candidate m) (hat : At v l s)
    (hs : step xt v s l c = some (s', l')) : StepOk v s l s' l' := by
  simp only [At, hpc] at hat
  simp only [step, hpc] at hs
  cases m with
  | zero =>
    simp only [Option.some.injEq, Prod.mk.injEq] at hs
    obtain ⟨rfl, rfl⟩ := hs
    refine .of_local hI ?_ (by rw [hpc]; rfl) (by rw [hpc]; rfl)
    cases candidate with
    | none => exact ⟨hat.1, hat.2.1⟩
    | some task => exact hat.1
  | succ m =>
    rcases hitems : (s.gq l.prio).items with _ | ⟨kitem, rest⟩
    · -- as many items as were counted under the lock are there
      simp only [hitems, List.length_nil] at hat
      cases candidate with
      | none => exact absurd hat.2.2.1 (Nat.not_succ_le_zero m)
      | some task => exact absurd hat.2.1 (Nat.not_succ_le_zero m)
    · have hpop := stock_pop s hitems
      simp only [hitems, List.length_cons] at hat hs
      cases candidate with
      | none =>
        simp only [Option.some.injEq, Prod.mk.injEq] at hs
        obtain ⟨rfl, rfl⟩ := hs
        obtain ⟨hempty, hlock, hm, hmax⟩ := hat
        refine ⟨hI, ?_, guar_setQueue (Or.inr hlock),
          ⟨⟨0, (add_zero _).symm, ?_⟩, ⟨0, (add_zero _).symm, ?_⟩⟩⟩
        · simp only [At, goto_pc, goto_prio, setQueue_gq_self, setQueue_rings]
          exact ⟨hlock, by omega, by omega⟩
        · rw [hpc, ← hpop]
          show Shared.stock _ + {kitem} = Shared.stock _ + {kitem} + 0 + 0
          abel
        · rw [hpc]; exact (add_zero _).symm
      | some task =>
        simp only [Option.some.injEq, Prod.mk.injEq] at hs
        obtain ⟨rfl, rfl⟩ := hs
        obtain ⟨hlock, hm, hroom⟩ := hat
        refine ⟨hI, ?_, guar_setQueue (Or.inr hlock),
          ⟨⟨0, (add_zero _).symm, ?_⟩, ⟨0, (add_zero _).symm, ?_⟩⟩⟩
        · simp only [At, goto_pc, goto_prio, setQueue_gq_self, setQueue_rings, PutFor.Room]
          exact ⟨hlock, by omega, by omega⟩
        · rw [hpc, ← hpop]
          show Shared.stock _ + (kitem ::ₘ {task}) = Shared.stock _ + {kitem} + {task} + 0
          rw [← Multiset.singleton_add]
          abel
        · rw [hpc]; exact (add_zero _).symm

theorem step_electUnlock {v : Fin n} {s : Shared κ n P} {l : Local κ n P} {candidate : Option κ}
    (hI : RingsValid s) (hpc : l.pc = .electUnlock candidate) (hat : At v l s) :
    let r := afterGlobal (s.setQueue l.prio { s.gq l.prio with lock := none }) l candidate
    StepOk v s l r.1 r.2 := by
  simp only [At, hpc] at hat
  cases candidate with
  | none =>
    exact .of_lock hI (Or.inr hat.2) hat.1 (by rw [hpc]; rfl) (by rw [hpc]; rfl)
  | some task =>
    have hheld : l.pc.held = {task} := by rw [hpc]; rfl
    refine .of_return hI (guar_setQueue (Or.inr hat)) rfl rfl ?_ (by rw [hpc]; rfl)
    rw [hheld, stock_lock, ← Multiset.singleton_add, add_comm]

/-! ### `__runqgrab` and `__runqsteal` -/

theorem onStealNull_held (xt : Fin n) (failure : Nat) :
    (onStealNull xt failure : Pc κ n).held = 0 ∧ (onStealNull xt failure : Pc κ n).calling = 0 := by
  unfold onStealNull
  split <;> exact ⟨rfl, rfl⟩

theorem onStealNull_at {xt v : Fin n} {s : Shared κ n P} {l : Local κ n P} (failure : Nat)
    (h : (s.rings (v, l.prio)).len = 0) : At v (l.goto (onStealNull xt failure)) s := by
  unfold onStealNull
  split
  · trivial
  · exact h

theorem step_grabTail {v : Fin n} {s s' : Shared κ n P} {l l' : Local κ n P} {failure : Nat}
    {victim : Fin n} {head : UInt32} {pos : Nat} {xt : Fin n} {c : Call κ P} (hI : RingsValid s)
    (hpc : l.pc = .grabTail failure victim head pos) (hempty : (s.rings (v, l.prio)).len = 0)
    (h : Seen taskNum (s.rings (victim, l.prio)) head pos 0 [])
    (hs : step xt v s l c = some (s', l')) : StepOk v s l s' l' := by
  simp only [step, hpc] at hs
  split at hs
  · simp only [Option.some.injEq, Prod.mk.injEq] at hs
    obtain ⟨rfl, rfl⟩ := hs
    have hnull := onStealNull_held (κ := κ) xt failure
    exact .of_local hI (onStealNull_at failure hempty) (by rw [hpc]; exact hnull.1)
      (by rw [hpc]; exact hnull.2)
  · rename_i hne
    split at hs
    · simp only [Option.some.injEq, Prod.mk.injEq] at hs
      obtain ⟨rfl, rfl⟩ := hs
      exact .of_local hI hempty (by rw [hpc]; rfl) (by rw [hpc]; rfl)
    · rename_i hle
      simp only [Option.some.injEq, Prod.mk.injEq] at hs
      obtain ⟨rfl, rfl⟩ := hs
      refine .of_local hI ⟨hempty, Nat.not_lt.mp hle, Nat.pos_of_ne_zero hne, ?_⟩ (by rw [hpc]; rfl)
        (by rw [hpc]; rfl)
      exact h.dist (hI _) (Nat.sub_le _ _)

theorem step_grabSlot {v : Fin n} {s s' : Shared κ n P} {l l' : Local κ n P} {failure : Nat}
    {victim : Fin n} {head : UInt32} {pos num : Nat} {temp : List κ} {xt : Fin n} {c : Call κ P}
    (hI : RingsValid s) (hpc : l.pc = .grabSlot failure victim head pos num temp)
    (hempty : (s.rings (v, l.prio)).len = 0) (hnum : num ≤ 256) (hlt : temp.length < num)
    (h : Seen taskNum (s.rings (victim, l.prio)) head pos num temp)
    (hs : step xt v s l c = some (s', l')) : StepOk v s l s' l' := by
  have hseen := h.load (hI _) hlt
  simp only [step, hpc] at hs
  split at hs <;> simp only [Option.some.injEq, Prod.mk.injEq] at hs <;> obtain ⟨rfl, rfl⟩ := hs
  · rename_i hmore
    exact .of_local hI ⟨hempty, hnum, hmore, hseen⟩ (by rw [hpc]; rfl) (by rw [hpc]; rfl)
  · rename_i hall
    rw [List.length_append, List.length_singleton] at hall
    refine .of_local hI ⟨hempty, hnum, by omega, ?_, hseen⟩ (by rw [hpc]; rfl) (by rw [hpc]; rfl)
    rw [List.length_append, List.length_singleton]
    omega

theorem step_grabCas {v : Fin n} {s : Shared κ n P} {l : Local κ n P} {failure : Nat}
    {victim : Fin n} {head : UInt32} {pos num : Nat} {temp : List κ} (hI : RingsValid s)
    (hpc : l.pc = .grabCas failure victim head pos num temp)
    (hempty : (s.rings (v, l.prio)).len = 0) (hnum : num ≤ 256) (h0 : 0 < num)
    (hlen : temp.length = num)
    (h : Seen taskNum (s.rings (victim, l.prio)) head pos num temp)
    (hw : (s.rings (victim, l.prio)).pos = pos ∨
      ((s.rings (victim, l.prio)).pos - pos) % 4294967296 ≠ 0)
    (hcas : (s.rings (victim, l.prio)).head = head) :
    let r := afterGrab (s.setRing (victim, l.prio) ((s.rings (victim, l.prio)).advance num)) l temp
    StepOk v s l r.1 r.2 := by
  obtain ⟨hI', hG, hstock⟩ := swap_ok (v := v) hI h0 h hlen hcas hw
  have hheld : l.pc.held = 0 := by rw [hpc]; rfl
  -- the last of the items read is the one to run
  have hne : temp ≠ [] := fun heq => by rw [heq] at hlen; simp at hlen; omega
  obtain ⟨rest, task, rfl⟩ : ∃ rest task, temp = rest ++ [task] :=
    ⟨temp.dropLast, temp.getLast hne, (List.dropLast_append_getLast hne).symm⟩
  rw [← Multiset.coe_add, Multiset.coe_singleton, ← add_assoc] at hstock
  simp only [afterGrab, List.getLast?_append_of_ne_nil _ (List.cons_ne_nil task []),
    List.getLast?_singleton, List.dropLast_concat]
  split
  · rename_i hrest
    obtain rfl : rest = [] := by simpa using hrest
    refine .of_return hI' hG rfl rfl ?_ (by rw [hpc]; rfl)
    rw [hheld, ← hstock, ← Multiset.singleton_add, Multiset.coe_nil]
    abel
  · -- the others go to the own ring, which is still empty
    have hlen' : ((s.setRing (victim, l.prio) ((s.rings (victim, l.prio)).advance num)).rings
        (v, l.prio)).len = 0 := by
      by_cases hv : (v, l.prio) = (victim, l.prio)
      · have hle := (h.swap (hI _) hlen hcas hw).1
        rw [← hv, hempty] at hle
        omega
      · simpa [Shared.setRing, hv] using hempty
    have hrest : rest.length < 256 := by simp at hlen; omega
    refine ⟨hI', ⟨hlen', hrest⟩, hG, ⟨⟨0, (add_zero _).symm, ?_⟩, ⟨0, (add_zero _).symm, ?_⟩⟩⟩
    · rw [hheld, ← hstock]
      show Shared.stock _ + (task ::ₘ (rest : Multiset κ)) = _
      rw [← Multiset.singleton_add]
      abel
    · rw [hpc]; exact (add_zero _).symm

theorem step_stealTail {v : Fin n} {s s' : Shared κ n P} {l l' : Local κ n P} {task : κ}
    {temp : List κ} {head : UInt32} {xt : Fin n} {c : Call κ P} (hI : RingsValid s)
    (hpc : l.pc = .stealTail task temp head) (hempty : (s.rings (v, l.prio)).len = 0)
    (hlen : temp.length < 256) (htail : (s.rings (v, l.prio)).tail = head)
    (hs : step xt v s l c = some (s', l')) : StepOk v s l s' l' := by
  have hroom : ((s.rings (v, l.prio)).tail - head + UInt32.ofNat temp.length).toNat < taskNum := by
    rw [htail, UInt32.sub_self, UInt32.zero_add, UInt32.toNat_ofNat_of_lt' (by
      show temp.length < 4294967296; omega)]
    show temp.length < 512
    omega
  simp only [step, hpc, if_pos hroom, Option.some.injEq, Prod.mk.injEq] at hs
  obtain ⟨rfl, rfl⟩ := hs
  refine .of_local hI ⟨hempty, by simpa using hlen, staged_nil (hI _), by simp⟩ ?_ (by rw [hpc]; rfl)
  rw [hpc]
  simp [Pc.held]

theorem step_stealSlot {v : Fin n} {s s' : Shared κ n P} {l l' : Local κ n P} {task : κ}
    {stored temp : List κ} {tail : UInt32} {xt : Fin n} {c : Call κ P} (hI : RingsValid s)
    (hpc : l.pc = .stealSlot task stored temp tail) (hempty : (s.rings (v, l.prio)).len = 0)
    (hlen : stored.length + temp.length < 256) (hst : (s.rings (v, l.prio)).Staged taskNum stored)
    (htail : tail = (s.rings (v, l.prio)).tail + UInt32.ofNat stored.length)
    (hs : step xt v s l c = some (s', l')) : StepOk v s l s' l' := by
  simp only [step, hpc] at hs
  cases temp with
  | nil =>
    simp only [Option.some.injEq, Prod.mk.injEq] at hs
    obtain ⟨rfl, rfl⟩ := hs
    refine .of_local hI ⟨hst, htail⟩ ?_ (by rw [hpc]; rfl)
    rw [hpc]
    simp [Pc.held]
  | cons x rest =>
    simp only [Option.some.injEq, Prod.mk.injEq] at hs
    obtain ⟨rfl, rfl⟩ := hs
    simp only [List.length_cons] at hlen
    have hfit : (s.rings (v, l.prio)).len + stored.length < 512 := by omega
    obtain ⟨hI', hG, hstock⟩ := store_ok (v := v) hI hfit x
    have hst' := hst.store hfit x
    rw [← htail] at hI' hG hstock hst'
    refine ⟨hI', ?_, hG, ⟨⟨0, (add_zero _).symm, ?_⟩, ⟨0, (add_zero _).symm, ?_⟩⟩⟩
    · simp only [At, goto_pc, goto_prio, setRing_rings_self, store_len, store_tail,
        List.length_append, List.length_singleton]
      refine ⟨hempty, by omega, hst', ?_⟩
      rw [htail, show (1 : UInt32) = UInt32.ofNat 1 from rfl, add_ofNat_ofNat]
    · rw [hstock, hpc]
      simp [Pc.held]
    · rw [hpc]; exact (add_zero _).symm

theorem step_stealPublish {v : Fin n} {s : Shared κ n P} {l : Local κ n P} {task : κ}
    {stored : List κ} {tail : UInt32} (hI : RingsValid s)
    (hpc : l.pc = .stealPublish task stored tail)
    (hst : (s.rings (v, l.prio)).Staged taskNum stored)
    (htail : tail = (s.rings (v, l.prio)).tail + UInt32.ofNat stored.length) :
    let r := returnTask (s.setRing (v, l.prio) ((s.rings (v, l.prio)).publish tail)) l task
    StepOk v s l r.1 r.2 := by
  obtain ⟨hI', hG, hstock⟩ := publish_ok (v := v) hI hst
  rw [← htail] at hI' hG hstock
  have hheld : l.pc.held = task ::ₘ (stored : Multiset κ) := by rw [hpc]; rfl
  refine .of_return hI' hG rfl rfl ?_ (by rw [hpc]; rfl)
  rw [hheld, hstock, Multiset.add_cons]

/-! ### Every step, and every run -/

theorem step_ok {xt v : Fin n} {s s' : Shared κ n P} {l l' : Local κ n P} {c : Call κ P}
    (hI : RingsValid s) (hat : At v l s) (hw : NoWrap v s l)
    (hs : step xt v s l c = some (s', l')) : StepOk v s l s' l' := by
  have hat₀ := hat
  have hs₀ := hs
  cases hpc : l.pc <;> simp only [At, hpc] at hat <;> simp only [NoWrap, hpc] at hw <;>
    simp only [step, hpc] at hs
  case idle =>
    -- a call begins
    cases c with
    | get p | elect p =>
      simp only [Option.ite_none_right_eq_some, Option.some.injEq, Prod.mk.injEq] at hs
      obtain ⟨-, rfl, rfl⟩ := hs
      exact .of_local hI trivial (by rw [hpc]; rfl) (by rw [hpc]; rfl)
    | put p task =>
      simp only [Option.ite_none_right_eq_some, Option.some.injEq, Prod.mk.injEq] at hs
      obtain ⟨-, rfl, rfl⟩ := hs
      refine ⟨hI, trivial, ⟨(Guar.refl v s).moves, (Guar.refl v s).shrinks, (Guar.refl v s).locked⟩,
        ⟨⟨0, (add_zero _).symm, by rw [hpc]; exact (add_zero _).symm⟩, ⟨{task}, ?_, ?_⟩⟩⟩
      · show task ::ₘ s.called = s.called + {task}
        rw [← Multiset.singleton_add, add_comm]
      · rw [hpc]
        show s.put + {task} = s.put + 0 + {task}
        rw [add_zero]
    | add p task =>
      simp only [Option.some.injEq, Prod.mk.injEq] at hs
      obtain ⟨rfl, rfl⟩ := hs
      refine ⟨hI, trivial, ⟨(Guar.refl v s).moves, (Guar.refl v s).shrinks, (Guar.refl v s).locked⟩,
        ⟨⟨0, (add_zero _).symm, by rw [hpc]; exact (add_zero _).symm⟩, ⟨{task}, ?_, ?_⟩⟩⟩
      · show task ::ₘ s.called = s.called + {task}
        rw [← Multiset.singleton_add, add_comm]
      · rw [hpc]
        show s.put + {task} = s.put + 0 + {task}
        rw [add_zero]
    | go => cases hs
  case getHead k =>
    simp only [Option.some.injEq, Prod.mk.injEq] at hs
    obtain ⟨rfl, rfl⟩ := hs
    exact .of_local hI (loaded_of_valid (hI _) (hI _).len_le) (by rw [hpc]; rfl) (by rw [hpc]; rfl)
  case getTail k head pos => exact step_getTail hI hpc hat hs₀
  case getSlot k head pos =>
    simp only [Option.some.injEq, Prod.mk.injEq] at hs
    obtain ⟨rfl, rfl⟩ := hs
    have hload := hat.load (hI _) Nat.one_pos
    exact .of_local hI (by simpa [At] using hload) (by rw [hpc]; rfl) (by rw [hpc]; rfl)
  case getCas k head pos task =>
    split at hs
    · rename_i hcas
      simp only [Option.some.injEq] at hs
      have := step_getCas hI hpc hat hw hcas
      rwa [hs] at this
    · simp only [Option.some.injEq, Prod.mk.injEq] at hs
      obtain ⟨rfl, rfl⟩ := hs
      exact .of_local hI trivial (by rw [hpc]; rfl) (by rw [hpc]; rfl)
  case putHead k task =>
    simp only [Option.some.injEq, Prod.mk.injEq] at hs
    obtain ⟨rfl, rfl⟩ := hs
    exact step_putHead hI hpc hat
  case putTail k task head pos => exact step_putTail hI hpc hat.1 hat.2 hs₀
  case putSlot k task tail =>
    simp only [Option.some.injEq, Prod.mk.injEq] at hs
    obtain ⟨rfl, rfl⟩ := hs
    exact step_putSlot hI hpc hat.1 hat.2.1 hat.2.2
  case putPublish k task tail =>
    simp only [Option.some.injEq, Prod.mk.injEq] at hs
    obtain ⟨rfl, rfl⟩ := hs
    exact step_putPublish hI hpc hat.1 hat.2.1 hat.2.2
  case slowLoad k task head pos num temp =>
    exact step_slowLoad hI hpc hat.1 hat.2.1 hat.2.2.1 hat.2.2.2 hs₀
  case slowCas k task head pos num temp =>
    split at hs
    · rename_i hcas
      simp only [Option.some.injEq, Prod.mk.injEq] at hs
      obtain ⟨rfl, rfl⟩ := hs
      exact step_slowCas hI hpc hat.1 hat.2.1 hat.2.2.1 hat.2.2.2 hw hcas
    · simp only [Option.some.injEq, Prod.mk.injEq] at hs
      obtain ⟨rfl, rfl⟩ := hs
      obtain rfl := hat.1
      exact .of_local hI trivial (by rw [hpc]; rfl) (by rw [hpc]; rfl)
  case slowLock k temp =>
    simp only [Option.ite_none_right_eq_some, Option.some.injEq, Prod.mk.injEq] at hs
    obtain ⟨hfree, rfl, rfl⟩ := hs
    exact .of_lock hI (Or.inl hfree) (by simpa [At] using hat) (by rw [hpc]; rfl) (by rw [hpc]; rfl)
  case slowAdd k temp =>
    simp only [Option.some.injEq, Prod.mk.injEq] at hs
    obtain ⟨rfl, rfl⟩ := hs
    exact step_slowAdd hI hpc hat.1 hat.2
  case slowUnlock k =>
    simp only [Option.some.injEq, Prod.mk.injEq] at hs
    obtain ⟨rfl, rfl⟩ := hs
    obtain ⟨rfl, hlock⟩ := hat
    exact .of_lock hI (Or.inr hlock) trivial (by rw [hpc]; rfl) (by rw [hpc]; rfl)
  case electCheck retry =>
    split at hs <;> simp only [afterGlobal, Option.some.injEq, Prod.mk.injEq] at hs <;>
      obtain ⟨rfl, rfl⟩ := hs <;>
      exact .of_local hI hat (by rw [hpc]; rfl) (by rw [hpc]; rfl)
  case electTry retry =>
    split at hs
    · rename_i hfree
      simp only [Option.some.injEq, Prod.mk.injEq] at hs
      obtain ⟨rfl, rfl⟩ := hs
      exact .of_lock hI (Or.inl hfree) (by simpa [At] using hat) (by rw [hpc]; rfl)
        (by rw [hpc]; rfl)
    · simp only [Option.some.injEq, Prod.mk.injEq] at hs
      obtain ⟨rfl, rfl⟩ := hs
      exact .of_local hI hat (by rw [hpc]; rfl) (by rw [hpc]; rfl)
  case electMax =>
    simp only [Option.some.injEq, Prod.mk.injEq] at hs
    obtain ⟨rfl, rfl⟩ := hs
    exact .of_local hI ⟨hat.1, hat.2, Nat.min_le_left _ _, Nat.min_le_right _ _⟩ (by rw [hpc]; rfl)
      (by rw [hpc]; rfl)
  case electPop candidate m => exact step_electPop hI hpc hat₀ hs₀
  case electUnlock candidate =>
    simp only [Option.some.injEq] at hs
    have := step_electUnlock hI hpc hat₀
    rwa [hs] at this
  case steal failure =>
    have hnull := onStealNull_held (κ := κ) xt failure
    split at hs <;> simp only [Option.some.injEq, Prod.mk.injEq] at hs <;> obtain ⟨rfl, rfl⟩ := hs
    · exact .of_local hI (onStealNull_at failure hat) (by rw [hpc]; exact hnull.1)
        (by rw [hpc]; exact hnull.2)
    · exact .of_local hI hat (by rw [hpc]; rfl) (by rw [hpc]; rfl)
  case grabHead failure victim =>
    simp only [Option.some.injEq, Prod.mk.injEq] at hs
    obtain ⟨rfl, rfl⟩ := hs
    exact .of_local hI ⟨hat, seen_of_valid (hI _)⟩ (by rw [hpc]; rfl) (by rw [hpc]; rfl)
  case grabTail failure victim head pos => exact step_grabTail hI hpc hat.1 hat.2 hs₀
  case grabSlot failure victim head pos num temp =>
    exact step_grabSlot hI hpc hat.1 hat.2.1 hat.2.2.1 hat.2.2.2 hs₀
  case grabCas failure victim head pos num temp =>
    split at hs
    · rename_i hcas
      simp only [Option.some.injEq] at hs
      have := step_grabCas hI hpc hat.1 hat.2.1 hat.2.2.1 hat.2.2.2.1 hat.2.2.2.2 hw hcas
      rwa [hs] at this
    · simp only [Option.some.injEq, Prod.mk.injEq] at hs
      obtain ⟨rfl, rfl⟩ := hs
      exact .of_local hI hat.1 (by rw [hpc]; rfl) (by rw [hpc]; rfl)
  case stealHead task temp =>
    simp only [Option.some.injEq, Prod.mk.injEq] at hs
    obtain ⟨rfl, rfl⟩ := hs
    refine .of_local hI ⟨hat.1, hat.2, ?_⟩ (by rw [hpc]; rfl) (by rw [hpc]; rfl)
    have htail := tail_eq (s.rings (v, l.prio))
    rw [hat.1] at htail
    simpa using htail
  case stealTail task temp head => exact step_stealTail hI hpc hat.1 hat.2.1 hat.2.2 hs₀
  case stealSlot task stored temp tail =>
    exact step_stealSlot hI hpc hat.1 hat.2.1 hat.2.2.1 hat.2.2.2 hs₀
  case stealPublish task stored tail =>
    simp only [Option.some.injEq] at hs
    have := step_stealPublish hI hpc hat.1 hat.2
    rwa [hs] at this
  case addLock task =>
    simp only [Option.ite_none_right_eq_some, Option.some.injEq, Prod.mk.injEq] at hs
    obtain ⟨hfree, rfl, rfl⟩ := hs
    exact .of_lock hI (Or.inl hfree) (by simp [At]) (by rw [hpc]; rfl) (by rw [hpc]; rfl)
  case addItem task =>
    simp only [Option.some.injEq, Prod.mk.injEq] at hs
    obtain ⟨rfl, rfl⟩ := hs
    exact step_addItem hI hpc hat
  case addUnlock =>
    simp only [Option.some.injEq, Prod.mk.injEq] at hs
    obtain ⟨rfl, rfl⟩ := hs
    exact .of_lock hI (Or.inr hat) trivial (by rw [hpc]; rfl) (by rw [hpc]; rfl)

theorem modular (xt : Fin n) :
    Modular (step (κ := κ) (P := P) xt) (fun v s l _ => NoWrap v s l) RingsValid At Guar where
  own := fun _ _ _ _ _ _ hI hat hw hs =>
    let h := step_ok hI hat hw hs
    ⟨h.valid, h.place, h.guar⟩
  stable := fun _ _ _ _ _ hne _ hat hG => hat.stable hne hG

/-- The coroutines in the local variables of all operations in flight. -/
def held (s : State κ n P) : Multiset κ := ∑ v, (s.locals v).pc.held

/-- The arguments of all puts that are not visible yet. -/
def calling (s : State κ n P) : Multiset κ := ∑ v, (s.locals v).pc.calling

structure Conserved (s : State κ n P) : Prop where
  put : s.shared.put = s.shared.stock + held s
  called : s.shared.called = s.shared.put + calling s

theorem conserved_init {s : State κ n P} (h : Init s) : Conserved s := by
  obtain ⟨hr, hq, hpc, hcalled, hput, hret⟩ := h
  have hheld : held s = 0 := Finset.sum_eq_zero fun v _ => by rw [hpc v]; rfl
  have hcalling : calling s = 0 := Finset.sum_eq_zero fun v _ => by rw [hpc v]; rfl
  have hwin : s.shared.windows = 0 := Finset.sum_eq_zero fun i _ => by
    have hlen : (s.shared.rings i).len = 0 := by
      rw [StealQueue.len, (hr i).1, UInt32.sub_self]; rfl
    rw [StealQueue.window, hlen]; rfl
  have hglob : s.shared.globals = 0 := Finset.sum_eq_zero fun p _ => by rw [(hq p).1]; rfl
  refine ⟨?_, ?_⟩
  · rw [hput, Shared.stock, hret, hwin, hglob, hheld]; rfl
  · rw [hcalled, hput, hcalling]; rfl

theorem good_init {s : State κ n P} (h : Init s) : s.Good RingsValid At := by
  obtain ⟨hr, hq, hpc, -⟩ := h
  refine ⟨fun i => ⟨(hr i).2, ?_⟩, fun v => ?_⟩
  · rw [StealQueue.len, (hr i).1, UInt32.sub_self]
    exact Nat.zero_le _
  · simp only [At, hpc v]

theorem conserved_step {xt : Fin n} {s s' : State κ n P} {l : Fin n × Call κ P}
    (hgood : s.Good RingsValid At) (hw : NoWrap l.1 s.shared (s.locals l.1))
    (h : Conserved s) (hl : poolStep (step xt) s l = some s') : Conserved s' := by
  obtain ⟨⟨σ, ℓ⟩, hr, hshared, hlocals⟩ := poolStep_eq_some hl
  simp only at hshared hlocals
  have hlocal : s'.locals l.1 = ℓ := by rw [hlocals, Function.update_self]
  obtain ⟨⟨d, hput, hstock⟩, ⟨e, hcalled, hcalling⟩⟩ :=
    (step_ok hgood.1 (hgood.2 l.1) hw hr).moved
  rw [← hshared, ← hlocal] at hstock hcalling
  rw [← hshared] at hput hcalled
  refine ⟨?_, ?_⟩
  · have hsum := Pool.sum_step Shared.stock (fun ℓ => ℓ.pc.held) hl hstock
    rw [hput, h.put]
    exact hsum.symm
  · have hsum := Pool.sum_step Shared.put (fun ℓ => ℓ.pc.calling) hl hcalling
    rw [hcalled, h.called]
    exact hsum.symm

variable [DecidableEq κ]

/-- A coroutine is not put again before it has been returned. -/
def NotPutAgain (s : State κ n P) (l : Fin n × Call κ P) : Prop :=
  match (s.locals l.1).pc, l.2 with
  | .idle, .put _ task | .idle, .add _ task =>
      s.shared.called.count task = s.shared.returned.count task
  | _, _ => True

/-- What is assumed of the steps of a run. -/
def Assumed (s : State κ n P) (l : Fin n × Call κ P) : Prop :=
  NoWrap l.1 s.shared (s.locals l.1) ∧ NotPutAgain s l

/-- A step that logs no call and takes nothing back from the scheduler. -/
structure Quiet (s s' : Shared κ n P) : Prop where
  called : s'.called = s.called
  returned : s.returned ≤ s'.returned

omit [DecidableEq κ] in
theorem quiet_logPutFor {s s' : Shared κ n P} (h : Quiet s s') (k : PutFor κ) (task : κ) :
    Quiet s (s'.logPutFor k task) := by
  cases k with
  | ready => exact ⟨h.called, h.returned⟩
  | batch c m => exact h

omit [DecidableEq κ] in
theorem quiet_returnTask {s s' : Shared κ n P} (h : Quiet s s') (l : Local κ n P) (task : κ) :
    Quiet s (returnTask s' l task).1 :=
  ⟨h.called, le_trans h.returned (Multiset.le_cons_self _ _)⟩

omit [DecidableEq κ] in
theorem quiet_afterGlobal {s s' : Shared κ n P} (h : Quiet s s') (l : Local κ n P)
    (candidate : Option κ) : Quiet s (afterGlobal s' l candidate).1 := by
  cases candidate with
  | none => exact h
  | some task => exact quiet_returnTask h l task

omit [DecidableEq κ] in
theorem quiet_afterGrab {s s' : Shared κ n P} (h : Quiet s s') (l : Local κ n P) (temp : List κ) :
    Quiet s (afterGrab s' l temp).1 := by
  unfold afterGrab
  split
  · exact h
  · split
    · exact quiet_returnTask h l _
    · exact h

omit [DecidableEq κ] in
/-- Only an idle thread's call is logged as one. -/
theorem step_quiet {xt v : Fin n} {s s' : Shared κ n P} {l l' : Local κ n P} {c : Call κ P}
    (hne : l.pc ≠ .idle) (hs : step xt v s l c = some (s', l')) : Quiet s s' := by
  have hrefl : Quiet s s := ⟨rfl, le_refl _⟩
  have hring : ∀ i r, Quiet s (s.setRing i r) := fun _ _ => ⟨rfl, le_refl _⟩
  have hqueue : ∀ p q, Quiet s (s.setQueue p q) := fun _ _ => ⟨rfl, le_refl _⟩
  have hfst : ∀ {r : Shared κ n P × Local κ n P}, Quiet s r.1 → some r = some (s', l') →
      Quiet s s' := fun h heq => by
    rw [Option.some.inj heq] at h
    exact h
  cases hpc : l.pc <;> simp only [step, hpc] at hs
  case idle => exact absurd hpc hne
  case getCas k head pos task =>
    split at hs
    · exact hfst (quiet_returnTask (hring _ _) l task) hs
    · exact hfst hrefl hs
  case putSlot k task tail => exact hfst (hring _ _) hs
  case putPublish k task tail => exact hfst (quiet_logPutFor (hring _ _) k task) hs
  case slowCas k task head pos num temp =>
    split at hs
    · exact hfst (quiet_logPutFor (hring _ _) k task) hs
    · exact hfst hrefl hs
  case slowAdd k temp => exact hfst (hqueue _ _) hs
  case slowUnlock k => exact hfst (hqueue _ _) hs
  case electCheck retry =>
    split at hs
    · exact hfst hrefl hs
    · exact hfst (quiet_afterGlobal hrefl l none) hs
  case electPop candidate m =>
    split at hs
    · exact hfst hrefl hs
    · split at hs
      · exact hfst hrefl hs
      · split at hs <;> exact hfst (hqueue _ _) hs
  case electUnlock candidate => exact hfst (quiet_afterGlobal (hqueue _ _) l candidate) hs
  case grabCas failure victim head pos num temp =>
    split at hs
    · exact hfst (quiet_afterGrab (hring _ _) l temp) hs
    · exact hfst hrefl hs
  case stealSlot task stored temp tail =>
    split at hs
    · exact hfst hrefl hs
    · exact hfst (hring _ _) hs
  case stealPublish task stored tail => exact hfst (quiet_returnTask (hring _ _) l task) hs
  case addItem task => exact hfst (quiet_logPutFor (hqueue _ _) .ready task) hs
  case addUnlock => exact hfst (hqueue _ _) hs
  case aborted => cases hs
  case slowLock k temp | addLock task =>
    split at hs
    · exact hfst (hqueue _ _) hs
    · cases hs
  case electTry retry =>
    split at hs
    · exact hfst (hqueue _ _) hs
    · exact hfst hrefl hs
  case getTail | putTail | slowLoad | grabSlot | steal | grabTail | stealTail =>
    split at hs
    · exact hfst hrefl hs
    · first | exact hfst hrefl hs | (split at hs <;> exact hfst hrefl hs)
  all_goals exact hfst hrefl hs

/-- At most one put of a coroutine is outstanding. -/
def Once (s : Shared κ n P) : Prop := ∀ c, s.called.count c ≤ s.returned.count c + 1

theorem once_step {xt : Fin n} {s s' : State κ n P} {l : Fin n × Call κ P} (h : Once s.shared)
    (hok : NotPutAgain s l) (hl : poolStep (step xt) s l = some s') : Once s'.shared := by
  obtain ⟨⟨σ, ℓ⟩, hr, hshared, -⟩ := poolStep_eq_some hl
  rw [hshared]
  intro c
  have hc := h c
  by_cases hpc : (s.locals l.1).pc = .idle
  · obtain ⟨v, call⟩ := l
    simp only [step, hpc] at hr
    simp only [NotPutAgain, hpc] at hok
    cases call with
    | get p | elect p =>
      simp only [Option.ite_none_right_eq_some, Option.some.injEq, Prod.mk.injEq] at hr
      obtain ⟨-, rfl, -⟩ := hr
      exact hc
    | put p task =>
      simp only [Option.ite_none_right_eq_some, Option.some.injEq, Prod.mk.injEq] at hr
      obtain ⟨-, rfl, -⟩ := hr
      show (task ::ₘ s.shared.called).count c ≤ s.shared.returned.count c + 1
      rw [Multiset.count_cons]
      split
      · rename_i heq; subst heq; rw [hok]
      · exact hc
    | add p task =>
      simp only [Option.some.injEq, Prod.mk.injEq] at hr
      obtain ⟨rfl, -⟩ := hr
      show (task ::ₘ s.shared.called).count c ≤ s.shared.returned.count c + 1
      rw [Multiset.count_cons]
      split
      · rename_i heq; subst heq; rw [hok]
      · exact hc
    | go => cases hr
  · have hquiet := step_quiet hpc hr
    rw [hquiet.called]
    exact le_trans hc (Nat.succ_le_succ (Multiset.count_le_of_le c hquiet.returned))

theorem reach_inv {xt : Fin n} {s : State κ n P} (h : Reach (poolStep (step xt)) Assumed Init s) :
    s.Good RingsValid At ∧ Conserved s ∧ Once s.shared := by
  refine h.invariant (I := fun s => s.Good RingsValid At ∧ Conserved s ∧ Once s.shared) ?_ ?_
  · intro s hs
    refine ⟨good_init hs, conserved_init hs, fun c => ?_⟩
    rw [hs.2.2.2.1, Multiset.count_zero]
    exact Nat.zero_le _
  · intro s l s' hi hok hl
    exact ⟨(modular xt).good_step hi.1 hok.1 hl, conserved_step hi.1 hok.1 hi.2.1 hl,
      once_step hi.2.2 hok.2 hl⟩

/-- **The run queues lose and duplicate nothing**, for any number of VPUs and async
    threads and any interleaving: what was put is what was returned, what the rings and
    the global queues hold, and what an operation has in its variables after it took it
    out of one; no coroutine is returned more often than it was put, or in two places;
    and no operation fails. -/
theorem runq_conserves {xt : Fin n} {s : State κ n P}
    (h : Reach (poolStep (step xt)) Assumed Init s) :
    s.shared.put = s.shared.returned + s.shared.windows + s.shared.globals + held s ∧
    s.shared.called = s.shared.put + calling s ∧
    (∀ c, s.shared.returned.count c ≤ s.shared.put.count c ∧
      (s.shared.windows + s.shared.globals + held s + calling s).count c ≤ 1) ∧
    ∀ v, (s.locals v).pc ≠ .aborted := by
  obtain ⟨hgood, hcons, honce⟩ := reach_inv h
  refine ⟨hcons.put, hcons.called, fun c => ⟨?_, ?_⟩, fun v hab => ?_⟩
  · rw [hcons.put, Shared.stock]
    simp only [Multiset.count_add]
    omega
  · have hc := honce c
    rw [hcons.called, hcons.put, Shared.stock] at hc
    simp only [Multiset.count_add] at hc ⊢
    omega
  · have := hgood.2 v
    simp only [At, hab] at this

instance (v : Fin n) (s : Shared κ n P) (l : Local κ n P) : Decidable (NoWrap v s l) := by
  unfold NoWrap
  cases l.pc <;> infer_instance

instance (s : State κ n P) (l : Fin n × Call κ P) : Decidable (NotPutAgain s l) := by
  unfold NotPutAgain
  split <;> infer_instance

instance (s : State κ n P) (l : Fin n × Call κ P) : Decidable (Assumed s l) := by
  unfold Assumed
  infer_instance

end

/-- Two VPUs whose rings are empty with their counters about to wrap. -/
def emptyRings : State Nat 2 1 :=
  { shared :=
      { rings := fun _ =>
          { slots := fun _ => 0, head := 4294967295, tail := 4294967295, pos := 4294967295 }
        gq := fun _ => { items := [], lock := none }
        called := 0, put := 0, returned := 0 }
    locals := fun _ => { prio := 0, randSeed := 1, pc := .idle } }

/-- The first VPU puts two coroutines, the second finds its own ring and the global
    queue empty and steals one of them. -/
theorem emptyRings_steal :
    ∃ s : State Nat 2 1, s.shared.returned = {7} ∧ s.shared.windows = {8} ∧ s.shared.put = {7, 8} ∧
      s.shared.put = s.shared.returned + s.shared.windows + s.shared.globals + held s := by
  have hinit : Init emptyRings :=
    ⟨fun _ => ⟨rfl, rfl⟩, fun _ => ⟨rfl, rfl⟩, fun _ => rfl, rfl, rfl, rfl⟩
  obtain ⟨s, hs, hP⟩ := Reach.exists_of_runOk (poolStep (step 1)) Assumed Init hinit
    (.flatten [[(0, .put 0 7)], .replicate 4 (0, .go), [(0, .put 0 8)], .replicate 4 (0, .go),
      [(1, .elect 0)], .replicate 8 (1, .go)])
    (fun s => s.shared.returned == {7} && s.shared.windows == {8} && s.shared.put == {7, 8})
    (by decide +kernel)
  simp only [Bool.and_eq_true, beq_iff_eq] at hP
  exact ⟨s, hP.1.1, hP.1.2, hP.2, (runq_conserves hs).1⟩

end Coroc.RunQueue
