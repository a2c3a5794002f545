import Coroc.Queue
import Coroc.Transition

/-!
# The links of the global run queue (`src/src/vpu.c`)

Coroutines enter the global queue of a priority by `atomic_queue_add`, or many at once by
`__runqputslow`, which links them before it takes the lock, and leave it in the batches of
`core_elect`, which takes them from the head and leaves their links as they are.

A step of the system is one of these under the lock, one `queue_link` of a party that is on its
way to the lock, or one round of the loop of `core_elect`: an item it has popped may be linked
again before it releases the lock.  `State.fault` records a `NULL` that was followed.
`chain_of_reachable` is the result.
-/

namespace Coroc.GlobalQueue

open Coroc.LinkedList Coroc.Queue Coroc.Transition Function

/-- A party in `__runqputslow`, with the links it has made. -/
structure Batch (ι : Type) where
  temp : List ι
  i : Nat

/-- The memory, the parties in `__runqputslow`, and `max_fetch` of the `core_elect` that holds the
    lock.  `entered` and `popped` are the items that went in and came out, in order. -/
structure State (ι κ ω ν : Type) where
  heap : Heap ι κ ω
  batch : ν → Option (Batch ι)
  fetch : Option Nat
  entered : List ι
  popped : List ι
  fault : Bool

inductive Label (ι ν : Type) where
  | add (item : ι)
  | start (v : ν) (temp : List ι)
  | link (v : ν)
  | addRange (v : ν)
  | fetch
  | pop
  | release

/-- `TSC_TASK_NUM_PERPRIO`. -/
abbrev taskNum : Nat := 512

variable {ι κ ω ν : Type}

/-! ### The source -/

/-- The state after items were added. -/
def State.place (s : State ι κ ω ν) (items : List ι) : Option (Heap ι κ ω) → State ι κ ω ν
  | some h => { s with heap := h, entered := s.entered ++ items }
  | none => { s with fault := true }

variable [DecidableEq κ]

/-- A round of the loop of `core_elect`. -/
def State.popHead (s : State ι κ ω ν) (queue : κ) (n : Nat) : State ι κ ω ν :=
  match s.heap.head queue with
  | some kitem => { s with
      heap := { s.heap with
        head := update s.heap.head queue (s.heap.next kitem)
        status := update s.heap.status queue (s.heap.status queue - 1) }
      fetch := some n
      popped := s.popped ++ [kitem] }
  | none => { s with fault := true }

/-- What `core_elect` does behind the loop. -/
def closeFetch [DecidableEq ι] (h : Heap ι κ ω) (queue : κ) : Heap ι κ ω :=
  match h.head queue with
  | some x => { h with prev := update h.prev x none }
  | none => { h with tail := update h.tail queue (h.head queue) }

variable [DecidableEq ι] [DecidableEq ν]

def step (queue : κ) (s : State ι κ ω ν) : Label ι ν → Option (State ι κ ω ν)
  | .add item => if s.fetch = none then some (s.place [item] (queueAdd s.heap queue item)) else none
  | .start v temp => if (s.batch v).isNone then some { s with batch := update s.batch v (some ⟨temp, 0⟩) } else none
  | .link v => match s.batch v with
    | some b => match b.temp[b.i]?, b.temp[b.i + 1]? with
      | some item1, some item2 => some { s with
          heap := queueLink s.heap item1 item2
          batch := update s.batch v (some { b with i := b.i + 1 }) }
      | _, _ => none
    | none => none
  | .addRange v => match s.batch v with
    | some b =>
      if s.fetch = none ∧ b.i + 1 = b.temp.length then match b.temp.head?, b.temp.getLast? with
        | some src, some dst => some { s.place b.temp (queueAddRange s.heap queue (.ofNat b.temp.length) src dst) with
            batch := update s.batch v none }
        | _, _ => none
      else none
    | none => none
  | .fetch =>
    if s.fetch = none then some { s with fetch := some (min (s.heap.status queue).toNat (taskNum - 1)) } else none
  | .pop => match s.fetch with
    | some (n + 1) => some (s.popHead queue n)
    | _ => none
  | .release => match s.fetch with
    | some 0 => some { s with heap := closeFetch s.heap queue, fetch := none }
    | _ => none

/-- The queue is as `queue_init` leaves it, whatever is in the items. -/
def Init (queue : κ) (s : State ι κ ω ν) : Prop :=
  queueInit s.heap queue = s.heap ∧ s.fault = false ∧ s.fetch = none ∧ s.entered = [] ∧ s.popped = [] ∧
    ∀ v, s.batch v = none

/-- The item was popped as often as it went in, and nobody is about to add it. -/
def Out (s : State ι κ ω ν) (x : ι) : Prop :=
  s.entered.count x = s.popped.count x ∧ ∀ v b, s.batch v = some b → x ∉ b.temp

/-- Coroutines are added only after they were popped, and those of a batch are distinct. -/
def Proper (s : State ι κ ω ν) : Label ι ν → Prop
  | .add x => Out s x
  | .start _ temp => temp ≠ [] ∧ temp.Nodup ∧ ∀ x ∈ temp, Out s x
  | _ => True

/-- The number of items fits in `status`. -/
def Counted (s : State ι κ ω ν) : Label ι ν → Prop
  | .add _ => s.entered.length + 1 < s.popped.length + 2 ^ 32
  | .addRange v => ∀ b, s.batch v = some b → s.entered.length + b.temp.length < s.popped.length + 2 ^ 32
  | _ => True

def Reachable (queue : κ) : State ι κ ω ν → Prop :=
  Reach (step queue) (fun s l => Proper s l ∧ Counted s l) (Init queue)

/-! ### Batches -/

variable {next next' : ι → Option ι} {b : Batch ι} {l items : List ι} {x src dst : ι} {q : κ}
  {h h' : Heap ι κ ω}

/-- The links made so far lead through the batch. -/
structure Linking (next : ι → Option ι) (b : Batch ι) : Prop where
  nodup : b.temp.Nodup
  lt : b.i < b.temp.length
  path : Path next b.temp.head? (b.temp.take b.i) b.temp[b.i]?

namespace Linking

omit [DecidableEq ι] in
theorem congr (hb : Linking next b) (heq : ∀ y ∈ b.temp, next' y = next y) : Linking next' b :=
  ⟨hb.nodup, hb.lt, hb.path.congr fun y hy => heq y (List.mem_of_mem_take hy)⟩

omit [DecidableEq ι] in
theorem start (hne : items ≠ []) (hnodup : items.Nodup) : Linking next ⟨items, 0⟩ where
  nodup := hnodup
  lt := List.length_pos_iff.mpr hne
  path := by
    rw [List.take_zero, path_nil]
    exact List.head?_eq_getElem?

omit [DecidableEq ι] in
theorem take_succ (hx : b.temp[b.i]? = some x) : b.temp.take (b.i + 1) = b.temp.take b.i ++ [x] := by
  rw [List.take_add_one, hx]
  rfl

omit [DecidableEq ι] in
/-- The item that is linked is none of those before it. -/
theorem notMem_take (hb : Linking next b) (hx : b.temp[b.i]? = some x) : x ∉ b.temp.take b.i := by
  have hnodup := hb.nodup.sublist (List.take_sublist (b.i + 1) b.temp)
  rw [take_succ hx] at hnodup
  exact fun hmem => (List.nodup_append.mp hnodup).2.2 x hmem x List.mem_cons_self rfl

theorem link (hb : Linking next b) (hx : b.temp[b.i]? = some src) (hy : b.temp[b.i + 1]? = some dst) :
    Linking (update next src (some dst)) { b with i := b.i + 1 } where
  nodup := hb.nodup
  lt := (List.getElem?_eq_some_iff.mp hy).1
  path := by
    have hpath := hb.path
    rw [hx] at hpath
    change Path _ b.temp.head? (b.temp.take (b.i + 1)) b.temp[b.i + 1]?
    rw [hy, take_succ hx]
    refine path_append.mpr ⟨some src, hpath.congr (update_apart (hb.notMem_take hx)), rfl, ?_⟩
    exact update_self _ _ _

theorem full (hb : Linking next b) (hlen : b.i + 1 = b.temp.length) (hsrc : b.temp.head? = some src)
    (hdst : b.temp.getLast? = some dst) : Path (update next dst none) (some src) b.temp none := by
  have hlast : b.temp[b.i]? = some dst := by
    rw [← hdst, List.getLast?_eq_getElem?, ← hlen]
    rfl
  have htemp : b.temp = b.temp.take b.i ++ [dst] := by
    rw [← take_succ hlast, hlen, List.take_length]
  have hpath := hb.path
  rw [hlast, hsrc] at hpath
  suffices hwhole : Path (update next dst none) (some src) (b.temp.take b.i ++ [dst]) none by rwa [← htemp] at hwhole
  exact path_append.mpr ⟨some dst, hpath.congr (update_apart (hb.notMem_take hlast)), rfl, update_self _ _ _⟩

end Linking

/-! ### Adding to the queue -/

/-- The chain of the queue goes on at `src` and ends at `dst`. -/
structure Placed (h h' : Heap ι κ ω) (q : κ) (n : UInt32) (src dst : ι) : Prop where
  next : h'.next = (redirect (update h.next dst none) (h.head q) (h.tail q) (some src)).1
  head : h'.head q = (redirect (update h.next dst none) (h.head q) (h.tail q) (some src)).2
  tail : h'.tail q = some dst
  status : h'.status q = h.status q + n

theorem queueAdd_placed (hempty : h.status q = 0 ↔ h.tail q = none) :
    ∃ h', queueAdd h q x = some h' ∧ Placed h h' q 1 x x := by
  unfold queueAdd
  cases htail : h.tail q with
  | none =>
    simp only [if_pos (hempty.mpr htail), Option.map_some]
    refine ⟨_, rfl, ?_, ?_, update_self _ _ _, update_self _ _ _⟩
    · rw [htail]
      rfl
    · rw [htail]
      exact update_self _ _ _
  | some t =>
    have hfull : h.status q ≠ 0 := fun hzero => by
      rw [hempty.mp hzero] at htail
      cases htail
    simp only [if_neg hfull, Option.map_some, htail]
    refine ⟨_, rfl, ?_, ?_, update_self _ _ _, update_self _ _ _⟩
    · rw [htail]
      rfl
    · rw [htail]
      rfl

theorem queueAddRange_placed {n : UInt32} (hempty : h.status q = 0 ↔ h.tail q = none)
    (hdst : h.tail q ≠ some dst) : ∃ h', queueAddRange h q n src dst = some h' ∧ Placed h h' q n src dst := by
  unfold queueAddRange
  cases htail : h.tail q with
  | none =>
    simp only [if_pos (hempty.mpr htail), Option.map_some]
    refine ⟨_, rfl, ?_, ?_, update_self _ _ _, update_self _ _ _⟩
    · rw [htail]
      rfl
    · rw [htail]
      exact update_self _ _ _
  | some t =>
    have hfull : h.status q ≠ 0 := fun hzero => by
      rw [hempty.mp hzero] at htail
      cases htail
    have hne : t ≠ dst := by
      rintro rfl
      exact hdst htail
    simp only [if_neg hfull, Option.map_some]
    refine ⟨_, rfl, ?_, ?_, update_self _ _ _, update_self _ _ _⟩
    · rw [htail]
      exact update_comm hne _ _ _
    · rw [htail]
      rfl

/-! ### The invariant -/

/-- The chain of the queue visits the items of `l`, which are those that went in and did not come
    out yet.  While items are popped the tail is left behind when the last one is gone. -/
structure Inv (q : κ) (s : State ι κ ω ν) (l : List ι) : Prop where
  fault : s.fault = false
  nodup : l.Nodup
  path : Path s.heap.next (s.heap.head q) l none
  status : (s.heap.status q).toNat = l.length
  tail : s.fetch = none ∨ l ≠ [] → s.heap.tail q = l.getLast?
  fetch : ∀ n, s.fetch = some n → n ≤ l.length
  order : s.popped ++ l = s.entered
  batch : ∀ v b, s.batch v = some b → Linking s.heap.next b ∧ ∀ x ∈ b.temp, x ∉ l
  apart : ∀ v w b b', v ≠ w → s.batch v = some b → s.batch w = some b' → ∀ x ∈ b.temp, x ∉ b'.temp

namespace Inv

variable {s s' : State ι κ ω ν}

omit [DecidableEq ι] [DecidableEq ν] in
theorem init (hs : Init q s) : Inv q s [] := by
  obtain ⟨hinit, hfault, hfetch, hentered, hpopped, hbatch⟩ := hs
  have hhead : update s.heap.head q none = s.heap.head := congrArg Heap.head hinit
  have htail : update s.heap.tail q none = s.heap.tail := congrArg Heap.tail hinit
  have hstatus : update s.heap.status q 0 = s.heap.status := congrArg Heap.status hinit
  refine ⟨hfault, .nil, ?_, ?_, fun _ => ?_, fun n hn => ?_, ?_, fun v b hb => ?_, fun v w b b' _ hb => ?_⟩
  · rw [← hhead, update_self]
    rfl
  · rw [← hstatus, update_self]
    rfl
  · rw [← htail, update_self]
    rfl
  · rw [hfetch] at hn
    cases hn
  · rw [hentered, hpopped]
    rfl
  · rw [hbatch v] at hb
    cases hb
  · rw [hbatch v] at hb
    cases hb

omit [DecidableEq κ] [DecidableEq ν] in
theorem notMem (hi : Inv q s l) (hx : Out s x) : x ∉ l := by
  have hcount := congrArg (List.count x) hi.order
  rw [List.count_append, hx.1] at hcount
  exact List.count_eq_zero.mp (by omega)

omit [DecidableEq ι] [DecidableEq κ] [DecidableEq ν] in
theorem status_eq_zero (hi : Inv q s l) (hfetch : s.fetch = none) :
    s.heap.status q = 0 ↔ s.heap.tail q = none := by
  rw [hi.tail (.inl hfetch), ← UInt32.toNat_inj, hi.status, List.getLast?_eq_none_iff]
  exact List.length_eq_zero_iff

omit [DecidableEq κ] [DecidableEq ν] in
/-- Items behind the others. -/
theorem placed {n : UInt32} {batch' : ν → Option (Batch ι)} (hi : Inv q s l) (hfetch : s.fetch = none)
    (hp : Placed s.heap h' q n src dst) (hpath : Path (update s.heap.next dst none) (some src) items none)
    (hnodup : items.Nodup) (hlast : items.getLast? = some dst) (hout : ∀ x ∈ items, x ∉ l)
    (hn : n.toNat = items.length) (hcount : s.entered.length + items.length < s.popped.length + 2 ^ 32)
    (hbatch : ∀ v b, batch' v = some b → s.batch v = some b ∧ ∀ x ∈ b.temp, x ∉ items) :
    Inv q { s with heap := h', entered := s.entered ++ items, batch := batch' } (l ++ items) := by
  have htail := hi.tail (.inl hfetch)
  have hdst : dst ∈ items := List.mem_of_getLast? hlast
  have hlen := congrArg List.length hi.order
  rw [List.length_append] at hlen
  have hnext (y : ι) (hl : y ∉ l) (hitems : y ∉ items) : h'.next y = s.heap.next y := by
    have hne : y ≠ dst := by
      rintro rfl
      exact hitems hdst
    rw [hp.next, redirect_of_ne, update_of_ne hne]
    rw [htail]
    exact fun hlast => hl (List.mem_of_getLast? hlast)
  have hold : Path (update s.heap.next dst none) (s.heap.head q) l none :=
    hi.path.congr (update_apart (hout dst hdst))
  refine ⟨hi.fault, ?_, ?_, ?_, fun _ => ?_, fun m hm => ?_, ?_, fun v b hb => ?_, fun v w b b' hvw hb hb' => ?_⟩
  · refine List.nodup_append.mpr ⟨hi.nodup, hnodup, ?_⟩
    rintro y hy _ hx rfl
    exact hout y hx hy
  · change Path h'.next (h'.head q) (l ++ items) none
    rw [hp.next, hp.head, htail]
    exact hold.extend hi.nodup hpath hout
  · change (h'.status q).toNat = _
    rw [hp.status, UInt32.toNat_add, hi.status, hn, List.length_append]
    exact Nat.mod_eq_of_lt (by omega)
  · exact hp.tail.trans (by rw [List.getLast?_append, hlast, Option.some_or])
  · rw [show s.fetch = some m from hm] at hfetch
    cases hfetch
  · change s.popped ++ (l ++ items) = s.entered ++ items
    rw [← List.append_assoc, hi.order]
  · obtain ⟨hb, hapart⟩ := hbatch v b hb
    obtain ⟨hlinking, hnot⟩ := hi.batch v b hb
    refine ⟨hlinking.congr fun y hy => hnext y (hnot y hy) (hapart y hy), fun y hy hmem => ?_⟩
    rcases List.mem_append.mp hmem with hin | hin
    · exact hnot y hy hin
    · exact hapart y hy hin
  · exact hi.apart v w b b' hvw (hbatch v b hb).1 (hbatch w b' hb').1

theorem add (hi : Inv q s l) (hout : Out s x) (hcount : Counted s (.add x : Label ι ν))
    (hs : step q s (.add x) = some s') : Inv q s' (l ++ [x]) := by
  obtain ⟨hfetch, rfl⟩ : s.fetch = none ∧ s.place [x] (queueAdd s.heap q x) = s' := by
    simpa only [step, Option.ite_none_right_eq_some, Option.some.injEq] using hs
  obtain ⟨h', hadd, hp⟩ := queueAdd_placed (x := x) (hi.status_eq_zero hfetch)
  rw [hadd]
  refine hi.placed hfetch hp ⟨rfl, update_self _ _ _⟩ (List.nodup_singleton x) rfl (fun y hy => ?_) rfl hcount
    fun v b hb => ⟨hb, fun y hy hyx => ?_⟩
  · rw [List.mem_singleton.mp hy]
    exact hi.notMem hout
  · rw [List.mem_singleton.mp hyx] at hy
    exact hout.2 v b hb hy

theorem start {v : ν} {temp : List ι} (hi : Inv q s l) (hproper : Proper s (.start v temp))
    (hs : step q s (.start v temp) = some s') : Inv q s' l := by
  obtain ⟨hne, hnodup, hout⟩ := hproper
  obtain ⟨_, rfl⟩ : (s.batch v).isNone = true ∧ { s with batch := update s.batch v (some ⟨temp, 0⟩) } = s' := by
    simpa only [step, Option.ite_none_right_eq_some, Option.some.injEq] using hs
  refine ⟨hi.fault, hi.nodup, hi.path, hi.status, hi.tail, hi.fetch, hi.order, fun w b hb => ?_,
    fun u w b b' huw hb hb' => ?_⟩
  · change update s.batch v (some ⟨temp, 0⟩) w = some b at hb
    by_cases hw : w = v
    · subst hw
      rw [update_self, Option.some_inj] at hb
      subst hb
      exact ⟨.start hne hnodup, fun x hx => hi.notMem (hout x hx)⟩
    · rw [update_of_ne hw] at hb
      exact hi.batch w b hb
  · change update s.batch v (some ⟨temp, 0⟩) u = some b at hb
    change update s.batch v (some ⟨temp, 0⟩) w = some b' at hb'
    by_cases hu : u = v
    · subst hu
      rw [update_self, Option.some_inj] at hb
      rw [update_of_ne (Ne.symm huw)] at hb'
      subst hb
      exact fun x hx => (hout x hx).2 w b' hb'
    · rw [update_of_ne hu] at hb
      by_cases hw : w = v
      · subst hw
        rw [update_self, Option.some_inj] at hb'
        subst hb'
        exact fun x hx hmem => (hout x hmem).2 u b hb hx
      · rw [update_of_ne hw] at hb'
        exact hi.apart u w b b' huw hb hb'

theorem link {v : ν} (hi : Inv q s l) (hs : step q s (.link v) = some s') : Inv q s' l := by
  cases hb : s.batch v with
  | none => simp only [step, hb, reduceCtorEq] at hs
  | some b =>
    cases hitem1 : b.temp[b.i]? with
    | none => simp only [step, hb, hitem1, reduceCtorEq] at hs
    | some item1 =>
      cases hitem2 : b.temp[b.i + 1]? with
      | none => simp only [step, hb, hitem1, hitem2, reduceCtorEq] at hs
      | some item2 =>
        simp only [step, hb, hitem1, hitem2, Option.some.injEq] at hs
        subst hs
        obtain ⟨hlinking, hnot⟩ := hi.batch v b hb
        have hmem : item1 ∈ b.temp := List.mem_of_getElem? hitem1
        have htemp (w : ν) (b' : Batch ι)
            (hb' : update s.batch v (some { b with i := b.i + 1 }) w = some b') :
            ∃ b₀, s.batch w = some b₀ ∧ b₀.temp = b'.temp := by
          by_cases hw : w = v
          · subst hw
            rw [update_self, Option.some_inj] at hb'
            subst hb'
            exact ⟨b, hb, rfl⟩
          · rw [update_of_ne hw] at hb'
            exact ⟨b', hb', rfl⟩
        refine ⟨hi.fault, hi.nodup, hi.path.congr (update_apart (hnot item1 hmem)), hi.status, hi.tail, hi.fetch,
          hi.order, fun w b' hb' => ?_, fun u w b₁ b₂ huw hb₁ hb₂ => ?_⟩
        · by_cases hw : w = v
          · subst hw
            change update s.batch w (some { b with i := b.i + 1 }) w = some b' at hb'
            rw [update_self, Option.some_inj] at hb'
            subst hb'
            exact ⟨hlinking.link hitem1 hitem2, hnot⟩
          · change update s.batch v (some { b with i := b.i + 1 }) w = some b' at hb'
            rw [update_of_ne hw] at hb'
            obtain ⟨hlinking', hnot'⟩ := hi.batch w b' hb'
            exact ⟨hlinking'.congr (update_apart (hi.apart v w b b' (Ne.symm hw) hb hb' item1 hmem)), hnot'⟩
        · obtain ⟨c₁, hc₁, htemp₁⟩ := htemp u b₁ hb₁
          obtain ⟨c₂, hc₂, htemp₂⟩ := htemp w b₂ hb₂
          rw [← htemp₁, ← htemp₂]
          exact hi.apart u w c₁ c₂ huw hc₁ hc₂

theorem addRange {v : ν} (hi : Inv q s l) (hcount : Counted s (.addRange v))
    (hs : step q s (.addRange v) = some s') : ∃ l', Inv q s' l' := by
  cases hb : s.batch v with
  | none => simp only [step, hb, reduceCtorEq] at hs
  | some b =>
    by_cases hfull : s.fetch = none ∧ b.i + 1 = b.temp.length
    · cases hsrc : b.temp.head? with
      | none => simp only [step, hb, if_pos hfull, hsrc, reduceCtorEq] at hs
      | some src =>
        cases hdst : b.temp.getLast? with
        | none => simp only [step, hb, if_pos hfull, hsrc, hdst, reduceCtorEq] at hs
        | some dst =>
          simp only [step, hb, if_pos hfull, hsrc, hdst, Option.some.injEq] at hs
          obtain ⟨hfetch, hlen⟩ := hfull
          obtain ⟨hlinking, hnot⟩ := hi.batch v b hb
          have hmem : dst ∈ b.temp := List.mem_of_getLast? hdst
          have htail : s.heap.tail q ≠ some dst := by
            rw [hi.tail (.inl hfetch)]
            exact fun hlast => hnot dst hmem (List.mem_of_getLast? hlast)
          obtain ⟨h', hadd, hp⟩ : ∃ h', queueAddRange s.heap q (.ofNat b.temp.length) src dst = some h' ∧
              Placed s.heap h' q (.ofNat b.temp.length) src dst :=
            queueAddRange_placed (hi.status_eq_zero hfetch) htail
          have hentered := congrArg List.length hi.order
          rw [List.length_append] at hentered
          have hn : (UInt32.ofNat b.temp.length).toNat = b.temp.length := by
            have hbound := hcount b hb
            have hsize : UInt32.size = 2 ^ 32 := rfl
            exact UInt32.toNat_ofNat_of_lt' (by omega)
          rw [hadd] at hs
          subst hs
          refine ⟨_, hi.placed hfetch hp (hlinking.full hlen hsrc hdst) hlinking.nodup hdst hnot hn (hcount b hb)
            fun w b' hb' => ?_⟩
          by_cases hw : w = v
          · subst hw
            rw [update_self] at hb'
            cases hb'
          · rw [update_of_ne hw] at hb'
            exact ⟨hb', hi.apart w v b' b hw hb' hb⟩
    · simp only [step, hb, if_neg hfull, reduceCtorEq] at hs

theorem fetch_step (hi : Inv q s l) (hs : step q s (.fetch : Label ι ν) = some s') : Inv q s' l := by
  obtain ⟨hfetch, rfl⟩ : s.fetch = none ∧
      { s with fetch := some (min (s.heap.status q).toNat (taskNum - 1)) } = s' := by
    simpa only [step, Option.ite_none_right_eq_some, Option.some.injEq] using hs
  refine ⟨hi.fault, hi.nodup, hi.path, hi.status, fun _ => hi.tail (.inl hfetch), fun n hn => ?_, hi.order,
    hi.batch, hi.apart⟩
  rw [← Option.some.inj hn, ← hi.status]
  exact Nat.min_le_left _ _

theorem pop (hi : Inv q s l) (hs : step q s (.pop : Label ι ν) = some s') : ∃ l', Inv q s' l' := by
  match hfetch : s.fetch, hs with
  | none, hs => simp only [step, hfetch, reduceCtorEq] at hs
  | some 0, hs => simp only [step, hfetch, reduceCtorEq] at hs
  | some (n + 1), hs =>
    simp only [step, hfetch, Option.some.injEq] at hs
    have hle := hi.fetch (n + 1) hfetch
    cases l with
    | nil => exact absurd hle (Nat.not_succ_le_zero n)
    | cons x l =>
      obtain ⟨hhead, hrest⟩ := hi.path
      have hcount := hi.status
      rw [List.length_cons] at hcount
      have hone : (1 : UInt32) ≤ s.heap.status q := by
        rw [UInt32.le_iff_toNat_le, hcount]
        exact Nat.le_add_left 1 _
      simp only [State.popHead, hhead] at hs
      subst hs
      refine ⟨l, hi.fault, hi.nodup.of_cons, ?_, ?_, fun hne => ?_, fun m hm => ?_, ?_, fun v b hb => ?_, hi.apart⟩
      · change Path s.heap.next (update s.heap.head q (s.heap.next x) q) l none
        rw [update_self]
        exact hrest
      · change (update s.heap.status q (s.heap.status q - 1) q).toNat = l.length
        rw [update_self, UInt32.toNat_sub_of_le _ _ hone, hcount]
        rfl
      · have hne := hne.resolve_left nofun
        exact (hi.tail (.inr (List.cons_ne_nil x l))).trans (List.getLast?_cons_of_ne_nil hne)
      · rw [← Option.some.inj hm]
        exact Nat.le_of_succ_le_succ hle
      · change s.popped ++ [x] ++ l = s.entered
        rw [List.append_assoc]
        exact hi.order
      · obtain ⟨hlinking, hnot⟩ := hi.batch v b hb
        exact ⟨hlinking, fun y hy hmem => hnot y hy (List.mem_cons_of_mem x hmem)⟩

theorem release (hi : Inv q s l) (hs : step q s (.release : Label ι ν) = some s') : Inv q s' l := by
  match hfetch : s.fetch, hs with
  | none, hs => simp only [step, hfetch, reduceCtorEq] at hs
  | some (n + 1), hs => simp only [step, hfetch, reduceCtorEq] at hs
  | some 0, hs =>
    simp only [step, hfetch, Option.some.injEq] at hs
    cases l with
    | nil =>
      have hhead : s.heap.head q = none := hi.path
      simp only [closeFetch, hhead] at hs
      subst hs
      exact ⟨hi.fault, hi.nodup, hi.path, hi.status, fun _ => update_self _ _ _, nofun, hi.order, hi.batch, hi.apart⟩
    | cons x l =>
      have htail := hi.tail (.inr (List.cons_ne_nil x l))
      simp only [closeFetch, hi.path.1] at hs
      subst hs
      exact ⟨hi.fault, hi.nodup, hi.path, hi.status, fun _ => htail, nofun, hi.order, hi.batch, hi.apart⟩

theorem step {label : Label ι ν} (hi : Inv q s l) (hproper : Proper s label) (hcount : Counted s label)
    (hs : step q s label = some s') : ∃ l', Inv q s' l' := by
  cases label with
  | add x => exact ⟨_, hi.add hproper hcount hs⟩
  | start v temp => exact ⟨l, hi.start hproper hs⟩
  | link v => exact ⟨l, hi.link hs⟩
  | addRange v => exact hi.addRange hcount hs
  | fetch => exact ⟨l, hi.fetch_step hs⟩
  | pop => exact hi.pop hs
  | release => exact ⟨l, hi.release hs⟩

end Inv

/-! ### Whole runs -/

theorem Reachable.inv {s : State ι κ ω ν} (hs : Reachable q s) : ∃ l, Inv q s l := by
  refine Reach.invariant (I := fun s => ∃ l, Inv q s l) ?_ ?_ hs
  · exact fun s hinit => ⟨[], .init hinit⟩
  · rintro s label s' ⟨l, hi⟩ ⟨hproper, hcount⟩ hstep
    exact hi.step hproper hcount hstep

/-- The chain from the head visits the items of `l`, which are as many as `status` says, and ends
    at the tail; they are what went in behind what came out. -/
structure Chained (q : κ) (s : State ι κ ω ν) (l : List ι) : Prop where
  path : Path s.heap.next (s.heap.head q) l none
  nodup : l.Nodup
  status : (s.heap.status q).toNat = l.length
  tail : s.heap.tail q = l.getLast?
  last : ∀ t, s.heap.tail q = some t → s.heap.next t = none
  empty : s.heap.status q = 0 → s.heap.head q = none ∧ s.heap.tail q = none
  order : s.popped ++ l = s.entered

omit [DecidableEq ι] [DecidableEq κ] [DecidableEq ν] in
theorem Inv.chained {s : State ι κ ω ν} (hi : Inv q s l) (hfetch : s.fetch = none) : Chained q s l where
  path := hi.path
  nodup := hi.nodup
  status := hi.status
  tail := hi.tail (.inl hfetch)
  last t ht := hi.path.last ((hi.tail (.inl hfetch)).symm.trans ht)
  empty hzero := by
    have hlen := hi.status
    rw [hzero] at hlen
    have hnil : l = [] := List.length_eq_zero_iff.mp hlen.symm
    subst hnil
    exact ⟨hi.path, hi.tail (.inl hfetch)⟩
  order := hi.order

/-- **The global run queue**: no `NULL` is followed, items come out in the order they went in, and
    whenever the lock is free the links are those of a list of the others. -/
theorem chain_of_reachable (q : κ) (s : State ι κ ω ν) (hs : Reachable q s) :
    s.fault = false ∧ ∃ l, s.popped ++ l = s.entered ∧ (s.fetch = none → Chained q s l) := by
  obtain ⟨l, hi⟩ := hs.inv
  exact ⟨hi.fault, l, hi.order, hi.chained⟩

/-- Nothing was ever queued. -/
def blank : State Nat Unit Unit Unit := ⟨zeros (), fun _ => none, none, [], [], false⟩

theorem blank_init : Init () blank := ⟨zeros_fresh () (), rfl, rfl, rfl, rfl, fun _ => rfl⟩

/-- An item is added, popped and added again. -/
theorem chain_of_reachable_again : ∃ s : State Nat Unit Unit Unit,
    Reachable () s ∧ s.entered = [7, 7] ∧ s.popped = [7] ∧
      s.fault = false ∧ ∃ l, s.popped ++ l = s.entered ∧ (s.fetch = none → Chained () s l) := by
  have hadd : Reachable () _ := .next (.add 7) (.start blank_init) ⟨⟨rfl, nofun⟩, show 0 + 1 < 0 + 2 ^ 32 by decide⟩ rfl
  have hfetch : Reachable () _ := .next .fetch hadd ⟨trivial, trivial⟩ rfl
  have hpop : Reachable () _ := .next .pop hfetch ⟨trivial, trivial⟩ rfl
  have hrelease : Reachable () _ := .next .release hpop ⟨trivial, trivial⟩ rfl
  have hagain : Reachable () _ := .next (.add 7) hrelease ⟨⟨rfl, nofun⟩, show 1 + 1 < 1 + 2 ^ 32 by decide⟩ rfl
  exact ⟨_, hagain, rfl, rfl, chain_of_reachable () _ hagain⟩

/-- `status` counts up to 2^32. -/
theorem chain_not_counted : ¬ ∀ s : State Nat Unit Unit Unit, Reach (step ()) Proper (Init ()) s →
    s.fault = false ∧ ∃ l, s.popped ++ l = s.entered ∧ (s.fetch = none → Chained () s l) := by
  intro h
  have hadds (n : Nat) : ∃ s : State Nat Unit Unit Unit, Reach (step ()) Proper (Init ()) s ∧
      s.fetch = none ∧ s.popped = [] ∧ s.entered = List.range n ∧ ∀ v, s.batch v = none := by
    induction n with
    | zero => exact ⟨blank, .start blank_init, rfl, rfl, rfl, fun _ => rfl⟩
    | succ n ih =>
      obtain ⟨s, hs, hfetch, hpopped, hentered, hbatch⟩ := ih
      have hout : Out s n := by
        refine ⟨?_, fun v b hb => ?_⟩
        · rw [hentered, hpopped]
          exact List.count_eq_zero.mpr List.not_mem_range_self
        · rw [hbatch v] at hb
          cases hb
      have hnext : Reach (step ()) Proper (Init ()) (s.place [n] (queueAdd s.heap () n)) :=
        .next (.add n) hs hout (if_pos hfetch)
      have hfault := (h _ hnext).1
      cases hadd : queueAdd s.heap () n with
      | none =>
        rw [hadd] at hfault
        cases hfault
      | some h' =>
        rw [hadd] at hnext
        refine ⟨_, hnext, hfetch, hpopped, ?_, hbatch⟩
        change s.entered ++ [n] = _
        rw [hentered, List.range_succ]
  obtain ⟨s, hs, hfetch, hpopped, hentered, _⟩ := hadds (2 ^ 32)
  obtain ⟨_, l, _, hchained⟩ := h s hs
  have horder := congrArg List.length (hchained hfetch).order
  have hstatus := (hchained hfetch).status
  have hlt := (s.heap.status ()).toNat_lt
  rw [hpopped, hentered, List.nil_append, List.length_range] at horder
  omega

end Coroc.GlobalQueue
