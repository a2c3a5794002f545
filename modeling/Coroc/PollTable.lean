import Mathlib.Data.List.Count
import Mathlib.Logic.Function.Basic
import Mathlib.Tactic.Choose

/-!
# The poll backend (`src/src/netpoll_poll.c`)

The manager keeps the waiting descriptors in an array, with their `struct pollfd` beside
them, and each descriptor its index.  `__coroc_netpoll_rem` moves the last entry to the place
of the one it removes.  `__coroc_netpoll_polling` goes over the array after `poll` has
returned and wakes the waiters, which removes them.

* `Consistent` is the invariant of a table that `add` and `rem` have built.
* `polling_wakes_all`: a pass wakes every descriptor of the table, whatever its `revents`,
  and reads the second half of the slots after they were given up.
* `polling_exact_iff`: so a pass wakes the ready ones alone just if there is one entry.
-/

namespace Coroc.PollTable

/-! ### The manager -/

def netpollRead : UInt32 := 1
def netpollWrite : UInt32 := 2
def netpollError : UInt32 := 4

def pollIn : UInt16 := 0x1
def pollOut : UInt16 := 0x4
def pollErr : UInt16 := 0x8
def pollRdHup : UInt16 := 0x2000

/-- `struct pollfd`. -/
structure PollFd where
  fd : Int32
  events : UInt16
  revents : UInt16
deriving DecidableEq, Repr

/-- The fields of a descriptor that the backend uses. -/
structure Desc where
  done : Bool
  fd : Int32
  mode : UInt32
  id : Nat
deriving DecidableEq, Repr

/-- `coroc_netpoll_manager`, over descriptors named by `δ`; a slot that was never written is
    `none`.  The last two fields are not in the source: the descriptors that were woken, and
    the slots that were read at or beyond `size`. -/
structure Manager (δ : Type) where
  cap : Nat
  size : Nat
  fds : Nat → PollFd
  table : Nat → Option δ
  desc : δ → Desc
  woken : List δ
  stale : List Nat

variable {δ : Type} [DecidableEq δ]

/-- `__coroc_netpoll_init`. -/
def init (max : Nat) (fds : Nat → PollFd) (desc : δ → Desc) : Manager δ where
  cap := max
  size := 0
  fds := fds
  table := fun _ => none
  desc := desc
  woken := []
  stale := []

def Manager.setDesc (m : Manager δ) (d : δ) (f : Desc → Desc) : Manager δ :=
  { m with desc := Function.update m.desc d (f (m.desc d)) }

/-- `__coroc_netpoll_add`. -/
def add (m : Manager δ) (d : δ) : Manager δ :=
  let m := if m.size = m.cap then { m with cap := m.cap * 2 } else m
  let events := if (m.desc d).mode &&& netpollRead ≠ 0 then pollIn else 0
  let events := if (m.desc d).mode &&& netpollWrite ≠ 0 then events ||| pollOut else events
  { m.setDesc d fun x => { x with id := m.size } with
    table := Function.update m.table m.size (some d)
    fds := Function.update m.fds m.size ⟨(m.desc d).fd, events, 0⟩
    size := m.size + 1 }

/-- `__coroc_netpoll_rem`. -/
def rem (m : Manager δ) (d : δ) : Manager δ :=
  let id := (m.desc d).id
  let last := m.table (m.size - 1)
  let m := { m with
    fds := Function.update m.fds id (m.fds (m.size - 1))
    table := Function.update m.table id last
    size := m.size - 1 }
  match last with
  | some e => m.setDesc e fun x => { x with id := id }
  | none => m

/-- `coroc_netpoll_wakeup`. -/
def wakeup (m : Manager δ) (d : δ) : Manager δ :=
  let m := rem m d
  { m with woken := m.woken ++ [d] }

/-! ### A pass -/

/-- `poll` sets `revents` of the first `size` entries. -/
def poll (m : Manager δ) (revents : Nat → UInt16) : Manager δ :=
  { m with fds := fun i => if i < m.size then { m.fds i with revents := revents i } else m.fds i }

/-- The loop body, with the local variable `mode`. -/
def iterate (p : Manager δ × UInt32) (i : Nat) : Manager δ × UInt32 :=
  let m := if i < p.1.size then p.1 else { p.1 with stale := p.1.stale ++ [i] }
  match m.table i with
  | none => (m, p.2)
  | some d =>
    if (m.desc d).done then (m, p.2)
    else
      let m := m.setDesc d fun x => { x with done := true }
      let revents := (m.fds i).revents
      let want := (m.desc d).mode
      let mode :=
        if revents &&& pollErr ≠ 0 then netpollError
        else
          let mode := if want &&& netpollRead ≠ 0 ∧ revents &&& (pollIn ||| pollRdHup) ≠ 0 then
            p.2 ||| netpollRead else p.2
          if want &&& netpollWrite ≠ 0 ∧ revents &&& pollOut ≠ 0 then mode ||| netpollWrite else mode
      (wakeup (m.setDesc d fun x => { x with mode := mode }) d, mode)

/-- `__coroc_netpoll_polling`, when `poll` returns a positive number. -/
def polling (m : Manager δ) (revents : Nat → UInt16) : Manager δ :=
  ((List.range m.size).foldl iterate (poll m revents, 0)).1

/-! ### Tables -/

/-- The manager after calls of `add`, with new descriptors, and `rem`. -/
inductive Built : Manager δ → Prop
  | init (max : Nat) (fds : Nat → PollFd) (desc : δ → Desc) : Built (init max fds desc)
  | add {m : Manager δ} {d : δ} (h : Built m) (hnew : ∀ i < m.size, m.table i ≠ some d)
      (hdone : (m.desc d).done = false) : Built (add m d)
  | rem {m : Manager δ} {d : δ} (h : Built m) (hmem : ∃ i < m.size, m.table i = some d) :
      Built (rem m d)

/-- Every entry is a descriptor that waits, with its index and its file. -/
structure Entry (m : Manager δ) (i : Nat) (d : δ) : Prop where
  table : m.table i = some d
  id : (m.desc d).id = i
  fd : (m.fds i).fd = (m.desc d).fd
  waits : (m.desc d).done = false

def Consistent (m : Manager δ) : Prop := ∀ i < m.size, ∃ d, Entry m i d

section
variable {m : Manager δ} {d e : δ} {i j : Nat}

theorem add_size : (add m d).size = m.size + 1 := by
  unfold add
  split <;> rfl

theorem add_table : (add m d).table = Function.update m.table m.size (some d) := by
  unfold add
  split <;> rfl

theorem add_desc :
    (add m d).desc = Function.update m.desc d { m.desc d with id := m.size } := by
  unfold add
  split <;> rfl

theorem add_fds (i : Nat) : ((add m d).fds i).fd =
    if i = m.size then (m.desc d).fd else (m.fds i).fd := by
  have hfds : ∃ events, (add m d).fds = Function.update m.fds m.size ⟨(m.desc d).fd, events, 0⟩ := by
    unfold add
    split
    · exact ⟨_, rfl⟩
    · exact ⟨_, rfl⟩
  obtain ⟨events, hfds⟩ := hfds
  rw [hfds]
  by_cases hi : i = m.size
  · rw [hi, Function.update_self, if_pos rfl]
  · rw [Function.update_of_ne hi, if_neg hi]

/-- The last entry takes the place of the one that is removed. -/
theorem rem_eq (h : m.table (m.size - 1) = some e) : rem m d =
    { m with
      fds := Function.update m.fds (m.desc d).id (m.fds (m.size - 1))
      table := Function.update m.table (m.desc d).id (some e)
      size := m.size - 1
      desc := Function.update m.desc e { m.desc e with id := (m.desc d).id } } := by
  simp only [rem, h, Manager.setDesc]

theorem Consistent.add (h : Consistent m) (hnew : ∀ i < m.size, m.table i ≠ some d)
    (hdone : (m.desc d).done = false) : Consistent (add m d) := by
  intro i hi
  rw [add_size] at hi
  by_cases hlast : i = m.size
  · refine ⟨d, ?_, ?_, ?_, ?_⟩
    · rw [add_table, hlast, Function.update_self]
    · rw [add_desc, hlast, Function.update_self]
    · rw [add_fds, if_pos hlast, add_desc, Function.update_self]
    · rw [add_desc, Function.update_self]
      exact hdone
  · obtain ⟨e, he⟩ := h i (by omega)
    have hne : e ≠ d := by
      rintro rfl
      exact hnew i (by omega) he.table
    refine ⟨e, ?_, ?_, ?_, ?_⟩
    · rw [add_table, Function.update_of_ne hlast, he.table]
    · rw [add_desc, Function.update_of_ne hne, he.id]
    · rw [add_fds, if_neg hlast, add_desc, Function.update_of_ne hne, he.fd]
    · rw [add_desc, Function.update_of_ne hne, he.waits]

theorem Consistent.rem (h : Consistent m) (hmem : ∃ i < m.size, m.table i = some d) :
    Consistent (rem m d) := by
  obtain ⟨k, hk, hd⟩ := hmem
  obtain ⟨e, he⟩ := h (m.size - 1) (by omega)
  intro i hi
  rw [rem_eq he.table] at hi ⊢
  have hilast : i < m.size - 1 := hi
  by_cases hid : i = (m.desc d).id
  · refine ⟨e, ?_, ?_, ?_, ?_⟩
    · simp only [hid, Function.update_self]
    · simp only [hid, Function.update_self]
    · simp only [hid, Function.update_self, he.fd]
    · simp only [Function.update_self, he.waits]
  · obtain ⟨d', hd'⟩ := h i (by omega)
    have hne : d' ≠ e := by
      rintro rfl
      have hsame := he.id.symm.trans hd'.id
      omega
    refine ⟨d', ?_, ?_, ?_, ?_⟩
    · simp only [Function.update_of_ne hid, hd'.table]
    · simp only [Function.update_of_ne hne, hd'.id]
    · simp only [Function.update_of_ne hid, Function.update_of_ne hne, hd'.fd]
    · simp only [Function.update_of_ne hne, hd'.waits]

theorem Built.consistent (h : Built m) : Consistent m := by
  induction h with
  | init max fds desc =>
    intro i hi
    exact absurd hi (Nat.not_lt_zero i)
  | add _ hnew hdone ih => exact ih.add hnew hdone
  | rem _ hmem ih => exact ih.rem hmem

/-- Nothing is woken while the table is built. -/
theorem Built.quiet (h : Built m) : m.woken = [] ∧ m.stale = [] := by
  induction h with
  | init max fds desc => exact ⟨rfl, rfl⟩
  | add _ _ _ ih =>
    unfold PollTable.add
    split
    · exact ih
    · exact ih
  | rem _ _ ih =>
    simp only [PollTable.rem]
    split
    · exact ih
    · exact ih

end

/-! ### The loop -/

/-- Before the round `i` of a pass over `n` entries: the entries before are woken, those from
    `i` on are still read at their old places, and the ones at the end were moved to the
    front, in reverse order. -/
structure Mid (n : Nat) (entry : Nat → δ) (i : Nat) (m : Manager δ) : Prop where
  size : m.size = n - i
  woken : m.woken = (List.range i).map entry
  stale : m.stale = (List.range i).filter fun j => n - j ≤ j
  slots : ∀ j, i ≤ j → j < n → m.table j = some (entry j)
  moved : ∀ j, i ≤ j → j < n → n - i ≤ j → m.table (n - 1 - j) = some (entry j)
  id : ∀ j, i ≤ j → j < n → (m.desc (entry j)).id = if j < n - i then j else n - 1 - j
  waits : ∀ j, i ≤ j → j < n → (m.desc (entry j)).done = false

section
variable {m : Manager δ} {p : Manager δ × UInt32} {d : δ} {entry : Nat → δ} {n i : Nat}

/-- A round that finds a waiter wakes it, whatever its `revents`. -/
theorem iterate_wakes (hd : p.1.table i = some d) (hdone : (p.1.desc d).done = false) :
    ∃ m mode, iterate p i = (wakeup m d, mode) ∧ m.size = p.1.size ∧ m.table = p.1.table ∧
      m.woken = p.1.woken ∧ m.stale = p.1.stale ++ (if p.1.size ≤ i then [i] else []) ∧
      (∀ e, (m.desc e).id = (p.1.desc e).id) ∧
      ∀ e, e ≠ d → (m.desc e).done = (p.1.desc e).done := by
  have hmarked : ∃ m, (if i < p.1.size then p.1 else { p.1 with stale := p.1.stale ++ [i] }) = m ∧
      m.size = p.1.size ∧ m.table = p.1.table ∧ m.woken = p.1.woken ∧ m.desc = p.1.desc ∧
      m.stale = p.1.stale ++ (if p.1.size ≤ i then [i] else []) := by
    refine ⟨_, rfl, ?_⟩
    by_cases hi : i < p.1.size
    · rw [if_pos hi, if_neg (Nat.not_le.mpr hi), List.append_nil]
      exact ⟨rfl, rfl, rfl, rfl, rfl⟩
    · rw [if_neg hi, if_pos (Nat.not_lt.mp hi)]
      exact ⟨rfl, rfl, rfl, rfl, rfl⟩
  obtain ⟨m, hm, hsize, htable, hwoken, hdesc, hstale⟩ := hmarked
  have hround : ∃ mode, iterate p i = (wakeup ((m.setDesc d fun x => { x with done := true }).setDesc d
      fun x => { x with mode := mode }) d, mode) := by
    simp only [iterate, hm, htable, hd, hdesc, hdone]
    exact ⟨_, rfl⟩
  obtain ⟨mode, hround⟩ := hround
  refine ⟨_, mode, hround, hsize, htable, hwoken, hstale, ?_, ?_⟩
  · intro e
    simp only [Manager.setDesc, Function.update_idem, Function.update_self, hdesc]
    by_cases he : e = d
    · rw [he, Function.update_self]
    · rw [Function.update_of_ne he]
  · intro e he
    simp only [Manager.setDesc, Function.update_of_ne he, hdesc]

theorem Mid.iterate (h : Mid n entry i p.1) (hi : i < n)
    (hinj : ∀ j < n, ∀ k < n, entry j = entry k → j = k) : Mid n entry (i + 1) (iterate p i).1 := by
  obtain ⟨m, mode, heq, hsize, htable, hwoken, hstale, hid, hdone⟩ :=
    iterate_wakes (h.slots i (Nat.le_refl i) hi) (h.waits i (Nat.le_refl i) hi)
  -- the last entry, and its place: it is either still where it was or the one at hand
  have hlast : ∃ k, i ≤ k ∧ k < n ∧ m.table (m.size - 1) = some (entry k) ∧
      (if i < n - i then k = n - 1 - i else k = i) := by
    rw [htable, hsize, h.size]
    by_cases hhalf : i < n - i
    · refine ⟨n - i - 1, by omega, by omega, h.slots _ (by omega) (by omega), ?_⟩
      rw [if_pos hhalf]
      omega
    · refine ⟨i, Nat.le_refl i, hi, ?_, ?_⟩
      · have hmoved := h.moved i (Nat.le_refl i) hi (by omega)
        rw [← hmoved]
        congr 1
        omega
      · rw [if_neg hhalf]
  obtain ⟨k, hik, hkn, hk, hplace⟩ := hlast
  have hother : ∀ j, i + 1 ≤ j → j < n → entry j ≠ entry i := by
    intro j hj hjn hsame
    have := hinj j hjn i hi hsame
    omega
  have hidi : (m.desc (entry i)).id = if i < n - i then i else n - 1 - i := by
    rw [hid, h.id i (Nat.le_refl i) hi]
  rw [heq, wakeup, rem_eq hk]
  refine ⟨?_, ?_, ?_, ?_, ?_, ?_, ?_⟩
  · simp only [hsize, h.size]
    omega
  · simp only [hwoken, h.woken, List.range_succ, List.map_append, List.map_cons, List.map_nil]
  · simp only [hstale, h.stale, h.size, List.range_succ, List.filter_append, List.filter_cons,
      List.filter_nil, decide_eq_true_eq]
  · intro j hj hjn
    have hne : j ≠ (m.desc (entry i)).id := by
      rw [hidi]
      split <;> omega
    simp only [Function.update_of_ne hne, htable, h.slots j (by omega) hjn]
  · intro j hj hjn hmoved
    by_cases hjk : i < n - i ∧ j = n - 1 - i
    · obtain ⟨hhalf, rfl⟩ := hjk
      rw [if_pos hhalf] at hidi hplace
      have hhere : n - 1 - (n - 1 - i) = (m.desc (entry i)).id := by omega
      simp only [hhere, Function.update_self, hplace]
    · have hne : n - 1 - j ≠ (m.desc (entry i)).id := by
        rw [hidi]
        split <;> omega
      simp only [Function.update_of_ne hne, htable]
      exact h.moved j (by omega) hjn (by omega)
  · intro j hj hjn
    by_cases hjk : j = k
    · have hhalf : i < n - i := by
        by_contra hhalf
        rw [if_neg hhalf] at hplace
        omega
      rw [if_pos hhalf] at hidi hplace
      simp only [hjk, Function.update_self, hidi]
      rw [if_neg (by omega)]
      omega
    · have hne : entry j ≠ entry k := fun hsame => hjk (hinj j hjn k hkn hsame)
      simp only [Function.update_of_ne hne, hid, h.id j (by omega) hjn]
      split at hplace <;> split <;> split <;> omega
  · intro j hj hjn
    have hsame : ((Function.update m.desc (entry k)
        { m.desc (entry k) with id := (m.desc (entry i)).id }) (entry j)).done =
        (m.desc (entry j)).done := by
      by_cases hjk : entry j = entry k
      · rw [hjk, Function.update_self]
      · rw [Function.update_of_ne hjk]
    simp only [hsame, hdone _ (hother j hj hjn), h.waits j (by omega) hjn]

theorem Mid.foldl (hinj : ∀ j < n, ∀ k < n, entry j = entry k → j = k) (h : Mid n entry 0 p.1) :
    ∀ k ≤ n, Mid n entry k ((List.range k).foldl PollTable.iterate p).1 := by
  intro k hk
  induction k with
  | zero => exact h
  | succ k ih =>
    rw [List.range_succ, List.foldl_append]
    exact (ih (by omega)).iterate (by omega) hinj

/-- **A pass wakes every descriptor** of the table once, in order and whatever `poll` said, and
    reads the slots of the second half after they were given up. -/
theorem polling_wakes_all (h : Built m) (hentry : ∀ j < m.size, m.table j = some (entry j))
    (revents : Nat → UInt16) :
    (polling m revents).size = 0 ∧ (polling m revents).woken = (List.range m.size).map entry ∧
      (polling m revents).stale = (List.range m.size).filter fun j => m.size - j ≤ j := by
  have hc := h.consistent
  have hentry' : ∀ j < m.size, Entry m j (entry j) := by
    intro j hj
    obtain ⟨d, hd⟩ := hc j hj
    have hsame : d = entry j := Option.some.inj (hd.table.symm.trans (hentry j hj))
    exact hsame ▸ hd
  have hinj : ∀ j < m.size, ∀ k < m.size, entry j = entry k → j = k := by
    intro j hj k hk hsame
    rw [← (hentry' j hj).id, hsame, (hentry' k hk).id]
  have hstart : Mid m.size entry 0 (poll m revents) := by
    refine ⟨rfl, h.quiet.1, h.quiet.2, fun j _ hj => hentry j hj, ?_, ?_, fun j _ hj => ?_⟩
    · intro j _ hj hmoved
      omega
    · intro j _ hj
      rw [if_pos (by omega)]
      exact (hentry' j hj).id
    · exact (hentry' j hj).waits
  have hend := Mid.foldl (p := (poll m revents, 0)) hinj hstart m.size (Nat.le_refl _)
  exact ⟨hend.size.trans (Nat.sub_self _), hend.woken, hend.stale⟩

end

/-! ### The ready ones -/

/-- The descriptor is in the table, with these `revents`. -/
def Reported (m : Manager δ) (revents : Nat → UInt16) (d : δ) (r : UInt16) : Prop :=
  ∃ i < m.size, m.table i = some d ∧ revents i = r

/-- Each ready descriptor is woken once, no other one, no slot beyond the size is read, and
    the others stay in the table, in order. -/
def ExactPass (m : Manager δ) (revents : Nat → UInt16) : Prop :=
  let m' := polling m revents
  (∀ d r, Reported m revents d r → m'.woken.count d = if r = 0 then 0 else 1) ∧
    (∀ d ∈ m'.woken, ∃ r, Reported m revents d r) ∧ m'.stale = [] ∧
    (∀ d, (∃ i < m'.size, m'.table i = some d) ↔ (∃ i < m.size, m.table i = some d) ∧ d ∉ m'.woken) ∧
    ∀ i < m'.size, ∃ d, m'.table i = some d ∧ (m'.desc d).id = i ∧ (m'.fds i).fd = (m'.desc d).fd

/-- **A pass wakes exactly the ready waiters** if and only if there is a single one in the
    table. -/
theorem polling_exact_iff {m : Manager δ} {revents : Nat → UInt16} (h : Built m)
    (hready : ∃ i < m.size, revents i ≠ 0) : ExactPass m revents ↔ m.size = 1 := by
  obtain ⟨i, hi, hri⟩ := hready
  obtain ⟨d₀, hd₀⟩ := h.consistent i hi
  have hslot : ∀ j, ∃ d, j < m.size → m.table j = some d := by
    intro j
    by_cases hj : j < m.size
    · obtain ⟨d, hd⟩ := h.consistent j hj
      exact ⟨d, fun _ => hd.table⟩
    · exact ⟨d₀, fun hj' => absurd hj' hj⟩
  choose entry hentry using hslot
  obtain ⟨hsize, hwoken, hstale⟩ := polling_wakes_all h hentry revents
  constructor
  · rintro ⟨-, -, hnone, -, -⟩
    by_contra hmany
    rw [hstale, List.filter_eq_nil_iff] at hnone
    have hlast := hnone (m.size - 1) (List.mem_range.mpr (by omega))
    rw [decide_eq_true_eq] at hlast
    omega
  · intro hone
    have hzero : i = 0 := by omega
    subst hzero
    have hwoken' : (polling m revents).woken = [entry 0] := by rw [hwoken, hone]; rfl
    have hstale' : (polling m revents).stale = [] := by rw [hstale, hone]; rfl
    have honly : ∀ d j, j < m.size → m.table j = some d → j = 0 ∧ d = entry 0 := by
      intro d j hj hd
      have hj0 : j = 0 := by omega
      subst hj0
      exact ⟨rfl, Option.some.inj (hd.symm.trans (hentry 0 hj))⟩
    refine ⟨?_, ?_, hstale', ?_, ?_⟩
    · rintro d r ⟨j, hj, hd, hr⟩
      obtain ⟨rfl, rfl⟩ := honly d j hj hd
      rw [hwoken', List.count_singleton_self, if_neg (hr ▸ hri)]
    · intro d hd
      rw [hwoken', List.mem_singleton] at hd
      exact ⟨revents 0, 0, hi, hd ▸ hentry 0 hi, rfl⟩
    · intro d
      constructor
      · rintro ⟨j, hj, -⟩
        omega
      · rintro ⟨⟨j, hj, hd⟩, hnot⟩
        rw [hwoken', (honly d j hj hd).2] at hnot
        exact absurd List.mem_cons_self hnot
    · intro j hj
      omega

/-- The table with `count` new descriptors. -/
def waiting (count : Nat) : Manager Nat :=
  (List.range count).foldl add (init 128 (fun _ => ⟨0, 0, 0⟩) fun d => ⟨false, Int32.ofNat d, netpollRead, 0⟩)

theorem waiting_one : Built (waiting 1) :=
  .add (.init ..) (fun i hi => absurd hi (Nat.not_lt_zero i)) rfl

theorem waiting_two : Built (waiting 2) := by
  refine .add waiting_one ?_ rfl
  intro i hi
  have hzero : i = 0 := Nat.lt_one_iff.mp hi
  subst hzero
  decide

theorem polling_exact_oneWaiter :
    Built (waiting 1) ∧ ExactPass (waiting 1) (fun _ => pollIn) :=
  ⟨waiting_one, (polling_exact_iff waiting_one ⟨0, by decide, by decide⟩).mpr rfl⟩

/-- Two descriptors, of which the first is ready: both are woken, and the slot of the second
    is read when the size is 1. -/
theorem polling_wakes_other :
    let revents : Nat → UInt16 := fun i => if i = 0 then pollIn else 0
    (polling (waiting 2) revents).woken = [0, 1] ∧ (polling (waiting 2) revents).stale = [1] ∧
      Built (waiting 2) ∧ ¬ ExactPass (waiting 2) revents := by
  intro revents
  refine ⟨by decide, by decide, waiting_two, ?_⟩
  rintro ⟨-, -, hstale, -, -⟩
  exact absurd hstale (by decide)

end Coroc.PollTable
