import Mathlib.Data.Finset.Card
import Mathlib.Data.Fintype.Basic
import Mathlib.Logic.Function.Basic

/-!
# The hash table (`src/src/hash.c`)

A cuckoo hash with two tables.  An entry has one place in each of them; an insertion puts
the new entry in its place in the first table, moves the entry that was there to its place
in the other table, and so on, at most `LIMIT` times; then the tables are doubled and the
entry that is left over is inserted again.

* `Represents`: the entries of the two tables are a finite map.
* `hash_is_map`: over every sequence of insertions and look-ups the table answers as the
  finite map does, as long as no key is inserted that already has its place in the second
  table, and the insertions find room (`Fits`).  `__resize` reads all entries of the old
  tables, so it needs them to be full.
* `resize_iff`: that is all it needs.
-/

namespace Coroc.CuckooHash

/-- `hash_entry_t`. -/
structure Entry (V : Type) where
  key : UInt64
  value : V
deriving DecidableEq, Repr

/-- `hash_t`, without the lock and the cursor. -/
structure Hash (V : Type) where
  capacity : Nat
  table : Fin 2 → Nat → Option (Entry V)

/-- `LIMIT`. -/
def limit : Nat := 6

/-- `__hash_fun0`. -/
def hashFun0 (code : UInt64) : UInt64 := (17 * code + 72343) % 9275507

/-- `__hash_fun1`. -/
def hashFun1 (code : UInt64) : UInt64 := (19 * code + 89145) % 8232341

def hashFun (i : Fin 2) (code : UInt64) : Nat :=
  if i = 0 then (hashFun0 code).toNat else (hashFun1 code).toNat

section
variable {V : Type}

namespace Hash

/-- The place of a key in a table. -/
def pos (ht : Hash V) (i : Fin 2) (key : UInt64) : Nat := hashFun i key % ht.capacity

def slot (ht : Hash V) (i : Fin 2) (key : UInt64) : Option (Entry V) := ht.table i (ht.pos i key)

def setSlot (ht : Hash V) (i : Fin 2) (key : UInt64) (o : Option (Entry V)) : Hash V :=
  { ht with
    table := Function.update ht.table i (Function.update (ht.table i) (ht.pos i key) o) }

end Hash

/-- The loop of `__resize` over one table: the first `n` entries go to a table of the new
    capacity.  There is no result when one of them is `NULL`. -/
def rehash (hash : UInt64 → Nat) (table : Nat → Option (Entry V)) (capacity : Nat) :
    Nat → Option (Nat → Option (Entry V))
  | 0 => some fun _ => none
  | n + 1 =>
    (rehash hash table capacity n).bind fun tmp =>
      (table n).map fun e => Function.update tmp (hash e.key % capacity) (some e)

/-- `__resize`. -/
def resize (ht : Hash V) : Option (Hash V) :=
  let capacity := 2 * ht.capacity
  (rehash (hashFun 0) (ht.table 0) capacity ht.capacity).bind fun tmp0 =>
    (rehash (hashFun 1) (ht.table 1) capacity ht.capacity).map fun tmp1 =>
      ⟨capacity, fun i => if i = 0 then tmp0 else tmp1⟩

/-- How the loop of `__add` ends: with a return, or with an entry that is left over. -/
inductive Kick (V : Type) where
  | done (ht : Hash V) (ret : Int)
  | homeless (ht : Hash V) (e : Entry V)

def addLoop : Nat → Hash V → Entry V → Fin 2 → Kick V
  | 0, ht, e, _ => .homeless ht e
  | k + 1, ht, e, i =>
    match ht.slot i e.key with
    | none => .done (ht.setSlot i e.key (some e)) 0
    | some tmp =>
      if e.key = tmp.key then .done ht (-1)
      else addLoop k (ht.setSlot i e.key (some e)) tmp (i + 1)

/-- `__add`.  Two calls are enough, see `add_enough`. -/
def add : Nat → Hash V → Entry V → Option (Hash V × Int)
  | 0, _, _ => none
  | fuel + 1, ht, e =>
    match addLoop limit ht e 0 with
    | .done ht ret => some (ht, ret)
    | .homeless ht e => (resize ht).bind fun ht => add fuel ht e

/-- `hash_init`. -/
def hashInit : Hash V := ⟨128, fun _ _ => none⟩

/-- `hash_insert`. -/
def hashInsert (ht : Hash V) (key : UInt64) (value : V) : Option (Hash V × Int) :=
  add 2 ht ⟨key, value⟩

def getLoop (ht : Hash V) (key : UInt64) (remove : Bool) : List (Fin 2) → Hash V × Option V
  | [] => (ht, none)
  | i :: is =>
    match ht.slot i key with
    | some e =>
      if e.key = key then (if remove then ht.setSlot i key none else ht, some e.value)
      else getLoop ht key remove is
    | none => getLoop ht key remove is

/-- `hash_get`. -/
def hashGet (ht : Hash V) (key : UInt64) (remove : Bool) : Hash V × Option V :=
  getLoop ht key remove [0, 1]

inductive Op (V : Type) where
  | insert (key : UInt64) (value : V)
  | get (key : UInt64) (remove : Bool)
deriving DecidableEq, Repr

inductive Res (V : Type) where
  | ret (n : Int)
  | value (v : Option V)
deriving DecidableEq, Repr

def exec (ht : Hash V) : Op V → Option (Hash V × Res V)
  | .insert key value => (hashInsert ht key value).map fun p => (p.1, .ret p.2)
  | .get key remove => some ((hashGet ht key remove).1, .value (hashGet ht key remove).2)

/-- A sequence of calls, with what they return. -/
def run (ht : Hash V) : List (Op V) → Option (Hash V × List (Res V))
  | [] => some (ht, [])
  | op :: ops =>
    (exec ht op).bind fun p => (run p.1 ops).map fun q => (q.1, p.2 :: q.2)

/-! ### The finite map -/

/-- What the table is for. -/
abbrev FiniteMap (V : Type) := UInt64 → Option V

namespace FiniteMap

def exec (m : FiniteMap V) : Op V → FiniteMap V × Res V
  | .insert key value =>
    match m key with
    | none => (Function.update m key (some value), .ret 0)
    | some _ => (m, .ret (-1))
  | .get key remove => (if remove then Function.update m key none else m, .value (m key))

def run (m : FiniteMap V) : List (Op V) → FiniteMap V × List (Res V)
  | [] => (m, [])
  | op :: ops => ((run (m.exec op).1 ops).1, (m.exec op).2 :: (run (m.exec op).1 ops).2)

end FiniteMap

/-- The table holds the map: every entry is in its place, no key has two entries, and the
    entries are the pairs of the map. -/
structure Represents (ht : Hash V) (m : FiniteMap V) : Prop where
  pos : 0 < ht.capacity
  home : ∀ i j e, ht.table i j = some e → j = ht.pos i e.key
  single : ∀ i j i' j' e e', ht.table i j = some e → ht.table i' j' = some e' →
    e.key = e'.key → i = i' ∧ j = j'
  pairs : ∀ k v, m k = some v ↔ ∃ i, ht.slot i k = some ⟨k, v⟩

/-! ### Conditions on an insertion -/

/-- The places an insertion goes through, at most `n` of them, end at an empty one. -/
def FindsHole : Nat → Hash V → Entry V → Fin 2 → Prop
  | 0, _, _, _ => False
  | n + 1, ht, e, i =>
    match ht.slot i e.key with
    | none => True
    | some tmp => FindsHole n (ht.setSlot i e.key (some e)) tmp (i + 1)

def Full (ht : Hash V) : Prop := ∀ i j, j < ht.capacity → (ht.table i j).isSome

/-- The same after the tables are doubled, for the entry that is left over. -/
def FindsHoleDoubled : Kick V → Prop
  | .done _ _ => True
  | .homeless ht e =>
    match resize ht with
    | none => True
    | some ht => FindsHole limit ht e 0

/-- There is room for a new entry: the insertion comes to an empty place, or the tables are
    full and it comes to one after they are doubled. -/
def Fits (ht : Hash V) (e : Entry V) : Prop :=
  FindsHole limit ht e 0 ∨ Full ht ∧ FindsHoleDoubled (addLoop limit ht e 0)

/-- The key has its entry in this table. -/
def Hash.Has (ht : Hash V) (i : Fin 2) (key : UInt64) : Prop :=
  (ht.slot i key).map Entry.key = some key

/-- The key is not in the second table, and it is in the first one or there is room. -/
def OpOk (ht : Hash V) : Op V → Prop
  | .insert key value => ¬ ht.Has 1 key ∧ (ht.Has 0 key ∨ Fits ht ⟨key, value⟩)
  | .get _ _ => True

/-- All calls of a sequence meet the condition. -/
def RunOk : Hash V → List (Op V) → Prop
  | _, [] => True
  | ht, op :: ops =>
    OpOk ht op ∧
      match exec ht op with
      | none => True
      | some p => RunOk p.1 ops

instance decidableFindsHole : (n : Nat) → (ht : Hash V) → (e : Entry V) → (i : Fin 2) →
    Decidable (FindsHole n ht e i)
  | 0, _, _, _ => isFalse id
  | n + 1, ht, e, i =>
    show Decidable (match ht.slot i e.key with
      | none => True
      | some tmp => FindsHole n (ht.setSlot i e.key (some e)) tmp (i + 1)) from
    match ht.slot i e.key with
    | none => isTrue trivial
    | some tmp => decidableFindsHole n (ht.setSlot i e.key (some e)) tmp (i + 1)

instance : (r : Kick V) → Decidable (FindsHoleDoubled r)
  | .done _ _ => isTrue trivial
  | .homeless ht e =>
    show Decidable (match resize ht with
      | none => True
      | some ht => FindsHole limit ht e 0) from
    match resize ht with
    | none => isTrue trivial
    | some ht => decidableFindsHole limit ht e 0

instance (ht : Hash V) : Decidable (Full ht) :=
  inferInstanceAs (Decidable (∀ i j, j < ht.capacity → (ht.table i j).isSome))

instance (ht : Hash V) (e : Entry V) : Decidable (Fits ht e) :=
  inferInstanceAs (Decidable (_ ∨ _ ∧ _))

instance (ht : Hash V) (i : Fin 2) (key : UInt64) : Decidable (ht.Has i key) :=
  inferInstanceAs (Decidable ((ht.slot i key).map Entry.key = some key))

instance (ht : Hash V) : (op : Op V) → Decidable (OpOk ht op)
  | .insert _ _ => inferInstanceAs (Decidable (¬ _ ∧ (_ ∨ _)))
  | .get _ _ => isTrue trivial

instance decidableRunOk : (ops : List (Op V)) → (ht : Hash V) → Decidable (RunOk ht ops)
  | [], _ => isTrue trivial
  | op :: ops, ht =>
    have : Decidable (match exec ht op with
        | none => True
        | some p => RunOk p.1 ops) :=
      match exec ht op with
      | none => isTrue trivial
      | some p => decidableRunOk ops p.1
    inferInstanceAs (Decidable (OpOk ht op ∧ _))

/-! ### One slot -/

variable {ht ht' : Hash V} {m : FiniteMap V} {i : Fin 2} {key : UInt64} {e : Entry V}

theorem Hash.setSlot_table (ht : Hash V) (i : Fin 2) (key : UInt64) (o : Option (Entry V))
    (i' : Fin 2) (j : Nat) :
    (ht.setSlot i key o).table i' j = if i' = i ∧ j = ht.pos i key then o else ht.table i' j := by
  unfold Hash.setSlot
  by_cases hi : i' = i
  · subst hi
    by_cases hj : j = ht.pos i' key <;> simp [hj]
  · simp [hi]

theorem Hash.setSlot_slot (ht : Hash V) (i : Fin 2) (key : UInt64) (o : Option (Entry V)) :
    (ht.setSlot i key o).slot i key = o :=
  (ht.setSlot_table i key o i _).trans (if_pos ⟨rfl, rfl⟩)

/-- The places of another key change only where the two keys have the same place. -/
theorem Hash.setSlot_slot_ne (ht : Hash V) {i i' : Fin 2} {key key' : UInt64}
    (o : Option (Entry V)) (h : ¬ (i' = i ∧ ht.pos i' key' = ht.pos i key)) :
    (ht.setSlot i key o).slot i' key' = ht.slot i' key' :=
  (ht.setSlot_table i key o i' _).trans (if_neg h)

theorem Represents.of_table (h : Represents ht m) {i : Fin 2} {j : Nat} {e : Entry V}
    (he : ht.table i j = some e) : m e.key = some e.value := by
  refine (h.pairs e.key e.value).mpr ⟨i, ?_⟩
  rw [Hash.slot, ← h.home i j e he]
  exact he

/-- A key has an entry in one of its two places, or it is not in the map. -/
theorem Represents.eq_none (h : Represents ht m) {key : UInt64} :
    m key = none ↔ ∀ i e, ht.slot i key = some e → e.key ≠ key := by
  constructor
  · intro hm i e he heq
    have hsome := h.of_table he
    rw [heq, hm] at hsome
    cases hsome
  · intro hall
    by_contra hne
    obtain ⟨v, hv⟩ := Option.ne_none_iff_exists'.mp hne
    obtain ⟨i, hi⟩ := (h.pairs key v).mp hv
    exact hall i _ hi rfl

theorem Represents.eq_some (h : Represents ht m) (he : ht.slot i key = some e) (hk : e.key = key) :
    m key = some e.value := by
  subst hk
  exact h.of_table he

theorem represents_hashInit : Represents (hashInit : Hash V) fun _ => none where
  pos := Nat.succ_pos 127
  home _ _ _ h := nomatch h
  single _ _ _ _ _ _ h := nomatch h
  pairs k v := by simp [Hash.slot, hashInit]

/-- A new entry in an empty place. -/
theorem Represents.put (h : Represents ht m) (hslot : ht.slot i e.key = none)
    (hm : m e.key = none) :
    Represents (ht.setSlot i e.key (some e)) (Function.update m e.key (some e.value)) := by
  have hold : ∀ i' j e', (ht.setSlot i e.key (some e)).table i' j = some e' →
      e' = e ∧ i' = i ∧ j = ht.pos i e.key ∨ ht.table i' j = some e' ∧ e'.key ≠ e.key := by
    intro i' j e' he'
    rw [Hash.setSlot_table] at he'
    split at he'
    · rename_i hij
      cases he'
      exact .inl ⟨rfl, hij.1, hij.2⟩
    · refine .inr ⟨he', fun hkey => ?_⟩
      have hsome := h.of_table he'
      rw [hkey, hm] at hsome
      cases hsome
  constructor
  · exact h.pos
  · intro i' j e' he'
    obtain ⟨rfl, rfl, hj⟩ | ⟨he', _⟩ := hold i' j e' he'
    · exact hj
    · exact h.home i' j e' he'
  · intro i₁ j₁ i₂ j₂ e₁ e₂ h₁ h₂ hkey
    obtain ⟨rfl, rfl, rfl⟩ | ⟨h₁, hne₁⟩ := hold i₁ j₁ e₁ h₁
    · obtain ⟨-, hi, hj⟩ | ⟨-, hne₂⟩ := hold i₂ j₂ e₂ h₂
      · exact ⟨hi.symm, hj.symm⟩
      · exact absurd hkey.symm hne₂
    · obtain ⟨rfl, -, -⟩ | ⟨h₂, -⟩ := hold i₂ j₂ e₂ h₂
      · exact absurd hkey hne₁
      · exact h.single i₁ j₁ i₂ j₂ e₁ e₂ h₁ h₂ hkey
  · intro k v
    by_cases hk : k = e.key
    · subst hk
      rw [Function.update_self]
      constructor
      · intro hv
        cases hv
        exact ⟨i, Hash.setSlot_slot ..⟩
      · rintro ⟨i', hi'⟩
        obtain ⟨he, -, -⟩ | ⟨-, hne⟩ := hold i' _ _ hi'
        · rw [← he]
        · exact absurd rfl hne
    · rw [Function.update_of_ne hk, h.pairs]
      refine exists_congr fun i' => ?_
      by_cases hpos : i' = i ∧ ht.pos i' k = ht.pos i e.key
      · obtain ⟨rfl, hpos⟩ := hpos
        have hnone : ht.slot i' k = none := by
          rw [Hash.slot, hpos]
          exact hslot
        have hnew : (ht.setSlot i' e.key (some e)).slot i' k = some e :=
          (ht.setSlot_table i' e.key (some e) i' _).trans (if_pos ⟨rfl, hpos⟩)
        rw [hnone, hnew]
        constructor
        · intro hf
          cases hf
        · intro hf
          cases hf
          exact absurd rfl hk
      · rw [Hash.setSlot_slot_ne _ _ hpos]

/-- An entry is taken out of its place. -/
theorem Represents.remove (h : Represents ht m) (hslot : ht.slot i key = some e)
    (hkey : e.key = key) :
    Represents (ht.setSlot i key none) (Function.update m key none) := by
  subst hkey
  have hold : ∀ i' j e', (ht.setSlot i e.key none).table i' j = some e' →
      ht.table i' j = some e' ∧ e'.key ≠ e.key := by
    intro i' j e' he'
    rw [Hash.setSlot_table] at he'
    split at he'
    · cases he'
    · rename_i hij
      exact ⟨he', fun hkey => hij (h.single i' j i _ e' e he' hslot hkey)⟩
  constructor
  · exact h.pos
  · intro i' j e' he'
    exact h.home i' j e' (hold i' j e' he').1
  · intro i₁ j₁ i₂ j₂ e₁ e₂ h₁ h₂ hkey
    exact h.single i₁ j₁ i₂ j₂ e₁ e₂ (hold i₁ j₁ e₁ h₁).1 (hold i₂ j₂ e₂ h₂).1 hkey
  · intro k v
    by_cases hk : k = e.key
    · subst hk
      rw [Function.update_self]
      constructor
      · intro hv
        cases hv
      · rintro ⟨i', hi'⟩
        exact absurd rfl (hold i' _ _ hi').2
    · rw [Function.update_of_ne hk, h.pairs]
      refine exists_congr fun i' => ?_
      by_cases hpos : i' = i ∧ ht.pos i' k = ht.pos i e.key
      · obtain ⟨rfl, hpos⟩ := hpos
        have hthere : ht.slot i' k = some e := by
          rw [Hash.slot, hpos]
          exact hslot
        have hnew : (ht.setSlot i' e.key none).slot i' k = none :=
          (ht.setSlot_table i' e.key none i' _).trans (if_pos ⟨rfl, hpos⟩)
        rw [hthere, hnew]
        constructor
        · intro hf
          cases hf
          exact absurd rfl hk
        · intro hf
          cases hf
      · rw [Hash.setSlot_slot_ne _ _ hpos]

/-- An entry that is put where another one is: the other one has left the map. -/
theorem Represents.swap (h : Represents ht m) {tmp : Entry V}
    (hslot : ht.slot i e.key = some tmp) (hm : m e.key = none) :
    Represents (ht.setSlot i e.key (some e))
      (Function.update (Function.update m tmp.key none) e.key (some e.value)) := by
  have hpos : ht.pos i e.key = ht.pos i tmp.key := h.home i _ tmp hslot
  have hne : e.key ≠ tmp.key := by
    intro heq
    rw [h.eq_none] at hm
    exact hm i tmp hslot heq.symm
  have htmp : ht.slot i tmp.key = some tmp := by
    rw [Hash.slot, ← hpos]
    exact hslot
  have hempty : (ht.setSlot i tmp.key none).slot i e.key = none :=
    (ht.setSlot_table i tmp.key none i _).trans (if_pos ⟨rfl, hpos⟩)
  have hin := (h.remove htmp rfl).put hempty (by rw [Function.update_of_ne hne]; exact hm)
  -- the slot is written twice
  have hset : (ht.setSlot i tmp.key none).setSlot i e.key (some e) = ht.setSlot i e.key (some e) := by
    unfold Hash.setSlot Hash.pos
    simp only [Function.update_self, Function.update_idem]
    rw [show hashFun i tmp.key % ht.capacity = hashFun i e.key % ht.capacity from hpos.symm,
      Function.update_idem]
  rw [hset] at hin
  exact hin

/-! ### The loop of `__add` -/

/-- Displacing an entry and adding it to the rest comes to the same as adding the new one. -/
theorem update_swap {tmp : Entry V} (htmp : m tmp.key = some tmp.value) (hm : m e.key = none) :
    Function.update (Function.update (Function.update m tmp.key none) e.key (some e.value)) tmp.key
      (some tmp.value) = Function.update m e.key (some e.value) := by
  have hne : tmp.key ≠ e.key := by
    intro heq
    rw [heq, hm] at htmp
    cases htmp
  rw [Function.update_comm hne.symm, Function.update_idem, ← htmp, Function.update_eq_self]

/-- An insertion that comes to an empty place adds its entry to the map. -/
theorem Represents.addLoop_done {n : Nat} : ∀ {ht : Hash V} {m : FiniteMap V} {e : Entry V}
    {i : Fin 2}, Represents ht m → m e.key = none → FindsHole n ht e i →
      ∃ ht', addLoop n ht e i = .done ht' 0 ∧
        Represents ht' (Function.update m e.key (some e.value)) := by
  induction n with
  | zero =>
    intro ht m e i _ _ hole
    exact hole.elim
  | succ n ih =>
    intro ht m e i h hm hole
    rcases hslot : ht.slot i e.key with _ | tmp
    · refine ⟨ht.setSlot i e.key (some e), ?_, h.put hslot hm⟩
      simp only [addLoop, hslot]
    · have hne : e.key ≠ tmp.key := fun heq => h.eq_none.mp hm i tmp hslot heq.symm
      have htmp : m tmp.key = some tmp.value := h.of_table hslot
      simp only [FindsHole, hslot] at hole
      obtain ⟨ht', hadd, hrep⟩ := ih (h.swap hslot hm) (by
        rw [Function.update_of_ne hne.symm, Function.update_self]) hole
      refine ⟨ht', ?_, ?_⟩
      · simp only [addLoop, hslot]
        rw [if_neg hne]
        exact hadd
      · rw [update_swap htmp hm] at hrep
        exact hrep

/-- An insertion that comes to none leaves one entry over; with it the map is complete. -/
theorem Represents.addLoop_homeless {n : Nat} : ∀ {ht : Hash V} {m : FiniteMap V} {e : Entry V}
    {i : Fin 2}, Represents ht m → m e.key = none → ¬ FindsHole n ht e i →
      ∃ ht' e' m', addLoop n ht e i = .homeless ht' e' ∧ Represents ht' m' ∧ m' e'.key = none ∧
        Function.update m' e'.key (some e'.value) = Function.update m e.key (some e.value) := by
  induction n with
  | zero =>
    intro ht m e i h hm _
    exact ⟨ht, e, m, rfl, h, hm, rfl⟩
  | succ n ih =>
    intro ht m e i h hm hole
    rcases hslot : ht.slot i e.key with _ | tmp
    · simp only [FindsHole, hslot, not_true_eq_false] at hole
    · have hne : e.key ≠ tmp.key := fun heq => h.eq_none.mp hm i tmp hslot heq.symm
      have htmp : m tmp.key = some tmp.value := h.of_table hslot
      simp only [FindsHole, hslot] at hole
      obtain ⟨ht', e', m', hadd, hrep, hm', hup⟩ := ih (h.swap hslot hm) (by
        rw [Function.update_of_ne hne.symm, Function.update_self]) hole
      refine ⟨ht', e', m', ?_, hrep, hm', hup.trans (update_swap htmp hm)⟩
      simp only [addLoop, hslot]
      rw [if_neg hne]
      exact hadd

/-- The loop empties no slot; one that it fills is the last it comes to. -/
theorem addLoop_slots {n : Nat} : ∀ {ht ht' : Hash V} {e e' : Entry V} {i : Fin 2},
    addLoop n ht e i = .homeless ht' e' →
      ht'.capacity = ht.capacity ∧ ∀ i j, ht'.table i j = none ↔ ht.table i j = none := by
  induction n with
  | zero =>
    intro ht ht' e e' i hadd
    cases hadd
    exact ⟨rfl, fun _ _ => Iff.rfl⟩
  | succ n ih =>
    intro ht ht' e e' i hadd
    rcases hslot : ht.slot i e.key with _ | tmp
    · simp only [addLoop, hslot] at hadd
      cases hadd
    · simp only [addLoop, hslot] at hadd
      split at hadd
      · cases hadd
      · obtain ⟨hcap, hall⟩ := ih hadd
        refine ⟨hcap, fun i' j => (hall i' j).trans ?_⟩
        rw [Hash.setSlot_table]
        split
        · rename_i hij
          obtain ⟨rfl, rfl⟩ := hij
          have hsome : ht.table i' (ht.pos i' e.key) = some tmp := hslot
          simp [hsome]
        · exact Iff.rfl

theorem Full.of_slots (hfull : Full ht) (hcap : ht'.capacity = ht.capacity)
    (hslots : ∀ i j, ht'.table i j = none ↔ ht.table i j = none) : Full ht' := by
  intro i j hj
  rw [Option.isSome_iff_ne_none, ne_eq, hslots, ← ne_eq, ← Option.isSome_iff_ne_none]
  exact hfull i j (hcap ▸ hj)

/-! ### `__resize` -/

/-- The loop over one table copies the entries to their new places, when no two of them
    have the same. -/
theorem rehash_spec {hash : UInt64 → Nat} {table : Nat → Option (Entry V)} {capacity : Nat}
    (n : Nat) (hfull : ∀ j < n, (table j).isSome)
    (hinj : ∀ j₁ j₂ e₁ e₂, table j₁ = some e₁ → table j₂ = some e₂ →
      hash e₁.key % capacity = hash e₂.key % capacity → j₁ = j₂) :
    ∃ tmp, rehash hash table capacity n = some tmp ∧
      ∀ p e, tmp p = some e ↔ ∃ j < n, table j = some e ∧ p = hash e.key % capacity := by
  induction n with
  | zero => exact ⟨fun _ => none, rfl, fun p e => by simp⟩
  | succ n ih =>
    obtain ⟨tmp, hre, hall⟩ := ih fun j hj => hfull j (Nat.lt_succ_of_lt hj)
    obtain ⟨e, he⟩ := Option.isSome_iff_exists.mp (hfull n (Nat.lt_succ_self n))
    refine ⟨Function.update tmp (hash e.key % capacity) (some e), by simp [rehash, hre, he], ?_⟩
    intro p e'
    by_cases hp : p = hash e.key % capacity
    · subst hp
      rw [Function.update_self]
      constructor
      · intro heq
        cases heq
        exact ⟨n, Nat.lt_succ_self n, he, rfl⟩
      · rintro ⟨j, _, hj, hpos⟩
        have hjn := hinj n j e e' he hj hpos
        subst hjn
        rw [← he, ← hj]
    · rw [Function.update_of_ne hp, hall]
      constructor
      · rintro ⟨j, hj, htab, hpos⟩
        exact ⟨j, Nat.lt_succ_of_lt hj, htab, hpos⟩
      · rintro ⟨j, hj, htab, hpos⟩
        have hjn : j ≠ n := by
          rintro rfl
          rw [he] at htab
          cases htab
          exact hp hpos
        exact ⟨j, by omega, htab, hpos⟩

/-- A table with an empty slot cannot be copied. -/
theorem rehash_none {hash : UInt64 → Nat} {table : Nat → Option (Entry V)} {capacity n j : Nat}
    (hj : j < n) (hnone : table j = none) : rehash hash table capacity n = none := by
  induction n with
  | zero => exact absurd hj (Nat.not_lt_zero j)
  | succ n ih =>
    rcases Nat.lt_succ_iff_lt_or_eq.mp hj with hlt | rfl
    · simp [rehash, ih hlt]
    · simp [rehash, hnone]

/-- Every entry is in its place. -/
structure Placed (ht : Hash V) : Prop where
  pos : 0 < ht.capacity
  home : ∀ i j e, ht.table i j = some e → j = ht.pos i e.key

theorem Represents.placed (h : Represents ht m) : Placed ht := ⟨h.pos, h.home⟩

/-- Entries with different places in a table have different places in the doubled one. -/
theorem Placed.apart (h : Placed ht) {j₁ j₂ : Nat} {e₁ e₂ : Entry V}
    (h₁ : ht.table i j₁ = some e₁) (h₂ : ht.table i j₂ = some e₂)
    (hmod : hashFun i e₁.key % (2 * ht.capacity) = hashFun i e₂.key % (2 * ht.capacity)) : j₁ = j₂ := by
  have hmod' := congrArg (· % ht.capacity) hmod
  simp only [Nat.mod_mul_left_mod] at hmod'
  rw [h.home i j₁ e₁ h₁, h.home i j₂ e₂ h₂]
  exact hmod'

/-- Every entry of full tables gets its place in the doubled ones. -/
theorem Placed.resize_table (h : Placed ht) (hfull : Full ht) :
    ∃ ht', resize ht = some ht' ∧ ht'.capacity = 2 * ht.capacity ∧
      ∀ i p e, ht'.table i p = some e ↔ (∃ j, ht.table i j = some e) ∧ p = ht'.pos i e.key := by
  have hspec : ∀ i, ∃ tmp, rehash (hashFun i) (ht.table i) (2 * ht.capacity) ht.capacity = some tmp ∧
      ∀ p e, tmp p = some e ↔
        (∃ j, ht.table i j = some e) ∧ p = hashFun i e.key % (2 * ht.capacity) := by
    intro i
    obtain ⟨tmp, hre, hall⟩ := rehash_spec _ (hfull i) fun _ _ _ _ h₁ h₂ => h.apart h₁ h₂
    refine ⟨tmp, hre, fun p e => (hall p e).trans ⟨?_, ?_⟩⟩
    · rintro ⟨j, _, hj, hp⟩
      exact ⟨⟨j, hj⟩, hp⟩
    · rintro ⟨⟨j, hj⟩, hp⟩
      refine ⟨j, ?_, hj, hp⟩
      rw [h.home i j e hj]
      exact Nat.mod_lt _ h.pos
  obtain ⟨tmp0, hre0, hall0⟩ := hspec 0
  obtain ⟨tmp1, hre1, hall1⟩ := hspec 1
  refine ⟨⟨2 * ht.capacity, fun i => if i = 0 then tmp0 else tmp1⟩, ?_, rfl, ?_⟩
  · simp [resize, hre0, hre1]
  · intro i p e
    match i with
    | 0 => exact hall0 p e
    | 1 => exact hall1 p e

theorem Represents.resize_full (h : Represents ht m) (hfull : Full ht) :
    ∃ ht', resize ht = some ht' ∧ Represents ht' m := by
  obtain ⟨ht', hre, hcap, htab⟩ := h.placed.resize_table hfull
  refine ⟨ht', hre, ?_, ?_, ?_, ?_⟩
  · rw [hcap]
    exact Nat.mul_pos Nat.two_pos h.pos
  · intro i p e he
    exact ((htab i p e).mp he).2
  · intro i p i' p' e e' he he' hkey
    obtain ⟨⟨j, hj⟩, hp⟩ := (htab i p e).mp he
    obtain ⟨⟨j', hj'⟩, hp'⟩ := (htab i' p' e').mp he'
    obtain ⟨rfl, -⟩ := h.single i j i' j' e e' hj hj' hkey
    exact ⟨rfl, by rw [hp, hp', hkey]⟩
  · intro k v
    rw [h.pairs]
    refine exists_congr fun i => ?_
    rw [Hash.slot, Hash.slot, htab]
    constructor
    · intro hk
      exact ⟨⟨_, hk⟩, rfl⟩
    · rintro ⟨⟨j, hj⟩, -⟩
      rw [h.home i j _ hj] at hj
      exact hj

/-- A table with fewer entries than slots has an empty slot. -/
theorem rehash_hole {hash : UInt64 → Nat} {table tmp : Nat → Option (Entry V)} {capacity n : Nat}
    (hre : rehash hash table capacity n = some tmp) (hlt : n < capacity) :
    ∃ p < capacity, tmp p = none := by
  have himage : ∀ {n tmp}, rehash hash table capacity n = some tmp → ∀ p, tmp p ≠ none →
      ∃ j < n, ∃ e, table j = some e ∧ hash e.key % capacity = p := by
    intro n
    induction n with
    | zero =>
      intro tmp hre p hp
      cases hre
      exact absurd rfl hp
    | succ n ih =>
      intro tmp hre p hp
      obtain ⟨tmp', hre', hmap⟩ := Option.bind_eq_some_iff.mp hre
      obtain ⟨e, he, rfl⟩ := Option.map_eq_some_iff.mp hmap
      by_cases hpe : p = hash e.key % capacity
      · exact ⟨n, Nat.lt_succ_self n, e, he, hpe.symm⟩
      · rw [Function.update_of_ne hpe] at hp
        obtain ⟨j, hj, hrest⟩ := ih hre' p hp
        exact ⟨j, Nat.lt_succ_of_lt hj, hrest⟩
  by_contra hall
  push Not at hall
  have hsub : Finset.range capacity ⊆
      (Finset.range n).image fun j => (table j).elim 0 fun e => hash e.key % capacity := by
    intro p hp
    obtain ⟨j, hj, e, he, hpe⟩ := himage hre p (hall p (Finset.mem_range.mp hp))
    refine Finset.mem_image.mpr ⟨j, Finset.mem_range.mpr hj, ?_⟩
    rw [he]
    exact hpe
  have hcard := (Finset.card_le_card hsub).trans Finset.card_image_le
  rw [Finset.card_range, Finset.card_range] at hcard
  omega

/-- Tables with an empty slot cannot be doubled. -/
theorem resize_none {j : Nat} (hj : j < ht.capacity) (hnone : ht.table i j = none) :
    resize ht = none := by
  match i with
  | 0 => simp only [resize, rehash_none hj hnone, Option.bind_none]
  | 1 => simp only [resize, rehash_none hj hnone, Option.map_none, Option.bind_fun_none]

/-- The doubled tables `ht'` have the entries of the tables `ht`, each in its place and no two
    in the same, and a look-up finds in them what it found before. -/
structure Resized (ht ht' : Hash V) : Prop where
  capacity : ht'.capacity = 2 * ht.capacity
  apart : ∀ i j₁ j₂ e₁ e₂, ht.table i j₁ = some e₁ → ht.table i j₂ = some e₂ → j₁ ≠ j₂ →
    ht'.pos i e₁.key ≠ ht'.pos i e₂.key
  entries : ∀ i e, (∃ p, ht'.table i p = some e) ↔ ∃ j, ht.table i j = some e
  placed : Placed ht'
  get : ∀ key remove, (hashGet ht' key remove).2 = (hashGet ht key remove).2

/-- A look-up only depends on which entries the tables have, when these are in their
    places. -/
theorem hashGet_congr (h : Placed ht) (h' : Placed ht')
    (hentries : ∀ i e, (∃ p, ht'.table i p = some e) ↔ ∃ j, ht.table i j = some e)
    (key : UInt64) (remove : Bool) : (hashGet ht' key remove).2 = (hashGet ht key remove).2 := by
  have hfound : ∀ {ht : Hash V}, Placed ht → ∀ i e, e.key = key →
      (ht.slot i key = some e ↔ ∃ j, ht.table i j = some e) := by
    intro ht h i e hkey
    constructor
    · intro hslot
      exact ⟨_, hslot⟩
    · rintro ⟨j, hj⟩
      rw [h.home i j e hj, hkey] at hj
      exact hj
  -- the two loops stop at the same table
  have hloop : ∀ is : List (Fin 2), (getLoop ht' key remove is).2 = (getLoop ht key remove is).2 := by
    intro is
    induction is with
    | nil => rfl
    | cons i is ih =>
      by_cases hhit : ∃ e, e.key = key ∧ ht.slot i key = some e
      · obtain ⟨e, hkey, hslot⟩ := hhit
        have hslot' : ht'.slot i key = some e :=
          (hfound h' i e hkey).mpr ((hentries i e).mpr ((hfound h i e hkey).mp hslot))
        simp only [getLoop, hslot, hslot', if_pos hkey]
      · have hmiss : ∀ {ht : Hash V}, (¬ ∃ e, e.key = key ∧ ht.slot i key = some e) →
            getLoop ht key remove (i :: is) = getLoop ht key remove is := by
          intro ht hno
          rcases hslot : ht.slot i key with _ | e
          · simp only [getLoop, hslot]
          · have hne : e.key ≠ key := fun hkey => hno ⟨e, hkey, hslot⟩
            simp only [getLoop, hslot, if_neg hne]
        have hhit' : ¬ ∃ e, e.key = key ∧ ht'.slot i key = some e := by
          rintro ⟨e, hkey, hslot'⟩
          exact hhit ⟨e, hkey,
            (hfound h i e hkey).mpr ((hentries i e).mp ((hfound h' i e hkey).mp hslot'))⟩
        rw [hmiss hhit, hmiss hhit', ih]
  exact hloop [0, 1]

theorem Placed.resized (h : Placed ht) (hfull : Full ht) :
    ∃ ht', resize ht = some ht' ∧ Resized ht ht' := by
  obtain ⟨ht', hre, hcap, htab⟩ := h.resize_table hfull
  have hentries : ∀ i e, (∃ p, ht'.table i p = some e) ↔ ∃ j, ht.table i j = some e := by
    intro i e
    constructor
    · rintro ⟨p, hp⟩
      exact ((htab i p e).mp hp).1
    · intro hj
      exact ⟨ht'.pos i e.key, (htab i _ e).mpr ⟨hj, rfl⟩⟩
  have hplaced : Placed ht' := by
    constructor
    · rw [hcap]
      exact Nat.mul_pos Nat.two_pos h.pos
    · intro i p e hp
      exact ((htab i p e).mp hp).2
  refine ⟨ht', hre, hcap, ?_, hentries, hplaced, hashGet_congr h hplaced hentries⟩
  intro i j₁ j₂ e₁ e₂ h₁ h₂ hne hpos
  rw [Hash.pos, Hash.pos, hcap] at hpos
  exact hne (h.apart h₁ h₂ hpos)

/-- **Doubling the tables** keeps every entry findable exactly when no slot is empty. -/
theorem resize_iff (h : Placed ht) : (∃ ht', resize ht = some ht' ∧ Resized ht ht') ↔ Full ht := by
  constructor
  · rintro ⟨ht', hre, -⟩ i j hj
    rw [Option.isSome_iff_ne_none]
    intro hnone
    rw [resize_none hj hnone] at hre
    cases hre
  · exact h.resized

/-- Two tables with one slot each. -/
def oneSlot : Hash Char := ⟨1, fun i j => if j = 0 then some ⟨i.val.toUInt64, 'a'⟩ else none⟩

theorem resize_iff_oneSlot : Full oneSlot ∧ ∃ ht', resize oneSlot = some ht' ∧ Resized oneSlot ht' := by
  have hplaced : Placed oneSlot := by
    refine ⟨Nat.one_pos, fun i j e he => ?_⟩
    simp only [oneSlot] at he
    split at he
    · rename_i hj
      rw [hj, Hash.pos]
      exact (Nat.mod_one _).symm
    · cases he
  have hfull : Full oneSlot := by decide
  exact ⟨hfull, (resize_iff hplaced).mpr hfull⟩

/-- Doubled tables are not full, so they are not doubled again. -/
theorem resize_twice {ht₁ ht₂ ht₃ : Hash V} {e₂ e₃ : Entry V} {n : Nat} (hcap : 0 < ht₁.capacity)
    (hre : resize ht₁ = some ht₂) (hadd : addLoop n ht₂ e₂ i = .homeless ht₃ e₃) :
    resize ht₃ = none := by
  obtain ⟨tmp0, hre0, hmap⟩ := Option.bind_eq_some_iff.mp hre
  obtain ⟨tmp1, -, rfl⟩ := Option.map_eq_some_iff.mp hmap
  obtain ⟨p, hp, hnone⟩ := rehash_hole hre0 (by omega)
  obtain ⟨hcap₃, hslots⟩ := addLoop_slots hadd
  have hp₃ : p < ht₃.capacity := hcap₃ ▸ hp
  exact resize_none hp₃ ((hslots 0 p).mpr hnone)

/-- **The recursion of `__add` ends.**  The second call returns or dereferences `NULL`. -/
theorem add_enough (hcap : 0 < ht.capacity) {fuel : Nat} (hfuel : 2 ≤ fuel) (e : Entry V) :
    add fuel ht e = add 2 ht e := by
  obtain ⟨n, rfl⟩ := Nat.exists_eq_add_of_le' hfuel
  change add (n + 1 + 1) ht e = add (0 + 1 + 1) ht e
  rw [add, add]
  rcases hadd : addLoop limit ht e 0 with ⟨ht₁, ret⟩ | ⟨ht₁, e₁⟩
  · rfl
  · obtain ⟨hcap₁, -⟩ := addLoop_slots hadd
    rcases hre : resize ht₁ with _ | ht₂
    · simp only [hre, Option.bind_none]
    · simp only [hre, Option.bind_some]
      change add (n + 1) ht₂ e₁ = add (0 + 1) ht₂ e₁
      rw [add, add]
      rcases hadd₂ : addLoop limit ht₂ e₁ 0 with ⟨ht₃, ret⟩ | ⟨ht₃, e₃⟩
      · rfl
      · simp only [resize_twice (hcap₁ ▸ hcap) hre hadd₂, Option.bind_none]

/-! ### The operations -/

/-- An insertion of a new key for which there is room. -/
theorem Represents.insert_new (h : Represents ht m) {value : V} (hm : m key = none)
    (hfits : Fits ht ⟨key, value⟩) :
    ∃ ht', hashInsert ht key value = some (ht', 0) ∧
      Represents ht' (Function.update m key (some value)) := by
  by_cases hole : FindsHole limit ht ⟨key, value⟩ 0
  · obtain ⟨ht', hadd, hrep⟩ := h.addLoop_done (e := ⟨key, value⟩) hm hole
    refine ⟨ht', ?_, hrep⟩
    rw [hashInsert, add, hadd]
  · obtain ⟨ht₁, e₁, m₁, hadd, hrep₁, hm₁, hup⟩ := h.addLoop_homeless (e := ⟨key, value⟩) hm hole
    obtain ⟨hfull, hroom⟩ := hfits.resolve_left hole
    obtain ⟨hcap, hslots⟩ := addLoop_slots hadd
    obtain ⟨ht₂, hre, hrep₂⟩ := hrep₁.resize_full (hfull.of_slots hcap hslots)
    have hole₂ : FindsHole limit ht₂ e₁ 0 := by
      simp only [hadd, FindsHoleDoubled, hre] at hroom
      exact hroom
    obtain ⟨ht₃, hadd₂, hrep₃⟩ := hrep₂.addLoop_done hm₁ hole₂
    refine ⟨ht₃, ?_, hup ▸ hrep₃⟩
    rw [hashInsert, add, hadd]
    simp only [hre, Option.bind_some]
    rw [add, hadd₂]

/-- An insertion of a new key for which there is none dereferences `NULL`. -/
theorem Represents.insert_none (h : Represents ht m) {value : V} (hm : m key = none)
    (hfits : ¬ Fits ht ⟨key, value⟩) : hashInsert ht key value = none := by
  have hole : ¬ FindsHole limit ht ⟨key, value⟩ 0 := fun hole => hfits (.inl hole)
  obtain ⟨ht₁, e₁, m₁, hadd, hrep₁, hm₁, -⟩ := h.addLoop_homeless (e := ⟨key, value⟩) hm hole
  obtain ⟨hcap, hslots⟩ := addLoop_slots hadd
  rw [hashInsert, add, hadd]
  by_cases hfull : Full ht
  · have hroom : ¬ FindsHoleDoubled (addLoop limit ht ⟨key, value⟩ 0) :=
      fun hroom => hfits (.inr ⟨hfull, hroom⟩)
    rcases hre : resize ht₁ with _ | ht₂
    · simp only [hre, Option.bind_none]
    · simp only [hadd, FindsHoleDoubled, hre] at hroom
      obtain ⟨ht₂', hre', hrep₂⟩ := hrep₁.resize_full (hfull.of_slots hcap hslots)
      cases hre.symm.trans hre'
      obtain ⟨ht₃, e₃, m₃, hadd₃, -⟩ := hrep₂.addLoop_homeless hm₁ hroom
      simp only [hre, Option.bind_some]
      rw [add, hadd₃]
      simp only [resize_twice hrep₁.pos hre hadd₃, Option.bind_none]
  · unfold Full at hfull
    push Not at hfull
    obtain ⟨i, j, hj, hnone⟩ := hfull
    have hnone₁ := (hslots i j).mpr (Option.not_isSome_iff_eq_none.mp hnone)
    simp only [resize_none (hcap ▸ hj) hnone₁, Option.bind_none]

/-- An insertion of a key that is in the first table. -/
theorem hashInsert_present {value : V} (hslot : ht.slot 0 key = some e) (hkey : e.key = key) :
    hashInsert ht key value = some (ht, -1) := by
  have hadd : ∀ n, addLoop (n + 1) ht ⟨key, value⟩ 0 = .done ht (-1) := by
    intro n
    rw [addLoop, hslot]
    exact if_pos hkey.symm
  rw [hashInsert, add, limit, hadd]

theorem Represents.hashGet (h : Represents ht m) (key : UInt64) (remove : Bool) :
    (hashGet ht key remove).2 = m key ∧
      Represents (hashGet ht key remove).1 (if remove then Function.update m key none else m) := by
  -- a table that has the key ends the loop
  have hhit : ∀ i is e, ht.slot i key = some e → e.key = key →
      (getLoop ht key remove (i :: is)).2 = m key ∧
        Represents (getLoop ht key remove (i :: is)).1
          (if remove then Function.update m key none else m) := by
    intro i is e hslot hkey
    simp only [getLoop, hslot, if_pos hkey]
    refine ⟨(h.eq_some hslot hkey).symm, ?_⟩
    cases remove with
    | true => exact h.remove hslot hkey
    | false => exact h
  have hmiss : ∀ i is, (∀ e, ht.slot i key = some e → e.key ≠ key) →
      getLoop ht key remove (i :: is) = getLoop ht key remove is := by
    intro i is hne
    rcases hslot : ht.slot i key with _ | e
    · simp only [getLoop, hslot]
    · simp only [getLoop, hslot, if_neg (hne e hslot)]
  by_cases h0 : ∃ e, ht.slot 0 key = some e ∧ e.key = key
  · obtain ⟨e, hslot, hkey⟩ := h0
    exact hhit 0 [1] e hslot hkey
  · push Not at h0
    rw [CuckooHash.hashGet, hmiss 0 [1] h0]
    by_cases h1 : ∃ e, ht.slot 1 key = some e ∧ e.key = key
    · obtain ⟨e, hslot, hkey⟩ := h1
      exact hhit 1 [] e hslot hkey
    · push Not at h1
      have hnone : m key = none := by
        refine h.eq_none.mpr fun i => ?_
        match i with
        | 0 => exact h0
        | 1 => exact h1
      rw [hmiss 1 [] h1, getLoop, hnone]
      refine ⟨rfl, ?_⟩
      cases remove with
      | true =>
        rw [if_pos rfl, ← hnone, Function.update_eq_self]
        exact h
      | false => exact h

/-- One call does to the table what it does to the map, and returns the same. -/
theorem Represents.exec (h : Represents ht m) {op : Op V} (hok : OpOk ht op) :
    ∃ ht', exec ht op = some (ht', (m.exec op).2) ∧ Represents ht' (m.exec op).1 := by
  cases op with
  | insert key value =>
    obtain ⟨hsecond, hfirst⟩ := hok
    rcases hm : m key with _ | v
    · have hfits : Fits ht ⟨key, value⟩ := by
        refine hfirst.resolve_left fun hhas => ?_
        obtain ⟨e, hslot, hkey⟩ := Option.map_eq_some_iff.mp hhas
        exact h.eq_none.mp hm 0 e hslot hkey
      obtain ⟨ht', hins, hrep⟩ := h.insert_new hm hfits
      simp only [CuckooHash.exec, hins, FiniteMap.exec, hm]
      exact ⟨ht', rfl, hrep⟩
    · obtain ⟨i, hi⟩ := (h.pairs key v).mp hm
      have hzero : i = 0 := by
        match i with
        | 0 => rfl
        | 1 => exact absurd (by rw [Hash.Has, hi]; rfl) hsecond
      subst hzero
      simp only [CuckooHash.exec, hashInsert_present hi rfl, FiniteMap.exec, hm]
      exact ⟨ht, rfl, h⟩
  | get key remove =>
    obtain ⟨hval, hrep⟩ := h.hashGet key remove
    refine ⟨(CuckooHash.hashGet ht key remove).1, ?_, hrep⟩
    simp only [CuckooHash.exec, FiniteMap.exec, hval]

theorem Represents.run (h : Represents ht m) {ops : List (Op V)} (hok : RunOk ht ops) :
    ∃ ht', run ht ops = some (ht', (m.run ops).2) ∧ Represents ht' (m.run ops).1 := by
  induction ops generalizing ht m with
  | nil => exact ⟨ht, rfl, h⟩
  | cons op ops ih =>
    obtain ⟨hop, hops⟩ := hok
    obtain ⟨ht₁, hexec, hrep⟩ := h.exec hop
    rw [hexec] at hops
    obtain ⟨ht₂, hrun, hrep₂⟩ := ih hrep hops
    refine ⟨ht₂, ?_, hrep₂⟩
    simp only [CuckooHash.run, hexec, Option.bind_some, hrun, Option.map_some, FiniteMap.run]

/-- **The hash is a finite map.**  Every sequence of insertions and look-ups, with and
    without removal, that starts from `hash_init` and meets the conditions, runs through; it
    returns what the finite map returns, and the two tables hold the map, with one entry for
    each of its keys. -/
theorem hash_is_map (ops : List (Op V)) (hok : RunOk hashInit ops) :
    ∃ ht, run hashInit ops = some (ht, (FiniteMap.run (fun _ => none) ops).2) ∧
      Represents ht (FiniteMap.run (fun _ => none) ops).1 :=
  represents_hashInit.run hok

/-- An insertion, one that moves an entry to the second table, a look-up and a removal. -/
theorem hash_is_map_twoKeys :
    ∃ ht, run hashInit [.insert 0 'a', .insert 128 'b', .get 0 false, .get 128 true] =
        some (ht, [.ret 0, .ret 0, .value (some 'a'), .value (some 'b')]) ∧
      Represents ht (FiniteMap.run (fun _ => none)
        [.insert 0 'a', .insert 128 'b', .get 0 false, .get 128 true]).1 := by
  obtain ⟨ht, hrun, hrep⟩ := hash_is_map
    [.insert 0 'a', .insert 128 'b', .get 0 false, .get 128 true] (by decide +kernel)
  have hres : (FiniteMap.run (fun _ => none)
      [.insert 0 'a', .insert 128 'b', .get 0 false, .get 128 true]).2 =
      [.ret 0, .ret 0, .value (some 'a'), .value (some 'b')] := by decide +kernel
  rw [hres] at hrun
  exact ⟨ht, hrun, hrep⟩

/-- A key that was moved to the second table is inserted again, and three keys that share
    their places in both tables. -/
theorem hash_not_map :
    (run hashInit [.insert 0 'a', .insert 128 'b', .get 128 true, .insert 0 'c']).map Prod.snd =
        some [.ret 0, .ret 0, .value (some 'b'), .ret 0] ∧
      (FiniteMap.run (fun _ => none)
        [.insert 0 'a', .insert 128 'b', .get 128 true, .insert 0 'c']).2 =
        [.ret 0, .ret 0, .value (some 'b'), .ret (-1)] ∧
      run hashInit [.insert 0 'a', .insert 128 'b', .insert 256 'c'] = none := by
  refine ⟨by decide +kernel, by decide +kernel, ?_⟩
  rw [← Option.isNone_iff_eq_none]
  decide +kernel

/-- The insertion of a third key that shares its places with two others comes to the end of
    its loop; all entries are in their places, and `__resize` reads an empty slot. -/
theorem resize_reads_empty : ∃ (ht ht₁ : Hash Char) (e : Entry Char),
    (run hashInit [.insert 0 'a', .insert 128 'b']).map Prod.fst = some ht ∧
      addLoop limit ht ⟨256, 'c'⟩ 0 = .homeless ht₁ e ∧ Placed ht₁ ∧ resize ht₁ = none := by
  have hok : RunOk (hashInit : Hash Char) [.insert 0 'a', .insert 128 'b'] := by decide +kernel
  obtain ⟨ht, hrun, hrep⟩ := represents_hashInit.run hok
  have hsome : run (hashInit : Hash Char) [.insert 0 'a', .insert 128 'b'] = some (ht, _) := hrun
  have hnew : (FiniteMap.run (fun _ => none) [.insert 0 'a', .insert 128 'b']).1 (256 : UInt64) =
      (none : Option Char) := by decide +kernel
  have hhole : ¬ FindsHole limit ht ⟨256, 'c'⟩ 0 := by
    have hcheck : (run (hashInit : Hash Char) [.insert 0 'a', .insert 128 'b']).any
        (fun p => !decide (FindsHole limit p.1 ⟨256, 'c'⟩ 0)) = true := by decide +kernel
    rw [hsome] at hcheck
    simpa using hcheck
  obtain ⟨ht₁, e, m', hadd, hrep₁, -⟩ := hrep.addLoop_homeless hnew hhole
  refine ⟨ht, ht₁, e, by rw [hsome]; rfl, hadd, hrep₁.placed, ?_⟩
  have hempty : ht.capacity = 128 ∧ ht.table 0 0 = none := by
    have hcheck : (run (hashInit : Hash Char) [.insert 0 'a', .insert 128 'b']).any
        (fun p => p.1.capacity == 128 && p.1.table 0 0 == none) = true := by decide +kernel
    rw [hsome] at hcheck
    simpa using hcheck
  obtain ⟨hcap, hslots⟩ := addLoop_slots hadd
  exact resize_none (i := 0) (j := 0) (by rw [hcap, hempty.1]; decide) ((hslots 0 0).mpr hempty.2)

end

end Coroc.CuckooHash
