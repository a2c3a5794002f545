import Mathlib.Data.List.Basic
import Mathlib.Logic.Function.Basic
import Mathlib.Tactic.FinCases
import Mathlib.Tactic.IntervalCases

/-!
# Dotted addresses (`src/src/net.c`)

`__coroc_parseip` reads up to four numbers with `strtoul`, separated by dots, and fills in
the bytes that are missing by the class of the address.  A string is the list of its
characters before the `NUL`.

* `Exact` says that the string is a dotted address and the result its bytes.
* `parseip_exact_iff`: what is accepted is exact, unless the string is `Misread`: it is
  empty, a component is above 255 and only the narrowed value is not, something follows the
  fourth component, or there are fewer than four and the first is above 191.
-/

namespace Coroc.ParseIp

/-! ### `strtoul` -/

/-- `isspace`, in the C locale. -/
def isSpace (c : Char) : Bool := c = ' ' || ('\t' ≤ c && c ≤ '\r')

/-- The value of a digit or letter. -/
def digitVal (c : Char) : Nat :=
  if '0' ≤ c ∧ c ≤ '9' then c.toNat - 48
  else if 'a' ≤ c ∧ c ≤ 'z' then c.toNat - 87
  else if 'A' ≤ c ∧ c ≤ 'Z' then c.toNat - 55
  else 36

def isDigit (base : Nat) (c : Char) : Bool := digitVal c < base

/-- The base that the text selects when the argument is 0, and the text after its mark. -/
def radix : List Char → Nat × List Char
  | '0' :: x :: d :: cs =>
    if (x = 'x' ∨ x = 'X') ∧ digitVal d < 16 then (16, d :: cs) else (8, '0' :: x :: d :: cs)
  | '0' :: cs => (8, '0' :: cs)
  | cs => (10, cs)

def sign : List Char → Bool × List Char
  | '-' :: cs => (true, cs)
  | '+' :: cs => (false, cs)
  | cs => (false, cs)

/-- `ULONG_MAX`. -/
def ulongMax : Nat := 2 ^ 64 - 1

/-- The result for the digits that are read. -/
def ulong (negative : Bool) (base : Nat) (digits : List Char) : Nat :=
  let v := digits.foldl (fun v d => base * v + digitVal d) 0
  if v > ulongMax then ulongMax else if negative then (2 ^ 64 - v) % 2 ^ 64 else v

/-- `strtoul` with base 0: the value, and the text that is left. -/
def strtoul (s : List Char) : Nat × List Char :=
  let signed := sign (s.dropWhile isSpace)
  let based := radix signed.2
  let digits := based.2.takeWhile (isDigit based.1)
  if digits = [] then (0, s)
  else (ulong signed.1 based.1 digits, based.2.dropWhile (isDigit based.1))

/-! ### `__coroc_parseip` -/

/-- Four bytes. -/
abbrev Addr := Nat → UInt8

/-- The conversion of an `unsigned long` to `int`. -/
def toInt (v : Nat) : Int := Int.bmod v (2 ^ 32)

/-- The loop, from index `i` on, `n` components at most. -/
def scan : Nat → List Char → Addr → Nat → Option (Addr × Nat)
  | 0, _, addr, i => some (addr, i)
  | _ + 1, [], addr, i => some (addr, i)
  | n + 1, c :: cs, addr, i =>
    let x := toInt (strtoul (c :: cs)).1
    if x < 0 ∨ x > 256 then none
    else
      match (strtoul (c :: cs)).2 with
      | [] => scan n [] (Function.update addr i (UInt8.ofNat x.toNat)) (i + 1)
      | d :: p =>
        if d = '.' then scan n p (Function.update addr i (UInt8.ofNat x.toNat)) (i + 1) else none

/-- `CLASS`. -/
def classOf (b : UInt8) : Nat := b.toNat / 64

/-- The `switch` over the class, after `i` components. -/
def classRule (addr : Addr) (i : Nat) : Option Addr :=
  if classOf (addr 0) = 0 ∨ classOf (addr 0) = 1 then
    if i = 3 then
      let addr := Function.update addr 3 (addr 2)
      let addr := Function.update addr 2 (addr 1)
      some (Function.update addr 1 0)
    else if i = 2 then
      let addr := Function.update addr 3 (addr 1)
      let addr := Function.update addr 2 0
      some (Function.update addr 1 0)
    else if i ≠ 4 then none
    else some addr
  else if classOf (addr 0) = 2 then
    if i = 3 then
      let addr := Function.update addr 3 (addr 2)
      some (Function.update addr 2 0)
    else if i ≠ 4 then none
    else some addr
  else some addr

/-- `__coroc_parseip`; `addr` is what the local array holds before. -/
def parseip (addr : Addr) (name : List Char) (ip : Addr) : Int × Addr :=
  match (scan 4 name addr 0).bind fun p => classRule p.1 p.2 with
  | some addr => (0, addr)
  | none => (-1, ip)

/-! ### What is accepted -/

/-- The numbers of components that the class of the first one allows. -/
def allowed (first : Nat) (n : Nat) : Prop :=
  if first < 128 then 2 ≤ n ∧ n ≤ 4 else if first < 192 then 3 ≤ n ∧ n ≤ 4 else n = 4

/-- The bytes that are filled in with zeros. -/
def filled (first : Nat) (n j : Nat) : Prop :=
  if first < 128 then n = 3 ∧ j = 1 ∨ n = 2 ∧ (j = 1 ∨ j = 2) else n = 3 ∧ j = 2

/-- The string is a dotted address, and the bytes are its components and the zeros that its
    class fills in. -/
def Exact (name : List Char) (ip : Addr) : Prop :=
  let components := name.splitOn '.'
  let values := components.map fun c => (strtoul c).1
  components.length ≤ 4 ∧ (∀ c ∈ components, (strtoul c).2 = []) ∧ (∀ v ∈ values, v ≤ 255) ∧
    allowed (values.headD 0) components.length ∧
    ∀ j < 4, (ip j).toNat ∈ values ∨ ip j = 0 ∧ filled (values.headD 0) components.length j

/-- The components that the loop comes to: an empty one at the end is not seen. -/
def seen : List (List Char) → List (List Char)
  | [] => []
  | c :: cs => if c = [] ∧ cs = [] then [] else c :: seen cs

/-- The component is read to its end, and its value passes the test after the conversion. -/
def passes (c : List Char) : Bool :=
  (strtoul c).2 = [] && 0 ≤ toInt (strtoul c).1 && toInt (strtoul c).1 ≤ 256

/-- The byte that is stored for a component. -/
def byte (c : List Char) : UInt8 := UInt8.ofNat (toInt (strtoul c).1).toNat

/-- The number of components that the `switch` accepts. -/
def accepted (class_ n : Nat) : Prop :=
  if class_ ≤ 1 then n = 2 ∨ n = 3 ∨ n = 4 else if class_ = 2 then n = 3 ∨ n = 4 else True

instance (class_ n : Nat) : Decidable (accepted class_ n) :=
  inferInstanceAs (Decidable (if class_ ≤ 1 then _ else if class_ = 2 then _ else _))

/-- The string is empty, or its first four components pass the tests although one of them is
    above 255, or more follows, or they are fewer than four and the class has no rule. -/
def Misread (name : List Char) : Prop :=
  let cs := (seen (name.splitOn '.')).take 4
  name = [] ∨ (∀ c ∈ cs, passes c = true) ∧ accepted (classOf (byte (cs.headD []))) cs.length ∧
    ((∃ c ∈ cs, 255 < (strtoul c).1) ∨ 4 < (name.splitOn '.').length ∨
      classOf (byte (cs.headD [])) = 3 ∧ cs.length < 4)

/-! ### `strtoul` and dots -/

section
variable {c rest : List Char} {p : Char → Bool}

theorem takeWhile_dot (hp : p '.' = false) : (c ++ '.' :: rest).takeWhile p = c.takeWhile p := by
  induction c with
  | nil => simp [hp]
  | cons a c ih =>
    rw [List.cons_append, List.takeWhile_cons, List.takeWhile_cons, ih]

theorem dropWhile_dot (hp : p '.' = false) :
    (c ++ '.' :: rest).dropWhile p = c.dropWhile p ++ '.' :: rest := by
  induction c with
  | nil => simp [hp]
  | cons a c ih =>
    rw [List.cons_append, List.dropWhile_cons, List.dropWhile_cons]
    split
    · exact ih
    · rfl

theorem sign_dot : sign (c ++ '.' :: rest) = ((sign c).1, (sign c).2 ++ '.' :: rest) := by
  cases c with
  | nil => rfl
  | cons a c =>
    by_cases hminus : a = '-'
    · subst hminus
      rfl
    · by_cases hplus : a = '+'
      · subst hplus
        rfl
      · simp [sign, hminus, hplus]

theorem radix_dot : radix (c ++ '.' :: rest) = ((radix c).1, (radix c).2 ++ '.' :: rest) := by
  match c with
  | [] => rfl
  | [a] =>
    by_cases ha : a = '0'
    · subst ha
      cases rest with
      | nil => rfl
      | cons d rest => simp [radix]
    · simp [radix, ha]
  | [a, b] =>
    by_cases ha : a = '0'
    · subst ha
      have hdot : ¬ digitVal '.' < 16 := by decide
      simp [radix, hdot]
    · simp [radix, ha]
  | a :: b :: d :: c =>
    by_cases ha : a = '0'
    · subst ha
      simp only [radix, List.cons_append]
      split <;> rfl
    · simp [radix, ha]

theorem digitVal_dot : digitVal '.' = 36 := by decide

theorem radix_le (s : List Char) : (radix s).1 ≤ 16 := by
  unfold radix
  split
  · split <;> simp
  · simp
  · simp

/-- A number ends at a dot. -/
theorem strtoul_dot : strtoul (c ++ '.' :: rest) = ((strtoul c).1, (strtoul c).2 ++ '.' :: rest) := by
  have hspace : isSpace '.' = false := by decide
  have hdigit : ∀ s, isDigit (radix s).1 '.' = false := by
    intro s
    have hle := radix_le s
    rw [isDigit, digitVal_dot, decide_eq_false_iff_not]
    omega
  simp only [strtoul, dropWhile_dot hspace, sign_dot, radix_dot, takeWhile_dot (hdigit _),
    dropWhile_dot (hdigit _)]
  split
  · rfl
  · rfl

theorem sign_suffix (s : List Char) : (sign s).2 <:+ s := by
  unfold sign
  split
  · exact List.suffix_cons _ _
  · exact List.suffix_cons _ _
  · exact List.suffix_rfl

theorem radix_suffix (s : List Char) : (radix s).2 <:+ s := by
  unfold radix
  split
  · split
    · exact ⟨['0', _], rfl⟩
    · exact List.suffix_rfl
  · exact List.suffix_rfl
  · exact List.suffix_rfl

theorem strtoul_suffix (s : List Char) : (strtoul s).2 <:+ s := by
  simp only [strtoul]
  split
  · exact List.suffix_rfl
  · exact (List.dropWhile_suffix _).trans ((radix_suffix _).trans ((sign_suffix _).trans
      (List.dropWhile_suffix _)))

end

/-! ### The loop -/

/-- A string is its first component, or goes on after a dot. -/
theorem components_cases (name : List Char) : ('.' ∉ name ∧ name.splitOn '.' = [name]) ∨
    ∃ c rest, '.' ∉ c ∧ name = c ++ '.' :: rest ∧ name.splitOn '.' = c :: rest.splitOn '.' := by
  by_cases hdot : '.' ∈ name
  · right
    obtain ⟨c, rest, hname, hc⟩ := List.eq_append_cons_of_mem hdot
    refine ⟨c, rest, hc, hname, ?_⟩
    rw [hname]
    exact List.splitOn_append_cons_self_of_not_mem hc rest
  · exact .inl ⟨hdot, List.splitOn_eq_singleton hdot⟩

/-- The bytes that the loop stores. -/
def store : Addr → Nat → List (List Char) → Addr
  | addr, _, [] => addr
  | addr, i, c :: cs => store (Function.update addr i (byte c)) (i + 1) cs

theorem passes_iff (c : List Char) : passes c = true ↔
    (strtoul c).2 = [] ∧ ¬ (toInt (strtoul c).1 < 0 ∨ toInt (strtoul c).1 > 256) := by
  simp only [passes, Bool.and_eq_true, decide_eq_true_eq, and_assoc]
  refine and_congr_right fun _ => ?_
  omega

theorem scan_nil (n : Nat) (addr : Addr) (i : Nat) : scan n [] addr i = some (addr, i) := by
  cases n with
  | zero => rfl
  | succ n => rfl

/-- The loop reads the components it sees, up to its limit, as long as they pass. -/
theorem scan_eq (n : Nat) (name : List Char) (addr : Addr) (i : Nat) :
    scan n name addr i =
      if ∀ c ∈ (seen (name.splitOn '.')).take n, passes c = true then
        some (store addr i ((seen (name.splitOn '.')).take n),
          i + ((seen (name.splitOn '.')).take n).length)
      else none := by
  induction n generalizing name addr i with
  | zero => simp [scan, store]
  | succ n ih =>
    cases name with
    | nil => simp [scan, seen, store]
    | cons a name =>
      have hrest : ∀ c, '.' ∉ c → ∀ d p, (strtoul c).2 = d :: p → d ≠ '.' := by
        rintro c hc d p hp rfl
        exact hc ((strtoul_suffix c).subset (hp ▸ List.mem_cons_self))
      rcases components_cases (a :: name) with ⟨hdot, hsplit⟩ | ⟨c, rest, hdot, hname, hsplit⟩
      · have hseen : (seen ((a :: name).splitOn '.')).take (n + 1) = [a :: name] := by
          rw [hsplit]
          simp [seen]
        rw [hseen]
        simp only [scan, List.mem_singleton, forall_eq, passes_iff]
        by_cases hx : toInt (strtoul (a :: name)).1 < 0 ∨ toInt (strtoul (a :: name)).1 > 256
        · rw [if_pos hx, if_neg fun h => h.2 hx]
        · rw [if_neg hx]
          cases hp : (strtoul (a :: name)).2 with
          | nil =>
            rw [if_pos ⟨rfl, hx⟩]
            exact scan_nil n _ _
          | cons d p =>
            rw [if_neg fun h => nomatch h.1]
            exact if_neg (hrest _ hdot d p hp)
      · have hseen : (seen ((a :: name).splitOn '.')).take (n + 1) =
            c :: (seen (rest.splitOn '.')).take n := by
          rw [hsplit]
          simp [seen]
        have hul : strtoul (a :: name) = ((strtoul c).1, (strtoul c).2 ++ '.' :: rest) := by
          rw [hname, strtoul_dot]
        rw [hseen]
        simp only [scan, hul, List.forall_mem_cons, passes_iff]
        by_cases hx : toInt (strtoul c).1 < 0 ∨ toInt (strtoul c).1 > 256
        · rw [if_pos hx, if_neg fun h => h.1.2 hx]
        · rw [if_neg hx]
          cases hp : (strtoul c).2 with
          | nil =>
            have hnext := ih rest (Function.update addr i (byte c)) (i + 1)
            simp only [passes_iff] at hnext
            change scan n rest (Function.update addr i (byte c)) (i + 1) = _
            rw [hnext]
            by_cases hall : ∀ c' ∈ (seen (rest.splitOn '.')).take n,
                (strtoul c').2 = [] ∧ ¬ (toInt (strtoul c').1 < 0 ∨ toInt (strtoul c').1 > 256)
            · rw [if_pos hall, if_pos ⟨⟨rfl, hx⟩, hall⟩, List.length_cons, Nat.add_assoc,
                Nat.add_comm 1]
              rfl
            · rw [if_neg hall, if_neg fun h => hall h.2]
          | cons d p =>
            rw [if_neg fun h => nomatch h.1.1]
            exact if_neg (hrest c hdot d p hp)

/-- A component that is not seen is empty, and the last. -/
theorem seen_cases {cs : List (List Char)} (h : cs ≠ []) : cs = seen cs ∨ cs = seen cs ++ [[]] := by
  induction cs with
  | nil => exact absurd rfl h
  | cons c cs ih =>
    by_cases hlast : c = [] ∧ cs = []
    · obtain ⟨rfl, rfl⟩ := hlast
      exact .inr rfl
    · have hseen : seen (c :: cs) = c :: seen cs := if_neg hlast
      rw [hseen]
      by_cases hcs : cs = []
      · subst hcs
        exact .inl rfl
      · rcases ih hcs with heq | heq
        · exact .inl (congrArg (c :: ·) heq)
        · exact .inr (congrArg (c :: ·) heq)

theorem seen_subset (cs : List (List Char)) : seen cs ⊆ cs := by
  by_cases hcs : cs = []
  · subst hcs
    exact List.Subset.refl _
  · rcases seen_cases hcs with heq | heq
    · rw [← heq]
      exact List.Subset.refl _
    · intro c hc
      rw [heq]
      exact List.mem_append_left _ hc

theorem seen_ne_nil {name : List Char} (h : name ≠ []) : seen (name.splitOn '.') ≠ [] := by
  intro hnil
  rcases seen_cases (List.splitOn_ne_nil '.' name) with heq | heq
  · rw [hnil] at heq
    exact List.splitOn_ne_nil '.' name heq
  · rw [hnil] at heq
    have hname := @List.intercalate_splitOn _ name _ _ '.'
    rw [heq] at hname
    exact h hname.symm

/-! ### The bytes -/

section
variable {addr addr' : Addr} {c : List Char} {cs : List (List Char)} {n : Nat}

theorem byte_toNat (hc : (strtoul c).1 ≤ 255) : (byte c).toNat = (strtoul c).1 := by
  have hint : toInt (strtoul c).1 = (strtoul c).1 := by
    unfold toInt
    rw [Int.bmod_def]
    omega
  rw [byte, hint, Int.toNat_natCast, UInt8.toNat_ofNat']
  omega

theorem store_before {i j : Nat} (h : j < i) : store addr i cs j = addr j := by
  induction cs generalizing addr i with
  | nil => rfl
  | cons c cs ih =>
    rw [store, ih (Nat.lt_succ_of_lt h), Function.update_of_ne (Nat.ne_of_lt h)]

theorem store_after {i j : Nat} (h : i + cs.length ≤ j) : store addr i cs j = addr j := by
  induction cs generalizing addr i with
  | nil => rfl
  | cons c cs ih =>
    rw [List.length_cons] at h
    rw [store, ih (by omega), Function.update_of_ne (by omega)]

theorem store_zero : store addr 0 (c :: cs) 0 = byte c := by
  rw [store, store_before Nat.zero_lt_one, Function.update_self]

theorem classOf_lt (b : UInt8) : classOf b < 4 := by
  have hb := b.toNat_lt
  unfold classOf
  omega

theorem classOf_le_one {b : UInt8} : classOf b ≤ 1 ↔ b.toNat < 128 := by
  unfold classOf
  omega

theorem classRule_isSome : (classRule addr n).isSome = true ↔ accepted (classOf (addr 0)) n := by
  by_cases h1 : classOf (addr 0) = 0 ∨ classOf (addr 0) = 1
  · have hle : classOf (addr 0) ≤ 1 := by omega
    simp only [classRule, accepted, if_pos h1, if_pos hle]
    by_cases h3 : n = 3
    · simp [h3]
    · by_cases h2 : n = 2
      · simp [h2]
      · by_cases h4 : n = 4
        · simp [h4]
        · simp [h2, h3, h4]
  · have hle : ¬ classOf (addr 0) ≤ 1 := by omega
    simp only [classRule, accepted, if_neg h1, if_neg hle]
    by_cases hc : classOf (addr 0) = 2
    · simp only [if_pos hc]
      by_cases h3 : n = 3
      · simp [h3]
      · by_cases h4 : n = 4
        · simp [h4]
        · simp [h3, h4]
    · simp [hc]

/-- A class without a rule leaves the bytes as they are. -/
theorem classRule_three (h : classOf (addr 0) = 3) : classRule addr n = some addr := by
  simp [classRule, h]

/-- The bytes are those of the components, and zeros. -/
theorem classRule_bytes (hne : cs ≠ []) (hlen : cs.length ≤ 4)
    (hthree : classOf (byte (cs.headD [])) = 3 → cs.length = 4)
    (h : classRule (store addr 0 cs) cs.length = some addr') {j : Nat} (hj : j < 4) :
    (∃ c ∈ cs, addr' j = byte c) ∨
      addr' j = 0 ∧ filled (byte (cs.headD [])).toNat cs.length j := by
  have hacc : accepted (classOf (store addr 0 cs 0)) cs.length :=
    classRule_isSome.mp (by rw [h]; rfl)
  unfold accepted at hacc
  rcases cs with _ | ⟨c₀, cs⟩
  · exact absurd rfl hne
  rw [store_zero] at hacc
  have hlt := classOf_lt (byte c₀)
  simp only [List.headD_cons] at hthree ⊢
  unfold classRule at h
  rw [store_zero] at h
  rcases cs with _ | ⟨c₁, _ | ⟨c₂, _ | ⟨c₃, _ | ⟨c₄, cs⟩⟩⟩⟩
  · -- one component is only accepted where four are asked for
    simp only [List.length_cons, List.length_nil] at hacc hthree
    split at hacc
    · omega
    · split at hacc <;> omega
  · have h1 : classOf (byte c₀) ≤ 1 := by
      simp only [List.length_cons, List.length_nil] at hacc hthree
      by_contra h1
      rw [if_neg h1] at hacc
      split at hacc <;> omega
    have hfirst : (byte c₀).toNat < 128 := classOf_le_one.mp h1
    rw [if_pos (by omega)] at h
    cases h
    interval_cases j <;> simp [store, Function.update, filled, hfirst]
  · by_cases h1 : classOf (byte c₀) ≤ 1
    · have hfirst : (byte c₀).toNat < 128 := classOf_le_one.mp h1
      rw [if_pos (by omega)] at h
      cases h
      interval_cases j <;> simp [store, Function.update, filled, hfirst]
    · have h2 : classOf (byte c₀) = 2 := by
        simp only [List.length_cons, List.length_nil] at hthree
        omega
      have hfirst : ¬ (byte c₀).toNat < 128 := fun hlt => h1 (classOf_le_one.mpr hlt)
      rw [if_neg (by omega), if_pos h2] at h
      cases h
      interval_cases j <;> simp [store, Function.update, filled, hfirst]
  · left
    have hsame : addr' = store addr 0 [c₀, c₁, c₂, c₃] := by
      split at h
      · cases h
        rfl
      · split at h
        · cases h
          rfl
        · cases h
          rfl
    rw [hsame]
    interval_cases j <;> simp [store, Function.update]
  · simp only [List.length_cons] at hlen
    omega

end

/-! ### What is accepted is exact -/

/-- What the claim says of one call. -/
def Meets (addr : Addr) (name : List Char) (ip : Addr) : Prop :=
  ((parseip addr name ip).1 = 0 → Exact name (parseip addr name ip).2) ∧
    ((parseip addr name ip).1 = -1 → (parseip addr name ip).2 = ip)

section
variable {addr addr' ip : Addr} {name : List Char}

theorem parseip_of_passes (h : ∀ c ∈ (seen (name.splitOn '.')).take 4, passes c = true)
    (hr : classRule (store addr 0 ((seen (name.splitOn '.')).take 4))
      ((seen (name.splitOn '.')).take 4).length = some addr') :
    parseip addr name ip = (0, addr') := by
  have hscan := scan_eq 4 name addr 0
  rw [if_pos h, Nat.zero_add] at hscan
  simp only [parseip, hscan, Option.bind_some, hr]

/-- A call that is not rejected. -/
theorem parseip_cases (addr : Addr) (name : List Char) (ip : Addr) :
    parseip addr name ip = (-1, ip) ∨
      (∀ c ∈ (seen (name.splitOn '.')).take 4, passes c = true) ∧
        ∃ addr', classRule (store addr 0 ((seen (name.splitOn '.')).take 4))
          ((seen (name.splitOn '.')).take 4).length = some addr' ∧
          parseip addr name ip = (0, addr') := by
  by_cases hall : ∀ c ∈ (seen (name.splitOn '.')).take 4, passes c = true
  · rcases hr : classRule (store addr 0 ((seen (name.splitOn '.')).take 4))
      ((seen (name.splitOn '.')).take 4).length with _ | addr'
    · left
      have hscan := scan_eq 4 name addr 0
      rw [if_pos hall, Nat.zero_add] at hscan
      simp only [parseip, hscan, Option.bind_some, hr]
    · exact .inr ⟨hall, addr', rfl, parseip_of_passes hall hr⟩
  · left
    have hscan := scan_eq 4 name addr 0
    rw [if_neg hall] at hscan
    simp only [parseip, hscan, Option.bind_none]

theorem allowed_of_accepted {b : UInt8} {k n : Nat} (h : accepted (classOf b) k)
    (hthree : classOf b = 3 → 4 ≤ k) (hle : k ≤ n) (hn : n ≤ 4) : allowed b.toNat n := by
  have hb := b.toNat_lt
  unfold accepted classOf at h
  unfold classOf at hthree
  unfold allowed
  split
  · rw [if_pos (by omega)] at h
    omega
  · split
    · rw [if_neg (by omega), if_pos (by omega)] at h
      omega
    · have hk := hthree (by omega)
      omega

/-- What is left when a string is not misread. -/
theorem bounds_of_not_misread (hmis : ¬ Misread name)
    (hall : ∀ c ∈ (seen (name.splitOn '.')).take 4, passes c = true)
    (hr : classRule (store addr 0 ((seen (name.splitOn '.')).take 4))
      ((seen (name.splitOn '.')).take 4).length = some addr') :
    (∀ c ∈ (seen (name.splitOn '.')).take 4, (strtoul c).1 ≤ 255) ∧ (name.splitOn '.').length ≤ 4 ∧
      (classOf (byte (((seen (name.splitOn '.')).take 4).headD [])) = 3 →
        4 ≤ ((seen (name.splitOn '.')).take 4).length) := by
  have hname : name ≠ [] := fun hnil => hmis (.inl hnil)
  obtain ⟨c₀, cs, hseen⟩ := List.exists_cons_of_ne_nil (seen_ne_nil hname)
  have hacc := classRule_isSome.mp (Option.isSome_iff_exists.mpr ⟨addr', hr⟩)
  have hkinds : ¬ ((∃ c ∈ (seen (name.splitOn '.')).take 4, 255 < (strtoul c).1) ∨
      4 < (name.splitOn '.').length ∨
      classOf (byte (((seen (name.splitOn '.')).take 4).headD [])) = 3 ∧
        ((seen (name.splitOn '.')).take 4).length < 4) := by
    intro hkind
    refine hmis (.inr ⟨hall, ?_, hkind⟩)
    rw [hseen, List.take_succ_cons, store_zero] at hacc
    rw [hseen, List.take_succ_cons, List.headD_cons]
    exact hacc
  push Not at hkinds
  exact hkinds

theorem strtoul_nil : strtoul [] = (0, []) := by decide

/-- The components of a string that is not misread make it exact. -/
theorem exact_of_passes {comps : List (List Char)} (hcomps : name.splitOn '.' = comps)
    (hsplit : comps = seen comps ∨ comps = seen comps ++ [[]]) (hne : seen comps ≠ [])
    (hall : ∀ c ∈ seen comps, passes c = true) (hle : ∀ c ∈ seen comps, (strtoul c).1 ≤ 255)
    (hlen : comps.length ≤ 4)
    (hthree : classOf (byte ((seen comps).headD [])) = 3 → 4 ≤ (seen comps).length)
    (hr : classRule (store addr 0 (seen comps)) (seen comps).length = some addr') :
    Exact name addr' := by
  have hshort : (seen comps).length ≤ comps.length := by
    rcases hsplit with heq | heq
    · exact (congrArg List.length heq).ge
    · have hplus := congrArg List.length heq
      rw [List.length_append] at hplus
      omega
  have hmem : ∀ c ∈ comps, c ∈ seen comps ∨ c = [] := by
    intro c hc
    rcases hsplit with heq | heq
    · exact .inl (heq ▸ hc)
    · rw [heq] at hc
      exact (List.mem_append.mp hc).imp_right List.mem_singleton.mp
  have hfirst : (comps.map fun c => (strtoul c).1).headD 0 =
      (byte ((seen comps).headD [])).toNat := by
    obtain ⟨c₀, cs, hseen⟩ := List.exists_cons_of_ne_nil hne
    have hhead : (byte c₀).toNat = (strtoul c₀).1 := byte_toNat (hle c₀ (hseen ▸ List.mem_cons_self))
    obtain ⟨tail, hcons⟩ : ∃ tail, comps = c₀ :: tail := by
      rcases hsplit with heq | heq
      · exact ⟨cs, heq.trans hseen⟩
      · exact ⟨cs ++ [[]], heq.trans (by rw [hseen]; rfl)⟩
    rw [hseen, hcons, List.map_cons, List.headD_cons, List.headD_cons, hhead]
  have hacc : accepted (classOf (byte ((seen comps).headD []))) (seen comps).length := by
    obtain ⟨c₀, cs, hseen⟩ := List.exists_cons_of_ne_nil hne
    have hacc := classRule_isSome.mp (Option.isSome_iff_exists.mpr ⟨addr', hr⟩)
    rw [hseen, store_zero] at hacc
    rw [hseen, List.headD_cons]
    exact hacc
  have hbytes : ∀ j < 4, (∃ c ∈ seen comps, addr' j = byte c) ∨
      addr' j = 0 ∧ filled (byte ((seen comps).headD [])).toNat (seen comps).length j := fun j hj =>
    classRule_bytes hne (hshort.trans hlen)
      (fun h => Nat.le_antisymm (hshort.trans hlen) (hthree h)) hr hj
  generalize byte ((seen comps).headD []) = first at hthree hfirst hacc hbytes
  unfold Exact
  rw [hcomps]
  refine ⟨hlen, ?_, ?_, ?_, ?_⟩
  · intro c hc
    rcases hmem c hc with hc | rfl
    · exact ((passes_iff c).mp (hall c hc)).1
    · rw [strtoul_nil]
  · intro v hv
    obtain ⟨c, hc, rfl⟩ := List.mem_map.mp hv
    rcases hmem c hc with hc | rfl
    · exact hle c hc
    · rw [strtoul_nil]
      exact Nat.zero_le _
  · rw [hfirst]
    exact allowed_of_accepted hacc hthree hshort hlen
  · intro j hj
    rw [hfirst]
    rcases hbytes j hj with ⟨c, hc, hb⟩ | ⟨hz, hf⟩
    · left
      rw [hb, byte_toNat (hle c hc)]
      exact List.mem_map_of_mem (seen_subset _ hc)
    · rcases hsplit with heq | heq
      · right
        have hlength : (seen comps).length = comps.length := (congrArg List.length heq).symm
        rw [hlength] at hf
        exact ⟨hz, hf⟩
      · left
        have hlast : [] ∈ comps := by
          rw [heq]
          exact List.mem_append_right _ List.mem_cons_self
        have hzero : (addr' j).toNat = (strtoul []).1 := by
          rw [hz, strtoul_nil]
          rfl
        rw [hzero]
        exact List.mem_map_of_mem hlast

theorem meets_of_not_misread (hmis : ¬ Misread name) : Meets addr name ip := by
  rcases parseip_cases addr name ip with heq | ⟨hall, addr', hr, heq⟩
  · rw [Meets, heq]
    exact ⟨fun h => (nomatch h), fun _ => rfl⟩
  · rw [Meets, heq]
    refine ⟨fun _ => ?_, fun h => (nomatch h)⟩
    obtain ⟨hle, hlen, hthree⟩ := bounds_of_not_misread hmis hall hr
    have hname : name ≠ [] := fun hnil => hmis (.inl hnil)
    have hsplit := seen_cases (List.splitOn_ne_nil '.' name)
    have hshort : (seen (name.splitOn '.')).length ≤ 4 := by
      rcases hsplit with heq | heq
      · exact (congrArg List.length heq).ge.trans hlen
      · have hplus := congrArg List.length heq
        rw [List.length_append] at hplus
        omega
    rw [List.take_of_length_le hshort] at hall hr hle hthree
    exact exact_of_passes rfl hsplit (seen_ne_nil hname) hall hle hlen hthree hr

/-- The empty string is accepted when the array happens to start with a byte above 191. -/
theorem nil_not_exact : ¬ ∀ addr ip, Meets addr [] ip := by
  intro h
  obtain ⟨-, -, -, hallowed, -⟩ := (h (fun _ => 200) fun _ => 0).1 (by decide)
  rw [List.splitOn_nil] at hallowed
  revert hallowed
  unfold allowed
  rw [List.map_singleton, List.headD_cons, strtoul_nil]
  decide

/-- Five different bytes are not all among four components. -/
theorem exists_other {values : List Nat} (h : values.length ≤ 4) : ∃ b : UInt8, b ≠ 0 ∧ b.toNat ∉ values := by
  by_contra hall
  push Not at hall
  have hsub : [1, 2, 3, 4, 5] ⊆ values := by
    intro v hv
    have hbyte : (UInt8.ofNat v).toNat ∈ values := by
      apply hall
      fin_cases hv <;> decide
    fin_cases hv <;> exact hbyte
  have hnodup : [1, 2, 3, 4, 5].Nodup := by decide
  have hle := (hnodup.subperm hsub).length_le
  simp only [List.length_cons, List.length_nil] at hle
  omega

/-- A misread string is accepted, and not exact. -/
theorem not_meets_of_misread (hmis : Misread name) : ¬ ∀ addr ip, Meets addr name ip := by
  intro h
  by_cases hname : name = []
  · subst hname
    exact nil_not_exact h
  rcases hmis with hnil | ⟨hall, hacc, hkind⟩
  · exact hname hnil
  have hhead : ∀ addr, store addr 0 ((seen (name.splitOn '.')).take 4) 0 =
      byte (((seen (name.splitOn '.')).take 4).headD []) := by
    intro addr
    obtain ⟨c₀, cs, hseen⟩ := List.exists_cons_of_ne_nil (seen_ne_nil hname)
    rw [hseen, List.take_succ_cons, store_zero, List.headD_cons]
  have hexact : ∀ addr, ∃ addr', classRule (store addr 0 ((seen (name.splitOn '.')).take 4))
      ((seen (name.splitOn '.')).take 4).length = some addr' ∧ Exact name addr' := by
    intro addr
    rw [← hhead addr] at hacc
    obtain ⟨addr', hr⟩ := Option.isSome_iff_exists.mp (classRule_isSome.mpr hacc)
    have hmeets := (h addr fun _ => 0).1
    rw [parseip_of_passes hall hr] at hmeets
    exact ⟨addr', hr, hmeets rfl⟩
  obtain ⟨-, -, hlen, -, hvalues, -⟩ := hexact fun _ => 0
  rcases hkind with ⟨c, hc, hlarge⟩ | hmore | ⟨hthree, hfew⟩
  · have hmem := seen_subset _ (List.mem_of_mem_take hc)
    have hle := hvalues _ (List.mem_map_of_mem hmem)
    omega
  · omega
  · obtain ⟨b, hb, hother⟩ := @exists_other ((name.splitOn '.').map fun c => (strtoul c).1)
      (by rw [List.length_map]; exact hlen)
    obtain ⟨addr', hr, -, -, -, -, hbytes⟩ := hexact fun _ => b
    rw [classRule_three (by rw [hhead]; exact hthree)] at hr
    cases hr
    have hlast := hbytes 3 (by decide)
    rw [store_after (by omega)] at hlast
    rcases hlast with hmem | ⟨hzero, -⟩
    · exact hother hmem
    · exact hb hzero

/-- **Dotted addresses are parsed exactly**, whatever is in the array before, if and only if
    the string is not misread. -/
theorem parseip_exact_iff (name : List Char) : (∀ addr ip, Meets addr name ip) ↔ ¬ Misread name := by
  constructor
  · intro h hmis
    exact not_meets_of_misread hmis h
  · intro hmis addr ip
    exact meets_of_not_misread hmis

end

/-- A component of 256, one that only fits after the conversion to `int`, text after the
    fourth component, and an address of the third class with two components. -/
theorem parseip_not_exact :
    ¬ (∀ addr ip, Meets addr "1.2.3.256".toList ip) ∧
      ¬ (∀ addr ip, Meets addr "4294967297.2.3.4".toList ip) ∧
      ¬ (∀ addr ip, Meets addr "1.2.3.4.5".toList ip) ∧
      ¬ ∀ addr ip, Meets addr "200.1".toList ip := by
  refine ⟨?_, ?_, ?_, ?_⟩
  · apply not_meets_of_misread
    refine .inr ⟨by decide, by decide, .inl ?_⟩
    exact ⟨"256".toList, by decide, by decide⟩
  · apply not_meets_of_misread
    refine .inr ⟨by decide, by decide, .inl ?_⟩
    exact ⟨"4294967297".toList, by decide, by decide⟩
  · apply not_meets_of_misread
    exact .inr ⟨by decide, by decide, .inr (.inl (by decide))⟩
  · apply not_meets_of_misread
    exact .inr ⟨by decide, by decide, .inr (.inr (by decide))⟩

end Coroc.ParseIp
