import Coroc.RefCount
import Coroc.Runtime.Issued
import Coroc.Runtime.Records

/-!
# Reference operations that transfer nothing (`src/include/libcoroc.h`)

The macros `__CoroC_Chan_RecvRef`, `__CoroC_Chan_RecvRef_NB`, `__CoroC_Select_SendRef` and
`__CoroC_Select_RecvRef` adjust the counts of the references before they call the channel
operation, and never afterwards.  Their results are those of the calls that return in a run
of the runtime.

`kept_iff`: a receive that yields false leaves the references as they were exactly when the
variable was `NULL`, and a select does so for the cases that it does not serve exactly when
these come to nothing for every object (`Balanced`); one such case alone has to be a receive
into a variable that is `NULL`.
-/

namespace Coroc.Runtime

open Coroc.Program Coroc.Transition

/-! ### Calls that do not block -/

/-- A call that does not block is not awakened. -/
def nbEntry : Entry → Prop
  | .send _ _ false ret => ret ≠ .awaken
  | .recv _ false ret _ => ret ≠ .awaken
  | _ => True

def nbCmd : Cmd → Prop
  | .chan (.record e) => nbEntry e
  | _ => True

theorem nbCmd_other (c : Cmd) (h : c.other) : nbCmd c := by
  cases c with
  | chan c => exact h.elim
  | _ => trivial

variable {k : Coid} {c : ChanId} {x : Item} {block : Bool} {t : Tid} {s s' : State}

theorem sendCmd.nb (cmd : Cmd) (h : sendCmd k c x block cmd) : nbCmd cmd := by
  cases cmd with
  | chan cmd =>
    cases cmd with
    | record e =>
      obtain ⟨ret, rfl, hret⟩ := h
      cases block with
      | false => exact hret.1 rfl
      | true => trivial
    | _ => trivial
  | _ => trivial

theorem recvCmd.nb (cmd : Cmd) (h : recvCmd k c block cmd) : nbCmd cmd := by
  cases cmd with
  | chan cmd =>
    cases cmd with
    | record e =>
      obtain ⟨ret, got, rfl, hret⟩ := h
      cases block with
      | false => exact hret.1 rfl
      | true => trivial
    | _ => trivial
  | _ => trivial

theorem closeCmd.nb (cmd : Cmd) (h : closeCmd c cmd) : nbCmd cmd := by
  cases cmd with
  | chan cmd =>
    cases cmd with
    | record e =>
      obtain ⟨ret, rfl⟩ := h
      trivial
    | _ => trivial
  | _ => trivial

theorem pollCases_nb (k : Coid) (ret : Ret) (cases : List Case) :
    (pollCases k ret cases).Issues nbCmd queueRes fun _ => True := by
  induction cases generalizing ret with
  | nil => trivial
  | cons e es ih =>
    refine Prog.Issues.bind (ρ := fun _ => True) ?_ fun res _ => ?_
    · unfold pollCase
      split
      · exact ((chanSendLocked_issues k e.chan e.item false).mono
          (fun cmd h => sendCmd.nb cmd (h.cmd cmd)) (fun _ _ h => h) fun _ h => h).bind
            fun _ _ => trivial
      · exact (chanRecvLocked_issues k e.chan e.item false).mono
          (fun cmd h => recvCmd.nb cmd (h.cmd cmd)) (fun _ _ h => h) fun _ _ => trivial
    · obtain ⟨ret', got⟩ := res
      change Prog.Issues _ _ (if ret' = .success then _ else _) _
      split
      · trivial
      · exact ih ret'

theorem enqueueAll_nb (qs : List (Quantum × Item)) :
    (enqueueAll qs).Issues nbCmd queueRes fun _ => True := by
  induction qs with
  | nil => trivial
  | cons p qs ih => exact ⟨trivial, fun _ _ => ih⟩

theorem dequeueAll_nb (active : Option ChanId) (res : Ret × Bool × Option Item) (qs : List (Quantum × Item)) :
    (dequeueAll active res qs).Issues nbCmd queueRes fun _ => True := by
  induction qs generalizing res with
  | nil => trivial
  | cons p qs ih => exact ⟨trivial, fun slot _ => ⟨trivial, fun _ _ => ih _⟩⟩

theorem chanSetSelect_nb (k : Coid) (cases : List Case) (chain : List ChanId) (block : Bool) :
    (chanSetSelect k cases chain block).Issues nbCmd queueRes fun _ => True := by
  unfold chanSetSelect
  split
  · exact ⟨trivial, fun _ _ => trivial⟩
  · refine (lockChainAcquire_contains nbCmd_other chain).bind fun _ _ => ?_
    refine Prog.Issues.bind (ρ := fun _ => True) ?_ fun res _ =>
      (lockChainRelease_contains nbCmd_other chain.reverse).bind fun _ _ =>
        ⟨trivial, fun _ _ => trivial⟩
    refine (pollCases_nb k .busy cases).bind fun res _ => ?_
    obtain ⟨ret, active, got⟩ := res
    simp only
    split
    · refine ⟨trivial, fun _ _ => (enqueueAll_nb _).bind fun _ _ => ?_⟩
      refine ⟨trivial, fun _ _ => (lockChainAcquire_contains nbCmd_other chain).bind fun _ _ => ?_⟩
      refine ⟨trivial, fun active _ => (dequeueAll_nb active _ _).bind fun res _ => ?_⟩
      exact ⟨trivial, fun _ _ => trivial⟩
    · trivial

theorem body_nb {a : Call} (hok : okCall t a s) : (body t a).Issues nbCmd queueRes fun _ => True := by
  have hsend : ∀ k c x block, (chanSend k c x block).Issues nbCmd queueRes fun _ => True :=
    fun k c x block => (chanSend_issues k c x block).mono sendCmd.nb (fun _ _ h => h) fun _ h => h
  apply body_contains nbCmd_other _ hok
  · rintro k rfl
    cases a with
    | chanSend c x block => exact hsend k c x block
    | chanRecv c x block =>
      exact (chanRecv_issues k c x block).mono recvCmd.nb (fun _ _ h => h) fun _ h => h
    | chanClose c => exact (chanClose_issues c).mono closeCmd.nb (fun _ _ h => h) fun _ h => h
    | select cases chain block => exact chanSetSelect_nb k cases chain block
    | _ => trivial
  · intro k c w
    exact hsend k c w.toNat true

theorem Reachable.nbEntry {c : Config} (h : Reachable c) :
    ∀ k, ∀ r ∈ (c.shared.cos k).history, nbEntry r.entry :=
  (Rules.invariant_of_issues (φ := fun _ => nbCmd) (ψ := queueRes)
    (J := fun s => ∀ k, ∀ r ∈ (s.cos k).history, Runtime.nbEntry r.entry)
    calls_sound (fun _ h => h.good) (fun _ _ _ _ => trivial)
    (fun _ h t => by rw [h.prog t]; trivial) (fun _ _ _ h => body_nb h)
    (fun _ h k _ hr => nomatch (h.co k).history ▸ hr)
    (fun t c s r s' hi hj _ _ hc he => by
      refine ⟨exec_queueRes hi he, fun j rec hrec => ?_⟩
      rcases (exec_effect he).history j with hsame | ⟨e, rfl, rfl, hnew⟩
      · rw [hsame] at hrec
        exact hj j rec hrec
      · rw [hnew] at hrec
        rcases List.mem_append.mp hrec with hrec | hrec
        · exact hj j rec hrec
        · rw [List.mem_singleton.mp hrec]
          exact hc)
    (fun _ _ _ _ _ hj he j rec hrec => hj j rec (((enter_kept he).co j).history ▸ hrec))
    (fun _ _ _ _ hj he j rec hrec => hj j rec ((env_co he j).history ▸ hrec)) h).2.1

/-! ### References -/

namespace RefOps

open Coroc.RefCount (Heap Counts one)

/-- Reference variables, and the references that are in buffered slots or with a sender. -/
structure Refs (V : Type) extends RefCount.State V Item where
  slots : Item → Nat

/-- A case of a select; one that was registered with `__CoroC_Select_Send` or
    `__CoroC_Select_Recv` has no reference variable. -/
structure RefCase (V : Type) where
  dir : Dir
  chan : ChanId
  var : Option V
deriving DecidableEq, Repr

section
variable {V : Type}

namespace Refs

/-- The references to an object. -/
def total (s : Refs V) (r : Item) : Nat := s.holders r + s.slots r

/-- The counts are the numbers of references. -/
def Exact (s : Refs V) : Prop := Counts s.heap s.total

/-- An item that is received goes from a slot to the variable. -/
def store [DecidableEq V] (s : Refs V) (v : V) (y : Item) : Refs V :=
  { s with
    val := Function.update s.val v (some y)
    slots := Function.update s.slots y (s.slots y - 1) }

/-- `__CoroC_Chan_RecvRef` and, with `block` false, `__CoroC_Chan_RecvRef_NB`, around a call
    of `_coroc_chan_recv` that returns `ret` and leaves `got` in the variable. -/
def recvRef [DecidableEq V] (s : Refs V) (v : V) (block : Bool) (ret : Ret) (got : Option Item) :
    Refs V × Bool :=
  let s := { s with heap := s.heap.refcntPut (s.val v) }
  let s := match got with
    | some y => s.store v y
    | none => s
  (s, if block then ret ≠ .closed else ret = .success)

/-- `__CoroC_Select_SendRef` and `__CoroC_Select_RecvRef`.  There is no result when a
    reference to send is `NULL`. -/
def register (s : Refs V) (e : RefCase V) : Option (Refs V) :=
  match e.var with
  | none => some s
  | some v =>
    match e.dir with
    | .send => (s.val v).map fun r => { s with heap := s.heap.refcntGet r }
    | .recv => some { s with heap := s.heap.refcntPut (s.val v) }

def registerAll (s : Refs V) : List (RefCase V) → Option (Refs V)
  | [] => some s
  | e :: es => (s.register e).bind fun s => s.registerAll es

/-- An item that is moved through a case. -/
def serveCase [DecidableEq V] (s : Refs V) (y : Item) : RefCase V → Refs V
  | ⟨.send, _, some _⟩ => { s with slots := Function.update s.slots y (s.slots y + 1) }
  | ⟨.recv, _, some v⟩ => s.store v y
  | ⟨_, _, none⟩ => s

/-- An item that is moved by the select, through the case of its channel. -/
def serve [DecidableEq V] (cases : List (RefCase V)) (s : Refs V) (x : Xfer) : Refs V :=
  match cases.find? fun e => e.chan = x.chan with
  | some e => s.serveCase x.item e
  | none => s

/-- `__CoroC_Select`, with the items that it moves. -/
def select [DecidableEq V] (s : Refs V) (cases : List (RefCase V)) (xfers : List Xfer) : Refs V :=
  xfers.foldl (serve cases) s

/-- The case is about the object. -/
def names (s : Refs V) (dir : Dir) (r : Item) (e : RefCase V) : Bool :=
  e.dir = dir ∧ e.var.bind s.val = some r

/-- How many of the cases send an object, or receive into a variable that holds it. -/
def cases (s : Refs V) (dir : Dir) (r : Item) (es : List (RefCase V)) : Nat :=
  es.countP (s.names dir r)

end Refs

/-- The cases that are not served. -/
def idle (es : List (RefCase V)) (xfers : List Xfer) : List (RefCase V) :=
  es.filter fun e => ∀ x ∈ xfers, x.chan ≠ e.chan

def served (es : List (RefCase V)) (xfers : List Xfer) : List (RefCase V) :=
  es.filter fun e => ∃ x ∈ xfers, x.chan = e.chan

/-- What is left of an object once the case that is served is done with it. -/
def Refs.left (s : Refs V) (es : List (RefCase V)) (xfers : List Xfer) (r : Item) : Nat :=
  s.total r + s.cases .send r (served es xfers) - s.cases .recv r (served es xfers)

/-- Of the cases that are not served as many send an object as receive into a variable that
    holds it, and while the cases are registered the count of an object that is still
    referred to does not come to 0. -/
def Balanced (s : Refs V) (es : List (RefCase V)) (xfers : List Xfer) : Prop :=
  ∀ r, s.cases .send r (idle es xfers) = s.cases .recv r (idle es xfers) ∧
    (0 < s.left es xfers r → ∀ n, s.cases .recv r (es.take n) < s.total r + s.cases .send r (es.take n))

variable {s s₁ : Refs V} {e : RefCase V} {es : List (RefCase V)} {xfers : List Xfer} {r : Item}

/-! ### The registrations -/

theorem register_same (h : s.register e = some s₁) :
    s₁.val = s.val ∧ s₁.scope = s.scope ∧ s₁.slots = s.slots := by
  unfold Refs.register at h
  split at h
  · cases h
    exact ⟨rfl, rfl, rfl⟩
  · split at h
    · obtain ⟨r, -, rfl⟩ := Option.map_eq_some_iff.mp h
      exact ⟨rfl, rfl, rfl⟩
    · cases h
      exact ⟨rfl, rfl, rfl⟩

theorem registerAll_same (h : s.registerAll es = some s₁) :
    s₁.val = s.val ∧ s₁.scope = s.scope ∧ s₁.slots = s.slots := by
  induction es generalizing s with
  | nil =>
    cases h
    exact ⟨rfl, rfl, rfl⟩
  | cons e es ih =>
    obtain ⟨s₂, hreg, hall⟩ := Option.bind_eq_some_iff.mp h
    obtain ⟨hval, hscope, hslots⟩ := register_same hreg
    obtain ⟨hval', hscope', hslots'⟩ := ih hall
    exact ⟨hval'.trans hval, hscope'.trans hscope, hslots'.trans hslots⟩

theorem cases_congr (h : s₁.val = s.val) (dir : Dir) (r : Item) (es : List (RefCase V)) :
    s₁.cases dir r es = s.cases dir r es := by
  unfold Refs.cases Refs.names
  rw [h]

theorem names_send_iff {v : V} (hv : e.var = some v) (hdir : e.dir = .send) (r : Item) :
    s.names .send r e = true ↔ s.val v = some r := by
  simp [Refs.names, hv, hdir]

theorem names_recv_iff {v : V} (hv : e.var = some v) (hdir : e.dir = .recv) (r : Item) :
    s.names .recv r e = true ↔ s.val v = some r := by
  simp [Refs.names, hv, hdir]

theorem not_names {dir : Dir} (h : e.dir ≠ dir ∨ e.var = none) (r : Item) : s.names dir r e = false := by
  rcases h with h | h
  · simp [Refs.names, h]
  · simp [Refs.names, h]

/-- What a registration does to one object. -/
theorem register_at (h : s.register e = some s₁) (r : Item) :
    s₁.heap.count r = (if s.names .send r e then s.heap.count r + 1
      else if s.names .recv r e then s.heap.count r - 1 else s.heap.count r) ∧
    s₁.heap.released r = s.heap.released r +
      if s.names .recv r e ∧ s.heap.count r - 1 = 0 then 1 else 0 := by
  unfold Refs.register at h
  split at h
  · rename_i hv
    cases h
    rw [not_names (.inr hv), not_names (.inr hv)]
    simp
  · rename_i v hv
    split at h
    · rename_i hdir
      obtain ⟨r', hr', rfl⟩ := Option.map_eq_some_iff.mp h
      have hnot : s.names .recv r e = false := not_names (.inl (by simp [hdir])) r
      have hsend := names_send_iff (s := s) hv hdir r
      rw [hr', Option.some.injEq] at hsend
      simp only [hnot, Heap.refcntGet, Heap.touch]
      by_cases hr : r = r'
      · subst hr
        simp [hsend.mpr rfl]
      · have hns : s.names .send r e = false := by
          rw [Bool.eq_false_iff, ne_eq, hsend]
          exact fun he => hr he.symm
        simp [hns, Function.update_of_ne hr]
    · rename_i hdir
      cases h
      have hnot : s.names .send r e = false := not_names (.inl (by simp [hdir])) r
      have hrecv := names_recv_iff (s := s) hv hdir r
      rcases hval : s.val v with _ | r'
      · have hnr : s.names .recv r e = false := by
          rw [Bool.eq_false_iff, ne_eq, hrecv, hval]
          nofun
        simp [hnot, hnr, Heap.refcntPut]
      · rw [hval, Option.some.injEq] at hrecv
        simp only [hnot, Heap.refcntPut, Heap.touch]
        by_cases hr : r = r'
        · subst hr
          by_cases hzero : s.heap.count r - 1 = 0
          · simp [hrecv.mpr rfl, hzero]
          · simp [hrecv.mpr rfl, hzero]
        · have hnr : s.names .recv r e = false := by
            rw [Bool.eq_false_iff, ne_eq, hrecv]
            exact fun he => hr he.symm
          by_cases hzero : s.heap.count r' - 1 = 0
          · simp [hnr, hzero, Function.update_of_ne hr]
          · simp [hnr, hzero, Function.update_of_ne hr]

theorem cases_cons (s : Refs V) (dir : Dir) (r : Item) (e : RefCase V) (es : List (RefCase V)) :
    s.cases dir r (e :: es) = s.cases dir r es + if s.names dir r e then 1 else 0 :=
  List.countP_cons ..

/-- A case is for one direction. -/
theorem names_one (s : Refs V) (r : Item) (e : RefCase V) :
    ¬ (s.names .send r e = true ∧ s.names .recv r e = true) := by
  rintro ⟨h1, h2⟩
  simp only [Refs.names, decide_eq_true_eq] at h1 h2
  exact nomatch h1.1.symm.trans h2.1

/-- The count after all registrations. -/
theorem registerAll_count (h : s.registerAll es = some s₁) (r : Item) :
    ((s₁.heap.count r).toNat + s.cases .recv r es) % 2 ^ 32 =
      ((s.heap.count r).toNat + s.cases .send r es) % 2 ^ 32 := by
  induction es generalizing s with
  | nil =>
    cases h
    rfl
  | cons e es ih =>
    obtain ⟨s₂, hreg, hall⟩ := Option.bind_eq_some_iff.mp h
    have hrest := ih hall
    rw [cases_congr (register_same hreg).1, cases_congr (register_same hreg).1,
      (register_at hreg r).1] at hrest
    rw [cases_cons, cases_cons]
    have hone := names_one s r e
    by_cases hsend : s.names .send r e = true
    · have hrecv : s.names .recv r e ≠ true := fun hr => hone ⟨hsend, hr⟩
      rw [if_pos hsend, RefCount.toNat_add_one] at hrest
      rw [if_pos hsend, if_neg hrecv]
      omega
    · rw [if_neg hsend] at hrest ⊢
      by_cases hrecv : s.names .recv r e = true
      · have hsub : (s.heap.count r - 1).toNat = (2 ^ 32 - 1 + (s.heap.count r).toNat) % 2 ^ 32 :=
          UInt32.toNat_sub _ _
        rw [if_pos hrecv, hsub] at hrest
        rw [if_pos hrecv]
        omega
      · rw [if_neg hrecv] at hrest ⊢
        exact hrest

theorem registerAll_released_le (h : s.registerAll es = some s₁) (r : Item) :
    s.heap.released r ≤ s₁.heap.released r := by
  induction es generalizing s with
  | nil =>
    cases h
    exact Nat.le_refl _
  | cons e es ih =>
    obtain ⟨s₂, hreg, hall⟩ := Option.bind_eq_some_iff.mp h
    have hrest := ih hall
    rw [(register_at hreg r).2] at hrest
    omega

/-- A prefix that starts with this case. -/
theorem cases_take_succ (s : Refs V) (dir : Dir) (r : Item) (e : RefCase V) (es : List (RefCase V))
    (n : Nat) : s.cases dir r ((e :: es).take (n + 1)) =
      s.cases dir r (es.take n) + if s.names dir r e then 1 else 0 := by
  rw [List.take_succ_cons, cases_cons]

/-- An object whose count stays positive is not released. -/
theorem registerAll_kept (h : s.registerAll es = some s₁) {c : Nat}
    (hc : (s.heap.count r).toNat = c) (hlt : c + es.length < 2 ^ 32)
    (hpos : ∀ n, s.cases .recv r (es.take n) < c + s.cases .send r (es.take n)) :
    s₁.heap.released r = s.heap.released r := by
  induction es generalizing s c with
  | nil =>
    cases h
    rfl
  | cons e es ih =>
    obtain ⟨s₂, hreg, hall⟩ := Option.bind_eq_some_iff.mp h
    have hsame := (register_same hreg).1
    obtain ⟨hcount, hrel⟩ := register_at hreg r
    have hzero : 0 < c := hpos 0
    have hnext := fun n => hpos (n + 1)
    rw [List.length_cons] at hlt
    simp only [cases_take_succ] at hnext
    have hone := names_one s r e
    by_cases hsend : s.names .send r e = true
    · have hrecv : s.names .recv r e ≠ true := fun hr => hone ⟨hsend, hr⟩
      rw [if_pos hsend] at hcount
      rw [if_neg fun hn => hrecv hn.1, Nat.add_zero] at hrel
      simp only [if_pos hsend, if_neg hrecv] at hnext
      rw [← hrel]
      apply ih hall (c := c + 1)
      · rw [hcount, RefCount.toNat_add_one, hc, Nat.mod_eq_of_lt (by omega)]
      · omega
      · intro n
        rw [cases_congr hsame, cases_congr hsame]
        have := hnext n
        omega
    · rw [if_neg hsend] at hcount
      by_cases hrecv : s.names .recv r e = true
      · simp only [if_neg hsend, if_pos hrecv] at hnext
        have htwo : 2 ≤ c := by
          have h0 := hnext 0
          simp only [List.take_zero, Refs.cases, List.countP_nil] at h0
          omega
        have hne : s.heap.count r - 1 ≠ 0 := by
          rw [ne_eq, RefCount.sub_one_eq_zero, hc]
          omega
        rw [if_pos hrecv] at hcount
        rw [if_neg fun hn => hne hn.2, Nat.add_zero] at hrel
        rw [← hrel]
        apply ih hall (c := c - 1)
        · rw [hcount, RefCount.toNat_sub_one (by omega), hc]
        · omega
        · intro n
          rw [cases_congr hsame, cases_congr hsame]
          have := hnext n
          omega
      · rw [if_neg hrecv] at hcount
        rw [if_neg fun hn => hrecv hn.1, Nat.add_zero] at hrel
        simp only [if_neg hsend, if_neg hrecv] at hnext
        rw [← hrel]
        apply ih hall (c := c)
        · rw [hcount, hc]
        · omega
        · intro n
          rw [cases_congr hsame, cases_congr hsame]
          exact hnext n

/-- An object whose count comes to 0 is released. -/
theorem registerAll_released (h : s.registerAll es = some s₁) {c n : Nat}
    (hc : (s.heap.count r).toNat = c) (hlt : c + es.length < 2 ^ 32) (hcpos : 0 < c)
    (hzero : c + s.cases .send r (es.take n) ≤ s.cases .recv r (es.take n)) :
    s.heap.released r < s₁.heap.released r := by
  induction es generalizing s c n with
  | nil =>
    simp only [List.take_nil, Refs.cases, List.countP_nil] at hzero
    omega
  | cons e es ih =>
    obtain ⟨s₂, hreg, hall⟩ := Option.bind_eq_some_iff.mp h
    have hsame := (register_same hreg).1
    obtain ⟨hcount, hrel⟩ := register_at hreg r
    rw [List.length_cons] at hlt
    cases n with
    | zero =>
      simp only [List.take_zero, Refs.cases, List.countP_nil] at hzero
      omega
    | succ n =>
      rw [cases_take_succ, cases_take_succ] at hzero
      have hone := names_one s r e
      by_cases hsend : s.names .send r e = true
      · have hrecv : s.names .recv r e ≠ true := fun hr => hone ⟨hsend, hr⟩
        rw [if_pos hsend] at hcount
        rw [if_neg fun hn => hrecv hn.1, Nat.add_zero] at hrel
        rw [if_pos hsend, if_neg hrecv] at hzero
        rw [← hrel]
        apply ih hall (c := c + 1) (n := n)
        · rw [hcount, RefCount.toNat_add_one, hc, Nat.mod_eq_of_lt (by omega)]
        · omega
        · omega
        · rw [cases_congr hsame, cases_congr hsame]
          omega
      · rw [if_neg hsend] at hcount hzero
        by_cases hrecv : s.names .recv r e = true
        · rw [if_pos hrecv] at hcount hzero
          by_cases hlast : c = 1
          · have hz : s.heap.count r - 1 = 0 := by
              rw [RefCount.sub_one_eq_zero, hc, hlast]
            rw [if_pos ⟨hrecv, hz⟩] at hrel
            have := registerAll_released_le hall r
            omega
          · have hne : s.heap.count r - 1 ≠ 0 := by
              rw [ne_eq, RefCount.sub_one_eq_zero, hc]
              exact hlast
            rw [if_neg fun hn => hne hn.2, Nat.add_zero] at hrel
            rw [← hrel]
            apply ih hall (c := c - 1) (n := n)
            · rw [hcount, RefCount.toNat_sub_one (by omega), hc]
            · omega
            · omega
            · rw [cases_congr hsame, cases_congr hsame]
              omega
        · rw [if_neg hrecv] at hcount hzero
          rw [if_neg fun hn => hrecv hn.1, Nat.add_zero] at hrel
          rw [← hrel]
          apply ih hall (c := c) (n := n)
          · rw [hcount, hc]
          · omega
          · exact hcpos
          · rw [cases_congr hsame, cases_congr hsame]
            exact hzero

/-! ### The select -/

/-- What a select can have moved: nothing, or one item through one of its cases.  A reference
    that is received was in a slot or with a sender. -/
def Outcome (s : Refs V) (es : List (RefCase V)) (xfers : List Xfer) : Prop :=
  xfers = [] ∨ ∃ e ∈ es, ∃ y, xfers = [⟨e.dir, e.chan, y⟩] ∧ ∀ v, e.var = some v →
    match e.dir with
    | .send => s.val v = some y
    | .recv => 0 < s.slots y

theorem filter_chan (he : e ∈ es) (hnodup : (es.map RefCase.chan).Nodup) :
    (es.filter fun e' => e'.chan = e.chan) = [e] := by
  induction es with
  | nil => cases he
  | cons e' es ih =>
    rw [List.map_cons, List.nodup_cons] at hnodup
    rcases List.mem_cons.mp he with rfl | hmem
    · have hnone : (es.filter fun e' => e'.chan = e.chan) = [] := by
        rw [List.filter_eq_nil_iff]
        intro e' he' heq
        exact hnodup.1 (of_decide_eq_true heq ▸ List.mem_map_of_mem he')
      rw [List.filter_cons_of_pos (by simp), hnone]
    · have hne : e'.chan ≠ e.chan := fun heq => hnodup.1 (heq ▸ List.mem_map_of_mem hmem)
      rw [List.filter_cons_of_neg (by simp [hne])]
      exact ih hmem hnodup.2

theorem served_singleton {y : Item} (he : e ∈ es) (hnodup : (es.map RefCase.chan).Nodup) :
    served es [⟨e.dir, e.chan, y⟩] = [e] := by
  have hfilter : served es [⟨e.dir, e.chan, y⟩] = es.filter fun e' => e'.chan = e.chan := by
    unfold served
    refine List.filter_congr fun e' _ => ?_
    simp [eq_comm]
  rw [hfilter, filter_chan he hnodup]

theorem served_nil (es : List (RefCase V)) : served es [] = [] := by
  simp [served]

/-- Every case is served or not. -/
theorem cases_split (s : Refs V) (dir : Dir) (r : Item) (es : List (RefCase V)) (xfers : List Xfer) :
    s.cases dir r es = s.cases dir r (idle es xfers) + s.cases dir r (served es xfers) := by
  have hserved : served es xfers = es.filter fun e => !decide (∀ x ∈ xfers, x.chan ≠ e.chan) := by
    unfold served
    refine List.filter_congr fun e _ => ?_
    rw [← decide_not, decide_eq_decide]
    push Not
    rfl
  rw [hserved]
  exact List.countP_eq_countP_filter_add es _ _

theorem cases_singleton (s : Refs V) (dir : Dir) (r : Item) (e : RefCase V) :
    s.cases dir r [e] = if s.names dir r e then 1 else 0 := by
  rw [cases_cons]
  exact Nat.zero_add _

variable [DecidableEq V]

theorem select_singleton {y : Item} (he : e ∈ es) (hnodup : (es.map RefCase.chan).Nodup) :
    s.select es [⟨e.dir, e.chan, y⟩] = s.serveCase y e := by
  have hfind : es.find? (fun e' => e'.chan = e.chan) = some e := by
    rw [← List.head?_filter, filter_chan he hnodup]
    rfl
  change Refs.serve es s ⟨e.dir, e.chan, y⟩ = _
  unfold Refs.serve
  rw [hfind]

theorem select_heap (hout : Outcome s es xfers) (hnodup : (es.map RefCase.chan).Nodup) :
    (s₁.select es xfers).heap = s₁.heap := by
  rcases hout with rfl | ⟨e, he, y, rfl, -⟩
  · rfl
  · rw [select_singleton he hnodup]
    unfold Refs.serveCase
    split <;> rfl

/-- The references to an object after the select: one more if it was sent, and one less if
    the variable that held it was received into. -/
theorem select_total (hall : s.registerAll es = some s₁) (hout : Outcome s es xfers)
    (hnodup : (es.map RefCase.chan).Nodup)
    (hscope : ∀ e ∈ es, ∀ v, e.var = some v → v ∈ s.scope) (r : Item) :
    (s₁.select es xfers).total r + s.cases .recv r (served es xfers) =
      s.total r + s.cases .send r (served es xfers) := by
  obtain ⟨hval, hsc, hslots⟩ := registerAll_same hall
  have htotal : s₁.total r = s.total r := by
    unfold Refs.total RefCount.State.holders
    rw [hval, hsc, hslots]
  rcases hout with rfl | ⟨e, he, y, rfl, hy⟩
  · rw [served_nil]
    simp only [Refs.cases, List.countP_nil, Nat.add_zero]
    exact htotal
  · rw [served_singleton he hnodup, cases_singleton, cases_singleton, select_singleton he hnodup]
    obtain ⟨dir, chan, var⟩ := e
    cases var with
    | none =>
      rw [not_names (.inr rfl), not_names (.inr rfl)]
      cases dir <;> exact congrArg (· + 0) htotal
    | some v =>
      cases dir with
      | send =>
        have hnot : s.names .recv r ⟨.send, chan, some v⟩ = false := not_names (.inl (by simp)) r
        have hnames := names_send_iff (s := s) (e := ⟨.send, chan, some v⟩) rfl rfl r
        rw [hy v rfl, Option.some.injEq] at hnames
        have hnew : (s₁.serveCase y ⟨.send, chan, some v⟩).total r = s₁.total r + if y = r then 1 else 0 := by
          change s₁.holders r + Function.update s₁.slots y (s₁.slots y + 1) r =
            s₁.holders r + s₁.slots r + _
          by_cases hr : y = r
          · subst hr
            rw [Function.update_self, if_pos rfl]
            rfl
          · rw [Function.update_of_ne (Ne.symm hr), if_neg hr]
            rfl
        rw [hnew, htotal, hnot]
        simp only [hnames]
        rfl
      | recv =>
        have hnot : s.names .send r ⟨.recv, chan, some v⟩ = false := not_names (.inl (by simp)) r
        have hnames := names_recv_iff (s := s) (e := ⟨.recv, chan, some v⟩) rfl rfl r
        have hslot : 0 < s₁.slots y := by
          rw [hslots]
          exact hy v rfl
        have hv : v ∈ s₁.scope := by
          rw [hsc]
          exact hscope _ he v rfl
        have hold := RefCount.State.holders_eq hv r
        rw [hval] at hold
        have hone : one (s.val v) r = if s.val v = some r then 1 else 0 := rfl
        have hnew : (s₁.serveCase y ⟨.recv, chan, some v⟩).total r =
            s₁.others v r + one (some y) r + Function.update s₁.slots y (s₁.slots y - 1) r := by
          rw [← RefCount.State.holders_update s₁.heap hv (some y) r]
          rfl
        rw [Refs.total] at htotal
        rw [hnew, hnot]
        simp only [hnames, Bool.false_eq_true, if_false, ← hone]
        by_cases hr : r = y
        · subst hr
          rw [RefCount.one_self, Function.update_self]
          omega
        · rw [RefCount.one_ne hr, Function.update_of_ne hr]
          omega

omit [DecidableEq V] in
/-- An object that a case is about is referred to. -/
theorem total_pos {dir : Dir} (hscope : ∀ v, e.var = some v → v ∈ s.scope)
    (hn : s.names dir r e = true) : 0 < s.total r := by
  simp only [Refs.names, decide_eq_true_eq] at hn
  obtain ⟨v, hv, hval⟩ := Option.bind_eq_some_iff.mp hn.2
  have hmem : v ∈ s.scope.filter fun v => s.val v = some r := by
    rw [Finset.mem_filter]
    exact ⟨hscope v hv, hval⟩
  exact Nat.add_pos_left (Finset.card_pos.mpr ⟨v, hmem⟩) _

/-- **A select keeps the counts exact** when the cases it does not serve come to nothing,
    and only then. -/
theorem select_exact_iff (hs : s.Exact) (hall : s.registerAll es = some s₁)
    (hout : Outcome s es xfers) (hnodup : (es.map RefCase.chan).Nodup)
    (hscope : ∀ e ∈ es, ∀ v, e.var = some v → v ∈ s.scope)
    (hlt : ∀ r, s.total r + es.length < 2 ^ 32) :
    (s₁.select es xfers).Exact ↔ Balanced s es xfers := by
  have htotal := select_total hall hout hnodup hscope
  have hleft : ∀ r, s.left es xfers r = (s₁.select es xfers).total r := by
    intro r
    have := htotal r
    unfold Refs.left
    omega
  have hlen : ∀ dir r, s.cases dir r (idle es xfers) + s.cases dir r (served es xfers) ≤ es.length := by
    intro dir r
    rw [← cases_split]
    exact List.countP_le_length
  constructor
  · intro hex r
    have hcount := registerAll_count hall r
    have hnew := hex.count r
    rw [select_heap hout hnodup] at hnew
    rw [hnew, hs.count r, cases_split s .recv r es xfers, cases_split s .send r es xfers] at hcount
    refine ⟨?_, fun hpos n => ?_⟩
    · have h1 := htotal r
      have h2 := hlt r
      have h3 := hlen .send r
      have h4 := hlen .recv r
      omega
    · by_contra hle
      have halive : 0 < s.total r := by
        by_contra hzero
        -- an object that is left over was there before, or was sent
        have hsent : 0 < s.cases .send r (served es xfers) := by
          unfold Refs.left at hpos
          omega
        obtain ⟨e, he, hn⟩ := List.countP_pos_iff.mp hsent
        exact hzero (total_pos (hscope e (List.mem_of_mem_filter he)) hn)
      have hrel := registerAll_released hall (hs.count r) (hlt r) halive (Nat.le_of_not_lt hle)
      have hdead := hex.dead r (by rw [select_heap hout hnodup]; omega)
      rw [← hleft] at hdead
      omega
  · intro hbal
    refine ⟨fun r => ?_, fun r hrel => ?_⟩
    · have hcount := registerAll_count hall r
      rw [select_heap hout hnodup]
      rw [hs.count r, cases_split s .recv r es xfers, cases_split s .send r es xfers, (hbal r).1] at hcount
      have h1 := htotal r
      have h2 := hlt r
      have h3 := hlen .send r
      have h4 := hlen .recv r
      have h5 := UInt32.toNat_lt (s₁.heap.count r)
      omega
    · rw [select_heap hout hnodup] at hrel
      by_contra hne
      rw [← hleft] at hne
      have hpos : 0 < s.left es xfers r := Nat.pos_of_ne_zero hne
      have hsurv := (hbal r).2 hpos
      have halive : 0 < s.total r := hsurv 0
      have hkept := registerAll_kept hall (hs.count r) (hlt r) hsurv
      have := hs.alive halive
      omega

omit [DecidableEq V] in
/-- Cases that are not served come to nothing when they receive into `NULL`. -/
theorem balanced_of_null (hout : Outcome s es xfers) (hnodup : (es.map RefCase.chan).Nodup)
    (hscope : ∀ e ∈ es, ∀ v, e.var = some v → v ∈ s.scope)
    (hnull : ∀ e ∈ idle es xfers, ∀ v, e.var = some v → e.dir = .recv ∧ s.val v = none) :
    Balanced s es xfers := by
  have hzero : ∀ dir r, s.cases dir r (idle es xfers) = 0 := by
    intro dir r
    refine List.countP_eq_zero.mpr fun e he hn => ?_
    simp only [Refs.names, decide_eq_true_eq] at hn
    obtain ⟨v, hv, hval⟩ := Option.bind_eq_some_iff.mp hn.2
    rw [(hnull e he v hv).2] at hval
    cases hval
  intro r
  refine ⟨by rw [hzero, hzero], fun hpos n => ?_⟩
  have hprefix : s.cases .recv r (es.take n) ≤ s.cases .recv r (served es xfers) := by
    have hle := (List.take_sublist n es).countP_le (p := s.names .recv r)
    have hsplit := cases_split s .recv r es xfers
    rw [hzero, Nat.zero_add] at hsplit
    exact hsplit ▸ hle
  have hsent : 0 < s.cases .send r (served es xfers) → 0 < s.total r := by
    intro h
    obtain ⟨e, he, hn⟩ := List.countP_pos_iff.mp h
    exact total_pos (hscope e (List.mem_of_mem_filter he)) hn
  have hone : s.cases .recv r (served es xfers) + s.cases .send r (served es xfers) ≤ 1 := by
    rcases hout with rfl | ⟨e, he, y, rfl, -⟩
    · rw [served_nil]
      exact Nat.zero_le 1
    · rw [served_singleton he hnodup, cases_singleton, cases_singleton]
      have := names_one s r e
      split <;> split <;> simp_all
  unfold Refs.left at hpos
  omega

omit [DecidableEq V] in
theorem registerAll_send {v : V} (hall : s.registerAll es = some s₁) (he : e ∈ es)
    (hdir : e.dir = .send) (hv : e.var = some v) : s.val v ≠ none := by
  induction es generalizing s with
  | nil => cases he
  | cons e' es ih =>
    obtain ⟨s₂, hreg, hrest⟩ := Option.bind_eq_some_iff.mp hall
    rcases List.mem_cons.mp he with rfl | hmem
    · intro hnone
      simp [Refs.register, hv, hdir, hnone] at hreg
    · have hne := ih hrest hmem
      rw [(register_same hreg).1] at hne
      exact hne

omit [DecidableEq V] in
/-- One case that is not served has to be a receive into `NULL`. -/
theorem balanced_single {v : V} (hall : s.registerAll es = some s₁) (hidle : idle es xfers = [e])
    (hv : e.var = some v) (hbal : Balanced s es xfers) : e.dir = .recv ∧ s.val v = none := by
  have hmem : e ∈ es := List.mem_of_mem_filter (hidle ▸ List.mem_singleton_self e)
  have hsum : ∀ r, (if s.names .send r e then 1 else 0) = if s.names .recv r e then 1 else 0 := by
    intro r
    have hr := (hbal r).1
    rw [hidle, cases_singleton, cases_singleton] at hr
    exact hr
  cases hdir : e.dir with
  | send =>
    obtain ⟨r, hr⟩ := Option.ne_none_iff_exists'.mp (registerAll_send hall hmem hdir hv)
    have hnames := (names_send_iff (s := s) hv hdir r).mpr hr
    have hnot : s.names .recv r e = false := not_names (.inl (by simp [hdir])) r
    have := hsum r
    rw [hnames, hnot] at this
    cases this
  | recv =>
    refine ⟨rfl, ?_⟩
    by_contra hne
    obtain ⟨r, hr⟩ := Option.ne_none_iff_exists'.mp hne
    have hnames := (names_recv_iff (s := s) hv hdir r).mpr hr
    have hnot : s.names .send r e = false := not_names (.inl (by simp [hdir])) r
    have := hsum r
    rw [hnames, hnot] at this
    cases this

/-! ### The results of the calls -/

/-- The cases of the call are those of the set, and what a reference case sends is the value
    of its variable. -/
def Matches (s : Refs V) : List (RefCase V) → List Case → Prop :=
  List.Forall₂ fun e c => c.dir = e.dir ∧ c.chan = e.chan ∧
    ∀ v, e.var = some v → e.dir = .send → s.val v = some c.item

omit [DecidableEq V] in
theorem outcome_of_record {cs : List Case} {block : Bool} {ret : Ret} {active : Option ChanId}
    {during : Bool} {got : Option Item} {rec : Record} (hok : rec.Ok)
    (hrec : rec.entry = .select cs block ret active during got) (hmatch : Matches s es cs)
    (hslots : ∀ x ∈ rec.xfers, x.dir = .recv → 0 < s.slots x.item) :
    Outcome s es rec.xfers := by
  simp only [Record.Ok, hrec] at hok
  rcases hok with ⟨-, -, -, hx, -⟩ | ⟨-, c, hc, -, y, hy, hx, -⟩ | ⟨-, -, -, hx, -⟩ | ⟨-, -, -, hx, -⟩
  · exact .inl hx
  · obtain ⟨i, hi, rfl⟩ := List.mem_iff_getElem.mp hc
    have hlen := hmatch.length_eq
    obtain ⟨hdir, hchan, hitem⟩ := (List.forall₂_iff_get.mp hmatch).2 i (hlen ▸ hi) hi
    simp only [List.get_eq_getElem] at hdir hchan hitem
    refine .inr ⟨es[i], List.getElem_mem _, y, ?_, fun v hv => ?_⟩
    · rw [hx, hdir, hchan]
    · split
      · rename_i hsend
        rw [hy (hdir.trans hsend)]
        exact hitem v hv hsend
      · rename_i hrecv
        rw [hx] at hslots
        exact hslots _ (List.mem_singleton_self _) (hdir.trans hrecv)
  · exact .inl hx
  · exact .inl hx

omit [DecidableEq V] in
theorem exact_put_iff {v : V} (hs : s.Exact) (hv : v ∈ s.scope) :
    Refs.Exact { s with heap := s.heap.refcntPut (s.val v) } ↔ s.val v = none := by
  rcases hval : s.val v with _ | r
  · exact ⟨fun _ => rfl, fun _ => hs⟩
  · refine ⟨fun hex => ?_, nofun⟩
    have hpos : 0 < s.total r := by
      have hname : s.names .recv r ⟨.recv, 0, some v⟩ = true :=
        (names_recv_iff rfl rfl r).mpr hval
      apply total_pos _ hname
      rintro v' ⟨⟩
      exact hv
    have hnew := hex.count r
    have hold := hs.count r
    change (Function.update s.heap.count r (s.heap.count r - 1) r).toNat = s.total r at hnew
    rw [Function.update_self, RefCount.toNat_sub_one (by omega)] at hnew
    omega

/-- A receive that yields false has left nothing in the variable. -/
theorem recvRef_false {v : V} {chan : ChanId} {block : Bool} {ret : Ret} {got : Option Item}
    {rec : Record} (hok : rec.Ok) (hnb : nbEntry rec.entry) (hrec : rec.entry = .recv chan block ret got)
    (hfalse : (s.recvRef v block ret got).2 = false) :
    (s.recvRef v block ret got).1 = { s with heap := s.heap.refcntPut (s.val v) } := by
  simp only [Record.Ok, hrec] at hok
  have hgot : got = none := by
    rcases hok.2 with ⟨hret, -⟩ | ⟨-, hgot⟩
    · exfalso
      cases block with
      | true => rcases hret with rfl | rfl <;> simp [Refs.recvRef] at hfalse
      | false =>
        rcases hret with rfl | rfl
        · simp [Refs.recvRef] at hfalse
        · rw [hrec] at hnb
          exact hnb rfl
    · exact hgot
  rw [hgot]
  rfl

/-- **Reference operations that transfer nothing.**  For every call that has returned in a
    run, and references whose counts are exact.  A receive that yields false keeps the
    variable and the counts exactly when the variable was `NULL`.  A select keeps the
    variables of the cases it does not serve, and the counts exactly when these cases are
    balanced. -/
theorem kept_iff {c : Config} (h : Reachable c) {k : Coid} {rec : Record}
    (hmem : rec ∈ (c.shared.cos k).history) (hs : s.Exact) :
    (∀ v chan block ret got, rec.entry = .recv chan block ret got → v ∈ s.scope →
      (s.recvRef v block ret got).2 = false →
      ((s.recvRef v block ret got).1.val v = s.val v ∧ (s.recvRef v block ret got).1.Exact ↔
        s.val v = none)) ∧
    ∀ es cs block ret active during got s₁, rec.entry = .select cs block ret active during got →
      Matches s es cs → (es.map RefCase.chan).Nodup →
      (∀ e ∈ es, ∀ v, e.var = some v → v ∈ s.scope) → (∀ r, s.total r + es.length < 2 ^ 32) →
      (∀ x ∈ rec.xfers, x.dir = .recv → 0 < s.slots x.item) → s.registerAll es = some s₁ →
      ((∀ e ∈ idle es rec.xfers, ∀ v, e.var = some v → (∀ e' ∈ served es rec.xfers, e'.var ≠ some v) →
          (s₁.select es rec.xfers).val v = s.val v) ∧
        (s₁.select es rec.xfers).Exact ↔ Balanced s es rec.xfers) := by
  have hok := h.recorded k rec hmem
  refine ⟨fun v chan block ret got hrec hv hfalse => ?_, ?_⟩
  · rw [recvRef_false hok (h.nbEntry k rec hmem) hrec hfalse, ← exact_put_iff hs hv]
    exact ⟨And.right, fun hex => ⟨rfl, hex⟩⟩
  · intro es cs block ret active during got s₁ hrec hmatch hnodup hscope hlt hslots hall
    have hout := outcome_of_record hok hrec hmatch hslots
    rw [← select_exact_iff hs hall hout hnodup hscope hlt]
    refine ⟨And.right, fun hex => ⟨fun e he v hv hother => ?_, hex⟩⟩
    rw [← (registerAll_same hall).1]
    rcases hout with hnil | ⟨e', he', y, hx, -⟩
    · rw [hnil]
      rfl
    · rw [hx] at hother ⊢
      rw [select_singleton he' hnodup]
      rw [served_singleton he' hnodup] at hother
      have hne := hother e' (List.mem_singleton_self e')
      obtain ⟨dir, chan, var⟩ := e'
      cases var with
      | none => cases dir <;> rfl
      | some v' =>
        cases dir with
        | send => rfl
        | recv =>
          have hvv : v ≠ v' := fun heq => hne (heq ▸ rfl)
          exact Function.update_of_ne hvv _ _

/-- The object 7 is in a slot, and the variable `true` holds `ref`, which has no other
    holder. -/
def refsHolding (ref : Option Item) : Refs Bool where
  heap := ⟨fun r => if r = 7 ∨ ref = some r then 1 else 0, fun _ => 0, []⟩
  scope := {true, false}
  val := fun v => if v then ref else none
  slots := fun r => if r = 7 then 1 else 0

/-- Receives into the variable `true` from the channel 0, and into `false` from 1. -/
def recvCases : List (RefCase Bool) := [⟨.recv, 0, some true⟩, ⟨.recv, 1, some false⟩]

theorem holders_refsHolding (ref : Option Item) (r : Item) :
    (refsHolding ref).holders r = if ref = some r then 1 else 0 := by
  unfold RefCount.State.holders refsHolding
  by_cases hr : ref = some r
  · subst hr
    rw [if_pos rfl, Finset.card_eq_one]
    refine ⟨true, Finset.ext fun v => ?_⟩
    cases v <;> simp
  · rw [if_neg hr, Finset.card_eq_zero, Finset.filter_eq_empty_iff]
    rintro (_ | _) _
    · nofun
    · exact hr

theorem refsHolding_exact {ref : Option Item} (hne : ref ≠ some 7) : (refsHolding ref).Exact := by
  refine ⟨fun r => ?_, nofun⟩
  rw [Refs.total, holders_refsHolding]
  change (if r = 7 ∨ ref = some r then (1 : UInt32) else 0).toNat =
    (if ref = some r then 1 else 0) + if r = 7 then 1 else 0
  by_cases h7 : r = 7
  · subst h7
    simp [hne]
  · by_cases hr : ref = some r <;> simp [h7, hr]

/-- A select has been given an item through the channel 1, and then a receive from the
    channel 0 has found nothing. -/
theorem returned_calls : ∃ c : Config, Reachable c ∧ (c.shared.cos 0).history =
    [⟨.select [⟨.recv, 0, 0⟩, ⟨.recv, 1, 0⟩] true .success (some 1) false (some 7), false,
      [⟨.recv, 1, 7⟩]⟩, ⟨.recv 0 false .busy none, false, []⟩] := by
  obtain ⟨c, hc, hP⟩ := Reachable.of_run 2 someBuffers someBuffers_empty
    (selectServed ++ [.call (.co 0) (.chanRecv 0 0 false)] ++ steps (.co 0) 7)
    (fun c => (c.shared.cos 0).history == [⟨.select [⟨.recv, 0, 0⟩, ⟨.recv, 1, 0⟩] true .success
      (some 1) false (some 7), false, [⟨.recv, 1, 7⟩]⟩, ⟨.recv 0 false .busy none, false, []⟩])
    (by decide +kernel)
  exact ⟨c, hc, beq_iff_eq.mp hP⟩

/-- With variables that are `NULL`. -/
theorem kept_iff_null : ∃ c : Config, Reachable c ∧ ∃ s₁,
    (refsHolding none).registerAll recvCases = some s₁ ∧
    (s₁.select recvCases [⟨.recv, 1, 7⟩]).Exact ∧ (s₁.select recvCases [⟨.recv, 1, 7⟩]).val false = some 7 ∧
    ((refsHolding none).recvRef true false .busy none).2 = false ∧
    ((refsHolding none).recvRef true false .busy none).1.Exact := by
  obtain ⟨c, hc, hhist⟩ := returned_calls
  have hs : (refsHolding none).Exact := refsHolding_exact nofun
  have hslot : ∀ x ∈ [(⟨.recv, 1, 7⟩ : Xfer)], x.dir = .recv → 0 < (refsHolding none).slots x.item := by
    decide
  have hscope : ∀ e ∈ recvCases, ∀ v, e.var = some v → v ∈ (refsHolding none).scope := by decide
  have hmatch : Matches (refsHolding none) recvCases [⟨.recv, 0, 0⟩, ⟨.recv, 1, 0⟩] :=
    .cons ⟨rfl, rfl, nofun⟩ (.cons ⟨rfl, rfl, nofun⟩ .nil)
  have hbal : Balanced (refsHolding none) recvCases [⟨.recv, 1, 7⟩] :=
    balanced_of_null (.inr ⟨⟨.recv, 1, some false⟩, by decide, 7, rfl, by decide⟩) (by decide) hscope
      (by decide)
  have hlt : ∀ r, (refsHolding none).total r + recvCases.length < 2 ^ 32 := by
    intro r
    rw [Refs.total, holders_refsHolding]
    change (if (none : Option Item) = some r then 1 else 0) + (if r = 7 then 1 else 0) + 2 < 2 ^ 32
    split <;> split <;> decide
  refine ⟨c, hc, _, rfl, ?_, by decide, by decide, ?_⟩
  · have hmain := (kept_iff hc (hhist ▸ List.mem_cons_self) hs).2 recvCases
    exact ((hmain _ _ _ _ _ _ _ rfl hmatch (by decide) hscope hlt hslot rfl).mpr hbal).2
  · have hmain := (kept_iff hc (hhist ▸ List.mem_cons_of_mem _ List.mem_cons_self) hs).1 true
    exact ((hmain _ _ _ _ rfl (by decide) (by decide)).mpr rfl).2

/-- With a variable that is the only holder of the object 5: after the receive that found
    nothing, and after the select that took the other case, the count of 5 is 0. -/
theorem not_kept : ∃ c : Config, Reachable c ∧
    (⟨.recv 0 false .busy none, false, []⟩ : Record) ∈ (c.shared.cos 0).history ∧
    (⟨.select [⟨.recv, 0, 0⟩, ⟨.recv, 1, 0⟩] true .success (some 1) false (some 7), false,
      [⟨.recv, 1, 7⟩]⟩ : Record) ∈ (c.shared.cos 0).history ∧
    (refsHolding (some 5)).Exact ∧
    ((refsHolding (some 5)).recvRef true false .busy none).2 = false ∧
    ¬ ((refsHolding (some 5)).recvRef true false .busy none).1.Exact ∧
    ∃ s₁, (refsHolding (some 5)).registerAll recvCases = some s₁ ∧
      ¬ (s₁.select recvCases [⟨.recv, 1, 7⟩]).Exact := by
  obtain ⟨c, hc, hhist⟩ := returned_calls
  refine ⟨c, hc, hhist ▸ List.mem_cons_of_mem _ List.mem_cons_self, hhist ▸ List.mem_cons_self,
    refsHolding_exact (by decide), by decide, fun hex => ?_, _, rfl, fun hex => ?_⟩
  · exact absurd (hex.count 5) (by decide)
  · exact absurd (hex.count 5) (by decide)

end

end RefOps

end Coroc.Runtime
