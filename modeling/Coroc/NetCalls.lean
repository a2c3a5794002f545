import Coroc.NetStream

/-!
# What reading and writing rely on

The invariant of the connections, and the specifications of `coroc_net_read`, `coroc_net_timed_read`,
`coroc_net_write` and the proxy over it: whatever the kernel answers and whatever the other coroutines do.
-/

namespace Coroc.NetStream

open Coroc.Program Coroc.Transition

variable {W : Wiring} {s s' : State} {i i' i₀ : Incoming} {o o' o₀ : Outgoing} {t : Tid} {fd rfd wfd : Fd}
variable {n : Nat} {buf bytes data : List Byte}

/-! ### The invariant -/

/-- A timed read may be short; the others are only at the end of the stream. -/
def Result.Short (r : Result) : Prop := r.timed = false ∧ r.bytes.length < r.size

/-- What the calls have returned. -/
def Incoming.returned (i : Incoming) : List Byte := (i.results.map Result.bytes).flatten

/-- What the calls have returned is what has been read.  A call that fails may lose bytes, but nothing is
    returned twice or out of order. -/
structure Collected (i : Incoming) : Prop where
  size : ∀ r ∈ i.results, r.bytes.length ≤ r.size
  order : i.returned.Sublist i.received
  exact : i.failed = false → i.returned <+: i.received
  atEnd : (∃ r ∈ i.results, r.Short) → i.AtEnd
  last : i.results.Pairwise fun x y => x.Short → y.bytes = []

/-- The bytes `l` continue what was sent of `m`. -/
structure Continues (ok : Prop) (l m : List Byte) : Prop where
  order : l.Sublist m
  exact : ok → l <+: m

/-- What a proxy has sent is what it has read. -/
structure Relayed (i : Incoming) (o : Outgoing) : Prop where
  sent : Continues (i.failed = false ∧ o.failed = false) o.sent i.received
  ended : o.shut = true → i.failed = false → o.failed = false → o.sent = i.received ∧ i.AtEnd

def Asked (o : Outgoing) : Prop := Continues (o.failed = false) o.sent o.asked.flatten

structure Inv (W : Wiring) (s : State) : Prop where
  arrived : ∀ b a, W.peer b = some a → (s.inc b).received ++ (s.inc b).inbox <+: (s.out a).sent
  fin : ∀ b a, W.peer b = some a → (s.inc b).fin = true →
    ((s.out a).shut || s.closed a) = true ∧ (s.inc b).received ++ (s.inc b).inbox = (s.out a).sent
  relayed : ∀ r w, W.relay r = some w → Relayed (s.inc r) (s.out w)
  collected : ∀ fd, W.relay fd = none → Collected (s.inc fd)
  asked : ∀ fd, W.source fd = none → Asked (s.out fd)

/-! ### What the others may do -/

structure Incoming.Kept (i i' : Incoming) : Prop where
  received : i'.received = i.received
  failed : i'.failed = i.failed
  results : i'.results = i.results
  fin : i.fin = true → i'.fin = true ∧ i'.inbox = i.inbox

structure Outgoing.Kept (o o' : Outgoing) : Prop where
  sent : o'.sent = o.sent
  failed : o'.failed = o.failed
  asked : o'.asked = o.asked
  shut : o'.shut = o.shut

theorem Incoming.Kept.refl (i : Incoming) : i.Kept i := ⟨rfl, rfl, rfl, fun h => ⟨h, rfl⟩⟩

theorem Outgoing.Kept.refl (o : Outgoing) : o.Kept o := ⟨rfl, rfl, rfl, rfl⟩

theorem Incoming.Kept.trans {i₁ i₂ i₃ : Incoming} (h : i₁.Kept i₂) (h' : i₂.Kept i₃) : i₁.Kept i₃ where
  received := h'.received.trans h.received
  failed := h'.failed.trans h.failed
  results := h'.results.trans h.results
  fin hfin := by
    obtain ⟨hfin₂, hbox⟩ := h.fin hfin
    exact ⟨(h'.fin hfin₂).1, (h'.fin hfin₂).2.trans hbox⟩

theorem Outgoing.Kept.trans {o₁ o₂ o₃ : Outgoing} (h : o₁.Kept o₂) (h' : o₂.Kept o₃) : o₁.Kept o₃ :=
  ⟨h'.sent.trans h.sent, h'.failed.trans h.failed, h'.asked.trans h.asked, h'.shut.trans h.shut⟩

theorem Incoming.Kept.atEnd (h : i.Kept i') (hend : i.AtEnd) : i'.AtEnd :=
  ⟨(h.fin hend.1).1, (h.fin hend.1).2.trans hend.2⟩

theorem Incoming.Kept.returned (h : i.Kept i') : i'.returned = i.returned := by
  rw [Incoming.returned, h.results]
  rfl

theorem Incoming.Kept.collected (h : i.Kept i') (hc : Collected i) : Collected i' where
  size := h.results ▸ hc.size
  order := by rw [h.returned, h.received]; exact hc.order
  exact := by rw [h.returned, h.received, h.failed]; exact hc.exact
  atEnd hs := h.atEnd (hc.atEnd (h.results ▸ hs))
  last := h.results ▸ hc.last

theorem Relayed.of_kept (h : Relayed i o) (hi : i.Kept i') (ho : o.Kept o') : Relayed i' o' := by
  obtain ⟨hsent, hended⟩ := h
  constructor
  · rw [hi.received, hi.failed, ho.sent, ho.failed]
    exact hsent
  · rw [hi.received, hi.failed, ho.sent, ho.failed, ho.shut]
    intro hshut hfi hfo
    obtain ⟨heq, hend⟩ := hended hshut hfi hfo
    exact ⟨heq, hi.atEnd hend⟩

theorem Asked.of_kept (h : Asked o) (ho : o.Kept o') : Asked o' := by
  unfold Asked
  rw [ho.sent, ho.failed, ho.asked]
  exact h

/-- The coroutine that reads for a proxy writes for it too. -/
theorem Wiring.writer_of_relay (hrelay : W.relay rfd = some wfd) (hr : W.reader rfd = t) : W.writer wfd = t :=
  (W.owner rfd wfd hrelay).symm.trans hr

structure Rely (W : Wiring) (t : Tid) (s s' : State) : Prop where
  inc : ∀ fd, W.reader fd = t → (s.inc fd).Kept (s'.inc fd)
  out : ∀ fd, W.writer fd = t → (s.out fd).Kept (s'.out fd)

/-! ### Changes of one half -/

@[simp] theorem setInc_inc_self (s : State) (fd : Fd) (i : Incoming) : (s.setInc fd i).inc fd = i :=
  Function.update_self ..

theorem setInc_inc_ne (s : State) (i : Incoming) {fd fd' : Fd} (h : fd' ≠ fd) : (s.setInc fd i).inc fd' = s.inc fd' :=
  Function.update_of_ne h ..

@[simp] theorem setInc_out (s : State) (fd : Fd) (i : Incoming) : (s.setInc fd i).out = s.out := rfl

@[simp] theorem setInc_closed (s : State) (fd : Fd) (i : Incoming) : (s.setInc fd i).closed = s.closed := rfl

@[simp] theorem setOut_out_self (s : State) (fd : Fd) (o : Outgoing) : (s.setOut fd o).out fd = o :=
  Function.update_self ..

theorem setOut_out_ne (s : State) (o : Outgoing) {fd fd' : Fd} (h : fd' ≠ fd) : (s.setOut fd o).out fd' = s.out fd' :=
  Function.update_of_ne h ..

@[simp] theorem setOut_inc (s : State) (fd : Fd) (o : Outgoing) : (s.setOut fd o).inc = s.inc := rfl

@[simp] theorem setOut_closed (s : State) (fd : Fd) (o : Outgoing) : (s.setOut fd o).closed = s.closed := rfl

theorem Rely.of_setInc (hinc : W.reader fd = t → (s.inc fd).Kept i) : Rely W t s (s.setInc fd i) := by
  constructor
  · intro fd' hfd'
    by_cases heq : fd' = fd
    · subst heq
      rw [setInc_inc_self]
      exact hinc hfd'
    · rw [setInc_inc_ne _ _ heq]
      exact .refl _
  · intro fd' _
    exact .refl _

theorem Rely.of_setOut (hout : W.writer fd = t → (s.out fd).Kept o) : Rely W t s (s.setOut fd o) := by
  constructor
  · intro fd' _
    exact .refl _
  · intro fd' hfd'
    by_cases heq : fd' = fd
    · subst heq
      rw [setOut_out_self]
      exact hout hfd'
    · rw [setOut_out_ne _ _ heq]
      exact .refl _

/-- A change of an incoming half. -/
theorem Inv.of_setInc (hi : Inv W s)
    (harrived : ∀ a, W.peer fd = some a → i.received ++ i.inbox <+: (s.out a).sent)
    (hfin : ∀ a, W.peer fd = some a → i.fin = true →
      ((s.out a).shut || s.closed a) = true ∧ i.received ++ i.inbox = (s.out a).sent)
    (hrelayed : ∀ w, W.relay fd = some w → Relayed i (s.out w)) (hcollected : W.relay fd = none → Collected i) :
    Inv W (s.setInc fd i) := by
  constructor
  · intro b a hab
    by_cases hb : b = fd
    · subst hb
      rw [setInc_inc_self]
      exact harrived a hab
    · rw [setInc_inc_ne _ _ hb]
      exact hi.arrived b a hab
  · intro b a hab
    by_cases hb : b = fd
    · subst hb
      rw [setInc_inc_self]
      exact hfin a hab
    · rw [setInc_inc_ne _ _ hb]
      exact hi.fin b a hab
  · intro r w hrw
    by_cases hr : r = fd
    · subst hr
      rw [setInc_inc_self]
      exact hrelayed w hrw
    · rw [setInc_inc_ne _ _ hr]
      exact hi.relayed r w hrw
  · intro fd' hfd'
    by_cases heq : fd' = fd
    · subst heq
      rw [setInc_inc_self]
      exact hcollected hfd'
    · rw [setInc_inc_ne _ _ heq]
      exact hi.collected fd' hfd'
  · exact hi.asked

/-- Bytes are only moved from the inbox to those received. -/
theorem Inv.of_moved (hi : Inv W s) (hmoved : i.received ++ i.inbox = (s.inc fd).received ++ (s.inc fd).inbox)
    (hfin : i.fin = (s.inc fd).fin) (hrelayed : ∀ w, W.relay fd = some w → Relayed i (s.out w))
    (hcollected : W.relay fd = none → Collected i) : Inv W (s.setInc fd i) := by
  refine hi.of_setInc ?_ ?_ hrelayed hcollected
  · rw [hmoved]
    exact hi.arrived fd
  · rw [hmoved, hfin]
    exact hi.fin fd

/-- The network brings something. -/
theorem Inv.of_kept (hi : Inv W s) (hkept : (s.inc fd).Kept i)
    (harrived : ∀ a, W.peer fd = some a → i.received ++ i.inbox <+: (s.out a).sent)
    (hfin : ∀ a, W.peer fd = some a → i.fin = true →
      ((s.out a).shut || s.closed a) = true ∧ i.received ++ i.inbox = (s.out a).sent) :
    Inv W (s.setInc fd i) ∧ ∀ t, Rely W t s (s.setInc fd i) := by
  refine ⟨hi.of_setInc harrived hfin ?_ ?_, fun t => .of_setInc fun _ => hkept⟩
  · intro w hw
    exact (hi.relayed fd w hw).of_kept hkept (.refl _)
  · intro hnone
    exact hkept.collected (hi.collected fd hnone)

/-- A change of an outgoing half, where more is sent only if it is open. -/
theorem Inv.of_setOut (hi : Inv W s) (hsent : (s.out fd).sent <+: o.sent)
    (hopen : ((s.out fd).shut || s.closed fd) = true → o.sent = (s.out fd).sent)
    (hshut : (s.out fd).shut = true → o.shut = true) (hrelayed : ∀ r, W.source fd = some r → Relayed (s.inc r) o)
    (hasked : W.source fd = none → Asked o) : Inv W (s.setOut fd o) := by
  constructor
  · intro b a hab
    by_cases ha : a = fd
    · subst ha
      rw [setOut_out_self]
      exact (hi.arrived b a hab).trans hsent
    · rw [setOut_out_ne _ _ ha]
      exact hi.arrived b a hab
  · intro b a hab hfin
    obtain ⟨hdone, heq⟩ := hi.fin b a hab hfin
    by_cases ha : a = fd
    · subst ha
      rw [setOut_out_self, hopen hdone]
      refine ⟨?_, heq⟩
      simp only [Bool.or_eq_true, setOut_closed] at hdone ⊢
      exact hdone.imp_left hshut
    · rw [setOut_out_ne _ _ ha]
      exact ⟨hdone, heq⟩
  · intro r w hrw
    by_cases hw : w = fd
    · subst hw
      rw [setOut_out_self]
      exact hrelayed r ((W.relay_iff r w).mp hrw)
    · rw [setOut_out_ne _ _ hw]
      exact hi.relayed r w hrw
  · exact hi.collected
  · intro fd' hfd'
    by_cases heq : fd' = fd
    · subst heq
      rw [setOut_out_self]
      exact hasked hfd'
    · rw [setOut_out_ne _ _ heq]
      exact hi.asked fd' hfd'

/-! ### The rules -/

/-- What may be sent after what was sent: the next bytes of what the proxy has read, or of what the calls
    were given. -/
def Sendable (W : Wiring) (fd : Fd) (l : List Byte) (s : State) : Prop :=
  match W.source fd with
  | some r => Continues ((s.inc r).failed = false ∧ (s.out fd).failed = false) l (s.inc r).received
  | none => Continues ((s.out fd).failed = false) l (s.out fd).asked.flatten

def Allowed (W : Wiring) (t : Tid) (c : Cmd) (s : State) : Prop :=
  match c with
  | .read fd _ => W.reader fd = t
  | .write fd data => W.writer fd = t ∧ Sendable W fd ((s.out fd).sent ++ data) s
  | .shutdown fd => W.writer fd = t ∧ ∀ r, W.source fd = some r → Relayed (s.inc r) { s.out fd with shut := true }
  | .record fd r => W.reader fd = t ∧ W.relay fd = none ∧
      Collected { s.inc fd with results := (s.inc fd).results ++ [r] }
  | .netWait _ _ | .netTimedwait _ _ | .close _ => True

/-- What a read does to the bytes. -/
structure Incoming.Advance (i i' : Incoming) : Prop where
  moved : i'.received ++ i'.inbox = i.received ++ i.inbox
  received : i.received <+: i'.received
  fin : i'.fin = i.fin
  failed : i'.failed = false → i.failed = false
  results : i'.results = i.results

theorem Incoming.read_advance (closed : Bool) (n : Nat) (i : Incoming) : i.Advance (i.read closed n).2 := by
  obtain ⟨bytes, rest, hbox, h, -⟩ | h | ⟨e, -, h⟩ := Incoming.read_cases closed n i
  · rw [h]
    exact ⟨by simp [hbox], List.prefix_append _ _, rfl, id, rfl⟩
  · rw [h]
    exact ⟨rfl, List.prefix_refl _, rfl, id, rfl⟩
  · rw [h]
    exact ⟨rfl, List.prefix_refl _, rfl, (fun hf => by cases hf), rfl⟩

theorem Incoming.Advance.atEnd (h : i.Advance i') (hend : i.AtEnd) : i'.AtEnd ∧ i'.received = i.received := by
  obtain ⟨l, hl⟩ := h.received
  have hmoved := h.moved
  rw [← hl, hend.2, List.append_assoc, List.append_cancel_left_eq] at hmoved
  obtain ⟨hnil, hbox⟩ := List.append_eq_nil_iff.mp hmoved
  subst hnil
  exact ⟨⟨h.fin.trans hend.1, hbox⟩, by rw [← hl, List.append_nil]⟩

theorem Continues.mono {ok ok' : Prop} {l m m' : List Byte} (h : Continues ok l m) (hm : m <+: m') (hok : ok' → ok) :
    Continues ok' l m' :=
  ⟨h.order.trans hm.sublist, fun h' => (h.exact (hok h')).trans hm⟩

theorem Relayed.advance (h : Relayed i o) (ha : i.Advance i') : Relayed i' o := by
  constructor
  · exact h.sent.mono ha.received fun hok => ⟨ha.failed hok.1, hok.2⟩
  · intro hshut hfi hfo
    obtain ⟨heq, hend⟩ := h.ended hshut (ha.failed hfi) hfo
    obtain ⟨hend', hrec⟩ := ha.atEnd hend
    exact ⟨heq.trans hrec.symm, hend'⟩

theorem Collected.advance (h : Collected i) (ha : i.Advance i') : Collected i' := by
  have hret : i'.returned = i.returned := by
    rw [Incoming.returned, ha.results]
    rfl
  constructor
  · rw [ha.results]
    exact h.size
  · rw [hret]
    exact h.order.trans ha.received.sublist
  · intro hf
    rw [hret]
    exact (h.exact (ha.failed hf)).trans ha.received
  · rw [ha.results]
    exact fun hs => (ha.atEnd (h.atEnd hs)).1
  · rw [ha.results]
    exact h.last

theorem read_sound (hi : Inv W s) (n : Nat) : Inv W (s.setInc fd ((s.inc fd).read (s.closed fd) n).2) := by
  have ha := Incoming.read_advance (s.closed fd) n (s.inc fd)
  refine hi.of_moved ha.moved ha.fin ?_ ?_
  · intro w hw
    exact (hi.relayed fd w hw).advance ha
  · intro hnone
    exact (hi.collected fd hnone).advance ha

/-- A part of what may be sent may be sent. -/
theorem Continues.of_prefix {ok : Prop} {l l' m : List Byte} (h : Continues ok l m) (hl : l' <+: l) : Continues ok l' m :=
  ⟨hl.sublist.trans h.order, fun hok => hl.trans (h.exact hok)⟩

theorem write_sound (hi : Inv W s) (hsend : Sendable W fd ((s.out fd).sent ++ data) s) :
    Inv W (s.setOut fd ((s.out fd).write (s.closed fd) data).2) := by
  obtain ⟨m, hm, -, hclosed, hshut, h⟩ | h | ⟨e, -, h⟩ :=
    Outgoing.write_cases (s.closed fd) data (s.out fd)
  · rw [h]
    have hpre : (s.out fd).sent ++ data.take m <+: (s.out fd).sent ++ data :=
      (List.prefix_append_right_inj _).mpr (List.take_prefix _ _)
    refine hi.of_setOut (List.prefix_append _ _) ?_ id ?_ ?_
    · intro hdone
      rw [hclosed, hshut] at hdone
      cases hdone
    · intro r hr
      simp only [Sendable, hr] at hsend
      refine ⟨hsend.of_prefix hpre, fun hs => ?_⟩
      rw [hshut] at hs
      cases hs
    · intro hnone
      simp only [Sendable, hnone] at hsend
      exact hsend.of_prefix hpre
  · rw [h]
    exact hi.of_setOut (List.prefix_refl _) (fun _ => rfl) id
      (fun r hr => hi.relayed r fd ((W.relay_iff r fd).mpr hr)) (hi.asked fd)
  · rw [h]
    refine hi.of_setOut (List.prefix_refl _) (fun _ => rfl) id ?_ ?_
    · intro r hr
      have hrel := hi.relayed r fd ((W.relay_iff r fd).mpr hr)
      exact ⟨⟨hrel.sent.order, fun hok => by cases hok.2⟩, fun _ _ hf => by cases hf⟩
    · intro hnone
      exact ⟨(hi.asked fd hnone).order, fun hf => by cases hf⟩

theorem exec_sound {c : Cmd} {r : c.Res} (hi : Inv W s) (ha : Allowed W t c s) (he : exec c s = some (r, s')) :
    Inv W s' ∧ ∀ u, u ≠ t → Rely W u s s' := by
  cases c with
  | read fd n =>
    cases he
    refine ⟨read_sound hi n, fun u hu => .of_setInc fun hr => ?_⟩
    exact absurd (hr.symm.trans ha) hu
  | write fd data =>
    cases he
    refine ⟨write_sound hi ha.2, fun u hu => .of_setOut fun hw => ?_⟩
    exact absurd (hw.symm.trans ha.1) hu
  | netWait fd mode =>
    cases he
    exact ⟨hi, fun u _ => ⟨fun _ _ => .refl _, fun _ _ => .refl _⟩⟩
  | netTimedwait fd mode =>
    cases he
    exact ⟨hi, fun u _ => ⟨fun _ _ => .refl _, fun _ _ => .refl _⟩⟩
  | shutdown fd =>
    cases he
    refine ⟨?_, fun u hu => .of_setOut fun hw => absurd (hw.symm.trans ha.1) hu⟩
    exact hi.of_setOut (List.prefix_refl _) (fun _ => rfl) (fun _ => rfl) ha.2 (hi.asked fd)
  | close fd =>
    cases he
    refine ⟨⟨hi.arrived, ?_, hi.relayed, hi.collected, hi.asked⟩,
      fun u _ => ⟨fun _ _ => .refl _, fun _ _ => .refl _⟩⟩
    intro b a hab hfin
    obtain ⟨hdone, heq⟩ := hi.fin b a hab hfin
    refine ⟨?_, heq⟩
    simp only [Bool.or_eq_true, Function.update_apply] at hdone ⊢
    refine hdone.imp_right fun hc => ?_
    split
    · rfl
    · exact hc
  | record fd r =>
    cases he
    refine ⟨?_, fun u hu => .of_setInc fun hr => absurd (hr.symm.trans ha.1) hu⟩
    refine hi.of_moved rfl rfl ?_ fun _ => ha.2.2
    intro w hw
    rw [ha.2.1] at hw
    cases hw

/-! ### The environment -/

theorem arrive_sound (hi : Inv W s) (hbytes : ∀ a, W.peer fd = some a →
      (s.inc fd).received ++ ((s.inc fd).inbox ++ bytes) <+: (s.out a).sent)
    (h : s.arrive fd bytes = some s') : Inv W s' ∧ ∀ t, Rely W t s s' := by
  unfold State.arrive at h
  split at h
  · cases h
  · next hfin =>
    cases h
    exact hi.of_kept ⟨rfl, rfl, rfl, fun h => absurd h hfin⟩ hbytes fun _ _ h => absurd h hfin

/-- What has arrived and what is on its way. -/
theorem Inv.onWay (hi : Inv W s) {a b : Fd} (hab : W.peer b = some a) :
    (s.inc b).received ++ (s.inc b).inbox ++ s.onWay a b = (s.out a).sent := by
  obtain ⟨l, hl⟩ := hi.arrived b a hab
  rw [State.onWay, ← hl, List.drop_left]

theorem env_sound {e : Env} (hi : Inv W s) (he : env W e s = some s') : Inv W s' ∧ ∀ t, Rely W t s s' := by
  cases e with
  | deliver fd m =>
    simp only [env] at he
    split at he
    · next a hpeer =>
      refine arrive_sound hi ?_ he
      intro a' ha'
      obtain rfl : a = a' := Option.some.inj (hpeer.symm.trans ha')
      rw [← List.append_assoc, ← hi.onWay hpeer]
      exact (List.prefix_append_right_inj _).mpr (List.take_prefix _ _)
    · cases he
  | arrive fd bytes =>
    simp only [env] at he
    split at he
    · cases he
    · next hpeer =>
      refine arrive_sound hi ?_ he
      intro a ha
      rw [hpeer] at ha
      cases ha
  | finish fd =>
    -- what was in the inbox stays there
    have hfinish (hdone : ∀ a, W.peer fd = some a → ((s.out a).shut || s.closed a) = true ∧ s.onWay a fd = [])
        (hs : s.setInc fd { s.inc fd with fin := true } = s') : Inv W s' ∧ ∀ t, Rely W t s s' := by
      subst hs
      refine hi.of_kept ⟨rfl, rfl, rfl, fun _ => ⟨rfl, rfl⟩⟩ (hi.arrived fd) fun a ha _ => ⟨(hdone a ha).1, ?_⟩
      rw [← hi.onWay ha, (hdone a ha).2, List.append_nil]
    simp only [env] at he
    split at he
    · next a hpeer =>
      split at he
      · next hdone =>
        simp only [Bool.and_eq_true, decide_eq_true_eq] at hdone
        refine hfinish (fun a' ha' => ?_) (Option.some.inj he)
        obtain rfl : a = a' := Option.some.inj (hpeer.symm.trans ha')
        exact hdone
      · cases he
    · next hpeer =>
      refine hfinish (fun a ha => ?_) (Option.some.inj he)
      rw [hpeer] at ha
      cases ha
  | setIn fd chunk fault expired =>
    cases he
    exact hi.of_kept ⟨rfl, rfl, rfl, fun h => ⟨h, rfl⟩⟩ (hi.arrived fd) (hi.fin fd)
  | setOut fd room fault =>
    cases he
    have hkept : (s.out fd).Kept { s.out fd with room := room, fault := fault } := ⟨rfl, rfl, rfl, rfl⟩
    refine ⟨?_, fun t => .of_setOut fun _ => hkept⟩
    exact hi.of_setOut (List.prefix_refl _) (fun _ => rfl) id
      (fun r hr => (hi.relayed r fd ((W.relay_iff r fd).mpr hr)).of_kept (.refl _) hkept)
      fun hnone => (hi.asked fd hnone).of_kept hkept

def rules (W : Wiring) : Rules (machine W) where
  ok _ _ _ := True
  Inv := Inv W
  Rely := Rely W
  Allowed := Allowed W
  rely_refl _ _ := ⟨fun _ _ => .refl _, fun _ _ => .refl _⟩
  rely_trans h h' := ⟨fun fd hr => (h.inc fd hr).trans (h'.inc fd hr), fun fd hw => (h.out fd hw).trans (h'.out fd hw)⟩
  exec_sound hi _ ha he := NetStream.exec_sound hi ha he
  env_sound hi he := NetStream.env_sound hi he

theorem issue_spec {c : Cmd} {P : State → Prop} {Q : c.Res → State → Prop} (hP : Stable (rules W) t P)
    (hQ : ∀ r, Stable (rules W) t (Q r))
    (hc : ∀ s, Inv W s → P s → Allowed W t c s ∧ ∀ r s', exec c s = some (r, s') → Q r s') :
    Triple (rules W) t P (issue c) Q := by
  refine Triple.step hP Q ?_ fun r => Triple.ret (hQ r) fun _ _ h => h
  intro s hi hp _
  obtain ⟨ha, hexec⟩ := hc s hi hp
  exact ⟨ha, fun r s' he _ => hexec r s' he⟩

theorem netWait_spec {P : State → Prop} (hP : Stable (rules W) t P) (mode : Mode) :
    Triple (rules W) t P (netWait fd mode) fun _ => P := by
  refine issue_spec hP (fun _ => hP) fun s _ hs => ⟨trivial, fun r s' he => ?_⟩
  cases he
  exact hs

/-! ### Reading -/

/-- Since `i₀`, exactly `buf` has been read. -/
structure Since (i₀ : Incoming) (buf : List Byte) (i : Incoming) : Prop where
  received : i.received = i₀.received ++ buf
  failed : i.failed = i₀.failed
  results : i.results = i₀.results
  ended : i₀.AtEnd → i.AtEnd ∧ buf = []

/-- Since `i₀`, a read has failed. -/
structure Lost (i₀ i : Incoming) : Prop where
  failed : i.failed = true
  results : i.results = i₀.results

theorem Since.refl (i : Incoming) : Since i [] i := ⟨(List.append_nil _).symm, rfl, rfl, fun h => ⟨h, rfl⟩⟩

theorem Since.kept (h : Since i₀ buf i) (hk : i.Kept i') : Since i₀ buf i' where
  received := hk.received.trans h.received
  failed := hk.failed.trans h.failed
  results := hk.results.trans h.results
  ended hend := ⟨hk.atEnd (h.ended hend).1, (h.ended hend).2⟩

theorem Lost.kept (h : Lost i₀ i) (hk : i.Kept i') : Lost i₀ i' :=
  ⟨hk.failed.trans h.failed, hk.results.trans h.results⟩

/-- After `read`. -/
def AfterRead (fd : Fd) (i₀ : Incoming) (buf : List Byte) (n : Nat) : Except Errno (List Byte) → State → Prop
  | .ok bytes, s => Since i₀ (buf ++ bytes) (s.inc fd) ∧ bytes.length ≤ n ∧ (0 < n → bytes = [] → (s.inc fd).AtEnd)
  | .error e, s => if e = EAGAIN then Since i₀ buf (s.inc fd) else Lost i₀ (s.inc fd)

section
variable (hr : W.reader fd = t)
include hr

theorem since_stable : Stable (rules W) t fun s => Since i₀ buf (s.inc fd) :=
  fun _ _ _ _ hrely h => h.kept (hrely.inc fd hr)

theorem lost_stable : Stable (rules W) t fun s => Lost i₀ (s.inc fd) :=
  fun _ _ _ _ hrely h => h.kept (hrely.inc fd hr)

theorem atEnd_stable (φ : Prop) : Stable (rules W) t fun s => φ → (s.inc fd).AtEnd :=
  fun _ _ _ _ hrely h hφ => (hrely.inc fd hr).atEnd (h hφ)

theorem AfterRead.stable (r : Except Errno (List Byte)) : Stable (rules W) t (AfterRead fd i₀ buf n r) := by
  cases r with
  | ok bytes =>
    intro s s' hi hi' hrely h
    exact ⟨h.1.kept (hrely.inc fd hr), h.2.1, fun hn hnil => (hrely.inc fd hr).atEnd (h.2.2 hn hnil)⟩
  | error e =>
    intro s s' hi hi' hrely h
    by_cases he : e = EAGAIN
    · simp only [AfterRead, if_pos he] at h ⊢
      exact h.kept (hrely.inc fd hr)
    · simp only [AfterRead, if_neg he] at h ⊢
      exact h.kept (hrely.inc fd hr)

theorem read_spec : Triple (rules W) t (fun s => Since i₀ buf (s.inc fd)) (read fd n) (AfterRead fd i₀ buf n) := by
  refine issue_spec (since_stable hr) (AfterRead.stable hr) fun s _ hs => ⟨hr, fun r s' he => ?_⟩
  cases he
  obtain ⟨bytes, rest, hbox, h, hn, hend⟩ | h | ⟨e, he, h⟩ :=
    Incoming.read_cases (s.closed fd) n (s.inc fd)
  · simp only [h, AfterRead, setInc_inc_self]
    refine ⟨⟨by rw [hs.received, List.append_assoc], hs.failed, hs.results, fun h₀ => ?_⟩, hn, fun hpos hnil => ?_⟩
    · obtain ⟨⟨hfin, hempty⟩, rfl⟩ := hs.ended h₀
      obtain ⟨rfl, rfl⟩ := List.append_eq_nil_iff.mp (hbox.symm.trans hempty)
      exact ⟨⟨hfin, rfl⟩, rfl⟩
    · subst hnil
      have hat := hend hpos rfl
      exact ⟨hat.1, by rw [← hat.2, hbox, List.nil_append]⟩
  · simp only [h, AfterRead, setInc_inc_self, if_pos]
    exact hs
  · simp only [h, AfterRead, setInc_inc_self, if_neg he]
    exact ⟨rfl, hs.results⟩

/-- After the loop that waits: `EAGAIN` is not left. -/
def AfterReady (fd : Fd) (i₀ : Incoming) (buf : List Byte) (n : Nat) : Except Errno (List Byte) → State → Prop
  | .ok bytes, s => Since i₀ (buf ++ bytes) (s.inc fd) ∧ bytes.length ≤ n ∧ (0 < n → bytes = [] → (s.inc fd).AtEnd)
  | .error _, s => Lost i₀ (s.inc fd)

theorem readReady_spec : Triple (rules W) t (fun s => Since i₀ buf (s.inc fd)) (readReady fd n)
    (AfterReady fd i₀ buf n) := by
  refine Triple.loop (since_stable hr) (AfterReady fd i₀ buf n) ?_ fun r => Triple.ret ?_ fun _ _ h => h
  · refine Triple.bind (read_spec hr) fun r => ?_
    cases r with
    | ok bytes => exact Triple.ret (AfterRead.stable hr _) fun _ _ h => h
    | error e =>
      by_cases he : e = EAGAIN
      · simp only [if_pos he]
        refine Triple.bind (netWait_spec (AfterRead.stable hr (.error e)) .read) fun _ => ?_
        refine Triple.ret (AfterRead.stable hr (.error e)) fun s _ h => ?_
        rwa [AfterRead, if_pos he] at h
      · simp only [if_neg he]
        refine Triple.ret (AfterRead.stable hr (.error e)) fun s _ h => ?_
        rwa [AfterRead, if_neg he] at h
  · cases r with
    | ok bytes => exact AfterRead.stable hr (.ok bytes)
    | error e => exact lost_stable hr

/-- After `coroc_net_read`: all `n` bytes, or fewer at the end of the stream. -/
def AfterNetRead (fd : Fd) (i₀ : Incoming) (n : Nat) : Except Errno (List Byte) → State → Prop
  | .ok bytes, s => Since i₀ bytes (s.inc fd) ∧ bytes.length ≤ n ∧ (bytes.length < n → (s.inc fd).AtEnd)
  | .error _, s => Lost i₀ (s.inc fd)

theorem readLoop_spec (left : Nat) : ∀ buf : List Byte, buf.length ≤ n → n ≤ left + buf.length →
    Triple (rules W) t (fun s => Since i₀ buf (s.inc fd)) (readLoop fd n left buf) (AfterNetRead fd i₀ n) := by
  have hdone (buf : List Byte) (hle : buf.length ≤ n) (hn : n ≤ buf.length) :
      Triple (rules W) t (fun s => Since i₀ buf (s.inc fd)) (.ret (.ok buf)) (AfterNetRead fd i₀ n) :=
    Triple.ret (since_stable hr) fun _ _ h => ⟨h, hle, fun hlt => by omega⟩
  induction left with
  | zero =>
    intro buf hle hn
    exact hdone buf hle (by omega)
  | succ left ih =>
    intro buf hle hn
    unfold readLoop
    by_cases hlt : buf.length < n
    · rw [if_pos hlt]
      refine Triple.bind (readReady_spec hr) fun r => ?_
      match r with
      | .error e => exact Triple.ret (lost_stable hr) fun _ _ h => h
      | .ok [] =>
        refine Triple.ret (AfterRead.stable hr (.ok [])) fun s _ h => ?_
        simp only [AfterReady, List.append_nil] at h
        exact ⟨h.1, hle, fun _ => h.2.2 (by omega) trivial⟩
      | .ok (b :: bytes) =>
        refine (Triple.of_pure fun hfit => ih (buf ++ b :: bytes) ?_ ?_).pre fun s _ h => ⟨h.2.1, h.1⟩
        · rw [List.length_append]
          omega
        · rw [List.length_append, List.length_cons]
          omega
    · rw [if_neg hlt]
      exact hdone buf hle (by omega)

theorem netRead_spec : Triple (rules W) t (fun s => Since i₀ [] (s.inc fd)) (netRead fd n) (AfterNetRead fd i₀ n) :=
  readLoop_spec hr n [] (Nat.zero_le n) (Nat.le_add_right n _)

/-- After `coroc_net_timed_read`. -/
def AfterTimedRead (fd : Fd) (i₀ : Incoming) (n : Nat) : Option (List Byte) → State → Prop
  | some bytes, s => Since i₀ bytes (s.inc fd) ∧ bytes.length ≤ n
  | none, s => Since i₀ [] (s.inc fd) ∨ Lost i₀ (s.inc fd)

theorem AfterTimedRead.stable (r : Option (List Byte)) : Stable (rules W) t (AfterTimedRead fd i₀ n r) := by
  intro s s' hi hi' hrely h
  cases r with
  | some bytes => exact ⟨h.1.kept (hrely.inc fd hr), h.2⟩
  | none => exact h.imp (fun h => h.kept (hrely.inc fd hr)) fun h => h.kept (hrely.inc fd hr)

theorem netTimedRead_spec : Triple (rules W) t (fun s => Since i₀ [] (s.inc fd)) (netTimedRead fd n)
    (AfterTimedRead fd i₀ n) := by
  refine Triple.loop (since_stable hr) (AfterTimedRead fd i₀ n) ?_ fun r =>
    Triple.ret (AfterTimedRead.stable hr r) fun _ _ h => h
  refine Triple.bind (read_spec hr) fun r => ?_
  cases r with
  | ok bytes => exact Triple.ret (AfterRead.stable hr _) fun _ _ h => ⟨h.1, h.2.1⟩
  | error e =>
    by_cases he : e = EAGAIN
    · simp only [if_pos he]
      have hwait : Triple (rules W) t (fun s => Since i₀ [] (s.inc fd)) (netTimedwait fd .read)
          fun _ s => Since i₀ [] (s.inc fd) := by
        refine issue_spec (since_stable hr) (fun _ => since_stable hr) fun s _ hs => ⟨trivial, fun r s' he => ?_⟩
        cases he
        exact hs
      refine (Triple.bind hwait fun mode => ?_).pre fun s _ h => ?_
      · refine Triple.ret (since_stable hr) fun s _ h => ?_
        cases mode with
        | true => exact h
        | false => exact .inl h
      · rwa [AfterRead, if_pos he] at h
    · simp only [if_neg he]
      refine Triple.ret (AfterRead.stable hr (.error e)) fun s _ h => ?_
      rw [AfterRead, if_neg he] at h
      exact .inr h

end

/-! ### Writing -/

/-- Since `o₀`, exactly `l` has been sent. -/
structure SentSince (o₀ : Outgoing) (l : List Byte) (o : Outgoing) : Prop where
  sent : o.sent = o₀.sent ++ l
  failed : o.failed = o₀.failed
  asked : o.asked = o₀.asked

/-- Since `o₀`, a write has failed. -/
structure Broken (o₀ o : Outgoing) : Prop where
  failed : o.failed = true
  asked : o.asked = o₀.asked

theorem SentSince.refl (o : Outgoing) : SentSince o [] o := ⟨(List.append_nil _).symm, rfl, rfl⟩

theorem SentSince.kept {l : List Byte} (h : SentSince o₀ l o) (hk : o.Kept o') : SentSince o₀ l o' :=
  ⟨hk.sent.trans h.sent, hk.failed.trans h.failed, hk.asked.trans h.asked⟩

theorem Broken.kept (h : Broken o₀ o) (hk : o.Kept o') : Broken o₀ o' :=
  ⟨hk.failed.trans h.failed, hk.asked.trans h.asked⟩

/-- `total` bytes of `data` are sent, and the others may be. -/
def Sending (W : Wiring) (fd : Fd) (o₀ : Outgoing) (data : List Byte) (total : Nat) (s : State) : Prop :=
  SentSince o₀ (data.take total) (s.out fd) ∧ Sendable W fd (o₀.sent ++ data) s

/-- After `write`; with `EAGAIN` nothing has changed. -/
def AfterWrite (W : Wiring) (fd : Fd) (o₀ : Outgoing) (data : List Byte) (total : Nat) : Except Errno Nat → State → Prop
  | .ok m, s => total + m ≤ data.length ∧ (total < data.length → 0 < m) ∧ Sending W fd o₀ data (total + m) s
  | .error e, s => if e = EAGAIN then Sending W fd o₀ data total s else Broken o₀ (s.out fd)

section
variable (hw : W.writer fd = t)
include hw

theorem sendable_stable (l : List Byte) : Stable (rules W) t (Sendable W fd l) := by
  intro s s' hi hi' hrely h
  have ho := hrely.out fd hw
  unfold Sendable at h ⊢
  cases hsource : W.source fd with
  | none =>
    simp only [hsource] at h ⊢
    rw [ho.failed, ho.asked]
    exact h
  | some r =>
    simp only [hsource] at h ⊢
    have hin := hrely.inc r ((W.owner r fd ((W.relay_iff r fd).mpr hsource)).trans hw)
    rw [ho.failed, hin.failed, hin.received]
    exact h

theorem sentSince_stable (l : List Byte) : Stable (rules W) t fun s => SentSince o₀ l (s.out fd) :=
  fun _ _ _ _ hrely h => h.kept (hrely.out fd hw)

theorem sending_stable (total : Nat) : Stable (rules W) t (Sending W fd o₀ data total) :=
  (sentSince_stable hw _).and (sendable_stable hw _)

theorem broken_stable : Stable (rules W) t fun s => Broken o₀ (s.out fd) :=
  fun _ _ _ _ hrely h => h.kept (hrely.out fd hw)

theorem AfterWrite.stable (total : Nat) (r : Except Errno Nat) : Stable (rules W) t (AfterWrite W fd o₀ data total r) := by
  cases r with
  | ok m =>
    intro s s' hi hi' hrely h
    exact ⟨h.1, h.2.1, sending_stable hw _ s s' hi hi' hrely h.2.2⟩
  | error e =>
    intro s s' hi hi' hrely h
    by_cases he : e = EAGAIN
    · simp only [AfterWrite, if_pos he] at h ⊢
      exact sending_stable hw _ s s' hi hi' hrely h
    · simp only [AfterWrite, if_neg he] at h ⊢
      exact h.kept (hrely.out fd hw)

theorem write_spec {total : Nat} (hle : total ≤ data.length) :
    Triple (rules W) t (Sending W fd o₀ data total) (write fd (data.drop total)) (AfterWrite W fd o₀ data total) := by
  refine issue_spec (sending_stable hw total) (AfterWrite.stable hw total) fun s _ ⟨hs, hsend⟩ => ?_
  have hcont : (s.out fd).sent ++ data.drop total = o₀.sent ++ data := by
    rw [hs.sent, List.append_assoc, List.take_append_drop]
  refine ⟨⟨hw, hcont ▸ hsend⟩, fun r s' he => ?_⟩
  cases he
  obtain ⟨m, hm, hpos, -, -, h⟩ | h | ⟨e, he, h⟩ :=
    Outgoing.write_cases (s.closed fd) (data.drop total) (s.out fd)
  · rw [List.length_drop] at hm
    simp only [h, AfterWrite, Sending, setOut_out_self]
    refine ⟨by omega, fun hlt => hpos ?_, ⟨?_, hs.failed, hs.asked⟩, ?_⟩
    · intro hnil
      rw [List.drop_eq_nil_iff] at hnil
      omega
    · rw [hs.sent, List.append_assoc, List.take_add]
    · simpa only [Sendable, setOut_inc, setOut_out_self] using hsend
  · simp only [h, AfterWrite, Sending, setOut_out_self, if_pos]
    exact ⟨hs, by simpa only [Sendable, setOut_inc, setOut_out_self] using hsend⟩
  · simp only [h, AfterWrite, setOut_out_self, if_neg he]
    exact ⟨rfl, hs.asked⟩

/-- After the loop that waits. -/
def AfterWriteReady (W : Wiring) (fd : Fd) (o₀ : Outgoing) (data : List Byte) (total : Nat) :
    Except Errno Nat → State → Prop
  | .ok m, s => AfterWrite W fd o₀ data total (.ok m) s
  | .error _, s => Broken o₀ (s.out fd)

theorem writeReady_spec {total : Nat} (hle : total ≤ data.length) :
    Triple (rules W) t (Sending W fd o₀ data total) (writeReady fd (data.drop total))
      (AfterWriteReady W fd o₀ data total) := by
  refine Triple.loop (sending_stable hw total) (AfterWriteReady W fd o₀ data total) ?_ fun r =>
    Triple.ret ?_ fun _ _ h => h
  · refine Triple.bind (write_spec hw hle) fun r => ?_
    cases r with
    | ok m => exact Triple.ret (AfterWrite.stable hw total _) fun _ _ h => h
    | error e =>
      by_cases he : e = EAGAIN
      · simp only [if_pos he]
        refine Triple.bind (netWait_spec (AfterWrite.stable hw total (.error e)) .write) fun _ => ?_
        refine Triple.ret (AfterWrite.stable hw total (.error e)) fun s _ h => ?_
        rwa [AfterWrite, if_pos he] at h
      · simp only [if_neg he]
        refine Triple.ret (AfterWrite.stable hw total (.error e)) fun s _ h => ?_
        rwa [AfterWrite, if_neg he] at h
  · cases r with
    | ok m => exact AfterWrite.stable hw total (.ok m)
    | error e => exact broken_stable hw

/-- After `coroc_net_write`: everything is sent, or a write has failed. -/
def AfterNetWrite (fd : Fd) (o₀ : Outgoing) (data : List Byte) : Except Errno Nat → State → Prop
  | .ok m, s => m = data.length ∧ SentSince o₀ data (s.out fd)
  | .error _, s => Broken o₀ (s.out fd)

theorem writeLoop_spec (left : Nat) : ∀ total, total ≤ data.length → data.length ≤ left + total →
    Triple (rules W) t (Sending W fd o₀ data total) (writeLoop fd data left total) (AfterNetWrite fd o₀ data) := by
  have hdone (total : Nat) (hle : total ≤ data.length) (hn : data.length ≤ total) :
      Triple (rules W) t (Sending W fd o₀ data total) (.ret (.ok total)) (AfterNetWrite fd o₀ data) := by
    refine Triple.ret (sending_stable hw total) fun s _ h => ⟨by omega, ?_⟩
    have hs := h.1
    rwa [List.take_of_length_le hn] at hs
  induction left with
  | zero =>
    intro total hle hn
    exact hdone total hle (by omega)
  | succ left ih =>
    intro total hle hn
    unfold writeLoop
    by_cases hlt : total < data.length
    · rw [if_pos hlt]
      refine Triple.bind (writeReady_spec hw hle) fun r => ?_
      match r with
      | .error e => exact Triple.ret (broken_stable hw) fun _ _ h => h
      | .ok 0 => exact Triple.ret (AfterWrite.stable hw total (.ok 0)) fun s _ h => absurd (h.2.1 hlt) (Nat.lt_irrefl 0)
      | .ok (m + 1) =>
        refine (Triple.of_pure fun hfit => ih (total + (m + 1)) hfit ?_).pre fun s _ h => ⟨h.1, h.2.2⟩
        omega
    · rw [if_neg hlt]
      exact hdone total hle (by omega)

theorem netWrite_spec : Triple (rules W) t
    (fun s => SentSince o₀ [] (s.out fd) ∧ Sendable W fd (o₀.sent ++ data) s) (netWrite fd data)
    (AfterNetWrite fd o₀ data) :=
  writeLoop_spec hw data.length 0 (Nat.zero_le _) (Nat.le_refl _)

end

/-! ### Calls -/

/-- Between calls, what the calls have returned is all that has been read. -/
def Incoming.Drained (i : Incoming) : Prop := i.failed = false → i.returned = i.received

/-- Between calls, what the calls were given is sent. -/
def Outgoing.Flushed (o : Outgoing) : Prop := o.failed = false → o.sent = o.asked.flatten

/-- Between two rounds of a proxy, what it has read is sent. -/
def Copied (i : Incoming) (o : Outgoing) : Prop := i.failed = false → o.failed = false → o.sent = i.received

/-- Nothing is in progress on the halves of the coroutine but for the incoming `r` and the outgoing `w`. -/
structure Others (W : Wiring) (t : Tid) (r w : Option Fd) (s : State) : Prop where
  drained : ∀ fd, W.reader fd = t → some fd ≠ r → W.relay fd = none → (s.inc fd).Drained
  flushed : ∀ fd, W.writer fd = t → some fd ≠ w → W.source fd = none → (s.out fd).Flushed
  copied : ∀ r' w', W.reader r' = t → some r' ≠ r → some w' ≠ w → W.relay r' = some w' →
    Copied (s.inc r') (s.out w')

def Idle (W : Wiring) (t : Tid) : State → Prop := Others W t none none

theorem Idle.others {r w : Option Fd} (h : Idle W t s) : Others W t r w s where
  drained fd hr _ := Others.drained h fd hr (Option.some_ne_none fd)
  flushed fd hw _ := Others.flushed h fd hw (Option.some_ne_none fd)
  copied r' w' hr _ _ := Others.copied h r' w' hr (Option.some_ne_none r') (Option.some_ne_none w')

theorem Idle.drained (h : Idle W t s) (hr : W.reader fd = t) (hrelay : W.relay fd = none) : (s.inc fd).Drained :=
  Others.drained h fd hr (Option.some_ne_none fd) hrelay

theorem Idle.flushed (h : Idle W t s) (hw : W.writer fd = t) (hsource : W.source fd = none) : (s.out fd).Flushed :=
  Others.flushed h fd hw (Option.some_ne_none fd) hsource

theorem Idle.copied (h : Idle W t s) (hr : W.reader rfd = t) (hrelay : W.relay rfd = some wfd) :
    Copied (s.inc rfd) (s.out wfd) :=
  Others.copied h rfd wfd hr (Option.some_ne_none rfd) (Option.some_ne_none wfd) hrelay

theorem Others.stable {r w : Option Fd} : Stable (rules W) t (Others W t r w) := by
  intro s s' hi hi' hrely h
  constructor
  · intro fd hr hne hrelay
    have hk := hrely.inc fd hr
    unfold Incoming.Drained
    rw [hk.failed, hk.returned, hk.received]
    exact h.drained fd hr hne hrelay
  · intro fd hw hne hsource
    have hk := hrely.out fd hw
    unfold Outgoing.Flushed
    rw [hk.failed, hk.sent, hk.asked]
    exact h.flushed fd hw hne hsource
  · intro r' w' hr hne hne' hrelay
    have hi := hrely.inc r' hr
    have ho := hrely.out w' (Wiring.writer_of_relay hrelay hr)
    unfold Copied
    rw [hi.failed, hi.received, ho.failed, ho.sent]
    exact h.copied r' w' hr hne hne' hrelay

/-- Commands on the halves `r` and `w`. -/
def Touches (r w : Option Fd) : Cmd → Prop
  | .read fd _ | .record fd _ => some fd = r
  | .write fd _ | .shutdown fd => some fd = w
  | .netWait _ _ | .netTimedwait _ _ | .close _ => True

theorem exec_same {c : Cmd} {x : c.Res} {r w : Option Fd} (hc : Touches r w c) (he : exec c s = some (x, s')) :
    (∀ fd, some fd ≠ r → s'.inc fd = s.inc fd) ∧ ∀ fd, some fd ≠ w → s'.out fd = s.out fd := by
  cases c with
  | read fd n =>
    cases he
    refine ⟨fun fd' hne => setInc_inc_ne _ _ ?_, fun _ _ => rfl⟩
    rintro rfl
    exact hne hc
  | record fd res =>
    cases he
    refine ⟨fun fd' hne => setInc_inc_ne _ _ ?_, fun _ _ => rfl⟩
    rintro rfl
    exact hne hc
  | write fd data =>
    cases he
    refine ⟨fun _ _ => rfl, fun fd' hne => setOut_out_ne _ _ ?_⟩
    rintro rfl
    exact hne hc
  | shutdown fd =>
    cases he
    refine ⟨fun _ _ => rfl, fun fd' hne => setOut_out_ne _ _ ?_⟩
    rintro rfl
    exact hne hc
  | netWait fd mode | netTimedwait fd mode | close fd =>
    cases he
    exact ⟨fun _ _ => rfl, fun _ _ => rfl⟩

theorem exec_others {c : Cmd} {x : c.Res} {r w : Option Fd} (hc : Touches r w c) (h : Others W t r w s)
    (he : exec c s = some (x, s')) : Others W t r w s' := by
  obtain ⟨hinc, hout⟩ := exec_same hc he
  constructor
  · intro fd hr hne hrelay
    rw [hinc fd hne]
    exact h.drained fd hr hne hrelay
  · intro fd hw hne hsource
    rw [hout fd hne]
    exact h.flushed fd hw hne hsource
  · intro r' w' hr hne hne' hrelay
    rw [hinc r' hne, hout w' hne']
    exact h.copied r' w' hr hne hne' hrelay

/-- Whatever else may be known, these are the commands it issues. -/
abbrev Only {α : Type} (r w : Option Fd) (p : NProg α) : Prop := p.Issues (Touches r w) (fun _ _ => True) fun _ => True

theorem netRead_only (fd : Fd) (n : Nat) (w : Option Fd) : Only (some fd) w (netRead fd n) := by
  have hready (n : Nat) : Only (some fd) w (readReady fd n) := by
    refine Prog.Issues.loop ⟨rfl, fun r _ => ?_⟩ fun _ => trivial
    cases r with
    | ok bytes => exact trivial
    | error e =>
      change Prog.Issues _ _ (if e = EAGAIN then _ else _) _
      split
      · exact ⟨trivial, fun _ _ => trivial⟩
      · exact trivial
  have hloop (left : Nat) : ∀ buf, Only (some fd) w (readLoop fd n left buf) := by
    induction left with
    | zero => exact fun buf => trivial
    | succ left ih =>
      intro buf
      unfold readLoop
      split
      · refine Prog.Issues.bind (hready _) fun r _ => ?_
        match r with
        | .error e => exact trivial
        | .ok [] => exact trivial
        | .ok (b :: bytes) => exact ih _
      · exact trivial
  exact hloop n []

theorem netTimedRead_only (fd : Fd) (n : Nat) (w : Option Fd) : Only (some fd) w (netTimedRead fd n) := by
  refine Prog.Issues.loop ⟨rfl, fun r _ => ?_⟩ fun _ => trivial
  cases r with
  | ok bytes => exact trivial
  | error e =>
    change Prog.Issues _ _ (if e = EAGAIN then _ else _) _
    split
    · exact ⟨trivial, fun _ _ => trivial⟩
    · exact trivial

theorem netWrite_only (fd : Fd) (data : List Byte) (r : Option Fd) : Only r (some fd) (netWrite fd data) := by
  have hready (data : List Byte) : Only r (some fd) (writeReady fd data) := by
    refine Prog.Issues.loop ⟨rfl, fun res _ => ?_⟩ fun _ => trivial
    cases res with
    | ok m => exact trivial
    | error e =>
      change Prog.Issues _ _ (if e = EAGAIN then _ else _) _
      split
      · exact ⟨trivial, fun _ _ => trivial⟩
      · exact trivial
  have hloop (left : Nat) : ∀ total, Only r (some fd) (writeLoop fd data left total) := by
    induction left with
    | zero => exact fun total => trivial
    | succ left ih =>
      intro total
      unfold writeLoop
      split
      · refine Prog.Issues.bind (hready _) fun res _ => ?_
        match res with
        | .error e => exact trivial
        | .ok 0 => exact trivial
        | .ok (m + 1) => exact ih _
      · exact trivial
  exact hloop data.length 0

theorem rwtask_only (rfd wfd : Fd) : Only (some rfd) (some wfd) (rwtask rfd wfd) := by
  refine Prog.Issues.loop ?_ fun _ => ⟨rfl, fun _ _ => ⟨trivial, fun _ _ => trivial⟩⟩
  refine Prog.Issues.bind (netRead_only rfd 2048 (some wfd)) fun r _ => ?_
  match r with
  | .error e => exact trivial
  | .ok [] => exact trivial
  | .ok (b :: buf) => exact Prog.Issues.bind (netWrite_only wfd (b :: buf) (some rfd)) fun _ _ => trivial

/-- The frame rule for the halves that a program does not touch. -/
theorem frame_others {α : Type} {P : State → Prop} {Q : α → State → Prop} {p : NProg α} {r w : Option Fd}
    (h : Triple (rules W) t P p Q) (hp : Only r w p) :
    Triple (rules W) t (fun s => P s ∧ Others W t r w s) p fun a s => Q a s ∧ Others W t r w s :=
  h.frame Others.stable (fun _ _ _ _ hc hs he => ⟨trivial, exec_others hc hs he⟩) hp

theorem returned_record (i : Incoming) (r : Result) :
    Incoming.returned { i with results := i.results ++ [r] } = i.returned ++ r.bytes := by
  simp [Incoming.returned]

theorem Since.returned (h : Since i₀ buf i) : i.returned = i₀.returned := by
  rw [Incoming.returned, h.results]
  rfl

/-- A call that has read `bytes` returns them. -/
theorem Collected.record {timed : Bool} (hc : Collected i₀) (hidle : i₀.Drained) (h : Since i₀ bytes i)
    (hsize : bytes.length ≤ n) (hshort : timed = false → bytes.length < n → i.AtEnd) :
    Collected { i with results := i.results ++ [⟨n, timed, bytes⟩] } := by
  constructor
  · intro r hr
    rw [List.mem_append, h.results, List.mem_singleton] at hr
    rcases hr with hr | rfl
    · exact hc.size r hr
    · exact hsize
  · rw [returned_record, h.returned, h.received]
    exact hc.order.append (List.Sublist.refl _)
  · intro hf
    rw [returned_record, h.returned, h.received, hidle (h.failed.symm.trans hf)]
  · rintro ⟨r, hr, hs⟩
    rw [List.mem_append, h.results, List.mem_singleton] at hr
    rcases hr with hr | rfl
    · exact (h.ended (hc.atEnd ⟨r, hr, hs⟩)).1
    · exact hshort hs.1 hs.2
  · rw [h.results, List.pairwise_append]
    refine ⟨hc.last, List.pairwise_singleton _ _, ?_⟩
    intro x hx y hy hs
    obtain rfl := List.mem_singleton.mp hy
    exact (h.ended (hc.atEnd ⟨x, hx, hs⟩)).2

theorem Since.drained_record {timed : Bool} (hidle : i₀.Drained) (h : Since i₀ bytes i) :
    Incoming.Drained { i with results := i.results ++ [⟨n, timed, bytes⟩] } := by
  intro hf
  rw [returned_record, h.returned, h.received, hidle (h.failed.symm.trans hf)]

section
variable (hr : W.reader fd = t) (hrelay : W.relay fd = none)
include hr

theorem drained_stable : Stable (rules W) t fun s => (s.inc fd).Drained := by
  intro s s' hi hi' hrely h
  have hk := hrely.inc fd hr
  unfold Incoming.Drained
  rw [hk.failed, hk.returned, hk.received]
  exact h

include hrelay

theorem record_spec {timed : Bool} (hc : Collected i₀) (hidle : i₀.Drained) :
    Triple (rules W) t (fun s => (Since i₀ bytes (s.inc fd) ∧ bytes.length ≤ n) ∧
        ((timed = false ∧ bytes.length < n) → (s.inc fd).AtEnd))
      (record fd ⟨n, timed, bytes⟩) fun _ s => (s.inc fd).Drained := by
  refine issue_spec (((since_stable hr).and (Stable.const _)).and (atEnd_stable hr _)) (fun _ => drained_stable hr) ?_
  intro s _ ⟨⟨hs, hsize⟩, hshort⟩
  refine ⟨⟨hr, hrelay, hc.record hidle hs hsize fun ht hlt => hshort ⟨ht, hlt⟩⟩, fun r s' he => ?_⟩
  cases he
  rw [setInc_inc_self]
  exact hs.drained_record hidle

/-- A reading call, from what it does on its own half. -/
theorem reading_call {p : NProg Unit} (hp : Only (some fd) none p)
    (h : ∀ i₀ : Incoming, Collected i₀ → i₀.Drained →
      Triple (rules W) t (fun s => Since i₀ [] (s.inc fd)) p fun _ s => (s.inc fd).Drained) :
    Triple (rules W) t (Idle W t) p fun _ => Idle W t := by
  have hown : Triple (rules W) t (fun s => ∃ i₀, (Collected i₀ ∧ i₀.Drained) ∧ Since i₀ [] (s.inc fd)) p
      fun _ s => (s.inc fd).Drained :=
    Triple.of_forall fun i₀ => Triple.of_pure fun hpure => h i₀ hpure.1 hpure.2
  refine (frame_others hown hp).conseq ?_ ?_
  · intro s hi hidle
    have hdrained := hidle.drained hr hrelay
    exact ⟨⟨s.inc fd, ⟨hi.collected fd hrelay, hdrained⟩, Since.refl _⟩, hidle.others⟩
  · intro _ s _ ⟨hdrained, hothers⟩
    constructor
    · intro fd' hr' _ hrelay'
      by_cases heq : fd' = fd
      · subst heq
        exact hdrained
      · exact hothers.drained fd' hr' (fun h => heq (Option.some.inj h)) hrelay'
    · exact hothers.flushed
    · intro r' w' hr' _ hne' hrelay'
      refine hothers.copied r' w' hr' ?_ hne' hrelay'
      intro heq
      rw [Option.some.inj heq, hrelay] at hrelay'
      cases hrelay'

theorem netReadCall_spec : Triple (rules W) t (Idle W t) (body t (.netRead fd n)) fun _ => Idle W t := by
  refine reading_call hr hrelay ?_ fun i₀ hc hidle => ?_
  · refine Prog.Issues.bind (netRead_only fd n none) fun r _ => ?_
    cases r with
    | ok bytes => exact ⟨rfl, fun _ _ => trivial⟩
    | error e => exact trivial
  · refine Triple.bind (netRead_spec hr) fun r => ?_
    cases r with
    | ok bytes =>
      exact (record_spec hr hrelay hc hidle).pre fun s _ h => ⟨⟨h.1, h.2.1⟩, fun hs => h.2.2 hs.2⟩
    | error e =>
      refine Triple.ret (lost_stable hr) fun s _ h hf => ?_
      rw [h.failed] at hf
      cases hf

theorem netTimedReadCall_spec : Triple (rules W) t (Idle W t) (body t (.netTimedRead fd n)) fun _ => Idle W t := by
  refine reading_call hr hrelay ?_ fun i₀ hc hidle => ?_
  · refine Prog.Issues.bind (netTimedRead_only fd n none) fun r _ => ?_
    cases r with
    | some bytes => exact ⟨rfl, fun _ _ => trivial⟩
    | none => exact trivial
  · refine Triple.bind (netTimedRead_spec hr) fun r => ?_
    cases r with
    | some bytes => exact (record_spec hr hrelay hc hidle).pre fun s _ h => ⟨h, fun hs => by cases hs.1⟩
    | none =>
      refine Triple.ret (AfterTimedRead.stable hr none) fun s _ h hf => ?_
      rcases h with h | h
      · rw [h.returned, h.received, List.append_nil]
        exact hidle (h.failed.symm.trans hf)
      · rw [h.failed] at hf
        cases hf

end

section
variable (hw : W.writer fd = t) (hsource : W.source fd = none)
include hw hsource

theorem netWriteCall_spec : Triple (rules W) t
    (fun s => Others W t none (some fd) s ∧ ∃ o₀ : Outgoing, ∃ ms : List (List Byte),
      (o₀.asked = ms ++ [data] ∧ (o₀.failed = false → o₀.sent = ms.flatten)) ∧
        SentSince o₀ [] (s.out fd) ∧ Sendable W fd (o₀.sent ++ data) s)
    (body t (.netWrite fd data)) fun _ => Idle W t := by
  have hflushed : Stable (rules W) t fun s => (s.out fd).Flushed := by
    intro s s' hi hi' hrely h
    have hk := hrely.out fd hw
    unfold Outgoing.Flushed
    rw [hk.failed, hk.sent, hk.asked]
    exact h
  have hown : Triple (rules W) t (fun s => ∃ o₀ : Outgoing, ∃ ms : List (List Byte),
      (o₀.asked = ms ++ [data] ∧ (o₀.failed = false → o₀.sent = ms.flatten)) ∧
        SentSince o₀ [] (s.out fd) ∧ Sendable W fd (o₀.sent ++ data) s)
      (body t (.netWrite fd data)) fun _ s => (s.out fd).Flushed := by
    refine Triple.of_forall fun o₀ => Triple.of_forall fun ms => Triple.of_pure fun ⟨hasked, hsent⟩ => ?_
    refine Triple.bind (M := fun _ s => (s.out fd).Flushed) ?_ fun _ => Triple.ret hflushed fun _ _ h => h
    refine (netWrite_spec hw).post fun r s _ h hf => ?_
    cases r with
    | ok m =>
      have hs := h.2
      rw [hs.sent, hs.asked, hasked, hsent (hs.failed.symm.trans hf), List.flatten_concat]
    | error e =>
      rw [h.failed] at hf
      cases hf
  have honly : Only none (some fd) (body t (.netWrite fd data)) :=
    Prog.Issues.bind (netWrite_only fd data none) fun _ _ => trivial
  refine (frame_others hown honly).conseq (fun s _ h => ⟨h.2, h.1⟩) fun _ s _ ⟨hfl, hothers⟩ => ?_
  constructor
  · exact hothers.drained
  · intro fd' hw' _ hsource'
    by_cases heq : fd' = fd
    · subst heq
      exact hfl
    · exact hothers.flushed fd' hw' (fun h => heq (Option.some.inj h)) hsource'
  · intro r' w' hr' hne _ hrelay'
    refine hothers.copied r' w' hr' hne ?_ hrelay'
    intro heq
    rw [Option.some.inj heq, W.relay_iff, hsource] at hrelay'
    cases hrelay'

end

section
variable (hrelay : W.relay rfd = some wfd) (hr : W.reader rfd = t)
include hrelay hr

theorem copied_stable : Stable (rules W) t fun s => Copied (s.inc rfd) (s.out wfd) := by
  intro s s' hi hi' hrely h
  have hin := hrely.inc rfd hr
  have hout := hrely.out wfd (Wiring.writer_of_relay hrelay hr)
  unfold Copied
  rw [hin.failed, hin.received, hout.failed, hout.sent]
  exact h

/-- A round of the proxy: what it has read is written, all of it or until a write fails. -/
theorem forward_spec (horder : o₀.sent.Sublist i₀.received) (hcopied : Copied i₀ o₀) (data : List Byte) :
    Triple (rules W) t (fun s => SentSince o₀ [] (s.out wfd) ∧ Since i₀ data (s.inc rfd)) (netWrite wfd data)
      fun _ s => Copied (s.inc rfd) (s.out wfd) := by
  have hw := Wiring.writer_of_relay hrelay hr
  have hsource := (W.relay_iff rfd wfd).mp hrelay
  have hwrite : Triple (rules W) t (fun s => SentSince o₀ [] (s.out wfd) ∧ Sendable W wfd (o₀.sent ++ data) s)
      (netWrite wfd data) (AfterNetWrite wfd o₀ data) := netWrite_spec hw
  have hsince : Stable (rules W) t fun s => Since i₀ data (s.inc rfd) := since_stable hr
  have hframe := hwrite.frame hsince
    (fun c s res s' hc hs he => ⟨trivial, by rwa [(exec_same hc he).1 rfd (Option.some_ne_none _)]⟩)
    (netWrite_only wfd data none)
  refine hframe.conseq ?_ ?_
  · intro s _ ⟨hsent, hs⟩
    refine ⟨⟨hsent, ?_⟩, hs⟩
    simp only [Sendable, hsource]
    rw [hs.received, hs.failed, hsent.failed]
    constructor
    · exact horder.append (List.Sublist.refl _)
    · rintro ⟨hfi, hfo⟩
      rw [hcopied hfi hfo]
  · intro res s _ ⟨h, hs⟩ hfi hfo
    cases res with
    | ok m =>
      have hsent := h.2
      rw [hsent.sent, hs.received, hcopied (hs.failed.symm.trans hfi) (hsent.failed.symm.trans hfo)]
    | error e =>
      rw [h.failed] at hfo
      cases hfo

/-- The proxy stops reading at the end of the stream, or when a read fails. -/
theorem copyLoop_spec : Triple (rules W) t (fun s => Copied (s.inc rfd) (s.out wfd))
    (.repeatUntil do
      match ← netRead rfd 2048 with
      | .ok (b :: buf) =>
        let _ ← netWrite wfd (b :: buf)
        return none
      | .ok [] => return some ()
      | .error _ => return some ())
    fun _ s => Copied (s.inc rfd) (s.out wfd) ∧ ((s.inc rfd).failed = false → (s.inc rfd).AtEnd) := by
  have hw := Wiring.writer_of_relay hrelay hr
  have hstop : Stable (rules W) t fun s =>
      Copied (s.inc rfd) (s.out wfd) ∧ ((s.inc rfd).failed = false → (s.inc rfd).AtEnd) := by
    refine (copied_stable hrelay hr).and fun s s' hi hi' hrely h hf => ?_
    have hk := hrely.inc rfd hr
    exact hk.atEnd (h (hk.failed.symm.trans hf))
  refine Triple.loop (copied_stable hrelay hr)
    (fun _ s => Copied (s.inc rfd) (s.out wfd) ∧ ((s.inc rfd).failed = false → (s.inc rfd).AtEnd)) ?_
    fun _ => Triple.ret hstop fun _ _ h => h
  -- what has been received and sent at the start of the round
  suffices hround : ∀ (i₀ : Incoming) (o₀ : Outgoing), o₀.sent.Sublist i₀.received → Copied i₀ o₀ →
      Triple (rules W) t (fun s => Since i₀ [] (s.inc rfd) ∧ SentSince o₀ [] (s.out wfd)) _ _ by
    refine Triple.pre (P := fun s => ∃ i₀ : Incoming, ∃ o₀ : Outgoing, (o₀.sent.Sublist i₀.received ∧ Copied i₀ o₀) ∧
      Since i₀ [] (s.inc rfd) ∧ SentSince o₀ [] (s.out wfd)) ?_ ?_
    · exact Triple.of_forall fun i₀ => Triple.of_forall fun o₀ => Triple.of_pure fun h => hround i₀ o₀ h.1 h.2
    · intro s hi h
      exact ⟨s.inc rfd, s.out wfd, ⟨(hi.relayed rfd wfd hrelay).sent.order, h⟩, .refl _, .refl _⟩
  intro i₀ o₀ horder hcopied
  have hnet : Triple (rules W) t (fun s => Since i₀ [] (s.inc rfd)) (netRead rfd 2048) (AfterNetRead rfd i₀ 2048) :=
    netRead_spec hr
  have hsent : Stable (rules W) t fun s => SentSince o₀ [] (s.out wfd) := sentSince_stable hw []
  have hread := hnet.frame hsent
    (fun c s res s' hc hs he => ⟨trivial, by rwa [(exec_same hc he).2 wfd (Option.some_ne_none _)]⟩)
    (netRead_only rfd 2048 none)
  refine Triple.bind hread fun res => ?_
  match res with
  | .ok (b :: buf) =>
    refine Triple.pre (Triple.bind (forward_spec hrelay hr horder hcopied (b :: buf)) fun _ => ?_) fun s _ h => ⟨h.2, h.1.1⟩
    exact Triple.ret (copied_stable hrelay hr) fun _ _ h => h
  | .ok [] =>
    refine Triple.ret (((since_stable hr).and (atEnd_stable hr True)).and (sentSince_stable hw [])) ?_ |>.pre
      fun s _ h => ⟨⟨h.1.1, fun _ => h.1.2.2 (by decide)⟩, h.2⟩
    intro s _ ⟨⟨hs, hend⟩, hsent⟩
    refine ⟨fun hfi hfo => ?_, fun _ => hend trivial⟩
    rw [hsent.sent, hs.received, hcopied (hs.failed.symm.trans hfi) (hsent.failed.symm.trans hfo)]
  | .error e =>
    refine Triple.ret ((lost_stable hr).and (sentSince_stable hw [])) fun s _ ⟨hlost, _⟩ => ?_
    have hf := hlost.failed
    constructor
    · intro hfi
      rw [hf] at hfi
      cases hfi
    · intro hfi
      rw [hf] at hfi
      cases hfi

theorem rwtask_spec : Triple (rules W) t (Idle W t) (rwtask rfd wfd) fun _ => Idle W t := by
  have hw := Wiring.writer_of_relay hrelay hr
  have hsource := (W.relay_iff rfd wfd).mp hrelay
  have hown : Triple (rules W) t (fun s => Copied (s.inc rfd) (s.out wfd)) (rwtask rfd wfd)
      fun _ s => Copied (s.inc rfd) (s.out wfd) := by
    refine Triple.bind (copyLoop_spec hrelay hr) fun _ => ?_
    refine Triple.bind (M := fun _ s => Copied (s.inc rfd) (s.out wfd)) ?_ fun _ => ?_
    · refine issue_spec ((copied_stable hrelay hr).and ?_) (fun _ => copied_stable hrelay hr) fun s hi h => ⟨⟨hw, ?_⟩, ?_⟩
      · intro s s' hi hi' hrely h hf
        have hk := hrely.inc rfd hr
        exact hk.atEnd (h (hk.failed.symm.trans hf))
      · intro r hr'
        obtain rfl : rfd = r := Option.some.inj (hsource.symm.trans hr')
        exact ⟨(hi.relayed rfd wfd hrelay).sent, fun _ hfi hfo => ⟨h.1 hfi hfo, h.2 hfi⟩⟩
      · intro r s' he
        cases he
        simp only [setOut_inc, setOut_out_self]
        exact h.1
    · refine issue_spec (copied_stable hrelay hr) (fun _ => copied_stable hrelay hr) fun s _ h => ⟨trivial, ?_⟩
      intro r s' he
      cases he
      exact h
  refine (frame_others hown (rwtask_only rfd wfd)).conseq ?_ ?_
  · intro s _ h
    exact ⟨h.copied hr hrelay, h.others⟩
  · intro _ s _ ⟨hcopied, h⟩
    constructor
    · intro fd hr' _ hnone
      refine h.drained fd hr' ?_ hnone
      intro heq
      rw [Option.some.inj heq, hrelay] at hnone
      cases hnone
    · intro fd hw' _ hnone
      refine h.flushed fd hw' ?_ hnone
      intro heq
      rw [Option.some.inj heq, hsource] at hnone
      cases hnone
    · intro r' w' hr' _ _ hrelay'
      by_cases heq : r' = rfd
      · subst heq
        obtain rfl : wfd = w' := Option.some.inj (hrelay.symm.trans hrelay')
        exact hcopied
      · refine h.copied r' w' hr' (fun h => heq (Option.some.inj h)) ?_ hrelay'
        intro hww
        rw [Option.some.inj hww, W.relay_iff, hsource] at hrelay'
        exact heq (Option.some.inj hrelay').symm

end

/-! ### Every call is safe -/

theorem Others.congr {r w : Option Fd} (h : Others W t r w s) (hinc : s'.inc = s.inc)
    (hout : ∀ fd, (s'.out fd).sent = (s.out fd).sent ∧ (s'.out fd).failed = (s.out fd).failed ∧
      (s'.out fd).asked = (s.out fd).asked) : Others W t r w s' := by
  constructor
  · rw [hinc]
    exact h.drained
  · intro fd hw hne hsource
    unfold Outgoing.Flushed
    rw [(hout fd).1, (hout fd).2.1, (hout fd).2.2]
    exact h.flushed fd hw hne hsource
  · intro r' w' hr hne hne' hrelay
    unfold Copied
    rw [hinc, (hout w').1, (hout w').2.1]
    exact h.copied r' w' hr hne hne' hrelay

theorem shutdownCall_spec (hw : W.writer fd = t) (hsource : W.source fd = none) :
    Triple (rules W) t (Idle W t) (shutdown fd) fun _ => Idle W t := by
  refine issue_spec Others.stable (fun _ => Others.stable) fun s _ h => ⟨⟨hw, ?_⟩, fun r s' he => ?_⟩
  · intro r hr
    rw [hsource] at hr
    cases hr
  · cases he
    refine h.congr rfl fun fd' => ?_
    by_cases heq : fd' = fd
    · subst heq
      rw [setOut_out_self]
      exact ⟨rfl, rfl, rfl⟩
    · rw [setOut_out_ne _ _ heq]
      exact ⟨rfl, rfl, rfl⟩

theorem closeCall_spec : Triple (rules W) t (Idle W t) (close fd) fun _ => Idle W t := by
  refine issue_spec Others.stable (fun _ => Others.stable) fun s _ h => ⟨trivial, fun r s' he => ?_⟩
  cases he
  exact h.congr rfl fun _ => ⟨rfl, rfl, rfl⟩

/-- A call of `coroc_net_write` starts. -/
theorem enterWrite_sound (hi : Inv W s) (hidle : Idle W t s) (hw : W.writer fd = t) (hsource : W.source fd = none)
    (hs : s' = s.setOut fd { s.out fd with asked := (s.out fd).asked ++ [data] }) :
    Inv W s' ∧ (∀ u, u ≠ t → Rely W u s s') ∧ Others W t none (some fd) s' ∧
      ∃ o₀ : Outgoing, ∃ ms : List (List Byte),
        (o₀.asked = ms ++ [data] ∧ (o₀.failed = false → o₀.sent = ms.flatten)) ∧
          SentSince o₀ [] (s'.out fd) ∧ Sendable W fd (o₀.sent ++ data) s' := by
  subst hs
  have hasked := hi.asked fd hsource
  have hflushed := hidle.flushed hw hsource
  have hothers : Others W t none (some fd) s := hidle.others
  refine ⟨?_, fun u hu => .of_setOut fun hwu => absurd (hwu.symm.trans hw) hu, ?_, ?_⟩
  · refine hi.of_setOut (List.prefix_refl _) (fun _ => rfl) id ?_ fun _ => ?_
    · intro r hr
      rw [hsource] at hr
      cases hr
    · refine hasked.mono ?_ id
      rw [List.flatten_concat]
      exact List.prefix_append _ _
  · constructor
    · exact hothers.drained
    · intro fd' hw' hne hsource'
      have heq : fd' ≠ fd := fun h => hne (congrArg some h)
      rw [setOut_out_ne _ _ heq]
      exact hothers.flushed fd' hw' hne hsource'
    · intro r' w' hr hne hne' hrelay
      have heq : w' ≠ fd := fun h => hne' (congrArg some h)
      rw [setOut_out_ne _ _ heq]
      exact hothers.copied r' w' hr hne hne' hrelay
  · refine ⟨{ s.out fd with asked := (s.out fd).asked ++ [data] }, (s.out fd).asked, ⟨rfl, hflushed⟩, ?_, ?_⟩
    · rw [setOut_out_self]
      exact .refl _
    · simp only [Sendable, hsource, setOut_out_self]
      rw [List.flatten_concat]
      constructor
      · exact hasked.order.append (List.Sublist.refl _)
      · intro hf
        rw [hflushed hf]

theorem calls_sound : CallSound (rules W) (Idle W) (okCall W) := by
  intro t a s s' hi hidle hok he
  have hsame (hs : s' = s) (hbody : Triple (rules W) t (Idle W t) (body t a) fun _ => Idle W t) :
      Inv W s' ∧ (∀ u, u ≠ t → Rely W u s s') ∧ ∀ n, Safe (rules W) t n (body t a) (fun _ => Idle W t) s' := by
    subst hs
    exact ⟨hi, fun u _ => (rules W).rely_refl u _, hbody _ hi hidle⟩
  cases a with
  | netRead fd n => exact hsame (Option.some.inj he).symm (netReadCall_spec hok.1 hok.2)
  | netTimedRead fd n => exact hsame (Option.some.inj he).symm (netTimedReadCall_spec hok.1 hok.2)
  | netWrite fd data =>
    obtain ⟨hi', hrely, hothers, hown⟩ := enterWrite_sound hi hidle hok.1 hok.2 (Option.some.inj he).symm
    exact ⟨hi', hrely, netWriteCall_spec hok.1 hok.2 _ hi' ⟨hothers, hown⟩⟩
  | rwtask rfd wfd => exact hsame (Option.some.inj he).symm (rwtask_spec hok.1 hok.2)
  | shutdown fd => exact hsame (Option.some.inj he).symm (shutdownCall_spec hok.1 hok.2)
  | close fd => exact hsame (Option.some.inj he).symm closeCall_spec

theorem Start.inv {c : Config} (h : Start c) : Inv W c.shared where
  arrived b a _ := by simp [h.received, h.inbox]
  fin b a _ hfin := by
    rw [h.fin] at hfin
    cases hfin
  relayed r w _ := by
    refine ⟨⟨?_, fun _ => ?_⟩, fun hshut => ?_⟩
    · rw [h.sent]
      exact List.nil_sublist _
    · rw [h.sent]
      exact List.nil_prefix
    · rw [h.shut] at hshut
      cases hshut
  collected fd _ := by
    have hres := h.results fd
    constructor
    · simp [hres]
    · simp [Incoming.returned, hres]
    · simp [Incoming.returned, hres]
    · simp [hres]
    · simp [hres]
  asked fd _ := by
    constructor
    · simp [h.sent]
    · simp [h.sent]

theorem Start.idle {c : Config} (h : Start c) (t : Tid) : Idle W t c.shared where
  drained fd _ _ _ _ := by simp [Incoming.returned, h.results, h.received]
  flushed fd _ _ _ _ := by simp [h.sent, h.asked]
  copied r w _ _ _ _ _ _ := by simp [h.sent, h.received]

/-- The invariant holds in every run, and what is idle has nothing in progress. -/
theorem Reachable.good {c : Config} (h : Reachable W c) : Good (rules W) (Idle W) c := by
  refine Rules.sound calls_sound (fun c hs => ⟨hs.inv, fun t => ?_⟩) h
  rw [hs.prog]
  have hret : Triple (rules W) t (Idle W t) (.ret ()) fun _ => Idle W t := Triple.ret Others.stable fun _ _ h => h
  exact hret _ hs.inv (hs.idle t)

end Coroc.NetStream
