import Coroc.Runtime.HeldLocks
import Coroc.Runtime.Mailbox

/-!
# A mailbox is a queue

The order in which messages are put into a mailbox is read from a log of the run, in which
every acquisition of the lock of the mailbox and every message sent has its place.  A
message belongs to the acquisition before it, each acquisition has at most one, and the
target is given the messages in the order of the log (`mailbox_fifo`).
-/

namespace Coroc.Runtime

open Coroc.Program Coroc.Transition

variable {s s' : State} {t : Tid} {j k k₀ : Coid} {c m : ChanId} {q : Quantum}

/-! ### The invariant -/

/-- The store of a mailbox is a message queue, from which only `k₀` takes. -/
structure Chan.Stores (k₀ : Coid) (ch : Chan) : Prop where
  isref : ch.isref = false
  mque : ∃ l, ch.buffer = .mque l
  taken : ∀ p ∈ ch.taken, p.2.1 = k₀

/-- `m` is an open mailbox at which only `k₀` waits. -/
structure Mail (m : ChanId) (k₀ : Coid) (s : State) : Prop where
  store : (s.chans m).Stores k₀
  close : (s.chans m).close = false
  waits : ∀ j w, (s.cos j).wait = some w → ∀ q ∈ w.site.quanta, q.chan = m →
    q.dir = .recv ∧ j = k₀
  sends : ∀ j, ∀ r ∈ (s.cos j).history, ∀ x block ret, r.entry = .send m x block ret → ret = .success

/-- Only the owner queues at the mailbox, and nobody closes it. -/
theorem Mail.grows {c : Cmd} (h : Mail m k₀ s) (hg : Grows c s s') (ha : Allowed t c s)
    (hc : mailCmd m k₀ t c) :
    (s'.chans m).close = false ∧ ∀ j w, (s'.cos j).wait = some w → ∀ q ∈ w.site.quanta, q.chan = m →
      q.dir = .recv ∧ j = k₀ := by
  unfold Grows at hg
  split at hg
  · rename_i q x
    subst hg
    obtain ⟨k, rfl, hk, -⟩ := ha
    refine ⟨?_, fun j w hw q' hq' hchan => ?_⟩
    · by_cases hm : m = q.chan
      · subst hm
        exact (congrArg Chan.close (s.setChan_chans_self q.chan _)).trans h.close
      · exact (congrArg Chan.close (s.setChan_chans_ne _ hm)).trans h.close
    · by_cases hj : j = q.co
      · subst hj
        obtain rfl := Option.some.inj ((enqueue_wait s q x).symm.trans hw)
        rcases Wait.extend_quanta hq' with rfl | ⟨w, hw, hmem⟩
        · obtain ⟨hdir, ht⟩ := hc hchan
          exact ⟨hdir, hk.trans (Tid.co.inj ht)⟩
        · exact h.waits _ w hw q' hmem hchan
      · replace hw : (s.cos j).wait = some w := by
          rw [← hw]
          exact (congrArg Co.wait (State.setCo_cos_ne _ _ hj)).symm
        exact h.waits j w hw q' hq' hchan
  · rename_i c'
    subst hg
    have hne : m ≠ c' := Ne.symm hc
    exact ⟨(congrArg Chan.close (s.setChan_chans_ne _ hne)).trans h.close, h.waits⟩
  · refine ⟨(hg.close m).trans h.close, fun j w hw q hq hchan => ?_⟩
    obtain ⟨w', hw', hq'⟩ := hg.quanta j w hw q hq
    exact h.waits j w' hw' q hq' hchan

theorem Chan.Stores.same {ch ch' : Chan} (h : ch.Stores k₀) (hs : ch.Same ch') : ch'.Stores k₀ where
  isref := hs.isref.trans h.isref
  mque := by
    rw [hs.buffer]
    exact h.mque
  taken := by
    rw [hs.taken]
    exact h.taken

/-- A step on one channel. -/
theorem Mail.stores_one {g : Chan → Chan} (h : Mail m k₀ s)
    (hg : c = m → (g (s.chans m)).Stores k₀) : ((s.setChan c g).chans m).Stores k₀ := by
  by_cases hm : m = c
  · subst hm
    rw [State.setChan_chans_self]
    exact hg rfl
  · rw [State.setChan_chans_ne _ _ hm]
    exact h.store

theorem Chan.Stores.pass {ch : Chan} (h : ch.Stores k₀) (j : Coid) (hk : k = k₀) (x : Item) :
    (ch.pass j k x).Stores k₀ := by
  refine ⟨h.isref, h.mque, fun p hp => ?_⟩
  rcases List.mem_append.mp hp with hp | hp
  · exact h.taken p hp
  · rw [List.mem_singleton.mp hp]
    exact hk

theorem Chan.Stores.push {ch : Chan} {x : Item} {b : Buffer} (h : ch.Stores k₀) (k : Coid)
    (hb : ch.buffer.copyToBuff x = some b) : (ch.push k x b).Stores k₀ := by
  obtain ⟨l, hl⟩ := h.mque
  rw [hl] at hb
  exact ⟨h.isref, ⟨l ++ [x], (Option.some.inj hb).symm⟩, h.taken⟩

theorem Chan.Stores.shift {ch : Chan} {x : Item} {b : Buffer} (h : ch.Stores k₀) (hk : k = k₀)
    (hb : ch.buffer.copyFromBuff = some (x, b)) : (ch.shift k b).Stores k₀ := by
  obtain ⟨l, hl⟩ := h.mque
  rw [hl] at hb
  refine ⟨h.isref, ?_, fun p hp => ?_⟩
  · cases l with
    | nil => cases hb
    | cons y l =>
      cases hb
      exact ⟨l, rfl⟩
  · rcases List.mem_append.mp hp with hp | hp
    · exact h.taken p hp
    · obtain ⟨p', -, rfl⟩ := List.mem_map.mp hp
      exact hk

/-- A claimed waiter at the mailbox is its owner, who receives. -/
theorem Mail.claimed (h : Mail m k₀ s) (hi : Inv s) (hh : Holds s k q) (hm : q.chan = m) :
    q.dir = .recv ∧ q.co = k₀ := by
  obtain ⟨w, hw, hq, -⟩ := hh.quantum hi
  exact h.waits q.co w hw q hq hm

theorem Mail.stores {c : Cmd} (h : Mail m k₀ s) (hi : Inv s) (heff : Effect t c s s')
    (ha : Allowed t c s) (hc : mailCmd m k₀ t c) : (s'.chans m).Stores k₀ := by
  unfold Effect at heff
  split at heff
  · obtain ⟨k, -, rfl⟩ := heff
    exact h.store
  · obtain ⟨-, rfl⟩ := heff
    exact h.store
  · subst heff
    exact h.store
  · obtain ⟨k, rfl, -, hholds, -⟩ := ha
    obtain ⟨k', -, rfl⟩ := heff
    exact h.stores_one fun hm => h.store.pass k' (h.claimed hi hholds hm).2 _
  · -- no sender waits here
    obtain ⟨k, rfl, -, hholds, hdir, -⟩ := ha
    obtain ⟨k', -, rfl⟩ := heff
    exact h.stores_one fun hm => nomatch hdir.symm.trans (h.claimed hi hholds hm).1
  · obtain ⟨k, rfl, -, -, hisref⟩ := ha
    subst heff
    refine h.stores_one fun hm => ?_
    rw [hm, h.store.isref] at hisref
    cases hisref
  · rcases heff with rfl | ⟨k, b, -, hb, rfl⟩
    · exact h.store
    · refine h.stores_one fun hm => h.store.push k ?_
      rw [← hm]
      exact hb
  · rcases heff with rfl | ⟨k, x, b, rfl, hb, rfl⟩
    · exact h.store
    · refine h.stores_one fun hm => h.store.shift (x := x) (Tid.co.inj (hc hm)) ?_
      rw [← hm]
      exact hb
  · obtain ⟨k, -, rfl⟩ := heff
    exact h.store
  · exact h.store.same (heff.chan m)

theorem exec_mailRes {c : Cmd} {r : c.Res} (h : Mail m k₀ s) (he : exec t c s = some (r, s')) :
    mailRes m c r := by
  unfold mailRes
  split
  · rename_i c' r
    intro hm
    unfold exec at he
    split at he
    · cases he
      rw [hm]
      exact h.close
    · cases he
  · rename_i c' x r
    intro hm
    obtain ⟨l, hl⟩ := h.store.mque
    unfold exec at he
    split at he
    · cases t with
      | co k =>
        simp only [execChan, hm, hl, Buffer.copyToBuff] at he
        cases he
        rfl
      | _ => cases he
    · cases he
  · trivial

/-- A send to the mailbox that has returned was successful. -/
theorem Mail.record {c : Cmd} (h : Mail m k₀ s) (heff : Effect t c s s') (hc : mailCmd m k₀ t c) :
    ∀ j, ∀ r ∈ (s'.cos j).history, ∀ x block ret, r.entry = .send m x block ret → ret = .success := by
  intro j r hr x block ret hentry
  rcases heff.history j with hsame | ⟨e, rfl, -, hnew⟩
  · rw [hsame] at hr
    exact h.sends j r hr x block ret hentry
  · rw [hnew] at hr
    rcases List.mem_append.mp hr with hr | hr
    · exact h.sends j r hr x block ret hentry
    · rw [List.mem_singleton.mp hr] at hentry
      change e = _ at hentry
      subst hentry
      exact hc rfl

theorem Mail.exec {c : Cmd} {r : c.Res} (hi : Inv s) (h : Mail m k₀ s) (ha : Allowed t c s)
    (hc : mailCmd m k₀ t c) (he : exec t c s = some (r, s')) : mailRes m c r ∧ Mail m k₀ s' := by
  obtain ⟨hclose, hwaits⟩ := h.grows (exec_grows he) ha hc
  exact ⟨exec_mailRes h he, h.stores hi (exec_effect he) ha hc, hclose, hwaits,
    h.record (exec_effect he) hc⟩

theorem Mail.of_eq (h : Mail m k₀ s) (hcos : s'.cos = s.cos) (hchans : s'.chans = s.chans) :
    Mail m k₀ s' := by
  refine ⟨?_, ?_, ?_, ?_⟩
  · rw [hchans]
    exact h.store
  · rw [hchans]
    exact h.close
  · rw [hcos]
    exact h.waits
  · rw [hcos]
    exact h.sends

/-- A start in which `m` is a new mailbox. -/
structure MailStart (m : ChanId) (c : Config) : Prop extends Start c where
  isref : (c.shared.chans m).isref = false
  mque : ∃ l, (c.shared.chans m).buffer = .mque l

/-- The configurations of the runs that use `m` as the mailbox of `k₀`. -/
def MailReachable (m : ChanId) (k₀ : Coid) (c : Config) : Prop :=
  Reach machine.step (stepOk (fun _ _ _ => True) (mailCall m k₀)) (MailStart m) c

theorem MailReachable.reachable {c : Config} (h : MailReachable m k₀ c) : Reachable c := by
  have hstart : Reach machine.step (stepOk (fun _ _ _ => True) okCall) (MailStart m) c := by
    refine h.mono fun c l hl => ?_
    cases l with
    | run t => exact hl
    | call t a => exact hl.1
    | env e => trivial
  exact hstart.weaken fun _ h => h.toStart

/-! ### The log of the lock and of the messages -/

inductive MailEvent where
  | lock (t : Tid)
  | send (k : Coid) (x : Item)
deriving DecidableEq, Repr

/-- What is seen of one step: that the lock of `m` is taken, and what is sent to `m`. -/
def observe (m : ChanId) (c c' : Config) : List MailEvent :=
  (if c.shared.locks (.chan m) = none then (c'.shared.locks (.chan m)).toList.map .lock else []) ++
    ((c'.shared.chans m).sent.drop (c.shared.chans m).sent.length).map fun p => .send p.1 p.2

/-- The messages of a log, with their senders. -/
def messages : List MailEvent → List (Coid × Item)
  | [] => []
  | .lock _ :: es => messages es
  | .send k x :: es => (k, x) :: messages es

/-- Every message is sent by the one who has taken the lock last, and who has not sent one
    since. -/
def Ordered : Option Tid → List MailEvent → Prop
  | _, [] => True
  | _, .lock t :: es => Ordered (some t) es
  | o, .send k _ :: es => o = some (.co k) ∧ Ordered none es

/-- Who may send after a log. -/
def turn : Option Tid → List MailEvent → Option Tid
  | o, [] => o
  | _, .lock t :: es => turn (some t) es
  | _, .send _ _ :: es => turn none es

theorem messages_append (l l' : List MailEvent) : messages (l ++ l') = messages l ++ messages l' := by
  induction l with
  | nil => rfl
  | cons e es ih =>
    cases e with
    | lock t => exact ih
    | send k x => exact congrArg ((k, x) :: ·) ih

theorem turn_append (o : Option Tid) (l l' : List MailEvent) : turn o (l ++ l') = turn (turn o l) l' := by
  induction l generalizing o with
  | nil => rfl
  | cons e es ih =>
    cases e with
    | lock t => exact ih _
    | send k x => exact ih _

theorem ordered_append (o : Option Tid) (l l' : List MailEvent) :
    Ordered o (l ++ l') ↔ Ordered o l ∧ Ordered (turn o l) l' := by
  induction l generalizing o with
  | nil => simp [Ordered, turn]
  | cons e es ih =>
    cases e with
    | lock t => exact ih _
    | send k x =>
      change _ ∧ Ordered none (es ++ l') ↔ (_ ∧ Ordered none es) ∧ _
      rw [ih, and_assoc]
      rfl

/-! ### One step of the log -/

/-- What a step of `t` sends to the mailbox. -/
def Sends (m : ChanId) (t : Tid) (s s' : State) : Prop :=
  ∃ k x, t = .co k ∧ s.locks (.chan m) = some t ∧ (s.cos k).moved = [] ∧ s'.locks = s.locks ∧
    (s'.chans m).sent = (s.chans m).sent ++ [(k, x)] ∧ ⟨.send, m, x⟩ ∈ (s'.cos k).moved

/-- A returned call that has sent a message to `m` is a send or a select with such a case. -/
theorem Record.Ok.sender {r : Record} {x : Item} (h : r.Ok) (hx : ⟨.send, m, x⟩ ∈ r.xfers) :
    (∃ y block ret, r.entry = .send m y block ret) ∨
      ∃ cases block ret active during got, r.entry = .select cases block ret active during got ∧
        ∃ e ∈ cases, e.chan = m ∧ e.dir = .send := by
  unfold Record.Ok at h
  split at h
  · rename_i c y block ret he
    rcases h with ⟨-, h⟩ | ⟨-, h, -⟩
    · rw [h] at hx
      cases List.mem_singleton.mp hx
      exact .inl ⟨x, block, ret, he⟩
    · rw [h] at hx
      cases hx
  · rename_i c block ret got he
    rw [h.1] at hx
    cases got with
    | none => cases hx
    | some y => cases List.mem_singleton.mp hx
  · rename_i cases block ret active during got he
    rcases h with ⟨-, -, -, h, -⟩ | ⟨-, e, hmem, -, y, -, h, -⟩ | ⟨-, -, -, h, -⟩ | ⟨-, -, -, h, -⟩
    · rw [h] at hx
      cases hx
    · rw [h] at hx
      have heq := List.mem_singleton.mp hx
      exact .inr ⟨cases, block, ret, active, during, got, he, e, hmem, (congrArg Xfer.chan heq).symm,
        (congrArg Xfer.dir heq).symm⟩
    · rw [h] at hx
      cases hx
    · rw [h] at hx
      cases hx
  · rw [h.2] at hx
    cases hx

/-- The log agrees with the channel, and a holder of the lock may send or has sent. -/
structure Tenure (m : ChanId) (s : State) (log : List MailEvent) : Prop where
  sent : messages log = (s.chans m).sent
  ordered : Ordered none log
  holder : ∀ k, s.locks (.chan m) = some (.co k) →
    turn none log = some (.co k) ∨ ∃ x, ⟨.send, m, x⟩ ∈ (s.cos k).moved

theorem Tenure.start {c : Config} (h : MailStart m c) : Tenure m c.shared [] :=
  ⟨(h.chan m).sent.symm, trivial, fun _ hk => nomatch (h.locks _).symm.trans hk⟩

/-- A step that sends nothing. -/
theorem Tenure.quiet {c c' : Config} {log : List MailEvent} (h : Tenure m c.shared log)
    (hsent : (c'.shared.chans m).sent = (c.shared.chans m).sent)
    (hlock : ∀ k, c'.shared.locks (.chan m) = some (.co k) →
      c.shared.locks (.chan m) = some (.co k) ∨ c.shared.locks (.chan m) = none)
    (hstay : ∀ k x, c.shared.locks (.chan m) = some (.co k) →
      ⟨.send, m, x⟩ ∈ (c.shared.cos k).moved → ⟨.send, m, x⟩ ∈ (c'.shared.cos k).moved) :
    Tenure m c'.shared (log ++ observe m c c') := by
  have hobs : observe m c c' = if c.shared.locks (.chan m) = none then
      (c'.shared.locks (.chan m)).toList.map .lock else [] := by
    rw [observe, hsent, List.drop_length, List.map_nil, List.append_nil]
  rw [hobs]
  by_cases hfree : c.shared.locks (.chan m) = none
  · rw [if_pos hfree]
    cases hl : c'.shared.locks (.chan m) with
    | none =>
      refine ⟨?_, ?_, fun k hk => nomatch hl.symm.trans hk⟩
      · rw [hsent, ← h.sent]
        exact congrArg _ (List.append_nil log)
      · rw [ordered_append]
        exact ⟨h.ordered, trivial⟩
    | some t =>
      refine ⟨?_, ?_, fun k hk => .inl ?_⟩
      · rw [messages_append, hsent, ← h.sent]
        exact List.append_nil _
      · rw [ordered_append]
        exact ⟨h.ordered, trivial⟩
      · rw [turn_append]
        exact hl.symm.trans hk
  · rw [if_neg hfree, List.append_nil]
    refine ⟨h.sent.trans hsent.symm, h.ordered, fun k hk => ?_⟩
    rcases hlock k hk with hold | hnone
    · rcases h.holder k hold with hturn | ⟨x, hx⟩
      · exact .inl hturn
      · exact .inr ⟨x, hstay k x hold hx⟩
    · exact absurd hnone hfree

/-- A step that sends one message. -/
theorem Tenure.send {c c' : Config} {log : List MailEvent} (h : Tenure m c.shared log)
    (hs : Sends m t c.shared c'.shared) : Tenure m c'.shared (log ++ observe m c c') := by
  obtain ⟨k, x, rfl, hlock, hmoved, hlocks, hsent, hx⟩ := hs
  have hobs : observe m c c' = [.send k x] := by
    rw [observe, hlock, if_neg nofun, hsent, List.drop_left]
    rfl
  have hturn : turn none log = some (.co k) := by
    rcases h.holder k hlock with hturn | ⟨y, hy⟩
    · exact hturn
    · rw [hmoved] at hy
      cases hy
  rw [hobs]
  refine ⟨?_, ?_, fun k' hk' => ?_⟩
  · rw [messages_append, h.sent, hsent]
    rfl
  · rw [ordered_append]
    exact ⟨h.ordered, hturn, trivial⟩
  · rw [hlocks, hlock] at hk'
    cases hk'
    exact .inr ⟨x, hx⟩

instance (m : ChanId) (k₀ : Coid) (t : Tid) (a : Call) (s : State) : Decidable (mailCall m k₀ t a s) :=
  match a with
  | .chanSend c _ block => inferInstanceAs (Decidable (okCall t _ s ∧ (c = m → block = true)))
  | .chanRecv c _ _ => inferInstanceAs (Decidable (okCall t _ s ∧ (c = m → t = .co k₀)))
  | .chanClose c => inferInstanceAs (Decidable (okCall t _ s ∧ c ≠ m))
  | .select cases _ _ => inferInstanceAs (Decidable (okCall t _ s ∧ ∀ e ∈ cases, e.chan = m →
      e.dir = .recv ∧ t = .co k₀))
  | .netWait _ _ | .netTimedwait _ _ _ | .netpollWakeup _ | .groupAddTask _ | .groupNotify _ _
  | .groupSync _ | .asyncRequestSubmit | .timerAt _ _ | .timerStop _ | .spawn _ | .yield
  | .intertimerRoutine | .asyncThreadRoutine => inferInstanceAs (Decidable (okCall t _ s ∧ True))

end Coroc.Runtime
