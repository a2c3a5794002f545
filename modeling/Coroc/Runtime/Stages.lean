import Coroc.Protocol
import Coroc.Runtime.Issued

/-!
# The stages of a call on channels

Every call goes through a few stages: it polls, it queues a quantum and is suspended, or it
closes the channel; and what it returns depends on the stage it has come to.  The protocol
`calls` says which commands belong to a stage, and `body_calls` that all operations follow it.
An invariant can then speak of the stage a coroutine is in.
-/

namespace Coroc.Runtime

open Coroc.Program

/-! ### The protocol -/

/-- How far a call has come.
    * `idle`: between two calls, or in a call that has nothing to do with channels.
    * `busy`: a receive that has its item, a select that polls.
    * `sending`: a send.
    * `missed`: a receive that found the buffer empty, and what it then read of the mark.
    * `blocked`: a send or receive that has queued its quantum.
    * `queued`: a select that queues its quanta; `chosen`: it has read its tag.
    * `tested`: a close that has read the mark; `closing`: it has set it and wakes the waiters;
      `done`: it has woken them. -/
inductive Stage where
  | idle
  | busy
  | sending (c : ChanId)
  | missed (c : ChanId) (closed : Option Bool)
  | blocked (q : Quantum)
  | queued
  | chosen (active : Option ChanId)
  | tested (c : ChanId) (closed : Bool)
  | closing (c : ChanId)
  | done (c : ChanId)
deriving DecidableEq

namespace Stage

/-- It can go on to poll a case. -/
def polls : Stage → Prop
  | idle | busy => True
  | missed _ closed => closed ≠ none
  | _ => False

/-- It can remove quanta from the queues of the channel. -/
def fetches (c : ChanId) : Stage → Prop
  | idle | busy | missed _ _ => True
  | sending c' | closing c' => c' = c
  | _ => False

def fetch : Stage → Stage
  | idle | missed _ (some _) => busy
  | a => a

def miss (c : ChanId) (r : Option Item) : Stage → Stage
  | idle => if r = none then missed c none else busy
  | _ => busy

def test (c : ChanId) (closed : Bool) : Stage → Stage
  | idle => tested c closed
  | missed c' none => missed c' (some closed)
  | a => a

def queue (q : Quantum) : Stage := if q.select then queued else blocked q

/-- The quantum is one that this call queues. -/
def queues (q : Quantum) : Stage → Prop
  | sending c => q.select = false ∧ q.chan = c ∧ q.dir = .send
  | missed c closed => (q.select = false ∧ q.chan = c ∧ q.dir = .recv ∧ closed = some false) ∨
      (q.select = true ∧ closed ≠ none)
  | idle | busy | queued => q.select = true
  | _ => False

/-- What a call returns at this stage. -/
def returns : Stage → Entry → Prop
  | idle, .select _ _ _ _ _ _ => True
  | busy, .recv _ _ _ got => got.isSome = true
  | busy, .select _ _ _ _ _ _ => True
  | missed c (some closed), .recv c' _ ret got =>
      c' = c ∧ got = none ∧ ret = if closed then .closed else .busy
  | missed _ (some _), .select _ _ _ _ _ _ => True
  | sending c, .send c' _ _ _ => c' = c
  | blocked q, .send c _ block ret => q.dir = .send ∧ c = q.chan ∧ block = true ∧ ret ≠ .busy
  | blocked q, .recv c block ret _ => q.dir = .recv ∧ c = q.chan ∧ block = true ∧ ret ≠ .busy
  | chosen a, .select cases block _ active _ _ => cases ≠ [] ∧ block = true ∧ active = a
  | tested c closed, .close c' ret => closed = true ∧ c' = c ∧ ret = .closed
  | done c, .close c' ret => c' = c ∧ ret = .success
  | _, _ => False

/-- The commands of the stage that are about channels. -/
def okChan (a : Stage) : ChanCmd → Prop
  | .begin _ => a = idle
  | .record e => a.returns e
  | .queueRem c _ => a.fetches c
  | .casTag q => a.fetches q.chan
  | .copyTo q _ => a = sending q.chan ∨ a = busy
  | .copyToBuff c _ => a = sending c ∨ a = busy
  | .copyFrom _ => a = busy ∨ ∃ c, a = missed c none
  | .copyFromBuff _ => a.polls
  | .queueAdd q _ => a.queues q
  | .readTag => a = queued
  | .setClose c => a = tested c false
  | .markClosed q => a = closing q.chan
  | .readIsref c => a = closing c
  | .cleanBuff c => a = done c
  | .readClose _ => ∀ c, a ≠ closing c
  | .readQuantum _ => (∃ q, a = blocked q) ∨ ∃ active, a = chosen active
  | .queueExtract _ => ∃ active, a = chosen active
  | .clearTag => a.polls ∨ ∃ active, a = chosen active

/-- The commands of the stage: a call on channels does nothing else. -/
def ok (a : Stage) : Cmd → Prop
  | .chan cmd => a.okChan cmd
  | .lock _ | .co (.ready _) => True
  | .co (.suspend _) => a = idle ∨ a = queued ∨ ∃ q, a = blocked q
  | _ => a = idle

def next (a : Stage) : (cmd : Cmd) → cmd.Res → Stage
  | .chan (.begin c), _ => sending c
  | .chan (.record _), _ => idle
  | .chan (.queueRem _ _), _ => a.fetch
  | .chan (.copyFrom _), _ => busy
  | .chan (.copyFromBuff c), (r : Option Item) => a.miss c r
  | .chan (.readClose c), (r : Bool) => a.test c r
  | .chan (.queueAdd q _), _ => queue q
  | .chan .readTag, (r : Option ChanId) => chosen r
  | .chan (.setClose c), _ => closing c
  | .chan (.readIsref c), _ => done c
  | _, _ => a

end Stage

def calls : Protocol Cmd Cmd.Res Stage := ⟨Stage.ok, fun _ c r => queueRes c r, Stage.next⟩

/-! ### The operations follow it -/

variable {a : Stage} {c : ChanId} {k : Coid}

theorem Stage.fetches_fetch (h : a.fetches c) : a.fetch.fetches c := by
  cases a with
  | missed c' closed => cases closed <;> trivial
  | _ => exact h

theorem Stage.fetch_fetch : a.fetch.fetch = a.fetch := by
  cases a with
  | missed c' closed => cases closed <;> rfl
  | _ => rfl

theorem Stage.fetch_of_polls (h : a.polls) : a.fetch = .busy := by
  cases a with
  | missed c' closed =>
    cases closed with
    | none => exact absurd rfl h
    | some b => rfl
  | idle | busy => rfl
  | _ => exact h.elim

theorem Stage.fetches_of_polls (h : a.polls) : a.fetches c := by
  cases a with
  | idle | busy | missed c' closed => trivial
  | _ => exact h.elim

/-- `vpu_ready` without preemption. -/
theorem vpuReady_calls (d : Coid) : (vpuReady d false).Follows calls a fun b _ => b = a :=
  ⟨trivial, fun _ _ => rfl⟩

theorem fetchQuantum_calls {dir : Dir} (h : a.fetches c) :
    (fetchQuantum c dir).Follows calls a fun b r => b = a.fetch ∧ ∀ q, r = some q → q.chan = c := by
  refine ⟨fun b => b = a ∨ b = a.fetch, fun b r => b = a.fetch ∧ ∀ q, r = some q → q.chan = c,
    .inl rfl, ?_, fun b r hr => hr⟩
  intro b hb
  have hfetches : b.fetches c := by
    rcases hb with rfl | rfl
    · exact h
    · exact Stage.fetches_fetch h
  have hfetch : b.fetch = a.fetch := by
    rcases hb with rfl | rfl
    · rfl
    · exact Stage.fetch_fetch
  refine ⟨hfetches, fun r hr => ?_⟩
  change Prog.Follows calls b.fetch _ _
  rw [hfetch]
  cases r with
  | none => exact ⟨rfl, nofun⟩
  | some q =>
    have hchan : q.chan = c := hr q rfl
    change Prog.Follows calls a.fetch (if q.select = true then _ else _) _
    split
    · have hok : calls.ok a.fetch (.chan (.casTag q)) := by
        change a.fetch.fetches q.chan
        rw [hchan]
        exact Stage.fetches_fetch h
      refine ⟨hok, fun (won : Bool) _ => ?_⟩
      cases won with
      | false => exact .inr rfl
      | true =>
        refine ⟨rfl, ?_⟩
        rintro q' ⟨⟩
        exact hchan
    · refine ⟨rfl, ?_⟩
      rintro q' ⟨⟩
      exact hchan

/-- The lock is handed over and taken again, and the quantum looked at. -/
theorem suspend_calls {α : Type} {q : Quantum} {l : Lock} {ls : List Lock} {f : Slot → RProg α}
    {ρ : Stage → α → Prop} (hf : ∀ slot, (f slot).Follows calls (.blocked q) ρ) :
    (do
      vpuSuspend ls
      lockAcquire l
      let slot ← readQuantum q
      f slot : RProg α).Follows calls (.blocked q) ρ :=
  ⟨.inr (.inr ⟨q, rfl⟩), fun _ _ => ⟨trivial, fun _ _ => ⟨.inl ⟨q, rfl⟩, fun slot _ => hf slot⟩⟩⟩

theorem chanSendLocked_calls (k : Coid) (c : ChanId) (x : Item) (block : Bool) :
    (chanSendLocked k c x block).Follows calls (.sending c) fun b ret =>
      b = .sending c ∨ (b = .blocked ⟨k, c, false, .send, 0⟩ ∧ block = true ∧ ret ≠ .busy) := by
  refine (fetchQuantum_calls (a := .sending c) rfl).bind ?_
  rintro b r ⟨rfl, hchan⟩
  cases r with
  | some q =>
    refine ⟨.inl (congrArg Stage.sending (hchan q rfl).symm), fun _ _ => ?_⟩
    refine (vpuReady_calls q.co).bind ?_
    rintro b _ rfl
    exact .inl rfl
  | none =>
    refine ⟨nofun, fun closed _ => ?_⟩
    cases closed with
    | true => exact .inl rfl
    | false =>
      refine ⟨.inl rfl, fun stored _ => ?_⟩
      cases stored with
      | true => exact .inl rfl
      | false =>
        cases block with
        | false => exact .inl rfl
        | true =>
          refine ⟨⟨rfl, rfl, rfl⟩, fun _ _ => suspend_calls fun slot => .inr ⟨rfl, rfl, ?_⟩⟩
          split <;> nofun

/-- A receive that does not poll for a select. -/
theorem chanRecvLocked_calls (k : Coid) (c : ChanId) (x : Item) (block : Bool) :
    (chanRecvLocked k c x block).Follows calls .idle fun b res =>
      (b = .busy ∧ res.2.isSome = true) ∨
      (∃ closed, b = .missed c (some closed) ∧ res.2 = none ∧
        res.1 = if closed then .closed else .busy) ∨
      (b = .blocked ⟨k, c, false, .recv, 0⟩ ∧ block = true ∧ res.1 ≠ .busy) := by
  refine ⟨trivial, fun r _ => ?_⟩
  cases r with
  | some y => exact .inl ⟨rfl, rfl⟩
  | none =>
    refine (fetchQuantum_calls (a := .missed c none) trivial).bind ?_
    rintro b r ⟨rfl, -⟩
    cases r with
    | some q =>
      refine ⟨.inr ⟨c, rfl⟩, fun y _ => (vpuReady_calls q.co).bind ?_⟩
      rintro b _ rfl
      exact .inl ⟨rfl, rfl⟩
    | none =>
      refine ⟨nofun, fun closed _ => ?_⟩
      cases closed with
      | true => exact .inr (.inl ⟨true, rfl, rfl, rfl⟩)
      | false =>
        cases block with
        | false => exact .inr (.inl ⟨false, rfl, rfl, rfl⟩)
        | true =>
          refine ⟨.inl ⟨rfl, rfl, rfl, rfl⟩, fun _ _ => suspend_calls fun slot => .inr (.inr ⟨rfl, rfl, ?_⟩)⟩
          split <;> nofun

theorem chanSend_calls (k : Coid) (c : ChanId) (x : Item) (block : Bool) :
    (chanSend k c x block).Follows calls .idle fun b _ => b = .idle := by
  refine ⟨rfl, fun _ _ => ⟨trivial, fun _ _ => (chanSendLocked_calls k c x block).bind ?_⟩⟩
  rintro b ret (rfl | ⟨rfl, hblock, hret⟩)
  · exact ⟨trivial, fun _ _ => ⟨rfl, fun _ _ => rfl⟩⟩
  · exact ⟨trivial, fun _ _ => ⟨⟨rfl, rfl, hblock, hret⟩, fun _ _ => rfl⟩⟩

theorem chanRecv_calls (k : Coid) (c : ChanId) (x : Item) (block : Bool) :
    (chanRecv k c x block).Follows calls .idle fun b _ => b = .idle := by
  refine ⟨trivial, fun _ _ => (chanRecvLocked_calls k c x block).bind ?_⟩
  rintro b ⟨ret, got⟩ (⟨rfl, hgot⟩ | ⟨closed, rfl, hgot, hret⟩ | ⟨rfl, hblock, hret⟩)
  · exact ⟨trivial, fun _ _ => ⟨hgot, fun _ _ => rfl⟩⟩
  · exact ⟨trivial, fun _ _ => ⟨⟨rfl, hgot, hret⟩, fun _ _ => rfl⟩⟩
  · exact ⟨trivial, fun _ _ => ⟨⟨rfl, rfl, hblock, hret⟩, fun _ _ => rfl⟩⟩

theorem wakeAll_calls (c : ChanId) (dir : Dir) :
    (wakeAll c dir).Follows calls (.closing c) fun b _ => b = .closing c := by
  refine Prog.Follows.loop ((fetchQuantum_calls (a := .closing c) rfl).bind ?_) fun _ => rfl
  rintro b r ⟨rfl, hchan⟩
  cases r with
  | none => rfl
  | some q =>
    refine ⟨congrArg Stage.closing (hchan q rfl).symm, fun _ _ => (vpuReady_calls q.co).bind ?_⟩
    rintro b _ rfl
    rfl

theorem chanClose_calls (c : ChanId) : (chanClose c).Follows calls .idle fun b _ => b = .idle := by
  have hlocked : (chanCloseLocked c).Follows calls .idle fun b ret =>
      (b = .tested c true ∧ ret = .closed) ∨ (b = .done c ∧ ret = .success) := by
    refine ⟨nofun, fun closed _ => ?_⟩
    cases closed with
    | true => exact .inl ⟨rfl, rfl⟩
    | false =>
      refine ⟨rfl, fun _ _ => (wakeAll_calls c .send).bind ?_⟩
      rintro b _ rfl
      refine (wakeAll_calls c .recv).bind ?_
      rintro b _ rfl
      refine ⟨rfl, fun isref _ => ?_⟩
      cases isref with
      | false => exact .inr ⟨rfl, rfl⟩
      | true => exact ⟨rfl, fun _ _ => .inr ⟨rfl, rfl⟩⟩
  refine ⟨trivial, fun _ _ => hlocked.bind ?_⟩
  rintro b ret (⟨rfl, hret⟩ | ⟨rfl, hret⟩)
  · exact ⟨trivial, fun _ _ => ⟨⟨rfl, rfl, hret⟩, fun _ _ => rfl⟩⟩
  · exact ⟨trivial, fun _ _ => ⟨⟨rfl, hret⟩, fun _ _ => rfl⟩⟩

/-! ### Select -/

theorem lockChainAcquire_calls (chain : List ChanId) :
    (lockChainAcquire chain).Follows calls a fun b _ => b = a := by
  induction chain with
  | nil => rfl
  | cons c cs ih => exact ⟨trivial, fun _ _ => ih⟩

theorem lockChainRelease_calls (chain : List ChanId) :
    (lockChainRelease chain).Follows calls a fun b _ => b = a := by
  induction chain with
  | nil => rfl
  | cons c cs ih => exact ⟨trivial, fun _ _ => ih⟩

theorem Stage.polls_miss {c : ChanId} (h : a.polls) (r : Option Item) :
    a.miss c r = .busy ∨ (a.miss c r = .missed c none ∧ r = none) := by
  cases a with
  | idle =>
    cases r with
    | none => exact .inr ⟨rfl, rfl⟩
    | some y => exact .inl rfl
  | busy | missed c' closed => exact .inl rfl
  | _ => exact h.elim

theorem pollSend_calls (k : Coid) (c : ChanId) (x : Item) (h : a.polls) :
    (chanSendLocked k c x false).Follows calls a fun b _ => b.polls := by
  refine (fetchQuantum_calls (c := c) (Stage.fetches_of_polls h)).bind ?_
  rintro b r ⟨rfl, -⟩
  rw [Stage.fetch_of_polls h]
  cases r with
  | some q =>
    refine ⟨.inr rfl, fun _ _ => (vpuReady_calls q.co).bind ?_⟩
    rintro b _ rfl
    trivial
  | none =>
    refine ⟨nofun, fun closed _ => ?_⟩
    cases closed with
    | true => trivial
    | false =>
      refine ⟨.inr rfl, fun stored _ => ?_⟩
      cases stored with
      | true => trivial
      | false => trivial

theorem pollRecv_calls (k : Coid) (c : ChanId) (x : Item) (h : a.polls) :
    (chanRecvLocked k c x false).Follows calls a fun b _ => b.polls := by
  refine ⟨h, fun r _ => ?_⟩
  have hmiss := Stage.polls_miss (c := c) h r
  cases r with
  | some y =>
    change (a.miss c (some y)).polls
    rw [hmiss.resolve_right fun hr => nomatch hr.2]
    trivial
  | none =>
    have hfetches : (a.miss c none).fetches c := by
      rcases hmiss with hbusy | ⟨hmissed, -⟩
      · rw [hbusy]
        trivial
      · rw [hmissed]
        trivial
    refine (fetchQuantum_calls hfetches).bind ?_
    rintro b r ⟨rfl, -⟩
    have hfetch : (a.miss c none).fetch = .busy ∨ (a.miss c none).fetch = .missed c none := by
      rcases hmiss with hbusy | ⟨hmissed, -⟩
      · exact .inl (congrArg Stage.fetch hbusy)
      · exact .inr (congrArg Stage.fetch hmissed)
    generalize (a.miss c none).fetch = b at hfetch
    cases r with
    | some q =>
      refine ⟨?_, fun y _ => (vpuReady_calls q.co).bind ?_⟩
      · rcases hfetch with rfl | rfl
        · exact .inl rfl
        · exact .inr ⟨c, rfl⟩
      · rintro b' _ rfl
        trivial
    | none =>
      rcases hfetch with rfl | rfl
      · refine ⟨nofun, fun closed _ => ?_⟩
        cases closed <;> trivial
      · refine ⟨nofun, fun closed _ => ?_⟩
        cases closed <;> exact nofun

theorem pollCases_calls (k : Coid) (ret : Ret) (cases : List Case) (h : a.polls) :
    (pollCases k ret cases).Follows calls a fun b _ => b.polls := by
  induction cases generalizing a ret with
  | nil => exact h
  | cons e es ih =>
    have hcase : (pollCase k e).Follows calls a fun b _ => b.polls := by
      unfold pollCase
      split
      · exact (pollSend_calls k e.chan e.item h).bind fun _ _ hb => hb
      · exact pollRecv_calls k e.chan e.item h
    refine hcase.bind fun b res hb => ?_
    obtain ⟨ret', got⟩ := res
    change Prog.Follows calls b (if ret' = .success then _ else _) _
    split
    · exact hb
    · exact ih ret' hb

theorem Stage.queues_of_polls {q : Quantum} (h : a.polls) (hq : q.select = true) : a.queues q := by
  cases a with
  | idle | busy => exact hq
  | missed c closed => exact .inr ⟨hq, h⟩
  | _ => exact h.elim

theorem enqueueAll_calls (k : Coid) (i : Nat) (cases : List Case) :
    (enqueueAll (selectQuanta k i cases)).Follows calls .queued fun b _ => b = .queued := by
  induction cases generalizing i with
  | nil => rfl
  | cons e es ih => exact ⟨rfl, fun _ _ => ih (i + 1)⟩

theorem dequeueAll_calls (active tag : Option ChanId) (r : Ret × Bool × Option Item)
    (qs : List (Quantum × Item)) :
    (dequeueAll active r qs).Follows calls (.chosen tag) fun b _ => b = .chosen tag := by
  induction qs generalizing r with
  | nil => rfl
  | cons p qs ih => exact ⟨.inr ⟨tag, rfl⟩, fun _ _ => ⟨⟨tag, rfl⟩, fun _ _ => ih _⟩⟩

theorem selectBlocked_calls (k : Coid) {cases : List Case} (chain : List ChanId) (hne : cases ≠ [])
    (h : a.polls) :
    (selectBlocked k cases chain).Follows calls a fun b res => b = .chosen res.2.1 := by
  obtain ⟨e, es, rfl⟩ := List.exists_cons_of_ne_nil hne
  refine ⟨.inl h, fun _ _ => ?_⟩
  refine ⟨Stage.queues_of_polls h rfl, fun _ _ => (enqueueAll_calls k 1 es).bind ?_⟩
  rintro b _ rfl
  refine ⟨.inr (.inl rfl), fun _ _ => (lockChainAcquire_calls chain).bind ?_⟩
  rintro b _ rfl
  refine ⟨rfl, fun tag _ => (dequeueAll_calls tag tag _ _).bind ?_⟩
  rintro b r rfl
  exact ⟨.inr ⟨tag, rfl⟩, fun _ _ => rfl⟩

theorem chanSetSelect_calls (k : Coid) (cases : List Case) (chain : List ChanId) (block : Bool) :
    (chanSetSelect k cases chain block).Follows calls .idle fun b _ => b = .idle := by
  unfold chanSetSelect
  split
  · exact ⟨trivial, fun _ _ => rfl⟩
  · next hempty =>
    have hne : cases ≠ [] := by
      rintro rfl
      exact hempty rfl
    have hlocked : (selectLocked k cases chain block).Follows calls .idle fun b res =>
        b.polls ∨ (block = true ∧ b = .chosen res.2.1) := by
      refine (pollCases_calls k .busy cases (a := .idle) trivial).bind ?_
      rintro b ⟨ret, active, got⟩ hb
      change Prog.Follows calls b (if (active.isNone && block) = true then _ else _) _
      split
      · next hblock =>
        refine (selectBlocked_calls k chain hne hb).mono fun b' res hres => .inr ⟨?_, hres⟩
        exact (Bool.and_eq_true_iff.mp hblock).2
      · exact .inl hb
    refine (lockChainAcquire_calls chain).bind ?_
    rintro b _ rfl
    refine hlocked.bind ?_
    rintro b ⟨ret, active, during, got⟩ hb
    refine (lockChainRelease_calls chain.reverse).bind ?_
    rintro b' _ rfl
    refine ⟨?_, fun _ _ => rfl⟩
    rcases hb with hb | ⟨hblock, rfl⟩
    · cases b' with
      | idle | busy => trivial
      | missed c closed =>
        cases closed with
        | none => exact absurd rfl hb
        | some b => trivial
      | _ => exact hb.elim
    · exact ⟨hne, hblock, rfl⟩

/-! ### The other operations -/

section Other
variable {A α : Type} {P : Protocol Cmd Cmd.Res A} {rest : A} {ρ : A → α → Prop}
  (hother : ∀ c : Cmd, c.other → P.ok rest c ∧ ∀ r, P.gets rest c r → P.next rest c r = rest)
include hother

theorem other_follows {p : RProg α} (hp : p.Issues Cmd.other (fun _ _ => True) fun _ => True) :
    p.Follows P rest fun b _ => b = rest := by
  refine (hp.follows fun c hc => ?_).mono fun b _ hb => hb.1
  exact ⟨(hother c hc).1, fun r hr => ⟨trivial, (hother c hc).2 r hr⟩⟩

theorem other_step {c : Cmd} (hc : c.other) {f : c.Res → RProg α}
    (hf : ∀ r, (f r).Follows P rest ρ) : Prog.Follows P rest (.cmd c f) ρ := by
  refine ⟨(hother c hc).1, fun r hr => ?_⟩
  rw [(hother c hc).2 r hr]
  exact hf r

variable (hsend : ∀ k c w, (sendTimer k c w).Follows P rest fun b _ => b = rest)
include hsend

theorem timerAt_follows (k : Coid) (c : ChanId) (w : UInt64) :
    (timerAt k c w).Follows P rest fun b _ => b = rest := by
  refine other_step hother (by trivial) fun _ => other_step hother (by trivial) fun (now : UInt64) => ?_
  change Prog.Follows P rest (if w ≤ now then _ else _) _
  split
  · exact hsend k c w
  · exact other_follows hother (addIntertimer_contains (fun _ h => h) (.chan c))

theorem fireDue_follows (k : Coid) (now : UInt64) :
    (fireDue k now).Follows P rest fun b _ => b = rest := by
  refine Prog.Follows.loop (other_step hother (by trivial) fun (size : Nat) => ?_) fun _ => rfl
  change Prog.Follows P rest (if size > 0 then _ else _) _
  split
  · refine other_step hother (by trivial) fun root => ?_
    obtain ⟨tm, w⟩ := root
    change Prog.Follows P rest (if w ≤ now then _ else _) _
    split
    · refine Prog.Follows.bind (p := timerFunc k tm w) (ρ := fun b _ => b = rest) ?_ ?_
      · cases tm with
        | chan c => exact hsend k c w
        | desc d => exact other_follows hother (netpollTimeout_contains (fun _ h => h) d)
      · rintro b _ rfl
        exact other_step hother (by trivial) fun _ => rfl
    · rfl
  · rfl

theorem intertimerRoutine_follows (k : Coid) :
    (intertimerRoutine k).Follows P rest fun b _ => b = rest := by
  refine Prog.Follows.loop (other_step hother (by trivial) fun _ => other_step hother (by trivial) fun now => ?_)
    fun _ => rfl
  refine Prog.Follows.bind (p := fireDue k now) (fireDue_follows hother hsend k now) ?_
  rintro b _ rfl
  refine other_step hother (by trivial) fun (size : Nat) => ?_
  change Prog.Follows P b (if size = 0 then _ else _) _
  split
  · exact other_step hother (by trivial) fun _ => other_step hother (by trivial) fun _ => rfl
  · refine other_step hother (by trivial) fun root => other_step hother (by trivial) fun _ =>
      other_step hother (by trivial) fun notify => ?_
    cases notify with
    | true => exact (other_follows hother (notifyTsleepU_contains (fun _ h => h) _)).bind fun _ _ hb => hb
    | false => exact other_step hother (by trivial) fun _ => rfl

/-- Every operation follows a protocol that is at rest outside the channels, given those on
    channels. -/
theorem body_follows {t : Tid} {a : Call} {s : State} (hok : okCall t a s)
    (hcall : ∀ k, t = .co k → match a with
      | .chanSend c x block => (chanSend k c x block).Follows P rest fun b _ => b = rest
      | .chanRecv c x block => (chanRecv k c x block).Follows P rest fun b _ => b = rest
      | .chanClose c => (chanClose c).Follows P rest fun b _ => b = rest
      | .select cases chain block =>
        (chanSetSelect k cases chain block).Follows P rest fun b _ => b = rest
      | _ => True) :
    (body t a).Follows P rest fun b _ => b = rest := by
  have hissues : ∀ {p : RProg Unit}, p.Issues Cmd.other (fun _ _ => True) (fun _ => True) →
      p.Follows P rest fun b _ => b = rest := other_follows hother
  cases t with
  | co k =>
    have hk := hcall k rfl
    cases a with
    | chanSend c x block => exact hk
    | chanRecv c x block => exact hk
    | chanClose c => exact hk
    | select cases chain block => exact hk
    | groupAddTask g => exact other_step hother (by trivial) fun _ => rfl
    | groupNotify g retval => exact hissues (groupNotify_contains (fun _ h => h) g retval)
    | groupSync g => exact hissues (groupSync_contains (fun _ h => h) g)
    | asyncRequestSubmit => exact hissues (asyncRequestSubmit_contains fun _ h => h)
    | timerAt c w => exact timerAt_follows hother hsend k c w
    | timerStop c => exact hissues (timerStop_contains (fun _ h => h) c)
    | netWait d mode => exact hok.elim
    | netTimedwait d mode usec => exact hok.elim
    | spawn priority =>
      exact (other_follows hother (coroutineAllocate_contains (fun _ h => h) priority .client)).bind
        fun _ _ hb => hb
    | yield => exact other_step hother (by trivial) fun _ => rfl
    | intertimerRoutine => exact intertimerRoutine_follows hother hsend k
    | asyncThreadRoutine => rfl
    | netpollWakeup d => rfl
  | async i => exact hissues (asyncThreadRoutine_contains fun _ h => h)
  | sched v =>
    cases a with
    | netpollWakeup d => exact hok.elim
    | _ => rfl
  | vpu k => rfl

end Other

theorem other_idle (c : Cmd) (hc : c.other) :
    calls.ok .idle c ∧ ∀ r, calls.gets .idle c r → calls.next .idle c r = .idle := by
  cases c with
  | chan c => exact hc.elim
  | co c =>
    cases c with
    | suspend ls => exact ⟨.inl rfl, fun _ _ => rfl⟩
    | ready d => exact ⟨trivial, fun _ _ => rfl⟩
    | _ => exact ⟨rfl, fun _ _ => rfl⟩
  | lock c => exact ⟨trivial, fun _ _ => rfl⟩
  | _ => exact ⟨rfl, fun _ _ => rfl⟩

/-- **Every operation goes through the stages.** -/
theorem body_calls {t : Tid} {op : Call} {s : State} (hok : okCall t op s) :
    (body t op).Follows calls .idle fun b _ => b = .idle := by
  apply body_follows other_idle (fun k c w => chanSend_calls k c w.toNat true) hok
  rintro k rfl
  cases op with
  | chanSend c x block => exact chanSend_calls k c x block
  | chanRecv c x block => exact chanRecv_calls k c x block
  | chanClose c => exact chanClose_calls c
  | select cases chain block => exact chanSetSelect_calls k cases chain block
  | _ => trivial

end Coroc.Runtime
