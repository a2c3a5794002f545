import Coroc.Runtime.CloseWakes

/-!
# What a closed channel keeps

Nobody puts an item into a closed channel, and as long as no select queues a quantum on it nobody
takes one past the buffer: the items come out in the order in which they went in, to the calls
that find them there (`Keeps`).

`LateCall` follows one call that begins after the mark is set: a receive has the next item or
finds the buffer empty and returns `CHAN_CLOSED`, and a second close only reads the mark.
-/

namespace Coroc.Runtime

open Coroc.Program Coroc.Transition

variable {s₀ s s' : State} {t : Tid} {auto : Tid → Stage} {j k : Coid} {n : ChanId} {q : Quantum}
  {cmd : Cmd} {r : cmd.Res}

/-- A quantum is queued on the channel `n`. -/
def queuesOn (n : ChanId) : Cmd → Bool
  | .chan (.queueAdd q _) => q.chan = n
  | _ => false

def NotQueued (n : ChanId) (_ : Tid) (cmd : Cmd) (_ : State) : Prop := queuesOn n cmd = false

instance (n : ChanId) (t : Tid) (cmd : Cmd) (s : State) : Decidable (NotQueued n t cmd s) :=
  inferInstanceAs (Decidable (_ = _))

/-- The configurations reached from `c₁` while no quantum is queued on the channel `n`. -/
def QuietFrom (n : ChanId) (c₁ : Config) : Config → Prop :=
  Reach machine.step (stepOk (NotQueued n) okCall) fun c => c = c₁

theorem QuietFrom.reachableFrom {c₁ c : Config} (h : QuietFrom n c₁ c) : ReachableFrom c₁ c :=
  h.mono fun s l hl => by
    cases l with
    | run t => exact fun _ _ => trivial
    | call t op => exact hl
    | env e => trivial

/-! ### The items -/

/-- The channel `n` is closed, holds no references, and has no waiters once its closer is done. -/
structure ClosedAt (n : ChanId) (s : State) : Prop where
  close : (s.chans n).close = true
  plain : (s.chans n).isref = false
  shut : ShutAt s n

/-- One command takes the first item out of the buffer, or leaves the items as they are. -/
theorem ClosedAt.items (h : ClosedAt n s) (hi : Inv s) (ha : Allowed t cmd s)
    (he : exec t cmd s = some (r, s')) :
    (s.chans n).Same (s'.chans n) ∨ ∃ k x b, t = .co k ∧ cmd = .chan (.copyFromBuff n) ∧
      (s.chans n).buffer.copyFromBuff = some (x, b) ∧ s' = s.popItem k n x b := by
  have htaken : ∀ k q, Holds s k q → q.chan = n → (s.chans n).draining = true := by
    intro k q hholds hq
    obtain ⟨site, hw⟩ := hholds.taken
    exact h.shut.taken _ site _ q hw hq h.close
  rcases exec_items hi ha h.close htaken he with hsame | rfl | htake
  · exact .inl hsame
  · obtain ⟨_, -, -, -, hisref⟩ := ha
    exact nomatch h.plain.symm.trans hisref
  · exact .inr htake

/-- An empty buffer stays empty. -/
theorem ClosedAt.empty (h : ClosedAt n s) (hi : Inv s) (ha : Allowed t cmd s)
    (he : exec t cmd s = some (r, s')) (hempty : (s.chans n).buffer.contents = []) :
    (s'.chans n).buffer.contents = [] := by
  rcases h.items hi ha he with hsame | ⟨k, x, b, -, -, hbuf, -⟩
  · rw [hsame.buffer]
    exact hempty
  · rw [Buffer.copyFromBuff_contents hbuf] at hempty
    cases hempty

theorem ClosedAt.exec (h : ClosedAt n s) (hi : Inv s) (ha : Allowed t cmd s) (hok : NotQueued n t cmd s)
    (he : exec t cmd s = some (r, s')) : ClosedAt n s' := by
  refine ⟨exec_close hi ha he h.close, (exec_isref he n).trans h.plain, h.shut.exec hi ha ?_ he⟩
  rintro q x rfl hq
  exact nomatch hok.symm.trans (decide_eq_true hq)

theorem ClosedAt.congr (h : ClosedAt n s) (hcos : s'.cos = s.cos) (hchans : s'.chans = s.chans) :
    ClosedAt n s' :=
  ⟨hchans ▸ h.close, hchans ▸ h.plain, h.shut.congr hcos hchans⟩

/-- Since the state `s₀` nothing has been put into the channel, and what has been taken out of it
    were the first of its items. -/
structure Keeps (n : ChanId) (s₀ s : State) : Prop where
  sent : (s.chans n).sent = (s₀.chans n).sent
  taken : ∃ l, (s.chans n).taken = (s₀.chans n).taken ++ l ∧
    l.map (fun p => p.2.2) ++ (s.chans n).buffer.contents = (s₀.chans n).buffer.contents

theorem Keeps.same {s₁ : State} (h : Keeps n s₀ s) (hs : (s.chans n).Same (s₁.chans n)) : Keeps n s₀ s₁ := by
  obtain ⟨hsent, l, htaken, hitems⟩ := h
  refine ⟨hs.sent.trans hsent, l, hs.taken.trans htaken, ?_⟩
  rw [hs.buffer]
  exact hitems

theorem Keeps.exec (h : Keeps n s₀ s) (hc : ClosedAt n s) (hb : Books s) (hi : Inv s) (ha : Allowed t cmd s)
    (he : exec t cmd s = some (r, s')) : Keeps n s₀ s' := by
  rcases hc.items hi ha he with hsame | ⟨k, x, b, rfl, rfl, hbuf, rfl⟩
  · exact h.same hsame
  · obtain ⟨hsent, l, htaken, hitems⟩ := h
    have hch : (s.popItem k n x b).chans n = (s.chans n).shift k b := State.setChan_chans_self _ _ _
    have hm : Moves s (s.popItem k n x b) n (oneMove ⟨.recv, n, x⟩ k) := buffer_moves rfl
    obtain ⟨j, hx⟩ := (hb n hc.plain).entries.shift hm hch hbuf
    refine ⟨?_, l ++ [(j, k, x)], ?_, ?_⟩
    · rw [hx.sent, List.append_nil, hsent]
    · rw [hx.taken, htaken, List.append_assoc]
    · rw [hch, ← hitems, Buffer.copyFromBuff_contents hbuf, List.map_append, List.append_assoc]
      rfl

/-- **The items of a closed channel come out in order.** -/
theorem keeps_from {c₁ c : Config} (h₁ : Reachable c₁) (hc₁ : ClosedAt n c₁.shared) (h : QuietFrom n c₁ c) :
    ClosedAt n c.shared ∧ Keeps n c₁.shared c.shared := by
  have hJ : ∀ c', c' = c₁ → Books c'.shared ∧ ClosedAt n c'.shared ∧ Keeps n c₁.shared c'.shared := by
    rintro _ rfl
    exact ⟨h₁.books, hc₁, rfl, [], (List.append_nil _).symm, rfl⟩
  have hall := Rules.invariant (J := fun s => Books s ∧ ClosedAt n s ∧ Keeps n c₁.shared s)
    calls_sound (by rintro _ rfl; exact h₁.good) (fun _ _ _ _ => trivial) hJ ?_ ?_ ?_ h
  · exact hall.2.2
  · rintro t cmd s r s' hi ⟨hb, hc, hk⟩ ha hok he
    exact ⟨hb.exec hi ha he, hc.exec hi ha hok he, hk.exec hc hb hi ha he⟩
  · rintro t op s s' - ⟨hb, hc, hk⟩ he
    have hkept := enter_kept he
    obtain ⟨-, -, hchans, -, hcos⟩ := enter_spared he
    refine ⟨fun m hm => ?_, hc.congr hcos hchans, hk.same (hkept.chan n)⟩
    exact (hb m ((hkept.chan m).isref.symm.trans hm)).kept (.of_kept hkept)
  · rintro e s s' - ⟨hb, hc, hk⟩ he
    have hunmoved : ∀ m, Unmoved s s' m := fun m => env_unmoved he
    refine ⟨fun m hm => ?_, hc.congr (env_same he).1 (env_same he).2.1, hk.same (hunmoved n).same⟩
    exact (hb m ((hunmoved m).same.isref.symm.trans hm)).kept (hunmoved m)

end Coroc.Runtime
