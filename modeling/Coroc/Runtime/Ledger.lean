import Coroc.Runtime.Records

/-!
# The books of a channel

Every item that goes through a channel is logged by the channel and by the coroutines at
its two ends.  The logs agree, and what is taken out is what was put in, in the same order
(`Reachable.books`): an item passed on directly finds the buffer empty, one from the buffer
is the oldest there.
-/

namespace Coroc.Runtime

open Coroc.Program Coroc.Transition

variable {s s' : State} {t : Tid} {j k : Coid} {c : ChanId} {q : Quantum}

/-- The buffer of a coroutine's own channel. -/
def Buffer.isMque : Buffer → Bool
  | mque _ => true
  | _ => false

theorem Buffer.isMque_copyToBuff {b b' : Buffer} {x : Item} (h : b.copyToBuff x = some b') :
    b'.isMque = b.isMque := by
  cases b with
  | none => cases h
  | ring r =>
    simp only [copyToBuff] at h
    split at h
    · cases h
      rfl
    · cases h
  | mque l =>
    cases h
    rfl

theorem Buffer.isMque_copyFromBuff {b b' : Buffer} {x : Item} (h : b.copyFromBuff = some (x, b')) :
    b'.isMque = b.isMque := by
  cases b with
  | none => cases h
  | ring r =>
    simp only [copyFromBuff] at h
    split at h
    · cases h
      rfl
    · cases h
  | mque l =>
    cases l with
    | nil => cases h
    | cons y l =>
      cases h
      rfl

theorem Buffer.isMque_cleanBuff (b : Buffer) : b.cleanBuff.isMque = b.isMque := by
  cases b <;> rfl

/-- The items a coroutine has moved, in the order in which it moved them. -/
def Co.log (co : Co) : List Xfer := co.history.flatMap Record.xfers ++ co.moved

/-- The items that went through `c` in one direction. -/
def items (dir : Dir) (c : ChanId) (l : List Xfer) : List Item :=
  (l.filter fun z => z.dir = dir ∧ z.chan = c).map Xfer.item

/-- What a coroutine has sent through a channel, and what it has been given. -/
def sentBy (j : Coid) (l : List (Coid × Item)) : List Item := (l.filter fun p => p.1 = j).map Prod.snd

def takenBy (k : Coid) (l : List (Coid × Coid × Item)) : List Item :=
  (l.filter fun p => p.2.1 = k).map fun p => p.2.2

/-- The books of the channel `c`: what was taken out of it is what was put in, in the same
    order, and what is left is in the buffer; both ends agree with the coroutines. -/
structure Ledger (s : State) (c : ChanId) : Prop where
  fifo : (s.chans c).sent = (s.chans c).taken.map (fun p => (p.1, p.2.2)) ++ (s.chans c).pending
  stored : (s.chans c).pending.map Prod.snd = (s.chans c).buffer.contents
  sent : ∀ j, sentBy j (s.chans c).sent = items .send c (s.cos j).log
  taken : ∀ k, takenBy k (s.chans c).taken = items .recv c (s.cos k).log

/-- The part of the books that a clean-up of the buffer keeps. -/
structure Entries (s : State) (c : ChanId) : Prop where
  stored : (s.chans c).pending.map Prod.snd = (s.chans c).buffer.contents
  sent : ∀ j, sentBy j (s.chans c).sent = items .send c (s.cos j).log
  taken : ∀ k, takenBy k (s.chans c).taken = items .recv c (s.cos k).log

theorem Ledger.entries (h : Ledger s c) : Entries s c := ⟨h.stored, h.sent, h.taken⟩

theorem Entries.ledger (h : Entries s c)
    (hfifo : (s.chans c).sent = (s.chans c).taken.map (fun p => (p.1, p.2.2)) ++ (s.chans c).pending) :
    Ledger s c :=
  ⟨hfifo, h.stored, h.sent, h.taken⟩

@[simp]
theorem items_append (dir : Dir) (c : ChanId) (l l' : List Xfer) :
    items dir c (l ++ l') = items dir c l ++ items dir c l' := by
  simp [items]

@[simp]
theorem sentBy_append (j : Coid) (l l' : List (Coid × Item)) :
    sentBy j (l ++ l') = sentBy j l ++ sentBy j l' := by
  simp [sentBy]

@[simp]
theorem takenBy_append (j : Coid) (l l' : List (Coid × Coid × Item)) :
    takenBy j (l ++ l') = takenBy j l ++ takenBy j l' := by
  simp [takenBy]

theorem items_eq_nil {dir : Dir} {c : ChanId} {l : List Xfer} (h : ∀ z ∈ l, z.chan ≠ c) :
    items dir c l = [] := by
  simp only [items, List.map_eq_nil_iff, List.filter_eq_nil_iff, decide_eq_true_eq]
  exact fun z hz hc => h z hz hc.2

theorem Co.log_record (co : Co) (e : Entry) : (co.record e).log = co.log := by
  simp [Co.log, Co.record]

theorem Co.log_of_same {co co' : Co} (h : co.Same co') : co'.log = co.log := by
  rw [Co.log, Co.log, h.history, h.moved]

/-- Items move through the channel `c`: `g` is what the channel records, `new` what the
    coroutines do. -/
structure Moves (s s' : State) (c : ChanId) (new : Coid → List Xfer) : Prop where
  others : ∀ c', c' ≠ c → s'.chans c' = s.chans c'
  log : ∀ j, (s'.cos j).log = (s.cos j).log ++ new j
  only : ∀ j, ∀ z ∈ new j, z.chan = c

/-- The channel itself, when `d` is put in and `e` is taken out. -/
structure Exchanged (s s' : State) (c : ChanId) (new : Coid → List Xfer) (d : List (Coid × Item))
    (e : List (Coid × Coid × Item)) : Prop extends Moves s s' c new where
  sent : (s'.chans c).sent = (s.chans c).sent ++ d
  taken : (s'.chans c).taken = (s.chans c).taken ++ e
  put : ∀ j, sentBy j d = items .send c (new j)
  got : ∀ k, takenBy k e = items .recv c (new k)
  pending : (s.chans c).pending ++ d = e.map (fun p => (p.1, p.2.2)) ++ (s'.chans c).pending
  stored : (s'.chans c).pending.map Prod.snd = (s'.chans c).buffer.contents

section
variable {new : Coid → List Xfer} {d : List (Coid × Item)} {e : List (Coid × Coid × Item)}

theorem Entries.moves (h : Entries s c) (hx : Exchanged s s' c new d e) : Entries s' c := by
  refine ⟨hx.stored, fun j => ?_, fun k => ?_⟩
  · rw [hx.sent, sentBy_append, h.sent, hx.put, hx.log, items_append]
  · rw [hx.taken, takenBy_append, h.taken, hx.got, hx.log, items_append]

theorem Ledger.moves (h : Ledger s c) (hx : Exchanged s s' c new d e) : Ledger s' c := by
  apply (h.entries.moves hx).ledger
  rw [hx.sent, hx.taken, h.fifo, List.map_append, List.append_assoc, List.append_assoc, hx.pending]

end

/-- An item goes from `j` to `k` through `c`, without the buffer. -/
def passed (c : ChanId) (j k : Coid) (x : Item) (i : Coid) : List Xfer :=
  (if i = j then [⟨.send, c, x⟩] else []) ++ if i = k then [⟨.recv, c, x⟩] else []

/-- `k` moves an item into or out of the buffer of `c`. -/
def oneMove (z : Xfer) (k i : Coid) : List Xfer := if i = k then [z] else []

theorem sentBy_one (j i : Coid) (x : Item) : sentBy i [(j, x)] = if i = j then [x] else [] := by
  by_cases h : i = j
  · simp [sentBy, h]
  · simp [sentBy, h, Ne.symm h]

theorem takenBy_one (j k i : Coid) (x : Item) :
    takenBy i [(j, k, x)] = if i = k then [x] else [] := by
  by_cases h : i = k
  · simp [takenBy, h]
  · simp [takenBy, h, Ne.symm h]

theorem items_one (dir dir' : Dir) (c : ChanId) (x : Item) :
    items dir c [⟨dir', c, x⟩] = if dir' = dir then [x] else [] := by
  by_cases h : dir' = dir
  · simp [items, h]
  · simp [items, h]

theorem items_if (dir dir' : Dir) (c : ChanId) (x : Item) (p : Prop) [Decidable p] :
    items dir c (if p then [⟨dir', c, x⟩] else []) = if p ∧ dir' = dir then [x] else [] := by
  by_cases hp : p
  · simp [hp, items_one]
  · simp [hp, items]

/-- What the two ends record of an item that is passed on. -/
theorem passed_spec (c : ChanId) (j k i : Coid) (x : Item) :
    sentBy i [(j, x)] = items .send c (passed c j k x i) ∧
      takenBy i [(j, k, x)] = items .recv c (passed c j k x i) := by
  unfold passed
  rw [items_append, items_append, items_if, items_if, items_if, items_if, sentBy_one, takenBy_one]
  simp

theorem passed_only {c : ChanId} {j k i : Coid} {x : Item} {z : Xfer} (hz : z ∈ passed c j k x i) :
    z.chan = c := by
  unfold passed at hz
  rcases List.mem_append.mp hz with hz | hz
  · split at hz
    · rw [List.mem_singleton.mp hz]
    · cases hz
  · split at hz
    · rw [List.mem_singleton.mp hz]
    · cases hz

/-- The claimed waiter has moved nothing yet. -/
theorem Holds.moved_nil (hi : Inv s) (h : Holds s k q) : (s.cos q.co).moved = [] ∧ q.co ≠ k := by
  obtain ⟨hwait, site, hw⟩ := h
  refine ⟨?_, fun he => ?_⟩
  · have hphase := (hi.co q.co).phase _ hw
    exact hphase.2.2.2.1.1
  · rw [he] at hw
    exact nomatch hwait.symm.trans hw

theorem Co.log_move (co : Co) (z : Xfer) : (co.move z).log = co.log ++ [z] := by
  simp [Co.log, Co.move]

theorem Co.log_receive {co : Co} (h : co.moved = []) (t : Tid) (q : Quantum) (x : Item) :
    (co.receive t q x).log = co.log ++ [⟨.recv, q.chan, x⟩] := by
  simp [Co.log, Co.receive, h]

theorem Co.log_give {co : Co} (h : co.moved = []) (t : Tid) (q : Quantum) (x : Item) :
    (co.give t q x).log = co.log ++ [⟨.send, q.chan, x⟩] := by
  simp [Co.log, Co.give, h]

/-- Two coroutines log their ends of an item. -/
theorem log_exchange {d : Coid} {g : Chan → Chan} {f f' : Co → Co} {z z' : Xfer} (hne : d ≠ k)
    (hf : (f (s.cos d)).log = (s.cos d).log ++ [z]) (hf' : (f' (s.cos k)).log = (s.cos k).log ++ [z'])
    (i : Coid) :
    ((((s.setChan c g).setCo d f).setCo k f').cos i).log =
      (s.cos i).log ++ ((if i = k then [z'] else []) ++ if i = d then [z] else []) := by
  by_cases hik : i = k
  · subst hik
    rw [State.setCo_cos_self, State.setCo_cos_ne _ _ (Ne.symm hne), if_pos rfl, if_neg (Ne.symm hne)]
    exact hf'.trans (by simp)
  · rw [State.setCo_cos_ne _ _ hik]
    by_cases hid : i = d
    · subst hid
      rw [State.setCo_cos_self, if_neg hik, if_pos rfl]
      exact hf.trans (by simp)
    · rw [State.setCo_cos_ne _ _ hid, if_neg hik, if_neg hid]
      simp

theorem copyTo_moves (hi : Inv s) (h : Holds s k q) (x : Item) :
    Moves s (s.copyTo k q x) q.chan (passed q.chan k q.co x) := by
  obtain ⟨hmoved, hne⟩ := h.moved_nil hi
  refine ⟨fun c' hc => s.setChan_chans_ne _ hc, fun i => ?_, fun _ _ => passed_only⟩
  exact log_exchange hne (Co.log_receive hmoved _ _ _) (Co.log_move _ _) i

theorem copyFrom_moves (hi : Inv s) (h : Holds s k q) (x : Item) :
    Moves s (s.copyFrom k q x) q.chan (passed q.chan q.co k x) := by
  obtain ⟨hmoved, hne⟩ := h.moved_nil hi
  refine ⟨fun c' hc => s.setChan_chans_ne _ hc, fun i => ?_, fun _ _ => passed_only⟩
  refine (log_exchange hne (Co.log_give hmoved _ _ _) (Co.log_move _ _) i).trans ?_
  -- the receiver is the one that runs
  unfold passed
  congr 1
  by_cases hik : i = k
  · rw [if_pos hik, if_neg fun hid => hne (hid.symm.trans hik)]
    rfl
  · rw [if_neg hik, List.nil_append, List.append_nil]

theorem exchange_ne {d : Coid} {g : Chan → Chan} {f f' : Co → Co} (hj : k ≠ j) (hd : k ≠ d) :
    (((s.setChan c g).setCo d f).setCo j f').cos k = s.cos k := by
  rw [State.setCo_cos_ne _ _ hj, State.setCo_cos_ne _ _ hd]
  rfl

theorem buffer_moves {g : Chan → Chan} {z : Xfer} (hz : z.chan = c) :
    Moves s ((s.setChan c g).setCo k (Co.move z)) c (oneMove z k) := by
  refine ⟨fun c' hc => s.setChan_chans_ne _ hc, fun i => ?_, fun i z' hz' => ?_⟩
  · unfold oneMove
    by_cases hik : i = k
    · subst hik
      rw [State.setCo_cos_self, if_pos rfl]
      exact Co.log_move _ _
    · rw [State.setCo_cos_ne _ _ hik, if_neg hik, List.append_nil]
      rfl
  · unfold oneMove at hz'
    split at hz'
    · rw [List.mem_singleton.mp hz']
      exact hz
    · cases hz'

/-- An item goes past an empty buffer. -/
theorem Entries.pass {j k : Coid} {x : Item} (h : Entries s c) (hm : Moves s s' c (passed c j k x))
    (hch : s'.chans c = (s.chans c).pass j k x) (hempty : (s.chans c).buffer.contents = []) :
    Exchanged s s' c (passed c j k x) [(j, x)] [(j, k, x)] := by
  have hpending : (s.chans c).pending = [] := by
    rw [← List.map_eq_nil_iff (f := Prod.snd), h.stored]
    exact hempty
  refine ⟨hm, by rw [hch]; rfl, by rw [hch]; rfl,
    fun i => (passed_spec c j k i x).1, fun i => (passed_spec c j k i x).2, ?_, ?_⟩
  · rw [hch, hpending]
    change [] ++ [(j, x)] = [(j, x)] ++ (s.chans c).pending
    rw [hpending]
    rfl
  · rw [hch]
    exact h.stored

theorem Entries.push {k : Coid} {x : Item} {b : Buffer} (h : Entries s c)
    (hm : Moves s s' c (oneMove ⟨.send, c, x⟩ k)) (hch : s'.chans c = (s.chans c).push k x b)
    (hb : (s.chans c).buffer.copyToBuff x = some b) :
    Exchanged s s' c (oneMove ⟨.send, c, x⟩ k) [(k, x)] [] := by
  refine ⟨hm, by rw [hch]; rfl, ?_, fun i => ?_, fun i => ?_, ?_, ?_⟩
  · rw [hch, List.append_nil]
    rfl
  · rw [sentBy_one, oneMove, items_if]
    simp
  · rw [oneMove, items_if]
    simp [takenBy]
  · rw [hch]
    rfl
  · rw [hch]
    change ((s.chans c).pending ++ [(k, x)]).map Prod.snd = b.contents
    rw [List.map_append, h.stored, Buffer.copyToBuff_contents hb]
    rfl

/-- The oldest pending item is the one at the head of the buffer. -/
theorem Entries.shift {k : Coid} {x : Item} {b : Buffer} (h : Entries s c)
    (hm : Moves s s' c (oneMove ⟨.recv, c, x⟩ k)) (hch : s'.chans c = (s.chans c).shift k b)
    (hb : (s.chans c).buffer.copyFromBuff = some (x, b)) :
    ∃ j, Exchanged s s' c (oneMove ⟨.recv, c, x⟩ k) [] [(j, k, x)] := by
  have hcons := h.stored
  rw [Buffer.copyFromBuff_contents hb] at hcons
  obtain ⟨p, rest, hp, hpx, hrest⟩ := List.map_eq_cons_iff.mp hcons
  obtain ⟨j, y⟩ := p
  obtain rfl : y = x := hpx
  refine ⟨j, hm, ?_, ?_, fun i => ?_, fun i => ?_, ?_, ?_⟩
  · rw [hch, List.append_nil]
    rfl
  · rw [hch]
    simp [Chan.shift, hp]
  · rw [oneMove, items_if]
    simp [sentBy]
  · rw [takenBy_one, oneMove, items_if]
    simp
  · rw [hch]
    simp [Chan.shift, hp]
  · rw [hch]
    simpa [Chan.shift, hp] using hrest

/-- The books of every channel that does not hold references. -/
def Books (s : State) : Prop := ∀ c, (s.chans c).isref = false → Ledger s c

/-- Nothing happens in the books of the channel `c`. -/
structure Unmoved (s s' : State) (c : ChanId) : Prop where
  same : (s.chans c).Same (s'.chans c)
  log : ∀ dir j, items dir c (s'.cos j).log = items dir c (s.cos j).log

theorem Unmoved.of_log (hch : (s.chans c).Same (s'.chans c))
    (hlog : ∀ j, (s'.cos j).log = (s.cos j).log) : Unmoved s s' c :=
  ⟨hch, fun dir j => by rw [hlog j]⟩

theorem Unmoved.of_kept (h : Kept s s') : Unmoved s s' c :=
  .of_log (h.chan c) fun j => Co.log_of_same (h.co j)

theorem Moves.other {new : Coid → List Xfer} {c' : ChanId} (hm : Moves s s' c new) (hc : c' ≠ c) :
    Unmoved s s' c' := by
  refine ⟨?_, fun dir j => ?_⟩
  · rw [hm.others c' hc]
    exact .refl _
  · have hnil : items dir c' (new j) = [] := items_eq_nil fun z hz he =>
      hc (he.symm.trans (hm.only j z hz))
    rw [hm.log, items_append, hnil, List.append_nil]

theorem Entries.kept (h : Entries s c) (hu : Unmoved s s' c) : Entries s' c := by
  constructor
  · rw [hu.same.pending, hu.same.buffer]
    exact h.stored
  · intro j
    rw [hu.same.sent, hu.log]
    exact h.sent j
  · intro j
    rw [hu.same.taken, hu.log]
    exact h.taken j

theorem Ledger.kept (h : Ledger s c) (hu : Unmoved s s' c) : Ledger s' c := by
  apply (h.entries.kept hu).ledger
  rw [hu.same.sent, hu.same.taken, hu.same.pending]
  exact h.fifo

/-- What one command does to the books of the channel `c`. -/
inductive Booked (cmd : Cmd) (s s' : State) (c : ChanId) : Prop
  | unmoved : Unmoved s s' c → Booked cmd s s' c
  | exchanged (new : Coid → List Xfer) (d : List (Coid × Item)) (e : List (Coid × Coid × Item)) :
      Exchanged s s' c new d e → Booked cmd s s' c
  | cleaned : cmd = .chan (.cleanBuff c) → (s.chans c).isref = true →
      s' = s.setChan c Chan.clean → Booked cmd s s' c

theorem Booked.one {cmd : Cmd} {c' : ChanId} {new : Coid → List Xfer} {d : List (Coid × Item)}
    {e : List (Coid × Coid × Item)} (hm : Moves s s' c' new)
    (hx : c' = c → Exchanged s s' c new d e) : Booked cmd s s' c := by
  by_cases hc : c' = c
  · exact .exchanged _ _ _ (hx hc)
  · exact .unmoved (hm.other (Ne.symm hc))

theorem execCo_unmoved {cmd : CoCmd} (heff : Effect t (.co cmd) s s') : Unmoved s s' c := by
  cases cmd with
  | suspend ls =>
    obtain ⟨k, -, rfl⟩ := heff
    exact .of_log (.refl _) (s.setCo_proj (f := Co.sleep) Co.log fun _ => rfl)
  | ready d =>
    obtain ⟨-, rfl⟩ := heff
    exact .of_log (.refl _) ((s.setStatus d .ready).setCo_proj (f := Co.wake) Co.log fun _ => rfl)
  | preempts d => exact .of_kept heff
  | yield => exact .of_kept heff
  | allocate priority role =>
    obtain rfl := heff
    exact .of_log (.refl _)
      ((s.setStatus s.fresh .wait).setCo_proj (f := Co.create t priority role) Co.log fun _ => rfl)

theorem execChan_booked {cmd : ChanCmd} (h : Entries s c) (hi : Inv s) (ha : AllowedChan t s cmd)
    (heff : Effect t (.chan cmd) s s') : Booked (.chan cmd) s s' c := by
  cases cmd with
  | copyTo q x =>
    obtain ⟨k, rfl, -, hholds, -, hempty, -⟩ := ha
    obtain ⟨k', hk, rfl⟩ := heff
    cases hk
    have hch : (s.copyTo k q x).chans q.chan = (s.chans q.chan).pass k q.co x :=
      s.setChan_chans_self q.chan _
    have hm := copyTo_moves hi hholds x
    refine .one (d := [(k, x)]) (e := [(k, q.co, x)]) hm ?_
    rintro rfl
    exact h.pass hm hch hempty
  | copyFrom q =>
    obtain ⟨k, rfl, -, hholds, -, hempty, -⟩ := ha
    obtain ⟨k', hk, rfl⟩ := heff
    cases hk
    generalize ((s.cos q.co).slots q.idx).item = x
    have hch : (s.copyFrom k q x).chans q.chan = (s.chans q.chan).pass q.co k x :=
      s.setChan_chans_self q.chan _
    have hm := copyFrom_moves hi hholds x
    refine .one (d := [(q.co, x)]) (e := [(q.co, k, x)]) hm ?_
    rintro rfl
    exact h.pass hm hch hempty
  | cleanBuff c' =>
    obtain ⟨k, rfl, -, -, hisref⟩ := ha
    obtain rfl := heff
    by_cases hc : c = c'
    · subst hc
      exact .cleaned rfl hisref rfl
    · refine .unmoved (.of_log ?_ fun _ => rfl)
      rw [State.setChan_chans_ne _ _ hc]
      exact .refl _
  | copyToBuff c' x =>
    rcases heff with rfl | ⟨k, b, -, hb, rfl⟩
    · exact .unmoved (.of_kept (.refl _))
    · have hch : (s.pushItem k c' x b).chans c' = (s.chans c').push k x b := s.setChan_chans_self c' _
      refine .one (d := [(k, x)]) (e := []) (buffer_moves rfl) ?_
      rintro rfl
      exact h.push (buffer_moves rfl) hch hb
  | copyFromBuff c' =>
    rcases heff with rfl | ⟨k, x, b, -, hb, rfl⟩
    · exact .unmoved (.of_kept (.refl _))
    · have hch : (s.popItem k c' x b).chans c' = (s.chans c').shift k b := s.setChan_chans_self c' _
      by_cases hc : c' = c
      · subst hc
        obtain ⟨j, hx⟩ := h.shift (buffer_moves rfl) hch hb
        exact .exchanged _ _ _ hx
      · exact .unmoved (Moves.other (buffer_moves rfl) (Ne.symm hc))
  | record e =>
    obtain ⟨k, -, rfl⟩ := heff
    exact .unmoved (.of_log (.refl _) (s.setCo_proj (f := Co.record e) Co.log fun co => co.log_record e))
  | _ => exact .unmoved (.of_kept heff)

theorem exec_booked {cmd : Cmd} {r : cmd.Res} (h : Entries s c) (hi : Inv s) (ha : Allowed t cmd s)
    (he : exec t cmd s = some (r, s')) : Booked cmd s s' c := by
  have heff := exec_effect he
  cases cmd with
  | co cmd => exact .unmoved (execCo_unmoved heff)
  | chan cmd => exact execChan_booked h hi ha heff
  | lock cmd | group cmd | async cmd | timer cmd | net cmd => exact .unmoved (.of_kept heff)

theorem env_unmoved {e : Env} (he : env e s = some s') : Unmoved s s' c := by
  rcases env_effect he with hk | ⟨k, -, rfl⟩
  · exact .of_kept hk
  · exact .of_log (.refl _) fun _ => rfl

/-- What a channel is made as. -/
def Chan.kind (ch : Chan) : Bool × Bool := (ch.isref, ch.buffer.isMque)

theorem Chan.Same.kind {ch ch' : Chan} (h : ch.Same ch') : ch'.kind = ch.kind := by
  rw [Chan.kind, Chan.kind, h.isref, h.buffer]

theorem setChan_kind {g : Chan → Chan} {c' : ChanId} (hg : (g (s.chans c')).kind = (s.chans c').kind)
    (c : ChanId) : ((s.setChan c' g).chans c).kind = (s.chans c).kind := by
  by_cases hc : c = c'
  · subst hc
    rw [State.setChan_chans_self]
    exact hg
  · rw [State.setChan_chans_ne _ _ hc]

theorem exec_kind {cmd : Cmd} {r : cmd.Res} (he : exec t cmd s = some (r, s')) (c : ChanId) :
    (s'.chans c).kind = (s.chans c).kind := by
  have heff := exec_effect he
  unfold Effect at heff
  split at heff
  · obtain ⟨k, -, rfl⟩ := heff
    rfl
  · obtain ⟨-, rfl⟩ := heff
    rfl
  · subst heff
    rfl
  · obtain ⟨k, -, rfl⟩ := heff
    exact setChan_kind (g := Chan.pass _ _ _) rfl c
  · obtain ⟨k, -, rfl⟩ := heff
    exact setChan_kind (g := Chan.pass _ _ _) rfl c
  · subst heff
    refine setChan_kind ?_ c
    exact congrArg (Prod.mk _) (Buffer.isMque_cleanBuff _)
  · rcases heff with rfl | ⟨k, b, -, hb, rfl⟩
    · rfl
    · refine setChan_kind (g := Chan.push k _ b) ?_ c
      exact congrArg (Prod.mk _) (Buffer.isMque_copyToBuff hb)
  · rcases heff with rfl | ⟨k, x, b, -, hb, rfl⟩
    · rfl
    · refine setChan_kind (g := Chan.shift k b) ?_ c
      exact congrArg (Prod.mk _) (Buffer.isMque_copyFromBuff hb)
  · obtain ⟨k, -, rfl⟩ := heff
    rfl
  · exact (heff.chan c).kind

theorem exec_isref {cmd : Cmd} {r : cmd.Res} (he : exec t cmd s = some (r, s')) (c : ChanId) :
    (s'.chans c).isref = (s.chans c).isref :=
  congrArg Prod.fst (exec_kind he c)

theorem Books.exec {cmd : Cmd} {r : cmd.Res} (h : Books s) (hi : Inv s) (ha : Allowed t cmd s)
    (he : exec t cmd s = some (r, s')) : Books s' := by
  intro c hc
  rw [exec_isref he] at hc
  have hl := h c hc
  rcases exec_booked hl.entries hi ha he with hu | ⟨new, d, e, hx⟩ | ⟨-, hisref, -⟩
  · exact hl.kept hu
  · exact hl.moves hx
  · exact nomatch hisref.symm.trans hc

theorem Ledger.start {c : Config} (h : Start c) (n : ChanId) : Ledger c.shared n := by
  have hn := h.chan n
  have hlog : ∀ j, (c.shared.cos j).log = [] := fun j => by
    rw [Co.log, (h.co j).history, (h.co j).moved]
    rfl
  constructor
  · rw [hn.sent, hn.taken, hn.pending]
    rfl
  · rw [hn.pending, hn.empty]
    rfl
  · intro j
    rw [hn.sent, hlog]
    rfl
  · intro j
    rw [hn.taken, hlog]
    rfl

theorem Reachable.books {c : Config} (h : Reachable c) : Books c.shared :=
  (Rules.invariant calls_sound (fun _ h => h.good) (fun _ _ _ _ => trivial) (fun _ h n _ => .start h n)
    (fun _ _ _ _ _ hi h ha _ he => h.exec hi ha he)
    (fun _ _ _ _ _ h he c hc =>
      (h c (((enter_kept he).chan c).isref.symm.trans hc)).kept (.of_kept (enter_kept he)))
    (fun _ _ _ _ h he c hc =>
      (h c ((env_unmoved he).same.isref.symm.trans hc)).kept (env_unmoved he)) h).2

/-! ### Channels of references -/

theorem Buffer.contents_drainRing (n : Nat) (r : Ring Item) (hn : r.nbuf ≤ n) :
    (drainRing n r).contents = [] := by
  have hempty : ∀ r : Ring Item, r.nbuf = 0 → r.contents = [] := fun r hr =>
    List.length_eq_zero_iff.mp (r.length_contents.trans hr)
  induction n generalizing r with
  | zero => exact hempty r (Nat.le_zero.mp hn)
  | succ n ih =>
    simp only [drainRing]
    split
    · rename_i hpos
      apply ih
      change r.nbuf - 1 ≤ n
      omega
    · rename_i hpos
      exact hempty r (Nat.eq_zero_of_not_pos hpos)

/-- `__coroc_clean_buff` empties a ring. -/
theorem Buffer.contents_cleanBuff {b : Buffer} (h : b.isMque = false) : b.cleanBuff.contents = [] := by
  cases b with
  | none => rfl
  | ring r => exact contents_drainRing r.nbuf r (Nat.le_refl _)
  | mque l => cases h

/-- The channels whose books a clean-up leaves in order. -/
def Chan.Cleanable (ch : Chan) : Prop := ch.isref = true → ch.buffer.isMque = false

theorem Chan.Cleanable.of_kind {ch ch' : Chan} (h : ch'.Cleanable) (hk : ch'.kind = ch.kind) :
    ch.Cleanable := by
  intro hisref
  have hsame : ch'.isref = ch.isref ∧ ch'.buffer.isMque = ch.buffer.isMque := by
    simpa [Chan.kind] using hk
  rw [← hsame.2]
  exact h (hsame.1.trans hisref)

theorem Entries.clean (h : Entries s c) (hc : (s.chans c).buffer.isMque = false) :
    Entries (s.setChan c Chan.clean) c := by
  constructor
  · rw [State.setChan_chans_self]
    exact (Buffer.contents_cleanBuff hc).symm
  · intro j
    rw [State.setChan_chans_self]
    exact h.sent j
  · intro j
    rw [State.setChan_chans_self]
    exact h.taken j

theorem Reachable.entries {c : Config} (h : Reachable c) :
    ∀ n, (c.shared.chans n).Cleanable → Entries c.shared n :=
  (Rules.invariant (J := fun s => ∀ n, (s.chans n).Cleanable → Entries s n)
    calls_sound (fun _ h => h.good) (fun _ _ _ _ => trivial)
    (fun _ h n _ => (Ledger.start h n).entries)
    (fun _ _ _ _ _ hi h ha _ he n hn => by
      have hold := hn.of_kind (exec_kind he n)
      rcases exec_booked (h n hold) hi ha he with hu | ⟨new, d, e, hx⟩ | ⟨-, hisref, rfl⟩
      · exact (h n hold).kept hu
      · exact (h n hold).moves hx
      · exact (h n hold).clean (hold hisref))
    (fun _ _ _ _ _ h he n hn =>
      (h n (hn.of_kind ((enter_kept he).chan n).kind)).kept (.of_kept (enter_kept he)))
    (fun _ _ _ _ h he n hn =>
      (h n (hn.of_kind (env_unmoved he).same.kind)).kept (env_unmoved he)) h).2

/-! ### One coroutine -/

/-- What one command does to the calls and items of the coroutine `j`: an item goes into a
    channel or comes out of it, at its own command or at that of the other end, or its call
    returns. -/
inductive Acted (t : Tid) (cmd : Cmd) (s s' : State) (j : Coid) : Prop
  | none : (s.cos j).Same (s'.cos j) → Acted t cmd s s' j
  | gives (n : ChanId) (x : Item) : (s.cos j).moved = [] → (s'.cos j).moved = [⟨.send, n, x⟩] →
      (s'.cos j).history = (s.cos j).history →
      ((t = .co j ∧ (cmd = .chan (.copyToBuff n x) ∨ ∃ q, cmd = .chan (.copyTo q x) ∧ q.chan = n)) ∨
        ∃ q k, cmd = .chan (.copyFrom q) ∧ Holds s k q ∧ q.dir = .send ∧ q.co = j ∧ q.chan = n ∧
          ((s.cos j).slots q.idx).item = x) → Acted t cmd s s' j
  | takes (n : ChanId) (x : Item) : (s.cos j).moved = [] → (s'.cos j).moved = [⟨.recv, n, x⟩] →
      (s'.cos j).history = (s.cos j).history →
      ((t = .co j ∧ (cmd = .chan (.copyFromBuff n) ∨ ∃ q, cmd = .chan (.copyFrom q))) ∨
        ∃ q k y, cmd = .chan (.copyTo q y) ∧ Holds s k q ∧ q.dir = .recv ∧ q.co = j) →
      Acted t cmd s s' j
  | records (e : Entry) : t = .co j → cmd = .chan (.record e) →
      s'.cos j = (s.cos j).record e → Acted t cmd s s' j

theorem Acted.move {cmd : Cmd} {g : Chan → Chan} {z : Xfer} {j k : Coid} (hne : j ≠ k) :
    Acted t cmd s ((s.setChan c g).setCo k (Co.move z)) j := by
  apply Acted.none
  rw [State.setCo_cos_ne _ _ hne]
  exact .refl _

theorem exec_acted {cmd : Cmd} {r : cmd.Res} (hi : Inv s) (ha : Allowed t cmd s)
    (he : exec t cmd s = some (r, s')) (j : Coid) : Acted t cmd s s' j := by
  have heff := exec_effect he
  unfold Effect at heff
  split at heff
  · obtain ⟨k, -, rfl⟩ := heff
    exact .none ⟨s.setCo_proj (f := Co.sleep) Co.moved (fun _ => rfl) j,
      s.setCo_proj (f := Co.sleep) Co.history (fun _ => rfl) j⟩
  · obtain ⟨-, rfl⟩ := heff
    exact .none ⟨State.setCo_proj _ (f := Co.wake) Co.moved (fun _ => rfl) j,
      State.setCo_proj _ (f := Co.wake) Co.history (fun _ => rfl) j⟩
  · subst heff
    exact .none ⟨State.setCo_proj _ (f := Co.create _ _ _) Co.moved (fun _ => rfl) j,
      State.setCo_proj _ (f := Co.create _ _ _) Co.history (fun _ => rfl) j⟩
  · rename_i q x
    obtain ⟨k, rfl, hmoved, hholds, hdir, -⟩ := ha
    obtain ⟨_, hk, rfl⟩ := heff
    cases hk
    obtain ⟨hq, hne⟩ := hholds.moved_nil hi
    by_cases hjk : j = k
    · subst hjk
      have hco : (s.copyTo j q x).cos j = (s.cos j).move ⟨.send, q.chan, x⟩ := by
        unfold State.copyTo
        rw [State.setCo_cos_self, State.setCo_cos_ne _ _ (Ne.symm hne)]
        rfl
      refine .gives q.chan x hmoved ?_ ?_ (.inl ⟨rfl, .inr ⟨q, rfl, rfl⟩⟩)
      · rw [hco]
        simp [Co.move, hmoved]
      · rw [hco]
        rfl
    · by_cases hjq : j = q.co
      · subst hjq
        have hco : (s.copyTo k q x).cos q.co = (s.cos q.co).receive (.co k) q x := by
          unfold State.copyTo
          rw [State.setCo_cos_ne _ _ hjk, State.setCo_cos_self]
          rfl
        refine .takes q.chan x hq ?_ ?_ (.inr ⟨q, k, x, rfl, hholds, hdir, rfl⟩)
        · rw [hco]
          rfl
        · rw [hco]
          rfl
      · apply Acted.none
        unfold State.copyTo
        rw [exchange_ne hjk hjq]
        exact .refl _
  · rename_i q
    obtain ⟨k, rfl, hmoved, hholds, hdir, -⟩ := ha
    obtain ⟨_, hk, rfl⟩ := heff
    cases hk
    obtain ⟨hq, hne⟩ := hholds.moved_nil hi
    generalize hx : ((s.cos q.co).slots q.idx).item = x
    by_cases hjk : j = k
    · subst hjk
      have hco : (s.copyFrom j q x).cos j = (s.cos j).move ⟨.recv, q.chan, x⟩ := by
        unfold State.copyFrom
        rw [State.setCo_cos_self, State.setCo_cos_ne _ _ (Ne.symm hne)]
        rfl
      refine .takes q.chan x hmoved ?_ ?_ (.inl ⟨rfl, .inr ⟨q, rfl⟩⟩)
      · rw [hco]
        simp [Co.move, hmoved]
      · rw [hco]
        rfl
    · by_cases hjq : j = q.co
      · subst hjq
        have hco : (s.copyFrom k q x).cos q.co = (s.cos q.co).give (.co k) q x := by
          unfold State.copyFrom
          rw [State.setCo_cos_ne _ _ hjk, State.setCo_cos_self]
          rfl
        refine .gives q.chan x hq ?_ ?_ (.inr ⟨q, k, rfl, hholds, hdir, rfl, rfl, hx⟩)
        · rw [hco]
          rfl
        · rw [hco]
          rfl
      · apply Acted.none
        unfold State.copyFrom
        rw [exchange_ne hjk hjq]
        exact .refl _
  · subst heff
    exact .none (.refl _)
  · rename_i n x
    obtain ⟨k, rfl, hmoved, -⟩ := ha
    rcases heff with rfl | ⟨_, b, hk, -, rfl⟩
    · exact .none (.refl _)
    · cases hk
      by_cases hjk : j = k
      · subst hjk
        have hco : (s.pushItem j n x b).cos j = (s.cos j).move ⟨.send, n, x⟩ :=
          State.setCo_cos_self _ _ _
        refine .gives n x hmoved ?_ ?_ (.inl ⟨rfl, .inl rfl⟩)
        · rw [hco]
          simp [Co.move, hmoved]
        · rw [hco]
          rfl
      · exact .move hjk
  · rename_i n
    obtain ⟨k, rfl, hmoved, -⟩ := ha
    rcases heff with rfl | ⟨_, x, b, hk, -, rfl⟩
    · exact .none (.refl _)
    · cases hk
      by_cases hjk : j = k
      · subst hjk
        have hco : (s.popItem j n x b).cos j = (s.cos j).move ⟨.recv, n, x⟩ :=
          State.setCo_cos_self _ _ _
        refine .takes n x hmoved ?_ ?_ (.inl ⟨rfl, .inl rfl⟩)
        · rw [hco]
          simp [Co.move, hmoved]
        · rw [hco]
          rfl
      · exact .move hjk
  · rename_i e
    obtain ⟨k, rfl, rfl⟩ := heff
    by_cases hjk : j = k
    · subst hjk
      exact .records e rfl rfl (State.setCo_cos_self _ _ _)
    · apply Acted.none
      rw [State.setCo_cos_ne _ _ hjk]
      exact .refl _
  · exact .none (heff.co j)

/-! ### Conservation -/

/-- What a send that has returned says about its item. -/
theorem Reachable.send_moves {c : Config} (h : Reachable c) {r : Record} {n : ChanId} {x : Item}
    {block : Bool} {ret : Ret} (hr : r ∈ (c.shared.cos j).history)
    (he : r.entry = .send n x block ret) :
    (ret = .success ∨ ret = .awaken → r.xfers = [⟨.send, n, x⟩]) ∧
      (ret = .busy ∨ ret = .closed → r.xfers = []) := by
  have hok := h.recorded j r hr
  simp only [Record.Ok, he] at hok
  rcases hok with ⟨hret, hx⟩ | ⟨hret, hx, -⟩
  · refine ⟨fun _ => hx, fun hn => ?_⟩
    rcases hret with rfl | rfl <;> rcases hn with hn | hn <;> cases hn
  · refine ⟨fun hn => ?_, fun _ => hx⟩
    rcases hret with rfl | rfl <;> rcases hn with hn | hn <;> cases hn

/-- The items of one sender, taken out. -/
def takenFrom (j : Coid) (l : List (Coid × Coid × Item)) : List Item :=
  (l.filter fun p => p.1 = j).map fun p => p.2.2

theorem takenFrom_eq (j : Coid) (l : List (Coid × Coid × Item)) :
    takenFrom j l = sentBy j (l.map fun p => (p.1, p.2.2)) := by
  simp only [takenFrom, sentBy, List.filter_map, List.map_map]
  rfl

/-! ### What the receivers have in their buffers -/

/-- The item of the channel `n` that a returned call has left in its caller's buffer. -/
def Entry.received (n : ChanId) : Entry → List Item
  | .recv c _ _ got => if c = n then got.toList else []
  | .select _ _ _ active _ got => if active = some n then got.toList else []
  | .send _ _ _ _ | .close _ _ => []

/-- The items of the channel `n` that the returned calls of a coroutine have given it. -/
def Co.received (n : ChanId) (co : Co) : List Item := co.history.flatMap fun r => r.entry.received n

theorem Record.Ok.received {r : Record} (h : r.Ok) (n : ChanId) :
    items .recv n r.xfers = r.entry.received n := by
  unfold Record.Ok at h
  split at h
  · rename_i he
    rw [he]
    rcases h with ⟨-, hx⟩ | ⟨-, hx, -⟩ <;> rw [hx] <;> rfl
  · rename_i m block ret got he
    rw [he, h.1]
    cases got with
    | none => simp [items, recvXfers, Entry.received]
    | some y => by_cases hm : m = n <;> simp [items, recvXfers, Entry.received, hm]
  · rename_i he
    rw [he]
    rcases h with ⟨-, -, rfl, hx, -⟩ | ⟨-, e, -, rfl, y, -, hx, rfl⟩ | ⟨-, -, -, hx, rfl, -⟩ |
      ⟨-, -, rfl, hx, -⟩
    · rw [hx]
      rfl
    · obtain ⟨dir, m, x⟩ := e
      rw [hx]
      cases dir <;> by_cases hm : m = n <;> simp [items, Entry.received, Dir.got, hm]
    · rw [hx]
      simp [items, Entry.received]
    · rw [hx]
      rfl
  · rename_i he
    rw [he, h.2]
    rfl

/-- **What a coroutine has been given is what its calls have returned to it**, but for an item
    of a call that has not returned yet. -/
theorem Reachable.received {c : Config} (h : Reachable c) (k : Coid) (n : ChanId) :
    items .recv n (c.shared.cos k).log =
      (c.shared.cos k).received n ++ items .recv n (c.shared.cos k).moved := by
  rw [Co.log, items_append]
  congr 1
  have hok := h.recorded k
  unfold Co.received
  generalize (c.shared.cos k).history = l at hok
  induction l with
  | nil => rfl
  | cons r rs ih =>
    rw [List.flatMap_cons, List.flatMap_cons, items_append,
      (hok r List.mem_cons_self).received n, ih fun r' hr' => hok r' (List.mem_cons_of_mem _ hr')]

/-- A call moves at most one item. -/
theorem Reachable.moved_le_one {c : Config} (h : Reachable c) :
    ∀ k, (c.shared.cos k).moved.length ≤ 1 :=
  (Rules.invariant (J := fun s => ∀ k, (s.cos k).moved.length ≤ 1) calls_sound (fun _ h => h.good)
    (fun _ _ _ _ => trivial) (fun _ h k => by rw [(h.co k).moved]; exact Nat.zero_le 1)
    (fun _ _ _ _ _ hi h ha _ he k => by
      cases exec_acted hi ha he k with
      | none hsame =>
        rw [hsame.moved]
        exact h k
      | gives n x _ hnew _ _ | takes n x _ hnew _ _ => exact Nat.le_of_eq (congrArg _ hnew)
      | records e _ _ hnew =>
        rw [hnew]
        exact Nat.zero_le 1)
    (fun _ _ _ _ _ h he k => by
      rw [((enter_kept he).co k).moved]
      exact h k)
    (fun _ _ _ _ h he k => by
      rw [(env_co he k).moved]
      exact h k) h).2

/-- What a select that has returned says about its cases. -/
theorem Reachable.select_moves {c : Config} (h : Reachable c) {r : Record} {cases : List Case}
    {block : Bool} {ret : Ret} {active : Option ChanId} {during : Bool} {got : Option Item}
    (hr : r ∈ (c.shared.cos j).history) (he : r.entry = .select cases block ret active during got) :
    (ret = .success → ∃ e ∈ cases, active = some e.chan ∧ ∃ y, (e.dir = .send → y = e.item) ∧
      r.xfers = [⟨e.dir, e.chan, y⟩] ∧ got = e.dir.got y) ∧
    (ret ≠ .success → r.xfers = [] ∧ got = none) := by
  have hok := h.recorded j r hr
  simp only [Record.Ok, he] at hok
  rcases hok with ⟨-, hret, -, hx, hgot⟩ | ⟨hret, hcase⟩ | ⟨-, hret, -, hx, hgot, -⟩ |
    ⟨-, hret, -, hx, hgot⟩
  · exact ⟨fun hs => absurd (hret.symm.trans hs) (by decide), fun _ => ⟨hx, hgot⟩⟩
  · exact ⟨fun _ => hcase, fun hs => absurd hret hs⟩
  · exact ⟨fun hs => absurd (hret.symm.trans hs) (by decide), fun _ => ⟨hx, hgot⟩⟩
  · constructor
    · intro hs
      rcases hret with hret | hret <;> exact absurd (hret.symm.trans hs) (by decide)
    · exact fun _ => ⟨hx, hgot⟩

/-- **Conservation and order of a channel** that does not hold references.  What has been
    sent is what the senders have committed, each in its own order; it is what the receivers
    have been given together with what is in the buffer, and the items of one sender come out
    in the order in which it sent them.  What a receiver has been given is what its receives and
    selects have left in its buffers, and at most one more while a call is under way.  A send
    that fails contributes nothing. -/
theorem Reachable.conservation {c : Config} (h : Reachable c) (n : ChanId)
    (hisref : (c.shared.chans n).isref = false) :
    (((c.shared.chans n).sent.map Prod.snd).Perm
      ((c.shared.chans n).taken.map (fun p => p.2.2) ++ (c.shared.chans n).buffer.contents)) ∧
    (∀ j, sentBy j (c.shared.chans n).sent = items .send n (c.shared.cos j).log) ∧
    (∀ k, takenBy k (c.shared.chans n).taken = items .recv n (c.shared.cos k).log) ∧
    (∀ k, items .recv n (c.shared.cos k).log =
        (c.shared.cos k).received n ++ items .recv n (c.shared.cos k).moved ∧
      (c.shared.cos k).moved.length ≤ 1 ∧
      (c.prog (.co k) = .ret () → (c.shared.cos k).moved = [])) ∧
    (∀ j, ∀ r ∈ (c.shared.cos j).history, ∀ x block ret, r.entry = .send n x block ret →
      (ret = .success ∨ ret = .awaken → r.xfers = [⟨.send, n, x⟩]) ∧
      (ret = .busy ∨ ret = .closed → r.xfers = [])) ∧
    (∀ j, ∀ r ∈ (c.shared.cos j).history, ∀ cases block ret active during got,
      r.entry = .select cases block ret active during got →
      (ret = .success → ∃ e ∈ cases, active = some e.chan ∧ ∃ y, (e.dir = .send → y = e.item) ∧
        r.xfers = [⟨e.dir, e.chan, y⟩] ∧ got = e.dir.got y) ∧
      (ret ≠ .success → r.xfers = [] ∧ got = none)) ∧
    ∀ j, takenFrom j (c.shared.chans n).taken <+: items .send n (c.shared.cos j).log := by
  have hl := h.books n hisref
  refine ⟨?_, hl.sent, hl.taken, fun k => ⟨h.received k n, h.moved_le_one k, h.moved_nil⟩,
    fun j r hr x block ret he => h.send_moves hr he,
    fun j r hr cases block ret active during got he => h.select_moves hr he, fun j => ?_⟩
  · have hitems := congrArg (List.map Prod.snd) hl.fifo
    rw [List.map_append, List.map_map, hl.stored] at hitems
    rw [hitems]
    exact .refl _
  · rw [← hl.sent, hl.fifo, sentBy_append, takenFrom_eq]
    exact List.prefix_append _ _

/-- An item sent through the channel 1 to a select. -/
theorem conservation_served : ∃ c : Config, Reachable c ∧ (c.shared.chans 1).sent = [(1, 7)] ∧
    takenFrom 1 (c.shared.chans 1).taken = [7] ∧
    (c.shared.cos 0).received 1 = [7] ∧
    takenFrom 1 (c.shared.chans 1).taken <+: items .send 1 (c.shared.cos 1).log := by
  obtain ⟨c, hc, hP⟩ := Reachable.of_run 2 someBuffers someBuffers_empty selectServed
    (fun c => (c.shared.chans 1).sent == [(1, 7)] && takenFrom 1 (c.shared.chans 1).taken == [7] &&
      (c.shared.cos 0).received 1 == [7] && !(c.shared.chans 1).isref) (by decide +kernel)
  simp only [Bool.and_eq_true, beq_iff_eq, Bool.not_eq_true'] at hP
  exact ⟨c, hc, hP.1.1.1, hP.1.1.2, hP.1.2, (hc.conservation 1 hP.2).2.2.2.2.2.2 1⟩

end Coroc.Runtime
