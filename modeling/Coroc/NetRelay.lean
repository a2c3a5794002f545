import Coroc.NetCalls

/-!
# Streams arrive intact

* `stream_intact`: what the calls of a reader have returned is, in order, what the calls of the writer at
  the other end were given, also through proxies.  A call that fails may lose bytes; when none has failed
  the reader has a prefix, and at the end of the stream everything.
* `messages_framed`: when both sides use messages of one length, each read returns one message.
-/

namespace Coroc.NetStream

open Coroc.Program Coroc.Transition

variable {W : Wiring} {s : State} {c : Config} {a b fd : Fd} {hops : List (Fd × Fd)} {n : Nat}

/-- The stream sent on `a` comes in on `b`, over the proxies `hops`. -/
inductive Flows (W : Wiring) (a : Fd) : Fd → List (Fd × Fd) → Prop where
  | link {b : Fd} : W.peer b = some a → Flows W a b []
  | via {b r w : Fd} {hops : List (Fd × Fd)} :
      Flows W a r hops → W.relay r = some w → W.peer b = some w → Flows W a b (hops ++ [(r, w)])

/-- No system call of these proxies has failed. -/
def Unbroken (hops : List (Fd × Fd)) (s : State) : Prop :=
  ∀ p ∈ hops, (s.inc p.1).failed = false ∧ (s.out p.2).failed = false

/-- These proxies have come to their end. -/
def AllShut (hops : List (Fd × Fd)) (s : State) : Prop := ∀ p ∈ hops, (s.out p.2).shut = true

theorem Inv.received_prefix (hi : Inv W s) (h : W.peer b = some a) : (s.inc b).received <+: (s.out a).sent :=
  (List.prefix_append _ _).trans (hi.arrived b a h)

/-- Over any number of proxies nothing is reordered or repeated. -/
theorem Flows.order (h : Flows W a b hops) (hi : Inv W s) : (s.inc b).received.Sublist (s.out a).sent := by
  induction h with
  | link hpeer => exact (hi.received_prefix hpeer).sublist
  | via _ hrelay hpeer ih =>
    apply (hi.received_prefix hpeer).sublist.trans
    exact (hi.relayed _ _ hrelay).sent.order.trans ih

/-- Unless a call fails, nothing is left out. -/
theorem Flows.exact (h : Flows W a b hops) (hi : Inv W s) (hunbroken : Unbroken hops s) :
    (s.inc b).received <+: (s.out a).sent := by
  induction h with
  | link hpeer => exact hi.received_prefix hpeer
  | @via b r w hops _ hrelay hpeer ih =>
    have hlast := hunbroken (r, w) (List.mem_append_right _ (List.mem_singleton_self _))
    apply (hi.received_prefix hpeer).trans
    apply ((hi.relayed r w hrelay).sent.exact hlast).trans
    exact ih fun p hp => hunbroken p (List.mem_append_left _ hp)

/-- The end of the stream is only seen when everything has come through. -/
theorem Flows.complete (h : Flows W a b hops) (hi : Inv W s) (hunbroken : Unbroken hops s) (hshut : AllShut hops s)
    (hend : (s.inc b).AtEnd) : (s.inc b).received = (s.out a).sent ∧ ((s.out a).shut || s.closed a) = true := by
  have hlink {a b : Fd} (hpeer : W.peer b = some a) (hend : (s.inc b).AtEnd) :
      (s.inc b).received = (s.out a).sent ∧ ((s.out a).shut || s.closed a) = true := by
    obtain ⟨hdone, heq⟩ := hi.fin b a hpeer hend.1
    rw [hend.2, List.append_nil] at heq
    exact ⟨heq, hdone⟩
  induction h with
  | link hpeer => exact hlink hpeer hend
  | @via b r w hops _ hrelay hpeer ih =>
    have hmem : (r, w) ∈ hops ++ [(r, w)] := List.mem_append_right _ (List.mem_singleton_self _)
    obtain ⟨hfi, hfo⟩ := hunbroken (r, w) hmem
    obtain ⟨heq, hend'⟩ := (hi.relayed r w hrelay).ended (hshut (r, w) hmem) hfi hfo
    obtain ⟨hsent, hdone⟩ := ih (fun p hp => hunbroken p (List.mem_append_left _ hp))
      (fun p hp => hshut p (List.mem_append_left _ hp)) hend'
    exact ⟨(hlink hpeer hend).1.trans (heq.trans hsent), hdone⟩

/-! ### A run with one proxy -/

/-- The client 0 writes fd 0, the proxy 1 copies fd 1 to fd 2, the server 2 reads fd 3. -/
def oneProxy : Wiring where
  reader fd := if fd = 1 then 1 else 2
  writer fd := if fd = 0 then 0 else 1
  peer fd := if fd = 1 then some 0 else if fd = 3 then some 2 else none
  relay fd := if fd = 1 then some 2 else none
  source fd := if fd = 2 then some 1 else none
  relay_iff r w := by
    constructor
    · intro h
      obtain ⟨rfl, hw⟩ := Option.ite_none_right_eq_some.mp h
      obtain rfl := Option.some.inj hw
      rfl
    · intro h
      obtain ⟨rfl, hr⟩ := Option.ite_none_right_eq_some.mp h
      obtain rfl := Option.some.inj hr
      rfl
  owner r w h := by
    obtain ⟨rfl, hw⟩ := Option.ite_none_right_eq_some.mp h
    obtain rfl := Option.some.inj hw
    rfl

def blank : Config where
  shared :=
    { inc := fun _ => ⟨[], false, 0, none, false, [], false, []⟩
      out := fun _ => ⟨1, none, false, [], false, []⟩
      closed := fun _ => false }
  prog _ := .ret ()

theorem blank_start : Start blank :=
  ⟨fun _ => rfl, fun _ => rfl, fun _ => rfl, fun _ => rfl, fun _ => rfl, fun _ => rfl, fun _ => rfl, fun _ => rfl⟩

def turns (t : Tid) (k : Nat) : List (Label Tid Call Env) := List.replicate k (.run t)

/-- Two messages of two bytes.  Every write takes one byte, every read finds one. -/
def twoMessages : List (Label Tid Call Env) :=
  [.call 0 (.netWrite 0 [1, 2])] ++ turns 0 4 ++ [.call 0 (.netWrite 0 [3, 4])] ++ turns 0 4 ++
  [.call 0 (.shutdown 0)] ++ turns 0 1 ++
  [.call 1 (.rwtask 1 2)] ++ turns 1 4 ++ [.env (.deliver 1 4), .env (.finish 1)] ++ turns 1 23 ++
  [.env (.deliver 3 4), .env (.finish 3)] ++
  [.call 2 (.netRead 3 2)] ++ turns 2 5 ++ [.call 2 (.netRead 3 2)] ++ turns 2 5

/-- What is the case when the run is over. -/
structure Forwarded (c : Config) : Prop where
  results : (c.shared.inc 3).results = [⟨2, false, [1, 2]⟩, ⟨2, false, [3, 4]⟩]
  asked : (c.shared.out 0).asked = [[1, 2], [3, 4]]
  unbroken : Unbroken [(1, 2)] c.shared
  shut : AllShut [(1, 2)] c.shared
  failed : (c.shared.inc 3).failed = false ∧ (c.shared.out 0).failed = false
  atEnd : (c.shared.inc 3).AtEnd
  idle : c.prog 2 = .ret () ∧ c.prog 0 = .ret ()

theorem twoMessages_run : ∃ c, Reachable oneProxy c ∧ Forwarded c := by
  obtain ⟨c, hc, hP⟩ := Reach.exists_of_runOk (machine oneProxy).step (stepOk (fun _ _ _ => True) (okCall oneProxy))
    Start blank_start twoMessages (fun c => decide
      ((c.shared.inc 3).results = [⟨2, false, [1, 2]⟩, ⟨2, false, [3, 4]⟩] ∧
        (c.shared.out 0).asked = [[1, 2], [3, 4]] ∧
        ((c.shared.inc 1).failed = false ∧ (c.shared.out 2).failed = false) ∧ (c.shared.out 2).shut = true ∧
        ((c.shared.inc 3).failed = false ∧ (c.shared.out 0).failed = false) ∧
        ((c.shared.inc 3).fin = true ∧ (c.shared.inc 3).inbox = []) ∧
        (c.prog 2).isRet = true ∧ (c.prog 0).isRet = true))
    (by decide +kernel)
  obtain ⟨hresults, hasked, hunbroken, hshut, hfailed, hend, hreader, hwriter⟩ := of_decide_eq_true hP
  refine ⟨c, hc, hresults, hasked, ?_, ?_, hfailed, hend, Prog.eq_ret_of_isRet hreader, Prog.eq_ret_of_isRet hwriter⟩
  · intro p hp
    obtain rfl := List.mem_singleton.mp hp
    exact hunbroken
  · intro p hp
    obtain rfl := List.mem_singleton.mp hp
    exact hshut

theorem oneProxy_flows : Flows oneProxy 0 3 [(1, 2)] := .via (.link rfl) rfl rfl

section
variable (hgood : Good (rules W) (Idle W) c) (hflow : Flows W a b hops) (ha : W.source a = none)
  (hb : W.relay b = none) (hunbroken : Unbroken hops c.shared) (hfb : (c.shared.inc b).failed = false)
  (hfa : (c.shared.out a).failed = false)
include hgood hflow ha hb hunbroken hfb hfa

theorem Flows.returned_prefix : (c.shared.inc b).returned <+: (c.shared.out a).asked.flatten := by
  have hread := (hgood.1.collected b hb).exact hfb
  have hsent := (hgood.1.asked a ha).exact hfa
  exact hread.trans ((hflow.exact hgood.1 hunbroken).trans hsent)

theorem Flows.returned_all (hshut : AllShut hops c.shared) (hend : (c.shared.inc b).AtEnd)
    (hreader : c.prog (W.reader b) = .ret ()) (hwriter : c.prog (W.writer a) = .ret ()) :
    (c.shared.inc b).returned = (c.shared.out a).asked.flatten := by
  have hidleb : Idle W (W.reader b) c.shared := hgood.idle hreader
  have hidlea : Idle W (W.writer a) c.shared := hgood.idle hwriter
  calc (c.shared.inc b).returned = (c.shared.inc b).received := hidleb.drained rfl hb hfb
    _ = (c.shared.out a).sent := (hflow.complete hgood.1 hunbroken hshut hend).1
    _ = (c.shared.out a).asked.flatten := hidlea.flushed rfl ha hfa

end

/-- **Streams arrive intact**, over any number of proxies and in every run: what the calls that read `b`
    have returned comes, in order, from what the calls that write `a` were given.  If no call on the way
    has failed it is a prefix of it; and it is all of it when the end of the stream has been reached, the
    proxies are done, and no call is in progress. -/
theorem stream_intact (h : Reachable W c) (hflow : Flows W a b hops) (ha : W.source a = none)
    (hb : W.relay b = none) :
    (c.shared.inc b).returned.Sublist (c.shared.out a).asked.flatten ∧
    (Unbroken hops c.shared → (c.shared.inc b).failed = false → (c.shared.out a).failed = false →
      (c.shared.inc b).returned <+: (c.shared.out a).asked.flatten ∧
      (AllShut hops c.shared → (c.shared.inc b).AtEnd → c.prog (W.reader b) = .ret () →
        c.prog (W.writer a) = .ret () → (c.shared.inc b).returned = (c.shared.out a).asked.flatten)) := by
  have hgood := h.good
  have hi := hgood.1
  have hcollected := hi.collected b hb
  have hasked := hi.asked a ha
  constructor
  · exact hcollected.order.trans ((hflow.order hi).trans hasked.order)
  · intro hunbroken hfb hfa
    constructor
    · exact hflow.returned_prefix hgood ha hb hunbroken hfb hfa
    · exact hflow.returned_all hgood ha hb hunbroken hfb hfa

theorem stream_intact_proxy : ∃ c, Reachable oneProxy c ∧ (c.shared.inc 3).returned = [1, 2, 3, 4] ∧
    (c.shared.inc 3).returned = (c.shared.out 0).asked.flatten := by
  obtain ⟨c, hc, h⟩ := twoMessages_run
  have hintact := stream_intact hc oneProxy_flows rfl rfl
  refine ⟨c, hc, ?_, (hintact.2 h.unbroken h.failed.1 h.failed.2).2 h.shut h.atEnd h.idle.1 h.idle.2⟩
  rw [Incoming.returned, h.results]
  rfl

/-! ### Messages of one length -/

/-- Lists of blocks of one length are prefixes of each other when their contents are. -/
theorem blocks_prefix (hn : 0 < n) : ∀ {l m : List (List Byte)}, (∀ x ∈ l, x.length = n) → (∀ y ∈ m, y.length = n) →
    l.flatten <+: m.flatten → l <+: m := by
  intro l
  induction l with
  | nil => exact fun _ _ _ => List.nil_prefix
  | cons x l ih =>
    intro m hl hm h
    have hx := hl x List.mem_cons_self
    cases m with
    | nil =>
      rw [List.flatten_nil, List.prefix_nil, List.flatten_cons, List.append_eq_nil_iff] at h
      rw [h.1, List.length_nil] at hx
      omega
    | cons y m =>
      have hy := hm y List.mem_cons_self
      rw [List.flatten_cons, List.flatten_cons] at h
      have hxy : x = y := by
        obtain ⟨rest, hrest⟩ := h
        rw [List.append_assoc] at hrest
        exact (List.append_inj hrest (hx.trans hy.symm)).1
      subst hxy
      rw [List.prefix_append_right_inj] at h
      rw [List.prefix_cons_inj]
      exact ih (fun z hz => hl z (List.mem_cons_of_mem _ hz)) (fun z hz => hm z (List.mem_cons_of_mem _ hz)) h

theorem blocks_length {l : List (List Byte)} (hl : ∀ x ∈ l, x.length = n) : l.flatten.length = l.length * n := by
  induction l with
  | nil => simp
  | cons x l ih =>
    rw [List.flatten_cons, List.length_append, hl x List.mem_cons_self,
      ih fun y hy => hl y (List.mem_cons_of_mem _ hy), List.length_cons, Nat.succ_mul, Nat.add_comm]

/-- The messages that were read as a whole. -/
def whole (n : Nat) (l : List Result) : List (List Byte) := (l.map Result.bytes).filter fun x => x.length = n

/-- They come first; what is left is shorter than a message. -/
theorem whole_prefix (hn : 0 < n) : ∀ {l : List Result}, (∀ r ∈ l, r.timed = false ∧ r.size = n) →
    (∀ r ∈ l, r.bytes.length ≤ r.size) → l.Pairwise (fun x y => x.Short → y.bytes = []) →
    ∃ rest, rest.length < n ∧ (l.map Result.bytes).flatten = (whole n l).flatten ++ rest := by
  intro l
  induction l with
  | nil => exact fun _ _ _ => ⟨[], hn, rfl⟩
  | cons r l ih =>
    intro hl hsize hlast
    obtain ⟨hr, hlast⟩ := List.pairwise_cons.mp hlast
    by_cases hfull : r.bytes.length = n
    · obtain ⟨rest, hlt, hrest⟩ := ih (fun x hx => hl x (List.mem_cons_of_mem _ hx))
        (fun x hx => hsize x (List.mem_cons_of_mem _ hx)) hlast
      have hwhole : whole n (r :: l) = r.bytes :: whole n l := by
        rw [whole, List.map_cons, List.filter_cons_of_pos (by simpa using hfull)]
        rfl
      refine ⟨rest, hlt, ?_⟩
      rw [hwhole, List.map_cons, List.flatten_cons, List.flatten_cons, hrest, List.append_assoc]
    · -- a short read, after which nothing comes
      obtain ⟨htimed, hn'⟩ := hl r List.mem_cons_self
      have hle := hsize r List.mem_cons_self
      have hnil : ∀ y ∈ l, y.bytes = [] := fun y hy => hr y hy ⟨htimed, by omega⟩
      have hwhole : whole n (r :: l) = [] := by
        refine List.filter_eq_nil_iff.mpr fun x hx => ?_
        rw [List.map_cons, List.mem_cons, List.mem_map] at hx
        rcases hx with rfl | ⟨y, hy, rfl⟩
        · simpa using hfull
        · simpa [hnil y hy] using hn.ne
      have hflat : (l.map Result.bytes).flatten = [] := by
        refine List.flatten_eq_nil_iff.mpr fun x hx => ?_
        obtain ⟨y, hy, rfl⟩ := List.mem_map.mp hx
        exact hnil y hy
      refine ⟨r.bytes, by omega, ?_⟩
      rw [hwhole, List.map_cons, List.flatten_cons, hflat, List.append_nil, List.flatten_nil, List.nil_append]

/-- **Framing**: when all messages written to `a` have `n` bytes and all reads of `b` ask for `n`, each full
    read returns one message, in order, and when the end is reached no message is missing. -/
theorem messages_framed (h : Reachable W c) (hflow : Flows W a b hops) (ha : W.source a = none)
    (hb : W.relay b = none) (hunbroken : Unbroken hops c.shared) (hfb : (c.shared.inc b).failed = false)
    (hfa : (c.shared.out a).failed = false) (hn : 0 < n) (hwrites : ∀ m ∈ (c.shared.out a).asked, m.length = n)
    (hreads : ∀ r ∈ (c.shared.inc b).results, r.timed = false ∧ r.size = n) :
    whole n (c.shared.inc b).results <+: (c.shared.out a).asked ∧
    (AllShut hops c.shared → (c.shared.inc b).AtEnd → c.prog (W.reader b) = .ret () →
      c.prog (W.writer a) = .ret () → whole n (c.shared.inc b).results = (c.shared.out a).asked) := by
  have hgood := h.good
  have hcollected := hgood.1.collected b hb
  have hblocks : ∀ x ∈ whole n (c.shared.inc b).results, x.length = n := fun x hx => by
    simpa using (List.mem_filter.mp hx).2
  obtain ⟨rest, hlt, hrest⟩ := whole_prefix hn hreads hcollected.size hcollected.last
  have hpre : whole n (c.shared.inc b).results <+: (c.shared.out a).asked := by
    refine blocks_prefix hn hblocks hwrites ?_
    have hfull : (whole n (c.shared.inc b).results).flatten <+: (c.shared.inc b).returned := by
      rw [Incoming.returned, hrest]
      exact List.prefix_append _ _
    exact hfull.trans (hflow.returned_prefix hgood ha hb hunbroken hfb hfa)
  refine ⟨hpre, fun hshut hend hreader hwriter => hpre.eq_of_length_le ?_⟩
  have hall := hflow.returned_all hgood ha hb hunbroken hfb hfa hshut hend hreader hwriter
  -- an incomplete message at the end would make the lengths differ
  have hlen := congrArg List.length (hrest.symm.trans hall)
  rw [List.length_append, blocks_length hblocks, blocks_length hwrites] at hlen
  by_contra hmore
  have hmul := Nat.mul_le_mul_right n (Nat.lt_of_not_le hmore)
  rw [Nat.succ_mul] at hmul
  omega

theorem messages_framed_proxy : ∃ c, Reachable oneProxy c ∧ (c.shared.out 0).asked = [[1, 2], [3, 4]] ∧
    whole 2 (c.shared.inc 3).results = (c.shared.out 0).asked := by
  obtain ⟨c, hc, h⟩ := twoMessages_run
  have hwrites : ∀ m ∈ (c.shared.out 0).asked, m.length = 2 := by
    rw [h.asked]
    decide
  have hreads : ∀ r ∈ (c.shared.inc 3).results, r.timed = false ∧ r.size = 2 := by
    rw [h.results]
    decide
  have hframed := messages_framed hc oneProxy_flows rfl rfl h.unbroken h.failed.1 h.failed.2 (by decide) hwrites hreads
  exact ⟨c, hc, h.asked, hframed.2 h.shut h.atEnd h.idle.1 h.idle.2⟩

end Coroc.NetStream
