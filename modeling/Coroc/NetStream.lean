import Mathlib.Data.List.Infix
import Mathlib.Logic.Function.Basic
import Coroc.Program

/-!
# Reading and writing connections (`src/netpoll.c`)

`coroc_net_read` and `coroc_net_write` go on until all `n` bytes are moved, whatever part of them one
`read` or `write` takes, and wait (`coroc_net_wait`) when the kernel says `EAGAIN`.  The proxy of the
examples (`examples/C/tcpproxy.c`) copies one connection to another with them.

The kernel is the environment: it decides how much one system call takes, when a call fails, and
when the bytes on the way come in.  A connection delivers what was sent on its other end, in order.
-/

namespace Coroc.NetStream

open Coroc.Program

abbrev Byte := UInt8
abbrev Fd := Nat
abbrev Tid := Nat
abbrev Errno := Nat

def EBADF : Errno := 9
def EAGAIN : Errno := 11
def EPIPE : Errno := 32

/-- What a call returned that was to read `size` bytes. -/
structure Result where
  size : Nat
  timed : Bool
  bytes : List Byte
deriving DecidableEq

/-- The incoming half of a connection.  `inbox` has arrived and is not read yet, after `fin` nothing
    arrives; one `read` takes at most `chunk + 1` bytes, or fails with `fault`. -/
structure Incoming where
  inbox : List Byte
  fin : Bool
  chunk : Nat
  fault : Option Errno
  expired : Bool
  -- the history: what `read` took, if it ever failed, and what the calls returned
  received : List Byte
  failed : Bool
  results : List Result
deriving DecidableEq

/-- The outgoing half.  One `write` takes at most `room` bytes. -/
structure Outgoing where
  room : Nat
  fault : Option Errno
  shut : Bool
  -- the history: what `write` took, if it ever failed, and what the calls were given
  sent : List Byte
  failed : Bool
  asked : List (List Byte)
deriving DecidableEq

structure State where
  inc : Fd → Incoming
  out : Fd → Outgoing
  closed : Fd → Bool

def State.setInc (s : State) (fd : Fd) (i : Incoming) : State := { s with inc := Function.update s.inc fd i }

def State.setOut (s : State) (fd : Fd) (o : Outgoing) : State := { s with out := Function.update s.out fd o }

/-! ### System calls -/

inductive Mode where
  | read
  | write
deriving DecidableEq

inductive Cmd where
  | read (fd : Fd) (n : Nat)
  | write (fd : Fd) (data : List Byte)
  | netWait (fd : Fd) (mode : Mode)
  | netTimedwait (fd : Fd) (mode : Mode)
  | shutdown (fd : Fd)
  | close (fd : Fd)
  -- notes what a call returns
  | record (fd : Fd) (r : Result)

@[reducible]
def Cmd.Res : Cmd → Type
  | .read _ _ => Except Errno (List Byte)
  | .write _ _ => Except Errno Nat
  | .netTimedwait _ _ => Bool
  | .netWait _ _ | .shutdown _ | .close _ | .record _ _ => Unit

/-- A system call that returns -1. -/
def Incoming.fail (i : Incoming) (e : Errno) : Except Errno (List Byte) × Incoming :=
  (.error e, if e = EAGAIN then i else { i with failed := true })

def Outgoing.fail (o : Outgoing) (e : Errno) : Except Errno Nat × Outgoing :=
  (.error e, if e = EAGAIN then o else { o with failed := true })

def Incoming.read (closed : Bool) (n : Nat) (i : Incoming) : Except Errno (List Byte) × Incoming :=
  if closed then i.fail EBADF
  else match i.fault with
    | some e => i.fail e
    | none =>
      if i.inbox = [] then
        if i.fin then (.ok [], i) else i.fail EAGAIN
      else
        let m := min n (i.chunk + 1)
        (.ok (i.inbox.take m), { i with inbox := i.inbox.drop m, received := i.received ++ i.inbox.take m })

def Outgoing.write (closed : Bool) (data : List Byte) (o : Outgoing) : Except Errno Nat × Outgoing :=
  if closed then o.fail EBADF
  else if o.shut then o.fail EPIPE
  else match o.fault with
    | some e => o.fail e
    | none =>
      if o.room = 0 then o.fail EAGAIN
      else
        let m := min o.room data.length
        (.ok m, { o with sent := o.sent ++ data.take m })

def exec : (c : Cmd) → State → Option (c.Res × State)
  | .read fd n, s =>
    let r := (s.inc fd).read (s.closed fd) n
    some (r.1, s.setInc fd r.2)
  | .write fd data, s =>
    let r := (s.out fd).write (s.closed fd) data
    some (r.1, s.setOut fd r.2)
  | .netWait _ _, s => some ((), s)
  | .netTimedwait fd _, s => some (!(s.inc fd).expired, s)
  | .shutdown fd, s => some ((), s.setOut fd { s.out fd with shut := true })
  | .close fd, s => some ((), { s with closed := Function.update s.closed fd true })
  | .record fd r, s => some ((), s.setInc fd { s.inc fd with results := (s.inc fd).results ++ [r] })

/-! ### The functions -/

abbrev NProg := Prog Cmd Cmd.Res

def issue (c : Cmd) : NProg c.Res := .perform c

def read (fd : Fd) (n : Nat) : NProg (Except Errno (List Byte)) := issue (.read fd n)
def write (fd : Fd) (data : List Byte) : NProg (Except Errno Nat) := issue (.write fd data)
def netWait (fd : Fd) (mode : Mode) : NProg Unit := issue (.netWait fd mode)
def netTimedwait (fd : Fd) (mode : Mode) : NProg Bool := issue (.netTimedwait fd mode)
def shutdown (fd : Fd) : NProg Unit := issue (.shutdown fd)
def close (fd : Fd) : NProg Unit := issue (.close fd)
def record (fd : Fd) (r : Result) : NProg Unit := issue (.record fd r)

/-- `while ((m = read(fd, ..)) < 0 && errno == EAGAIN) coroc_net_wait(fd, TSC_NETPOLL_READ);` -/
def readReady (fd : Fd) (n : Nat) : NProg (Except Errno (List Byte)) :=
  .repeatUntil do
    match ← read fd n with
    | .ok bytes => return some (.ok bytes)
    | .error e =>
      if e = EAGAIN then
        netWait fd .read
        return none
      else return some (.error e)

/-- The loop of `coroc_net_read`; `total` is the length of `buf`.  Every round but the last adds a
    byte, so `n` rounds are enough. -/
def readLoop (fd : Fd) (n : Nat) : Nat → List Byte → NProg (Except Errno (List Byte))
  | 0, buf => return .ok buf
  | left + 1, buf =>
    if buf.length < n then do
      match ← readReady fd (n - buf.length) with
      | .error e => return .error e
      | .ok [] => return .ok buf
      | .ok (b :: bytes) => readLoop fd n left (buf ++ b :: bytes)
    else return .ok buf

/-- `coroc_net_read`: the bytes it leaves in the buffer, or -1. -/
def netRead (fd : Fd) (n : Nat) : NProg (Except Errno (List Byte)) := readLoop fd n n []

/-- `coroc_net_timed_read`; its result is -1 also when the time is over. -/
def netTimedRead (fd : Fd) (n : Nat) : NProg (Option (List Byte)) :=
  .repeatUntil do
    match ← read fd n with
    | .ok bytes => return some (some bytes)
    | .error e =>
      if e = EAGAIN then
        let mode ← netTimedwait fd .read
        return if mode then none else some none
      else return some none

/-- `while ((m = write(fd, ..)) < 0 && errno == EAGAIN) coroc_net_wait(fd, TSC_NETPOLL_WRITE);` -/
def writeReady (fd : Fd) (data : List Byte) : NProg (Except Errno Nat) :=
  .repeatUntil do
    match ← write fd data with
    | .ok m => return some (.ok m)
    | .error e =>
      if e = EAGAIN then
        netWait fd .write
        return none
      else return some (.error e)

/-- The loop of `coroc_net_write`. -/
def writeLoop (fd : Fd) (data : List Byte) : Nat → Nat → NProg (Except Errno Nat)
  | 0, total => return .ok total
  | left + 1, total =>
    if total < data.length then do
      match ← writeReady fd (data.drop total) with
      | .error e => return .error e
      | .ok 0 => return .ok total
      | .ok (m + 1) => writeLoop fd data left (total + (m + 1))
    else return .ok total

/-- `coroc_net_write`. -/
def netWrite (fd : Fd) (data : List Byte) : NProg (Except Errno Nat) := writeLoop fd data data.length 0

/-- `rwtask` of the proxy. -/
def rwtask (rfd wfd : Fd) : NProg Unit := do
  .repeatUntil do
    match ← netRead rfd 2048 with
    | .ok (b :: buf) =>
      let _ ← netWrite wfd (b :: buf)
      return none
    | .ok [] => return some ()
    | .error _ => return some ()
  shutdown wfd
  close rfd

/-! ### The system -/

/-- Who uses what: the coroutine that reads and the one that writes an fd, the fd at the other end of
    a connection, and the pairs of a proxy, `relay` from the incoming to the outgoing one. -/
structure Wiring where
  reader : Fd → Tid
  writer : Fd → Tid
  peer : Fd → Option Fd
  relay : Fd → Option Fd
  source : Fd → Option Fd
  relay_iff : ∀ r w, relay r = some w ↔ source w = some r
  owner : ∀ r w, relay r = some w → reader r = writer w

inductive Call where
  | netRead (fd : Fd) (n : Nat)
  | netTimedRead (fd : Fd) (n : Nat)
  | netWrite (fd : Fd) (data : List Byte)
  | rwtask (rfd wfd : Fd)
  | shutdown (fd : Fd)
  | close (fd : Fd)

/-- A call of `coroc_net_write` is noted when it starts. -/
def enter (_ : Tid) : Call → State → Option State
  | .netWrite fd data, s => some (s.setOut fd { s.out fd with asked := (s.out fd).asked ++ [data] })
  | _, s => some s

def body (_ : Tid) : Call → NProg Unit
  | .netRead fd n => do
    match ← netRead fd n with
    | .ok bytes => record fd ⟨n, false, bytes⟩
    | .error _ => return ()
  | .netTimedRead fd n => do
    match ← netTimedRead fd n with
    | some bytes => record fd ⟨n, true, bytes⟩
    | none => return ()
  | .netWrite fd data => do
    let _ ← netWrite fd data
    return ()
  | .rwtask rfd wfd => rwtask rfd wfd
  | .shutdown fd => shutdown fd
  | .close fd => close fd

/-- The moves of the network and of the kernel.  Where the other end of a connection is not part of the
    system, anything may arrive. -/
inductive Env where
  | deliver (fd : Fd) (m : Nat)
  | arrive (fd : Fd) (bytes : List Byte)
  | finish (fd : Fd)
  | setIn (fd : Fd) (chunk : Nat) (fault : Option Errno) (expired : Bool)
  | setOut (fd : Fd) (room : Nat) (fault : Option Errno)

variable (W : Wiring)

/-- What is sent to `fd` and has not arrived. -/
def State.onWay (s : State) (a fd : Fd) : List Byte :=
  (s.out a).sent.drop ((s.inc fd).received ++ (s.inc fd).inbox).length

def State.arrive (s : State) (fd : Fd) (bytes : List Byte) : Option State :=
  if (s.inc fd).fin then none
  else some (s.setInc fd { s.inc fd with inbox := (s.inc fd).inbox ++ bytes })

def env : Env → State → Option State
  | .deliver fd m, s => match W.peer fd with
    | some a => s.arrive fd ((s.onWay a fd).take m)
    | none => none
  | .arrive fd bytes, s => match W.peer fd with
    | some _ => none
    | none => s.arrive fd bytes
  | .finish fd, s => match W.peer fd with
    | some a =>
      if ((s.out a).shut || s.closed a) && decide (s.onWay a fd = []) then
        some (s.setInc fd { s.inc fd with fin := true })
      else none
    | none => some (s.setInc fd { s.inc fd with fin := true })
  | .setIn fd chunk fault expired, s =>
    some (s.setInc fd { s.inc fd with chunk := chunk, fault := fault, expired := expired })
  | .setOut fd room fault, s => some (s.setOut fd { s.out fd with room := room, fault := fault })

def machine : Machine Tid Cmd Call Env State Cmd.Res where
  exec _ := exec
  enter := enter
  body := body
  env := env W

/-- A coroutine only uses the halves that are its own, and those of a proxy only in `rwtask`. -/
def okCall (t : Tid) (a : Call) (_ : State) : Prop :=
  match a with
  | .netRead fd _ | .netTimedRead fd _ => W.reader fd = t ∧ W.relay fd = none
  | .netWrite fd _ | .shutdown fd => W.writer fd = t ∧ W.source fd = none
  | .rwtask rfd wfd => W.relay rfd = some wfd ∧ W.reader rfd = t
  | .close _ => True

instance (t : Tid) (a : Call) (s : State) : Decidable (okCall W t a s) :=
  match a with
  | .netRead _ _ | .netTimedRead _ _ | .netWrite _ _ | .shutdown _ | .rwtask _ _ => inferInstanceAs (Decidable (_ ∧ _))
  | .close _ => isTrue trivial

abbrev Config := Conf Tid Cmd State Cmd.Res

/-- Nothing has been sent. -/
structure Start (c : Config) : Prop where
  prog : ∀ t, c.prog t = .ret ()
  inbox : ∀ fd, (c.shared.inc fd).inbox = []
  fin : ∀ fd, (c.shared.inc fd).fin = false
  received : ∀ fd, (c.shared.inc fd).received = []
  results : ∀ fd, (c.shared.inc fd).results = []
  shut : ∀ fd, (c.shared.out fd).shut = false
  sent : ∀ fd, (c.shared.out fd).sent = []
  asked : ∀ fd, (c.shared.out fd).asked = []

def Reachable (c : Config) : Prop :=
  Transition.Reach (machine W).step (stepOk (fun _ _ _ => True) (okCall W)) Start c

/-! ### What one system call does -/

/-- At the end of the stream. -/
def Incoming.AtEnd (i : Incoming) : Prop := i.fin = true ∧ i.inbox = []

/-- `read` takes bytes from the front, none only when there are none to come; or it fails, for good or
    for now. -/
theorem Incoming.read_cases (closed : Bool) (n : Nat) (i : Incoming) :
    (∃ bytes rest, i.inbox = bytes ++ rest ∧
      i.read closed n = (.ok bytes, { i with inbox := rest, received := i.received ++ bytes }) ∧
      bytes.length ≤ n ∧ (0 < n → bytes = [] → i.AtEnd)) ∨
    i.read closed n = (.error EAGAIN, i) ∨
    ∃ e, e ≠ EAGAIN ∧ i.read closed n = (.error e, { i with failed := true }) := by
  have hfail (e : Errno) : i.fail e = (.error EAGAIN, i) ∨
      ∃ e', e' ≠ EAGAIN ∧ i.fail e = (.error e', { i with failed := true }) := by
    by_cases he : e = EAGAIN
    · left
      simp [Incoming.fail, he]
    · exact .inr ⟨e, he, by simp [Incoming.fail, he]⟩
  unfold Incoming.read
  split
  · exact .inr (hfail EBADF)
  · split
    · next e _ => exact .inr (hfail e)
    · split
      · next hempty =>
        split
        · next hfin =>
          have hsame : { i with inbox := [], received := i.received ++ [] } = i := by
            rw [List.append_nil, ← hempty]
          exact .inl ⟨[], [], hempty, by rw [hsame], Nat.zero_le n, fun _ _ => ⟨hfin, hempty⟩⟩
        · exact .inr (hfail EAGAIN)
      · next hne =>
        refine .inl ⟨_, _, (List.take_append_drop _ _).symm, rfl, ?_, ?_⟩
        · exact Nat.le_trans (List.length_take_le _ _) (Nat.min_le_left _ _)
        · intro hn hnil
          rcases List.take_eq_nil_iff.mp hnil with hz | hz
          · omega
          · exact absurd hz hne

theorem Outgoing.write_cases (closed : Bool) (data : List Byte) (o : Outgoing) :
    (∃ m, m ≤ data.length ∧ (data ≠ [] → 0 < m) ∧ closed = false ∧ o.shut = false ∧
      o.write closed data = (.ok m, { o with sent := o.sent ++ data.take m })) ∨
    o.write closed data = (.error EAGAIN, o) ∨
    ∃ e, e ≠ EAGAIN ∧ o.write closed data = (.error e, { o with failed := true }) := by
  have hfail (e : Errno) : o.fail e = (.error EAGAIN, o) ∨
      ∃ e', e' ≠ EAGAIN ∧ o.fail e = (.error e', { o with failed := true }) := by
    by_cases he : e = EAGAIN
    · left
      simp [Outgoing.fail, he]
    · exact .inr ⟨e, he, by simp [Outgoing.fail, he]⟩
  unfold Outgoing.write
  split
  · exact .inr (hfail EBADF)
  · next hclosed =>
    split
    · exact .inr (hfail EPIPE)
    · next hshut =>
      split
      · next e _ => exact .inr (hfail e)
      · split
        · exact .inr (hfail EAGAIN)
        · next hroom =>
          refine .inl ⟨_, Nat.min_le_right _ _, ?_, by simpa using hclosed, by simpa using hshut, rfl⟩
          intro hdata
          have hpos := List.length_pos_iff.mpr hdata
          omega

end Coroc.NetStream
