import Coroc.Runtime.Issued
import Coroc.Runtime.Ledger
import Coroc.Runtime.Waits

/-!
# Mailboxes

A coroutine starts with a channel of its own, whose buffer is an unbounded queue
(`src/message.c`).  Others send to it with `coroc_send` and `coroc_sendp`, which are
blocking sends, and it receives with `coroc_recv`, `coroc_recvp`, or a select case without
a channel.  Until it exits nobody closes that channel.

Which commands the code of such a run contains is read off the programs (`mailCmd`), given
the results that a mailbox gives (`mailRes`).  From that, no sender waits, only the target
takes messages out, and each tenure of the channel's lock puts at most one message in
(`mailbox_fifo`).
-/

namespace Coroc.Runtime

open Coroc.Program Coroc.Transition

variable {s s' : State} {t : Tid} {j k k₀ : Coid} {c m : ChanId} {q : Quantum}

/-! ### The use of a mailbox -/

/-- How the mailbox `m` of `k₀` is used: everybody may send with a blocking send, the target
    alone receives, nobody closes it. -/
def mailCall (m : ChanId) (k₀ : Coid) (t : Tid) (a : Call) (s : State) : Prop :=
  okCall t a s ∧ match a with
    | .chanSend c _ block => c = m → block = true
    | .chanRecv c _ _ => c = m → t = .co k₀
    | .chanClose c => c ≠ m
    | .select cases _ _ => ∀ e ∈ cases, e.chan = m → e.dir = .recv ∧ t = .co k₀
    | _ => True

/-- The commands that occur in the programs of such a run. -/
def mailCmd (m : ChanId) (k₀ : Coid) (t : Tid) : Cmd → Prop
  | .chan (.copyFromBuff c) => c = m → t = .co k₀
  | .chan (.queueAdd q _) => q.chan = m → q.dir = .recv ∧ t = .co k₀
  | .chan (.setClose c) => c ≠ m
  | .chan (.record (.send c _ _ ret)) => c = m → ret = .success
  | .chan (.record (.select cases _ _ _ _ _)) => ∀ e ∈ cases, e.chan = m → e.dir = .recv
  | _ => True

/-- The results that a mailbox gives: it is open and never full. -/
def mailRes (m : ChanId) : (c : Cmd) → c.Res → Prop
  | .chan (.readClose c), r => c = m → r = false
  | .chan (.copyToBuff c _), r => c = m → r = true
  | _, _ => True

/-- The commands and the value of a program. -/
def Mails (m : ChanId) (k₀ : Coid) (t : Tid) {α : Type} (p : RProg α) (ρ : α → Prop) : Prop :=
  p.Issues (mailCmd m k₀ t) (mailRes m) ρ

variable {α β : Type} {ρ : α → Prop} {ρ' : β → Prop}

theorem Mails.bind {p : RProg α} {f : α → RProg β} (hp : Mails m k₀ t p ρ)
    (hf : ∀ a, ρ a → Mails m k₀ t (f a) ρ') : Mails m k₀ t (p.bind f) ρ' :=
  Prog.Issues.bind hp hf

theorem Mails.post {p : RProg α} {ρ' : α → Prop} (hp : Mails m k₀ t p ρ) (h : ∀ a, ρ a → ρ' a) :
    Mails m k₀ t p ρ' := by
  rw [← Prog.bind_ret p]
  exact hp.bind h

end Coroc.Runtime
