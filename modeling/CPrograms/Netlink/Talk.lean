import CPrograms.Lib.CInts
import CPrograms.Netlink.Message

/-!
# `rtnl_talk` of `netlink/rt/addr-dump.c`

One request and its reply.  The system is outside: what `sendmsg` gives, what the calls of
`recvmsg` give one after the other, and where `malloc` puts the buffer.  A value that the
program never set is `indet`: the variable `i`, and the result of a function that falls off
its end.  `free` of the buffer is left out.
-/

namespace CPrograms.Netlink

open ByteMem CInts

inductive Value
  | det (v : Int)
  | indet
deriving DecidableEq

inductive Outcome
  /-- with `*answer`, where it was set -/
  | returns (v : Value) (answer : Option Nat)
  | exit
deriving DecidableEq

/-! ## Receiving -/

def eintr : Nat := 4
def eagain : Nat := 11
def enomem : Nat := 12
def enodata : Nat := 61

structure Datagram where
  nlPid : Nat
  namelen : Nat
  bytes : List UInt8

inductive Recv
  | error (errno : Nat)
  | datagram (d : Datagram)

/-- `__rtnl_recvmsg`; `none`: it waits for ever. -/
def recvRetry : List Recv → Option (Except Int Datagram × List Recv)
  | [] => none
  | .error e :: rs => if e = eintr ∨ e = eagain then recvRetry rs else some (.error (-e), rs)
  | .datagram d :: rs => some (if d.bytes.length = 0 then .error (-enodata) else .ok d, rs)

/-- What is in the buffer, and what `msg` says of it. -/
structure Received where
  buf : Nat
  nlPid : Nat
  namelen : Nat
  bytes : List UInt8
  trunc : Bool

def rtnlRecvmsg (malloc : Nat → Option Nat) (rs : List Recv) : Option (Except Int Received) :=
  -- `MSG_PEEK | MSG_TRUNC`: the size of what is coming
  match recvRetry rs with
  | none => none
  | some (.error e, _) => some (.error e)
  | some (.ok d, rs) =>
    let len := if d.bytes.length < 32768 then 32768 else d.bytes.length
    match malloc len with
    | none => some (.error (-enomem))
    | some buf =>
      match recvRetry rs with
      | none => none
      | some (.error e, _) => some (.error e)
      | some (.ok d, _) =>
        some (.ok ⟨buf, d.nlPid, d.namelen, d.bytes.take len, decide (len < d.bytes.length)⟩)

/-! ## The reply -/

def nlmsgError : Nat := 2

def sizeofNlmsgerr : Nat := 20

/-- `((struct nlmsgerr *)NLMSG_DATA(h))->error`, as its 32 bits. -/
def nlmsgerrError (m : Mem) (h : Nat) : Nat := loadLE m (nlmsgData h) 4

/-- What the loop over the reply reads. -/
structure Exchange where
  mem : Mem
  buf : Nat
  seq : Nat
  pid : Nat
  nlPid : Nat
  trunc : Bool
  answer : Bool

/-- The test on which a message is skipped. -/
def Exchange.Skips (x : Exchange) (h : Nat) : Prop :=
  x.nlPid ≠ 0 ∨ nlmsgPid x.mem h ≠ x.pid ∨ nlmsgSeq x.mem h > x.seq ∨
    nlmsgSeq x.mem h < (x.seq + (2 ^ 32 - 1)) % 2 ^ 32

instance (x : Exchange) (h : Nat) : Decidable (x.Skips h) := inferInstanceAs (Decidable (_ ∨ _))

/-- A message that is not skipped; `none`: `Unexpected reply!!!`, the loop goes on. -/
def Exchange.reply (x : Exchange) (h : Nat) : Option Outcome :=
  if nlmsgType x.mem h = nlmsgError then
    if toInt (toInt (nlmsgLen x.mem h) - sizeofNlmsghdr) < sizeofNlmsgerr then
      some (.returns (.det (-1)) none)
    else
      -- `return error ? -i : 0`: the loop that set `i` is commented out
      some (.returns (if nlmsgerrError x.mem h ≠ 0 then .indet else .det 0)
        (if x.answer then some x.buf else none))
  else if x.answer then some (.returns (.det 0) (some x.buf))
  else none

/-- The loop over the messages, and what is behind it. -/
def talkLoop (x : Exchange) : Nat → Nat → Int → Option Outcome
  | 0, _, _ => none
  | fuel + 1, h, status =>
    -- `status >= sizeof(*h)` is a comparison of `size_t`
    if status < 0 ∨ status ≥ sizeofNlmsghdr then
      let len := toInt (nlmsgLen x.mem h)
      let l := toInt (len - sizeofNlmsghdr)
      let align := nlmsgAlign (nlmsgLen x.mem h)
      if l < 0 ∨ len > status then
        some (if x.trunc then .returns (.det (-1)) none else .exit)
      else if x.Skips h then talkLoop x fuel (h + align) (toInt (status - align))
      else
        match x.reply h with
        | some out => some out
        | none => talkLoop x fuel (h + align) (toInt (status - align))
    else some (if status ≠ 0 then .exit else .returns .indet none)

/-! ## `rtnl_talk` -/

structure Rtnl where
  seq : Nat
  pid : Nat

/-- `++rtnl->seq` -/
def Rtnl.next (rtnl : Rtnl) : Nat := (rtnl.seq + 1) % 2 ^ 32

def nlmFAck : Nat := 4

def sizeofSockaddrNl : Nat := 12

/-- The request `n` as it is sent. -/
def prepared (rtnl : Rtnl) (m : Mem) (n : Nat) (answer : Bool) : Mem :=
  let m := storeLE m (n + 8) 4 rtnl.next
  if answer then m else storeLE m (n + 6) 2 (loadLE m (n + 6) 2 ||| nlmFAck)

def exchange (rtnl : Rtnl) (m : Mem) (n : Nat) (answer : Bool) (r : Received) : Exchange :=
  ⟨storeBytes (prepared rtnl m n answer) r.buf r.bytes, r.buf, rtnl.next, rtnl.pid, r.nlPid, r.trunc,
    answer⟩

def rtnlTalk (fuel : Nat) (rtnl : Rtnl) (m : Mem) (n : Nat) (answer : Bool) (sendmsg : Mem → Int)
    (malloc : Nat → Option Nat) (rs : List Recv) : Option Outcome :=
  if sendmsg (prepared rtnl m n answer) < 0 then some (.returns (.det (-1)) none)
  else
    match rtnlRecvmsg malloc rs with
    | none => none
    | some (.error e) => some (.returns (.det e) none)
    | some (.ok r) =>
      if r.namelen ≠ sizeofSockaddrNl then some .exit
      else talkLoop (exchange rtnl m n answer r) fuel r.buf r.bytes.length

end CPrograms.Netlink
