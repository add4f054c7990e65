import CPrograms.Lib.CInts
import CPrograms.Lib.Records
import CPrograms.Lib.Traces
import CPrograms.Netlink.Attr

/-!
# `netlink_lwt_route/route_dump.c`: what is received

`recv_msg` and what it calls, with every read of the message, every write to the attribute
table and every line.  A read of nothing and a write outside the table are faults: the
program is left there.  What is read in the message at hand bears where this message is; the
test whether there is one bears what is left of the datagram.
-/

namespace CPrograms.Netlink.RouteDump

open ByteMem CInts Records Traces

/-! ## What is done -/

inductive Func
  | recvMsg
  | printDebug
  | printRoute
  | parseRtattr
  | rtmGetTable
  | lwtPrintEncap
deriving DecidableEq

inductive Line
  | payload
  | debug (bytes : List UInt8)
  | done
  | invalid
  | rtaEncapYes
  | deficit (len : Int) (rtaLen : Nat)
  | table (v : Int)
  | encapNull
  /-- by its name or as a number -/
  | encap (et : Nat)

inductive Event
  /-- `n` bytes at `a` -/
  | read (by_ : Func) (a n : Nat)
  | readNull (by_ : Func)
  /-- `tb[i] = ..` -/
  | write (i : Nat)
  | print (l : Line)

abbrev Proc := Traced Event

/-! ## `parse_rtattr` -/

/-- `RTA_OK` and `RTA_NEXT` -/
def rtaFormat (m : Mem) : Format where
  ok := rtaOk m
  dec := fun _ _ => inferInstance
  advance := fun rta => rtaAlign (rtaLen m rta)
  len_pos := by
    intro rta len h
    have hlen := h.1
    unfold sizeofRtattr at hlen
    omega
  advance_pos := rtaAlign_pos

def rtaEncap : Nat := 22

/-- `tb[type] = rta` -/
def setEntry (tb : List (Option Nat)) (type rta : Nat) : Proc (List (Option Nat)) :=
  if type < tb.length then do
    emit (.write type)
    pure (tb.set type (some rta))
  else Traced.fault (.write type)

/-- What `RTA_OK` looks at. -/
def rtaOkReads (rta : Nat) (len : Int) : Proc Unit :=
  emitIf (len ≥ sizeofRtattr) (.read .parseRtattr rta 2)

/-- One turn of the loop. -/
def parseTurn (m : Mem) (tb : List (Option Nat)) (rta : Nat) : Proc (List (Option Nat)) := do
  emit (.read .parseRtattr (rta + 2) 2)
  emitIf (rtaType m rta = rtaEncap) (.print .rtaEncapYes)
  setEntry tb (rtaType m rta) rta

/-- The loop: the table, and where it stopped with what length left. -/
def parseLoop (m : Mem) (tb : List (Option Nat)) (rta : Nat) (len : Int) :
    Proc (List (Option Nat) × Nat × Int) :=
  if (rtaFormat m).ok rta len then do
    rtaOkReads rta len
    let tb ← parseTurn m tb rta
    parseLoop m tb (rta + (rtaFormat m).advance rta) (len - (rtaFormat m).advance rta)
  else do
    rtaOkReads rta len
    pure (tb, rta, len)
termination_by len.toNat
decreasing_by
  rename_i h
  exact (rtaFormat m).decreases h

def parseRtattr (m : Mem) (max rta : Nat) (len : Int) : Proc (List (Option Nat)) := do
  let (tb, rta, len) ← parseLoop m (List.replicate (max + 1) none) rta len
  -- `if (len) fprintf(.., len, rta->rta_len)`
  emitIf (len ≠ 0) (.read .parseRtattr rta 2)
  emitIf (len ≠ 0) (.print (.deficit len (rtaLen m rta)))
  pure tb

/-! ## `print_route` -/

def rtaTable : Nat := 15

def rtaEncapType : Nat := 21

/-- `RTA_MAX` -/
def rtaMax : Nat := 30

def sizeofRtmsg : Nat := 12

def rtmTable (m : Mem) (r : Nat) : Nat := loadLE m (r + 4) 1

/-- `n` bytes of the payload of an entry of the table. -/
def readData (m : Mem) (f : Func) (entry : Option Nat) (n : Nat) : Proc Nat :=
  match entry with
  | none => Traced.fault (.readNull f)
  | some rta => do
    emit (.read f (rtaData rta) n)
    pure (loadLE m (rtaData rta) n)

def tbEntry (tb : List (Option Nat)) (type : Nat) : Option Nat := tb.getD type none

def rtmGetTable (m : Mem) (r : Nat) (tb : List (Option Nat)) : Proc Int := do
  emit (.read .rtmGetTable (r + 4) 1)
  if tbEntry tb rtaTable ≠ none then
    let table ← readData m .rtmGetTable (tbEntry tb rtaTable) 4
    pure (toInt table)
  else pure (rtmTable m r)

def lwtPrintEncap (m : Mem) (encapType : Option Nat) : Proc Unit := do
  let et ← readData m .lwtPrintEncap encapType 2
  emit (.print (.encap et))

/-- `if (tb[RTA_ENCAP])` -/
def printEncap (m : Mem) (tb : List (Option Nat)) : Proc Unit :=
  if tbEntry tb rtaEncap ≠ none then lwtPrintEncap m (tbEntry tb rtaEncapType)
  else emit (.print .encapNull)

def printRoute (m : Mem) (nlh : Nat) : Proc Int := do
  let r := nlmsgData nlh
  emit (.read .printRoute nlh 4)
  let len : Int := nlmsgLen m nlh - nlmsgLength sizeofRtmsg
  if len < 0 then
    emit (.print .invalid)
    pure (-1)
  else
    emit (.read .printRoute r 1)
    let tb ← parseRtattr m rtaMax (r + sizeofRtmsg) len
    let table ← rtmGetTable m r tb
    emit (.print (.table table))
    printEncap m tb
    pure 0

/-! ## `recv_msg` -/

/-- `NLMSG_OK` -/
def nlmsgOk (m : Mem) (nlh : Nat) (len : Int) : Prop :=
  len ≥ sizeofNlmsghdr ∧ nlmsgLen m nlh ≥ sizeofNlmsghdr ∧ (nlmsgLen m nlh : Int) ≤ len

instance (m : Mem) (nlh : Nat) (len : Int) : Decidable (nlmsgOk m nlh len) :=
  inferInstanceAs (Decidable (_ ∧ _))

/-- `NLMSG_OK` and `NLMSG_NEXT`, with a length that is an `int`. -/
def nlmsgFormat (m : Mem) : Format where
  ok := fun nlh len => len < 2 ^ 31 ∧ nlmsgOk m nlh len
  dec := fun _ _ => inferInstance
  advance := fun nlh => nlmsgAlign (nlmsgLen m nlh)
  len_pos := by
    rintro nlh len ⟨-, h, -⟩
    unfold sizeofNlmsghdr at h
    omega
  advance_pos := by
    rintro nlh len ⟨hint, -, h, hle⟩
    unfold sizeofNlmsghdr at h
    unfold nlmsgAlign
    omega

def nlmsgDone : Nat := 3

def rtTableMain : Nat := 254

/-- All of the message. -/
def printDebug (m : Mem) (n : Nat) : Proc Unit := do
  emit (.read .printDebug n 4)
  emit (.read .printDebug n (nlmsgLen m n))
  emit (.print (.debug (loadBytes m n (nlmsgLen m n))))

/-- One turn of the inner loop; whether it was `NLMSG_DONE`. -/
def recvTurn (m : Mem) (nlh : Nat) : Proc Bool := do
  emit (.print .payload)
  printDebug m nlh
  emit (.read .recvMsg (nlh + 4) 2)
  if nlmsgType m nlh = nlmsgDone then
    emit (.print .done)
    pure true
  else
    let rtm := nlmsgData nlh
    emit (.read .recvMsg (rtm + 4) 1)
    if rtmTable m rtm ≠ rtTableMain then
      emit (.read .recvMsg nlh 4)
      pure false
    else
      let _ ← printRoute m nlh
      emit (.read .recvMsg nlh 4)
      pure false

/-- Where something lies, and its length. -/
abbrev Region := Nat × Nat

/-- What `NLMSG_OK` looks at, in what is left of the datagram. -/
def nlmsgOkReads (nlh : Nat) (len : Int) : Traced (Region × Event) Unit :=
  emitIf (len ≥ sizeofNlmsghdr) ((nlh, len.toNat), .read .recvMsg nlh 4)

/-- The inner loop; with a result where it was left by `goto ret`. -/
def recvLoop (m : Mem) (nlh : Nat) (len : Int) : Traced (Region × Event) (Option Int) :=
  if (nlmsgFormat m).ok nlh len then do
    nlmsgOkReads nlh len
    let done ← (recvTurn m nlh).mark (nlh, nlmsgLen m nlh)
    if done then pure (some len)
    else recvLoop m (nlh + (nlmsgFormat m).advance nlh) (len - (nlmsgFormat m).advance nlh)
  else do
    nlmsgOkReads nlh len
    pure none
termination_by len.toNat
decreasing_by
  rename_i h
  exact (nlmsgFormat m).decreases h

def sizeofBuffer : Nat := 32768

def enospc : Int := 28

/-- What `recvmsg` gives: -1, or a datagram. -/
abbrev Recv := Option (List UInt8)

/-- `none` where nothing more arrives: it waits. -/
def recvMsg (m : Mem) (buf : Nat) : List Recv → Traced (Region × Event) Int
  | [] => ⟨[], none⟩
  | none :: _ => pure (-1)
  | some bytes :: rs =>
    if bytes.length > sizeofBuffer then pure (-enospc)
    else if bytes.length = 0 then pure 0
    else do
      let m := storeBytes m buf bytes
      match ← recvLoop m buf bytes.length with
      | some len => pure len
      | none => recvMsg m buf rs

end CPrograms.Netlink.RouteDump
