import CPrograms.Lib.ByteMem
import CPrograms.Lib.CInts
import CPrograms.Lib.Endian
import CPrograms.Lib.OnesComplement

/-!
# `socket_else/ping.c`

The checksum, the request that is sent and the filter on what is received.  An `u_int32_t`
that is added to is an `Acc`; a `double` is its eight bytes.
-/

namespace CPrograms.Ping

open ByteMem CInts Endian OnesComplement

/-! ## `calculate_checksum` -/

/-- `while (buffer < end)`, over the bytes before `end`. -/
def addWords (checksum : Acc) : List UInt8 → Acc
  | a :: b :: buffer => addWords ((checksum.add (a.toNat <<< 8)).add b.toNat) buffer
  | _ => checksum

/-- `while (carray)` -/
def addCarry (checksum : Acc) : Acc :=
  if checksum.val >>> 16 ≠ 0 then
    addCarry (Acc.add ⟨checksum.val &&& 0xffff, checksum.over32⟩ (checksum.val >>> 16))
  else checksum
termination_by checksum.val
decreasing_by
  rename_i h
  rw [Nat.shiftRight_eq_div_pow] at h
  exact Acc.val_add_carry_lt (by omega)

/-- `checksum`, before it is negated. -/
def calculateSum (buffer : List UInt8) : Acc :=
  let bytes := buffer.length
  if bytes % 2 = 1 then
    addCarry (addWords (Acc.zero.add ((buffer.getD (bytes - 1) 0).toNat <<< 8))
      (buffer.take (bytes - 1)))
  else addCarry (addWords Acc.zero buffer)

def calculateChecksum (buffer : List UInt8) : Nat :=
  (2 ^ 32 - 1 - (calculateSum buffer).val) &&& 0xffff

/-! ## `send_echo_request` -/

structure Double where
  bytes : List UInt8
  eight : bytes.length = 8

/-- `struct icmp_echo`; the 16-bit fields are as the machine reads them. -/
structure IcmpEcho where
  type : UInt8
  code : UInt8
  checksum : Nat
  identifier : Nat
  sequenceNumber : Nat
  sendingTs : Double

/-- `strncpy` of all `MAGIC_LEN` characters. -/
def magic : List UInt8 := [49, 50, 51, 52, 53, 54, 55, 56, 57, 48]

/-- With the padding behind `magic`, which `bzero` cleared. -/
def IcmpEcho.bytes (h : Host) (x : IcmpEcho) : List UInt8 :=
  [x.type, x.code] ++ h.bytes16 x.checksum ++
    (h.bytes16 x.identifier ++ (h.bytes16 x.sequenceNumber ++ x.sendingTs.bytes ++ magic ++
      List.replicate 6 0))

/-- What is handed to `sendto`. -/
def sendEchoRequest (h : Host) (ident seq : Int) (ts : Double) : List UInt8 :=
  let icmp : IcmpEcho := ⟨8, 0, 0, h.htons (u16 ident), h.htons (u16 seq), ts⟩
  { icmp with checksum := h.htons (calculateChecksum (icmp.bytes h)) }.bytes h

/-! ## `recv_echo_reply` -/

def mtu : Nat := 1500

def eagain : Nat := 11

inductive Recv
  | error (errno : Nat)
  | datagram (bytes : List UInt8)

/-- The line that is printed: `sequence_number` and the bytes of `sending_ts`. -/
structure Line where
  seq : Nat
  sendingTs : List UInt8

/-- `m` is the stack before the call, with `buffer` at `buf`. -/
def recvEchoReply (h : Host) (m : Mem) (buf : Nat) (ident : Int) : Recv → Int × Option Line
  | .error e => (if e = eagain then 0 else -1, none)
  | .datagram d =>
    let m := storeBytes m buf (d.take mtu)
    let icmp := buf + 20
    if m icmp ≠ 0 ∨ m (icmp + 1) ≠ 0 then (0, none)
    else if (h.ntohs (h.word16 (m (icmp + 4)) (m (icmp + 5))) : Int) ≠ ident then (0, none)
    else
      (0, some ⟨h.ntohs (h.word16 (m (icmp + 6)) (m (icmp + 7))), loadBytes m (icmp + 8) 8⟩)

end CPrograms.Ping
