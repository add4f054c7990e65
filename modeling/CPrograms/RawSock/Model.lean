import CPrograms.Lib.Endian
import CPrograms.Lib.OnesComplement

/-!
# `bpf/iter_tcp/raw_sock.c`

The checksum and the packet that is sent.  Fields of 16 and 32 bits are numbers as the
machine reads them; `bytes` is what a structure is in memory.
-/

namespace CPrograms.RawSock

open Endian OnesComplement

/-! ## `checksum` -/

/-- The `for` loop. -/
def addPairs (h : Host) (csum : Acc) : List UInt8 → Acc
  | a :: b :: pkt => addPairs h (csum.add (h.word16 a b)) pkt
  | _ => csum

/-- `while (csum > 0xffff)` -/
def foldCarry (csum : Acc) : Acc :=
  if csum.val > 0xffff then
    foldCarry (Acc.add ⟨csum.val &&& 0xffff, csum.over32⟩ (csum.val >>> 16))
  else csum
termination_by csum.val
decreasing_by
  rename_i h
  exact Acc.val_add_carry_lt h

/-- `csum`, before it is negated. -/
def checksumSum (h : Host) (pkt : List UInt8) : Acc :=
  let len := pkt.length
  let csum := addPairs h Acc.zero pkt
  foldCarry (if len &&& 1 ≠ 0 then csum.add (pkt.getD (len - 1) 0).toNat else csum)

def checksum (h : Host) (pkt : List UInt8) : Nat :=
  (2 ^ 32 - 1 - (checksumSum h pkt).val) % 2 ^ 16

/-! ## `build_packet` -/

/-- The first of two 4-bit fields of a byte is the low half where the low byte comes first. -/
def nibbles : Host → Nat → Nat → UInt8
  | .little, first, second => (first + 16 * second).toUInt8
  | .big, first, second => (16 * first + second).toUInt8

structure Iphdr where
  ihl : Nat
  version : Nat
  tos : UInt8
  totLen : Nat
  id : Nat
  fragOff : Nat
  ttl : UInt8
  protocol : UInt8
  check : Nat
  saddr : UInt32
  daddr : UInt32

/-- The fields before `check`. -/
def Iphdr.front (h : Host) (x : Iphdr) : List UInt8 :=
  [nibbles h x.ihl x.version, x.tos] ++ h.bytes16 x.totLen ++ h.bytes16 x.id ++
    h.bytes16 x.fragOff ++ [x.ttl, x.protocol]

def Iphdr.bytes (h : Host) (x : Iphdr) : List UInt8 :=
  x.front h ++ h.bytes16 x.check ++ (h.bytes32 x.saddr.toNat ++ h.bytes32 x.daddr.toNat)

/-- `linux/tcp.h` declares the bit fields so that they are the same bytes on either machine. -/
structure Tcphdr where
  source : UInt16
  dest : UInt16
  seq : Nat
  ackSeq : Nat
  res1 : Nat
  doff : Nat
  fin : Nat
  syn : Nat
  rst : Nat
  psh : Nat
  ack : Nat
  urg : Nat
  ece : Nat
  cwr : Nat
  window : Nat
  check : Nat
  urgPtr : Nat

def Tcphdr.flags (x : Tcphdr) : UInt8 :=
  (x.fin + 2 * x.syn + 4 * x.rst + 8 * x.psh + 16 * x.ack + 32 * x.urg + 64 * x.ece +
    128 * x.cwr).toUInt8

/-- The fields before `check`. -/
def Tcphdr.front (h : Host) (x : Tcphdr) : List UInt8 :=
  h.bytes16 x.source.toNat ++ h.bytes16 x.dest.toNat ++ h.bytes32 x.seq ++ h.bytes32 x.ackSeq ++
    [(16 * x.doff + x.res1).toUInt8, x.flags] ++ h.bytes16 x.window

def Tcphdr.bytes (h : Host) (x : Tcphdr) : List UInt8 :=
  x.front h ++ h.bytes16 x.check ++ h.bytes16 x.urgPtr

structure Tcp4Pseudohdr where
  saddr : UInt32
  daddr : UInt32
  pad : UInt8
  protocol : UInt8
  len : Nat

def Tcp4Pseudohdr.bytes (h : Host) (x : Tcp4Pseudohdr) : List UInt8 :=
  h.bytes32 x.saddr.toNat ++ h.bytes32 x.daddr.toNat ++ [x.pad, x.protocol] ++ h.bytes16 x.len

def sizeofIphdr : Nat := 20

def sizeofTcphdr : Nat := 20

def ipprotoTcp : UInt8 := 6

/-- `struct sockaddr_in`, the fields that are read. -/
structure SockaddrIn where
  sinPort : UInt16
  sAddr : UInt32

def pseudoHeader (h : Host) (saddr daddr : SockaddrIn) : Tcp4Pseudohdr :=
  ⟨saddr.sAddr, daddr.sAddr, 0, ipprotoTcp, h.htons sizeofTcphdr⟩

/-- `*pkt`; `none`: `calloc` failed, -1. -/
def buildPacket (h : Host) (calloc : Bool) (saddr daddr : SockaddrIn) (seqNumber ackSeq : UInt32) :
    Option (List UInt8) :=
  let len := sizeofIphdr + sizeofTcphdr
  if !calloc then none
  else
    let ipHeader : Iphdr :=
      ⟨5, 4, 0, len, 0xebaf, 0, 0xff, ipprotoTcp, 0, saddr.sAddr, daddr.sAddr⟩
    let tcpHeader : Tcphdr :=
      ⟨saddr.sinPort, daddr.sinPort, h.htonl seqNumber.toNat, h.htonl ackSeq.toNat, 0, 5, 0, 0, 1,
        0, 0, 0, 0, 0, h.htons 0xcafe, 0, 0⟩
    let data := (pseudoHeader h saddr daddr).bytes h ++ tcpHeader.bytes h
    let tcpHeader := { tcpHeader with check := checksum h data }
    let ipHeader := { ipHeader with check := checksum h (ipHeader.bytes h) }
    some (ipHeader.bytes h ++ tcpHeader.bytes h)

end CPrograms.RawSock
