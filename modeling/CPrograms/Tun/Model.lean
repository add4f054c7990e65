import CPrograms.Lib.Endian

/-!
# The tunnel of `tun_test/tun_test.c`

`send` is what `serve` does when the tap device is readable (`nread = read(tap_fd, ..)` up to
the two `cwrite`s), `receive` what it does when the connection is.  A `uint16_t` object is
its two bytes in memory, little-endian.

The system is outside: `Sock.bytes` is all that arrives on the connection before its end,
and `Sock.answers` are the sizes that the next calls of `read` are cut to, at least 1 and at
most what was asked for (`none` is a call that fails).  Writes are blocking and take all.
-/

namespace CPrograms.Tun

open Endian

def bufsize : Nat := 2000

/-! ## `uint16_t` -/

/-- The number in two bytes of memory. -/
def word : List UInt8 → Nat
  | a :: b :: _ => Host.little.word16 a b
  | _ => 0

/-! ## Reading -/

structure Sock where
  bytes : List UInt8
  answers : List (Option Nat)

/-- `none`: `read` failed, `exit(EXIT_FAILURE)`. -/
def cread (fd : Sock) (n : Nat) : Option (List UInt8 × Sock) :=
  match fd.answers with
  | [] => some (fd.bytes.take n, ⟨fd.bytes.drop n, []⟩)
  | none :: _ => none
  | some c :: cs =>
    some (fd.bytes.take (min (max 1 c) n), ⟨fd.bytes.drop (min (max 1 c) n), cs⟩)

/-- The loop of `read_n`: whether all was read, and what was stored at `buf`. -/
def readLoop (fd : Sock) (left : Nat) (got : List UInt8) : Option (Bool × List UInt8 × Sock) :=
  if 0 < left then
    match cread fd left with
    | none => none
    | some (b, fd) =>
      if b.length = 0 then some (false, got, fd) else readLoop fd (left - b.length) (got ++ b)
  else some (true, got, fd)
termination_by left

/-- `read_n`: its result, what was stored, the connection. -/
def readN (fd : Sock) (n : Nat) : Option (Nat × List UInt8 × Sock) :=
  match readLoop fd n [] with
  | none => none
  | some (all, got, fd) => some (if all then n else 0, got, fd)

/-! ## `serve` -/

structure Srv where
  buffer : List UInt8
  packageLen : List UInt8
  net : Sock
  /-- all that was written to the connection -/
  sent : List UInt8
  /-- the packets written to the tap device -/
  tap : List (List UInt8)

def start (net : Sock) : Srv := ⟨List.replicate bufsize 0, [0, 0], net, [], []⟩

inductive End
  | running
  | left
  | exit
  | overrun
deriving DecidableEq

/-- `got` stored at the start of `buf`. -/
def store (buf got : List UInt8) : List UInt8 := got ++ buf.drop got.length

/-- `r` is what `read(tap_fd, ..)` gives. -/
def send (s : Srv) (r : Option (List UInt8)) : Srv × End :=
  match r with
  -- -1 is not looked for: as a `uint16_t` it is 65535 bytes of `buffer`
  | none => (s, .overrun)
  | some packet =>
    let got := packet.take bufsize
    let buffer := store s.buffer got
    let nread := got.length % 2 ^ 16
    let packageLen := Host.little.bytes16 (Host.little.htons nread)
    ({ s with buffer, packageLen, sent := s.sent ++ packageLen ++ buffer.take nread }, .running)

def receive (s : Srv) : Srv × End :=
  match readN s.net 2 with
  | none => (s, .exit)
  | some (ret, got, net) =>
    let nread := ret % 2 ^ 16
    let packageLen := store s.packageLen got
    if nread = 0 then ({ s with packageLen, net }, .left)
    else
      match readN net (Host.little.ntohs (word packageLen)) with
      | none => ({ s with packageLen, net }, .exit)
      | some (ret, got, net) =>
        if bufsize < got.length then ({ s with packageLen, net }, .overrun)
        else
          let buffer := store s.buffer got
          let nread := ret % 2 ^ 16
          -- a payload that was cut short makes an empty write
          ({ s with buffer, packageLen, net, tap := s.tap ++ [buffer.take nread] }, .running)

inductive Act
  | tap (r : Option (List UInt8))
  | net

def act (s : Srv) : Act → Srv × End
  | .tap r => send s r
  | .net => receive s

/-- The loop, with what `select` finds ready turn by turn. -/
def serve (s : Srv) : List Act → Srv × End
  | [] => (s, .running)
  | a :: as =>
    match act s a with
    | (s, .running) => serve s as
    | r => r

end CPrograms.Tun
