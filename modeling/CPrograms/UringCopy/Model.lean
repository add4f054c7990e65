import CPrograms.Lib.Runs
import CPrograms.Lib.Uring
import Mathlib.Logic.Function.Basic

/-!
# `copy_file` of `uring_test/uring_copy.c`

`copyFile a s` is one step of `copy_file`: one test of the outer loop, one turn of the loop
that queues reads, the submit after it, or one turn of the loop that takes completions.  The
kernel completes submitted requests between any two steps.  A step has no result when
`io_uring_wait_cqe` blocks or `copy_file` has returned.

What the calls of a step answer is `Answers`.  The struct `io_data` is followed in the same
allocation by the block's bytes (`buf`); `iovBase` counts from `data + 1`.  The input file is
`input`, and `out x` is the byte written at `x` of the output file, if any.
-/

namespace CPrograms.UringCopy

open Uring

def queueDepth : Nat := 2

def blockSz : Nat := 16 * 1024

/-- `-EAGAIN` -/
def eagain : Int := -11

structure IoData where
  read : Bool
  firstOffset : Nat
  offset : Nat
  firstLen : Nat
  iovBase : Nat
  iovLen : Nat
  buf : Nat → UInt8

/-- What `queue_read` sets of a fresh `io_data`. -/
def IoData.setRead (size offset : Nat) (buf : Nat → UInt8) : IoData :=
  ⟨true, offset, offset, size, 0, size, buf⟩

/-- What `queue_write` sets. -/
def IoData.setWrite (d : IoData) : IoData :=
  { d with read := false, offset := d.firstOffset, iovBase := 0, iovLen := d.firstLen }

/-- The adjustment after a short transfer. -/
def IoData.advance (d : IoData) (res : Nat) : IoData :=
  { d with iovBase := d.iovBase + res, iovLen := d.iovLen - res }

/-- A prepared `readv` or `writev` on the iovec of the `io_data` under `data`. -/
structure Sqe where
  read : Bool
  data : Nat
  offset : Nat

inductive Pc
  | outer
  | fill (hadReads : Nat)
  | submit (hadReads : Nat)
  | drain (gotComp : Bool)
  | ret (code : Nat)
  | abort
deriving DecidableEq

structure St where
  pc : Pc
  insize : Nat
  writeLeft : Int
  offset : Nat
  reads : Nat
  writes : Nat
  ring : Queues Sqe
  heap : Nat → Option IoData
  /-- the next allocation -/
  brk : Nat
  out : Nat → Option UInt8

/-- Answers of `malloc` (the bytes it returns), of `io_uring_submit`, and of
`io_uring_wait_cqe` or `io_uring_peek_cqe` (an error if negative). -/
structure Answers where
  malloc : Option (Nat → UInt8)
  submit : Int
  cqe : Int

/-- `n++` and `n--` of an `unsigned long`. -/
def incr (n : Nat) : Nat := if n = 2 ^ 64 - 1 then 0 else n + 1

def decr (n : Nat) : Nat := if n = 0 then 2 ^ 64 - 1 else n - 1

/-- `none`: the assertion fails. -/
def queuePrepped (i : Nat) (data : IoData) (r : Queues Sqe) : Option (Queues Sqe) :=
  push queueDepth ⟨data.read, i, data.offset⟩ r

/-- `none`: `queue_read` returns 1. -/
def queueRead (mem : Option (Nat → UInt8)) (size offset : Nat) (s : St) : Option St :=
  match mem with
  | none => none
  | some buf =>
    (push queueDepth ⟨true, s.brk, offset⟩ s.ring).map fun ring =>
      { s with
        ring
        heap := Function.update s.heap s.brk (some (.setRead size offset buf))
        brk := s.brk + 1 }

/-- The answer of the submit is not looked at. -/
def queueWrite (ret : Int) (i : Nat) (data : IoData) (s : St) : Option St :=
  (queuePrepped i data.setWrite s.ring).map fun ring =>
    { s with ring := submit ret ring, heap := Function.update s.heap i (some data.setWrite) }

/-- The completion `res` for `data`, from `io_uring_cqe_get_data` to the end of the loop
body; `none` if `data` is freed or an assertion fails. -/
def handle (ret : Int) (i : Nat) (res : Int) (s : St) : Option St :=
  match s.heap i with
  | none => none
  | some data =>
    if res < 0 then
      if res = eagain then
        (queuePrepped i data s.ring).map fun ring => { s with ring := seen ring }
      else some { s with pc := .ret 1 }
    else if res ≠ data.iovLen then
      let data := data.advance res.toNat
      (queuePrepped i data s.ring).map fun ring =>
        { s with ring := seen ring, heap := Function.update s.heap i (some data) }
    else if data.read then
      (queueWrite ret i data s).map fun s =>
        { s with
          ring := seen s.ring
          writeLeft := s.writeLeft - data.firstLen
          reads := decr s.reads
          writes := incr s.writes }
    else
      some { s with ring := seen s.ring, heap := Function.update s.heap i none, writes := decr s.writes }

/-- No result: `io_uring_wait_cqe` blocks. -/
def waitCqe (ans : Int) (r : Queues Sqe) : Option (Int × Option (Sqe × Int)) :=
  if ans < 0 then some (ans, none) else r.cq.head?.map fun c => (0, some c)

def peekCqe (ans : Int) (r : Queues Sqe) : Int × Option (Sqe × Int) :=
  if ans < 0 then (ans, none)
  else match r.cq with
    | [] => (eagain, none)
    | c :: _ => (0, some c)

/-- `ret` and `cqe` after the wait or the peek. -/
def nextCqe (gotComp : Bool) (ans : Int) (r : Queues Sqe) : Option (Int × Option (Sqe × Int)) :=
  if gotComp = false then waitCqe ans r
  else
    let (ret, cqe) := peekCqe ans r
    some (if ret = eagain then (0, none) else (ret, cqe))

def copyFile (a : Answers) (s : St) : Option St :=
  match s.pc with
  | .outer =>
    if s.insize = 0 ∧ s.writeLeft = 0 then some { s with pc := .ret 0 }
    else some { s with pc := .fill s.reads }
  | .fill had =>
    if s.insize = 0 ∨ s.reads + s.writes ≥ queueDepth then some { s with pc := .submit had }
    else
      let size := if s.insize > blockSz then blockSz else s.insize
      match queueRead a.malloc size s.offset s with
      | none => some { s with pc := .submit had }
      | some s =>
        some { s with
          insize := s.insize - size
          offset := s.offset + size
          reads := incr s.reads }
  | .submit had =>
    if had ≠ s.reads then
      let s := { s with ring := submit a.submit s.ring }
      if a.submit < 0 then some { s with pc := .ret 0 } else some { s with pc := .drain false }
    else some { s with pc := .drain false }
  | .drain got =>
    if s.writeLeft = 0 then some { s with pc := .outer }
    else
      match nextCqe got a.cqe s.ring with
      | none => none
      | some (ret, cqe) =>
        if ret < 0 then some { s with pc := .ret 1 }
        else
          match cqe with
          | none => some { s with pc := .outer }
          | some (q, res) =>
            some ((handle a.submit q.data res { s with pc := .drain true }).getD { s with pc := .abort })
  | .ret _ => none
  | .abort => none

/-! ## The kernel -/

/-- `dst` with `n` bytes from `pos` on replaced by those of `src`. -/
def blit {α : Type} (dst : Nat → α) (pos n : Nat) (src : Nat → α) : Nat → α :=
  fun i => if pos ≤ i ∧ i < pos + n then src (i - pos) else dst i

/-- The kernel completes a submitted request with `res`: an error, or the number of bytes
transferred. -/
def complete (input : Nat → UInt8) (p : Nat) (res : Int) (s : St) : Option St :=
  match Uring.complete p res s.ring with
  | none => none
  | some (q, ring) =>
    match s.heap q.data with
    | none => none
    | some data =>
      if res > data.iovLen then none
      else if q.read then
        let buf := blit data.buf data.iovBase res.toNat fun i => input (q.offset + i)
        some { s with ring, heap := Function.update s.heap q.data (some { data with buf }) }
      else
        some { s with ring, out := blit s.out q.offset res.toNat fun i => some (data.buf (data.iovBase + i)) }

inductive Event
  | prog (a : Answers)
  | complete (p : Nat) (res : Int)

def step (input : Nat → UInt8) (s : St) : Event → Option St
  | .prog a => copyFile a s
  | .complete p res => complete input p res s

def Step (input : Nat → UInt8) (s : St) (e : Event) (t : St) : Prop := step input s e = some t

/-- `copy_file(ring, insize)` is called, with an empty output file. -/
def init (insize : Nat) : St :=
  ⟨.outer, insize, insize, 0, 0, 0, empty, fun _ => none, 0, fun _ => none⟩

end CPrograms.UringCopy
