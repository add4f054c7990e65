import CPrograms.Lib.Traces
import CPrograms.Lib.Uring
import CPrograms.UringCat.Blocks

/-!
# `uring_cat.c` and `liburing_cat.c` of `uring_test`

The system is outside: whether a file opens, its size, which allocations succeed, what is in
new memory, and what the kernel delivers for the file's request: an error, or the first bytes
of the file, as many as were asked for at most.  A `struct file_info` is its place in `heap`,
and its iovecs are the memory of their blocks with their lengths.  `uring_cat.c` works on the
rings themselves, with counters of 32 bits; `liburing_cat.c` uses the queues of the library.

The allocations of `liburing_cat.c`, which does not look at them, succeed.

A write or a read outside what was allocated has no result.
-/

namespace CPrograms.UringCat

open Traces Uring

/-! ## The system -/

inductive Reply
  | error (errno : Nat) (pos : 0 < errno)
  | data (bytes : List UInt8)

def Reply.res : Reply → Int
  | .error errno _ => -errno
  | .data bytes => bytes.length

/-- The bytes that are delivered. -/
def Reply.delivered : Reply → List UInt8
  | .error .. => []
  | .data bytes => bytes

structure File where
  opens : Bool
  /-- what `get_file_size` gives: -1 if it fails -/
  size : Int
  size_ge : -1 ≤ size
  malloc : Malloc
  memalign : Nat → Bool
  /-- what is in the memory of a block -/
  junk : Nat → List UInt8
  junk_length : ∀ i, (junk i).length = ringBlockSz
  /-- `io_uring_enter` does not fail -/
  enter : Bool
  reply : Reply
  asked : (reply.delivered.length : Int) ≤ max 0 size

/-! ## `struct file_info` -/

structure Iovec where
  mem : List UInt8
  len : Int

structure FileInfo where
  fileSz : Int
  iovecs : List Iovec

/-- What the loop over the blocks leaves. -/
def File.fileInfo (f : File) (lens : List Int) : FileInfo :=
  ⟨f.size, lens.zipIdx.map fun (len, i) => ⟨f.junk i, len⟩⟩

/-- `readv`: the bytes one iovec after the other. -/
def scatter : List Iovec → List UInt8 → List Iovec
  | [], _ => []
  | v :: iovecs, bytes =>
    { v with mem := bytes.take v.len.toNat ++ v.mem.drop (bytes.take v.len.toNat).length } ::
      scatter iovecs (bytes.drop v.len.toNat)

/-- `output_to_console` -/
def outputToConsole (v : Iovec) : Option (List UInt8) :=
  if 0 ≤ v.len ∧ v.len ≤ v.mem.length then some (v.mem.take v.len.toNat) else none

/-- The blocks are counted again, and printed. -/
def printBlocks (fi : FileInfo) : Option (List UInt8) :=
  let blocks := countBlocks ringBlockSz fi.fileSz
  if blocks > fi.iovecs.length then none
  else ((fi.iovecs.take blocks.toNat).mapM outputToConsole).map List.flatten

/-- What a completion is handled with: the `file_info`, and what is printed of it. -/
abbrev Handled := Nat × List UInt8

/-- The `file_info` at `userData` is printed. -/
def printFile (heap : List FileInfo) (userData : Nat) : Traced Handled Unit :=
  match heap[userData]?.bind printBlocks with
  | none => Traced.stuck
  | some printed => emit (userData, printed)

inductive Submitted (σ : Type)
  /-- outside the iovecs that were allocated -/
  | overrun
  /-- 1 is returned -/
  | failed
  | done (s : σ)

/-! ## `uring_cat.c` -/

structure Sqe where
  fd : Nat
  addr : Nat
  len : Int
  off : Int
  userData : Nat

structure Cqe where
  userData : Nat
  res : Int

structure SqRing where
  head : UInt32
  tail : UInt32
  ringMask : UInt32
  array : UInt32 → UInt32

structure CqRing where
  head : UInt32
  tail : UInt32
  ringMask : UInt32
  cqes : UInt32 → Cqe

structure Submitter where
  sqRing : SqRing
  sqes : UInt32 → Sqe
  cqRing : CqRing
  heap : List FileInfo

/-- The entry at the tail. -/
def Submitter.push (s : Submitter) (sqe : Sqe) : Submitter :=
  let tail := s.sqRing.tail
  let index := tail &&& s.sqRing.ringMask
  { s with
    sqes := Function.update s.sqes index sqe
    sqRing := { s.sqRing with array := Function.update s.sqRing.array index index, tail := tail + 1 } }

/-- The kernel takes the entry at the head, reads, and posts the completion. -/
def Submitter.kernel (s : Submitter) (reply : Reply) : Submitter :=
  let sqe := s.sqes (s.sqRing.array (s.sqRing.head &&& s.sqRing.ringMask))
  let tail := s.cqRing.tail
  { s with
    sqRing := { s.sqRing with head := s.sqRing.head + 1 }
    heap := s.heap.modify sqe.addr fun fi => { fi with iovecs := scatter fi.iovecs reply.delivered }
    cqRing :=
      { s.cqRing with
        cqes := Function.update s.cqRing.cqes (tail &&& s.cqRing.ringMask) ⟨sqe.userData, reply.res⟩
        tail := tail + 1 } }

def submitToSq (fd : Nat) (f : File) (s : Submitter) : Submitted Submitter :=
  if !f.opens then .failed
  else
    match submitToSqFill f.malloc f.memalign f.size with
    | none => .failed
    | some filled =>
      if filled.blocks < filled.lens.length then .overrun
      else if !filled.finished then .failed
      else
        let fi := s.heap.length
        let s := { s with heap := s.heap ++ [f.fileInfo filled.lens] }
        let s := s.push ⟨fd, fi, filled.blocks, 0, fi⟩
        if !f.enter then .failed else .done (s.kernel f.reply)

theorem distance_lt {head tail : UInt32} (h : head ≠ tail) :
    (tail - (head + 1)).toNat < (tail - head).toNat := by
  have hne : head.toNat ≠ tail.toNat := fun he => h (UInt32.toNat_inj.1 he)
  have h1 := head.toNat_lt
  have h2 := tail.toNat_lt
  rw [UInt32.toNat_sub, UInt32.toNat_sub, UInt32.toNat_add]
  show (2 ^ 32 - (head.toNat + 1) % 2 ^ 32 + tail.toNat) % 2 ^ 32 < _
  omega

/-- The loop of `read_from_cq`; where it ends. -/
def readLoop (cq : CqRing) (heap : List FileInfo) (head : UInt32) : Traced Handled UInt32 :=
  if head = cq.tail then pure head
  else do
    -- an error is only reported
    printFile heap (cq.cqes (head &&& cq.ringMask)).userData
    readLoop cq heap (head + 1)
termination_by (cq.tail - head).toNat
decreasing_by
  rename_i h
  exact distance_lt h

def readFromCq (s : Submitter) : Traced Handled Submitter := do
  let head ← readLoop s.cqRing s.heap s.cqRing.head
  pure { s with cqRing := { s.cqRing with head := head } }

/-- `main` from the file number `k` on, with what is handled for each file. -/
def uringCat : List File → Nat → Submitter → Traced (Nat × Handled) Int
  | [], _, _ => pure 0
  | f :: files, k, s =>
    match submitToSq k f s with
    | .overrun => Traced.stuck
    | .failed => pure 1
    | .done s => do
      let s ← (readFromCq s).mark k
      uringCat files (k + 1) s

/-- With empty rings, wherever they start. -/
def startRings (sqMask cqMask sqStart cqStart : UInt32) (array : UInt32 → UInt32) (sqes : UInt32 → Sqe)
    (cqes : UInt32 → Cqe) : Submitter :=
  ⟨⟨sqStart, sqStart, sqMask, array⟩, sqes, ⟨cqStart, cqStart, cqMask, cqes⟩, []⟩

/-! ## `liburing_cat.c` -/

structure Library where
  ring : Queues Nat
  heap : List FileInfo

def submitReadRequest (f : File) (s : Library) : Submitted Library :=
  if !f.opens then .failed
  else
    let filled := submitReadRequestFill f.size
    if filled.blocks < filled.lens.length then .overrun
    else
      let fi := s.heap.length
      .done ⟨enqueue fi s.ring, s.heap ++ [f.fileInfo filled.lens]⟩

/-- The kernel reads and completes the request. -/
def Library.kernel (s : Library) (reply : Reply) : Library :=
  match complete 0 reply.res s.ring with
  | none => s
  | some (fi, ring) =>
    ⟨ring, s.heap.modify fi fun fi => { fi with iovecs := scatter fi.iovecs reply.delivered }⟩

/-- Without a completion it waits for ever. -/
def getCompletionAndPrint (s : Library) : Traced Handled Library :=
  match s.ring.cq with
  | [] => Traced.stuck
  | (fi, res) :: _ =>
    if res < 0 then do
      -- `return 1`: nothing is printed, and the completion stays where it is
      emit (fi, [])
      pure s
    else do
      printFile s.heap fi
      pure { s with ring := seen s.ring }

def liburingCat : List File → Nat → Library → Traced (Nat × Handled) Int
  | [], _, _ => pure 0
  | f :: files, k, s =>
    match submitReadRequest f s with
    | .overrun => Traced.stuck
    | .failed => pure 1
    | .done s => do
      let s ← (getCompletionAndPrint (s.kernel f.reply)).mark k
      liburingCat files (k + 1) s

end CPrograms.UringCat
