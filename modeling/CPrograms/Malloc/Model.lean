import CPrograms.Lib.ByteMem
import CPrograms.Lib.CInts
import CPrograms.Lib.Runs

/-!
# The allocator of `basic/22_malloc.c`

Pointers are byte addresses, `NULL` is 0, and memory is bytes: a `Header` at `p` keeps
`s.next_block_header` in the 8 bytes at `p` and `s.size` in the 4 bytes at `p + 8`, so a
store of a too large `unsigned` wraps by itself.  `p + k` on a `Header *` is
`p + sizeofHeader * k`.

`sbrk` is outside the program: `Os.answers k` is what its `k`-th call answers (`none` for
`(char *) -1`), and `Os.grants` records every region it granted with the `int` it was asked
for.  The loops of the source take fuel; `none` is a loop that ran out of it.

The last section is the program with its clients: calls of `my_malloc` and `my_free`, and
writes into the memory of live pointers.
-/

namespace CPrograms.Malloc

open ByteMem CInts

def nalloc : Nat := 1024

/-- `sizeof(Header)`: a pointer and an `unsigned`, padded to the alignment of `long`. -/
def sizeofHeader : Nat := 16

/-- `p->s.next_block_header` -/
def next (m : Mem) (p : Nat) : Nat := loadLE m p 8

/-- `p->s.size` -/
def size (m : Mem) (p : Nat) : Nat := loadLE m (p + 8) 4

def setNext (m : Mem) (p q : Nat) : Mem := storeLE m p 8 q

def setSize (m : Mem) (p n : Nat) : Mem := storeLE m (p + 8) 4 n

structure Os where
  answers : Nat → Option Nat
  calls : Nat
  grants : List (Nat × Int)

structure Heap where
  mem : Mem
  freep : Nat
  os : Os

def sbrk (incr : Int) (os : Os) : Option Nat × Os :=
  match os.answers os.calls with
  | some a => (some a, { os with calls := os.calls + 1, grants := (a, incr) :: os.grants })
  | none => (none, { os with calls := os.calls + 1 })

/-! ## `my_free` -/

/-- The loop of `my_free`: the free block after which `bp` belongs. -/
def freeFind (m : Mem) (bp : Nat) : Nat → Nat → Option Nat
  | 0, _ => none
  | fuel + 1, p =>
    if bp > p ∧ bp < next m p then some p
    else if p ≥ next m p ∧ (bp > p ∨ bp < next m p) then some p
    else freeFind m bp fuel (next m p)

/-- First `if` of `my_free`: `bp` and the free block behind it. -/
def joinUpper (m : Mem) (bp p : Nat) : Mem :=
  if bp + sizeofHeader * size m bp = next m p then
    let m := setSize m bp (size m bp + size m (next m p))
    setNext m bp (next m (next m p))
  else setNext m bp (next m p)

/-- Second `if` of `my_free`: the free block before `bp` and `bp`. -/
def joinLower (m : Mem) (bp p : Nat) : Mem :=
  if p + sizeofHeader * size m p = bp then
    let m := setSize m p (size m p + size m bp)
    setNext m p (next m bp)
  else setNext m p bp

def myFree (fuel ap : Nat) (h : Heap) : Option Heap :=
  let bp := ap - sizeofHeader
  match freeFind h.mem bp fuel h.freep with
  | none => none
  | some p => some { h with mem := joinLower (joinUpper h.mem bp p) bp p, freep := p }

/-! ## `my_malloc` -/

def myMorecore (fuel nu : Nat) (h : Heap) : Option (Nat × Heap) :=
  let nu := if nu < nalloc then nalloc else nu
  match sbrk (toInt (nu * sizeofHeader : Nat)) h.os with
  | (none, os) => some (0, { h with os })
  | (some cp, os) =>
    match myFree fuel (cp + sizeofHeader) { h with mem := setSize h.mem cp nu, os } with
    | none => none
    | some h => some (h.freep, h)

/-- The `for` loop of `my_malloc`. -/
def mallocLoop (nunits : Nat) : Nat → Nat → Nat → Heap → Option (Nat × Heap)
  | 0, _, _, _ => none
  | fuel + 1, prevp, p, h =>
    if size h.mem p ≥ nunits then
      if size h.mem p = nunits then
        some (p + sizeofHeader,
          { h with mem := setNext h.mem prevp (next h.mem p), freep := prevp })
      else
        -- the tail of the block is given out
        let m := setSize h.mem p (size h.mem p - nunits)
        let q := p + sizeofHeader * size m p
        some (q + sizeofHeader, { h with mem := setSize m q nunits, freep := prevp })
    else if p = h.freep then
      match myMorecore fuel nunits h with
      | none => none
      | some (p, h) => if p = 0 then some (0, h) else mallocLoop nunits fuel p (next h.mem p) h
    else mallocLoop nunits fuel p (next h.mem p) h

/-- `nunits` of `my_malloc`: the header and the rounded up payload, as an `unsigned`. -/
def nunits (nbytes : Nat) : Nat := ((nbytes + sizeofHeader - 1) / sizeofHeader + 1) % 2 ^ 32

/-- The one-time initialisation at the head of `my_malloc`. -/
def initBase (base : Nat) (h : Heap) : Heap :=
  if h.freep = 0 then
    { h with mem := setSize (setNext h.mem base base) base 0, freep := base }
  else h

def myMalloc (base fuel nbytes : Nat) (h : Heap) : Option (Nat × Heap) :=
  let h := initBase base h
  mallocLoop (nunits nbytes) fuel h.freep (next h.mem h.freep) h

/-! ## The program and its clients -/

/-- A pointer that `my_malloc nbytes` returned and that is not freed yet. -/
structure Live where
  ptr : Nat
  nbytes : Nat
deriving DecidableEq

structure Sys where
  heap : Heap
  live : List Live

inductive Event
  | malloc (nbytes : Nat)
  | free (ptr : Nat)
  | write (addr : Nat) (b : UInt8)

/-- The byte count of the request fits the `int` that `sbrk` takes. -/
def Fits (nbytes : Nat) : Prop := max (nunits nbytes) nalloc * sizeofHeader < 2 ^ 31

inductive Step (base : Nat) : Sys → Event → Sys → Prop
  | malloc {s : Sys} {nbytes fuel p : Nat} {h : Heap} :
      nbytes < 2 ^ 32 → Fits nbytes → myMalloc base fuel nbytes s.heap = some (p, h) →
      Step base s (.malloc nbytes) ⟨h, if p = 0 then s.live else ⟨p, nbytes⟩ :: s.live⟩
  | free {s : Sys} {l : Live} {fuel : Nat} {h : Heap} :
      l ∈ s.live → myFree fuel l.ptr s.heap = some h →
      Step base s (.free l.ptr) ⟨h, s.live.erase l⟩
  | write {s : Sys} {l : Live} {i : Nat} (b : UInt8) :
      l ∈ s.live → i < l.nbytes →
      Step base s (.write (l.ptr + i) b)
        ⟨{ s.heap with mem := Function.update s.heap.mem (l.ptr + i) b }, s.live⟩

/-- Before the first call: `freep == NULL`. -/
def init (mem : Mem) (answers : Nat → Option Nat) : Sys := ⟨⟨mem, 0, ⟨answers, 0, []⟩⟩, []⟩

end CPrograms.Malloc
