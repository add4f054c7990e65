import CPrograms.Lib.Chains
import Mathlib.Algebra.Group.Nat.Defs

/-!
# The hash map of `bpf/libbpf/src/hashmap.c`

The entries are nodes on a heap, a bucket is a chain of them.  `Ref` is what `pprev` points to: the
slot of a bucket, or the `next` of an entry.  A use of memory that is not allocated, or of a slot
that is not there, has no result (`none`); neither has a loop that its fuel does not suffice for.
What `calloc` and `malloc` answer is given with each call.
-/

namespace CPrograms.Libbpf

open Chains

structure Pair where
  key : Int
  value : Int
deriving DecidableEq

/-- `hash_fn` and `equal_fn`, with their `ctx`. -/
structure Fns where
  hashFn : Int → Nat
  equalFn : Int → Int → Bool

inductive Ref
  | bucket (i : Nat)
  | next (a : Nat)
deriving DecidableEq

structure Hashmap where
  buckets : Option (List (Option Nat))
  cap : Nat
  capBits : Nat
  sz : Nat

/-- The map, and the entries on the heap. -/
structure State where
  heap : Heap Pair
  map : Hashmap

inductive Strategy
  | add
  | set
  | update
  | append
deriving DecidableEq

/-- What `hashmap_insert` returns, `*old_key` and `*old_value`. -/
structure Inserted where
  ret : Int
  oldKey : Int
  oldValue : Int
deriving DecidableEq

def ENOENT : Int := 2
def ENOMEM : Int := 12
def EEXIST : Int := 17

def minCapBits : Nat := 2

def hashBits (h bits : Nat) : Nat :=
  if bits = 0 then 0 else h * 11400714819323198485 % 2 ^ 64 / 2 ^ (64 - bits)

/-- `sz++` and `sz--` of a `size_t` -/
def sizeInc (sz : Nat) : Nat := (sz + 1) % 2 ^ 64

def sizeDec (sz : Nat) : Nat := (sz + 2 ^ 64 - 1) % 2 ^ 64

def hashmapInit : Hashmap := ⟨none, 0, 0, 0⟩

/-- A new map, and nothing else on the heap. -/
def start : State := ⟨fun _ => none, hashmapInit⟩

/-- `map->buckets[i]` -/
def Hashmap.bucket (m : Hashmap) (i : Nat) : Option (Option Nat) := m.buckets.bind fun bs => bs[i]?

/-! ## Entries -/

/-- `pprev` is `&buckets[i]`. -/
def hashmapAddEntry (heap : Heap Pair) (buckets : List (Option Nat)) (i a : Nat) :
    Option (Heap Pair × List (Option Nat)) := do
  let head ← buckets[i]?
  let entry ← heap a
  some (Function.update heap a (some { entry with next := head }), buckets.set i (some a))

/-- `*pprev = p` -/
def State.store (s : State) (p : Option Nat) : Ref → Option State
  | .bucket i => do
    let bs ← s.map.buckets
    if i < bs.length then some { s with map := { s.map with buckets := some (bs.set i p) } } else none
  | .next a => do
    let entry ← s.heap a
    some { s with heap := Function.update s.heap a (some { entry with next := p }) }

def hashmapDelEntry (s : State) (pprev : Ref) (a : Nat) : Option State := do
  let entry ← s.heap a
  let s ← s.store entry.next pprev
  s.store none (.next a)

def free (heap : Heap Pair) (a : Nat) : Option (Heap Pair) := do
  let _ ← heap a
  some (Function.update heap a none)

/-! ## `hashmap__clear` -/

def freeChain (heap : Heap Pair) : Nat → Option Nat → Option (Heap Pair)
  | 0, _ => none
  | _ + 1, none => some heap
  | fuel + 1, some cur => do
    let entry ← heap cur
    let heap ← free heap cur
    freeChain heap fuel entry.next

def hashmapClear (fuel : Nat) (s : State) : Option State := do
  let heap ← (List.range s.map.cap).foldlM (fun heap bkt => do
    let head ← s.map.bucket bkt
    freeChain heap fuel head) s.heap
  some ⟨heap, hashmapInit⟩

/-! ## `hashmap_grow` -/

/-- grow if empty or more than 75% filled -/
def hashmapNeedsToGrow (m : Hashmap) : Bool :=
  m.cap = 0 ∨ m.cap < sizeInc m.sz * 4 % 2 ^ 64 / 3

/-- The entries of one bucket, moved to the new ones. -/
def moveChain (hashFn : Int → Nat) (bits : Nat) :
    Nat → Heap Pair × List (Option Nat) → Option Nat → Option (Heap Pair × List (Option Nat))
  | 0, _, _ => none
  | _ + 1, new, none => some new
  | fuel + 1, (heap, new), some cur => do
    let entry ← heap cur
    let new ← hashmapAddEntry heap new (hashBits (hashFn entry.data.key) bits) cur
    moveChain hashFn bits fuel new entry.next

/-- `calloc` looks for an overflow of its product itself. -/
def hashmapGrow (fuel : Nat) (hashFn : Int → Nat) (s : State) (calloc : Bool) : Option (State × Int) :=
  let newBits := max (s.map.capBits + 1) minCapBits
  let newCap := 2 ^ newBits
  if calloc = false ∨ 2 ^ 64 ≤ newCap * 8 then some (s, -ENOMEM)
  else do
    let (heap, new) ← (List.range s.map.cap).foldlM (fun new bkt => do
      let head ← s.map.bucket bkt
      moveChain hashFn newBits fuel new head) (s.heap, List.replicate newCap none)
    some (⟨heap, some new, newCap, newBits, s.map.sz⟩, 0)

/-! ## Lookup -/

def findLoop (heap : Heap Pair) (equalFn : Int → Int → Bool) (key : Int) :
    Nat → Ref → Option Nat → Option (Option (Ref × Nat))
  | 0, _, _ => none
  | _ + 1, _, none => some none
  | fuel + 1, pprev, some cur => do
    let entry ← heap cur
    if equalFn entry.data.key key then some (some (pprev, cur))
    else findLoop heap equalFn key fuel (.next cur) entry.next

/-- `pprev` and `entry`, if it returns true. -/
def hashmapFindEntry (fuel : Nat) (fns : Fns) (s : State) (key : Int) (hash : Nat) :
    Option (Option (Ref × Nat)) :=
  if s.map.buckets = none then some none
  else do
    let head ← s.map.bucket hash
    findLoop s.heap fns.equalFn key fuel (.bucket hash) head

/-- `*value`, if it returns true. -/
def hashmapFind (fuel : Nat) (fns : Fns) (s : State) (key : Int) : Option (Option Int) := do
  let h := hashBits (fns.hashFn key) s.map.capBits
  match ← hashmapFindEntry fuel fns s key h with
  | none => some none
  | some (_, a) =>
    let entry ← s.heap a
    some (some entry.data.value)

/-- The entries that `hashmap__for_each_key_entry` stops at. -/
def eachLoop (heap : Heap Pair) (equalFn : Int → Int → Bool) (key : Int) : Nat → Option Nat → Option (List Pair)
  | 0, _ => none
  | _ + 1, none => some []
  | fuel + 1, some cur => do
    let entry ← heap cur
    let rest ← eachLoop heap equalFn key fuel entry.next
    some (if equalFn entry.data.key key then entry.data :: rest else rest)

def hashmapForEachKeyEntry (fuel : Nat) (fns : Fns) (s : State) (key : Int) : Option (List Pair) :=
  if s.map.buckets = none then some []
  else do
    let head ← s.map.bucket (hashBits (fns.hashFn key) s.map.capBits)
    eachLoop s.heap fns.equalFn key fuel head

/-! ## Changes -/

/-- The end of `hashmap_insert`, from the second `if` on. -/
def insertNew (fuel : Nat) (fns : Fns) (s : State) (key value : Int) (strategy : Strategy) (calloc : Bool)
    (malloc : Option Nat) : Option (State × Inserted) :=
  if strategy = .update then some (s, ⟨-ENOENT, 0, 0⟩)
  else do
    let (s, err) ← (if hashmapNeedsToGrow s.map then hashmapGrow fuel fns.hashFn s calloc else some (s, 0))
    if err ≠ 0 then some (s, ⟨err, 0, 0⟩)
    else
      match malloc with
      | none => some (s, ⟨-ENOMEM, 0, 0⟩)
      | some entry =>
        let h := hashBits (fns.hashFn key) s.map.capBits
        let buckets ← s.map.buckets
        let (heap, buckets) ← hashmapAddEntry
          (Function.update s.heap entry (some ⟨⟨key, value⟩, none⟩)) buckets h entry
        some (⟨heap, { s.map with buckets := some buckets, sz := sizeInc s.map.sz }⟩, ⟨0, 0, 0⟩)

def hashmapInsert (fuel : Nat) (fns : Fns) (s : State) (key value : Int) (strategy : Strategy) (calloc : Bool)
    (malloc : Option Nat) : Option (State × Inserted) := do
  let h := hashBits (fns.hashFn key) s.map.capBits
  match ← (if strategy = .append then some none else hashmapFindEntry fuel fns s key h) with
  | none => insertNew fuel fns s key value strategy calloc malloc
  | some (_, a) =>
    let entry ← s.heap a
    if strategy = .set ∨ strategy = .update then
      some ({ s with heap := Function.update s.heap a (some { entry with data := ⟨key, value⟩ }) },
        ⟨0, entry.data.key, entry.data.value⟩)
    else some (s, ⟨-EEXIST, entry.data.key, entry.data.value⟩)

/-- `*old_key` and `*old_value`, if it returns true. -/
def hashmapDelete (fuel : Nat) (fns : Fns) (s : State) (key : Int) : Option (State × Option Pair) := do
  let h := hashBits (fns.hashFn key) s.map.capBits
  match ← hashmapFindEntry fuel fns s key h with
  | none => some (s, none)
  | some (pprev, a) =>
    let entry ← s.heap a
    let s ← hashmapDelEntry s pprev a
    let heap ← free s.heap a
    some (⟨heap, { s.map with sz := sizeDec s.map.sz }⟩, some entry.data)

end CPrograms.Libbpf
