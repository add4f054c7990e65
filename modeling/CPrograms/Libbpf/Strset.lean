import CPrograms.Lib.CInts
import CPrograms.Lib.Lines
import CPrograms.Libbpf.Keys

/-!
# The string set of `bpf/libbpf/src/strset.c`

The strings stand one after the other in `strs_data`, and a hash map whose keys are their offsets finds
them.  `hash_fn` and `equal_fn` read the data, so that a string has to be put behind the data before it can be
looked up.  What `realloc` answers is given with each call.  No object has `2 ^ 63` bytes, so that
the sizes do not overflow.
-/

namespace CPrograms.Libbpf

open Chains CInts

/-- The string at an offset. -/
def strAt (data : List UInt8) (key : Int) : List UInt8 := (data.drop key.toNat).takeWhile (· ≠ 0)

def strHash (s : List UInt8) : Nat := s.foldl (fun h c => ((h * 31 + Lines.fromChar c : Int) % 2 ^ 64).toNat) 0

/-- `strset_hash_fn` and `strset_equal_fn` -/
def strsetFns (data : List UInt8) :
    Fns := ⟨fun key => strHash (strAt data key), fun k l => strAt data k = strAt data l⟩

structure Strset where
  /-- `strs_data_cap` bytes -/
  strsData : List UInt8
  strsDataLen : Nat
  strsDataMaxLen : Nat
  strsHash : State

/-- Elements of one byte. -/
def libbpfAddMem (data : List UInt8) (curCnt maxCnt addCnt : Nat) (realloc : Bool) : Option (List UInt8) :=
  if curCnt + addCnt ≤ data.length then some data
  else if maxCnt < curCnt + addCnt then none
  else
    let newCnt := max (data.length + data.length / 4) 16
    let newCnt := max (min newCnt maxCnt) (curCnt + addCnt)
    if realloc then some (data ++ List.replicate (newCnt - data.length) 0) else none

/-- `memcpy(data + off, bytes, ..)` -/
def memcpyAt (data : List UInt8) (off : Nat) (bytes : List UInt8) : List UInt8 :=
  data.take off ++ bytes ++ data.drop (off + bytes.length)

/-- The loop of `strset__new`, from `off` on; what `calloc` and `malloc` answer for each string, the latter with
a view to what is on the heap. -/
def indexStrs : Nat → Strset → Nat → List (Bool × (Heap Pair → Option Nat)) → Option (Except Int Strset)
  | 0, _, _, _ => none
  | fuel + 1, set, off, answers =>
    if off < set.strsDataLen then do
      let (calloc, malloc) := answers.headD (false, fun _ => none)
      let (hash, r) ← hashmapInsert (set.strsHash.map.sz + 1)
        (strsetFns set.strsData) set.strsHash off off .add calloc
        (malloc set.strsHash.heap)
      let set := { set with strsHash := hash }
      if r.ret ≠ 0 ∧ r.ret ≠ -EEXIST then some (.error r.ret)
      else indexStrs fuel set (off + (strAt set.strsData off).length + 1) answers.tail
    else some (.ok set)

/-- With `init_data`. -/
def strsetNew (maxDataSz : Nat) (initData : List UInt8) (answers : List (Bool × (Heap Pair → Option Nat))) :
    Option (Except Int Strset) :=
  indexStrs (initData.length + 1) ⟨initData, initData.length, maxDataSz, start⟩ 0 answers

def strsetFindStr (set : Strset) (s : List UInt8) (realloc : Bool) : Option (Strset × Int) :=
  match libbpfAddMem set.strsData set.strsDataLen set.strsDataMaxLen (s.length + 1) realloc with
  | none => some (set, -ENOMEM)
  | some data => do
    let newOff := set.strsDataLen
    let data := memcpyAt data newOff (s ++ [0])
    let set := { set with strsData := data }
    match ← hashmapFind (set.strsHash.map.sz + 1) (strsetFns data) set.strsHash newOff with
    | some oldOff => some (set, toInt oldOff)
    | none => some (set, -ENOENT)

def strsetAddStr (set : Strset) (s : List UInt8) (realloc calloc : Bool) (malloc : Option Nat) :
    Option (Strset × Int) :=
  match libbpfAddMem set.strsData set.strsDataLen set.strsDataMaxLen (s.length + 1) realloc with
  | none => some (set, -ENOMEM)
  | some data => do
    let newOff := set.strsDataLen
    let data := memcpyAt data newOff (s ++ [0])
    let (hash, r) ← hashmapInsert (set.strsHash.map.sz + 1)
      (strsetFns data) set.strsHash newOff newOff .add calloc malloc
    let set := { set with strsData := data, strsHash := hash }
    if r.ret = -EEXIST then some (set, toInt r.oldKey)
    else if r.ret ≠ 0 then some (set, r.ret)
    else some ({ set with strsDataLen := set.strsDataLen + (s.length + 1) }, toInt newOff)

end CPrograms.Libbpf
