import Mathlib.Algebra.Ring.Int.Defs
import Mathlib.Data.List.Basic

/-!
# `leetcode/01_dp.c` and `leetcode/02_dp.c`

An `int` is its number; `add` and `sub` have no result where the addition overflows, and a
read outside an array has none.  An array that a function writes to is passed on.
-/

namespace CPrograms.Leetcode

def inInt (x : Int) : Prop := -2 ^ 31 ≤ x ∧ x < 2 ^ 31

instance (x : Int) : Decidable (inInt x) := inferInstanceAs (Decidable (_ ∧ _))

def add (x y : Int) : Option Int := if inInt (x + y) then some (x + y) else none

def sub (x y : Int) : Option Int := if inInt (x - y) then some (x - y) else none

/-- The `max` of the file. -/
def maxInt (x y : Int) : Int := if x > y then x else y

/-! ## `01_dp.c` -/

/-- The arguments of a call are evaluated in an order that the compiler chooses. -/
inductive Order
  | leftFirst
  | rightFirst

/-- `max(*arr, ++*arr)`, and what it leaves in the array. -/
def maxBump (o : Order) (arr : List Int) : Option (Int × List Int) := do
  let x ← arr[0]?
  let bumped ← add x 1
  match o with
  | .leftFirst => some (maxInt x bumped, arr.set 0 bumped)
  | .rightFirst => some (maxInt bumped bumped, arr.set 0 bumped)

def recOpt (o : Order) (arr : List Int) : Nat → Option (Int × List Int)
  | 0 => do
    let x ← arr[0]?
    some (x, arr)
  | 1 => maxBump o arr
  | i + 2 => do
    let (x, arr) ← recOpt o arr i
    let y ← arr[i + 2]?
    let a ← add x y
    let (b, arr) ← recOpt o arr (i + 1)
    some (maxInt a b, arr)

def sizeofMemory : Nat := 200

/-- `memory[i] = v` -/
def memorise (memory : List Int) (i : Nat) (v : Int) (arr : List Int) :
    Option (Int × List Int × List Int) :=
  if i < memory.length then some (v, arr, memory.set i v) else none

/-- The result, the array and the table. -/
def memoryRecOpt (o : Order) (arr memory : List Int) : Nat → Option (Int × List Int × List Int)
  | 0 => do
    let x ← arr[0]?
    memorise memory 0 x arr
  | 1 => do
    let (v, arr) ← maxBump o arr
    memorise memory 1 v arr
  | i + 2 => do
    let m ← memory[i + 2]?
    if m = 0 then
      match o with
      | .leftFirst =>
        let (x, arr, memory) ← memoryRecOpt o arr memory i
        let y ← arr[i + 2]?
        let a ← add x y
        let (b, arr, memory) ← memoryRecOpt o arr memory (i + 1)
        memorise memory (i + 2) (maxInt a b) arr
      | .rightFirst =>
        let (b, arr, memory) ← memoryRecOpt o arr memory (i + 1)
        let (x, arr, memory) ← memoryRecOpt o arr memory i
        let y ← arr[i + 2]?
        let a ← add x y
        memorise memory (i + 2) (maxInt a b) arr
    else some (m, arr, memory)

/-- The loop, with the turns that are left; `opt` is as far as it is written. -/
def dpLoop (arr : List Int) : Nat → Nat → List Int → Option (List Int)
  | 0, _, opt => some opt
  | turns + 1, i, opt => do
    let x ← opt[i - 2]?
    let y ← arr[i]?
    let a ← add x y
    let b ← opt[i - 1]?
    dpLoop arr turns (i + 1) (opt ++ [maxInt a b])

def dpOpt (arr : List Int) (length : Nat) : Option Int :=
  -- `opt[1]` is written whatever the length
  if length < 2 then none
  else do
    let x ← arr[0]?
    let y ← arr[1]?
    let opt ← dpLoop arr (length - 2) 2 [x, maxInt x y]
    opt[length - 1]?

/-! ### Calls, one after the other -/

inductive Fn
  | recOpt
  | memoryRecOpt
  | dpOpt

structure Proc where
  memory : List Int
  arrays : List (List Int)

def Proc.start (arrays : List (List Int)) : Proc := ⟨List.replicate sizeofMemory 0, arrays⟩

/-- `f` is called on the whole array `k`. -/
def call (o : Order) (p : Proc) (f : Fn) (k : Nat) : Option (Int × Proc) := do
  let arr ← p.arrays[k]?
  match f with
  | .recOpt =>
    let (v, arr) ← recOpt o arr (arr.length - 1)
    some (v, ⟨p.memory, p.arrays.set k arr⟩)
  | .memoryRecOpt =>
    let (v, arr, memory) ← memoryRecOpt o arr p.memory (arr.length - 1)
    some (v, ⟨memory, p.arrays.set k arr⟩)
  | .dpOpt =>
    let v ← dpOpt arr arr.length
    some (v, p)

/-- What the calls return, and the process after them. -/
def calls (o : Order) (p : Proc) : List (Fn × Nat) → Option (List Int × Proc)
  | [] => some ([], p)
  | (f, k) :: cs => do
    let (v, p) ← call o p f k
    let (vs, p) ← calls o p cs
    some (v :: vs, p)

/-! ## `02_dp.c` -/

def recSubset (arr : List Int) : Nat → Int → Option Int
  | 0, _ => none
  | 1, s => do
    let x ← arr[0]?
    some (if x = s then 1 else 0)
  | i + 2, s => do
    let x ← arr[i + 1]?
    if x > s then recSubset arr (i + 1) s
    else if x = s then some 1
    else
      let rest ← sub s x
      let chosen ← recSubset arr (i + 1) rest
      if chosen ≠ 0 then some 1
      else
        let r ← recSubset arr (i + 1) s
        some (if r ≠ 0 then 1 else 0)

end CPrograms.Leetcode
