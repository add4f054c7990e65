import CPrograms.Lib.Chunks
import CPrograms.Lib.CInts

/-!
# The blocks of a file

`uring_cat.c`, `liburing_cat.c` and `regular_cat.c` of `uring_test` count the blocks of a file
with a size that was converted to an `int`, and fill the iovecs of the blocks with a loop over
the size itself.  The two agree exactly for sizes below `2 ^ 31` (`blocks_exact`); a size of
-1 is refused by the first program only, and so is one whose count is negative, for which
`malloc` is asked for more than there can be.
-/

namespace CPrograms.UringCat

open Chunks CInts

/-- `(int) file_sz / BLOCK_SZ`, and `blocks++` if there is a rest. -/
def countBlocks (blockSz : Nat) (fileSz : Int) : Int :=
  (toInt fileSz).tdiv blockSz + if fileSz.tmod blockSz ≠ 0 then 1 else 0

/-- The loop over the iovecs from `current` on: the lengths that it sets, and whether it went
through.  `memalign` says which allocations fail; `lenFirst` that the length is set before. -/
def fillLoop (blockSz : Nat) [NeZero blockSz] (lenFirst : Bool) (memalign : Nat → Bool)
    (current : Nat) (bytesRemaining : Int) : List Int × Bool :=
  if bytesRemaining = 0 then ([], true)
  else
    let bytesToRead := next blockSz bytesRemaining
    if memalign current then
      let (lens, finished) :=
        fillLoop blockSz lenFirst memalign (current + 1) (bytesRemaining - bytesToRead)
      (bytesToRead :: lens, finished)
    else (if lenFirst then [bytesToRead] else [], false)
termination_by bytesRemaining.natAbs
decreasing_by
  rename_i h _
  exact natAbs_sub_next h

/-- What was allocated, and what was filled. -/
structure Filled where
  blocks : Int
  lens : List Int
  finished : Bool
deriving DecidableEq

def fill (blockSz : Nat) [NeZero blockSz] (lenFirst : Bool) (memalign : Nat → Bool) (fileSz : Int) :
    Filled :=
  let (lens, finished) := fillLoop blockSz lenFirst memalign 0 fileSz
  ⟨countBlocks blockSz fileSz, lens, finished⟩

/-! ## The three programs -/

/-- `BLOCK_SZ` of the two programs with a ring. -/
abbrev ringBlockSz : Nat := 1024

instance : NeZero ringBlockSz := ⟨by decide⟩

/-- `BLOCK_SZ` of `regular_cat.c`. -/
abbrev regularBlockSz : Nat := 4096

/-- Which requests `malloc` grants: none of more than `PTRDIFF_MAX` bytes. -/
structure Malloc where
  grants : Nat → Bool
  ptrdiffMax : ∀ n, 2 ^ 63 ≤ n → grants n = false

/-- `sizeof(*fi) + sizeof(struct iovec) * blocks`, a `size_t`. -/
def fileInfoSize (blocks : Int) : Nat := ((8 + 16 * blocks) % 2 ^ 64).toNat

/-- `submit_to_sq`; `none`: it returns before. -/
def submitToSqFill (malloc : Malloc) (memalign : Nat → Bool) (fileSz : Int) : Option Filled :=
  if fileSz < 0 then none
  else if !malloc.grants (fileInfoSize (countBlocks ringBlockSz fileSz)) then none
  else some (fill ringBlockSz true memalign fileSz)

/-- `submit_read_request`, which does not look at what `malloc` gives. -/
def submitReadRequestFill (fileSz : Int) : Filled := fill ringBlockSz true (fun _ => true) fileSz

/-- `read_and_print_file`, which prints a message if `malloc` failed and goes on. -/
def readAndPrintFileFill (memalign : Nat → Bool) (fileSz : Int) : Filled :=
  fill regularBlockSz false memalign fileSz

/-! ## What is filled -/

section

variable {B : Nat} [NeZero B] {lenFirst : Bool} {memalign : Nat → Bool}

theorem fillLoop_spec (n : Int) : ∀ current : Nat,
    (fillLoop B lenFirst memalign current n).1 <+: chunks B n ∧
      ((fillLoop B lenFirst memalign current n).2 = true →
        (fillLoop B lenFirst memalign current n).1 = chunks B n) := by
  induction n using chunks_induction (B := B) with
  | zero =>
    intro current
    rw [fillLoop, if_pos rfl, chunks_zero]
    exact ⟨List.prefix_refl _, fun _ => rfl⟩
  | step n hn ih =>
    intro current
    rw [fillLoop, if_neg hn, chunks_of_ne hn]
    by_cases halloc : memalign current
    · obtain ⟨hpre, hall⟩ := ih (current + 1)
      rw [if_pos halloc]
      refine ⟨(List.cons_prefix_cons).2 ⟨rfl, hpre⟩, fun hfin => ?_⟩
      exact congrArg _ (hall hfin)
    · rw [if_neg halloc]
      refine ⟨?_, fun hfin => absurd hfin Bool.false_ne_true⟩
      cases lenFirst with
      | false => exact List.nil_prefix
      | true => exact (List.cons_prefix_cons).2 ⟨rfl, List.nil_prefix⟩

/-- Where no allocation fails. -/
theorem fillLoop_all (n : Int) : ∀ current : Nat,
    fillLoop B lenFirst (fun _ => true) current n = (chunks B n, true) := by
  induction n using chunks_induction (B := B) with
  | zero =>
    intro current
    rw [fillLoop, if_pos rfl, chunks_zero]
  | step n hn ih =>
    intro current
    rw [fillLoop, if_neg hn, chunks_of_ne hn, if_pos rfl, ih]

end

/-- As many iovecs as the loop fills, each of a block or less and none empty, and of the size of
the file in all. -/
structure Fits (blockSz : Nat) (fileSz : Int) (f : Filled) : Prop where
  count : f.finished = true → (f.lens.length : Int) = f.blocks
  index : (f.lens.length : Int) ≤ f.blocks
  lens : ∀ len ∈ f.lens, 1 ≤ len ∧ len ≤ blockSz
  sum : f.finished = true → f.lens.sum = fileSz

/-! ## The count -/

section

variable {B : Nat} [NeZero B]

theorem countBlocks_small {n : Int} (h : 0 ≤ n) (hlt : n < 2 ^ 31) :
    countBlocks B n = (chunks B n).length := by
  rw [length_chunks h, countBlocks, toInt_of_lt (by omega) hlt, Int.tdiv_eq_ediv_of_nonneg h,
    Int.tmod_eq_emod_of_nonneg h]
  by_cases hz : n % B = 0
  · rw [if_neg (not_not.2 hz), if_pos hz]
  · rw [if_pos hz, if_neg hz]

theorem tdiv_mul_le {v : Int} : v.tdiv B * B ≤ v ∨ v < 0 ∧ v.tdiv B * B ≤ v + B - 1 := by
  have hB := block_pos (B := B)
  have h := Int.tdiv_mul_le v (b := B) (by omega)
  by_cases hv : 0 ≤ v
  · rw [if_pos hv] at h
    omega
  · rw [if_neg hv] at h
    omega

/-- From `2 ^ 31` bytes on there are more blocks than are counted. -/
theorem countBlocks_large {M n : Int} (hM : M * B = 2 ^ 31) (h : 2 ^ 31 ≤ n) :
    countBlocks B n < (chunks B n).length := by
  have hB := block_pos (B := B)
  have hpos : 0 < M := by
    by_contra hle
    have := Int.mul_le_mul_of_nonneg_right (Int.not_lt.1 hle) (Int.natCast_nonneg B)
    omega
  have hBM : (B : Int) ≤ M * B := by
    have := Int.mul_le_mul_of_nonneg_right (show 1 ≤ M by omega) (Int.natCast_nonneg B)
    omega
  have hlen := (length_chunks_bounds (B := B) (n := n) (by omega)).1
  have hone : countBlocks B n ≤ (toInt n).tdiv B + 1 := by
    unfold countBlocks
    split
    · omega
    · omega
  have hlt := toInt_lt n
  have hdiv := tdiv_mul_le (B := B) (v := toInt n)
  by_cases heq : n = 2 ^ 31
  · -- the size is converted to the smallest `int`
    have hneg : toInt n = -2 ^ 31 := by
      rw [heq]
      rfl
    have hcount : (toInt n).tdiv B < 0 :=
      Int.lt_of_mul_lt_mul_right (a := (B : Int)) (by omega) (by omega)
    have hM' : M ≤ (chunks B n).length :=
      Int.le_of_mul_le_mul_right (a := (B : Int)) (by omega) (by omega)
    omega
  · have hcount : (toInt n).tdiv B < M :=
      Int.lt_of_mul_lt_mul_right (a := (B : Int)) (by omega) (by omega)
    have hM' : M < (chunks B n).length :=
      Int.lt_of_mul_lt_mul_right (a := (B : Int)) (by omega) (by omega)
    omega

end

/-! ## Which sizes -/

section

variable {B : Nat} [NeZero B] {lenFirst : Bool}

theorem fill_fits (memalign : Nat → Bool) {n : Int} (h : 0 ≤ n) (hlt : n < 2 ^ 31) :
    Fits B n (fill B lenFirst memalign n) := by
  obtain ⟨hpre, hall⟩ := @fillLoop_spec B _ lenFirst memalign n 0
  have hcount := countBlocks_small (B := B) h hlt
  constructor
  · intro hfin
    show ((fillLoop B lenFirst memalign 0 n).1.length : Int) = countBlocks B n
    rw [hall hfin, hcount]
  · show ((fillLoop B lenFirst memalign 0 n).1.length : Int) ≤ countBlocks B n
    rw [hcount]
    exact Int.ofNat_le.2 hpre.length_le
  · intro len hlen
    exact mem_chunks h len (hpre.subset hlen)
  · intro hfin
    show (fillLoop B lenFirst memalign 0 n).1.sum = n
    rw [hall hfin, chunks_sum]

/-- Where no allocation fails, all chunks are filled. -/
theorem fill_all (n : Int) :
    fill B lenFirst (fun _ => true) n = ⟨countBlocks B n, chunks B n, true⟩ := by
  rw [fill, fillLoop_all]

theorem fill_exact {M n : Int} (hM : M * B = 2 ^ 31) :
    Fits B n (fill B lenFirst (fun _ => true) n) ↔ 0 ≤ n ∧ n < 2 ^ 31 := by
  constructor
  · intro hfits
    rw [fill_all] at hfits
    by_contra hout
    by_cases hneg : n < 0
    · -- the only length is the size itself
      have hnext : next B n = n := if_neg (by omega)
      have hmem : n ∈ chunks B n := by
        rw [chunks_of_ne (by omega), hnext]
        exact List.mem_cons_self
      have := hfits.lens n hmem
      omega
    · have hlarge := countBlocks_large hM (n := n) (by omega)
      have hindex := hfits.index
      dsimp only at hindex
      omega
  · rintro ⟨h, hlt⟩
    exact fill_fits _ h hlt

end

/-- The sizes for which a negative number of blocks is counted, by their low 32 bits. -/
def CountsNegative (fileSz : Int) : Prop :=
  2 ^ 31 ≤ fileSz % 2 ^ 32 ∧ fileSz % 2 ^ 32 ≤ 2 ^ 32 - 2048 ∨ fileSz % 2 ^ 32 = 2 ^ 32 - 1024

theorem countBlocks_neg_iff {n : Int} (h : 0 ≤ n) : countBlocks ringBlockSz n < 0 ↔ CountsNegative n := by
  have hblock : ((ringBlockSz : Nat) : Int) = 1024 := rfl
  have hlow : n % 1024 = n % 2 ^ 32 % 1024 := by omega
  rw [countBlocks, toInt_eq_emod, Int.tmod_eq_emod_of_nonneg h, hblock, hlow, CountsNegative]
  have h0 : 0 ≤ n % 2 ^ 32 := by omega
  have hlt : n % 2 ^ 32 < 2 ^ 32 := by omega
  generalize n % 2 ^ 32 = low at *
  by_cases hsmall : low < 2 ^ 31
  · rw [if_pos hsmall, Int.tdiv_eq_ediv_of_nonneg h0]
    split
    · omega
    · omega
  · -- the quotient is rounded to zero
    have hneg : (low - 2 ^ 32).tdiv 1024 = -((2 ^ 32 - low) / 1024) := by
      rw [show low - 2 ^ 32 = -(2 ^ 32 - low) by omega, Int.neg_tdiv, Int.tdiv_eq_ediv_of_nonneg (by omega)]
    rw [if_neg hsmall, hneg]
    split
    · omega
    · omega

theorem countBlocks_bounds (n : Int) :
    -2 ^ 31 ≤ countBlocks ringBlockSz n ∧ countBlocks ringBlockSz n ≤ 2 ^ 31 + 1 := by
  have hle := Int.natAbs_tdiv_le_natAbs (toInt n) ringBlockSz
  have hlow := neg_le_toInt n
  have hhigh := toInt_lt n
  unfold countBlocks
  generalize (toInt n).tdiv ringBlockSz = q at *
  generalize toInt n = v at *
  split
  · omega
  · omega

/-- For a negative number of blocks it is asked for too much. -/
theorem Malloc.not_grants (malloc : Malloc) {fileSz : Int} (h : countBlocks ringBlockSz fileSz < 0) :
    malloc.grants (fileInfoSize (countBlocks ringBlockSz fileSz)) = false := by
  have hbounds := countBlocks_bounds fileSz
  refine malloc.ptrdiffMax _ ?_
  unfold fileInfoSize
  omega

/-- Every request that there can be memory for is granted. -/
def Malloc.plenty : Malloc where
  grants n := decide (n < 2 ^ 63)
  ptrdiffMax _ h := decide_eq_false (Nat.not_lt.2 h)

theorem Malloc.plenty_grants {fileSz : Int} (h : 0 ≤ countBlocks ringBlockSz fileSz) :
    plenty.grants (fileInfoSize (countBlocks ringBlockSz fileSz)) = true := by
  have hbounds := countBlocks_bounds fileSz
  refine decide_eq_true ?_
  unfold fileInfoSize
  omega

/-- **The blocks.**  The sizes for which what is allocated is filled, in each of the programs. -/
theorem blocks_exact (fileSz : Int) :
    ((∀ malloc memalign f, submitToSqFill malloc memalign fileSz = some f →
        Fits ringBlockSz fileSz f) ↔ fileSz < 2 ^ 31 ∨ CountsNegative fileSz) ∧
    (Fits ringBlockSz fileSz (submitReadRequestFill fileSz) ↔ 0 ≤ fileSz ∧ fileSz < 2 ^ 31) ∧
    ((∀ memalign, Fits regularBlockSz fileSz (readAndPrintFileFill memalign fileSz)) ↔
      0 ≤ fileSz ∧ fileSz < 2 ^ 31) := by
  refine ⟨?_, fill_exact (M := 2097152) (by decide), ?_⟩
  · constructor
    · intro hall
      by_contra hout
      rw [not_or] at hout
      have hcount : 0 ≤ countBlocks ringBlockSz fileSz :=
        Int.not_lt.1 (mt (countBlocks_neg_iff (by omega)).1 hout.2)
      have hsome : submitToSqFill .plenty (fun _ => true) fileSz =
          some (fill ringBlockSz true (fun _ => true) fileSz) := by
        unfold submitToSqFill
        rw [if_neg (by omega), Malloc.plenty_grants hcount]
        rfl
      have := ((fill_exact (M := 2097152) (by decide)).1 (hall .plenty _ _ hsome)).2
      omega
    · intro hsize malloc memalign f hf
      unfold submitToSqFill at hf
      by_cases hneg : fileSz < 0
      · rw [if_pos hneg] at hf
        cases hf
      · rw [if_neg hneg] at hf
        by_cases hgrant : malloc.grants (fileInfoSize (countBlocks ringBlockSz fileSz)) = true
        · have hlt : fileSz < 2 ^ 31 := by
            refine hsize.resolve_right fun hcount => ?_
            rw [malloc.not_grants ((countBlocks_neg_iff (by omega)).2 hcount)] at hgrant
            cases hgrant
          rw [hgrant] at hf
          rw [← Option.some.inj hf]
          exact fill_fits memalign (by omega) hlt
        · rw [Bool.not_eq_true] at hgrant
          rw [hgrant] at hf
          cases hf
  · constructor
    · exact fun hall => (fill_exact (M := 524288) (by decide)).1 (hall fun _ => true)
    · exact fun h memalign => fill_fits memalign h.1 h.2

/-- A file of 4 GiB and a byte, for which one iovec is allocated. -/
theorem four_gib_overruns :
    ¬ (∀ malloc memalign f, submitToSqFill malloc memalign 4294967297 = some f →
      Fits ringBlockSz 4294967297 f) ∧ ¬ Fits ringBlockSz 4294967297 (submitReadRequestFill 4294967297) := by
  constructor
  · intro hall
    have := (fill_exact (M := 2097152) (n := 4294967297) (by decide)).1 (hall .plenty (fun _ => true) _ rfl)
    omega
  · intro hfits
    have := (fill_exact (M := 2097152) (n := 4294967297) (by decide)).1 hfits
    omega

end CPrograms.UringCat
