import Mathlib.Algebra.BigOperators.Group.List.Basic
import Mathlib.Algebra.GroupWithZero.Nat
import Mathlib.Algebra.Order.Group.Int
import Mathlib.Algebra.Ring.Int.Defs

/-!
# Chunks

A number of bytes is handled in chunks: as many bytes as a block holds, or what is left of them,
until nothing is left.  The number that is left is signed, and the loop ends at zero only.

* `chunks_sum`: the chunks add up to the number.
* `mem_chunks`, `length_chunks`: of a number that is not negative they are between 1 and a block,
  and as many as the quotient, rounded up.
-/

namespace Chunks

variable {B : Nat} [NeZero B]

theorem block_pos : 0 < B := Nat.pos_of_ne_zero (NeZero.ne B)

/-- The next chunk, where `n` bytes are left. -/
def next (B : Nat) (n : Int) : Int := if n > B then B else n

theorem natAbs_sub_next {n : Int} (h : n ≠ 0) : (n - next B n).natAbs < n.natAbs := by
  have hB := block_pos (B := B)
  unfold next
  split
  · omega
  · omega

def chunks (B : Nat) [NeZero B] (n : Int) : List Int :=
  if n = 0 then [] else next B n :: chunks B (n - next B n)
termination_by n.natAbs
decreasing_by
  rename_i h
  exact natAbs_sub_next h

theorem chunks_zero : chunks B 0 = [] := by
  rw [chunks, if_pos rfl]

theorem chunks_of_ne {n : Int} (h : n ≠ 0) : chunks B n = next B n :: chunks B (n - next B n) := by
  rw [chunks, if_neg h]

/-- The induction on what is left. -/
theorem chunks_induction {P : Int → Prop} (zero : P 0)
    (step : ∀ n, n ≠ 0 → P (n - next B n) → P n) (n : Int) : P n := by
  have h (k : Nat) : ∀ n : Int, n.natAbs = k → P n := by
    induction k using Nat.strongRecOn with
    | ind k ih =>
      intro n hn
      by_cases hz : n = 0
      · exact hz ▸ zero
      · exact step n hz (ih _ (hn ▸ natAbs_sub_next hz) _ rfl)
  exact h _ n rfl

theorem chunks_sum (n : Int) : (chunks B n).sum = n := by
  induction n using chunks_induction (B := B) with
  | zero => rw [chunks_zero, List.sum_nil]
  | step n hn ih =>
    rw [chunks_of_ne hn, List.sum_cons, ih]
    omega

theorem next_bounds {n : Int} (h : 0 < n) : 1 ≤ next B n ∧ next B n ≤ B ∧ next B n ≤ n := by
  have hB := block_pos (B := B)
  unfold next
  split
  · omega
  · omega

theorem mem_chunks {n : Int} (h : 0 ≤ n) : ∀ c ∈ chunks B n, 1 ≤ c ∧ c ≤ B := by
  induction n using chunks_induction (B := B) with
  | zero =>
    rw [chunks_zero]
    exact List.forall_mem_nil _
  | step n hn ih =>
    obtain ⟨h1, hB, hle⟩ := next_bounds (B := B) (n := n) (by omega)
    rw [chunks_of_ne hn, List.forall_mem_cons]
    exact ⟨⟨h1, hB⟩, ih (by omega)⟩

/-- All but the last are blocks. -/
theorem chunks_dropLast {n : Int} (h : 0 ≤ n) : ∀ c ∈ (chunks B n).dropLast, c = B := by
  induction n using chunks_induction (B := B) with
  | zero =>
    rw [chunks_zero]
    exact List.forall_mem_nil _
  | step n hn ih =>
    rw [chunks_of_ne hn]
    by_cases hgt : n > B
    · have hnext : next B n = B := if_pos hgt
      rw [hnext] at ih ⊢
      rw [List.dropLast_cons_of_ne_nil (by rw [chunks_of_ne (by omega)]; exact List.cons_ne_nil _ _),
        List.forall_mem_cons]
      exact ⟨rfl, ih (by omega)⟩
    · have hnext : next B n = n := if_neg hgt
      rw [hnext, Int.sub_self, chunks_zero]
      exact List.forall_mem_nil _

/-- `n` chunks hold `n * B` bytes at most, and more than all but one of them hold. -/
theorem length_chunks_bounds {n : Int} (h : 0 ≤ n) :
    n ≤ (chunks B n).length * B ∧ ((chunks B n).length : Int) * B < n + B := by
  have hB := block_pos (B := B)
  induction n using chunks_induction (B := B) with
  | zero =>
    rw [chunks_zero, List.length_nil]
    omega
  | step n hn ih =>
    rw [chunks_of_ne hn, List.length_cons, Nat.cast_succ, Int.add_mul, Int.one_mul]
    by_cases hgt : n > B
    · have hnext : next B n = B := if_pos hgt
      rw [hnext] at ih ⊢
      have := ih (by omega)
      omega
    · have hnext : next B n = n := if_neg hgt
      rw [hnext, Int.sub_self, chunks_zero, List.length_nil]
      omega

/-- The quotient, rounded up. -/
theorem length_chunks {n : Int} (h : 0 ≤ n) :
    ((chunks B n).length : Int) = n / B + if n % B = 0 then 0 else 1 := by
  have hB := block_pos (B := B)
  obtain ⟨hle, hlt⟩ := length_chunks_bounds (B := B) h
  have hdiv := Int.mul_ediv_add_emod n B
  have hmod := Int.emod_nonneg n (by omega : (B : Int) ≠ 0)
  have hmod' := Int.emod_lt_of_pos n (by omega : (0 : Int) < B)
  have hlow : n / B ≤ (chunks B n).length := by
    refine Int.le_of_lt_add_one (Int.lt_of_mul_lt_mul_right (a := (B : Int)) ?_ (by omega))
    rw [Int.add_mul, Int.one_mul, Int.mul_comm (n / B)]
    omega
  split
  · next hz =>
    refine Int.le_antisymm ?_ (by omega)
    refine Int.le_of_lt_add_one (Int.lt_of_mul_lt_mul_right (a := (B : Int)) ?_ (by omega))
    rw [Int.add_zero, Int.add_mul, Int.one_mul, Int.mul_comm (n / B)]
    omega
  · next hz =>
    refine Int.le_antisymm ?_ ?_
    · refine Int.le_of_lt_add_one (Int.lt_of_mul_lt_mul_right (a := (B : Int)) ?_ (by omega))
      rw [Int.add_mul, Int.add_mul, Int.one_mul, Int.mul_comm (n / B)]
      omega
    · refine Int.add_one_le_of_lt (Int.lt_of_mul_lt_mul_right (a := (B : Int)) ?_ (by omega))
      rw [Int.mul_comm (n / B)]
      omega

end Chunks
