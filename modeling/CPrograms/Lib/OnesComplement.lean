import Mathlib.Data.Nat.ModEq
import Mathlib.Tactic.Ring

/-!
# One's complement sums

Words of base `B` are added and the carries are added back in at the low end (`fold`).  What
is left is the sum modulo `B - 1`, in the one of the two representations of zero that the sum
has: `0` only for the sum `0` (`eq_fold`).

* `fold_add_compl`: with the complement of its sum a message sums to `B - 1`, the other zero.
* `swap_fold`: folding does not look at the order of the two digits of a word.
* `total` is the sum over a list, two digits a word; `total_append` cuts it between words.
* `Acc` adds on 32 bits, and keeps whether a sum went over them.
-/

namespace OnesComplement

theorem fold_decreases {B n : Nat} (hB : 2 ≤ B) (h : B ≤ n) : n % B + n / B < n := by
  have hdiv := Nat.div_add_mod n B
  have hq : 1 ≤ n / B := (Nat.one_le_div_iff (by omega)).2 h
  have hmul : 2 * (n / B) ≤ B * (n / B) := Nat.mul_le_mul_right _ hB
  omega

/-- Carries are added back in until there are none. -/
def fold (B n : Nat) : Nat :=
  if 2 ≤ B ∧ B ≤ n then fold B (n % B + n / B) else n
termination_by n
decreasing_by
  rename_i h
  exact fold_decreases h.1 h.2

section Fold

variable {B : Nat} (hB : 2 ≤ B)
include hB

theorem fold_of_le {n : Nat} (h : B ≤ n) : fold B n = fold B (n % B + n / B) := by
  rw [fold, if_pos ⟨hB, h⟩]

omit hB in
theorem fold_of_lt {n : Nat} (h : n < B) : fold B n = n := by
  rw [fold, if_neg (by omega)]

theorem carry_modEq (n : Nat) : n % B + n / B ≡ n [MOD B - 1] := by
  have hone : B ≡ 1 [MOD B - 1] := by
    have h := Nat.add_modEq_left (n := B - 1) (a := 1)
    rwa [Nat.sub_add_cancel (by omega)] at h
  calc n % B + n / B = 1 * (n / B) + n % B := by omega
    _ ≡ B * (n / B) + n % B [MOD B - 1] := (hone.symm.mul_right _).add_right _
    _ = n := Nat.div_add_mod n B

/-- What folding keeps. -/
theorem fold_spec (n : Nat) :
    fold B n < B ∧ fold B n ≡ n [MOD B - 1] ∧ (fold B n = 0 ↔ n = 0) := by
  induction n using Nat.strongRecOn with
  | ind n ih =>
    by_cases h : B ≤ n
    · obtain ⟨hlt, hmod, hzero⟩ := ih _ (fold_decreases hB h)
      rw [fold_of_le hB h]
      refine ⟨hlt, hmod.trans (carry_modEq hB n), hzero.trans ?_⟩
      have hq : 1 ≤ n / B := (Nat.one_le_div_iff (by omega)).2 h
      omega
    · rw [fold_of_lt (by omega)]
      exact ⟨by omega, Nat.ModEq.refl n, Iff.rfl⟩

/-- Two words that are the same modulo `B - 1` are the same, or the two zeros. -/
theorem eq_of_modEq {r s : Nat} (hr : r < B) (hs : s < B) (h : r ≡ s [MOD B - 1])
    (hzero : r = 0 ↔ s = 0) : r = s := by
  wlog hle : r ≤ s with H
  · exact (H hB hs hr h.symm hzero.symm (by omega)).symm
  obtain ⟨k, hk⟩ := (Nat.modEq_iff_dvd' hle).1 h
  match k with
  | 0 => omega
  | 1 => omega
  | k + 2 =>
    have : (B - 1) * 2 ≤ (B - 1) * (k + 2) := Nat.mul_le_mul_left _ (by omega)
    omega

theorem eq_fold {r n : Nat} (hr : r < B) (h : r ≡ n [MOD B - 1]) (hzero : r = 0 ↔ n = 0) :
    r = fold B n := by
  obtain ⟨hlt, hmod, hz⟩ := fold_spec hB n
  exact eq_of_modEq hB hr hlt (h.trans hmod.symm) (hzero.trans hz.symm)

theorem fold_add_compl (n : Nat) : fold B (n + (B - 1 - fold B n)) = B - 1 := by
  obtain ⟨hlt, hmod, hz⟩ := fold_spec hB n
  symm
  apply eq_fold hB (by omega)
  · calc B - 1 = fold B n + (B - 1 - fold B n) := by omega
      _ ≡ n + (B - 1 - fold B n) [MOD B - 1] := hmod.add_right _
  · omega

end Fold

/-! ## The order of the digits -/

/-- The two digits of a word the other way round. -/
def swap (b x : Nat) : Nat := x % b * b + x / b

section Swap

variable {b : Nat} (hb : 2 ≤ b)
include hb

theorem swap_lt {x : Nat} (hx : x < b * b) : swap b x < b * b := by
  have hq : x / b < b := Nat.div_lt_of_lt_mul hx
  have hr : x % b < b := Nat.mod_lt _ (by omega)
  have hmul : (x % b + 1) * b ≤ b * b := Nat.mul_le_mul_right _ hr
  rw [Nat.add_mul] at hmul
  unfold swap
  omega

theorem swap_modEq (x : Nat) : swap b x ≡ b * x [MOD b * b - 1] := by
  have hle : 2 * 2 ≤ b * b := Nat.mul_le_mul hb hb
  have hone : b * b ≡ 1 [MOD b * b - 1] := by
    have h := Nat.add_modEq_left (n := b * b - 1) (a := 1)
    rwa [Nat.sub_add_cancel (by omega)] at h
  calc swap b x = x % b * b + 1 * (x / b) := by rw [Nat.one_mul, swap]
    _ ≡ x % b * b + b * b * (x / b) [MOD b * b - 1] := (hone.symm.mul_right _).add_left _
    _ = b * (b * (x / b) + x % b) := by ring
    _ = b * x := by rw [Nat.div_add_mod]

theorem swap_eq_zero (x : Nat) : swap b x = 0 ↔ x = 0 := by
  constructor
  · intro h
    obtain ⟨hr, hq⟩ := Nat.add_eq_zero_iff.1 h
    have hr := (Nat.mul_eq_zero.1 hr).resolve_right (by omega)
    rw [← Nat.div_add_mod x b, hq, hr, Nat.mul_zero]
  · rintro rfl
    simp [swap]

/-- The folded sum of swapped words is the swapped folded sum. -/
theorem swap_fold (n : Nat) : swap b (fold (b * b) n) = fold (b * b) (b * n) := by
  have hle : 2 * 2 ≤ b * b := Nat.mul_le_mul hb hb
  have hB : 2 ≤ b * b := by omega
  obtain ⟨hlt, hmod, hz⟩ := fold_spec hB n
  apply eq_fold hB (swap_lt hb hlt)
  · exact (swap_modEq hb _).trans (hmod.mul_left b)
  · rw [swap_eq_zero hb, hz, Nat.mul_eq_zero]
    omega

omit hb in
theorem swap_digits {hi lo : Nat} (hlo : lo < b) : swap b (hi * b + lo) = lo * b + hi := by
  have hmod : (hi * b + lo) % b = lo := by rw [Nat.mul_add_mod', Nat.mod_eq_of_lt hlo]
  have hdiv : (hi * b + lo) / b = hi := by
    rw [Nat.mul_comm, Nat.mul_add_div (by omega), Nat.div_eq_of_lt hlo, Nat.add_zero]
  rw [swap, hmod, hdiv]

omit hb in
/-- The complement of a word is the complement of its digits. -/
theorem compl_digits {hi lo : Nat} (hhi : hi < b) (hlo : lo < b) :
    b * b - 1 - (hi * b + lo) = (b - 1 - hi) * b + (b - 1 - lo) := by
  have hle : hi * b ≤ (b - 1) * b := Nat.mul_le_mul_right _ (by omega)
  have hsq : b * b = (b - 1) * b + b := by
    rw [← Nat.succ_mul, Nat.succ_eq_add_one, Nat.sub_add_cancel (by omega)]
  rw [Nat.sub_mul]
  omega

theorem swap_compl {x : Nat} (hx : x < b * b) : swap b (b * b - 1 - x) = b * b - 1 - swap b x := by
  have hhi : x / b < b := Nat.div_lt_of_lt_mul hx
  have hlo : x % b < b := Nat.mod_lt _ (by omega)
  have hsplit : x = x / b * b + x % b := (Nat.div_add_mod' x b).symm
  rw [hsplit, compl_digits hhi hlo, swap_digits (by omega), swap_digits hlo, compl_digits hlo hhi]

end Swap

/-! ## Lists of digits, two a word -/

section Total

variable {α : Type*} (word : α → α → Nat) (tail : α → Nat)

/-- A digit that is left over counts as `tail`. -/
def total : List α → Nat
  | a :: b :: l => word a b + total l
  | [a] => tail a
  | [] => 0

theorem total_append {l : List α} (h : l.length % 2 = 0) (l' : List α) :
    total word tail (l ++ l') = total word tail l + total word tail l' := by
  induction l using total.induct with
  | case1 a b l ih =>
    rw [List.length_cons, List.length_cons] at h
    simp only [List.cons_append, total]
    rw [ih (by omega), Nat.add_assoc]
  | case2 a => simp at h
  | case3 => simp [total]

theorem total_le {M : Nat} (hword : ∀ a b, word a b ≤ M) (htail : ∀ a, tail a ≤ M) (l : List α) :
    total word tail l ≤ (l.length + 1) / 2 * M := by
  induction l using total.induct with
  | case1 a b l ih =>
    have hlen : ((a :: b :: l).length + 1) / 2 = (l.length + 1) / 2 + 1 := by
      rw [List.length_cons, List.length_cons]
      omega
    rw [hlen, Nat.add_mul, Nat.one_mul, total, Nat.add_comm]
    exact Nat.add_le_add ih (hword a b)
  | case2 a =>
    have := htail a
    simp only [total, List.length_singleton]
    omega
  | case3 => exact Nat.zero_le _

/-- **A sum verifies.**  Where a word was zero, the complement of the sum is put. -/
theorem fold_total_compl {B : Nat} (hB : 2 ≤ B) {l l' : List α} {a b a' b' : α}
    (hl : l.length % 2 = 0) (hzero : word a b = 0)
    (hcompl : word a' b' = B - 1 - fold B (total word tail (l ++ a :: b :: l'))) :
    fold B (total word tail (l ++ a' :: b' :: l')) = B - 1 := by
  rw [total_append word tail hl] at hcompl ⊢
  simp only [total, hzero, Nat.zero_add] at hcompl ⊢
  rw [hcompl, Nat.add_left_comm, Nat.add_comm]
  exact fold_add_compl hB _

end Total

/-! ## On 32 bits -/

structure Acc where
  val : Nat
  over32 : Bool
deriving DecidableEq

namespace Acc

def zero : Acc := ⟨0, false⟩

def add (c : Acc) (v : Nat) : Acc :=
  ⟨(c.val + v) % 2 ^ 32, c.over32 || decide (2 ^ 32 ≤ c.val + v)⟩

theorem add_of_lt {n v : Nat} (h : n + v < 2 ^ 32) : add ⟨n, false⟩ v = ⟨n + v, false⟩ := by
  show (⟨(n + v) % 2 ^ 32, false || decide (2 ^ 32 ≤ n + v)⟩ : Acc) = _
  rw [Nat.mod_eq_of_lt h, decide_eq_false (by omega), Bool.or_false]

/-- Adding in the carry that was cut off the word. -/
theorem add_carry {n : Nat} (h : n < 2 ^ 32) :
    add ⟨n &&& 0xffff, false⟩ (n >>> 16) = ⟨n % 65536 + n / 65536, false⟩ := by
  have hand : n &&& 0xffff = n % 65536 := Nat.and_two_pow_sub_one_eq_mod n 16
  have hshift : n >>> 16 = n / 65536 := Nat.shiftRight_eq_div_pow n 16
  rw [hand, hshift]
  exact add_of_lt (by omega)

theorem val_add_carry_lt {c : Acc} (h : 65536 ≤ c.val) :
    (add ⟨c.val &&& 0xffff, c.over32⟩ (c.val >>> 16)).val < c.val := by
  have hand : c.val &&& 0xffff = c.val % 65536 := Nat.and_two_pow_sub_one_eq_mod _ 16
  have hshift : c.val >>> 16 = c.val / 65536 := Nat.shiftRight_eq_div_pow _ 16
  show ((c.val &&& 0xffff) + c.val >>> 16) % 2 ^ 32 < c.val
  rw [hand, hshift]
  have hmod := Nat.mod_le (c.val % 65536 + c.val / 65536) (2 ^ 32)
  omega

end Acc

end OnesComplement
