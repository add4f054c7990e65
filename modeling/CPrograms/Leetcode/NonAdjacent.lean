import CPrograms.Leetcode.Model
import CPrograms.Lib.PositionSets
import Mathlib.Algebra.BigOperators.Fin
import Mathlib.Data.Nat.Fib.Basic

/-!
# Sums without neighbours

`dp_opt` computes the greatest sum over sets of positions without neighbours: what its loop
has written is the best below each position (`dpLoop_spec`).  `rec_opt` is to compute the same,
but adds `fib i` to the first element (`recOpt_array`).
-/

namespace CPrograms.Leetcode

open PositionSets

structure Fits (arr : List Int) : Prop where
  nonneg : ∀ x ∈ arr, 0 ≤ x
  total : arr.sum < 2 ^ 31

def weight (arr : List Int) (i : Nat) : Int := arr.getD i 0

theorem getElem?_weight {arr : List Int} {i : Nat} (h : i < arr.length) :
    arr[i]? = some (weight arr i) := by
  rw [weight, List.getD_eq_getElem?_getD, List.getElem?_eq_getElem h, Option.getD_some]

theorem sum_weight (arr : List Int) : ∑ i ∈ Finset.range arr.length, weight arr i = arr.sum := by
  rw [Finset.sum_range, ← Fin.sum_univ_getElem]
  apply Finset.sum_congr rfl
  intro i _
  rw [weight, List.getD_eq_getElem?_getD, List.getElem?_eq_getElem i.2, Option.getD_some]

theorem weight_nonneg {arr : List Int} (hnn : ∀ x ∈ arr, 0 ≤ x) (i : Nat) : 0 ≤ weight arr i := by
  by_cases hi : i < arr.length
  · apply hnn
    apply List.mem_of_getElem?
    exact getElem?_weight hi
  · rw [weight, List.getD_eq_getElem?_getD, List.getElem?_eq_none (by omega), Option.getD_none]

theorem maxInt_eq (x y : Int) : maxInt x y = max x y := by
  unfold maxInt
  omega

/-! ## `dp_opt` -/

section

variable {arr : List Int} (hfits : Fits arr)
include hfits

/-- No partial sum overflows. -/
theorem Fits.inInt {n : Nat} (hn : n ≤ arr.length) {x : Int}
    (hx : x ∈ SpreadTotals (weight arr) n) : inInt x := by
  have hnn : ∀ i, i < n → 0 ≤ weight arr i := fun i _ => weight_nonneg hfits.nonneg i
  have h0 := spreadTotals_nonneg hnn hx
  have hle := spreadTotals_le hnn hx
  have hsub : ∑ i ∈ Finset.range n, weight arr i ≤
      ∑ i ∈ Finset.range arr.length, weight arr i := by
    apply Finset.sum_le_sum_of_subset_of_nonneg
    · exact Finset.range_subset_range.2 hn
    · exact fun i _ _ => weight_nonneg hfits.nonneg i
  have htotal := hfits.total
  rw [sum_weight] at hsub
  unfold Leetcode.inInt
  omega

/-- `opt` holds the best below each position. -/
def Best (arr opt : List Int) : Prop :=
  ∀ (j : Nat) (x : Int), opt[j]? = some x → IsGreatest (SpreadTotals (weight arr) (j + 1)) x

theorem dpLoop_spec (turns : Nat) : ∀ (i : Nat) (opt : List Int), 2 ≤ i → opt.length = i →
    i + turns = arr.length → Best arr opt →
    ∃ opt', dpLoop arr turns i opt = some opt' ∧ opt'.length = arr.length ∧ Best arr opt' := by
  induction turns with
  | zero =>
    intro i opt _ hlen hend hbest
    exact ⟨opt, rfl, by omega, hbest⟩
  | succ turns ih =>
    intro i opt hi hlen hend hbest
    obtain ⟨n, rfl⟩ : ∃ n, i = n + 2 := ⟨i - 2, by omega⟩
    obtain ⟨x, hx⟩ : ∃ x, opt[n]? = some x := ⟨_, List.getElem?_eq_getElem (by omega)⟩
    obtain ⟨b, hb⟩ : ∃ b, opt[n + 1]? = some b := ⟨_, List.getElem?_eq_getElem (by omega)⟩
    have hy : arr[n + 2]? = some (weight arr (n + 2)) := getElem?_weight (by omega)
    have hbestx := hbest n x hx
    have hbestb := hbest (n + 1) b hb
    -- the sum that is taken is one of the sums below the next position
    have hadd : add x (weight arr (n + 2)) = some (x + weight arr (n + 2)) :=
      if_pos (hfits.inInt (by omega) (add_mem_spreadTotals hbestx.1))
    have hturn : dpLoop arr (turns + 1) (n + 2) opt =
        dpLoop arr turns (n + 3) (opt ++ [max (x + weight arr (n + 2)) b]) := by
      rw [← maxInt_eq, dpLoop]
      show (opt[n]?.bind _) = _
      rw [hx, Option.bind_some, hy]
      show ((add x (weight arr (n + 2))).bind _) = _
      rw [hadd, Option.bind_some]
      show (opt[n + 1]?.bind _) = _
      rw [hb, Option.bind_some]
    rw [hturn]
    apply ih (n + 3) _ (by omega) (by simp [hlen]) (by omega)
    intro j z hj
    by_cases hlt : j < n + 2
    · rw [List.getElem?_append_left (by omega)] at hj
      exact hbest j z hj
    · rw [List.getElem?_append_right (by omega)] at hj
      obtain rfl : j = n + 2 := by
        have := (List.getElem?_eq_some_iff.1 hj).1
        simp only [List.length_singleton] at this
        omega
      rw [hlen, Nat.sub_self] at hj
      obtain rfl := Option.some.inj hj
      exact isGreatest_spread (fun i _ => weight_nonneg hfits.nonneg i) hbestx hbestb

end

/-- **`dp_opt`.** -/
theorem dpOpt_isGreatest {arr : List Int} (hlen : 2 ≤ arr.length) (hfits : Fits arr) :
    ∃ v, dpOpt arr arr.length = some v ∧
      IsGreatest {x | ∃ S : Finset ℕ, S.Nonempty ∧ (∀ i ∈ S, i < arr.length) ∧
        (∀ i ∈ S, i + 1 ∉ S) ∧ ∑ i ∈ S, weight arr i = x} v := by
  have hbest : Best arr [weight arr 0, maxInt (weight arr 0) (weight arr 1)] := by
    rw [maxInt_eq]
    intro j x hj
    match j with
    | 0 =>
      obtain rfl := Option.some.inj hj
      show IsGreatest (SpreadTotals (weight arr) 1) _
      rw [spreadTotals_one]
      exact isGreatest_singleton
    | 1 =>
      obtain rfl := Option.some.inj hj
      exact isGreatest_spread_two _
    | j + 2 => simp at hj
  obtain ⟨opt, hloop, hopt, hbest⟩ :=
    dpLoop_spec hfits (arr.length - 2) 2 _ (Nat.le_refl 2) rfl (by omega) hbest
  have hlast : opt[arr.length - 1]? = some opt[arr.length - 1] :=
    List.getElem?_eq_getElem (by omega)
  refine ⟨opt[arr.length - 1], ?_, ?_⟩
  · rw [dpOpt, if_neg (by omega), getElem?_weight (by omega : 0 < arr.length)]
    show (arr[1]?.bind _) = _
    rw [getElem?_weight (by omega : 1 < arr.length), Option.bind_some]
    show ((dpLoop arr _ 2 _).bind _) = _
    rw [hloop]
    exact hlast
  · have h := hbest (arr.length - 1) _ hlast
    rw [Nat.sub_add_cancel (by omega)] at h
    convert h using 1
    ext x
    constructor
    · rintro ⟨S, hne, hlt, hs, hx⟩
      exact ⟨S, ⟨hne, hlt⟩, hs, hx⟩
    · rintro ⟨S, ⟨hne, hlt⟩, hs, hx⟩
      exact ⟨S, hne, hlt, hs, hx⟩

/-- The test array of `main`. -/
theorem dpOpt_isGreatest_main :
    ∃ v, dpOpt [1, 2, 4, 1, 7, 8, 3] 7 = some v ∧
      IsGreatest {x | ∃ S : Finset ℕ, S.Nonempty ∧ (∀ i ∈ S, i < 7) ∧
        (∀ i ∈ S, i + 1 ∉ S) ∧ ∑ i ∈ S, weight [1, 2, 4, 1, 7, 8, 3] i = x} v :=
  dpOpt_isGreatest (by decide : 2 ≤ [1, 2, 4, 1, 7, 8, 3].length) ⟨by decide, by decide⟩

/-! ## `rec_opt` -/

theorem add_eq_some {x y z : Int} (h : add x y = some z) : z = x + y := by
  unfold add at h
  split at h
  · exact (Option.some.inj h).symm
  · exact absurd h (by simp)

theorem head_of_getElem? {arr : List Int} {x : Int} (h : arr[0]? = some x) :
    ∃ rest, arr = x :: rest := by
  cases arr with
  | nil => simp at h
  | cons y rest => exact ⟨rest, by rw [Option.some.inj h]⟩

theorem maxBump_array {o : Order} {arr arr' : List Int} {v : Int}
    (h : maxBump o arr = some (v, arr')) :
    ∃ x rest, arr = x :: rest ∧ arr' = (x + 1) :: rest := by
  obtain ⟨x, hx, h⟩ := Option.bind_eq_some_iff.1 h
  obtain ⟨bumped, hb, h⟩ := Option.bind_eq_some_iff.1 h
  obtain ⟨rest, rfl⟩ := head_of_getElem? hx
  refine ⟨x, rest, rfl, ?_⟩
  rw [← add_eq_some hb]
  -- in either order the array ends the same
  cases o with
  | leftFirst => exact (Prod.ext_iff.1 (Option.some.inj h)).2.symm
  | rightFirst => exact (Prod.ext_iff.1 (Option.some.inj h)).2.symm

/-- Each of the `fib i` calls with `i == 1` adds one to the first element. -/
theorem recOpt_array (o : Order) (i : Nat) : ∀ {arr arr' : List Int} {v : Int},
    recOpt o arr i = some (v, arr') →
      ∃ x rest, arr = x :: rest ∧ arr' = (x + Nat.fib i) :: rest := by
  induction i using Nat.twoStepInduction with
  | zero =>
    intro arr arr' v h
    obtain ⟨x, hx, h⟩ := Option.bind_eq_some_iff.1 h
    obtain ⟨rest, rfl⟩ := head_of_getElem? hx
    obtain rfl : x :: rest = arr' := (Prod.ext_iff.1 (Option.some.inj h)).2
    refine ⟨x, rest, rfl, ?_⟩
    simp
  | one =>
    intro arr arr' v h
    exact maxBump_array h
  | more i ih ih' =>
    intro arr arr' v h
    obtain ⟨⟨a, arr₁⟩, h₁, h⟩ := Option.bind_eq_some_iff.1 h
    obtain ⟨y, -, h⟩ := Option.bind_eq_some_iff.1 h
    obtain ⟨s, -, h⟩ := Option.bind_eq_some_iff.1 h
    obtain ⟨⟨b, arr₂⟩, h₂, h⟩ := Option.bind_eq_some_iff.1 h
    obtain ⟨x, rest, rfl, rfl⟩ := ih h₁
    obtain ⟨x', rest', he, rfl⟩ := ih' h₂
    obtain ⟨rfl, rfl⟩ := List.cons.inj he
    obtain rfl : (x + Nat.fib i + Nat.fib (i + 1)) :: rest = arr' :=
      (Prod.ext_iff.1 (Option.some.inj h)).2
    refine ⟨x, rest, rfl, ?_⟩
    rw [Nat.fib_add_two, Int.add_assoc]
    rfl

/-- In the state `p` the three agree on the array `k`, and leave it as it is. -/
def Agree (o : Order) (p : Proc) (k : Nat) : Prop :=
  ∃ v, ∀ f : Fn, ∃ q, call o p f k = some (v, q) ∧ q.arrays[k]? = p.arrays[k]?

/-- From the second element on `rec_opt` leaves no array as it is. -/
theorem recOpt_changes {o : Order} {arr : List Int} {i : Nat} (hi : 0 < i) {v : Int} :
    recOpt o arr i ≠ some (v, arr) := by
  intro h
  obtain ⟨x, rest, rfl, he⟩ := recOpt_array o i h
  have hx := (List.cons.inj he).1
  have hfib := Nat.fib_pos.2 hi
  omega

theorem not_agree {o : Order} {p : Proc} {k : Nat} {arr : List Int} (harr : p.arrays[k]? = some arr)
    (hlen : 2 ≤ arr.length) : ¬ Agree o p k := by
  rintro ⟨v, h⟩
  obtain ⟨q, hq, hsame⟩ := h .recOpt
  obtain ⟨arr', harr', hq⟩ := Option.bind_eq_some_iff.1 hq
  obtain rfl : arr = arr' := Option.some.inj (harr.symm.trans harr')
  obtain ⟨⟨v', arr'⟩, hrec, hq⟩ := Option.bind_eq_some_iff.1 hq
  obtain ⟨rfl, rfl⟩ := Prod.ext_iff.1 (Option.some.inj hq)
  have hk : k < p.arrays.length := (List.getElem?_eq_some_iff.1 harr).1
  have hset : (p.arrays.set k arr')[k]? = p.arrays[k]? := hsame
  rw [List.getElem?_set_self hk, harr] at hset
  rw [Option.some.inj hset] at hrec
  exact recOpt_changes (by omega) hrec

/-- **No agreement.**  Whatever was called before, on whatever arrays. -/
theorem never_agree (o : Order) (arrays : List (List Int)) (cs : List (Fn × Nat)) :
    ∀ vs p, calls o (Proc.start arrays) cs = some (vs, p) →
      ∀ (k : Nat) (arr : List Int), p.arrays[k]? = some arr → 2 ≤ arr.length → ¬ Agree o p k := by
  intro vs p _ k arr harr hlen
  exact not_agree harr hlen

/-- After the calls that `main` makes before its last. -/
theorem never_agree_main :
    ¬ Agree .leftFirst ⟨List.replicate 200 0, [[9, 2, 4, 1, 7, 8, 3]]⟩ 0 :=
  never_agree .leftFirst [[1, 2, 4, 1, 7, 8, 3]] [(.recOpt, 0), (.dpOpt, 0)] _ _ rfl 0 _ rfl
    (by decide)

theorem rec_opt_disagrees : ¬ Agree .rightFirst (Proc.start [[1, 2]]) 0 := by
  rintro ⟨v, h⟩
  obtain ⟨q, hq, hsame⟩ := h .recOpt
  have hcall : call .rightFirst (Proc.start [[1, 2]]) .recOpt 0 =
      some (2, ⟨List.replicate sizeofMemory 0, [[2, 2]]⟩) := rfl
  rw [hcall] at hq
  obtain ⟨-, rfl⟩ := Prod.ext_iff.1 (Option.some.inj hq)
  exact absurd (Option.some.inj hsame) (by decide)

end CPrograms.Leetcode
