import CPrograms.Leetcode.NonAdjacent

/-!
# `rec_subset`

The last element is above the target, is the target, or is below it; `totals_succ` splits the
sets of positions the same way, and without negative elements each case of the code is one of
the specification (`recSubset_spec`).
-/

namespace CPrograms.Leetcode

open PositionSets

theorem totals_nonneg {arr : List Int} (hnn : ∀ x ∈ arr, 0 ≤ x) {n : Nat} {x : Int}
    (hx : x ∈ Totals (weight arr) n) : 0 ≤ x := by
  obtain ⟨S, -, rfl⟩ := hx
  exact Finset.sum_nonneg fun i _ => weight_nonneg hnn i

/-- What the last element adds to the sums. -/
theorem mem_totals_succ (arr : List Int) (n : Nat) (s : Int) :
    s ∈ Totals (weight arr) (n + 1) ↔
      s ∈ Totals (weight arr) n ∨ weight arr n = s ∨ s - weight arr n ∈ Totals (weight arr) n := by
  rw [totals_succ, Set.mem_union, Set.mem_insert_iff, eq_comm (a := s)]
  refine or_congr Iff.rfl (or_congr Iff.rfl ?_)
  constructor
  · rintro ⟨y, hy, rfl⟩
    show weight arr n + y - weight arr n ∈ _
    rwa [add_sub_cancel_left]
  · intro h
    exact ⟨_, h, add_sub_cancel _ _⟩

theorem sub_eq_some {arr : List Int} (hnn : ∀ x ∈ arr, 0 ≤ x) {s : Int} (hs : inInt s) {i : Nat}
    (h : weight arr i < s) : sub s (weight arr i) = some (s - weight arr i) := by
  have hw := weight_nonneg hnn i
  unfold inInt at hs
  exact if_pos ⟨by omega, by omega⟩

theorem recSubset_of_lt {arr : List Int} {i : Nat} {s : Int} (hi : i + 1 < arr.length)
    (h : s < weight arr (i + 1)) : recSubset arr (i + 2) s = recSubset arr (i + 1) s := by
  rw [recSubset, getElem?_weight hi]
  exact if_pos h

theorem recSubset_of_eq {arr : List Int} {i : Nat} (hi : i + 1 < arr.length) :
    recSubset arr (i + 2) (weight arr (i + 1)) = some 1 := by
  rw [recSubset, getElem?_weight hi]
  show (if _ then _ else if _ then _ else _) = _
  rw [if_neg (by omega), if_pos rfl]

theorem recSubset_of_gt {arr : List Int} {i : Nat} {s r r' : Int} (hi : i + 1 < arr.length)
    (h : weight arr (i + 1) < s) (hsub : sub s (weight arr (i + 1)) = some (s - weight arr (i + 1)))
    (hr : recSubset arr (i + 1) (s - weight arr (i + 1)) = some r)
    (hr' : recSubset arr (i + 1) s = some r') :
    recSubset arr (i + 2) s = some (if r ≠ 0 ∨ r' ≠ 0 then 1 else 0) := by
  rw [recSubset, getElem?_weight hi]
  show (if _ then _ else if _ then _ else (sub s _).bind _) = _
  rw [if_neg (by omega), if_neg (by omega), hsub, Option.bind_some]
  show ((recSubset arr (i + 1) _).bind _) = _
  rw [hr, Option.bind_some]
  by_cases hne : r = 0
  · rw [if_neg (not_not.2 hne), hr']
    simp [hne]
  · rw [if_pos hne, if_pos (.inl hne)]

/-- One case for each branch; the induction is on the elements that are left. -/
theorem recSubset_spec {arr : List Int} (hnn : ∀ x ∈ arr, 0 ≤ x) (i : Nat) :
    i + 1 ≤ arr.length → ∀ s, inInt s →
      ∃ r, recSubset arr (i + 1) s = some r ∧ (r ≠ 0 ↔ s ∈ Totals (weight arr) (i + 1)) := by
  induction i with
  | zero =>
    intro hi s _
    refine ⟨if weight arr 0 = s then 1 else 0, ?_, ?_⟩
    · show (arr[0]?.bind _) = _
      rw [getElem?_weight hi, Option.bind_some]
    · rw [mem_totals_succ, totals_zero]
      by_cases h : weight arr 0 = s
      · simp [h]
      · simp [h]
  | succ i ih =>
    intro hi s hs
    have hw := weight_nonneg hnn (i + 1)
    rw [mem_totals_succ]
    rcases Int.lt_trichotomy s (weight arr (i + 1)) with hlt | rfl | hgt
    · -- above the target: no set with it comes down to `s`
      obtain ⟨r, hr, hiff⟩ := ih (by omega) s hs
      refine ⟨r, (recSubset_of_lt hi hlt).trans hr, ?_⟩
      rw [hiff]
      constructor
      · exact .inl
      · rintro (h | h | h)
        · exact h
        · omega
        · have := totals_nonneg hnn h
          omega
    · exact ⟨1, recSubset_of_eq hi, by simp⟩
    · -- below it: chosen or not, a set is left to find
      have hrest : inInt (s - weight arr (i + 1)) := by
        unfold inInt at *
        omega
      obtain ⟨r, hr, hiff⟩ := ih (by omega) _ hrest
      obtain ⟨r', hr', hiff'⟩ := ih (by omega) s hs
      refine ⟨_, recSubset_of_gt hi hgt (sub_eq_some hnn hs hgt) hr hr', ?_⟩
      rw [← hiff, ← hiff']
      have hne : weight arr (i + 1) ≠ s := by omega
      by_cases h : r ≠ 0 ∨ r' ≠ 0
      · rw [if_pos h]
        exact iff_of_true one_ne_zero (h.elim (fun h => .inr (.inr h)) .inl)
      · rw [if_neg h]
        refine iff_of_false (by simp) ?_
        rintro (h' | h' | h')
        · exact h (.inr h')
        · exact hne h'
        · exact h (.inl h')

/-- **`rec_subset`.** -/
theorem recSubset_iff {arr : List Int} (hlen : 1 ≤ arr.length)
    (hnn : ∀ x ∈ arr, 0 ≤ x ∧ inInt x) {s : Int} (hs : inInt s) :
    ∃ r, recSubset arr arr.length s = some r ∧
      (r ≠ 0 ↔ ∃ S : Finset ℕ, S.Nonempty ∧ (∀ i ∈ S, i < arr.length) ∧
        ∑ i ∈ S, weight arr i = s) := by
  obtain ⟨r, hr, hiff⟩ :=
    recSubset_spec (fun x hx => (hnn x hx).1) (arr.length - 1) (by omega) s hs
  rw [Nat.sub_add_cancel hlen] at hr hiff
  refine ⟨r, hr, hiff.trans ?_⟩
  constructor
  · rintro ⟨S, hS, hx⟩
    exact ⟨S, hS.nonempty, hS.lt, hx⟩
  · rintro ⟨S, hne, hlt, hx⟩
    exact ⟨S, ⟨hne, hlt⟩, hx⟩

theorem recSubset_iff_main :
    ∃ r, recSubset [3, 34, 4, 12, 5, 2] 6 9 = some r ∧
      (r ≠ 0 ↔ ∃ S : Finset ℕ, S.Nonempty ∧ (∀ i ∈ S, i < 6) ∧
        ∑ i ∈ S, weight [3, 34, 4, 12, 5, 2] i = 9) :=
  recSubset_iff (by decide : 1 ≤ [3, 34, 4, 12, 5, 2].length) (by decide) (by decide)

end CPrograms.Leetcode
