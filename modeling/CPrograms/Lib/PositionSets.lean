import Mathlib.Algebra.Order.BigOperators.Group.Finset
import Mathlib.Order.Bounds.Basic

/-!
# Sets of positions

What a recursion over the positions of a sequence decides is mostly a statement about all
sets of positions, and its step looks at the last one.

* `exists_within_succ`: a non-empty set of positions below `n + 1` is one below `n`, the last
  position alone, or the last position added to one below `n`.
* `totals_succ`, `spread_succ_succ`: the same for the sums of weights over such sets, all of
  them or those without neighbours.
* `isGreatest_spread`: the step of a recurrence for the greatest sum without neighbours.
-/

namespace PositionSets

structure Within (n : ℕ) (S : Finset ℕ) : Prop where
  nonempty : S.Nonempty
  lt : ∀ i ∈ S, i < n

theorem not_within_zero (S : Finset ℕ) : ¬ Within 0 S := by
  intro h
  obtain ⟨i, hi⟩ := h.nonempty
  exact absurd (h.lt i hi) (Nat.not_lt_zero i)

theorem Within.notMem {n : ℕ} {S : Finset ℕ} (h : Within n S) : n ∉ S :=
  fun hn => absurd (h.lt n hn) (Nat.lt_irrefl n)

theorem Within.succ {n : ℕ} {S : Finset ℕ} (h : Within n S) : Within (n + 1) S :=
  ⟨h.nonempty, fun i hi => Nat.lt_succ_of_lt (h.lt i hi)⟩

theorem within_singleton (n : ℕ) : Within (n + 1) {n} :=
  ⟨Finset.singleton_nonempty n, fun i hi => by rw [Finset.mem_singleton.1 hi]; omega⟩

theorem Within.insert {n : ℕ} {S : Finset ℕ} (h : Within n S) : Within (n + 1) (insert n S) := by
  refine ⟨Finset.insert_nonempty n S, ?_⟩
  intro i hi
  rcases Finset.mem_insert.1 hi with rfl | hi
  · omega
  · exact Nat.lt_succ_of_lt (h.lt i hi)

theorem Within.pred {n : ℕ} {S : Finset ℕ} (h : Within (n + 1) S) (hn : n ∉ S) : Within n S := by
  refine ⟨h.nonempty, ?_⟩
  intro i hi
  have hlt := h.lt i hi
  have hne : i ≠ n := fun e => hn (e ▸ hi)
  omega

/-- Cases on the last position. -/
theorem exists_within_succ {P : Finset ℕ → Prop} {n : ℕ} :
    (∃ S, Within (n + 1) S ∧ P S) ↔
      (∃ S, Within n S ∧ P S) ∨ P {n} ∨ ∃ S, Within n S ∧ P (insert n S) := by
  constructor
  · rintro ⟨S, hS, hP⟩
    by_cases hn : n ∈ S
    · right
      rw [← Finset.insert_erase hn] at hP
      rcases (S.erase n).eq_empty_or_nonempty with he | hne
      · left
        rwa [he, insert_empty_eq] at hP
      · right
        refine ⟨S.erase n, ⟨hne, ?_⟩, hP⟩
        intro i hi
        obtain ⟨hne, hi⟩ := Finset.mem_erase.1 hi
        have hlt := hS.lt i hi
        omega
    · exact .inl ⟨S, hS.pred hn, hP⟩
  · rintro (⟨S, hS, hP⟩ | hP | ⟨S, hS, hP⟩)
    · exact ⟨S, hS.succ, hP⟩
    · exact ⟨{n}, within_singleton n, hP⟩
    · exact ⟨insert n S, hS.insert, hP⟩

/-! ## Sums -/

section Sums

variable {M : Type*} [AddCommMonoid M] (w : ℕ → M)

def Totals (n : ℕ) : Set M := {x | ∃ S, Within n S ∧ ∑ i ∈ S, w i = x}

theorem totals_zero : Totals w 0 = ∅ := by
  ext x
  constructor
  · rintro ⟨S, hS, -⟩
    exact absurd hS (not_within_zero S)
  · exact fun h => absurd h (Set.notMem_empty x)

theorem totals_succ (n : ℕ) :
    Totals w (n + 1) = Totals w n ∪ insert (w n) ((w n + ·) '' Totals w n) := by
  ext x
  show (∃ S, Within (n + 1) S ∧ ∑ i ∈ S, w i = x) ↔ _
  rw [exists_within_succ, Finset.sum_singleton, Set.mem_union, Set.mem_insert_iff, eq_comm (a := x)]
  refine or_congr Iff.rfl (or_congr Iff.rfl ?_)
  constructor
  · rintro ⟨S, hS, hx⟩
    rw [Finset.sum_insert hS.notMem] at hx
    exact ⟨_, ⟨S, hS, rfl⟩, hx⟩
  · rintro ⟨_, ⟨S, hS, rfl⟩, hx⟩
    refine ⟨S, hS, ?_⟩
    rw [Finset.sum_insert hS.notMem]
    exact hx

/-! ## Without neighbours -/

def Spread (S : Finset ℕ) : Prop := ∀ i ∈ S, i + 1 ∉ S

def SpreadTotals (n : ℕ) : Set M := {x | ∃ S, Within n S ∧ Spread S ∧ ∑ i ∈ S, w i = x}

theorem spread_singleton (n : ℕ) : Spread {n} := by
  intro i hi hi'
  rw [Finset.mem_singleton] at hi hi'
  omega

/-- What is added above all of `S` only has to keep away from the last. -/
theorem spread_insert {n : ℕ} {S : Finset ℕ} (h : ∀ i ∈ S, i < n + 1) :
    Spread (insert (n + 1) S) ↔ Spread S ∧ n ∉ S := by
  constructor
  · intro hs
    refine ⟨?_, ?_⟩
    · intro i hi hi'
      exact hs i (Finset.mem_insert_of_mem hi) (Finset.mem_insert_of_mem hi')
    · intro hn
      exact hs n (Finset.mem_insert_of_mem hn) (Finset.mem_insert_self _ _)
  · rintro ⟨hs, hn⟩ i hi hi'
    rcases Finset.mem_insert.1 hi with rfl | hi
    · rcases Finset.mem_insert.1 hi' with he | hi'
      · omega
      · have := h _ hi'
        omega
    · rcases Finset.mem_insert.1 hi' with he | hi'
      · have hin : i = n := by omega
        exact hn (hin ▸ hi)
      · exact hs i hi hi'

theorem spreadTotals_succ_succ (n : ℕ) :
    SpreadTotals w (n + 2) =
      SpreadTotals w (n + 1) ∪ insert (w (n + 1)) ((w (n + 1) + ·) '' SpreadTotals w n) := by
  ext x
  show (∃ S, Within (n + 2) S ∧ Spread S ∧ ∑ i ∈ S, w i = x) ↔ _
  rw [exists_within_succ, Finset.sum_singleton, Set.mem_union, Set.mem_insert_iff, eq_comm (a := x)]
  refine or_congr Iff.rfl (or_congr (and_iff_right (spread_singleton _)) ?_)
  constructor
  · rintro ⟨S, hS, hs, hx⟩
    rw [spread_insert hS.lt] at hs
    rw [Finset.sum_insert hS.notMem] at hx
    exact ⟨_, ⟨S, hS.pred hs.2, hs.1, rfl⟩, hx⟩
  · rintro ⟨_, ⟨S, hS, hs, rfl⟩, hx⟩
    refine ⟨S, hS.succ, (spread_insert hS.succ.lt).2 ⟨hs, hS.notMem⟩, ?_⟩
    rw [Finset.sum_insert hS.succ.notMem]
    exact hx

theorem add_mem_spreadTotals {w} {n : ℕ} {a : M} (ha : a ∈ SpreadTotals w n) :
    a + w (n + 1) ∈ SpreadTotals w (n + 2) := by
  rw [spreadTotals_succ_succ]
  exact .inr (.inr ⟨a, ha, add_comm _ _⟩)

theorem spreadTotals_zero : SpreadTotals w 0 = ∅ := by
  ext x
  constructor
  · rintro ⟨S, hS, -⟩
    exact absurd hS (not_within_zero S)
  · exact fun h => absurd h (Set.notMem_empty x)

theorem spreadTotals_one : SpreadTotals w 1 = {w 0} := by
  ext x
  show (∃ S, Within 1 S ∧ Spread S ∧ ∑ i ∈ S, w i = x) ↔ _
  rw [exists_within_succ, Finset.sum_singleton, Set.mem_singleton_iff, eq_comm (a := x)]
  constructor
  · rintro (⟨S, hS, -⟩ | ⟨-, hx⟩ | ⟨S, hS, -⟩)
    · exact absurd hS (not_within_zero S)
    · exact hx
    · exact absurd hS (not_within_zero S)
  · exact fun hx => .inr (.inl ⟨spread_singleton 0, hx⟩)

end Sums

section Greatest

variable {M : Type*} [AddCommMonoid M] [LinearOrder M]

theorem isGreatest_spread_two (w : ℕ → M) :
    IsGreatest (SpreadTotals w 2) (max (w 0) (w 1)) := by
  rw [spreadTotals_succ_succ w 0, spreadTotals_zero, Set.image_empty, insert_empty_eq,
    spreadTotals_one]
  exact isGreatest_singleton.union isGreatest_singleton

variable [IsOrderedAddMonoid M] {w : ℕ → M}

theorem spreadTotals_nonneg {n : ℕ} (hw : ∀ i, i < n → 0 ≤ w i) {x : M}
    (hx : x ∈ SpreadTotals w n) : 0 ≤ x := by
  obtain ⟨S, hS, -, rfl⟩ := hx
  exact Finset.sum_nonneg fun i hi => hw i (hS.lt i hi)

theorem spreadTotals_le {n : ℕ} (hw : ∀ i, i < n → 0 ≤ w i) {x : M} (hx : x ∈ SpreadTotals w n) :
    x ≤ ∑ i ∈ Finset.range n, w i := by
  obtain ⟨S, hS, -, rfl⟩ := hx
  apply Finset.sum_le_sum_of_subset_of_nonneg
  · exact fun i hi => Finset.mem_range.2 (hS.lt i hi)
  · exact fun i hi _ => hw i (Finset.mem_range.1 hi)

/-- **The recurrence.**  The best below `n + 2` takes the last position with the best below `n`,
or is the best below `n + 1`. -/
theorem isGreatest_spread {n : ℕ} {a b : M} (hw : ∀ i, i < n → 0 ≤ w i)
    (ha : IsGreatest (SpreadTotals w n) a) (hb : IsGreatest (SpreadTotals w (n + 1)) b) :
    IsGreatest (SpreadTotals w (n + 2)) (max (a + w (n + 1)) b) := by
  have hmono : Monotone (w (n + 1) + ·) := fun x y h => add_le_add_right h _
  have himage : IsGreatest ((w (n + 1) + ·) '' SpreadTotals w n) (w (n + 1) + a) :=
    hmono.map_isGreatest ha
  have halone : max (w (n + 1)) (w (n + 1) + a) = w (n + 1) + a :=
    max_eq_right (le_add_of_nonneg_right (spreadTotals_nonneg hw ha.1))
  have hlast := himage.insert (w (n + 1))
  rw [halone] at hlast
  rw [spreadTotals_succ_succ, max_comm, add_comm a]
  exact hb.union hlast

end Greatest

end PositionSets
