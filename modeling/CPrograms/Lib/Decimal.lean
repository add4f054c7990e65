import Mathlib.Data.List.Basic
import Mathlib.Tactic.Ring

/-!
# Decimal numbers in bytes

`number d` is the number that the ASCII digits `d` stand for; what follows the digits of a
number multiplies it (`number_append`).  `digits n` are the digits that are printed of `n`, and
`number` reads them back (`digits_spec`).
-/

namespace Decimal

def IsDigit (c : UInt8) : Prop := 48 ≤ c.toNat ∧ c.toNat ≤ 57

instance (c : UInt8) : Decidable (IsDigit c) := inferInstanceAs (Decidable (_ ∧ _))

/-- `n`, with one more digit behind it. -/
def push (n : Nat) (c : UInt8) : Nat := 10 * n + (c.toNat - 48)

def number (d : List UInt8) : Nat := d.foldl push 0

theorem IsDigit.ne_zero {c : UInt8} (h : IsDigit c) : c ≠ 0 := by
  rintro rfl
  exact absurd h.1 (by decide)

theorem foldl_push (n : Nat) (d : List UInt8) : d.foldl push n = n * 10 ^ d.length + number d := by
  induction d generalizing n with
  | nil => simp [number]
  | cons c d ih =>
    have hcons : number (c :: d) = push 0 c * 10 ^ d.length + number d := ih _
    rw [List.foldl_cons, ih, hcons, List.length_cons]
    simp only [push]
    ring

theorem number_cons (c : UInt8) (d : List UInt8) :
    number (c :: d) = push 0 c * 10 ^ d.length + number d := foldl_push (push 0 c) d

theorem number_append (d e : List UInt8) : number (d ++ e) = number d * 10 ^ e.length + number e := by
  rw [number, List.foldl_append, foldl_push]
  rfl

theorem number_lt {d : List UInt8} (h : ∀ c ∈ d, IsDigit c) : number d < 10 ^ d.length := by
  induction d with
  | nil => decide
  | cons c d ih =>
    obtain ⟨hc, hd⟩ := List.forall_mem_cons.1 h
    have hlt := ih hd
    have hdigit : push 0 c ≤ 9 := by
      simp only [push, IsDigit] at hc ⊢
      omega
    calc number (c :: d) = push 0 c * 10 ^ d.length + number d := number_cons c d
      _ < 9 * 10 ^ d.length + 10 ^ d.length :=
        Nat.add_lt_add_of_le_of_lt (Nat.mul_le_mul_right _ hdigit) hlt
      _ = 10 ^ (c :: d).length := by rw [List.length_cons]; ring

/-- Digits behind a positive number make it larger. -/
theorem number_lt_append {d e : List UInt8} (hd : 0 < number d) (he : e ≠ []) :
    number d < number (d ++ e) := by
  have hlen : 0 < e.length := List.length_pos_iff.2 he
  have hpow : 10 ≤ 10 ^ e.length := Nat.le_self_pow (Nat.ne_of_gt hlen) 10
  have hmul : number d * 10 ≤ number d * 10 ^ e.length := Nat.mul_le_mul_left _ hpow
  rw [number_append]
  omega

/-! ## Printing -/

def digits (n : Nat) : List UInt8 := (toString n).toList.map fun c => UInt8.ofNat c.toNat

/-- The byte of one digit. -/
def digit (d : Nat) : UInt8 := UInt8.ofNat d.digitChar.toNat

theorem digit_spec {d : Nat} (h : d < 10) : IsDigit (digit d) ∧ push 0 (digit d) = d := by
  revert h
  revert d
  decide

theorem digits_eq (n : Nat) :
    digits n = if n < 10 then [digit n] else digits (n / 10) ++ [digit (n % 10)] := by
  have hlist : ∀ m, (toString m).toList = Nat.toDigits 10 m := fun m => String.toList_ofList
  unfold digits
  rw [hlist, hlist, Nat.toDigits_eq_if (by decide)]
  split
  · rfl
  · rw [List.map_append]
    rfl

theorem digits_spec (n : Nat) : digits n ≠ [] ∧ (∀ c ∈ digits n, IsDigit c) ∧ number (digits n) = n := by
  induction n using Nat.strongRecOn with
  | ind n ih =>
    rw [digits_eq]
    by_cases hn : n < 10
    · obtain ⟨h1, h2⟩ := digit_spec hn
      rw [if_pos hn]
      refine ⟨List.cons_ne_nil _ _, ?_, h2⟩
      intro c hc
      rw [List.mem_singleton.1 hc]
      exact h1
    · obtain ⟨h1, h2⟩ := digit_spec (Nat.mod_lt n (show 0 < 10 by decide))
      obtain ⟨h3, h4, h5⟩ := ih (n / 10) (by omega)
      have hlast : number [digit (n % 10)] = n % 10 := h2
      rw [if_neg hn]
      refine ⟨List.append_ne_nil_of_left_ne_nil h3 _, ?_, ?_⟩
      · intro c hc
        rcases List.mem_append.1 hc with hc | hc
        · exact h4 c hc
        · rw [List.mem_singleton.1 hc]
          exact h1
      · rw [number_append, h5, hlast, List.length_singleton]
        omega

theorem length_digits_le {k : Nat} : ∀ {n : Nat}, n < 10 ^ (k + 1) → (digits n).length ≤ k + 1 := by
  induction k with
  | zero =>
    intro n hn
    rw [digits_eq, if_pos (by omega)]
    exact Nat.le_refl 1
  | succ k ih =>
    intro n hn
    rw [digits_eq]
    split
    · exact Nat.succ_le_succ (Nat.zero_le _)
    · have hdiv : n / 10 < 10 ^ (k + 1) := Nat.div_lt_of_lt_mul (by rw [Nat.mul_comm, ← Nat.pow_succ]; exact hn)
      rw [List.length_append]
      exact Nat.succ_le_succ (ih hdiv)

/-! ## Signs -/

def minus : UInt8 := 45

/-- An integer, printed with its sign. -/
def printed (n : Int) : List UInt8 := if n < 0 then minus :: digits n.natAbs else digits n.natAbs

theorem length_printed_le {k : Nat} {n : Int} (h : n.natAbs < 10 ^ (k + 1)) : (printed n).length ≤ k + 2 := by
  have hlen := length_digits_le h
  unfold printed
  split
  · exact Nat.succ_le_succ hlen
  · omega

end Decimal
