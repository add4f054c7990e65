import CPrograms.Lib.Buffers
import CPrograms.Lib.Lines

/-!
# Reading a line in `basic`

The programs of `basic` have a `get_line` each.  Where one stores what it reads while there is
room, up to a character that stops it, its loop is `fillLine`.  What they count is an `int`.
-/

namespace CPrograms.Basic

open Buffers Lines

/-- `INT_MAX` -/
def intMax : Nat := 2147483647

/-- `++i`, which has no result where it overflows. -/
def increment (i : Int) : Option Int := if i < intMax then some (i + 1) else none

theorem increment_eq (i : Nat) : increment i = if i < intMax then some ((i + 1 : Nat) : Int) else none := by
  unfold increment
  exact if_congr Int.ofNat_lt rfl rfl

/-- The characters from `s[i]` on, while there is `room`; also where it stops, the last character,
and what is left of the input. -/
def fillLine {n : Nat} (stop : Int → Bool) :
    Nat → Buffer n → Int → Int → List UInt8 → Option (Buffer n × Int × Int × List UInt8)
  | 0, s, i, c, input => some (s, i, c, input)
  | room + 1, s, i, _, input =>
    let (c, input) := getchar input
    if stop c then some (s, i, c, input)
    else (s.store i (toChar c)).bind fun s => fillLine stop room s (i + 1) c input

section

variable {n : Nat} {stop : Int → Bool}

/-- A word, up to what stops it. -/
theorem fillLine_word {rest rest' : List UInt8} {d : Int} (hd : getchar rest = (d, rest')) (hstop : stop d = true)
    {s : Buffer n} (w : List UInt8) : ∀ (room : Nat) (pre : List UInt8) (c : Int),
      (∀ b ∈ w, stop b.toNat = false) → w.length < room → (pre ++ w).length ≤ n →
        fillLine stop room (s.overwrite pre) pre.length c (w ++ rest) =
          some (s.overwrite (pre ++ w), ((pre ++ w).length : Int), d, rest') := by
  induction w with
  | nil =>
    intro room pre c _ hroom _
    obtain ⟨room, rfl⟩ := Nat.exists_eq_succ_of_ne_zero (Nat.ne_of_gt hroom)
    rw [List.nil_append, List.append_nil, fillLine, hd]
    exact if_pos hstop
  | cons b w ih =>
    intro room pre c hw hroom hn
    obtain ⟨hb, hw⟩ := List.forall_mem_cons.1 hw
    obtain ⟨room, rfl⟩ := Nat.exists_eq_succ_of_ne_zero (Nat.ne_of_gt (Nat.zero_lt_of_lt hroom))
    have hassoc : pre ++ b :: w = (pre ++ [b]) ++ w := by
      rw [List.append_assoc]
      rfl
    have hlen : (pre ++ [b]).length = pre.length + 1 := List.length_append
    rw [hassoc, List.length_append, hlen] at hn
    have hrest := ih room (pre ++ [b]) b.toNat hw (Nat.lt_of_succ_lt_succ hroom)
      (by rw [List.length_append, hlen]; omega)
    rw [hlen] at hrest
    rw [List.cons_append, fillLine, getchar]
    dsimp only
    rw [if_neg (by rw [hb]; exact Bool.false_ne_true), toChar_natCast, store_overwrite rfl (by omega),
      Option.bind_some, hassoc]
    exact hrest

/-- A word from the start of the array on. -/
theorem fillLine_start {w rest rest' : List UInt8} {c d : Int} {room : Nat} (hd : getchar rest = (d, rest'))
    (hstop : stop d = true) (s : Buffer n) (hw : ∀ b ∈ w, stop b.toNat = false) (hroom : w.length < room)
    (hn : w.length ≤ n) :
    fillLine stop room s 0 c (w ++ rest) = some (s.overwrite w, (w.length : Int), d, rest') := by
  have h := @fillLine_word n stop rest rest' d hd hstop s w room [] c hw hroom hn
  rwa [overwrite_nil] at h

/-- At the end of the input, where that does not stop it. -/
theorem fillLine_open (heof : stop eof = false) (room : Nat) : ∀ (s : Buffer n) (i : Nat) (c : Int)
    (w : List UInt8), stop c = false → (∀ b ∈ w, stop b.toNat = false) → w.length ≤ room → i + room ≤ n →
      ∃ s' c', fillLine stop room s i c w = some (s', ((i + room : Nat) : Int), c', []) ∧ stop c' = false := by
  induction room with
  | zero =>
    intro s i c w hc _ hlen _
    rw [List.length_eq_zero_iff.1 (Nat.le_zero.1 hlen)]
    exact ⟨s, c, rfl, hc⟩
  | succ room ih =>
    intro s i c w _ hw hlen hn
    -- the next character, which does not stop it
    obtain ⟨d, w', hd, hstop, hw', hlen'⟩ : ∃ d w', getchar w = (d, w') ∧ stop d = false ∧
        (∀ b ∈ w', stop b.toNat = false) ∧ w'.length ≤ room := by
      cases w with
      | nil => exact ⟨eof, [], rfl, heof, List.forall_mem_nil _, Nat.zero_le _⟩
      | cons b w =>
        obtain ⟨hb, hw⟩ := List.forall_mem_cons.1 hw
        exact ⟨b.toNat, w, rfl, hb, hw, Nat.le_of_succ_le_succ hlen⟩
    obtain ⟨s₁, hs₁⟩ : ∃ s₁, s.store i (toChar d) = some s₁ := by
      unfold Buffer.store
      rw [if_pos (by omega)]
      exact ⟨_, rfl⟩
    obtain ⟨s', c', hfill, hc'⟩ := ih s₁ (i + 1) d w' hstop hw' hlen' (by omega)
    refine ⟨s', c', ?_, hc'⟩
    rw [fillLine, hd]
    dsimp only
    rw [if_neg (by rw [hstop]; exact Bool.false_ne_true), hs₁, Option.bind_some, ← Nat.add_assoc,
      Nat.add_right_comm]
    exact hfill

/-- The characters that were stored were read, and so was the newline that stopped it. -/
theorem length_fillLine {s' : Buffer n} {i' c' : Int} {input' : List UInt8} (heof : stop eof = true)
    (hnewline : stop newline.toNat = true) (room : Nat) : ∀ (s : Buffer n) (i c : Int) (input : List UInt8),
      (room = 0 → c ≠ newline.toNat) → fillLine stop room s i c input = some (s', i', c', input') →
        input'.length + i' + (if c' = newline.toNat then 1 else 0) ≤ input.length + i := by
  induction room with
  | zero =>
    intro s i c input hc h
    rw [fillLine, Option.some.injEq, Prod.mk.injEq, Prod.mk.injEq, Prod.mk.injEq] at h
    obtain ⟨-, rfl, rfl, rfl⟩ := h
    rw [if_neg (hc rfl)]
    omega
  | succ room ih =>
    intro s i c input _ h
    rw [fillLine] at h
    cases input with
    | nil =>
      rw [getchar] at h
      dsimp only at h
      rw [if_pos heof, Option.some.injEq, Prod.mk.injEq, Prod.mk.injEq, Prod.mk.injEq] at h
      obtain ⟨-, rfl, rfl, rfl⟩ := h
      rw [if_neg (natCast_ne_eof newline).symm]
      omega
    | cons b input =>
      rw [getchar] at h
      dsimp only at h
      rw [List.length_cons]
      by_cases hstop : stop b.toNat = true
      · rw [if_pos hstop, Option.some.injEq, Prod.mk.injEq, Prod.mk.injEq, Prod.mk.injEq] at h
        obtain ⟨-, rfl, rfl, rfl⟩ := h
        split
        · omega
        · omega
      · rw [if_neg hstop] at h
        obtain ⟨s₁, -, hrest⟩ := Option.bind_eq_some_iff.1 h
        have hb : (b.toNat : Int) ≠ newline.toNat := fun he => hstop (he ▸ hnewline)
        have := ih s₁ (i + 1) b.toNat input (fun _ => hb) hrest
        omega

end

end CPrograms.Basic
