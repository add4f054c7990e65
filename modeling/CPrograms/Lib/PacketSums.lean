import CPrograms.Lib.Endian
import CPrograms.Lib.OnesComplement

/-!
# Sums over packets

A packet is summed as words of two bytes in either order, with a last odd byte as the half of
a word that its program takes.  A `check` that complements the folded sum verifies once it is
stored where a word was zero (`field_verifies_at`); the sums over words in the two orders are
the same but for the order of their bytes (`fold_big_eq_swap`).
-/

namespace PacketSums

open Endian OnesComplement

/-- A byte as the high half of a word. -/
def highByte (a : UInt8) : Nat := a.toNat * 256

theorem highByte_le (a : UInt8) : highByte a ≤ 65535 := by
  have ha := a.toNat_lt
  unfold highByte
  omega

theorem toNat_le (a : UInt8) : a.toNat ≤ 65535 := by
  have ha := a.toNat_lt
  omega

theorem total_lt {word : UInt8 → UInt8 → Nat} {tail : UInt8 → Nat} (hword : ∀ a b, word a b ≤ 65535)
    (htail : ∀ a, tail a ≤ 65535) {pkt : List UInt8} (hlen : pkt.length ≤ 131072) :
    total word tail pkt < 2 ^ 32 := by
  have hle := total_le word tail hword htail pkt
  have hmul : (pkt.length + 1) / 2 * 65535 ≤ 65536 * 65535 := Nat.mul_le_mul_right _ (by omega)
  omega

theorem odd_split {pkt : List UInt8} (h : pkt.length % 2 = 1) :
    ∃ front last, pkt = front ++ [last] ∧ front.length % 2 = 0 := by
  have hne : pkt ≠ [] := by
    rintro rfl
    simp at h
  refine ⟨pkt.dropLast, pkt.getLast hne, (List.dropLast_append_getLast hne).symm, ?_⟩
  rw [List.length_dropLast]
  omega

/-! ## Packets verify -/

theorem bytes16_zero (h : Host) : h.bytes16 0 = [0, 0] := by
  cases h with
  | little => rfl
  | big => rfl

theorem word16_zero (h : Host) : h.word16 0 0 = 0 := by
  cases h with
  | little => rfl
  | big => rfl

/-- For a sum over the words of either order, and a last byte that counts as either half. -/
theorem field_verifies {h : Host} {tail : UInt8 → Nat} {check : List UInt8 → Nat}
    (hcheck : ∀ pkt, pkt.length ≤ 131072 → check pkt = 65535 - fold 65536 (total h.word16 tail pkt))
    {front back : List UInt8} (heven : front.length % 2 = 0)
    (hlen : (front ++ 0 :: 0 :: back).length ≤ 131072) :
    check (front ++ h.bytes16 (check (front ++ 0 :: 0 :: back)) ++ back) = 0 := by
  have hsum := hcheck _ hlen
  obtain ⟨a, b, hbytes, hword⟩ := bytes16_eq h (check (front ++ 0 :: 0 :: back))
  have hlen' : (front ++ a :: b :: back).length ≤ 131072 := by
    simp only [List.length_append, List.length_cons] at hlen ⊢
    exact hlen
  have hcompl : h.word16 a b =
      65536 - 1 - fold 65536 (total h.word16 tail (front ++ 0 :: 0 :: back)) := by
    omega
  have hfold := fold_total_compl h.word16 tail (by decide) heven (word16_zero h) hcompl
  rw [hbytes, List.append_assoc]
  show check (front ++ a :: b :: back) = 0
  rw [hcheck _ hlen', hfold]

/-- `bs` stored at `off`. -/
def storeField (pkt : List UInt8) (off : Nat) (bs : List UInt8) : List UInt8 :=
  pkt.take off ++ bs ++ pkt.drop (off + bs.length)

theorem split_field {pkt : List UInt8} {off : Nat} (h0 : pkt[off]? = some 0)
    (h1 : pkt[off + 1]? = some 0) :
    pkt = pkt.take off ++ 0 :: 0 :: pkt.drop (off + 2) ∧ (pkt.take off).length = off := by
  obtain ⟨hlt, h0⟩ := List.getElem?_eq_some_iff.1 h0
  obtain ⟨hlt', h1⟩ := List.getElem?_eq_some_iff.1 h1
  have hdrop : pkt.drop off = 0 :: 0 :: pkt.drop (off + 2) := by
    rw [List.drop_eq_getElem_cons hlt, List.drop_eq_getElem_cons hlt', h0, h1]
  refine ⟨?_, ?_⟩
  · rw [← hdrop, List.take_append_drop]
  · rw [List.length_take]
    omega

theorem length_storeField {pkt bs : List UInt8} {off : Nat} (h : off + bs.length ≤ pkt.length) :
    (storeField pkt off bs).length = pkt.length := by
  simp only [storeField, List.length_append, List.length_take, List.length_drop]
  omega

theorem field_verifies_at {h : Host} {tail : UInt8 → Nat} {check : List UInt8 → Nat}
    (hcheck : ∀ pkt, pkt.length ≤ 131072 → check pkt = 65535 - fold 65536 (total h.word16 tail pkt))
    {pkt : List UInt8} {off : Nat} (hlen : pkt.length ≤ 131072) (heven : off % 2 = 0)
    (h0 : pkt[off]? = some 0) (h1 : pkt[off + 1]? = some 0) :
    check (storeField pkt off (h.bytes16 (check pkt))) = 0 := by
  obtain ⟨hsplit, hfront⟩ := split_field h0 h1
  have hverify := field_verifies hcheck (by rw [hfront]; exact heven) (hsplit ▸ hlen)
  rw [← hsplit] at hverify
  rw [storeField, Host.length_bytes16]
  exact hverify

/-! ## The order of the bytes -/

theorem swap_word (a b : UInt8) : swap 256 (Host.little.word16 a b) = Host.big.word16 a b := by
  have ha := a.toNat_lt
  have hb := b.toNat_lt
  simp only [swap, Host.word16]
  omega

/-- Bytes the other way round are the words times 256, up to what folding drops. -/
theorem total_modEq (pkt : List UInt8) :
    total Host.big.word16 highByte pkt ≡ 256 * total Host.little.word16 UInt8.toNat pkt [MOD 65535] := by
  induction pkt using total.induct with
  | case1 a b pkt ih =>
    simp only [total]
    rw [Nat.mul_add, ← swap_word]
    exact (swap_modEq (by decide : 2 ≤ 256) _).add ih
  | case2 a =>
    simp only [total, highByte]
    rw [Nat.mul_comm]
  | case3 => exact Nat.ModEq.refl 0

theorem total_eq_zero (pkt : List UInt8) :
    total Host.big.word16 highByte pkt = 0 ↔ total Host.little.word16 UInt8.toNat pkt = 0 := by
  induction pkt using total.induct with
  | case1 a b pkt ih =>
    simp only [total, Host.word16]
    omega
  | case2 a =>
    simp only [total, highByte]
    omega
  | case3 => exact Iff.rfl

theorem bytes_swap {x : Nat} (hx : x < 65536) :
    Host.big.bytes16 (swap 256 x) = Host.little.bytes16 x := by
  have h1 : swap 256 x / 256 % 256 = x % 256 := by
    have hq : x / 256 < 256 := by omega
    have hdiv : (x % 256 * 256 + x / 256) / 256 = x % 256 := by omega
    rw [swap, hdiv, Nat.mod_mod]
  have h2 : swap 256 x % 256 = x / 256 % 256 := by
    unfold swap
    omega
  show [(swap 256 x / 256).toUInt8, (swap 256 x).toUInt8] = [x.toUInt8, (x / 256).toUInt8]
  rw [Host.toUInt8_congr h1, Host.toUInt8_congr h2]

theorem fold_big_eq_swap (pkt : List UInt8) :
    fold 65536 (total Host.big.word16 highByte pkt) =
      swap 256 (fold 65536 (total Host.little.word16 UInt8.toNat pkt)) := by
  obtain ⟨hlt, hmod, hz⟩ := fold_spec (by decide : 2 ≤ 65536) (total Host.big.word16 highByte pkt)
  rw [swap_fold (by decide : 2 ≤ 256)]
  apply eq_fold (by decide) hlt
  · exact hmod.trans (total_modEq pkt)
  · rw [hz, total_eq_zero]
    omega

end PacketSums
