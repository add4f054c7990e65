import CPrograms.Lib.PacketSums
import CPrograms.Ping.Model

/-!
# `calculate_checksum`

The loop adds the big-endian words of the packet to an odd last byte (`calculateSum_eq`), and
no addition goes over 32 bits up to 131072 bytes.
-/

namespace CPrograms.Ping

open CInts Endian OnesComplement PacketSums

theorem addWords_eq (tail : UInt8 → Nat) {pkt : List UInt8} (heven : pkt.length % 2 = 0) :
    ∀ {n : Nat}, n + total Host.big.word16 tail pkt < 2 ^ 32 →
      addWords ⟨n, false⟩ pkt = ⟨n + total Host.big.word16 tail pkt, false⟩ := by
  induction pkt using total.induct with
  | case1 a b pkt ih =>
    intro n hlt
    rw [List.length_cons, List.length_cons] at heven
    have hshift : a.toNat <<< 8 = 256 * a.toNat := by
      rw [Nat.shiftLeft_eq, Nat.mul_comm]
    have hword : Host.big.word16 a b = 256 * a.toNat + b.toNat := rfl
    rw [total, hword] at hlt
    rw [addWords, hshift, Acc.add_of_lt (by omega), Acc.add_of_lt (by omega),
      ih (by omega) (by omega), total, hword]
    simp only [Nat.add_assoc]
  | case2 a => simp at heven
  | case3 =>
    intro n _
    rfl

theorem addCarry_eq {n : Nat} (h : n < 2 ^ 32) : addCarry ⟨n, false⟩ = ⟨fold 65536 n, false⟩ := by
  induction n using Nat.strongRecOn with
  | ind n ih =>
    have hshift : n >>> 16 = n / 65536 := Nat.shiftRight_eq_div_pow n 16
    rw [addCarry]
    by_cases hn : 65536 ≤ n
    · have hdec := fold_decreases (by decide : 2 ≤ 65536) hn
      have hcarry : n >>> 16 ≠ 0 := by omega
      rw [if_pos hcarry, Acc.add_carry h, ih _ hdec (by omega), ← fold_of_le (by decide) hn]
    · have hcarry : ¬ n >>> 16 ≠ 0 := by omega
      rw [if_neg hcarry, fold_of_lt (by omega)]

theorem calculateSum_eq {pkt : List UInt8} (hlen : pkt.length ≤ 131072) :
    calculateSum pkt = ⟨fold 65536 (total Host.big.word16 highByte pkt), false⟩ := by
  have hlt := total_lt (Host.word16_le .big) highByte_le hlen
  unfold calculateSum
  dsimp only
  by_cases hodd : pkt.length % 2 = 1
  · obtain ⟨front, last, rfl, heven⟩ := odd_split hodd
    rw [total_append _ _ heven] at hlt ⊢
    have hlast : (front ++ [last]).getD ((front ++ [last]).length - 1) 0 = last := by simp
    have hfront : (front ++ [last]).take ((front ++ [last]).length - 1) = front := by simp
    have htail : total Host.big.word16 highByte [last] = last.toNat * 256 := rfl
    rw [htail] at hlt ⊢
    rw [if_pos hodd, hlast, hfront, Nat.shiftLeft_eq]
    show addCarry (addWords (Acc.add ⟨0, false⟩ (last.toNat * 256)) front) = _
    rw [Acc.add_of_lt (by omega), addWords_eq highByte heven (by omega), addCarry_eq (by omega),
      Nat.zero_add, Nat.add_comm]
  · rw [if_neg hodd]
    show addCarry (addWords ⟨0, false⟩ pkt) = _
    rw [addWords_eq highByte (by omega) (by omega), Nat.zero_add, addCarry_eq hlt]

theorem calculateChecksum_eq {pkt : List UInt8} (hlen : pkt.length ≤ 131072) :
    calculateChecksum pkt = 65535 - fold 65536 (total Host.big.word16 highByte pkt) := by
  have hlt := (fold_spec (by decide : 2 ≤ 65536) (total Host.big.word16 highByte pkt)).1
  rw [calculateChecksum, calculateSum_eq hlen]
  show (2 ^ 32 - 1 - fold 65536 _) &&& (2 ^ 16 - 1) = _
  rw [Nat.and_two_pow_sub_one_eq_mod]
  omega

/-! ## Requests -/

theorem sendEchoRequest_eq (h : Host) (ident seq : Int) (ts : Double) :
    ∃ back, back.length = 26 ∧
      sendEchoRequest h ident seq ts =
        [8, 0] ++ Host.big.bytes16
          (calculateChecksum ([8, 0] ++ 0 :: 0 :: (Host.big.bytes16 (u16 ident) ++ back))) ++
        (Host.big.bytes16 (u16 ident) ++ back) := by
  refine ⟨h.bytes16 (h.htons (u16 seq)) ++ ts.bytes ++ magic ++ List.replicate 6 0, ?_, ?_⟩
  · simp [Host.length_bytes16, ts.eight, magic]
  · rw [← Host.bytes16_htons h (u16 ident), ← Host.bytes16_htons h (calculateChecksum _)]
    unfold sendEchoRequest IcmpEcho.bytes
    dsimp only
    rw [bytes16_zero]
    rfl

/-- What is sent verifies. -/
theorem sendEchoRequest_verifies (h : Host) (ident seq : Int) (ts : Double) :
    calculateChecksum (sendEchoRequest h ident seq ts) = 0 := by
  obtain ⟨back, hback, hsent⟩ := sendEchoRequest_eq h ident seq ts
  rw [hsent]
  apply field_verifies (fun _ => calculateChecksum_eq) rfl
  simp only [List.length_append, List.length_cons, List.length_nil, Host.length_bytes16, hback]
  decide

end CPrograms.Ping
