import CPrograms.Ping.Checksum
import CPrograms.RawSock.Model

/-!
# The two checksums

The loop of `checksum` adds the words of the packet as the machine reads them
(`checksumSum_eq`).  With the checksum stored in a field that was zero a packet sums to the
other zero, for this program and for `ping.c`; what `build_packet` stores is such a checksum.
On a little-endian machine the two programs store the same bytes.
-/

namespace CPrograms.RawSock

open Endian OnesComplement PacketSums Ping

theorem addPairs_eq (h : Host) (tail : UInt8 → Nat) {pkt : List UInt8} (heven : pkt.length % 2 = 0)
    (rest : List UInt8) : ∀ {n : Nat}, n + total h.word16 tail pkt < 2 ^ 32 →
      addPairs h ⟨n, false⟩ (pkt ++ rest) = addPairs h ⟨n + total h.word16 tail pkt, false⟩ rest := by
  induction pkt using total.induct with
  | case1 a b pkt ih =>
    intro n hlt
    rw [List.length_cons, List.length_cons] at heven
    rw [total] at hlt
    rw [List.cons_append, List.cons_append, addPairs, Acc.add_of_lt (by omega),
      ih (by omega) (by omega), total, Nat.add_assoc]
  | case2 a => simp at heven
  | case3 =>
    intro n _
    rfl

theorem foldCarry_eq {n : Nat} (h : n < 2 ^ 32) : foldCarry ⟨n, false⟩ = ⟨fold 65536 n, false⟩ := by
  induction n using Nat.strongRecOn with
  | ind n ih =>
    rw [foldCarry]
    by_cases hn : 65536 ≤ n
    · have hdec := fold_decreases (by decide : 2 ≤ 65536) hn
      rw [if_pos (by omega : n > 0xffff), Acc.add_carry h, ih _ hdec (by omega),
        ← fold_of_le (by decide) hn]
    · rw [if_neg (by omega : ¬ n > 0xffff), fold_of_lt (by omega)]

theorem checksumSum_eq (h : Host) {pkt : List UInt8} (hlen : pkt.length ≤ 131072) :
    checksumSum h pkt = ⟨fold 65536 (total h.word16 UInt8.toNat pkt), false⟩ := by
  have hlt := total_lt h.word16_le toNat_le hlen
  unfold checksumSum
  dsimp only
  have hand : pkt.length &&& 1 = pkt.length % 2 := Nat.and_one_is_mod _
  rw [hand]
  by_cases hodd : pkt.length % 2 = 1
  · obtain ⟨front, last, rfl, heven⟩ := odd_split hodd
    rw [total_append _ _ heven] at hlt ⊢
    have hlast : (front ++ [last]).getD ((front ++ [last]).length - 1) 0 = last := by simp
    have htail : total h.word16 UInt8.toNat [last] = last.toNat := rfl
    rw [htail] at hlt ⊢
    rw [if_pos (by omega), hlast]
    show foldCarry (Acc.add (addPairs h ⟨0, false⟩ (front ++ [last])) last.toNat) = _
    rw [addPairs_eq h UInt8.toNat heven [last] (by omega)]
    show foldCarry (Acc.add ⟨_, false⟩ last.toNat) = _
    rw [Acc.add_of_lt (by omega), Nat.zero_add, foldCarry_eq hlt]
  · rw [if_neg (by omega)]
    show foldCarry (addPairs h ⟨0, false⟩ pkt) = _
    have hpairs := addPairs_eq h UInt8.toNat (by omega : pkt.length % 2 = 0) [] (n := 0) (by omega)
    rw [List.append_nil] at hpairs
    rw [hpairs, Nat.zero_add]
    exact foldCarry_eq hlt

theorem checksum_eq (h : Host) {pkt : List UInt8} (hlen : pkt.length ≤ 131072) :
    checksum h pkt = 65535 - fold 65536 (total h.word16 UInt8.toNat pkt) := by
  have hlt := (fold_spec (by decide : 2 ≤ 65536) (total h.word16 UInt8.toNat pkt)).1
  rw [checksum, checksumSum_eq h hlen]
  show (2 ^ 32 - 1 - fold 65536 _) % 2 ^ 16 = _
  omega

/-! ## `build_packet` -/

theorem Iphdr.length_front (h : Host) (x : Iphdr) : (x.front h).length = 10 := by
  simp [Iphdr.front, Host.length_bytes16]

theorem Tcphdr.length_front (h : Host) (x : Tcphdr) : (x.front h).length = 16 := by
  simp [Tcphdr.front, Host.length_bytes16, Host.length_bytes32]

theorem Iphdr.length_bytes (h : Host) (x : Iphdr) : (x.bytes h).length = sizeofIphdr := by
  simp [Iphdr.bytes, x.length_front h, Host.length_bytes16, Host.length_bytes32, sizeofIphdr]

theorem length_pseudo (h : Host) (p : Tcp4Pseudohdr) : (p.bytes h).length = 12 := by
  simp [Tcp4Pseudohdr.bytes, Host.length_bytes16, Host.length_bytes32]

theorem Iphdr.verifies (h : Host) (x : Iphdr) (hx : x.check = 0) :
    checksum h (Iphdr.bytes h { x with check := checksum h (x.bytes h) }) = 0 := by
  have heven : (x.front h).length % 2 = 0 := by rw [x.length_front h]
  have hbytes : x.bytes h =
      x.front h ++ 0 :: 0 :: (h.bytes32 x.saddr.toNat ++ h.bytes32 x.daddr.toNat) := by
    rw [Iphdr.bytes, hx, bytes16_zero, List.append_assoc]
    rfl
  have hlen : (x.bytes h).length ≤ 131072 := by
    rw [x.length_bytes h]
    decide
  rw [hbytes] at hlen ⊢
  exact field_verifies (fun _ => checksum_eq h) heven hlen

/-- The pseudo header stands before the segment, and is summed with it. -/
theorem Tcphdr.verifies (h : Host) (p : Tcp4Pseudohdr) (x : Tcphdr) (hx : x.check = 0) :
    checksum h
      (p.bytes h ++ Tcphdr.bytes h { x with check := checksum h (p.bytes h ++ x.bytes h) }) = 0 := by
  have hfront : (p.bytes h ++ x.front h).length = 28 := by
    rw [List.length_append, length_pseudo, x.length_front h]
  have hbytes (c : Nat) : p.bytes h ++ Tcphdr.bytes h { x with check := c } =
      p.bytes h ++ x.front h ++ h.bytes16 c ++ h.bytes16 x.urgPtr := by
    rw [Tcphdr.bytes, List.append_assoc, List.append_assoc, List.append_assoc]
    rfl
  have hzero : p.bytes h ++ x.bytes h = p.bytes h ++ x.front h ++ 0 :: 0 :: h.bytes16 x.urgPtr := by
    have hx0 : x = { x with check := 0 } := by rw [← hx]
    rw [hx0, hbytes 0, bytes16_zero, List.append_assoc]
    rfl
  have hlen : (p.bytes h ++ x.front h ++ 0 :: 0 :: h.bytes16 x.urgPtr).length ≤ 131072 := by
    rw [List.length_append, hfront, List.length_cons, List.length_cons, Host.length_bytes16]
    decide
  rw [hbytes, hzero]
  exact field_verifies (fun _ => checksum_eq h) (by rw [hfront]) hlen

theorem buildPacket_verifies (h : Host) (saddr daddr : SockaddrIn) (seqNumber ackSeq : UInt32) :
    ∃ pkt, buildPacket h true saddr daddr seqNumber ackSeq = some pkt ∧
      checksum h (pkt.take sizeofIphdr) = 0 ∧
      checksum h ((pseudoHeader h saddr daddr).bytes h ++ pkt.drop sizeofIphdr) = 0 := by
  refine ⟨_, rfl, ?_, ?_⟩
  · rw [List.take_left' (Iphdr.length_bytes h _)]
    exact Iphdr.verifies h _ rfl
  · rw [List.drop_left' (Iphdr.length_bytes h _)]
    exact Tcphdr.verifies h _ _ rfl

/-- **Checksums verify.**  In any packet with a field for it, and in the packet that is built. -/
theorem checksums_verify (h : Host) :
    (∀ (pkt : List UInt8) (off : Nat), pkt.length ≤ 131072 → off % 2 = 0 →
      pkt[off]? = some 0 → pkt[off + 1]? = some 0 →
        (calculateChecksum (storeField pkt off (h.bytes16 (h.htons (calculateChecksum pkt)))) = 0 ∧
          (calculateSum pkt).over32 = false ∧
          (calculateSum (storeField pkt off
            (h.bytes16 (h.htons (calculateChecksum pkt))))).over32 = false) ∧
        checksum h (storeField pkt off (h.bytes16 (checksum h pkt))) = 0 ∧
          (checksumSum h pkt).over32 = false ∧
          (checksumSum h (storeField pkt off (h.bytes16 (checksum h pkt)))).over32 = false) ∧
    ∀ (saddr daddr : SockaddrIn) (seqNumber ackSeq : UInt32),
      ∃ pkt, buildPacket h true saddr daddr seqNumber ackSeq = some pkt ∧
        checksum h (pkt.take sizeofIphdr) = 0 ∧
        checksum h ((pseudoHeader h saddr daddr).bytes h ++ pkt.drop sizeofIphdr) = 0 := by
  refine ⟨?_, buildPacket_verifies h⟩
  intro pkt off hlen heven h0 h1
  have hoff : off + 2 ≤ pkt.length := (List.getElem?_eq_some_iff.1 h1).1
  have hstored (v : Nat) : (storeField pkt off (h.bytes16 v)).length ≤ 131072 := by
    rw [length_storeField (by rw [Host.length_bytes16]; exact hoff)]
    exact hlen
  refine ⟨⟨?_, ?_, ?_⟩, ?_, ?_, ?_⟩
  · rw [Host.bytes16_htons]
    exact field_verifies_at (fun _ => calculateChecksum_eq) hlen heven h0 h1
  · rw [calculateSum_eq hlen]
  · rw [calculateSum_eq (hstored _)]
  · exact field_verifies_at (fun _ => checksum_eq h) hlen heven h0 h1
  · rw [checksumSum_eq h hlen]
  · rw [checksumSum_eq h (hstored _)]

/-- A packet of odd length. -/
theorem checksums_verify_odd :
    calculateChecksum (storeField [8, 0, 0, 0, 1, 2, 3] 2
        (Host.little.bytes16 (Host.little.htons (calculateChecksum [8, 0, 0, 0, 1, 2, 3])))) = 0 ∧
      checksum .little (storeField [8, 0, 0, 0, 1, 2, 3] 2
        (Host.little.bytes16 (checksum .little [8, 0, 0, 0, 1, 2, 3]))) = 0 :=
  have h := (checksums_verify .little).1 [8, 0, 0, 0, 1, 2, 3] 2 (by decide) rfl rfl rfl
  ⟨h.1.1, h.2.1⟩

/-- **The two agree.**  Byte for byte, on a little-endian machine. -/
theorem checksum_same_bytes (pkt : List UInt8) (hlen : pkt.length ≤ 131072) :
    Host.little.bytes16 (checksum .little pkt) =
      Host.little.bytes16 (Host.little.htons (calculateChecksum pkt)) := by
  have hlt := (fold_spec (by decide : 2 ≤ 65536) (total Host.little.word16 UInt8.toNat pkt)).1
  have hcompl := swap_compl (by decide : 2 ≤ 256) hlt
  rw [Host.bytes16_htons, calculateChecksum_eq hlen, checksum_eq .little hlen, fold_big_eq_swap,
    ← bytes_swap (by omega)]
  exact congrArg Host.big.bytes16 hcompl

theorem checksum_same_bytes_odd :
    Host.little.bytes16 (checksum .little [1, 2, 255]) =
      Host.little.bytes16 (Host.little.htons (calculateChecksum [1, 2, 255])) :=
  checksum_same_bytes [1, 2, 255] (by decide)

end CPrograms.RawSock
