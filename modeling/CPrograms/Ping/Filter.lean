import CPrograms.Ping.Checksum
import Mathlib.Data.List.GetD

/-!
# The filter on replies

The filter looks for the ICMP header 20 bytes into the datagram (`passes_iff`), whatever the
length of the IP header, and compares an identifier of 16 bits with the whole process id.
`Judged` says of one datagram whether it is judged rightly.  `datagram` builds well-formed
datagrams with any header length and any content behind the first 20 bytes; among them are some
that are judged wrongly, of every kind where there are any.
-/

namespace CPrograms.Ping

open ByteMem CInts Endian OnesComplement PacketSums

/-! ## Datagrams -/

/-- The header length field counts words of four bytes. -/
def headerLen (d : List UInt8) : Nat := (d.getD 0 0).toNat % 16 * 4

/-- An IPv4 datagram that carries ICMP. -/
structure WellFormed (d : List UInt8) : Prop where
  version : (d.getD 0 0).toNat / 16 = 4
  header : 20 ≤ headerLen d
  covers : headerLen d ≤ d.length
  total : Host.big.word16 (d.getD 2 0) (d.getD 3 0) = d.length
  protocol : d.getD 9 0 = 1
  checksum : calculateChecksum (d.take (headerLen d)) = 0

/-- The identifier field of an ICMP message. -/
def identifierBytes (icmp : List UInt8) : List UInt8 := (icmp.drop 4).take 2

/-- An echo reply, with a whole ICMP header and these identifier bytes. -/
structure IsReply (d : List UInt8) (ident : List UInt8) : Prop where
  whole : headerLen d + 8 ≤ d.length
  type : d.getD (headerLen d) 0 = 0
  code : d.getD (headerLen d + 1) 0 = 0
  identifier : identifierBytes (d.drop (headerLen d)) = ident

/-- The datagram gets to the `printf`. -/
def Passes (h : Host) (m : Mem) (buf : Nat) (ident : Int) (d : List UInt8) : Prop :=
  (recvEchoReply h m buf ident (.datagram d)).2.isSome

/-! ## What is compared -/

theorem identifierBytes_sendEchoRequest (h : Host) (ident seq : Int) (ts : Double) :
    identifierBytes (sendEchoRequest h ident seq ts) = Host.big.bytes16 (u16 ident) := by
  obtain ⟨back, -, hsent⟩ := sendEchoRequest_eq h ident seq ts
  rw [hsent]
  rfl

/-- A byte of the buffer: of the datagram where it reaches, else what was there. -/
theorem buffer_at (m : Mem) (buf : Nat) (d : List UInt8) {i : Nat} (hi : i < mtu) :
    storeBytes m buf (d.take mtu) (buf + i) = d.getD i (m (buf + i)) := by
  rw [storeBytes, if_pos (Nat.le_add_right _ _), Nat.add_sub_cancel_left, List.getElem?_take,
    if_pos hi, List.getD_eq_getElem?_getD]

theorem passes_iff (h : Host) (m : Mem) (buf : Nat) (ident : Int) (d : List UInt8) :
    Passes h m buf ident d ↔
      d.getD 20 (m (buf + 20)) = 0 ∧ d.getD 21 (m (buf + 21)) = 0 ∧
      (Host.big.word16 (d.getD 24 (m (buf + 24))) (d.getD 25 (m (buf + 25))) : Int) = ident := by
  unfold Passes recvEchoReply
  dsimp only
  simp only [Nat.add_assoc, Nat.reduceAdd]
  rw [buffer_at m buf d (by decide : 20 < mtu), buffer_at m buf d (by decide : 21 < mtu),
    buffer_at m buf d (by decide : 24 < mtu), buffer_at m buf d (by decide : 25 < mtu),
    Host.ntohs_word16]
  by_cases hhead : d.getD 20 (m (buf + 20)) ≠ 0 ∨ d.getD 21 (m (buf + 21)) ≠ 0
  · rw [if_pos hhead]
    refine iff_of_false Bool.false_ne_true ?_
    rintro ⟨h0, h1, -⟩
    exact hhead.elim (fun hne => hne h0) (fun hne => hne h1)
  · obtain ⟨h0, h1⟩ := not_or.1 hhead
    rw [if_neg hhead]
    by_cases hid : (Host.big.word16 (d.getD 24 (m (buf + 24))) (d.getD 25 (m (buf + 25))) : Int) = ident
    · rw [if_neg (not_not.2 hid)]
      exact iff_of_true rfl ⟨not_not.1 h0, not_not.1 h1, hid⟩
    · rw [if_pos hid]
      exact iff_of_false Bool.false_ne_true fun hp => hid hp.2.2

theorem identifierBytes_drop {d : List UInt8} {k : Nat} (h : k + 6 ≤ d.length) (x y : UInt8) :
    identifierBytes (d.drop k) = [d.getD (k + 4) x, d.getD (k + 5) y] := by
  have h4 : k + 4 < d.length := by omega
  have h5 : k + 4 + 1 < d.length := by omega
  rw [identifierBytes, List.drop_drop, List.drop_eq_getElem_cons h4, List.drop_eq_getElem_cons h5,
    List.getD_eq_getElem _ _ h4, List.getD_eq_getElem _ _ h5]
  rfl

/-- Nothing has an identifier of more than 16 bits. -/
theorem not_passes {h : Host} {m : Mem} {buf : Nat} {ident : Int} {d : List UInt8}
    (hident : 65536 ≤ ident) : ¬ Passes h m buf ident d := by
  rw [passes_iff]
  rintro ⟨-, -, hid⟩
  have hle := Host.word16_le .big (d.getD 24 (m (buf + 24))) (d.getD 25 (m (buf + 25)))
  omega

/-! ## Datagrams of a kind -/

/-- The first ten bytes of a header of `hl` bytes, of a datagram with `n` more than 20. -/
def front (hl n : Nat) : List UInt8 :=
  [(64 + hl / 4).toUInt8, 0] ++ Host.big.bytes16 (20 + n) ++ [0, 0, 0, 0, 64, 1]

/-- With `tail` behind the first 20 bytes: options, and the message. -/
def datagram (hl : Nat) (tail : List UInt8) : List UInt8 :=
  let addresses := List.replicate 8 0
  let sum := calculateChecksum
    (front hl tail.length ++ 0 :: 0 :: (addresses ++ tail.take (hl - 20)))
  front hl tail.length ++ Host.big.bytes16 sum ++ (addresses ++ tail)

theorem length_front (hl n : Nat) : (front hl n).length = 10 := rfl

theorem length_datagram (hl : Nat) (tail : List UInt8) :
    (datagram hl tail).length = 20 + tail.length := by
  simp only [datagram, List.length_append, length_front, Host.length_bytes16, List.length_replicate]
  omega

/-- Its bytes behind the first 20. -/
theorem datagram_getD (hl : Nat) (tail : List UInt8) (i : Nat) (x : UInt8) :
    (datagram hl tail).getD (20 + i) x = tail.getD i x := by
  rw [datagram, ← List.append_assoc, List.getD_eq_getElem?_getD, List.getElem?_append_right]
  · simp [length_front, Host.length_bytes16, List.getD_eq_getElem?_getD]
  · simp [length_front, Host.length_bytes16]

theorem headerLen_datagram {hl : Nat} (hmod : hl % 4 = 0) (hle : hl ≤ 60) (tail : List UInt8) :
    headerLen (datagram hl tail) = hl := by
  show (64 + hl / 4).toUInt8.toNat % 16 * 4 = hl
  rw [UInt8.toNat_ofNat']
  omega

theorem wellFormed_datagram {hl : Nat} (hmod : hl % 4 = 0) (hge : 20 ≤ hl) (hle : hl ≤ 60)
    {tail : List UInt8} (hcovers : hl ≤ 20 + tail.length) (hmax : 20 + tail.length ≤ 65535) :
    WellFormed (datagram hl tail) := by
  have hhead := headerLen_datagram hmod hle tail
  refine ⟨?_, ?_, ?_, ?_, rfl, ?_⟩
  · show (64 + hl / 4).toUInt8.toNat / 16 = 4
    rw [UInt8.toNat_ofNat']
    omega
  · rw [hhead]
    exact hge
  · rw [hhead, length_datagram]
    exact hcovers
  · rw [length_datagram]
    exact (bytes16_eq_iff .big (by omega)).1 rfl
  · have htake : (datagram hl tail).take hl = front hl tail.length ++ Host.big.bytes16
        (calculateChecksum (front hl tail.length ++ 0 :: 0 ::
          (List.replicate 8 0 ++ tail.take (hl - 20)))) ++
        (List.replicate 8 0 ++ tail.take (hl - 20)) := by
      have hsum : (front hl tail.length ++ Host.big.bytes16
          (calculateChecksum (front hl tail.length ++ 0 :: 0 ::
            (List.replicate 8 0 ++ tail.take (hl - 20)))) ++ List.replicate 8 0).length = 20 := by
        simp [length_front, Host.length_bytes16]
      rw [datagram, ← List.append_assoc, List.take_append, hsum, List.take_of_length_le (by omega),
        ← List.append_assoc]
    rw [hhead, htake]
    apply field_verifies (fun _ => calculateChecksum_eq) (by rw [length_front])
    simp only [List.length_append, List.length_cons, length_front, List.length_replicate,
      List.length_take]
    omega

/-! ## Which kinds are judged right -/

/-- Options of zeros, and a reply with this identifier; of `n` bytes with the header. -/
def replyTail (hl n : Nat) (ident : List UInt8) : List UInt8 :=
  List.replicate (hl - 20 + 4) 0 ++ (ident ++ List.replicate (n - hl - 6) 0)

theorem replyTail_zero {hl n i : Nat} {ident : List UInt8} (hi : i < hl - 20 + 4) (x : UInt8) :
    (replyTail hl n ident).getD i x = 0 := by
  rw [replyTail, List.getD_eq_getElem?_getD, List.getElem?_append_left (by simpa using hi),
    List.getElem?_replicate, if_pos hi, Option.getD_some]

theorem replyTail_ident {hl n i : Nat} {a b : UInt8} (x : UInt8) :
    (replyTail hl n [a, b]).getD (hl - 20 + 4 + i) x =
      ([a, b] ++ List.replicate (n - hl - 6) 0).getD i x := by
  rw [replyTail, List.getD_eq_getElem?_getD, List.getElem?_append_right (by simp),
    List.length_replicate, Nat.add_sub_cancel_left, List.getD_eq_getElem?_getD]

/-- A whole reply that does not pass: too large a process id, or options. -/
theorem reply_misjudged (h : Host) {ident : Int} (hident : 0 < ident) {hl n : Nat}
    (hmod : hl % 4 = 0) (hge : 20 ≤ hl) (hle : hl ≤ 60) (hmax : n ≤ 65535) (hwhole : hl + 8 ≤ n)
    (hkind : 65536 ≤ ident ∨ hl ≠ 20) :
    ∃ m buf d, WellFormed d ∧ headerLen d = hl ∧ d.length = n ∧
      IsReply d (Host.big.bytes16 (u16 ident)) ∧ ¬ Passes h m buf ident d := by
  obtain ⟨a, b, hbytes, -⟩ := bytes16_eq .big (u16 ident)
  have hlen : (replyTail hl n [a, b]).length = n - 20 := by
    simp [replyTail]
    omega
  have hhead := headerLen_datagram hmod hle (replyTail hl n [a, b])
  have hdlen : (datagram hl (replyTail hl n [a, b])).length = n := by
    rw [length_datagram, hlen]
    omega
  have hget (i : Nat) (hi : 20 ≤ i) (x : UInt8) : (datagram hl (replyTail hl n [a, b])).getD i x =
      (replyTail hl n [a, b]).getD (i - 20) x := by
    rw [← datagram_getD hl _ (i - 20), Nat.add_sub_cancel' hi]
  refine ⟨fun _ => 0, 0, datagram hl (replyTail hl n [a, b]), ?_, hhead, hdlen, ?_, ?_⟩
  · exact wellFormed_datagram hmod hge hle (by omega) (by omega)
  · refine ⟨by omega, ?_, ?_, ?_⟩
    · rw [hhead, hget _ hge, replyTail_zero (by omega)]
    · rw [hhead, hget _ (by omega), replyTail_zero (by omega)]
    · rw [hhead, hbytes, identifierBytes_drop (by omega) 0 0, hget _ (by omega), hget _ (by omega),
        (by omega : hl + 4 - 20 = hl - 20 + 4 + 0), (by omega : hl + 5 - 20 = hl - 20 + 4 + 1),
        replyTail_ident, replyTail_ident]
      rfl
  · by_cases hbig : 65536 ≤ ident
    · exact not_passes hbig
    · -- at offset 24 there are still options
      have hopt : hl ≠ 20 := hkind.resolve_left hbig
      rw [passes_iff, hget 24 (by decide), hget 25 (by decide), replyTail_zero (by omega),
        replyTail_zero (by omega), word16_zero]
      rintro ⟨-, -, hid⟩
      omega

/-- What the filter looks for. -/
def lookedFor (ident : List UInt8) : List UInt8 := List.replicate 4 0 ++ ident

/-- As much of it as `n` bytes with the first 20 hold. -/
def cutTail (n : Nat) (ident : List UInt8) : List UInt8 :=
  (lookedFor ident ++ List.replicate n 0).take (n - 20)

theorem length_cutTail (n : Nat) (a b : UInt8) : (cutTail n [a, b]).length = n - 20 := by
  simp [cutTail, lookedFor]
  omega

/-- Received or left over, it is what is looked for. -/
theorem cutTail_getD {n i : Nat} (hi : i < 6) (a b : UInt8) :
    (cutTail n [a, b]).getD i (storeBytes (fun _ => 0) 20 (lookedFor [a, b]) (20 + i)) =
      (lookedFor [a, b]).getD i 0 := by
  have hlt : i < (lookedFor [a, b]).length := hi
  rw [storeBytes, if_pos (Nat.le_add_right _ _), Nat.add_sub_cancel_left, cutTail,
    List.getD_eq_getElem?_getD, List.getElem?_take, List.getElem?_append_left hlt,
    List.getD_eq_getElem?_getD, List.getElem?_eq_getElem hlt, Option.getD_some]
  split
  · rfl
  · rfl

/-- No whole ICMP header was received, and what is in the buffer completes it. -/
theorem cut_misjudged (h : Host) {ident : Int} (hident : 0 < ident ∧ ident < 65536) {hl n : Nat}
    (hmod : hl % 4 = 0) (hge : 20 ≤ hl) (hle : hl ≤ 60) (hn : hl ≤ n) (hcut : n < hl + 8) :
    ∃ m buf d, WellFormed d ∧ headerLen d = hl ∧ d.length = n ∧
      ¬ IsReply d (Host.big.bytes16 (u16 ident)) ∧ Passes h m buf ident d := by
  have hu : (u16 ident : Int) = ident := by
    unfold u16
    omega
  obtain ⟨a, b, hbytes, hword⟩ := bytes16_eq .big (u16 ident)
  have htail := length_cutTail n a b
  have hhead := headerLen_datagram hmod hle (cutTail n [a, b])
  have hdlen : (datagram hl (cutTail n [a, b])).length = n := by
    rw [length_datagram, htail]
    omega
  have hget (i : Nat) (hi : i < 6) : (datagram hl (cutTail n [a, b])).getD (20 + i)
      (storeBytes (fun _ => 0) 20 (lookedFor [a, b]) (0 + (20 + i))) =
      (lookedFor [a, b]).getD i 0 := by
    rw [datagram_getD, Nat.zero_add, cutTail_getD hi]
  refine ⟨storeBytes (fun _ => 0) 20 (lookedFor [a, b]), 0, datagram hl (cutTail n [a, b]),
    wellFormed_datagram hmod hge hle (by omega) (by omega), hhead, hdlen, ?_, ?_⟩
  · intro hreply
    have := hreply.whole
    omega
  · rw [passes_iff]
    refine ⟨hget 0 (by decide), hget 1 (by decide), ?_⟩
    rw [hget 4 (by decide), hget 5 (by decide)]
    show (Host.big.word16 a b : Int) = ident
    omega

/-! ## One datagram -/

/-- A message that looks like a reply with this identifier, by the bytes that the filter reads. -/
def Looks (icmp : Nat → UInt8) (ident : Int) : Prop :=
  icmp 0 = 0 ∧ icmp 1 = 0 ∧ [icmp 4, icmp 5] = Host.big.bytes16 (u16 ident)

/-- A whole ICMP header, behind the IP header, looks so. -/
def LooksBehind (d : List UInt8) (ident : Int) : Prop :=
  headerLen d + 8 ≤ d.length ∧ Looks (fun i => d.getD (headerLen d + i) 0) ident

/-- What is 20 bytes into the buffer looks so: received, or left over where the datagram ends
before. -/
def LooksAtTwenty (m : Mem) (buf : Nat) (d : List UInt8) (ident : Int) : Prop :=
  Looks (fun i => d.getD (20 + i) (m (buf + (20 + i)))) ident

/-- When a datagram is judged rightly. -/
inductive Judged (m : Mem) (buf : Nat) (ident : Int) (d : List UInt8) : Prop
  /-- an identifier of 16 bits, and the ICMP header where it is looked for -/
  | plain : ident < 65536 → headerLen d = 20 → 28 ≤ d.length → Judged m buf ident d
  /-- nothing passes, and there is nothing to recognise -/
  | large : 65536 ≤ ident → ¬ LooksBehind d ident → Judged m buf ident d
  /-- no reply, and what is looked at (options, or what was left in the buffer) is not like one -/
  | neither : ¬ LooksBehind d ident → ¬ LooksAtTwenty m buf d ident → Judged m buf ident d
  /-- a reply, and what is looked at (options) is like one -/
  | both : ident < 65536 → LooksBehind d ident → LooksAtTwenty m buf d ident → Judged m buf ident d

theorem isReply_iff (d : List UInt8) (ident : Int) :
    IsReply d (Host.big.bytes16 (u16 ident)) ↔ LooksBehind d ident := by
  unfold LooksBehind Looks
  constructor
  · rintro ⟨hwhole, htype, hcode, hident⟩
    rw [identifierBytes_drop (by omega) 0 0] at hident
    exact ⟨hwhole, htype, hcode, hident⟩
  · rintro ⟨hwhole, htype, hcode, hident⟩
    refine ⟨hwhole, htype, hcode, ?_⟩
    rw [identifierBytes_drop (by omega) 0 0]
    exact hident

theorem passes_iff_looks {h : Host} {m : Mem} {buf : Nat} {ident : Int} {d : List UInt8}
    (h0 : 0 ≤ ident) (hident : ident < 65536) :
    Passes h m buf ident d ↔ LooksAtTwenty m buf d ident := by
  have hu : (u16 ident : Int) = ident := by
    unfold u16
    omega
  rw [passes_iff, LooksAtTwenty, Looks, bytes16_eq_iff .big (by omega)]
  refine and_congr_right fun _ => and_congr_right fun _ => ?_
  simp only [Nat.reduceAdd]
  omega

/-- Where the ICMP header is. -/
theorem looks_iff {m : Mem} {buf : Nat} {ident : Int} {d : List UInt8} (hhead : headerLen d = 20)
    (hlen : 28 ≤ d.length) : LooksAtTwenty m buf d ident ↔ LooksBehind d ident := by
  have hget {i : Nat} (hi : i < 8) : d.getD (20 + i) (m (buf + (20 + i))) = d.getD (20 + i) 0 := by
    rw [List.getD_eq_getElem _ _ (by omega), List.getD_eq_getElem _ _ (by omega)]
  unfold LooksBehind LooksAtTwenty Looks
  dsimp only
  rw [hhead, hget (by decide), hget (by decide), hget (by decide), hget (by decide)]
  exact (and_iff_right hlen).symm

theorem judged_iff {h : Host} {m : Mem} {buf : Nat} {ident : Int} {d : List UInt8} (h0 : 0 ≤ ident) :
    (Passes h m buf ident d ↔ IsReply d (Host.big.bytes16 (u16 ident))) ↔ Judged m buf ident d := by
  rw [isReply_iff]
  rcases Int.lt_or_le ident 65536 with hsmall | hlarge
  · rw [passes_iff_looks h0 hsmall]
    constructor
    · intro hiff
      by_cases hbehind : LooksBehind d ident
      · exact .both hsmall hbehind (hiff.2 hbehind)
      · exact .neither hbehind (mt hiff.1 hbehind)
    · rintro (⟨-, hhead, hlen⟩ | ⟨hlarge, -⟩ | ⟨hbehind, htwenty⟩ | ⟨-, hbehind, htwenty⟩)
      · exact looks_iff hhead hlen
      · omega
      · exact iff_of_false htwenty hbehind
      · exact iff_of_true htwenty hbehind
  · have hno : ¬ Passes h m buf ident d := not_passes hlarge
    constructor
    · exact fun hiff => .large hlarge (mt hiff.2 hno)
    · rintro (⟨hsmall, -, -⟩ | ⟨-, hbehind⟩ | ⟨hbehind, -⟩ | ⟨hsmall, -, -⟩)
      · omega
      · exact iff_of_false hno hbehind
      · exact iff_of_false hno hbehind
      · omega

/-- **The filter.**  Which datagrams are judged rightly; and the process ids that are served, by the
lengths of the IP header and of the datagram. -/
theorem filter_exact (h : Host) (ident : Int) (hident : 0 < ident ∧ ident ≤ 4194304) (seq : Int)
    (ts : Double) :
    (∀ (m : Mem) (buf : Nat) (d : List UInt8), WellFormed d →
      ((Passes h m buf ident d ↔ IsReply d (identifierBytes (sendEchoRequest h ident seq ts))) ↔
        Judged m buf ident d)) ∧
    ∀ hl n : Nat, hl % 4 = 0 ∧ 20 ≤ hl ∧ hl ≤ 60 → hl ≤ n ∧ n ≤ 65535 →
      ((∀ (m : Mem) (buf : Nat) (d : List UInt8), WellFormed d → headerLen d = hl → d.length = n →
        (Passes h m buf ident d ↔ IsReply d (identifierBytes (sendEchoRequest h ident seq ts)))) ↔
      (ident < 65536 ∧ hl = 20 ∧ 28 ≤ n) ∨ (65536 ≤ ident ∧ n < hl + 8)) := by
  rw [identifierBytes_sendEchoRequest]
  refine ⟨fun m buf d _ => judged_iff (by omega), ?_⟩
  rintro hl n ⟨hmod, hge, hle⟩ hn
  constructor
  · intro hright
    by_cases hwhole : hl + 8 ≤ n
    · by_cases hkind : 65536 ≤ ident ∨ hl ≠ 20
      · obtain ⟨m, buf, d, hwf, hhead, hlen, hreply, hpass⟩ :=
          reply_misjudged h hident.1 hmod hge hle hn.2 hwhole hkind
        exact absurd ((hright m buf d hwf hhead hlen).2 hreply) hpass
      · omega
    · by_cases hbig : 65536 ≤ ident
      · omega
      · obtain ⟨m, buf, d, hwf, hhead, hlen, hreply, hpass⟩ :=
          cut_misjudged h ⟨hident.1, by omega⟩ hmod hge hle hn.1 (by omega)
        exact absurd ((hright m buf d hwf hhead hlen).1 hpass) hreply
  · rintro (⟨hsmall, rfl, hlong⟩ | ⟨hbig, hcut⟩) m buf d hwf hhead hlen
    · exact (judged_iff (by omega)).2 (.plain hsmall hhead (by omega))
    · refine (judged_iff (by omega)).2 (.large hbig fun hbehind => ?_)
      have := hbehind.1
      omega

/-- Process 70000 is right not to see its own request. -/
theorem filter_exact_request :
    Passes .little (fun _ => 0) 0 70000 (datagram 20 [8, 0, 0, 0, 17, 112, 0, 1]) ↔
      IsReply (datagram 20 [8, 0, 0, 0, 17, 112, 0, 1]) (identifierBytes
        (sendEchoRequest .little 70000 1 ⟨List.replicate 8 0, rfl⟩)) := by
  refine ((filter_exact .little 70000 (by decide) 1 ⟨List.replicate 8 0, rfl⟩).1 _ _ _ ?_).2 ?_
  · exact wellFormed_datagram (by decide) (by decide) (by decide) (by decide) (by decide)
  · exact .large (by decide) fun hbehind => absurd hbehind.2.1 (by decide)

/-- Process 70000 does not see its own replies. -/
theorem filter_misses_reply :
    WellFormed (datagram 20 [0, 0, 0, 0, 17, 112, 0, 1]) ∧
      ¬ (Passes .little (fun _ => 0) 0 70000 (datagram 20 [0, 0, 0, 0, 17, 112, 0, 1]) ↔
        IsReply (datagram 20 [0, 0, 0, 0, 17, 112, 0, 1]) (identifierBytes
          (sendEchoRequest .little 70000 1 ⟨List.replicate 8 0, rfl⟩))) := by
  refine ⟨wellFormed_datagram (by decide) (by decide) (by decide) (by decide) (by decide), ?_⟩
  intro hiff
  refine absurd (hiff.2 ⟨?_, rfl, rfl, ?_⟩) (not_passes (by decide))
  · decide
  · rw [identifierBytes_sendEchoRequest]
    rfl

end CPrograms.Ping
