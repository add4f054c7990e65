import Mathlib.Algebra.Group.Nat.Defs
import Mathlib.Data.List.Basic

/-!
# Byte order

How a machine keeps numbers of 16 and 32 bits in memory, and the conversions to network
order.  What is stored of `htons v` is big-endian on either machine (`bytes16_htons`), and
what is loaded and converted back is read so (`ntohs_word16`).
-/

namespace Endian

inductive Host
  | little
  | big
deriving DecidableEq

namespace Host

/-- Two bytes loaded as a number. -/
def word16 : Host → UInt8 → UInt8 → Nat
  | little, a, b => a.toNat + 256 * b.toNat
  | big, a, b => 256 * a.toNat + b.toNat

/-- The bytes that a number of 16 bits is stored as. -/
def bytes16 : Host → Nat → List UInt8
  | little, v => [v.toUInt8, (v / 256).toUInt8]
  | big, v => [(v / 256).toUInt8, v.toUInt8]

def bytes32 : Host → Nat → List UInt8
  | little, v => little.bytes16 v ++ little.bytes16 (v / 65536)
  | big, v => big.bytes16 (v / 65536) ++ big.bytes16 v

def htons : Host → Nat → Nat
  | little, v => v % 256 * 256 + v / 256 % 256
  | big, v => v % 65536

def ntohs (h : Host) (v : Nat) : Nat := h.htons v

def htonl : Host → Nat → Nat
  | little, v => little.htons v * 65536 + little.htons (v / 65536)
  | big, v => v % 2 ^ 32

theorem length_bytes16 (h : Host) (v : Nat) : (h.bytes16 v).length = 2 := by
  cases h with
  | little => rfl
  | big => rfl

theorem length_bytes32 (h : Host) (v : Nat) : (h.bytes32 v).length = 4 := by
  cases h with
  | little => rfl
  | big => rfl

theorem word16_le (h : Host) (a b : UInt8) : h.word16 a b ≤ 65535 := by
  have ha := a.toNat_lt
  have hb := b.toNat_lt
  cases h with
  | little => simp only [word16]; omega
  | big => simp only [word16]; omega

theorem toUInt8_congr {v w : Nat} (h : v % 256 = w % 256) : v.toUInt8 = w.toUInt8 := by
  apply UInt8.toNat.inj
  rw [UInt8.toNat_ofNat', UInt8.toNat_ofNat']
  exact h

theorem bytes16_htons (h : Host) (v : Nat) : h.bytes16 (h.htons v) = big.bytes16 v := by
  cases h with
  | little =>
    show [(v % 256 * 256 + v / 256 % 256).toUInt8, ((v % 256 * 256 + v / 256 % 256) / 256).toUInt8] =
      [(v / 256).toUInt8, v.toUInt8]
    have hdiv : (v % 256 * 256 + v / 256 % 256) / 256 = v % 256 := by
      have hlt : v / 256 % 256 < 256 := Nat.mod_lt _ (by decide)
      omega
    rw [hdiv, toUInt8_congr (by omega : (v % 256 * 256 + v / 256 % 256) % 256 = v / 256 % 256),
      toUInt8_congr (Nat.mod_mod v 256)]
  | big =>
    show [(v % 65536 / 256).toUInt8, (v % 65536).toUInt8] = [(v / 256).toUInt8, v.toUInt8]
    rw [toUInt8_congr (by omega : v % 65536 / 256 % 256 = v / 256 % 256),
      toUInt8_congr (by omega : v % 65536 % 256 = v % 256)]

theorem ntohs_word16 (h : Host) (a b : UInt8) : h.ntohs (h.word16 a b) = big.word16 a b := by
  have ha := a.toNat_lt
  have hb := b.toNat_lt
  cases h with
  | little => simp only [ntohs, htons, word16]; omega
  | big => simp only [ntohs, htons, word16]; omega

end Host

/-- A stored number is loaded again. -/
theorem bytes16_eq (h : Host) (v : Nat) :
    ∃ a b, h.bytes16 v = [a, b] ∧ h.word16 a b = v % 65536 := by
  cases h with
  | little =>
    refine ⟨_, _, rfl, ?_⟩
    simp only [Host.word16, UInt8.toNat_ofNat']
    omega
  | big =>
    refine ⟨_, _, rfl, ?_⟩
    simp only [Host.word16, UInt8.toNat_ofNat']
    omega

theorem word16_inj (h : Host) {a b a' b' : UInt8} (he : h.word16 a b = h.word16 a' b') :
    a = a' ∧ b = b' := by
  have ha := a.toNat_lt
  have hb := b.toNat_lt
  have ha' := a'.toNat_lt
  have hb' := b'.toNat_lt
  have hnat : a.toNat = a'.toNat ∧ b.toNat = b'.toNat := by
    cases h with
    | little => simp only [Host.word16] at he; omega
    | big => simp only [Host.word16] at he; omega
  exact ⟨UInt8.toNat.inj hnat.1, UInt8.toNat.inj hnat.2⟩

theorem bytes16_eq_iff (h : Host) {a b : UInt8} {v : Nat} (hv : v < 65536) :
    [a, b] = h.bytes16 v ↔ h.word16 a b = v := by
  obtain ⟨a', b', hbytes, hword⟩ := bytes16_eq h v
  rw [Nat.mod_eq_of_lt hv] at hword
  rw [hbytes, ← hword]
  constructor
  · intro he
    obtain ⟨ha, he⟩ := List.cons.inj he
    rw [ha, (List.cons.inj he).1]
  · intro he
    obtain ⟨rfl, rfl⟩ := word16_inj h he
    rfl

end Endian
