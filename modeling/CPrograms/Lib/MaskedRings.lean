import Mathlib.Data.List.Basic
import Mathlib.Data.Nat.ModEq
import Mathlib.Logic.Function.Basic

/-!
# Rings with masks

A ring of slots whose number is a power of two, with counters of 32 bits that run freely: the
slot of a counter is what the mask leaves of it, and a ring is empty where its counters are equal.
`Holds slots mask head tail l` says that from `head` to `tail` the slots hold `l`.

* `slot_inj`: the slots of as many counters as there are entries are different, also where the
  counters wrap.
* `Holds.push`, `Holds.pop`: the operations at the ends.
* `Holds.empty_iff`, `Holds.distance`: what the counters say of the list.
-/

namespace MaskedRings

/-- One less than a power of two, of `2 ^ 31` at most. -/
def PowMask (mask : UInt32) : Prop := ∃ k ≤ 31, mask.toNat = 2 ^ k - 1

def entries (mask : UInt32) : Nat := mask.toNat + 1

/-- The counter `i` after `head`. -/
def nth (head : UInt32) (i : Nat) : UInt32 := head + UInt32.ofNat i

section

variable {mask head : UInt32}

theorem nth_zero : nth head 0 = head := UInt32.add_zero head

theorem nth_succ (i : Nat) : nth head (i + 1) = nth head i + 1 := by
  unfold nth
  rw [UInt32.ofNat_add, ← UInt32.add_assoc]
  rfl

theorem nth_add_one (i : Nat) : nth (head + 1) i = nth head (i + 1) := by
  unfold nth
  rw [UInt32.ofNat_add, UInt32.add_assoc, UInt32.add_comm 1]
  rfl

theorem toNat_nth (i : Nat) : (nth head i).toNat = (head.toNat + i) % 2 ^ 32 := by
  unfold nth
  rw [UInt32.toNat_add, UInt32.toNat_ofNat', Nat.add_mod_mod]

theorem toNat_nth_sub {i : Nat} (hi : i < 2 ^ 32) : (nth head i - head).toNat = i := by
  have hlt := head.toNat_lt
  rw [UInt32.toNat_sub, toNat_nth]
  omega

theorem nth_sub (tail : UInt32) : nth head (tail - head).toNat = tail := by
  have hhead := head.toNat_lt
  have htail := tail.toNat_lt
  rw [← UInt32.toNat_inj, toNat_nth, UInt32.toNat_sub]
  omega

theorem entries_le (hm : PowMask mask) : entries mask ≤ 2 ^ 31 := by
  obtain ⟨k, hk, hmask⟩ := hm
  have hpow := Nat.pow_le_pow_right (show 0 < 2 by decide) hk
  have hpos := Nat.two_pow_pos k
  unfold entries
  omega

/-- Slots are counters modulo the number of entries. -/
theorem toNat_slot (hm : PowMask mask) (i : Nat) :
    (nth head i &&& mask).toNat = (head.toNat + i) % entries mask := by
  obtain ⟨k, hk, hmask⟩ := hm
  have hpos := Nat.two_pow_pos k
  have hentries : entries mask = 2 ^ k := by
    unfold entries
    omega
  rw [UInt32.toNat_and, hmask, Nat.and_two_pow_sub_one_eq_mod, toNat_nth, hentries]
  exact Nat.mod_mod_of_dvd _ (Nat.pow_dvd_pow 2 (Nat.le_trans hk (by decide)))

theorem slot_inj (hm : PowMask mask) {i j : Nat} (hi : i < entries mask) (hj : j < entries mask)
    (h : nth head i &&& mask = nth head j &&& mask) : i = j := by
  have hmod := congrArg UInt32.toNat h
  rw [toNat_slot hm, toNat_slot hm] at hmod
  have hcancel : i ≡ j [MOD entries mask] := Nat.ModEq.add_left_cancel' head.toNat hmod
  exact Nat.ModEq.eq_of_lt_of_lt hcancel hi hj

end

/-! ## What a ring holds -/

section

variable {α : Type} {slots : UInt32 → α} {mask head tail : UInt32} {l : List α} {a : α}

structure Holds (slots : UInt32 → α) (mask head tail : UInt32) (l : List α) : Prop where
  tail_eq : tail = nth head l.length
  room : l.length ≤ entries mask
  entry : ∀ i a, l[i]? = some a → slots (nth head i &&& mask) = a

/-- The `n` slots from `head` on. -/
def contents (slots : UInt32 → α) (mask head : UInt32) (n : Nat) : List α :=
  (List.range n).map fun i => slots (nth head i &&& mask)

theorem Holds.distance (hm : PowMask mask) (h : Holds slots mask head tail l) :
    (tail - head).toNat = l.length := by
  have hentries := entries_le hm
  have hroom := h.room
  rw [h.tail_eq]
  exact toNat_nth_sub (by omega)

theorem Holds.empty_iff (hm : PowMask mask) (h : Holds slots mask head tail l) : head = tail ↔ l = [] := by
  constructor
  · intro he
    have hdistance := h.distance hm
    rw [he, UInt32.sub_self] at hdistance
    exact List.length_eq_zero_iff.1 hdistance.symm
  · rintro rfl
    exact (h.tail_eq.trans nth_zero).symm

theorem length_contents (slots : UInt32 → α) (mask head : UInt32) (n : Nat) :
    (contents slots mask head n).length = n := by
  unfold contents
  rw [List.length_map, List.length_range]

/-- Slots that are read in another way. -/
theorem Holds.contents_eq {slots' : UInt32 → α} (h : Holds slots mask head tail l)
    (heq : ∀ i < l.length, slots' (nth head i &&& mask) = slots (nth head i &&& mask)) :
    contents slots' mask head l.length = l := by
  refine List.ext_getElem? fun i => ?_
  unfold contents
  rw [List.getElem?_map]
  rcases Nat.lt_or_ge i l.length with hi | hi
  · rw [List.getElem?_range hi, Option.map_some, heq i hi, List.getElem?_eq_getElem hi]
    exact congrArg some (h.entry i l[i] (List.getElem?_eq_getElem hi))
  · rw [List.getElem?_eq_none (by rwa [List.length_range]), List.getElem?_eq_none hi]
    rfl

/-- Any counters that are not too far apart. -/
theorem holds_contents (h : (tail - head).toNat ≤ entries mask) :
    Holds slots mask head tail (contents slots mask head (tail - head).toNat) := by
  have hlen := length_contents slots mask head (tail - head).toNat
  refine ⟨by rw [hlen, nth_sub], by rw [hlen]; exact h, fun i a hi => ?_⟩
  unfold contents at hi
  rw [List.getElem?_map, Option.map_eq_some_iff] at hi
  obtain ⟨j, hj, rfl⟩ := hi
  obtain ⟨hlt, rfl⟩ := List.getElem?_eq_some_iff.1 hj
  rw [List.getElem_range]

section

variable (hm : PowMask mask)

include hm

/-- The slot at the tail is none of those that are held. -/
theorem Holds.slot_ne (h : Holds slots mask head tail l) (hroom : l.length < entries mask) {i : Nat}
    (hi : i < l.length) : nth head i &&& mask ≠ tail &&& mask := by
  intro he
  rw [h.tail_eq] at he
  exact Nat.ne_of_lt hi (slot_inj hm (Nat.lt_trans hi hroom) hroom he)

theorem Holds.push (h : Holds slots mask head tail l) (hroom : l.length < entries mask) (a : α) :
    Holds (Function.update slots (tail &&& mask) a) mask head (tail + 1) (l ++ [a]) := by
  have hlen : (l ++ [a]).length = l.length + 1 := List.length_append
  refine ⟨by rw [hlen, nth_succ, h.tail_eq], by rw [hlen]; exact hroom, fun i b hb => ?_⟩
  rcases Nat.lt_or_ge i l.length with hi | hi
  · rw [List.getElem?_append_left hi] at hb
    rw [Function.update_of_ne (h.slot_ne hm hroom hi)]
    exact h.entry i b hb
  · have hlt := (List.getElem?_eq_some_iff.1 hb).1
    obtain rfl : i = l.length := by omega
    rw [List.getElem?_concat_length] at hb
    rw [← h.tail_eq, Function.update_self]
    exact Option.some.inj hb

end

theorem Holds.head_eq (h : Holds slots mask head tail (a :: l)) : slots (head &&& mask) = a := by
  have hentry := h.entry 0 a rfl
  rwa [nth_zero] at hentry

theorem Holds.pop (h : Holds slots mask head tail (a :: l)) : Holds slots mask (head + 1) tail l := by
  have hroom := h.room
  rw [List.length_cons] at hroom
  refine ⟨by rw [nth_add_one, h.tail_eq, List.length_cons], by omega, fun i b hb => ?_⟩
  rw [nth_add_one]
  exact h.entry (i + 1) b hb

/-- What is behind the first ones. -/
theorem Holds.drop (l' : List α) : ∀ {head : UInt32}, Holds slots mask head tail (l' ++ l) →
    Holds slots mask (nth head l'.length) tail l := by
  induction l' with
  | nil =>
    intro head h
    rw [List.length_nil, nth_zero]
    exact h
  | cons a l' ih =>
    intro head h
    have hrest := ih h.pop
    rwa [nth_add_one] at hrest

end

end MaskedRings
