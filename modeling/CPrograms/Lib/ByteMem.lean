import Mathlib.Tactic.Ring
import Mathlib.Data.Nat.Log

/-!
# Byte-addressed memory

A memory is a byte for every address.  `loadLE m a n` reads the `n` bytes at `a` as a
little-endian number, `storeLE m a n v` writes the low `n` bytes of `v` there.

* `loadLE_storeLE`: reading back what was stored gives `v % 256 ^ n`.
* `loadLE_congr`: a load only depends on the bytes it covers; with
  `storeLE_of_outside` this is the frame rule for disjoint accesses.
* `loadBytes` and `storeBytes` are the same for strings of bytes, as `memcpy` moves them.
-/

namespace ByteMem

abbrev Mem := Nat → UInt8

def loadLE (m : Mem) (a : Nat) : Nat → Nat
  | 0 => 0
  | n + 1 => (m a).toNat + 256 * loadLE m (a + 1) n

def storeLE (m : Mem) (a n v : Nat) : Mem := fun x =>
  if a ≤ x ∧ x < a + n then (v / 256 ^ (x - a)).toUInt8 else m x

theorem storeLE_of_outside {m : Mem} {a n v x : Nat} (h : x < a ∨ a + n ≤ x) :
    storeLE m a n v x = m x := by
  unfold storeLE
  rw [if_neg (by omega)]

theorem loadLE_congr {m m' : Mem} {a n : Nat} (h : ∀ x, a ≤ x → x < a + n → m x = m' x) :
    loadLE m a n = loadLE m' a n := by
  induction n generalizing a with
  | zero => rfl
  | succ n ih =>
    simp only [loadLE]
    rw [h a (by omega) (by omega), ih (fun x h1 h2 => h x (by omega) (by omega))]

theorem loadLE_lt (m : Mem) (a n : Nat) : loadLE m a n < 256 ^ n := by
  induction n generalizing a with
  | zero => simp [loadLE]
  | succ n ih =>
    simp only [loadLE]
    have h1 := ih (a + 1)
    have h2 := (m a).toNat_lt
    rw [Nat.pow_succ]
    omega

/-- The bytes at `a` are the base-256 digits of `v`. -/
theorem loadLE_digits {m : Mem} {a n v : Nat}
    (h : ∀ i, i < n → m (a + i) = (v / 256 ^ i).toUInt8) : loadLE m a n = v % 256 ^ n := by
  induction n generalizing a v with
  | zero => simp [loadLE, Nat.mod_one]
  | succ n ih =>
    simp only [loadLE]
    have h0 : (m a).toNat = v % 256 := by
      have := h 0 (by omega)
      simp only [Nat.add_zero, Nat.pow_zero, Nat.div_one] at this
      rw [this]; simp
    have hrest : loadLE m (a + 1) n = v / 256 % 256 ^ n := by
      apply ih
      intro i hi
      rw [show a + 1 + i = a + (i + 1) by omega, h (i + 1) (by omega), Nat.pow_succ',
        Nat.div_div_eq_div_mul]
    rw [h0, hrest, Nat.pow_succ', Nat.mod_mul]

theorem loadLE_storeLE (m : Mem) (a n v : Nat) : loadLE (storeLE m a n v) a n = v % 256 ^ n := by
  apply loadLE_digits
  intro i hi
  unfold storeLE
  rw [if_pos (by omega), Nat.add_sub_cancel_left]

theorem loadLE_storeLE_disjoint {m : Mem} {a n v b k : Nat} (h : b + k ≤ a ∨ a + n ≤ b) :
    loadLE (storeLE m a n v) b k = loadLE m b k :=
  loadLE_congr fun _ h1 h2 => storeLE_of_outside (by omega)

/-! ## Strings of bytes -/

def loadBytes (m : Mem) (a n : Nat) : List UInt8 := (List.range n).map fun i => m (a + i)

def storeBytes (m : Mem) (a : Nat) (l : List UInt8) : Mem := fun x =>
  if a ≤ x then l[x - a]?.getD (m x) else m x

theorem storeBytes_of_outside {m : Mem} {a x : Nat} {l : List UInt8} (h : x < a ∨ a + l.length ≤ x) :
    storeBytes m a l x = m x := by
  unfold storeBytes
  split
  · rw [List.getElem?_eq_none (by omega)]
    rfl
  · rfl

theorem loadBytes_congr {m m' : Mem} {a n : Nat} (h : ∀ x, a ≤ x → x < a + n → m x = m' x) :
    loadBytes m a n = loadBytes m' a n := by
  unfold loadBytes
  refine List.map_congr_left fun i hi => h _ (Nat.le_add_right _ _) ?_
  have := List.mem_range.1 hi
  omega

theorem loadBytes_storeBytes (m : Mem) (a : Nat) (l : List UInt8) :
    loadBytes (storeBytes m a l) a l.length = l := by
  refine List.ext_getElem (by simp [loadBytes]) fun i h1 h2 => ?_
  simp only [loadBytes, List.getElem_map, List.getElem_range, storeBytes, Nat.le_add_right, if_true,
    Nat.add_sub_cancel_left, List.getElem?_eq_getElem h2, Option.getD_some]

end ByteMem
