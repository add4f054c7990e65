import Mathlib.Data.List.Basic

/-!
# Buffers

Arrays of a fixed number of bytes.  A `load` or a `store` at an index outside of the array is a
fault, and so is a string that does not end in it (`cString`).  `overwrite` puts bytes at the
front: filling an array byte by byte overwrites it with longer and longer prefixes
(`store_overwrite`).
-/

namespace Buffers

structure Buffer (n : Nat) where
  bytes : List UInt8
  length_eq : bytes.length = n

variable {n : Nat}

theorem Buffer.ext {b b' : Buffer n} (h : b.bytes = b'.bytes) : b = b' := by
  obtain ⟨bytes, hlen⟩ := b
  obtain ⟨bytes', hlen'⟩ := b'
  cases h
  rfl

def zeros : Buffer n := ⟨List.replicate n 0, List.length_replicate⟩

def Buffer.load (b : Buffer n) (i : Int) : Option UInt8 :=
  if 0 ≤ i then b.bytes[i.toNat]? else none

def Buffer.store (b : Buffer n) (i : Int) (c : UInt8) : Option (Buffer n) :=
  if 0 ≤ i ∧ i < n then some ⟨b.bytes.set i.toNat c, by rw [List.length_set, b.length_eq]⟩ else none

/-- The string at the start, up to its NUL. -/
def Buffer.cString (b : Buffer n) : Option (List UInt8) :=
  if 0 ∈ b.bytes then some (b.bytes.takeWhile (· ≠ 0)) else none

/-- The string at `i`, up to its NUL. -/
def Buffer.cStringAt (b : Buffer n) (i : Nat) : Option (List UInt8) :=
  if 0 ∈ b.bytes.drop i then some ((b.bytes.drop i).takeWhile (· ≠ 0)) else none

/-- What fits of `bytes`, in the first places. -/
def Buffer.overwrite (b : Buffer n) (bytes : List UInt8) : Buffer n :=
  ⟨(bytes ++ b.bytes.drop bytes.length).take n, by
    rw [List.length_take, List.length_append, List.length_drop, b.length_eq]
    omega⟩

section

variable {b : Buffer n} {bytes : List UInt8}

theorem bytes_overwrite (h : bytes.length ≤ n) :
    (b.overwrite bytes).bytes = bytes ++ b.bytes.drop bytes.length := by
  refine List.take_of_length_le ?_
  rw [List.length_append, List.length_drop, b.length_eq]
  omega

/-- A string, with its NUL. -/
theorem bytes_overwrite_string (h : bytes.length < n) :
    (b.overwrite (bytes ++ [0])).bytes = bytes ++ 0 :: b.bytes.drop (bytes ++ [0]).length := by
  have hlen : (bytes ++ [0]).length = bytes.length + 1 := List.length_append
  rw [bytes_overwrite (by omega), List.append_assoc]
  rfl

theorem overwrite_nil : b.overwrite [] = b :=
  Buffer.ext (bytes_overwrite (Nat.zero_le n))

/-- Of what was there before, what goes beyond the new bytes stays. -/
theorem overwrite_overwrite {bytes' : List UInt8} (h : bytes.length ≤ n) (h' : bytes'.length ≤ n) :
    (b.overwrite bytes).overwrite bytes' = b.overwrite (bytes' ++ bytes.drop bytes'.length) := by
  have hlen : (bytes' ++ bytes.drop bytes'.length).length = max bytes'.length bytes.length := by
    rw [List.length_append, List.length_drop]
    omega
  refine Buffer.ext ?_
  rw [bytes_overwrite h', bytes_overwrite h, bytes_overwrite (by omega), hlen, List.drop_append,
    List.drop_drop, List.append_assoc]
  congr 4
  omega

theorem load_natCast (i : Nat) : b.load i = b.bytes[i]? := by
  unfold Buffer.load
  rw [if_pos (Int.natCast_nonneg i), Int.toNat_natCast]

theorem load_of_bytes {pre rest : List UInt8} {c : UInt8} {i : Int} (hb : b.bytes = pre ++ c :: rest)
    (hi : i = pre.length) : b.load i = some c := by
  rw [hi, load_natCast, hb, List.getElem?_append_right (Nat.le_refl _), Nat.sub_self]
  rfl

theorem store_of_bytes {pre rest : List UInt8} {c d : UInt8} {i : Int} (hb : b.bytes = pre ++ c :: rest)
    (hi : i = pre.length) : ∃ b', b.store i d = some b' ∧ b'.bytes = pre ++ d :: rest := by
  have hlen := b.length_eq
  rw [hb, List.length_append, List.length_cons] at hlen
  subst hi
  unfold Buffer.store
  rw [if_pos (by omega)]
  refine ⟨_, rfl, ?_⟩
  show b.bytes.set pre.length d = _
  rw [hb, List.set_append_right _ _ (Nat.le_refl _), Nat.sub_self]
  rfl

theorem load_lt {i : Nat} {c : UInt8} (h : b.load i = some c) : i < n := by
  rw [load_natCast] at h
  have := (List.getElem?_eq_some_iff.1 h).1
  rwa [b.length_eq] at this

theorem load_overwrite_of_le {i : Nat} (h : bytes.length ≤ n) (hi : bytes.length ≤ i) :
    (b.overwrite bytes).load i = b.load i := by
  rw [load_natCast, load_natCast, bytes_overwrite h, List.getElem?_append_right hi, List.getElem?_drop,
    Nat.add_sub_cancel' hi]

/-- The next byte of a prefix. -/
theorem store_overwrite {i : Int} {c : UInt8} (hi : i = bytes.length) (h : bytes.length < n) :
    (b.overwrite bytes).store i c = some (b.overwrite (bytes ++ [c])) := by
  have hlen : (bytes ++ [c]).length = bytes.length + 1 := List.length_append
  have hdrop : b.bytes.drop bytes.length ≠ [] := by
    rw [Ne, List.drop_eq_nil_iff, b.length_eq]
    omega
  subst hi
  unfold Buffer.store
  rw [if_pos (by omega), Option.some.injEq]
  refine Buffer.ext ?_
  show (b.overwrite bytes).bytes.set bytes.length c = _
  rw [bytes_overwrite (Nat.le_of_lt h), bytes_overwrite (by omega), hlen, ← List.tail_drop,
    List.set_append_right _ _ (Nat.le_refl _), Nat.sub_self, List.append_assoc]
  obtain ⟨d, rest, hrest⟩ := List.exists_cons_of_ne_nil hdrop
  rw [hrest]
  rfl

end

/-! ## Strings -/

theorem takeWhile_ne_zero {s rest : List UInt8} (h : 0 ∉ s) : (s ++ 0 :: rest).takeWhile (· ≠ 0) = s := by
  rw [List.takeWhile_append_of_pos, List.takeWhile_cons_of_neg (by decide), List.append_nil]
  intro c hc
  exact decide_eq_true fun hz => h (hz ▸ hc)

theorem cString_of_bytes {b : Buffer n} {s rest : List UInt8} (hb : b.bytes = s ++ 0 :: rest) (h : 0 ∉ s) :
    b.cString = some s := by
  unfold Buffer.cString
  rw [if_pos (hb ▸ List.mem_append_right s List.mem_cons_self), hb, takeWhile_ne_zero h]

theorem cStringAt_of_bytes {b : Buffer n} {pre s rest : List UInt8} (hb : b.bytes = pre ++ (s ++ 0 :: rest))
    (h : 0 ∉ s) : b.cStringAt pre.length = some s := by
  unfold Buffer.cStringAt
  rw [hb, List.drop_left, if_pos (List.mem_append_right s List.mem_cons_self), takeWhile_ne_zero h]

theorem cString_overwrite {b : Buffer n} {s : List UInt8} (h : 0 ∉ s) (hs : s.length < n) :
    (b.overwrite (s ++ [0])).cString = some s :=
  cString_of_bytes (bytes_overwrite_string hs) h

theorem cString_zeros {s : List UInt8} (h : 0 ∉ s) (hs : s.length < n) :
    ((zeros : Buffer n).overwrite s).cString = some s := by
  refine @cString_of_bytes n _ s (List.replicate (n - s.length - 1) 0) ?_ h
  rw [bytes_overwrite (Nat.le_of_lt hs), ← List.replicate_succ]
  show s ++ (List.replicate n 0).drop s.length = _
  rw [List.drop_replicate, Nat.sub_add_cancel (by omega)]

/-- A buffer that is full has no room for the NUL. -/
theorem cString_full {b : Buffer n} {s : List UInt8} (h : 0 ∉ s) (hs : s.length = n) :
    (b.overwrite s).cString = none := by
  have hdrop : b.bytes.drop s.length = [] := List.drop_eq_nil_of_le (by rw [b.length_eq]; omega)
  unfold Buffer.cString
  rw [bytes_overwrite (Nat.le_of_eq hs), hdrop, List.append_nil, if_neg h]

theorem exists_of_mem_zero {bytes : List UInt8} (h : 0 ∈ bytes) :
    ∃ rest, bytes = bytes.takeWhile (· ≠ 0) ++ 0 :: rest ∧ 0 ∉ bytes.takeWhile (· ≠ 0) := by
  induction bytes with
  | nil => cases h
  | cons c bytes ih =>
    by_cases hc : c = 0
    · rw [hc, List.takeWhile_cons_of_neg (by decide)]
      exact ⟨bytes, rfl, List.not_mem_nil⟩
    · obtain ⟨rest, hrest, hzero⟩ := ih ((List.mem_cons.1 h).resolve_left (Ne.symm hc))
      rw [List.takeWhile_cons, if_pos (decide_eq_true hc)]
      refine ⟨rest, congrArg (c :: ·) hrest, ?_⟩
      rw [List.mem_cons, not_or]
      exact ⟨Ne.symm hc, hzero⟩

/-- A string has no NUL in it, and one after it. -/
theorem cString_eq_some {b : Buffer n} {s : List UInt8} (h : b.cString = some s) :
    0 ∉ s ∧ ∃ rest, b.bytes = s ++ 0 :: rest := by
  unfold Buffer.cString at h
  split at h
  · next hmem =>
    obtain ⟨rest, hrest, hzero⟩ := exists_of_mem_zero hmem
    rw [← Option.some.inj h]
    exact ⟨hzero, rest, hrest⟩
  · cases h

theorem length_cString {b : Buffer n} {s : List UInt8} (h : b.cString = some s) : s.length < n := by
  obtain ⟨-, rest, hrest⟩ := cString_eq_some h
  have hlen := b.length_eq
  rw [hrest, List.length_append, List.length_cons] at hlen
  omega

/-- Bytes that end where there was a NUL. -/
theorem cString_overwrite_iff {b : Buffer n} {s : List UInt8} (h : 0 ∉ s) (hs : s.length < n) :
    (b.overwrite s).cString = some s ↔ b.load s.length = some 0 := by
  have hlt : s.length < b.bytes.length := by rwa [b.length_eq]
  have hbytes := bytes_overwrite (b := b) (Nat.le_of_lt hs)
  rw [load_natCast, List.getElem?_eq_getElem hlt, Option.some.injEq]
  rw [List.drop_eq_getElem_cons hlt] at hbytes
  constructor
  · intro hstring
    obtain ⟨-, rest, hrest⟩ := cString_eq_some hstring
    exact (List.cons.inj (List.append_cancel_left (hbytes.symm.trans hrest))).1
  · intro hzero
    rw [hzero] at hbytes
    exact cString_of_bytes hbytes h

end Buffers
