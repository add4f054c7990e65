import Mathlib.Data.List.Basic

/-!
# Pipes

A pipe of a capacity holds the bytes that were written to it and not read; what was read of it is
kept beside them.  So what was written (`Pipe.written`) is what was read and what is in it, of which
reading changes nothing.
-/

namespace Pipes

structure Pipe (K : Nat) where
  /-- what was read -/
  taken : List UInt8
  bytes : List UInt8
  bound : bytes.length ≤ K

variable {K : Nat} {p p' : Pipe K} {l : List UInt8}

def Pipe.empty : Pipe K := ⟨[], [], Nat.zero_le K⟩

def Pipe.written (p : Pipe K) : List UInt8 := p.taken ++ p.bytes

/-- A write of bytes that fit. -/
def Pipe.write (p : Pipe K) (l : List UInt8) : Option (Pipe K) :=
  if h : p.bytes.length + l.length ≤ K then some ⟨p.taken, p.bytes ++ l, by rwa [List.length_append]⟩ else none

/-- A read of `n` bytes, or of those that are there. -/
def Pipe.read (p : Pipe K) (n : Nat) : Pipe K :=
  ⟨p.taken ++ p.bytes.take n, p.bytes.drop n, Nat.le_trans (List.drop_sublist n _).length_le p.bound⟩

theorem taken_of_written (p : Pipe K) : p.taken <+: p.written := List.prefix_append _ _

theorem write_eq_none_iff : p.write l = none ↔ K < p.bytes.length + l.length := by
  unfold Pipe.write
  split
  · next h => exact iff_of_false (Option.some_ne_none _) (Nat.not_lt_of_le h)
  · next h => exact iff_of_true rfl (Nat.lt_of_not_le h)

theorem write_spec (h : p.write l = some p') :
    p'.taken = p.taken ∧ p'.bytes = p.bytes ++ l ∧ p'.written = p.written ++ l := by
  unfold Pipe.write at h
  split at h
  · rw [← Option.some.inj h]
    exact ⟨rfl, rfl, (List.append_assoc _ _ _).symm⟩
  · cases h

theorem exists_write (h : p.bytes.length + l.length ≤ K) :
    ∃ p', p.write l = some p' ∧ p'.taken = p.taken ∧ p'.bytes = p.bytes ++ l :=
  ⟨_, dif_pos h, rfl, rfl⟩

theorem written_read (p : Pipe K) (n : Nat) : (p.read n).written = p.written := by
  show (p.taken ++ p.bytes.take n) ++ p.bytes.drop n = _
  rw [List.append_assoc, List.take_append_drop]
  rfl

theorem read_one {c : UInt8} {rest : List UInt8} (h : p.bytes = c :: rest) :
    (p.read 1).taken = p.taken ++ [c] ∧ (p.read 1).bytes = rest := by
  constructor
  · show p.taken ++ p.bytes.take 1 = _
    rw [h]
    rfl
  · show p.bytes.drop 1 = _
    rw [h]
    rfl

end Pipes
