import Mathlib.Data.List.Nodup
import Mathlib.Data.List.Range

/-!
# `uring_test/io_uring-test.c`

The file is read in blocks, and the completions are compared with what was wanted: a block, or
what completes the size of the file.  The second is asked of the total at that time, so that a
shorter read has to be the last one that completes (`completions_exact`).  The calls of
liburing succeed; a read at an offset gives what the file has there.
-/

namespace CPrograms.UringTest

def qd : Nat := 4

/-- The offsets of the requests, where `io_uring_get_sqe` gives `free` more entries. -/
def submitLoop (stSize : Nat) : Nat → Nat → List Nat
  | 0, _ => []
  | free + 1, offset =>
    offset :: if offset + 4096 > stSize then [] else submitLoop stSize free (offset + 4096)

def submitted (stSize : Nat) : List Nat := submitLoop stSize qd 0

/-- What the read at `offset` gives. -/
def available (stSize offset : Nat) : Nat := min 4096 (stSize - offset)

structure Progress where
  done : Nat
  fsize : Nat
  flagged : Bool
deriving DecidableEq

/-- The loop over the completions, with what each of them gives. -/
def completionLoop (stSize : Nat) : List Nat → Nat → Nat → Progress
  | [], done, fsize => ⟨done, fsize, false⟩
  | res :: rest, done, fsize =>
    if res ≠ 4096 ∧ res + fsize ≠ stSize then ⟨done + 1, fsize + res, true⟩
    else completionLoop stSize rest (done + 1) (fsize + res)

/-- The requests complete in the order `order`. -/
def completions (stSize : Nat) (order : List Nat) : Progress :=
  completionLoop stSize (order.map (available stSize)) 0 0

/-- No error, nothing pending, and all that was covered. -/
structure Accepts (stSize : Nat) (order : List Nat) : Prop where
  unflagged : (completions stSize order).flagged = false
  all : (completions stSize order).done = (submitted stSize).length
  covered : (completions stSize order).fsize = min stSize (4096 * (submitted stSize).length)

/-! ## The requests -/

theorem submitLoop_eq {stSize : Nat} (free : Nat) : ∀ {k : Nat}, 4096 * k ≤ stSize →
    submitLoop stSize free (4096 * k) =
      (List.range' k (min free (stSize / 4096 + 1 - k))).map (4096 * ·) := by
  induction free with
  | zero =>
    intro k _
    rw [Nat.zero_min]
    rfl
  | succ free ih =>
    intro k hk
    obtain ⟨n, hn⟩ : ∃ n, stSize / 4096 + 1 - k = n + 1 := ⟨stSize / 4096 - k, by omega⟩
    rw [submitLoop, hn, Nat.add_min_add_right, List.range'_succ, List.map_cons]
    by_cases hend : 4096 * k + 4096 > stSize
    · have hn0 : n = 0 := by omega
      rw [if_pos hend, hn0, Nat.min_zero]
      rfl
    · have hnext : stSize / 4096 + 1 - (k + 1) = n := by omega
      have hoff : 4096 * k + 4096 = 4096 * (k + 1) := by omega
      rw [if_neg hend, hoff, ih (k := k + 1) (by omega), hnext]

/-- The number of requests. -/
def pending (stSize : Nat) : Nat := min qd (stSize / 4096 + 1)

theorem submitted_eq (stSize : Nat) :
    submitted stSize = (List.range (pending stSize)).map (4096 * ·) := by
  have h := @submitLoop_eq stSize qd 0 (Nat.zero_le _)
  rw [List.range_eq_range']
  exact h

theorem length_submitted (stSize : Nat) : (submitted stSize).length = pending stSize := by
  rw [submitted_eq, List.length_map, List.length_range]

/-! ## The completions -/

/-- Whole blocks are always accepted. -/
theorem completionLoop_blocks (stSize : Nat) (rest : List Nat) (n : Nat) : ∀ done fsize : Nat,
    completionLoop stSize (List.replicate n 4096 ++ rest) done fsize =
      completionLoop stSize rest (done + n) (fsize + 4096 * n) := by
  induction n with
  | zero => exact fun _ _ => rfl
  | succ n ih =>
    intro done fsize
    rw [List.replicate_succ, List.cons_append, completionLoop, if_neg (fun h => h.1 rfl), ih]
    congr 1
    · omega
    · omega

theorem available_block {stSize j : Nat} (h : 4096 * (j + 1) ≤ stSize) :
    available stSize (4096 * j) = 4096 := by
  unfold available
  omega

section

variable {stSize : Nat} {order : List Nat}

theorem mem_order (h : order.Perm (submitted stSize)) {offset : Nat} :
    offset ∈ order ↔ ∃ j, j < pending stSize ∧ 4096 * j = offset := by
  rw [h.mem_iff, submitted_eq, List.mem_map]
  simp only [List.mem_range]

theorem length_order (h : order.Perm (submitted stSize)) : order.length = pending stSize := by
  rw [h.length_eq, length_submitted]

theorem nodup_order (h : order.Perm (submitted stSize)) : order.Nodup := by
  rw [h.nodup_iff, submitted_eq]
  refine List.Nodup.map ?_ List.nodup_range
  intro a b hab
  dsimp only at hab
  omega

/-- Reads of whole blocks. -/
theorem map_available_blocks {offsets : List Nat}
    (h : ∀ offset ∈ offsets, ∃ j, 4096 * (j + 1) ≤ stSize ∧ 4096 * j = offset) :
    offsets.map (available stSize) = List.replicate offsets.length 4096 := by
  refine List.eq_replicate_iff.2 ⟨List.length_map _, ?_⟩
  intro res hres
  obtain ⟨offset, hmem, rfl⟩ := List.mem_map.1 hres
  obtain ⟨j, hj, rfl⟩ := h offset hmem
  exact available_block hj

/-- A file that the requests do not get to the end of. -/
theorem accepts_of_large (h : order.Perm (submitted stSize)) (hlarge : 16384 ≤ stSize) :
    Accepts stSize order := by
  have hpending : pending stSize = 4 := by
    unfold pending qd
    omega
  have hcompletions : completions stSize order = ⟨4, 16384, false⟩ := by
    have hmap := @map_available_blocks stSize order (by
      intro offset hmem
      obtain ⟨j, hj, rfl⟩ := (mem_order h).1 hmem
      exact ⟨j, by omega, rfl⟩)
    rw [length_order h, hpending] at hmap
    rw [completions, hmap]
    rfl
  constructor
  · rw [hcompletions]
  · rw [hcompletions, length_submitted, hpending]
  · rw [hcompletions, length_submitted, hpending]
    show 16384 = min stSize (4096 * 4)
    omega

/-- Around the read of the tail there are whole blocks only. -/
theorem order_split (h : order.Perm (submitted stSize)) (hsmall : stSize < 16384) :
    ∃ before after, order = before ++ 4096 * (stSize / 4096) :: after ∧
      before.length + after.length = stSize / 4096 ∧ 4096 * (stSize / 4096) ∉ after ∧
      ∀ offset, offset ∈ before ∨ offset ∈ after →
        ∃ j, 4096 * (j + 1) ≤ stSize ∧ 4096 * j = offset := by
  have hpending : pending stSize = stSize / 4096 + 1 := by
    unfold pending qd
    omega
  have hlast : 4096 * (stSize / 4096) ∈ order := (mem_order h).2 ⟨stSize / 4096, by omega, rfl⟩
  obtain ⟨before, after, hsplit⟩ := List.append_of_mem hlast
  have hlen := length_order h
  have hnodup := nodup_order h
  rw [hsplit] at hlen hnodup
  rw [List.length_append, List.length_cons] at hlen
  obtain ⟨-, hafter, hdisj⟩ := List.nodup_append.1 hnodup
  have hnot := (List.nodup_cons.1 hafter).1
  refine ⟨before, after, hsplit, by omega, hnot, ?_⟩
  intro offset hmem
  have horder : offset ∈ order := by
    rw [hsplit, List.mem_append, List.mem_cons]
    exact hmem.imp_right .inr
  obtain ⟨j, hj, rfl⟩ := (mem_order h).1 horder
  refine ⟨j, ?_, rfl⟩
  have hne : j ≠ stSize / 4096 := by
    rintro rfl
    rcases hmem with hbefore | hafter
    · exact hdisj _ hbefore _ List.mem_cons_self rfl
    · exact hnot hafter
  omega

/-- The tail, between whole blocks. -/
theorem completionLoop_tail {before after : Nat} (hsum : before + after = stSize / 4096) :
    completionLoop stSize
        (List.replicate before 4096 ++ available stSize (4096 * (stSize / 4096)) ::
          List.replicate after 4096) 0 0 =
      if after = 0 then ⟨stSize / 4096 + 1, stSize, false⟩
      else ⟨before + 1, 4096 * before + stSize % 4096, true⟩ := by
  have htail : available stSize (4096 * (stSize / 4096)) = stSize % 4096 := by
    unfold available
    omega
  rw [completionLoop_blocks, htail, completionLoop]
  by_cases hafter : after = 0
  · rw [if_neg (by omega), if_pos hafter, hafter]
    show completionLoop stSize [] _ _ = _
    rw [completionLoop]
    congr 1
    · omega
    · omega
  · rw [if_pos (by omega), if_neg hafter]
    congr 1
    · omega
    · omega

end

/-- **The orders that are accepted.** -/
theorem completions_exact (stSize : Nat) (order : List Nat) (h : order.Perm (submitted stSize)) :
    Accepts stSize order ↔
      16384 ≤ stSize ∨ order.getLast? = some (4096 * (stSize / 4096)) := by
  by_cases hlarge : 16384 ≤ stSize
  · exact iff_of_true (accepts_of_large h hlarge) (.inl hlarge)
  · obtain ⟨before, after, rfl, hsum, hnot, hblocks⟩ := order_split h (by omega)
    have hcompletions : completions stSize (before ++ 4096 * (stSize / 4096) :: after) =
        if after.length = 0 then ⟨stSize / 4096 + 1, stSize, false⟩
        else ⟨before.length + 1, 4096 * before.length + stSize % 4096, true⟩ := by
      rw [completions, List.map_append, List.map_cons,
        map_available_blocks fun offset hmem => hblocks offset (.inl hmem),
        map_available_blocks fun offset hmem => hblocks offset (.inr hmem)]
      exact completionLoop_tail hsum
    have hpending : pending stSize = stSize / 4096 + 1 := by
      unfold pending qd
      omega
    rw [or_iff_right hlarge]
    rcases after with _ | ⟨offset, after⟩
    · -- the tail is the last one
      rw [List.length_nil, if_pos rfl] at hcompletions
      refine iff_of_true ?_ List.getLast?_concat
      constructor
      · rw [hcompletions]
      · rw [hcompletions, length_submitted, hpending]
      · rw [hcompletions, length_submitted, hpending]
        dsimp only
        omega
    · rw [if_neg (by simp)] at hcompletions
      refine iff_of_false ?_ ?_
      · intro haccepts
        have := haccepts.unflagged
        rw [hcompletions] at this
        exact absurd this (show true ≠ false by decide)
      · intro hlast
        rw [List.getLast?_append_of_ne_nil _ (List.cons_ne_nil _ _), List.getLast?_cons_cons] at hlast
        exact hnot (List.mem_of_getLast? hlast)

/-- A file of 5000 bytes, read in order. -/
theorem completions_exact_inOrder : Accepts 5000 [0, 4096] :=
  (completions_exact 5000 [0, 4096] (by decide)).2 (.inr rfl)

/-- Its tail comes first. -/
theorem tail_first_flagged : ¬ ([4096, 0].Perm (submitted 5000) → Accepts 5000 [4096, 0]) := by
  intro h
  exact absurd (h (by decide)).unflagged (by decide)

end CPrograms.UringTest
