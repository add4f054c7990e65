import CPrograms.Mytbf.Table
import Mathlib.Data.List.Nodup

/-!
# The slots of the job table

The live buckets are those of the taken slots in another order (`Table.live_perm`).  So at most
`MYTBF_MAX` buckets are live, `mytbf_init` finds no slot exactly where that many are, and a
`mytbf_destroy` gives back the slot that it empties (`slots_conserved`).
-/

namespace CPrograms.Mytbf

open Runs

/-- The buckets that are not freed. -/
def live (s : Sys) : List Nat := (List.range s.brk).filter fun p => (s.heap p).isSome

/-- The buckets in the table, slot by slot. -/
def taken (job : Nat → Option Nat) : List Nat := (List.range mytbfMax).filterMap job

section
variable {s t : Sys} {p : Nat} {b : Tbf}

theorem Table.mem_live (h : Table s) : p ∈ live s ↔ ∃ b, s.heap p = some b := by
  rw [live, List.mem_filter, List.mem_range, Option.isSome_iff_exists]
  refine ⟨fun hp => hp.2, ?_⟩
  rintro ⟨b, hb⟩
  exact ⟨h.fresh p b hb, b, hb⟩

theorem nodup_live (s : Sys) : (live s).Nodup := List.nodup_range.filter _

theorem Table.mem_taken (h : Table s) : p ∈ taken s.job ↔ ∃ b, s.heap p = some b := by
  rw [taken, List.mem_filterMap]
  constructor
  · rintro ⟨i, -, hi⟩
    obtain ⟨b, hb, -⟩ := h.slot i p hi
    exact ⟨b, hb⟩
  · rintro ⟨b, hb⟩
    obtain ⟨hpos, hjob⟩ := h.bucket p b hb
    exact ⟨b.pos, List.mem_range.2 hpos, hjob⟩

theorem Table.nodup_taken (h : Table s) : (taken s.job).Nodup :=
  List.Nodup.filterMap (fun _ _ _ hi hj => h.inj hi hj) List.nodup_range

theorem Table.live_perm (h : Table s) : (live s).Perm (taken s.job) :=
  (List.perm_ext_iff_of_nodup (nodup_live s) h.nodup_taken).2 fun _ => h.mem_live.trans h.mem_taken.symm

theorem taken_length_le (job : Nat → Option Nat) : (taken job).length ≤ mytbfMax := by
  have hle := List.length_filterMap_le job (List.range mytbfMax)
  rw [List.length_range] at hle
  exact hle

theorem getFreePos_eq_none (job : Nat → Option Nat) :
    getFreePos job = none ↔ (taken job).length = mytbfMax := by
  have hlen : (taken job).length = (List.range mytbfMax).length ↔
      ∀ i ∈ List.range mytbfMax, (job i).isSome := List.filterMap_length_eq_length
  rw [List.length_range] at hlen
  rw [hlen, getFreePos, List.find?_eq_none]
  refine forall₂_congr fun i _ => ?_
  cases job i <;> simp

/-- From a free slot on, the first one is there or below. -/
theorem getFreePos_le {job : Nat → Option Nat} {i : Nat} (hi : i < mytbfMax) (hfree : job i = none) :
    ∃ pos ≤ i, getFreePos job = some pos ∧ ((∀ j < i, job j ≠ none) → pos = i) := by
  cases hpos : getFreePos job with
  | none =>
    have := List.find?_range_eq_none.1 hpos i hi
    simp [hfree] at this
  | some pos =>
    obtain ⟨-, hnone, hbelow⟩ := getFreePos_eq_some.1 hpos
    have hle : pos ≤ i := Nat.le_of_not_lt fun hlt => hbelow i hlt hfree
    refine ⟨pos, hle, rfl, fun htaken => ?_⟩
    exact Nat.le_antisymm hle (Nat.le_of_not_lt fun hlt => htaken pos hlt hnone)

/-! ## The calls -/

/-- The table in its order, after any run. -/
structure Linked (s : Sys) : Prop where
  slot : ∀ i p, s.job i = some p → i < mytbfMax ∧ ∃ b, s.heap p = some b ∧ b.pos = i
  bucket : ∀ p b, s.heap p = some b → ∀ i, s.job i = some p ↔ i = b.pos
  mem_live : ∀ p, p ∈ live s ↔ ∃ b, s.heap p = some b
  few : (live s).length ≤ mytbfMax

/-- What `mytbf_destroy` of the bucket `b` at `p` makes of `s`. -/
structure Emptied (s : Sys) (p : Nat) (b : Tbf) (t : Sys) : Prop where
  freed : t.heap p = none
  others : ∀ q, q ≠ p → t.heap q = s.heap q
  slot : ∀ i, t.job i = if i = b.pos then none else s.job i
  /-- The next `mytbf_init` gets a slot, the one that `b` had if none below is free. -/
  reuse : ∃ pos ≤ b.pos, (∀ cps burst, mytbfInit cps burst true t = (some t.brk, place cps burst pos t)) ∧
    ((∀ i < b.pos, s.job i ≠ none) → pos = b.pos)

theorem Table.linked (h : Table s) : Linked s := by
  constructor
  · intro i p hi
    obtain ⟨b, hb, rfl⟩ := h.slot i p hi
    exact ⟨(h.bucket p b hb).1, b, hb, rfl⟩
  · intro p b hb i
    obtain ⟨-, hjob⟩ := h.bucket p b hb
    constructor
    · intro hi
      exact h.inj hi hjob
    · rintro rfl
      exact hjob
  · intro p
    exact h.mem_live
  · rw [h.live_perm.length_eq]
    exact taken_length_le s.job

theorem Table.init_null (h : Table s) (cps burst : Int) :
    (mytbfInit cps burst true s).1 = none ↔ (live s).length = mytbfMax := by
  rw [h.live_perm.length_eq, ← getFreePos_eq_none]
  cases hpos : getFreePos s.job with
  | none =>
    unfold mytbfInit
    rw [hpos]
  | some pos =>
    rw [mytbfInit_of hpos]
    simp

theorem init_null_eq {cps burst : Int} {mem : Bool} (h : (mytbfInit cps burst mem s).1 = none) :
    (mytbfInit cps burst mem s).2 = s := by
  rcases mytbfInit_cases cps burst mem s with h1 | ⟨pos, -, -, h1⟩
  · rw [h1]
  · rw [h1] at h
    cases h

theorem Table.emptied (h : Table s) (hb : s.heap p = some b) : Emptied s p b (mytbfDestroy p b s) := by
  have hslot : ∀ i, (mytbfDestroy p b s).job i = if i = b.pos then none else s.job i := fun i =>
    Function.update_apply ..
  obtain ⟨hpos, -⟩ := h.bucket p b hb
  obtain ⟨pos, hle, hget, heq⟩ := getFreePos_le hpos ((hslot b.pos).trans (if_pos rfl))
  refine ⟨Function.update_self .., fun q hq => Function.update_of_ne hq .., hslot, pos, hle,
    mytbfInit_of hget, fun htaken => heq fun i hi => ?_⟩
  rw [hslot, if_neg (Nat.ne_of_lt hi)]
  exact htaken i hi

/-- **The job table.**  After every run. -/
theorem slots_conserved {es : List Label} (h : Run Step start es s) :
    Linked s ∧
    (∀ cps burst, ((mytbfInit cps burst true s).1 = none ↔ (live s).length = mytbfMax) ∧
      ((mytbfInit cps burst true s).1 = none → (mytbfInit cps burst true s).2 = s)) ∧
    ∀ p b, s.heap p = some b → Emptied s p b (mytbfDestroy p b s) := by
  have ht := run_table h
  refine ⟨ht.linked, fun cps burst => ⟨ht.init_null cps burst, fun hnull => init_null_eq hnull⟩,
    fun p b hb => ht.emptied hb⟩

end

/-- Two buckets, and the first one destroyed: its slot is free again. -/
theorem slots_conserved_two : ∃ s, (s.heap 0).isNone ∧ s.heap 1 = some ⟨3, 6, 3, 1⟩ ∧ Linked s ∧
    (∃ p, (mytbfInit 1 2 true s).1 = some p) ∧ Emptied s 1 ⟨3, 6, 3, 1⟩ (mytbfDestroy 1 ⟨3, 6, 3, 1⟩ s) := by
  obtain ⟨s, hrun, hv⟩ := run_of_exec_map stepL start
    [(.init 2 5 true, .ptr (some 0)), (.init 3 6 true, .ptr (some 1)), (.alarm true, .none),
      (.destroy 0, .int 0)]
    (fun s => ((s.heap 0).isNone, s.heap 1, (live s).length)) (a := (true, some ⟨3, 6, 3, 1⟩, 1))
    (by decide +kernel)
  simp only [Prod.mk.injEq] at hv
  obtain ⟨h0, h1, hlen⟩ := hv
  obtain ⟨hlinked, hinit, hdestroy⟩ := slots_conserved hrun
  refine ⟨s, h0, h1, hlinked, ?_, hdestroy 1 _ h1⟩
  apply Option.ne_none_iff_exists'.1
  rw [Ne, (hinit 1 2).1, hlen]
  decide

end CPrograms.Mytbf
