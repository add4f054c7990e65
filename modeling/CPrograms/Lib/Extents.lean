import Mathlib.Data.List.Pairwise
import Mathlib.Data.List.Perm.Basic
import Mathlib.Algebra.BigOperators.Group.List.Basic
import Mathlib.Algebra.GroupWithZero.Nat

/-!
# Extents

Half-open ranges `[lo, hi)` of addresses, and lists of them that stand for a set of
addresses.  `Gapped l` is the coalesced form: the extents are in increasing order and
between any two of them at least one address is missing.  `glue e l` puts `e` in front of
`l` and joins it with the first extent where the two touch; so giving an extent back
between `u` and `v` is `u ++ glue p (glue e v)`, which stays gapped (`gapped_release`),
covers what was covered and `e` (`covered_release`) and adds the length of `e`
(`total_release`).

A gapped list of nonempty extents is a function of the set it covers: its extents are the
maximal runs of covered addresses (`mem_iff_maximalRun`, `eq_of_covered`).
-/

namespace Extents

structure Extent where
  lo : Nat
  hi : Nat
deriving DecidableEq

namespace Extent

/-- The address `x` lies in the extent. -/
def Has (e : Extent) (x : Nat) : Prop := e.lo ≤ x ∧ x < e.hi

def len (e : Extent) : Nat := e.hi - e.lo

/-- No address lies in both. -/
def Apart (d e : Extent) : Prop := d.hi ≤ e.lo ∨ e.hi ≤ d.lo

theorem Apart.symm {d e : Extent} (h : Apart d e) : Apart e d := Or.symm h

end Extent

/-- Increasing, with a gap between any two. -/
def Gapped (l : List Extent) : Prop := l.Pairwise fun d e => d.hi < e.lo

def covered (l : List Extent) (x : Nat) : Prop := ∃ e ∈ l, e.Has x

def total (l : List Extent) : Nat := (l.map Extent.len).sum

/-- `e` before `l`, joined with the first extent where they touch. -/
def glue (e : Extent) : List Extent → List Extent
  | [] => [e]
  | q :: v => if e.hi = q.lo then ⟨e.lo, q.hi⟩ :: v else e :: q :: v

@[simp] theorem covered_nil (x : Nat) : ¬ covered [] x := by simp [covered]

@[simp] theorem covered_cons (e : Extent) (l : List Extent) (x : Nat) :
    covered (e :: l) x ↔ e.Has x ∨ covered l x := by simp [covered]

@[simp] theorem covered_append (l l' : List Extent) (x : Nat) :
    covered (l ++ l') x ↔ covered l x ∨ covered l' x := by
  simp only [covered, List.mem_append, or_and_right, exists_or]

@[simp] theorem total_nil : total [] = 0 := rfl

@[simp] theorem total_cons (e : Extent) (l : List Extent) : total (e :: l) = e.len + total l := rfl

@[simp] theorem total_append (l l' : List Extent) : total (l ++ l') = total l + total l' := by
  simp [total]

theorem covered_perm {l l' : List Extent} (h : l.Perm l') (x : Nat) :
    covered l x ↔ covered l' x := by
  simp only [covered, h.mem_iff]

theorem total_perm {l l' : List Extent} (h : l.Perm l') : total l = total l' :=
  (h.map Extent.len).sum_eq

theorem len_le_total {e : Extent} {l : List Extent} (h : e ∈ l) : e.len ≤ total l := by
  obtain ⟨u, v, rfl⟩ := List.append_of_mem h
  simp only [total_append, total_cons]
  omega

/-! ## `glue` -/

theorem glue_ne_nil (e : Extent) (l : List Extent) : glue e l ≠ [] := by
  cases l with
  | nil => simp [glue]
  | cons q v => rw [glue]; split <;> simp

/-- Joined or not, the list starts where `e` starts. -/
theorem glue_head (e : Extent) (l : List Extent) : ∃ h v, glue e l = ⟨e.lo, h⟩ :: v := by
  cases l with
  | nil => exact ⟨e.hi, [], rfl⟩
  | cons q v =>
    rw [glue]
    split
    · exact ⟨q.hi, v, rfl⟩
    · exact ⟨e.hi, q :: v, rfl⟩

theorem lo_of_mem_glue {e d : Extent} {l : List Extent} (h : d ∈ glue e l) :
    d.lo = e.lo ∨ ∃ q ∈ l, d.lo = q.lo := by
  cases l with
  | nil => rw [glue, List.mem_singleton] at h; exact .inl (by rw [h])
  | cons q v =>
    rw [glue] at h
    split at h
    · rcases List.mem_cons.1 h with rfl | h
      · exact .inl rfl
      · exact .inr ⟨d, List.mem_cons_of_mem _ h, rfl⟩
    · rcases List.mem_cons.1 h with rfl | h
      · exact .inl rfl
      · exact .inr ⟨d, h, rfl⟩

/-- In a glued list nothing is empty, but for `e` itself where it was and was not joined. -/
theorem glue_nonempty {e : Extent} {l : List Extent} (he : e.lo ≤ e.hi) (hl : ∀ q ∈ l, q.lo < q.hi) :
    ∀ d ∈ glue e l, d.lo < d.hi ∨ d = e := by
  cases l with
  | nil => intro d hd; rw [glue, List.mem_singleton] at hd; exact .inr hd
  | cons q v =>
    have hq := hl q List.mem_cons_self
    intro d hd
    rw [glue] at hd
    split at hd
    · next ht =>
      rcases List.mem_cons.1 hd with rfl | hd
      · exact .inl (show e.lo < q.hi by omega)
      · exact .inl (hl d (List.mem_cons_of_mem _ hd))
    · exact (List.mem_cons.1 hd).symm.imp_left (hl d)

theorem covered_glue {e : Extent} {l : List Extent} (he : e.lo ≤ e.hi) (hl : ∀ q ∈ l, q.lo ≤ q.hi)
    (x : Nat) : covered (glue e l) x ↔ e.Has x ∨ covered l x := by
  cases l with
  | nil => simp [glue]
  | cons q v =>
    have hq := hl q List.mem_cons_self
    rw [glue]
    split
    · next ht =>
      simp only [covered_cons, Extent.Has, ← or_assoc]
      apply or_congr _ Iff.rfl
      omega
    · simp

theorem total_glue {e : Extent} {l : List Extent} (he : e.lo ≤ e.hi) (hl : ∀ q ∈ l, q.lo ≤ q.hi) :
    total (glue e l) = e.len + total l := by
  cases l with
  | nil => simp [glue]
  | cons q v =>
    have hq := hl q List.mem_cons_self
    rw [glue]
    split
    · next ht =>
      simp only [total_cons, Extent.len]
      omega
    · simp

theorem gapped_glue {e : Extent} {l : List Extent} (hl : ∀ q ∈ l, q.lo < q.hi)
    (hle : ∀ q ∈ l, e.hi ≤ q.lo) (hg : Gapped l) : Gapped (glue e l) := by
  cases l with
  | nil => exact List.pairwise_singleton _ _
  | cons q v =>
    have hq := hl q List.mem_cons_self
    have hqe := hle q List.mem_cons_self
    obtain ⟨hqv, hv⟩ := List.pairwise_cons.1 hg
    rw [glue]
    split
    · exact List.pairwise_cons.2 ⟨hqv, hv⟩
    · next ht =>
      refine List.pairwise_cons.2 ⟨fun d hd => ?_, hg⟩
      rcases List.mem_cons.1 hd with rfl | hd
      · omega
      · have := hqv d hd; omega

theorem Gapped.pair {l : List Extent} (hg : Gapped l) {d e : Extent} (hd : d ∈ l) (he : e ∈ l)
    (hne : d ≠ e) : d.hi < e.lo ∨ e.hi < d.lo := by
  have hsymm : Std.Symm fun d e : Extent => d.hi < e.lo ∨ e.hi < d.lo := ⟨fun _ _ h => h.symm⟩
  have hp : l.Pairwise fun d e => d.hi < e.lo ∨ e.hi < d.lo := hg.imp Or.inl
  exact hp.forall hd he hne

/-- In a gapped list a covered extent lies within one of the list. -/
theorem exists_superset {l : List Extent} {e : Extent} (hg : Gapped l) (he : e.lo < e.hi)
    (hc : ∀ x, e.Has x → covered l x) : ∃ q ∈ l, q.lo ≤ e.lo ∧ e.hi ≤ q.hi := by
  obtain ⟨q, hq, h1, h2⟩ := hc e.lo ⟨Nat.le_refl _, he⟩
  refine ⟨q, hq, h1, ?_⟩
  apply Classical.byContradiction
  intro hlt
  -- the address `q.hi` is in `e`, and no extent of a gapped list starts there
  obtain ⟨r, hr, h3, h4⟩ := hc q.hi ⟨by omega, by omega⟩
  by_cases hqr : q = r
  · subst hqr; omega
  · rcases hg.pair hq hr hqr with h | h <;> omega

/-! ## Maximal runs -/

/-- A run of addresses with `P` that cannot be made longer on either side. -/
structure MaximalRun (P : Nat → Prop) (e : Extent) : Prop where
  nonempty : e.lo < e.hi
  inside : ∀ x, e.Has x → P x
  starts : ∀ x, x + 1 = e.lo → ¬ P x
  stops : ¬ P e.hi

theorem mem_iff_maximalRun {l : List Extent} (hg : Gapped l) (hl : ∀ q ∈ l, q.lo < q.hi)
    (e : Extent) : e ∈ l ↔ MaximalRun (covered l) e := by
  constructor
  · intro he
    have hne := hl e he
    refine ⟨hne, fun x hx => ⟨e, he, hx⟩, ?_, ?_⟩
    · rintro x hx ⟨q, hq, hqx⟩
      simp only [Extent.Has] at hqx
      by_cases hqe : q = e
      · subst hqe; omega
      · rcases hg.pair hq he hqe with h | h <;> omega
    · rintro ⟨q, hq, hqx⟩
      simp only [Extent.Has] at hqx
      by_cases hqe : q = e
      · subst hqe; omega
      · rcases hg.pair hq he hqe with h | h <;> omega
  · rintro ⟨hne, hin, hstart, hstop⟩
    obtain ⟨q, hq, h1, h2⟩ := exists_superset hg hne hin
    -- `q` is no longer than `e` on either side
    have hlo : q.lo = e.lo := by
      apply Classical.byContradiction
      intro hlt
      exact hstart (e.lo - 1) (by omega) ⟨q, hq, by simp only [Extent.Has]; omega⟩
    have hhi : q.hi = e.hi := by
      apply Classical.byContradiction
      intro hlt
      exact hstop ⟨q, hq, by simp only [Extent.Has]; omega⟩
    have hqe : q = e := by
      rcases q with ⟨a, b⟩
      rcases e with ⟨c, d⟩
      exact congrArg₂ Extent.mk hlo hhi
    exact hqe ▸ hq

/-- **The coalesced form is canonical.** -/
theorem eq_of_covered {l l' : List Extent} (hg : Gapped l) (hg' : Gapped l')
    (hl : ∀ q ∈ l, q.lo < q.hi) (hl' : ∀ q ∈ l', q.lo < q.hi)
    (h : ∀ x, covered l x ↔ covered l' x) : l = l' := by
  have hmem : ∀ e, e ∈ l ↔ e ∈ l' := by
    intro e
    rw [mem_iff_maximalRun hg hl, mem_iff_maximalRun hg' hl', show covered l = covered l' from
      funext fun x => propext (h x)]
  have hnodup : ∀ {w : List Extent}, Gapped w → (∀ q ∈ w, q.lo < q.hi) → w.Nodup := by
    intro w hw hwl
    refine hw.imp_of_mem fun {d e} hd _ hde => ?_
    rintro rfl
    have := hwl d hd
    omega
  refine ((List.perm_ext_iff_of_nodup (hnodup hg hl) (hnodup hg' hl')).2 hmem).eq_of_pairwise
    (fun d e hd he hde hed => ?_) hg hg'
  have := hl d hd
  have := hl' e he
  omega

/-! ## Giving an extent back -/

/-- An extent apart from all of a gapped list has its place in the order. -/
theorem exists_place {l : List Extent} {e : Extent} (hg : Gapped l) (hl : ∀ q ∈ l, q.lo < q.hi)
    (ha : ∀ q ∈ l, q.Apart e) :
    ∃ u v, l = u ++ v ∧ (∀ q ∈ u, q.hi ≤ e.lo) ∧ ∀ q ∈ v, e.hi ≤ q.lo := by
  induction l with
  | nil => exact ⟨[], [], rfl, by simp, by simp⟩
  | cons q l ih =>
    obtain ⟨hq, hg⟩ := List.pairwise_cons.1 hg
    rcases ha q List.mem_cons_self with h | h
    · obtain ⟨u, v, rfl, hu, hv⟩ := ih hg (fun r hr => hl r (List.mem_cons_of_mem _ hr))
        fun r hr => ha r (List.mem_cons_of_mem _ hr)
      exact ⟨q :: u, v, rfl, List.forall_mem_cons.2 ⟨h, hu⟩, hv⟩
    · refine ⟨[], q :: l, rfl, by simp, List.forall_mem_cons.2 ⟨h, fun r hr => ?_⟩⟩
      have h1 := hq r hr
      have h2 := hl q List.mem_cons_self
      omega

section
variable {u v : List Extent} {p e : Extent}
  (hp : p.lo ≤ p.hi) (he : e.lo < e.hi) (hv : ∀ q ∈ v, q.lo < q.hi)

include he hv

theorem glue_lt : ∀ q ∈ glue e v, q.lo < q.hi := fun q hq => by
  rcases glue_nonempty (Nat.le_of_lt he) hv q hq with h | rfl
  · exact h
  · exact he

theorem gapped_release (hg : Gapped (u ++ p :: v)) (hp : p.lo ≤ p.hi) (hpe : p.hi ≤ e.lo)
    (hev : ∀ q ∈ v, e.hi ≤ q.lo) : Gapped (u ++ glue p (glue e v)) := by
  obtain ⟨hu, hpv, hup⟩ := List.pairwise_append.1 hg
  obtain ⟨-, hvg⟩ := List.pairwise_cons.1 hpv
  have hlo : ∀ q ∈ glue e v, e.lo ≤ q.lo := by
    intro q hq
    rcases lo_of_mem_glue hq with h | ⟨r, hr, h⟩
    · omega
    · have := hev r hr; omega
  refine List.pairwise_append.2 ⟨hu, gapped_glue (glue_lt he hv) ?_ (gapped_glue hv hev hvg),
    fun d hd q hq => ?_⟩
  · intro q hq
    have := hlo q hq
    omega
  · have hdp := hup d hd p List.mem_cons_self
    rcases lo_of_mem_glue hq with h | ⟨r, hr, h⟩
    · omega
    · have := hlo r hr; omega

include hp

theorem covered_release (x : Nat) :
    covered (u ++ glue p (glue e v)) x ↔ e.Has x ∨ covered (u ++ p :: v) x := by
  rw [covered_append, covered_glue hp fun q hq => Nat.le_of_lt (glue_lt he hv q hq),
    covered_glue (Nat.le_of_lt he) fun q hq => Nat.le_of_lt (hv q hq), covered_append, covered_cons,
    or_left_comm (b := e.Has x), or_left_comm (b := e.Has x)]

theorem total_release : total (u ++ glue p (glue e v)) = total (u ++ p :: v) + e.len := by
  rw [total_append, total_glue hp fun q hq => Nat.le_of_lt (glue_lt he hv q hq),
    total_glue (Nat.le_of_lt he) fun q hq => Nat.le_of_lt (hv q hq), total_append, total_cons]
  omega

end

end Extents
