import CPrograms.Malloc.Free

/-!
# What `my_malloc` does to the free list

`my_malloc` walks the ring once round from behind `freep` (`mallocLoop_skip`,
`Ring.search_round`) and takes the first block that is large enough, whole or its tail
(`carve_freeList`).  Where none is, it asks `sbrk` once, gives the new region back with
`my_free`, and the second walk succeeds (`mallocLoop_spec`).
-/

namespace CPrograms.Malloc

open ByteMem CInts Extents Rings

/-- What giving the block `g` of `n` units out does: `fs` is `fs'` and `g`, and nothing
outside of `fs` and of the header `base` is written. -/
structure Carved (base : Nat) (m m' : Mem) (fs fs' : List Extent) (g : Extent) (n : Nat) : Prop where
  list : FreeList base m' fs'
  size_eq : size m' g.lo = n
  hi_eq : g.hi = g.lo + sizeofHeader * n
  above : base + sizeofHeader ≤ g.lo
  apart : ∀ q ∈ fs', q.Apart g
  covered_iff : ∀ x, covered fs x ↔ g.Has x ∨ covered fs' x
  total_eq : total fs = total fs' + g.len
  frame : ∀ x, ¬ covered fs x → (x < base ∨ base + sizeofHeader ≤ x) → m' x = m x

/-! ## Carving a block -/

section
variable {base : Nat} {m : Mem} {fs u v : List Extent} {x e : Extent}
  (h : FreeList base m fs) (hsplit : root base :: fs = u ++ x :: e :: v)

include h hsplit

theorem FreeList.mem_of_behind : e ∈ fs ∧ ∀ q ∈ v, q ∈ fs := by
  cases u with
  | nil =>
    obtain ⟨-, rfl⟩ := List.cons.inj hsplit
    exact ⟨by simp, fun q hq => by simp [hq]⟩
  | cons q u =>
    obtain ⟨-, rfl⟩ := List.cons.inj hsplit
    exact ⟨by simp, fun q hq => by simp [hq]⟩

/-- The block `e` is cut off at `mid`, or leaves the list when nothing is left of it. -/
theorem FreeList.cut_extents (mid : Nat) {r : List Extent} (hmid : e.lo ≤ mid ∧ mid < e.hi)
    (hr : (mid = e.lo ∧ r = []) ∨ (e.lo < mid ∧ r = [⟨e.lo, mid⟩])) :
    ∃ fs', root base :: fs' = u ++ x :: (r ++ v) ∧ Gapped fs' ∧
      (∀ q ∈ fs', q ∈ fs ∨ q ∈ r) ∧ (∀ q ∈ fs', q.Apart ⟨mid, e.hi⟩) ∧
      (∀ y, covered fs y ↔ Extent.Has ⟨mid, e.hi⟩ y ∨ covered fs' y) ∧
      total fs = total fs' + Extent.len ⟨mid, e.hi⟩ := by
  obtain ⟨fs', hfs', hfs⟩ : ∃ fs', root base :: fs' = u ++ x :: (r ++ v) ∧
      ∃ w, fs = w ++ e :: v ∧ fs' = w ++ (r ++ v) := by
    cases u with
    | nil =>
      obtain ⟨rfl, rfl⟩ := List.cons.inj hsplit
      exact ⟨r ++ v, rfl, [], rfl, rfl⟩
    | cons q u =>
      obtain ⟨rfl, rfl⟩ := List.cons.inj hsplit
      exact ⟨u ++ x :: (r ++ v), rfl, u ++ [x], by simp, by simp⟩
  obtain ⟨w, rfl, rfl⟩ := hfs
  have hg := h.gapped
  obtain ⟨hw, hev, hwe⟩ := List.pairwise_append.1 hg
  obtain ⟨hev, hv⟩ := List.pairwise_cons.1 hev
  have hr' : ∀ q ∈ r, q.lo = e.lo ∧ q.hi = mid ∧ e.lo < mid := by
    rcases hr with ⟨-, rfl⟩ | ⟨h1, rfl⟩
    · simp
    · simp [h1]
  have hcov : ∀ y, covered r y ↔ e.lo ≤ y ∧ y < mid := fun y => by
    rcases hr with ⟨h1, rfl⟩ | ⟨-, rfl⟩
    · simp only [covered_nil, false_iff]; omega
    · simp [Extent.Has]
  have htot : total r = mid - e.lo := by
    rcases hr with ⟨h1, rfl⟩ | ⟨-, rfl⟩
    · simp only [total_nil]; omega
    · simp [Extent.len]
  refine ⟨_, hfs', ?_, ?_, ?_, fun y => ?_, ?_⟩
  · refine List.pairwise_append.2 ⟨hw, List.pairwise_append.2 ⟨?_, hv, fun d hd q hq => ?_⟩,
      fun d hd q hq => ?_⟩
    · rcases hr with ⟨-, rfl⟩ | ⟨-, rfl⟩ <;> simp
    · have := hev q hq
      have := hr' d hd
      omega
    · have := hwe d hd e List.mem_cons_self
      rcases List.mem_append.1 hq with hq | hq
      · have := hr' q hq; omega
      · exact hwe d hd q (List.mem_cons_of_mem _ hq)
  · intro q hq
    simp only [List.mem_append, List.mem_cons] at hq ⊢
    rcases hq with hq | hq | hq
    · exact .inl (.inl hq)
    · exact .inr hq
    · exact .inl (.inr (.inr hq))
  · intro q hq
    simp only [Extent.Apart]
    rcases List.mem_append.1 hq with hq | hq
    · have := hwe q hq e List.mem_cons_self; omega
    · rcases List.mem_append.1 hq with hq | hq
      · have := hr' q hq; omega
      · have := hev q hq; omega
  · have hy : Extent.Has e y ↔ Extent.Has ⟨mid, e.hi⟩ y ∨ covered r y := by
      rw [hcov]
      simp only [Extent.Has]
      omega
    simp only [covered_append, covered_cons, hy, or_assoc, or_left_comm, or_comm]
  · simp only [total_append, total_cons, htot, Extent.len]
    omega

/-! ## The two ways a block is given out -/

/-- The whole block: its predecessor is linked past it. -/
theorem carve_exact {n : Nat} (hb : base < 2 ^ 64) (hsize : size m e.lo = n) :
    ∃ fs', Carved base m (setNext m x.lo (next m e.lo)) fs fs' e n ∧
      x.lo ∈ base :: fs'.map Extent.lo := by
  obtain ⟨hem, hvm⟩ := h.mem_of_behind hsplit
  have hsz := h.listed.sized e (List.mem_cons_of_mem _ hem)
  have hne := h.nonempty e hem
  obtain ⟨fs', hfs', hgap, hsub, hapart, hcov, htot⟩ :=
    h.cut_extents hsplit e.lo (r := []) ⟨Nat.le_refl _, hne⟩ (.inl ⟨rfl, rfl⟩)
  rw [List.nil_append] at hfs'
  simp only [List.not_mem_nil, or_false] at hsub
  have hoff := offHeader_setNext m x.lo (next m e.lo)
  obtain ⟨hsu, hsv⟩ := h.sep hsplit
  have hlist := h.listed
  rw [hsplit, Listed.append_iff] at hlist
  obtain ⟨⟨hul, hus⟩, hx⟩ := hlist
  obtain ⟨⟨-, hxs⟩, hev⟩ := listed_cons.1 hx
  obtain ⟨⟨hen, -⟩, hv⟩ := listed_cons.1 hev
  have hafter : after base v < 2 ^ 64 := by
    cases v with
    | nil => exact hb
    | cons q v =>
      have hq := hvm q List.mem_cons_self
      exact Nat.lt_of_lt_of_le (h.nonempty q hq) (h.below q hq)
  have hlisted : Listed base (setNext m x.lo (next m e.lo)) (root base :: fs') := by
    rw [hfs', Listed.append_iff, listed_cons]
    refine ⟨⟨links_transport hul fun a ha => ?_, fun q hq => ?_⟩, ⟨?_, ?_⟩, ?_⟩
    · obtain ⟨q, hq, rfl⟩ := List.mem_map.1 ha
      exact hoff.next_eq (hsu q hq)
    · rw [hoff.size_eq (hsu q hq)]; exact hus q hq
    · rw [next_setNext, hen, Nat.mod_eq_of_lt hafter]
    · rw [size_setNext]; exact hxs
    · exact hv.transport hoff fun q hq => hsv q (List.mem_cons_of_mem _ hq)
  have hxm : x ∈ root base :: fs := by rw [hsplit]; simp
  refine ⟨fs', ⟨⟨hlisted, hgap, fun q hq => h.above q (hsub q hq), fun q hq => h.nonempty q (hsub q hq),
    fun q hq => h.below q (hsub q hq)⟩, ?_, ?_, h.above e hem, hapart, hcov, htot, fun y hy hyb => ?_⟩, ?_⟩
  · rw [hoff.size_eq (hsv e List.mem_cons_self)]; exact hsize
  · rw [← hsize]; exact hsz.symm
  · apply hoff
    rcases List.mem_cons.1 hxm with rfl | hxm
    · exact hyb
    · exact header_out (h.listed.sized x (List.mem_cons_of_mem _ hxm)) (h.nonempty x hxm)
        fun hyx => hy ⟨x, hxm, hyx⟩
  · have hmem : x.lo ∈ (root base :: fs').map Extent.lo := by rw [hfs']; simp
    exact hmem

/-- The tail of a larger block: the block is shortened and a header written behind it. -/
theorem carve_tail {n : Nat} (hn : 1 ≤ n) (hsize : n < size m e.lo) :
    ∃ fs', Carved base m
        (setSize (setSize m e.lo (size m e.lo - n)) (e.lo + sizeofHeader * (size m e.lo - n)) n)
        fs fs' ⟨e.lo + sizeofHeader * (size m e.lo - n), e.hi⟩ n ∧
      x.lo ∈ base :: fs'.map Extent.lo := by
  obtain ⟨hem, hvm⟩ := h.mem_of_behind hsplit
  have hsz := h.listed.sized e (List.mem_cons_of_mem _ hem)
  have hlt := size_lt m e.lo
  simp only [sizeofHeader] at hsz
  generalize hk : size m e.lo - n = k at *
  generalize hmid : e.lo + sizeofHeader * k = mid at *
  simp only [sizeofHeader] at hmid
  obtain ⟨fs', hfs', hgap, hsub, hapart, hcov, htot⟩ := h.cut_extents hsplit mid
    (r := [⟨e.lo, mid⟩]) ⟨by omega, by omega⟩ (.inr ⟨by omega, rfl⟩)
  have hsplit' : root base :: fs = (u ++ [x]) ++ e :: v := by rw [hsplit, List.append_assoc]; rfl
  have ho1 := offHeader_setSize m e.lo k
  have ho2 := offHeader_setSize (setSize m e.lo k) mid n
  obtain ⟨hsu, hsv⟩ := h.sep hsplit'
  have hme : Sep mid e.lo := .inr (by simp only [sizeofHeader]; omega)
  -- the other blocks end before `e` or start behind it
  have hout : ∀ q ∈ (u ++ [x]) ++ v, Sep e.lo q.lo ∧ Sep mid q.lo := fun q hq => by
    have hse : Sep e.lo q.lo := by
      rcases List.mem_append.1 hq with hq | hq
      · exact hsu q hq
      · exact hsv q hq
    have hg := h.gapped_root
    rw [hsplit'] at hg
    obtain ⟨-, hgv, hgu⟩ := List.pairwise_append.1 hg
    refine ⟨hse, ?_⟩
    simp only [Sep, sizeofHeader] at hse ⊢
    rcases List.mem_append.1 hq with hq | hq
    · have := hgu q hq e List.mem_cons_self
      have := h.lo_le_hi q (by rw [hsplit']; exact List.mem_append_left _ hq)
      omega
    · have := (List.pairwise_cons.1 hgv).1 q hq
      omega
  have hlist := h.listed
  rw [hsplit', Listed.append_iff] at hlist
  obtain ⟨⟨hul, hus⟩, hev⟩ := hlist
  obtain ⟨⟨hen, -⟩, hv⟩ := listed_cons.1 hev
  have hlisted : Listed base (setSize (setSize m e.lo k) mid n) (root base :: fs') := by
    have hfs'' : root base :: fs' = (u ++ [x]) ++ ⟨e.lo, mid⟩ :: v := by
      rw [hfs', List.append_assoc]; rfl
    rw [hfs'', Listed.append_iff, listed_cons]
    refine ⟨⟨links_transport hul fun a ha => ?_, fun q hq => ?_⟩, ⟨?_, ?_⟩, ?_⟩
    · obtain ⟨q, hq, rfl⟩ := List.mem_map.1 ha
      have := hout q (List.mem_append_left _ hq)
      rw [ho2.next_eq this.2, ho1.next_eq this.1]
    · have := hout q (List.mem_append_left _ hq)
      rw [ho2.size_eq this.2, ho1.size_eq this.1]
      exact hus q hq
    · rw [ho2.next_eq hme, next_setSize]; exact hen
    · rw [ho2.size_eq hme, size_setSize, Nat.mod_eq_of_lt (by omega)]
      simp only [sizeofHeader]
      omega
    · exact (hv.transport ho1 fun q hq => hsv q hq).transport ho2
        fun q hq => (hout q (List.mem_append_right _ hq)).2
  have hends : ∀ q ∈ fs', base + sizeofHeader ≤ q.lo ∧ q.lo < q.hi ∧ q.hi ≤ 2 ^ 64 := fun q hq => by
    rcases hsub q hq with hq | hq
    · exact ⟨h.above q hq, h.nonempty q hq, h.below q hq⟩
    · rw [List.mem_singleton.1 hq]
      have h1 := h.above e hem
      have h2 := h.below e hem
      exact ⟨h1, by show e.lo < mid; omega, by show mid ≤ 2 ^ 64; omega⟩
  refine ⟨fs', ⟨⟨hlisted, hgap, fun q hq => (hends q hq).1, fun q hq => (hends q hq).2.1,
    fun q hq => (hends q hq).2.2⟩, ?_, ?_, ?_, hapart, hcov, htot, fun y hy _ => ?_⟩, ?_⟩
  · rw [size_setSize, Nat.mod_eq_of_lt (by omega)]
  · simp only [sizeofHeader]; omega
  · have := h.above e hem
    show base + sizeofHeader ≤ mid
    omega
  · have hye : ¬ e.Has y := fun hye => hy ⟨e, hem, hye⟩
    simp only [Extent.Has] at hye
    rw [ho2 y (by simp only [sizeofHeader]; omega), ho1 y (by simp only [sizeofHeader]; omega)]
  · have hmem : x.lo ∈ (root base :: fs').map Extent.lo := by rw [hfs']; simp
    exact hmem

end

/-! ## The loop of `my_malloc` -/

/-- Blocks that are too small and not at `freep` are passed. -/
theorem mallocLoop_skip {n : Nat} {h : Heap} {j x : Nat}
    (hno : ∀ i < j, ¬ n ≤ size h.mem ((next h.mem)^[i] (next h.mem x)) ∧
      (next h.mem)^[i] (next h.mem x) ≠ h.freep) (fuel : Nat) :
    mallocLoop n (fuel + j) x (next h.mem x) h =
      mallocLoop n fuel ((next h.mem)^[j] x) ((next h.mem)^[j] (next h.mem x)) h := by
  induction j generalizing x with
  | zero => rfl
  | succ j ih =>
    obtain ⟨h1, h2⟩ : ¬ n ≤ size h.mem (next h.mem x) ∧ next h.mem x ≠ h.freep := hno 0 (by omega)
    have hstep : mallocLoop n (fuel + (j + 1)) x (next h.mem x) h =
        mallocLoop n (fuel + j) (next h.mem x) (next h.mem (next h.mem x)) h := by
      rw [← Nat.add_assoc, mallocLoop, if_neg h1, if_neg h2]
    rw [hstep, ih fun i hi => hno (i + 1) (by omega)]
    rfl

/-- A fitting block is given out, whole or its tail. -/
theorem mallocLoop_carve {base n : Nat} {h : Heap} {fs : List Extent} {x : Nat} (fuel : Nat)
    (hl : FreeList base h.mem fs) (hb : base < 2 ^ 64) (hn : 1 ≤ n)
    (hx : x ∈ base :: fs.map Extent.lo) (hfit : n ≤ size h.mem (next h.mem x)) :
    ∃ fs' g m', mallocLoop n (fuel + 1) x (next h.mem x) h =
        some (g.lo + sizeofHeader, { h with mem := m', freep := x }) ∧
      Carved base h.mem m' fs fs' g n ∧ x ∈ base :: fs'.map Extent.lo := by
  obtain ⟨p, hp, rfl⟩ : ∃ p ∈ root base :: fs, p.lo = x := List.mem_map.1 hx
  obtain ⟨u, w, hsplit⟩ := List.append_of_mem hp
  have hnext := hl.next_eq hsplit
  rw [hnext] at hfit ⊢
  cases w with
  | nil =>
    -- `base` has size 0
    have hroot := hl.listed.sized (root base) List.mem_cons_self
    simp only [root, sizeofHeader, after_nil] at hroot hfit
    omega
  | cons e v =>
    rw [after_cons] at hfit ⊢
    have hlt := size_lt h.mem e.lo
    by_cases hsize : size h.mem e.lo = n
    · obtain ⟨fs', hc, hx'⟩ := carve_exact hl hsplit hb hsize
      refine ⟨fs', e, _, ?_, hc, hx'⟩
      rw [mallocLoop, if_pos hfit, if_pos hsize]
    · obtain ⟨fs', hc, hx'⟩ := carve_tail hl hsplit hn (by omega)
      refine ⟨fs', _, _, ?_, hc, hx'⟩
      rw [mallocLoop, if_pos hfit, if_neg hsize]
      simp only [size_setSize, Nat.mod_eq_of_lt (show size h.mem e.lo - n < 2 ^ 32 by omega)]

/-- **A free block is large enough.**  The walk finds one and gives it out. -/
theorem mallocLoop_fit {base n : Nat} {h : Heap} {fs : List Extent}
    (hl : FreeList base h.mem fs) (hb : base < 2 ^ 64) (hn : 1 ≤ n)
    (hfreep : h.freep ∈ base :: fs.map Extent.lo) (hfit : ∃ q ∈ fs, n ≤ size h.mem q.lo) :
    ∃ fs' g m' x fuel, mallocLoop n fuel h.freep (next h.mem h.freep) h =
        some (g.lo + sizeofHeader, { h with mem := m', freep := x }) ∧
      Carved base h.mem m' fs fs' g n ∧ x ∈ base :: fs'.map Extent.lo := by
  obtain ⟨q, hq, hqn⟩ := hfit
  obtain ⟨j, -, hno, hj⟩ := hl.ring.search_round hfreep (fun p => n ≤ size h.mem p)
  have hj : n ≤ size h.mem ((next h.mem)^[j] (next h.mem h.freep)) := by
    refine hj.resolve_right fun hnone => hnone.2 q.lo ?_ hqn
    exact List.mem_cons_of_mem _ (List.mem_map_of_mem hq)
  rw [← Function.iterate_succ_apply, Function.iterate_succ_apply'] at hj
  obtain ⟨fs', g, m', hloop, hc, hx⟩ :=
    mallocLoop_carve 0 hl hb hn (hl.ring.iterate_mem hfreep j) hj
  refine ⟨fs', g, m', _, 0 + 1 + j, ?_, hc, hx⟩
  rw [mallocLoop_skip hno (0 + 1), ← hloop, ← Function.iterate_succ_apply,
    Function.iterate_succ_apply']

/-- No free block is large enough: the walk comes round to `freep` and meets none of `n` units. -/
def NoneFits (h : Heap) (n : Nat) : Prop :=
  ∃ j, (next h.mem)^[j] (next h.mem h.freep) = h.freep ∧
    ∀ i ≤ j, size h.mem ((next h.mem)^[i] (next h.mem h.freep)) < n

theorem FreeList.noneFits {base n : Nat} {h : Heap} {fs : List Extent}
    (hl : FreeList base h.mem fs) (hfreep : h.freep ∈ base :: fs.map Extent.lo) (hn : 1 ≤ n)
    (hfull : ∀ q ∈ fs, size h.mem q.lo < n) : NoneFits h n := by
  have hsmall : ∀ y ∈ base :: fs.map Extent.lo, size h.mem y < n := by
    intro y hy
    obtain ⟨d, hd, rfl⟩ : ∃ d ∈ root base :: fs, d.lo = y := List.mem_map.1 hy
    rcases List.mem_cons.1 hd with rfl | hd
    · have hroot := hl.listed.sized (root base) List.mem_cons_self
      simp only [root, sizeofHeader] at hroot ⊢
      omega
    · exact hfull d hd
  have hmem : ∀ i, (next h.mem)^[i] (next h.mem h.freep) ∈ base :: fs.map Extent.lo := fun i =>
    hl.ring.iterate_mem hfreep (i + 1)
  obtain ⟨j, -, -, hj⟩ := hl.ring.search_round hfreep (fun p => n ≤ size h.mem p)
  obtain ⟨hback, -⟩ := hj.resolve_left (Nat.not_le.2 (hsmall _ (hmem j)))
  exact ⟨j, hback, fun i _ => hsmall _ (hmem i)⟩

/-- **No free block is large enough.**  The walk comes back to `freep` and asks for more. -/
theorem mallocLoop_none {n : Nat} {h : Heap} (hnone : NoneFits h n) :
    ∃ j, ∀ fuel, mallocLoop n (fuel + 1 + j) h.freep (next h.mem h.freep) h =
      match myMorecore fuel n h with
      | none => none
      | some (p, h) => if p = 0 then some (0, h) else mallocLoop n fuel p (next h.mem p) h := by
  obtain ⟨j, hback, hsmall⟩ := hnone
  have hex : ∃ j, (next h.mem)^[j] (next h.mem h.freep) = h.freep := ⟨j, hback⟩
  have hle : Nat.find hex ≤ j := Nat.find_min' hex hback
  have hno : ∀ i < Nat.find hex, ¬ n ≤ size h.mem ((next h.mem)^[i] (next h.mem h.freep)) ∧
      (next h.mem)^[i] (next h.mem h.freep) ≠ h.freep := fun i hi =>
    ⟨Nat.not_le.2 (hsmall i (by omega)), Nat.find_min hex hi⟩
  refine ⟨Nat.find hex, fun fuel => (mallocLoop_skip hno (fuel + 1)).trans ?_⟩
  exact (if_neg (Nat.not_le.2 (hsmall _ hle))).trans (if_pos (Nat.find_spec hex))

theorem mallocLoop_full {base n : Nat} {h : Heap} {fs : List Extent}
    (hl : FreeList base h.mem fs) (hfreep : h.freep ∈ base :: fs.map Extent.lo) (hn : 1 ≤ n)
    (hfull : ∀ q ∈ fs, size h.mem q.lo < n) :
    ∃ j, ∀ fuel, mallocLoop n (fuel + 1 + j) h.freep (next h.mem h.freep) h =
      match myMorecore fuel n h with
      | none => none
      | some (p, h) => if p = 0 then some (0, h) else mallocLoop n fuel p (next h.mem p) h :=
  mallocLoop_none (hl.noneFits hfreep hn hfull)

/-! ## More fuel changes nothing -/

theorem myMorecore_mono {fuel fuel' nu : Nat} {h : Heap} {r : Nat × Heap} (hle : fuel ≤ fuel')
    (hm : myMorecore fuel nu h = some r) : myMorecore fuel' nu h = some r := by
  unfold myMorecore at hm ⊢
  generalize (if nu < nalloc then nalloc else nu) = k at hm ⊢
  dsimp only at hm ⊢
  generalize sbrk (toInt (k * sizeofHeader : Nat)) h.os = a at hm ⊢
  obtain ⟨_ | cp, os⟩ := a
  · exact hm
  · dsimp only at hm ⊢
    split at hm
    · cases hm
    · next hf => rw [myFree_mono hle hf]; exact hm

theorem mallocLoop_mono {n fuel fuel' prevp p : Nat} {h : Heap} {r : Nat × Heap} (hle : fuel ≤ fuel')
    (hm : mallocLoop n fuel prevp p h = some r) : mallocLoop n fuel' prevp p h = some r := by
  induction fuel generalizing fuel' prevp p h with
  | zero => cases hm
  | succ fuel ih =>
    obtain ⟨fuel', rfl⟩ : ∃ k, fuel' = k + 1 := ⟨fuel' - 1, by omega⟩
    rw [mallocLoop] at hm ⊢
    split
    · next h1 => rwa [if_pos h1] at hm
    · next h1 =>
      rw [if_neg h1] at hm
      split
      · next h2 =>
        rw [if_pos h2] at hm
        split at hm
        · cases hm
        · next q h' hq =>
          rw [myMorecore_mono (Nat.le_of_succ_le_succ hle) hq]
          simp only
          split
          · next h3 => rwa [if_pos h3] at hm
          · next h3 => rw [if_neg h3] at hm; exact ih (by omega) hm
      · next h2 => rw [if_neg h2] at hm; exact ih (by omega) hm

end CPrograms.Malloc
