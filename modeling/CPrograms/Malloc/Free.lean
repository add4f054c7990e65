import CPrograms.Malloc.Model
import CPrograms.Lib.Extents
import CPrograms.Lib.Rings

/-!
# What `my_free` does to the free list

The free list in memory is the ring of the extents `root base :: fs`, where `root base` is
the static header `base`, an extent of length 0, and `fs` are the free blocks in increasing
order (`FreeList`).  `myFree_spec`: from every position of `freep`, `my_free` finds the
place `u ++ p :: v` of the block `e` in that order, and afterwards the list in memory is
`u ++ glue p (glue e v)`; only the headers of `p` and `e` are written.

The two `if`s of `my_free` do the same thing to different blocks, so there is one lemma
about them, `join_listed`.
-/

namespace CPrograms.Malloc

open ByteMem Extents Rings

/-! ## Headers -/

/-- The headers at `p` and `q` do not overlap. -/
def Sep (p q : Nat) : Prop := p + sizeofHeader ≤ q ∨ q + sizeofHeader ≤ p

/-- `m'` is `m` but for the header at `p`. -/
def OffHeader (p : Nat) (m m' : Mem) : Prop := ∀ x, x < p ∨ p + sizeofHeader ≤ x → m' x = m x

theorem Sep.symm {p q : Nat} (h : Sep p q) : Sep q p := Or.symm h

theorem OffHeader.next_eq {p q : Nat} {m m' : Mem} (h : OffHeader p m m') (hs : Sep p q) :
    next m' q = next m q := by
  simp only [Sep, sizeofHeader] at hs
  exact loadLE_congr fun x h1 h2 => h x (by simp only [sizeofHeader]; omega)

theorem OffHeader.size_eq {p q : Nat} {m m' : Mem} (h : OffHeader p m m') (hs : Sep p q) :
    size m' q = size m q := by
  simp only [Sep, sizeofHeader] at hs
  exact loadLE_congr fun x h1 h2 => h x (by simp only [sizeofHeader]; omega)

theorem OffHeader.trans {p : Nat} {m m' m'' : Mem} (h : OffHeader p m m') (h' : OffHeader p m' m'') :
    OffHeader p m m'' := fun x hx => (h' x hx).trans (h x hx)

theorem offHeader_setNext (m : Mem) (p q : Nat) : OffHeader p m (setNext m p q) := fun x hx =>
  storeLE_of_outside (by simp only [sizeofHeader] at hx; omega)

theorem offHeader_setSize (m : Mem) (p n : Nat) : OffHeader p m (setSize m p n) := fun x hx =>
  storeLE_of_outside (by simp only [sizeofHeader] at hx; omega)

@[simp] theorem next_setNext (m : Mem) (p q : Nat) : next (setNext m p q) p = q % 2 ^ 64 := by
  rw [next, setNext, loadLE_storeLE]; rfl

@[simp] theorem size_setSize (m : Mem) (p n : Nat) : size (setSize m p n) p = n % 2 ^ 32 := by
  rw [size, setSize, loadLE_storeLE]; rfl

@[simp] theorem next_setSize (m : Mem) (p n : Nat) : next (setSize m p n) p = next m p :=
  loadLE_storeLE_disjoint (by omega)

@[simp] theorem size_setNext (m : Mem) (p q : Nat) : size (setNext m p q) p = size m p :=
  loadLE_storeLE_disjoint (by omega)

theorem size_lt (m : Mem) (p : Nat) : size m p < 2 ^ 32 := loadLE_lt m (p + 8) 4

/-! ## The list in memory -/

/-- The extents `w` stand in memory one after the other, the last one linked to `base`. -/
structure Listed (base : Nat) (m : Mem) (w : List Extent) : Prop where
  links : Links (next m) (w.map Extent.lo ++ [base])
  sized : ∀ e ∈ w, e.lo + sizeofHeader * size m e.lo = e.hi

/-- A sized block holds its header. -/
theorem header_out {m : Mem} {e : Extent} {x : Nat} (hs : e.lo + sizeofHeader * size m e.lo = e.hi)
    (hne : e.lo < e.hi) (hx : ¬ e.Has x) : x < e.lo ∨ e.lo + sizeofHeader ≤ x := by
  simp only [Extent.Has, sizeofHeader] at *
  omega

/-- `base` as an extent of length 0. -/
def root (base : Nat) : Extent := ⟨base, base⟩

/-- The free list: `base` and the free blocks `fs`, increasing and coalesced. -/
structure FreeList (base : Nat) (m : Mem) (fs : List Extent) : Prop where
  listed : Listed base m (root base :: fs)
  gapped : Gapped fs
  above : ∀ e ∈ fs, base + sizeofHeader ≤ e.lo
  nonempty : ∀ e ∈ fs, e.lo < e.hi
  below : ∀ e ∈ fs, e.hi ≤ 2 ^ 64

theorem Listed.append_iff {base : Nat} {m : Mem} {u v : List Extent} {p : Extent} :
    Listed base m (u ++ p :: v) ↔
      (Links (next m) (u.map Extent.lo ++ [p.lo]) ∧
        ∀ e ∈ u, e.lo + sizeofHeader * size m e.lo = e.hi) ∧ Listed base m (p :: v) := by
  constructor
  · rintro ⟨hl, hs⟩
    rw [List.map_append, List.map_cons, List.append_assoc, List.cons_append, links_split] at hl
    exact ⟨⟨hl.1, fun e he => hs e (List.mem_append_left _ he)⟩,
      hl.2, fun e he => hs e (List.mem_append_right _ he)⟩
  · rintro ⟨⟨hl, hs⟩, hl', hs'⟩
    refine ⟨?_, fun e he => ?_⟩
    · rw [List.map_append, List.map_cons, List.append_assoc, List.cons_append, links_split]
      exact ⟨hl, hl'⟩
    · rcases List.mem_append.1 he with he | he
      · exact hs e he
      · exact hs' e he

/-- The successor of a listed extent. -/
def after (base : Nat) (v : List Extent) : Nat := (v.map Extent.lo ++ [base]).headD base

@[simp] theorem after_nil (base : Nat) : after base [] = base := rfl
@[simp] theorem after_cons (base : Nat) (e : Extent) (v : List Extent) :
    after base (e :: v) = e.lo := rfl

theorem listed_cons {base : Nat} {m : Mem} {p : Extent} {v : List Extent} :
    Listed base m (p :: v) ↔
      (next m p.lo = after base v ∧ p.lo + sizeofHeader * size m p.lo = p.hi) ∧ Listed base m v := by
  have hl : Links (next m) ((p :: v).map Extent.lo ++ [base]) ↔
      next m p.lo = after base v ∧ Links (next m) (v.map Extent.lo ++ [base]) := by
    cases v <;> exact links_cons_cons
  constructor
  · rintro ⟨h1, h2⟩
    obtain ⟨h1, h3⟩ := hl.1 h1
    exact ⟨⟨h1, h2 p List.mem_cons_self⟩, h3, fun e he => h2 e (List.mem_cons_of_mem _ he)⟩
  · rintro ⟨⟨h1, h2⟩, h3, h4⟩
    exact ⟨hl.2 ⟨h1, h3⟩, List.forall_mem_cons.2 ⟨h2, h4⟩⟩

/-- A write to another header keeps the list. -/
theorem Listed.transport {base p : Nat} {m m' : Mem} {w : List Extent} (h : Listed base m w)
    (hm : OffHeader p m m') (hw : ∀ e ∈ w, Sep p e.lo) : Listed base m' w := by
  refine ⟨links_transport h.links fun a ha => ?_, fun e he => ?_⟩
  · obtain ⟨e, he, rfl⟩ := List.mem_map.1 ha
    exact hm.next_eq (hw e he)
  · rw [hm.size_eq (hw e he)]
    exact h.sized e he

/-! ## Joining a block with the one behind it -/

/-- The common form of the two `if`s: the block at `x` and the block at `y`, which is to
stand behind it. -/
def join (m : Mem) (x y : Nat) : Mem :=
  if x + sizeofHeader * size m x = y then
    let m := setSize m x (size m x + size m y)
    setNext m x (next m y)
  else setNext m x y

theorem joinLower_eq (m : Mem) (bp p : Nat) : joinLower m bp p = join m p bp := rfl

theorem joinUpper_eq {m : Mem} {bp p : Nat} (h : Sep bp p) : joinUpper m bp p = join m bp (next m p) := by
  unfold joinUpper join
  simp only [(offHeader_setSize m bp _).next_eq h]

theorem offHeader_join (m : Mem) (x y : Nat) : OffHeader x m (join m x y) := by
  unfold join
  split
  · exact (offHeader_setSize m x _).trans (offHeader_setNext _ x _)
  · exact offHeader_setNext m x y

theorem join_listed {base : Nat} {m : Mem} {d : Extent} {w : List Extent} (h : Listed base m w)
    (hd : d.lo + sizeofHeader * size m d.lo = d.hi) (hw : ∀ q ∈ w, d.hi ≤ q.lo)
    (hsep : ∀ q ∈ w, Sep d.lo q.lo) (hbase : w = [] → d.hi ≠ base) (hb : base < 2 ^ 64)
    (h64 : ∀ q ∈ w, q.lo < 2 ^ 64) (htot : d.len + total w < sizeofHeader * 2 ^ 32) :
    Listed base (join m d.lo (after base w)) (glue d w) := by
  have hoff := offHeader_join m d.lo (after base w)
  simp only [sizeofHeader] at hd htot
  cases w with
  | nil =>
    have hj : join m d.lo (after base []) = setNext m d.lo base :=
      if_neg (by rw [after_nil]; simp only [sizeofHeader]; rw [hd]; exact hbase rfl)
    rw [hj]
    refine listed_cons.2 ⟨⟨?_, ?_⟩, h.transport (offHeader_setNext m d.lo base) hsep⟩
    · rw [next_setNext, Nat.mod_eq_of_lt hb, after_nil]
    · rw [size_setNext]; exact hd
  | cons q v =>
    obtain ⟨⟨hq, hqs⟩, hv⟩ := listed_cons.1 h
    have hdq := hw q List.mem_cons_self
    have hqd := hsep q List.mem_cons_self
    have hv' : ∀ r ∈ v, Sep d.lo r.lo := fun r hr => hsep r (List.mem_cons_of_mem _ hr)
    rw [after_cons] at hoff ⊢
    rw [glue]
    split
    · next ht =>
      have hj : join m d.lo q.lo =
          setNext (setSize m d.lo (size m d.lo + size m q.lo)) d.lo
            (next (setSize m d.lo (size m d.lo + size m q.lo)) q.lo) :=
        if_pos (by simp only [sizeofHeader]; omega)
      simp only [sizeofHeader] at hqs
      have hlen : size m d.lo + size m q.lo < 2 ^ 32 := by
        simp only [total_cons, Extent.len] at htot
        omega
      have h64' : after base v < 2 ^ 64 := by
        cases v with
        | nil => exact hb
        | cons r v => exact h64 r (by simp)
      rw [hj] at hoff ⊢
      refine listed_cons.2 ⟨⟨?_, ?_⟩, hv.transport hoff hv'⟩
      · rw [next_setNext, (offHeader_setSize m d.lo _).next_eq hqd, hq, Nat.mod_eq_of_lt h64']
      · rw [size_setNext, size_setSize, Nat.mod_eq_of_lt hlen]
        simp only [sizeofHeader]
        omega
    · next ht =>
      have hj : join m d.lo q.lo = setNext m d.lo q.lo :=
        if_neg (by simp only [sizeofHeader]; omega)
      rw [hj]
      have ho := offHeader_setNext m d.lo q.lo
      refine listed_cons.2 ⟨⟨?_, ?_⟩, h.transport ho hsep⟩
      · rw [next_setNext, after_cons, Nat.mod_eq_of_lt (h64 q List.mem_cons_self)]
      · rw [size_setNext]; exact hd

/-! ## The ring of the free list -/

namespace FreeList

variable {base : Nat} {m : Mem} {fs : List Extent}

theorem ring (h : FreeList base m fs) : Ring (next m) base (fs.map Extent.lo) := h.listed.links

theorem gapped_root (h : FreeList base m fs) : Gapped (root base :: fs) :=
  List.pairwise_cons.2 ⟨fun e he => by
    have := h.above e he
    simp only [root, sizeofHeader] at this ⊢
    omega, h.gapped⟩

theorem lo_le_hi (h : FreeList base m fs) : ∀ d ∈ root base :: fs, d.lo ≤ d.hi :=
  List.forall_mem_cons.2 ⟨Nat.le_refl _, fun e he => Nat.le_of_lt (h.nonempty e he)⟩

/-- What lies behind a block of the list lies behind its header. -/
theorem header_le (h : FreeList base m fs) {d : Extent} (hd : d ∈ root base :: fs) {x : Nat}
    (hx : d.hi ≤ x) (hb : base + sizeofHeader ≤ x) : d.lo + sizeofHeader ≤ x := by
  have hs := h.listed.sized d hd
  rcases List.mem_cons.1 hd with rfl | hd
  · exact hb
  · have := h.nonempty d hd
    simp only [sizeofHeader] at hs ⊢
    omega

theorem base_le (h : FreeList base m fs) {d : Extent} (hd : d ∈ root base :: fs) : base ≤ d.lo := by
  rcases List.mem_cons.1 hd with rfl | hd
  · exact Nat.le_refl _
  · have := h.above d hd; omega

/-- The headers of the list do not overlap. -/
theorem sep (h : FreeList base m fs) {u v : List Extent} {d : Extent}
    (hd : root base :: fs = u ++ d :: v) :
    (∀ q ∈ u, Sep d.lo q.lo) ∧ ∀ q ∈ v, Sep d.lo q.lo := by
  have hg := h.gapped_root
  have hmem : ∀ q ∈ u ++ d :: v, q ∈ root base :: fs := fun q hq => hd ▸ hq
  rw [hd] at hg
  obtain ⟨-, hdv, hud⟩ := List.pairwise_append.1 hg
  have hlast : ∀ q ∈ root base :: fs, ∀ r ∈ root base :: fs, q.hi < r.lo →
      q.lo + sizeofHeader ≤ r.lo := fun q hq r hr hlt => by
    have hrb : base + sizeofHeader ≤ r.lo := by
      rcases List.mem_cons.1 hr with rfl | hr
      · have h1 := h.base_le hq
        have h2 := h.lo_le_hi q hq
        simp only [root] at hlt
        omega
      · exact h.above r hr
    exact h.header_le hq (Nat.le_of_lt hlt) hrb
  have hdm := hmem d (by simp)
  exact ⟨fun q hq => .inr (hlast q (hmem q (by simp [hq])) d hdm (hud q hq d List.mem_cons_self)),
    fun q hq => .inl (hlast d hdm q (hmem q (by simp [hq])) ((List.pairwise_cons.1 hdv).1 q hq))⟩

theorem next_eq (h : FreeList base m fs) {u v : List Extent} {d : Extent}
    (hd : root base :: fs = u ++ d :: v) : next m d.lo = after base v := by
  have := h.listed
  rw [hd, Listed.append_iff] at this
  exact (listed_cons.1 this.2).1.1

end FreeList

/-! ## The search of `my_free` -/

/-- The two exits of the loop of `my_free`. -/
def freeHit (m : Mem) (bp p : Nat) : Bool :=
  decide ((bp > p ∧ bp < next m p) ∨ (p ≥ next m p ∧ (bp > p ∨ bp < next m p)))

theorem freeFind_eq (m : Mem) (bp fuel p : Nat) :
    freeFind m bp fuel p = findAlong (next m) (freeHit m bp) fuel p := by
  induction fuel generalizing p with
  | zero => rfl
  | succ fuel ih =>
    unfold freeFind findAlong freeHit
    by_cases h1 : bp > p ∧ bp < next m p
    · rw [if_pos h1, if_pos (by simp [h1])]
    · by_cases h2 : p ≥ next m p ∧ (bp > p ∨ bp < next m p)
      · rw [if_neg h1, if_pos h2, if_pos (decide_eq_true (.inr h2))]
      · rw [if_neg h1, if_neg h2, if_neg fun hc => (of_decide_eq_true hc).elim h1 h2]
        exact ih (next m p)

/-- `e` can be given back: a block with its size in its header, apart from the free ones. -/
structure Freeable (base : Nat) (m : Mem) (fs : List Extent) (e : Extent) : Prop where
  sized : e.lo + sizeofHeader * size m e.lo = e.hi
  nonempty : e.lo < e.hi
  above : base + sizeofHeader ≤ e.lo
  below : e.hi ≤ 2 ^ 64
  apart : ∀ q ∈ fs, q.Apart e
  room : total fs + e.len < sizeofHeader * 2 ^ 32

section
variable {base : Nat} {m : Mem} {fs u v : List Extent} {p e : Extent}
  (h : FreeList base m fs) (he : Freeable base m fs e)
  (hsplit : root base :: fs = u ++ p :: v)
  (hpe : ∀ q ∈ u ++ [p], q.hi ≤ e.lo) (hev : ∀ q ∈ v, e.hi ≤ q.lo)

include h he hsplit hpe hev

theorem freeHit_place : freeHit m e.lo p.lo = true := by
  have hp := h.header_le (d := p) (by rw [hsplit]; simp) (hpe p (by simp)) he.above
  have hnext := h.next_eq hsplit
  have hbase := h.base_le (d := p) (by rw [hsplit]; simp)
  have hne := he.nonempty
  simp only [sizeofHeader] at hp
  refine decide_eq_true ?_
  rw [hnext]
  cases v with
  | nil => simp only [after_nil]; omega
  | cons q v =>
    have := hev q List.mem_cons_self
    simp only [after_cons]
    omega

/-- The place of `bp` is the only exit of the loop. -/
theorem freeHit_unique {d : Extent} (hd : d ∈ root base :: fs) (hit : freeHit m e.lo d.lo = true) :
    d = p := by
  have hit := of_decide_eq_true hit
  have hg := h.gapped_root
  have hne := he.nonempty
  rw [hsplit, List.mem_append, List.mem_cons] at hd
  rcases hd with hd | rfl | hd
  · -- before the place: the successor still starts before `bp`
    exfalso
    obtain ⟨u1, u2, rfl⟩ := List.append_of_mem hd
    have hs : root base :: fs = u1 ++ d :: (u2 ++ p :: v) := by rw [hsplit]; simp
    rw [h.next_eq hs] at hit
    obtain ⟨r, hr, hra⟩ : ∃ r ∈ u2 ++ [p], after base (u2 ++ p :: v) = r.lo := by
      cases u2 with
      | nil => exact ⟨p, by simp, rfl⟩
      | cons q u2 => exact ⟨q, by simp, rfl⟩
    have hmem : ∀ q ∈ u2 ++ [p], q ∈ u1 ++ d :: u2 ++ [p] := by
      intro q hq
      rw [List.append_assoc, List.cons_append]
      exact List.mem_append_right _ (List.mem_cons_of_mem _ hq)
    have hrm : r ∈ root base :: fs := by
      rw [hsplit, List.append_cons]
      exact List.mem_append_left _ (hmem r hr)
    rw [hs] at hg
    have hrv : r ∈ u2 ++ p :: v := by
      rw [List.append_cons]
      exact List.mem_append_left _ hr
    have hdr : d.hi < r.lo :=
      (List.pairwise_cons.1 (List.pairwise_append.1 hg).2.1).1 r hrv
    have hdl := h.lo_le_hi d (by rw [hs]; simp)
    have hrl := h.lo_le_hi r hrm
    have hre := hpe r (hmem r hr)
    omega
  · rfl
  · -- behind the place: `bp` is below, and the successor is above or `base`
    exfalso
    obtain ⟨v1, v2, rfl⟩ := List.append_of_mem hd
    have hs : root base :: fs = (u ++ p :: v1) ++ d :: v2 := by rw [hsplit]; simp
    rw [h.next_eq hs] at hit
    have hed := hev d (by simp)
    have hb := he.above
    simp only [sizeofHeader] at hb
    cases v2 with
    | nil => simp only [after_nil] at hit; omega
    | cons r v2 =>
      rw [hs] at hg
      have hdr : d.hi < r.lo :=
        (List.pairwise_cons.1 (List.pairwise_append.1 hg).2.1).1 r List.mem_cons_self
      have hdl := h.lo_le_hi d (by rw [hs]; simp)
      simp only [after_cons] at hit
      omega

/-- From every node of the ring the search ends at the place of `bp`. -/
theorem freeFind_place {x : Nat} (hx : x ∈ base :: fs.map Extent.lo) :
    freeFind m e.lo (fs.length + 1) x = some p.lo := by
  have hring := h.ring
  have hpm : p ∈ root base :: fs := by rw [hsplit]; simp
  obtain ⟨k, hk, hkp⟩ := hring.reach hx (y := p.lo) (List.mem_map_of_mem (f := Extent.lo) hpm)
  have hp := freeHit_place h he hsplit hpe hev
  rw [← hkp] at hp
  obtain ⟨j, hj, hf, hit, -⟩ := findAlong_of_hit hp
  obtain ⟨d, hd, hdj⟩ : ∃ d ∈ root base :: fs, d.lo = (next m)^[j] x :=
    List.mem_map.1 (hring.iterate_mem hx j)
  rw [← hdj] at hit hf
  rw [freeHit_unique h he hsplit hpe hev hd hit] at hf
  rw [freeFind_eq]
  simp only [List.length_cons, List.length_map] at hk
  exact findAlong_mono (by omega) hf

end

/-! ## `my_free` -/

/-- What giving `e` back does: `fs'` is `fs` and `e`, and nothing outside of these and of
the header `base` is written. -/
structure Freed (base : Nat) (m m' : Mem) (fs fs' : List Extent) (e : Extent) : Prop where
  list : FreeList base m' fs'
  covered_iff : ∀ x, covered fs' x ↔ e.Has x ∨ covered fs x
  total_eq : total fs' = total fs + e.len
  frame : ∀ x, ¬ covered fs x → ¬ e.Has x → (x < base ∨ base + sizeofHeader ≤ x) → m' x = m x

/-- The place of `e`: the last block before it, `base` at least, and the blocks behind. -/
theorem FreeList.exists_place {base : Nat} {m : Mem} {fs : List Extent} {e : Extent}
    (h : FreeList base m fs) (he : Freeable base m fs e) :
    ∃ u p v, root base :: fs = u ++ p :: v ∧ (∀ q ∈ u ++ [p], q.hi ≤ e.lo) ∧ ∀ q ∈ v, e.hi ≤ q.lo := by
  obtain ⟨u, v, hfs, hu, hv⟩ := Extents.exists_place h.gapped h.nonempty he.apart
  have hroot : (root base).hi ≤ e.lo := by
    have := he.above
    simp only [root]
    omega
  have hu' : ∀ q ∈ root base :: u, q.hi ≤ e.lo := List.forall_mem_cons.2 ⟨hroot, hu⟩
  obtain ⟨w, p, hw⟩ := List.eq_nil_or_concat (root base :: u) |>.resolve_left (by simp)
  rw [List.concat_eq_append] at hw
  exact ⟨w, p, v, by rw [hfs, ← List.cons_append, hw, List.append_assoc]; rfl, hw ▸ hu', hv⟩

/-- The blocks behind `e` are free blocks, so not `base`. -/
theorem FreeList.mem_behind {base : Nat} {m : Mem} {fs u v : List Extent} {p e : Extent}
    (_h : FreeList base m fs) (he : Freeable base m fs e) (hsplit : root base :: fs = u ++ p :: v)
    (hev : ∀ q ∈ v, e.hi ≤ q.lo) : ∀ q ∈ v, q ∈ fs := fun q hq => by
  have hmem : q ∈ root base :: fs := by
    rw [hsplit]; exact List.mem_append_right _ (List.mem_cons_of_mem _ hq)
  rcases List.mem_cons.1 hmem with rfl | hq'
  · have h1 := hev _ hq
    have h2 := he.above
    have h3 := he.nonempty
    simp only [root] at h1
    omega
  · exact hq'

theorem FreeList.behind_nonempty {base : Nat} {m : Mem} {fs u v : List Extent} {p e : Extent}
    (h : FreeList base m fs) (he : Freeable base m fs e) (hsplit : root base :: fs = u ++ p :: v)
    (hev : ∀ q ∈ v, e.hi ≤ q.lo) : ∀ q ∈ v, q.lo < q.hi := fun q hq =>
  h.nonempty q (h.mem_behind he hsplit hev q hq)

section
variable {base : Nat} {m : Mem} {fs u v : List Extent} {p e : Extent}
  (h : FreeList base m fs) (he : Freeable base m fs e) (hb : base < 2 ^ 64)
  (hsplit : root base :: fs = u ++ p :: v)
  (hpe : ∀ q ∈ u ++ [p], q.hi ≤ e.lo) (hev : ∀ q ∈ v, e.hi ≤ q.lo)

include h he hb hsplit hpe hev

/-- The two joins link `e` in at its place. -/
theorem joins_listed :
    Listed base (joinLower (joinUpper m e.lo p.lo) e.lo p.lo) (u ++ glue p (glue e v)) := by
  have hlist := h.listed
  rw [hsplit, Listed.append_iff] at hlist
  obtain ⟨⟨hul, hus⟩, hpv⟩ := hlist
  obtain ⟨⟨hpn, hps⟩, hv⟩ := listed_cons.1 hpv
  have hmem : ∀ q ∈ u ++ [p], q ∈ root base :: fs := fun q hq => by
    rw [hsplit, List.append_cons]; exact List.mem_append_left _ hq
  have hps' := he.sized
  have hne := he.nonempty
  have habove := he.above
  have hbelow := he.below
  have hroom := he.room
  -- headers of the blocks before `e` end before it, those behind start behind it
  have hbefore : ∀ q ∈ u ++ [p], q.lo + sizeofHeader ≤ e.lo := fun q hq =>
    h.header_le (hmem q hq) (hpe q hq) habove
  have hesz : e.lo + sizeofHeader ≤ e.hi := by simp only [sizeofHeader] at hps' ⊢; omega
  have hbehind : ∀ q ∈ v, e.lo + sizeofHeader ≤ q.lo := fun q hq => hesz.trans (hev q hq)
  have hvlt := h.behind_nonempty he hsplit hev
  have hv64 : ∀ q ∈ v, q.lo < 2 ^ 64 := fun q hq =>
    Nat.lt_of_lt_of_le (hvlt q hq) (h.below q (h.mem_behind he hsplit hev q hq))
  have hvtot : total (root base :: fs) = total u + (p.len + total v) := by
    rw [hsplit, total_append, total_cons]
  have hroot : (root base).len = 0 := Nat.sub_self base
  rw [total_cons, hroot] at hvtot
  -- first join: `e` and the blocks behind it
  have hsep : Sep e.lo p.lo := .inr (hbefore p (by simp))
  have h1 : Listed base (joinUpper m e.lo p.lo) (glue e v) := by
    rw [joinUpper_eq hsep, hpn]
    refine join_listed hv hps' hev (fun q hq => .inl (hbehind q hq)) (fun _ => ?_) hb hv64 (by omega)
    simp only [sizeofHeader] at habove
    omega
  have ho1 : OffHeader e.lo m (joinUpper m e.lo p.lo) := by
    rw [joinUpper_eq hsep]; exact offHeader_join m _ _
  generalize joinUpper m e.lo p.lo = m1 at h1 ho1
  -- second join: the block before `e` and these
  have hlo : ∀ q ∈ glue e v, e.lo ≤ q.lo ∧ q.lo < 2 ^ 64 := fun q hq => by
    rcases lo_of_mem_glue hq with hq | ⟨r, hr, hq⟩
    · omega
    · have := hev r hr; have := hv64 r hr; omega
  have hplo := hbefore p (by simp)
  have hafter : after base (glue e v) = e.lo := by
    obtain ⟨x, w, hw⟩ := glue_head e v
    rw [hw, after_cons]
  have h2 : Listed base (joinLower m1 e.lo p.lo) (glue p (glue e v)) := by
    rw [joinLower_eq, ← hafter]
    refine join_listed h1 ?_ (fun q hq => (hpe p (by simp)).trans (hlo q hq).1)
      (fun q hq => .inl (hplo.trans (hlo q hq).1)) (fun hnil => absurd hnil (glue_ne_nil e v)) hb
      (fun q hq => (hlo q hq).2) ?_
    · rw [ho1.size_eq hsep]; exact hps
    · rw [total_glue (Nat.le_of_lt hne) fun q hq => Nat.le_of_lt (hvlt q hq)]
      omega
  have ho2 : OffHeader p.lo m1 (joinLower m1 e.lo p.lo) := offHeader_join m1 p.lo e.lo
  -- the blocks before `p` keep their headers
  have hkeep : ∀ q ∈ u, Sep e.lo q.lo ∧ Sep p.lo q.lo := fun q hq =>
    ⟨.inr (hbefore q (List.mem_append_left _ hq)), (h.sep hsplit).1 q hq⟩
  obtain ⟨x, w, hw⟩ := glue_head p (glue e v)
  rw [hw] at h2 ⊢
  refine Listed.append_iff.2 ⟨⟨links_transport hul fun a ha => ?_, fun q hq => ?_⟩, h2⟩
  · obtain ⟨q, hq, rfl⟩ := List.mem_map.1 ha
    rw [ho2.next_eq (hkeep q hq).2, ho1.next_eq (hkeep q hq).1]
  · rw [ho2.size_eq (hkeep q hq).2, ho1.size_eq (hkeep q hq).1]
    exact hus q hq

theorem joins_freed : ∃ fs', root base :: fs' = u ++ glue p (glue e v) ∧
    Freed base m (joinLower (joinUpper m e.lo p.lo) e.lo p.lo) fs fs' e := by
  have hlist := joins_listed h he hb hsplit hpe hev
  have hpm : p ∈ root base :: fs := by rw [hsplit]; simp
  have hpl := h.lo_le_hi p hpm
  have hne := he.nonempty
  have habove := he.above
  have hv := h.behind_nonempty he hsplit hev
  have hg := h.gapped_root
  rw [hsplit] at hg
  have hg' := gapped_release hne hv hg hpl (hpe p (by simp)) hev
  have hcov : ∀ x, covered (u ++ glue p (glue e v)) x ↔ e.Has x ∨ covered (root base :: fs) x :=
    fun x => by rw [hsplit]; exact covered_release hpl hne hv x
  have htot : total (u ++ glue p (glue e v)) = total (root base :: fs) + e.len := by
    rw [hsplit]; exact total_release hpl hne hv
  have hnonempty : ∀ q ∈ u ++ glue p (glue e v), q.lo < q.hi ∨ q ∈ root base :: fs := by
    intro q hq
    rcases List.mem_append.1 hq with hq | hq
    · exact .inr (by rw [hsplit]; exact List.mem_append_left _ hq)
    · rcases glue_nonempty hpl (glue_lt hne hv) q hq with hq | rfl
      · exact .inl hq
      · exact .inr hpm
  -- the list still starts with `base`
  obtain ⟨fs', hfs'⟩ : ∃ fs', u ++ glue p (glue e v) = root base :: fs' := by
    cases u with
    | nil =>
      obtain ⟨rfl, -⟩ := List.cons.inj hsplit
      obtain ⟨x, w, hw⟩ := glue_head e v
      refine ⟨glue e v, ?_⟩
      simp only [sizeofHeader] at habove
      rw [List.nil_append, hw, glue, if_neg (by simp only [root]; omega)]
    | cons q u => exact ⟨u ++ glue p (glue e v), by rw [← (List.cons.inj hsplit).1]; rfl⟩
  rw [hfs'] at hlist hg' hcov htot hnonempty
  obtain ⟨hroot, hgapped⟩ := List.pairwise_cons.1 hg'
  have hempty : ∀ x, ¬ (root base).Has x := fun x hx => by
    simp only [Extent.Has, root] at hx; omega
  simp only [covered_cons, hempty, false_or] at hcov
  have hlen : (root base).len = 0 := Nat.sub_self base
  rw [total_cons, total_cons, hlen, Nat.zero_add, Nat.zero_add] at htot
  have hlt : ∀ q ∈ fs', q.lo < q.hi := fun q hq => by
    rcases hnonempty q (List.mem_cons_of_mem _ hq) with h1 | h1
    · exact h1
    · rcases List.mem_cons.1 h1 with rfl | h1
      · exact absurd (hroot _ hq) (Nat.lt_irrefl _)
      · exact h.nonempty q h1
  -- the ends of a block are addresses of `e` or of an old block
  have hends : ∀ q ∈ fs', base + sizeofHeader ≤ q.lo ∧ q.hi ≤ 2 ^ 64 := fun q hq => by
    have hq' := hlt q hq
    have hin : ∀ x, q.Has x → base + sizeofHeader ≤ x ∧ x < 2 ^ 64 := fun x hx => by
      have hbelow := he.below
      rcases (hcov x).1 ⟨q, hq, hx⟩ with hx | ⟨r, hr, hx⟩
      · simp only [Extent.Has] at hx; omega
      · have h1 := h.above r hr
        have h2 := h.below r hr
        simp only [Extent.Has] at hx
        omega
    have h1 := hin q.lo ⟨Nat.le_refl _, hq'⟩
    have h2 := hin (q.hi - 1) ⟨by omega, by omega⟩
    omega
  refine ⟨fs', hfs'.symm, ⟨hlist, hgapped, fun q hq => (hends q hq).1, hlt, fun q hq => (hends q hq).2⟩,
    hcov, htot, fun x hxf hxe hxb => ?_⟩
  have hsep : Sep e.lo p.lo := .inr (h.header_le hpm (hpe p (by simp)) habove)
  have ho1 : OffHeader e.lo m (joinUpper m e.lo p.lo) := by
    rw [joinUpper_eq hsep]; exact offHeader_join m _ _
  have ho2 : OffHeader p.lo (joinUpper m e.lo p.lo) (joinLower (joinUpper m e.lo p.lo) e.lo p.lo) :=
    offHeader_join _ p.lo e.lo
  rw [ho2 x, ho1 x]
  · exact header_out he.sized hne hxe
  · rcases List.mem_cons.1 hpm with rfl | hpm
    · exact hxb
    · exact header_out (h.listed.sized p (List.mem_cons_of_mem _ hpm)) (h.nonempty p hpm)
        fun hx => hxf ⟨p, hpm, hx⟩

end

/-- **`my_free`.**  From every position of `freep` it returns, with the block in its place. -/
theorem myFree_spec {base : Nat} {h : Heap} {fs : List Extent} {e : Extent}
    (hl : FreeList base h.mem fs) (he : Freeable base h.mem fs e) (hb : base < 2 ^ 64)
    (hfreep : h.freep ∈ base :: fs.map Extent.lo) :
    ∃ fs' m' p, myFree (fs.length + 1) (e.lo + sizeofHeader) h = some { h with mem := m', freep := p } ∧
      p ∈ base :: fs'.map Extent.lo ∧ Freed base h.mem m' fs fs' e := by
  obtain ⟨u, p, v, hsplit, hpe, hev⟩ := hl.exists_place he
  obtain ⟨fs', hfs', hfreed⟩ := joins_freed hl he hb hsplit hpe hev
  refine ⟨fs', _, p.lo, ?_, ?_, hfreed⟩
  · unfold myFree
    simp only [Nat.add_sub_cancel, freeFind_place hl he hsplit hpe hev hfreep]
  · obtain ⟨x, w, hw⟩ := glue_head p (glue e v)
    have : p.lo ∈ (root base :: fs').map Extent.lo := by
      rw [hfs', hw]; simp
    exact this

theorem freeFind_mono {m : Mem} {bp fuel fuel' p q : Nat} (hle : fuel ≤ fuel')
    (h : freeFind m bp fuel p = some q) : freeFind m bp fuel' p = some q := by
  rw [freeFind_eq] at h ⊢
  exact findAlong_mono hle h

theorem myFree_mono {fuel fuel' ap : Nat} {h h' : Heap} (hle : fuel ≤ fuel')
    (hf : myFree fuel ap h = some h') : myFree fuel' ap h = some h' := by
  unfold myFree at hf ⊢
  cases hp : freeFind h.mem (ap - sizeofHeader) fuel h.freep with
  | none => simp only [hp] at hf; cases hf
  | some p =>
    simp only [hp] at hf
    simp only [freeFind_mono hle hp]
    exact hf

end CPrograms.Malloc
