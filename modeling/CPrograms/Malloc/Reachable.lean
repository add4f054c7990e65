import CPrograms.Malloc.Alloc

/-!
# The allocator over whole runs

`SbrkOk` is what the allocator assumes of `sbrk`: the regions it grants lie above `base`
and apart from each other, and are below `2 ^ 32` units in all.  Under it every run of
calls and client writes keeps `Inv`: the free list is well formed, the header of every live
block still holds its size, and free and live blocks are a partition of the granted
memory.
-/

namespace CPrograms.Malloc

open ByteMem CInts Extents Rings Runs

/-! ## The invariant -/

/-- The block of a live pointer, its header included. -/
def Live.block (l : Live) : Extent :=
  ⟨l.ptr - sizeofHeader, l.ptr - sizeofHeader + sizeofHeader * nunits l.nbytes⟩

def region (g : Nat × Int) : Extent := ⟨g.1, ((g.1 : Int) + g.2).toNat⟩

def granted (os : Os) : List Extent := os.grants.map region

def liveBlocks (live : List Live) : List Extent := live.map Live.block

structure SbrkOk (base : Nat) (os : Os) : Prop where
  above : ∀ g ∈ granted os, base + sizeofHeader ≤ g.lo
  below : ∀ g ∈ granted os, g.hi ≤ 2 ^ 64
  apart : (granted os).Pairwise Extent.Apart
  bounded : total (granted os) < sizeofHeader * 2 ^ 32

structure Inv (base : Nat) (s : Sys) (fs : List Extent) : Prop where
  list : FreeList base s.heap.mem fs
  freep : s.heap.freep ∈ base :: fs.map Extent.lo
  request : ∀ l ∈ s.live, l.nbytes < 2 ^ 32 ∧ base + 2 * sizeofHeader ≤ l.ptr
  header : ∀ l ∈ s.live, size s.heap.mem (l.ptr - sizeofHeader) = nunits l.nbytes
  liveApart : (liveBlocks s.live).Pairwise Extent.Apart
  disjoint : ∀ x, covered fs x → ¬ covered (liveBlocks s.live) x
  covered_iff : ∀ x, covered fs x ∨ covered (liveBlocks s.live) x ↔ covered (granted s.heap.os) x
  total_eq : total fs + total (liveBlocks s.live) = total (granted s.heap.os)

theorem nunits_spec {nbytes : Nat} (h : nbytes < 2 ^ 32) :
    1 ≤ nunits nbytes ∧ nbytes ≤ sizeofHeader * (nunits nbytes - 1) ∧ nunits nbytes < 2 ^ 32 := by
  unfold nunits
  simp only [sizeofHeader]
  rw [Nat.mod_eq_of_lt (by omega)]
  omega

theorem apart_of_no_common {d e : Extent} (hd : d.lo < d.hi) (he : e.lo < e.hi)
    (h : ∀ x, d.Has x → ¬ e.Has x) : d.Apart e := by
  have h1 : ¬ e.Has d.lo := h d.lo ⟨Nat.le_refl _, hd⟩
  have h2 : ¬ d.Has e.lo := fun hx => h e.lo hx ⟨Nat.le_refl _, he⟩
  simp only [Extent.Has, Extent.Apart] at *
  omega

/-- The free list only depends on its own blocks and on the header `base`. -/
theorem FreeList.congr {base : Nat} {m m' : Mem} {fs : List Extent} (h : FreeList base m fs)
    (hm : ∀ x, covered fs x ∨ (base ≤ x ∧ x < base + sizeofHeader) → m' x = m x) :
    FreeList base m' fs := by
  have hkeep : ∀ d ∈ root base :: fs, ∀ x, d.lo ≤ x → x < d.lo + sizeofHeader → m' x = m x := by
    intro d hd x h1 h2
    apply hm
    rcases List.mem_cons.1 hd with rfl | hd
    · exact .inr ⟨h1, h2⟩
    · apply Classical.byContradiction
      intro hx
      have hout := header_out (h.listed.sized d (List.mem_cons_of_mem _ hd)) (h.nonempty d hd)
        fun hdx => hx (.inl ⟨d, hd, hdx⟩)
      omega
  simp only [sizeofHeader] at hkeep
  have hnext : ∀ d ∈ root base :: fs, next m' d.lo = next m d.lo := fun d hd =>
    loadLE_congr fun x h1 h2 => hkeep d hd x h1 (by omega)
  have hsize : ∀ d ∈ root base :: fs, size m' d.lo = size m d.lo := fun d hd =>
    loadLE_congr fun x h1 h2 => hkeep d hd x (by omega) (by omega)
  refine ⟨⟨links_transport h.listed.links fun a ha => ?_, fun d hd => ?_⟩, h.gapped, h.above,
    h.nonempty, h.below⟩
  · obtain ⟨d, hd, rfl⟩ := List.mem_map.1 ha
    exact hnext d hd
  · rw [hsize d hd]; exact h.listed.sized d hd

namespace Inv

variable {base : Nat} {s : Sys} {fs : List Extent}

theorem block_spec (h : Inv base s fs) {l : Live} (hl : l ∈ s.live) :
    base + sizeofHeader ≤ l.block.lo ∧ l.block.lo + sizeofHeader = l.ptr ∧
      l.block.hi = l.block.lo + sizeofHeader * nunits l.nbytes ∧ l.ptr + l.nbytes ≤ l.block.hi := by
  obtain ⟨hn, hp⟩ := h.request l hl
  obtain ⟨h1, h2, -⟩ := nunits_spec hn
  simp only [Live.block, sizeofHeader] at hp h2 ⊢
  refine ⟨?_, ?_, trivial, ?_⟩ <;> omega

theorem block_nonempty (h : Inv base s fs) {l : Live} (hl : l ∈ s.live) : l.block.lo < l.block.hi := by
  have := h.block_spec hl
  simp only [sizeofHeader] at this
  omega

theorem covered_block {l : Live} (hl : l ∈ s.live) {x : Nat} (hx : l.block.Has x) :
    covered (liveBlocks s.live) x := ⟨l.block, List.mem_map_of_mem hl, hx⟩

theorem freep_pos (h : Inv base s fs) (hb : 0 < base) : s.heap.freep ≠ 0 := by
  rcases List.mem_cons.1 h.freep with hf | hf
  · omega
  · obtain ⟨e, he, hf⟩ := List.mem_map.1 hf
    have := h.list.above e he
    omega

/-- A step that leaves the free list, the headers of the live blocks and the grants as they
are keeps the invariant. -/
theorem of_mem (h : Inv base s fs) {s' : Sys} (hlive : s'.live = s.live)
    (hfreep : s'.heap.freep = s.heap.freep) (hos : s'.heap.os.grants = s.heap.os.grants)
    (hm : ∀ x, covered fs x ∨ (base ≤ x ∧ x < base + sizeofHeader) ∨
      (∃ l ∈ s.live, l.block.lo ≤ x ∧ x < l.block.lo + sizeofHeader) →
      s'.heap.mem x = s.heap.mem x) : Inv base s' fs := by
  have hgr : granted s'.heap.os = granted s.heap.os := by rw [granted, granted, hos]
  refine ⟨h.list.congr fun x hx => hm x (hx.imp_right .inl), ?_, ?_, ?_, ?_, ?_, ?_, ?_⟩
  · rw [hfreep]; exact h.freep
  · rw [hlive]; exact h.request
  · rw [hlive]
    intro l hl
    rw [← h.header l hl]
    refine loadLE_congr fun x h1 h2 => hm x (.inr (.inr ⟨l, hl, ?_⟩))
    simp only [Live.block, sizeofHeader] at *
    omega
  · rw [hlive]; exact h.liveApart
  · rw [hlive]; exact h.disjoint
  · rw [hlive, hgr]; exact h.covered_iff
  · rw [hlive, hgr]; exact h.total_eq

/-! ## `my_free` -/

theorem freeable (h : Inv base s fs) (hos : SbrkOk base s.heap.os) {l : Live} (hl : l ∈ s.live) :
    Freeable base s.heap.mem fs l.block := by
  obtain ⟨h1, h2, h3, h4⟩ := h.block_spec hl
  have hne := h.block_nonempty hl
  have hhead := h.header l hl
  have hmem : l.block ∈ liveBlocks s.live := List.mem_map_of_mem hl
  have hlo : l.block.lo = l.ptr - sizeofHeader := rfl
  refine ⟨?_, hne, h1, ?_, fun q hq => ?_, ?_⟩
  · rw [hlo, hhead, ← hlo, h3]
  · obtain ⟨g, hg, -, hgx⟩ := (h.covered_iff (l.block.hi - 1)).1
      (.inr ⟨l.block, hmem, by omega, by omega⟩)
    have := hos.below g hg
    omega
  · exact apart_of_no_common (h.list.nonempty q hq) hne
      fun x hqx hx => h.disjoint x ⟨q, hq, hqx⟩ ⟨l.block, hmem, hx⟩
  · have := len_le_total hmem
    have := h.total_eq
    have := hos.bounded
    omega

theorem erase_perm {live : List Live} {l : Live} (hl : l ∈ live) :
    (liveBlocks live).Perm (l.block :: liveBlocks (live.erase l)) :=
  (List.perm_cons_erase hl).map Live.block

/-- `my_free` of a live pointer returns, and keeps the invariant. -/
theorem free (h : Inv base s fs) (hb : base < 2 ^ 64) (hos : SbrkOk base s.heap.os) {l : Live}
    (hl : l ∈ s.live) :
    ∃ fuel h' fs', myFree fuel l.ptr s.heap = some h' ∧ Inv base ⟨h', s.live.erase l⟩ fs' := by
  have hfree := h.freeable hos hl
  obtain ⟨fs', m', p, hrun, hp, hf⟩ := myFree_spec h.list hfree hb h.freep
  obtain ⟨h1, h2, -, -⟩ := h.block_spec hl
  rw [h2] at hrun
  have hperm := erase_perm hl
  have hsub : ∀ k ∈ s.live.erase l, k ∈ s.live := fun k hk => List.mem_of_mem_erase hk
  have hpair : (l.block :: liveBlocks (s.live.erase l)).Pairwise Extent.Apart :=
    (hperm.pairwise_iff fun h => Extent.Apart.symm h).1 h.liveApart
  obtain ⟨hlr, hrest⟩ := List.pairwise_cons.1 hpair
  have hcov : ∀ x, covered (liveBlocks s.live) x ↔
      l.block.Has x ∨ covered (liveBlocks (s.live.erase l)) x := fun x => by
    rw [covered_perm hperm, covered_cons]
  refine ⟨_, _, fs', hrun, hf.list, hp, fun k hk => h.request k (hsub k hk), fun k hk => ?_, hrest,
    fun x hx hx' => ?_, fun x => ?_, ?_⟩
  · -- the header of another live block is not written
    obtain ⟨k1, k2, -, -⟩ := h.block_spec (hsub k hk)
    rw [← h.header k (hsub k hk)]
    have hkm : k.block ∈ liveBlocks (s.live.erase l) := List.mem_map_of_mem hk
    refine loadLE_congr fun x hx1 hx2 => hf.frame x (fun hx => ?_) (fun hx => ?_) ?_
    · have hkx : k.block.Has x := by
        have := h.block_spec (hsub k hk)
        have := nunits_spec (h.request k (hsub k hk)).1
        simp only [Live.block, Extent.Has, sizeofHeader] at *
        omega
      exact h.disjoint x hx (covered_block (hsub k hk) hkx)
    · have := hlr k.block hkm
      have := h.block_nonempty (hsub k hk)
      have := nunits_spec (h.request k (hsub k hk)).1
      simp only [Live.block, Extent.Has, Extent.Apart, sizeofHeader] at *
      omega
    · simp only [Live.block, sizeofHeader] at *
      omega
  · rcases (hf.covered_iff x).1 hx with hx | hx
    · obtain ⟨e, he, hex⟩ := hx'
      have := hlr e he
      simp only [Extent.Has, Extent.Apart] at *
      omega
    · exact h.disjoint x hx ((hcov x).2 (.inr hx'))
  · show _ ↔ covered (granted s.heap.os) x
    rw [hf.covered_iff, ← h.covered_iff, hcov]
    tauto
  · have h1 := hf.total_eq
    have h2 := h.total_eq
    rw [total_perm hperm, total_cons] at h2
    show total fs' + total (liveBlocks (s.live.erase l)) = total (granted s.heap.os)
    omega

/-! ## `my_malloc` -/

/-- The live pointers after a `my_malloc nbytes` that returned `p`. -/
def grow (live : List Live) (p nbytes : Nat) : List Live :=
  if p = 0 then live else ⟨p, nbytes⟩ :: live

/-- Giving out the block `g` keeps the invariant. -/
theorem carve (h : Inv base s fs) {fs' : List Extent} {g : Extent} {m' : Mem} {x nbytes : Nat}
    (hn : nbytes < 2 ^ 32) (hc : Carved base s.heap.mem m' fs fs' g (nunits nbytes))
    (hx : x ∈ base :: fs'.map Extent.lo) :
    Inv base ⟨{ s.heap with mem := m', freep := x },
      grow s.live (g.lo + sizeofHeader) nbytes⟩ fs' := by
  obtain ⟨hn1, -, -⟩ := nunits_spec hn
  have habove := hc.above
  have hhi := hc.hi_eq
  have hgrow : grow s.live (g.lo + sizeofHeader) nbytes = ⟨g.lo + sizeofHeader, nbytes⟩ :: s.live :=
    if_neg (by simp only [sizeofHeader]; omega)
  have hblock : (⟨g.lo + sizeofHeader, nbytes⟩ : Live).block = g := by
    simp only [Live.block, Nat.add_sub_cancel, ← hhi]
  have hg : g.lo < g.hi := by
    simp only [sizeofHeader] at hhi
    omega
  have hfs : ∀ y, g.Has y ∨ covered fs' y → covered fs y := fun y => (hc.covered_iff y).2
  rw [hgrow]
  refine ⟨hc.list, hx, ?_, ?_, ?_, fun y hy hy' => ?_, fun y => ?_, ?_⟩
  · refine List.forall_mem_cons.2 ⟨⟨hn, ?_⟩, h.request⟩
    simp only [sizeofHeader] at habove ⊢
    omega
  · refine List.forall_mem_cons.2 ⟨by rw [Nat.add_sub_cancel]; exact hc.size_eq, fun l hl => ?_⟩
    have hl1 := h.block_spec hl
    have hl2 := nunits_spec (h.request l hl).1
    rw [← h.header l hl]
    refine loadLE_congr fun y h1 h2 => hc.frame y (fun hy => h.disjoint y hy ?_) ?_
    · refine covered_block hl ?_
      simp only [Live.block, Extent.Has, sizeofHeader] at *
      omega
    · simp only [Live.block, sizeofHeader] at *
      omega
  · refine List.pairwise_cons.2 ⟨fun e he => ?_, h.liveApart⟩
    obtain ⟨l, hl, rfl⟩ := List.mem_map.1 he
    rw [hblock]
    exact apart_of_no_common hg (h.block_nonempty hl) fun y hy hy' =>
      h.disjoint y (hfs y (.inl hy)) (covered_block hl hy')
  · rcases (covered_cons _ _ _).1 hy' with hy' | hy'
    · rw [hblock] at hy'
      obtain ⟨q, hq, hqy⟩ := hy
      have := hc.apart q hq
      simp only [Extent.Has, Extent.Apart] at *
      omega
    · exact h.disjoint y (hfs y (.inr hy)) hy'
  · show covered fs' y ∨ covered (Live.block _ :: liveBlocks s.live) y ↔ _
    rw [hblock, covered_cons, ← h.covered_iff, hc.covered_iff, or_left_comm, or_assoc]
  · show total fs' + total (Live.block _ :: liveBlocks s.live) = _
    rw [hblock, total_cons]
    have h1 := hc.total_eq
    have h2 := h.total_eq
    show _ = total (granted s.heap.os)
    omega

end Inv

/-- What `my_morecore nu` asks `sbrk` for. -/
def moreUnits (nu : Nat) : Nat := if nu < nalloc then nalloc else nu

/-- `sbrk` answers the next call, for `nu` units, with `a`. -/
def Os.after (os : Os) (nu : Nat) (a : Option Nat) : Os :=
  match a with
  | some cp => ⟨os.answers, os.calls + 1, (cp, toInt (nu * sizeofHeader : Nat)) :: os.grants⟩
  | none => ⟨os.answers, os.calls + 1, os.grants⟩

theorem sbrk_eq (os : Os) (nu : Nat) :
    sbrk (toInt (nu * sizeofHeader : Nat)) os =
      (os.answers os.calls, os.after nu (os.answers os.calls)) := by
  unfold sbrk Os.after
  cases os.answers os.calls <;> rfl

theorem myMorecore_eq (fuel nu : Nat) (h : Heap) :
    myMorecore fuel nu h =
      match h.os.answers h.os.calls with
      | none => some (0, { h with os := h.os.after (moreUnits nu) none })
      | some cp =>
        match myFree fuel (cp + sizeofHeader)
          ⟨setSize h.mem cp (moreUnits nu), h.freep, h.os.after (moreUnits nu) (some cp)⟩ with
        | none => none
        | some h => some (h.freep, h) := by
  unfold myMorecore
  dsimp only
  rw [show (if nu < nalloc then nalloc else nu) = moreUnits nu from rfl, sbrk_eq]
  cases h.os.answers h.os.calls <;> rfl

theorem moreUnits_spec {nbytes : Nat} (h : Fits nbytes) :
    nunits nbytes ≤ moreUnits (nunits nbytes) ∧ 0 < moreUnits (nunits nbytes) ∧
      moreUnits (nunits nbytes) * sizeofHeader < 2 ^ 31 := by
  unfold Fits at h
  simp only [nalloc, sizeofHeader] at h ⊢
  unfold moreUnits
  generalize nunits nbytes = n at *
  by_cases hlt : n < nalloc
  · rw [if_pos hlt]
    simp only [nalloc] at *
    omega
  · rw [if_neg hlt]
    simp only [nalloc] at hlt
    omega

/-- The region of a grant is a block of as many units as were asked for. -/
theorem granted_after {os : Os} {nu cp : Nat} (h : nu * sizeofHeader < 2 ^ 31) :
    granted (os.after nu (some cp)) = ⟨cp, cp + sizeofHeader * nu⟩ :: granted os := by
  have hr : region (cp, toInt (nu * sizeofHeader : Nat)) = ⟨cp, cp + sizeofHeader * nu⟩ := by
    rw [region, (toInt_natCast_iff _).2 h]
    congr 1
    rw [Nat.mul_comm]
    omega
  rw [granted, Os.after, List.map_cons, hr]
  rfl

namespace Inv

variable {base : Nat} {s : Sys} {fs : List Extent}

/-- **More memory.**  A fresh region joins the free list, which then has a block that is
large enough. -/
theorem morecore (h : Inv base s fs) (hb : base < 2 ^ 64) {nbytes cp : Nat} (hfits : Fits nbytes)
    (hans : s.heap.os.answers s.heap.os.calls = some cp)
    (hos : SbrkOk base (s.heap.os.after (moreUnits (nunits nbytes)) (some cp))) :
    ∃ h' fs', myMorecore (fs.length + 1) (nunits nbytes) s.heap = some (h'.freep, h') ∧
      Inv base ⟨h', s.live⟩ fs' ∧ ∃ q ∈ fs', nunits nbytes ≤ size h'.mem q.lo := by
  obtain ⟨hnu1, hnu2, hnu3⟩ := moreUnits_spec hfits
  generalize hnu : moreUnits (nunits nbytes) = nu at hos hnu1 hnu2 hnu3
  have hgr : granted (s.heap.os.after nu (some cp)) = ⟨cp, cp + sizeofHeader * nu⟩ :: granted s.heap.os :=
    granted_after hnu3
  obtain ⟨hab, hbe, hap, htot⟩ := hos
  rw [hgr] at hab hbe hap htot
  obtain ⟨habove, -⟩ := List.forall_mem_cons.1 hab
  obtain ⟨hbelow, -⟩ := List.forall_mem_cons.1 hbe
  obtain ⟨hfresh, -⟩ := List.pairwise_cons.1 hap
  rw [total_cons] at htot
  generalize he : (⟨cp, cp + sizeofHeader * nu⟩ : Extent) = e at *
  have hlo : e.lo = cp := by rw [← he]
  have hhi : e.hi = cp + sizeofHeader * nu := by rw [← he]
  have hne : e.lo < e.hi := by
    simp only [sizeofHeader] at hhi
    omega
  -- the region is no part of what was granted before
  have hout : ∀ x, e.Has x → ¬ covered (granted s.heap.os) x := by
    rintro x hx ⟨g, hg, hgx⟩
    have := hfresh g hg
    simp only [Extent.Has, Extent.Apart] at *
    omega
  have hoff := offHeader_setSize s.heap.mem cp nu
  have hhead : ∀ x, cp ≤ x → x < cp + sizeofHeader → e.Has x := fun x h1 h2 => by
    simp only [Extent.Has, sizeofHeader] at *
    omega
  have h0 : Inv base ⟨{ s.heap with mem := setSize s.heap.mem cp nu }, s.live⟩ fs := by
    refine h.of_mem rfl rfl rfl fun x hx => hoff x ?_
    apply Classical.byContradiction
    intro hx'
    have hex := hhead x (by omega) (by omega)
    rcases hx with hx | hx | ⟨l, hl, hx⟩
    · exact hout x hex ((h.covered_iff x).1 (.inl hx))
    · simp only [Extent.Has] at hex
      omega
    · refine hout x hex ((h.covered_iff x).1 (.inr (covered_block hl ?_)))
      have := h.block_spec hl
      have := nunits_spec (h.request l hl).1
      simp only [Extent.Has, sizeofHeader] at *
      omega
  have htl := h.total_eq
  have hfree : Freeable base (setSize s.heap.mem cp nu) fs e := by
    refine ⟨?_, hne, habove, hbelow, fun q hq => ?_, by omega⟩
    · rw [hlo, size_setSize, Nat.mod_eq_of_lt (by simp only [sizeofHeader] at hnu3; omega), hhi]
    · exact apart_of_no_common (h.list.nonempty q hq) hne
        fun x hqx hx => hout x hx ((h.covered_iff x).1 (.inl ⟨q, hq, hqx⟩))
  obtain ⟨fs', m', p, hrun, hp, hf⟩ := myFree_spec
    (h := ⟨setSize s.heap.mem cp nu, s.heap.freep, s.heap.os.after nu (some cp)⟩) h0.list hfree hb h0.freep
  have hinv : Inv base ⟨⟨m', p, s.heap.os.after nu (some cp)⟩, s.live⟩ fs' := by
    refine ⟨hf.list, hp, h.request, fun l hl => ?_, h.liveApart, fun x hx hx' => ?_, fun x => ?_, ?_⟩
    · have hl1 := h.block_spec hl
      have hl2 := nunits_spec (h.request l hl).1
      rw [← h0.header l hl]
      refine loadLE_congr fun x h1 h2 => ?_
      have hx : covered (liveBlocks s.live) x := by
        refine covered_block hl ?_
        simp only [Live.block, Extent.Has, sizeofHeader] at *
        omega
      refine hf.frame x (fun hxf => h.disjoint x hxf hx)
        (fun hxe => hout x hxe ((h.covered_iff x).1 (.inr hx))) ?_
      simp only [Live.block, sizeofHeader] at *
      omega
    · rcases (hf.covered_iff x).1 hx with hx | hx
      · exact hout x hx ((h.covered_iff x).1 (.inr hx'))
      · exact h.disjoint x hx hx'
    · show _ ↔ covered (granted (s.heap.os.after nu (some cp))) x
      rw [hgr, covered_cons, ← h.covered_iff, hf.covered_iff, or_assoc]
    · show total fs' + total (liveBlocks s.live) = total (granted (s.heap.os.after nu (some cp)))
      rw [hgr, total_cons, hf.total_eq]
      omega
  refine ⟨_, fs', ?_, hinv, ?_⟩
  · rw [myMorecore_eq, hans, hnu]
    rw [hlo] at hrun
    simp only [hrun]
  · obtain ⟨q, hq, hq1, hq2⟩ := exists_superset hf.list.gapped hne fun x hx => (hf.covered_iff x).2 (.inl hx)
    have hqs := hf.list.listed.sized q (List.mem_cons_of_mem _ hq)
    refine ⟨q, hq, ?_⟩
    show nunits nbytes ≤ size m' q.lo
    simp only [sizeofHeader] at hqs hhi
    omega

end Inv

end CPrograms.Malloc
