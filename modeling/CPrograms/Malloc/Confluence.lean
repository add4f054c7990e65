import CPrograms.Malloc.Runs

/-!
# The order of frees does not matter

Under the invariant the free list is coalesced, so it is a function of the addresses that
are granted and not live (`Inv.free_blocks_eq`).  Two runs that free the same blocks in
different orders end with the same live blocks, so with the same free blocks; and a
`my_malloc` that is undone at once by `my_free` leaves what was there before.
-/

namespace CPrograms.Malloc

open ByteMem Extents Rings Runs

/-- The address `x` is granted, and in no live block. -/
def IsFree (s : Sys) (x : Nat) : Prop :=
  covered (granted s.heap.os) x ∧ ¬ covered (liveBlocks s.live) x

/-- The free blocks of a state: none before the first call, then what the walk finds. -/
structure FreeBlocks (base : Nat) (s : Sys) (fs : List Extent) : Prop where
  start : s.heap.freep = 0 → fs = []
  ring : s.heap.freep ≠ 0 → FreeRing base s fs

def frees (ls : List Live) : List Event := ls.map fun l => .free l.ptr

namespace Inv

variable {base : Nat} {s t : Sys} {fs fs' : List Extent}

theorem covered_eq (h : Inv base s fs) : covered fs = IsFree s := by
  funext x
  have h1 := h.covered_iff x
  have h2 := h.disjoint x
  simp only [IsFree, eq_iff_iff]
  tauto

/-- The free blocks are the maximal runs of free addresses. -/
theorem mem_iff (h : Inv base s fs) (e : Extent) : e ∈ fs ↔ MaximalRun (IsFree s) e := by
  rw [mem_iff_maximalRun h.list.gapped h.list.nonempty, h.covered_eq]

/-- **Canonical.**  What is free determines the free blocks. -/
theorem free_blocks_eq (h : Inv base s fs) (h' : Inv base t fs')
    (hfree : ∀ x, IsFree s x ↔ IsFree t x) : fs = fs' := by
  refine eq_of_covered h.list.gapped h'.list.gapped h.list.nonempty h'.list.nonempty fun x => ?_
  rw [h.covered_eq, h'.covered_eq]
  exact hfree x

theorem freeBlocks (h : Inv base s fs) (hb0 : 0 < base) : FreeBlocks base s fs :=
  ⟨fun hf => absurd hf (h.freep_pos hb0), fun _ => h.freeRing⟩

/-- Two live blocks have different pointers. -/
theorem ptr_inj (h : Inv base s fs) {l k : Live} (hl : l ∈ s.live) (hk : k ∈ s.live)
    (hptr : l.ptr = k.ptr) : l = k := by
  apply Classical.byContradiction
  intro hne
  have hsymm : Std.Symm fun l k : Live => l.block.Apart k.block := ⟨fun _ _ => Extent.Apart.symm⟩
  have hpair : s.live.Pairwise fun l k : Live => l.block.Apart k.block :=
    List.pairwise_map.1 h.liveApart
  have hap := hpair.forall hl hk hne
  have h1 := h.block_nonempty hl
  have h2 := h.block_nonempty hk
  have h3 : l.block.lo = k.block.lo := by simp only [Live.block, hptr]
  simp only [Extent.Apart] at hap
  omega

end Inv

/-! ## Frees, one after the other -/

section
variable {base : Nat} {s t : Sys} {fs : List Extent} {ls : List Live}
  (hb : base < 2 ^ 64)

include hb

/-- All live pointers of a list can be freed in its order. -/
theorem frees_return (h : Inv base s fs) (hos : SbrkOk base s.heap.os) (hnd : ls.Nodup)
    (hls : ∀ l ∈ ls, l ∈ s.live) : ∃ t, Run (Step base) s (frees ls) t := by
  induction ls generalizing s fs with
  | nil => exact ⟨s, .nil s⟩
  | cons l ls ih =>
    obtain ⟨hl, hls⟩ := List.forall_mem_cons.1 hls
    obtain ⟨hnl, hnd⟩ := List.nodup_cons.1 hnd
    obtain ⟨fuel, h', fs', hf, hinv⟩ := h.free hb hos hl
    have hos' : SbrkOk base h'.os := by rw [myFree_os hf]; exact hos
    obtain ⟨t, ht⟩ := ih hinv hos' hnd fun k hk =>
      (List.mem_erase_of_ne fun hkl => hnl (by rwa [← hkl])).2 (hls k hk)
    exact ⟨t, .cons (.free hl hf) ht⟩

/-- **Run of frees.**  The invariant is kept, and what is live afterwards does not depend
on the order. -/
theorem frees_run (hb0 : 0 < base) (h : Inv base s fs) (hos : SbrkOk base s.heap.os)
    (hls : ls.Subperm s.live) (hrun : Run (Step base) s (frees ls) t) :
    (∃ fs', Inv base t fs') ∧ t.heap.os = s.heap.os ∧ t.live = s.live.diff ls := by
  induction ls generalizing s fs with
  | nil =>
    cases hrun
    exact ⟨⟨fs, h⟩, rfl, rfl⟩
  | cons l ls ih =>
    cases hrun with
    | @cons _ u _ _ _ hstep hrest =>
      have hl : l ∈ s.live := hls.subset List.mem_cons_self
      obtain ⟨hu, hou⟩ : u.live = s.live.erase l ∧ u.heap.os = s.heap.os := by
        obtain ⟨e, he, hstep⟩ : ∃ e, Event.free l.ptr = e ∧ Step base s e u := ⟨_, rfl, hstep⟩
        cases hstep with
        | @free k fuel h' hk hf =>
          rw [h.ptr_inj hl hk (Event.free.inj he)]
          exact ⟨rfl, myFree_os hf⟩
        | malloc => cases he
        | write => cases he
      have hosu : SbrkOk base u.heap.os := by rw [hou]; exact hos
      obtain ⟨fsu, hinv⟩ := step_inv hb0 hb (.inr ⟨fs, h⟩) hstep hosu
      have hsub : ls.Subperm u.live := by
        rw [hu]
        exact (List.erase_cons_head l ls) ▸ hls.erase l
      obtain ⟨h1, h2, h3⟩ := ih hinv hosu hsub hrest
      exact ⟨h1, h2.trans hou, by rw [h3, hu, List.diff_cons]⟩

end

/-! ## A block given out and given back -/

/-- If `sbrk` was not called, a free block was large enough. -/
theorem Inv.fits_of_calls {base : Nat} {s : Sys} {fs : List Extent} (h : Inv base s fs)
    {n fuel p : Nat} {h' : Heap} (hn : 1 ≤ n)
    (hm : mallocLoop n fuel s.heap.freep (next s.heap.mem s.heap.freep) s.heap = some (p, h'))
    (hcalls : h'.os.calls = s.heap.os.calls) : ∃ q ∈ fs, n ≤ size s.heap.mem q.lo := by
  apply Classical.byContradiction
  intro hno
  obtain ⟨j, hj⟩ := mallocLoop_full h.list h.freep hn fun q hq =>
    Nat.lt_of_not_le fun hle => hno ⟨q, hq, hle⟩
  have hm' := mallocLoop_mono (show fuel ≤ fuel + 1 + j by omega) hm
  rw [hj] at hm'
  split at hm'
  · cases hm'
  · next q h1 hq =>
    -- `my_morecore` called it once
    have hmore : h1.os.calls = s.heap.os.calls + 1 := by
      rw [myMorecore_grants hq]
      cases s.heap.os.answers s.heap.os.calls <;> rfl
    have hle : h1.os.calls ≤ h'.os.calls := by
      split at hm'
      · cases hm'; exact Nat.le_refl _
      · exact mallocLoop_calls hm'
    omega

/-- **Undone.**  A block from the free list comes back to its place. -/
theorem Inv.malloc_free {base : Nat} {s : Sys} {fs : List Extent} (h : Inv base s fs)
    (hb : base < 2 ^ 64) (hsb : SbrkOk base s.heap.os) {nbytes fuel p : Nat} {h' : Heap}
    (hn : nbytes < 2 ^ 32)
    (hm : mallocLoop (nunits nbytes) fuel s.heap.freep (next s.heap.mem s.heap.freep) s.heap =
      some (p, h'))
    (hp : p ≠ 0) (hcalls : h'.os.calls = s.heap.os.calls) :
    ∃ fuel' h'', myFree fuel' p h' = some h'' ∧ Inv base ⟨h'', s.live⟩ fs := by
  obtain ⟨hn1, -, -⟩ := nunits_spec hn
  have hfit := h.fits_of_calls hn1 hm hcalls
  obtain ⟨fs', g, m', x, k, hrun, hc, hx⟩ := mallocLoop_fit h.list hb hn1 h.freep hfit
  have hm1 := mallocLoop_mono (Nat.le_max_left fuel k) hm
  have hm2 := mallocLoop_mono (Nat.le_max_right fuel k) hrun
  rw [hm1] at hm2
  obtain ⟨rfl, rfl⟩ := Prod.mk.inj (Option.some.inj hm2)
  have hinv := h.carve hn hc hx
  rw [grow, if_neg hp] at hinv
  obtain ⟨fuel', h'', fs'', hf, hinv''⟩ := hinv.free hb hsb
    (l := ⟨g.lo + sizeofHeader, nbytes⟩) List.mem_cons_self
  rw [List.erase_cons_head] at hinv''
  have hos'' : h''.os = s.heap.os := by
    have := myFree_os hf
    exact this
  have hfs : fs'' = fs := hinv''.free_blocks_eq h fun y => by simp only [IsFree, hos'']
  exact ⟨fuel', h'', hf, hfs ▸ hinv''⟩

/-- Without a region nothing is free. -/
theorem not_maximalRun {s : Sys} (h : granted s.heap.os = []) (e : Extent) : ¬ MaximalRun (IsFree s) e := by
  intro he
  have hgr := (he.inside e.lo ⟨Nat.le_refl _, he.nonempty⟩).1
  rw [h] at hgr
  exact absurd hgr (covered_nil _)

/-- **Confluence.**  After every run, live blocks freed in two orders leave the same free
blocks, the maximal runs of what is free; and a `my_malloc` that succeeds without `sbrk` is
undone by `my_free`. -/
theorem free_order {base : Nat} {s : Sys} {mem : Mem} {answers : Nat → Option Nat}
    {es : List Event} (hb0 : 0 < base) (hb : base < 2 ^ 64)
    (hrun : Run (Step base) (init mem answers) es s) (hos : SbrkOk base s.heap.os) :
    (∀ ls ls' : List Live, ls.Nodup → (∀ l ∈ ls, l ∈ s.live) → ls.Perm ls' →
      (∃ t, Run (Step base) s (frees ls) t) ∧
      ∀ t t', Run (Step base) s (frees ls) t → Run (Step base) s (frees ls') t' →
        t.live = t'.live ∧ ∃ fs, FreeBlocks base t fs ∧ FreeBlocks base t' fs ∧
          ∀ e, e ∈ fs ↔ MaximalRun (IsFree t) e) ∧
    ∀ (nbytes fuel p : Nat) (h : Heap), nbytes < 2 ^ 32 →
      myMalloc base fuel nbytes s.heap = some (p, h) → p ≠ 0 →
      h.os.calls = s.heap.os.calls →
      (∃ fuel' h', myFree fuel' p h = some h') ∧
      ∀ fuel' h', myFree fuel' p h = some h' →
        ∃ fs, FreeBlocks base s fs ∧ FreeBlocks base ⟨h', s.live⟩ fs := by
  have hgood := run_good hb0 hb hrun hos
  constructor
  · intro ls ls' hnd hls hperm
    rcases hgood with ⟨hf, hnil, hg⟩ | ⟨fs, h⟩
    · -- before the first call nothing is live
      obtain rfl : ls = [] := List.eq_nil_iff_forall_not_mem.2 fun l hl => by
        have := hls l hl
        rw [hnil] at this
        cases this
      obtain rfl := hperm.nil_eq
      refine ⟨⟨s, .nil s⟩, fun t t' ht ht' => ?_⟩
      cases ht
      cases ht'
      have hnone : FreeBlocks base s [] := ⟨fun _ => rfl, fun hne => absurd hf hne⟩
      have hgr : granted s.heap.os = [] := by rw [granted, hg]; rfl
      exact ⟨rfl, [], hnone, hnone, fun e =>
        iff_of_false List.not_mem_nil (not_maximalRun hgr e)⟩
    · refine ⟨frees_return hb h hos hnd hls, fun t t' ht ht' => ?_⟩
      have hsub : ls.Subperm s.live := List.subperm_of_subset hnd hls
      obtain ⟨⟨fs₁, h₁⟩, hos₁, hlive₁⟩ := frees_run hb hb0 h hos hsub ht
      obtain ⟨⟨fs₂, h₂⟩, hos₂, hlive₂⟩ := frees_run hb hb0 h hos (hperm.symm.subperm.trans hsub) ht'
      have hlive : t.live = t'.live := by rw [hlive₁, hlive₂, hperm.diff_left]
      have hfs : fs₁ = fs₂ := h₁.free_blocks_eq h₂ fun x => by
        simp only [IsFree, hos₁, hos₂, hlive]
      subst hfs
      exact ⟨hlive, fs₁, h₁.freeBlocks hb0, h₂.freeBlocks hb0, h₁.mem_iff⟩
  · intro nbytes fuel p h hn hm hp hsame
    obtain ⟨fs, hinv⟩ := hgood.initBase hb0 hb
    have hfs : FreeBlocks base s fs := by
      by_cases hf : s.heap.freep = 0
      · rcases hgood with ⟨-, -, hg⟩ | ⟨fs', h'⟩
        · refine ⟨fun _ => List.eq_nil_iff_forall_not_mem.2 fun q hq => ?_, fun hne => absurd hf hne⟩
          have hgr : granted (initBase base s.heap).os = [] := by rw [initBase_os, granted, hg]; rfl
          exact not_maximalRun hgr q ((hinv.mem_iff q).1 hq)
        · exact absurd hf (h'.freep_pos hb0)
      · have hinit : initBase base s.heap = s.heap := if_neg hf
        rw [hinit] at hinv
        exact hinv.freeBlocks hb0
    have hsame' : h.os.calls = (initBase base s.heap).os.calls := by rw [initBase_os]; exact hsame
    have hosb : SbrkOk base (initBase base s.heap).os := by rw [initBase_os]; exact hos
    obtain ⟨k, h', hf, hinv'⟩ := hinv.malloc_free hb hosb hn hm hp hsame'
    refine ⟨⟨k, h', hf⟩, fun fuel' h'' hf' => ?_⟩
    have h1 := myFree_mono (Nat.le_max_left k fuel') hf
    have h2 := myFree_mono (Nat.le_max_right k fuel') hf'
    rw [h1] at h2
    obtain rfl := Option.some.inj h2
    exact ⟨fs, hfs, hinv'.freeBlocks hb0⟩

theorem free_order_two : ∃ s t t' fs, s.live = [⟨81872, 8⟩, ⟨81904, 8⟩] ∧
    Run (Step 4096) s [.free 81872, .free 81904] t ∧ Run (Step 4096) s [.free 81904, .free 81872] t' ∧
    FreeBlocks 4096 t fs ∧ FreeBlocks 4096 t' fs ∧
    ∃ h fuel h' fs', myMalloc 4096 4 8 s.heap = some (81840, h) ∧ myFree fuel 81840 h = some h' ∧
      FreeBlocks 4096 s fs' ∧ FreeBlocks 4096 ⟨h', s.live⟩ fs' := by
  obtain ⟨s, hrun, hlive, -, hos, h, hm, hcalls⟩ := two_run
  obtain ⟨hfree, hback⟩ := free_order (by decide) (by decide) hrun hos
  have hls : ∀ l ∈ [(⟨81872, 8⟩ : Live), ⟨81904, 8⟩], l ∈ s.live := by rw [hlive]; simp
  obtain ⟨⟨t, ht⟩, hsame⟩ := hfree [⟨81872, 8⟩, ⟨81904, 8⟩] [⟨81904, 8⟩, ⟨81872, 8⟩] (by decide) hls
    (.swap _ _ _)
  obtain ⟨⟨t', ht'⟩, -⟩ := hfree [⟨81904, 8⟩, ⟨81872, 8⟩] [⟨81872, 8⟩, ⟨81904, 8⟩] (by decide)
    (fun l hl => hls l (List.mem_reverse.1 hl)) (.swap _ _ _)
  obtain ⟨-, fs, h1, h2, -⟩ := hsame t t' ht ht'
  obtain ⟨⟨fuel, h', hf⟩, hall⟩ := hback 8 4 81840 h (by decide) hm (by decide) hcalls
  obtain ⟨fs', h3, h4⟩ := hall fuel h' hf
  exact ⟨s, t, t', fs, hlive, ht, ht', h1, h2, h, fuel, h', fs', hm, hf, h3, h4⟩

end CPrograms.Malloc
