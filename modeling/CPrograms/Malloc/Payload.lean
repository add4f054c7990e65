import CPrograms.Malloc.Confluence

/-!
# What the clients of the allocator keep in their blocks

A call of `my_malloc` or `my_free` writes headers only: those of free blocks, of the block that is
freed and of a new region, and `base`.  So the bytes of a live block are what its client has
written to them, over every run of calls and writes of other blocks (`payload_kept`).
-/

namespace CPrograms.Malloc

open ByteMem Extents Rings Runs

/-! ## What a call writes -/

theorem freeFind_iterate {m : Mem} {bp fuel p q : Nat} (h : freeFind m bp fuel p = some q) :
    ∃ j, q = (next m)^[j] p := by
  induction fuel generalizing p with
  | zero => cases h
  | succ fuel ih =>
    rw [freeFind] at h
    split at h
    · exact ⟨0, (Option.some.inj h).symm⟩
    · split at h
      · exact ⟨0, (Option.some.inj h).symm⟩
      · obtain ⟨j, hj⟩ := ih h
        exact ⟨j + 1, hj⟩

theorem offHeader_joinUpper (m : Mem) (bp p : Nat) : OffHeader bp m (joinUpper m bp p) := by
  unfold joinUpper
  split
  · exact (offHeader_setSize m bp _).trans (offHeader_setNext _ bp _)
  · exact offHeader_setNext m bp _

/-- Bytes that are in no free block are in no header of one, nor is a byte behind `base`. -/
theorem FreeList.off_header {base : Nat} {m : Mem} {fs : List Extent} (h : FreeList base m fs) {p x : Nat}
    (hp : p ∈ base :: fs.map Extent.lo) (hx : ¬covered fs x) (hbase : x < base ∨ base + sizeofHeader ≤ x) :
    x < p ∨ p + sizeofHeader ≤ x := by
  rcases List.mem_cons.1 hp with rfl | hp
  · exact hbase
  · obtain ⟨d, hd, rfl⟩ := List.mem_map.1 hp
    exact header_out (h.listed.sized d (List.mem_cons_of_mem _ hd)) (h.nonempty d hd) fun hdx => hx ⟨d, hd, hdx⟩

theorem joins_frame {m : Mem} {bp p x : Nat} (hp : x < p ∨ p + sizeofHeader ≤ x)
    (hbp : x < bp ∨ bp + sizeofHeader ≤ x) :
    joinLower (joinUpper m bp p) bp p x = m x := by
  rw [joinLower_eq, offHeader_join _ _ _ x hp, offHeader_joinUpper _ _ _ x hbp]

/-- `my_free` writes the header of its block and that of a free one. -/
theorem myFree_frame {base : Nat} {h h' : Heap} {fs : List Extent} {fuel ap x : Nat}
    (hl : FreeList base h.mem fs)
    (hfreep : h.freep ∈ base :: fs.map Extent.lo) (hr : myFree fuel ap h = some h') (hx : ¬covered fs x)
    (hbase : x < base ∨ base + sizeofHeader ≤ x)
    (hap : x < ap - sizeofHeader ∨ ap - sizeofHeader + sizeofHeader ≤ x) :
    h'.mem x = h.mem x := by
  unfold myFree at hr
  dsimp only at hr
  generalize ap - sizeofHeader = bp at hr hap
  split at hr
  · cases hr
  · next p hp =>
    have hring : p ∈ base :: fs.map Extent.lo := by
      obtain ⟨j, rfl⟩ := freeFind_iterate hp
      exact hl.ring.iterate_mem hfreep j
    rw [← Option.some.inj hr]
    have hjoins := @joins_frame h.mem bp p x (hl.off_header hring hx hbase) hap
    dsimp only
    exact hjoins

namespace Inv

variable {base : Nat} {s : Sys} {fs : List Extent}

/-- The bytes of a live block are in no free one, and not in `base`. -/
theorem off_free (h : Inv base s fs) {l : Live} (hl : l ∈ s.live) {x : Nat} (hx : l.block.Has x) :
    ¬covered fs x ∧ (x < base ∨ base + sizeofHeader ≤ x) := by
  have hspec := h.block_spec hl
  refine ⟨fun hcov => h.disjoint x hcov (covered_block hl hx), .inr ?_⟩
  exact Nat.le_trans hspec.1 hx.1

/-- The header of another live block is off. -/
theorem off_block (h : Inv base s fs) {l k : Live} (hl : l ∈ s.live) (hk : k ∈ s.live) (hne : l ≠ k) {x : Nat}
    (hx : l.block.Has x) : x < k.ptr - sizeofHeader ∨ k.ptr - sizeofHeader + sizeofHeader ≤ x := by
  have hsymm : Std.Symm fun l k : Live => l.block.Apart k.block := ⟨fun _ _ => Extent.Apart.symm⟩
  have hpair : s.live.Pairwise fun l k : Live => l.block.Apart k.block := List.pairwise_map.1 h.liveApart
  have hap := hpair.forall hl hk hne
  have hspec := h.block_spec hk
  have hunits := nunits_spec (h.request k hk).1
  have hlo : k.block.lo = k.ptr - sizeofHeader := rfl
  simp only [Extent.Has, Extent.Apart, sizeofHeader] at *
  omega

/-- `my_morecore` writes in free blocks and in the new region. -/
theorem morecore_frame (h : Inv base s fs) {fuel nu p : Nat} {h' : Heap}
    (hnu : moreUnits nu * sizeofHeader < 2 ^ 31)
    (hpos : 0 < moreUnits nu)
    (hr : myMorecore fuel nu s.heap = some (p, h')) (hos : SbrkOk base h'.os) {l : Live}
    (hl : l ∈ s.live) {x : Nat} (hx : l.block.Has x) : h'.mem x = s.heap.mem x := by
  obtain ⟨hfree, hbase⟩ := h.off_free hl hx
  have hgrants := myMorecore_grants hr
  rw [myMorecore_eq] at hr
  split at hr
  · obtain ⟨-, rfl⟩ := Prod.mk.inj (Option.some.inj hr)
    rfl
  · next cp hans =>
    split at hr
    · cases hr
    · next h1 hf =>
      obtain ⟨-, rfl⟩ := Prod.mk.inj (Option.some.inj hr)
      rw [hgrants, hans] at hos
      obtain ⟨habove, -, hap, -⟩ := hos
      rw [granted_after hnu] at habove hap
      obtain ⟨habove, -⟩ := List.forall_mem_cons.1 habove
      obtain ⟨hfresh, -⟩ := List.pairwise_cons.1 hap
      -- what was granted before is off the header of the region
      have hout (y : Nat) (hy : covered (granted s.heap.os) y) : y < cp ∨ cp + sizeofHeader ≤ y := by
        obtain ⟨g, hg, hgy⟩ := hy
        have := hfresh g hg
        simp only [Extent.Has, Extent.Apart, sizeofHeader] at *
        omega
      have hlist : FreeList base (setSize s.heap.mem cp (moreUnits nu)) fs := by
        refine h.list.congr fun y hy => offHeader_setSize _ _ _ y ?_
        rcases hy with hy | hy
        · exact hout y ((h.covered_iff y).1 (.inl hy))
        · simp only [sizeofHeader] at *
          omega
      have hlive := hout x ((h.covered_iff x).1 (.inr (covered_block hl hx)))
      have hframe := @myFree_frame base
        ⟨setSize s.heap.mem cp (moreUnits nu), s.heap.freep,
          s.heap.os.after (moreUnits nu) (some cp)⟩ h1 fs fuel
        (cp + sizeofHeader) x hlist h.freep hf hfree hbase (by rw [Nat.add_sub_cancel]; exact hlive)
      exact hframe.trans (offHeader_setSize _ _ _ x hlive)

/-- `my_malloc` writes no byte of a live block. -/
theorem malloc_frame (h : Inv base s fs) (hb : base < 2 ^ 64) {nbytes fuel p : Nat} {h' : Heap}
    (hn : nbytes < 2 ^ 32) (hfits : Fits nbytes)
    (hr : mallocLoop (nunits nbytes) fuel s.heap.freep (next s.heap.mem s.heap.freep) s.heap = some (p, h'))
    (hos : SbrkOk base h'.os) {l : Live} (hl : l ∈ s.live) {x : Nat} (hx : l.block.Has x) :
    h'.mem x = s.heap.mem x := by
  obtain ⟨hn1, -, -⟩ := nunits_spec hn
  obtain ⟨-, hmore, hmore'⟩ := moreUnits_spec hfits
  obtain ⟨hfree, hbase⟩ := h.off_free hl hx
  by_cases hfit : ∃ q ∈ fs, nunits nbytes ≤ size s.heap.mem q.lo
  · obtain ⟨fs', g, m', y, fuel', hrun, hc, -⟩ := mallocLoop_fit h.list hb hn1 h.freep hfit
    have hr1 := mallocLoop_mono (Nat.le_max_left fuel fuel') hr
    have hr2 := mallocLoop_mono (Nat.le_max_right fuel fuel') hrun
    rw [hr1] at hr2
    obtain ⟨-, rfl⟩ := Prod.mk.inj (Option.some.inj hr2)
    exact hc.frame x hfree hbase
  · have hfull : ∀ q ∈ fs, size s.heap.mem q.lo < nunits nbytes := fun q hq =>
      Nat.lt_of_not_le fun hle => hfit ⟨q, hq, hle⟩
    obtain ⟨j, hj⟩ := mallocLoop_full h.list h.freep hn1 hfull
    have hr := mallocLoop_mono (show fuel ≤ fuel + 1 + j by omega) hr
    rw [hj] at hr
    split at hr
    · cases hr
    · next q h1 hq =>
      have hos1 : SbrkOk base h1.os := by
        split at hr
        · obtain ⟨-, rfl⟩ := Prod.mk.inj (Option.some.inj hr)
          exact hos
        · exact hos.of_suffix (mallocLoop_grants hr)
      have hframe := h.morecore_frame hmore' hmore hq hos1 hl hx
      split at hr
      · obtain ⟨-, rfl⟩ := Prod.mk.inj (Option.some.inj hr)
        exact hframe
      · next hq0 =>
        -- the second walk starts in the free list with the region
        cases hans : s.heap.os.answers s.heap.os.calls with
        | none =>
          rw [myMorecore_eq, hans] at hq
          obtain ⟨rfl, -⟩ := Prod.mk.inj (Option.some.inj hq)
          exact absurd rfl hq0
        | some cp =>
          have hgrants := myMorecore_grants hq
          rw [hans] at hgrants
          rw [hgrants] at hos1
          obtain ⟨h2, fs1, hmore1, hinv, hfit1⟩ := h.morecore hb hfits hans hos1
          have hq1 := myMorecore_mono (Nat.le_max_left fuel (fs.length + 1)) hq
          have hq2 := myMorecore_mono (Nat.le_max_right fuel (fs.length + 1)) hmore1
          rw [hq1] at hq2
          obtain ⟨rfl, rfl⟩ := Prod.mk.inj (Option.some.inj hq2)
          obtain ⟨fs', g, m', y, fuel', hrun, hc, -⟩ := mallocLoop_fit hinv.list hb hn1 hinv.freep hfit1
          have hr1 := mallocLoop_mono (Nat.le_max_left fuel fuel') hr
          have hr2 := mallocLoop_mono (Nat.le_max_right fuel fuel') hrun
          rw [hr1] at hr2
          obtain ⟨-, rfl⟩ := Prod.mk.inj (Option.some.inj hr2)
          obtain ⟨hfree1, -⟩ := hinv.off_free (s := ⟨h1, s.live⟩) hl hx
          exact (hc.frame x hfree1 hbase).trans hframe

end Inv

/-! ## Runs -/

/-- The byte at `x` behind an event, as the clients write it. -/
def written (x : Nat) (b : UInt8) : Event → UInt8
  | .write a c => if a = x then c else b
  | _ => b

def lastWritten (x : Nat) (b : UInt8) (es : List Event) : UInt8 := es.foldl (written x) b

/-- The bytes of a block that were asked for are in it, behind its header. -/
theorem Inv.has_payload {base : Nat} {s : Sys} {fs : List Extent} (h : Inv base s fs) {l : Live}
    (hl : l ∈ s.live)
    {i : Nat} (hi : i < l.nbytes) : l.block.Has (l.ptr + i) := by
  have hspec := h.block_spec hl
  simp only [Extent.Has]
  omega

/-- A step that does not free a block keeps it, and its bytes but for what is written to them. -/
theorem step_payload {base : Nat} {s t : Sys} {e : Event} (hb0 : 0 < base) (hb : base < 2 ^ 64)
    (hs : Good base s)
    (h : Step base s e t) (hos : SbrkOk base t.heap.os) {l : Live} (hl : l ∈ s.live) (he : e ≠ .free l.ptr) :
    l ∈ t.live ∧ ∀ i < l.nbytes, t.heap.mem (l.ptr + i) = written (l.ptr + i) (s.heap.mem (l.ptr + i)) e := by
  obtain ⟨fs, hinv⟩ : ∃ fs, Inv base s fs := by
    refine hs.resolve_left ?_
    rintro ⟨-, hnil, -⟩
    rw [hnil] at hl
    cases hl
  cases h with
  | @malloc nbytes fuel p h' hn hfits hm =>
    refine ⟨?_, fun i hi => ?_⟩
    · show l ∈ if p = 0 then s.live else ⟨p, nbytes⟩ :: s.live
      split
      · exact hl
      · exact List.mem_cons_of_mem _ hl
    · have hm : mallocLoop (nunits nbytes) fuel (initBase base s.heap).freep
          (next (initBase base s.heap).mem (initBase base s.heap).freep)
            (initBase base s.heap) = some (p, h') := hm
      have hinit : initBase base s.heap = s.heap := if_neg (hinv.freep_pos hb0)
      rw [hinit] at hm
      exact hinv.malloc_frame hb hn hfits hm hos hl (hinv.has_payload hl hi)
  | @free k fuel h' hk hf =>
    have hne : l ≠ k := by
      rintro rfl
      exact he rfl
    refine ⟨(List.mem_erase_of_ne hne).2 hl, fun i hi => ?_⟩
    have hx := hinv.has_payload hl hi
    obtain ⟨hfree, hbase⟩ := hinv.off_free hl hx
    exact myFree_frame hinv.list hinv.freep hf hfree hbase (hinv.off_block hl hk hne hx)
  | @write k i b hk hi =>
    refine ⟨hl, fun j hj => ?_⟩
    show Function.update s.heap.mem (k.ptr + i) b (l.ptr + j) = if k.ptr + i = l.ptr + j then b else _
    split
    · next heq => rw [heq, Function.update_self]
    · next hne => rw [Function.update_of_ne (Ne.symm hne)]

theorem run_grants {base : Nat} {s t : Sys} {es : List Event} (h : Run (Step base) s es t) :
    s.heap.os.grants <:+ t.heap.os.grants := by
  induction h with
  | nil s => exact List.suffix_refl _
  | cons hstep _ ih => exact (step_grants hstep).trans ih

/-- **The bytes of the clients.**  Until a block is freed its bytes are what was last written to them, or
what they were before, whatever else is requested, freed and written. -/
theorem payload_kept {base : Nat} {s t : Sys} {mem : Mem} {answers : Nat → Option Nat} {es fs : List Event}
    (hb0 : 0 < base) (hb : base < 2 ^ 64) (hrun : Run (Step base) (init mem answers) es s)
    (hrest : Run (Step base) s fs t) (hos : SbrkOk base t.heap.os) {l : Live} (hl : l ∈ s.live)
    (hfree : .free l.ptr ∉ fs) : l ∈ t.live ∧
      ∀ i < l.nbytes, t.heap.mem (l.ptr + i) = lastWritten (l.ptr + i) (s.heap.mem (l.ptr + i)) fs := by
  induction hrest generalizing es with
  | nil s => exact ⟨hl, fun i _ => rfl⟩
  | @cons s u t e fs hstep hrest ih =>
    rw [List.mem_cons, not_or] at hfree
    have hosu := hos.of_suffix (run_grants hrest)
    have hgood := run_good hb0 hb hrun (hosu.of_suffix (step_grants hstep))
    obtain ⟨hlu, hbytes⟩ := step_payload hb0 hb hgood hstep hosu hl (Ne.symm hfree.1)
    obtain ⟨hlt, hrest⟩ := ih (hrun.append (.cons hstep (.nil u))) hos hlu hfree.2
    refine ⟨hlt, fun i hi => ?_⟩
    rw [hrest i hi, hbytes i hi]
    rfl

/-- The second of two blocks, of which the first is freed. -/
theorem payload_kept_two : ∃ s t, s.live = [⟨81872, 8⟩, ⟨81904, 8⟩] ∧
    Run (Step 4096) s [.write 81904 7, .free 81872] t ∧ t.heap.mem 81904 = 7 := by
  obtain ⟨s, hrun, hlive, -, hos, -⟩ := two_run
  have hl1 : (⟨81872, 8⟩ : Live) ∈ s.live := by rw [hlive]; exact List.mem_cons_self
  have hl2 : (⟨81904, 8⟩ : Live) ∈ s.live := by rw [hlive]; exact List.mem_cons_of_mem _ List.mem_cons_self
  have hwrite : Step 4096 s (.write 81904 7)
    ⟨{ s.heap with mem := Function.update s.heap.mem 81904 7 }, s.live⟩ :=
    .write (l := ⟨81904, 8⟩) (i := 0) 7 hl2 (by decide)
  have hgood := run_good (by decide) (by decide) (hrun.append (.cons hwrite (.nil _))) hos
  obtain ⟨fuel, h, hf⟩ := (hgood.returns (by decide) (by decide) hos).free ⟨81872, 8⟩ hl1
  have hfree : Step 4096 ⟨{ s.heap with mem := Function.update s.heap.mem 81904 7 }, s.live⟩ (.free 81872)
      ⟨h, s.live.erase ⟨81872, 8⟩⟩ := .free (l := ⟨81872, 8⟩) hl1 hf
  have hrest : Run (Step 4096) s [.write 81904 7, .free 81872] ⟨h, s.live.erase ⟨81872, 8⟩⟩ :=
    .cons hwrite (.cons hfree (.nil _))
  have hos' : SbrkOk 4096 h.os := by
    rw [myFree_os hf]
    exact hos
  exact ⟨s, _, hlive, hrest,
    (payload_kept (by decide) (by decide) hrun hrest hos' hl2 (by simp)).2 0 (by decide)⟩

end CPrograms.Malloc
