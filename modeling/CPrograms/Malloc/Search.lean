import CPrograms.Malloc.Confluence

/-!
# What `my_malloc` answers, and what it asks `sbrk` for

`my_morecore` calls `sbrk` once, so `Os.calls` counts its calls.  `my_malloc` returns from every
reachable state, asks for more exactly where no free block is large enough, and answers `NULL`
exactly where `sbrk` then fails, with everything as it was (`malloc_outcome`).

The request that reaches `sbrk` is narrowed to an `int`.  It is the region that `my_morecore` then
gives to `my_free` up to `nbytes = 2 ^ 31 - 32`, and never above (`sbrk_exact_iff`).
-/

namespace CPrograms.Malloc

open ByteMem CInts Extents Rings Runs

/-! ## The answer -/

/-- What a call of `my_malloc` in the state `s`, with the free blocks `fs`, comes to. -/
structure Outcome (base : Nat) (s : Sys) (fs : List Extent) (nbytes p : Nat) (h : Heap) : Prop where
  /-- `my_morecore` is called where no free block is large enough, -/
  asks : h.os.calls ≠ s.heap.os.calls ↔ ∀ e ∈ fs, size s.heap.mem e.lo < nunits nbytes
  /-- and then once. -/
  once : h.os.calls ≠ s.heap.os.calls → h.os.calls = s.heap.os.calls + 1
  null : p = 0 ↔ h.os.calls ≠ s.heap.os.calls ∧ s.heap.os.answers s.heap.os.calls = none
  /-- `NULL` leaves the heap as it is after the initialisation, -/
  kept : p = 0 → h = { initBase base s.heap with os := h.os } ∧ h.os.grants = s.heap.os.grants
  /-- which writes the header `base` only, and only before the first call. -/
  frame : p = 0 → ∀ x, s.heap.freep ≠ 0 ∨ x < base ∨ base + sizeofHeader ≤ x → h.mem x = s.heap.mem x

theorem initBase_frame {base : Nat} {h : Heap} {x : Nat}
    (hx : h.freep ≠ 0 ∨ x < base ∨ base + sizeofHeader ≤ x) : (initBase base h).mem x = h.mem x := by
  unfold initBase
  split
  · next hf =>
    have hx : x < base ∨ base + sizeofHeader ≤ x := hx.resolve_left fun hne => hne hf
    exact (offHeader_setSize _ base 0 x hx).trans (offHeader_setNext _ base base x hx)
  · rfl

theorem Os.after_calls (os : Os) (nu : Nat) (a : Option Nat) : (os.after nu a).calls = os.calls + 1 := by
  cases a <;> rfl

namespace Inv

variable {base : Nat} {s : Sys} {fs : List Extent} {nbytes : Nat}

/-- A large enough free block is given out without `sbrk`. -/
theorem malloc_fit (h : Inv base s fs) (hb : base < 2 ^ 64) (hn : nbytes < 2 ^ 32)
    (hfit : ∃ q ∈ fs, nunits nbytes ≤ size s.heap.mem q.lo) :
    ∃ fuel p h', mallocLoop (nunits nbytes) fuel s.heap.freep (next s.heap.mem s.heap.freep) s.heap =
      some (p, h') ∧ p ≠ 0 ∧ h'.os = s.heap.os := by
  obtain ⟨hn1, -, -⟩ := nunits_spec hn
  obtain ⟨fs', g, m', x, fuel, hrun, -, -⟩ := mallocLoop_fit h.list hb hn1 h.freep hfit
  refine ⟨fuel, _, _, hrun, ?_, rfl⟩
  simp only [sizeofHeader]
  omega

/-- Without one, and where `sbrk` fails, the answer is `NULL`. -/
theorem malloc_null (h : Inv base s fs) (hn : nbytes < 2 ^ 32)
    (hfull : ∀ q ∈ fs, size s.heap.mem q.lo < nunits nbytes)
    (hans : s.heap.os.answers s.heap.os.calls = none) :
    ∃ fuel, mallocLoop (nunits nbytes) fuel s.heap.freep (next s.heap.mem s.heap.freep) s.heap =
      some (0, { s.heap with os := s.heap.os.after (moreUnits (nunits nbytes)) none }) := by
  obtain ⟨hn1, -, -⟩ := nunits_spec hn
  obtain ⟨j, hj⟩ := mallocLoop_full h.list h.freep hn1 hfull
  refine ⟨0 + 1 + j, ?_⟩
  rw [hj, myMorecore_eq, hans]
  rfl

/-- Where `sbrk` grants a region, the second round finds it. -/
theorem malloc_more (h : Inv base s fs) (hb0 : 0 < base) (hb : base < 2 ^ 64) (hn : nbytes < 2 ^ 32)
    (hfits : Fits nbytes) (hfull : ∀ q ∈ fs, size s.heap.mem q.lo < nunits nbytes) {cp : Nat}
    (hans : s.heap.os.answers s.heap.os.calls = some cp)
    (hos : SbrkOk base (s.heap.os.after (moreUnits (nunits nbytes)) (some cp))) :
    ∃ fuel p h', mallocLoop (nunits nbytes) fuel s.heap.freep (next s.heap.mem s.heap.freep) s.heap =
      some (p, h') ∧ p ≠ 0 ∧ h'.os = s.heap.os.after (moreUnits (nunits nbytes)) (some cp) := by
  obtain ⟨hn1, -, -⟩ := nunits_spec hn
  obtain ⟨j, hj⟩ := mallocLoop_full h.list h.freep hn1 hfull
  obtain ⟨h1, fs1, hmore, hinv, hfit⟩ := h.morecore hb hfits hans hos
  obtain ⟨fuel, p, h', hrun, hp, hos'⟩ := hinv.malloc_fit hb hn hfit
  have hos1 := myMorecore_grants hmore
  rw [hans] at hos1
  refine ⟨max (fs.length + 1) fuel + 1 + j, p, h', ?_, hp, hos'.trans hos1⟩
  rw [hj, myMorecore_mono (Nat.le_max_left _ _) hmore]
  show (if h1.freep = 0 then _ else _) = _
  rw [if_neg (hinv.freep_pos hb0)]
  exact mallocLoop_mono (Nat.le_max_right _ _) hrun

end Inv

theorem outcome_of_loop {base : Nat} {s : Sys} {fs fs' : List Extent} {nbytes : Nat} (hb0 : 0 < base)
    (hb : base < 2 ^ 64) (h : Inv base ⟨initBase base s.heap, s.live⟩ fs')
    (hsize : ∀ n, (∀ e ∈ fs', size (initBase base s.heap).mem e.lo < n) ↔
      ∀ e ∈ fs, size s.heap.mem e.lo < n)
    (hn : nbytes < 2 ^ 32) (hfits : Fits nbytes)
    (hos : ∀ cp, s.heap.os.answers s.heap.os.calls = some cp →
      SbrkOk base (s.heap.os.after (moreUnits (nunits nbytes)) (some cp))) :
    ∃ fuel p h', myMalloc base fuel nbytes s.heap = some (p, h') ∧ Outcome base s fs nbytes p h' := by
  have hos0 : (initBase base s.heap).os = s.heap.os := initBase_os base s.heap
  by_cases hfit : ∃ q ∈ fs', nunits nbytes ≤ size (initBase base s.heap).mem q.lo
  · obtain ⟨fuel, p, h', hrun, hp, hos'⟩ := h.malloc_fit hb hn hfit
    have hcalls : h'.os.calls = s.heap.os.calls := by rw [hos', hos0]
    have hnot : ¬ ∀ e ∈ fs, size s.heap.mem e.lo < nunits nbytes := by
      rw [← hsize]
      obtain ⟨q, hq, hle⟩ := hfit
      exact fun hall => absurd (hall q hq) (Nat.not_lt.2 hle)
    refine ⟨fuel, p, h', hrun, iff_of_false (fun hne => hne hcalls) hnot, fun hne => absurd hcalls hne,
      iff_of_false hp fun hnull => hnull.1 hcalls, fun h0 => absurd h0 hp, fun h0 => absurd h0 hp⟩
  · have hfull : ∀ q ∈ fs', size (initBase base s.heap).mem q.lo < nunits nbytes := fun q hq =>
      Nat.lt_of_not_le fun hle => hfit ⟨q, hq, hle⟩
    have hasks := (hsize _).1 hfull
    cases hans : s.heap.os.answers s.heap.os.calls with
    | none =>
      obtain ⟨fuel, hrun⟩ := h.malloc_null hn hfull (by rw [hos0]; exact hans)
      have hone : ((initBase base s.heap).os.after (moreUnits (nunits nbytes)) none).calls =
          s.heap.os.calls + 1 := by rw [Os.after_calls, hos0]
      have hmore : ((initBase base s.heap).os.after (moreUnits (nunits nbytes)) none).calls ≠
          s.heap.os.calls := by omega
      refine ⟨fuel, 0, _, hrun, iff_of_true hmore hasks, fun _ => hone, iff_of_true rfl ⟨hmore, hans⟩,
        fun _ => ⟨rfl, ?_⟩, fun _ x hx => initBase_frame hx⟩
      rw [hos0]
      rfl
    | some cp =>
      obtain ⟨fuel, p, h', hrun, hp, hos'⟩ := h.malloc_more hb0 hb hn hfits hfull
        (by rw [hos0]; exact hans) (by rw [hos0]; exact hos cp hans)
      have hone : h'.os.calls = s.heap.os.calls + 1 := by rw [hos', Os.after_calls, hos0]
      have hmore : h'.os.calls ≠ s.heap.os.calls := by omega
      refine ⟨fuel, p, h', hrun, iff_of_true hmore hasks, fun _ => hone,
        iff_of_false hp fun hnull => ?_, fun h0 => absurd h0 hp, fun h0 => absurd h0 hp⟩
      cases hans.symm.trans hnull.2

/-- **Every call.**  In every reachable state, a request that fits comes to an end, with an
`Outcome`. -/
theorem malloc_outcome {base : Nat} {s : Sys} {mem : Mem} {answers : Nat → Option Nat}
    {es : List Event} (hb0 : 0 < base) (hb : base < 2 ^ 64)
    (hrun : Run (Step base) (init mem answers) es s) (hos : SbrkOk base s.heap.os) :
    ∃ fs, FreeBlocks base s fs ∧ ∀ nbytes < 2 ^ 32, Fits nbytes →
      (∀ cp, s.heap.os.answers s.heap.os.calls = some cp →
        SbrkOk base (s.heap.os.after (moreUnits (nunits nbytes)) (some cp))) →
      (∃ fuel p h, myMalloc base fuel nbytes s.heap = some (p, h)) ∧
      ∀ fuel p h, myMalloc base fuel nbytes s.heap = some (p, h) → Outcome base s fs nbytes p h := by
  have hgood := run_good hb0 hb hrun hos
  obtain ⟨fs', hinv⟩ := hgood.initBase hb0 hb
  obtain ⟨fs, hfree, hsize⟩ : ∃ fs, FreeBlocks base s fs ∧
      ∀ n, (∀ e ∈ fs', size (initBase base s.heap).mem e.lo < n) ↔ ∀ e ∈ fs, size s.heap.mem e.lo < n := by
    by_cases hf : s.heap.freep = 0
    · -- before the first call nothing is granted, so nothing is free
      rcases hgood with ⟨-, -, hg⟩ | ⟨_, h⟩
      · have hgr : granted (initBase base s.heap).os = [] := by rw [initBase_os, granted, hg]; rfl
        have hnil : fs' = [] := List.eq_nil_iff_forall_not_mem.2 fun q hq =>
          not_maximalRun hgr q ((hinv.mem_iff q).1 hq)
        refine ⟨[], ⟨fun _ => rfl, fun hne => absurd hf hne⟩, fun n => ?_⟩
        rw [hnil]
        exact iff_of_true (fun e he => absurd he List.not_mem_nil) fun e he => absurd he List.not_mem_nil
      · exact absurd hf (h.freep_pos hb0)
    · have hinit : initBase base s.heap = s.heap := if_neg hf
      rw [hinit] at hinv
      exact ⟨fs', hinv.freeBlocks hb0, fun n => by rw [hinit]⟩
  refine ⟨fs, hfree, fun nbytes hn hfits hcp => ?_⟩
  obtain ⟨fuel, p, h, hcall, hout⟩ := outcome_of_loop hb0 hb hinv hsize hn hfits hcp
  refine ⟨⟨fuel, p, h, hcall⟩, fun fuel' p' h' hcall' => ?_⟩
  have h1 : myMalloc base (max fuel fuel') nbytes s.heap = some (p, h) :=
    mallocLoop_mono (Nat.le_max_left _ _) hcall
  have h2 : myMalloc base (max fuel fuel') nbytes s.heap = some (p', h') :=
    mallocLoop_mono (Nat.le_max_right _ _) hcall'
  rw [h1] at h2
  cases h2
  exact hout

/-- One region is granted, and no more: `my_malloc 8` gets its last two units. -/
theorem once_run : ∃ s, Run (Step 4096) (init (fun _ => 0) fun k => if k = 0 then some 65536 else none)
    [.malloc 8] s ∧ s.live = [⟨81904, 8⟩] ∧ SbrkOk 4096 s.heap.os ∧
    s.heap.os.answers s.heap.os.calls = none := by
  have hm : (myMalloc 4096 4 8 (init (fun _ => 0) fun k => if k = 0 then some 65536 else none).heap).map
      (fun r => (r.1, r.2.os.grants, r.2.os.answers r.2.os.calls)) =
      some (81904, [(65536, 16384)], none) := by decide +kernel
  obtain ⟨⟨p, h⟩, hr, hv⟩ := Option.map_eq_some_iff.1 hm
  simp only [Prod.mk.injEq] at hv
  obtain ⟨rfl, hg, hans⟩ := hv
  have hfits : Fits 8 := by unfold Fits; decide
  refine ⟨_, .cons (.malloc (by decide) hfits hr) (.nil _), rfl, ?_, hans⟩
  have hgr : granted h.os = [⟨65536, 81920⟩] := by rw [granted, hg]; rfl
  show SbrkOk 4096 h.os
  constructor <;> rw [hgr]
  · decide
  · decide
  · exact List.pairwise_singleton _ _
  · decide

theorem malloc_outcome_once : ∃ s fs, s.live = [⟨81904, 8⟩] ∧ FreeBlocks 4096 s fs ∧
    ∃ fuel p h, myMalloc 4096 fuel 8 s.heap = some (p, h) ∧ Outcome 4096 s fs 8 p h := by
  obtain ⟨s, hrun, hlive, hos, hans⟩ := once_run
  obtain ⟨fs, hfree, hall⟩ := malloc_outcome (by decide) (by decide) hrun hos
  have hfits : Fits 8 := by unfold Fits; decide
  obtain ⟨⟨fuel, p, h, hm⟩, hout⟩ := hall 8 (by decide) hfits fun cp hcp => by
    rw [hans] at hcp
    cases hcp
  exact ⟨s, fs, hlive, hfree, fuel, p, h, hm, hout fuel p h hm⟩

/-! ## The request to `sbrk` -/

/-- What `my_morecore` gives to `my_free`: the region at `cp`, headed by its size. -/
def handOver (base cp nbytes : Nat) (h : Heap) : Heap :=
  { initBase base h with
    mem := setSize (initBase base h).mem cp (moreUnits (nunits nbytes))
    os := h.os.after (moreUnits (nunits nbytes)) (some cp) }

/-- `my_malloc` behind `my_free`: `my_morecore` returns `freep`, and the search goes on there. -/
def searchOn (fuel nbytes : Nat) (h : Heap) : Option (Nat × Heap) :=
  if h.freep = 0 then some (0, h) else mallocLoop (nunits nbytes) fuel h.freep (next h.mem h.freep) h

theorem malloc_handOver {base nbytes cp : Nat} {h : Heap}
    (hnone : NoneFits (initBase base h) (nunits nbytes)) (hans : h.os.answers h.os.calls = some cp) :
    ∃ j, ∀ fuel, myMalloc base (fuel + 1 + j) nbytes h =
      (myFree fuel (cp + sizeofHeader) (handOver base cp nbytes h)).bind (searchOn fuel nbytes) := by
  obtain ⟨j, hj⟩ := mallocLoop_none hnone
  refine ⟨j, fun fuel => (hj fuel).trans ?_⟩
  rw [myMorecore_eq, initBase_os, hans, handOver]
  dsimp only
  cases myFree fuel (cp + sizeofHeader) _ with
  | none => rfl
  | some h' => rfl

theorem moreUnits_eq_max (nu : Nat) : moreUnits nu = max nu nalloc := by
  unfold moreUnits
  split <;> omega

theorem moreUnits_lt {nbytes : Nat} (hn : nbytes < 2 ^ 32) : moreUnits (nunits nbytes) < 2 ^ 32 := by
  obtain ⟨-, -, hlt⟩ := nunits_spec hn
  rw [moreUnits_eq_max, nalloc]
  omega

/-- The product is an `int` up to this request. -/
theorem moreUnits_int {nbytes : Nat} (hn : nbytes < 2 ^ 32) :
    moreUnits (nunits nbytes) * sizeofHeader < 2 ^ 31 ↔ nbytes ≤ 2 ^ 31 - 32 := by
  rw [moreUnits_eq_max, nunits, nalloc, sizeofHeader, Nat.mod_eq_of_lt (by omega)]
  omega

/-- **The request.**  Where no free block is large enough and `sbrk` grants a region at `cp`,
`my_free` is given a block there whose size is the region's, for the requests up to this one and
for no other. -/
theorem sbrk_exact_iff {base nbytes cp : Nat} {h : Heap} (hn : nbytes < 2 ^ 32)
    (hnone : NoneFits (initBase base h) (nunits nbytes)) (hans : h.os.answers h.os.calls = some cp) :
    ∃ g incr, g = handOver base cp nbytes h ∧ g.os.grants = (cp, incr) :: h.os.grants ∧
      (∃ j, ∀ fuel, myMalloc base (fuel + 1 + j) nbytes h =
        (myFree fuel (cp + sizeofHeader) g).bind (searchOn fuel nbytes)) ∧
      (incr = ((size g.mem cp * sizeofHeader : Nat) : Int) ∧
        region (cp, incr) = ⟨cp, cp + sizeofHeader * size g.mem cp⟩ ↔ nbytes ≤ 2 ^ 31 - 32) := by
  have hsize : size (handOver base cp nbytes h).mem cp = moreUnits (nunits nbytes) := by
    rw [handOver, size_setSize, Nat.mod_eq_of_lt (moreUnits_lt hn)]
  refine ⟨_, _, rfl, rfl, malloc_handOver hnone hans, ?_⟩
  rw [hsize, toInt_natCast_iff, moreUnits_int hn]
  refine ⟨fun hle => hle.1, fun hle => ⟨hle, ?_⟩⟩
  rw [region, (toInt_natCast_iff _).2 ((moreUnits_int hn).2 hle), Nat.mul_comm]
  congr 1

/-- At the first request of a run. -/
theorem sbrk_exact_iff_first : ∃ g, g.os.grants = [(65536, 16384)] ∧ size g.mem 65536 = 1024 ∧
    ∃ j, ∀ fuel, myMalloc 4096 (fuel + 1 + j) 8 (init (fun _ => 0) fun _ => some 65536).heap =
      (myFree fuel 65552 g).bind (searchOn fuel 8) := by
  have hnone : NoneFits (initBase 4096 (init (fun _ => 0) fun _ => some 65536).heap) (nunits 8) :=
    ⟨0, by decide +kernel, by decide +kernel⟩
  obtain ⟨g, incr, hg, hgr, hloop, hiff⟩ := sbrk_exact_iff (by decide) hnone rfl
  obtain ⟨hincr, -⟩ := hiff.2 (by decide)
  have hsize : size g.mem 65536 = 1024 := by rw [hg]; decide +kernel
  rw [hsize] at hincr
  exact ⟨g, by rw [hgr, hincr]; rfl, hsize, hloop⟩

/-- `my_malloc (2 ^ 32 - 1)` asks for 16 bytes, and returns a block of 2 ^ 28 + 1 headers there. -/
theorem sbrk_sixteen_bytes :
    NoneFits (initBase 4096 (init (fun _ => 0) fun _ => some 65536).heap) (nunits 4294967295) ∧
    (myMalloc 4096 4 4294967295 (init (fun _ => 0) fun _ => some 65536).heap).map
      (fun r => (r.1, r.2.os.grants, size r.2.mem 65536)) = some (65552, [(65536, 16)], 268435457) :=
  ⟨⟨0, by decide +kernel, by decide +kernel⟩, by decide +kernel⟩

end CPrograms.Malloc
