import CPrograms.Malloc.Reachable
import Mathlib.Algebra.Order.BigOperators.Group.List

/-!
# What holds after every run of the allocator

* `freeList_wellFormed`: the free list is a ring through `base` and the free blocks, in
  address order, coalesced; it holds exactly the granted memory that is not live, and the
  next call returns.
* `live_conserved`: live blocks keep their size, lie in granted memory apart from each
  other and from the free blocks, and no unit is lost.
-/

namespace CPrograms.Malloc

open ByteMem Extents Rings Runs

/-! ## Grants only grow -/

theorem myFree_os {fuel ap : Nat} {h h' : Heap} (hf : myFree fuel ap h = some h') : h'.os = h.os := by
  unfold myFree at hf
  dsimp only at hf
  split at hf
  · cases hf
  · rw [← Option.some.inj hf]

theorem myMorecore_grants {fuel nu p : Nat} {h h' : Heap} (hm : myMorecore fuel nu h = some (p, h')) :
    h'.os = h.os.after (moreUnits nu) (h.os.answers h.os.calls) := by
  rw [myMorecore_eq] at hm
  split at hm
  · next hans => cases hm; rw [hans]
  · next cp hans =>
    split at hm
    · cases hm
    · next hf => cases hm; rw [myFree_os hf, hans]

/-- What holds of `sbrk`'s state across each of its calls holds across `my_malloc`. -/
theorem mallocLoop_os (R : Os → Os → Prop) (hrefl : ∀ os, R os os)
    (htrans : ∀ {os os' os''}, R os os' → R os' os'' → R os os'')
    (hafter : ∀ (os : Os) nu a, R os (os.after nu a)) {n fuel prevp p q : Nat} {h h' : Heap}
    (hm : mallocLoop n fuel prevp p h = some (q, h')) : R h.os h'.os := by
  induction fuel generalizing prevp p h with
  | zero => cases hm
  | succ fuel ih =>
    rw [mallocLoop] at hm
    split at hm
    · split at hm <;> (cases hm; exact hrefl _)
    · split at hm
      · split at hm
        · cases hm
        · next r h1 hr =>
          have h01 : R h.os h1.os := by
            rw [myMorecore_grants hr]; exact hafter _ _ _
          split at hm
          · cases hm; exact h01
          · exact htrans h01 (ih hm)
      · exact ih hm

theorem mallocLoop_grants {n fuel prevp p q : Nat} {h h' : Heap}
    (hm : mallocLoop n fuel prevp p h = some (q, h')) : h.os.grants <:+ h'.os.grants := by
  refine mallocLoop_os (fun os os' => os.grants <:+ os'.grants) (fun os => List.suffix_refl _)
    (fun h1 h2 => h1.trans h2) (fun os nu a => ?_) hm
  cases a with
  | none => exact List.suffix_refl _
  | some cp => exact List.suffix_cons _ _

theorem mallocLoop_calls {n fuel prevp p q : Nat} {h h' : Heap}
    (hm : mallocLoop n fuel prevp p h = some (q, h')) : h.os.calls ≤ h'.os.calls := by
  refine mallocLoop_os (fun os os' => os.calls ≤ os'.calls) (fun os => Nat.le_refl _)
    Nat.le_trans (fun os nu a => ?_) hm
  cases a <;> exact Nat.le_succ _

theorem initBase_os (base : Nat) (h : Heap) : (initBase base h).os = h.os := by
  unfold initBase
  split <;> rfl

theorem step_grants {base : Nat} {s t : Sys} {e : Event} (h : Step base s e t) :
    s.heap.os.grants <:+ t.heap.os.grants := by
  cases h with
  | malloc _ _ hm =>
    have := mallocLoop_grants hm
    rwa [initBase_os] at this
  | free _ hf => rw [myFree_os hf]
  | write => exact List.suffix_refl _

theorem SbrkOk.of_suffix {base : Nat} {os os' : Os} (h : SbrkOk base os') (hs : os.grants <:+ os'.grants) :
    SbrkOk base os := by
  have hsub : (granted os).Sublist (granted os') := hs.sublist.map region
  refine ⟨fun g hg => h.above g (hsub.subset hg), fun g hg => h.below g (hsub.subset hg),
    h.apart.sublist hsub, Nat.lt_of_le_of_lt ?_ h.bounded⟩
  exact (hsub.map Extent.len).sum_le_sum fun _ _ => Nat.zero_le _

/-! ## `my_malloc` keeps the invariant -/

theorem Inv.malloc {base : Nat} {s : Sys} {fs : List Extent} (h : Inv base s fs) (hb0 : 0 < base)
    (hb : base < 2 ^ 64) {nbytes : Nat} (hn : nbytes < 2 ^ 32) (hfits : Fits nbytes)
    (hos : (∀ q ∈ fs, size s.heap.mem q.lo < nunits nbytes) → ∀ cp,
      s.heap.os.answers s.heap.os.calls = some cp →
      SbrkOk base (s.heap.os.after (moreUnits (nunits nbytes)) (some cp))) :
    ∃ fuel p h' fs', mallocLoop (nunits nbytes) fuel s.heap.freep
        (next s.heap.mem s.heap.freep) s.heap = some (p, h') ∧
      Inv base ⟨h', grow s.live p nbytes⟩ fs' := by
  obtain ⟨hn1, -, -⟩ := nunits_spec hn
  by_cases hfit : ∃ q ∈ fs, nunits nbytes ≤ size s.heap.mem q.lo
  · obtain ⟨fs', g, m', x, fuel, hrun, hc, hx⟩ := mallocLoop_fit h.list hb hn1 h.freep hfit
    exact ⟨fuel, _, _, fs', hrun, h.carve hn hc hx⟩
  · have hfull : ∀ q ∈ fs, size s.heap.mem q.lo < nunits nbytes := fun q hq =>
      Nat.lt_of_not_le fun hle => hfit ⟨q, hq, hle⟩
    obtain ⟨j, hj⟩ := mallocLoop_full h.list h.freep hn1 hfull
    cases hans : s.heap.os.answers s.heap.os.calls with
    | none =>
      refine ⟨0 + 1 + j, 0, { s.heap with os := s.heap.os.after (moreUnits (nunits nbytes)) none },
        fs, ?_, ?_⟩
      · rw [hj, myMorecore_eq, hans]
        rfl
      · exact h.of_mem rfl rfl rfl fun _ _ => rfl
    | some cp =>
      obtain ⟨h1, fs1, hmore, hinv, hfit1⟩ := h.morecore hb hfits hans (hos hfull cp hans)
      obtain ⟨fs', g, m', x, fuel, hrun, hc, hx⟩ := mallocLoop_fit hinv.list hb hn1 hinv.freep hfit1
      refine ⟨max (fs.length + 1) fuel + 1 + j, _, _, fs', ?_, hinv.carve hn hc hx⟩
      rw [hj, myMorecore_mono (Nat.le_max_left _ _) hmore]
      show (if h1.freep = 0 then _ else _) = _
      rw [if_neg (hinv.freep_pos hb0)]
      exact mallocLoop_mono (Nat.le_max_right _ _) hrun

/-! ## Runs -/

/-- The state before the first call, or one that keeps the invariant. -/
def Good (base : Nat) (s : Sys) : Prop :=
  (s.heap.freep = 0 ∧ s.live = [] ∧ s.heap.os.grants = []) ∨ ∃ fs, Inv base s fs

theorem Good.initBase {base : Nat} {s : Sys} (h : Good base s) (hb0 : 0 < base) (hb : base < 2 ^ 64) :
    ∃ fs, Inv base ⟨initBase base s.heap, s.live⟩ fs := by
  rcases h with ⟨hf, hl, hg⟩ | ⟨fs, h⟩
  · refine ⟨[], ?_⟩
    unfold Malloc.initBase
    rw [if_pos hf, hl]
    have hnext : next (setSize (setNext s.heap.mem base base) base 0) base = base := by
      rw [next_setSize, next_setNext, Nat.mod_eq_of_lt hb]
    have hlist : Listed base (setSize (setNext s.heap.mem base base) base 0) [root base] := by
      refine listed_cons.2 ⟨⟨hnext, ?_⟩, links_singleton _ _, by simp⟩
      rw [root, size_setSize]
      rfl
    refine ⟨⟨hlist, List.Pairwise.nil, by simp, by simp, by simp⟩, by simp, by simp, by simp,
      List.Pairwise.nil, by simp, fun x => ?_, ?_⟩
    · simp [granted, hg, liveBlocks]
    · simp [granted, hg, liveBlocks]
  · refine ⟨fs, ?_⟩
    unfold Malloc.initBase
    rw [if_neg (h.freep_pos hb0)]
    exact h

/-- The bytes a client may write are no header, no free memory and not in `base`. -/
theorem Inv.write {base : Nat} {s : Sys} {fs : List Extent} (h : Inv base s fs) {l : Live} {i : Nat}
    (hl : l ∈ s.live) (hi : i < l.nbytes) (b : UInt8) :
    Inv base ⟨{ s.heap with mem := Function.update s.heap.mem (l.ptr + i) b }, s.live⟩ fs := by
  obtain ⟨h1, h2, h3, h4⟩ := h.block_spec hl
  have hin : l.block.Has (l.ptr + i) := by
    simp only [Extent.Has]
    omega
  refine h.of_mem rfl rfl rfl fun x hx => Function.update_of_ne ?_ _ _
  rintro rfl
  rcases hx with hx | hx | ⟨k, hk, hx⟩
  · exact h.disjoint _ hx (Inv.covered_block hl hin)
  · omega
  · by_cases hkl : k.block = l.block
    · rw [hkl] at hx; omega
    · have hsymm : Std.Symm Extent.Apart := ⟨fun _ _ => Extent.Apart.symm⟩
      have hap := h.liveApart.forall (List.mem_map_of_mem hk) (List.mem_map_of_mem hl) hkl
      have hk1 := h.block_spec hk
      have hk2 := nunits_spec (h.request k hk).1
      simp only [Extent.Has, Extent.Apart, sizeofHeader] at *
      omega

/-- **One step.** -/
theorem step_inv {base : Nat} {s t : Sys} {e : Event} (hb0 : 0 < base) (hb : base < 2 ^ 64)
    (hs : Good base s) (h : Step base s e t) (hos : SbrkOk base t.heap.os) : ∃ fs, Inv base t fs := by
  have hoss := hos.of_suffix (step_grants h)
  cases h with
  | @malloc nbytes fuel p h' hn hfits hm =>
    obtain ⟨fs, hinv⟩ := hs.initBase hb0 hb
    obtain ⟨fuel', p', h'', fs', hrun, hinv'⟩ := hinv.malloc hb0 hb hn hfits fun hfull cp hans => by
      -- the run at hand made the same grant
      obtain ⟨hn1, -, -⟩ := nunits_spec hn
      obtain ⟨j, hj⟩ := mallocLoop_full hinv.list hinv.freep hn1 hfull
      have hm' := mallocLoop_mono (show fuel ≤ fuel + 1 + j by omega) hm
      rw [hj] at hm'
      split at hm'
      · cases hm'
      · next q h1 hq =>
        have h1os := myMorecore_grants hq
        rw [hans] at h1os
        rw [← h1os]
        split at hm'
        · cases hm'; exact hos
        · exact hos.of_suffix (mallocLoop_grants hm')
    have hm1 := mallocLoop_mono (Nat.le_max_left fuel fuel') hm
    have hm2 := mallocLoop_mono (Nat.le_max_right fuel fuel') hrun
    rw [hm1] at hm2
    cases hm2
    exact ⟨fs', hinv'⟩
  | @free l fuel h' hl hf =>
    rcases hs with ⟨-, hnil, -⟩ | ⟨fs, hinv⟩
    · rw [hnil] at hl; cases hl
    · obtain ⟨fuel', h'', fs', hrun, hinv'⟩ := hinv.free hb hoss hl
      have hm1 := myFree_mono (Nat.le_max_left fuel fuel') hf
      have hm2 := myFree_mono (Nat.le_max_right fuel fuel') hrun
      rw [hm1] at hm2
      cases hm2
      exact ⟨fs', hinv'⟩
  | @write l i b hl hi =>
    rcases hs with ⟨-, hnil, -⟩ | ⟨fs, hinv⟩
    · rw [hnil] at hl; cases hl
    · exact ⟨fs, hinv.write hl hi b⟩

theorem run_good {base : Nat} {s : Sys} {mem : Mem} {answers : Nat → Option Nat} {es : List Event}
    (hb0 : 0 < base) (hb : base < 2 ^ 64) (h : Run (Step base) (init mem answers) es s) :
    SbrkOk base s.heap.os → Good base s := by
  refine h.invariant (fun s => SbrkOk base s.heap.os → Good base s) ?_ ?_
  · intro s e t hs he hos
    exact .inr (step_inv hb0 hb (hs (hos.of_suffix (step_grants he))) he hos)
  · intro _
    exact .inl ⟨rfl, rfl, rfl⟩

/-- **Every run.**  After the first call the invariant holds. -/
theorem run_inv {base : Nat} {s : Sys} {mem : Mem} {answers : Nat → Option Nat} {es : List Event}
    (hb0 : 0 < base) (hb : base < 2 ^ 64) (h : Run (Step base) (init mem answers) es s)
    (hne : es ≠ []) (hos : SbrkOk base s.heap.os) : ∃ fs, Inv base s fs := by
  obtain ⟨es', e, rfl⟩ := (List.eq_nil_or_concat es).resolve_left hne
  rw [List.concat_eq_append] at h
  obtain ⟨t, h1, h2⟩ := run_append_iff.1 h
  cases h2 with
  | cons hstep hnil =>
    cases hnil
    exact step_inv hb0 hb (run_good hb0 hb h1 (hos.of_suffix (step_grants hstep))) hstep hos

/-! ## The free list as a client of the memory sees it -/

/-- The walk along `next_block_header` from `freep`; `fs` are the free blocks. -/
structure FreeRing (base : Nat) (s : Sys) (fs : List Extent) : Prop where
  /-- once round: `base` and every free block once, upwards but for one wrap to `base` -/
  walk : ∃ i, List.iterate (next s.heap.mem) s.heap.freep (fs.length + 1) =
    (base :: fs.map Extent.lo).rotate i
  back : (next s.heap.mem)^[fs.length + 1] s.heap.freep = s.heap.freep
  increasing : (base :: fs.map Extent.lo).Pairwise (· < ·)
  sized : ∀ e ∈ fs, 1 ≤ size s.heap.mem e.lo ∧ e.hi = e.lo + sizeofHeader * size s.heap.mem e.lo
  apart : fs.Pairwise Extent.Apart
  merged : ∀ d ∈ fs, ∀ e ∈ fs, d.hi ≠ e.lo
  /-- free is what was granted and is not live -/
  free : ∀ x, covered fs x ↔ covered (granted s.heap.os) x ∧ ¬ covered (liveBlocks s.live) x

/-- The next call returns, if it is a request that fits and `sbrk` keeps its promise, or
a `my_free` of a live pointer. -/
structure Returns (base : Nat) (s : Sys) : Prop where
  malloc : ∀ nbytes < 2 ^ 32, Fits nbytes →
    (∀ cp, s.heap.os.answers s.heap.os.calls = some cp →
      SbrkOk base (s.heap.os.after (moreUnits (nunits nbytes)) (some cp))) →
    ∃ fuel r, myMalloc base fuel nbytes s.heap = some r
  free : ∀ l ∈ s.live, ∃ fuel h, myFree fuel l.ptr s.heap = some h

theorem Inv.freeRing {base : Nat} {s : Sys} {fs : List Extent} (h : Inv base s fs) :
    FreeRing base s fs := by
  have hlen : (base :: fs.map Extent.lo).length = fs.length + 1 := by simp
  have hring := h.list.ring
  have hup : (root base :: fs).Pairwise fun d e => d.lo < e.lo := by
    refine (h.list.gapped_root.imp_of_mem fun {d e} hd _ hde => ?_)
    have := h.list.lo_le_hi d hd
    omega
  refine ⟨?_, ?_, ?_, fun e he => ?_, ?_, fun d hd e he hde => ?_, fun x => ?_⟩
  · have := hring.iterate_eq_rotate h.freep
    rwa [hlen] at this
  · have := hring.iterate_length h.freep
    rwa [hlen] at this
  · have := List.pairwise_map.2 hup
    exact this
  · have h1 := h.list.listed.sized e (List.mem_cons_of_mem _ he)
    have h2 := h.list.nonempty e he
    simp only [sizeofHeader] at h1 ⊢
    omega
  · exact h.list.gapped.imp fun hde => .inl (Nat.le_of_lt hde)
  · have h1 := h.list.nonempty d hd
    by_cases hne : d = e
    · subst hne; omega
    · have := h.list.nonempty e he
      rcases h.list.gapped.pair hd he hne with h2 | h2 <;> omega
  · have h1 := h.covered_iff x
    have h2 := h.disjoint x
    tauto

theorem Good.returns {base : Nat} {s : Sys} (h : Good base s) (hb0 : 0 < base) (hb : base < 2 ^ 64)
    (hos : SbrkOk base s.heap.os) : Returns base s := by
  refine ⟨fun nbytes hn hfits hans => ?_, fun l hl => ?_⟩
  · obtain ⟨fs, hinv⟩ := h.initBase hb0 hb
    obtain ⟨fuel, p, h', -, hm, -⟩ := hinv.malloc hb0 hb hn hfits fun _ cp hcp => by
      simp only [initBase_os] at hcp ⊢
      exact hans cp hcp
    exact ⟨fuel, (p, h'), hm⟩
  · rcases h with ⟨-, hnil, -⟩ | ⟨fs, hinv⟩
    · rw [hnil] at hl; cases hl
    · obtain ⟨fuel, h', -, hf, -⟩ := hinv.free hb hos hl
      exact ⟨fuel, h', hf⟩

/-- **The free list.**  After every run of calls and client writes; `freep` is `NULL`
before the first call only. -/
theorem freeList_wellFormed {base : Nat} {s : Sys} {mem : Mem} {answers : Nat → Option Nat}
    {es : List Event} (hb0 : 0 < base) (hb : base < 2 ^ 64)
    (hrun : Run (Step base) (init mem answers) es s) (hos : SbrkOk base s.heap.os) :
    (es ≠ [] → s.heap.freep ≠ 0) ∧ (s.heap.freep ≠ 0 → ∃ fs, FreeRing base s fs) ∧ Returns base s := by
  have hgood := run_good hb0 hb hrun hos
  refine ⟨fun hne => ?_, fun hf => ?_, hgood.returns hb0 hb hos⟩
  · obtain ⟨fs, h⟩ := run_inv hb0 hb hrun hne hos
    exact h.freep_pos hb0
  · rcases hgood with ⟨hf0, -⟩ | ⟨fs, h⟩
    · exact absurd hf0 hf
    · exact ⟨fs, h.freeRing⟩

/-- Two requests from one region: the units at its end, the second below the first. -/
theorem two_run : ∃ s, Run (Step 4096) (init (fun _ => 0) fun _ => some 65536)
    [.malloc 8, .malloc 8] s ∧ s.live = [⟨81872, 8⟩, ⟨81904, 8⟩] ∧
    granted s.heap.os = [⟨65536, 81920⟩] ∧ SbrkOk 4096 s.heap.os ∧
    ∃ h, myMalloc 4096 4 8 s.heap = some (81840, h) ∧ h.os.calls = s.heap.os.calls := by
  have hm : ((myMalloc 4096 4 8 (init (fun _ => 0) fun _ => some 65536).heap).bind fun r =>
      (myMalloc 4096 4 8 r.2).bind fun r' => (myMalloc 4096 4 8 r'.2).map fun r'' =>
        ([r.1, r'.1, r''.1, r'.2.os.calls, r''.2.os.calls], r'.2.os.grants)) =
      some ([81904, 81872, 81840, 1, 1], [(65536, 16384)]) := by decide +kernel
  obtain ⟨⟨p, h⟩, hr, hm⟩ := Option.bind_eq_some_iff.1 hm
  obtain ⟨⟨p', h'⟩, hr', hm⟩ := Option.bind_eq_some_iff.1 hm
  obtain ⟨⟨p'', h''⟩, hr'', hm⟩ := Option.map_eq_some_iff.1 hm
  simp only [Prod.mk.injEq, List.cons.injEq, and_true] at hm
  obtain ⟨⟨rfl, rfl, rfl, hc, hc'⟩, hg⟩ := hm
  have hfits : Fits 8 := by unfold Fits; decide
  have hgr : granted h'.os = [⟨65536, 81920⟩] := by rw [granted, hg]; rfl
  refine ⟨⟨h', [⟨81872, 8⟩, ⟨81904, 8⟩]⟩, .cons (.malloc (by decide) hfits hr)
    (.cons (.malloc (by decide) hfits hr') (.nil _)), rfl, hgr, ?_, h'', hr'', hc'.trans hc.symm⟩
  show SbrkOk 4096 h'.os
  constructor <;> rw [hgr]
  · decide
  · decide
  · exact List.pairwise_singleton _ _
  · decide

/-- The second of them is written, and the first one freed. -/
theorem freed_run : ∃ s, Run (Step 4096) (init (fun _ => 0) fun _ => some 65536)
    [.malloc 8, .malloc 8, .write 81904 7, .free 81872] s ∧ s.live = [⟨81904, 8⟩] ∧
    granted s.heap.os = [⟨65536, 81920⟩] ∧ SbrkOk 4096 s.heap.os := by
  obtain ⟨s, hrun, hlive, hgr, hos, -⟩ := two_run
  have hl1 : (⟨81872, 8⟩ : Live) ∈ s.live := by rw [hlive]; exact List.mem_cons_self
  have hl2 : (⟨81904, 8⟩ : Live) ∈ s.live := by rw [hlive]; exact List.mem_cons_of_mem _ List.mem_cons_self
  have hrun := hrun.append (.cons (.write (l := ⟨81904, 8⟩) (i := 0) 7 hl2 (by decide)) (.nil _))
  obtain ⟨fuel, h, hf⟩ := ((run_good (by decide) (by decide) hrun hos).returns (by decide) (by decide) hos).free
    ⟨81872, 8⟩ hl1
  refine ⟨_, hrun.append (.cons (.free (l := ⟨81872, 8⟩) hl1 hf) (.nil _)), ?_, ?_, ?_⟩
  · show s.live.erase ⟨81872, 8⟩ = _
    rw [hlive]
    rfl
  · show granted h.os = _
    rw [myFree_os hf]
    exact hgr
  · show SbrkOk 4096 h.os
    rw [myFree_os hf]
    exact hos

/-- The block that was freed is free again. -/
theorem freeList_wellFormed_small : ∃ s fs, Run (Step 4096) (init (fun _ => 0) fun _ => some 65536)
    [.malloc 8, .malloc 8, .write 81904 7, .free 81872] s ∧ FreeRing 4096 s fs ∧ covered fs 81872 ∧
    Returns 4096 s := by
  obtain ⟨s, hrun, hlive, hgr, hos⟩ := freed_run
  obtain ⟨h1, h2, h3⟩ := freeList_wellFormed (by decide) (by decide) hrun hos
  obtain ⟨fs, hring⟩ := h2 (h1 (List.cons_ne_nil _ _))
  refine ⟨s, fs, hrun, hring, (hring.free 81872).2 ⟨?_, ?_⟩, h3⟩
  · rw [hgr]
    exact ⟨_, List.mem_cons_self, show 65536 ≤ 81872 ∧ 81872 < 81920 by decide⟩
  · rw [hlive]
    rintro ⟨e, he, hin⟩
    obtain rfl := List.mem_singleton.1 he
    exact absurd hin.1 (show ¬81888 ≤ 81872 by decide)

/-- What is live after a run, with the free blocks `fs`. -/
structure Conserved (base : Nat) (s : Sys) (fs : List Extent) : Prop where
  inside : ∀ l ∈ s.live, ∀ x, l.block.Has x → covered (granted s.heap.os) x
  header : ∀ l ∈ s.live, size s.heap.mem (l.ptr - sizeofHeader) = nunits l.nbytes ∧
    l.nbytes ≤ (size s.heap.mem (l.ptr - sizeofHeader) - 1) * sizeofHeader
  apart : (liveBlocks s.live).Pairwise Extent.Apart
  apartBase : ∀ l ∈ s.live, l.block.Apart ⟨base, base + sizeofHeader⟩
  apartFree : ∀ l ∈ s.live, ∀ e ∈ fs, l.block.Apart e
  units : sizeofHeader * ((s.live.map fun l => size s.heap.mem (l.ptr - sizeofHeader)).sum +
    (fs.map fun e => size s.heap.mem e.lo).sum) = total (granted s.heap.os)

theorem total_eq_units {α : Type} {l : List α} {f : α → Extent} {g : α → Nat}
    (h : ∀ a ∈ l, (f a).len = sizeofHeader * g a) : total (l.map f) = sizeofHeader * (l.map g).sum := by
  induction l with
  | nil => rfl
  | cons a l ih =>
    rw [List.map_cons, total_cons, List.map_cons, List.sum_cons, h a List.mem_cons_self,
      ih fun b hb => h b (List.mem_cons_of_mem _ hb), Nat.mul_add]

theorem Inv.conserved {base : Nat} {s : Sys} {fs : List Extent} (h : Inv base s fs) :
    Conserved base s fs := by
  refine ⟨fun l hl x hx => ?_, fun l hl => ⟨h.header l hl, ?_⟩, h.liveApart, fun l hl => .inr ?_,
    fun l hl e he => ?_, ?_⟩
  · exact (h.covered_iff x).1 (.inr (Inv.covered_block hl hx))
  · have := nunits_spec (h.request l hl).1
    rw [h.header l hl, Nat.mul_comm]
    exact this.2.1
  · exact (h.block_spec hl).1
  · exact apart_of_no_common (h.block_nonempty hl) (h.list.nonempty e he)
      fun x hx hex => h.disjoint x ⟨e, he, hex⟩ (Inv.covered_block hl hx)
  · rw [Nat.mul_add, ← h.total_eq, Nat.add_comm]
    congr 1
    · rw [← total_eq_units (f := id), List.map_id]
      intro e he
      have := h.list.listed.sized e (List.mem_cons_of_mem _ he)
      simp only [id, Extent.len]
      omega
    · refine (total_eq_units fun l hl => ?_).symm
      have := h.block_spec hl
      rw [h.header l hl]
      simp only [Extent.len]
      omega

/-- **No loss, no overlap.**  After every run of calls and client writes. -/
theorem live_conserved {base : Nat} {s : Sys} {mem : Mem} {answers : Nat → Option Nat}
    {es : List Event} (hb0 : 0 < base) (hb : base < 2 ^ 64)
    (hrun : Run (Step base) (init mem answers) es s) (hos : SbrkOk base s.heap.os) :
    ∃ fs, (s.heap.freep ≠ 0 → FreeRing base s fs) ∧ (s.heap.freep = 0 → fs = []) ∧
      Conserved base s fs := by
  rcases run_good hb0 hb hrun hos with ⟨hf, hl, hg⟩ | ⟨fs, h⟩
  · refine ⟨[], fun hf' => absurd hf hf', fun _ => rfl, ?_⟩
    constructor <;> simp [hl, liveBlocks, granted, hg]
  · exact ⟨fs, fun _ => h.freeRing, fun hf => absurd hf (h.freep_pos hb0), h.conserved⟩

theorem live_conserved_small : ∃ s fs, Run (Step 4096) (init (fun _ => 0) fun _ => some 65536)
    [.malloc 8, .malloc 8, .write 81904 7, .free 81872] s ∧ s.live = [⟨81904, 8⟩] ∧ Conserved 4096 s fs := by
  obtain ⟨s, hrun, hlive, -, hos⟩ := freed_run
  obtain ⟨fs, -, -, h⟩ := live_conserved (by decide) (by decide) hrun hos
  exact ⟨s, fs, hrun, hlive, h⟩

end CPrograms.Malloc
