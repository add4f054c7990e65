import CPrograms.UringCat.Model

/-!
# Are the files printed?

Both programs print a file from the memory of its blocks, all of it, whatever the kernel
delivered.  `uring_cat.c` takes each completion at once, an error included; `liburing_cat.c`
leaves a failed one in the queue, and takes it for that of every later file.  So the first
prints what was delivered exactly if every request is answered in full (`Covered`), and the
second if a failed one is the last as well (`CoveredOrLast`).
-/

namespace CPrograms.UringCat

open Chunks Traces Uring

/-! ## The memory of the blocks -/

/-- What the iovecs hold. -/
def content (iovecs : List Iovec) : List UInt8 := (iovecs.map fun v => v.mem.take v.len.toNat).flatten

structure Iovec.Ok (v : Iovec) : Prop where
  nonneg : 0 ≤ v.len
  fits : v.len ≤ v.mem.length

theorem content_cons (v : Iovec) (iovecs : List Iovec) :
    content (v :: iovecs) = v.mem.take v.len.toNat ++ content iovecs := by
  rw [content, List.map_cons, List.flatten_cons]
  rfl

theorem Iovec.Ok.length_take {v : Iovec} (h : v.Ok) : (v.mem.take v.len.toNat).length = v.len.toNat := by
  have := h.fits
  rw [List.length_take]
  omega

/-- The bytes, and then what was there before. -/
theorem content_scatter (iovecs : List Iovec) : ∀ bytes : List UInt8,
    (∀ v ∈ iovecs, v.Ok) → bytes.length ≤ (content iovecs).length →
      content (scatter iovecs bytes) = bytes ++ (content iovecs).drop bytes.length := by
  induction iovecs with
  | nil =>
    intro bytes _ hle
    rw [List.eq_nil_of_length_eq_zero (Nat.le_zero.1 hle)]
    rfl
  | cons v iovecs ih =>
    intro bytes hok hle
    obtain ⟨hv, hiovecs⟩ := List.forall_mem_cons.1 hok
    have hlen := hv.length_take
    rw [content_cons, List.length_append, hlen] at hle
    rw [scatter, content_cons, content_cons, ih _ hiovecs (by rw [List.length_drop]; omega),
      List.drop_append, hlen]
    dsimp only
    by_cases hlong : v.len.toNat ≤ bytes.length
    · have htake : (bytes.take v.len.toNat).length = v.len.toNat := List.length_take_of_le hlong
      rw [List.take_append_of_le_length (Nat.le_of_eq htake.symm), List.take_take, Nat.min_self,
        ← List.append_assoc, List.take_append_drop, List.length_drop,
        List.drop_eq_nil_of_le (by omega : (v.mem.take v.len.toNat).length ≤ bytes.length),
        List.nil_append]
    · have htake : bytes.take v.len.toNat = bytes := List.take_of_length_le (by omega)
      have hdrop : bytes.drop v.len.toNat = [] := List.drop_eq_nil_of_le (by omega)
      have hzero : bytes.length - v.len.toNat = 0 := by omega
      rw [htake, hdrop, hzero, List.take_append, List.take_of_length_le (by omega : bytes.length ≤ _),
        List.length_nil, List.drop_zero, List.nil_append, List.drop_take, List.append_assoc]

theorem scatter_ok (iovecs : List Iovec) : ∀ bytes : List UInt8,
    (∀ v ∈ iovecs, v.Ok) → ∀ v ∈ scatter iovecs bytes, v.Ok := by
  induction iovecs with
  | nil => exact fun _ _ => List.forall_mem_nil _
  | cons v iovecs ih =>
    intro bytes hok
    obtain ⟨hv, hiovecs⟩ := List.forall_mem_cons.1 hok
    rw [scatter, List.forall_mem_cons]
    refine ⟨⟨hv.nonneg, ?_⟩, ih _ hiovecs⟩
    have := hv.fits
    dsimp only
    rw [List.length_append, List.length_drop, List.length_take]
    omega

theorem length_scatter (iovecs : List Iovec) : ∀ bytes : List UInt8,
    (scatter iovecs bytes).length = iovecs.length := by
  induction iovecs with
  | nil => exact fun _ => rfl
  | cons v iovecs ih =>
    intro bytes
    rw [scatter, List.length_cons, ih, List.length_cons]

theorem outputToConsole_ok {v : Iovec} (h : v.Ok) : outputToConsole v = some (v.mem.take v.len.toNat) :=
  if_pos ⟨h.nonneg, h.fits⟩

theorem mapM_outputToConsole {iovecs : List Iovec} (h : ∀ v ∈ iovecs, v.Ok) :
    iovecs.mapM outputToConsole = some (iovecs.map fun v => v.mem.take v.len.toNat) := by
  induction iovecs with
  | nil => rfl
  | cons v iovecs ih =>
    obtain ⟨hv, hiovecs⟩ := List.forall_mem_cons.1 h
    rw [List.mapM_cons, outputToConsole_ok hv, ih hiovecs]
    rfl

theorem printBlocks_ok {fi : FileInfo} (hcount : countBlocks ringBlockSz fi.fileSz = fi.iovecs.length)
    (h : ∀ v ∈ fi.iovecs, v.Ok) : printBlocks fi = some (content fi.iovecs) := by
  unfold printBlocks
  dsimp only
  rw [hcount, if_neg (by omega), Int.toNat_natCast, List.take_length, mapM_outputToConsole h]
  rfl

/-! ## What a file is printed as -/

/-- The `file_info` of a file that was filled, after the kernel read. -/
def File.read (f : File) : FileInfo :=
  ⟨f.size, scatter (f.fileInfo (chunks ringBlockSz f.size)).iovecs f.reply.delivered⟩

section

variable {f : File}

theorem length_iovecs (lens : List Int) : (f.fileInfo lens).iovecs.length = lens.length := by
  rw [File.fileInfo, List.length_map, List.length_zipIdx]

theorem fileInfo_ok {lens : List Int} (h : ∀ len ∈ lens, 1 ≤ len ∧ len ≤ ringBlockSz) :
    ∀ v ∈ (f.fileInfo lens).iovecs, v.Ok := by
  intro v hv
  obtain ⟨⟨len, i⟩, hmem, rfl⟩ := List.mem_map.1 hv
  have hlen := h len (List.fst_mem_of_mem_zipIdx hmem)
  exact ⟨show 0 ≤ len by omega, (f.junk_length i).symm ▸ hlen.2⟩

/-- As many bytes as the lengths say. -/
theorem length_content (iovecs : List Iovec) (h : ∀ v ∈ iovecs, v.Ok) :
    ((content iovecs).length : Int) = (iovecs.map Iovec.len).sum := by
  induction iovecs with
  | nil => rfl
  | cons v iovecs ih =>
    obtain ⟨hv, hiovecs⟩ := List.forall_mem_cons.1 h
    have := hv.nonneg
    rw [content_cons, List.length_append, hv.length_take, List.map_cons, List.sum_cons, ← ih hiovecs]
    omega

theorem map_len_iovecs (lens : List Int) : (f.fileInfo lens).iovecs.map Iovec.len = lens := by
  rw [File.fileInfo, List.map_map]
  exact List.zipIdx_map_fst 0 lens

/-- The whole file is printed: what was delivered, and what was in the memory before. -/
theorem printBlocks_read (h : 0 ≤ f.size) (hlt : f.size < 2 ^ 31) :
    ∃ rest : List UInt8, printBlocks f.read = some (f.reply.delivered ++ rest) ∧
      (f.reply.delivered.length + rest.length : Int) = f.size := by
  have hok := fileInfo_ok (f := f) (mem_chunks (B := ringBlockSz) h)
  have hlen := length_content _ hok
  rw [map_len_iovecs, chunks_sum] at hlen
  have hasked := f.asked
  have hprint := @printBlocks_ok f.read
    (by
      show countBlocks ringBlockSz f.size = (scatter _ _).length
      rw [length_scatter, length_iovecs, countBlocks_small h hlt])
    (scatter_ok _ _ hok)
  refine ⟨_, hprint.trans (congrArg some (content_scatter _ _ hok (by omega))), ?_⟩
  rw [List.length_drop]
  omega

/-- Only a file that was delivered in full is printed as delivered. -/
theorem printFile_read {heap : List FileInfo} {k : Nat} (hheap : heap[k]? = some f.read)
    (h : 0 ≤ f.size) (hlt : f.size < 2 ^ 31) :
    ∃ printed : List UInt8, printFile heap k = emit (k, printed) ∧
      (printed = f.reply.delivered ↔ (f.reply.delivered.length : Int) = f.size) := by
  obtain ⟨rest, hprint, hlen⟩ := printBlocks_read h hlt
  refine ⟨_, by rw [printFile, hheap, Option.bind_some, hprint], ?_⟩
  rw [List.append_right_eq_self, List.eq_nil_iff_length_eq_zero]
  omega

end

/-! ## `uring_cat.c` -/

/-- There is memory for the `file_info`. -/
def File.granted (f : File) : Bool := f.malloc.grants (fileInfoSize (countBlocks ringBlockSz f.size))

def File.filled (f : File) : Option Filled :=
  if f.opens then submitToSqFill f.malloc f.memalign f.size else none

/-- The kernel gets a request for the file. -/
def File.requested (f : File) : Bool := f.filled.any fun filled => filled.finished && f.enter

/-- A size that is not an `int`, and at least as many allocations that succeed as were counted. -/
structure File.Overruns (f : File) : Prop where
  opens : f.opens = true
  granted : f.granted = true
  size : 2 ^ 31 ≤ f.size
  memalign : ∀ i < (countBlocks ringBlockSz f.size).toNat, f.memalign i = true

/-- Every request is answered in full. -/
def Covered : List File → Prop
  | [] => True
  | f :: files => ¬ f.Overruns ∧ (f.requested = true → f.reply.delivered.length = f.size ∧ Covered files)

/-- What is to be handled, of each file that gets a request: its own `file_info`, and what the
kernel delivered. -/
def expected (requested : File → Bool) : List File → Nat → List (Nat × Handled)
  | [], _ => []
  | f :: files, k =>
    if requested f then (k, k, f.reply.delivered) :: expected requested files (k + 1) else []

/-- More lengths are set than were counted. -/
theorem lt_length_fillLoop {memalign : Nat → Bool} (n : Int) : ∀ b current : Nat,
    b < (chunks ringBlockSz n).length →
      (b < (fillLoop ringBlockSz true memalign current n).1.length ↔
        ∀ i < b, memalign (current + i) = true) := by
  induction n using chunks_induction (B := ringBlockSz) with
  | zero =>
    intro b current hb
    rw [chunks_zero] at hb
    exact absurd hb (Nat.not_lt_zero b)
  | step n hn ih =>
    intro b current hb
    rw [chunks_of_ne hn, List.length_cons] at hb
    rw [fillLoop, if_neg hn]
    cases b with
    | zero =>
      refine iff_of_true ?_ (fun i hi => absurd hi (Nat.not_lt_zero i))
      by_cases halloc : memalign current
      · rw [if_pos halloc]
        exact Nat.succ_pos _
      · rw [if_neg halloc]
        exact Nat.succ_pos _
    | succ b =>
      rw [Nat.forall_lt_succ_left]
      by_cases halloc : memalign current
      · have hrec := ih b (current + 1) (Nat.lt_of_succ_lt_succ hb)
        rw [if_pos halloc]
        show b + 1 < (fillLoop _ _ _ _ _).1.length + 1 ↔ _
        rw [Nat.add_lt_add_iff_right, hrec]
        simp only [Nat.add_right_comm current 1, Nat.add_assoc]
        exact (and_iff_right halloc).symm
      · rw [if_neg halloc]
        exact iff_of_false (fun hlt => absurd (Nat.lt_of_succ_lt_succ hlt) (Nat.not_lt_zero b))
          (fun hand => halloc hand.1)

theorem countBlocks_lt_iff {memalign : Nat → Bool} {n : Int} (hn : n ≠ 0)
    (h : countBlocks ringBlockSz n < (chunks ringBlockSz n).length) :
    countBlocks ringBlockSz n < (fillLoop ringBlockSz true memalign 0 n).1.length ↔
      ∀ i < (countBlocks ringBlockSz n).toNat, memalign i = true := by
  have hchunks : 0 < (chunks ringBlockSz n).length := by
    rw [chunks_of_ne hn]
    exact Nat.succ_pos _
  have hpos := (@lt_length_fillLoop memalign n 0 0 hchunks).2
    fun i hi => absurd hi (Nat.not_lt_zero i)
  have hcount := @lt_length_fillLoop memalign n (countBlocks ringBlockSz n).toNat 0 (by omega)
  simp only [Nat.zero_add] at hcount
  rw [← hcount]
  clear hcount
  omega

section

variable {f : File}

/-- `submit_to_sq` asks for the `file_info`. -/
theorem submitToSqFill_eq (f : File) : submitToSqFill f.malloc f.memalign f.size =
    if f.size < 0 then none else if !f.granted then none else some (fill ringBlockSz true f.memalign f.size) := rfl

theorem filled_eq_some {filled : Filled} (h : f.filled = some filled) :
    f.opens = true ∧ f.granted = true ∧ 0 ≤ f.size ∧
      filled = fill ringBlockSz true f.memalign f.size := by
  unfold File.filled at h
  rw [submitToSqFill_eq] at h
  by_cases hopens : f.opens = true
  · rw [if_pos hopens] at h
    by_cases hneg : f.size < 0
    · rw [if_pos hneg] at h
      cases h
    · rw [if_neg hneg] at h
      by_cases hgranted : f.granted = true
      · rw [if_neg (by simp [hgranted])] at h
        exact ⟨hopens, hgranted, by omega, (Option.some.inj h).symm⟩
      · rw [if_pos (by simp [hgranted])] at h
        cases h
  · rw [if_neg hopens] at h
    cases h

theorem filled_eq_fill (hopens : f.opens = true) (hgranted : f.granted = true) (h : 0 ≤ f.size) :
    f.filled = some (fill ringBlockSz true f.memalign f.size) := by
  unfold File.filled
  rw [submitToSqFill_eq, if_pos hopens, if_neg (by omega), if_neg (by simp [hgranted])]

theorem lt_length_iff_overruns {filled : Filled} (h : f.filled = some filled) :
    filled.blocks < filled.lens.length ↔ f.Overruns := by
  obtain ⟨hopens, hgranted, hsize, rfl⟩ := filled_eq_some h
  by_cases hlt : f.size < 2 ^ 31
  · have hindex := (@fill_fits ringBlockSz _ true f.memalign f.size hsize hlt).index
    refine iff_of_false (by omega) fun hov => ?_
    have := hov.size
    omega
  · have hlarge := countBlocks_large (B := ringBlockSz) (M := 2097152) (n := f.size) (by decide) (by omega)
    have hcount := @countBlocks_lt_iff f.memalign f.size (by omega) hlarge
    constructor
    · intro hlong
      exact ⟨hopens, hgranted, by omega, hcount.1 hlong⟩
    · exact fun hov => hcount.2 hov.memalign

end

/-- Nothing is under way, and a `file_info` was allocated for each of the `k` files so far. -/
structure Idle (k : Nat) (s : Submitter) : Prop where
  sq : s.sqRing.head = s.sqRing.tail
  cq : s.cqRing.head = s.cqRing.tail
  heap : s.heap.length = k

/-- The one completion is that of the file number `k`. -/
structure Ready (f : File) (k : Nat) (s : Submitter) : Prop where
  sq : s.sqRing.head = s.sqRing.tail
  cq : s.cqRing.tail = s.cqRing.head + 1
  userData : (s.cqRing.cqes (s.cqRing.head &&& s.cqRing.ringMask)).userData = k
  info : s.heap[k]? = some f.read
  heap : s.heap.length = k + 1

theorem getElem?_read (heap : List FileInfo) (f : File) :
    ((heap ++ [f.fileInfo (chunks ringBlockSz f.size)]).modify heap.length
      fun fi => { fi with iovecs := scatter fi.iovecs f.reply.delivered })[heap.length]? = some f.read := by
  rw [List.getElem?_modify_eq, List.getElem?_concat_length]
  rfl

section

variable {f : File} {k fd : Nat} {s : Submitter}

/-- The request of the file, pushed and answered. -/
def Submitter.submitted (s : Submitter) (fd : Nat) (blocks : Int) (f : File) : Submitter :=
  let fi := s.heap.length
  let s := { s with heap := s.heap ++ [f.fileInfo (chunks ringBlockSz f.size)] }
  (s.push ⟨fd, fi, blocks, 0, fi⟩).kernel f.reply

/-- The kernel finds at the head what was put at the tail. -/
theorem ready_submitted {blocks : Int} (hs : Idle k s) : Ready f k (s.submitted fd blocks f) := by
  obtain ⟨hsq, hcq, hheap⟩ := hs
  have hentry : Function.update s.sqes (s.sqRing.tail &&& s.sqRing.ringMask)
      (⟨fd, s.heap.length, blocks, 0, s.heap.length⟩ : Sqe)
      (Function.update s.sqRing.array (s.sqRing.tail &&& s.sqRing.ringMask)
        (s.sqRing.tail &&& s.sqRing.ringMask) (s.sqRing.head &&& s.sqRing.ringMask)) =
        ⟨fd, s.heap.length, blocks, 0, s.heap.length⟩ := by
    rw [hsq, Function.update_self, Function.update_self]
  unfold Submitter.submitted Submitter.push Submitter.kernel
  dsimp only
  rw [hentry]
  constructor
  · show s.sqRing.head + 1 = s.sqRing.tail + 1
    rw [hsq]
  · show s.cqRing.tail + 1 = s.cqRing.head + 1
    rw [hcq]
  · dsimp only
    rw [hcq, Function.update_self]
    exact hheap
  · rw [← hheap]
    exact getElem?_read s.heap f
  · dsimp only
    rw [List.length_modify, List.length_append, hheap]
    rfl

theorem submitToSq_overrun (h : f.Overruns) : submitToSq fd f s = .overrun := by
  have hfilled := filled_eq_fill h.opens h.granted (by have := h.size; omega)
  have hlt := (lt_length_iff_overruns hfilled).2 h
  unfold File.filled at hfilled
  rw [if_pos h.opens] at hfilled
  unfold submitToSq
  rw [if_neg (by simp [h.opens]), hfilled]
  exact if_pos hlt

theorem submitToSq_failed (h : ¬ f.Overruns) (hr : f.requested = false) : submitToSq fd f s = .failed := by
  unfold submitToSq
  by_cases hopens : f.opens = true
  · have hfilled : f.filled = submitToSqFill f.malloc f.memalign f.size := if_pos hopens
    rw [if_neg (by simp [hopens]), ← hfilled]
    cases hf : f.filled with
    | none => rfl
    | some filled =>
      have hlt := fun h' => h ((lt_length_iff_overruns hf).1 h')
      unfold File.requested at hr
      rw [hf, Option.any_some, Bool.and_eq_false_iff] at hr
      dsimp only
      rw [if_neg hlt]
      by_cases hfin : filled.finished = true
      · rw [if_neg (by simp [hfin]), if_pos]
        simpa [hfin] using hr
      · rw [if_pos (by simp [hfin])]
  · rw [if_pos (by simp [hopens])]

/-- The kernel reads the file's own request. -/
theorem submitToSq_done (h : ¬ f.Overruns) (hr : f.requested = true) (hs : Idle k s) :
    (0 ≤ f.size ∧ f.size < 2 ^ 31) ∧ ∃ s', submitToSq fd f s = .done s' ∧ Ready f k s' := by
  unfold File.requested at hr
  cases hf : f.filled with
  | none =>
    rw [hf] at hr
    cases hr
  | some filled =>
    rw [hf, Option.any_some, Bool.and_eq_true] at hr
    obtain ⟨hfin, henter⟩ := hr
    obtain ⟨hopens, hgranted, hsize, hfill⟩ := filled_eq_some hf
    have hno := fun h' => h ((lt_length_iff_overruns hf).1 h')
    have hlens : filled.lens = chunks ringBlockSz f.size := by
      rw [hfill] at hfin ⊢
      exact (fillLoop_spec f.size 0).2 hfin
    have hlt : f.size < 2 ^ 31 := by
      by_contra hge
      have hlarge := countBlocks_large (B := ringBlockSz) (M := 2097152) (n := f.size) (by decide) (by omega)
      rw [hlens, hfill] at hno
      exact hno hlarge
    refine ⟨⟨hsize, hlt⟩, s.submitted fd filled.blocks f, ?_, ready_submitted hs⟩
    · unfold submitToSq
      have hsq : submitToSqFill f.malloc f.memalign f.size = some filled := by
        rw [← hf]
        exact (if_pos hopens).symm
      rw [if_neg (by simp [hopens]), hsq]
      dsimp only
      rw [if_neg hno, if_neg (by simp [hfin]), if_neg (by simp [henter]), hlens]
      rfl

/-- One completion is handled, and the queue is empty again. -/
theorem readFromCq_ready (hs : Ready f k s) (h : 0 ≤ f.size) (hlt : f.size < 2 ^ 31) :
    ∃ (printed : List UInt8) (s' : Submitter), readFromCq s = ⟨[(k, printed)], some s'⟩ ∧ Idle (k + 1) s' ∧
      (printed = f.reply.delivered ↔ (f.reply.delivered.length : Int) = f.size) := by
  obtain ⟨printed, hprint, hiff⟩ := printFile_read hs.info h hlt
  have hne : s.cqRing.head ≠ s.cqRing.tail := by
    rw [hs.cq]
    intro he
    have hnat := congrArg UInt32.toNat he
    have hlt32 := s.cqRing.head.toNat_lt
    rw [UInt32.toNat_add, UInt32.toNat_one] at hnat
    omega
  have hloop : readLoop s.cqRing s.heap s.cqRing.head = ⟨[(k, printed)], some (s.cqRing.head + 1)⟩ := by
    rw [readLoop, if_neg hne, hs.userData, hprint, readLoop, if_pos hs.cq.symm]
    rfl
  refine ⟨printed, { s with cqRing := { s.cqRing with head := s.cqRing.head + 1 } }, ?_, ?_, hiff⟩
  · unfold readFromCq
    rw [hloop]
    rfl
  · exact ⟨hs.sq, hs.cq.symm, hs.heap⟩

end

theorem uringCat_iff (files : List File) : ∀ (k : Nat) (s : Submitter), Idle k s →
    ((uringCat files k s).result ≠ none ∧ (uringCat files k s).events = expected File.requested files k ↔
      Covered files) := by
  induction files with
  | nil => exact fun k s _ => iff_of_true ⟨Option.some_ne_none _, rfl⟩ trivial
  | cons f files ih =>
    intro k s hs
    unfold Covered
    by_cases hov : f.Overruns
    · rw [uringCat, submitToSq_overrun hov]
      exact iff_of_false (fun h => h.1 rfl) (fun h => h.1 hov)
    · cases hr : f.requested with
      | false =>
        rw [uringCat, submitToSq_failed hov hr, expected, hr]
        exact iff_of_true ⟨Option.some_ne_none _, rfl⟩ ⟨hov, fun h => absurd h Bool.false_ne_true⟩
      | true =>
        obtain ⟨⟨h, hlt⟩, s', hsubmit, hready⟩ := @submitToSq_done f k k s hov hr hs
        obtain ⟨printed, s'', hread, hidle, hprint⟩ := readFromCq_ready hready h hlt
        have hrest := ih (k + 1) s'' hidle
        have hmark : (readFromCq s').mark k = ⟨[(k, k, printed)], some s''⟩ := by
          rw [hread]
          rfl
        rw [uringCat, hsubmit]
        dsimp only
        rw [expected, hr, if_pos rfl, hmark, result_bind, events_bind_of_result rfl, Option.bind_some,
          List.singleton_append, List.cons.injEq, Prod.mk.injEq, Prod.mk.injEq, and_iff_right rfl,
          and_iff_right rfl, hprint, ← hrest]
        constructor
        · exact fun ⟨hres, hfull, hev⟩ => ⟨hov, fun _ => ⟨hfull, hres, hev⟩⟩
        · exact fun ⟨_, hand⟩ => ⟨(hand rfl).2.1, (hand rfl).1, (hand rfl).2.2⟩

/-! ## `liburing_cat.c` -/

/-- Every file that is opened is answered in full, or with an error, and then the next one, if
there is one, is not opened. -/
def CoveredOrLast : List File → Prop
  | [] => True
  | f :: files =>
    f.opens = true → f.size < 2 ^ 31 ∧
      if f.reply.res < 0 then files.head?.any File.opens = false
      else f.reply.delivered.length = f.size ∧ CoveredOrLast files

theorem Reply.delivered_of_error {r : Reply} (h : r.res < 0) : r.delivered = [] := by
  cases r with
  | error errno pos => rfl
  | data bytes => exact absurd h (Int.not_lt.2 (Int.natCast_nonneg bytes.length))

theorem chunks_neg_one : chunks ringBlockSz (-1) = [-1] := by
  rw [chunks_of_ne (by decide)]
  exact congrArg _ chunks_zero

theorem countBlocks_lt_chunks_iff (f : File) :
    countBlocks ringBlockSz f.size < (chunks ringBlockSz f.size).length ↔ 2 ^ 31 ≤ f.size := by
  have hge := f.size_ge
  by_cases hneg : f.size = -1
  · rw [hneg, chunks_neg_one]
    exact iff_of_false (by decide) (by decide)
  · by_cases hlt : f.size < 2 ^ 31
    · rw [countBlocks_small (by omega) hlt]
      exact iff_of_false (Int.lt_irrefl _) (by omega)
    · exact iff_of_true (countBlocks_large (M := 2097152) (by decide) (by omega)) (by omega)

section

variable {f : File} {k : Nat} {s : Library}

/-- The `file_info` is allocated, and the request submitted. -/
def Library.submitted (s : Library) (f : File) : Library :=
  ⟨enqueue s.heap.length s.ring, s.heap ++ [f.fileInfo (chunks ringBlockSz f.size)]⟩

theorem submitReadRequest_of_opens (h : f.opens = true) :
    submitReadRequest f s = if 2 ^ 31 ≤ f.size then .overrun else .done (s.submitted f) := by
  unfold submitReadRequest submitReadRequestFill
  rw [if_neg (by simp [h]), fill_all]
  exact if_congr (countBlocks_lt_chunks_iff f) rfl rfl

theorem submitReadRequest_failed (h : f.opens = false) : submitReadRequest f s = .failed := by
  unfold submitReadRequest
  rw [if_pos (by simp [h])]

/-- The completion that `s` starts with is taken, whatever is submitted. -/
theorem cq_kernel {r : Reply} {j : Nat} {res : Int} (hs : s.ring = done j res) :
    ((s.submitted f).kernel r).ring.cq = [(j, res), (s.heap.length, r.res)] := by
  unfold Library.submitted Library.kernel
  rw [hs]
  rfl

theorem kernel_submitted (hs : s.ring = empty) (hk : s.heap.length = k) :
    ((s.submitted f).kernel f.reply).ring = done k f.reply.res ∧
      ((s.submitted f).kernel f.reply).heap.length = k + 1 ∧
        ((s.submitted f).kernel f.reply).heap[k]? = some f.read := by
  unfold Library.submitted Library.kernel
  rw [hs, ← hk]
  refine ⟨rfl, ?_, getElem?_read s.heap f⟩
  show (List.modify _ _ _).length = _
  rw [List.length_modify, List.length_append]
  rfl

/-- A length of -1 has no end. -/
theorem printBlocks_unknown (h : f.size = -1) : printBlocks f.read = none := by
  unfold File.read File.fileInfo
  rw [h, chunks_neg_one]
  rfl

theorem getCompletionAndPrint_error {j : Nat} {res : Int} {cqes : List (Nat × Int)}
    (hs : s.ring.cq = (j, res) :: cqes)
    (hres : res < 0) : getCompletionAndPrint s = ⟨[(j, [])], some s⟩ := by
  unfold getCompletionAndPrint
  rw [hs]
  dsimp only
  rw [if_pos hres]
  rfl

theorem getCompletionAndPrint_data {j : Nat} {res : Int} (hs : s.ring = done j res) (hres : ¬ res < 0) :
    getCompletionAndPrint s = (printFile s.heap j >>= fun _ => pure { s with ring := seen s.ring }) := by
  unfold getCompletionAndPrint
  rw [hs]
  dsimp only [done]
  rw [if_neg hres]

end

/-- After a failed request its completion is taken again. -/
theorem liburingCat_stale {k j : Nat} {res : Int} {s : Library} (files : List File) (hs : s.ring = done j res)
    (hres : res < 0) (hne : j ≠ k) :
    (liburingCat files k s).result ≠ none ∧ (liburingCat files k s).events = expected File.opens files k ↔
      files.head?.any File.opens = false := by
  cases files with
  | nil => exact iff_of_true ⟨Option.some_ne_none _, rfl⟩ rfl
  | cons g files =>
    rw [List.head?_cons, Option.any_some]
    cases hopens : g.opens with
    | false =>
      rw [liburingCat, submitReadRequest_failed hopens, expected, hopens]
      exact iff_of_true ⟨Option.some_ne_none _, rfl⟩ rfl
    | true =>
      refine iff_of_false (fun ⟨hresult, hevents⟩ => ?_) (fun h => absurd h.symm Bool.false_ne_true)
      rw [liburingCat, submitReadRequest_of_opens hopens] at hresult hevents
      by_cases hlarge : 2 ^ 31 ≤ g.size
      · rw [if_pos hlarge] at hresult
        exact hresult rfl
      · have hget := getCompletionAndPrint_error (cq_kernel (f := g) (r := g.reply) hs) hres
        rw [if_neg hlarge] at hevents
        dsimp only at hevents
        rw [hget, expected, hopens, if_pos rfl] at hevents
        exact hne (Prod.mk.inj (Prod.mk.inj (List.cons.inj hevents).1).2).1

theorem liburingCat_iff (files : List File) : ∀ (k : Nat) (s : Library), s.ring = empty → s.heap.length = k →
    ((liburingCat files k s).result ≠ none ∧ (liburingCat files k s).events = expected File.opens files k ↔
      CoveredOrLast files) := by
  induction files with
  | nil => exact fun k s _ _ => iff_of_true ⟨Option.some_ne_none _, rfl⟩ trivial
  | cons f files ih =>
    intro k s hs hk
    unfold CoveredOrLast
    cases hopens : f.opens with
    | false =>
      rw [liburingCat, submitReadRequest_failed hopens, expected, hopens]
      exact iff_of_true ⟨Option.some_ne_none _, rfl⟩ (fun h => absurd h Bool.false_ne_true)
    | true =>
      obtain ⟨hring, hheap, hinfo⟩ := kernel_submitted (f := f) hs hk
      rw [liburingCat, submitReadRequest_of_opens hopens, expected, hopens, if_pos rfl, forall_prop_of_true rfl]
      by_cases hlarge : 2 ^ 31 ≤ f.size
      · rw [if_pos hlarge]
        exact iff_of_false (fun h => h.1 rfl) (fun h => absurd h.1 (by omega))
      · rw [if_neg hlarge, and_iff_right (by omega : f.size < 2 ^ 31)]
        dsimp only
        by_cases hres : f.reply.res < 0
        · -- the completion stays where it is
          have hget := getCompletionAndPrint_error (congrArg Queues.cq hring) hres
          rw [hget, if_pos hres, Reply.delivered_of_error hres,
            ← liburingCat_stale files hring hres (Nat.ne_of_lt (Nat.lt_succ_self k))]
          show _ ∧ _ :: _ = _ ↔ _
          rw [List.cons.injEq, and_iff_right rfl]
          rfl
        · rw [getCompletionAndPrint_data hring hres, if_neg hres]
          by_cases hknown : f.size = -1
          · have hstuck : printFile ((s.submitted f).kernel f.reply).heap k = Traced.stuck := by
              rw [printFile, hinfo, Option.bind_some, printBlocks_unknown hknown]
            rw [hstuck]
            exact iff_of_false (fun h => h.1 rfl) (fun h => by omega)
          · have hge := f.size_ge
            obtain ⟨printed, hprint, hiff⟩ := printFile_read hinfo (by omega) (by omega)
            have hrest := ih (k + 1) { (s.submitted f).kernel f.reply with
              ring := seen ((s.submitted f).kernel f.reply).ring } (by rw [hring]; rfl) hheap
            rw [hprint, ← hrest, ← hiff]
            show _ ∧ _ :: _ = _ ↔ _
            rw [List.cons.injEq, Prod.mk.injEq, Prod.mk.injEq, and_iff_right rfl, and_iff_right rfl]
            exact and_left_comm

/-! ## Which files -/

/-- No access outside what was allocated, and each file printed as it was delivered, from the
completion of its own request. -/
def PrintsDelivered (requested : File → Bool) (files : List File) (x : Traced (Nat × Handled) Int) : Prop :=
  x.result ≠ none ∧ x.events = expected requested files 0

/-- **The output.**  When the two programs print what was delivered. -/
theorem output_exact (files : List File) (sqMask cqMask sqStart cqStart : UInt32) (array : UInt32 → UInt32)
    (sqes : UInt32 → Sqe) (cqes : UInt32 → Cqe) :
    (PrintsDelivered File.requested files
        (uringCat files 0 (startRings sqMask cqMask sqStart cqStart array sqes cqes)) ↔ Covered files) ∧
      (PrintsDelivered File.opens files (liburingCat files 0 ⟨empty, []⟩) ↔ CoveredOrLast files) :=
  ⟨uringCat_iff files 0 _ ⟨rfl, rfl, rfl⟩, liburingCat_iff files 0 _ rfl rfl⟩

/-- Four bytes that cannot be read: the errno is `EIO`. -/
def unreadable : File where
  opens := true
  size := 4
  size_ge := by decide
  malloc := .plenty
  memalign := fun _ => true
  junk := fun _ => List.replicate ringBlockSz 0
  junk_length := fun _ => List.length_replicate
  enter := true
  reply := .error 5 (by decide)
  asked := by decide

theorem requested_unreadable : unreadable.requested = true := by
  have hfilled : unreadable.filled = some (fill ringBlockSz true (fun _ => true) 4) := rfl
  unfold File.requested
  rw [hfilled, fill_all]
  rfl

/-- The first program prints it all the same, the second handles its completion a second time. -/
theorem unreadable_printed :
    ¬ PrintsDelivered File.requested [unreadable, unreadable]
        (uringCat [unreadable, unreadable] 0
          (startRings 0 1 0 0 (fun _ => 0) (fun _ => ⟨0, 0, 0, 0, 0⟩) (fun _ => ⟨0, 0⟩))) ∧
      ¬ PrintsDelivered File.opens [unreadable, unreadable]
        (liburingCat [unreadable, unreadable] 0 ⟨empty, []⟩) := by
  constructor
  · intro h
    have hcovered := (uringCat_iff _ 0 _ ⟨rfl, rfl, rfl⟩).1 h
    exact absurd (hcovered.2 requested_unreadable).1 (by decide)
  · intro h
    have hcovered := ((liburingCat_iff _ 0 _ rfl rfl).1 h rfl).2
    rw [if_pos (by decide)] at hcovered
    exact absurd hcovered (by decide)

end CPrograms.UringCat
