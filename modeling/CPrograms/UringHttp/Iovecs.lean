import CPrograms.Lib.Chunks
import CPrograms.Lib.CInts
import CPrograms.Lib.Traces
import CPrograms.UringHttp.Server

/-!
# The iovecs of a body in `uring_test/uring_http.c`

`handle_get_method` counts the iovecs, `copy_file_contents` fills them, and the handler of a write
frees their buffers.  Here a `struct iovec` has the name of its buffer, in the order of the
allocations; `memory` says which allocations succeed, and the program ends at one that does not.
A store outside the array is a fault, and so is a free of what is not allocated.  The context that
is handed over is the body of the server's response (`parts_sendBody`).
-/

namespace CPrograms.UringHttp.Iovecs

open Chunks CInts Traces

instance : NeZero readSz := ⟨by decide⟩

/-! ## The heap -/

structure Heap where
  brk : Nat
  live : Nat → Bool
  fresh : ∀ p, brk ≤ p → live p = false

namespace Heap

def malloc (h : Heap) : Heap where
  brk := h.brk + 1
  live := Function.update h.live h.brk true
  fresh := by
    intro p hp
    rw [Function.update_of_ne (by omega)]
    exact h.fresh p (by omega)

def free (p : Nat) (h : Heap) : Option Heap :=
  if h.live p then
    some
      { h with
        live := Function.update h.live p false
        fresh := by
          intro q hq
          by_cases hp : q = p
          · rw [hp, Function.update_self]
          · rw [Function.update_of_ne hp]
            exact h.fresh q hq }
  else none

theorem live_malloc (h : Heap) (p : Nat) : h.malloc.live p = true ↔ h.live p = true ∨ p = h.brk := by
  show Function.update h.live h.brk true p = true ↔ _
  by_cases hp : p = h.brk
  · rw [hp, Function.update_self]
    exact iff_of_true rfl (.inr rfl)
  · rw [Function.update_of_ne hp, or_iff_left hp]

theorem free_of_live {h : Heap} {p : Nat} (hp : h.live p = true) :
    ∃ after, h.free p = some after ∧ ∀ q, after.live q = true ↔ h.live q = true ∧ q ≠ p := by
  unfold free
  rw [if_pos hp]
  refine ⟨_, rfl, fun q => ?_⟩
  show Function.update h.live p false q = true ↔ _
  by_cases hq : q = p
  · rw [hq, Function.update_self]
    exact iff_of_false Bool.false_ne_true (fun h => h.2 rfl)
  · rw [Function.update_of_ne hq, and_iff_left hq]

end Heap

/-! ## The program -/

structure Iovec where
  iovBase : Nat
  iovLen : Int

/-- A `struct context`. -/
structure Body where
  eventType : EventType
  iovecCount : Int
  clientSocket : Int
  pathFd : Int
  iov : List Iovec

/-- The loop of `copy_file_contents`, with what it stores at which index. -/
def fillLoop (memory : Nat → Bool) (remaining : Int) (currentBlock : Nat) (iovs : List Iovec) (h : Heap) :
    Traced (Nat × Iovec) (List Iovec × Heap) :=
  if remaining > 0 then
    let bytesToRead := next readSz remaining
    if memory h.brk then
      let v : Iovec := ⟨h.brk, bytesToRead⟩
      if currentBlock < iovs.length then do
        emit (currentBlock, v)
        fillLoop memory (remaining - bytesToRead) (currentBlock + 1) (iovs.set currentBlock v) h.malloc
      else Traced.fault (currentBlock, v)
    else Traced.stuck
  else pure (iovs, h)
termination_by remaining.toNat
decreasing_by
  rename_i hpos _ _
  have := (next_bounds (B := readSz) hpos).1
  omega

/-- `copy_file_contents`; `fd` is what `open` gives.  The request that it submits takes the iovecs
and their number from the context. -/
def copyFileContents (memory : Nat → Bool) (fd fileSize : Int) (ctx : Body) (h : Heap) :
    Traced (Nat × Iovec) (Body × Heap) :=
  if fd < 0 then Traced.stuck
  else do
    let r ← fillLoop memory fileSize 0 ctx.iov h
    pure ({ ctx with iov := r.1, pathFd := fd, eventType := .readFile }, r.2)

/-- `iovec_count`, an `int`; `none` where it overflows. -/
def countIovecs (stSize : Int) : Option Int :=
  let count := toInt (stSize.tdiv readSz)
  if stSize.tmod readSz ≠ 0 then if count < 2147483647 then some (count + 1) else none else some count

/-- The body in `handle_get_method`; `old` and `junk` are what is in the new memory. -/
def sendBody (memory : Nat → Bool) (fd sock stSize : Int) (old : Body) (junk : Nat → Iovec) (h : Heap) :
    Traced (Nat × Iovec) (Body × Heap) :=
  match countIovecs stSize with
  | none => Traced.stuck
  | some count =>
    if memory h.brk then
      copyFileContents memory fd stSize
        { old with iovecCount := count, clientSocket := sock, iov := (List.range count.toNat).map junk } h.malloc
    else Traced.stuck

/-- The loop in the handler of `EVENT_TYPE_WRITE`. -/
def freeLoop (ctx : Body) (i : Nat) (h : Heap) : Option Heap :=
  if i < ctx.iovecCount then
    match ctx.iov[i]? with
    | none => none
    | some v => (h.free v.iovBase).bind (freeLoop ctx (i + 1))
  else some h
termination_by (ctx.iovecCount - i).toNat

/-! ## What is promised -/

/-- The number of blocks of a file. -/
def blockCount (stSize : Int) : Int := stSize / readSz + if stSize % readSz = 0 then 0 else 1

/-- The context of a body, in which `stores` were made. -/
structure Bookkept (stSize : Int) (h : Heap) (stores : List (Nat × Iovec)) (ctx : Body) (h' : Heap) : Prop where
  count : ctx.iovecCount = blockCount stSize
  indices : stores.map Prod.fst = List.range ctx.iovecCount.toNat
  iov : ctx.iov = stores.map Prod.snd
  lens : ∀ v ∈ ctx.iov, 1 ≤ v.iovLen ∧ v.iovLen ≤ readSz
  full : ∀ v ∈ ctx.iov.dropLast, v.iovLen = readSz
  sum : (ctx.iov.map Iovec.iovLen).sum = stSize
  /-- its buffers are new -/
  fresh : ∀ v ∈ ctx.iov, h.live v.iovBase = false
  /-- and with the context all that was allocated -/
  allocated : ∀ p, h'.live p = true ↔ h.live p = true ∨ p = h.brk ∨ ∃ v ∈ ctx.iov, v.iovBase = p
  /-- when the write is over they are freed, and nothing else -/
  released : ∀ later : Heap, (∀ v ∈ ctx.iov, later.live v.iovBase = true) →
    ∃ after, freeLoop ctx 0 later = some after ∧
      ∀ p, after.live p = true ↔ later.live p = true ∧ ∀ v ∈ ctx.iov, v.iovBase ≠ p

/-! ## The fill -/

/-- Buffers that are allocated one after the other. -/
def blocks : Nat → List Int → List Iovec
  | _, [] => []
  | b, len :: lens => ⟨b, len⟩ :: blocks (b + 1) lens

theorem blocks_lens (lens : List Int) : ∀ b, (blocks b lens).map Iovec.iovLen = lens := by
  induction lens with
  | nil => exact fun _ => rfl
  | cons len lens ih =>
    intro b
    rw [blocks, List.map_cons, ih]

theorem blocks_bases (lens : List Int) : ∀ b, (blocks b lens).map Iovec.iovBase = List.range' b lens.length := by
  induction lens with
  | nil => exact fun _ => rfl
  | cons len lens ih =>
    intro b
    rw [blocks, List.map_cons, ih, List.length_cons, List.range'_succ]

theorem length_blocks (b : Nat) (lens : List Int) : (blocks b lens).length = lens.length := by
  have h : ((blocks b lens).map Iovec.iovLen).length = lens.length := congrArg List.length (blocks_lens lens b)
  rwa [List.length_map] at h

theorem mem_blocks_iff (b p : Nat) (lens : List Int) :
    (∃ v ∈ blocks b lens, v.iovBase = p) ↔ b ≤ p ∧ p < b + lens.length := by
  rw [← List.mem_map, blocks_bases, List.mem_range'_1]

section

variable {memory : Nat → Bool}

theorem fillLoop_zero (i : Nat) (iovs : List Iovec) (h : Heap) :
    fillLoop memory 0 i iovs h = pure (iovs, h) := by
  rw [fillLoop]
  exact if_neg (Int.lt_irrefl 0)

/-- A turn of the loop. -/
theorem fillLoop_turn {n : Int} (hn : 0 < n) (pre rest : List Iovec) (old : Iovec) (h : Heap)
    (hmem : memory h.brk = true) :
    fillLoop memory n pre.length (pre ++ old :: rest) h = (do
      emit (pre.length, (⟨h.brk, next readSz n⟩ : Iovec))
      fillLoop memory (n - next readSz n) (pre ++ [(⟨h.brk, next readSz n⟩ : Iovec)]).length
        (pre ++ [⟨h.brk, next readSz n⟩] ++ rest) h.malloc) := by
  have hlt : pre.length < (pre ++ old :: rest).length := by
    rw [List.length_append, List.length_cons]
    omega
  have hset : (pre ++ old :: rest).set pre.length ⟨h.brk, next readSz n⟩ =
      pre ++ [⟨h.brk, next readSz n⟩] ++ rest := by
    rw [List.set_append_right _ _ (Nat.le_refl _), Nat.sub_self, List.append_assoc]
    rfl
  rw [fillLoop, if_pos hn, if_pos hmem, if_pos hlt, hset, List.length_append]
  rfl

/-- The stores are made one after the other, and if it goes through all of them are. -/
theorem fillLoop_spec (n : Int) : ∀ (pre rest : List Iovec) (h : Heap), 0 ≤ n →
    rest.length = (chunks readSz n).length →
      (fillLoop memory n pre.length (pre ++ rest) h).events.map Prod.fst <+:
        List.range' pre.length rest.length ∧
      ((∀ k, memory k = true) → (fillLoop memory n pre.length (pre ++ rest) h).result ≠ none) ∧
      ∀ r, (fillLoop memory n pre.length (pre ++ rest) h).result = some r →
        (fillLoop memory n pre.length (pre ++ rest) h).events.map Prod.fst = List.range' pre.length rest.length ∧
        (fillLoop memory n pre.length (pre ++ rest) h).events.map Prod.snd = blocks h.brk (chunks readSz n) ∧
        r.1 = pre ++ blocks h.brk (chunks readSz n) ∧
        ∀ p, r.2.live p = true ↔ h.live p = true ∨ h.brk ≤ p ∧ p < h.brk + rest.length := by
  induction n using chunks_induction (B := readSz) with
  | zero =>
    intro pre rest h _ hlen
    rw [chunks_zero, List.length_nil] at hlen
    rw [List.length_eq_zero_iff.1 hlen, fillLoop_zero, chunks_zero]
    refine ⟨List.nil_prefix, fun _ => Option.some_ne_none _, fun r hr => ?_⟩
    rw [← Option.some.inj hr]
    refine ⟨rfl, rfl, rfl, fun p => (or_iff_left ?_).symm⟩
    rw [List.length_nil]
    omega
  | step n hn ih =>
    intro pre rest h hpos hlen
    have hlt : 0 < n := by omega
    have hnext := (next_bounds (B := readSz) hlt).2.2
    rw [chunks_of_ne hn, List.length_cons] at hlen
    obtain ⟨old, rest, rfl⟩ : ∃ old rest', rest = old :: rest' :=
      List.exists_cons_of_length_pos (by omega)
    rw [List.length_cons, Nat.succ_inj] at hlen
    by_cases hmem : memory h.brk = true
    · obtain ⟨hfirst, hall, hdone⟩ := ih (pre ++ [⟨h.brk, next readSz n⟩]) rest h.malloc (by omega) hlen
      rw [fillLoop_turn hlt pre rest old h hmem, events_emit_bind, result_bind, result_emit, Option.bind_some,
        List.length_cons, List.range'_succ, List.map_cons, List.map_cons, chunks_of_ne hn, blocks]
      have hlen' : (pre ++ [(⟨h.brk, next readSz n⟩ : Iovec)]).length = pre.length + 1 := List.length_append
      refine ⟨?_, hall, fun r hr => ?_⟩
      · rw [List.cons_prefix_cons, ← hlen']
        exact ⟨rfl, hfirst⟩
      · obtain ⟨hfst, hsnd, hiov, hlive⟩ := hdone r hr
        refine ⟨?_, ?_, ?_, fun p => ?_⟩
        · rw [hfst, hlen']
        · rw [hsnd]
          rfl
        · rw [hiov, List.append_assoc]
          rfl
        · rw [hlive, Heap.live_malloc, or_assoc]
          refine or_congr_right ?_
          show p = h.brk ∨ h.brk + 1 ≤ p ∧ p < h.brk + 1 + rest.length ↔ _
          omega
    · have hstuck : fillLoop memory n pre.length (pre ++ old :: rest) h = Traced.stuck := by
        rw [fillLoop, if_pos hlt, if_neg hmem]
      rw [hstuck]
      exact ⟨List.nil_prefix, fun hall => absurd (hall _) hmem, fun r hr => nomatch hr⟩

end

/-! ## The free -/

theorem freeLoop_spec {ctx : Body} (rest : List Iovec) : ∀ (pre : List Iovec) (h : Heap), ctx.iov = pre ++ rest →
    ctx.iovecCount = ctx.iov.length → (rest.map Iovec.iovBase).Nodup → (∀ v ∈ rest, h.live v.iovBase = true) →
      ∃ after, freeLoop ctx pre.length h = some after ∧
        ∀ p, after.live p = true ↔ h.live p = true ∧ ∀ v ∈ rest, v.iovBase ≠ p := by
  induction rest with
  | nil =>
    intro pre h hiov hcount _ _
    rw [List.append_nil] at hiov
    rw [freeLoop, if_neg (by rw [hcount, hiov]; omega)]
    exact ⟨h, rfl, fun p => (and_iff_left (List.forall_mem_nil _)).symm⟩
  | cons v rest ih =>
    intro pre h hiov hcount hnodup hlive
    rw [List.map_cons, List.nodup_cons] at hnodup
    obtain ⟨hv, hrest⟩ := List.forall_mem_cons.1 hlive
    have hget : ctx.iov[pre.length]? = some v := by
      rw [hiov, List.getElem?_append_right (Nat.le_refl _), Nat.sub_self]
      rfl
    have hlen : (pre ++ [v]).length = pre.length + 1 := List.length_append
    have hlt : (pre.length : Int) < ctx.iovecCount := by
      rw [hcount, hiov, List.length_append, List.length_cons]
      omega
    obtain ⟨h₁, hfree, hlive₁⟩ := Heap.free_of_live hv
    -- the other buffers are still there
    have hne : ∀ u ∈ rest, u.iovBase ≠ v.iovBase := fun u hu he => hnodup.1 (he ▸ List.mem_map_of_mem hu)
    obtain ⟨after, hloop, hafter⟩ := ih (pre ++ [v]) h₁ (by rw [hiov, List.append_assoc]; rfl) hcount hnodup.2
      fun u hu => (hlive₁ u.iovBase).2 ⟨hrest u hu, hne u hu⟩
    refine ⟨after, ?_, fun p => ?_⟩
    · rw [hlen] at hloop
      rw [freeLoop, if_pos hlt, hget]
      dsimp only
      rw [hfree, Option.bind_some, hloop]
    · rw [hafter, hlive₁, List.forall_mem_cons, and_assoc, ne_comm]

/-! ## The body -/

theorem countIovecs_eq {stSize : Int} (h : 0 ≤ stSize) (hfit : blockCount stSize ≤ 2147483647) :
    countIovecs stSize = some (blockCount stSize) := by
  have hquot : 0 ≤ stSize / readSz := Int.ediv_nonneg h (Int.natCast_nonneg _)
  have hle : stSize / readSz ≤ blockCount stSize := by
    unfold blockCount
    split
    · omega
    · omega
  unfold countIovecs
  rw [Int.tdiv_eq_ediv_of_nonneg h, Int.tmod_eq_emod_of_nonneg h, toInt_of_lt (by omega) (by omega)]
  unfold blockCount at hfit ⊢
  by_cases hz : stSize % readSz = 0
  · rw [if_neg (not_not_intro hz), if_pos hz, Int.add_zero]
  · rw [if_neg hz] at hfit
    rw [if_pos hz, if_neg hz, if_pos (by omega)]

theorem length_chunks_blockCount {stSize : Int} (h : 0 ≤ stSize) :
    ((chunks readSz stSize).length : Int) = blockCount stSize := length_chunks h

section

variable {memory : Nat → Bool} {fd sock stSize : Int} {old : Body} {junk : Nat → Iovec} {h : Heap}

/-- Up to the loop. -/
theorem sendBody_eq (h0 : 0 ≤ stSize) (hfit : blockCount stSize ≤ 2147483647) (hmem : memory h.brk = true)
    (hfd : 0 ≤ fd) : sendBody memory fd sock stSize old junk h = (do
      let r ← fillLoop memory stSize 0 ((List.range (chunks readSz stSize).length).map junk) h.malloc
      pure ({ old with
        iovecCount := blockCount stSize, clientSocket := sock, iov := r.1, pathFd := fd, eventType := .readFile },
        r.2)) := by
  have hlen : (blockCount stSize).toNat = (chunks readSz stSize).length := by
    rw [← length_chunks_blockCount h0, Int.toNat_natCast]
  unfold sendBody
  rw [countIovecs_eq h0 hfit]
  dsimp only
  rw [if_pos hmem, hlen]
  exact if_neg (by omega)

theorem sendBody_exits (h0 : 0 ≤ stSize) (hfit : blockCount stSize ≤ 2147483647)
    (hexit : ¬ (memory h.brk = true ∧ 0 ≤ fd)) : sendBody memory fd sock stSize old junk h = Traced.stuck := by
  unfold sendBody
  rw [countIovecs_eq h0 hfit]
  dsimp only
  split
  · next hmem => exact if_pos (Int.not_le.1 fun hfd => hexit ⟨hmem, hfd⟩)
  · rfl

/-- What the loop leaves is what is promised. -/
theorem bookkept_of_blocks {stores : List (Nat × Iovec)} {ctx : Body} {h' : Heap} (h0 : 0 ≤ stSize)
    (hcount : ctx.iovecCount = blockCount stSize) (hiov : ctx.iov = blocks (h.brk + 1) (chunks readSz stSize))
    (hindices : stores.map Prod.fst = List.range (chunks readSz stSize).length)
    (hstores : stores.map Prod.snd = ctx.iov)
    (hlive : ∀ p, h'.live p = true ↔
      h.malloc.live p = true ∨ h.brk + 1 ≤ p ∧ p < h.brk + 1 + (chunks readSz stSize).length) :
    Bookkept stSize h stores ctx h' := by
  have hchunks := length_chunks_blockCount h0
  have hlens : ctx.iov.map Iovec.iovLen = chunks readSz stSize := by rw [hiov, blocks_lens]
  have hbases : ctx.iov.map Iovec.iovBase = List.range' (h.brk + 1) (chunks readSz stSize).length := by
    rw [hiov, blocks_bases]
  have hlen : ctx.iovecCount = ctx.iov.length := by rw [hcount, hiov, length_blocks, hchunks]
  refine ⟨hcount, ?_, hstores.symm, fun v hv => ?_, fun v hv => ?_, ?_, fun v hv => ?_, fun p => ?_,
    fun later hall => ?_⟩
  · rw [hindices, hcount, ← hchunks, Int.toNat_natCast]
  · exact mem_chunks h0 v.iovLen (hlens ▸ List.mem_map_of_mem hv)
  · refine chunks_dropLast h0 v.iovLen ?_
    rw [← hlens, ← List.map_dropLast]
    exact List.mem_map_of_mem hv
  · rw [hlens, chunks_sum]
  · have hbase := List.mem_map_of_mem (f := Iovec.iovBase) hv
    rw [hbases, List.mem_range'_1] at hbase
    exact h.fresh v.iovBase (by omega)
  · rw [hlive, Heap.live_malloc, hiov, mem_blocks_iff, or_assoc]
  · exact freeLoop_spec ctx.iov [] later rfl hlen (hbases ▸ List.nodup_range') hall

/-- **The iovecs.**  No store is outside the array; if nothing fails the context is handed over, and
then its iovecs are as many as were counted, of the lengths of the blocks, and freed with the write. -/
theorem iovecs_bookkept (memory : Nat → Bool) (fd sock : Int) (old : Body) (junk : Nat → Iovec) (h : Heap)
    (h0 : 0 ≤ stSize) (hfit : blockCount stSize ≤ 2147483647) :
    (sendBody memory fd sock stSize old junk h).events.map Prod.fst <+: List.range (blockCount stSize).toNat ∧
      ((∀ k, memory k = true) → 0 ≤ fd → (sendBody memory fd sock stSize old junk h).result ≠ none) ∧
      ∀ ctx h', (sendBody memory fd sock stSize old junk h).result = some (ctx, h') →
        Bookkept stSize h (sendBody memory fd sock stSize old junk h).events ctx h' := by
  by_cases hstart : memory h.brk = true ∧ 0 ≤ fd
  · have hchunks := length_chunks_blockCount h0
    have hcount : (blockCount stSize).toNat = (chunks readSz stSize).length := by
      rw [← hchunks, Int.toNat_natCast]
    obtain ⟨hfirst, hall, hdone⟩ := @fillLoop_spec memory stSize []
      ((List.range (chunks readSz stSize).length).map junk) h.malloc h0
      (by rw [List.length_map, List.length_range])
    rw [List.nil_append, List.length_nil] at hfirst hall hdone
    rw [List.length_map, List.length_range, ← List.range_eq_range'] at hfirst hdone
    rw [sendBody_eq h0 hfit hstart.1 hstart.2, hcount]
    generalize fillLoop memory stSize 0 ((List.range (chunks readSz stSize).length).map junk) h.malloc = x at *
    cases hresult : x.result with
    | none =>
      rw [bind_of_fault hresult]
      exact ⟨hfirst, fun hmem => absurd hresult (hall hmem), fun _ _ hr => nomatch hr⟩
    | some r =>
      obtain ⟨hindices, hstores, hiov, hlive⟩ := hdone r hresult
      rw [events_bind_of_result hresult, result_bind, hresult, Option.bind_some]
      rw [show x.events ++ (pure _ : Traced (Nat × Iovec) (Body × Heap)).events = x.events from List.append_nil _]
      refine ⟨hfirst, fun _ _ => Option.some_ne_none _, fun ctx h' hr => ?_⟩
      obtain ⟨rfl, rfl⟩ := Prod.mk.inj (Option.some.inj hr)
      exact bookkept_of_blocks h0 rfl hiov hindices (hstores.trans hiov.symm) hlive
  · rw [sendBody_exits h0 hfit hstart]
    exact ⟨List.nil_prefix, fun hall hfd => absurd ⟨hall _, hfd⟩ hstart, fun _ _ hr => nomatch hr⟩

end

/-- A block and a byte. -/
theorem iovecs_bookkept_two : ∃ ctx h', (sendBody (fun _ => true) 3 4 4097 ⟨.accept, 0, 0, 0, []⟩ (fun _ => ⟨0, 0⟩)
      ⟨0, fun _ => false, fun _ _ => rfl⟩).result = some (ctx, h') ∧
    Bookkept 4097 ⟨0, fun _ => false, fun _ _ => rfl⟩
      (sendBody (fun _ => true) 3 4 4097 ⟨.accept, 0, 0, 0, []⟩ (fun _ => ⟨0, 0⟩)
        ⟨0, fun _ => false, fun _ _ => rfl⟩).events ctx h' := by
  obtain ⟨-, hsome, hall⟩ := @iovecs_bookkept 4097 (fun _ => true) 3 4 ⟨.accept, 0, 0, 0, []⟩ (fun _ => ⟨0, 0⟩)
    ⟨0, fun _ => false, fun _ _ => rfl⟩ (by decide) (by decide)
  obtain ⟨⟨ctx, h'⟩, hr⟩ := Option.ne_none_iff_exists'.1 (hsome (fun _ => rfl) (by decide))
  exact ⟨ctx, h', hr, hall ctx h' hr⟩

/-! ## The server's context -/

/-- What the server's model has of the context: its buffers, not yet written. -/
def Body.context (ctx : Body) : Context where
  eventType := ctx.eventType
  iovecCount := ctx.iovecCount.toNat
  clientSocket := ctx.clientSocket
  pathFd := ctx.pathFd
  iov := ctx.iov.map fun v => List.replicate v.iovLen.toNat none

theorem chunks_blockLens (n : Nat) : chunks readSz n = (blockLens n).map Int.ofNat := by
  fun_induction blockLens n with
  | case1 n hn b ih =>
    have hb : next readSz n = b := by
      show (if (n : Int) > readSz then (readSz : Int) else n) = ((if n > readSz then readSz else n : Nat) : Int)
      by_cases h : n > readSz
      · rw [if_pos h, if_pos (by omega)]
      · rw [if_neg h, if_neg (by omega)]
    have hle : b ≤ n := by
      show (if n > readSz then readSz else n) ≤ n
      split <;> omega
    rw [chunks_of_ne (by omega), hb, List.map_cons, ← ih, Int.ofNat_eq_natCast, Int.ofNat_sub hle]
  | case2 n hn =>
    obtain rfl : n = 0 := by omega
    exact chunks_zero

theorem blockCount_iovecCount (n : Nat) : blockCount n = iovecCount n := by
  rw [← length_chunks_blockCount (Int.natCast_nonneg n), chunks_blockLens, List.length_map, length_blockLens]

section

variable {fs : Fs} {memory : Nat → Bool} {path final : List UInt8} {f : File} {a : Answers} {sock : Int}
  {old ctx : Body} {junk : Nat → Iovec} {h h' : Heap}

theorem iov_sendBody {n fd : Nat} (hfit : iovecCount n < 2 ^ 31)
    (hr : (sendBody memory fd sock n old junk h).result = some (ctx, h')) :
    ctx = ⟨.readFile, iovecCount n, sock, fd, blocks (h.brk + 1) (chunks readSz n)⟩ := by
  have h0 : (0 : Int) ≤ n := Int.natCast_nonneg n
  have hfit' : blockCount n ≤ 2147483647 := by
    rw [blockCount_iovecCount]
    omega
  by_cases hstart : memory h.brk = true ∧ (0 : Int) ≤ fd
  · rw [sendBody_eq h0 hfit' hstart.1 hstart.2, result_bind] at hr
    obtain ⟨r, hloop, hr⟩ := Option.bind_eq_some_iff.1 hr
    have hdone := (@fillLoop_spec memory n [] ((List.range (chunks readSz n).length).map junk) h.malloc h0
      (by rw [List.length_map, List.length_range])).2.2
    rw [List.nil_append, List.length_nil] at hdone
    obtain ⟨-, -, hiov, -⟩ := hdone r hloop
    obtain ⟨rfl, -⟩ := Prod.mk.inj (Option.some.inj hr)
    rw [hiov, blockCount_iovecCount]
    rfl
  · rw [sendBody_exits h0 hfit' hstart] at hr
    cases hr

/-- The context that the iovecs' program hands over is the one of the server's response. -/
theorem parts_sendBody (hget : handleGetMethod fs path = .answer (.file final f))
    (hr : (sendBody memory a.fd sock f.content.length old junk h).result = some (ctx, h')) :
    parts a sock (.file final f) = [(headerCtx final f.content.length a.first sock, .writev sock 5),
      (ctx.context, .readv f.content ctx.iovecCount.toNat)] := by
  have hfit : iovecCount f.content.length < 2 ^ 31 := by
    unfold handleGetMethod at hget
    split at hget
    · cases hget
    split at hget
    · cases hget
    split at hget
    · split at hget
      · cases hget
      · next hcount =>
        split at hget
        · cases hget
          exact Nat.not_le.1 hcount
        · cases hget
    · cases hget
  have hctx := iov_sendBody hfit hr
  have hiov : (blocks (h.brk + 1) (chunks readSz f.content.length)).map
      (fun v => List.replicate v.iovLen.toNat (none : Option UInt8)) =
      (blockLens f.content.length).map (List.replicate · none) := by
    have hlens := blocks_lens (chunks readSz f.content.length) (h.brk + 1)
    calc (blocks (h.brk + 1) (chunks readSz f.content.length)).map
          (fun v => List.replicate v.iovLen.toNat (none : Option UInt8))
        = (((blocks (h.brk + 1) (chunks readSz f.content.length)).map Iovec.iovLen).map
            fun n => List.replicate n.toNat none) := by rw [List.map_map]; rfl
      _ = ((blockLens f.content.length).map Int.ofNat).map fun n => List.replicate n.toNat none := by
          rw [hlens, chunks_blockLens]
      _ = (blockLens f.content.length).map (List.replicate · none) := by rw [List.map_map]; rfl
  have hbody : ctx.context = bodyCtx f.content.length a.fd a.second sock := by
    rw [hctx]
    show Context.mk _ _ _ _ _ = Context.mk _ _ _ _ _
    rw [hiov, Int.toNat_natCast]
  rw [hbody, hctx, Int.toNat_natCast]
  rfl

end

end CPrograms.UringHttp.Iovecs
