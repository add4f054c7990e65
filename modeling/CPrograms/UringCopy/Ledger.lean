import CPrograms.Lib.Tally
import Mathlib.Data.List.Nodup
import CPrograms.UringCopy.Model

/-!
# The ledger of `copy_file`

What a step of `copy_file` does is said once (`copyFile_cases`, `handle_cases`).  Whatever
the calls answer and in whatever order requests complete, every reachable state keeps its
ledger (`run_ledger`): each live `io_data` has exactly one request, `reads` and `writes`
count the live blocks by phase, and `insize` with the blocks still in the read phase adds up
to `write_left`.  So no assertion fails and no request is left on freed memory.
-/

namespace CPrograms.UringCopy

open Uring Tally Runs

/-! ## What a step does -/

/-- How a completion leaves the block that it makes `copy_file` queue again. -/
def Retry (d : IoData) (res : Int) (d' : IoData) : Prop :=
  (res = eagain ∧ d' = d) ∨ (0 ≤ res ∧ res ≠ d.iovLen ∧ d' = d.advance res.toNat)

/-- The request is queued again, behind the others. -/
def requeue (i : Nat) (d d' : IoData) (s : St) : St :=
  { s with
    ring := seen { s.ring with sq := s.ring.sq ++ [⟨d.read, i, d.offset⟩] }
    heap := Function.update s.heap i (some d') }

/-- A block that is read is queued for writing, and all that is prepared is submitted. -/
def turn (ret : Int) (i : Nat) (d : IoData) (s : St) : St :=
  { s with
    ring := seen (submit ret { s.ring with sq := s.ring.sq ++ [⟨false, i, d.firstOffset⟩] })
    heap := Function.update s.heap i (some d.setWrite)
    writeLeft := s.writeLeft - d.firstLen
    reads := decr s.reads
    writes := incr s.writes }

/-- A written block is freed. -/
def release (i : Nat) (s : St) : St :=
  { s with ring := seen s.ring, heap := Function.update s.heap i none, writes := decr s.writes }

inductive Handled (ret : Int) (i : Nat) (res : Int) (d : IoData) (s : St) : St → Prop
  | fatal : res < 0 → res ≠ eagain → Handled ret i res d s { s with pc := .ret 1 }
  | retry {d' : IoData} : Retry d res d' → Handled ret i res d s (requeue i d d' s)
  | turn : res = d.iovLen → d.read = true → Handled ret i res d s (turn ret i d s)
  | release : res = d.iovLen → d.read = false → Handled ret i res d s (release i s)

theorem handle_cases (ret res : Int) {i : Nat} {d : IoData} {s : St} (hd : s.heap i = some d)
    (hsq : s.ring.sq.length < queueDepth) : ∃ t, handle ret i res s = some t ∧ Handled ret i res d s t := by
  unfold handle
  rw [hd]
  dsimp only [queuePrepped, queueWrite]
  by_cases hneg : res < 0
  · rw [if_pos hneg]
    by_cases hag : res = eagain
    · rw [if_pos hag, push_of_lt hsq]
      have : Handled ret i res d s (requeue i d d s) := .retry (.inl ⟨hag, rfl⟩)
      rw [requeue, ← hd, Function.update_eq_self] at this
      exact ⟨_, rfl, this⟩
    · rw [if_neg hag]
      exact ⟨_, rfl, .fatal hneg hag⟩
  · rw [if_neg hneg]
    by_cases hlen : res = d.iovLen
    · rw [if_neg (by simpa using hlen)]
      cases hr : d.read with
      | true =>
        rw [push_of_lt hsq]
        exact ⟨_, rfl, .turn hlen hr⟩
      | false => exact ⟨_, rfl, .release hlen hr⟩
    · rw [if_pos hlen, push_of_lt hsq]
      exact ⟨_, rfl, .retry (.inr ⟨by omega, hlen, rfl⟩)⟩

/-- Size of the next block to read. -/
def thisSize (s : St) : Nat := if s.insize > blockSz then blockSz else s.insize

/-- A read of the next block is queued. -/
def readBlock (buf : Nat → UInt8) (s : St) : St :=
  { s with
    ring := { s.ring with sq := s.ring.sq ++ [⟨true, s.brk, s.offset⟩] }
    heap := Function.update s.heap s.brk (some (.setRead (thisSize s) s.offset buf))
    brk := s.brk + 1
    insize := s.insize - thisSize s
    offset := s.offset + thisSize s
    reads := incr s.reads }

/-- No read is queued in this turn of the inner loop. -/
def NoRead (a : Answers) (s : St) : Prop :=
  s.insize = 0 ∨ s.reads + s.writes ≥ queueDepth ∨ a.malloc = none ∨ s.ring.sq.length ≥ queueDepth

inductive Moves (a : Answers) (s : St) : St → Prop
  | finish : s.pc = .outer → s.insize = 0 → s.writeLeft = 0 → Moves a s { s with pc := .ret 0 }
  | enter : s.pc = .outer → ¬(s.insize = 0 ∧ s.writeLeft = 0) → Moves a s { s with pc := .fill s.reads }
  | filled {had : Nat} : s.pc = .fill had → NoRead a s → Moves a s { s with pc := .submit had }
  | read {had : Nat} {buf : Nat → UInt8} : s.pc = .fill had → ¬NoRead a s → a.malloc = some buf →
      Moves a s (readBlock buf s)
  | quiet : s.pc = .submit s.reads → Moves a s { s with pc := .drain false }
  | failed {had : Nat} : s.pc = .submit had → had ≠ s.reads → a.submit < 0 →
      Moves a s { s with pc := .ret 0, ring := submit a.submit s.ring }
  | submitted {had : Nat} : s.pc = .submit had → had ≠ s.reads → 0 ≤ a.submit →
      Moves a s { s with pc := .drain false, ring := submit a.submit s.ring }
  | drained {got : Bool} : s.pc = .drain got → s.writeLeft = 0 → Moves a s { s with pc := .outer }
  | error {got : Bool} : s.pc = .drain got → s.writeLeft ≠ 0 → a.cqe < 0 →
      (got = true → a.cqe ≠ eagain) → Moves a s { s with pc := .ret 1 }
  | idle : s.pc = .drain true → s.writeLeft ≠ 0 → a.cqe = eagain ∨ (0 ≤ a.cqe ∧ s.ring.cq = []) →
      Moves a s { s with pc := .outer }
  | took {got : Bool} {q : Sqe} {res : Int} {cs : List (Sqe × Int)} {t : St} : s.pc = .drain got →
      s.writeLeft ≠ 0 → 0 ≤ a.cqe → s.ring.cq = (q, res) :: cs →
      t = (handle a.submit q.data res { s with pc := .drain true }).getD { s with pc := .abort } →
      Moves a s t

theorem nextCqe_cases {got : Bool} {ans ret : Int} {r : Queues Sqe} {cqe : Option (Sqe × Int)}
    (h : nextCqe got ans r = some (ret, cqe)) :
    (ret < 0 ∧ ans < 0 ∧ (got = true → ans ≠ eagain)) ∨
      (ret = 0 ∧ cqe = none ∧ got = true ∧ (ans = eagain ∨ (0 ≤ ans ∧ r.cq = []))) ∨
      ∃ c cs, ret = 0 ∧ cqe = some c ∧ 0 ≤ ans ∧ r.cq = c :: cs := by
  unfold nextCqe waitCqe peekCqe at h
  by_cases hans : ans < 0
  · cases got with
    | false =>
      rw [if_pos rfl, if_pos hans] at h
      obtain ⟨rfl, -⟩ := Prod.mk.inj (Option.some.inj h)
      exact .inl ⟨hans, hans, fun hg => by cases hg⟩
    | true =>
      rw [if_neg (by decide), if_pos hans] at h
      dsimp only at h
      split at h
      · next he =>
        obtain ⟨rfl, rfl⟩ := Prod.mk.inj (Option.some.inj h)
        exact .inr (.inl ⟨rfl, rfl, rfl, .inl he⟩)
      · next he =>
        obtain ⟨rfl, -⟩ := Prod.mk.inj (Option.some.inj h)
        exact .inl ⟨hans, hans, fun _ => he⟩
  · cases hcq : r.cq with
    | nil =>
      cases got with
      | false => rw [if_pos rfl, if_neg hans, hcq] at h; cases h
      | true =>
        rw [if_neg (by decide), if_neg hans, hcq] at h
        obtain ⟨rfl, rfl⟩ := Prod.mk.inj (Option.some.inj h)
        exact .inr (.inl ⟨rfl, rfl, rfl, .inr ⟨by omega, rfl⟩⟩)
    | cons c cs =>
      refine .inr (.inr ⟨c, cs, ?_⟩)
      cases got with
      | false =>
        rw [if_pos rfl, if_neg hans, hcq] at h
        obtain ⟨rfl, rfl⟩ := Prod.mk.inj (Option.some.inj h)
        exact ⟨rfl, rfl, by omega, rfl⟩
      | true =>
        rw [if_neg (by decide), if_neg hans, hcq] at h
        obtain ⟨rfl, rfl⟩ := Prod.mk.inj (Option.some.inj h)
        exact ⟨rfl, rfl, by omega, rfl⟩

theorem queueRead_eq {mem : Option (Nat → UInt8)} {s t : St} {size off : Nat}
    (h : queueRead mem size off s = some t) : ∃ buf, mem = some buf ∧ s.ring.sq.length < queueDepth ∧
      t = { s with
        ring := { s.ring with sq := s.ring.sq ++ [⟨true, s.brk, off⟩] }
        heap := Function.update s.heap s.brk (some (.setRead size off buf))
        brk := s.brk + 1 } := by
  unfold queueRead at h
  cases mem with
  | none => cases h
  | some buf =>
    obtain ⟨r, hr, rfl⟩ := Option.map_eq_some_iff.1 h
    refine ⟨buf, rfl, ?_, by rw [push_eq hr]⟩
    by_contra hlen
    rw [push, if_neg hlen] at hr
    cases hr

theorem queueRead_none {mem : Option (Nat → UInt8)} {s : St} {size off : Nat}
    (h : queueRead mem size off s = none) : mem = none ∨ s.ring.sq.length ≥ queueDepth := by
  unfold queueRead at h
  cases mem with
  | none => exact .inl rfl
  | some buf =>
    rw [Option.map_eq_none_iff] at h
    by_contra hlen
    rw [push_of_lt (by omega)] at h
    cases h

/-- **Inversion.**  The steps of `copy_file`. -/
theorem copyFile_cases {a : Answers} {s t : St} (h : copyFile a s = some t) : Moves a s t := by
  unfold copyFile at h
  split at h
  · next hpc =>
    split at h
    · next h0 => cases h; exact .finish hpc h0.1 h0.2
    · next h0 => cases h; exact .enter hpc h0
  · next had hpc =>
    split at h
    · next h0 =>
      cases h
      exact .filled hpc (h0.imp id .inl)
    · next h0 =>
      dsimp only at h
      split at h
      · next hq =>
        cases h
        exact .filled hpc (.inr (.inr (queueRead_none hq)))
      · next hq =>
        obtain ⟨buf, hbuf, hlen, rfl⟩ := queueRead_eq hq
        cases h
        refine .read hpc ?_ hbuf
        rintro (h1 | h1 | h1 | h1)
        · exact h0 (.inl h1)
        · exact h0 (.inr h1)
        · rw [hbuf] at h1; cases h1
        · omega
  · next had hpc =>
    split at h
    · next hne =>
      dsimp only at h
      split at h
      · next hneg => cases h; exact .failed hpc hne hneg
      · next hneg => cases h; exact .submitted hpc hne (by omega)
    · next heq =>
      cases h
      rw [Decidable.not_not] at heq
      exact .quiet (heq ▸ hpc)
  · next got hpc =>
    split at h
    · next hw => cases h; exact .drained hpc hw
    · next hw =>
      split at h
      · cases h
      · next ret cqe hn =>
        rcases nextCqe_cases hn with ⟨h1, h2, h3⟩ | ⟨rfl, rfl, rfl, h1⟩ | ⟨c, cs, rfl, rfl, h1, h2⟩
        · rw [if_pos h1] at h
          cases h
          exact .error hpc hw h2 h3
        · cases h
          exact .idle hpc hw h1
        · exact .took hpc hw h1 h2 (Option.some.inj h).symm
  · cases h
  · cases h

theorem complete_cases {input : Nat → UInt8} {p : Nat} {res : Int} {s t : St}
    (h : complete input p res s = some t) : ∃ q ring d, Uring.complete p res s.ring = some (q, ring) ∧
      s.heap q.data = some d ∧ res ≤ d.iovLen ∧
      ((q.read = true ∧ t = { s with
          ring
          heap := Function.update s.heap q.data (some { d with
            buf := blit d.buf d.iovBase res.toNat fun i => input (q.offset + i) }) }) ∨
        (q.read = false ∧ t = { s with
          ring
          out := blit s.out q.offset res.toNat fun i => some (d.buf (d.iovBase + i)) })) := by
  unfold complete at h
  split at h
  · cases h
  · next q ring hq =>
    split at h
    · cases h
    · next d hd =>
      split at h
      · cases h
      · next hle =>
        refine ⟨q, ring, d, hq, hd, by omega, ?_⟩
        split at h
        · next hr => cases h; exact .inl ⟨hr, rfl⟩
        · next hr => cases h; exact .inr ⟨by simpa using hr, rfl⟩

/-! ## The ledger -/

def ids (r : Queues Sqe) : List Nat := (requests r).map Sqe.data

def inRead (d : IoData) : Nat := if d.read then 1 else 0

def inWrite (d : IoData) : Nat := if d.read then 0 else 1

/-- Bytes of `write_left` that stand for the block. -/
def toWrite (d : IoData) : Nat := if d.read then d.firstLen else 0

/-- `n` is the size of the input. -/
structure Ledger (n : Nat) (s : St) : Prop where
  nodup : (ids s.ring).Nodup
  live : ∀ i, (s.heap i).isSome ↔ i ∈ ids s.ring
  fresh : ∀ i ∈ ids s.ring, i < s.brk
  reads : s.reads = tally s.heap inRead (ids s.ring)
  writes : s.writes = tally s.heap inWrite (ids s.ring)
  left : s.writeLeft = s.insize + tally s.heap toWrite (ids s.ring)
  offset : s.offset + s.insize = n
  room : s.reads + s.writes ≤ queueDepth
  block : ∀ i d, s.heap i = some d → 0 < d.firstLen ∧ d.firstOffset + d.firstLen ≤ s.offset

/-- The variables of `copy_file` and the allocator. -/
def vars (s : St) : Nat × Int × Nat × Nat × Nat × Nat :=
  (s.insize, s.writeLeft, s.offset, s.reads, s.writes, s.brk)

section
variable {n : Nat} {s t : St}

theorem ledger_init (n : Nat) : Ledger n (init n) := by
  constructor <;> simp [init, ids, empty, requests]

/-- Requests move, blocks keep their phase and their place in the file. -/
theorem Ledger.frame (h : Ledger n s) (hp : (ids t.ring).Perm (ids s.ring)) (hv : vars t = vars s)
    (hlive : ∀ i, (t.heap i).isSome = (s.heap i).isSome)
    (hsame : ∀ i d', t.heap i = some d' → ∃ d, s.heap i = some d ∧ d'.read = d.read ∧
      d'.firstLen = d.firstLen ∧ d'.firstOffset = d.firstOffset) : Ledger n t := by
  simp only [vars, Prod.mk.injEq] at hv
  obtain ⟨h1, h2, h3, h4, h5, h6⟩ := hv
  have htally : ∀ w : IoData → Nat, (∀ d d', d'.read = d.read → d'.firstLen = d.firstLen → w d' = w d) →
      tally t.heap w (ids t.ring) = tally s.heap w (ids s.ring) := by
    intro w hw
    rw [tally_perm hp]
    unfold tally
    refine congrArg List.sum (List.map_congr_left fun i _ => ?_)
    have hl := hlive i
    cases ht : t.heap i with
    | none =>
      rw [ht] at hl
      cases hs : s.heap i with
      | none => rfl
      | some d => rw [hs] at hl; cases hl
    | some d' =>
      obtain ⟨d, hd, hr, hf, -⟩ := hsame i d' ht
      rw [hd]
      exact hw d d' hr hf
  constructor
  · exact hp.nodup_iff.2 h.nodup
  · intro i
    rw [hlive, h.live, hp.mem_iff]
  · intro i hi
    rw [h6]
    exact h.fresh i (hp.mem_iff.1 hi)
  · rw [h4, h.reads, htally]
    intro d d' hr _
    simp only [inRead, hr]
  · rw [h5, h.writes, htally]
    intro d d' hr _
    simp only [inWrite, hr]
  · rw [h1, h2, h.left, htally]
    intro d d' hr hf
    simp only [toWrite, hr, hf]
  · rw [h1, h3]; exact h.offset
  · rw [h4, h5]; exact h.room
  · intro i d' hd'
    obtain ⟨d, hd, -, hf, ho⟩ := hsame i d' hd'
    rw [hf, ho, h3]
    exact h.block i d hd

/-- Requests move, the blocks stay. -/
theorem Ledger.move (h : Ledger n s) (hp : (ids t.ring).Perm (ids s.ring)) (hv : vars t = vars s)
    (hheap : t.heap = s.heap) : Ledger n t := by
  refine h.frame hp hv (fun i => by rw [hheap]) fun i d hd => ⟨d, ?_, rfl, rfl, rfl⟩
  rwa [hheap] at hd

/-- Requests move and one block changes its pointers or its bytes. -/
theorem Ledger.touch (h : Ledger n s) (hp : (ids t.ring).Perm (ids s.ring)) (hv : vars t = vars s)
    {i : Nat} {d d' : IoData} (hd : s.heap i = some d)
    (hheap : t.heap = Function.update s.heap i (some d')) (hr : d'.read = d.read)
    (hf : d'.firstLen = d.firstLen) (ho : d'.firstOffset = d.firstOffset) : Ledger n t := by
  refine h.frame hp hv (fun j => ?_) fun j e he => ?_
  · by_cases hj : j = i
    · subst hj
      rw [hheap, Function.update_self, hd]
      rfl
    · rw [hheap, Function.update_of_ne hj]
  · by_cases hj : j = i
    · subst hj
      rw [hheap, Function.update_self] at he
      cases he
      exact ⟨d, hd, hr, hf, ho⟩
    · rw [hheap, Function.update_of_ne hj] at he
      exact ⟨e, he, rfl, rfl, rfl⟩

/-- The live blocks are as many as `reads` and `writes` say. -/
theorem Ledger.length (h : Ledger n s) : (ids s.ring).length = s.reads + s.writes := by
  rw [h.reads, h.writes, tally_add]
  refine (tally_one (fun d => ?_) fun i hi => (h.live i).2 hi).symm
  unfold inRead inWrite
  cases d.read <;> rfl

theorem Ledger.length_le (h : Ledger n s) : (requests s.ring).length ≤ queueDepth := by
  have h1 := h.length
  have h2 := h.room
  rw [ids, List.length_map] at h1
  omega

theorem Ledger.find (h : Ledger n s) {q : Sqe} (hq : q ∈ requests s.ring) :
    ∃ d, s.heap q.data = some d :=
  Option.isSome_iff_exists.1 ((h.live _).2 (List.mem_map_of_mem hq))

theorem length_requests (r : Queues Sqe) :
    (requests r).length = r.sq.length + r.inflight.length + r.cq.length := by
  simp [requests, Nat.add_assoc]

theorem ids_seen {r : Queues Sqe} {q : Sqe} {res : Int} {cs : List (Sqe × Int)}
    (hcq : r.cq = (q, res) :: cs) : (ids r).Perm (q.data :: ids (seen r)) :=
  (requests_seen hcq).map _

theorem ids_append (r : Queues Sqe) (q : Sqe) :
    (ids { r with sq := r.sq ++ [q] }).Perm (q.data :: ids r) :=
  (requests_push (push_of_lt (Nat.lt_succ_self r.sq.length))).map _

theorem ids_submit (ret : Int) (r : Queues Sqe) : (ids (submit ret r)).Perm (ids r) :=
  (requests_submit ret r).map _

/-- The request handled goes from the front of the completions to the end of the queue. -/
theorem ids_requeue {r : Queues Sqe} {q q' : Sqe} {res : Int} {cs : List (Sqe × Int)}
    (hcq : r.cq = (q, res) :: cs) (hq : q'.data = q.data) :
    (ids (seen { r with sq := r.sq ++ [q'] })).Perm (ids r) := by
  have h1 := ids_seen (r := { r with sq := r.sq ++ [q'] }) hcq
  have h2 := h1.symm.trans (ids_append r q')
  rw [hq] at h2
  exact h2.cons_inv

theorem incr_eq {k : Nat} (h : k < queueDepth) : incr k = k + 1 := by
  unfold queueDepth at h
  exact if_neg (by omega)

theorem decr_eq {k : Nat} (h0 : 0 < k) : decr k = k - 1 := if_neg (by omega)

theorem thisSize_spec (h : s.insize ≠ 0) : 0 < thisSize s ∧ thisSize s ≤ s.insize := by
  unfold thisSize blockSz
  split <;> omega

theorem not_noRead {a : Answers} (h : ¬NoRead a s) :
    s.insize ≠ 0 ∧ s.reads + s.writes < queueDepth ∧ s.ring.sq.length < queueDepth := by
  unfold NoRead at h
  refine ⟨fun h1 => h (.inl h1), ?_, ?_⟩
  · by_contra h1
    exact h (.inr (.inl (by omega)))
  · by_contra h1
    exact h (.inr (.inr (.inr (by omega))))

theorem Ledger.readBlock (h : Ledger n s) {a : Answers} (hn : ¬NoRead a s) (buf : Nat → UInt8) :
    Ledger n (readBlock buf s) := by
  obtain ⟨h0, hroom, -⟩ := not_noRead hn
  obtain ⟨hpos, hle⟩ := thisSize_spec h0
  have hp : (ids (UringCopy.readBlock buf s).ring).Perm (s.brk :: ids s.ring) := ids_append s.ring _
  have hbrk : s.brk ∉ ids s.ring := fun hi => Nat.lt_irrefl _ (h.fresh _ hi)
  have hi : incr s.reads = s.reads + 1 := incr_eq (by omega)
  have htally : ∀ w : IoData → Nat, tally (UringCopy.readBlock buf s).heap w
      (ids (UringCopy.readBlock buf s).ring) =
        w (.setRead (thisSize s) s.offset buf) + tally s.heap w (ids s.ring) := by
    intro w
    rw [tally_perm hp]
    exact tally_update_cons w _ hbrk
  constructor
  · exact hp.nodup_iff.2 (List.nodup_cons.2 ⟨hbrk, h.nodup⟩)
  · intro i
    rw [hp.mem_iff, List.mem_cons, ← h.live]
    by_cases hb : i = s.brk
    · subst hb; simp [UringCopy.readBlock]
    · simp [UringCopy.readBlock, hb]
  · intro i hm
    rcases List.mem_cons.1 (hp.mem_iff.1 hm) with rfl | hm
    · exact Nat.lt_succ_self _
    · exact Nat.lt_succ_of_lt (h.fresh i hm)
  · rw [htally, ← h.reads]
    exact hi.trans (Nat.add_comm _ _)
  · rw [htally, ← h.writes]
    exact (Nat.zero_add _).symm
  · have := h.left
    rw [htally]
    simp only [UringCopy.readBlock, toWrite, IoData.setRead, if_true]
    omega
  · have := h.offset
    simp only [UringCopy.readBlock]
    omega
  · simp only [UringCopy.readBlock, hi]
    omega
  · intro i d hd
    by_cases hb : i = s.brk
    · subst hb
      simp only [UringCopy.readBlock, Function.update_self, Option.some.injEq] at hd
      subst hd
      exact ⟨hpos, Nat.le_refl _⟩
    · simp only [UringCopy.readBlock, Function.update_of_ne hb] at hd
      have := h.block i d hd
      simp only [UringCopy.readBlock]
      omega

/-- The counters, split at the block that is handled. -/
theorem Ledger.split (h : Ledger n s) {q : Sqe} {res : Int} {cs : List (Sqe × Int)}
    (hcq : s.ring.cq = (q, res) :: cs) {d : IoData} (hd : s.heap q.data = some d) :
    q.data ∉ ids (seen s.ring) ∧ ∀ w : IoData → Nat,
      tally s.heap w (ids s.ring) = w d + tally s.heap w (ids (seen s.ring)) := by
  have hp := ids_seen hcq
  refine ⟨(List.nodup_cons.1 (hp.nodup_iff.1 h.nodup)).1, fun w => ?_⟩
  rw [tally_perm hp, tally_cons, hd]
  rfl

theorem Ledger.turn (h : Ledger n s) {q : Sqe} {res : Int} {cs : List (Sqe × Int)}
    (hcq : s.ring.cq = (q, res) :: cs) {d : IoData} (hd : s.heap q.data = some d)
    (hr : d.read = true) (ret : Int) : Ledger n (turn ret q.data d s) := by
  obtain ⟨hnot, hsplit⟩ := h.split hcq hd
  have hp : (ids (UringCopy.turn ret q.data d s).ring).Perm (q.data :: ids (seen s.ring)) := by
    have h1 := ids_seen (r := submit ret { s.ring with sq := s.ring.sq ++ [⟨false, q.data, d.firstOffset⟩] }) hcq
    have h2 := h1.symm.trans ((ids_submit ret _).trans (ids_append s.ring _))
    exact h2.cons_inv.trans (ids_seen hcq)
  have htally : ∀ w : IoData → Nat, tally (UringCopy.turn ret q.data d s).heap w
      (ids (UringCopy.turn ret q.data d s).ring) =
        w d.setWrite + tally s.heap w (ids (seen s.ring)) := by
    intro w
    rw [tally_perm hp]
    exact tally_update_cons w _ hnot
  have hreads := h.reads
  have hwrites := h.writes
  have hleft := h.left
  have hroom := h.room
  simp only [hsplit, inRead, inWrite, toWrite, hr, if_true] at hreads hwrites hleft
  have hdec : decr s.reads = s.reads - 1 := decr_eq (by omega)
  have hinc : incr s.writes = s.writes + 1 := incr_eq (by omega)
  have hsame := hp.trans (ids_seen hcq).symm
  constructor
  · exact hsame.nodup_iff.2 h.nodup
  · intro i
    rw [hsame.mem_iff, ← h.live]
    by_cases hi : i = q.data
    · subst hi; simp [UringCopy.turn, hd]
    · simp [UringCopy.turn, hi]
  · exact fun i hm => h.fresh i (hsame.mem_iff.1 hm)
  · rw [htally]
    simp [UringCopy.turn, hdec, inRead, IoData.setWrite]
    omega
  · rw [htally]
    simp [UringCopy.turn, hinc, inWrite, IoData.setWrite]
    omega
  · rw [htally]
    simp [UringCopy.turn, toWrite, IoData.setWrite]
    omega
  · exact h.offset
  · simp only [UringCopy.turn, hinc, hdec]
    omega
  · intro i e he
    by_cases hi : i = q.data
    · subst hi
      simp only [UringCopy.turn, Function.update_self, Option.some.injEq] at he
      subst he
      exact h.block q.data d hd
    · simp only [UringCopy.turn, Function.update_of_ne hi] at he
      exact h.block i e he

theorem Ledger.release (h : Ledger n s) {q : Sqe} {res : Int} {cs : List (Sqe × Int)}
    (hcq : s.ring.cq = (q, res) :: cs) {d : IoData} (hd : s.heap q.data = some d)
    (hr : d.read = false) : Ledger n (release q.data s) := by
  obtain ⟨hnot, hsplit⟩ := h.split hcq hd
  have hp := ids_seen hcq
  have htally : ∀ w : IoData → Nat, tally (UringCopy.release q.data s).heap w
      (ids (UringCopy.release q.data s).ring) = tally s.heap w (ids (seen s.ring)) :=
    fun w => tally_update_notMem none hnot
  have hreads := h.reads
  have hwrites := h.writes
  have hleft := h.left
  have hroom := h.room
  simp only [hsplit, inRead, inWrite, toWrite, hr] at hreads hwrites hleft
  have hdec : decr s.writes = s.writes - 1 := decr_eq (by simp at hwrites; omega)
  constructor
  · exact (List.nodup_cons.1 (hp.nodup_iff.1 h.nodup)).2
  · intro i
    show _ ↔ i ∈ ids (seen s.ring)
    have hm := h.live i
    rw [hp.mem_iff, List.mem_cons] at hm
    by_cases hi : i = q.data
    · subst hi; simp [UringCopy.release, hnot]
    · simpa [UringCopy.release, hi] using hm
  · exact fun i hm => h.fresh i (hp.mem_iff.2 (List.mem_cons_of_mem _ hm))
  · rw [htally]
    simpa [UringCopy.release] using hreads
  · rw [htally]
    simp only [UringCopy.release, hdec]
    simp at hwrites
    omega
  · rw [htally]
    simpa [UringCopy.release] using hleft
  · exact h.offset
  · simp only [UringCopy.release, hdec]
    omega
  · intro i e he
    by_cases hi : i = q.data
    · subst hi
      simp [UringCopy.release] at he
    · simp only [UringCopy.release, Function.update_of_ne hi] at he
      exact h.block i e he

/-- A completion is handled with its block live and room for one more request. -/
theorem Ledger.handle (h : Ledger n s) {q : Sqe} {res : Int} {cs : List (Sqe × Int)}
    (hcq : s.ring.cq = (q, res) :: cs) (ret : Int) : ∃ d t, s.heap q.data = some d ∧
      handle ret q.data res s = some t ∧ Handled ret q.data res d s t := by
  have hmem : q ∈ requests s.ring := mem_requests.2 (.inr (.inr ⟨res, by rw [hcq]; exact List.mem_cons_self⟩))
  obtain ⟨d, hd⟩ := h.find hmem
  have hlen := h.length_le
  rw [length_requests, hcq, List.length_cons] at hlen
  obtain ⟨t, ht⟩ := handle_cases ret res hd (by omega)
  exact ⟨d, t, hd, ht⟩

theorem Retry.frame {d d' : IoData} {res : Int} (h : Retry d res d') :
    d'.read = d.read ∧ d'.firstLen = d.firstLen ∧ d'.firstOffset = d.firstOffset := by
  rcases h with ⟨-, rfl⟩ | ⟨-, -, rfl⟩ <;> exact ⟨rfl, rfl, rfl⟩

theorem Ledger.handled (h : Ledger n s) {q : Sqe} {res ret : Int} {cs : List (Sqe × Int)}
    (hcq : s.ring.cq = (q, res) :: cs) {d : IoData} (hd : s.heap q.data = some d)
    (ht : Handled ret q.data res d s t) : Ledger n t := by
  cases ht with
  | fatal => exact h.move (List.Perm.refl _) rfl rfl
  | retry hretry =>
    obtain ⟨hr, hf, ho⟩ := hretry.frame
    exact h.touch (ids_requeue hcq rfl) rfl hd rfl hr hf ho
  | turn _ hr => exact h.turn hcq hd hr ret
  | release _ hr => exact h.release hcq hd hr

theorem Ledger.goto (h : Ledger n s) (pc : Pc) : Ledger n { s with pc } :=
  h.move (List.Perm.refl _) rfl rfl

theorem Ledger.copyFile (h : Ledger n s) {a : Answers} (hs : copyFile a s = some t) : Ledger n t := by
  cases copyFile_cases hs with
  | finish | enter | filled | quiet | drained | error | idle => exact h.goto _
  | read _ hn _ => exact h.readBlock hn _
  | failed | submitted => exact h.move (ids_submit _ _) rfl rfl
  | took _ _ _ hcq ht =>
    obtain ⟨d, u, hd, hu, hh⟩ := (h.goto (.drain true)).handle hcq a.submit
    rw [hu] at ht
    rw [ht]
    exact (h.goto (.drain true)).handled hcq hd hh

theorem Ledger.complete (h : Ledger n s) {input : Nat → UInt8} {p : Nat} {res : Int}
    (hs : complete input p res s = some t) : Ledger n t := by
  obtain ⟨q, ring, d, hc, hd, -, ⟨-, rfl⟩ | ⟨-, rfl⟩⟩ := complete_cases hs
  · exact h.touch ((requests_complete hc).map _) rfl hd rfl rfl rfl rfl
  · exact h.move ((requests_complete hc).map _) rfl rfl

theorem Ledger.step (h : Ledger n s) {input : Nat → UInt8} {e : Event} (hs : Step input s e t) :
    Ledger n t := by
  cases e with
  | prog a => exact h.copyFile hs
  | complete p res => exact h.complete hs

theorem run_ledger {input : Nat → UInt8} {es : List Event} (h : Run (Step input) (init n) es s) :
    Ledger n s :=
  h.invariant (Ledger n) (fun _ _ _ hl hs => hl.step hs) (ledger_init n)

/-- No assertion has failed. -/
theorem run_not_abort {input : Nat → UInt8} {es : List Event} (h : Run (Step input) (init n) es s) :
    s.pc ≠ .abort := by
  refine (h.invariant (fun s => Ledger n s ∧ s.pc ≠ .abort) ?_ ⟨ledger_init n, nofun⟩).2
  rintro s e t ⟨hl, hpc⟩ hs
  refine ⟨hl.step hs, ?_⟩
  cases e with
  | prog a =>
    cases copyFile_cases hs with
    | took _ _ _ hcq ht =>
      obtain ⟨d, u, -, hu, hh⟩ := (hl.goto (.drain true)).handle hcq a.submit
      rw [hu] at ht
      rw [ht]
      cases hh <;> exact nofun
    | read hfill => exact fun h => nomatch hfill.symm.trans h
    | finish | enter | filled | quiet | failed | submitted | drained | error | idle => exact nofun
  | complete p res =>
    obtain ⟨q, ring, d, -, -, -, ⟨-, rfl⟩ | ⟨-, rfl⟩⟩ := complete_cases hs <;> exact hpc

/-- The accounts of `copy_file`, with the live `io_data`s as a list. -/
structure Accounts (s : St) (live : List Nat) : Prop where
  nodup : live.Nodup
  mem : ∀ i, i ∈ live ↔ (s.heap i).isSome
  length : live.length = s.reads + s.writes
  room : live.length ≤ queueDepth
  /-- prepared, submitted, or completed and not yet taken -/
  request : ∀ i ∈ live, ((requests s.ring).filter (·.data = i)).length = 1
  outstanding : ∀ q ∈ requests s.ring, q.data ∈ live
  left : (s.insize : Int) + (tally s.heap toWrite live : Nat) = s.writeLeft
  /-- where a completion is there to be handled, `io_uring_get_sqe` has an entry -/
  entry : s.ring.cq ≠ [] → s.ring.sq.length < queueDepth
  assertions : s.pc ≠ .abort

/-- A request that is not completed stays with the ring. -/
theorem step_keeps {input : Nat → UInt8} {e : Event} (hl : Ledger n s) (hs : Step input s e t) {q : Sqe}
    (hq : q ∈ s.ring.sq ∨ q ∈ s.ring.inflight) : q ∈ requests t.ring := by
  have hmem : q ∈ requests s.ring := mem_requests.2 (hq.imp id .inl)
  cases e with
  | prog a =>
    cases copyFile_cases hs with
    | finish | enter | filled | quiet | drained | error | idle => exact hmem
    | read _ _ _ =>
      refine mem_requests.2 (hq.imp (fun h => ?_) .inl)
      exact List.mem_append_left _ h
    | failed | submitted => exact (requests_submit _ _).mem_iff.2 hmem
    | @took got q' res cs _ _ _ _ hcq ht =>
      obtain ⟨d, u, -, hu, hh⟩ := (hl.goto (.drain true)).handle hcq a.submit
      rw [hu] at ht
      rw [ht]
      cases hh with
      | fatal => exact hmem
      | retry =>
        refine mem_requests.2 (hq.imp (fun h => ?_) .inl)
        exact List.mem_append_left _ h
      | turn =>
        -- a request that was prepared may now be submitted
        have hsub : q ∈ requests (submit a.submit { s.ring with
            sq := s.ring.sq ++ [⟨false, q'.data, d.firstOffset⟩], cq := [] }) :=
          (requests_submit _ _).mem_iff.2 (mem_requests.2 (hq.imp (List.mem_append_left _) .inl))
        rcases mem_requests.1 hsub with h | h | ⟨res, h⟩
        · exact mem_requests.2 (.inl h)
        · exact mem_requests.2 (.inr (.inl h))
        · cases h
      | release => exact mem_requests.2 (hq.imp id .inl)
  | complete p res =>
    obtain ⟨q', ring, d, hc, -, -, ⟨-, rfl⟩ | ⟨-, rfl⟩⟩ := complete_cases hs
    · exact (requests_complete hc).mem_iff.2 hmem
    · exact (requests_complete hc).mem_iff.2 hmem

/-- **The accounts.**  They are right wherever a run of `copy_file` has got to, and what the
next step frees has no request that is prepared or submitted. -/
theorem copyFile_accounts {input : Nat → UInt8} {es : List Event}
    (h : Run (Step input) (init n) es s) : ∃ live, Accounts s live ∧
      ∀ e t, Step input s e t → ∀ i ∈ live, t.heap i = none →
        ∀ q, q ∈ s.ring.sq ∨ q ∈ s.ring.inflight → q.data ≠ i := by
  have hl := run_ledger h
  refine ⟨ids s.ring, ⟨hl.nodup, fun i => (hl.live i).symm, hl.length, ?_, fun i hi => ?_,
    fun q hq => List.mem_map_of_mem hq, hl.left.symm, fun hcq => ?_, run_not_abort h⟩, ?_⟩
  · rw [hl.length]
    exact hl.room
  · have hcount : (ids s.ring).count i = 1 := List.count_eq_one_of_mem hl.nodup hi
    rw [ids, List.count_eq_countP, List.countP_map, List.countP_eq_length_filter] at hcount
    exact hcount
  · have hlen := hl.length_le
    have hpos := List.length_pos_iff.2 hcq
    rw [length_requests] at hlen
    omega
  · rintro e t hs i - hfree q hq rfl
    obtain ⟨d, hd⟩ := (hl.step hs).find (step_keeps hl hs hq)
    rw [hfree] at hd
    cases hd

/-- Two blocks are read, and the first read is cut short and queued again. -/
theorem copyFile_accounts_retry : ∃ s live, s.reads = 2 ∧ s.ring.sq.length = 1 ∧ Accounts s live := by
  obtain ⟨s, hrun, hs⟩ := run_of_exec_map (step UInt8.ofNat) (init 20000)
    [.prog ⟨none, 0, 0⟩, .prog ⟨some fun _ => 0, 0, 0⟩, .prog ⟨some fun _ => 0, 0, 0⟩, .prog ⟨none, 0, 0⟩,
      .prog ⟨none, 2, 0⟩, .complete 0 1, .prog ⟨none, 0, 0⟩]
    (fun s => (s.reads, s.ring.sq.length)) (a := (2, 1)) (by decide +kernel)
  obtain ⟨h1, h2⟩ := Prod.mk.inj hs
  obtain ⟨live, hlive, -⟩ := copyFile_accounts hrun
  exact ⟨s, live, h1, h2, hlive⟩

end

end CPrograms.UringCopy
