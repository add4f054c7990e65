import CPrograms.UringCopy.Wait

/-!
# What `copy_file` writes

A short transfer moves the buffer pointer and the remaining length of a block, but not the
file offset, so the rest of the block is transferred at the wrong place
(`copyFile_misplaces`).  Without short transfers the copy is right, whatever the order of
the completions and however often they are `-EAGAIN`, provided that no `-EAGAIN` is left
unseen when `copy_file` returns (`copyFile_copies`).  The invariant is `Data`: a block in
the write phase holds its piece of the input, and a queue entry says how far its block is.
-/

namespace CPrograms.UringCopy

open Uring Tally Runs

/-- What the `p`-th submitted request asks for. -/
def asked (s : St) (p : Nat) : Option Nat :=
  s.ring.inflight[p]?.bind fun q => (s.heap q.data).map IoData.iovLen

/-- The request completes in full. -/
def Full (s : St) : Event → Prop
  | .prog _ => True
  | .complete p res => some res = (asked s p).map Int.ofNat

/-- The request does not complete short. -/
def Whole (s : St) : Event → Prop
  | .prog _ => True
  | .complete p res => res = eagain ∨ Full s (.complete p res)

instance (s : St) : DecidablePred (Full s)
  | .prog _ => .isTrue trivial
  | .complete p res => inferInstanceAs (Decidable (some res = (asked s p).map Int.ofNat))

instance (s : St) : DecidablePred (Whole s)
  | .prog _ => .isTrue trivial
  | .complete p res => inferInstanceAs (Decidable (res = eagain ∨ Full s (.complete p res)))

/-- The block holds its piece of the input. -/
def Holds (input : Nat → UInt8) (d : IoData) : Prop :=
  ∀ i < d.firstLen, d.buf i = input (d.firstOffset + i)

/-- The output has the block's piece. -/
def Written (out : Nat → Option UInt8) (d : IoData) : Prop :=
  ∀ x, d.firstOffset ≤ x → x < d.firstOffset + d.firstLen → out x ≠ none

/-- The three fields of a transfer stand at its start. -/
structure Placed (input : Nat → UInt8) (d : IoData) : Prop where
  offset : d.offset = d.firstOffset
  base : d.iovBase = 0
  len : d.iovLen = d.firstLen
  holds : d.read = false → Holds input d

/-- The block `d` of the completion `res` is through its phase, or asks for a retry. -/
def Ended (input : Nat → UInt8) (out : Nat → Option UInt8) (d : IoData) (res : Int) : Prop :=
  res = eagain ∨ (res = d.firstLen ∧ (d.read = true → Holds input d) ∧ (d.read = false → Written out d))

structure Data (input : Nat → UInt8) (s : St) : Prop where
  placed : ∀ i d, s.heap i = some d → Placed input d
  queued : ∀ q, q ∈ s.ring.sq ∨ q ∈ s.ring.inflight → ∀ d, s.heap q.data = some d →
    q.read = d.read ∧ q.offset = d.firstOffset
  ended : ∀ q res, (q, res) ∈ s.ring.cq → ∀ d, s.heap q.data = some d → Ended input s.out d res
  sound : ∀ x v, s.out x = some v → v = input x ∧ x < s.offset
  cover : ∀ x < s.offset, s.out x ≠ none ∨
    ∃ i d, s.heap i = some d ∧ d.firstOffset ≤ x ∧ x < d.firstOffset + d.firstLen

section
variable {n : Nat} {s t : St} {input : Nat → UInt8}

theorem data_init (input : Nat → UInt8) (n : Nat) : Data input (init n) := by
  constructor <;> simp [init, empty]

theorem Data.goto (h : Data input s) (pc : Pc) : Data input { s with pc } :=
  ⟨h.placed, h.queued, h.ended, h.sound, h.cover⟩

/-- Only the queues change, and no entry is new to the ones it may go to. -/
theorem Data.submit (h : Data input s) (ret : Int) (pc : Pc) :
    Data input { s with pc, ring := submit ret s.ring } := by
  refine ⟨h.placed, ?_, h.ended, h.sound, h.cover⟩
  intro q hq d hd
  refine h.queued q ?_ d hd
  rcases hq with hq | hq
  · exact .inl (List.mem_of_mem_drop hq)
  · rcases List.mem_append.1 hq with hq | hq
    · exact .inr hq
    · exact .inl (List.mem_of_mem_take hq)

theorem Ledger.brk_none (h : Ledger n s) : s.heap s.brk = none := by
  by_contra hne
  have := (h.live s.brk).1 (Option.isSome_iff_ne_none.2 hne)
  exact Nat.lt_irrefl _ (h.fresh _ this)

theorem Data.readBlock (h : Data input s) (hl : Ledger n s) (buf : Nat → UInt8) :
    Data input (readBlock buf s) := by
  have hbrk := hl.brk_none
  -- a request that is already there is for another block
  have hother : ∀ q d, q ∈ requests s.ring → (UringCopy.readBlock buf s).heap q.data = some d →
      s.heap q.data = some d := by
    intro q d hq hd
    obtain ⟨d', hd'⟩ := hl.find hq
    have hne : q.data ≠ s.brk := by
      intro he
      rw [he, hbrk] at hd'
      cases hd'
    simpa [UringCopy.readBlock, hne] using hd
  constructor
  · intro i d hd
    by_cases hi : i = s.brk
    · subst hi
      simp only [UringCopy.readBlock, Function.update_self, Option.some.injEq] at hd
      subst hd
      exact ⟨rfl, rfl, rfl, fun hr => by cases hr⟩
    · simp only [UringCopy.readBlock, Function.update_of_ne hi] at hd
      exact h.placed i d hd
  · intro q hq d hd
    rcases hq with hq | hq
    · rcases List.mem_append.1 hq with hq | hq
      · exact h.queued q (.inl hq) d (hother q d (mem_requests.2 (.inl hq)) hd)
      · obtain rfl := List.mem_singleton.1 hq
        simp only [UringCopy.readBlock, Function.update_self, Option.some.injEq] at hd
        subst hd
        exact ⟨rfl, rfl⟩
    · exact h.queued q (.inr hq) d (hother q d (mem_requests.2 (.inr (.inl hq))) hd)
  · intro q res hq d hd
    exact h.ended q res hq d (hother q d (mem_requests.2 (.inr (.inr ⟨res, hq⟩))) hd)
  · intro x v hx
    obtain ⟨h1, h2⟩ := h.sound x v hx
    exact ⟨h1, Nat.lt_of_lt_of_le h2 (Nat.le_add_right _ _)⟩
  · intro x hx
    by_cases hlt : x < s.offset
    · rcases h.cover x hlt with h1 | ⟨i, d, hd, h1⟩
      · exact .inl h1
      · refine .inr ⟨i, d, ?_, h1⟩
        have hi : i ≠ s.brk := by
          rintro rfl
          rw [hbrk] at hd
          cases hd
        simpa [UringCopy.readBlock, hi] using hd
    · refine .inr ⟨s.brk, _, Function.update_self .., ?_⟩
      simp only [UringCopy.readBlock, IoData.setRead] at hx ⊢
      omega

theorem mem_seen {r : Queues Sqe} {c : Sqe × Int} (h : c ∈ (seen r).cq) : c ∈ r.cq :=
  List.mem_of_mem_tail h

/-- A retry without a short transfer changes the queues only. -/
theorem Data.requeue (h : Data input s) {q : Sqe} {d : IoData} (hd : s.heap q.data = some d) :
    Data input (requeue q.data d d s) := by
  have hheap : (UringCopy.requeue q.data d d s).heap = s.heap := by
    unfold UringCopy.requeue
    rw [← hd]
    exact Function.update_eq_self _ _
  constructor
  · rw [hheap]; exact h.placed
  · intro q' hq' e he
    rw [hheap] at he
    rcases hq' with hq' | hq'
    · rcases List.mem_append.1 hq' with hq' | hq'
      · exact h.queued q' (.inl hq') e he
      · obtain rfl := List.mem_singleton.1 hq'
        obtain rfl : d = e := Option.some.inj (hd.symm.trans he)
        exact ⟨rfl, (h.placed _ _ hd).offset⟩
    · exact h.queued q' (.inr hq') e he
  · rw [hheap]
    exact fun q' res hq' => h.ended q' res (mem_seen hq')
  · exact h.sound
  · rw [hheap]; exact h.cover

/-- The requests other than the one handled are for other blocks. -/
theorem Ledger.other (h : Ledger n s) {q : Sqe} {res : Int} {cs : List (Sqe × Int)}
    (hcq : s.ring.cq = (q, res) :: cs) {q' : Sqe} (hq' : q' ∈ requests (seen s.ring)) :
    q'.data ≠ q.data := by
  have hp := ids_seen hcq
  have hnot := (List.nodup_cons.1 (hp.nodup_iff.1 h.nodup)).1
  intro he
  exact hnot (he ▸ List.mem_map_of_mem hq')

/-- A context that stays for the same block covers what it did. -/
theorem Data.cover_update (h : Data input s) {i : Nat} {d d' : IoData} (hd : s.heap i = some d)
    (hf : d'.firstOffset = d.firstOffset) (hlen : d'.firstLen = d.firstLen) {x : Nat} (hx : x < s.offset) :
    s.out x ≠ none ∨ ∃ j e, Function.update s.heap i (some d') j = some e ∧
      e.firstOffset ≤ x ∧ x < e.firstOffset + e.firstLen := by
  rcases h.cover x hx with h1 | ⟨j, e, he, h1⟩
  · exact .inl h1
  · by_cases hj : j = i
    · subst hj
      obtain rfl : d = e := Option.some.inj (hd.symm.trans he)
      refine .inr ⟨j, d', Function.update_self .., ?_⟩
      rw [hf, hlen]
      exact h1
    · exact .inr ⟨j, e, (Function.update_of_ne hj _ _).trans he, h1⟩

theorem Data.turn (h : Data input s) (hl : Ledger n s) {q : Sqe} {res : Int} {cs : List (Sqe × Int)}
    (hcq : s.ring.cq = (q, res) :: cs) {d : IoData} (hd : s.heap q.data = some d)
    (hholds : Holds input d) (ret : Int) : Data input (turn ret q.data d s) := by
  have hkeep : ∀ q' e, q' ∈ requests (seen s.ring) → (UringCopy.turn ret q.data d s).heap q'.data = some e →
      s.heap q'.data = some e := by
    intro q' e hq' he
    have hne := hl.other hcq hq'
    simpa [UringCopy.turn, hne] using he
  have hqueue : ∀ q', q' ∈ s.ring.sq ++ [⟨false, q.data, d.firstOffset⟩] ∨ q' ∈ s.ring.inflight →
      ∀ e, (UringCopy.turn ret q.data d s).heap q'.data = some e →
      q'.read = e.read ∧ q'.offset = e.firstOffset := by
    rintro q' (hq' | hq') e he
    · rcases List.mem_append.1 hq' with hq' | hq'
      · exact h.queued q' (.inl hq') e (hkeep q' e (mem_requests.2 (.inl hq')) he)
      · obtain rfl := List.mem_singleton.1 hq'
        simp only [UringCopy.turn, Function.update_self, Option.some.injEq] at he
        subst he
        exact ⟨rfl, rfl⟩
    · exact h.queued q' (.inr hq') e (hkeep q' e (mem_requests.2 (.inr (.inl hq'))) he)
  constructor
  · intro i e he
    by_cases hi : i = q.data
    · subst hi
      simp only [UringCopy.turn, Function.update_self, Option.some.injEq] at he
      subst he
      exact ⟨rfl, rfl, rfl, fun _ => hholds⟩
    · simp only [UringCopy.turn, Function.update_of_ne hi] at he
      exact h.placed i e he
  · intro q' hq'
    refine hqueue q' ?_
    rcases hq' with hq' | hq'
    · exact .inl (List.mem_of_mem_drop hq')
    · rcases List.mem_append.1 hq' with hq' | hq'
      · exact .inr hq'
      · exact .inl (List.mem_of_mem_take hq')
  · intro q' res' hq' e he
    exact h.ended q' res' (mem_seen hq') e (hkeep q' e (mem_requests.2 (.inr (.inr ⟨res', hq'⟩))) he)
  · exact h.sound
  · exact fun x hx => @Data.cover_update s input h q.data d d.setWrite hd rfl rfl x hx

theorem Data.release (h : Data input s) {q : Sqe} {d : IoData} (hd : s.heap q.data = some d)
    (hw : Written s.out d) : Data input (release q.data s) := by
  have hkeep : ∀ i e, (UringCopy.release q.data s).heap i = some e → s.heap i = some e := by
    intro i e he
    by_cases hi : i = q.data
    · subst hi; simp [UringCopy.release] at he
    · simpa [UringCopy.release, hi] using he
  constructor
  · exact fun i e he => h.placed i e (hkeep i e he)
  · exact fun q' hq' e he => h.queued q' hq' e (hkeep _ e he)
  · exact fun q' res hq' e he => h.ended q' res (mem_seen hq') e (hkeep _ e he)
  · exact h.sound
  · intro x hx
    rcases h.cover x hx with h1 | ⟨i, e, he, h1, h2⟩
    · exact .inl h1
    · by_cases hi : i = q.data
      · subst hi
        obtain rfl : d = e := Option.some.inj (hd.symm.trans he)
        exact .inl (hw x h1 h2)
      · exact .inr ⟨i, e, by simpa [UringCopy.release, hi] using he, h1, h2⟩

theorem blit_zero {α : Type} (dst : Nat → α) (pos : Nat) (src : Nat → α) : blit dst pos 0 src = dst := by
  funext i
  exact if_neg (by omega)

theorem blit_of_mem {α : Type} {dst src : Nat → α} {pos k i : Nat} (h : pos ≤ i) (h' : i < pos + k) :
    blit dst pos k src i = src (i - pos) := if_pos ⟨h, h'⟩

theorem asked_eq {p : Nat} {res : Int} {q : Sqe} {ring : Queues Sqe} {d : IoData}
    (hc : Uring.complete p res s.ring = some (q, ring)) (hd : s.heap q.data = some d) :
    asked s p = some d.iovLen := by
  obtain ⟨q', hq, he⟩ := Option.map_eq_some_iff.1 hc
  obtain ⟨rfl, -⟩ := Prod.mk.inj he
  simp [asked, hq, hd]

theorem whole_eq {p : Nat} {res : Int} {q : Sqe} {ring : Queues Sqe} {d : IoData}
    (hw : Whole s (.complete p res)) (hc : Uring.complete p res s.ring = some (q, ring))
    (hd : s.heap q.data = some d) : res = eagain ∨ res = d.iovLen := by
  refine hw.imp id fun h => ?_
  simp only [Full, asked_eq hc hd, Option.map_some, Option.some.injEq] at h
  exact h

/-- A block that is being read gets new bytes. -/
theorem Data.fillBlock (h : Data input s) {q : Sqe} {res : Int} {l₁ l₂ : List Sqe} {d d' : IoData}
    (hin : s.ring.inflight = l₁ ++ q :: l₂) (hd : s.heap q.data = some d) (hr : d.read = true)
    (hr' : d'.read = true) (hf : d'.firstOffset = d.firstOffset) (hlen : d'.firstLen = d.firstLen)
    (hplaced : Placed input d')
    (hres : (res = eagain ∧ d' = d) ∨ (res = d'.firstLen ∧ Holds input d')) :
    Data input { s with
      ring := ⟨s.ring.sq, l₁ ++ l₂, s.ring.cq ++ [(q, res)]⟩
      heap := Function.update s.heap q.data (some d') } := by
  have hlook : ∀ i e, Function.update s.heap q.data (some d') i = some e →
      (i = q.data ∧ e = d') ∨ (i ≠ q.data ∧ s.heap i = some e) := by
    intro i e he
    by_cases hi : i = q.data
    · subst hi
      rw [Function.update_self] at he
      exact .inl ⟨rfl, (Option.some.inj he).symm⟩
    · rw [Function.update_of_ne hi] at he
      exact .inr ⟨hi, he⟩
  constructor
  · intro i e he
    rcases hlook i e he with ⟨-, rfl⟩ | ⟨-, he⟩
    · exact hplaced
    · exact h.placed i e he
  · intro q' hq' e he
    have hold : q' ∈ s.ring.sq ∨ q' ∈ s.ring.inflight := by
      refine hq'.imp id fun h1 => ?_
      rw [hin]
      exact (List.Sublist.append_left (List.sublist_cons_self q l₂) l₁).mem h1
    rcases hlook _ e he with ⟨hi, rfl⟩ | ⟨-, he⟩
    · rw [hr', ← hr, hf]
      exact h.queued q' hold d (hi ▸ hd)
    · exact h.queued q' hold e he
  · intro q' res' hmem e he
    rcases List.mem_append.1 hmem with hold | hnew
    · rcases hlook _ e he with ⟨hi, rfl⟩ | ⟨-, he⟩
      · have hend := h.ended q' res' hold d (hi ▸ hd)
        rcases hres with ⟨-, rfl⟩ | ⟨-, hholds⟩
        · exact hend
        · refine hend.imp id fun h2 => ⟨by rw [hlen]; exact h2.1, fun _ => hholds, fun hr₁ => ?_⟩
          rw [hr'] at hr₁
          cases hr₁
      · exact h.ended q' res' hold e he
    · obtain ⟨rfl, rfl⟩ := Prod.mk.inj (List.mem_singleton.1 hnew)
      rcases hlook _ e he with ⟨-, rfl⟩ | ⟨hne, -⟩
      · refine hres.imp And.left fun h1 => ⟨h1.1, fun _ => h1.2, fun hr₁ => ?_⟩
        rw [hr'] at hr₁
        cases hr₁
      · exact absurd rfl hne
  · exact h.sound
  · exact fun x hx => h.cover_update hd hf hlen hx

theorem Data.completeRead (h : Data input s) {p : Nat} {res : Int} {q : Sqe} {ring : Queues Sqe} {d : IoData}
    (hc : Uring.complete p res s.ring = some (q, ring)) (hd : s.heap q.data = some d)
    (hq : q.read = true) (hres : res = eagain ∨ res = d.iovLen) :
    Data input { s with
      ring
      heap := Function.update s.heap q.data (some { d with
        buf := blit d.buf d.iovBase res.toNat fun i => input (q.offset + i) }) } := by
  obtain ⟨l₁, l₂, hin, rfl⟩ := complete_eq hc
  have hmem : q ∈ s.ring.inflight := by rw [hin]; simp
  obtain ⟨hread, hoff⟩ := h.queued q (.inr hmem) d hd
  rw [hq] at hread
  have hp := h.placed _ _ hd
  refine h.fillBlock hin hd hread.symm hread.symm rfl rfl ⟨hp.offset, hp.base, hp.len, fun hr => ?_⟩ ?_
  · rw [← hread] at hr
    cases hr
  · rcases hres with rfl | rfl
    · left
      rw [show Int.toNat eagain = 0 from rfl, blit_zero]
      exact ⟨rfl, rfl⟩
    · right
      refine ⟨congrArg Int.ofNat hp.len, fun i hi => ?_⟩
      show blit d.buf d.iovBase d.iovLen (fun i => input (q.offset + i)) i = input (d.firstOffset + i)
      rw [hp.base, hp.len, blit_of_mem (Nat.zero_le i) (by rw [Nat.zero_add]; exact hi), hoff, Nat.sub_zero]

theorem Data.completeWrite (h : Data input s) (hl : Ledger n s) {p : Nat} {res : Int} {q : Sqe}
    {ring : Queues Sqe} {d : IoData} (hc : Uring.complete p res s.ring = some (q, ring))
    (hd : s.heap q.data = some d) (hq : q.read = false) (hres : res = eagain ∨ res = d.iovLen) :
    Data input { s with
      ring
      out := blit s.out q.offset res.toNat fun i => some (d.buf (d.iovBase + i)) } := by
  obtain ⟨l₁, l₂, hin, rfl⟩ := complete_eq hc
  have hmem : q ∈ s.ring.inflight := by rw [hin]; simp
  obtain ⟨hread, hoff⟩ := h.queued q (.inr hmem) d hd
  have hplaced := h.placed _ _ hd
  have hholds := hplaced.holds (hread.symm.trans hq)
  have hle : res.toNat ≤ d.firstLen := by
    rcases hres with rfl | rfl
    · exact Nat.zero_le _
    · rw [hplaced.len, Int.toNat_natCast]
  have hmono : ∀ x, s.out x ≠ none →
      blit s.out q.offset res.toNat (fun i => some (d.buf (d.iovBase + i))) x ≠ none := by
    intro x hx
    unfold blit
    split
    · exact Option.some_ne_none _
    · exact hx
  constructor
  · exact h.placed
  · intro q' hq' e he
    refine h.queued q' (hq'.imp id fun h1 => ?_) e he
    rw [hin]
    exact (List.Sublist.append_left (List.sublist_cons_self q l₂) l₁).mem h1
  · intro q' res' hq' e he
    rcases List.mem_append.1 hq' with hq' | hq'
    · refine (h.ended q' res' hq' e he).imp id ?_
      rintro ⟨h1, h2, h3⟩
      exact ⟨h1, h2, fun hr x hx hx' => hmono x (h3 hr x hx hx')⟩
    · obtain ⟨rfl, rfl⟩ := Prod.mk.inj (List.mem_singleton.1 hq')
      obtain rfl : d = e := Option.some.inj (hd.symm.trans he)
      refine hres.imp id fun h1 => ⟨by rw [← hplaced.len]; exact h1, fun hr => ?_, fun _ x hx hx' => ?_⟩
      · rw [← hread, hq] at hr
        cases hr
      · show blit s.out q'.offset res'.toNat (fun i => some (d.buf (d.iovBase + i))) x ≠ none
        rw [h1, hplaced.len, hoff, Int.toNat_natCast, blit_of_mem hx hx']
        exact Option.some_ne_none _
  · intro x v hx
    by_cases hx' : q.offset ≤ x ∧ x < q.offset + res.toNat
    · simp only [blit_of_mem hx'.1 hx'.2, Option.some.injEq] at hx
      have hblock := hl.block _ _ hd
      rw [hplaced.base, Nat.zero_add, hholds _ (by omega), ← hoff, Nat.add_sub_cancel' hx'.1] at hx
      exact ⟨hx.symm, by show x < s.offset; omega⟩
    · simp only [blit, if_neg hx'] at hx
      exact h.sound x v hx
  · intro x hx
    exact (h.cover x hx).imp (hmono x) id

theorem Data.complete (h : Data input s) (hl : Ledger n s) {p : Nat} {res : Int}
    (hw : Whole s (.complete p res)) (hs : complete input p res s = some t) : Data input t := by
  obtain ⟨q, ring, d, hc, hd, -, ⟨hq, rfl⟩ | ⟨hq, rfl⟩⟩ := complete_cases hs
  · exact h.completeRead hc hd hq (whole_eq hw hc hd)
  · exact h.completeWrite hl hc hd hq (whole_eq hw hc hd)

theorem Data.handled (h : Data input s) (hl : Ledger n s) {q : Sqe} {res ret : Int}
    {cs : List (Sqe × Int)} (hcq : s.ring.cq = (q, res) :: cs) {d : IoData}
    (hd : s.heap q.data = some d) (ht : Handled ret q.data res d s t) : Data input t := by
  have hplaced := h.placed _ _ hd
  have hend := h.ended q res (by rw [hcq]; exact List.mem_cons_self) d hd
  have hfull : 0 ≤ res → res = d.firstLen ∧ (d.read = true → Holds input d) ∧
      (d.read = false → Written s.out d) := fun h0 =>
    hend.resolve_left fun he => by rw [he] at h0; exact absurd h0 (by decide)
  cases ht with
  | fatal => exact h.goto _
  | retry hretry =>
    rcases hretry with ⟨-, rfl⟩ | ⟨h0, hne, -⟩
    · exact h.requeue hd
    · rw [hplaced.len] at hne
      exact absurd (hfull h0).1 hne
  | turn hres hr => exact h.turn hl hcq hd ((hfull (by omega)).2.1 hr) ret
  | release hres hr => exact h.release hd ((hfull (by omega)).2.2 hr)

theorem Data.copyFile (h : Data input s) (hl : Ledger n s) {a : Answers} (hs : copyFile a s = some t) :
    Data input t := by
  cases copyFile_cases hs with
  | finish | enter | filled | quiet | drained | error | idle => exact h.goto _
  | read _ _ _ => exact h.readBlock hl _
  | failed | submitted => exact h.submit _ _
  | took _ _ _ hcq ht =>
    obtain ⟨d, u, hd, hu, hh⟩ := (hl.goto (.drain true)).handle hcq a.submit
    rw [hu] at ht
    rw [ht]
    exact (h.goto (.drain true)).handled (hl.goto _) hcq hd hh

/-! ## The end of the copy -/

/-- When the last block is queued for writing, everything prepared is submitted. -/
def Closed (s : St) : Prop :=
  (s.writeLeft = 0 → s.ring.sq = []) ∧ (s.pc = .ret 0 → s.writeLeft = 0)

theorem closed_submit {ret : Int} (hl : Ledger n s) (hret : queueDepth ≤ ret) :
    (submit ret s.ring).sq = [] := by
  have := hl.length_le
  rw [length_requests] at this
  rw [submit_all (by omega)]

theorem Closed.handled (h : Closed s) (hl : Ledger n s) {q : Sqe} {res ret : Int}
    {cs : List (Sqe × Int)} (hcq : s.ring.cq = (q, res) :: cs) {d : IoData} (hret : queueDepth ≤ ret)
    (hpc : s.pc = .drain true) (hw : s.writeLeft ≠ 0) (ht : Handled ret q.data res d s t) : Closed t := by
  cases ht with
  | fatal => exact ⟨h.1, fun he => by cases he⟩
  | retry _ => exact ⟨fun h0 => absurd h0 hw, fun he => by rw [requeue, hpc] at he; cases he⟩
  | turn _ _ =>
    refine ⟨fun _ => ?_, fun he => by rw [turn, hpc] at he; cases he⟩
    have hlen := hl.length_le
    rw [length_requests, hcq, List.length_cons] at hlen
    show (submit ret _).sq = []
    rw [submit_all (by simp only [List.length_append, List.length_singleton]; omega)]
  | release _ _ => exact ⟨fun h0 => absurd h0 hw, fun he => by rw [release, hpc] at he; cases he⟩

theorem Closed.copyFile (h : Closed s) (hl : Ledger n s) {a : Answers} (hk : Kernel (.prog a))
    (hs : copyFile a s = some t) : Closed t := by
  cases copyFile_cases hs with
  | finish _ _ hw => exact ⟨h.1, fun _ => hw⟩
  | enter | filled | quiet | drained | error | idle => exact ⟨h.1, fun he => by cases he⟩
  | read hpc hn _ =>
    refine ⟨fun h0 => ?_, fun he => by rw [readBlock, hpc] at he; cases he⟩
    exact absurd (hl.insize_zero h0) (not_noRead hn).1
  | failed _ _ hneg =>
    simp only [Kernel, queueDepth] at hk
    omega
  | submitted => exact ⟨fun _ => closed_submit hl hk, fun he => by cases he⟩
  | took hpc hw _ hcq ht =>
    obtain ⟨d, u, hd, hu, hh⟩ := (hl.goto (.drain true)).handle hcq a.submit
    rw [hu] at ht
    rw [ht]
    have h' : Closed { s with pc := .drain true } := ⟨h.1, fun he => by cases he⟩
    exact h'.handled (hl.goto _) hcq hk rfl hw hh

theorem Closed.complete (h : Closed s) {p : Nat} {res : Int} (hs : complete input p res s = some t) :
    Closed t := by
  obtain ⟨q, ring, d, hc, -, -, ⟨-, rfl⟩ | ⟨-, rfl⟩⟩ := complete_cases hs <;>
  · obtain ⟨l₁, l₂, -, rfl⟩ := complete_eq hc
    exact h

/-- The invariant of a run without short transfers. -/
structure Copying (n : Nat) (input : Nat → UInt8) (s : St) : Prop where
  ledger : Ledger n s
  data : Data input s
  closed : Closed s

theorem Copying.step (h : Copying n input s) {e : Event} (hk : Kernel e) (hw : Whole s e)
    (hs : Step input s e t) : Copying n input t := by
  refine ⟨h.ledger.step hs, ?_, ?_⟩
  · cases e with
    | prog a => exact h.data.copyFile h.ledger hs
    | complete p res => exact h.data.complete h.ledger hw hs
  · cases e with
    | prog a => exact h.closed.copyFile h.ledger hk hs
    | complete p res => exact h.closed.complete hs

theorem run_copying {es : List Event}
    (h : Run (Under (Step input) fun s e => Kernel e ∧ Whole s e) (init n) es s) : Copying n input s := by
  refine h.invariant (Copying n input) (fun s e t hc hs => hc.step hs.2.1 hs.2.2 hs.1) ?_
  exact ⟨ledger_init n, data_init input n, fun _ => rfl, fun he => by cases he⟩

/-- `copy_file` has returned 0 and every completion not taken is a success. -/
structure Ending (n : Nat) (input : Nat → UInt8) (s : St) : Prop where
  copying : Copying n input s
  pc : s.pc = .ret 0
  seen : ∀ c ∈ s.ring.cq, c.2 ≠ eagain

theorem Ending.step (h : Ending n input s) {e : Event} (hf : Full s e) (hs : Step input s e t) :
    Ending n input t := by
  cases e with
  | prog a =>
    have : copyFile a s = some t := hs
    rw [copyFile, h.pc] at this
    cases this
  | complete p res =>
    have hcl := h.copying.closed.complete hs
    have hd := h.copying.data.complete h.copying.ledger (.inr hf) hs
    refine ⟨⟨h.copying.ledger.step hs, hd, hcl⟩, ?_, ?_⟩
    · obtain ⟨q, ring, d, -, -, -, ⟨-, rfl⟩ | ⟨-, rfl⟩⟩ := complete_cases hs <;> exact h.pc
    · obtain ⟨q, ring, d, hc, hd', -, ht⟩ := complete_cases hs
      have hres : res = d.iovLen := by
        simp only [Full, asked_eq hc hd', Option.map_some, Option.some.injEq] at hf
        exact hf
      have hring : t.ring.cq = s.ring.cq ++ [(q, res)] := by
        obtain ⟨l₁, l₂, -, rfl⟩ := complete_eq hc
        rcases ht with ⟨-, rfl⟩ | ⟨-, rfl⟩ <;> rfl
      intro c hmem
      rw [hring] at hmem
      rcases List.mem_append.1 hmem with hold | hnew
      · exact h.seen c hold
      · rw [List.mem_singleton.1 hnew, hres]
        simp only [eagain]
        omega

/-- Nothing is read any more, and what is submitted has been written. -/
theorem Ending.copied (h : Ending n input s) (hdone : s.ring.inflight = []) (x : Nat) :
    s.out x = if x < n then some (input x) else none := by
  obtain ⟨⟨hl, hd, hc⟩, hpc, hseen⟩ := h
  have hw := hc.2 hpc
  have hin := hl.insize_zero hw
  have hoff := hl.offset
  have hleft := hl.left
  by_cases hx : x < n
  · rw [if_pos hx]
    have hwritten : s.out x ≠ none := by
      rcases hd.cover x (by omega) with h1 | ⟨i, d, hi, h1, h2⟩
      · exact h1
      · have hmem := (hl.live i).1 (by rw [hi]; rfl)
        obtain ⟨q, hq, rfl⟩ := List.mem_map.1 hmem
        have hr : d.read = false := by
          by_contra hr
          have hle := le_tally (w := toWrite) hmem hi
          have := (hl.block _ _ hi).1
          rw [Bool.not_eq_false] at hr
          simp only [toWrite, hr, if_true] at hle
          omega
        rcases mem_requests.1 hq with h3 | h3 | ⟨res, h3⟩
        · rw [hc.1 hw] at h3; cases h3
        · rw [hdone] at h3; cases h3
        · exact ((hd.ended q res h3 d hi).resolve_left (hseen _ h3)).2.2 hr x h1 h2
    obtain ⟨v, hv⟩ := Option.ne_none_iff_exists'.1 hwritten
    rw [hv, (hd.sound x v hv).1]
  · rw [if_neg hx]
    by_contra hne
    obtain ⟨v, hv⟩ := Option.ne_none_iff_exists'.1 hne
    have := (hd.sound x v hv).2
    omega

/-- **The copy is right** when no transfer is short and `copy_file` returns with no
`-EAGAIN` among the completions it has not taken. -/
theorem copyFile_copies {es fs : List Event} {u : St}
    (hrun : Run (Under (Step input) fun s e => Kernel e ∧ Whole s e) (init n) es s) (hret : s.pc = .ret 0)
    (hseen : ∀ c ∈ s.ring.cq, c.2 ≠ eagain) (hfull : Run (Under (Step input) Full) s fs u)
    (hdone : u.ring.inflight = []) (x : Nat) : u.out x = if x < n then some (input x) else none := by
  have hend : Ending n input u :=
    hfull.invariant (Ending n input) (fun s e t hs he => hs.step he.2 he.1) ⟨run_copying hrun, hret, hseen⟩
  exact hend.copied hdone x

end

/-- Two blocks: the first read is tried again, and the second block is read and written before it. -/
theorem copyFile_copies_byte : ∃ es u, Run (Step fun i => UInt8.ofNat (i / 2048 + 1)) (init 16385) es u ∧
    .complete 0 eagain ∈ es ∧ u.ring.inflight = [] ∧ u.out 0 = some 1 ∧ u.out 16384 = some 9 := by
  obtain ⟨s, u, hrun, hs, hfull, hu⟩ := run_of_exec_bind
    (guarded (step fun i => UInt8.ofNat (i / 2048 + 1)) fun s e => Kernel e ∧ Whole s e)
    (guarded (step fun i => UInt8.ofNat (i / 2048 + 1)) Full)
    (init 16385) [.prog calm, .prog calm, .prog calm, .prog calm, .prog calm, .complete 0 eagain,
      .complete 0 1, .prog calm, .prog calm, .complete 1 1, .prog calm, .complete 0 16384, .prog calm,
      .prog calm, .prog calm] [.complete 0 16384]
    (fun s => (s.pc, s.ring.cq.length)) (fun u => u.ring.inflight.length) (a := (.ret 0, 0)) (b := 0)
    (by decide +kernel)
  obtain ⟨hpc, hcq⟩ := Prod.mk.inj hs
  have hin := List.eq_nil_of_length_eq_zero hu
  have hcopy := copyFile_copies hrun.of_guarded hpc (fun c hc => by
    rw [List.eq_nil_of_length_eq_zero hcq] at hc
    cases hc) hfull.of_guarded hin
  exact ⟨_, u, (hrun.of_guarded.mono fun _ _ _ h => h.1).append (hfull.of_guarded.mono fun _ _ _ h => h.1),
    by simp, hin, hcopy 0, hcopy 16384⟩

/-- Two blocks: the read of the first ends after one byte, and the rest of its buffer is
then read from the start of the file again. -/
theorem copyFile_misplaces : ¬∀ n input es s fs u, Run (Under (Step input) fun _ e => Kernel e) (init n) es s →
    s.pc = .ret 0 → Run (Under (Step input) Full) s fs u → u.ring.inflight = [] →
    ∀ x, u.out x = if x < n then some (input x) else none := by
  intro h
  obtain ⟨s, u, hrun, hs, hfull, hu⟩ := run_of_exec_bind
    (step UInt8.ofNat) (guarded (step UInt8.ofNat) Full)
    (init 16385) [.prog calm, .prog calm, .prog calm, .prog calm, .prog calm, .complete 0 1,
      .prog calm, .complete 0 1, .prog calm, .complete 0 16383, .prog calm, .prog calm, .prog calm]
    [.complete 0 1, .complete 0 16384] St.pc
    (fun u => (u.ring.inflight.length, u.out 1)) (a := .ret 0) (b := (0, some 0)) (by decide +kernel)
  obtain ⟨hin, hout⟩ := Prod.mk.inj hu
  have := h 16385 UInt8.ofNat _ s _ u (hrun.under (by simp [Kernel, calm])) hs hfull.of_guarded
    (List.eq_nil_of_length_eq_zero hin) 1
  rw [hout] at this
  exact absurd this (by decide)

end CPrograms.UringCopy
