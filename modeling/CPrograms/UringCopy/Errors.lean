import CPrograms.UringCopy.Wait

/-!
# The failures that `copy_file` reports

What `copy_file` returns is decided by its calls and by the kernel: it is non-zero exactly
when the main loop's submit never fails and either a wait or a peek fails or a request fails
in time, which is before the kernel has completed the last read in full
(`ret_ne_zero_iff`).  A failed submit is not reported, and neither is a request that fails
after the last read; `failures_reported` says when a run reports its failures and when it has
seen every block written.
-/

namespace CPrograms.UringCopy

open Uring Tally Runs

/-- `io_uring_submit` after the reads answers an error. -/
def MainSubmitFails (s : St) : Event → Prop
  | .prog a => a.submit < 0 ∧ ∃ had, s.pc = .submit had ∧ had ≠ s.reads
  | .complete _ _ => False

/-- `io_uring_submit` in `queue_write` answers an error. -/
def WriteSubmitFails (s : St) : Event → Prop
  | .prog a => a.submit < 0 ∧ (∃ got, s.pc = .drain got) ∧ s.writeLeft ≠ 0 ∧ 0 ≤ a.cqe ∧
      ∃ q res cs d, s.ring.cq = (q, res) :: cs ∧ s.heap q.data = some d ∧ res = d.iovLen ∧ d.read = true
  | .complete _ _ => False

/-- `io_uring_wait_cqe` answers an error, or `io_uring_peek_cqe` another one than `-EAGAIN`. -/
def WaitFails (s : St) : Event → Prop
  | .prog a => a.cqe < 0 ∧ s.writeLeft ≠ 0 ∧ ∃ got, s.pc = .drain got ∧ (got = true → a.cqe ≠ eagain)
  | .complete _ _ => False

/-- A result that ends `copy_file`. -/
def Fatal (res : Int) : Prop := res < 0 ∧ res ≠ eagain

/-- The completions `cs` leave some of the input to be read: it is not queued yet, or the read
of a block is not among them in full. -/
def Unread (s : St) (cs : List (Sqe × Int)) : Prop :=
  s.insize ≠ 0 ∨ ∃ i d, s.heap i = some d ∧ d.read = true ∧ ∀ c ∈ cs, c.1.data = i → c.2 ≠ d.iovLen

/-- A request fails, and the kernel has not completed every read in full. -/
def FailsInTime (s : St) : Event → Prop
  | .prog _ => False
  | .complete _ res => Fatal res ∧ Unread s s.ring.cq

/-- A request fails after the last read. -/
def FailsLate (s : St) : Event → Prop
  | .prog _ => False
  | .complete _ res => Fatal res ∧ ¬Unread s s.ring.cq

/-- A submit or a request fails. -/
def Fails (s : St) : Event → Prop
  | .prog a => MainSubmitFails s (.prog a) ∨ WriteSubmitFails s (.prog a)
  | .complete _ res => Fatal res

/-- The whole input is read, and every block's write has been seen to end. -/
def AllSeen (s : St) : Prop := s.insize = 0 ∧ ∀ i, s.heap i = none

/-- Among the completions to be taken is a fatal one, and those before it leave something to
be read. -/
def Pending (s : St) : Prop :=
  ∃ pre q res post, s.ring.cq = pre ++ (q, res) :: post ∧ Fatal res ∧ Unread s pre

section
variable {n : Nat} {s t : St} {input : Nat → UInt8}

/-! ## A failure in time is met -/

theorem Unread.mono {cs cs' : List (Sqe × Int)} (h : Unread s cs) (hsub : cs' ⊆ cs) : Unread s cs' := by
  refine h.imp id ?_
  rintro ⟨i, d, hd, hr, hcs⟩
  exact ⟨i, d, hd, hr, fun c hc => hcs c (hsub hc)⟩

/-- What is left to be written counts what is left to be read. -/
theorem Ledger.unread_iff (h : Ledger n s) : Unread s [] ↔ s.writeLeft ≠ 0 := by
  have hleft := h.left
  constructor
  · rintro (h0 | ⟨i, d, hd, hr, -⟩)
    · omega
    · have hmem : i ∈ ids s.ring := (h.live i).1 (by rw [hd]; rfl)
      have hle := le_tally (w := toWrite) hmem hd
      have hpos := (h.block i d hd).1
      rw [toWrite, if_pos hr] at hle
      omega
  · intro hw
    by_contra hno
    have hzero : tally s.heap toWrite (ids s.ring) = 0 := by
      refine List.sum_eq_zero fun k hk => ?_
      obtain ⟨i, -, rfl⟩ := List.mem_map.1 hk
      cases hd : s.heap i with
      | none => rfl
      | some d =>
        show toWrite d = 0
        refine if_neg fun hr => hno (.inr ⟨i, d, hd, hr, ?_⟩)
        intro c hc
        cases hc
    have : s.insize = 0 := by
      by_contra h0
      exact hno (.inl h0)
    omega

theorem Pending.writeLeft (h : Pending s) (hl : Ledger n s) : s.writeLeft ≠ 0 := by
  obtain ⟨pre, q, res, post, -, -, hun⟩ := h
  exact hl.unread_iff.1 (hun.mono (List.nil_subset _))

/-- The steps that leave the completions and the blocks alone. -/
theorem Pending.congr (hcq : t.ring.cq = s.ring.cq) (hin : t.insize = s.insize)
    (hheap : t.heap = s.heap) : Pending t ↔ Pending s := by
  unfold Pending Unread
  rw [hcq, hin, hheap]

/-- The blocks of the completions are different. -/
theorem Ledger.cq_ne (h : Ledger n s) {q : Sqe} {res : Int} {cs : List (Sqe × Int)}
    (hcq : s.ring.cq = (q, res) :: cs) : ∀ c ∈ cs, c.1.data ≠ q.data := by
  intro c hc he
  have hnot := (List.nodup_cons.1 ((ids_seen hcq).nodup_iff.1 h.nodup)).1
  refine hnot ?_
  rw [← he]
  refine List.mem_map_of_mem (mem_requests.2 (.inr (.inr ⟨c.2, ?_⟩)))
  rw [seen, hcq]
  exact hc

/-- With the first completion taken, not a fatal one, what was pending still is. -/
theorem pending_tail {q : Sqe} {res : Int} {cs : List (Sqe × Int)} (hcq : s.ring.cq = (q, res) :: cs)
    (hres : ¬Fatal res) (ht : t.ring.cq = cs)
    (hun : ∀ pre, pre ⊆ cs → (Unread t pre ↔ Unread s ((q, res) :: pre))) : Pending t ↔ Pending s := by
  constructor
  · rintro ⟨pre, q', res', post, he, hf, hu⟩
    rw [ht] at he
    refine ⟨(q, res) :: pre, q', res', post, by rw [hcq, he]; rfl, hf, (hun pre ?_).1 hu⟩
    rw [he]
    exact List.subset_append_left _ _
  · rintro ⟨pre, q', res', post, he, hf, hu⟩
    rw [hcq] at he
    cases pre with
    | nil =>
      obtain ⟨⟨rfl, rfl⟩, -⟩ := he
      exact absurd hf hres
    | cons c pre =>
      obtain ⟨rfl, rfl⟩ := List.cons.inj he
      exact ⟨pre, q', res', post, ht, hf, (hun pre (List.subset_append_left _ _)).2 hu⟩

theorem eagain_ne (k : Nat) : eagain ≠ k := by
  unfold eagain
  omega

/-- The completion taken is not fatal: what was to be read still is, with it or without. -/
theorem unread_handled (hl : Ledger n s) {q : Sqe} {res ret : Int} {cs : List (Sqe × Int)}
    (hcq : s.ring.cq = (q, res) :: cs) {d : IoData} (hd : s.heap q.data = some d) (hres : ¬Fatal res)
    (ht : Handled ret q.data res d s t) : ∀ pre, pre ⊆ cs → (Unread t pre ↔ Unread s ((q, res) :: pre)) := by
  intro pre hpre
  have hne : ∀ c ∈ pre, c.1.data ≠ q.data := fun c hc => hl.cq_ne hcq c (hpre hc)
  -- every block but the one of the completion is as it was
  have hother : ∀ {i : Nat} {e : IoData}, i ≠ q.data → ((∀ c ∈ pre, c.1.data = i → c.2 ≠ e.iovLen) ↔
      ∀ c ∈ (q, res) :: pre, c.1.data = i → c.2 ≠ e.iovLen) := by
    intro i e hi
    rw [List.forall_mem_cons]
    exact ⟨fun h => ⟨fun he => absurd he.symm hi, h⟩, fun h => h.2⟩
  have hsame : ∀ {o : Option IoData}, t.heap = Function.update s.heap q.data o → t.insize = s.insize →
      ((∃ e, o = some e ∧ e.read = true) ↔ d.read = true ∧ res ≠ d.iovLen) →
      (Unread t pre ↔ Unread s ((q, res) :: pre)) := by
    intro o hheap hin ho
    unfold Unread
    rw [hin]
    refine or_congr Iff.rfl ⟨?_, ?_⟩
    · rintro ⟨i, e, he, hr, hcs⟩
      rw [hheap] at he
      by_cases hi : i = q.data
      · subst hi
        rw [Function.update_self] at he
        obtain ⟨h1, h2⟩ := ho.1 ⟨e, he, hr⟩
        refine ⟨q.data, d, hd, h1, List.forall_mem_cons.2 ⟨fun _ => h2, ?_⟩⟩
        exact fun c hc heq => absurd heq (hne c hc)
      · rw [Function.update_of_ne hi] at he
        exact ⟨i, e, he, hr, (hother hi).1 hcs⟩
    · rintro ⟨i, e, he, hr, hcs⟩
      rw [hheap]
      by_cases hi : i = q.data
      · subst hi
        rw [hd] at he
        cases he
        obtain ⟨e, he, hr'⟩ := ho.2 ⟨hr, hcs _ List.mem_cons_self rfl⟩
        refine ⟨q.data, e, by rw [Function.update_self, he], hr', ?_⟩
        exact fun c hc heq => absurd heq (hne c hc)
      · exact ⟨i, e, by rw [Function.update_of_ne hi, he], hr, (hother hi).2 hcs⟩
  cases ht with
  | fatal h1 h2 => exact absurd ⟨h1, h2⟩ hres
  | @retry d' hr =>
    refine hsame rfl rfl ⟨?_, fun h => ⟨d', rfl, hr.frame.1.trans h.1⟩⟩
    rintro ⟨e, he, hread⟩
    cases he
    refine ⟨hr.frame.1.symm.trans hread, ?_⟩
    rcases hr with ⟨rfl, -⟩ | ⟨-, hlen, -⟩
    · exact eagain_ne _
    · exact hlen
  | turn hlen _ =>
    refine hsame rfl rfl ⟨?_, fun h => absurd hlen h.2⟩
    rintro ⟨e, he, hread⟩
    cases he
    cases hread
  | release _ hw =>
    refine hsame rfl rfl ⟨?_, fun h => ?_⟩
    · rintro ⟨e, he, -⟩
      cases he
    · rw [hw] at h
      cases h.1

theorem pending_readBlock (hl : Ledger n s) {a : Answers} (hn : ¬NoRead a s) (buf : Nat → UInt8) :
    Pending (readBlock buf s) ↔ Pending s := by
  have hin := (not_noRead hn).1
  have hbrk : s.brk ∉ ids s.ring := fun hi => Nat.lt_irrefl _ (hl.fresh _ hi)
  unfold Pending
  refine exists_congr fun pre => exists_congr fun q => exists_congr fun res => exists_congr fun post =>
    and_congr_right fun hcq => and_congr_right fun _ => ⟨fun _ => .inl hin, fun _ => .inr ?_⟩
  refine ⟨s.brk, _, Function.update_self .., rfl, ?_⟩
  intro c hc he
  refine absurd ?_ hbrk
  rw [← he]
  refine List.mem_map_of_mem (mem_requests.2 (.inr (.inr ⟨c.2, ?_⟩)))
  show c ∈ s.ring.cq
  have hcq' : s.ring.cq = pre ++ (q, res) :: post := hcq
  rw [hcq']
  exact List.mem_append_left _ hc

/-- What a step of `copy_file` tells of the failures before it. -/
inductive Tells (a : Answers) (s t : St) : Prop
  | wait : WaitFails s (.prog a) → t.pc = .ret 1 → Tells a s t
  | fatal : Pending s → t.pc = .ret 1 → Tells a s t
  | submit : MainSubmitFails s (.prog a) → (Pending t ↔ Pending s) → t.pc = .ret 0 → Tells a s t
  | done : s.writeLeft = 0 → t.writeLeft = 0 → t.pc = .ret 0 → Tells a s t
  | on : (∀ c, t.pc ≠ .ret c) → (Pending t ↔ Pending s) → Tells a s t

theorem tells (hl : Ledger n s) {a : Answers} (h : copyFile a s = some t) : Tells a s t := by
  cases copyFile_cases h with
  | finish _ _ hw => exact .done hw hw rfl
  | enter | filled | quiet | submitted | drained | idle => exact .on nofun (Pending.congr rfl rfl rfl)
  | read hpc hn _ =>
    refine .on (fun c hc => ?_) (pending_readBlock hl hn _)
    rw [readBlock, hpc] at hc
    cases hc
  | failed hpc hne hneg => exact .submit ⟨hneg, _, hpc, hne⟩ (Pending.congr rfl rfl rfl) rfl
  | error hpc hw hneg hag => exact .wait ⟨hneg, hw, _, hpc, hag⟩ rfl
  | @took got q res cs _ hpc hw _ hcq ht =>
    obtain ⟨d, u, hd, hu, hh⟩ := (hl.goto (.drain true)).handle hcq a.submit
    rw [hu] at ht
    subst ht
    by_cases hf : Fatal res
    · refine .fatal ⟨[], q, res, cs, hcq, hf, hl.unread_iff.2 hw⟩ ?_
      cases hh with
      | fatal => rfl
      | retry hr =>
        rcases hr with ⟨h1, -⟩ | ⟨h1, -⟩
        · exact absurd h1 hf.2
        · exact absurd hf.1 (by omega)
      | turn hlen | release hlen => exact absurd hf.1 (by omega)
    · have htail : t.ring.cq = cs := by
        cases hh with
        | fatal h1 h2 => exact absurd ⟨h1, h2⟩ hf
        | retry | turn | release =>
          show s.ring.cq.tail = cs
          rw [hcq]
          rfl
      refine .on (fun c hc => ?_) ?_
      · cases hh with
        | fatal h1 h2 => exact hf ⟨h1, h2⟩
        | retry | turn | release => cases hc
      · have hun := unread_handled (hl.goto (.drain true)) hcq hd hf hh
        exact pending_tail (s := { s with pc := .drain true }) hcq hf htail hun

theorem complete_pc {p : Nat} {res : Int} (h : complete input p res s = some t) : t.pc = s.pc := by
  obtain ⟨q, ring, d, -, -, -, ⟨-, rfl⟩ | ⟨-, rfl⟩⟩ := complete_cases h <;> rfl

theorem complete_writeLeft {p : Nat} {res : Int} (h : complete input p res s = some t) :
    t.writeLeft = s.writeLeft := by
  obtain ⟨q, ring, d, -, -, -, ⟨-, rfl⟩ | ⟨-, rfl⟩⟩ := complete_cases h <;> rfl

/-- What the kernel moves leaves the reads to be done. -/
theorem complete_unread {p : Nat} {res : Int} (h : complete input p res s = some t)
    (cs : List (Sqe × Int)) : Unread t cs ↔ Unread s cs := by
  obtain ⟨q, ring, d, -, hd, -, ⟨-, rfl⟩ | ⟨-, rfl⟩⟩ := complete_cases h
  · unfold Unread
    refine or_congr Iff.rfl (exists_congr fun i => ?_)
    by_cases hi : i = q.data
    · subst hi
      simp [hd]
    · simp only [Function.update_of_ne hi]
  · exact Iff.rfl

theorem complete_pending {p : Nat} {res : Int} (h : complete input p res s = some t) :
    Pending t ↔ Pending s ∨ FailsInTime s (.complete p res) := by
  have hun := complete_unread h
  obtain ⟨q, hcq⟩ : ∃ q, t.ring.cq = s.ring.cq ++ [(q, res)] := by
    obtain ⟨q, ring, d, hc, -, -, ⟨-, rfl⟩ | ⟨-, rfl⟩⟩ := complete_cases h
    all_goals
      obtain ⟨l₁, l₂, -, hr⟩ := complete_eq hc
      exact ⟨q, by rw [hr]⟩
  constructor
  · rintro ⟨pre, q', res', post, he, hf, hu⟩
    rw [hcq] at he
    rcases List.eq_nil_or_concat post with rfl | ⟨post', c, rfl⟩
    · obtain ⟨rfl, hlast⟩ := List.append_inj' he rfl
      cases hlast
      exact .inr ⟨hf, (hun _).1 hu⟩
    · rw [List.concat_eq_append, ← List.cons_append, ← List.append_assoc] at he
      obtain ⟨hcq', -⟩ := List.append_inj' he rfl
      exact .inl ⟨pre, q', res', post', hcq', hf, (hun _).1 hu⟩
  · rintro (⟨pre, q', res', post, he, hf, hu⟩ | ⟨hf, hu⟩)
    · refine ⟨pre, q', res', post ++ [(q, res)], ?_, hf, (hun _).2 hu⟩
      rw [hcq, he, List.append_assoc, List.cons_append]
    · exact ⟨s.ring.cq, q, res, [], hcq, hf, (hun _).2 hu⟩

theorem ret_step {c : Nat} {e : Event} (hpc : s.pc = .ret c) (h : Step input s e t) : t.pc = .ret c := by
  cases e with
  | prog a =>
    have h' : copyFile a s = some t := h
    rw [copyFile, hpc] at h'
    cases h'
  | complete p res => rw [complete_pc h, hpc]

/-- Without a failure of the wait or one in time nothing is pending, and 0 is returned. -/
theorem calm_step {e : Event} (hl : Ledger n s) (hp : ¬Pending s) (hq : ∀ c, s.pc = .ret c → c = 0)
    (hw : ¬WaitFails s e) (hf : ¬FailsInTime s e) (h : Step input s e t) :
    ¬Pending t ∧ ∀ c, t.pc = .ret c → c = 0 := by
  cases e with
  | complete p res =>
    rw [complete_pending h, complete_pc h]
    exact ⟨fun h => h.elim hp hf, hq⟩
  | prog a =>
    have hl' := hl.copyFile h
    cases tells hl h with
    | wait h1 => exact absurd h1 hw
    | fatal h1 => exact absurd h1 hp
    | submit _ h2 hpc =>
      refine ⟨fun h => hp (h2.1 h), fun c hc => ?_⟩
      rw [hpc] at hc
      cases hc
      rfl
    | done h1 h2 hpc =>
      refine ⟨fun h => h.writeLeft hl' h2, fun c hc => ?_⟩
      rw [hpc] at hc
      cases hc
      rfl
    | on h1 h2 =>
      exact ⟨fun h => hp (h2.1 h), fun c hc => absurd hc (h1 c)⟩

/-- Where no submit of the main loop fails, 0 is returned with `write_left` at 0, -/
theorem done_step {e : Event} (hl : Ledger n s) (hd : s.pc = .ret 0 → s.writeLeft = 0)
    (hm : ¬MainSubmitFails s e) (h : Step input s e t) : t.pc = .ret 0 → t.writeLeft = 0 := by
  cases e with
  | complete p res =>
    rw [complete_pc h, complete_writeLeft h]
    exact hd
  | prog a =>
    intro hpc
    cases tells hl h with
    | wait _ h1 | fatal _ h1 =>
      rw [hpc] at h1
      cases h1
    | submit h1 => exact absurd h1 hm
    | done _ h2 => exact h2
    | on h1 => exact absurd hpc (h1 0)

/-- and a pending failure ends in a return of 1. -/
theorem pending_step {e : Event} (hl : Ledger n s) (hp : s.pc = .ret 1 ∨ (Pending s ∧ s.pc ≠ .ret 0))
    (hm : ¬MainSubmitFails s e) (h : Step input s e t) : t.pc = .ret 1 ∨ (Pending t ∧ t.pc ≠ .ret 0) := by
  rcases hp with hp | ⟨hp, hpc⟩
  · exact .inl (ret_step hp h)
  · cases e with
    | complete p res =>
      right
      rw [complete_pending h, complete_pc h]
      exact ⟨.inl hp, hpc⟩
    | prog a =>
      cases tells hl h with
      | wait _ h1 | fatal _ h1 => exact .inl h1
      | submit h1 => exact absurd h1 hm
      | done h1 => exact absurd h1 (hp.writeLeft hl)
      | on h1 h2 => exact .inr ⟨h2.2 hp, h1 0⟩

/-- A failure of the wait ends `copy_file`. -/
theorem waitFails_step {e : Event} (hw : WaitFails s e) (h : Step input s e t) : t.pc = .ret 1 := by
  cases e with
  | complete p res => exact hw.elim
  | prog a =>
    obtain ⟨hneg, hwl, got, hpc, hag⟩ := hw
    cases copyFile_cases h with
    | finish h1 | enter h1 | filled h1 | read h1 | quiet h1 | failed h1 | submitted h1 =>
      rw [hpc] at h1
      cases h1
    | drained _ h1 => exact absurd h1 hwl
    | error => rfl
    | idle h1 _ h2 =>
      rw [hpc] at h1
      cases h1
      rcases h2 with h2 | ⟨h2, -⟩
      · exact absurd h2 (hag rfl)
      · omega
    | took _ _ h1 => omega

/-- A failed submit of the main loop ends it too. -/
theorem mainSubmitFails_step {e : Event} (hm : MainSubmitFails s e) (h : Step input s e t) :
    t.pc = .ret 0 := by
  cases e with
  | complete p res => exact hm.elim
  | prog a =>
    obtain ⟨hneg, had, hpc, hne⟩ := hm
    cases copyFile_cases h with
    | finish | failed => rfl
    | enter h1 | filled h1 | read h1 | drained h1 | error h1 | idle h1 | took h1 =>
      rw [hpc] at h1
      cases h1
    | quiet h1 =>
      rw [hpc] at h1
      cases h1
      exact absurd rfl hne
    | submitted _ _ h1 => omega

theorem ret_of_sometime {P : St → Event → Prop} {es : List Event} {c : Nat}
    (hP : ∀ s e t, P s e → Step input s e t → t.pc = .ret c) (h : Sometime (Step input) P s es t) :
    t.pc = .ret c := by
  obtain ⟨es₁, e, es₂, u, v, -, -, h2, h3, h4⟩ := h
  exact h4.invariant (fun s => s.pc = .ret c) (fun _ _ _ hs he => ret_step hs he) (hP u e v h3 h2)

/-- **What is returned.**  It is non-zero if and only if no submit of the main loop fails, and
the wait fails or a request fails in time. -/
theorem ret_ne_zero_iff {es : List Event} {c : Nat} (h : Run (Step input) (init n) es s)
    (hret : s.pc = .ret c) : c ≠ 0 ↔ ¬Sometime (Step input) MainSubmitFails (init n) es s ∧
      (Sometime (Step input) WaitFails (init n) es s ∨ Sometime (Step input) FailsInTime (init n) es s) := by
  constructor
  · intro hc
    constructor
    · intro hm
      have := ret_of_sometime (fun _ _ _ hm he => mainSubmitFails_step hm he) hm
      rw [hret] at this
      cases this
      exact hc rfl
    · rw [← sometime_or]
      refine (h.sometime_or_never _).resolve_right fun hnever => hc ?_
      have := hnever.invariant (fun s => Ledger n s ∧ ¬Pending s ∧ ∀ c, s.pc = .ret c → c = 0) ?_
        ⟨ledger_init n, ?_, fun c hc => by cases hc⟩
      · exact this.2.2 c hret
      · rintro s e t ⟨hl, hp, hq⟩ ⟨he, hno⟩
        exact ⟨hl.step he, calm_step hl hp hq (fun hw => hno (.inl hw)) (fun hf => hno (.inr hf)) he⟩
      · rintro ⟨pre, q, res, post, he, -⟩
        exact List.append_ne_nil_of_right_ne_nil pre (List.cons_ne_nil _ post) he.symm
  · rintro ⟨hm, hw | ⟨es₁, e, es₂, u, v, rfl, h1, h2, h3, h4⟩⟩
    · have := ret_of_sometime (fun _ _ _ hw he => waitFails_step hw he) hw
      rw [hret] at this
      cases this
      exact Nat.one_ne_zero
    · have hv : Run (Step input) v es₂ s := h4
      have hm1 : ¬Sometime (Step input) MainSubmitFails (init n) es₁ u :=
        fun hm' => hm (hm'.append_right (.cons h2 hv))
      have hm2 : ¬Sometime (Step input) MainSubmitFails v es₂ s := fun hm' => hm (by
        have := (h1.append (.cons h2 (.nil v)))
        simpa using hm'.append_left this)
      have hdone := ((h1.sometime_or_never _).resolve_left hm1).invariant
        (fun s => Ledger n s ∧ (s.pc = .ret 0 → s.writeLeft = 0))
        (fun s e t hs he => ⟨hs.1.step he.1, done_step hs.1 hs.2 he.2 he.1⟩) ⟨ledger_init n, nofun⟩
      have hl := hdone.1
      cases e with
      | prog a => exact h3.elim
      | complete p res =>
        have hp : Pending v := (complete_pending h2).2 (.inr h3)
        have hpc : v.pc ≠ .ret 0 := by
          rw [complete_pc h2]
          exact fun hpc => hl.unread_iff.1 (h3.2.mono (List.nil_subset _)) (hdone.2 hpc)
        have hend := ((hv.sometime_or_never _).resolve_left hm2).invariant
          (fun s => Ledger n s ∧ (s.pc = .ret 1 ∨ (Pending s ∧ s.pc ≠ .ret 0)))
          (fun s e t hs he => ⟨hs.1.step he.1, pending_step hs.1 hs.2 he.2 he.1⟩)
          ⟨hl.complete h2, .inr ⟨hp, hpc⟩⟩
        intro hc
        rw [hret, hc] at hend
        rcases hend.2 with h5 | ⟨-, h5⟩
        · cases h5
        · exact h5 rfl

/-! ## A return of 0 leaves a write unseen -/

/-- With input to copy, some block is live whenever `copy_file` may be done. -/
structure Owing (n : Nat) (s : St) : Prop where
  left : s.writeLeft = 0 → n = 0 ∨ 0 < s.reads + s.writes
  ret : s.pc = .ret 0 → n = 0 ∨ 0 < s.reads + s.writes
  had : ∀ k, s.pc = .fill k ∨ s.pc = .submit k → k ≤ s.reads

theorem Owing.handled (h : Owing n s) (hl : Ledger n s) {q : Sqe} {res ret : Int}
    {cs : List (Sqe × Int)} (hcq : s.ring.cq = (q, res) :: cs) {d : IoData}
    (hd : s.heap q.data = some d) (hpc : s.pc = .drain true) (hw : s.writeLeft ≠ 0)
    (ht : Handled ret q.data res d s t) : Owing n t := by
  have hlen := hl.length
  rw [ids, List.length_map, length_requests, hcq, List.length_cons] at hlen
  cases ht with
  | fatal => exact ⟨h.left, fun he => (by cases he), fun k hk => by rcases hk with hk | hk <;> cases hk⟩
  | retry _ =>
    refine ⟨fun h0 => absurd h0 hw, fun he => ?_, fun k hk => ?_⟩
    · rw [requeue, hpc] at he; cases he
    · rw [requeue, hpc] at hk; rcases hk with hk | hk <;> cases hk
  | turn _ hr =>
    refine ⟨fun _ => .inr ?_, fun he => ?_, fun k hk => ?_⟩
    · have h1 := (hl.turn hcq hd hr ret).length
      have h2 : (ids (turn ret q.data d s).ring).length = (ids s.ring).length := by
        have h3 := ids_seen (r := submit ret
          { s.ring with sq := s.ring.sq ++ [⟨false, q.data, d.firstOffset⟩] }) hcq
        have h4 := h3.symm.trans ((ids_submit ret _).trans (ids_append s.ring _))
        exact (h4.cons_inv).length_eq
      rw [h2, ids, List.length_map, length_requests, hcq, List.length_cons] at h1
      omega
    · rw [turn, hpc] at he; cases he
    · rw [turn, hpc] at hk; rcases hk with hk | hk <;> cases hk
  | release _ _ =>
    refine ⟨fun h0 => absurd h0 hw, fun he => ?_, fun k hk => ?_⟩
    · rw [release, hpc] at he; cases he
    · rw [release, hpc] at hk; rcases hk with hk | hk <;> cases hk

theorem Owing.goto (h : Owing n s) {pc : Pc} (hret : pc ≠ .ret 0)
    (hhad : ∀ k, pc = .fill k ∨ pc = .submit k → k ≤ s.reads) : Owing n { s with pc } :=
  ⟨h.left, fun he => absurd he hret, hhad⟩

theorem Owing.copyFile (h : Owing n s) (hl : Ledger n s) {a : Answers} (hs : copyFile a s = some t) :
    Owing n t := by
  cases copyFile_cases hs with
  | finish _ _ hw => exact ⟨h.left, fun _ => h.left hw, fun k hk => by rcases hk with hk | hk <;> cases hk⟩
  | enter =>
    refine h.goto (by simp) ?_
    rintro k (hk | hk)
    · cases hk; exact Nat.le_refl _
    · cases hk
  | filled hpc _ =>
    refine h.goto (by simp) ?_
    rintro k (hk | hk)
    · cases hk
    · cases hk; exact h.had _ (.inl hpc)
  | read hpc hn _ =>
    have hroom := (not_noRead hn).2.1
    have hi : incr s.reads = s.reads + 1 := incr_eq (by omega)
    refine ⟨fun h0 => absurd (hl.insize_zero h0) (not_noRead hn).1, fun he => ?_, fun k hk => ?_⟩
    · rw [readBlock, hpc] at he; cases he
    · have : k ≤ s.reads := h.had k (by simpa [readBlock] using hk)
      show k ≤ incr s.reads
      omega
  | quiet | drained | error | idle =>
    exact h.goto (by simp) fun k hk => by rcases hk with hk | hk <;> cases hk
  | failed hpc hne _ =>
    have := h.had _ (.inr hpc)
    refine ⟨h.left, fun _ => .inr ?_, fun k hk => by rcases hk with hk | hk <;> cases hk⟩
    show 0 < s.reads + s.writes
    omega
  | submitted =>
    exact ⟨h.left, fun he => (by cases he), fun k hk => by rcases hk with hk | hk <;> cases hk⟩
  | took _ hw _ hcq ht =>
    obtain ⟨d, u, hd, hu, hh⟩ := (hl.goto (.drain true)).handle hcq a.submit
    rw [hu] at ht
    rw [ht]
    have h' : Owing n { s with pc := .drain true } :=
      h.goto (by simp) fun k hk => by rcases hk with hk | hk <;> cases hk
    exact h'.handled (hl.goto _) hcq hd rfl hw hh

theorem Owing.step (h : Owing n s) (hl : Ledger n s) {e : Event} (hs : Step input s e t) : Owing n t := by
  cases e with
  | prog a => exact h.copyFile hl hs
  | complete p res =>
    obtain ⟨q, ring, d, -, -, -, ⟨-, rfl⟩ | ⟨-, rfl⟩⟩ := complete_cases hs <;> exact ⟨h.left, h.ret, h.had⟩

theorem run_owing {es : List Event} (h : Run (Step input) (init n) es s) : Ledger n s ∧ Owing n s := by
  refine h.invariant (fun s => Ledger n s ∧ Owing n s)
    (fun s e t hs he => ⟨hs.1.step he, hs.2.step hs.1 he⟩) ⟨ledger_init n, ?_⟩
  refine ⟨fun h0 => .inl ?_, nofun, fun k hk => by rcases hk with hk | hk <;> cases hk⟩
  have : (n : Int) = 0 := h0
  omega

theorem Ledger.allSeen (h : Ledger n s) (h0 : n = 0) : AllSeen s := by
  have hoff := h.offset
  refine ⟨by omega, fun i => ?_⟩
  by_contra hne
  obtain ⟨d, hd⟩ := Option.ne_none_iff_exists'.1 hne
  have := h.block i d hd
  omega

theorem AllSeen.idle (h : AllSeen s) (hl : Ledger n s) : s.reads + s.writes = 0 := by
  rw [← hl.length]
  refine List.length_eq_zero_iff.2 (List.eq_nil_iff_forall_not_mem.2 fun i hi => ?_)
  have := (hl.live i).2 hi
  rw [h.2 i] at this
  cases this

theorem fails_iff {s : St} {e : Event} : Fails s e ↔ MainSubmitFails s e ∨ WriteSubmitFails s e ∨
    FailsInTime s e ∨ FailsLate s e := by
  cases e with
  | prog a => simp [Fails, FailsInTime, FailsLate]
  | complete p res =>
    unfold Fails MainSubmitFails WriteSubmitFails FailsInTime FailsLate
    rw [false_or, false_or, ← and_or_left]
    exact (and_iff_left (Classical.em _)).symm

theorem sometime_fails_iff {es : List Event} : Sometime (Step input) Fails s es t ↔
    Sometime (Step input) MainSubmitFails s es t ∨ Sometime (Step input) WriteSubmitFails s es t ∨
      Sometime (Step input) FailsInTime s es t ∨ Sometime (Step input) FailsLate s es t := by
  rw [← sometime_or, ← sometime_or, ← sometime_or]
  exact ⟨fun h => h.imp fun _ _ => fails_iff.1, fun h => h.imp fun _ _ => fails_iff.2⟩

/-- **Reported failures.**  A run reports its failures if and only if no submit of the main
loop fails, and the wait fails or a request fails in time, or no submit of `queue_write` fails
and no request fails after the last read; and a return of 0 means that all is written only for
an empty input and where the wait fails or a request fails in time. -/
theorem failures_reported {es : List Event} {c : Nat} (h : Run (Step input) (init n) es s)
    (hret : s.pc = .ret c) :
    ((Sometime (Step input) Fails (init n) es s → c ≠ 0) ↔
      ¬Sometime (Step input) MainSubmitFails (init n) es s ∧
        ((Sometime (Step input) WaitFails (init n) es s ∨ Sometime (Step input) FailsInTime (init n) es s) ∨
          (¬Sometime (Step input) WriteSubmitFails (init n) es s ∧
            ¬Sometime (Step input) FailsLate (init n) es s))) ∧
    ((c = 0 → AllSeen s) ↔ n = 0 ∨ (¬Sometime (Step input) MainSubmitFails (init n) es s ∧
      (Sometime (Step input) WaitFails (init n) es s ∨ Sometime (Step input) FailsInTime (init n) es s))) := by
  obtain ⟨hl, ho⟩ := run_owing h
  have hc := ret_ne_zero_iff h hret
  constructor
  · rw [hc, sometime_fails_iff]
    tauto
  · rw [← hc]
    constructor
    · intro himp
      by_cases h0 : c = 0
      · left
        have hidle := (himp h0).idle hl
        exact (ho.ret (h0 ▸ hret)).resolve_right (by omega)
      · exact .inr h0
    · rintro (h0 | h0) h1
      · exact hl.allSeen h0
      · exact absurd h1 h0

end

/-- The read of the only block fails. -/
theorem failures_reported_read : ∃ es s, s.pc = .ret 1 ∧
    ¬Sometime (Step fun _ => 7) MainSubmitFails (init 1) es s ∧
    (Sometime (Step fun _ => 7) WaitFails (init 1) es s ∨
      Sometime (Step fun _ => 7) FailsInTime (init 1) es s) := by
  obtain ⟨s, hrun, hpc⟩ := run_of_exec_map (step fun _ => 7) (init 1)
    [.prog calm, .prog calm, .prog calm, .prog calm, .complete 0 (-5), .prog calm] St.pc (a := .ret 1)
    (by decide +kernel)
  exact ⟨_, s, hpc, ((failures_reported hrun hpc).2.1 (by simp)).resolve_left (by simp)⟩

/-- The submit after the reads fails, and `copy_file` returns 0 with nothing copied. -/
theorem submit_unreported :
    (¬∀ n input es s c, Run (Step input) (init n) es s → s.pc = .ret c →
      Sometime (Step input) Fails (init n) es s → c ≠ 0) ∧
    ¬∀ n input es s c, Run (Step input) (init n) es s → s.pc = .ret c → c = 0 → AllSeen s := by
  obtain ⟨s, u, hrun, hs, hfail, hu⟩ := run_of_exec_bind (step fun _ => 7) (step fun _ => 7)
    (init 1) [.prog calm, .prog calm, .prog calm] [.prog { calm with submit := -5 }]
    (fun s => (s.pc, s.reads)) (fun u => (u.pc, (u.heap 0).isSome)) (a := (.submit 0, 1))
    (b := (.ret 0, true)) (by decide +kernel)
  obtain ⟨hpc, hreads⟩ := Prod.mk.inj hs
  obtain ⟨hret, hlive⟩ := Prod.mk.inj hu
  have hall := hrun.append hfail
  constructor
  · intro h
    refine h 1 _ _ u 0 hall hret ⟨_, _, [], s, u, rfl, hrun, ?_, ?_, .nil u⟩ rfl
    · cases hfail with
      | cons h1 h2 => cases h2; exact h1
    · exact .inl ⟨by decide, 0, hpc, by rw [hreads]; exact Nat.zero_ne_one⟩
  · intro h
    rw [(h 1 _ _ u 0 hall hret rfl).2 0] at hlive
    cases hlive

end CPrograms.UringCopy
