import CPrograms.UringCopy.Ledger

/-!
# Does `copy_file` wait for something that can come?

Only submitted requests complete, and a retry only prepares one.  So a run gets stuck in
`io_uring_wait_cqe` when a retry is the only request left (`wait_for_nothing`).  The steps
that lead there are `Strands`; without them every wait has a submitted request
(`wait_for_submitted`), and each of them does lead there (`strands_stuck`).
-/

namespace CPrograms.UringCopy

open Uring Tally Runs

/-- The kernel: a submit takes all that is prepared; requests complete in full, short, or
with `-EAGAIN`. -/
def Kernel : Event → Prop
  | .prog a => queueDepth ≤ a.submit
  | .complete _ res => 0 < res ∨ res = eagain

instance : DecidablePred Kernel
  | .prog a => inferInstanceAs (Decidable ((queueDepth : Int) ≤ a.submit))
  | .complete _ res => inferInstanceAs (Decidable (0 < res ∨ res = eagain))

/-- Some submitted request has not been taken from the completions. -/
def Active (s : St) : Prop := s.ring.inflight ≠ [] ∨ s.ring.cq ≠ []

/-- `io_uring_wait_cqe` is called with a submitted request outstanding. -/
def WaitSound (s : St) : Prop := s.pc = .drain false → s.writeLeft ≠ 0 → Active s

/-- The next turn of the inner loop queues a read, if `malloc` succeeds. -/
def Roomy (s : St) : Prop := s.insize ≠ 0 ∧ s.reads + s.writes < queueDepth

/-- The completion taken is the only submitted request's, and after it nothing is submitted
and nothing will be: it asks for a retry and there is no read to queue, or it ends a write,
the input is read, and the retry of the other block is only prepared. -/
def LastTaken (s : St) : Prop :=
  s.ring.inflight = [] ∧ ∃ q res d, s.ring.cq = [(q, res)] ∧ s.heap q.data = some d ∧
    (((∃ d', Retry d res d') ∧ (s.insize = 0 ∨ s.ring.sq ≠ [])) ∨
      (res = d.iovLen ∧ d.read = false ∧ s.insize = 0))

/-- The step leaves `copy_file` with nothing submitted and nothing that it will submit. -/
def Strands (s : St) : Event → Prop
  | .prog a => match s.pc with
    | .drain _ => s.writeLeft ≠ 0 ∧ 0 ≤ a.cqe ∧ LastTaken s
    | .fill had => had = s.reads ∧ a.malloc = none ∧ Roomy s ∧ ¬Active s
    | _ => False
  | .complete _ _ => False

/-- What holds at each point of `copy_file` while no step strands it. -/
def Ready (s : St) : Prop :=
  match s.pc with
  | .outer | .drain true => s.writeLeft = 0 ∨ Active s ∨ Roomy s
  | .fill had => had ≤ s.reads ∧ (had < s.reads ∨ Active s ∨ Roomy s)
  | .submit had => had ≤ s.reads ∧ (had < s.reads ∨ Active s)
  | .drain false => s.writeLeft = 0 ∨ Active s
  | .ret _ | .abort => True

section
variable {n : Nat} {s t : St} {input : Nat → UInt8}

theorem Active.complete {p : Nat} {res : Int} (h : complete input p res s = some t) : Active t := by
  obtain ⟨q, ring, d, hc, -, -, ⟨-, rfl⟩ | ⟨-, rfl⟩⟩ := complete_cases h <;>
  · obtain ⟨l₁, l₂, -, rfl⟩ := complete_eq hc
    right
    simp

theorem Ready.complete {p : Nat} {res : Int} (hr : Ready s) (h : complete input p res s = some t) :
    Ready t := by
  have ha := Active.complete h
  have hv : t.pc = s.pc ∧ t.reads = s.reads := by
    obtain ⟨q, ring, d, hc, -, -, ⟨-, rfl⟩ | ⟨-, rfl⟩⟩ := complete_cases h <;> exact ⟨rfl, rfl⟩
  obtain ⟨hpc, hreads⟩ := hv
  unfold Ready at hr ⊢
  rw [hpc, hreads]
  split <;> simp_all

/-- A submit that takes everything leaves a request outstanding, if there is any. -/
theorem active_submit (h : Ledger n s) {ret : Int} (hret : queueDepth ≤ ret) (h0 : 0 < s.reads) (pc : Pc) :
    Active { s with pc, ring := submit ret s.ring } := by
  have hlen := h.length
  have hle := h.length_le
  rw [ids, List.length_map, length_requests] at hlen
  rw [length_requests] at hle
  have hall := submit_all (show (s.ring.sq.length : Int) ≤ ret by omega)
  by_cases hcq : s.ring.cq = []
  · left
    show (submit ret s.ring).inflight ≠ []
    rw [hall]
    intro hnil
    obtain ⟨h1, h2⟩ := List.append_eq_nil_iff.1 hnil
    rw [h1, h2, hcq] at hlen
    simp only [List.length_nil] at hlen
    omega
  · right
    exact hcq

theorem Ledger.sq_lt (h : Ledger n s) (hr : s.reads + s.writes < queueDepth) :
    s.ring.sq.length < queueDepth := by
  have := h.length
  rw [ids, List.length_map, length_requests] at this
  omega

theorem Ledger.insize_zero (h : Ledger n s) (hw : s.writeLeft = 0) : s.insize = 0 := by
  have := h.left
  omega

/-- What handling a completion leaves behind. -/
theorem ready_handled (h : Ledger n s) {q : Sqe} {res ret : Int} {cs : List (Sqe × Int)} {d : IoData}
    (hret : queueDepth ≤ ret) (hcq : s.ring.cq = (q, res) :: cs) (hd : s.heap q.data = some d)
    (hpc : s.pc = .drain true) (hlast : ¬LastTaken s) (ht : Handled ret q.data res d s t) : Ready t := by
  have hlen := h.length
  have hle := h.length_le
  rw [ids, List.length_map, length_requests, hcq, List.length_cons] at hlen
  rw [length_requests, hcq, List.length_cons] at hle
  cases ht with
  | fatal => trivial
  | retry hretry =>
    simp only [Ready, requeue, hpc]
    right
    by_cases hin : s.ring.inflight = []
    · cases cs with
      | nil =>
        right
        have hno : ¬(s.insize = 0 ∨ s.ring.sq ≠ []) := fun h1 =>
          hlast ⟨hin, q, res, d, hcq, hd, .inl ⟨⟨_, hretry⟩, h1⟩⟩
        rw [not_or, not_not] at hno
        rw [hno.2, hin] at hlen
        exact ⟨hno.1, by simp only [queueDepth, List.length_nil] at *; omega⟩
      | cons c cs =>
        left; right
        simp [seen, hcq]
    · left; left
      exact hin
  | turn _ _ =>
    simp only [Ready, turn, hpc]
    right; left; left
    show (submit ret _).inflight ≠ []
    rw [submit_all (by simp only [List.length_append, List.length_singleton]; omega)]
    simp
  | release hres hr =>
    simp only [Ready, release, hpc]
    right
    by_cases hin : s.ring.inflight = []
    · cases cs with
      | nil =>
        right
        refine ⟨fun h1 => hlast ⟨hin, q, res, d, hcq, hd, .inr ⟨hres, hr, h1⟩⟩, ?_⟩
        have := (h.release hcq hd hr).length
        rw [ids, List.length_map, length_requests] at this
        simp only [release, seen, hin, hcq, List.tail_cons, List.length_nil] at this hle
        show s.reads + decr s.writes < queueDepth
        omega
      | cons c cs =>
        left; right
        simp [seen, hcq]
    · left; left
      exact hin

theorem Ready.copyFile (h : Ledger n s) (hr : Ready s) {a : Answers} (hk : Kernel (.prog a))
    (hno : ¬Strands s (.prog a)) (hs : copyFile a s = some t) : Ready t := by
  unfold Ready at hr
  unfold Strands at hno
  cases copyFile_cases hs with
  | finish | error => trivial
  | enter hpc h0 =>
    rw [hpc] at hr
    refine ⟨Nat.le_refl _, .inr ?_⟩
    rcases hr with hw | hr
    · exact absurd ⟨h.insize_zero hw, hw⟩ h0
    · exact hr
  | filled hpc hn =>
    rw [hpc] at hr hno
    obtain ⟨hle, hr⟩ := hr
    refine ⟨hle, ?_⟩
    rcases hr with hlt | hact | hroom
    · exact .inl hlt
    · exact .inr hact
    · by_contra hcon
      rw [not_or] at hcon
      have hsq := h.sq_lt hroom.2
      rcases hn with h1 | h1 | h1 | h1
      · exact hroom.1 h1
      · exact absurd hroom.2 (by omega)
      · exact hno ⟨Nat.le_antisymm hle (Nat.le_of_not_lt hcon.1), h1, hroom, hcon.2⟩
      · omega
  | read hpc hn _ =>
    rw [hpc] at hr
    have := not_noRead hn
    have hi : incr s.reads = s.reads + 1 := incr_eq (by omega)
    simp only [Ready, readBlock, hpc, hi]
    omega
  | quiet hpc =>
    rw [hpc] at hr
    exact .inr (hr.2.resolve_left (Nat.lt_irrefl _))
  | failed _ _ hneg =>
    simp only [Kernel, queueDepth] at hk
    omega
  | submitted hpc hne hpos =>
    rw [hpc] at hr
    exact .inr (active_submit h hk (by omega) _)
  | drained hpc hw => exact .inl hw
  | idle hpc hw _ =>
    rw [hpc] at hr
    exact hr
  | took hpc hw hans hcq ht =>
    rw [hpc] at hno
    obtain ⟨d, u, hd, hu, hh⟩ := (h.goto (.drain true)).handle hcq a.submit
    rw [hu] at ht
    rw [ht]
    exact ready_handled (h.goto (.drain true)) hk hcq hd rfl (fun hl => hno ⟨hw, hans, hl⟩) hh

theorem run_ready {es : List Event}
    (h : Run (Under (Step input) fun s e => Kernel e ∧ ¬Strands s e) (init n) es s) :
    Ledger n s ∧ Ready s := by
  refine h.invariant (fun s => Ledger n s ∧ Ready s) ?_ ⟨ledger_init n, ?_⟩
  · rintro s (a | ⟨p, res⟩) t ⟨hl, hr⟩ ⟨hs, hk, hno⟩
    · exact ⟨hl.step hs, hr.copyFile hl hk hno hs⟩
    · exact ⟨hl.step hs, hr.complete hs⟩
  · by_cases hn : n = 0
    · left
      simp [init, hn]
    · right; right
      exact ⟨hn, Nat.two_pos⟩

theorem Ready.waitSound (h : Ready s) : WaitSound s := by
  intro hpc hw
  unfold Ready at h
  rw [hpc] at h
  exact h.resolve_left hw

/-! ## The steps that strand `copy_file` -/

/-- All calls succeed. -/
def calm : Answers := ⟨some fun _ => 0, queueDepth, 0⟩

/-- With nothing submitted and no read to queue, the next wait is for nothing. -/
theorem stuck_of_drain (input : Nat → UInt8) (hpc : s.pc = .drain true) (hw : s.writeLeft ≠ 0) (hact : ¬Active s)
    (hroom : ¬Roomy s) : ∃ u, Run (Step input) s [.prog calm, .prog calm, .prog calm, .prog calm] u ∧
      ¬WaitSound u := by
  unfold Active at hact
  rw [not_or, not_not, not_not] at hact
  have hfull : s.insize = 0 ∨ s.reads + s.writes ≥ queueDepth := by
    by_contra hcon
    rw [not_or] at hcon
    exact hroom ⟨hcon.1, by omega⟩
  refine ⟨{ s with pc := .drain false }, .cons (t := { s with pc := .outer }) ?_
    (.cons (t := { s with pc := .fill s.reads }) ?_
      (.cons (t := { s with pc := .submit s.reads }) ?_ (.cons ?_ (.nil _)))), ?_⟩
  · simp [Step, step, copyFile, hpc, hw, nextCqe, peekCqe, calm, hact.2]
  · simp [Step, step, copyFile, hw]
  · simp [Step, step, copyFile, hfull]
  · simp [Step, step, copyFile]
  · intro h
    rcases h rfl hw with h1 | h1
    · exact h1 hact.1
    · exact h1 hact.2

theorem strands_stuck (h : Ledger n s) {a : Answers} (ha : Strands s (.prog a))
    (hs : copyFile a s = some t) :
    ∃ fs u, (∀ e ∈ fs, Kernel e) ∧ Run (Step input) t fs u ∧ ¬WaitSound u := by
  have hcalm : Kernel (.prog calm) := Int.le_refl _
  have hl := h.copyFile hs
  unfold Strands at ha
  cases copyFile_cases hs with
  | finish hpc | enter hpc | quiet hpc | failed hpc | submitted hpc => rw [hpc] at ha; exact ha.elim
  | filled hpc hn =>
    rw [hpc] at ha
    obtain ⟨rfl, -, ⟨hin, -⟩, hact⟩ := ha
    refine ⟨[.prog calm], { s with pc := .drain false }, by simpa using hcalm, .cons ?_ (.nil _), fun hu => ?_⟩
    · simp [Step, step, copyFile]
    · refine hact (hu rfl fun hw => hin (h.insize_zero hw))
  | read hpc hn hm =>
    rw [hpc] at ha
    rw [ha.2.1] at hm
    cases hm
  | drained hpc hw => rw [hpc] at ha; exact absurd hw ha.1
  | error hpc _ hans _ => rw [hpc] at ha; exact absurd ha.2.1 (by omega)
  | idle hpc hw hans =>
    rw [hpc] at ha
    obtain ⟨-, hans', -, q, res, d, hcq, -⟩ := ha
    rcases hans with h1 | ⟨-, h1⟩
    · rw [h1] at hans'; exact absurd hans' (by decide)
    · rw [hcq] at h1; cases h1
  | took hpc hw hans hcq ht =>
    rw [hpc] at ha
    obtain ⟨-, -, hin, q, res, d, hcq', hd, hlast⟩ := ha
    rw [hcq'] at hcq
    obtain ⟨⟨rfl, rfl⟩, rfl⟩ := hcq
    obtain ⟨d', u, hd', hu, hh⟩ := (h.goto (.drain true)).handle hcq' a.submit
    obtain rfl : d = d' := Option.some.inj (hd.symm.trans hd')
    rw [hu] at ht
    subst ht
    have hlen := hl.length
    rw [ids, List.length_map, length_requests] at hlen
    suffices hst : t.pc = .drain true ∧ t.writeLeft ≠ 0 ∧ ¬Active t ∧ ¬Roomy t by
      obtain ⟨u, hrun, hu⟩ := stuck_of_drain input hst.1 hst.2.1 hst.2.2.1 hst.2.2.2
      exact ⟨_, u, by simpa using hcalm, hrun, hu⟩
    cases hh with
    | fatal hneg hne =>
      rcases hlast with ⟨⟨_, ⟨h1, -⟩ | ⟨h1, -⟩⟩, -⟩ | ⟨h1, -⟩
      · exact absurd h1 hne
      · omega
      · omega
    | retry hretry =>
      refine ⟨rfl, hw, by simp [Active, requeue, seen, hin, hcq'], ?_⟩
      rintro ⟨h1, h2⟩
      rcases hlast with ⟨-, h3 | h3⟩ | ⟨h3, -⟩
      · exact h1 h3
      · have := List.length_pos_iff.2 h3
        simp only [requeue, seen, List.length_append, List.length_singleton] at hlen h2
        simp only [queueDepth] at h2
        omega
      · rcases hretry with ⟨h4, -⟩ | ⟨-, h4, -⟩
        · rw [h3] at h4
          simp only [eagain] at h4
          omega
        · exact h4 h3
    | turn hres hr =>
      rcases hlast with ⟨⟨_, ⟨h1, -⟩ | ⟨-, h1, -⟩⟩, -⟩ | ⟨-, h1, -⟩
      · rw [hres] at h1
        simp only [eagain] at h1
        omega
      · exact absurd hres h1
      · rw [hr] at h1; cases h1
    | release hres hr =>
      refine ⟨rfl, hw, by simp [Active, release, seen, hin, hcq'], ?_⟩
      rintro ⟨h1, -⟩
      rcases hlast with ⟨⟨_, ⟨h2, -⟩ | ⟨-, h2, -⟩⟩, -⟩ | ⟨-, -, h2⟩
      · rw [hres] at h2
        simp only [eagain] at h2
        omega
      · exact h2 hres
      · exact h1 h2

/-- **No wait for nothing.**  In a run none of whose steps strands `copy_file`, every wait
has a submitted request; after a step that strands it, it can wait for nothing. -/
theorem wait_for_submitted (n : Nat) (input : Nat → UInt8) :
    (∀ es s, Run (Under (Step input) fun s e => Kernel e ∧ ¬Strands s e) (init n) es s → WaitSound s) ∧
      ∀ es s e t, Run (Step input) (init n) es s → Strands s e → Step input s e t →
        ∃ fs u, (∀ e ∈ fs, Kernel e) ∧ Run (Step input) t fs u ∧ ¬WaitSound u := by
  constructor
  · intro es s h
    exact (run_ready h).2.waitSound
  · rintro es s (a | ⟨p, res⟩) t h ha hs
    · exact strands_stuck (run_ledger h) ha hs
    · exact ha.elim

/-- One byte; its read completes with `-EAGAIN` and is queued again, but not submitted. -/
theorem wait_for_nothing : ¬∀ n input es s,
    Run (Under (Step input) fun _ e => Kernel e) (init n) es s → WaitSound s := by
  intro h
  obtain ⟨s, hrun, hv⟩ := run_of_exec_map (step fun _ => 7) (init 1)
    [.prog calm, .prog calm, .prog calm, .prog calm, .complete 0 eagain, .prog calm,
      .prog calm, .prog calm, .prog calm, .prog calm]
    (fun s => (s.pc, s.writeLeft, s.ring.inflight.length, s.ring.cq.length))
    (a := (.drain false, 1, 0, 0)) (by decide +kernel)
  simp only [Prod.mk.injEq] at hv
  obtain ⟨h1, h2, h3, h4⟩ := hv
  rcases h 1 _ _ s (hrun.under (by simp [Kernel, calm, eagain])) h1 (by omega) with h5 | h5
  · exact h5 (List.eq_nil_of_length_eq_zero h3)
  · exact h5 (List.eq_nil_of_length_eq_zero h4)

end

end CPrograms.UringCopy
