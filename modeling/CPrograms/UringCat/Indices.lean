import CPrograms.Lib.MaskedRings
import CPrograms.Lib.Runs
import CPrograms.UringCat.Model

/-!
# The rings of `uring_cat.c`

`submit_to_sq` and `read_from_cq` turn by turn, with a kernel that posts completions at any time.  It
takes an entry only in `io_uring_enter`, and it posts one only where there is room behind the head
that was published.  What was put into the rings and taken out of them is written into lists that
the program never sees.

`Inv` says that the rings hold what was put in and not yet taken out, wherever the counters are.  The
calls that `main` makes are runs of these turns (`uringCat_indexed`).
-/

namespace CPrograms.UringCat

open MaskedRings Runs Traces

/-! ## The steps -/

namespace Submitter

/-- The entry at the head, as the kernel finds it. -/
def next (s : Submitter) : Sqe := s.sqes (s.sqRing.array (s.sqRing.head &&& s.sqRing.ringMask))

def consume (s : Submitter) : Submitter := { s with sqRing := { s.sqRing with head := s.sqRing.head + 1 } }

def post (cqe : Cqe) (s : Submitter) : Submitter :=
  { s with
    cqRing :=
      { s.cqRing with
        cqes := Function.update s.cqRing.cqes (s.cqRing.tail &&& s.cqRing.ringMask) cqe
        tail := s.cqRing.tail + 1 } }

/-- The end of `read_from_cq`. -/
def publish (head : UInt32) (s : Submitter) : Submitter := { s with cqRing := { s.cqRing with head := head } }

/-- The entries that the kernel sees. -/
def seen (s : Submitter) : List Sqe :=
  contents (fun i => s.sqes (s.sqRing.array i)) s.sqRing.ringMask s.sqRing.head
    (s.sqRing.tail - s.sqRing.head).toNat

/-- The completions behind the published head. -/
def completions (s : Submitter) : List Cqe :=
  contents s.cqRing.cqes s.cqRing.ringMask s.cqRing.head (s.cqRing.tail - s.cqRing.head).toNat

end Submitter

inductive Phase
  | idle
  /-- before `io_uring_enter` -/
  | pushed
  /-- in `read_from_cq`, with its `head` -/
  | reading (head : UInt32)

structure Machine where
  s : Submitter
  phase : Phase
  visible : List Sqe
  taken : List Sqe
  posted : List Cqe
  handled : List Cqe

/-- Where `submit_to_sq` fails `main` returns, so that a run only has calls that do not. -/
inductive Event
  /-- `submit_to_sq` up to the new tail -/
  | submit (sqe : Sqe)
  /-- `io_uring_enter`, and `read_from_cq` is called -/
  | enter
  /-- a turn of the loop of `read_from_cq` -/
  | turn
  /-- the kernel posts a completion -/
  | post (cqe : Cqe)

def stepFn (m : Machine) : Event → Option Machine
  | .submit sqe =>
    match m.phase with
    | .idle => some { m with s := m.s.push sqe, phase := .pushed, visible := m.visible ++ [sqe] }
    | _ => none
  | .enter =>
    match m.phase with
    | .pushed =>
      some { m with s := m.s.consume, phase := .reading m.s.cqRing.head, taken := m.taken ++ [m.s.next] }
    | _ => none
  | .turn =>
    match m.phase with
    | .reading head =>
      if head = m.s.cqRing.tail then some { m with s := m.s.publish head, phase := .idle }
      else
        some
          { m with
            phase := .reading (head + 1)
            handled := m.handled ++ [m.s.cqRing.cqes (head &&& m.s.cqRing.ringMask)] }
    | _ => none
  | .post cqe =>
    if (m.s.cqRing.tail - m.s.cqRing.head).toNat < entries m.s.cqRing.ringMask then
      some { m with s := m.s.post cqe, posted := m.posted ++ [cqe] }
    else none

def step (m : Machine) (e : Event) (m' : Machine) : Prop := stepFn m e = some m'

/-- What is in the rings at the start was put there before. -/
def start (s : Submitter) : Machine where
  s := s
  phase := .idle
  visible := s.seen
  taken := []
  posted := s.completions
  handled := []

/-! ### The functions of the model -/

/-- What the kernel does with a request at once, it does in two steps here. -/
theorem kernel_eq (s : Submitter) (reply : Reply) :
    s.kernel reply =
      { s.consume.post ⟨s.next.userData, reply.res⟩ with
        heap := s.heap.modify s.next.addr fun fi =>
          { fi with iovecs := scatter fi.iovecs reply.delivered } } := rfl

/-- Up to the files that are read into. -/
structure SameRings (s s' : Submitter) : Prop where
  sqRing : s.sqRing = s'.sqRing
  sqes : s.sqes = s'.sqes
  cqRing : s.cqRing = s'.cqRing

/-- A call of `submit_to_sq` that does not fail is a run, if there is room for the completion. -/
theorem run_submitToSq {fd : Nat} {f : File} {s s' : Submitter} {m : Machine} (h : submitToSq fd f s = .done s')
    (hm : SameRings m.s s) (hidle : m.phase = .idle)
    (hroom : (s.cqRing.tail - s.cqRing.head).toNat < entries s.cqRing.ringMask) :
    ∃ sqe cqe m', Run step m [.submit sqe, .enter, .post cqe] m' ∧ SameRings m'.s s' ∧
      m'.phase = .reading s'.cqRing.head ∧ m'.handled = m.handled := by
  obtain ⟨⟨sqRing, sqes, cqRing, heap⟩, phase, visible, taken, posted, handled⟩ := m
  obtain ⟨rfl, rfl, rfl⟩ := hm
  obtain rfl : phase = .idle := hidle
  unfold submitToSq at h
  split at h
  · cases h
  · split at h
    · cases h
    · next filled _ =>
      split at h
      · cases h
      · split at h
        · cases h
        · dsimp only at h
          split at h
          · cases h
          · obtain rfl := Submitted.done.inj h
            -- the entry and what the kernel makes of it, as in `submitToSq` and `kernel`
            refine ⟨⟨fd, s.heap.length, filled.blocks, 0, s.heap.length⟩,
              ⟨(Submitter.push ⟨s.sqRing, s.sqes, s.cqRing, []⟩
                ⟨fd, s.heap.length, filled.blocks, 0, s.heap.length⟩).next.userData, f.reply.res⟩, _,
              .cons rfl (.cons rfl (.cons (if_pos hroom) (.nil _))), ?_, rfl, rfl⟩
            rw [kernel_eq]
            exact ⟨rfl, rfl, rfl⟩

theorem printFile_fst {heap : List FileInfo} {userData : Nat} (h : (printFile heap userData).result = some ()) :
    (printFile heap userData).events.map Prod.fst = [userData] := by
  unfold printFile at h ⊢
  split at h
  · cases h
  · rfl

/-- A loop that nothing is posted to is a run of turns, on the same completions. -/
theorem run_readLoop {cq : CqRing} {heap : List FileInfo} {head tail : UInt32} :
    (readLoop cq heap head).result = some tail → ∀ m : Machine, m.s.cqRing = cq → m.phase = .reading head →
      ∃ k m', Run step m (List.replicate (k + 1) .turn) m' ∧ m'.s = m.s.publish tail ∧ m'.phase = .idle ∧
        m'.handled.map Cqe.userData = m.handled.map Cqe.userData ++
          (readLoop cq heap head).events.map Prod.fst := by
  fun_induction readLoop cq heap head with
  | case1 =>
    intro h m hcq hphase
    obtain rfl := Option.some.inj h
    refine ⟨0, _, .cons ?_ (.nil { m with s := m.s.publish cq.tail, phase := .idle }), rfl, rfl, ?_⟩
    · show stepFn m .turn = _
      rw [stepFn, hphase]
      dsimp only
      rw [hcq, if_pos rfl]
    · exact (List.append_nil _).symm
  | case2 head hne ih =>
    intro h m hcq hphase
    rw [result_bind] at h
    obtain ⟨_, hprint, h⟩ := Option.bind_eq_some_iff.1 h
    have hturn : step m .turn
        { m with phase := .reading (head + 1), handled := m.handled ++ [cq.cqes (head &&& cq.ringMask)] } := by
      show stepFn m .turn = _
      rw [stepFn, hphase]
      dsimp only
      rw [hcq, if_neg hne]
    obtain ⟨k, m', hrun, hs, hidle, hhandled⟩ := ih h
      { m with phase := .reading (head + 1), handled := m.handled ++ [cq.cqes (head &&& cq.ringMask)] } hcq rfl
    refine ⟨k + 1, m', .cons hturn hrun, hs, hidle, ?_⟩
    rw [hhandled, events_bind_of_result hprint, List.map_append, List.map_append, printFile_fst hprint,
      List.append_assoc]
    rfl

/-! ## What is promised -/

/-- Rings with powers of two, and counters anywhere: as many entries as there is room for, one less
in the submission queue. -/
structure WellFormed (s : Submitter) : Prop where
  sqMask : PowMask s.sqRing.ringMask
  cqMask : PowMask s.cqRing.ringMask
  sqRoom : (s.sqRing.tail - s.sqRing.head).toNat < entries s.sqRing.ringMask
  sqArray : ∀ i < (s.sqRing.tail - s.sqRing.head).toNat,
    s.sqRing.array (nth s.sqRing.head i &&& s.sqRing.ringMask) = nth s.sqRing.head i &&& s.sqRing.ringMask
  cqRoom : (s.cqRing.tail - s.cqRing.head).toNat ≤ entries s.cqRing.ringMask

/-- One entry more, in the slot of the tail, and no slot touched that is waited for. -/
structure Pushed (s : Submitter) (sqe : Sqe) (s' : Submitter) : Prop where
  head : s'.sqRing.head = s.sqRing.head
  tail : s'.sqRing.tail = s.sqRing.tail + 1
  array : s'.sqRing.array (s.sqRing.tail &&& s.sqRing.ringMask) = s.sqRing.tail &&& s.sqRing.ringMask
  entry : s'.sqes (s.sqRing.tail &&& s.sqRing.ringMask) = sqe
  others : ∀ i, i ≠ s.sqRing.tail &&& s.sqRing.ringMask →
    s'.sqRing.array i = s.sqRing.array i ∧ s'.sqes i = s.sqes i
  seen : s'.seen = s.seen ++ [sqe]
  untouched : ∀ i < (s.sqRing.tail - s.sqRing.head).toNat,
    nth s.sqRing.head i &&& s.sqRing.ringMask ≠ s.sqRing.tail &&& s.sqRing.ringMask ∧
      s.sqRing.array (nth s.sqRing.head i &&& s.sqRing.ringMask) ≠ s.sqRing.tail &&& s.sqRing.ringMask

/-- The next completion is handled; or there is none, and the head is published. -/
inductive Turned (m m' : Machine) : Prop
  | handled (cqe : Cqe) : m.posted[m.handled.length]? = some cqe → m'.handled = m.handled ++ [cqe] →
      m'.s = m.s → Turned m m'
  | published : m'.phase = .idle → m'.s.cqRing.head = m.s.cqRing.tail → m'.handled = m'.posted →
      m'.handled = m.handled → Turned m m'

structure Indexed (m : Machine) : Prop where
  submit : ∀ sqe m', step m (.submit sqe) m' → Pushed m.s sqe m'.s
  turn : ∀ m', step m .turn m' → Turned m m'
  /-- before `read_from_cq` the ring has what was not handled -/
  waiting : (∀ head, m.phase ≠ .reading head) → m.posted = m.handled ++ m.s.completions
  /-- each completion once, in the order in which they were posted -/
  once : m.handled <+: m.posted
  /-- so that the loop ends -/
  bounded : ∀ head, m.phase = .reading head →
    (head - m.s.cqRing.head).toNat ≤ entries m.s.cqRing.ringMask

/-! ## The submission queue -/

/-- The entries that the kernel has not taken, in their own slots. -/
structure SqHolds (sq : SqRing) (sqes : UInt32 → Sqe) (pending : List Sqe) : Prop where
  holds : Holds sqes sq.ringMask sq.head sq.tail pending
  array : ∀ i < pending.length, sq.array (nth sq.head i &&& sq.ringMask) = nth sq.head i &&& sq.ringMask

section

variable {s : Submitter} {pending : List Sqe} {sqe : Sqe}

theorem SqHolds.seen_eq (hm : PowMask s.sqRing.ringMask) (h : SqHolds s.sqRing s.sqes pending) :
    s.seen = pending := by
  unfold Submitter.seen
  rw [h.holds.distance hm]
  exact h.holds.contents_eq fun i hi => by rw [h.array i hi]

theorem sqHolds_seen (hs : WellFormed s) : SqHolds s.sqRing s.sqes s.seen := by
  have hholds := @holds_contents Sqe s.sqes _ _ _ (Nat.le_of_lt hs.sqRoom)
  have hlen := length_contents s.sqes s.sqRing.ringMask s.sqRing.head (s.sqRing.tail - s.sqRing.head).toNat
  have hpending : SqHolds s.sqRing s.sqes
      (contents s.sqes s.sqRing.ringMask s.sqRing.head (s.sqRing.tail - s.sqRing.head).toNat) :=
    ⟨hholds, fun i hi => hs.sqArray i (hlen ▸ hi)⟩
  rwa [← hpending.seen_eq hs.sqMask] at hpending

section

variable (hm : PowMask s.sqRing.ringMask)

include hm

theorem SqHolds.push (h : SqHolds s.sqRing s.sqes pending)
    (hroom : pending.length < entries s.sqRing.ringMask) (sqe : Sqe) :
    SqHolds (s.push sqe).sqRing (s.push sqe).sqes (pending ++ [sqe]) := by
  refine ⟨h.holds.push hm hroom sqe, fun i hi => ?_⟩
  have hlen : (pending ++ [sqe]).length = pending.length + 1 := List.length_append
  show Function.update s.sqRing.array (s.sqRing.tail &&& s.sqRing.ringMask) (s.sqRing.tail &&& s.sqRing.ringMask)
    (nth s.sqRing.head i &&& s.sqRing.ringMask) = nth s.sqRing.head i &&& s.sqRing.ringMask
  rcases Nat.lt_or_ge i pending.length with hlt | hge
  · rw [Function.update_of_ne (h.holds.slot_ne hm hroom hlt)]
    exact h.array i hlt
  · obtain rfl : i = pending.length := by omega
    rw [← h.holds.tail_eq, Function.update_self]

/-- **A push.**  What is promised, where there is room. -/
theorem SqHolds.pushed (h : SqHolds s.sqRing s.sqes pending)
    (hroom : pending.length < entries s.sqRing.ringMask) (sqe : Sqe) :
    Pushed s sqe (s.push sqe) where
  head := rfl
  tail := rfl
  array := Function.update_self ..
  entry := Function.update_self ..
  others := fun i hi => ⟨Function.update_of_ne hi .., Function.update_of_ne hi ..⟩
  seen := by
    have hpush := h.push hm hroom sqe
    rw [hpush.seen_eq (show PowMask (s.push sqe).sqRing.ringMask from hm), h.seen_eq hm]
  untouched := by
    intro i hi
    rw [h.holds.distance hm] at hi
    have hne := h.holds.slot_ne hm hroom hi
    exact ⟨hne, by rw [h.array i hi]; exact hne⟩

end

/-- The kernel takes the entry that was put in first. -/
theorem SqHolds.consume (h : SqHolds s.sqRing s.sqes (sqe :: pending)) :
    s.next = sqe ∧ SqHolds s.consume.sqRing s.consume.sqes pending := by
  have hfirst := h.array 0 (Nat.zero_lt_succ _)
  rw [nth_zero] at hfirst
  constructor
  · unfold Submitter.next
    rw [hfirst]
    exact h.holds.head_eq
  · refine ⟨h.holds.pop, fun i hi => ?_⟩
    show s.sqRing.array (nth (s.sqRing.head + 1) i &&& s.sqRing.ringMask) =
      nth (s.sqRing.head + 1) i &&& s.sqRing.ringMask
    rw [nth_add_one]
    exact h.array (i + 1) (Nat.succ_lt_succ hi)

end

/-! ## The machine -/

/-- How many entries are waited for: between the push and `io_uring_enter` there is one. -/
def Phase.Room (n : Nat) : Phase → Nat → Prop
  | .pushed, pending => 0 < pending ∧ pending ≤ n
  | _, pending => pending < n

/-- How many completions were handled since the head was published. -/
def Phase.Ahead (published : UInt32) : Phase → Nat → Prop
  | .reading head, n => head = nth published n
  | _, n => n = 0

structure Inv (m : Machine) : Prop where
  sqMask : PowMask m.s.sqRing.ringMask
  cqMask : PowMask m.s.cqRing.ringMask
  sq : ∃ pending, SqHolds m.s.sqRing m.s.sqes pending ∧ m.visible = m.taken ++ pending ∧
    m.phase.Room (entries m.s.sqRing.ringMask) pending.length
  cq : ∃ out rest, Holds m.s.cqRing.cqes m.s.cqRing.ringMask m.s.cqRing.head m.s.cqRing.tail (out ++ rest) ∧
    m.posted = m.handled ++ rest ∧ m.phase.Ahead m.s.cqRing.head out.length

section

variable {m m' : Machine}

theorem inv_start {s : Submitter} (hs : WellFormed s) : Inv (start s) := by
  have hlen := (sqHolds_seen hs).holds.distance hs.sqMask
  refine ⟨hs.sqMask, hs.cqMask, ⟨s.seen, sqHolds_seen hs, rfl, ?_⟩, ⟨[], _, holds_contents hs.cqRoom, rfl, rfl⟩⟩
  show s.seen.length < _
  rw [← hlen]
  exact hs.sqRoom

theorem step_submit {sqe : Sqe} (hm : Inv m) (h : step m (.submit sqe) m') : Pushed m.s sqe m'.s ∧ Inv m' := by
  obtain ⟨s, phase, visible, taken, posted, handled⟩ := m
  obtain ⟨hsq, hcq, ⟨pending, hpending, hvisible, hroom⟩, hcompletions⟩ := hm
  cases phase with
  | idle =>
    obtain rfl := Option.some.inj h
    have hroom : pending.length < entries s.sqRing.ringMask := hroom
    have hlen : (pending ++ [sqe]).length = pending.length + 1 := List.length_append
    refine ⟨hpending.pushed hsq hroom sqe, hsq, hcq,
      ⟨pending ++ [sqe], hpending.push hsq hroom sqe, ?_, ?_⟩, hcompletions⟩
    · show visible ++ [sqe] = taken ++ (pending ++ [sqe])
      rw [← List.append_assoc, ← hvisible]
    · show 0 < _ ∧ _
      rw [hlen]
      exact ⟨Nat.succ_pos _, hroom⟩
  | pushed | reading => cases h

/-- `io_uring_enter` takes the oldest of the entries. -/
theorem step_enter (hm : Inv m) (h : step m .enter m') : Inv m' := by
  obtain ⟨s, phase, visible, taken, posted, handled⟩ := m
  obtain ⟨hsq, hcq, ⟨pending, hpending, hvisible, hroom⟩, ⟨out, rest, hholds, hposted, hahead⟩⟩ := hm
  cases phase with
  | pushed =>
    obtain rfl := Option.some.inj h
    obtain ⟨hpos, hle⟩ := hroom
    obtain ⟨sqe, pending, rfl⟩ := List.exists_cons_of_length_pos hpos
    obtain ⟨hnext, hconsume⟩ := hpending.consume
    obtain rfl := List.length_eq_zero_iff.1 hahead
    refine ⟨hsq, hcq, ⟨pending, hconsume, ?_, hle⟩, ⟨[], rest, hholds, hposted, nth_zero.symm⟩⟩
    show visible = taken ++ [s.next] ++ pending
    rw [hnext, List.append_assoc]
    exact hvisible
  | idle | reading => cases h

theorem step_turn (hm : Inv m) (h : step m .turn m') : Turned m m' ∧ Inv m' := by
  obtain ⟨s, phase, visible, taken, posted, handled⟩ := m
  obtain ⟨hsq, hcq, hentries, ⟨out, rest, hholds, hposted, hahead⟩⟩ := hm
  cases phase with
  | reading head =>
    have hrest : Holds s.cqRing.cqes s.cqRing.ringMask head s.cqRing.tail rest := by
      rw [show head = nth s.cqRing.head out.length from hahead]
      exact hholds.drop out
    have hposted : posted = handled ++ rest := hposted
    have h : (if head = s.cqRing.tail then _ else _) = some m' := h
    cases rest with
    | nil =>
      have htail : head = s.cqRing.tail := (hrest.empty_iff hcq).2 rfl
      rw [if_pos htail] at h
      obtain rfl := Option.some.inj h
      rw [List.append_nil] at hposted
      refine ⟨.published rfl htail hposted.symm rfl, hsq, hcq, hentries, ⟨[], [], ?_, ?_, rfl⟩⟩
      · rw [← htail] at hrest
        show Holds s.cqRing.cqes s.cqRing.ringMask head s.cqRing.tail []
        rw [← htail]
        exact hrest
      · show posted = handled ++ []
        rw [List.append_nil, hposted]
    | cons cqe rest =>
      have htail : head ≠ s.cqRing.tail := fun he => List.cons_ne_nil _ _ ((hrest.empty_iff hcq).1 he)
      rw [if_neg htail] at h
      obtain rfl := Option.some.inj h
      have hentry : s.cqRing.cqes (head &&& s.cqRing.ringMask) = cqe := hrest.head_eq
      have hlen : (out ++ [cqe]).length = out.length + 1 := List.length_append
      refine ⟨.handled cqe ?_ ?_ rfl, hsq, hcq, hentries, ⟨out ++ [cqe], rest, ?_, ?_, ?_⟩⟩
      · show posted[handled.length]? = some cqe
        rw [hposted, List.getElem?_append_right (Nat.le_refl _), Nat.sub_self]
        rfl
      · show handled ++ [s.cqRing.cqes (head &&& s.cqRing.ringMask)] = _
        rw [hentry]
      · rw [List.append_assoc]
        exact hholds
      · show posted = handled ++ [s.cqRing.cqes (head &&& s.cqRing.ringMask)] ++ rest
        rw [hentry, List.append_assoc]
        exact hposted
      · show head + 1 = nth s.cqRing.head (out ++ [cqe]).length
        rw [hlen, nth_succ, show head = nth s.cqRing.head out.length from hahead]
  | idle | pushed => cases h

/-- A completion is posted behind those that are there. -/
theorem step_post {cqe : Cqe} (hm : Inv m) (h : step m (.post cqe) m') : Inv m' := by
  obtain ⟨hsq, hcq, hentries, ⟨out, rest, hholds, hposted, hahead⟩⟩ := hm
  obtain ⟨hroom, hm'⟩ := Option.ite_none_right_eq_some.1 h
  obtain rfl := Option.some.inj hm'
  rw [hholds.distance hcq] at hroom
  refine ⟨hsq, hcq, hentries, ⟨out, rest ++ [cqe], ?_, ?_, hahead⟩⟩
  · rw [← List.append_assoc]
    exact hholds.push hcq hroom cqe
  · show m.posted ++ [cqe] = m.handled ++ (rest ++ [cqe])
    rw [hposted, List.append_assoc]

theorem inv_step {e : Event} (hm : Inv m) (h : step m e m') : Inv m' := by
  cases e with
  | submit sqe => exact (step_submit hm h).2
  | enter => exact step_enter hm h
  | turn => exact (step_turn hm h).2
  | post cqe => exact step_post hm h

theorem indexed_of_inv (hm : Inv m) : Indexed m := by
  obtain ⟨out, rest, hholds, hposted, hahead⟩ := hm.cq
  refine ⟨fun _ _ h => (step_submit hm h).1, fun _ h => (step_turn hm h).1, fun hphase => ?_,
    ⟨rest, hposted.symm⟩, fun head hphase => ?_⟩
  · have hout : out = [] := by
      cases hp : m.phase with
      | reading head => exact absurd hp (hphase head)
      | idle | pushed =>
        rw [hp] at hahead
        exact List.length_eq_zero_iff.1 hahead
    rw [hout, List.nil_append] at hholds
    unfold Submitter.completions
    rw [hholds.distance hm.cqMask, hholds.contents_eq fun _ _ => rfl]
    exact hposted
  · have hroom := hholds.room
    have hentries := entries_le hm.cqMask
    rw [List.length_append] at hroom
    rw [hphase] at hahead
    rw [show head = nth m.s.cqRing.head out.length from hahead, toNat_nth_sub (by omega)]
    omega

end

/-- **The rings.**  In every state that is reached, wherever the counters were at the start. -/
theorem indexed_of_run {s : Submitter} (hs : WellFormed s) {es : List Event} {m : Machine}
    (h : Run step (start s) es m) : Indexed m :=
  indexed_of_inv (h.invariant Inv (fun _ _ _ hm hstep => inv_step hm hstep) (inv_start hs))

/-- Empty rings of one entry and of two, with all counters before the wrap. -/
def wrapping : Submitter :=
  startRings 0 1 4294967295 4294967295 (fun _ => 7) (fun _ => ⟨0, 0, 0, 0, 0⟩) fun _ => ⟨0, 0⟩

/-- A file. -/
theorem indexed_of_run_wrapping : ∃ m,
    Run step (start wrapping) [.submit ⟨3, 0, 1, 0, 0⟩, .enter, .post ⟨0, 5⟩, .turn, .turn] m ∧ Indexed m := by
  obtain ⟨m, hm⟩ := Option.isSome_iff_exists.1 (show (exec stepFn (start wrapping)
    [.submit ⟨3, 0, 1, 0, 0⟩, .enter, .post ⟨0, 5⟩, .turn, .turn]).isSome = true by decide)
  have hwrapping : WellFormed wrapping :=
    ⟨⟨0, by decide, rfl⟩, ⟨1, by decide, rfl⟩, by decide, fun i hi => absurd hi (Nat.not_lt_zero i), by decide⟩
  exact ⟨m, run_of_exec hm, indexed_of_run hwrapping (run_of_exec hm)⟩

/-! ## The program -/

/-- The files are handled one after the other, and `out` is printed. -/
inductive Calls : List File → Nat → Submitter → List Handled → Submitter → Prop
  | nil {k s} : Calls [] k s [] s
  | cons {f files k s s₁ s₂ out s'} : submitToSq k f s = .done s₁ → (readFromCq s₁).result = some s₂ →
      Calls files (k + 1) s₂ out s' → Calls (f :: files) k s ((readFromCq s₁).events ++ out) s'

theorem calls_of_uringCat (files : List File) : ∀ {k : Nat} {s : Submitter} {c : Int},
    (uringCat files k s).result = some c → ∃ done s', done <+: files ∧
      Calls done k s ((uringCat files k s).events.map Prod.snd) s' := by
  induction files with
  | nil => exact fun _ => ⟨[], _, List.nil_prefix, .nil⟩
  | cons f files ih =>
    intro k s c h
    rw [uringCat] at h ⊢
    cases hcall : submitToSq k f s with
    | overrun =>
      rw [hcall] at h
      cases h
    | failed => exact ⟨[], s, List.nil_prefix, .nil⟩
    | done s₁ =>
      rw [hcall] at h
      dsimp only at h ⊢
      rw [result_bind] at h
      obtain ⟨s₂, hread, h⟩ := Option.bind_eq_some_iff.1 h
      have hread' : (readFromCq s₁).result = some s₂ := hread
      obtain ⟨done, s', hprefix, hcalls⟩ := ih h
      refine ⟨f :: done, s', List.cons_prefix_cons.2 ⟨rfl, hprefix⟩, ?_⟩
      have hmark : ((readFromCq s₁).mark k).events.map Prod.snd = (readFromCq s₁).events := by
        show ((readFromCq s₁).events.map (k, ·)).map Prod.snd = _
        rw [List.map_map]
        exact List.map_id _
      rw [events_bind_of_result hread, List.map_append, hmark]
      exact .cons hcall hread' hcalls

/-- Between two calls the machine has the program's rings, and has handled what was printed. -/
structure Follows (m : Machine) (s : Submitter) (out : List Handled) : Prop where
  inv : Inv m
  rings : SameRings m.s s
  idle : m.phase = .idle
  empty : s.cqRing.head = s.cqRing.tail
  handled : m.handled.map Cqe.userData = out.map Prod.fst

theorem readLoop_tail {cq : CqRing} {heap : List FileInfo} {head tail : UInt32} :
    (readLoop cq heap head).result = some tail → tail = cq.tail := by
  fun_induction readLoop cq heap head with
  | case1 => exact fun h => (Option.some.inj h).symm
  | case2 head _ ih =>
    intro h
    rw [result_bind] at h
    obtain ⟨_, -, h⟩ := Option.bind_eq_some_iff.1 h
    exact ih h

section

variable {m : Machine} {s s₁ s₂ s' : Submitter} {f : File} {files : List File} {k : Nat} {past out : List Handled}

/-- Nothing is left in the completion queue. -/
theorem Follows.posted (h : Follows m s out) : m.posted = m.handled := by
  obtain ⟨held, rest, hholds, hposted, hahead⟩ := h.inv.cq
  rw [h.idle] at hahead
  obtain rfl := List.length_eq_zero_iff.1 hahead
  rw [List.nil_append] at hholds
  have hempty : m.s.cqRing.head = m.s.cqRing.tail := by
    rw [h.rings.cqRing]
    exact h.empty
  rw [hposted, (hholds.empty_iff h.inv.cqMask).1 hempty, List.append_nil]

/-- A file: `submit_to_sq`, the kernel, and `read_from_cq`. -/
theorem Follows.call (h : Follows m s past) (hcall : submitToSq k f s = .done s₁)
    (hread : (readFromCq s₁).result = some s₂) :
    ∃ es m', Run step m es m' ∧ Follows m' s₂ (past ++ (readFromCq s₁).events) := by
  have hroom : (s.cqRing.tail - s.cqRing.head).toNat < entries s.cqRing.ringMask := by
    rw [h.empty, UInt32.sub_self]
    exact Nat.succ_pos _
  obtain ⟨sqe, cqe, m₁, hrun₁, hrings, hphase, hhandled₁⟩ := run_submitToSq hcall h.rings h.idle hroom
  unfold readFromCq at hread ⊢
  rw [result_bind] at hread
  obtain ⟨tail, hloop, hs₂⟩ := Option.bind_eq_some_iff.1 hread
  obtain rfl := Option.some.inj hs₂
  obtain ⟨n, m', hrun₂, hs, hidle, hhandled₂⟩ := run_readLoop hloop m₁ hrings.cqRing hphase
  have hrun := hrun₁.append hrun₂
  have htail : tail = s₁.cqRing.tail := readLoop_tail hloop
  refine ⟨_, m', hrun, hrun.invariant Inv (fun _ _ _ hm hstep => inv_step hm hstep) h.inv, ?_, hidle, htail, ?_⟩
  · rw [hs]
    refine ⟨hrings.sqRing, hrings.sqes, ?_⟩
    show { m₁.s.cqRing with head := tail } = { s₁.cqRing with head := tail }
    rw [hrings.cqRing]
  · rw [hhandled₂, hhandled₁, h.handled, events_bind_of_result hloop, ← List.map_append]
    exact congrArg (fun l => (past ++ l).map Prod.fst) (List.append_nil _).symm

theorem Follows.calls (hcalls : Calls files k s out s') : ∀ {m : Machine} {past : List Handled},
    Follows m s past → ∃ es m', Run step m es m' ∧ Follows m' s' (past ++ out) := by
  induction hcalls with
  | nil =>
    intro m past h
    exact ⟨[], m, .nil m, by rwa [List.append_nil]⟩
  | cons hcall hread _ ih =>
    intro m past h
    obtain ⟨es, m₁, hrun, h₁⟩ := h.call hcall hread
    obtain ⟨es', m', hrun', h'⟩ := ih h₁
    exact ⟨es ++ es', m', hrun.append hrun', by rwa [← List.append_assoc]⟩

/-- A start with an empty completion queue. -/
theorem follows_start (hs : WellFormed s) (hempty : s.cqRing.head = s.cqRing.tail) : Follows (start s) s [] :=
  ⟨inv_start hs, ⟨rfl, rfl, rfl⟩, rfl, hempty, rfl⟩

/-- **The program on its rings.**  A run of `main` is a run of the rings: what it prints is what was
posted, each completion once and in its order. -/
theorem uringCat_indexed (hs : WellFormed s) (hempty : s.cqRing.head = s.cqRing.tail) {c : Int}
    (h : (uringCat files k s).result = some c) : ∃ es m, Run step (start s) es m ∧ Indexed m ∧
      (uringCat files k s).events.map (fun e => e.2.1) = m.posted.map Cqe.userData := by
  obtain ⟨done, s', -, hcalls⟩ := calls_of_uringCat files h
  obtain ⟨es, m, hrun, hm⟩ := Follows.calls hcalls (follows_start hs hempty)
  refine ⟨es, m, hrun, indexed_of_inv hm.inv, ?_⟩
  rw [hm.posted, hm.handled, List.nil_append, List.map_map]
  rfl

end

end CPrograms.UringCat
