import CPrograms.Mytbf.Model

/-!
# The job table

Every slot that is taken holds a live bucket that knows its slot, every live bucket is in
its slot, and a call in `pause` asks for tokens (`Table`).  So the handler ticks every live
bucket exactly once (`handler_heap`).  `Change` lists what a step can do to one bucket
(`step_change`); what is said about buckets further on is said by its cases.
-/

namespace CPrograms.Mytbf

open Runs

structure Table (s : Sys) : Prop where
  slot : ∀ i p, s.job i = some p → ∃ b, s.heap p = some b ∧ b.pos = i
  bucket : ∀ p b, s.heap p = some b → b.pos < mytbfMax ∧ s.job b.pos = some p
  fresh : ∀ p b, s.heap p = some b → p < s.brk
  waiting : ∀ p size, s.paused = some (p, size) → 0 < size

theorem table_start : Table start := by
  constructor <;> simp [start]

section
variable {s t : Sys} {l : Label}

/-! ## The handler -/

@[simp] theorem tick_pos (b : Tbf) : b.tick.pos = b.pos := rfl

@[simp] theorem tick_csp (b : Tbf) : b.tick.csp = b.csp := rfl

@[simp] theorem tick_burst (b : Tbf) : b.tick.burst = b.burst := rfl

theorem tick_token (b : Tbf) : b.tick.token = min (b.token + b.csp) b.burst := by
  simp only [Tbf.tick]
  split <;> omega

theorem tickSlot_apply (job : Nat → Option Nat) (heap : Nat → Option Tbf) (i p : Nat) :
    tickSlot job heap i p = if job i = some p then (heap p).map Tbf.tick else heap p := by
  unfold tickSlot
  cases hj : job i with
  | none => rfl
  | some q =>
    by_cases hq : q = p
    · subst hq
      simp
    · rw [if_neg (by simpa using hq)]
      exact Function.update_of_ne (Ne.symm hq) _ _

/-- A bucket is ticked once for its slot, whatever else is in the table. -/
theorem foldl_tickSlot {job : Nat → Option Nat} {p : Nat}
    (hinj : ∀ i j, job i = some p → job j = some p → i = j) (slots : List Nat) (hnd : slots.Nodup)
    (heap : Nat → Option Tbf) : slots.foldl (tickSlot job) heap p =
      if ∃ i ∈ slots, job i = some p then (heap p).map Tbf.tick else heap p := by
  induction slots generalizing heap with
  | nil => simp
  | cons i slots ih =>
    obtain ⟨hi, hnd⟩ := List.nodup_cons.1 hnd
    rw [List.foldl_cons, ih hnd, tickSlot_apply]
    by_cases hp : job i = some p
    · have hno : ¬∃ j ∈ slots, job j = some p := by
        rintro ⟨j, hj, hjp⟩
        exact hi (hinj i j hp hjp ▸ hj)
      rw [if_neg hno, if_pos hp, if_pos ⟨i, List.mem_cons_self, hp⟩]
    · rw [if_neg hp]
      refine if_congr ?_ rfl rfl
      constructor
      · rintro ⟨j, hj, hjp⟩
        exact ⟨j, List.mem_cons_of_mem _ hj, hjp⟩
      · rintro ⟨j, hj, hjp⟩
        rcases List.mem_cons.1 hj with rfl | hj
        · exact absurd hjp hp
        · exact ⟨j, hj, hjp⟩

theorem Table.inj (h : Table s) {p i j : Nat} (hi : s.job i = some p) (hj : s.job j = some p) : i = j := by
  obtain ⟨b, hb, rfl⟩ := h.slot i p hi
  obtain ⟨b', hb', rfl⟩ := h.slot j p hj
  rw [hb] at hb'
  cases hb'
  rfl

theorem handler_true (s : Sys) :
    handler true s = { s with heap := (List.range mytbfMax).foldl (tickSlot s.job) s.heap } :=
  if_neg (by decide)

/-- **One tick each.**  The handler ticks every live bucket exactly once. -/
theorem handler_heap (h : Table s) (p : Nat) :
    (handler true s).heap p = (s.heap p).map Tbf.tick := by
  rw [handler_true]
  dsimp only
  rw [foldl_tickSlot (fun i j => h.inj) _ List.nodup_range]
  split
  · rfl
  · next hno =>
    cases hp : s.heap p with
    | none => rfl
    | some b =>
      obtain ⟨h1, h2⟩ := h.bucket p b hp
      exact absurd ⟨b.pos, List.mem_range.2 h1, h2⟩ hno

theorem handler_rest (s : Sys) : (handler true s).job = s.job ∧ (handler true s).brk = s.brk ∧
    (handler true s).paused = s.paused := by
  rw [handler_true]
  exact ⟨rfl, rfl, rfl⟩

theorem Table.handler (h : Table s) : Table (handler true s) := by
  have hheap := handler_heap h
  obtain ⟨hjob, hbrk, hpaused⟩ := handler_rest s
  have hback : ∀ p b, (Mytbf.handler true s).heap p = some b → ∃ b', s.heap p = some b' ∧ b = b'.tick := by
    intro p b hb
    rw [hheap] at hb
    obtain ⟨b', h1, h2⟩ := Option.map_eq_some_iff.1 hb
    exact ⟨b', h1, h2.symm⟩
  constructor
  · intro i p hp
    rw [hjob] at hp
    obtain ⟨b, hb, rfl⟩ := h.slot i p hp
    exact ⟨b.tick, by rw [hheap, hb]; rfl, rfl⟩
  · intro p b hb
    obtain ⟨b', hb', rfl⟩ := hback p b hb
    rw [hjob]
    exact h.bucket p b' hb'
  · intro p b hb
    obtain ⟨b', hb', rfl⟩ := hback p b hb
    rw [hbrk]
    exact h.fresh p b' hb'
  · rw [hpaused]
    exact h.waiting

/-! ## The calls -/

/-- The first free slot. -/
theorem getFreePos_eq_some {job : Nat → Option Nat} {pos : Nat} :
    getFreePos job = some pos ↔ pos < mytbfMax ∧ job pos = none ∧ ∀ j < pos, job j ≠ none := by
  rw [getFreePos, List.find?_range_eq_some, List.mem_range, Option.isNone_iff_eq_none, and_left_comm]
  simp only [Bool.not_eq_true', Option.isNone_eq_false_iff, Option.isSome_iff_ne_none]

/-- A fresh bucket in a free slot. -/
def place (cps burst : Int) (pos : Nat) (s : Sys) : Sys :=
  { s with
    heap := Function.update s.heap s.brk (some ⟨cps, burst, 0, pos⟩)
    brk := s.brk + 1
    job := Function.update s.job pos (some s.brk) }

theorem mytbfInit_cases (cps burst : Int) (mem : Bool) (s : Sys) :
    mytbfInit cps burst mem s = (none, s) ∨ ∃ pos, pos < mytbfMax ∧ s.job pos = none ∧
      mytbfInit cps burst mem s = (some s.brk, place cps burst pos s) := by
  unfold mytbfInit
  cases hpos : getFreePos s.job with
  | none => exact .inl rfl
  | some pos =>
    cases mem with
    | false => exact .inl rfl
    | true =>
      obtain ⟨h1, h2, -⟩ := getFreePos_eq_some.1 hpos
      exact .inr ⟨pos, h1, h2, rfl⟩

theorem mytbfInit_of {pos : Nat} (h : getFreePos s.job = some pos) (cps burst : Int) :
    mytbfInit cps burst true s = (some s.brk, place cps burst pos s) := by
  unfold mytbfInit
  rw [h]
  exact if_neg (by decide)

/-- A new content for a live bucket. -/
def refill (p : Nat) (b : Tbf) (s : Sys) : Sys := { s with heap := Function.update s.heap p (some b) }

/-- The step as an event with its answer. -/
inductive Effect (s : Sys) : Label → Sys → Prop
  | full {cps burst : Int} {mem : Bool} : s.paused = none → Effect s (.init cps burst mem, .ptr none) s
  | create {cps burst : Int} {mem : Bool} {pos : Nat} : s.paused = none → pos < mytbfMax → s.job pos = none →
      Effect s (.init cps burst mem, .ptr (some s.brk)) (place cps burst pos s)
  | other : Effect s (.alarm false, .none) s
  | tick : Effect s (.alarm true, .none) (handler true s)
  | inval {p : Nat} {size : Int} {b : Tbf} : s.paused = none → s.heap p = some b → size ≤ 0 →
      Effect s (.fetch p size, .int (-einval)) s
  | pause {p : Nat} {size : Int} {b : Tbf} {e : Event} : s.heap p = some b → b.token ≤ 0 → 
      (e = .fetch p size ∧ s.paused = none ∧ 0 < size) ∨ (e = .resume p size ∧ s.paused = some (p, size)) →
      Effect s (e, .none) { s with paused := some (p, size) }
  | fetch {p : Nat} {size : Int} {b : Tbf} {e : Event} : s.heap p = some b → 0 < b.token →
      (e = .fetch p size ∧ s.paused = none ∧ 0 < size) ∨ (e = .resume p size ∧ s.paused = some (p, size)) →
      Effect s (e, .int (b.fetch size).1) { refill p (b.fetch size).2 s with paused := none }
  | invalBack {p : Nat} {size : Int} {b : Tbf} : s.paused = none → s.heap p = some b → size ≤ 0 →
      Effect s (.giveBack p size, .int (-einval)) s
  | giveBack {p : Nat} {size : Int} {b : Tbf} : s.paused = none → s.heap p = some b → 0 < size →
      Effect s (.giveBack p size, .int size) (refill p (b.giveBack size) s)
  | destroy {p : Nat} {b : Tbf} : s.paused = none → s.heap p = some b →
      Effect s (.destroy p, .int 0) (mytbfDestroy p b s)

theorem fetchLoop_effect {p : Nat} {size : Int} {b : Tbf} {e : Event} (hb : s.heap p = some b)
    (he : (e = .fetch p size ∧ s.paused = none ∧ 0 < size) ∨ (e = .resume p size ∧ s.paused = some (p, size))) :
    Effect s (e, .ofFetch (fetchLoop p size b s).1) (fetchLoop p size b s).2 := by
  unfold fetchLoop
  by_cases h0 : b.token ≤ 0
  · rw [if_pos h0]
    exact .pause hb h0 he
  · rw [if_neg h0]
    exact .fetch hb (by omega) he

theorem step_iff {e : Event} {a : Answer} : Step s (e, a) t ↔ step s e = some (a, t) := by
  rw [Step, stepL, Option.bind_eq_some_iff]
  constructor
  · rintro ⟨⟨a', t'⟩, hs, ha⟩
    dsimp only at ha
    split at ha
    · next heq =>
      cases ha
      subst heq
      exact hs
    · cases ha
  · intro hs
    exact ⟨(a, t), hs, if_pos rfl⟩

/-- **Inversion.** -/
theorem step_effect (h : Step s l t) : Effect s l t := by
  obtain ⟨e, a⟩ := l
  have hs := step_iff.1 h
  cases e with
  | init cps burst mem =>
    simp only [step] at hs
    split at hs
    · next hp =>
      rcases mytbfInit_cases cps burst mem s with h1 | ⟨pos, h1, h2, h3⟩
      · rw [h1] at hs; cases hs; exact .full hp
      · rw [h3] at hs; cases hs; exact .create hp h1 h2
    · cases hs
  | alarm kernel =>
    cases hs
    cases kernel with
    | false => exact .other
    | true => exact .tick
  | fetch p size =>
    simp only [step] at hs
    split at hs
    · next b hp hb =>
      unfold mytbfFetchtoken at hs
      by_cases h0 : size ≤ 0
      · rw [if_pos h0] at hs; cases hs; exact .inval hp hb h0
      · rw [if_neg h0] at hs; cases hs; exact fetchLoop_effect hb (.inl ⟨rfl, hp, by omega⟩)
    · cases hs
  | resume p size =>
    simp only [step] at hs
    split at hs
    · next b hb =>
      split at hs
      · next hp => cases hs; exact fetchLoop_effect hb (.inr ⟨rfl, hp⟩)
      · cases hs
    · cases hs
  | giveBack p size =>
    simp only [step] at hs
    split at hs
    · next b hp hb =>
      unfold mytbfReturntoken at hs
      by_cases h0 : size ≤ 0
      · rw [if_pos h0] at hs; cases hs; exact .invalBack hp hb h0
      · rw [if_neg h0] at hs; cases hs; exact .giveBack hp hb (by omega)
    · cases hs
  | destroy p =>
    simp only [step] at hs
    split at hs
    · next b hp hb => cases hs; exact .destroy hp hb
    · cases hs

theorem Table.place (h : Table s) {cps burst : Int} {pos : Nat} (hpos : pos < mytbfMax)
    (hjob : s.job pos = none) : Table (place cps burst pos s) := by
  have hbrk : s.heap s.brk = none := by
    cases hb : s.heap s.brk with
    | none => rfl
    | some b => exact absurd (h.fresh _ _ hb) (Nat.lt_irrefl _)
  constructor
  · intro i p hp
    by_cases hi : i = pos
    · subst hi
      simp only [Mytbf.place, Function.update_self, Option.some.injEq] at hp
      subst hp
      exact ⟨_, Function.update_self .., rfl⟩
    · simp only [Mytbf.place, Function.update_of_ne hi] at hp
      obtain ⟨b, hb, rfl⟩ := h.slot i p hp
      refine ⟨b, ?_, rfl⟩
      have hne : p ≠ s.brk := by
        rintro rfl
        rw [hbrk] at hb
        cases hb
      exact (Function.update_of_ne hne _ _).trans hb
  · intro p b hb
    by_cases hp : p = s.brk
    · subst hp
      simp only [Mytbf.place, Function.update_self, Option.some.injEq] at hb
      subst hb
      exact ⟨hpos, Function.update_self ..⟩
    · simp only [Mytbf.place, Function.update_of_ne hp] at hb
      obtain ⟨h1, h2⟩ := h.bucket p b hb
      refine ⟨h1, ?_⟩
      have hne : b.pos ≠ pos := by
        intro he
        rw [he, hjob] at h2
        cases h2
      exact (Function.update_of_ne hne _ _).trans h2
  · intro p b hb
    by_cases hp : p = s.brk
    · subst hp
      exact Nat.lt_succ_self _
    · simp only [Mytbf.place, Function.update_of_ne hp] at hb
      exact Nat.lt_succ_of_lt (h.fresh p b hb)
  · exact h.waiting

theorem Table.refill (h : Table s) {p : Nat} {b b' : Tbf} (hb : s.heap p = some b) (hpos : b'.pos = b.pos) :
    Table (refill p b' s) := by
  have hback : ∀ q c, (Mytbf.refill p b' s).heap q = some c → ∃ d, s.heap q = some d ∧ c.pos = d.pos := by
    intro q c hc
    by_cases hq : q = p
    · subst hq
      simp only [Mytbf.refill, Function.update_self, Option.some.injEq] at hc
      subst hc
      exact ⟨b, hb, hpos⟩
    · simp only [Mytbf.refill, Function.update_of_ne hq] at hc
      exact ⟨c, hc, rfl⟩
  constructor
  · intro i q hq
    obtain ⟨c, hc, rfl⟩ := h.slot i q hq
    by_cases hp : q = p
    · subst hp
      rw [hb] at hc
      cases hc
      exact ⟨b', Function.update_self .., hpos⟩
    · exact ⟨c, (Function.update_of_ne hp _ _).trans hc, rfl⟩
  · intro q c hc
    obtain ⟨d, hd, he⟩ := hback q c hc
    rw [he]
    exact h.bucket q d hd
  · intro q c hc
    obtain ⟨d, hd, -⟩ := hback q c hc
    exact h.fresh q d hd
  · exact h.waiting

theorem Table.destroy (h : Table s) {p : Nat} {b : Tbf} (hb : s.heap p = some b) :
    Table (mytbfDestroy p b s) := by
  have hback : ∀ q c, (mytbfDestroy p b s).heap q = some c → q ≠ p ∧ s.heap q = some c := by
    intro q c hc
    by_cases hq : q = p
    · subst hq
      simp [mytbfDestroy] at hc
    · simp only [mytbfDestroy, Function.update_of_ne hq] at hc
      exact ⟨hq, hc⟩
  obtain ⟨-, hslot⟩ := h.bucket p b hb
  constructor
  · intro i q hq
    by_cases hi : i = b.pos
    · subst hi
      simp [mytbfDestroy] at hq
    · simp only [mytbfDestroy, Function.update_of_ne hi] at hq
      obtain ⟨c, hc, rfl⟩ := h.slot i q hq
      refine ⟨c, ?_, rfl⟩
      have hne : q ≠ p := by
        rintro rfl
        exact hi (h.inj hq hslot)
      exact (Function.update_of_ne hne _ _).trans hc
  · intro q c hc
    obtain ⟨hne, hc⟩ := hback q c hc
    obtain ⟨h1, h2⟩ := h.bucket q c hc
    refine ⟨h1, ?_⟩
    have hpos : c.pos ≠ b.pos := by
      intro he
      rw [he, hslot] at h2
      exact hne (Option.some.inj h2).symm
    exact (Function.update_of_ne hpos _ _).trans h2
  · intro q c hc
    exact h.fresh q c (hback q c hc).2
  · exact h.waiting

theorem Table.pause (h : Table s) {o : Option (Nat × Int)} (ho : ∀ p size, o = some (p, size) → 0 < size) :
    Table { s with paused := o } := ⟨h.slot, h.bucket, h.fresh, ho⟩

theorem Table.step (h : Table s) (hs : Step s l t) : Table t := by
  cases step_effect hs with
  | full | other | inval | invalBack => exact h
  | create _ h1 h2 => exact h.place h1 h2
  | tick => exact h.handler
  | pause _ _ he =>
    apply h.pause
    rintro q n ⟨⟩
    rcases he with ⟨-, -, h0⟩ | ⟨-, hp⟩
    · exact h0
    · exact h.waiting _ _ hp
  | @fetch q size b _ hb _ _ =>
    have ht : Table (Mytbf.refill q (b.fetch size).2 s) := h.refill hb rfl
    exact ht.pause (o := none) fun _ _ ho => by cases ho
  | giveBack _ hb _ => exact h.refill hb rfl
  | destroy _ hb => exact h.destroy hb

theorem run_table {es : List Label} (h : Run Step start es s) : Table s :=
  h.invariant Table (fun _ _ _ ht hs => ht.step hs) table_start

/-! ## One bucket -/

/-- Tokens that the step's call gives from the bucket `p`. -/
def fetchedBy (p : Nat) : Label → Int
  | (.fetch q size, .int n) | (.resume q size, .int n) => if q = p ∧ 0 < size then n else 0
  | _ => 0

/-- Tokens that the step's call passes back to the bucket `p`. -/
def returnedBy (p : Nat) : Label → Int
  | (.giveBack q size, _) => if q = p ∧ 0 < size then size else 0
  | _ => 0

/-- A SIGALRM of the kernel's timer. -/
def tickedBy : Label → Int
  | (.alarm true, _) => 1
  | _ => 0

/-- What a step can do to the bucket `p`. -/
inductive Change (p : Nat) (l : Label) : Option Tbf → Option Tbf → Prop
  | keep (o : Option Tbf) : fetchedBy p l = 0 → Change p l o o
  | create {cps burst : Int} {mem : Bool} (pos : Nat) : l = (.init cps burst mem, .ptr (some p)) →
      Change p l none (some ⟨cps, burst, 0, pos⟩)
  | tick (b : Tbf) : l = (.alarm true, .none) → Change p l (some b) (some b.tick)
  | fetch (b : Tbf) {size : Int} : 0 < size → 0 < b.token → fetchedBy p l = (b.fetch size).1 →
      returnedBy p l = 0 → tickedBy l = 0 → Change p l (some b) (some (b.fetch size).2)
  | giveBack (b : Tbf) {size : Int} : 0 < size → l = (.giveBack p size, .int size) →
      Change p l (some b) (some (b.giveBack size))
  | destroy (b : Tbf) : l = (.destroy p, .int 0) → Change p l (some b) none

theorem refill_apply (p q : Nat) (b : Tbf) (s : Sys) :
    (refill p b s).heap q = if q = p then some b else s.heap q := Function.update_apply ..

theorem step_change (h : Table s) (hs : Step s l t) (p : Nat) : Change p l (s.heap p) (t.heap p) := by
  cases step_effect hs with
  | full | other | pause => exact .keep _ (by unfold fetchedBy; split <;> simp_all)
  | inval _ _ h0 => exact .keep _ (if_neg (by omega))
  | invalBack => exact .keep _ rfl
  | @create _ _ _ pos _ _ _ =>
    by_cases hp : p = s.brk
    · subst hp
      have hbrk : s.heap s.brk = none := by
        cases hb : s.heap s.brk with
        | none => rfl
        | some b => exact absurd (h.fresh _ _ hb) (Nat.lt_irrefl _)
      rw [hbrk, show (place _ _ pos s).heap s.brk = _ from Function.update_self ..]
      exact .create pos rfl
    · rw [show (place _ _ pos s).heap p = _ from Function.update_of_ne hp ..]
      exact .keep _ rfl
  | tick =>
    rw [handler_heap h]
    cases hb : s.heap p with
    | none => exact .keep _ rfl
    | some b => exact .tick b rfl
  | @fetch q size b e hb h0 he =>
    have hsize : 0 < size := by
      rcases he with ⟨-, -, h1⟩ | ⟨-, h1⟩
      · exact h1
      · exact h.waiting _ _ h1
    rw [show Sys.heap _ p = _ from refill_apply q p (b.fetch size).2 s]
    by_cases hp : p = q
    · subst hp
      rw [if_pos rfl, hb]
      rcases he with ⟨rfl, -⟩ | ⟨rfl, -⟩ <;> exact .fetch b hsize h0 (if_pos ⟨rfl, hsize⟩) rfl rfl
    · rw [if_neg hp]
      rcases he with ⟨rfl, -⟩ | ⟨rfl, -⟩ <;> exact .keep _ (if_neg fun h1 => hp h1.1.symm)
  | @giveBack q size b _ hb h0 =>
    rw [refill_apply]
    by_cases hp : p = q
    · subst hp
      rw [if_pos rfl, hb]
      exact .giveBack b h0 rfl
    · rw [if_neg hp]
      exact .keep _ rfl
  | @destroy q b _ hb =>
    by_cases hp : p = q
    · subst hp
      rw [hb, show (mytbfDestroy p b s).heap p = none from Function.update_self ..]
      exact .destroy b rfl
    · rw [show (mytbfDestroy q b s).heap p = s.heap p from Function.update_of_ne hp ..]
      exact .keep _ rfl

end

end CPrograms.Mytbf
