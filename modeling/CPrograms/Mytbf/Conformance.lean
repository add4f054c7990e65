import CPrograms.Mytbf.Table

/-!
# Token-bucket conformance

Between 0 and `burst` tokens are in a live bucket (`Level`).  The tokens of one bucket are a
potential: a tick raises it by `csp` at most, a fetch lowers it by what it gives, a return
raises it by what it takes at most (`Change.amount_le`).  Over any window of a run this
bounds what is fetched (`bucket_conforms`).
-/

namespace CPrograms.Mytbf

open Runs

/-- The parameters that `mytbf_init` is called with. -/
def Sane : Event → Prop
  | .init cps burst _ => 0 ≤ cps ∧ 0 ≤ burst
  | _ => True

instance : DecidablePred Sane
  | .init cps burst _ => inferInstanceAs (Decidable (0 ≤ cps ∧ 0 ≤ burst))
  | .alarm _ | .fetch .. | .resume .. | .giveBack .. | .destroy _ => .isTrue trivial

/-- The step is the `mytbf_init c m` that returns `p`. -/
def Creates (p : Nat) (c m : Int) (l : Label) : Prop := ∃ mem, l = (.init c m mem, .ptr (some p))

structure Level (b : Tbf) : Prop where
  csp : 0 ≤ b.csp
  nonneg : 0 ≤ b.token
  le : b.token ≤ b.burst

/-- A fetch that returns gives between one token and what it was asked for. -/
def Grants : Label → Prop
  | (.fetch _ size, .int n) | (.resume _ size, .int n) => 0 < size → 1 ≤ n ∧ n ≤ size
  | _ => True

section
variable {s t : Sys} {l : Label} {p : Nat} {o o' : Option Tbf}

theorem Level.tick {b : Tbf} (h : Level b) : Level b.tick := by
  obtain ⟨h1, h2, h3⟩ := h
  have ht := tick_token b
  constructor
  · exact h1
  · rw [ht]
    omega
  · rw [ht]
    exact Int.min_le_right _ _

theorem fetch_spec {b : Tbf} {size : Int} (h0 : 0 < b.token) (hs : 0 < size) :
    1 ≤ (b.fetch size).1 ∧ (b.fetch size).1 ≤ size ∧ (b.fetch size).1 ≤ b.token := by
  simp only [Tbf.fetch]
  split <;> omega

theorem Level.fetch {b : Tbf} (h : Level b) {size : Int} (h0 : 0 < b.token) (hs : 0 < size) :
    Level (b.fetch size).2 := by
  obtain ⟨h1, h2, h3⟩ := h
  have hn := fetch_spec h0 hs
  have ht : (b.fetch size).2.token = b.token - (b.fetch size).1 := rfl
  constructor
  · exact h1
  · rw [ht]
    omega
  · show (b.fetch size).2.token ≤ b.burst
    rw [ht]
    omega

theorem giveBack_token (b : Tbf) (size : Int) :
    (b.giveBack size).token = min (b.token + size) b.burst := by
  simp only [Tbf.giveBack]
  split <;> omega

theorem Level.giveBack {b : Tbf} (h : Level b) {size : Int} (hs : 0 < size) : Level (b.giveBack size) := by
  obtain ⟨h1, h2, h3⟩ := h
  have ht := giveBack_token b size
  constructor
  · exact h1
  · rw [ht]
    omega
  · rw [ht]
    exact Int.min_le_right _ _

theorem Creates.sane {c m : Int} (h : Creates p c m l) (hl : Sane l.1) : 0 ≤ c ∧ 0 ≤ m := by
  obtain ⟨mem, rfl⟩ := h
  exact hl

theorem Change.level (h : Change p l o o') (hl : ∀ c m, Creates p c m l → 0 ≤ c ∧ 0 ≤ m)
    (ho : ∀ b, o = some b → Level b) : ∀ b, o' = some b → Level b := by
  intro c hc
  cases h with
  | keep => exact ho c hc
  | create _ he =>
    cases hc
    obtain ⟨hcsp, hburst⟩ := hl _ _ ⟨_, he⟩
    exact ⟨hcsp, Int.le_refl _, hburst⟩
  | tick b _ => cases hc; exact (ho b rfl).tick
  | fetch b hs h0 => cases hc; exact (ho b rfl).fetch h0 hs
  | giveBack b hs _ => cases hc; exact (ho b rfl).giveBack hs
  | destroy => cases hc

/-- The job table with its buckets between empty and full. -/
structure Conforming (s : Sys) : Prop where
  table : Table s
  level : ∀ p b, s.heap p = some b → Level b

theorem Conforming.step (h : Conforming s) (hl : Sane l.1) (hs : Step s l t) : Conforming t :=
  ⟨h.table.step hs, fun p => (step_change h.table hs p).level (fun _ _ hc => hc.sane hl) (h.level p)⟩

theorem conforming_start : Conforming start := ⟨table_start, nofun⟩

theorem grants_step (hs : Step s l t) : Grants l := by
  cases step_effect hs with
  | full | create | other | tick | invalBack | giveBack | destroy => trivial
  | inval _ _ h0 =>
    intro h1
    omega
  | pause _ _ he => rcases he with ⟨rfl, -⟩ | ⟨rfl, -⟩ <;> trivial
  | fetch _ h0 he =>
    have hg : ∀ size : Int, 0 < size → 1 ≤ (Tbf.fetch size _).1 ∧ (Tbf.fetch size _).1 ≤ size :=
      fun size hs => ⟨(fetch_spec h0 hs).1, (fetch_spec h0 hs).2.1⟩
    rcases he with ⟨rfl, -⟩ | ⟨rfl, -⟩ <;> exact hg _

/-! ## The potential of a bucket -/

/-- Tokens in the bucket, none if there is no bucket. -/
def amount (o : Option Tbf) : Int := o.elim 0 Tbf.token

/-- The bucket has these parameters. -/
def Has (c m : Int) (o : Option Tbf) : Prop := ∀ b, o = some b → b.csp = c ∧ b.burst = m

theorem tickedBy_nonneg (l : Label) : 0 ≤ tickedBy l := by
  unfold tickedBy
  split <;> decide

theorem returnedBy_nonneg (p : Nat) (l : Label) : 0 ≤ returnedBy p l := by
  unfold returnedBy
  split
  · split
    · next h => exact Int.le_of_lt h.2
    · exact Int.le_refl _
  · exact Int.le_refl _

theorem Change.amount_le {c m : Int} (hc : 0 ≤ c) (h : Change p l o o') (ho : ∀ b, o = some b → Level b)
    (hm : Has c m o) : amount o' ≤ amount o + (c * tickedBy l + returnedBy p l - fetchedBy p l) := by
  have htick := Int.mul_nonneg hc (tickedBy_nonneg l)
  have hret := returnedBy_nonneg p l
  cases h with
  | keep _ h0 => omega
  | create _ he =>
    have h0 : fetchedBy p l = 0 := by rw [he]; rfl
    simp only [amount, Option.elim]
    omega
  | tick b he =>
    have h1 : tickedBy l = 1 := by rw [he]; rfl
    have h2 : fetchedBy p l = 0 := by rw [he]; rfl
    have h3 := (hm b rfl).1
    simp only [amount, Option.elim, tick_token]
    rw [h1, h2]
    omega
  | fetch b _ _ h1 h2 h3 =>
    simp only [amount, Option.elim, h1, h2, h3, Tbf.fetch]
    omega
  | @giveBack b size hs he =>
    have h1 : returnedBy p l = size := by
      rw [he]
      exact if_pos ⟨rfl, hs⟩
    have h2 : fetchedBy p l = 0 := by rw [he]; rfl
    simp only [amount, Option.elim, giveBack_token]
    omega
  | destroy b he =>
    have h0 : fetchedBy p l = 0 := by rw [he]; rfl
    have := (ho b rfl).nonneg
    simp only [amount, Option.elim]
    omega

theorem Change.has {c m : Int} (h : Change p l o o') (hl : ∀ c' m', Creates p c' m' l → c' = c ∧ m' = m)
    (hm : Has c m o) : Has c m o' := by
  intro b' hb'
  cases h with
  | keep => exact hm b' hb'
  | create _ he => cases hb'; exact hl _ _ ⟨_, he⟩
  | tick b _ => cases hb'; exact hm b rfl
  | fetch b _ _ => cases hb'; exact hm b rfl
  | giveBack b _ _ => cases hb'; exact hm b rfl
  | destroy => cases hb'

/-! ## Windows of a run -/

def fetched (p : Nat) (w : List Label) : Int := (w.map (fetchedBy p)).sum

def returned (p : Nat) (w : List Label) : Int := (w.map (returnedBy p)).sum

def ticks (w : List Label) : Int := (w.map tickedBy).sum

theorem sum_gain (c : Int) (p : Nat) (w : List Label) :
    (w.map fun l => c * tickedBy l + returnedBy p l - fetchedBy p l).sum =
      c * ticks w + returned p w - fetched p w := by
  unfold ticks returned fetched
  induction w with
  | nil => simp
  | cons l w ih =>
    rw [List.map_cons, List.map_cons, List.map_cons, List.map_cons, List.sum_cons, List.sum_cons,
      List.sum_cons, List.sum_cons, ih, Int.mul_add]
    omega

theorem brk_step (h : Step s l t) : s.brk ≤ t.brk ∧ ∀ c m, Creates p c m l → p = s.brk ∧ t.brk = p + 1 := by
  cases step_effect h with
  | create =>
    refine ⟨Nat.le_succ _, ?_⟩
    rintro c m ⟨mem, he⟩
    cases he
    exact ⟨rfl, rfl⟩
  | tick =>
    rw [(handler_rest s).2.1]
    exact ⟨Nat.le_refl _, by rintro c m ⟨mem, he⟩; cases he⟩
  | full | other | inval | invalBack | giveBack | destroy =>
    exact ⟨Nat.le_refl _, by rintro c m ⟨mem, he⟩; cases he⟩
  | pause | fetch => exact ⟨Nat.le_refl _, by rintro c m ⟨mem, he⟩; cases he⟩

/-- An address that was returned once is not returned again. -/
theorem not_created {es : List Label} (h : Run Step s es t) (hp : p < s.brk) :
    ∀ l ∈ es, ∀ c m, ¬Creates p c m l := by
  refine h.all (fun s => p < s.brk) _ (fun u l v hu hs => Nat.lt_of_lt_of_le hu (brk_step (p := p) hs).1) ?_ hp
  intro u l v hu hs c m hc
  exact Nat.lt_irrefl _ (((brk_step hs).2 c m hc).1 ▸ hu)

theorem created_once {es : List Label} (h : Run Step s es t) {l' : Label} (hl : l ∈ es) (hl' : l' ∈ es)
    {c m c' m' : Int} (hc : Creates p c m l) (hc' : Creates p c' m' l') : c' = c ∧ m' = m := by
  induction h with
  | nil => cases hl
  | cons he hr ih =>
    rcases List.mem_cons.1 hl with rfl | hin
    · rcases List.mem_cons.1 hl' with rfl | hin'
      · obtain ⟨mem, rfl⟩ := hc
        obtain ⟨mem', he'⟩ := hc'
        cases he'
        exact ⟨rfl, rfl⟩
      · have := ((brk_step he).2 c m hc).2
        exact absurd hc' (not_created hr (by omega) l' hin' c' m')
    · rcases List.mem_cons.1 hl' with rfl | hin'
      · have := ((brk_step he).2 c' m' hc').2
        exact absurd hc (not_created hr (by omega) l hin c m)
      · exact ih hin hin'

/-- A state of a run in which every `mytbf_init` is sane and returns `p` only for `c` and `m`. -/
structure Holding (p : Nat) (c m : Int) (s : Sys) : Prop where
  conforming : Conforming s
  has : Has c m (s.heap p)

/-- What the window's labels are for the bucket `p` with the parameters `c` and `m`. -/
def Fits (p : Nat) (c m : Int) (l : Label) : Prop :=
  Sane l.1 ∧ ∀ c' m', Creates p c' m' l → c' = c ∧ m' = m

theorem Holding.step {c m : Int} (h : Holding p c m s) (hl : Fits p c m l) (hs : Step s l t) :
    Holding p c m t :=
  ⟨h.conforming.step hl.1 hs, (step_change h.conforming.table hs p).has hl.2 h.has⟩

theorem run_holding {c m : Int} {es : List Label} (h : Run Step s es t) (hl : ∀ l ∈ es, Fits p c m l)
    (hs : Holding p c m s) : Holding p c m t :=
  (h.under hl).invariant (Holding p c m) (fun _ _ _ hu he => hu.step he.2 he.1) hs

/-- **Window bound.**  What is fetched in a window is paid for by what is in the bucket at
its start, the ticks and the returns. -/
theorem window_le {c m : Int} (hc : 0 ≤ c) {w : List Label} (h : Run Step s w t)
    (hl : ∀ l ∈ w, Fits p c m l) (hs : Holding p c m s) :
    fetched p w - returned p w ≤ amount (s.heap p) - amount (t.heap p) + c * ticks w := by
  have hpot := (h.under hl).potential_le (Holding p c m) (fun s => amount (s.heap p))
    (fun l => c * tickedBy l + returnedBy p l - fetchedBy p l) (fun _ _ _ hu he => hu.step he.2 he.1)
    (fun u l v hu he => (step_change hu.conforming.table he.1 p).amount_le hc (hu.conforming.level p) hu.has) hs
  rw [sum_gain] at hpot
  omega

theorem Holding.amount_bounds {c m : Int} (hm : 0 ≤ m) (h : Holding p c m s) :
    0 ≤ amount (s.heap p) ∧ amount (s.heap p) ≤ m := by
  cases hb : s.heap p with
  | none => exact ⟨Int.le_refl _, hm⟩
  | some b =>
    have hlevel := h.conforming.level p b hb
    have hparams := h.has b hb
    exact ⟨hlevel.nonneg, hparams.2 ▸ hlevel.le⟩

/-- **Conformance.**  In every run, every live bucket stays between empty and full, every
fetch gives what it may, and no window of the run gives more of a bucket, returns taken off,
than one burst and the refills of its ticks; from the bucket's `mytbf_init` on, no more than
the refills. -/
theorem bucket_conforms {es : List Label} (h : Run Step start es s) (hsane : ∀ l ∈ es, Sane l.1) :
    (∀ p b, s.heap p = some b → 0 ≤ b.token ∧ b.token ≤ b.burst) ∧ (∀ l ∈ es, Grants l) ∧
      ∀ pre w post p c m, es = pre ++ w ++ post → (∃ l ∈ es, Creates p c m l) →
        fetched p w - returned p w ≤ m + c * ticks w ∧
        ((∃ l w', w = l :: w' ∧ Creates p c m l) → fetched p w - returned p w ≤ c * ticks w) := by
  refine ⟨fun p b hb => ?_, ?_, ?_⟩
  · have hconf := (h.under hsane).invariant Conforming (fun _ _ _ hu he => hu.step he.2 he.1) conforming_start
    exact ⟨(hconf.level p b hb).nonneg, (hconf.level p b hb).le⟩
  · exact h.all (fun _ => True) Grants (fun _ _ _ _ _ => trivial) (fun _ _ _ _ he => grants_step he) trivial
  · rintro pre w post p c m rfl ⟨l, hl, hcreate⟩
    have hfits : ∀ l' ∈ pre ++ w ++ post, Fits p c m l' := fun l' hl' =>
      ⟨hsane l' hl', fun c' m' hc' => created_once h hl hl' hcreate hc'⟩
    have hcm : 0 ≤ c ∧ 0 ≤ m := hcreate.sane (hsane _ hl)
    obtain ⟨u, h12, -⟩ := run_append_iff.1 h
    obtain ⟨r, h1, h2⟩ := run_append_iff.1 h12
    have hr : Holding p c m r :=
      run_holding h1 (fun l' hl' => hfits l' (by simp [hl'])) ⟨conforming_start, nofun⟩
    have hw : ∀ l' ∈ w, Fits p c m l' := fun l' hl' => hfits l' (by simp [hl'])
    have hbound := window_le hcm.1 h2 hw hr
    have hend := ((run_holding h2 hw hr).amount_bounds hcm.2).1
    constructor
    · have := (hr.amount_bounds hcm.2).2
      omega
    · rintro ⟨l', w', rfl, hc'⟩
      cases h2 with
      | cons he _ =>
        have hp := ((brk_step he).2 c m hc').1
        have hnone : r.heap p = none := by
          cases hb : r.heap p with
          | none => rfl
          | some b => exact absurd (hr.conforming.table.fresh p b hb) (by omega)
        rw [hnone] at hbound
        simp only [amount, Option.elim] at hbound hend
        omega

end

/-- A bucket of 2 tokens a second: after one tick, 2 of the 3 tokens asked for are given. -/
theorem bucket_conforms_small : ∃ s es, Run Step start es s ∧ ticks es = 1 ∧
    fetched 0 es - returned 0 es ≤ 2 * ticks es := by
  obtain ⟨s, hrun, -⟩ := run_of_exec_map stepL start
    [(.init 2 5 true, .ptr (some 0)), (.alarm true, .none), (.fetch 0 3, .int 2)]
    (fun s => (s.heap 0).map Tbf.token) (a := some 0) (by decide +kernel)
  have hall := (bucket_conforms hrun (by decide)).2.2 [] _ [] 0 2 5 (List.append_nil _).symm
    ⟨_, List.mem_cons_self, true, rfl⟩
  exact ⟨s, _, hrun, rfl, hall.2 ⟨_, _, rfl, true, rfl⟩⟩

end CPrograms.Mytbf
