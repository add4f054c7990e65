import CPrograms.Mytbf.Conformance

/-!
# Where the additions stay in `int`

The handler and `mytbf_returntoken` add first and clamp to `burst` then, and `mytbf_init` takes
every `cps` and `burst`.  Ticks alone fill a bucket, and so do returns alone (`fill`), so the
additions are bounded from a full bucket: they stay in `int`, and the tokens between 0 and
`burst`, exactly where `0 ≤ cps`, `0 ≤ burst` and `burst` plus the larger of `cps` and the
largest return is an `int` (`additions_iff`).
-/

namespace CPrograms.Mytbf

open Runs

/-- `INT_MAX` -/
def intMax : Int := 2 ^ 31 - 1

def InInt (n : Int) : Prop := -2 ^ 31 ≤ n ∧ n ≤ intMax

instance (n : Int) : Decidable (InInt n) := inferInstanceAs (Decidable (_ ∧ _))

/-- The step keeps the bucket `p` in order: its addition is one of `int`, and after it the
tokens are between 0 and `burst`. -/
structure InOrder (p : Nat) (u : Sys) (l : Label) (v : Sys) : Prop where
  tick : l.1 = .alarm true → ∀ b, u.heap p = some b → InInt (b.token + b.csp)
  giveBack : ∀ size, l.1 = .giveBack p size → 0 < size → ∀ b, u.heap p = some b → InInt (b.token + size)
  level : ∀ b, v.heap p = some b → 0 ≤ b.token ∧ b.token ≤ b.burst

/-- No return to `p` is larger than `R`. -/
def ReturnsUpTo (p : Nat) (R : Int) (l : Label) : Prop := ∀ size, l.1 = .giveBack p size → size ≤ R

section
variable {s t : Sys} {l : Label} {p : Nat} {c m R : Int}

/-! ## In order -/

/-- The bucket `p` is one of the parameters `c` and `m`, between empty and full. -/
structure Kept (p : Nat) (c m : Int) (s : Sys) : Prop where
  table : Table s
  has : Has c m (s.heap p)
  level : ∀ b, s.heap p = some b → Level b

theorem kept_start (p : Nat) (c m : Int) : Kept p c m start :=
  ⟨table_start, by rintro b ⟨⟩, by rintro b ⟨⟩⟩

theorem Kept.step (h : Kept p c m s) (hc : 0 ≤ c) (hm : 0 ≤ m)
    (hl : ∀ c' m', Creates p c' m' l → c' = c ∧ m' = m) (hs : Step s l t) : Kept p c m t := by
  have hchange := step_change h.table hs p
  refine ⟨h.table.step hs, hchange.has hl h.has, hchange.level (fun c' m' hc' => ?_) h.level⟩
  obtain ⟨rfl, rfl⟩ := hl c' m' hc'
  exact ⟨hc, hm⟩

theorem Kept.inOrder (h : Kept p c m s) (ht : Kept p c m t) (hR : ReturnsUpTo p R l)
    (hc : m + c ≤ intMax) (hr : m + R ≤ intMax) : InOrder p s l t := by
  constructor
  · intro _ b hb
    obtain ⟨hcsp, hburst⟩ := h.has b hb
    obtain ⟨h1, h2, h3⟩ := h.level b hb
    constructor <;> omega
  · intro size he hpos b hb
    have hle := hR size he
    obtain ⟨-, hburst⟩ := h.has b hb
    obtain ⟨h1, h2, h3⟩ := h.level b hb
    constructor <;> omega
  · intro b hb
    obtain ⟨-, h2, h3⟩ := ht.level b hb
    exact ⟨h2, h3⟩

/-! ## Filling a bucket -/

/-- The first bucket has `k` tokens, and no call is in `pause`. -/
structure Holds (c m k : Int) (s : Sys) : Prop where
  table : Table s
  free : s.paused = none
  bucket : s.heap 0 = some ⟨c, m, k, 0⟩

theorem step_init (c m : Int) :
    ∃ s, Step start (.init c m true, .ptr (some 0)) s ∧ Holds c m 0 s := by
  have hpos : getFreePos start.job = some 0 := getFreePos_eq_some.2 ⟨by decide, rfl, by simp⟩
  have hs : Step start (.init c m true, .ptr (some 0)) (place c m 0 start) := by
    apply step_iff.2
    rw [step, if_pos (show start.paused = none from rfl), mytbfInit_of hpos]
    rfl
  exact ⟨_, hs, table_start.step hs, rfl, rfl⟩

theorem Holds.tick {k : Int} (h : Holds c m k s) :
    ∃ t, Step s (.alarm true, .none) t ∧ Holds c m (min (k + c) m) t := by
  have hs : Step s (.alarm true, .none) (handler true s) := rfl
  refine ⟨_, hs, h.table.step hs, (handler_rest s).2.2.trans h.free, ?_⟩
  rw [handler_heap h.table, h.bucket]
  have htick := tick_token ⟨c, m, k, 0⟩
  dsimp only at htick
  rw [← htick]
  rfl

theorem Holds.giveBack {k : Int} (h : Holds c m k s) (hR : 0 < R) :
    ∃ t, Step s (.giveBack 0 R, .int R) t ∧ Holds c m (min (k + R) m) t := by
  have hs : Step s (.giveBack 0 R, .int R) (refill 0 (Tbf.giveBack R ⟨c, m, k, 0⟩) s) := by
    apply step_iff.2
    simp only [step, h.free, h.bucket, mytbfReturntoken, if_neg (Int.not_le.2 hR), refill]
  refine ⟨_, hs, h.table.step hs, h.free, ?_⟩
  rw [refill_apply, if_pos rfl, ← giveBack_token ⟨c, m, k, 0⟩]
  rfl

/-- A step that adds tokens, repeated, fills the bucket. -/
theorem fill {x : Int} (hx : 0 < x)
    (hadd : ∀ s k, Holds c m k s → ∃ t, Step s l t ∧ Holds c m (min (k + x) m) t)
    {k : Int} (h : Holds c m k s) (hk : k ≤ m) :
    ∃ es t, (∀ l' ∈ es, l' = l) ∧ Run Step s es t ∧ Holds c m m t := by
  induction hn : (m - k).toNat using Nat.strongRecOn generalizing s k with
  | ind n ih =>
    by_cases hfull : k = m
    · subst hfull
      exact ⟨[], s, by simp, .nil s, h⟩
    · obtain ⟨u, hs, hu⟩ := hadd s k h
      obtain ⟨es, t, hes, hrun, ht⟩ := ih (m - min (k + x) m).toNat (by omega) hu (by omega) rfl
      refine ⟨l :: es, t, ?_, .cons hs hrun, ht⟩
      intro l' hl'
      rcases List.mem_cons.1 hl' with rfl | hl'
      · rfl
      · exact hes l' hl'

/-! ## The bound -/

/-- In every run in which `p` is the bucket of a `mytbf_init c m` and no return to it is larger
than `R`, every step keeps it in order. -/
def AlwaysInOrder (c m R : Int) : Prop :=
  ∀ es u l v p, Run Step start es u → Step u l v → (∃ l' ∈ es ++ [l], Creates p c m l') →
    (∀ l' ∈ es ++ [l], ReturnsUpTo p R l') → InOrder p u l v

theorem inOrder_of_bound (hc : 0 ≤ c) (hm : 0 ≤ m) (h : m + max c R ≤ intMax) : AlwaysInOrder c m R := by
  rintro es u l v p hrun hs ⟨l', hl', hcreate⟩ hR
  have hall : Run Step start (es ++ [l]) v := hrun.append (.cons hs (.nil v))
  have hfits : ∀ e ∈ es ++ [l], ∀ c' m', Creates p c' m' e → c' = c ∧ m' = m := fun e he c' m' hc' =>
    created_once hall hl' he hcreate hc'
  have hu : Kept p c m u := (hrun.under fun e he => hfits e (List.mem_append_left _ he)).invariant
    (Kept p c m) (fun _ _ _ hk he => hk.step hc hm he.2 he.1) (kept_start p c m)
  have hl : l ∈ es ++ [l] := List.mem_append_right _ (List.mem_singleton.2 rfl)
  exact hu.inOrder (hu.step hc hm (hfits l hl) hs) (hR l hl) (by omega) (by omega)

/-- What a run of the first bucket shows. -/
theorem AlwaysInOrder.first (h : AlwaysInOrder c m R) {l₀ : Label} {u : Sys}
    (hl₀ : l₀ = (.init c m true, .ptr (some 0))) (hs₀ : Step start l₀ u) {es : List Label}
    (hrun : Run Step u es s) (hs : Step s l t) (hR : ∀ l' ∈ es ++ [l], ReturnsUpTo 0 R l') :
    InOrder 0 s l t := by
  refine h (l₀ :: es) s l t 0 (.cons hs₀ hrun) hs ⟨l₀, by simp, true, hl₀⟩ fun l' hl' => ?_
  rcases List.mem_cons.1 hl' with rfl | hl'
  · rw [hl₀]
    rintro size ⟨⟩
  · exact hR l' hl'

theorem returnsUpTo_alarm (p : Nat) (R : Int) : ReturnsUpTo p R (.alarm true, .none) := by
  rintro size ⟨⟩

theorem returnsUpTo_giveBack (p : Nat) (R : Int) (a : Answer) : ReturnsUpTo p R (.giveBack p R, a) := by
  rintro size ⟨⟩
  exact Int.le_refl R

/-- A step that adds to a full bucket is reached. -/
theorem AlwaysInOrder.full (h : AlwaysInOrder c m R) (hm : 0 ≤ m) {x : Int} (hx : 0 < x)
    (hadd : ∀ s k, Holds c m k s → ∃ t, Step s l t ∧ Holds c m (min (k + x) m) t)
    (hR : ReturnsUpTo 0 R l) :
    ∃ s t, Holds c m m s ∧ Step s l t ∧ InOrder 0 s l t := by
  obtain ⟨u, hs₀, hu⟩ := step_init c m
  obtain ⟨es, s, hes, hrun, hfull⟩ := fill hx hadd hu hm
  obtain ⟨t, hs, -⟩ := hadd s m hfull
  refine ⟨s, t, hfull, hs, h.first rfl hs₀ hrun hs fun l' hl' => ?_⟩
  rcases List.mem_append.1 hl' with hl' | hl'
  · rw [hes l' hl']
    exact hR
  · rw [List.mem_singleton.1 hl']
    exact hR

/-- **Exactly.** -/
theorem additions_iff (hm : m ≤ intMax) (hR : 0 ≤ R) :
    AlwaysInOrder c m R ↔ 0 ≤ c ∧ 0 ≤ m ∧ m + max c R ≤ intMax := by
  refine ⟨fun h => ?_, fun ⟨hc, hm0, hle⟩ => inOrder_of_bound hc hm0 hle⟩
  obtain ⟨u, hs₀, hu⟩ := step_init c m
  have hm0 : 0 ≤ m := ((h [] start _ u 0 (.nil _) hs₀ ⟨_, List.mem_singleton.2 rfl, true, rfl⟩ (by
    intro l' hl'
    rw [List.mem_singleton.1 hl']
    rintro size ⟨⟩)).level _ hu.bucket).2
  have hc : 0 ≤ c := by
    obtain ⟨t, hs, ht⟩ := hu.tick
    have := ((h.first rfl hs₀ (.nil u) hs (by
      intro l' hl'
      rw [List.mem_singleton.1 hl']
      exact returnsUpTo_alarm 0 R)).level _ ht.bucket).1
    dsimp only at this
    omega
  have hcm : 0 < c → m + c ≤ intMax := by
    intro hpos
    obtain ⟨s, t, hfull, -, hin⟩ := h.full hm0 hpos (fun _ _ hk => hk.tick) (returnsUpTo_alarm 0 R)
    exact (hin.tick rfl _ hfull.bucket).2
  have hRm : 0 < R → m + R ≤ intMax := by
    intro hpos
    obtain ⟨s, t, hfull, -, hin⟩ := h.full hm0 hpos (fun _ _ hk => hk.giveBack hpos)
      (returnsUpTo_giveBack 0 R _)
    exact (hin.giveBack R rfl hpos _ hfull.bucket).2
  exact ⟨hc, hm0, by omega⟩

end

/-- The bucket of `cli.c` for its default of 10 datagrams a second. -/
theorem additions_iff_default : AlwaysInOrder 10 50 50 :=
  (additions_iff (by decide) (by decide)).2 (by decide)

/-- The bucket of `cli.c` for 400000000 datagrams a second is full after five ticks, and the
sixth leaves `int`. -/
theorem sixth_tick_overflows : ∃ u v,
    Run Step start ((.init 400000000 2000000000 true, .ptr (some 0)) ::
      List.replicate 5 (.alarm true, .none)) u ∧
    Step u (.alarm true, .none) v ∧ ¬ InOrder 0 u (.alarm true, .none) v := by
  obtain ⟨u, hrun, hb⟩ := run_of_exec_map stepL start
    ((.init 400000000 2000000000 true, .ptr (some 0)) :: List.replicate 5 (.alarm true, .none))
    (fun s => s.heap 0) (a := some ⟨400000000, 2000000000, 2000000000, 0⟩) (by decide +kernel)
  refine ⟨u, _, hrun, rfl, fun h => ?_⟩
  have hin := h.tick rfl _ hb
  revert hin
  decide

end CPrograms.Mytbf
