import Mathlib.Logic.Relation
import Mathlib.Algebra.BigOperators.Group.List.Basic
import Mathlib.Algebra.Order.Group.Int
import Mathlib.Algebra.Ring.Int.Defs

/-!
# Labelled runs

A system is a step relation `step : σ → ε → σ → Prop`; `Run step s es t` says that the
events `es` take `s` to `t`.  What one step preserves a run preserves (`Run.invariant`),
and what one step adds to a potential at most, a run adds at most in sum
(`Run.potential_le`).  `Under step C` keeps the steps whose start and event meet `C`, and
`observed f g` lists what `g` sees of a run's steps.
-/

namespace Runs

variable {σ ε : Type}

/-- The events `es`, in this order, take `s` to `t`. -/
inductive Run (step : σ → ε → σ → Prop) : σ → List ε → σ → Prop
  | nil (s : σ) : Run step s [] s
  | cons {s t u : σ} {e : ε} {es : List ε} :
      step s e t → Run step t es u → Run step s (e :: es) u

/-- The steps of `step` that start in a state and with an event meeting `C`. -/
def Under (step : σ → ε → σ → Prop) (C : σ → ε → Prop) : σ → ε → σ → Prop :=
  fun s e t => step s e t ∧ C s e

/-- Some step on the way starts in a state and with an event meeting `P`. -/
def Sometime (step : σ → ε → σ → Prop) (P : σ → ε → Prop) (s : σ) (es : List ε) (t : σ) : Prop :=
  ∃ es₁ e es₂ u v, es = es₁ ++ e :: es₂ ∧ Run step s es₁ u ∧ step u e v ∧ P u e ∧ Run step v es₂ t

/-- A step function, run over a list of events. -/
def exec (f : σ → ε → Option σ) : σ → List ε → Option σ
  | s, [] => some s
  | s, e :: es => (f s e).bind fun t => exec f t es

/-- What `g` sees of the steps of a run of `f`, in their order. -/
def observed (f : σ → ε → Option σ) {α : Type} (g : σ → ε → Option α) : σ → List ε → List α
  | _, [] => []
  | s, e :: es => (g s e).toList ++ (f s e).elim [] fun t => observed f g t es

section
variable {step : σ → ε → σ → Prop} {s t u : σ} {es fs : List ε}

theorem Run.append (h : Run step s es t) (h' : Run step t fs u) : Run step s (es ++ fs) u := by
  induction h with
  | nil => exact h'
  | cons hs _ ih => exact .cons hs (ih h')

theorem run_append_iff : Run step s (es ++ fs) u ↔ ∃ t, Run step s es t ∧ Run step t fs u := by
  constructor
  · induction es generalizing s with
    | nil => intro h; exact ⟨s, .nil s, h⟩
    | cons e es ih =>
      intro h
      cases h with
      | cons hs hr =>
        obtain ⟨t, h1, h2⟩ := ih hr
        exact ⟨t, .cons hs h1, h2⟩
  · rintro ⟨t, h1, h2⟩
    exact h1.append h2

/-- **Invariant rule.**  What every step preserves, every run preserves. -/
theorem Run.invariant (I : σ → Prop) (hstep : ∀ s e t, I s → step s e t → I t)
    (h : Run step s es t) (hs : I s) : I t := by
  induction h with
  | nil => exact hs
  | cons he _ ih => exact ih (hstep _ _ _ hs he)

/-- What every step shows of its event under an invariant holds of all events of a run. -/
theorem Run.all (I : σ → Prop) (P : ε → Prop) (hI : ∀ s e t, I s → step s e t → I t)
    (hP : ∀ s e t, I s → step s e t → P e) (h : Run step s es t) (hs : I s) : ∀ e ∈ es, P e := by
  induction h with
  | nil => intro e he; cases he
  | cons he _ ih =>
    intro e hmem
    rcases List.mem_cons.1 hmem with rfl | hmem
    · exact hP _ _ _ hs he
    · exact ih (hI _ _ _ hs he) e hmem

/-- **Invariant rule, with the past.**  The invariant speaks of the events so far too. -/
theorem Run.history (I : List ε → σ → Prop) (hstep : ∀ es u e v, I es u → step u e v → I (es ++ [e]) v)
    (h : Run step s es t) (hs : I [] s) : I es t := by
  suffices hpast : ∀ past, I past s → I (past ++ es) t from hpast [] hs
  clear hs
  induction h with
  | nil =>
    intro past hp
    rw [List.append_nil]
    exact hp
  | @cons s t u e es he _ ih =>
    intro past hp
    have := ih (past ++ [e]) (hstep past s e t hp he)
    rw [List.append_assoc] at this
    exact this

theorem Run.unique (hdet : ∀ s e t t', step s e t → step s e t' → t = t') (h : Run step s es t)
    (h' : Run step s es u) : t = u := by
  induction h with
  | nil => cases h'; rfl
  | cons he _ ih =>
    cases h' with
    | cons he' hr' =>
      obtain rfl := hdet _ _ _ _ he he'
      exact ih hr'

theorem run_snoc_iff {e : ε} : Run step s (es ++ [e]) u ↔ ∃ t, Run step s es t ∧ step t e u := by
  rw [run_append_iff]
  constructor
  · rintro ⟨t, h1, h2⟩
    cases h2 with
    | cons he hr => cases hr; exact ⟨t, h1, he⟩
  · rintro ⟨t, h1, h2⟩
    exact ⟨t, h1, .cons h2 (.nil u)⟩

theorem Run.mono {step' : σ → ε → σ → Prop} (hle : ∀ s e t, step s e t → step' s e t)
    (h : Run step s es t) : Run step' s es t := by
  induction h with
  | nil s => exact .nil s
  | cons he _ ih => exact .cons (hle _ _ _ he) ih

/-- Every step of a run meets what all its events meet. -/
theorem Run.under {C : ε → Prop} (h : Run step s es t) (hC : ∀ e ∈ es, C e) :
    Run (Under step fun _ e => C e) s es t := by
  induction h with
  | nil s => exact .nil s
  | cons he _ ih =>
    exact .cons ⟨he, hC _ List.mem_cons_self⟩ (ih fun e h => hC e (List.mem_cons_of_mem _ h))

theorem Run.sometime_or_never (P : σ → ε → Prop) (h : Run step s es t) :
    Sometime step P s es t ∨ Run (Under step fun s e => ¬P s e) s es t := by
  induction h with
  | nil s => exact .inr (.nil s)
  | @cons s t u e es he hr ih =>
    by_cases hP : P s e
    · exact .inl ⟨[], e, es, s, t, rfl, .nil s, he, hP, hr⟩
    · refine ih.imp ?_ fun h => .cons ⟨he, hP⟩ h
      rintro ⟨es₁, e', es₂, v, w, rfl, h1, h2, h3, h4⟩
      exact ⟨e :: es₁, e', es₂, v, w, rfl, .cons he h1, h2, h3, h4⟩

theorem Sometime.imp {P Q : σ → ε → Prop} (hPQ : ∀ s e, P s e → Q s e) (h : Sometime step P s es t) :
    Sometime step Q s es t := by
  obtain ⟨es₁, e, es₂, u, v, he, h1, h2, h3, h4⟩ := h
  exact ⟨es₁, e, es₂, u, v, he, h1, h2, hPQ _ _ h3, h4⟩

theorem sometime_or {P Q : σ → ε → Prop} : Sometime step (fun s e => P s e ∨ Q s e) s es t ↔
    Sometime step P s es t ∨ Sometime step Q s es t := by
  constructor
  · rintro ⟨es₁, e, es₂, u, v, he, h1, h2, h3, h4⟩
    exact h3.imp (fun hp => ⟨es₁, e, es₂, u, v, he, h1, h2, hp, h4⟩)
      fun hq => ⟨es₁, e, es₂, u, v, he, h1, h2, hq, h4⟩
  · rintro (h | h)
    · exact h.imp fun _ _ => .inl
    · exact h.imp fun _ _ => .inr

/-- What happens in the first part of a run, or in the second, happens in the run. -/
theorem Sometime.append_right {P : σ → ε → Prop} (h : Sometime step P s es t) (h' : Run step t fs u) :
    Sometime step P s (es ++ fs) u := by
  obtain ⟨es₁, e, es₂, v, w, rfl, h1, h2, h3, h4⟩ := h
  exact ⟨es₁, e, es₂ ++ fs, v, w, by simp, h1, h2, h3, h4.append h'⟩

theorem Sometime.append_left {P : σ → ε → Prop} (h : Run step s es t) (h' : Sometime step P t fs u) :
    Sometime step P s (es ++ fs) u := by
  obtain ⟨es₁, e, es₂, v, w, rfl, h1, h2, h3, h4⟩ := h'
  exact ⟨es ++ es₁, e, es₂, v, w, by simp, h.append h1, h2, h3, h4⟩

/-- **Potential rule.**  If under the invariant `I` one step raises `φ` by at most the
gain of its event, a run raises it by at most the sum of the gains. -/
theorem Run.potential_le (I : σ → Prop) (φ : σ → Int) (gain : ε → Int)
    (hI : ∀ s e t, I s → step s e t → I t)
    (hφ : ∀ s e t, I s → step s e t → φ t ≤ φ s + gain e)
    (h : Run step s es t) (hs : I s) : φ t ≤ φ s + (es.map gain).sum := by
  induction h with
  | nil => simp
  | cons he _ ih =>
    have h1 := hφ _ _ _ hs he
    have h2 := ih (hI _ _ _ hs he)
    rw [List.map_cons, List.sum_cons]
    omega

theorem run_of_exec {f : σ → ε → Option σ} (h : exec f s es = some t) :
    Run (fun s e t => f s e = some t) s es t := by
  induction es generalizing s with
  | nil => cases h; exact .nil _
  | cons e es ih =>
    obtain ⟨m, hm, hr⟩ := Option.bind_eq_some_iff.1 h
    exact .cons hm (ih hr)

theorem observed_append {f : σ → ε → Option σ} {α : Type} (g : σ → ε → Option α)
    (h : Run (fun s e t => f s e = some t) s es t) :
    observed f g s (es ++ fs) = observed f g s es ++ observed f g t fs := by
  induction h with
  | nil => rfl
  | @cons s t u e es he _ ih =>
    rw [List.cons_append, observed, observed, he, Option.elim_some, Option.elim_some, ih, List.append_assoc]

/-- A step adds what is seen of it. -/
theorem observed_snoc {f : σ → ε → Option σ} {α : Type} (g : σ → ε → Option α)
    (h : Run (fun s e t => f s e = some t) s es t) (e : ε) :
    observed f g s (es ++ [e]) = observed f g s es ++ (g t e).toList := by
  rw [observed_append g h, observed]
  congr 1
  cases f t e <;> simp [observed]

/-- `f` where `C` is met. -/
def guarded (f : σ → ε → Option σ) (C : σ → ε → Prop) [∀ s e, Decidable (C s e)] (s : σ) (e : ε) :
    Option σ := if C s e then f s e else none

theorem Run.of_guarded {f : σ → ε → Option σ} {C : σ → ε → Prop} [∀ s e, Decidable (C s e)]
    (h : Run (fun s e t => guarded f C s e = some t) s es t) :
    Run (Under (fun s e t => f s e = some t) C) s es t := by
  refine h.mono fun s e t hs => ?_
  unfold guarded at hs
  split at hs
  · next hC => exact ⟨hs, hC⟩
  · cases hs

/-- A run on fixed events, by evaluation of what is wanted of its last state. -/
theorem run_of_exec_map (f : σ → ε → Option σ) (s : σ) (es : List ε) {α : Type} (g : σ → α) {a : α}
    (h : (exec f s es).map g = some a) : ∃ t, Run (fun s e t => f s e = some t) s es t ∧ g t = a := by
  obtain ⟨t, ht, hg⟩ := Option.map_eq_some_iff.1 h
  exact ⟨t, run_of_exec ht, hg⟩

/-- Two runs on fixed events, one after the other. -/
theorem run_of_exec_bind (f f' : σ → ε → Option σ) (s : σ) (es fs : List ε) {α β : Type} (g : σ → α)
    (g' : σ → β) {a : α} {b : β}
    (h : ((exec f s es).bind fun t => (exec f' t fs).map fun u => (g t, g' u)) = some (a, b)) :
    ∃ t u, Run (fun s e t => f s e = some t) s es t ∧ g t = a ∧
      Run (fun s e t => f' s e = some t) t fs u ∧ g' u = b := by
  obtain ⟨t, ht, hu⟩ := Option.bind_eq_some_iff.1 h
  obtain ⟨u, hu, he⟩ := Option.map_eq_some_iff.1 hu
  obtain ⟨h1, h2⟩ := Prod.mk.inj he
  exact ⟨t, u, run_of_exec ht, h1, run_of_exec hu, h2⟩

end

end Runs
