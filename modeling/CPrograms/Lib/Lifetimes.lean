import Mathlib.Data.List.Basic

/-!
# Lifetimes

A log of what was done with objects.  It is `Sound` if each object is created once, and used and
released only while it is `Live`: after its creation and before its release.  So it is released
once at most (`Sound.count_release_le_one`), and not used after that (`Sound.not_used`).
-/

namespace Lifetimes

inductive Act (ρ : Type)
  | create (x : ρ)
  | use (x : ρ)
  | release (x : ρ)
deriving DecidableEq

variable {ρ : Type}

def Act.object : Act ρ → ρ
  | .create x => x
  | .use x => x
  | .release x => x

/-- Created, and not released. -/
structure Live (acts : List (Act ρ)) (x : ρ) : Prop where
  created : .create x ∈ acts
  kept : .release x ∉ acts

/-- What may be done after `acts`. -/
def Allowed (acts : List (Act ρ)) : Act ρ → Prop
  | .create x => ∀ a ∈ acts, a.object ≠ x
  | .use x => Live acts x
  | .release x => Live acts x

inductive Sound : List (Act ρ) → Prop
  | nil : Sound []
  | snoc {acts : List (Act ρ)} {a : Act ρ} : Sound acts → Allowed acts a → Sound (acts ++ [a])

section

variable {acts : List (Act ρ)} {x y : ρ}

theorem Sound.create (h : Sound acts) (hx : ∀ a ∈ acts, a.object ≠ x) : Sound (acts ++ [.create x]) := .snoc h hx

theorem Sound.release (h : Sound acts) (hx : Live acts x) : Sound (acts ++ [.release x]) := .snoc h hx

theorem live_create : Live (acts ++ [.create y]) x ↔ (x = y ∨ .create x ∈ acts) ∧ .release x ∉ acts := by
  constructor
  · rintro ⟨hcreated, hkept⟩
    refine ⟨?_, fun h => hkept (List.mem_append_left _ h)⟩
    rcases List.mem_append.1 hcreated with h | h
    · exact .inr h
    · exact .inl (Act.create.inj (List.mem_singleton.1 h))
  · rintro ⟨hcreated, hkept⟩
    constructor
    · rcases hcreated with rfl | h
      · exact List.mem_append_right _ List.mem_cons_self
      · exact List.mem_append_left _ h
    · rw [List.mem_append, not_or]
      exact ⟨hkept, fun h => nomatch List.mem_singleton.1 h⟩

theorem live_use : Live (acts ++ [.use y]) x ↔ Live acts x := by
  constructor
  · rintro ⟨hcreated, hkept⟩
    refine ⟨?_, fun h => hkept (List.mem_append_left _ h)⟩
    exact (List.mem_append.1 hcreated).resolve_right fun h => nomatch List.mem_singleton.1 h
  · rintro ⟨hcreated, hkept⟩
    refine ⟨List.mem_append_left _ hcreated, ?_⟩
    rw [List.mem_append, not_or]
    exact ⟨hkept, fun h => nomatch List.mem_singleton.1 h⟩

theorem live_release : Live (acts ++ [.release y]) x ↔ Live acts x ∧ x ≠ y := by
  constructor
  · rintro ⟨hcreated, hkept⟩
    refine ⟨⟨?_, fun h => hkept (List.mem_append_left _ h)⟩, ?_⟩
    · exact (List.mem_append.1 hcreated).resolve_right fun h => nomatch List.mem_singleton.1 h
    · rintro rfl
      exact hkept (List.mem_append_right _ List.mem_cons_self)
  · rintro ⟨⟨hcreated, hkept⟩, hne⟩
    refine ⟨List.mem_append_left _ hcreated, ?_⟩
    rw [List.mem_append, not_or]
    exact ⟨hkept, fun h => hne (Act.release.inj (List.mem_singleton.1 h))⟩

theorem Live.create (h : Live acts x) (y : ρ) : Live (acts ++ [.create y]) x :=
  live_create.2 ⟨.inr h.created, h.kept⟩

theorem live_new (h : ∀ a ∈ acts, a.object ≠ x) : Live (acts ++ [.create x]) x :=
  live_create.2 ⟨.inl rfl, fun hmem => h _ hmem rfl⟩

/-- What is done with others. -/
theorem Live.append {l : List (Act ρ)} (h : Live acts x) (hl : ∀ a ∈ l, a.object ≠ x) : Live (acts ++ l) x := by
  refine ⟨List.mem_append_left _ h.created, ?_⟩
  rw [List.mem_append, not_or]
  exact ⟨h.kept, fun hmem => hl _ hmem rfl⟩

/-- What is released first is not touched again. -/
theorem Sound.object_ne (h : Sound acts) : ∀ (l₁ l₂ : List (Act ρ)), acts = l₁ ++ .release x :: l₂ →
    ∀ a ∈ l₂, a.object ≠ x := by
  induction h with
  | nil =>
    intro l₁ l₂ he
    exact absurd he.symm (List.append_ne_nil_of_right_ne_nil _ (List.cons_ne_nil _ _))
  | @snoc acts a _ hallowed ih =>
    intro l₁ l₂ he
    rcases List.eq_nil_or_concat l₂ with rfl | ⟨l₂, b, rfl⟩
    · exact List.forall_mem_nil _
    · rw [List.concat_eq_append, ← List.cons_append, ← List.append_assoc] at he
      obtain ⟨hacts, hb⟩ := List.append_inj' he rfl
      obtain rfl := List.singleton_inj.1 hb
      have hreleased : Act.release x ∈ acts := by
        rw [hacts]
        exact List.mem_append_right _ List.mem_cons_self
      rw [List.concat_eq_append, List.forall_mem_append, List.forall_mem_singleton]
      refine ⟨ih l₁ l₂ hacts, ?_⟩
      rintro rfl
      cases a with
      | create x => exact hallowed _ hreleased rfl
      | use x => exact hallowed.kept hreleased
      | release x => exact hallowed.kept hreleased

theorem Sound.not_used (h : Sound acts) {l₁ l₂ : List (Act ρ)} (he : acts = l₁ ++ .release x :: l₂) :
    .use x ∉ l₂ := fun hmem => h.object_ne l₁ l₂ he _ hmem rfl

theorem Sound.count_release_le_one [DecidableEq ρ] (h : Sound acts) (x : ρ) : acts.count (.release x) ≤ 1 := by
  induction h with
  | nil => exact Nat.zero_le 1
  | @snoc acts a _ hallowed ih =>
    rw [List.count_append, List.count_singleton]
    by_cases ha : a = .release x
    · subst ha
      have hkept : Live acts x := hallowed
      rw [List.count_eq_zero.2 hkept.kept, Nat.zero_add]
      split
      · exact Nat.le_refl 1
      · exact Nat.zero_le 1
    · rw [if_neg (by rwa [beq_iff_eq])]
      exact ih

end

end Lifetimes
