import Mathlib.Algebra.BigOperators.Group.List.Basic
import Mathlib.Algebra.GroupWithZero.Nat
import Mathlib.Logic.Function.Basic

/-!
# Tallies over a table

`tally f w l` adds up the weight `w` of the entries that the table `f` has under the keys
`l`.  A program that keeps counters of its live objects is right when each counter is a
tally; an update of one entry changes a tally by that entry's weights.
-/

namespace Tally

variable {α β : Type}

def tally (f : α → Option β) (w : β → Nat) (l : List α) : Nat :=
  (l.map fun a => (f a).elim 0 w).sum

@[simp] theorem tally_nil (f : α → Option β) (w : β → Nat) : tally f w [] = 0 := rfl

theorem tally_cons (f : α → Option β) (w : β → Nat) (a : α) (l : List α) :
    tally f w (a :: l) = (f a).elim 0 w + tally f w l := by
  simp [tally]

theorem tally_perm {f : α → Option β} {w : β → Nat} {l l' : List α} (h : l.Perm l') :
    tally f w l = tally f w l' := (h.map _).sum_eq

theorem tally_congr {f g : α → Option β} {w : β → Nat} {l : List α} (h : ∀ a ∈ l, f a = g a) :
    tally f w l = tally g w l := by
  unfold tally
  rw [List.map_congr_left fun a ha => by rw [h a ha]]

theorem tally_add (f : α → Option β) (v w : β → Nat) (l : List α) :
    tally f v l + tally f w l = tally f (fun b => v b + w b) l := by
  induction l with
  | nil => rfl
  | cons a l ih =>
    rw [tally_cons, tally_cons, tally_cons, ← ih]
    cases f a <;> simp only [Option.elim] <;> omega

/-- Entries of weight one are counted. -/
theorem tally_one {f : α → Option β} {w : β → Nat} {l : List α} (hw : ∀ b, w b = 1)
    (h : ∀ a ∈ l, (f a).isSome) : tally f w l = l.length := by
  induction l with
  | nil => rfl
  | cons a l ih =>
    obtain ⟨b, hb⟩ := Option.isSome_iff_exists.1 (h a List.mem_cons_self)
    rw [tally_cons, ih fun c hc => h c (List.mem_cons_of_mem _ hc), hb, List.length_cons]
    simp only [Option.elim, hw]
    omega

theorem le_tally {f : α → Option β} {w : β → Nat} {l : List α} {a : α} {b : β} (ha : a ∈ l)
    (hb : f a = some b) : w b ≤ tally f w l := by
  obtain ⟨l₁, l₂, rfl⟩ := List.append_of_mem ha
  rw [tally_perm List.perm_middle, tally_cons, hb]
  exact Nat.le_add_right _ _

variable [DecidableEq α]

theorem tally_update_notMem {f : α → Option β} {w : β → Nat} {l : List α} {a : α} (o : Option β)
    (h : a ∉ l) : tally (Function.update f a o) w l = tally f w l := by
  refine tally_congr fun c hc => Function.update_of_ne ?_ _ _
  rintro rfl
  exact h hc

/-- An update under a key that is listed once. -/
theorem tally_update_cons {f : α → Option β} (w : β → Nat) {l : List α} {a : α} (o : Option β)
    (h : a ∉ l) : tally (Function.update f a o) w (a :: l) = o.elim 0 w + tally f w l := by
  rw [tally_cons, Function.update_self, tally_update_notMem o h]

end Tally
