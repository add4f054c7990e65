import Mathlib.Data.List.Nodup
import Mathlib.Logic.Function.Basic

/-!
# Linked lists on a heap

`Seg h p q xs`: the links of the heap `h` lead from `p` through the nodes `xs`, which are their addresses
and what they hold, to `q`; a chain is a segment that ends in a null pointer.  A segment is
changed by a node that is pushed in front of it (`Seg.push`), popped (`Seg.pop`) or taken out behind
another one (`Seg.unlink`).  What happens at other addresses does not matter (`Seg.congr`).
-/

namespace Chains

structure Node (α : Type) where
  data : α
  next : Option Nat
deriving DecidableEq

abbrev Heap (α : Type) := Nat → Option (Node α)

variable {α : Type}

/-- From `p` through `xs` to `q`. -/
def Seg (h : Heap α) : Option Nat → Option Nat → List (Nat × α) → Prop
  | p, q, [] => p = q
  | p, q, (a, d) :: xs => p = some a ∧ ∃ r, h a = some ⟨d, r⟩ ∧ Seg h r q xs

abbrev Chain (h : Heap α) (p : Option Nat) (xs : List (Nat × α)) : Prop := Seg h p none xs

section

variable {h h' : Heap α} {p q r : Option Nat} {xs ys : List (Nat × α)} {a : Nat} {d : α}

theorem Seg.congr (hseg : Seg h p q xs) (heq : ∀ x ∈ xs, h' x.1 = h x.1) : Seg h' p q xs := by
  induction xs generalizing p with
  | nil => exact hseg
  | cons x xs ih =>
    obtain ⟨hp, r, hx, hrest⟩ := hseg
    obtain ⟨hx', hxs⟩ := List.forall_mem_cons.1 heq
    exact ⟨hp, r, hx'.trans hx, ih hrest hxs⟩

theorem Seg.append (h₁ : Seg h p r xs) (h₂ : Seg h r q ys) : Seg h p q (xs ++ ys) := by
  induction xs generalizing p with
  | nil =>
    obtain rfl : p = r := h₁
    exact h₂
  | cons x xs ih =>
    obtain ⟨hp, t, hx, hrest⟩ := h₁
    exact ⟨hp, t, hx, ih hrest⟩

theorem Seg.split (hseg : Seg h p q (xs ++ ys)) : ∃ r, Seg h p r xs ∧ Seg h r q ys := by
  induction xs generalizing p with
  | nil => exact ⟨p, rfl, hseg⟩
  | cons x xs ih =>
    obtain ⟨hp, t, hx, hrest⟩ := hseg
    obtain ⟨r, h₁, h₂⟩ := ih hrest
    exact ⟨r, ⟨hp, t, hx, h₁⟩, h₂⟩

/-- What a segment goes through is on the heap, and holds what it says. -/
theorem Seg.mem (hseg : Seg h p q xs) {x : Nat × α} (hx : x ∈ xs) : ∃ r, h x.1 = some ⟨x.2, r⟩ := by
  induction xs generalizing p with
  | nil => cases hx
  | cons y xs ih =>
    obtain ⟨-, t, hy, hrest⟩ := hseg
    rcases List.mem_cons.1 hx with rfl | hx
    · exact ⟨t, hy⟩
    · exact ih hrest hx

/-- A new node in front. -/
theorem Seg.push (hseg : Seg h p q xs) (ha : ∀ x ∈ xs, x.1 ≠ a) :
    Seg (Function.update h a (some ⟨d, p⟩)) (some a) q ((a, d) :: xs) := by
  refine ⟨rfl, p, Function.update_self .., hseg.congr fun x hx => ?_⟩
  exact Function.update_of_ne (ha x hx) ..

/-- Other contents, and the same links. -/
theorem Seg.write {e : α} {zs : List (Nat × α)} (hseg : Seg h p q (xs ++ (a, d) :: zs))
    (hx : ∀ x ∈ xs, x.1 ≠ a) (hz : ∀ x ∈ zs, x.1 ≠ a) :
    ∃ r, h a = some ⟨d, r⟩ ∧ Seg (Function.update h a (some ⟨e, r⟩)) p q (xs ++ (a, e) :: zs) := by
  obtain ⟨t, h₁, ht, r, ha, h₂⟩ := hseg.split
  refine ⟨r, ha, Seg.append (r := t) ?_ ⟨ht, r, Function.update_self .., ?_⟩⟩
  · exact h₁.congr fun x hm => Function.update_of_ne (hx x hm) ..
  · exact h₂.congr fun x hm => Function.update_of_ne (hz x hm) ..

/-- The first node is released. -/
theorem Seg.pop (hseg : Seg h p q ((a, d) :: xs)) (ha : ∀ x ∈ xs, x.1 ≠ a) :
    p = some a ∧ ∃ r, h a = some ⟨d, r⟩ ∧ Seg (Function.update h a none) r q xs := by
  obtain ⟨hp, r, hr, hrest⟩ := hseg
  exact ⟨hp, r, hr, hrest.congr fun x hx => Function.update_of_ne (ha x hx) ..⟩

/-- The node behind `b` is taken out, and released. -/
theorem Seg.unlink {b : Nat} {e : α} (hseg : Seg h p q (xs ++ (b, e) :: (a, d) :: ys))
    (hnodup : ((xs ++ (b, e) :: (a, d) :: ys).map Prod.fst).Nodup) :
      ∃ r, h b = some ⟨e, some a⟩ ∧ h a = some ⟨d, r⟩ ∧
      a ≠ b ∧ Seg (Function.update (Function.update h b (some ⟨e, r⟩)) a none) p q (xs ++ (b, e) :: ys) := by
  rw [List.map_append, List.map_cons, List.map_cons, List.nodup_append, List.nodup_cons,
    List.nodup_cons] at hnodup
  obtain ⟨-, ⟨hb, ha, -⟩, hxs⟩ := hnodup
  have hab : a ≠ b := fun hab => hb (by simp [hab])
  have hxa : ∀ x ∈ xs, x.1 ≠ a := fun x hx => hxs x.1 (List.mem_map_of_mem hx) a (by simp)
  have hxb : ∀ x ∈ xs, x.1 ≠ b := fun x hx => hxs x.1 (List.mem_map_of_mem hx) b (by simp)
  have hya : ∀ y ∈ ys, y.1 ≠ a := fun y hy heq => ha (List.mem_map.2 ⟨y, hy, heq⟩)
  have hyb : ∀ y ∈ ys, y.1 ≠ b := fun y hy heq => hb (List.mem_cons_of_mem _ (List.mem_map.2 ⟨y, hy, heq⟩))
  obtain ⟨t, h₁, ht, r', hr', h₂⟩ := hseg.split
  obtain ⟨rfl, r, hr, hrest⟩ := h₂
  refine ⟨r, hr', hr, hab, Seg.append (r := t) (h₁.congr fun x hx => ?_) ⟨ht, r, ?_,
    hrest.congr fun y hy => ?_⟩⟩
  · rw [Function.update_of_ne (hxa x hx), Function.update_of_ne (hxb x hx)]
  · rw [Function.update_of_ne hab.symm, Function.update_self]
  · rw [Function.update_of_ne (hya y hy), Function.update_of_ne (hyb y hy)]

end

end Chains
