import Mathlib.Data.List.Chain
import Mathlib.Data.List.Iterate
import Mathlib.Data.List.Rotate
import Mathlib.Data.Nat.Find

/-!
# Rings of links

A circular singly linked list is a successor function `f : α → α` and the nodes it
visits: `Ring f b l` says that following `f` from `b` passes the nodes `l` in order and
comes back to `b`.

* `links_transport`, `links_split`: a ring is edited locally; only the successors of its
  own nodes matter.
* `Ring.iterate_getElem?`: `k` links after the `i`-th node stands the `(i + k)`-th, counted
  round the ring.  So every node reaches every node (`Ring.reach`), and the walk from any
  node is a rotation of the ring (`Ring.iterate_eq_rotate`).
* `findAlong f P n x`: the first hit of `P` among `x, f x, f (f x), …`, `n` nodes at most.
-/

namespace Rings

variable {α : Type}

/-- Each node of `l` is the successor of the one before. -/
def Links (f : α → α) (l : List α) : Prop := l.IsChain fun a b => f a = b

/-- From `b` through `l` back to `b`. -/
def Ring (f : α → α) (b : α) (l : List α) : Prop := Links f (b :: l ++ [b])

theorem links_split {f : α → α} {u v : List α} {c : α} :
    Links f (u ++ c :: v) ↔ Links f (u ++ [c]) ∧ Links f (c :: v) := List.isChain_split

theorem links_cons_cons {f : α → α} {a b : α} {l : List α} :
    Links f (a :: b :: l) ↔ f a = b ∧ Links f (b :: l) := List.isChain_cons_cons

theorem links_singleton (f : α → α) (a : α) : Links f [a] := .singleton a

/-- Links read the successors of all nodes but the last. -/
theorem links_transport {f g : α → α} {l : List α} {c : α} (h : Links f (l ++ [c]))
    (hfg : ∀ a ∈ l, g a = f a) : Links g (l ++ [c]) := by
  induction l with
  | nil => exact links_singleton g c
  | cons a l ih =>
    have hrest : Links f (l ++ [c]) := List.IsChain.tail h
    have ih := ih hrest fun x hx => hfg x (List.mem_cons_of_mem _ hx)
    cases l with
    | nil => exact links_cons_cons.2 ⟨(hfg a (by simp)).trans (links_cons_cons.1 h).1, ih⟩
    | cons b l => exact links_cons_cons.2 ⟨(hfg a (by simp)).trans (links_cons_cons.1 h).1, ih⟩

theorem Ring.succ_getElem? {f : α → α} {b x : α} {l : List α} (h : Ring f b l) {i : Nat}
    (hi : (b :: l)[i]? = some x) : (b :: l)[(i + 1) % (b :: l).length]? = some (f x) := by
  obtain ⟨hlt, rfl⟩ := List.getElem?_eq_some_iff.1 hi
  have hlen : i + 1 < (b :: l ++ [b]).length := by
    rw [List.length_append, List.length_singleton]; omega
  have hc := List.isChain_iff_getElem.1 h i hlen
  rw [List.getElem_append_left hlt] at hc
  rw [hc]
  by_cases hlast : i + 1 = (b :: l).length
  · simp [hlast]
  · have hlt' : i + 1 < (b :: l).length := by omega
    rw [List.getElem_append_left hlt', Nat.mod_eq_of_lt hlt', List.getElem?_eq_getElem hlt']

theorem Ring.iterate_getElem? {f : α → α} {b x : α} {l : List α} (h : Ring f b l) {i : Nat}
    (hi : (b :: l)[i]? = some x) (k : Nat) :
    (b :: l)[(i + k) % (b :: l).length]? = some (f^[k] x) := by
  induction k with
  | zero =>
    obtain ⟨hlt, -⟩ := List.getElem?_eq_some_iff.1 hi
    rw [Nat.add_zero, Nat.mod_eq_of_lt hlt]
    exact hi
  | succ k ih =>
    have hs := h.succ_getElem? ih
    rw [Nat.mod_add_mod] at hs
    rw [Function.iterate_succ_apply']
    exact hs

theorem Ring.iterate_mem {f : α → α} {b x : α} {l : List α} (h : Ring f b l) (hx : x ∈ b :: l)
    (k : Nat) : f^[k] x ∈ b :: l := by
  obtain ⟨i, hi⟩ := List.getElem?_of_mem hx
  exact List.mem_of_getElem? (h.iterate_getElem? hi k)

theorem Ring.iterate_length {f : α → α} {b x : α} {l : List α} (h : Ring f b l)
    (hx : x ∈ b :: l) : f^[(b :: l).length] x = x := by
  obtain ⟨i, hi⟩ := List.getElem?_of_mem hx
  obtain ⟨hlt, -⟩ := List.getElem?_eq_some_iff.1 hi
  have hk := h.iterate_getElem? hi (b :: l).length
  rw [Nat.add_mod_right, Nat.mod_eq_of_lt hlt, hi] at hk
  exact (Option.some.inj hk).symm

/-- Every node of a ring reaches every node. -/
theorem Ring.reach {f : α → α} {b x y : α} {l : List α} (h : Ring f b l) (hx : x ∈ b :: l)
    (hy : y ∈ b :: l) : ∃ k < (b :: l).length, f^[k] x = y := by
  obtain ⟨i, hi⟩ := List.getElem?_of_mem hx
  obtain ⟨j, hj⟩ := List.getElem?_of_mem hy
  obtain ⟨hil, -⟩ := List.getElem?_eq_some_iff.1 hi
  obtain ⟨hjl, -⟩ := List.getElem?_eq_some_iff.1 hj
  have key : ∀ k, (i + k) % (b :: l).length = j → f^[k] x = y := by
    intro k hk
    have hr := h.iterate_getElem? hi k
    rw [hk, hj] at hr
    exact (Option.some.inj hr).symm
  by_cases hij : i ≤ j
  · refine ⟨j - i, by omega, key _ ?_⟩
    rw [show i + (j - i) = j by omega, Nat.mod_eq_of_lt hjl]
  · refine ⟨(b :: l).length + j - i, by omega, key _ ?_⟩
    rw [show i + ((b :: l).length + j - i) = j + (b :: l).length by omega, Nat.add_mod_right,
      Nat.mod_eq_of_lt hjl]

/-- The walk once round from any node is the ring rotated to that node. -/
theorem Ring.iterate_eq_rotate {f : α → α} {b x : α} {l : List α} (h : Ring f b l)
    (hx : x ∈ b :: l) : ∃ i, List.iterate f x (b :: l).length = (b :: l).rotate i := by
  obtain ⟨i, hi⟩ := List.getElem?_of_mem hx
  refine ⟨i, List.ext_getElem? fun k => ?_⟩
  by_cases hk : k < (b :: l).length
  · rw [List.getElem?_iterate f x _ k hk, List.getElem?_rotate hk, Nat.add_comm,
      h.iterate_getElem? hi k]
  · rw [List.getElem?_eq_none (by simpa using hk), List.getElem?_eq_none (by simpa using hk)]

/-! ## Searching along the links -/

def findAlong (f : α → α) (P : α → Bool) : Nat → α → Option α
  | 0, _ => none
  | n + 1, x => if P x then some x else findAlong f P n (f x)

theorem findAlong_mono {f : α → α} {P : α → Bool} {n n' : Nat} {x y : α} (hn : n ≤ n')
    (h : findAlong f P n x = some y) : findAlong f P n' x = some y := by
  induction n generalizing n' x with
  | zero => cases h
  | succ n ih =>
    obtain ⟨n', rfl⟩ : ∃ m, n' = m + 1 := ⟨n' - 1, by omega⟩
    unfold findAlong at h ⊢
    split
    · next hx => rwa [if_pos hx] at h
    · next hx =>
      rw [if_neg hx] at h
      exact ih (by omega) h

/-- A search that must pass a hit ends, at the first hit on its way. -/
theorem findAlong_of_hit {f : α → α} {P : α → Bool} {k : Nat} {x : α} (h : P (f^[k] x)) :
    ∃ j ≤ k, findAlong f P (k + 1) x = some (f^[j] x) ∧ P (f^[j] x) ∧
      ∀ i < j, P (f^[i] x) = false := by
  induction k generalizing x with
  | zero => exact ⟨0, Nat.le_refl _, by unfold findAlong; exact if_pos h, h, by omega⟩
  | succ k ih =>
    by_cases hx : P x
    · exact ⟨0, by omega, by unfold findAlong; exact if_pos hx, hx, by omega⟩
    · obtain ⟨j, hj, hf, hhit, hno⟩ := ih (x := f x) h
      refine ⟨j + 1, by omega, by unfold findAlong; rw [if_neg hx]; exact hf, hhit, fun i hi => ?_⟩
      cases i with
      | zero => simpa using hx
      | succ i => exact hno i (by omega)

/-- **Once round.**  A walk that starts behind the node `x` and looks for `hit` meets a hit
or comes back to `x`; it comes back to `x` without a hit only where the ring has none. -/
theorem Ring.search_round {f : α → α} {b : α} {l : List α} (h : Ring f b l) {x : α} (hx : x ∈ b :: l)
    (hit : α → Prop) :
    ∃ j ≤ l.length, (∀ i < j, ¬ hit (f^[i] (f x)) ∧ f^[i] (f x) ≠ x) ∧
      (hit (f^[j] (f x)) ∨ (f^[j] (f x) = x ∧ ∀ y ∈ b :: l, ¬ hit y)) := by
  classical
  have hback : f^[l.length] (f x) = x := h.iterate_length hx
  have hstop : decide (hit (f^[l.length] (f x)) ∨ f^[l.length] (f x) = x) = true := by simp [hback]
  obtain ⟨j, hj, -, hhit, hno⟩ := findAlong_of_hit (f := f) (x := f x) (k := l.length)
    (P := fun y => decide (hit y ∨ y = x)) hstop
  have hno' : ∀ i < j, ¬ hit (f^[i] (f x)) ∧ f^[i] (f x) ≠ x := fun i hi =>
    not_or.1 (of_decide_eq_false (hno i hi))
  refine ⟨j, hj, hno', ?_⟩
  by_cases hy : hit (f^[j] (f x))
  · exact .inl hy
  · have hxj : f^[j] (f x) = x := (of_decide_eq_true hhit).resolve_left hy
    refine .inr ⟨hxj, fun y hmem => ?_⟩
    -- the first time the walk meets `y` is not after it came back
    have hreach : ∃ i, f^[i] (f x) = y := by
      obtain ⟨k, -, hk⟩ := h.reach (h.iterate_mem hx 1) hmem
      exact ⟨k, hk⟩
    obtain ⟨hi, hmin⟩ := And.intro (Nat.find_spec hreach) fun k hk => Nat.find_min hreach (m := k) hk
    generalize Nat.find hreach = i at hi hmin
    rcases Nat.lt_trichotomy i j with hlt | rfl | hgt
    · rw [← hi]; exact (hno' i hlt).1
    · rwa [← hi]
    · exfalso
      refine hmin (i - (j + 1)) (by omega) ?_
      rw [← hi]
      conv => rhs; rw [show i = (i - (j + 1)) + (1 + j) by omega, Function.iterate_add_apply,
        Function.iterate_add_apply, hxj]
      rfl

end Rings
