import Mathlib.Data.List.Nodup
import Mathlib.Logic.Function.Basic

/-!
# Claims on a table

A table says who owns a key, such as a process's descriptor table.  `Backed table claims`: every
claim is the table's entry, and no key is claimed twice.  Claims may be handed on in any order
(`Backed.perm`) and given up (`Backed.sublist`); a key that the table gives out is a new claim
(`Backed.grant`), and a claimed key may leave the table without harm to the others
(`Backed.release`).
-/

namespace Custody

variable {κ ω : Type}

structure Backed (table : κ → Option ω) (claims : List (κ × ω)) : Prop where
  once : (claims.map Prod.fst).Nodup
  kept : ∀ c ∈ claims, table c.1 = some c.2

section
variable {table : κ → Option ω} {claims claims' : List (κ × ω)} {k : κ} {o : ω}

theorem backed_nil (table : κ → Option ω) : Backed table [] := by
  constructor
  · exact List.nodup_nil
  · intro c hc
    cases hc

theorem Backed.perm (h : Backed table claims) (hp : claims.Perm claims') : Backed table claims' := by
  constructor
  · exact (hp.map Prod.fst).nodup_iff.1 h.once
  · intro c hc
    exact h.kept c (hp.mem_iff.2 hc)

theorem Backed.owner (h : Backed table ((k, o) :: claims)) : table k = some o := h.kept _ List.mem_cons_self

theorem Backed.sublist (h : Backed table claims) (hs : claims'.Sublist claims) : Backed table claims' := by
  constructor
  · exact h.once.sublist (hs.map Prod.fst)
  · intro c hc
    exact h.kept c (hs.subset hc)

/-- A claim is on another key than the first one. -/
theorem Backed.ne (h : Backed table ((k, o) :: claims)) {c : κ × ω} (hc : c ∈ claims) : c.1 ≠ k := by
  intro he
  apply (List.nodup_cons.1 h.once).1
  exact List.mem_map.2 ⟨c, hc, he⟩

variable [DecidableEq κ]

theorem Backed.grant (h : Backed table claims) (hk : table k = none) :
    Backed (Function.update table k (some o)) ((k, o) :: claims) := by
  have hne : ∀ c ∈ claims, c.1 ≠ k := by
    rintro c hc rfl
    have := h.kept c hc
    rw [hk] at this
    cases this
  constructor
  · rw [List.map_cons, List.nodup_cons]
    refine ⟨fun hmem => ?_, h.once⟩
    obtain ⟨c, hc, he⟩ := List.mem_map.1 hmem
    exact hne c hc he
  · intro c hc
    rcases List.mem_cons.1 hc with rfl | hc
    · exact Function.update_self ..
    · rw [Function.update_of_ne (hne c hc)]
      exact h.kept c hc

theorem Backed.release (h : Backed table ((k, o) :: claims)) :
    Backed (Function.update table k none) claims := by
  have hrest := h.sublist (List.sublist_cons_self _ _)
  constructor
  · exact hrest.once
  · intro c hc
    rw [Function.update_of_ne (h.ne hc)]
    exact hrest.kept c hc

/-- The claims on a key, wherever they are. -/
theorem Backed.drop (h : Backed table claims) (k : κ) :
    Backed (Function.update table k none) (claims.filter (·.1 ≠ k)) := by
  have hrest : Backed table (claims.filter (·.1 ≠ k)) := h.sublist List.filter_sublist
  constructor
  · exact hrest.once
  · intro c hc
    have hne := of_decide_eq_true (List.mem_filter.1 hc).2
    rw [Function.update_of_ne hne]
    exact hrest.kept c hc

end

end Custody
