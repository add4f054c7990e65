import Mathlib.Data.List.Basic

/-!
# Walks over records

Records of their own length stand one behind the other in a region: a loop looks whether a
whole record is there (`ok`), uses it, and goes on behind it with what is left of the region.
`visits` are the records that such a loop comes to, each with the length that is left at it.

* `mem_visits`: each was there in whole, and no walk leaves the region by visiting.
* `visits_induction`: the induction on the loop.
-/

namespace Records

/-- `ok a len`: there is a record at `a`, within `len` bytes; `advance a`: from it to the next. -/
structure Format where
  ok : Nat → Int → Prop
  dec : ∀ a len, Decidable (ok a len)
  advance : Nat → Nat
  len_pos : ∀ {a len}, ok a len → 0 < len
  advance_pos : ∀ {a len}, ok a len → 0 < advance a

variable (f : Format)

instance (a : Nat) (len : Int) : Decidable (f.ok a len) := f.dec a len

theorem Format.decreases {a : Nat} {len : Int} (h : f.ok a len) :
    (len - f.advance a).toNat < len.toNat := by
  have hlen := f.len_pos h
  have hadv := f.advance_pos h
  omega

def visits (a : Nat) (len : Int) : List (Nat × Int) :=
  if f.ok a len then (a, len) :: visits (a + f.advance a) (len - f.advance a) else []
termination_by len.toNat
decreasing_by
  rename_i h
  exact f.decreases h

/-- Where the walk stops, and what is left there. -/
def stop (a : Nat) (len : Int) : Nat × Int :=
  if f.ok a len then stop (a + f.advance a) (len - f.advance a) else (a, len)
termination_by len.toNat
decreasing_by
  rename_i h
  exact f.decreases h

variable {f}

theorem visits_of_ok {a : Nat} {len : Int} (h : f.ok a len) :
    visits f a len = (a, len) :: visits f (a + f.advance a) (len - f.advance a) := by
  rw [visits, if_pos h]

theorem visits_of_not {a : Nat} {len : Int} (h : ¬ f.ok a len) : visits f a len = [] := by
  rw [visits, if_neg h]

/-- Where the records are. -/
theorem map_fst_visits_of_ok {a : Nat} {len : Int} (h : f.ok a len) :
    (visits f a len).map Prod.fst =
      a :: (visits f (a + f.advance a) (len - f.advance a)).map Prod.fst := by
  rw [visits_of_ok h, List.map_cons]

theorem map_fst_visits_of_not {a : Nat} {len : Int} (h : ¬ f.ok a len) :
    (visits f a len).map Prod.fst = [] := by
  rw [visits_of_not h, List.map_nil]

theorem stop_of_ok {a : Nat} {len : Int} (h : f.ok a len) :
    stop f a len = stop f (a + f.advance a) (len - f.advance a) := by
  rw [stop, if_pos h]

theorem stop_of_not {a : Nat} {len : Int} (h : ¬ f.ok a len) : stop f a len = (a, len) := by
  rw [stop, if_neg h]

/-- The induction on the walk. -/
theorem visits_induction {P : Nat → Int → Prop}
    (stop : ∀ a len, ¬ f.ok a len → P a len)
    (step : ∀ a len, f.ok a len → P (a + f.advance a) (len - f.advance a) → P a len)
    (a : Nat) (len : Int) : P a len := by
  have h (k : Nat) : ∀ a len, Int.toNat len = k → P a len := by
    induction k using Nat.strongRecOn with
    | ind k ih =>
      intro a len hk
      by_cases hok : f.ok a len
      · exact step a len hok (ih _ (hk ▸ f.decreases hok) _ _ rfl)
      · exact stop a len hok
  exact h _ a len rfl

theorem mem_visits {a : Nat} {len : Int} {p : Nat} {l : Int} (h : (p, l) ∈ visits f a len) :
    f.ok p l ∧ a ≤ p ∧ (p : Int) + l = a + len := by
  induction a, len using visits_induction (f := f) with
  | stop a len hok =>
    rw [visits_of_not hok] at h
    exact absurd h List.not_mem_nil
  | step a len hok ih =>
    rw [visits_of_ok hok] at h
    rcases List.mem_cons.1 h with he | h
    · obtain ⟨rfl, rfl⟩ := Prod.ext_iff.1 he
      exact ⟨hok, Nat.le_refl _, rfl⟩
    · obtain ⟨hok', hle, hsum⟩ := ih h
      exact ⟨hok', by omega, by omega⟩

theorem stop_spec (a : Nat) (len : Int) :
    ¬ f.ok (stop f a len).1 (stop f a len).2 ∧ a ≤ (stop f a len).1 ∧
      ((stop f a len).1 : Int) + (stop f a len).2 = a + len := by
  induction a, len using visits_induction (f := f) with
  | stop a len hok =>
    rw [stop_of_not hok]
    exact ⟨hok, Nat.le_refl _, rfl⟩
  | step a len hok ih =>
    obtain ⟨hstop, hle, hsum⟩ := ih
    rw [stop_of_ok hok]
    exact ⟨hstop, by omega, by omega⟩

end Records
