import Mathlib.Logic.Basic

/-!
# Computations with a trace

A `Traced` computation is the list of what it does and its result, with no result where a
step of it faults.  `Only P x` says that all it does satisfies `P`; the rules for it are
equivalences (`only_bind`, `only_emit`), so that what is left of a computation by rewriting
with them is the exact condition on which it only does such things.
-/

namespace Traces

structure Traced (ε : Type) (α : Type) where
  events : List ε
  result : Option α

namespace Traced

variable {ε τ α β : Type}

def pure (a : α) : Traced ε α := ⟨[], some a⟩

/-- The events up to a fault. -/
def bind (x : Traced ε α) (f : α → Traced ε β) : Traced ε β :=
  match x.result with
  | none => ⟨x.events, none⟩
  | some a => ⟨x.events ++ (f a).events, (f a).result⟩

instance : Monad (Traced ε) where
  pure := Traced.pure
  bind := Traced.bind

/-- A fault, and what led to it. -/
def fault (e : ε) : Traced ε α := ⟨[e], none⟩

/-- No result, and nothing done. -/
def stuck : Traced ε α := ⟨[], none⟩

/-- Every event with the same mark. -/
def mark (t : τ) (x : Traced ε α) : Traced (τ × ε) α := ⟨x.events.map (t, ·), x.result⟩

end Traced

variable {ε τ α β : Type}

def emit (e : ε) : Traced ε Unit := ⟨[e], some ()⟩

def emitIf (c : Prop) [Decidable c] (e : ε) : Traced ε Unit := if c then emit e else pure ()

section Result

theorem result_bind (x : Traced ε α) (f : α → Traced ε β) :
    (x >>= f).result = x.result.bind fun a => (f a).result := by
  show (Traced.bind x f).result = _
  unfold Traced.bind
  cases x.result with
  | none => rfl
  | some a => rfl

theorem result_emit (e : ε) : (emit e).result = some () := rfl

theorem result_emitIf (c : Prop) [Decidable c] (e : ε) : (emitIf c e).result = some () := by
  unfold emitIf
  split
  · rfl
  · rfl

theorem result_mark (t : τ) (x : Traced ε α) : (x.mark t).result = x.result := rfl

end Result

/-- What is done first comes first. -/
theorem events_emit_bind (e : ε) (f : Unit → Traced ε β) :
    (emit e >>= f).events = e :: (f ()).events := rfl

theorem events_bind_of_result {x : Traced ε α} {a : α} (h : x.result = some a)
    (f : α → Traced ε β) : (x >>= f).events = x.events ++ (f a).events := by
  show (Traced.bind x f).events = _
  unfold Traced.bind
  rw [h]

/-- A fault ends it. -/
theorem bind_of_fault {x : Traced ε α} (h : x.result = none) (f : α → Traced ε β) :
    x >>= f = ⟨x.events, none⟩ := by
  show Traced.bind x f = _
  unfold Traced.bind
  rw [h]

/-! ## All of a trace -/

def Only (P : ε → Prop) (x : Traced ε α) : Prop := ∀ e ∈ x.events, P e

section Only

variable {P : ε → Prop}

theorem only_pure (a : α) : Only P (pure a : Traced ε α) := fun _ he => absurd he List.not_mem_nil

theorem only_emit (e : ε) : Only P (emit e) ↔ P e := List.forall_mem_singleton

theorem only_emitIf (c : Prop) [Decidable c] (e : ε) : Only P (emitIf c e) ↔ (c → P e) := by
  unfold emitIf
  split
  · next h =>
    rw [only_emit]
    exact ⟨fun hp _ => hp, fun hp => hp h⟩
  · next h => exact iff_of_true (only_pure ()) (fun hc => absurd hc h)

theorem only_fault (e : ε) : Only P (Traced.fault e : Traced ε α) ↔ P e := List.forall_mem_singleton

/-- What comes after is asked of only where there is a result. -/
theorem only_bind (x : Traced ε α) (f : α → Traced ε β) :
    Only P (x >>= f) ↔ Only P x ∧ ∀ a, x.result = some a → Only P (f a) := by
  show Only P (Traced.bind x f) ↔ _
  unfold Traced.bind Only
  cases hres : x.result with
  | none => exact ⟨fun h => ⟨h, fun a ha => absurd ha (by simp)⟩, And.left⟩
  | some a =>
    show (∀ e ∈ x.events ++ (f a).events, P e) ↔ _
    rw [List.forall_mem_append]
    refine and_congr Iff.rfl ?_
    constructor
    · intro h b hb
      rwa [← Option.some.inj hb]
    · exact fun h => h a rfl

theorem only_bind_of_result {x : Traced ε α} {a : α} (h : x.result = some a)
    (f : α → Traced ε β) : Only P (x >>= f) ↔ Only P x ∧ Only P (f a) := by
  rw [only_bind]
  refine and_congr Iff.rfl ⟨fun hp => hp a h, ?_⟩
  intro hp b hb
  rwa [← Option.some.inj (h.symm.trans hb)]

theorem only_emit_bind (e : ε) (f : Unit → Traced ε β) :
    Only P (emit e >>= f) ↔ P e ∧ Only P (f ()) := by
  rw [only_bind_of_result (result_emit e), only_emit]

theorem only_emitIf_bind (c : Prop) [Decidable c] (e : ε) (f : Unit → Traced ε β) :
    Only P (emitIf c e >>= f) ↔ (c → P e) ∧ Only P (f ()) := by
  rw [only_bind_of_result (result_emitIf c e), only_emitIf]

theorem only_mark {P : τ × ε → Prop} (t : τ) (x : Traced ε α) :
    Only P (x.mark t) ↔ Only (fun e => P (t, e)) x := List.forall_mem_map

end Only

end Traces
