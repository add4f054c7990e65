import CPrograms.Mytbf.Table
import Mathlib.Logic.Function.Iterate

/-!
# Loading and unloading `udp_prog/libmytbf/mytbf.c`

`mytbf_init` calls `mod_load` unless `inited` says that it did before; `mod_load` replaces
the disposition of `SIGALRM` and registers `mod_unload` with `atexit`.  `inited` is never
set, so every `mytbf_init` loads the module: the second one saves the module's own handler
as the old disposition, and at exit `mod_unload` runs as often as there were calls.  The
module is loaded and unloaded once exactly where there was one call (`unloaded_iff`).  The
interval timer is left out, as nothing here depends on it.
-/

namespace CPrograms.Mytbf

open Runs

/-- What other code sets for a signal. -/
inductive Sigaction
  | dfl
  | ign
  | user (addr : Nat)
deriving DecidableEq

/-- `handler` is static, so only `mod_load` sets it. -/
inductive Disposition
  | outer (a : Sigaction)
  | handler
deriving DecidableEq

/-- `freed` counts how often an address was passed to `free`, and `atexit` the registrations
of `mod_unload`. -/
structure Proc where
  sys : Sys
  inited : Int
  sigalrm : Disposition
  oldSa : Disposition
  atexit : Nat
  freed : Nat → Nat

def free (p : Option Nat) (freed : Nat → Nat) : Nat → Nat :=
  match p with
  | none => freed
  | some p => Function.update freed p (freed p + 1)

def modUnload (u : Proc) : Proc :=
  { u with
    sigalrm := u.oldSa
    freed := (List.range mytbfMax).foldl (fun freed i => free (u.sys.job i) freed) u.freed }

def modLoad (u : Proc) : Proc :=
  { u with sigalrm := .handler, oldSa := u.sigalrm, atexit := u.atexit + 1 }

/-- A call from the process with the module around it; `init` starts with the test of
`inited`, and `destroy` ends with `free`. -/
def call (u : Proc) : Event → Option Proc
  | .init cps burst mem =>
    let u := if u.inited = 0 then modLoad u else u
    (step u.sys (.init cps burst mem)).map fun r => { u with sys := r.2 }
  | .destroy p => (step u.sys (.destroy p)).map fun r => { u with sys := r.2, freed := free (some p) u.freed }
  | e => (step u.sys e).map fun r => { u with sys := r.2 }

def CallStep (u : Proc) (e : Event) (v : Proc) : Prop := call u e = some v

/-- The `atexit` functions run, last registered first. -/
def exit (u : Proc) : Proc := modUnload^[u.atexit] u

/-- The process before the first call, with `a` set for `SIGALRM`. -/
def load (a : Sigaction) : Proc := ⟨start, 0, .outer a, .outer .dfl, 0, fun _ => 0⟩

def isInit : Event → Bool
  | .init .. => true
  | _ => false

/-- Calls of `mytbf_init`. -/
def inits (es : List Event) : Nat := es.countP isInit

/-- The disposition is back, and each bucket that was allocated has been freed once. -/
structure Unloaded (a : Sigaction) (u : Proc) : Prop where
  sigalrm : u.sigalrm = .outer a
  freed : ∀ p, p < u.sys.brk → u.freed p = 1

section
variable {u v : Proc} {a : Sigaction} {e : Event} {es : List Event}

/-! ## At exit -/

theorem foldl_free {job : Nat → Option Nat} {p : Nat} (hinj : ∀ i j, job i = some p → job j = some p → i = j)
    (slots : List Nat) (hnd : slots.Nodup) (freed : Nat → Nat) :
    slots.foldl (fun freed i => free (job i) freed) freed p =
      freed p + if ∃ i ∈ slots, job i = some p then 1 else 0 := by
  induction slots generalizing freed with
  | nil => simp
  | cons i slots ih =>
    obtain ⟨hi, hnd⟩ := List.nodup_cons.1 hnd
    have hfree : free (job i) freed p = freed p + if job i = some p then 1 else 0 := by
      unfold free
      cases hj : job i with
      | none => simp
      | some q =>
        by_cases hq : p = q
        · subst hq
          simp
        · rw [if_neg (by simpa using Ne.symm hq)]
          exact Function.update_of_ne hq _ _
    rw [List.foldl_cons, ih hnd, hfree]
    by_cases hp : job i = some p
    · have hno : ¬∃ j ∈ slots, job j = some p := by
        rintro ⟨j, hj, hjp⟩
        exact hi (hinj i j hp hjp ▸ hj)
      rw [if_pos hp, if_neg hno, if_pos ⟨i, List.mem_cons_self, hp⟩]
    · rw [if_neg hp, Nat.add_zero]
      congr 1
      refine if_congr ?_ rfl rfl
      constructor
      · rintro ⟨j, hj, hjp⟩
        exact ⟨j, List.mem_cons_of_mem _ hj, hjp⟩
      · rintro ⟨j, hj, hjp⟩
        rcases List.mem_cons.1 hj with rfl | hj
        · exact absurd hjp hp
        · exact ⟨j, hj, hjp⟩

/-- `mod_unload` frees each live bucket once, whatever was freed before. -/
theorem modUnload_freed (h : Table u.sys) (p : Nat) :
    (modUnload u).freed p = u.freed p + if (u.sys.heap p).isSome then 1 else 0 := by
  have hiff : (∃ i ∈ List.range mytbfMax, u.sys.job i = some p) ↔ (u.sys.heap p).isSome := by
    constructor
    · rintro ⟨i, -, hi⟩
      obtain ⟨b, hb, -⟩ := h.slot i p hi
      rw [hb]
      rfl
    · intro hsome
      obtain ⟨b, hb⟩ := Option.isSome_iff_exists.1 hsome
      obtain ⟨h1, h2⟩ := h.bucket p b hb
      exact ⟨b.pos, List.mem_range.2 h1, h2⟩
  unfold modUnload
  dsimp only
  rw [foldl_free (fun i j => h.inj) _ List.nodup_range, if_congr hiff rfl rfl]

theorem iterate_modUnload (h : Table u.sys) (k : Nat) :
    (modUnload^[k] u).sys = u.sys ∧ (modUnload^[k] u).oldSa = u.oldSa ∧
      (0 < k → (modUnload^[k] u).sigalrm = u.oldSa) ∧
      ∀ p, (modUnload^[k] u).freed p = u.freed p + if (u.sys.heap p).isSome then k else 0 := by
  induction k with
  | zero => simp
  | succ k ih =>
    obtain ⟨hsys, hold, -, hfreed⟩ := ih
    rw [Function.iterate_succ_apply']
    refine ⟨hsys, hold, fun _ => hold, fun p => ?_⟩
    rw [modUnload_freed (by rw [hsys]; exact h), hfreed, hsys]
    split <;> omega

/-! ## Runs -/

/-- The module after the calls `es`. -/
structure Module (a : Sigaction) (es : List Event) (u : Proc) : Prop where
  table : Table u.sys
  inited : u.inited = 0
  atexit : u.atexit = inits es
  sigalrm : u.sigalrm = if inits es = 0 then .outer a else .handler
  oldSa : 0 < inits es → u.oldSa = if inits es = 1 then .outer a else .handler
  freed : ∀ p, u.freed p = if p < u.sys.brk ∧ u.sys.heap p = none then 1 else 0

theorem module_load (a : Sigaction) : Module a [] (load a) :=
  ⟨table_start, rfl, rfl, rfl, fun h => absurd h (Nat.lt_irrefl 0),
    fun _ => (if_neg fun h => absurd h.1 (Nat.not_lt_zero _)).symm⟩

theorem inits_snoc (es : List Event) (e : Event) : inits (es ++ [e]) = inits es + if isInit e then 1 else 0 := by
  unfold inits
  rw [List.countP_append, List.countP_singleton]

/-- A call that is no `destroy` releases no bucket. -/
theorem released_keep {s t : Sys} {l : Label} (h : Table s) (hs : Step s l t) (hl : ∀ p, l.1 ≠ .destroy p)
    (p : Nat) : (p < t.brk ∧ t.heap p = none) ↔ (p < s.brk ∧ s.heap p = none) := by
  have hrefill : ∀ {q : Nat} {b : Tbf} (b' : Tbf), s.heap q = some b →
      ((refill q b' s).heap p = none ↔ s.heap p = none) := by
    intro q b b' hb
    rw [refill_apply]
    by_cases hpq : p = q
    · subst hpq
      simp [hb]
    · rw [if_neg hpq]
  cases step_effect hs with
  | full | other | inval | pause | invalBack => exact Iff.rfl
  | create =>
    by_cases hp : p = s.brk
    · subst hp
      simp [place]
    · have hlt : p < s.brk + 1 ↔ p < s.brk := by omega
      simp only [place, Function.update_of_ne hp, hlt]
  | tick =>
    rw [(handler_rest s).2.1, handler_heap h, Option.map_eq_none_iff]
  | fetch hb => exact and_congr_right fun _ => hrefill _ hb
  | giveBack _ hb => exact and_congr_right fun _ => hrefill _ hb
  | destroy => exact absurd rfl (hl _)

theorem Module.call (h : Module a es u) (hc : CallStep u e v) : Module a (es ++ [e]) v := by
  -- a call of the process is a step of the buckets
  have hstep : ∀ {r : Answer × Sys}, step u.sys e = some r → Step u.sys (e, r.1) r.2 := by
    intro r hr
    unfold Step stepL
    rw [hr, Option.bind_some, if_pos rfl]
  have hkeep : ∀ {r : Answer × Sys}, step u.sys e = some r → (∀ p, e ≠ .destroy p) →
      ∀ p, u.freed p = if p < r.2.brk ∧ r.2.heap p = none then 1 else 0 := by
    intro r hr hl p
    rw [h.freed, if_congr (released_keep h.table (hstep hr) hl p) rfl rfl]
  have hother : isInit e = false → ∀ {r : Answer × Sys}, step u.sys e = some r → ∀ freed : Nat → Nat,
      (∀ p, freed p = if p < r.2.brk ∧ r.2.heap p = none then 1 else 0) →
      Module a (es ++ [e]) { u with sys := r.2, freed := freed } := by
    intro hi r hr freed hfreed
    have hinits : inits (es ++ [e]) = inits es := by
      rw [inits_snoc, hi]
      rfl
    refine ⟨h.table.step (hstep hr), h.inited, ?_, ?_, ?_, hfreed⟩
    · rw [hinits]
      exact h.atexit
    · rw [hinits]
      exact h.sigalrm
    · rw [hinits]
      exact h.oldSa
  unfold CallStep Mytbf.call at hc
  cases e with
  | init cps burst mem =>
    dsimp only at hc
    rw [if_pos h.inited] at hc
    obtain ⟨r, hr, rfl⟩ := Option.map_eq_some_iff.1 hc
    have hinits : inits (es ++ [.init cps burst mem]) = inits es + 1 := inits_snoc _ _
    refine ⟨h.table.step (hstep hr), h.inited, ?_, ?_, fun _ => ?_, hkeep hr nofun⟩
    · rw [hinits]
      exact congrArg (· + 1) h.atexit
    · rw [hinits, if_neg (by omega)]
      rfl
    · rw [hinits]
      show u.sigalrm = _
      rw [h.sigalrm]
      exact if_congr (by omega) rfl rfl
  | destroy p =>
    obtain ⟨r, hr, rfl⟩ := Option.map_eq_some_iff.1 hc
    refine hother rfl hr _ fun q => ?_
    obtain ⟨ans, t⟩ := r
    cases step_effect (hstep hr) with
    | @destroy _ b hp hb =>
      have hlt := h.table.fresh p b hb
      by_cases hq : q = p
      · subst hq
        rw [show free (some q) u.freed q = u.freed q + 1 from Function.update_self .., h.freed, hb]
        simp [hlt]
      · rw [show free (some p) u.freed q = u.freed q from Function.update_of_ne hq .., h.freed]
        simp only [Function.update_of_ne hq]
    | pause _ _ he => rcases he with ⟨he, -⟩ | ⟨he, -⟩ <;> cases he
    | fetch _ _ he => rcases he with ⟨he, -⟩ | ⟨he, -⟩ <;> cases he
  | alarm | fetch | resume | giveBack =>
    obtain ⟨r, hr, rfl⟩ := Option.map_eq_some_iff.1 hc
    exact hother rfl hr _ (hkeep hr nofun)

theorem run_module (h : Run CallStep (load a) es u) : Module a es u :=
  h.history (Module a) (fun _ _ _ _ hm hc => hm.call hc) (module_load a)

/-- **Unloaded once.**  After the process has exited all is as it should be just where
`mytbf_init` was called once. -/
theorem unloaded_iff (h : Run CallStep (load a) es u) (hpos : 0 < inits es) :
    Unloaded a (exit u) ↔ inits es = 1 := by
  have hm := run_module h
  obtain ⟨hsys, -, hsig, hfreed⟩ := iterate_modUnload hm.table u.atexit
  have hsig := hsig (by rw [hm.atexit]; exact hpos)
  rw [hm.oldSa hpos] at hsig
  rw [hm.atexit] at hfreed
  constructor
  · intro hu
    by_contra hne
    rw [if_neg hne] at hsig
    cases hu.sigalrm.symm.trans hsig
  · intro hone
    rw [if_pos hone] at hsig
    refine ⟨hsig, fun p hp => ?_⟩
    have hp : p < u.sys.brk := by
      rw [← hsys]
      exact hp
    show (modUnload^[u.atexit] u).freed p = 1
    rw [hm.atexit, hfreed, hm.freed, hone]
    cases hb : u.sys.heap p with
    | none => simp [hp]
    | some b => simp

/-- One bucket, left to the exit. -/
theorem unloaded_one : ∃ u, Run CallStep (load .ign) [.init 2 5 true] u ∧ Unloaded .ign (exit u) := by
  obtain ⟨u, hrun, -⟩ := run_of_exec_map call (load .ign) [.init 2 5 true] (fun u => u.atexit) (a := 1)
    (by decide +kernel)
  exact ⟨u, hrun, (unloaded_iff hrun (by decide)).2 rfl⟩

/-- Two buckets: the handler stays, and each bucket is freed twice. -/
theorem unloaded_twice : ¬ ∀ (a : Sigaction) (es : List Event) (u : Proc), Run CallStep (load a) es u →
    0 < inits es → Unloaded a (exit u) := by
  intro h
  obtain ⟨u, hrun, hg⟩ := run_of_exec_map call (load .ign) [.init 2 5 true, .init 2 5 true]
    (fun u => (u.atexit, u.oldSa)) (a := (2, .handler)) (by decide +kernel)
  obtain ⟨hat, hold⟩ := Prod.mk.inj hg
  have hu := (h .ign _ u hrun (by decide)).sigalrm
  unfold exit at hu
  rw [hat, Function.iterate_succ_apply'] at hu
  have hsig : (modUnload (modUnload^[1] u)).sigalrm = u.oldSa := rfl
  rw [hsig, hold] at hu
  cases hu

end

end CPrograms.Mytbf
