import CPrograms.Lib.Traces
import Mathlib.Data.List.Basic

/-!
# `mnt_fs` of `bpf/bpf_iter_task_file/common.c`

The kernel is outside: `r k` is what the call number `k` of `mount` gives.  The target is made
private, and should be bound to itself first where it is no mount point; but the test on
`errno` is the wrong way round, so that this is done for every other error, and again and again
(`mntFs_repeats`).  What is promised holds only where the first call succeeds
(`mntFs_exact`).
-/

namespace CPrograms.BpfIter

open Traces

/-! ## The function -/

inductive Ret
  | ok
  | fail (errno : Nat)
deriving DecidableEq

/-- The arguments of `mount`; `none` is NULL. -/
structure Mount where
  source : String
  target : String
  filesystemtype : String
  mountflags : Nat
  data : Option String
deriving DecidableEq

def einval : Nat := 22

def msRec : Nat := 16384
def msPrivate : Nat := 262144
def msBind : Nat := 4096

def makePrivate (target : String) : Mount := ⟨"", target, "none", msPrivate ||| msRec, none⟩

def bindMount (target : String) : Mount := ⟨target, target, "none", msBind, none⟩

def mountFs (type target : String) : Mount := ⟨type, target, type, 0, some "mode=0700"⟩

/-- What `snprintf` leaves in `buff`. -/
def snprintf (buffLen : Nat) (s : String) : String := String.ofList (s.toList.take (buffLen - 1))

/-- The `while` loop from the call number `k` on, and what is behind it; the result with what was
written to `buff`. -/
def mntLoop (strerror : Nat → String) (r : Nat → Ret) (target type : String) (buffLen : Nat) :
    Nat → Nat → Bool → Traced (Mount × Ret) (Int × Option String)
  | 0, _, _ => ⟨[], none⟩
  | fuel + 1, k, bindDone => do
    emit (makePrivate target, r k)
    match r k with
    | .fail errno =>
      if errno = einval ∧ bindDone = false then
        pure (-1, some (snprintf buffLen
          ("mount --make-private " ++ target ++ " failed: " ++ strerror errno)))
      else do
        emit (bindMount target, r (k + 1))
        match r (k + 1) with
        | .fail errno =>
          pure (-1, some (snprintf buffLen
            ("mount --bind " ++ target ++ " " ++ target ++ " failed: " ++ strerror errno)))
        | .ok => mntLoop strerror r target type buffLen fuel (k + 2) true
    | .ok => do
      emit (mountFs type target, r (k + 1))
      match r (k + 1) with
      | .fail errno =>
        pure (-1, some (snprintf buffLen
          ("mount -t " ++ type ++ " " ++ type ++ " " ++ target ++ " failed: " ++ strerror errno)))
      | .ok => pure (0, none)

def mntFs (strerror : Nat → String) (r : Nat → Ret) (target type : String) (buffLen fuel : Nat) :
    Traced (Mount × Ret) (Int × Option String) :=
  mntLoop strerror r target type buffLen fuel 0 false

/-! ## What is promised -/

def IsPrivate (c : Mount × Ret) : Prop := c.1.mountflags &&& msPrivate ≠ 0

/-- The target is bound to itself. -/
def IsBind (target : String) (c : Mount × Ret) : Prop :=
  c.1.source = target ∧ c.1.target = target ∧ c.1.mountflags &&& msBind ≠ 0

instance (c : Mount × Ret) : Decidable (IsPrivate c) := inferInstanceAs (Decidable (_ ≠ _))

instance (target : String) (c : Mount × Ret) : Decidable (IsBind target c) :=
  inferInstanceAs (Decidable (_ ∧ _))

section

variable (strerror : Nat → String) (r : Nat → Ret) (target type : String) (buffLen : Nat)

structure MakesPrivate : Prop where
  ends : ∃ fuel, (mntFs strerror r target type buffLen fuel).result ≠ none
  once : ∀ fuel, (mntFs strerror r target type buffLen fuel).events.countP (IsBind target ·) ≤ 1
  falls : (∃ fuel, ∃ c ∈ (mntFs strerror r target type buffLen fuel).events, IsBind target c) ↔
    r 0 = .fail einval
  success : ∀ fuel buff, (mntFs strerror r target type buffLen fuel).result = some (0, buff) →
    ((mntFs strerror r target type buffLen fuel).events.filter (IsPrivate ·)).getLast? =
        some (makePrivate target, .ok) ∧
      (mntFs strerror r target type buffLen fuel).events.getLast? = some (mountFs type target, .ok)

theorem isBind_bindMount (x : Ret) : IsBind target (bindMount target, x) := by
  refine ⟨rfl, rfl, ?_⟩
  show msBind &&& msBind ≠ 0
  decide

theorem not_isBind_makePrivate (x : Ret) : ¬ IsBind target (makePrivate target, x) := by
  rintro ⟨-, -, h⟩
  exact absurd h (show ¬ (msPrivate ||| msRec) &&& msBind ≠ 0 by decide)

theorem not_isBind_mountFs (x : Ret) : ¬ IsBind target (mountFs type target, x) := by
  rintro ⟨-, -, h⟩
  exact absurd h (show ¬ 0 &&& msBind ≠ 0 by decide)

theorem isPrivate_makePrivate (x : Ret) : IsPrivate (makePrivate target, x) := by
  show (msPrivate ||| msRec) &&& msPrivate ≠ 0
  decide

theorem not_isPrivate_mountFs (x : Ret) : ¬ IsPrivate (mountFs type target, x) := by
  intro h
  exact absurd h (show ¬ 0 &&& msPrivate ≠ 0 by decide)

/-! ### A turn -/

section

variable {strerror r target type buffLen} {fuel k : Nat} {bindDone : Bool}

theorem mntLoop_ok (h : r k = .ok) :
    (mntLoop strerror r target type buffLen (fuel + 1) k bindDone).events =
      [(makePrivate target, .ok), (mountFs type target, r (k + 1))] := by
  rw [mntLoop, events_emit_bind, h]
  show _ :: (emit _ >>= fun _ => _).events = _
  rw [events_emit_bind]
  cases r (k + 1) with
  | ok => rfl
  | fail _ => rfl

/-- The result is that of the last call. -/
theorem mntLoop_ok_result {f : Nat} {b : Bool} (h : r k = .ok) :
    ∃ v, (mntLoop strerror r target type buffLen (f + 1) k b).result = some v ∧
      (v.1 = 0 → r (k + 1) = .ok) := by
  rw [mntLoop, result_bind, result_emit, Option.bind_some, h]
  dsimp only
  rw [result_bind, result_emit, Option.bind_some]
  cases r (k + 1) with
  | ok => exact ⟨_, rfl, fun _ => rfl⟩
  | fail _ => exact ⟨_, rfl, fun h0 => absurd h0 (show (-1 : Int) ≠ 0 by decide)⟩

theorem mntLoop_einval (h : r k = .fail einval) :
    (mntLoop strerror r target type buffLen (fuel + 1) k false).events =
      [(makePrivate target, .fail einval)] := by
  rw [mntLoop, events_emit_bind, h]
  rfl

/-- After any other error, and the second time after every error, the target is bound. -/
theorem mntLoop_bind {errno : Nat} (h : r k = .fail errno)
    (hbind : ¬ (errno = einval ∧ bindDone = false)) :
    ∃ es, (mntLoop strerror r target type buffLen (fuel + 1) k bindDone).events =
      (makePrivate target, .fail errno) :: (bindMount target, r (k + 1)) :: es := by
  rw [mntLoop, events_emit_bind, h]
  dsimp only
  rw [if_neg hbind, events_emit_bind]
  exact ⟨_, rfl⟩

theorem mntLoop_bound {errno : Nat} (h : r k = .fail errno)
    (hbind : ¬ (errno = einval ∧ bindDone = false)) (hok : r (k + 1) = .ok) :
    mntLoop strerror r target type buffLen (fuel + 1) k bindDone =
      (emit (makePrivate target, .fail errno) >>= fun _ => emit (bindMount target, .ok) >>= fun _ =>
        mntLoop strerror r target type buffLen fuel (k + 2) true) := by
  rw [mntLoop, h, hok]
  dsimp only
  rw [if_neg hbind]

end

/-- While the first call of each turn fails, with another error than `EINVAL` at first, and the target
can be bound, it is bound again and again. -/
theorem mntLoop_repeats (fuel : Nat) : ∀ (k : Nat) (bindDone : Bool),
    (∀ j, ∃ errno, r (k + 2 * j) = .fail errno ∧ ¬ (errno = einval ∧ bindDone = false)) →
    (∀ j, r (k + 2 * j + 1) = .ok) →
    (mntLoop strerror r target type buffLen fuel k bindDone).result = none ∧
      (mntLoop strerror r target type buffLen fuel k bindDone).events.countP (IsBind target ·) =
        fuel := by
  induction fuel with
  | zero => exact fun _ _ _ _ => ⟨rfl, rfl⟩
  | succ fuel ih =>
    intro k bindDone hfail hok
    obtain ⟨errno, h, hbind⟩ := hfail 0
    have hok0 : r (k + 1) = .ok := hok 0
    have hnext (j : Nat) : k + 2 * (j + 1) = k + 2 + 2 * j := by omega
    obtain ⟨hres, hcount⟩ := ih (k + 2) true
      (fun j => by
        obtain ⟨e, he, -⟩ := hfail (j + 1)
        rw [hnext] at he
        exact ⟨e, he, fun hf => absurd hf.2 (by decide)⟩)
      (fun j => by
        have hj := hok (j + 1)
        rwa [hnext] at hj)
    rw [mntLoop_bound (k := k) h hbind hok0, result_bind, result_emit, Option.bind_some, result_bind,
      result_emit, Option.bind_some, events_emit_bind, events_emit_bind]
    refine ⟨hres, ?_⟩
    rw [List.countP_cons_of_neg (by simpa using not_isBind_makePrivate target _),
      List.countP_cons_of_pos (by simpa using isBind_bindMount target _), hcount]

/-! ### All runs -/

theorem makesPrivate_of_ok (h : r 0 = .ok) : MakesPrivate strerror r target type buffLen := by
  have hevents (fuel : Nat) : (mntFs strerror r target type buffLen (fuel + 1)).events =
      [(makePrivate target, .ok), (mountFs type target, r 1)] := mntLoop_ok h
  have hnobind (fuel : Nat) : ∀ c ∈ (mntFs strerror r target type buffLen fuel).events,
      ¬ IsBind target c := by
    intro c hc
    cases fuel with
    | zero => exact absurd hc List.not_mem_nil
    | succ fuel =>
      rw [hevents, List.mem_cons, List.mem_singleton] at hc
      rcases hc with rfl | rfl
      · exact not_isBind_makePrivate target _
      · exact not_isBind_mountFs target type _
  constructor
  · obtain ⟨v, hv, -⟩ := mntLoop_ok_result (f := 0) (b := false) h
    refine ⟨1, ?_⟩
    show (mntLoop strerror r target type buffLen 1 0 false).result ≠ none
    rw [hv]
    exact Option.some_ne_none v
  · intro fuel
    rw [List.countP_eq_zero.2 (by simpa using hnobind fuel)]
    exact Nat.zero_le 1
  · refine iff_of_false ?_ ?_
    · rintro ⟨fuel, c, hc, hbind⟩
      exact hnobind fuel c hc hbind
    · rw [h]
      exact fun he => absurd he (by decide)
  · intro fuel buff hres
    cases fuel with
    | zero => cases hres
    | succ fuel =>
      obtain ⟨v, hv, hone⟩ := mntLoop_ok_result (f := fuel) (b := false) h
      have hv0 : v = (0, buff) := Option.some.inj (hv.symm.trans hres)
      have hone : r 1 = .ok := hone (by rw [hv0])
      rw [hevents, hone]
      refine ⟨?_, rfl⟩
      rw [List.filter_cons_of_pos (by simpa using isPrivate_makePrivate target _),
        List.filter_cons_of_neg (by simpa using not_isPrivate_mountFs target type _)]
      rfl

/-- For `EINVAL` it is not bound, and for every other error it is. -/
theorem not_makesPrivate_of_fail {errno : Nat} (h : r 0 = .fail errno) :
    ¬ MakesPrivate strerror r target type buffLen := by
  intro hm
  by_cases he : errno = einval
  · obtain ⟨fuel, c, hc, hbind⟩ := hm.falls.2 (he ▸ h)
    cases fuel with
    | zero => exact absurd hc List.not_mem_nil
    | succ fuel =>
      have hevents : (mntFs strerror r target type buffLen (fuel + 1)).events =
          [(makePrivate target, .fail einval)] := mntLoop_einval (he ▸ h)
      rw [hevents, List.mem_singleton] at hc
      exact not_isBind_makePrivate target _ (hc ▸ hbind)
  · have hbound : ∃ es, (mntLoop strerror r target type buffLen 1 0 false).events =
        (makePrivate target, .fail errno) :: (bindMount target, r 1) :: es :=
      mntLoop_bind h (fun hf => he hf.1)
    obtain ⟨es, hevents⟩ := hbound
    have hzero := hm.falls.1 ⟨1, (bindMount target, r 1), by
      show _ ∈ (mntLoop strerror r target type buffLen 1 0 false).events
      rw [hevents]
      exact List.mem_cons_of_mem _ List.mem_cons_self, isBind_bindMount target _⟩
    exact he (Ret.fail.inj (h.symm.trans hzero))

/-- **What is promised holds** exactly where the first call of `mount` succeeds. -/
theorem mntFs_exact : MakesPrivate strerror r target type buffLen ↔ r 0 = .ok := by
  constructor
  · intro hm
    cases h : r 0 with
    | ok => rfl
    | fail errno => exact absurd hm (not_makesPrivate_of_fail strerror r target type buffLen h)
  · exact makesPrivate_of_ok strerror r target type buffLen

end

/-- A directory that is no mount point, where everything else succeeds. -/
def notMounted : Nat → Ret
  | 0 => .fail einval
  | _ => .ok

theorem notMounted_not_bound :
    ¬ MakesPrivate (fun _ => "Invalid argument") notMounted "/tmp/bpf" "bpf" 1024 :=
  not_makesPrivate_of_fail _ _ _ _ _ rfl

end CPrograms.BpfIter
