import CPrograms.Mytbf.Table

/-!
# The token buckets of `signal/mytbf/mytbf.c` and `signal/mytbf/mytbf_sigaction.c`

The two files differ in their signal handlers (`File`).  The calls are those of
`udp_prog/libmytbf/mytbf.c`, and so are the events of a run, with what the memory that `malloc`
returns holds at `me->pos`: `mytbf_init` writes the other three fields only.  `none` is a step
that is undefined: a store outside of `job`, or a handler that goes to a bucket that is freed.
-/

namespace CPrograms.SignalMytbf

open Mytbf (Event Answer mytbfMax einval)

/-- `struct mytbf_st` -/
structure MytbfSt where
  cps : Int
  token : Int
  burst : Int
  pos : Int
deriving DecidableEq

structure Sys where
  heap : Nat → Option MytbfSt
  /-- the next allocation -/
  brk : Nat
  job : Nat → Option Nat
  paused : Option (Nat × Int)

/-- One turn of a handler's loop, on the bucket in the slot. -/
def MytbfSt.tick (me : MytbfSt) : MytbfSt :=
  let token := me.token + me.cps
  { me with token := if token > me.burst then me.burst else token }

def tickSlot (job : Nat → Option Nat) (heap : Nat → Option MytbfSt) (i : Nat) :
    Option (Nat → Option MytbfSt) :=
  match job i with
  | none => some heap
  | some p =>
    match heap p with
    | none => none
    | some me => some (Function.update heap p (some me.tick))

def sigalrmHandler (s : Sys) : Option Sys :=
  ((List.range mytbfMax).foldlM (tickSlot s.job) s.heap).map fun heap => { s with heap }

def alrmAction (kernel : Bool) (s : Sys) : Option Sys :=
  if kernel = false then some s
  else ((List.range mytbfMax).foldlM (tickSlot s.job) s.heap).map fun heap => { s with heap }

inductive File
  | mytbf
  | mytbfSigaction
deriving DecidableEq

def handler : File → Bool → Sys → Option Sys
  | .mytbf, _ => sigalrmHandler
  | .mytbfSigaction, kernel => alrmAction kernel

def getFreePos (job : Nat → Option Nat) : Option Nat := Mytbf.getFreePos job

/-- `pos`: what the memory holds that `malloc` returns; `mem`: it returns some. -/
def mytbfInit (cps burst : Int) (mem : Bool) (pos : Int) (s : Sys) : Option Nat × Sys :=
  match getFreePos s.job with
  | none => (none, s)
  | some i =>
    if mem = false then (none, s)
    else
      (some s.brk,
        { s with
          heap := Function.update s.heap s.brk (some ⟨cps, 0, burst, pos⟩)
          brk := s.brk + 1
          job := Function.update s.job i (some s.brk) })

def min (a b : Int) : Int := if a > b then b else a

/-- `mytbf_fetchtoken` from a test of its loop on; `none`: it pauses. -/
def fetchLoop (p : Nat) (size : Int) (me : MytbfSt) (s : Sys) : Option Int × Sys :=
  if me.token ≤ 0 then (none, { s with paused := some (p, size) })
  else
    let n := min me.token size
    (some n,
      { s with
        heap := Function.update s.heap p (some { me with token := me.token - n })
        paused := none })

def mytbfFetchtoken (p : Nat) (size : Int) (me : MytbfSt) (s : Sys) : Option Int × Sys :=
  if size < 0 then (some (-einval), s) else fetchLoop p size me s

def mytbfReturntoken (p : Nat) (size : Int) (me : MytbfSt) (s : Sys) : Int × Sys :=
  if size < 0 then (-einval, s)
  else
    let token := me.token + size
    (size,
      { s with
        heap := Function.update s.heap p
          (some { me with token := if token > me.burst then me.burst else token }) })

/-- `me->pos` is no slot: the store is outside of `job`. -/
def mytbfDestroy (p : Nat) (me : MytbfSt) (s : Sys) : Option Sys :=
  if 0 ≤ me.pos ∧ me.pos < mytbfMax then
    some
      { s with
        heap := Function.update s.heap p none
        job := Function.update s.job me.pos.toNat none }
  else none

/-! ## Runs -/

/-- The step's call with its answer, and what `malloc`'s memory holds at `me->pos`. -/
abbrev Label := Mytbf.Label × Int

def step (file : File) (pos : Int) (s : Sys) : Event → Option (Answer × Sys)
  | .init cps burst mem =>
    if s.paused = .none then
      let (p, s) := mytbfInit cps burst mem pos s
      some (.ptr p, s)
    else none
  | .alarm kernel => (handler file kernel s).map fun s => (.none, s)
  | .fetch p size =>
    match s.paused, s.heap p with
    | .none, some me =>
      let (n, s) := mytbfFetchtoken p size me s
      some (.ofFetch n, s)
    | _, _ => none
  | .resume p size =>
    match s.heap p with
    | some me =>
      if s.paused = some (p, size) then
        let (n, s) := fetchLoop p size me s
        some (.ofFetch n, s)
      else none
    | .none => none
  | .giveBack p size =>
    match s.paused, s.heap p with
    | .none, some me =>
      let (n, s) := mytbfReturntoken p size me s
      some (.int n, s)
    | _, _ => none
  | .destroy p =>
    match s.paused, s.heap p with
    | .none, some me => (mytbfDestroy p me s).map fun s => (.int 0, s)
    | _, _ => none

def stepL (file : File) (s : Sys) (l : Label) : Option Sys :=
  (step file l.2 s l.1.1).bind fun r => if r.1 = l.1.2 then some r.2 else none

def Step (file : File) (s : Sys) (l : Label) (t : Sys) : Prop := stepL file s l = some t

/-- No bucket yet. -/
def start : Sys := ⟨fun _ => none, 0, fun _ => none, none⟩

end CPrograms.SignalMytbf
